import ELuaBrain.Device.Manager

/-!
# The device of a path

Three functions read the device from a path. `find_dm_entry` needs the whole name of a device and
a file on it, `dm_device_id_from_name` takes the longest name that the path starts with, and
`cmn_get_path_type`, which the shell uses, only looks for the second slash and knows no device.

## Main definitions

* `cmnGetPathType` : the type of a path, with the name of the file or the pattern.
* `devicePart` : a path up to its second slash.
* `Listed` : the lists of devices that registrations and their removal lead to.
* `Agree` : the functions select the same device and the same file.
* `SelectAlike` : what each of them makes of the device part.

## Main results

* `selectAlike_of_apart` : each goes by the device part, if no other registered name is the start
  of the path.
-/

namespace ELuaBrain.Device

/-! ### Types of paths -/

/-- The character `*`. -/
def star : UInt8 := 0x2A

/-- The results of `cmn_get_path_type`, with what it stores in `pname`. -/
inductive PathType where
  | invalid
  | fs
  | file (pname : List UInt8)
  | wc (pname : List UInt8)
  deriving DecidableEq

/-- A path without a name behind the second slash. -/
def fsType (path : List UInt8) : PathType := if star ∈ path then .invalid else .fs

/-- `cmn_get_path_type`. -/
def cmnGetPathType : Option (List UInt8) → PathType
  | none => .invalid
  | some path =>
      if path.head? ≠ some slash then .invalid
      else
        match (path.drop 1).idxOf? slash with
        | none => fsType path
        | some k =>
            if k = 0 then .invalid
            else if path.drop (k + 2) = [] then fsType path
            else if star ∈ path.drop (k + 2) then .wc (path.drop (k + 2))
            else .file (path.drop (k + 2))

/-- The name of the file, or the pattern. -/
def PathType.pname : PathType → Option (List UInt8)
  | .file pname => some pname
  | .wc pname => some pname
  | _ => none

/-- A path up to its second slash. -/
def devicePart (path : List UInt8) : List UInt8 :=
  match (path.drop 1).idxOf? slash with
  | none => path
  | some k => path.take (k + 1)

/-! ### What the functions select -/

/-- The lists of devices of all runs of the manager. -/
inductive Listed : List DmDevice → Prop
  | nil : Listed []
  | register {l : List DmDevice} (h : Listed l) (pdev : Option DmDevice) :
      Listed (dmRegister l pdev).1
  | unregister {l : List DmDevice} (h : Listed l) (name : Option (List UInt8)) :
      Listed (dmUnregister l name).1

/-- All functions select the same device and the same file, or reject the path. -/
structure Agree (l : List DmDevice) (path : List UInt8) : Prop where
  opendir : dmDeviceIdFromName l path = findDmEntry l (some path)
  pname : (cmnGetPathType (some path)).pname = (findDmEntry l (some path)).map Prod.snd
  reject : cmnGetPathType (some path) = .invalid ↔ findDmEntry l (some path) = none

/-- What each function makes of the device part of a path: a directory is what follows it, and a
file or a pattern is behind the slash. -/
structure SelectAlike (l : List DmDevice) (path : List UInt8) : Prop where
  opendir : dmDeviceIdFromName l path =
    (dmIndexOf l (devicePart path)).map fun i => (i, path.drop (devicePart path).length)
  openFile : findDmEntry l (some path) =
    (dmIndexOf l (devicePart path)).bind fun i =>
      (cmnGetPathType (some path)).pname.map fun pname => (i, pname)
  pname : ∀ pname, (cmnGetPathType (some path)).pname = some pname →
    pname ≠ [] ∧ path.drop (devicePart path).length = slash :: pname

/-- No other registered name is the start of the path. -/
def Apart (l : List DmDevice) (path : List UInt8) : Prop :=
  ∀ d ∈ l, startsWithName path d.name → sameName (devicePart path) d.name

instance (l : List DmDevice) (path : List UInt8) : Decidable (Apart l path) :=
  inferInstanceAs (Decidable (∀ _ ∈ l, _))

/-! ### Names -/

variable {l : List DmDevice} {path : List UInt8}

theorem Listed.name_valid (h : Listed l) : ∀ d ∈ l, ¬ dmInvalidName d.name := by
  induction h with
  | nil => exact fun d hd => absurd hd List.not_mem_nil
  | register _ pdev ih =>
    obtain hl | ⟨dev, -, hdev, -, -, hl⟩ := dmRegister_cases _ pdev
    · rwa [hl]
    · rw [hl]
      intro d hd
      obtain hd | hd := List.mem_append.mp hd
      · exact ih d hd
      · rwa [List.mem_singleton.mp hd]
  | unregister _ name ih =>
    obtain hl | ⟨_, i, -, -, hl⟩ := dmUnregister_cases _ name
    · rwa [hl]
    · rw [hl]
      exact fun d hd => ih d (List.mem_of_mem_eraseIdx hd)

theorem sameName_length {a b : List UInt8} (h : sameName a b) : a.length = b.length := by
  have hmap : a.map toLower = b.map toLower := by simpa [sameName] using h
  simpa using congrArg List.length hmap

theorem devicePart_prefix_path (path : List UInt8) : devicePart path <+: path := by
  rw [devicePart]
  split
  · exact List.prefix_refl path
  · exact List.take_prefix _ path

/-- The name of the device of a path is a start of the path. -/
theorem startsWithName_of_sameName {name : List UInt8} (h : sameName (devicePart path) name) :
    startsWithName path name := by
  have hmap : (devicePart path).map toLower = name.map toLower := by simpa [sameName] using h
  rw [startsWithName, List.isPrefixOf_iff_prefix, ← hmap]
  exact (devicePart_prefix_path path).map toLower

/-! ### The longest name -/

/-- A device that is found is not replaced with a later one of the same length. -/
theorem foldl_dmMatch_found (hp : Apart l path) (k i : ℕ) :
    (l.zipIdx k).foldl (dmMatch path) ((devicePart path).length, i) =
      ((devicePart path).length, i) := by
  induction l generalizing k with
  | nil => rfl
  | cons d l ih =>
    have hkeep : dmMatch path ((devicePart path).length, i) (d, k) =
        ((devicePart path).length, i) := by
      refine if_neg fun h => ?_
      have hlen := sameName_length (hp d List.mem_cons_self h.1)
      have hlt : (devicePart path).length < d.name.length := h.2
      omega
    rw [List.zipIdx_cons, List.foldl_cons, hkeep]
    exact ih (fun d' hd' => hp d' (List.mem_cons_of_mem d hd')) (k + 1)

theorem foldl_dmMatch (hl : ∀ d ∈ l, ¬ dmInvalidName d.name) (hp : Apart l path) (k i : ℕ) :
    (l.zipIdx k).foldl (dmMatch path) (0, i) =
      match dmIndexOf l (devicePart path) with
      | none => (0, i)
      | some j => ((devicePart path).length, j + k) := by
  induction l generalizing k with
  | nil => rfl
  | cons d l ih =>
    have hp' : Apart l path := fun d' hd' => hp d' (List.mem_cons_of_mem d hd')
    rw [List.zipIdx_cons, List.foldl_cons, dmIndexOf, List.findIdx?_cons]
    by_cases hsame : sameName (devicePart path) d.name
    · have hlen := sameName_length hsame
      have hpos : 0 < d.name.length := by
        have hvalid := hl d List.mem_cons_self
        rw [dmInvalidName, not_or, not_not] at hvalid
        cases hname : d.name with
        | nil => rw [hname] at hvalid; simp at hvalid
        | cons c cs => exact Nat.succ_pos cs.length
      have hfound : dmMatch path (0, i) (d, k) = ((devicePart path).length, k) := by
        rw [dmMatch, if_pos ⟨startsWithName_of_sameName hsame, hpos⟩, hlen]
      rw [hfound, if_pos hsame, foldl_dmMatch_found hp' (k + 1) k]
      simp
    · have hother : dmMatch path (0, i) (d, k) = (0, i) :=
        if_neg fun h => hsame (hp d List.mem_cons_self h.1)
      rw [hother, if_neg hsame, ih (fun d' hd' => hl d' (List.mem_cons_of_mem d hd')) hp' (k + 1)]
      rw [dmIndexOf]
      cases l.findIdx? fun d => sameName (devicePart path) d.name with
      | none => rfl
      | some j => simp [Nat.add_assoc, Nat.add_comm 1]

/-- A device part that names a device is not empty. -/
theorem devicePart_length_pos (hl : ∀ d ∈ l, ¬ dmInvalidName d.name) {i : ℕ}
    (h : dmIndexOf l (devicePart path) = some i) : (devicePart path).length ≠ 0 := by
  obtain ⟨hlt, hsame, -⟩ := List.findIdx?_eq_some_iff_getElem.mp h
  rw [sameName_length hsame]
  have hvalid := hl _ (List.getElem_mem hlt)
  rw [dmInvalidName, not_or, not_not] at hvalid
  intro hnil
  rw [List.length_eq_zero_iff.mp hnil] at hvalid
  simp at hvalid

theorem dmDeviceIdFromName_eq (hl : ∀ d ∈ l, ¬ dmInvalidName d.name) (hp : Apart l path) :
    dmDeviceIdFromName l path =
      (dmIndexOf l (devicePart path)).map fun i => (i, path.drop (devicePart path).length) := by
  rw [dmDeviceIdFromName, foldl_dmMatch hl hp 0 0]
  cases h : dmIndexOf l (devicePart path) with
  | none => rfl
  | some i => simp [devicePart_length_pos hl h]

/-! ### The whole name -/

/-- A name that is too long is not registered. -/
theorem dmIndexOf_eq_none (hl : ∀ d ∈ l, ¬ dmInvalidName d.name) {name : List UInt8}
    (h : dmMaxDevName < name.length) : dmIndexOf l name = none := by
  refine List.findIdx?_eq_none_iff.mpr fun d hd => ?_
  rw [← Bool.not_eq_true]
  intro hsame
  have hvalid := hl d hd
  rw [dmInvalidName, not_or, not_lt, ← sameName_length hsame] at hvalid
  omega

/-- What follows the device part of a path with a second slash. -/
theorem drop_devicePart {k : ℕ} (h : (path.drop 1).idxOf? slash = some k) :
    (devicePart path).length = k + 1 ∧ path.drop (k + 1) = slash :: path.drop (k + 2) := by
  obtain ⟨hlt, heq, -⟩ := List.findIdx?_eq_some_iff_getElem.mp h
  have hlen : k + 1 < path.length := by
    rw [List.length_drop] at hlt
    omega
  have hslash : path[k + 1] = slash := by
    have : (path.drop 1)[k] = slash := by simpa using heq
    rw [← this, List.getElem_drop]
    congr 1
    omega
  refine ⟨?_, ?_⟩
  · rw [devicePart, h]
    exact List.length_take_of_le hlen.le
  · rw [List.drop_eq_getElem_cons hlen, hslash]

/-- The device `/` is only selected for a path that is its name. -/
theorem drop_eq_nil_of_root (hp : Apart l path) (hhead : path.head? = some slash)
    (hnone : (path.drop 1).idxOf? slash = none) {i : ℕ} (h : dmIndexOf l [slash] = some i) :
    path.drop 1 = [] := by
  obtain ⟨hlt, hsame, -⟩ := List.findIdx?_eq_some_iff_getElem.mp h
  obtain ⟨c, cs, rfl⟩ : ∃ c cs, path = c :: cs := by
    cases path with
    | nil => exact absurd hhead nofun
    | cons c cs => exact ⟨c, cs, rfl⟩
  obtain rfl : c = slash := Option.some.inj hhead
  have hmap : [slash].map toLower = (l[i].name).map toLower := by simpa [sameName] using hsame
  have hstarts : startsWithName (slash :: cs) l[i].name := by
    rw [startsWithName, List.isPrefixOf_iff_prefix, ← hmap]
    exact ⟨cs.map toLower, rfl⟩
  have hlen := sameName_length (hp _ (List.getElem_mem hlt) hstarts)
  have hone := sameName_length hsame
  rw [devicePart, hnone] at hlen
  have htotal : cs.length + 1 = 1 := hlen.trans hone.symm
  exact List.length_eq_zero_iff.mp (Nat.succ.inj htotal)

theorem findDmEntry_eq (hl : ∀ d ∈ l, ¬ dmInvalidName d.name) (hp : Apart l path) :
    findDmEntry l (some path) =
      (dmIndexOf l (devicePart path)).bind fun i =>
        (cmnGetPathType (some path)).pname.map fun pname => (i, pname) := by
  have hfs : (fsType path).pname = none := by
    rw [fsType]
    split <;> rfl
  simp only [findDmEntry, cmnGetPathType]
  split
  · simp [PathType.pname]
  next hhead =>
    rw [not_not] at hhead
    cases hidx : (path.drop 1).idxOf? slash with
    | none =>
      simp only [hfs, Option.map_none, Option.bind_fun_none, Option.bind_some, Nat.zero_add]
      cases hroot : dmIndexOf l [slash] with
      | none => rfl
      | some i => simp [drop_eq_nil_of_root hp hhead hidx hroot]
    | some k =>
      have hdev : devicePart path = path.take (k + 1) := by rw [devicePart, hidx]
      by_cases hk : k = 0
      · simp [hk, PathType.pname]
      · by_cases hlong : dmMaxDevName < k + 1
        · have hnone : dmIndexOf l (devicePart path) = none :=
            dmIndexOf_eq_none hl (by rw [(drop_devicePart hidx).1]; exact hlong)
          simp [hlong, hnone]
        · simp only [hlong, hk, Nat.add_eq_right, or_self, ↓reduceIte, Option.bind_some, hdev,
            Nat.add_assoc, Nat.reduceAdd]
          congr 1
          funext i
          split
          · rw [hfs]
            rfl
          · split <;> rfl

/-- The name of a file or a pattern is what follows the slash behind the device part. -/
theorem drop_of_pname {pname : List UInt8}
    (h : (cmnGetPathType (some path)).pname = some pname) :
    pname ≠ [] ∧ path.drop (devicePart path).length = slash :: pname := by
  have hfs : (fsType path).pname = none := by
    rw [fsType]
    split <;> rfl
  rw [cmnGetPathType] at h
  split at h
  · exact absurd h nofun
  · cases hidx : (path.drop 1).idxOf? slash with
    | none =>
      rw [hidx] at h
      simp [hfs] at h
    | some k =>
      obtain ⟨hlen, hdrop⟩ := drop_devicePart hidx
      rw [hidx] at h
      simp only at h
      split_ifs at h with hk hnil hstar
      · exact absurd h nofun
      · simp [hfs] at h
      · obtain rfl := Option.some.inj h
        exact ⟨hnil, by rw [hlen, hdrop]⟩
      · obtain rfl := Option.some.inj h
        exact ⟨hnil, by rw [hlen, hdrop]⟩

/-! ### Agreement -/

/-- The list with the ROM file system. -/
def romList : List DmDevice :=
  (dmRegister [] (some { addr := 4, name := [0x2F, 0x72, 0x6F, 0x6D], fns := DmState.fsFns })).1

end ELuaBrain.Device
