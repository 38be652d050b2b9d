import ELuaBrain.System.Reach
import Mathlib.Data.List.Nodup
import Mathlib.Data.Nat.Bitwise

/-!
# The device manager

The code of `devman.c` and of the file functions of `stubs.c`. A descriptor is the index of its
device in `dm_list` with the descriptor that the device gave. `dm_unregister` moves the later
devices down by one, and the functions of `stubs.c` use what `dm_get_device_at` gives without a
check. `DmState.Careful` is the condition under which neither shows.

## Main definitions

* `DmDevice`, `dmRegister`, `dmUnregister`, `dmGetDeviceAt` : the list of devices.
* `openR`, `closeR`, `dmOpendir`, `dmClosedir` and others : the calls, as far as the manager goes.
* `DmState` : the list of devices with the open files and directories.
* `DmState.Routed` : every call with an open file or directory goes to the device that opened it.

## Main results

* `routed_of_careful` : it does in every run whose calls meet the condition.
* `dmGetaddr_isSome` : the sibling that checks the device refuses every other descriptor.
-/

namespace ELuaBrain.Device

/-! ### The list of devices -/

/-- The functions of a `DM_DEVICE`. -/
inductive DmFn where
  | open
  | close
  | write
  | read
  | lseek
  | opendir
  | readdir
  | closedir
  | getaddr
  | unlink
  deriving DecidableEq

/-- `DM_DEVICE`: where it is, the bytes of its name before the final zero, and the functions of it
that are not `NULL`. -/
structure DmDevice where
  addr : ℕ
  name : List UInt8
  fns : List DmFn
  deriving DecidableEq

/-- `DM_MAX_DEVICES`. -/
def dmMaxDevices : ℕ := 16

/-- `DM_MAX_DEV_NAME`. -/
def dmMaxDevName : ℕ := 12

/-- `DM_ERR_ALREADY_REGISTERED` and the other results. -/
def dmErrAlreadyRegistered : ℤ := -1
def dmErrNotRegistered : ℤ := -2
def dmErrNoSpace : ℤ := -3
def dmErrInvalidName : ℤ := -4
def dmOk : ℤ := 0

/-- The character `/`. -/
def slash : UInt8 := 0x2F

/-- `tolower`. -/
def toLower (c : UInt8) : UInt8 := if 0x41 ≤ c ∧ c ≤ 0x5A then c + 0x20 else c

/-- `strcasecmp` finds no difference. -/
def sameName (a b : List UInt8) : Bool := a.map toLower == b.map toLower

/-- `strncasecmp` finds no difference between `name` and `dev` in the length of `dev`. -/
def startsWithName (name dev : List UInt8) : Bool := (dev.map toLower).isPrefixOf (name.map toLower)

/-- The loops that look for a device by its name. -/
def dmIndexOf (l : List DmDevice) (name : List UInt8) : Option ℕ :=
  l.findIdx? fun d => sameName name d.name

/-- The name of a device starts with a slash and is not too long. -/
def dmInvalidName (name : List UInt8) : Prop :=
  name.head? ≠ some slash ∨ dmMaxDevName < name.length

instance (name : List UInt8) : Decidable (dmInvalidName name) :=
  inferInstanceAs (Decidable (_ ∨ _))

/-- `dm_register`, with the list after it. -/
def dmRegister (l : List DmDevice) : Option DmDevice → List DmDevice × ℤ
  | none => (l, dmErrInvalidName)
  | some pdev =>
      if dmInvalidName pdev.name then (l, dmErrInvalidName)
      else if (dmIndexOf l pdev.name).isSome then (l, dmErrAlreadyRegistered)
      else if l.length = dmMaxDevices then (l, dmErrNoSpace)
      else (l ++ [pdev], l.length)

/-- `dm_unregister`, with the list after it. -/
def dmUnregister (l : List DmDevice) : Option (List UInt8) → List DmDevice × ℤ
  | none => (l, dmErrInvalidName)
  | some name =>
      if dmInvalidName name then (l, dmErrInvalidName)
      else
        match dmIndexOf l name with
        | none => (l, dmErrNotRegistered)
        | some i => (l.eraseIdx i, dmOk)

/-- `dm_get_device_at`. -/
def dmGetDeviceAt (l : List DmDevice) (idx : ℤ) : Option DmDevice :=
  if idx < 0 ∨ (l.length : ℤ) ≤ idx then none else l[idx.toNat]?

/-- The body of the loop of `dm_device_id_from_name`, on `matchlen` and `pos`. -/
def dmMatch (name : List UInt8) (best : ℕ × ℕ) (d : DmDevice × ℕ) : ℕ × ℕ :=
  if startsWithName name d.1.name ∧ best.1 < d.1.name.length then (d.1.name.length, d.2) else best

/-- `dm_device_id_from_name`, with the rest of the name. -/
def dmDeviceIdFromName (l : List DmDevice) (name : List UInt8) : Option (ℕ × List UInt8) :=
  let best := l.zipIdx.foldl (dmMatch name) (0, 0)
  if best.1 = 0 then none else some (best.2, name.drop best.1)

/-- `find_dm_entry`, with the name of the file on the device. -/
def findDmEntry (l : List DmDevice) : Option (List UInt8) → Option (ℕ × List UInt8)
  | none => none
  | some name =>
      if name.head? ≠ some slash then none
      else
        let found : Option (List UInt8 × ℕ) :=
          match (name.drop 1).idxOf? slash with
          -- a name without a second slash is one on the device "/"
          | none => some ([slash], 0)
          | some k =>
              if dmMaxDevName < k + 1 ∨ k + 1 = 1 then none else some (name.take (k + 1), k + 1)
        found.bind fun (tempname, preal) =>
          (dmIndexOf l tempname).bind fun i =>
            if name.drop (preal + 1) = [] then none else some (i, name.drop (preal + 1))

/-! ### Descriptors -/

/-- `DM_MAKE_DESC`. -/
def dmMakeDesc (devid fd : ℕ) : ℤ := (devid <<< 11 ||| fd : ℕ)

/-- `DM_GET_DEVID`, which shifts the sign in. -/
def dmGetDevid (desc : ℤ) : ℤ := desc / 2048

/-- `DM_GET_FD`. -/
def dmGetFd (desc : ℤ) : ℤ := desc % 2048

/-- The error numbers that the manager sets. -/
inductive DmErrno where
  | enodev
  | enosys
  | ebadf
  | enomem
  deriving DecidableEq

/-- What becomes of a call with a descriptor: it goes to a function of a device, with the descriptor
that it has there, or it is refused. -/
inductive DmRoute where
  | call (dev : DmDevice) (fn : DmFn) (fd : ℤ)
  | refused (errno : DmErrno)
  deriving DecidableEq

/-- An open file: its descriptor, the device that opened it and the descriptor there. -/
structure DmFile where
  desc : ℤ
  dev : DmDevice
  fd : ℕ
  deriving DecidableEq

/-- A `DM_DIR` that was not freed, and the device that opened it. -/
structure DmDir where
  devid : ℕ
  userdata : ℕ
  dev : DmDevice
  deriving DecidableEq

/-! ### The calls -/

/-- `_open_r`, where the device answers `res`. An error comes with the number that is set, if it is
set here, and the result. `NULL` is not a device, and what is read of it is not defined. -/
def openR (l : List DmDevice) (name : Option (List UInt8)) (res : ℤ) :
    Option (Except (Option DmErrno × ℤ) DmFile) :=
  match findDmEntry l name with
  | none => some (.error (some .enodev, -1))
  | some (devid, _) =>
      (dmGetDeviceAt l devid).map fun pdev =>
        if .open ∉ pdev.fns then .error (some .enosys, -1)
        else if res < 0 then .error (none, res)
        else .ok { desc := dmMakeDesc devid res.toNat, dev := pdev, fd := res.toNat }

/-- What `_close_r`, `_lseek_r`, `_read_r` and `_write_r` have in common. -/
def stub (fn : DmFn) (l : List DmDevice) (file : ℤ) : Option DmRoute :=
  (dmGetDeviceAt l (dmGetDevid file)).map fun pdev =>
    if fn ∈ pdev.fns then .call pdev fn (dmGetFd file) else .refused .enosys

/-- `_close_r`. -/
def closeR : List DmDevice → ℤ → Option DmRoute := stub .close

/-- `_lseek_r`. -/
def lseekR : List DmDevice → ℤ → Option DmRoute := stub .lseek

/-- `_read_r`. -/
def readR : List DmDevice → ℤ → Option DmRoute := stub .read

/-- `_write_r`. -/
def writeR : List DmDevice → ℤ → Option DmRoute := stub .write

/-- `dm_getaddr`. -/
def dmGetaddr (l : List DmDevice) (fd : ℤ) : Option DmRoute :=
  match dmGetDeviceAt l (dmGetDevid fd) with
  | none => some (.refused .enosys)
  | some pdev =>
      if .getaddr ∉ pdev.fns then some (.refused .enosys)
      else some (.call pdev .getaddr (dmGetFd fd))

/-- `dm_opendir`, where the device answers `data` and `mem` says that `malloc` finds memory. -/
def dmOpendir (l : List DmDevice) (dirname : List UInt8) (data : Option ℕ) (mem : Bool) :
    Option (Except (Option DmErrno) DmDir) :=
  match dmDeviceIdFromName l dirname with
  | none => some (.error (some .enosys))
  | some (pos, _) =>
      l[pos]?.map fun pdev =>
        if .opendir ∉ pdev.fns then .error (some .enosys)
        else
          match data with
          | none => .error none
          | some data =>
              if mem then .ok { devid := pos % 256, userdata := data, dev := pdev }
              else .error (some .enomem)

/-- `dm_readdir`. -/
def dmReaddir (l : List DmDevice) (d : DmDir) : Option DmRoute :=
  if l.length ≤ d.devid then some (.refused .ebadf)
  else
    l[d.devid]?.map fun pdev =>
      if .readdir ∉ pdev.fns then .refused .ebadf else .call pdev .readdir d.userdata

/-- `dm_closedir`. The function of the device is not compared with `NULL`. -/
def dmClosedir (l : List DmDevice) (d : DmDir) : Option DmRoute :=
  if l.length ≤ d.devid then some (.refused .ebadf)
  else
    l[d.devid]?.bind fun pdev =>
      if .closedir ∈ pdev.fns then some (.call pdev .closedir d.userdata) else none

/-! ### Runs -/

/-- The calls, with the answers of the devices. -/
inductive DmOp where
  | register (pdev : Option DmDevice)
  | unregister (name : Option (List UInt8))
  | open (name : Option (List UInt8)) (res : ℤ)
  | close (file : ℤ) (res : ℤ)
  | read (file : ℤ)
  | write (file : ℤ)
  | lseek (file : ℤ)
  | opendir (dirname : List UInt8) (data : Option ℕ) (mem : Bool)
  | readdir (d : DmDir)
  | closedir (d : DmDir)

/-- The devices, the files that were opened and not closed and the directories that were opened and
not freed. -/
structure DmState where
  list : List DmDevice := []
  files : List DmFile := []
  dirs : List DmDir := []

namespace DmState

/-- One call. A directory that was freed cannot be used. -/
def step (s : DmState) : DmOp → Option DmState
  | .register pdev => some { s with list := (dmRegister s.list pdev).1 }
  | .unregister name => some { s with list := (dmUnregister s.list name).1 }
  | .open name res =>
      (openR s.list name res).map fun
        | .error _ => s
        | .ok f => { s with files := f :: s.files }
  | .close file res =>
      (closeR s.list file).map fun
        | .call _ _ _ =>
            if 0 ≤ res then { s with files := s.files.eraseP fun f => f.desc = file } else s
        | .refused _ => s
  | .read file => (readR s.list file).map fun _ => s
  | .write file => (writeR s.list file).map fun _ => s
  | .lseek file => (lseekR s.list file).map fun _ => s
  | .opendir dirname data mem =>
      (dmOpendir s.list dirname data mem).map fun
        | .error _ => s
        | .ok d => { s with dirs := d :: s.dirs }
  | .readdir d => if d ∈ s.dirs then (dmReaddir s.list d).map fun _ => s else none
  | .closedir d =>
      if d ∈ s.dirs then
        (dmClosedir s.list d).map fun
          | .call _ _ _ => { s with dirs := s.dirs.erase d }
          | .refused _ => s
      else none

/-- Where a call of `fn` with a descriptor of `dev` has to go: to that device, if it is registered
and has the function, and else nowhere. -/
def Goes (s : DmState) (dev : DmDevice) (fn : DmFn) (fd : ℤ) (route : Option DmRoute) : Prop :=
  if dev ∈ s.list ∧ fn ∈ dev.fns then route = some (.call dev fn fd)
  else ∃ errno, route = some (.refused errno)

/-- Every call with an open file or directory goes to the device that opened it, with the descriptor
of that device, or is refused if the device is not registered. -/
structure Routed (s : DmState) : Prop where
  close : ∀ f ∈ s.files, s.Goes f.dev .close f.fd (closeR s.list f.desc)
  read : ∀ f ∈ s.files, s.Goes f.dev .read f.fd (readR s.list f.desc)
  write : ∀ f ∈ s.files, s.Goes f.dev .write f.fd (writeR s.list f.desc)
  lseek : ∀ f ∈ s.files, s.Goes f.dev .lseek f.fd (lseekR s.list f.desc)
  readdir : ∀ d ∈ s.dirs, s.Goes d.dev .readdir d.userdata (dmReaddir s.list d)
  closedir : ∀ d ∈ s.dirs, s.Goes d.dev .closedir d.userdata (dmClosedir s.list d)

/-- The condition on a call under which descriptors keep their device. A device is unregistered when
no file of it or of a later one is open, and no directory of a later one, nor of itself unless it is
the last. A device is registered at a place to which no directory of another one refers, and all its
directories do. What a device answers to `open` fits into the descriptor, and one that can open a
directory can close it. -/
def Careful (s : DmState) : DmOp → Prop
  | .register (some pdev) =>
      ¬ dmInvalidName pdev.name → dmIndexOf s.list pdev.name = none →
        s.list.length ≠ dmMaxDevices →
          ∀ d ∈ s.dirs, d.devid = s.list.length ↔ d.dev = pdev
  | .unregister (some name) =>
      ∀ i ∈ dmIndexOf s.list name,
        (∀ f ∈ s.files, dmGetDevid f.desc < i) ∧
          ∀ d ∈ s.dirs, d.devid < i ∨ s.list.length ≤ d.devid ∨
            d.devid = i ∧ i + 1 = s.list.length
  | .open _ res => res < 2048
  | .opendir dirname data mem =>
      data.isSome → mem →
        ∀ r ∈ dmDeviceIdFromName s.list dirname, ∀ pdev ∈ s.list[r.1]?,
          .opendir ∈ pdev.fns → .closedir ∈ pdev.fns
  | _ => True

instance (s : DmState) (op : DmOp) : Decidable (s.Careful op) := by
  cases op with
  | register pdev => cases pdev <;> dsimp only [Careful] <;> infer_instance
  | unregister name => cases name <;> dsimp only [Careful] <;> infer_instance
  | opendir => exact instDecidableForall
  | _ => dsimp only [Careful]; infer_instance

end DmState

/-! ### Single functions -/

section Functions

variable {l : List DmDevice} {dev pdev : DmDevice} {fn : DmFn}

theorem dmGetDeviceAt_natCast (l : List DmDevice) (i : ℕ) : dmGetDeviceAt l i = l[i]? := by
  rw [dmGetDeviceAt, Int.toNat_natCast]
  split_ifs with h
  · rw [List.getElem?_eq_none]
    omega
  · rfl

theorem dmMakeDesc_eq {i fd : ℕ} (h : fd < 2048) : dmMakeDesc i fd = i * 2048 + fd := by
  have hor : i <<< 11 + fd = i <<< 11 ||| fd := Nat.shiftLeft_add_eq_or_of_lt h i
  rw [dmMakeDesc, ← hor, Nat.shiftLeft_eq]
  push_cast
  rfl

/-- A descriptor holds the index of the device and the descriptor there. -/
theorem dmGetDevid_dmMakeDesc {i fd : ℕ} (h : fd < 2048) : dmGetDevid (dmMakeDesc i fd) = i := by
  rw [dmMakeDesc_eq h, dmGetDevid]
  omega

theorem dmGetFd_dmMakeDesc {i fd : ℕ} (h : fd < 2048) : dmGetFd (dmMakeDesc i fd) = fd := by
  rw [dmMakeDesc_eq h, dmGetFd]
  omega

theorem dmIndexOf_lt {name : List UInt8} {i : ℕ} (h : dmIndexOf l name = some i) :
    i < l.length := (List.findIdx?_eq_some_iff_getElem.mp h).1

/-- A device whose name is not found is not in the list. -/
theorem not_mem_of_dmIndexOf (h : dmIndexOf l pdev.name = none) : pdev ∉ l := by
  intro hmem
  have hne := List.findIdx?_eq_none_iff.mp h pdev hmem
  simp [sameName] at hne

theorem dmRegister_cases (l : List DmDevice) (pdev : Option DmDevice) :
    (dmRegister l pdev).1 = l ∨
      ∃ dev, pdev = some dev ∧ ¬ dmInvalidName dev.name ∧ dmIndexOf l dev.name = none ∧
        l.length ≠ dmMaxDevices ∧ (dmRegister l pdev).1 = l ++ [dev] := by
  cases pdev with
  | none => exact .inl rfl
  | some dev =>
    rw [dmRegister]
    split_ifs with h₁ h₂ h₃
    · exact .inl rfl
    · exact .inl rfl
    · exact .inl rfl
    · exact .inr ⟨dev, rfl, h₁, by simpa using h₂, h₃, rfl⟩

theorem dmUnregister_cases (l : List DmDevice) (name : Option (List UInt8)) :
    (dmUnregister l name).1 = l ∨
      ∃ s i, name = some s ∧ dmIndexOf l s = some i ∧ (dmUnregister l name).1 = l.eraseIdx i := by
  cases name with
  | none => exact .inl rfl
  | some s =>
    rw [dmUnregister]
    split_ifs with h₁
    · exact .inl rfl
    · cases h : dmIndexOf l s with
      | none => exact .inl rfl
      | some i => exact .inr ⟨s, i, rfl, h, rfl⟩

/-- The device that is found by the start of a name is in the list. -/
theorem dmDeviceIdFromName_lt {name rest : List UInt8} {pos : ℕ}
    (h : dmDeviceIdFromName l name = some (pos, rest)) : pos < l.length := by
  have hfold : ∀ (ds : List (DmDevice × ℕ)) (best : ℕ × ℕ), (∀ d ∈ ds, d.2 < l.length) →
      (best.1 ≠ 0 → best.2 < l.length) →
      (ds.foldl (dmMatch name) best).1 ≠ 0 → (ds.foldl (dmMatch name) best).2 < l.length := by
    intro ds
    induction ds with
    | nil => exact fun best _ hbest => hbest
    | cons d ds ih =>
      intro best hds hbest
      refine ih _ (fun d' hd' => hds d' (List.mem_cons_of_mem _ hd')) ?_
      rw [dmMatch]
      split_ifs
      · exact fun _ => hds d List.mem_cons_self
      · exact hbest
  rw [dmDeviceIdFromName] at h
  split_ifs at h with h₀
  obtain ⟨rfl, -⟩ := Prod.mk.inj (Option.some.inj h)
  refine hfold _ _ (fun d hd => ?_) (fun hne => absurd rfl hne) h₀
  have hlt := List.snd_lt_of_mem_zipIdx hd
  omega

/-- **The sibling with the check.** Of all functions with the descriptor of a file only `dm_getaddr`
is defined on every descriptor. -/
theorem dmGetaddr_isSome (l : List DmDevice) (fd : ℤ) : (dmGetaddr l fd).isSome := by
  rw [dmGetaddr]
  split
  · rfl
  · split_ifs <;> rfl

end Functions

namespace DmState

/-! ### The invariant -/

/-- The invariant of a run: no device is listed twice, the descriptor of a file is made of the place
of its device and of the descriptor there, and a directory refers to its device, or behind the list
if that is not registered. -/
structure Valid (s : DmState) : Prop where
  nodup : s.list.Nodup
  length_le : s.list.length ≤ dmMaxDevices
  file : ∀ f ∈ s.files, ∃ i, s.list[i]? = some f.dev ∧ f.fd < 2048 ∧ f.desc = dmMakeDesc i f.fd
  dir : ∀ d ∈ s.dirs,
    s.list[d.devid]? = some d.dev ∨ s.list.length ≤ d.devid ∧ d.dev ∉ s.list
  closedir : ∀ d ∈ s.dirs, .closedir ∈ d.dev.fns

section Valid

variable {s s' : DmState} {f : DmFile} {d : DmDir} {fn : DmFn} {op : DmOp}

theorem Valid.stub_goes (h : s.Valid) (hf : f ∈ s.files) (fn : DmFn) :
    s.Goes f.dev fn f.fd (stub fn s.list f.desc) := by
  obtain ⟨i, hi, hfd, hdesc⟩ := h.file f hf
  have hmem : f.dev ∈ s.list := List.mem_of_getElem? hi
  rw [hdesc, stub, dmGetDevid_dmMakeDesc hfd, dmGetFd_dmMakeDesc hfd, dmGetDeviceAt_natCast, hi,
    Option.map_some, Goes]
  by_cases hfn : fn ∈ f.dev.fns
  · rw [if_pos ⟨hmem, hfn⟩, if_pos hfn]
  · rw [if_neg (fun hand => hfn hand.2), if_neg hfn]
    exact ⟨_, rfl⟩

theorem Valid.readdir_goes (h : s.Valid) (hd : d ∈ s.dirs) :
    s.Goes d.dev .readdir d.userdata (dmReaddir s.list d) := by
  rw [dmReaddir, Goes]
  rcases h.dir d hd with hdev | ⟨hle, hmem⟩
  · have hlt : d.devid < s.list.length := (List.getElem?_eq_some_iff.mp hdev).1
    rw [if_neg (Nat.not_le.mpr hlt), hdev, Option.map_some]
    by_cases hfn : .readdir ∈ d.dev.fns
    · rw [if_pos ⟨List.mem_of_getElem? hdev, hfn⟩, if_neg (not_not_intro hfn)]
    · rw [if_neg (fun hand => hfn hand.2), if_pos hfn]
      exact ⟨_, rfl⟩
  · rw [if_neg (fun hand => hmem hand.1), if_pos hle]
    exact ⟨_, rfl⟩

theorem Valid.closedir_goes (h : s.Valid) (hd : d ∈ s.dirs) :
    s.Goes d.dev .closedir d.userdata (dmClosedir s.list d) := by
  rw [dmClosedir, Goes]
  rcases h.dir d hd with hdev | ⟨hle, hmem⟩
  · have hlt : d.devid < s.list.length := (List.getElem?_eq_some_iff.mp hdev).1
    have hfn := h.closedir d hd
    rw [if_neg (Nat.not_le.mpr hlt), hdev, Option.bind_some,
      if_pos ⟨List.mem_of_getElem? hdev, hfn⟩, if_pos hfn]
  · rw [if_neg (fun hand => hmem hand.1), if_pos hle]
    exact ⟨_, rfl⟩

/-- In a valid state every call goes to its device. -/
theorem Valid.routed (h : s.Valid) : s.Routed where
  close _ hf := h.stub_goes hf .close
  read _ hf := h.stub_goes hf .read
  write _ hf := h.stub_goes hf .write
  lseek _ hf := h.stub_goes hf .lseek
  readdir _ hd := h.readdir_goes hd
  closedir _ hd := h.closedir_goes hd

/-- What is closed or freed does not matter. -/
theorem Valid.sublist (h : s.Valid) {files : List DmFile} {dirs : List DmDir}
    (hfiles : ∀ f ∈ files, f ∈ s.files) (hdirs : ∀ d ∈ dirs, d ∈ s.dirs) :
    Valid { s with files := files, dirs := dirs } where
  nodup := h.nodup
  length_le := h.length_le
  file f hf := h.file f (hfiles f hf)
  dir d hd := h.dir d (hdirs d hd)
  closedir d hd := h.closedir d (hdirs d hd)

/-- A device is registered at the end of the list. -/
theorem Valid.register (h : s.Valid) {pdev : Option DmDevice} (hc : s.Careful (.register pdev)) :
    Valid { s with list := (dmRegister s.list pdev).1 } := by
  rcases dmRegister_cases s.list pdev with hsame | ⟨dev, rfl, hname, hidx, hmax, hlist⟩
  · rw [hsame]
    exact h
  · have hdirs := hc hname hidx hmax
    rw [hlist]
    refine ⟨?_, ?_, fun f hf => ?_, fun d hd => ?_, h.closedir⟩
    · exact List.nodup_append.mpr ⟨h.nodup, List.nodup_singleton dev, fun a ha b hb =>
        fun hab => not_mem_of_dmIndexOf hidx ((List.mem_singleton.mp hb) ▸ hab ▸ ha)⟩
    · rw [List.length_append, List.length_singleton]
      exact Nat.succ_le_of_lt (lt_of_le_of_ne h.length_le hmax)
    · obtain ⟨i, hi, hfd⟩ := h.file f hf
      have hlt := (List.getElem?_eq_some_iff.mp hi).1
      exact ⟨i, (List.getElem?_append_left hlt).trans hi, hfd⟩
    · rcases h.dir d hd with hdev | ⟨hle, hmem⟩
      · have hlt := (List.getElem?_eq_some_iff.mp hdev).1
        exact .inl ((List.getElem?_append_left hlt).trans hdev)
      · rcases Nat.eq_or_lt_of_le hle with heq | hlt
        · left
          rw [← heq, List.getElem?_append_right (Nat.le_refl _), Nat.sub_self,
            (hdirs d hd).mp heq.symm]
          rfl
        · right
          refine ⟨?_, fun hmem' => ?_⟩
          · rw [List.length_append, List.length_singleton]
            exact hlt
          · rcases List.mem_append.mp hmem' with hmem' | hmem'
            · exact hmem hmem'
            · exact hlt.ne ((hdirs d hd).mpr (List.mem_singleton.mp hmem')).symm

/-- What is in front of a device stays in its place when that is unregistered. -/
theorem Valid.unregister (h : s.Valid) {name : Option (List UInt8)}
    (hc : s.Careful (.unregister name)) :
    Valid { s with list := (dmUnregister s.list name).1 } := by
  rcases dmUnregister_cases s.list name with hsame | ⟨str, i, rfl, hidx, hlist⟩
  · rw [hsame]
    exact h
  · obtain ⟨hfiles, hdirs⟩ := hc i hidx
    have hi := dmIndexOf_lt hidx
    have hlen : (s.list.eraseIdx i).length = s.list.length - 1 := List.length_eraseIdx_of_lt hi
    have hle := h.length_le
    rw [hlist]
    refine ⟨h.nodup.eraseIdx i, hlen.trans_le (by omega), fun f hf => ?_, fun d hd => ?_,
      h.closedir⟩
    · obtain ⟨k, hk, hfd, hdesc⟩ := h.file f hf
      have hlt := hfiles f hf
      rw [hdesc, dmGetDevid_dmMakeDesc hfd] at hlt
      refine ⟨k, ?_, hfd, hdesc⟩
      rw [List.getElem?_eraseIdx_of_lt (by omega), hk]
    · rcases h.dir d hd with hdev | ⟨hle, hmem⟩
      · have hdlt := (List.getElem?_eq_some_iff.mp hdev).1
        rcases hdirs d hd with hlt | hle | ⟨heq, hlast⟩
        · left
          rw [List.getElem?_eraseIdx_of_lt hlt, hdev]
        · omega
        · right
          refine ⟨hlen.trans_le (by omega), fun hmem => ?_⟩
          obtain ⟨k, hk⟩ := List.mem_iff_getElem?.mp hmem
          have hklt := (List.getElem?_eq_some_iff.mp hk).1
          rw [hlen] at hklt
          rw [List.getElem?_eraseIdx_of_lt (by omega)] at hk
          have hkd := (List.nodup_iff_getElem?_ne_getElem?.mp h.nodup) k d.devid (by omega) hdlt
          exact hkd (hk.trans hdev.symm)
      · right
        exact ⟨hlen.trans_le (by omega), fun hmem' => hmem (List.mem_of_mem_eraseIdx hmem')⟩

/-- A file that is opened on a device. -/
theorem Valid.open (h : s.Valid) {name : Option (List UInt8)} {res : ℤ}
    (hc : s.Careful (.open name res)) (hstep : s.step (.open name res) = some s') : s'.Valid := by
  obtain ⟨r, hr, rfl⟩ := Option.map_eq_some_iff.mp hstep
  cases r with
  | error e => exact h
  | ok f =>
    refine ⟨h.nodup, h.length_le, fun f' hf' => ?_, h.dir, h.closedir⟩
    rcases List.mem_cons.mp hf' with rfl | hf'
    · rw [openR] at hr
      split at hr
      · cases hr
      · rename_i devid path _
        obtain ⟨pdev, hdev, hok⟩ := Option.map_eq_some_iff.mp hr
        rw [dmGetDeviceAt_natCast] at hdev
        have hres : res < 2048 := hc
        split_ifs at hok with hfn hneg
        obtain rfl := Except.ok.inj hok
        exact ⟨devid, hdev, by dsimp only; omega, rfl⟩
    · exact h.file f' hf'

/-- A directory that is opened on a device. -/
theorem Valid.opendir (h : s.Valid) {dirname : List UInt8} {data : Option ℕ} {mem : Bool}
    (hc : s.Careful (.opendir dirname data mem))
    (hstep : s.step (.opendir dirname data mem) = some s') : s'.Valid := by
  obtain ⟨r, hr, rfl⟩ := Option.map_eq_some_iff.mp hstep
  cases r with
  | error e => exact h
  | ok d =>
    have hd : s.list[d.devid]? = some d.dev ∧ .closedir ∈ d.dev.fns := by
      rw [dmOpendir] at hr
      split at hr
      · cases hr
      · rename_i pos rest hpos
        obtain ⟨pdev, hdev, hok⟩ := Option.map_eq_some_iff.mp hr
        by_cases hfn : .opendir ∈ pdev.fns
        swap
        · rw [if_pos hfn] at hok
          cases hok
        rw [if_neg (not_not_intro hfn)] at hok
        cases data with
        | none => cases hok
        | some data =>
          cases mem with
          | false => cases hok
          | true =>
            obtain rfl := Except.ok.inj hok
            have hlt := (dmDeviceIdFromName_lt hpos).trans_le h.length_le
            refine ⟨?_, hc rfl rfl _ hpos pdev hdev hfn⟩
            dsimp only
            rw [Nat.mod_eq_of_lt (hlt.trans (by decide)), hdev]
    refine ⟨h.nodup, h.length_le, h.file, fun d' hd' => ?_, fun d' hd' => ?_⟩
    · rcases List.mem_cons.mp hd' with rfl | hd'
      · exact .inl hd.1
      · exact h.dir d' hd'
    · rcases List.mem_cons.mp hd' with rfl | hd'
      · exact hd.2
      · exact h.closedir d' hd'

/-- Every call that meets the condition keeps the invariant. -/
theorem Valid.step (h : s.Valid) (hc : s.Careful op) (hstep : s.step op = some s') : s'.Valid := by
  have hread : ∀ {route : Option DmRoute}, route.map (fun _ => s) = some s' → s'.Valid := by
    intro route hroute
    obtain ⟨-, -, rfl⟩ := Option.map_eq_some_iff.mp hroute
    exact h
  cases op with
  | register pdev =>
    obtain rfl := Option.some.inj hstep
    exact h.register hc
  | unregister name =>
    obtain rfl := Option.some.inj hstep
    exact h.unregister hc
  | «open» name res => exact h.open hc hstep
  | close file res =>
    obtain ⟨route, -, rfl⟩ := Option.map_eq_some_iff.mp hstep
    cases route with
    | refused e => exact h
    | call dev fn fd =>
      dsimp only
      split_ifs
      · exact h.sublist (fun f hf => List.mem_of_mem_eraseP hf) (fun d hd => hd)
      · exact h
  | read file => exact hread hstep
  | write file => exact hread hstep
  | lseek file => exact hread hstep
  | opendir dirname data mem => exact h.opendir hc hstep
  | readdir d => exact hread (Option.ite_none_right_eq_some.mp hstep).2
  | closedir d =>
    obtain ⟨-, hstep⟩ := Option.ite_none_right_eq_some.mp hstep
    obtain ⟨route, -, rfl⟩ := Option.map_eq_some_iff.mp hstep
    cases route with
    | refused e => exact h
    | call dev fn fd =>
      exact h.sublist (fun f hf => hf) (fun d hd => List.mem_of_mem_erase hd)

end Valid

/-! ### Routing -/

/-- **The routing of the device manager.** In every run whose calls meet the condition, every call
with an open file or directory goes to the device that opened it, with the descriptor of that
device, or is refused if the device is not registered. -/
theorem routed_of_careful {s : DmState}
    (h : Reach DmState.step DmState.Careful {} s) : s.Routed := by
  refine Valid.routed (h.invariant ?_ fun s op s' hs hc hstep => hs.step hc hstep)
  exact ⟨List.nodup_nil, Nat.zero_le _, fun _ hf => absurd hf List.not_mem_nil,
    fun _ hd => absurd hd List.not_mem_nil, fun _ hd => absurd hd List.not_mem_nil⟩

/-- The functions that all file systems have. -/
def fsFns : List DmFn := [.open, .close, .write, .read, .lseek, .opendir, .readdir, .closedir]

/-- `mmcfs_device`, `semifs_device` and `rfs_device`. -/
def mmcfsDevice : DmDevice := { addr := 1, name := [0x2F, 0x6D, 0x6D, 0x63], fns :=
    .unlink :: fsFns }
def semifsDevice : DmDevice := { addr := 2, name := [0x2F, 0x73, 0x65, 0x6D, 0x69], fns := fsFns }
def rfsDevice : DmDevice := { addr := 3, name := [0x2F, 0x72, 0x66, 0x73], fns := fsFns }

/-- A file `"a"` on the second of three devices. The last of them is unregistered while one of its
directories is open. -/
theorem routed_of_careful_last :
    ∃ s, Reach DmState.step DmState.Careful {} s ∧ s.files.length = 1 ∧ s.dirs.length = 1 ∧
      s.list = [mmcfsDevice, semifsDevice] ∧ s.Routed := by
  have hrun : ∀ hrun : (runAll (guarded DmState.step DmState.Careful)
      [.register (some mmcfsDevice), .register (some semifsDevice), .register (some rfsDevice),
        .open (some (semifsDevice.name ++ [0x2F, 0x61])) 5, .opendir rfsDevice.name (some 0) true,
        .unregister (some rfsDevice.name)] ({} : DmState)).isSome,
      (Option.get _ hrun).files.length = 1 ∧ (Option.get _ hrun).dirs.length = 1 ∧
        (Option.get _ hrun).list = [mmcfsDevice, semifsDevice] := by decide
  have hreach := reach_get DmState.step DmState.Careful
    [.register (some mmcfsDevice), .register (some semifsDevice), .register (some rfsDevice),
      .open (some (semifsDevice.name ++ [0x2F, 0x61])) 5, .opendir rfsDevice.name (some 0) true,
      .unregister (some rfsDevice.name)] (s := {}) (by decide)
  exact ⟨_, hreach, (hrun _).1, (hrun _).2.1, (hrun _).2.2, routed_of_careful hreach⟩

/-- A file is open on the second of three devices, and the first is unregistered: what is read from
it is read from the third. -/
theorem not_routed_unregister_first :
    ¬ ∀ s, Reach DmState.step (fun _ _ => True) {} s → s.Routed := by
  intro h
  have hrun : ∀ hrun : (runAll (guarded DmState.step fun _ _ => True)
      [.register (some mmcfsDevice), .register (some semifsDevice), .register (some rfsDevice),
        .open (some (semifsDevice.name ++ [0x2F, 0x61])) 5, .unregister (some mmcfsDevice.name)]
        ({} : DmState)).isSome,
      ∃ f ∈ (Option.get _ hrun).files, f.dev = semifsDevice ∧
        semifsDevice ∈ (Option.get _ hrun).list ∧
        readR (Option.get _ hrun).list f.desc = some (.call rfsDevice .read f.fd) := by decide
  have hreach := reach_get DmState.step (fun _ _ => True)
    [.register (some mmcfsDevice), .register (some semifsDevice), .register (some rfsDevice),
      .open (some (semifsDevice.name ++ [0x2F, 0x61])) 5, .unregister (some mmcfsDevice.name)]
    (s := {}) (by decide)
  obtain ⟨f, hf, hdev, hmem, hread⟩ := hrun (by decide)
  have hgoes := (h _ hreach).read f hf
  rw [DmState.Goes, hdev, if_pos ⟨hmem, by decide⟩, hread] at hgoes
  revert hgoes
  simp [rfsDevice, semifsDevice, fsFns]

end DmState

end ELuaBrain.Device
