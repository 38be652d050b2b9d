import ELuaBrain.RomFs.Image

/-!
# Packing and reading back

What is behind an address of the array determines what the reader does there. A packed list of files
is one record after another, and the reader, at the start of a record, finds the name, the size and
the data, and the start of the next record behind them.

## Main definitions

* `File` : a file with a name of 1 to 30 characters.
* `record`, `image` : what the packer writes, from an offset on.
* `Rom.At` : what is behind an address.
* `Fs.Holds` : a descriptor from which a file is read.

## Main results

* `mkfs_eq` : the packer writes the records.
* `Rom.At.record` : what the reader finds in a record.
* `roundTrip` : opening and listing packed files.
-/

namespace ELuaBrain.RomFs

/-- A file whose name has 1 to 30 characters. -/
structure File extends Entry where
  zero_notMem : 0 ∉ fname
  fname_ne_nil : fname ≠ []
  length_fname_le : fname.length ≤ maxlen

/-- Two names are equal, ignoring case. -/
def SameName (s t : List UInt8) : Prop := s.map toLower = t.map toLower

instance (s t : List UInt8) : Decidable (SameName s t) := inferInstanceAs (Decidable (_ = _))

/-! ### What the packer writes -/

/-- What is written for a file at the offset `n`. -/
def record (n : ℕ) (f : File) : List UInt8 :=
  f.fname ++ 0 :: (packInt f.filedata.length ++
    (List.replicate (padding (n + f.fname.length + 5)) 0 ++ f.filedata))

/-- What is written for a list of files, from the offset `n` on, with the zero behind them. -/
def image : ℕ → List File → List UInt8
  | _, [] => [0]
  | n, f :: fs => record n f ++ image (n + (record n f).length) fs

theorem addFile_eq (out : List UInt8) (f : File) :
    addFile out f.toEntry = out ++ record out.length f := by
  have hlen : (out ++ f.fname ++ [0] ++ packInt f.filedata.length).length =
      out.length + f.fname.length + 5 := by
    simp only [List.length_append, List.length_singleton, packInt, length_u32Bytes]
  rw [addFile, if_neg (Nat.not_lt.mpr f.length_fname_le)]
  dsimp only
  rw [hlen, record]
  simp only [List.append_assoc, List.cons_append, List.nil_append]

theorem foldl_addFile (files : List File) (out : List UInt8) :
    (files.map File.toEntry).foldl addFile out ++ [0] = out ++ image out.length files := by
  induction files generalizing out with
  | nil => rfl
  | cons f files ih =>
    rw [List.map_cons, List.foldl_cons, ih, addFile_eq, image, List.length_append,
      List.append_assoc]

theorem mkfs_eq (files : List File) : mkfs (files.map File.toEntry) = image 0 files :=
  foldl_addFile files []

theorem length_le_length_image (files : List File) (n : ℕ) :
    files.length < (image n files).length := by
  induction files generalizing n with
  | nil => exact Nat.zero_lt_one
  | cons f files ih =>
    have hrest := ih (n + (record n f).length)
    rw [image, List.length_append, List.length_cons]
    have hpos : 0 < (record n f).length := by
      rw [record, List.length_append, List.length_cons]
      omega
    omega

/-! ### Behind an address -/

/-- What is behind the address `a`. -/
structure Rom.At (rom : Rom) (a : UInt32) (bs : List UInt8) : Prop where
  le : a.toNat ≤ rom.bytes.length
  drop_eq : rom.bytes.drop a.toNat = bs

section At

variable {rom : Rom} {a : UInt32} {bs rest : List UInt8} {c : UInt8}

theorem Rom.At.length_eq (h : rom.At a bs) : a.toNat + bs.length = rom.bytes.length := by
  have := h.le
  rw [← h.drop_eq, List.length_drop]
  omega

theorem Rom.At.toNat_add (h : rom.At a (bs ++ rest)) :
    (a + UInt32.ofNat bs.length).toNat = a.toNat + bs.length := by
  have hlen := h.length_eq
  have hlt := rom.length_lt
  rw [List.length_append] at hlen
  rw [UInt32.toNat_add, UInt32.toNat_ofNat', Nat.mod_eq_of_lt (by omega : bs.length < 2 ^ 32),
    Nat.mod_eq_of_lt (by omega)]

/-- Going on behind the first bytes. -/
theorem Rom.At.add (h : rom.At a (bs ++ rest)) : rom.At (a + UInt32.ofNat bs.length) rest := by
  have hlen := h.length_eq
  rw [List.length_append] at hlen
  refine ⟨by rw [h.toNat_add]; omega, ?_⟩
  rw [h.toNat_add, ← List.drop_drop, h.drop_eq, List.drop_left]

theorem Rom.At.tail (h : rom.At a (c :: rest)) : rom.At (a + 1) rest :=
  Rom.At.add (show rom.At a ([c] ++ rest) from h)

theorem Rom.At.romfsRead (h : rom.At a (c :: rest)) : romfsRead rom a = some c := by
  rw [RomFs.romfsRead, ← Nat.add_zero a.toNat, ← List.getElem?_drop, h.drop_eq]
  rfl

theorem Rom.At.readSize {x : UInt32} (h : rom.At a (u32Bytes x ++ rest)) :
    readSize rom a = some x := by
  have h₁ := h.tail
  have h₂ := h₁.tail
  have h₃ := h₂.tail
  rw [UInt32.add_assoc a 1 1] at h₂ h₃
  rw [UInt32.add_assoc a (1 + 1) 1] at h₃
  change rom.At (a + 2) _ at h₂
  change rom.At (a + 3) _ at h₃
  rw [RomFs.readSize, h.romfsRead, h₁.romfsRead, h₂.romfsRead, h₃.romfsRead]
  exact congrArg some (u32OfBytes_eq_iff.mpr rfl)

/-- The name is read up to its terminator, or as far as it may go. -/
theorem Rom.At.readName {name : List UInt8} (h : rom.At a (name ++ 0 :: rest)) (hz : 0 ∉ name)
    {k : ℕ} (hk : name.length ≤ k) : readName rom k a = some name := by
  induction name generalizing a k with
  | nil =>
    cases k with
    | zero => rfl
    | succ k =>
      rw [RomFs.readName, Rom.At.romfsRead h]
      rfl
  | cons c name ih =>
    obtain ⟨k, rfl⟩ := Nat.exists_eq_add_of_le' (Nat.one_le_of_lt hk)
    have hc : c ≠ 0 := fun heq => hz (heq ▸ List.mem_cons_self)
    have htail := ih (Rom.At.tail h) (fun hmem => hz (List.mem_cons_of_mem _ hmem))
      (Nat.le_of_succ_le_succ hk)
    rw [RomFs.readName, Rom.At.romfsRead h]
    simp only [Option.bind_eq_bind, Option.bind_some, hc, if_false, htail, Option.map_some]

/-- The directory reads the name with its terminator. -/
theorem Rom.At.readdirName {name : List UInt8} (h : rom.At a (name ++ 0 :: rest)) (hz : 0 ∉ name)
    {k : ℕ} (hk : name.length < k) :
    readdirName rom k a = some (name, a + UInt32.ofNat name.length + 1) := by
  induction name generalizing a k with
  | nil =>
    obtain ⟨k, rfl⟩ := Nat.exists_eq_add_of_le' (Nat.one_le_of_lt hk)
    rw [RomFs.readdirName, Rom.At.romfsRead h]
    exact congrArg some (congrArg _ (by simp))
  | cons c name ih =>
    obtain ⟨k, rfl⟩ := Nat.exists_eq_add_of_le' (Nat.one_le_of_lt hk)
    have hc : c ≠ 0 := fun heq => hz (heq ▸ List.mem_cons_self)
    have htail := ih (Rom.At.tail h) (fun hmem => hz (List.mem_cons_of_mem _ hmem))
      (Nat.lt_of_succ_lt_succ hk)
    have hadd : a + 1 + UInt32.ofNat name.length = a + UInt32.ofNat (name.length + 1) := by
      rw [UInt32.add_assoc, UInt32.add_comm 1, UInt32.ofNat_add]
      rfl
    rw [RomFs.readdirName, Rom.At.romfsRead h]
    simp only [Option.bind_eq_bind, Option.bind_some, hc, if_false, htail, Option.map_some, hadd,
      List.length_cons]

theorem toNat_roundUp {j : UInt32} (h : j.toNat + 3 < 2 ^ 32) :
    (roundUp j).toNat = j.toNat + padding j.toNat := by
  have hmask : ∀ n < 2 ^ 32, n &&& 4294967292 = n / 4 * 4 := by
    intro n hn
    have hshift : n / 4 * 4 = n >>> 2 <<< 2 := by rw [Nat.shiftLeft_eq, Nat.shiftRight_eq_div_pow]
    have hconst : 4294967292 = (2 ^ 30 - 1) <<< 2 := rfl
    refine Nat.eq_of_testBit_eq fun i => ?_
    rw [hshift, hconst, Nat.testBit_and, Nat.testBit_shiftLeft, Nat.testBit_shiftLeft,
      Nat.testBit_shiftRight, Nat.testBit_two_pow_sub_one]
    by_cases hi : 2 ≤ i
    · by_cases hlt : i < 32
      · simp [hi, show i - 2 < 30 by omega, Nat.add_sub_cancel' hi]
      · have hbit : n.testBit i = false :=
          Nat.testBit_lt_two_pow (hn.trans_le (Nat.pow_le_pow_right (by decide) (by omega)))
        simp [hi, hbit, Nat.add_sub_cancel' hi]
    · simp [hi]
  have hsum : (j + romfsAlign - 1).toNat = j.toNat + 3 := by
    rw [UInt32.sub_eq_add_neg, UInt32.add_assoc, UInt32.toNat_add]
    exact Nat.mod_eq_of_lt h
  have hnot : (~~~(romfsAlign - 1)).toNat = 4294967292 := rfl
  rw [roundUp, UInt32.toNat_and, hsum, hnot, hmask _ h, padding, alignment]
  omega

/-! ### Records -/

variable {f : File}

/-- What the reader finds in a record: the name and the size, the data at the address `base`, and
the next record behind them. -/
structure Rom.HasRecord (rom : Rom) (a : UInt32) (f : File) (base size : UInt32)
    (rest : List UInt8) : Prop where
  readName : readName rom dmMaxFnameLength a = some f.fname
  readdirName : readdirName rom (dmMaxFnameLength + 1) a =
    some (f.fname, a + UInt32.ofNat f.fname.length + 1)
  readSize : readSize rom (a + UInt32.ofNat f.fname.length + 1) = some size
  size_eq : size.toNat = f.filedata.length
  base_eq : roundUp (a + UInt32.ofNat f.fname.length + 1 + 4) = base
  data : rom.At base (f.filedata ++ rest)
  next : rom.At (base + size) rest

theorem Rom.At.record (h : rom.At a (record a.toNat f ++ rest)) :
    ∃ base size, rom.HasRecord a f base size rest := by
  have hlt := rom.length_lt
  rw [RomFs.record, List.append_assoc, List.cons_append, List.append_assoc, List.append_assoc] at h
  have hname := h.add.tail
  have hsize := hname.add
  have htotal := h.length_eq
  simp only [List.length_append, List.length_cons, packInt, length_u32Bytes] at htotal
  have hlen : f.filedata.length < 2 ^ 32 := by omega
  have hfour : UInt32.ofNat (packInt f.filedata.length).length = 4 := rfl
  rw [hfour] at hsize
  have hj : (a + UInt32.ofNat f.fname.length + 1 + 4).toNat = a.toNat + f.fname.length + 5 := by
    have := hsize.length_eq
    simp only [List.length_append] at this
    omega
  have hround := toNat_roundUp (j := a + UInt32.ofNat f.fname.length + 1 + 4) (by
    have := hsize.length_eq
    omega)
  rw [hj] at hround
  have hbase : rom.At (roundUp (a + UInt32.ofNat f.fname.length + 1 + 4)) (f.filedata ++ rest) := by
    have hskip := hsize.add
    have hpad := hsize.toNat_add
    rw [List.length_replicate] at hskip hpad
    have heq : a + UInt32.ofNat f.fname.length + 1 + 4 +
        UInt32.ofNat (padding (a.toNat + f.fname.length + 5)) =
          roundUp (a + UInt32.ofNat f.fname.length + 1 + 4) := by
      rw [← UInt32.toNat_inj, hround, hpad, hj]
    rwa [heq] at hskip
  refine ⟨_, UInt32.ofNat f.filedata.length, ⟨h.readName f.zero_notMem f.length_fname_le,
    h.readdirName f.zero_notMem (Nat.lt_succ_of_le f.length_fname_le), hname.readSize, ?_, rfl,
    hbase, hbase.add⟩⟩
  rw [UInt32.toNat_ofNat', Nat.mod_eq_of_lt hlen]

end At

/-! ### Opening a file -/

/-- A descriptor of a file: the data of the file is at its address. -/
structure Fs.Describes (rom : Rom) (pfs : Fs) (f : File) : Prop where
  data : ∃ rest, rom.At pfs.baseaddr (f.filedata ++ rest)
  size_eq : pfs.size.toNat = f.filedata.length

/-- A descriptor from which a file is read, from its start. -/
structure Fs.Holds (rom : Rom) (pfs : Fs) (f : File) : Prop where
  offset_eq : pfs.offset = 0
  size_eq : pfs.size.toNat = f.filedata.length
  read : ∀ len, (romfsReadR rom pfs len).map Prod.fst = some (f.filedata.take len.toNat)

section Open

variable {rom : Rom} {a : UInt32} {f : File} {base size : UInt32} {rest name : List UInt8}
  {pfs : Fs}

/-- Reading goes on from the offset, and not beyond the end of the file. -/
theorem Fs.Describes.read (h : pfs.Describes rom f) (hle : pfs.offset ≤ pfs.size) (len : UInt32) :
    ∃ offset, romfsReadR rom pfs len =
        some ((f.filedata.drop pfs.offset.toNat).take len.toNat, { pfs with offset }) ∧
      offset.toNat = min (pfs.offset.toNat + len.toNat) pfs.size.toNat := by
  obtain ⟨rest, hdata⟩ := h.data
  have hlen := hdata.length_eq
  rw [List.length_append, ← h.size_eq] at hlen
  have hle := UInt32.le_iff_toNat_le.mp hle
  have hlt := pfs.size.toNat_lt
  have hsub : (pfs.size - pfs.offset).toNat = pfs.size.toNat - pfs.offset.toNat :=
    UInt32.toNat_sub_of_le _ _ (UInt32.le_iff_toNat_le.mpr hle)
  have htake : ∀ n ≤ pfs.size.toNat - pfs.offset.toNat,
      (rom.bytes.drop (pfs.offset.toNat + pfs.baseaddr.toNat)).take n =
        (f.filedata.drop pfs.offset.toNat).take n := fun n hn => by
    rw [Nat.add_comm, ← List.drop_drop, hdata.drop_eq, List.drop_append_of_le_length
      (h.size_eq ▸ hle),
        List.take_append_of_le_length (by rw [List.length_drop, ← h.size_eq]; exact hn)]
  rw [romfsReadR]
  by_cases hshort : len < pfs.size - pfs.offset
  · have hn := UInt32.lt_iff_toNat_lt.mp hshort
    rw [hsub] at hn
    rw [if_pos hshort, if_pos (by omega), htake _ hn.le]
    refine ⟨_, rfl, ?_⟩
    rw [UInt32.toNat_add, Nat.mod_eq_of_lt (by omega)]
    omega
  · have hn := Nat.not_lt.mp fun hl => hshort (UInt32.lt_iff_toNat_lt.mpr hl)
    rw [hsub] at hn
    rw [if_neg hshort, hsub, if_pos (by omega), htake _ (Nat.le_refl _),
      List.take_of_length_le (by rw [List.length_drop, ← h.size_eq]),
      List.take_of_length_le (by rw [List.length_drop, ← h.size_eq]; exact hn)]
    refine ⟨_, rfl, ?_⟩
    rw [UInt32.toNat_add, hsub, Nat.mod_eq_of_lt (by omega)]
    omega

theorem Fs.Describes.holds (h : pfs.Describes rom f) (hoffset : pfs.offset = 0) :
    pfs.Holds rom f where
  offset_eq := hoffset
  size_eq := h.size_eq
  read len := by
    obtain ⟨offset, hread, -⟩ := h.read (hoffset ▸ UInt32.zero_le) len
    rw [hread, hoffset]
    rfl

theorem strncasecmp_iff {s t : List UInt8} {n : ℕ} (hs : s.length ≤ n) (ht : t.length ≤ n) :
    strncasecmp s t n = true ↔ SameName s t := by
  induction n generalizing s t with
  | zero =>
    rw [List.eq_nil_of_length_eq_zero (Nat.le_zero.mp hs),
      List.eq_nil_of_length_eq_zero (Nat.le_zero.mp ht)]
    exact iff_of_true rfl rfl
  | succ n ih =>
    cases s with
    | nil =>
      cases t with
      | nil => exact iff_of_true rfl rfl
      | cons d t => exact iff_of_false nofun nofun
    | cons c s =>
      cases t with
      | nil => exact iff_of_false nofun nofun
      | cons d t =>
        rw [strncasecmp, Bool.and_eq_true, beq_iff_eq, SameName, List.map_cons, List.map_cons,
          List.cons.injEq, ih (Nat.le_of_succ_le_succ hs) (Nat.le_of_succ_le_succ ht)]
        rfl

/-- The first file of an image, and the image behind it. -/
theorem Rom.At.image_cons {f : File} {files : List File} (h : rom.At a (image a.toNat (f :: files))) :
    ∃ base size rest, rom.HasRecord a f base size rest ∧
      rom.At (base + size) (image (base + size).toNat files) := by
  have hlen := h.length_eq
  obtain ⟨base, size, hrec⟩ := Rom.At.record h
  have hnext := hrec.next
  have hnat : (base + size).toNat = a.toNat + (RomFs.record a.toNat f).length := by
    have := hnext.length_eq
    rw [image, List.length_append] at hlen
    omega
  rw [← hnat] at hnext
  exact ⟨base, size, _, hrec, hnext⟩

/-- The loop finds the first file with the name. -/
theorem openLoop_eq {files : List File} {k : ℕ} (hk : files.length < k)
    (h : rom.At a (image a.toNat files)) :
    ∃ res, openLoop rom name k a = some res ∧
      match files.find? fun f => strncasecmp name f.fname dmMaxFnameLength with
      | none => res = none
      | some f => ∃ base size, res = some { baseaddr := base, size := size, pReadFunc := true } ∧
          Fs.Describes rom { baseaddr := base, size := size, pReadFunc := true } f := by
  induction files generalizing a k with
  | nil =>
    obtain ⟨k, rfl⟩ := Nat.exists_eq_add_of_le' (Nat.one_le_of_lt hk)
    have hend : readName rom dmMaxFnameLength a = some [] :=
      (show rom.At a ([] ++ 0 :: []) from h).readName List.not_mem_nil (Nat.zero_le _)
    refine ⟨none, ?_, rfl⟩
    rw [openLoop, hend]
    rfl
  | cons f files ih =>
    obtain ⟨k, rfl⟩ := Nat.exists_eq_add_of_le' (Nat.one_le_of_lt hk)
    obtain ⟨base, size, rest, hrec, hnext⟩ := Rom.At.image_cons h
    rw [openLoop, hrec.readName]
    simp only [Option.bind_eq_bind, Option.bind_some, f.fname_ne_nil, if_false, hrec.readSize,
      hrec.base_eq, List.find?_cons]
    by_cases hsame : strncasecmp name f.fname dmMaxFnameLength = true
    · simp only [hsame, if_true]
      exact ⟨_, rfl, base, size, rfl, ⟨_, hrec.data⟩, hrec.size_eq⟩
    · simp only [hsame]
      exact ih (Nat.lt_of_succ_lt_succ hk) hnext

/-- Opening in an array that the packer wrote. -/
theorem romfsOpenFile_eq (name : List UInt8) {files : List File}
    (h : rom.bytes = mkfs (files.map File.toEntry)) :
    ∃ res, romfsOpenFile rom name = some res ∧
      match files.find? fun f => strncasecmp name f.fname dmMaxFnameLength with
      | none => res = none
      | some f => ∃ base size, res = some { baseaddr := base, size := size, pReadFunc := true } ∧
          Fs.Describes rom { baseaddr := base, size := size, pReadFunc := true } f := by
  have hat : rom.At 0 (image (UInt32.toNat 0) files) := ⟨Nat.zero_le _, h.trans (mkfs_eq files)⟩
  have hlt := rom.length_lt
  have hle := length_le_length_image files 0
  rw [h, mkfs_eq] at hlt
  exact openLoop_eq ((hle.trans hlt).trans (by decide)) hat

end Open

/-! ### Reading the directory -/

section Readdir

variable {rom : Rom} {a : UInt32} {f : File} {base size : UInt32} {rest : List UInt8}

theorem Rom.HasRecord.romfsRead (h : rom.HasRecord a f base size rest) :
    ∃ c, romfsRead rom a = some c ∧ c ≠ 0 := by
  have hname := h.readName
  rw [dmMaxFnameLength, RomFs.readName] at hname
  obtain ⟨c, hc, hname⟩ := Option.bind_eq_some_iff.mp hname
  refine ⟨c, hc, fun hzero => f.fname_ne_nil ?_⟩
  rw [if_pos hzero] at hname
  exact (Option.some.inj hname).symm

theorem Rom.HasRecord.readdir (h : rom.HasRecord a f base size rest) :
    romfsReaddirR rom a =
      some (some { fname := f.fname, fsize := size, ftime := 0 }, base + size) := by
  obtain ⟨c, hc, hne⟩ := h.romfsRead
  rw [romfsReaddirR, hc]
  simp only [Option.bind_eq_bind, Option.bind_some, hne, if_false, h.readdirName, h.readSize,
    h.base_eq]

/-- The entries are the files, in order, and there are no others. -/
theorem readdirs_eq {files : List File} (h : rom.At a (image a.toNat files)) :
    ∃ ents : List DmDirent,
      readdirs rom (files.length + 1) a = some (ents.map some ++ [none]) ∧
        ents.map (fun ent => (ent.fname, ent.fsize.toNat)) =
          files.map fun f => (f.fname, f.filedata.length) := by
  induction files generalizing a with
  | nil =>
    refine ⟨[], ?_, rfl⟩
    rw [List.length_nil, readdirs, romfsReaddirR, Rom.At.romfsRead h]
    rfl
  | cons f files ih =>
    obtain ⟨base, size, rest, hrec, hnext⟩ := Rom.At.image_cons h
    obtain ⟨ents, hents, hmap⟩ := ih hnext
    refine ⟨{ fname := f.fname, fsize := size, ftime := 0 } :: ents, ?_, ?_⟩
    · rw [List.length_cons, readdirs, hrec.readdir]
      simp only [Option.bind_eq_bind, Option.bind_some, hents, Option.map_some, List.map_cons,
        List.cons_append]
    · rw [List.map_cons, List.map_cons, hmap, hrec.size_eq]

end Readdir

/-! ### The round trip -/

/-- **Packing and reading back.** In an array that the packer wrote, a name is opened as the first
file with this name, ignoring case, and not found if there is none, and the directory lists the
files. -/
theorem roundTrip (files : List File) (rom : Rom) (h : rom.bytes = mkfs (files.map File.toEntry)) :
    (∀ name : List UInt8, name.length ≤ dmMaxFnameLength →
      ∃ res, romfsOpenFile rom name = some res ∧
        match files.find? fun f => SameName name f.fname with
        | none => res = none
        | some f => ∃ pfs, res = some pfs ∧ pfs.Holds rom f) ∧
    ∃ ents : List DmDirent,
      readdirs rom (files.length + 1) 0 = some (ents.map some ++ [none]) ∧
        ents.map (fun ent => (ent.fname, ent.fsize.toNat)) =
          files.map fun f => (f.fname, f.filedata.length) := by
  have hat : rom.At 0 (image (UInt32.toNat 0) files) := ⟨Nat.zero_le _, h.trans (mkfs_eq files)⟩
  refine ⟨fun name hname => ?_, readdirs_eq hat⟩
  have hcmp : (fun f : File => strncasecmp name f.fname dmMaxFnameLength) =
      fun f => decide (SameName name f.fname) := by
    funext f
    exact (Bool.eq_iff_iff.mpr ((strncasecmp_iff hname f.length_fname_le).trans
      (decide_eq_true_iff).symm))
  obtain ⟨res, hopen, hres⟩ := romfsOpenFile_eq name h
  rw [hcmp] at hres
  refine ⟨res, hopen, ?_⟩
  split at hres
  · exact hres
  · obtain ⟨base, size, rfl, hdescribes⟩ := hres
    exact ⟨_, rfl, hdescribes.holds rfl⟩

/-- A file `a` with one byte, and an empty file `b`. -/
def twoFiles : List File :=
  [⟨⟨[0x61], [0x2A]⟩, by decide, by decide, by decide⟩,
    ⟨⟨[0x62], []⟩, by decide, by decide, by decide⟩]

def twoFilesRom : Rom := ⟨mkfs (twoFiles.map File.toEntry), by decide⟩

/-- In an array with two files, `B` is opened as the second one. -/
theorem roundTrip_twoFiles :
    ∃ res, romfsOpenFile twoFilesRom [0x42] = some res ∧
      ∃ f, f ∈ twoFiles ∧ f.fname = [0x62] ∧ ∃ pfs, res = some pfs ∧ pfs.Holds twoFilesRom f := by
  obtain ⟨res, hres, h⟩ := (roundTrip twoFiles twoFilesRom rfl).1 [0x42] (by decide)
  exact ⟨res, hres, _, List.mem_cons_of_mem _ List.mem_cons_self, rfl, h⟩

end ELuaBrain.RomFs
