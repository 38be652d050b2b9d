import Mathlib.Data.List.Forall2
import ELuaBrain.System.Bytes
import ELuaBrain.System.Strings

/-!
# The help file

The file that `generate_target` of `buildall.lua` writes, and the part of `help.c` that reads it:
the table of modules, and the module that is loaded.

The file is in the ROM or on another file system. In the ROM a pointer into it goes to the end of
the file, otherwise the table and the module are copied to blocks of their own.

## Main definitions

* `Module`, `generateTarget` : the documentation and the writer.
* `helpInit`, `helphGetModtableData`, `helphLoadModule` : the reader.
* `Describes`, `Loaded` : what the reader has of some documentation.

## Main results

* `helpInit_generateTarget` : the reader accepts what the writer writes.
* `helphLoadModule_eq` : every module can be loaded.
-/

namespace ELuaBrain.Help

/-! ### The writer -/

/-- The documentation of a function. -/
structure Func where
  name : List UInt8
  desc : List UInt8
  deriving DecidableEq

/-- The documentation of a module. -/
structure Module where
  name : List UInt8
  desc : List UInt8
  overview : List UInt8
  funcs : List Func
  deriving DecidableEq

/-- `encstr`. -/
def encstr (str : List UInt8) : List UInt8 := str ++ [0]

/-- `enc16`. -/
def enc16 (little : Bool) (n : ℕ) : List UInt8 :=
  let bytes := u16Bytes (UInt16.ofNat n)
  if little then bytes else bytes.reverse

/-- `enc32`. -/
def enc32 (little : Bool) (n : ℕ) : List UInt8 :=
  let bytes := u32Bytes (UInt32.ofNat n)
  if little then bytes else bytes.reverse

/-- `generate_func`. -/
def generateFunc (f : Func) : List UInt8 := encstr f.name ++ encstr f.desc

/-- The encoding of the functions of a module. -/
def encFuncs (little : Bool) : List Func → List UInt8
  | [] => []
  | f :: funcs =>
      encstr f.name ++ enc16 little (generateFunc f).length ++ generateFunc f ++
        encFuncs little funcs

/-- The encoding of a module. -/
def encModule (little : Bool) (d : Module) : List UInt8 :=
  encstr d.name ++ encstr d.desc ++ enc16 little d.funcs.length ++ encFuncs little d.funcs

/-- The table of modules, where `total` is the offset of the first one. -/
def mtable (little : Bool) (total : ℕ) : List Module → List UInt8
  | [] => []
  | d :: data =>
      encstr d.name ++ encstr d.overview ++ enc32 little total ++
        enc16 little (encModule little d).length ++
        mtable little (total + (encModule little d).length) data

/-- The bytes of some modules. -/
def encModules (little : Bool) (data : List Module) : List UInt8 := data.flatMap (encModule little)

/-- `HELP_SIG`. -/
def helpSig : List UInt8 := chars "eHLP"

/-- `generate_target`, with the modules in the order in which `pairs` gives them. -/
def generateTarget (little : Bool) (data : List Module) : List UInt8 :=
  helpSig ++ enc32 little (mtable little 0 data).length ++ mtable little 0 data ++
    encModules little data

/-! ### The reader -/

/-- A word of 16 bits at a pointer, and what is behind it. -/
def get16 (little : Bool) : List UInt8 → Option (UInt16 × List UInt8)
  | a :: b :: p => some (if little then u16OfBytes a b else u16OfBytes b a, p)
  | _ => none

/-- A word of 32 bits at a pointer, and what is behind it. -/
def get32 (little : Bool) : List UInt8 → Option (UInt32 × List UInt8)
  | a :: b :: c :: d :: p => some (if little then u32OfBytes a b c d else u32OfBytes d c b a, p)
  | _ => none

/-- `HELP_MOD_ENTRY_DSIZE`. -/
def helpModEntryDsize : ℕ := 6

/-- `HELP_MOD_EXTRA_OFFSET`. -/
def helpModExtraOffset : UInt32 := 8

/-- The variables of `help.c` for a file that is open. `rom` is set if the file has an address. -/
structure Session where
  file : List UInt8
  rom : Bool
  helpModTable : List UInt8
  helpModTableSize : UInt32
  helpNumModules : ℕ

/-- The loop of `help_init` that counts the modules. `left` bytes of the table are left. -/
def countModules : ℕ → ℕ → List UInt8 → Option ℕ
  | 0, _, _ => none
  | fuel + 1, left, p =>
      if left = 0 then some 0
      else do
        let (name, p) ← cstr p
        let (overview, p) ← cstr p
        let size := name.length + 1 + (overview.length + 1) + helpModEntryDsize
        let n ← countModules fuel (left - size) (p.drop helpModEntryDsize)
        some (n + 1)

/-- The pointer to the table of modules, if there is one. -/
def helpTable (rom : Bool) (malloc : ℕ → Bool) (size : ℕ) (p : List UInt8) : Option (List UInt8) :=
  if rom then some p
  else if malloc size = true ∧ (p.take size).length = size then some (p.take size) else none

/-- `help_init`. -/
def helpInit (little rom : Bool) (malloc : ℕ → Bool) (file : List UInt8) :
    Option (Option Session) :=
  if file.take 4 = helpSig then
    match get32 little (file.drop 4) with
    | none => some none
    | some (size, p) =>
        match helpTable rom malloc size.toNat p with
        | none => some none
        | some table =>
            (countModules (size.toNat + 1) size.toNat table).map fun n =>
              some ⟨file, rom, table, size, n⟩
  else some none

/-- `HELP_MODTABLE_DATA`. -/
structure ModtableData where
  name : List UInt8
  overview : List UInt8
  offset : UInt32
  len : UInt16

/-- The loop of `helph_get_modtable_data`. -/
def skipEntries : ℕ → List UInt8 → Option (List UInt8)
  | 0, p => some p
  | i + 1, p => do
      let (_, p) ← cstr p
      let (_, p) ← cstr p
      skipEntries i (p.drop helpModEntryDsize)

/-- The entry of the table at a pointer. -/
def getEntry (little : Bool) (p : List UInt8) : Option ModtableData := do
  let (name, p) ← cstr p
  let (overview, p) ← cstr p
  let (offset, p) ← get32 little p
  let (len, _) ← get16 little p
  some ⟨name, overview, offset, len⟩

/-- `helph_get_modtable_data`. -/
def helphGetModtableData (little : Bool) (h : Session) (index : ℕ) : Option (Option ModtableData) :=
  if index < h.helpNumModules then do
    let p ← skipEntries index h.helpModTable
    (getEntry little p).map some
  else some none

/-- `HELP_MOD_DATA`. The functions are given by their pointers. -/
structure ModData where
  name : List UInt8
  desc : List UInt8
  pfuncs : List (List UInt8)

/-- The loop of `helph_load_module`. -/
def readFuncs (little : Bool) : ℕ → List UInt8 → Option (List (List UInt8))
  | 0, _ => some []
  | i + 1, p => do
      let (_, p) ← cstr p
      let (temp16, p) ← get16 little p
      let pfuncs ← readFuncs little i (p.drop temp16.toNat)
      some (p :: pfuncs)

/-- The module data at a pointer. -/
def readModule (little : Bool) (malloc : ℕ → Bool) (p : List UInt8) : Option (Option ModData) := do
  let (name, p) ← cstr p
  let (desc, p) ← cstr p
  let (nfuncs, p) ← get16 little p
  if malloc (4 * nfuncs.toNat) then
    let pfuncs ← readFuncs little nfuncs.toNat p
    some (some ⟨name, desc, pfuncs⟩)
  else some none

/-- The pointer to a module, if there is one. -/
def helpModule (h : Session) (malloc : ℕ → Bool) (pm : ModtableData) : Option (List UInt8) :=
  let p := h.file.drop (pm.offset + h.helpModTableSize + helpModExtraOffset).toNat
  if h.rom then some p
  else if malloc pm.len.toNat = true ∧ (p.take pm.len.toNat).length = pm.len.toNat then
    some (p.take pm.len.toNat)
  else none

/-- `helph_load_module`. -/
def helphLoadModule (little : Bool) (malloc : ℕ → Bool) (h : Session) (idx : ℕ) :
    Option (Option ModData) := do
  match ← helphGetModtableData little h idx with
  | none => some none
  | some pm =>
      match helpModule h malloc pm with
      | none => some none
      | some p => if malloc 16 then readModule little malloc p else some none

/-! ### Words -/

section Words

variable {little : Bool} {n : ℕ} {p : List UInt8}

@[simp] theorem length_enc16 : (enc16 little n).length = 2 := by
  cases little <;> rfl

@[simp] theorem length_enc32 : (enc32 little n).length = 4 := by
  cases little <;> rfl

theorem get16_enc16 : get16 little (enc16 little n ++ p) = some (UInt16.ofNat n, p) := by
  have hword := u16OfBytes_eq_iff.mpr (rfl : _ = u16Bytes (UInt16.ofNat n))
  cases little <;> exact congrArg (fun x => some (x, p)) hword

theorem get32_enc32 : get32 little (enc32 little n ++ p) = some (UInt32.ofNat n, p) := by
  have hword := u32OfBytes_eq_iff.mpr (rfl : _ = u32Bytes (UInt32.ofNat n))
  cases little <;> exact congrArg (fun x => some (x, p)) hword

theorem cstr_encstr (p : List UInt8) {str : List UInt8} (h : 0 ∉ str) :
    cstr (encstr str ++ p) = some (str, p) := by
  rw [encstr, List.append_assoc]
  exact cstr_eq p h

theorem toNat_ofNat16 (h : n < 2 ^ 16) : (UInt16.ofNat n).toNat = n := by
  rw [UInt16.toNat_ofNat']
  exact Nat.mod_eq_of_lt h

theorem toNat_ofNat32 (h : n < 2 ^ 32) : (UInt32.ofNat n).toNat = n := by
  rw [UInt32.toNat_ofNat']
  exact Nat.mod_eq_of_lt h

end Words

/-! ### Documentation that can be written -/

/-- Documentation without NUL. -/
structure Module.NulFree (d : Module) : Prop where
  name : 0 ∉ d.name
  desc : 0 ∉ d.desc
  overview : 0 ∉ d.overview
  funcs : ∀ f ∈ d.funcs, 0 ∉ f.name ∧ 0 ∉ f.desc

/-- Documentation that fits into the words of the file. -/
structure Fits (little : Bool) (data : List Module) : Prop where
  nulFree : ∀ d ∈ data, d.NulFree
  record : ∀ d ∈ data, (encModule little d).length < 2 ^ 16
  size : (generateTarget little data).length ≤ 2 ^ 32

/-- A pointer to a function. -/
def Points (p : List UInt8) (f : Func) : Prop := ∃ rest, p = generateFunc f ++ rest

/-- A module that is loaded. -/
structure Loaded (md : ModData) (d : Module) : Prop where
  name : md.name = d.name
  desc : md.desc = d.desc
  pfuncs : List.Forall₂ Points md.pfuncs d.funcs

/-- A session with the file of some documentation. -/
structure Describes (little : Bool) (h : Session) (data : List Module) : Prop where
  file : h.file = generateTarget little data
  table : ∃ rest, h.helpModTable = mtable little 0 data ++ rest
  size : h.helpModTableSize = UInt32.ofNat (mtable little 0 data).length
  num : h.helpNumModules = data.length

section Reading

variable {little rom : Bool} {malloc : ℕ → Bool} {h : Session} {data : List Module} {d : Module}
  {funcs : List Func} {rest p : List UInt8} {total i : ℕ}

theorem count_le_encFuncs (little : Bool) (funcs : List Func) :
    funcs.length ≤ (encFuncs little funcs).length := by
  induction funcs with
  | nil => exact Nat.zero_le _
  | cons g funcs ih =>
    rw [encFuncs, List.length_append, List.length_append, List.length_append, length_enc16,
      List.length_cons]
    omega

theorem length_encModule (little : Bool) (d : Module) : (encModule little d).length =
    d.name.length + 1 + (d.desc.length + 1) + 2 + (encFuncs little d.funcs).length := by
  simp only [encModule, encstr, List.length_append, List.length_singleton, length_enc16]

/-- The functions of a module are found in order. -/
theorem readFuncs_encFuncs (little : Bool) (rest : List UInt8)
    (hnul : ∀ f ∈ funcs, 0 ∉ f.name ∧ 0 ∉ f.desc)
    (hlen : (encFuncs little funcs).length < 2 ^ 16) :
    ∃ pfuncs, readFuncs little funcs.length (encFuncs little funcs ++ rest) = some pfuncs ∧
      List.Forall₂ Points pfuncs funcs := by
  induction funcs with
  | nil => exact ⟨[], rfl, .nil⟩
  | cons f funcs ih =>
    rw [encFuncs, List.length_append, List.length_append] at hlen
    obtain ⟨pfuncs, hread, hpoints⟩ :=
      ih (fun g hg => hnul g (List.mem_cons_of_mem _ hg)) (by omega)
    have hword := toNat_ofNat16 (n := (generateFunc f).length) (by omega)
    refine ⟨(generateFunc f ++ (encFuncs little funcs ++ rest)) :: pfuncs, ?_,
      .cons ⟨_, rfl⟩ hpoints⟩
    rw [List.length_cons, encFuncs, readFuncs]
    simp only [List.append_assoc, cstr_encstr _ (hnul f List.mem_cons_self).1, get16_enc16, hword,
      List.drop_left, hread, Option.bind_eq_bind, Option.bind_some]

/-- The encoding of a module is read back. -/
theorem readModule_encModule (little : Bool) (rest : List UInt8) (hmalloc : ∀ n, malloc n = true)
    (hnul : d.NulFree) (hlen : (encModule little d).length < 2 ^ 16) :
    ∃ md, readModule little malloc (encModule little d ++ rest) = some (some md) ∧ Loaded md d := by
  rw [length_encModule] at hlen
  obtain ⟨pfuncs, hread, hpoints⟩ :=
    readFuncs_encFuncs little rest hnul.funcs (by omega)
  have hcount := count_le_encFuncs little d.funcs
  have hword := toNat_ofNat16 (n := d.funcs.length) (by omega)
  refine ⟨⟨d.name, d.desc, pfuncs⟩, ?_, rfl, rfl, hpoints⟩
  rw [readModule, encModule]
  simp only [List.append_assoc, cstr_encstr _ hnul.name, cstr_encstr _ hnul.desc, get16_enc16,
    hword, hmalloc, hread, if_true, Option.bind_eq_bind, Option.bind_some]

/-- The entry of a module in the table. -/
theorem getEntry_mtable (little : Bool) (data : List Module) (total : ℕ) (rest : List UInt8)
    (hnul : d.NulFree) :
    getEntry little (mtable little total (d :: data) ++ rest) =
      some ⟨d.name, d.overview, UInt32.ofNat total, UInt16.ofNat (encModule little d).length⟩ := by
  rw [getEntry, mtable]
  simp only [List.append_assoc, cstr_encstr _ hnul.name, cstr_encstr _ hnul.overview, get32_enc32,
    get16_enc16, Option.bind_eq_bind, Option.bind_some]

theorem drop_entry :
    (enc32 little total ++ (enc16 little i ++ rest)).drop helpModEntryDsize = rest := by
  rw [← List.append_assoc]
  exact List.drop_left' (by simp [helpModEntryDsize])

theorem encModules_cons : encModules little (d :: data) =
    encModule little d ++ encModules little data := List.flatMap_cons ..

theorem length_mtable_cons : (mtable little total (d :: data)).length =
    d.name.length + 1 + (d.overview.length + 1) + helpModEntryDsize +
      (mtable little (total + (encModule little d).length) data).length := by
  simp only [mtable, encstr, List.length_append, List.length_singleton, length_enc32, length_enc16,
    helpModEntryDsize]

/-- The entries of the table are found by skipping those before. -/
theorem skipEntries_mtable (little : Bool) (total i : ℕ) (rest : List UInt8)
    (hnul : ∀ d ∈ data, d.NulFree) (hi : i ≤ data.length) :
    skipEntries i (mtable little total data ++ rest) =
      some (mtable little (total + (encModules little (data.take i)).length) (data.drop i) ++
        rest) := by
  induction i generalizing total data with
  | zero => rfl
  | succ i ih =>
    cases data with
    | nil => exact absurd hi (Nat.not_succ_le_zero i)
    | cons d data =>
      have hd := hnul d List.mem_cons_self
      have hnext := ih (total + (encModule little d).length)
        (fun e he => hnul e (List.mem_cons_of_mem _ he)) (Nat.le_of_succ_le_succ hi)
      rw [skipEntries, mtable]
      simp only [List.append_assoc, cstr_encstr _ hd.name, cstr_encstr _ hd.overview, drop_entry,
        Option.bind_eq_bind, Option.bind_some, hnext]
      rw [List.take_succ_cons, List.drop_succ_cons, encModules_cons, List.length_append,
        Nat.add_assoc]

/-- The modules of the table are counted. -/
theorem countModules_mtable (total fuel : ℕ) (rest : List UInt8) (hnul : ∀ d ∈ data, d.NulFree)
    (hfuel : data.length < fuel) :
    countModules fuel (mtable little total data).length (mtable little total data ++ rest) =
      some data.length := by
  induction data generalizing total fuel with
  | nil =>
    obtain ⟨fuel, rfl⟩ := Nat.exists_eq_add_of_lt hfuel
    rfl
  | cons d data ih =>
    obtain ⟨fuel, rfl⟩ := Nat.exists_eq_add_of_lt hfuel
    have hd := hnul d List.mem_cons_self
    have hnext := ih (total + (encModule little d).length) ((d :: data).length + fuel)
      (fun e he => hnul e (List.mem_cons_of_mem _ he)) (by
        rw [List.length_cons]
        omega)
    rw [length_mtable_cons, countModules, if_neg (by simp only [helpModEntryDsize]; omega), mtable]
    simp only [List.append_assoc, cstr_encstr _ hd.name, cstr_encstr _ hd.overview, drop_entry,
      Option.bind_eq_bind, Option.bind_some, Nat.add_sub_cancel_left, hnext]
    rfl

theorem length_le_mtable (total : ℕ) : data.length ≤ (mtable little total data).length := by
  induction data generalizing total with
  | nil => exact Nat.zero_le _
  | cons d data ih =>
    have hrest := ih (total + (encModule little d).length)
    rw [length_mtable_cons, List.length_cons]
    omega

/-- What the reader takes from the file. -/
theorem length_generateTarget : (generateTarget little data).length =
    8 + (mtable little 0 data).length + (encModules little data).length := by
  simp only [generateTarget, List.length_append, length_enc32]
  rfl

/-- The modules are behind the table. -/
theorem drop_generateTarget (little : Bool) (data : List Module) :
    (generateTarget little data).drop (8 + (mtable little 0 data).length) =
      encModules little data := by
  refine List.drop_left' ?_
  simp only [List.length_append, length_enc32]
  rfl

/-- The table, in the file or in a block of its own. -/
theorem helpTable_eq (table rest : List UInt8) (hmalloc : ∀ n, malloc n = true) :
    helpTable rom malloc table.length (table ++ rest) =
      some (table ++ if rom then rest else []) := by
  rw [helpTable, List.take_left, hmalloc]
  cases rom
  · simp
  · rfl

/-- **The reader accepts what the writer writes.** -/
theorem helpInit_generateTarget (little rom : Bool) (hmalloc : ∀ n, malloc n = true)
    (hnul : ∀ d ∈ data, d.NulFree) (hlen : (mtable little 0 data).length < 2 ^ 32) :
    ∃ h, helpInit little rom malloc (generateTarget little data) = some (some h) ∧
      Describes little h data := by
  have hsize := toNat_ofNat32 hlen
  have hsig : (generateTarget little data).take 4 = helpSig := by
    simp only [generateTarget, List.append_assoc]
    exact List.take_left' rfl
  have hrest : (generateTarget little data).drop 4 =
      enc32 little (mtable little 0 data).length ++
        (mtable little 0 data ++ encModules little data) := by
    simp only [generateTarget, List.append_assoc]
    exact List.drop_left' rfl
  have hcount (rest : List UInt8) :
      countModules ((mtable little 0 data).length + 1) (mtable little 0 data).length
        (mtable little 0 data ++ rest) = some data.length :=
    countModules_mtable 0 _ rest hnul (Nat.lt_succ_of_le (length_le_mtable 0))
  rw [helpInit, if_pos hsig, hrest, get32_enc32]
  simp only [hsize, helpTable_eq _ _ hmalloc, hcount, Option.map_some]
  exact ⟨_, rfl, rfl, ⟨_, rfl⟩, rfl, rfl⟩

theorem drop_of_getElem? (hi : data[i]? = some d) : data.drop i = d :: data.drop (i + 1) := by
  obtain ⟨hlt, rfl⟩ := List.getElem?_eq_some_iff.mp hi
  exact List.drop_eq_getElem_cons hlt

/-- The entry of every module is found. -/
theorem helphGetModtableData_eq (hnul : ∀ d ∈ data, d.NulFree) (hh : Describes little h data)
    (hi : data[i]? = some d) : helphGetModtableData little h i =
      some (some ⟨d.name, d.overview, UInt32.ofNat (encModules little (data.take i)).length,
        UInt16.ofNat (encModule little d).length⟩) := by
  obtain ⟨rest, htable⟩ := hh.table
  obtain ⟨hlt, -⟩ := List.getElem?_eq_some_iff.mp hi
  have hskip := skipEntries_mtable little 0 i rest hnul hlt.le
  have hd := hnul d (List.mem_of_getElem? hi)
  have hentry := getEntry_mtable little (data.drop (i + 1))
    (0 + (encModules little (data.take i)).length) rest hd
  rw [Nat.zero_add] at hskip hentry
  rw [helphGetModtableData, hh.num, if_pos hlt, htable, hskip, drop_of_getElem? hi]
  simp only [Option.bind_eq_bind, Option.bind_some, hentry, Option.map_some]

theorem encModules_drop (little : Bool) (hi : data[i]? = some d) : encModules little data =
    encModules little (data.take i) ++
      (encModule little d ++ encModules little (data.drop (i + 1))) := by
  rw [← encModules_cons, ← drop_of_getElem? hi, encModules, encModules, encModules,
    ← List.flatMap_append, List.take_append_drop]

/-- **Every module can be loaded.** -/
theorem helphLoadModule_eq (hmalloc : ∀ n, malloc n = true) (hfits : Fits little data)
    (hh : Describes little h data) (hi : data[i]? = some d) :
    ∃ md, helphLoadModule little malloc h i = some (some md) ∧ Loaded md d := by
  have hmem := List.mem_of_getElem? hi
  have hrecord := hfits.record d hmem
  have hword := toNat_ofNat16 hrecord
  have hlen := hfits.size
  have hsplit := encModules_drop little hi
  have hsum := congrArg List.length hsplit
  rw [List.length_append, List.length_append] at hsum
  rw [length_generateTarget] at hlen
  have hstart : (UInt32.ofNat (encModules little (data.take i)).length + h.helpModTableSize +
      helpModExtraOffset).toNat = 8 + (mtable little 0 data).length +
        (encModules little (data.take i)).length := by
    have hpos := length_encModule little d
    have hextra : helpModExtraOffset.toNat = 8 := rfl
    rw [hh.size, UInt32.toNat_add, UInt32.toNat_add, toNat_ofNat32 (by omega),
      toNat_ofNat32 (by omega), hextra]
    omega
  have hfile : h.file.drop (8 + (mtable little 0 data).length +
      (encModules little (data.take i)).length) =
        encModule little d ++ encModules little (data.drop (i + 1)) := by
    rw [hh.file, ← List.drop_drop, drop_generateTarget, hsplit, List.drop_left]
  obtain ⟨md, hread, hloaded⟩ := readModule_encModule little
    (if h.rom then encModules little (data.drop (i + 1)) else []) hmalloc
    (hfits.nulFree d hmem) hrecord
  have hpointer : helpModule h malloc ⟨d.name, d.overview,
      UInt32.ofNat (encModules little (data.take i)).length,
      UInt16.ofNat (encModule little d).length⟩ = some (encModule little d ++
        if h.rom then encModules little (data.drop (i + 1)) else []) := by
    rw [helpModule, hstart, hfile, hword, List.take_left, hmalloc]
    cases h.rom
    · simp
    · rfl
  refine ⟨md, ?_, hloaded⟩
  rw [helphLoadModule, helphGetModtableData_eq hfits.nulFree hh hi]
  simp only [Option.bind_eq_bind, Option.bind_some, hpointer, hmalloc, if_true, hread]

end Reading

end ELuaBrain.Help
