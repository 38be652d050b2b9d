import Mathlib.Data.Fintype.Card
import ELuaBrain.RomFs.RoundTrip
import ELuaBrain.System.Reach

/-!
# Descriptors of the ROM file system

The calls of `romfs.c` on an array that the packer wrote, with the table of descriptors and the
number of those that are in use. A descriptor number that is not an index of the table makes a call
read or write outside of it; the step does not exist then.

## Main definitions

* `State`, `Call`, `Result`, `run` : the static variables, the calls, and what they return.
* `Client` : the file system with the descriptors that a program has open.
* `Good`, `Serves` : what should hold between calls, and of each call.

## Main results

* `guarded_of_reach` : it does, if only descriptors that are open are closed and read.
-/

namespace ELuaBrain.RomFs

/-- `ROMFS_MAX_FDS`. -/
def romfsMaxFds : ℕ := 4

/-- The static variables. -/
structure State where
  fdTable : Fin romfsMaxFds → Fs := fun _ => {}
  numFd : ℤ := 0
  dirData : UInt32 := 0

/-- The values of `_errno`. -/
inductive Errno where
  | enfile
  | enoent

/-- What a call returns; `err` is `-1` with `_errno`. -/
inductive Result where
  | fd (i : Fin romfsMaxFds)
  | err (e : Errno)
  | int (n : ℤ)
  | data (bytes : List UInt8)
  | dirent (ent : Option DmDirent)
  | dir (isRoot : Bool)

/-- The calls. -/
inductive Call where
  | openR (path : List UInt8)
  | closeR (fd : ℤ)
  | readR (fd : ℤ) (len : UInt32)
  | lseekR (fd : ℤ) (off : Int32) (whence : ℤ)
  | opendirR (dname : List UInt8)
  | readdirR
  | closedirR

/-! ### The calls -/

/-- The element of the table. -/
def slot (fd : ℤ) : Option (Fin romfsMaxFds) :=
  if h : 0 ≤ fd ∧ fd < romfsMaxFds then some ⟨fd.toNat, by omega⟩ else none

section Calls

variable (rom : Rom) (s : State)

/-- An element of the table is changed. -/
def State.setFd (i : Fin romfsMaxFds) (pfs : Fs) : State :=
  { s with fdTable := Function.update s.fdTable i pfs }

/-- `romfs_find_empty_fd`. -/
def romfsFindEmptyFd : Option (Fin romfsMaxFds) :=
  (List.finRange romfsMaxFds).find? fun i => !(s.fdTable i).pReadFunc

/-- `romfs_open_r`. -/
def romfsOpenR (path : List UInt8) : Option (Result × State) :=
  if s.numFd = romfsMaxFds then some (.err .enfile, s)
  else do
    match ← romfsOpenFile rom path with
    | none => some (.err .enoent, s)
    | some tempfs =>
        let i ← romfsFindEmptyFd s
        some (.fd i, { s.setFd i tempfs with numFd := s.numFd + 1 })

/-- `romfs_close_r`. -/
def romfsCloseR (fd : ℤ) : Option (Result × State) := do
  let i ← slot fd
  some (.int 0, { s.setFd i {} with numFd := s.numFd - 1 })

/-- `romfs_read_r`. -/
def romfsReadFd (fd : ℤ) (len : UInt32) : Option (Result × State) := do
  let i ← slot fd
  let (bytes, pfs) ← romfsReadR rom (s.fdTable i) len
  some (.data bytes, s.setFd i pfs)

/-- `newpos` of `romfs_lseek_r`, with `SEEK_SET`, `SEEK_CUR` and `SEEK_END`. -/
def seekPos (pfs : Fs) (off : Int32) (whence : ℤ) : Option UInt32 :=
  if whence = 0 then some off.toUInt32
  else if whence = 1 then some (pfs.offset + off.toUInt32)
  else if whence = 2 then some (pfs.size + off.toUInt32)
  else none

/-- `romfs_lseek_r`. -/
def romfsLseekR (fd : ℤ) (off : Int32) (whence : ℤ) : Option (Result × State) := do
  let i ← slot fd
  let pfs := s.fdTable i
  match seekPos pfs off whence with
  | none => some (.int (-1), s)
  | some newpos =>
      if newpos > pfs.size then some (.int (-1), s)
      else some (.int newpos.toInt32.toInt, s.setFd i { pfs with offset := newpos })

/-- `romfs_opendir_r`; it returns the address of `romfs_dir_data` or `NULL`. -/
def romfsOpendirR (dname : List UInt8) : Result × State :=
  if dname = [] ∨ dname = [0x2F] then (.dir true, { s with dirData := 0 }) else (.dir false, s)

/-- A call. -/
def Call.run : Call → Option (Result × State)
  | .openR path => romfsOpenR rom s path
  | .closeR fd => romfsCloseR s fd
  | .readR fd len => romfsReadFd rom s fd len
  | .lseekR fd off whence => romfsLseekR s fd off whence
  | .opendirR dname => some (romfsOpendirR s dname)
  | .readdirR => (romfsReaddirR rom s.dirData).map fun (ent, dirData) =>
      (.dirent ent, { s with dirData })
  | .closedirR => some (.int 0, { s with dirData := 0 })

end Calls

/-! ### A program that uses the files -/

/-- The file system, with the descriptors that were returned and not closed. -/
structure Client where
  state : State := {}
  opened : List (Fin romfsMaxFds) := []

/-- The descriptor is one that was returned and not closed. -/
def Client.Open (k : Client) (fd : ℤ) : Prop := ∃ i ∈ k.opened, slot fd = some i

instance (k : Client) (fd : ℤ) : Decidable (k.Open fd) :=
  inferInstanceAs (Decidable (∃ i ∈ k.opened, slot fd = some i))

/-- The descriptors that are open after a call. -/
def Client.openedAfter (k : Client) (call : Call) (res : Result) : List (Fin romfsMaxFds) :=
  match call, res with
  | .openR _, .fd i => i :: k.opened
  | .closeR fd, _ => k.opened.filter fun i => slot fd ≠ some i
  | _, _ => k.opened

/-- What a call returns, with the client after it. -/
def Client.run (rom : Rom) (k : Client) (call : Call) : Option (Result × Client) :=
  (call.run rom k.state).map fun (res, state) =>
    (res, { state, opened := k.openedAfter call res })

/-- One call. -/
def Client.step (rom : Rom) (k : Client) (call : Call) : Option Client :=
  (k.run rom call).map Prod.snd

/-- The descriptor that a call is about. -/
def Call.fd : Call → Option ℤ
  | .closeR fd | .readR fd _ | .lseekR fd _ _ => some fd
  | _ => none

/-- Only descriptors that are open are closed or read. Seeking in another element of the table is
allowed, unless it is to its start. -/
def Call.Careful (k : Client) : Call → Prop
  | .closeR fd | .readR fd _ => k.Open fd
  | .lseekR fd off whence =>
      k.Open fd ∨ ((slot fd).isSome ∧ (off ≠ 0 ∨ whence ∉ [0, 1, 2]))
  | _ => True

/-- The number of descriptors is the number of elements that are in use, which are those that are
open; each is a descriptor of a file, with an offset in it. -/
structure Good (rom : Rom) (files : List File) (k : Client) : Prop where
  numFd_eq : k.state.numFd =
    ((Finset.univ.filter fun i => (k.state.fdTable i).pReadFunc = true).card : ℤ)
  nodup : k.opened.Nodup
  mem_opened : ∀ i, i ∈ k.opened ↔ (k.state.fdTable i).pReadFunc = true
  offset_le : ∀ i, (k.state.fdTable i).offset ≤ (k.state.fdTable i).size
  file : ∀ i ∈ k.opened, ∃ f ∈ files, (k.state.fdTable i).Describes rom f

/-- A call changes only the descriptor that it is about, or that it returns, which was not open
before. It fails if the descriptor is not open. What is read is in the file. -/
structure Serves (rom : Rom) (files : List File) (k k' : Client) (call : Call) (res : Result) :
    Prop where
  frame : ∀ j, call.fd.bind slot ≠ some j → res ≠ .fd j →
    k'.state.fdTable j = k.state.fdTable j
  fresh : ∀ j, res = .fd j → j ∉ k.opened
  fails : ∀ fd, call.fd = some fd → ¬ k.Open fd → res = .int (-1)
  read : ∀ fd len, call = .readR fd len → ∃ i ∈ k.opened, slot fd = some i ∧
    ∃ f ∈ files, (k.state.fdTable i).Describes rom f ∧
      res = .data ((f.filedata.drop (k.state.fdTable i).offset.toNat).take len.toNat)

/-! ### What every call keeps -/

/-- A descriptor of a file, with an offset in it. -/
structure Fs.InUse (rom : Rom) (files : List File) (pfs : Fs) : Prop where
  pReadFunc : pfs.pReadFunc = true
  offset_le : pfs.offset ≤ pfs.size
  file : ∃ f ∈ files, pfs.Describes rom f

/-- The invariant. -/
structure Inv (rom : Rom) (files : List File) (k : Client) : Prop where
  numFd_eq : k.state.numFd = k.opened.length
  nodup : k.opened.Nodup
  inUse : ∀ i ∈ k.opened, (k.state.fdTable i).InUse rom files
  unused : ∀ i ∉ k.opened, k.state.fdTable i = {}
  dir : ∃ fs, rom.At k.state.dirData (image k.state.dirData.toNat fs)

/-- What is proved of one call. -/
def Ok (rom : Rom) (files : List File) (k : Client) (call : Call) : Prop :=
  ∃ res k', k.run rom call = some (res, k') ∧ Inv rom files k' ∧ Serves rom files k k' call res

section Runs

variable {rom : Rom} {files : List File} {k : Client} {fd : ℤ} {i j : Fin romfsMaxFds} {pfs : Fs}

theorem Inv.good (h : Inv rom files k) : Good rom files k := by
  have hmem : ∀ i, i ∈ k.opened ↔ (k.state.fdTable i).pReadFunc = true := fun i =>
    ⟨fun hi => (h.inUse i hi).pReadFunc, fun hi => by
      by_contra hne
      rw [h.unused i hne] at hi
      cases hi⟩
  refine ⟨?_, h.nodup, hmem, fun i => ?_, fun i hi => (h.inUse i hi).file⟩
  · have hfilter : (Finset.univ.filter fun i => (k.state.fdTable i).pReadFunc = true) =
        k.opened.toFinset := by
      ext i
      rw [Finset.mem_filter, List.mem_toFinset, hmem]
      exact and_iff_right (Finset.mem_univ i)
    rw [hfilter, List.toFinset_card_of_nodup h.nodup, h.numFd_eq]
  · by_cases hi : i ∈ k.opened
    · exact (h.inUse i hi).offset_le
    · rw [h.unused i hi]
      exact UInt32.le_refl _

theorem Inv.exists_slot (h : Inv rom files k) (hfd : k.Open fd) :
    ∃ i ∈ k.opened, slot fd = some i ∧ (k.state.fdTable i).InUse rom files :=
  hfd.imp fun i hi => ⟨hi.1, hi.2, h.inUse i hi.1⟩

theorem not_open_iff (hslot : slot fd = some i) : ¬ k.Open fd ↔ i ∉ k.opened :=
  not_congr ⟨fun ⟨_, hj, hs⟩ => Option.some.inj (hslot.symm.trans hs) ▸ hj,
    fun hi => ⟨i, hi, hslot⟩⟩

/-- A descriptor that is open is changed to another one for the same table. -/
theorem Inv.setFd (h : Inv rom files k) (hi : i ∈ k.opened) (hpfs : pfs.InUse rom files) :
    Inv rom files { k with state := k.state.setFd i pfs } where
  numFd_eq := h.numFd_eq
  nodup := h.nodup
  inUse j hj := by
    dsimp only [State.setFd]
    rcases eq_or_ne j i with rfl | hne
    · rwa [Function.update_self]
    · rw [Function.update_of_ne hne]
      exact h.inUse j hj
  unused j hj := by
    have hne : j ≠ i := fun heq => hj (heq ▸ hi)
    dsimp only [State.setFd]
    rw [Function.update_of_ne hne]
    exact h.unused j hj
  dir := h.dir

theorem ok_readR (h : Inv rom files k) (len : UInt32) (hfd : k.Open fd) :
    Ok rom files k (.readR fd len) := by
  obtain ⟨i, hi, hslot, hpfs⟩ := h.exists_slot hfd
  obtain ⟨f, hf, hdescribes⟩ := hpfs.file
  obtain ⟨offset, hread, hoffset⟩ := hdescribes.read hpfs.offset_le len
  have hnew : Fs.InUse rom files { k.state.fdTable i with offset } := by
    refine ⟨hpfs.pReadFunc, ?_, f, hf, hdescribes.data, hdescribes.size_eq⟩
    exact UInt32.le_iff_toNat_le.mpr (hoffset.trans_le (Nat.min_le_right _ _))
  refine ⟨.data ((f.filedata.drop (k.state.fdTable i).offset.toNat).take len.toNat), _, ?_,
    h.setFd hi hnew, ?_⟩
  · rw [Client.run, Call.run, romfsReadFd, hslot]
    simp only [Option.bind_eq_bind, Option.bind_some, hread, Option.map_some]
    rfl
  · refine ⟨fun j hj _ => ?_, nofun, fun fd' hfd' hne => ?_, fun fd' len' hcall => ?_⟩
    · have hne : j ≠ i := fun heq => hj (heq ▸ hslot)
      exact Function.update_of_ne hne _ _
    · exact absurd (Option.some.inj hfd' ▸ hfd) hne
    · obtain ⟨rfl, rfl⟩ := Call.readR.inj hcall
      exact ⟨i, hi, hslot, f, hf, hdescribes, rfl⟩

theorem ok_closeR (h : Inv rom files k) (hfd : k.Open fd) : Ok rom files k (.closeR fd) := by
  obtain ⟨i, hi, hslot, -⟩ := h.exists_slot hfd
  have hafter : (k.opened.filter fun j => slot fd ≠ some j) = k.opened.erase i := by
    rw [h.nodup.erase_eq_filter]
    refine List.filter_congr fun j _ => ?_
    rw [hslot]
    by_cases hji : j = i
    · simp [hji]
    · simp [hji, Ne.symm hji]
  have hrun : romfsCloseR k.state fd =
      some (.int 0, { k.state.setFd i {} with numFd := k.state.numFd - 1 }) := by
    rw [romfsCloseR, hslot]
    rfl
  have hlen := List.length_erase_of_mem hi
  have hpos := List.length_pos_of_mem hi
  refine ⟨.int 0, ⟨{ k.state.setFd i {} with numFd := k.state.numFd - 1 }, k.opened.erase i⟩,
    ?_, ⟨?_, h.nodup.erase i, fun j hj => ?_, fun j hj => ?_, h.dir⟩,
    fun j hj _ => ?_, nofun, fun fd' hfd' hne => ?_, nofun⟩
  · rw [← hafter, Client.run, Call.run, hrun]
    rfl
  · change k.state.numFd - 1 = _
    rw [h.numFd_eq, hlen]
    omega
  · obtain ⟨hne, hj⟩ := h.nodup.mem_erase_iff.mp hj
    dsimp only [State.setFd]
    rw [Function.update_of_ne hne]
    exact h.inUse j hj
  · dsimp only [State.setFd]
    rcases eq_or_ne j i with rfl | hne
    · rw [Function.update_self]
    · rw [Function.update_of_ne hne]
      exact h.unused j fun hmem => hj (h.nodup.mem_erase_iff.mpr ⟨hne, hmem⟩)
  · have hne : j ≠ i := fun heq => hj (heq ▸ hslot)
    exact Function.update_of_ne hne _ _
  · exact absurd (Option.some.inj hfd' ▸ hfd) hne

/-- Seeking where it is allowed: in a descriptor that is open, or in another element of the table,
where it fails. -/
theorem ok_lseekR (h : Inv rom files k) (off : Int32) (whence : ℤ)
    (hcareful : (Call.lseekR fd off whence).Careful k) :
    Ok rom files k (.lseekR fd off whence) := by
  have hslot : (slot fd).isSome := by
    rcases hcareful with ⟨i, -, hi⟩ | ⟨hsome, -⟩
    · rw [hi]
      rfl
    · exact hsome
  obtain ⟨i, hslot⟩ := Option.isSome_iff_exists.mp hslot
  have hfail : romfsLseekR k.state fd off whence = some (.int (-1), k.state) →
      Ok rom files k (.lseekR fd off whence) := fun hrun =>
    ⟨.int (-1), k, by rw [Client.run, Call.run, hrun]; rfl, h, fun _ _ _ => rfl, nofun,
      fun _ _ _ => rfl, nofun⟩
  rcases hpos : seekPos (k.state.fdTable i) off whence with _ | newpos
  · -- the value of `whence` is unknown
    refine hfail ?_
    rw [romfsLseekR, hslot]
    simp only [Option.bind_eq_bind, Option.bind_some, hpos]
  · by_cases hgt : newpos > (k.state.fdTable i).size
    · refine hfail ?_
      rw [romfsLseekR, hslot]
      simp only [Option.bind_eq_bind, Option.bind_some, hpos, hgt, if_true]
    · have hopen : k.Open fd := by
        by_contra hne
        obtain ⟨-, hoff⟩ := hcareful.resolve_left hne
        rw [h.unused i ((not_open_iff hslot).mp hne)] at hpos hgt
        have hnewpos : newpos = off.toUInt32 := by
          rw [seekPos] at hpos
          split_ifs at hpos
          · exact (Option.some.inj hpos).symm
          · exact (Option.some.inj hpos).symm.trans (UInt32.zero_add _)
          · exact (Option.some.inj hpos).symm.trans (UInt32.zero_add _)
        have hzero : newpos = 0 := by
          rw [← UInt32.toNat_inj]
          exact Nat.le_zero.mp (Nat.not_lt.mp fun hlt => hgt (UInt32.lt_iff_toNat_lt.mpr hlt))
        rcases hoff with hoff | hoff
        · refine hoff ?_
          rw [← Int32.toInt32_toUInt32 off, ← hnewpos, hzero]
          rfl
        · rw [seekPos] at hpos
          simp only [List.mem_cons, List.not_mem_nil, or_false, not_or] at hoff
          simp only [hoff, if_false] at hpos
          cases hpos
      have hi : i ∈ k.opened := by
        by_contra hne
        exact (not_open_iff hslot).mpr hne hopen
      have hpfs := h.inUse i hi
      obtain ⟨f, hf, hdescribes⟩ := hpfs.file
      have hnew : Fs.InUse rom files { k.state.fdTable i with offset := newpos } :=
        ⟨hpfs.pReadFunc, UInt32.not_lt.mp hgt, f, hf, hdescribes.data, hdescribes.size_eq⟩
      refine ⟨.int newpos.toInt32.toInt, _, ?_, h.setFd hi hnew, fun j hj _ => ?_, nofun,
        fun fd' hfd' hne => ?_, nofun⟩
      · rw [Client.run, Call.run, romfsLseekR, hslot]
        simp only [Option.bind_eq_bind, Option.bind_some, hpos, hgt, if_false, Option.map_some]
        rfl
      · have hne : j ≠ i := fun heq => hj (heq ▸ hslot)
        exact Function.update_of_ne hne _ _
      · exact absurd (Option.some.inj hfd' ▸ hopen) hne

/-- An element of the table that is not in use is found, if there is one. -/
theorem Inv.romfsFindEmptyFd (h : Inv rom files k) (hlt : k.opened.length < romfsMaxFds) :
    ∃ i ∉ k.opened, romfsFindEmptyFd k.state = some i := by
  have hsome : ((List.finRange romfsMaxFds).find? fun i =>
      !(k.state.fdTable i).pReadFunc).isSome := by
    by_contra hnone
    rw [Bool.not_eq_true, Option.isSome_eq_false_iff, Option.isNone_iff_eq_none,
      List.find?_eq_none] at hnone
    have hall : ∀ i, i ∈ k.opened := fun i => by
      by_contra hi
      refine hnone i (List.mem_finRange i) ?_
      rw [h.unused i hi]
      rfl
    have hcard : (Finset.univ : Finset (Fin romfsMaxFds)).card ≤ k.opened.toFinset.card :=
      Finset.card_le_card fun i _ => List.mem_toFinset.mpr (hall i)
    rw [Finset.card_univ, Fintype.card_fin, List.toFinset_card_of_nodup h.nodup] at hcard
    omega
  obtain ⟨i, hi⟩ := Option.isSome_iff_exists.mp hsome
  refine ⟨i, fun hmem => ?_, hi⟩
  have hfree := List.find?_some hi
  rw [(h.inUse i hmem).pReadFunc] at hfree
  cases hfree

theorem ok_openR (hrom : rom.bytes = mkfs (files.map File.toEntry)) (h : Inv rom files k)
    (path : List UInt8) : Ok rom files k (.openR path) := by
  have herr : ∀ e, romfsOpenR rom k.state path = some (.err e, k.state) →
      Ok rom files k (.openR path) := fun e hrun =>
    ⟨.err e, k, by rw [Client.run, Call.run, hrun]; rfl, h, fun _ _ _ => rfl, nofun, nofun, nofun⟩
  by_cases hfull : k.state.numFd = romfsMaxFds
  · exact herr .enfile (if_pos hfull)
  · obtain ⟨res, hopen, hres⟩ := romfsOpenFile_eq path hrom
    rcases hfind : files.find? (fun f => strncasecmp path f.fname dmMaxFnameLength) with _ | f
    · rw [hfind] at hres
      refine herr .enoent ?_
      rw [romfsOpenR, if_neg hfull, hopen, hres]
      rfl
    · rw [hfind] at hres
      obtain ⟨base, size, rfl, hdescribes⟩ := hres
      have hlt : k.opened.length < romfsMaxFds := by
        have hnum := h.numFd_eq
        have hle : k.opened.length ≤ romfsMaxFds := by
          have := k.opened.toFinset.card_le_univ
          rwa [Fintype.card_fin, List.toFinset_card_of_nodup h.nodup] at this
        rw [hnum] at hfull
        omega
      obtain ⟨i, hi, hempty⟩ := h.romfsFindEmptyFd hlt
      refine ⟨.fd i, ⟨{ k.state.setFd i { baseaddr := base, size := size, pReadFunc := true } with
        numFd := k.state.numFd + 1 }, i :: k.opened⟩, ?_, ⟨?_, List.nodup_cons.mpr ⟨hi, h.nodup⟩,
        fun j hj => ?_, fun j hj => ?_, h.dir⟩, fun j _ hj => ?_, fun j hj => ?_, nofun, nofun⟩
      · rw [Client.run, Call.run, romfsOpenR, if_neg hfull, hopen]
        simp only [Option.bind_eq_bind, Option.bind_some, hempty, Option.map_some]
        rfl
      · change k.state.numFd + 1 = _
        rw [h.numFd_eq, List.length_cons, Nat.cast_succ]
      · dsimp only [State.setFd]
        rcases eq_or_ne j i with rfl | hne
        · rw [Function.update_self]
          exact ⟨rfl, UInt32.zero_le, f, List.mem_of_find?_eq_some hfind, hdescribes⟩
        · rw [Function.update_of_ne hne]
          exact h.inUse j ((List.mem_cons.mp hj).resolve_left hne)
      · obtain ⟨hne, hj⟩ := not_or.mp (mt List.mem_cons.mpr hj)
        dsimp only [State.setFd]
        rw [Function.update_of_ne hne]
        exact h.unused j hj
      · have hne : j ≠ i := fun heq => hj (heq ▸ rfl)
        exact Function.update_of_ne hne _ _
      · obtain rfl := Result.fd.inj hj
        exact hi

/-- A call about the directory leaves the descriptors alone. -/
theorem ok_of_dirData (h : Inv rom files k) {call : Call} (res : Result) (dirData : UInt32)
    (hrun : call.run rom k.state = some (res, { k.state with dirData }))
    (hopened : k.openedAfter call res = k.opened) (hfd : call.fd = none) (hres : ∀ i, res ≠ .fd i)
    (hread : ∀ fd len, call ≠ .readR fd len)
    (hdir : ∃ fs, rom.At dirData (image dirData.toNat fs)) : Ok rom files k call := by
  refine ⟨res, { state := { k.state with dirData }, opened := k.opened }, ?_,
    ⟨h.numFd_eq, h.nodup, h.inUse, h.unused, hdir⟩, fun _ _ _ => rfl,
    fun j hj => absurd hj (hres j), fun fd hcall => ?_, fun fd len hcall =>
      absurd hcall (hread fd len)⟩
  · rw [Client.run, hrun, ← hopened]
    rfl
  · rw [hfd] at hcall
    cases hcall

theorem Rom.exists_at_image (hrom : rom.bytes = mkfs (files.map File.toEntry)) :
    ∃ fs, rom.At 0 (image (UInt32.toNat 0) fs) :=
  ⟨files, Nat.zero_le _, hrom.trans (mkfs_eq files)⟩

theorem ok_readdirR (h : Inv rom files k) : Ok rom files k .readdirR := by
  obtain ⟨fs, hdir⟩ := h.dir
  cases fs with
  | nil =>
    refine ok_of_dirData h (.dirent none) k.state.dirData ?_ rfl rfl (by rintro _ ⟨⟩) (by rintro _ _ ⟨⟩) ⟨[], hdir⟩
    rw [Call.run, romfsReaddirR, Rom.At.romfsRead hdir]
    rfl
  | cons f fs =>
    have hlen := hdir.length_eq
    obtain ⟨base, size, hrec⟩ := Rom.At.record hdir
    have hnext := hrec.next
    have hnat : (base + size).toNat = k.state.dirData.toNat +
        (record k.state.dirData.toNat f).length := by
      have := hnext.length_eq
      rw [image, List.length_append] at hlen
      omega
    rw [← hnat] at hnext
    refine ok_of_dirData h (.dirent (some { fname := f.fname, fsize := size, ftime := 0 }))
      (base + size) ?_ rfl rfl (by rintro _ ⟨⟩) (by rintro _ _ ⟨⟩) ⟨fs, hnext⟩
    rw [Call.run, hrec.readdir]
    rfl

/-- **One call.** -/
theorem Inv.run (hrom : rom.bytes = mkfs (files.map File.toEntry)) (h : Inv rom files k)
    (call : Call) (hcareful : call.Careful k) : Ok rom files k call := by
  cases call with
  | openR path => exact ok_openR hrom h path
  | closeR fd => exact ok_closeR h hcareful
  | readR fd len => exact ok_readR h len hcareful
  | lseekR fd off whence => exact ok_lseekR h off whence hcareful
  | opendirR dname =>
    by_cases hroot : dname = [] ∨ dname = [0x2F]
    · exact ok_of_dirData h (.dir true) 0 (congrArg some (if_pos hroot)) rfl rfl nofun nofun
        (Rom.exists_at_image hrom)
    · exact ok_of_dirData h (.dir false) _ (congrArg some (if_neg hroot)) rfl rfl nofun nofun h.dir
  | readdirR => exact ok_readdirR h
  | closedirR => exact ok_of_dirData h (.int 0) 0 rfl rfl rfl nofun nofun (Rom.exists_at_image hrom)

end Runs

/-! ### Every run -/

/-- **Descriptors.** In every run on a packed list of files in which only descriptors that are open
are closed and read, and no other element of the table is sought to its start, the number of
descriptors is right, each is a descriptor of a file with an offset in it, and every call does what
it should. -/
theorem guarded_of_reach (files : List File) (rom : Rom)
    (hrom : rom.bytes = mkfs (files.map File.toEntry)) {k : Client}
    (h : Reach (Client.step rom) (fun k call => call.Careful k) {} k) :
    Good rom files k ∧ ∀ call : Call, call.Careful k →
      ∃ res k', k.run rom call = some (res, k') ∧ Serves rom files k k' call res := by
  have hinv : Inv rom files k := by
    refine h.invariant ⟨rfl, List.nodup_nil, List.forall_mem_nil _, fun _ _ => rfl,
      Rom.exists_at_image hrom⟩ fun k call k' hk hcall hstep => ?_
    obtain ⟨res, k'', hrun, hinv, -⟩ := hk.run hrom call hcall
    rw [Client.step, hrun] at hstep
    exact Option.some.inj hstep ▸ hinv
  refine ⟨hinv.good, fun call hcareful => ?_⟩
  obtain ⟨res, k', hrun, -, hserves⟩ := hinv.run hrom call hcareful
  exact ⟨res, k', hrun, hserves⟩

/-- A descriptor that is not open is closed, and there are `-1` descriptors. -/
theorem not_good_closeR :
    ¬ ∀ (files : List File) (rom : Rom), rom.bytes = mkfs (files.map File.toEntry) →
      ∀ k, Reach (Client.step rom) (fun _ _ => True) {} k → Good rom files k := by
  intro h
  have hgood := h twoFiles twoFilesRom rfl _ (.next (i := .closeR 0) .init trivial rfl)
  have hnum := hgood.numFd_eq
  exact absurd (hnum.ge.trans_lt (by decide : (-1 : ℤ) < 0)) (Int.natCast_nonneg _).not_gt

/-- The file `a` is opened. -/
theorem good_openR :
    ∃ k, Client.step twoFilesRom {} (.openR [0x61]) = some k ∧ Good twoFilesRom twoFiles k := by
  obtain ⟨k, hstep⟩ := Option.isSome_iff_exists.mp
    (show (Client.step twoFilesRom {} (.openR [0x61])).isSome from by decide +kernel)
  have hcareful : (Call.openR [0x61]).Careful {} := trivial
  exact ⟨k, hstep, (guarded_of_reach twoFiles twoFilesRom rfl (.next .init hcareful hstep)).1⟩

end ELuaBrain.RomFs
