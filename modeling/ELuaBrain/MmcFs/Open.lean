import ELuaBrain.MmcFs.FatFs
import ELuaBrain.System.Reach
import ELuaBrain.System.Slots

/-!
# The MMC file system

The code of `mmcfs.c` over what is documented of FatFs. The flags of `open` become a mode of FatFs
by a chain of tests, the path goes behind the name of the drive into a buffer of 40 characters, and
`O_APPEND` is looked for in the permissions.

The flags have the values of newlib, which has no `O_BINARY` on these targets. A descriptor is an
index of the table.

## Main definitions

* `State`, `mmcfsOpenR`, `mmcfsCloseR`, `mmcfsUnlinkR` : the static variables and the functions.
* `OpensRight`, `Rightly` : what a call of `open` should do, and the calls that do.
* `Event.Careful` : the steps that keep the descriptors right.

## Main results

* `opensRight_iff` : one call of `open`.
* `mmcfs_opens` : the calls, and every run.
-/

namespace ELuaBrain.MmcFs

/-! ### The code -/

/-- `O_RDONLY`, `O_WRONLY`, `O_RDWR`, `O_ACCMODE`, `O_APPEND`, `O_CREAT`, `O_TRUNC` and `O_EXCL`. -/
def oRdonly : UInt32 := 0
def oWronly : UInt32 := 1
def oRdwr : UInt32 := 2
def oAccmode : UInt32 := 3
def oAppend : UInt32 := 0x0008
def oCreat : UInt32 := 0x0200
def oTrunc : UInt32 := 0x0400
def oExcl : UInt32 := 0x0800

/-- `MMCFS_MAX_FDS`. -/
def mmcfsMaxFds : ℕ := 4

/-- `PATH_BUF_SIZE`. -/
def pathBufSize : ℕ := 40

/-- The values of `_errno`. -/
inductive Errno where
  | enfile
  | einval
  | enoent

/-- The static variables, the files of the disk, and the flags that each descriptor was opened
with. -/
structure State where
  fdTable : Fin mmcfsMaxFds → Fil := fun _ => {}
  numFd : ℤ := 0
  files : Files := fun _ => none
  flags : Fin mmcfsMaxFds → UInt32 := fun _ => 0

/-- The string in `mmc_pathBuf`. -/
def mmcPath (devid : UInt8) (path : List UInt8) : List UInt8 :=
  [devid + 0x30, 0x3A] ++ (if 0x2F ∈ path then [] else [0x2F]) ++ path

/-- The path and a zero are in `mmc_pathBuf`. -/
def Fits (devid : UInt8) (path : List UInt8) : Prop :=
  (mmcPath devid path).length + 1 ≤ pathBufSize

instance Fits.decidable (devid : UInt8) (path : List UInt8) : Decidable (Fits devid path) :=
  inferInstanceAs (Decidable (_ ≤ _))

/-- How a file is opened; `none` is `EINVAL`. -/
def mmcHow (flags : UInt32) : Option FaOpen :=
  if flags &&& (oCreat ||| oTrunc) = oCreat ||| oTrunc ∧ flags &&& (oRdwr ||| oWronly) ≠ 0 then
    some .createAlways
  else if flags &&& (oCreat ||| oExcl) = oCreat ||| oExcl then some .openExisting
  else if flags &&& oCreat = oCreat then some .openAlways
  else if flags = oRdonly ∨ flags = oWronly ∨ flags = oRdwr then some .openExisting
  else none

/-- The flags of `fcntl.h` as a mode of FatFs; `none` is `EINVAL`. -/
def mmcMode (flags : UInt32) : Option FaMode := do
  let how ← mmcHow flags
  if flags &&& oAccmode = oRdonly then some { how, read := true }
  else if flags &&& oAccmode = oWronly then some { how, write := true }
  else if flags &&& oAccmode = oRdwr then some { how, read := true, write := true }
  else none

/-- `fptr = fsize`. -/
def Fil.toEnd (fp : Fil) (files : Files) : Fil :=
  let fsize := ((files fp.path).getD []).length
  { fp with fptr := fsize, touched := fsize ≠ 0 }

section Functions

variable (s : State)

/-- The elements of the table that are in use. -/
def State.used (i : Fin mmcfsMaxFds) : Bool := (s.fdTable i).fs

/-- `mmcfs_find_empty_fd`. -/
def mmcfsFindEmptyFd : Option (Fin mmcfsMaxFds) := Slots.firstFree s.used

/-- `mmcfs_open_r`; there is no result if it writes outside of `mmc_pathBuf` or of the table. -/
def mmcfsOpenR (devid : UInt8) (path : List UInt8) (flags mode : UInt32) (refuses : Bool) :
    Option (Except Errno (Fin mmcfsMaxFds) × State) :=
  if s.numFd = mmcfsMaxFds then some (.error .enfile, s)
  else if Fits devid path then
    match mmcMode flags with
    | none => some (.error .einval, s)
    | some mmcMode =>
        match fOpen s.files (mmcPath devid path) mmcMode refuses with
        | none => some (.error .enoent, s)
        | some (fp, files) =>
            (mmcfsFindEmptyFd s).map fun fd =>
              (.ok fd, { s with
                fdTable := Function.update s.fdTable fd
                  (if mode &&& oAppend ≠ 0 then fp.toEnd files else fp)
                numFd := s.numFd + 1
                files
                flags := Function.update s.flags fd flags })
  else none

/-- `mmcfs_close_r`. -/
def mmcfsCloseR (fd : Fin mmcfsMaxFds) : State :=
  { s with fdTable := Function.update s.fdTable fd {}, numFd := s.numFd - 1 }

/-- `mmcfs_write_r`, of which `n` bytes are accepted. -/
def mmcfsWriteR (fd : Fin mmcfsMaxFds) (bytes : List UInt8) (n : ℕ) : Option State :=
  (fWrite s.files (s.fdTable fd) bytes n).map fun r =>
    { s with fdTable := Function.update s.fdTable fd r.1, files := r.2 }

/-- `mmcfs_read_r`. -/
def mmcfsReadR (fd : Fin mmcfsMaxFds) (len : ℕ) : Option State :=
  (fRead s.files (s.fdTable fd) len).map fun r =>
    { s with fdTable := Function.update s.fdTable fd r.1 }

/-- `mmcfs_lseek_r`, to a position from the start. -/
def mmcfsLseekR (fd : Fin mmcfsMaxFds) (newpos : UInt32) (room : List UInt8) : Option State :=
  (fLseek s.files (s.fdTable fd) newpos.toNat room).map fun r =>
    { s with fdTable := Function.update s.fdTable fd r.1, files := r.2 }

/-- `mmcfs_unlink_r`. -/
def mmcfsUnlinkR (devnum : UInt8) (fname : List UInt8) (refuses : Bool) : Option State :=
  if Fits devnum fname then
    match fUnlink s.files (mmcPath devnum fname) refuses with
    | none => some s
    | some files => some { s with files }
  else none

end Functions

/-- What may happen. -/
inductive Event where
  | openR (devid : UInt8) (path : List UInt8) (flags mode : UInt32) (refuses : Bool)
  | closeR (fd : Fin mmcfsMaxFds)
  | writeR (fd : Fin mmcfsMaxFds) (bytes : List UInt8) (n : ℕ)
  | readR (fd : Fin mmcfsMaxFds) (len : ℕ)
  | lseekR (fd : Fin mmcfsMaxFds) (newpos : UInt32) (room : List UInt8)
  | unlinkR (devnum : UInt8) (fname : List UInt8) (refuses : Bool)

/-- One event. -/
def State.step (s : State) : Event → Option State
  | .openR devid path flags mode refuses =>
      (mmcfsOpenR s devid path flags mode refuses).map Prod.snd
  | .closeR fd => some (mmcfsCloseR s fd)
  | .writeR fd bytes n => mmcfsWriteR s fd bytes n
  | .readR fd len => mmcfsReadR s fd len
  | .lseekR fd newpos room => mmcfsLseekR s fd newpos room
  | .unlinkR devnum fname refuses => mmcfsUnlinkR s devnum fname refuses

/-! ### What is claimed of one call -/

/-- The flags have all the bits of a mask. -/
def Has (flags mask : UInt32) : Prop := flags &&& mask = mask

instance Has.decidable (flags mask : UInt32) : Decidable (Has flags mask) :=
  inferInstanceAs (Decidable (_ = _))

/-- The file can be written to. -/
def Writes (flags : UInt32) : Prop := flags &&& oAccmode = oWronly ∨ flags &&& oAccmode = oRdwr

instance Writes.decidable (flags : UInt32) : Decidable (Writes flags) :=
  inferInstanceAs (Decidable (_ ∨ _))

/-- What `open` should do with a file. -/
structure OpensRight (before after : Option (List UInt8)) (flags : UInt32) (ok : Bool) : Prop where
  creates : (before = none ∧ after ≠ none) ↔ (Has flags oCreat ∧ before = none)
  excl : Has flags oCreat → Has flags oExcl → before ≠ none → ok = false
  missing : ¬Has flags oCreat → before = none → ok = false
  truncates : ok = true → ∀ c, before = some c →
    after = some (if Has flags oTrunc ∧ Writes flags then [] else c)

/-- The flags with which `open` does so. -/
def Rightly (before : Option (List UInt8)) (flags : UInt32) : Prop :=
  Has flags oCreat →
    if before = none then
      flags &&& oAccmode ≠ oAccmode ∧ (Has flags oExcl → Has flags oTrunc ∧ Writes flags)
    else Has flags oExcl → flags &&& oAccmode = oAccmode

section Flags

variable {flags a b : UInt32}

theorem has_or : Has flags (a ||| b) ↔ Has flags a ∧ Has flags b := by
  simp only [Has, ← UInt32.toBitVec_inj, UInt32.toBitVec_and, UInt32.toBitVec_or]
  constructor
  · intro h
    constructor
    · ext i hi
      have := congrArg (·.getLsbD i) h
      simp at this ⊢
      grind
    · ext i hi
      have := congrArg (·.getLsbD i) h
      simp at this ⊢
      grind
  · rintro ⟨ha, hb⟩
    rw [BitVec.and_or_distrib_left, ha, hb]

theorem accmode_cases (flags : UInt32) :
    flags &&& oAccmode = oRdonly ∨ flags &&& oAccmode = oWronly ∨
      flags &&& oAccmode = oRdwr ∨ flags &&& oAccmode = oAccmode := by
  have hlt : (flags &&& oAccmode).toNat < 4 := by
    rw [UInt32.toNat_and]
    exact Nat.and_lt_two_pow _ (by decide : oAccmode.toNat < 2 ^ 2)
  have hmode : oAccmode.toNat = 3 := rfl
  simp only [← UInt32.toNat_inj, oRdonly, oWronly, oRdwr, hmode, UInt32.reduceToNat]
  omega

theorem mmcMode_how :
    (mmcMode flags).map FaMode.how =
      if flags &&& oAccmode = oAccmode then none else mmcHow flags := by
  rw [mmcMode]
  cases mmcHow flags with
  | none => exact (ite_self none).symm
  | some how =>
    rcases accmode_cases flags with h | h | h | h
    all_goals
      rw [h]
      rfl

theorem writes_iff (hacc : flags &&& oAccmode ≠ oAccmode) :
    Writes flags ↔ flags &&& oAccmode ≠ 0 := by
  rw [Writes]
  rcases accmode_cases flags with h | h | h | h
  · rw [h]
    decide
  · rw [h]
    decide
  · rw [h]
    decide
  · exact absurd h hacc

/-- The tests, said of the bits of the flags. -/
theorem mmcHow_eq (hacc : flags &&& oAccmode ≠ oAccmode) :
    mmcHow flags =
      if Has flags oCreat then
        if Has flags oTrunc ∧ Writes flags then some .createAlways
        else if Has flags oExcl then some .openExisting else some .openAlways
      else if flags = oRdonly ∨ flags = oWronly ∨ flags = oRdwr then some .openExisting
      else none := by
  have htrunc : flags &&& (oCreat ||| oTrunc) = oCreat ||| oTrunc ↔
      Has flags oCreat ∧ Has flags oTrunc := has_or
  have hexcl : flags &&& (oCreat ||| oExcl) = oCreat ||| oExcl ↔
      Has flags oCreat ∧ Has flags oExcl := has_or
  have hcreat : flags &&& oCreat = oCreat ↔ Has flags oCreat := Iff.rfl
  have hmask : oRdwr ||| oWronly = oAccmode := by decide
  simp only [mmcHow, htrunc, hexcl, hmask, hcreat, ← writes_iff hacc]
  by_cases h : Has flags oCreat
  · simp only [h, true_and, if_true]
  · simp only [h, false_and, if_false]

/-- What is in the file after `open`, if it succeeds. -/
def opened (before : Option (List UInt8)) (flags : UInt32) : Option (List UInt8) :=
  (mmcMode flags).bind fun mode => faOpened mode.how before

theorem opensRight_def {before after : Option (List UInt8)} {ok : Bool} :
    OpensRight before after flags ok ↔
      ((before = none ∧ after ≠ none) ↔ (Has flags oCreat ∧ before = none)) ∧
      (Has flags oCreat → Has flags oExcl → before ≠ none → ok = false) ∧
      (¬Has flags oCreat → before = none → ok = false) ∧
      (ok = true → ∀ c, before = some c →
        after = some (if Has flags oTrunc ∧ Writes flags then [] else c)) :=
  ⟨fun h => ⟨h.1, h.2, h.3, h.4⟩, fun h => ⟨h.1, h.2.1, h.2.2.1, h.2.2.2⟩⟩

/-- **One call.** -/
theorem opensRight_iff (before : Option (List UInt8)) (flags : UInt32) :
    OpensRight before ((opened before flags).or before) flags (opened before flags).isSome ↔
      Rightly before flags := by
  have hopened : opened before flags =
      (if flags &&& oAccmode = oAccmode then none else mmcHow flags).bind fun how =>
        faOpened how before := by
    rw [← mmcMode_how, opened, Option.bind_map]
    rfl
  by_cases hacc : flags &&& oAccmode = oAccmode
  · rw [hopened, if_pos hacc, Option.bind_none]
    cases before with
    | none => simp [opensRight_def, Rightly, hacc]
    | some c => simp [opensRight_def, Rightly, hacc]
  rw [hopened, if_neg hacc, mmcHow_eq hacc]
  by_cases hcreat : Has flags oCreat
  · by_cases htrunc : Has flags oTrunc ∧ Writes flags
    · cases before with
      | none => simp [opensRight_def, Rightly, hacc, hcreat, htrunc, faOpened]
      | some c => simp [opensRight_def, Rightly, hacc, hcreat, htrunc, faOpened]
    · by_cases hexcl : Has flags oExcl
      · cases before with
        | none => simp [opensRight_def, Rightly, hacc, hcreat, htrunc, hexcl, faOpened]
        | some c => simp [opensRight_def, Rightly, hacc, hcreat, htrunc, hexcl, faOpened]
      · cases before with
        | none => simp [opensRight_def, Rightly, hacc, hcreat, htrunc, hexcl, faOpened]
        | some c => simp [opensRight_def, Rightly, hacc, hcreat, htrunc, hexcl, faOpened]
  · by_cases hflags : flags = oRdonly ∨ flags = oWronly ∨ flags = oRdwr
    · have htrunc : ¬Has flags oTrunc := by obtain rfl | rfl | rfl := hflags <;> decide
      cases before with
      | none => simp [opensRight_def, Rightly, hcreat, hflags, faOpened]
      | some c => simp [opensRight_def, Rightly, hcreat, hflags, htrunc, faOpened]
    · cases before with
      | none => simp [opensRight_def, Rightly, hcreat, hflags]
      | some c => simp [opensRight_def, Rightly, hcreat, hflags]

end Flags

/-! ### The table -/

section Table

variable {s s' : State} {fd i : Fin mmcfsMaxFds} {fp : Fil}

/-- The table after a slot was changed. -/
theorem used_update : ({ s with fdTable := Function.update s.fdTable fd fp }).used =
    Function.update s.used fd fp.fs := by
  funext i
  rw [State.used]
  by_cases hi : i = fd
  · subst hi
    simp only [Function.update_self]
  · simp only [Function.update_of_ne hi]
    rfl

/-- The descriptor count is the number of slots in use. -/
def Counted (s : State) : Prop := s.numFd = Slots.count s.used

/-- What `open` does if it returns. -/
theorem mmcfsOpenR_cases {devid : UInt8} {path : List UInt8} {flags mode : UInt32} {refuses : Bool}
    {res : Except Errno (Fin mmcfsMaxFds)}
    (h : mmcfsOpenR s devid path flags mode refuses = some (res, s')) :
    (∃ e, res = .error e ∧ s' = s) ∨
      ∃ fd m c fp, res = .ok fd ∧ s.used fd = false ∧ mmcMode flags = some m ∧
        faOpened m.how (s.files (mmcPath devid path)) = some c ∧ fp.fs = true ∧
        fp.path = mmcPath devid path ∧ fp.mode = m ∧ (c = [] → fp.fptr = 0) ∧
        s' = { s with
          fdTable := Function.update s.fdTable fd fp
          numFd := s.numFd + 1
          files := Function.update s.files (mmcPath devid path) (some c)
          flags := Function.update s.flags fd flags } := by
  rw [mmcfsOpenR] at h
  by_cases hfull : s.numFd = mmcfsMaxFds
  · rw [if_pos hfull] at h
    obtain ⟨rfl, rfl⟩ := Prod.mk.inj (Option.some.inj h)
    exact .inl ⟨_, rfl, rfl⟩
  rw [if_neg hfull] at h
  obtain ⟨hfits, h⟩ := Option.ite_none_right_eq_some.mp h
  cases hmode : mmcMode flags with
  | none =>
    rw [hmode] at h
    obtain ⟨rfl, rfl⟩ := Prod.mk.inj (Option.some.inj h)
    exact .inl ⟨_, rfl, rfl⟩
  | some m =>
    rw [hmode] at h
    dsimp only at h
    cases hopen : fOpen s.files (mmcPath devid path) m refuses with
    | none =>
      rw [hopen] at h
      obtain ⟨rfl, rfl⟩ := Prod.mk.inj (Option.some.inj h)
      exact .inl ⟨_, rfl, rfl⟩
    | some r =>
      rw [hopen] at h
      obtain ⟨fd, hfd, h⟩ := Option.map_eq_some_iff.mp h
      obtain ⟨rfl, rfl⟩ := Prod.mk.inj h
      rw [fOpen] at hopen
      obtain ⟨-, hopen⟩ := Option.ite_none_left_eq_some.mp hopen
      obtain ⟨c, hc, rfl⟩ := Option.map_eq_some_iff.mp hopen
      obtain ⟨fp, hfp, hfs, hpath, hm, hempty⟩ : ∃ fp, (if mode &&& oAppend ≠ 0 then
          ({ fs := true, path := mmcPath devid path, mode := m } : Fil).toEnd
            (Function.update s.files (mmcPath devid path) (some c))
          else { fs := true, path := mmcPath devid path, mode := m }) = fp ∧ fp.fs = true ∧
          fp.path = mmcPath devid path ∧ fp.mode = m ∧ (c = [] → fp.fptr = 0) := by
        refine ⟨_, rfl, ?_⟩
        split_ifs
        · refine ⟨rfl, rfl, rfl, fun hc => ?_⟩
          rw [Fil.toEnd, Function.update_self, hc]
          rfl
        · exact ⟨rfl, rfl, rfl, fun _ => rfl⟩
      refine .inr ⟨fd, m, c, fp, rfl, Slots.firstFree_eq_some hfd, rfl, hc, hfs, hpath, hm, hempty,
        ?_⟩
      rw [← hfp]

theorem exists_firstFree (h : Counted s) (hfull : s.numFd ≠ mmcfsMaxFds) :
    ∃ fd, mmcfsFindEmptyFd s = some fd := by
  refine Slots.exists_firstFree (lt_of_le_of_ne Slots.count_le fun heq => hfull ?_)
  rw [h, heq]

/-- The path buffer is left alone only if the table is full. -/
theorem mmcfsOpenR_ne_none (h : Counted s) (devid : UInt8) (path : List UInt8)
    (flags mode : UInt32) (refuses : Bool) :
    mmcfsOpenR s devid path flags mode refuses ≠ none ↔
      s.numFd = mmcfsMaxFds ∨ Fits devid path := by
  rw [mmcfsOpenR]
  by_cases hfull : s.numFd = mmcfsMaxFds
  · rw [if_pos hfull]
    exact iff_of_true nofun (.inl hfull)
  by_cases hfits : Fits devid path
  · rw [if_neg hfull, if_pos hfits]
    refine iff_of_true ?_ (.inr hfits)
    obtain ⟨fd, hfd⟩ := exists_firstFree h hfull
    cases mmcMode flags with
    | none => nofun
    | some m =>
      dsimp only
      cases fOpen s.files (mmcPath devid path) m refuses with
      | none => nofun
      | some r =>
        dsimp only
        rw [hfd]
        nofun
  · rw [if_neg hfull, if_neg hfits]
    exact iff_of_false (not_not.mpr rfl) (not_or.mpr ⟨hfull, hfits⟩)

/-- **One call of `open`.** -/
theorem mmcfsOpenR_some (h : Counted s) {devid : UInt8} {path : List UInt8}
    (hfull : s.numFd ≠ mmcfsMaxFds) (hfits : Fits devid path) (flags mode : UInt32) :
    ∃ res s', mmcfsOpenR s devid path flags mode false = some (res, s') ∧
      res.isOk = (opened (s.files (mmcPath devid path)) flags).isSome ∧
      s'.files (mmcPath devid path) = (opened (s.files (mmcPath devid path)) flags).or
        (s.files (mmcPath devid path)) := by
  obtain ⟨fd, hfd⟩ := exists_firstFree h hfull
  rw [mmcfsOpenR, if_neg hfull, if_pos hfits]
  cases hmode : mmcMode flags with
  | none =>
    refine ⟨_, _, rfl, ?_, ?_⟩
    · rw [opened, hmode]
      rfl
    · rw [opened, hmode]
      rfl
  | some m =>
    have hopened : opened (s.files (mmcPath devid path)) flags =
        faOpened m.how (s.files (mmcPath devid path)) := by
      rw [opened, hmode]
      rfl
    rw [hopened]
    cases hopen : faOpened m.how (s.files (mmcPath devid path)) with
    | none =>
      simp only [fOpen, Bool.false_eq_true, if_false, hopen, Option.map_none]
      exact ⟨_, _, rfl, rfl, rfl⟩
    | some c =>
      simp only [fOpen, Bool.false_eq_true, if_false, hopen, Option.map_some, hfd]
      exact ⟨_, _, rfl, rfl, Function.update_self ..⟩

end Table

/-! ### Runs -/

/-- The steps that keep the descriptors right. Only descriptors in use are closed, and those with
`O_APPEND` are opened for files that are or become empty, and moved to the end only. As FatFs asks
for, a file that is written to is open once, and one that is open is not removed. -/
def Event.Careful (s : State) : Event → Prop
  | .openR devid path flags _ _ =>
      (Has flags oAppend →
        s.files (mmcPath devid path) = none ∨ s.files (mmcPath devid path) = some [] ∨
          (Has flags oCreat ∧ Has flags oTrunc ∧ Writes flags)) ∧
      ∀ fd, s.used fd → (s.fdTable fd).path = mmcPath devid path →
        (s.fdTable fd).mode.write = false ∧ ¬Writes flags
  | .closeR fd => s.used fd
  | .lseekR fd newpos _ =>
      Has (s.flags fd) oAppend → s.files (s.fdTable fd).path = none ∨
        ∃ c, s.files (s.fdTable fd).path = some c ∧ newpos.toNat = c.length
  | .unlinkR devnum fname _ => ∀ fd, s.used fd → (s.fdTable fd).path ≠ mmcPath devnum fname
  | _ => True

/-- The file is missing, or the position is its end. -/
theorem lseek_careful_iff (before : Option (List UInt8)) (newpos : UInt32) :
    before.all (fun c => newpos.toNat = c.length) = true ↔
      before = none ∨ ∃ c, before = some c ∧ newpos.toNat = c.length := by
  cases before with
  | none => simp only [Option.all_none, true_or]
  | some c => simp only [Option.all_some, decide_eq_true_eq, reduceCtorEq, false_or,
      Option.some.injEq, exists_eq_left']

instance Event.Careful.decidable (s : State) : (e : Event) → Decidable (e.Careful s)
  | .openR devid path flags _ _ =>
      inferInstanceAs (Decidable ((Has flags oAppend →
        s.files (mmcPath devid path) = none ∨ s.files (mmcPath devid path) = some [] ∨
          (Has flags oCreat ∧ Has flags oTrunc ∧ Writes flags)) ∧
        ∀ fd, s.used fd → (s.fdTable fd).path = mmcPath devid path →
          (s.fdTable fd).mode.write = false ∧ ¬Writes flags))
  | .closeR fd => inferInstanceAs (Decidable (s.used fd = true))
  | .lseekR fd newpos _ =>
      decidable_of_iff (Has (s.flags fd) oAppend →
          (s.files (s.fdTable fd).path).all (fun c => newpos.toNat = c.length) = true)
        (imp_congr_right fun _ => lseek_careful_iff _ newpos)
  | .unlinkR devnum fname _ =>
      inferInstanceAs (Decidable (∀ fd, s.used fd → (s.fdTable fd).path ≠ mmcPath devnum fname))
  | .writeR .. => inferInstanceAs (Decidable True)
  | .readR .. => inferInstanceAs (Decidable True)

/-- The file pointer of a file object is at the end of the file. -/
def Fil.AtEnd (fp : Fil) (files : Files) : Prop :=
  ∃ c, files fp.path = some c ∧ fp.fptr = c.length

/-- What holds in every run. -/
structure Kept (s : State) : Prop where
  counted : Counted s
  append : ∀ fd, s.used fd → Has (s.flags fd) oAppend → (s.fdTable fd).AtEnd s.files
  once : ∀ fd fd', s.used fd → s.used fd' → fd ≠ fd' →
    (s.fdTable fd).path = (s.fdTable fd').path →
    (s.fdTable fd).mode.write = false ∧ (s.fdTable fd').mode.write = false

section Runs

variable {s s' : State} {fd : Fin mmcfsMaxFds} {fp : Fil} {files : Files}

/-- **A descriptor and its file change.** -/
theorem Kept.setSlot (h : Kept s) (hused : s.used fd) (hfs : fp.fs = true)
    (hpath : fp.path = (s.fdTable fd).path) (hmode : fp.mode = (s.fdTable fd).mode)
    (hother : ∀ q, q ≠ fp.path → files q = s.files q)
    (hread : fp.mode.write = false → files = s.files)
    (hend : Has (s.flags fd) oAppend → fp.AtEnd files) :
    Kept { s with fdTable := Function.update s.fdTable fd fp, files } := by
  have husedEq : ({ s with fdTable := Function.update s.fdTable fd fp, files } : State).used =
      s.used := by
    refine used_update.trans ?_
    rw [hfs, ← hused, Function.update_eq_self]
  refine ⟨?_, fun i hi happend => ?_, fun i j hi hj hne heq => ?_⟩
  · rw [Counted, husedEq]
    exact h.counted
  · rw [husedEq] at hi
    by_cases hifd : i = fd
    · subst hifd
      simp only [Function.update_self]
      exact hend happend
    · simp only [Function.update_of_ne hifd]
      obtain ⟨c, hc, hptr⟩ := h.append i hi happend
      refine ⟨c, ?_, hptr⟩
      by_cases hsame : (s.fdTable i).path = fp.path
      · rw [hread (hmode ▸ (h.once i fd hi hused hifd (hsame.trans hpath)).2), hc]
      · rw [hother _ hsame, hc]
  · rw [husedEq] at hi hj
    have hfil : ∀ k, (Function.update s.fdTable fd fp k).path = (s.fdTable k).path ∧
        (Function.update s.fdTable fd fp k).mode = (s.fdTable k).mode := fun k => by
      by_cases hk : k = fd
      · subst hk
        rw [Function.update_self]
        exact ⟨hpath, hmode⟩
      · rw [Function.update_of_ne hk]
        exact ⟨rfl, rfl⟩
    simp only [hfil] at heq ⊢
    exact h.once i j hi hj hne heq

/-- **Writing** at the end of a file keeps the file pointer there. -/
theorem Kept.write (h : Kept s) {bytes : List UInt8} {n : ℕ}
    (hs : mmcfsWriteR s fd bytes n = some s') : Kept s' := by
  obtain ⟨⟨fp, files⟩, hwrite, rfl⟩ := Option.map_eq_some_iff.mp hs
  rw [fWrite] at hwrite
  obtain ⟨hok, hwrite⟩ := Option.ite_none_left_eq_some.mp hwrite
  have hused : s.used fd := Bool.not_eq_false _ ▸ (not_or.mp hok).1
  split_ifs at hwrite with hmode
  · obtain ⟨rfl, rfl⟩ := Prod.mk.inj (Option.some.inj hwrite)
    exact h.setSlot hused hused rfl rfl (fun _ _ => rfl) (fun _ => rfl) (h.append fd hused)
  · obtain ⟨c, hc, hwrite⟩ := Option.map_eq_some_iff.mp hwrite
    obtain ⟨rfl, rfl⟩ := Prod.mk.inj hwrite
    refine h.setSlot hused hused rfl rfl (fun q hq => Function.update_of_ne hq _ _)
      (fun hread => absurd hread hmode) fun happend => ⟨_, Function.update_self .., ?_⟩
    obtain ⟨c', hc', hptr⟩ := h.append fd hused happend
    obtain rfl := Option.some.inj (hc'.symm.trans hc)
    simp only [List.length_append, hptr, List.take_length, List.length_drop]
    omega

theorem Kept.read (h : Kept s) {len : ℕ} (hs : mmcfsReadR s fd len = some s') : Kept s' := by
  obtain ⟨⟨fp, bytes⟩, hread, rfl⟩ := Option.map_eq_some_iff.mp hs
  rw [fRead] at hread
  obtain ⟨hok, hread⟩ := Option.ite_none_left_eq_some.mp hread
  have hused : s.used fd := Bool.not_eq_false _ ▸ (not_or.mp hok).1
  split_ifs at hread with hmode
  · obtain ⟨rfl, rfl⟩ := Prod.mk.inj (Option.some.inj hread)
    exact h.setSlot hused hused rfl rfl (fun _ _ => rfl) (fun _ => rfl) (h.append fd hused)
  · obtain ⟨c, hc, hread⟩ := Option.map_eq_some_iff.mp hread
    obtain ⟨rfl, rfl⟩ := Prod.mk.inj hread
    refine h.setSlot hused hused rfl rfl (fun _ _ => rfl) (fun _ => rfl) fun happend => ?_
    obtain ⟨c', hc', hptr⟩ := h.append fd hused happend
    obtain rfl := Option.some.inj (hc'.symm.trans hc)
    refine ⟨c', hc', ?_⟩
    simp only [hptr, List.drop_length, List.take_nil, List.length_nil, Nat.add_zero]

theorem Kept.lseek (h : Kept s) {newpos : UInt32} {room : List UInt8}
    (hcareful : Event.Careful s (.lseekR fd newpos room))
    (hs : mmcfsLseekR s fd newpos room = some s') : Kept s' := by
  obtain ⟨⟨fp, files⟩, hseek, rfl⟩ := Option.map_eq_some_iff.mp hs
  rw [fLseek] at hseek
  obtain ⟨hok, hseek⟩ := Option.ite_none_left_eq_some.mp hseek
  have hused : s.used fd := Bool.not_eq_false _ ▸ (not_or.mp hok).1
  obtain ⟨c, hc, hseek⟩ := Option.map_eq_some_iff.mp hseek
  have hend : Has (s.flags fd) oAppend → newpos.toNat = c.length := fun happend => by
    obtain hnone | ⟨c', hc', hpos⟩ := hcareful happend
    · rw [hc] at hnone
      cases hnone
    · rw [hc] at hc'
      rw [hpos, Option.some.inj hc']
  split_ifs at hseek with hle hmode
  · obtain ⟨rfl, rfl⟩ := Prod.mk.inj hseek
    exact h.setSlot hused hused rfl rfl (fun _ _ => rfl) (fun _ => rfl) fun happend =>
      ⟨c, hc, hend happend⟩
  · obtain ⟨rfl, rfl⟩ := Prod.mk.inj hseek
    exact h.setSlot hused hused rfl rfl (fun _ _ => rfl) (fun _ => rfl) fun _ => ⟨c, hc, rfl⟩
  · obtain ⟨rfl, rfl⟩ := Prod.mk.inj hseek
    exact h.setSlot hused hused rfl rfl (fun q hq => Function.update_of_ne hq _ _)
      (fun hread => absurd hread hmode) fun _ => ⟨_, Function.update_self .., rfl⟩

theorem Kept.close (h : Kept s) (hused : s.used fd) : Kept (mmcfsCloseR s fd) := by
  have husedEq : (mmcfsCloseR s fd).used = Function.update s.used fd false := used_update
  have hold : ∀ i, (mmcfsCloseR s fd).used i → s.used i ∧ i ≠ fd ∧
      (mmcfsCloseR s fd).fdTable i = s.fdTable i := fun i hi => by
    rw [husedEq] at hi
    have hne : i ≠ fd := fun heq => by
      subst heq
      rw [Function.update_self] at hi
      cases hi
    rw [Function.update_of_ne hne] at hi
    exact ⟨hi, hne, Function.update_of_ne hne _ _⟩
  refine ⟨?_, fun i hi happend => ?_, fun i j hi hj hne heq => ?_⟩
  · have hcount := Slots.count_release hused
    have hcounted := h.counted
    rw [Counted, husedEq]
    change s.numFd - 1 = _
    rw [Counted] at hcounted
    omega
  · obtain ⟨hi, -, hfil⟩ := hold i hi
    rw [hfil]
    exact h.append i hi happend
  · obtain ⟨hi, -, hfi⟩ := hold i hi
    obtain ⟨hj, -, hfj⟩ := hold j hj
    rw [hfi, hfj] at heq ⊢
    exact h.once i j hi hj hne heq

theorem Kept.unlink (h : Kept s) {devnum : UInt8} {fname : List UInt8} {refuses : Bool}
    (hcareful : Event.Careful s (.unlinkR devnum fname refuses))
    (hs : mmcfsUnlinkR s devnum fname refuses = some s') : Kept s' := by
  rw [mmcfsUnlinkR] at hs
  obtain ⟨-, hs⟩ := Option.ite_none_right_eq_some.mp hs
  cases hunlink : fUnlink s.files (mmcPath devnum fname) refuses with
  | none =>
    rw [hunlink] at hs
    obtain rfl := Option.some.inj hs
    exact h
  | some files =>
    rw [hunlink] at hs
    obtain rfl := Option.some.inj hs
    rw [fUnlink] at hunlink
    obtain ⟨-, hunlink⟩ := Option.ite_none_left_eq_some.mp hunlink
    obtain rfl := Option.some.inj hunlink
    refine ⟨h.counted, fun i hi happend => ?_, h.once⟩
    obtain ⟨c, hc, hptr⟩ := h.append i hi happend
    exact ⟨c, (Function.update_of_ne (hcareful i hi) _ _).trans hc, hptr⟩

/-- The access of a mode is that of the flags. -/
theorem mmcMode_write {flags : UInt32} {m : FaMode} (hm : mmcMode flags = some m)
    (h : ¬Writes flags) : m.write = false := by
  rw [mmcMode] at hm
  obtain ⟨how, -, hm⟩ := Option.bind_eq_some_iff.mp hm
  obtain ⟨hwronly, hrdwr⟩ := not_or.mp h
  rw [if_neg hwronly, if_neg hrdwr] at hm
  obtain ⟨-, hm⟩ := Option.ite_none_right_eq_some.mp hm
  exact Option.some.inj hm ▸ rfl

theorem mmcHow_of_mmcMode {flags : UInt32} {m : FaMode} (hm : mmcMode flags = some m) :
    flags &&& oAccmode ≠ oAccmode ∧ mmcHow flags = some m.how := by
  have hhow : (mmcMode flags).map FaMode.how = some m.how := by rw [hm, Option.map_some]
  rw [mmcMode_how] at hhow
  exact Option.ite_none_left_eq_some.mp hhow

/-- Without write access an existing file is opened as it is. -/
theorem faOpened_of_not_writes {flags : UInt32} {m : FaMode} (hm : mmcMode flags = some m)
    (h : ¬Writes flags) {c c' : List UInt8} (hopen : faOpened m.how (some c) = some c') :
    c' = c := by
  obtain ⟨hacc, hhow⟩ := mmcHow_of_mmcMode hm
  rw [mmcHow_eq hacc] at hhow
  split_ifs at hhow with _ htrunc
  · exact absurd htrunc.2 h
  all_goals
    rw [← Option.some.inj hhow] at hopen
    exact (Option.some.inj hopen).symm

/-- A file that is or becomes empty. -/
theorem faOpened_empty {flags : UInt32} {m : FaMode} (hm : mmcMode flags = some m)
    {before : Option (List UInt8)} {c : List UInt8}
    (h : before = none ∨ before = some [] ∨ Has flags oCreat ∧ Has flags oTrunc ∧ Writes flags)
    (hopen : faOpened m.how before = some c) : c = [] := by
  obtain rfl | rfl | ⟨hcreat, htrunc, hwrites⟩ := h
  · exact (Option.some.inj (Option.ite_none_left_eq_some.mp hopen).2).symm
  · revert hopen
    cases m.how with
    | createNew => nofun
    | createAlways | openExisting | openAlways => exact fun h => (Option.some.inj h).symm
  · obtain ⟨hacc, hhow⟩ := mmcHow_of_mmcMode hm
    rw [mmcHow_eq hacc, if_pos hcreat, if_pos ⟨htrunc, hwrites⟩] at hhow
    rw [← Option.some.inj hhow] at hopen
    revert hopen
    cases before <;> exact fun h => (Option.some.inj h).symm

/-- **Opening.** -/
theorem Kept.open (h : Kept s) {devid : UInt8} {path : List UInt8} {flags mode : UInt32}
    {refuses : Bool} (hcareful : Event.Careful s (.openR devid path flags mode refuses))
    {res : Except Errno (Fin mmcfsMaxFds)}
    (hs : mmcfsOpenR s devid path flags mode refuses = some (res, s')) : Kept s' := by
  obtain ⟨-, -, rfl⟩ | ⟨fd, m, c, fp, -, hfree, hm, hopen, hfs, hpath, hmode, hempty, rfl⟩ :=
    mmcfsOpenR_cases hs
  · exact h
  obtain ⟨hgood, honce⟩ := hcareful
  have husedEq : ({ s with
      fdTable := Function.update s.fdTable fd fp
      numFd := s.numFd + 1
      files := Function.update s.files (mmcPath devid path) (some c)
      flags := Function.update s.flags fd flags } : State).used =
      Function.update s.used fd true := used_update.trans (by rw [hfs])
  have hold : ∀ i, Function.update s.used fd true i = true → i ≠ fd → s.used i := fun i hi hne => by
    rwa [Function.update_of_ne hne] at hi
  refine ⟨?_, fun i hi happend => ?_, fun i j hi hj hne heq => ?_⟩
  · have hcounted := h.counted
    rw [Counted] at hcounted
    rw [Counted, husedEq, Slots.count_take hfree]
    change s.numFd + 1 = _
    omega
  · rw [husedEq] at hi
    by_cases hifd : i = fd
    · subst hifd
      simp only [Function.update_self] at happend ⊢
      have hnil : c = [] := faOpened_empty hm (hgood happend) hopen
      refine ⟨c, by rw [hpath, Function.update_self], ?_⟩
      rw [hempty hnil, hnil, List.length_nil]
    · simp only [Function.update_of_ne hifd] at happend ⊢
      obtain ⟨c', hc', hptr⟩ := h.append i (hold i hi hifd) happend
      by_cases hsame : (s.fdTable i).path = mmcPath devid path
      · -- The same file is open for reading only.
        have hno := (honce i (hold i hi hifd) hsame).2
        rw [hsame] at hc'
        rw [hc'] at hopen
        have hc : c = c' := faOpened_of_not_writes hm hno hopen
        exact ⟨c, by rw [hsame, Function.update_self], hc ▸ hptr⟩
      · exact ⟨c', (Function.update_of_ne hsame _ _).trans hc', hptr⟩
  · rw [husedEq] at hi hj
    have hcross : ∀ k, Function.update s.used fd true k = true → k ≠ fd →
        (s.fdTable k).path = fp.path →
        (s.fdTable k).mode.write = false ∧ fp.mode.write = false := fun k hk hkfd hpathEq => by
      obtain ⟨hwrite, hno⟩ := honce k (hold k hk hkfd) (hpathEq.trans hpath)
      exact ⟨hwrite, hmode ▸ mmcMode_write hm hno⟩
    by_cases hifd : i = fd
    · subst hifd
      simp only [Function.update_self, Function.update_of_ne hne.symm] at heq ⊢
      exact (hcross j hj hne.symm heq.symm).symm
    · by_cases hjfd : j = fd
      · subst hjfd
        simp only [Function.update_self, Function.update_of_ne hifd] at heq ⊢
        exact hcross i hi hifd heq
      · simp only [Function.update_of_ne hifd, Function.update_of_ne hjfd] at heq ⊢
        exact h.once i j (hold i hi hifd) (hold j hj hjfd) hne heq

theorem Kept.step (h : Kept s) {e : Event} (hcareful : e.Careful s) (hs : s.step e = some s') :
    Kept s' := by
  cases e with
  | openR devid path flags mode refuses =>
    obtain ⟨⟨res, _⟩, hopen, rfl⟩ := Option.map_eq_some_iff.mp hs
    exact h.open hcareful hopen
  | closeR fd =>
    obtain rfl := Option.some.inj hs
    exact h.close hcareful
  | writeR fd bytes n => exact h.write hs
  | readR fd len => exact h.read hs
  | lseekR fd newpos room => exact h.lseek hcareful hs
  | unlinkR devnum fname refuses => exact h.unlink hcareful hs

/-- **A write** that is accepted goes to the end of the file. -/
theorem Kept.append_write (h : Kept s) (happend : Has (s.flags fd) oAppend)
    {bytes : List UInt8} {n : ℕ} (hs : mmcfsWriteR s fd bytes n = some s') :
    ∃ c, s.files (s.fdTable fd).path = some c ∧
      (s'.files (s.fdTable fd).path = some c ∨
        s'.files (s.fdTable fd).path = some (c ++ bytes.take n)) := by
  obtain ⟨⟨fp, files⟩, hwrite, rfl⟩ := Option.map_eq_some_iff.mp hs
  rw [fWrite] at hwrite
  obtain ⟨hok, hwrite⟩ := Option.ite_none_left_eq_some.mp hwrite
  obtain ⟨c, hc, hptr⟩ := h.append fd (Bool.not_eq_false _ ▸ (not_or.mp hok).1) happend
  refine ⟨c, hc, ?_⟩
  split_ifs at hwrite with hmode
  · obtain ⟨rfl, rfl⟩ := Prod.mk.inj (Option.some.inj hwrite)
    exact .inl hc
  · rw [hc] at hwrite
    obtain ⟨rfl, rfl⟩ := Prod.mk.inj (Option.some.inj hwrite)
    refine .inr ?_
    simp only [Function.update_self, hptr, List.take_length]
    rw [List.drop_eq_nil_of_le (Nat.le_add_right _ _), List.append_nil]

end Runs

theorem Kept.init (files : Files) : Kept { files } := by
  refine ⟨?_, nofun, nofun⟩
  exact congrArg Nat.cast Slots.count_free.symm

/-- **The MMC file system.** A call of `open` stays inside the path buffer if and only if all
descriptors are in use or the path fits; it does with the file what its flags say if and only if
they meet the condition; and in every run of careful steps the descriptor count is the number of
slots in use, and each write to a descriptor that was opened with `O_APPEND` goes to the end. -/
theorem mmcfs_opens (s : State) :
    (Counted s → ∀ devid path flags mode refuses,
      mmcfsOpenR s devid path flags mode refuses ≠ none ↔
        s.numFd = mmcfsMaxFds ∨ Fits devid path) ∧
    (Counted s → ∀ devid path flags mode, s.numFd ≠ mmcfsMaxFds → Fits devid path →
      ∃ res s', mmcfsOpenR s devid path flags mode false = some (res, s') ∧
        (OpensRight (s.files (mmcPath devid path)) (s'.files (mmcPath devid path)) flags res.isOk ↔
          Rightly (s.files (mmcPath devid path)) flags)) ∧
    ∀ files, Reach State.step (fun s e => e.Careful s) { files } s →
      Counted s ∧ ∀ fd, Has (s.flags fd) oAppend → ∀ bytes n s',
        mmcfsWriteR s fd bytes n = some s' → ∃ c, s.files (s.fdTable fd).path = some c ∧
          (s'.files (s.fdTable fd).path = some c ∨
            s'.files (s.fdTable fd).path = some (c ++ bytes.take n)) := by
  refine ⟨fun h devid path flags mode refuses => ?_, fun h devid path flags mode hfull hfits => ?_,
    fun files hreach => ?_⟩
  · exact mmcfsOpenR_ne_none h devid path flags mode refuses
  · obtain ⟨res, s', hs, hok, hafter⟩ := mmcfsOpenR_some h hfull hfits flags mode
    refine ⟨res, s', hs, ?_⟩
    rw [hok, hafter]
    exact opensRight_iff _ _
  · have hkept : Kept s := hreach.invariant (Kept.init files) fun _ _ _ h hg hs => h.step hg hs
    exact ⟨hkept.counted, fun fd happend bytes n s' hs => hkept.append_write happend hs⟩

/-- A file `f` is created for appending, and written to twice. -/
def sampleRun : List Event :=
  [.openR 0 [102] (oWronly ||| oCreat ||| oAppend) 0x1B6 false, .writeR ⟨0, by decide⟩ [97, 98] 2,
    .writeR ⟨0, by decide⟩ [99] 1]

theorem mmcfs_opens_sample :
    ∃ s : State, s.files (mmcPath 0 [102]) = some [97, 98, 99] ∧ s.numFd = 1 ∧ Counted s := by
  have hrun : (runAll (guarded State.step fun s e => e.Careful s) sampleRun {}).map (fun s =>
      (s.files (mmcPath 0 [102]), s.numFd)) = some (some [97, 98, 99], 1) := by decide +kernel
  obtain ⟨s, hs, hlast⟩ := Option.map_eq_some_iff.mp hrun
  obtain ⟨hfile, hnum⟩ := Prod.mk.inj hlast
  exact ⟨s, hfile, hnum, ((mmcfs_opens s).2.2 (fun _ => none) (reach_of_runAll hs)).1⟩

/-- A path of 37 characters does not fit, `O_EXCL` opens a file that exists, and `O_APPEND` writes
at its start. -/
theorem not_mmcfs_opens :
    (¬∀ s, Counted s → ∀ devid path flags mode refuses,
      mmcfsOpenR s devid path flags mode refuses ≠ none) ∧
    (¬∀ s, Counted s → ∀ devid path flags mode res s',
      mmcfsOpenR s devid path flags mode false = some (res, s') →
        OpensRight (s.files (mmcPath devid path)) (s'.files (mmcPath devid path)) flags res.isOk) ∧
    ¬∀ files s, Reach State.step (fun _ _ => True) { files } s →
      ∀ fd, Has (s.flags fd) oAppend → ∀ bytes n s', mmcfsWriteR s fd bytes n = some s' →
        ∃ c, s.files (s.fdTable fd).path = some c ∧
          (s'.files (s.fdTable fd).path = some c ∨
            s'.files (s.fdTable fd).path = some (c ++ bytes.take n)) := by
  refine ⟨fun h => ?_, fun h => ?_, fun h => ?_⟩
  · exact h {} (congrArg Nat.cast Slots.count_free.symm) 0 (List.replicate 37 97) oRdonly 0 false
      rfl
  · let before : State := { files := fun q => if q = mmcPath 0 [102] then some [120] else none }
    have hcounted : Counted before := congrArg Nat.cast Slots.count_free.symm
    obtain ⟨res, s', hs, hok, -⟩ := mmcfsOpenR_some hcounted
      (by decide) (by decide : Fits 0 [102]) (oWronly ||| oCreat ||| oExcl) 0x1B6
    have hrefused := (h _ hcounted _ _ _ _ _ _ hs).excl (by decide) (by decide) (by decide)
    rw [hok] at hrefused
    exact absurd hrefused (by decide)
  · let path := mmcPath 0 [102]
    let before : Files := fun q => if q = path then some [104, 105] else none
    have hrun : (runAll (guarded State.step fun _ _ => True)
        [.openR 0 [102] (oWronly ||| oCreat ||| oAppend) 0x1B6 false] { files := before }).bind
          (fun s => (mmcfsWriteR s ⟨0, by decide⟩ [120] 1).map fun s' =>
            (s.flags ⟨0, by decide⟩, (s.fdTable ⟨0, by decide⟩).path, s.files path,
              s'.files path)) =
        some (oWronly ||| oCreat ||| oAppend, path, some [104, 105], some [120, 105]) := by
      decide +kernel
    obtain ⟨s, hs, hwrite⟩ := Option.bind_eq_some_iff.mp hrun
    obtain ⟨s', hs', hlast⟩ := Option.map_eq_some_iff.mp hwrite
    simp only [Prod.mk.injEq] at hlast
    obtain ⟨hflags, hpath, hbefore, hafter⟩ := hlast
    obtain ⟨c, hc, hend⟩ := h before s (reach_of_runAll hs) ⟨0, by decide⟩
      (by rw [hflags]; decide) [120] 1 s' hs'
    rw [hpath] at hc hend
    obtain rfl := Option.some.inj (hbefore.symm.trans hc)
    rw [hafter] at hend
    exact absurd hend (by decide)

end ELuaBrain.MmcFs
