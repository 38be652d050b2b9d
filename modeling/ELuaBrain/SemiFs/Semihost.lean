import Mathlib.Algebra.Order.Ring.Nat
import Mathlib.Data.Nat.Notation
import Mathlib.Logic.Function.Basic
import Mathlib.Tactic.SplitIfs

/-!
# Semihosting

The files of a debugger's host, and what ARM documents of the semihosting calls that `semifs.c`
makes. The host decides how many bytes are transferred and whether a call fails. A seek outside of
a file is undefined: it is successful here, and ends anywhere.

## Main definitions

* `Host`, `Call` : the host, and the calls it was asked for.
* `sysOpen`, `sysClose`, `sysWrite`, `sysRead`, `sysSeek`, `sysFlen` : the calls.

## Main results

* `sysOpen_spec`, `sysWrite_spec`, `sysRead_spec`, `sysSeek_spec` : the offset of a file after a
  call.
-/

namespace ELuaBrain.SemiFs

/-- A semihosting call with its arguments. -/
inductive Call where
  | sysOpen (path : List UInt8) (mode : UInt32)
  | sysClose (fh : Int32)
  | sysWrite (fh : Int32) (bytes : List UInt8)
  | sysRead (fh : Int32) (len : UInt32)
  | sysSeek (fh : Int32) (pos : UInt32)
  | sysFlen (fh : Int32)
  deriving DecidableEq

/-- The handle that a call is about. -/
def Call.handle : Call → Option Int32
  | .sysOpen _ _ => none
  | .sysClose fh | .sysWrite fh _ | .sysRead fh _ | .sysSeek fh _ | .sysFlen fh => some fh

/-- A file that the host has open. The mode is that of `SYS_OPEN`: 0, 4 and 8 are `r`, `w` and `a`
of `fopen`, and 2 more is `+`. -/
structure HostFile where
  path : List UInt8
  mode : UInt32
  offset : ℕ

/-- The file is open for appending. -/
def HostFile.appends (f : HostFile) : Prop := f.mode &&& 8 ≠ 0

instance HostFile.appends.decidable (f : HostFile) : Decidable f.appends :=
  inferInstanceAs (Decidable (_ ≠ _))

/-- The files, the open files by their handles, and the calls so far. -/
structure Host where
  files : List UInt8 → Option (List UInt8) := fun _ => none
  handles : Int32 → Option HostFile := fun _ => none
  calls : List Call := []

/-- What is in a file. -/
def Host.content (host : Host) (path : List UInt8) : List UInt8 := (host.files path).getD []

/-- What `fopen` makes of a file. -/
def fopened (mode : UInt32) (before : Option (List UInt8)) : Option (List UInt8) :=
  if mode &&& 8 ≠ 0 then some (before.getD [])
  else if mode &&& 4 ≠ 0 then some []
  else before

section Calls

variable (host : Host) (fh : Int32)

/-- `SYS_OPEN` with the answer `fh`, if that can be the answer. A file that is open for appending
can have its offset at the end from the start on. -/
def sysOpen (path : List UInt8) (mode : UInt32) (atEnd : Bool) : Option Host :=
  let calls := host.calls ++ [.sysOpen path mode]
  if fh = -1 then some { host with calls }
  else if fh = 0 ∨ (host.handles fh).isSome then none
  else (fopened mode (host.files path)).map fun content => {
    files := Function.update host.files path (some content)
    handles := Function.update host.handles fh
      (some { path, mode, offset := if mode &&& 8 ≠ 0 ∧ atEnd then content.length else 0 })
    calls }

/-- `SYS_CLOSE`. -/
def sysClose : UInt32 × Host :=
  let calls := host.calls ++ [.sysClose fh]
  match host.handles fh with
  | none => (-1, { host with calls })
  | some _ => (0, { host with handles := Function.update host.handles fh none, calls })

/-- `SYS_WRITE` of which the host takes at most `n` bytes. The result is the number of bytes that
are not written. -/
def sysWrite (bytes : List UInt8) (n : ℕ) : UInt32 × Host :=
  let calls := host.calls ++ [.sysWrite fh bytes]
  match host.handles fh with
  | none => (UInt32.ofNat bytes.length, { host with calls })
  | some f =>
      let written := bytes.take (if f.mode = 0 then 0 else n)
      let rest := UInt32.ofNat (bytes.length - written.length)
      if written = [] then (rest, { host with calls })
      else
        let content := host.content f.path
        let start := if f.appends then content.length else f.offset
        (rest, {
          files := Function.update host.files f.path
            (some (content.take start ++ List.replicate (start - content.length) 0 ++ written ++
              content.drop (start + written.length)))
          handles := Function.update host.handles fh
            (some { f with offset := start + written.length })
          calls })

/-- `SYS_READ` for which the host reads at most `n` bytes. The result is the number of bytes that
are not read. -/
def sysRead (len : UInt32) (n : ℕ) : UInt32 × List UInt8 × Host :=
  let calls := host.calls ++ [.sysRead fh len]
  match host.handles fh with
  | none => (len, [], { host with calls })
  | some f =>
      let n := if f.mode = 4 ∨ f.mode = 8 then 0 else n
      let bytes := ((host.content f.path).drop f.offset).take (min n len.toNat)
      (UInt32.ofNat (len.toNat - bytes.length), bytes, { host with
        handles := Function.update host.handles fh
          (some { f with offset := f.offset + bytes.length })
        calls })

/-- `SYS_SEEK`. -/
def sysSeek (pos : UInt32) (refuses : Bool) (landing : ℕ) : UInt32 × Host :=
  let calls := host.calls ++ [.sysSeek fh pos]
  match host.handles fh with
  | none => (-1, { host with calls })
  | some f =>
      if refuses then (-1, { host with calls })
      else
        let offset := if pos.toNat ≤ (host.content f.path).length then pos.toNat else landing
        (0, { host with
          handles := Function.update host.handles fh (some { f with offset })
          calls })

/-- `SYS_FLEN`. -/
def sysFlen (fails : Bool) : UInt32 × Host :=
  (if fails then -1
    else ((host.handles fh).map fun f => UInt32.ofNat (host.content f.path).length).getD (-1),
    { host with calls := host.calls ++ [.sysFlen fh] })

end Calls

/-! ### The calls that were made -/

section Asked

variable (host : Host) (fh : Int32)

theorem sysClose_calls : (sysClose host fh).2.calls = host.calls ++ [.sysClose fh] := by
  unfold sysClose
  cases host.handles fh <;> rfl

theorem sysWrite_calls (bytes : List UInt8) (n : ℕ) :
    (sysWrite host fh bytes n).2.calls = host.calls ++ [.sysWrite fh bytes] := by
  unfold sysWrite
  cases host.handles fh with
  | none => rfl
  | some f => exact (apply_ite (fun r : UInt32 × Host => r.2.calls) _ _ _).trans (ite_self _)

theorem sysRead_calls (len : UInt32) (n : ℕ) :
    (sysRead host fh len n).2.2.calls = host.calls ++ [.sysRead fh len] := by
  unfold sysRead
  cases host.handles fh <;> rfl

theorem sysSeek_calls (pos : UInt32) (refuses : Bool) (landing : ℕ) :
    (sysSeek host fh pos refuses landing).2.calls = host.calls ++ [.sysSeek fh pos] := by
  unfold sysSeek
  cases host.handles fh with
  | none => rfl
  | some f => cases refuses <;> rfl

end Asked

/-! ### The offset of a file -/

section Offsets

variable {host host' : Host} {fh fh' : Int32} {f : HostFile}

/-- **`SYS_OPEN`** with a handle. A file for appending has to be empty if it starts at its end. -/
theorem sysOpen_spec {path : List UInt8} {mode : UInt32} {atEnd : Bool} (hfh : fh ≠ -1)
    (h : sysOpen host fh path mode atEnd = some host')
    (hempty : mode &&& 8 ≠ 0 → atEnd → host.content path = []) :
    host.handles fh = none ∧
      ∃ f, host'.handles = Function.update host.handles fh (some f) ∧ f.offset = 0 := by
  rw [sysOpen, if_neg hfh] at h
  obtain ⟨hnew, h⟩ := Option.ite_none_left_eq_some.mp h
  obtain ⟨content, hcontent, rfl⟩ := Option.map_eq_some_iff.mp h
  refine ⟨Option.not_isSome_iff_eq_none.mp (not_or.mp hnew).2, _, rfl, ?_⟩
  dsimp only
  split_ifs with hend
  · rw [fopened, if_pos hend.1] at hcontent
    rw [← Option.some.inj hcontent]
    exact congrArg List.length (hempty hend.1 hend.2)
  · rfl

theorem sysClose_spec (hf : host.handles fh = some f) :
    (sysClose host fh).2.handles = Function.update host.handles fh none := by
  rw [sysClose, hf]

theorem sysWrite_other (bytes : List UInt8) (n : ℕ) (h : fh' ≠ fh) :
    (sysWrite host fh bytes n).2.handles fh' = host.handles fh' := by
  unfold sysWrite
  cases host.handles fh with
  | none => rfl
  | some f =>
    dsimp only
    by_cases hnone : bytes.take (if f.mode = 0 then 0 else n) = []
    · rw [if_pos hnone]
    · rw [if_neg hnone]
      exact Function.update_of_ne h _ _

/-- **`SYS_WRITE`**. A file that is open for appending has to be at its end. -/
theorem sysWrite_spec (hf : host.handles fh = some f) {bytes : List UInt8} {n : ℕ}
    (hend : f.appends → bytes.take n ≠ [] → f.offset = (host.content f.path).length) :
    ∃ f' k, (sysWrite host fh bytes n).2.handles fh = some f' ∧ f'.offset = f.offset + k ∧
      k ≤ bytes.length ∧ (sysWrite host fh bytes n).1 = UInt32.ofNat (bytes.length - k) := by
  unfold sysWrite
  rw [hf]
  dsimp only
  by_cases hnone : bytes.take (if f.mode = 0 then 0 else n) = []
  · rw [if_pos hnone, hnone]
    exact ⟨f, 0, hf, rfl, Nat.zero_le _, rfl⟩
  have htake : bytes.take n ≠ [] := fun htake => hnone <| by
    split_ifs
    · exact List.take_zero
    · exact htake
  rw [if_neg hnone]
  refine ⟨_, _, Function.update_self .., congrArg (· + _) ?_, List.length_take_le' .., rfl⟩
  split_ifs with happend
  · exact (hend happend htake).symm
  · rfl

theorem sysRead_other (len : UInt32) (n : ℕ) (h : fh' ≠ fh) :
    (sysRead host fh len n).2.2.handles fh' = host.handles fh' := by
  unfold sysRead
  cases host.handles fh with
  | none => rfl
  | some f => exact Function.update_of_ne h _ _

/-- **`SYS_READ`**. -/
theorem sysRead_spec (hf : host.handles fh = some f) (len : UInt32) (n : ℕ) :
    ∃ f' k, (sysRead host fh len n).2.2.handles fh = some f' ∧ f'.offset = f.offset + k ∧
      k ≤ min n len.toNat ∧ (sysRead host fh len n).1 = UInt32.ofNat (len.toNat - k) := by
  unfold sysRead
  rw [hf]
  refine ⟨_, _, Function.update_self .., rfl, ?_, rfl⟩
  refine Nat.le_trans (List.length_take_le ..) ?_
  split_ifs
  · omega
  · exact Nat.le_refl _

theorem sysSeek_other (pos : UInt32) (refuses : Bool) (landing : ℕ) (h : fh' ≠ fh) :
    (sysSeek host fh pos refuses landing).2.handles fh' = host.handles fh' := by
  unfold sysSeek
  cases host.handles fh with
  | none => rfl
  | some f =>
    cases refuses with
    | true => rfl
    | false => exact Function.update_of_ne h _ _

/-- **`SYS_SEEK`** inside of the file. -/
theorem sysSeek_spec (hf : host.handles fh = some f) {pos : UInt32} {refuses : Bool}
    (landing : ℕ) (hin : refuses = false → pos.toNat ≤ (host.content f.path).length) :
    ∃ f', (sysSeek host fh pos refuses landing).2.handles fh = some f' ∧
      f'.offset = if (sysSeek host fh pos refuses landing).1 = 0 then pos.toNat else f.offset := by
  unfold sysSeek
  rw [hf]
  cases refuses with
  | true => exact ⟨f, hf, rfl⟩
  | false => exact ⟨_, Function.update_self .., if_pos (hin rfl)⟩

end Offsets

end ELuaBrain.SemiFs
