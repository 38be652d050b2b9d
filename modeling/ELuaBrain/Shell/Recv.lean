import ELuaBrain.Xmodem.Safety

/-!
# The command `recv`

The shell receives a program with XMODEM, takes away the bytes that fill its last record, and saves
or runs it. The loop that takes them away goes back through the data up to a byte that is something
else, and has no other end.

## Main definitions

* `shellRecv` : the command.
* `Trimmed` : a program is the data without the bytes that fill it up.
* `RecvRight` : the program is saved or run, and nothing outside of the data is read.

## Main results

* `skipPadding_eq_some_iff`, `skipPadding_eq_none_iff` : the loop.
* `recv_right_iff` : the command is right if and only if something else than padding was received.
-/

namespace ELuaBrain.Shell

open Xmodem (Ram Receiver errorOutOfMem stored payload)

/-! ### The code -/

/-- `'\x1A'`. -/
def padding : UInt8 := 0x1A

/-- What the command does: text on the screen, a file with what was handed to `fwrite`, a program
that is handed to `luaL_loadbuffer` and then run, and the end of the block of memory. -/
inductive RecvOp where
  | print (text : String)
  | save (name : String) (program : List UInt8)
  | load (program : List UInt8)
  | call
  | free
  deriving DecidableEq

/-- What the command depends on: the memory that `malloc` and `realloc` give, the answers of the
line, and the results of the functions for files and of Lua, where an error has a text. -/
structure RecvEnv where
  malloc : Option Memory
  ram : Ram
  line : List Xmodem.Event
  fopen : Bool
  fwrite : List UInt8 → ℕ
  luaOpen : Bool
  luaLLoadbuffer : List UInt8 → Option String
  luaPcall : List UInt8 → Option String

/-- `xmodem_receive`, once it has returned: its result, and the block. -/
def RecvEnv.xmodemReceive (env : RecvEnv) (dest : Memory) : Option (ℤ × Memory) :=
  (Xmodem.run env.ram (Receiver.start dest) env.line).bind fun r =>
    match r.1.pc with
    | .done result => some (result, r.1.dest)
    | _ => none

/-- The loop `while( *p == '\x1A' ) p --` and the `p ++` behind it, with `p` counted from the start
of the block. The argument is the number of bytes up to `p`. There is no result if the byte before
the block is read. -/
def skipPadding (shellProg : Memory) : ℕ → Option ℕ
  | 0 => none
  | p + 1 => if shellProg p = padding then skipPadding shellProg p else some (p + 1)

/-- An error of Lua. -/
def luaError (text : String) : RecvOp := .print ("Error: " ++ text ++ "\n")

/-- What is done with the program. -/
def RecvEnv.use (env : RecvEnv) (args : String) (program : List UInt8) : List RecvOp :=
  if args ≠ "" then
    if env.fopen then
      [.save args program,
        .print (if env.fwrite program = program.length then "received and saved as " ++ args ++ "\n"
          else "disk full, unable to save file " ++ args ++ "\n"), .free]
    else [.print ("unable to open file " ++ args ++ "\n"), .free]
  else if env.luaOpen then
    match env.luaLLoadbuffer program with
    | some text => [.load program, luaError text, .free]
    | none => [.load program, .call] ++ ((env.luaPcall program).map luaError).toList ++ [.free]
  else [.print "Unable to create Lua state\n", .free]

/-- `shell_recv`. There is no result before `xmodem_receive` has returned. -/
def shellRecv (env : RecvEnv) (args : String) : Option (List RecvOp) :=
  match env.malloc with
  | none => some [.print "Unable to allocate memory\n"]
  | some dest => (env.xmodemReceive dest).bind fun (actsize, shellProg) =>
    if actsize < 0 then
      some [.print "Waiting for file ... ", .free,
        .print (if actsize = errorOutOfMem then "file too big\n" else "XMODEM error\n")]
    else (skipPadding shellProg actsize.toNat).map fun p =>
      [.print "Waiting for file ... ", .print ("done, got " ++ toString p ++ " bytes\n")] ++
        env.use args (shellProg.slice 0 p)

/-! ### What it is for -/

/-- The program is the data up to the last byte that is not padding. -/
def Trimmed (data program : List UInt8) : Prop :=
  (∃ k, data = program ++ List.replicate k padding) ∧ program.getLast? ≠ some padding

/-- The programs that are saved or handed to Lua. -/
def handed (ops : List RecvOp) : List (List UInt8) :=
  ops.filterMap fun
    | .save _ program | .load program => some program
    | _ => none

/-- The command reads nothing outside of the data, and saves or runs the program, if there is a file
or a state of Lua for that. -/
def RecvRight (env : RecvEnv) (args : String) (data : List UInt8) : Prop :=
  ∃ ops program, shellRecv env args = some ops ∧ Trimmed data program ∧
    handed ops = if (if args ≠ "" then env.fopen else env.luaOpen) then [program] else []

/-! ### The loop -/

variable {env : RecvEnv} {args : String} {m : Memory} {n p : ℕ}

theorem skipPadding_eq_none_iff : skipPadding m n = none ↔ ∀ i < n, m i = padding := by
  induction n with
  | zero => exact iff_of_true rfl fun i hi => absurd hi (Nat.not_lt_zero i)
  | succ n ih =>
    rw [skipPadding]
    split_ifs with hpad
    · rw [ih]
      constructor
      · intro h i hi
        obtain hlt | rfl := Nat.lt_succ_iff_lt_or_eq.mp hi
        · exact h i hlt
        · exact hpad
      · exact fun h i hi => h i (Nat.lt_succ_of_lt hi)
    · exact iff_of_false nofun fun h => hpad (h n (Nat.lt_succ_self n))

theorem skipPadding_eq_some_iff : skipPadding m n = some p ↔
    p ≤ n ∧ 0 < p ∧ m (p - 1) ≠ padding ∧ ∀ i, p ≤ i → i < n → m i = padding := by
  induction n with
  | zero => exact iff_of_false nofun fun h => Nat.lt_irrefl 0 (h.2.1.trans_le h.1)
  | succ n ih =>
    rw [skipPadding]
    split_ifs with hpad
    · rw [ih]
      constructor
      · rintro ⟨hle, hpos, hlast, hrest⟩
        refine ⟨hle.trans (Nat.le_succ n), hpos, hlast, fun i hi hlt => ?_⟩
        obtain hlt | rfl := Nat.lt_succ_iff_lt_or_eq.mp hlt
        · exact hrest i hi hlt
        · exact hpad
      · rintro ⟨hle, hpos, hlast, hrest⟩
        refine ⟨Nat.le_of_not_lt fun hlt => hlast ?_, hpos, hlast,
          fun i hi hlt => hrest i hi (Nat.lt_succ_of_lt hlt)⟩
        obtain rfl : p = n + 1 := by omega
        exact hpad
    · constructor
      · intro h
        obtain rfl := Option.some.inj h
        exact ⟨le_rfl, Nat.succ_pos n, hpad, fun i hi hlt => absurd hlt (Nat.not_lt.mpr hi)⟩
      · rintro ⟨hle, hpos, hlast, hrest⟩
        have hp : p = n + 1 := by
          by_contra hne
          exact hpad (hrest n (by omega) (Nat.lt_succ_self n))
        rw [hp]

/-- What the loop leaves is the program. -/
theorem trimmed_of_skipPadding (h : skipPadding m n = some p) :
    Trimmed (m.slice 0 n) (m.slice 0 p) := by
  obtain ⟨hle, hpos, hlast, hrest⟩ := skipPadding_eq_some_iff.mp h
  obtain ⟨k, rfl⟩ := Nat.exists_eq_add_of_le hle
  constructor
  · refine ⟨k, ?_⟩
    have hpads : m.slice (0 + p) k = List.replicate k padding := by
      refine List.eq_replicate_iff.mpr ⟨Memory.length_slice, fun b hb => ?_⟩
      obtain ⟨i, hi, rfl⟩ := List.mem_map.mp hb
      have hi' := List.mem_range.mp hi
      exact hrest _ (by omega) (by omega)
    rw [Memory.slice_add, hpads]
  · have hget : (m.slice 0 p).getLast? = some (m (p - 1)) := by
      rw [List.getLast?_eq_getElem?, Memory.length_slice, Memory.getElem?_slice (by omega),
        Nat.zero_add]
    rw [hget]
    exact fun heq => hlast (Option.some.inj heq)

/-! ### The command -/

theorem handed_use (env : RecvEnv) (args : String) (program : List UInt8) :
    handed (env.use args program) =
      if (if args ≠ "" then env.fopen else env.luaOpen) then [program] else [] := by
  unfold RecvEnv.use
  by_cases hargs : args ≠ ""
  · rw [if_pos hargs, if_pos hargs]
    cases env.fopen <;> rfl
  · rw [if_neg hargs, if_neg hargs]
    cases env.luaOpen
    · rfl
    · cases env.luaLLoadbuffer program with
      | some text => rfl
      | none => cases env.luaPcall program <;> rfl

/-- The loop starts at the end of the data that was received. -/
theorem shellRecv_eq (args : String) {dest : Memory} {s : Receiver} {acts : List Xmodem.Action}
    (hmalloc : env.malloc = some dest)
    (hrun : Xmodem.run env.ram (Receiver.start dest) env.line = some (s, acts))
    (hdone : s.pc = .done n) :
    shellRecv env args = (skipPadding s.dest n).map fun p =>
      [.print "Waiting for file ... ", .print ("done, got " ++ toString p ++ " bytes\n")] ++
        env.use args (s.dest.slice 0 p) := by
  have hreceive : env.xmodemReceive dest = some ((n : ℤ), s.dest) := by
    unfold RecvEnv.xmodemReceive
    simp only [hrun, Option.bind_some, hdone]
  have hpos : ¬(n : ℤ) < 0 := Int.not_lt.mpr (Int.natCast_nonneg n)
  simp only [shellRecv, hmalloc, hreceive, Option.bind_some, if_neg hpos, Int.toNat_natCast]

/-- **The command `recv`.** It reads nothing outside of the data that was received, and saves or
runs the data without its padding, if and only if a byte that is not padding was received. -/
theorem recv_right_iff (env : RecvEnv) (args : String) {dest : Memory} {s : Receiver}
    {acts : List Xmodem.Action} {n : ℕ} (hmalloc : env.malloc = some dest)
    (hrun : Xmodem.run env.ram (Receiver.start dest) env.line = some (s, acts))
    (hdone : s.pc = .done n) :
    RecvRight env args ((stored acts).map payload).flatten ↔
      ∃ b ∈ ((stored acts).map payload).flatten, b ≠ padding := by
  obtain ⟨hkeeps, hstored⟩ := Xmodem.start_keeps dest
  obtain ⟨s', acts', hrun', hkeeps'⟩ := hkeeps.run hstored env.line
  obtain ⟨rfl, rfl⟩ := Prod.mk.inj (Option.some.inj (hrun'.symm.trans hrun))
  rw [← hkeeps'.content hdone, RecvRight, shellRecv_eq args hmalloc hrun hdone]
  constructor
  · rintro ⟨ops, program, hops, -, -⟩
    by_contra hall
    push Not at hall
    have hnone : skipPadding s'.dest n = none := by
      refine skipPadding_eq_none_iff.mpr fun i hi => hall _ (List.mem_map.mpr ⟨i, ?_, ?_⟩)
      · exact List.mem_range.mpr hi
      · rw [Nat.zero_add]
    rw [hnone] at hops
    exact absurd hops nofun
  · rintro ⟨b, hb, hne⟩
    cases hskip : skipPadding s'.dest n with
    | none =>
      obtain ⟨i, hi, rfl⟩ := List.mem_map.mp hb
      rw [Nat.zero_add] at hne
      exact absurd (skipPadding_eq_none_iff.mp hskip i (List.mem_range.mp hi)) hne
    | some p =>
      refine ⟨_, s'.dest.slice 0 p, rfl, trimmed_of_skipPadding hskip, ?_⟩
      rw [handed, List.filterMap_append]
      exact handed_use env args _

/-- A line that carries one record with this text, filled up with padding. -/
def oneRecord (text : List UInt8) : List Xmodem.Event :=
  let data := text ++ List.replicate (Xmodem.packetSize - text.length) padding
  let record : List UInt8 :=
    0x01 :: 0xFE :: (data ++ [(crc16 data >>> 8).toUInt8, (crc16 data).toUInt8])
  (some Xmodem.soh :: record.map some ++ [none, some Xmodem.eot, none]).map fun ch => { ch := ch }

/-- Everything that is asked for is granted. -/
def granting (line : List Xmodem.Event) : RecvEnv where
  malloc := some fun _ => 0
  ram := ⟨2048, by decide⟩
  line := line
  fopen := true
  fwrite := List.length
  luaOpen := true
  luaLLoadbuffer _ := none
  luaPcall _ := none

set_option maxRecDepth 100000 in
theorem oneRecord_run : (Xmodem.run (granting (oneRecord [0x78, 0x3D, 0x31])).ram
    (Receiver.start fun _ => 0) (oneRecord [0x78, 0x3D, 0x31])).isSome := by
  decide +kernel

set_option maxRecDepth 100000 in
theorem recv_right_oneRecord : ∃ data, RecvRight (granting (oneRecord [0x78, 0x3D, 0x31])) "" data ∧
    data.length = 128 := by
  obtain ⟨r, hr⟩ : ∃ r, Option.get _ oneRecord_run = r := ⟨_, rfl⟩
  have hrun : Xmodem.run (granting (oneRecord [0x78, 0x3D, 0x31])).ram (Receiver.start fun _ => 0)
      (oneRecord [0x78, 0x3D, 0x31]) = some (r.1, r.2) := by
    rw [Prod.mk.eta, ← hr, Option.some_get]
  obtain ⟨hdone, hcontent, hlength⟩ : r.1.pc = .done (128 : ℕ) ∧
      (∃ b ∈ ((stored r.2).map payload).flatten, b ≠ padding) ∧
      ((stored r.2).map payload).flatten.length = 128 := by
    rw [← hr]
    decide +kernel
  have hiff := recv_right_iff (granting (oneRecord [0x78, 0x3D, 0x31])) "" rfl hrun hdone
  exact ⟨_, hiff.mpr hcontent, hlength⟩

/-- The transfer ends without a record: the byte before the block is read. -/
theorem not_recv_right : ¬ ∀ (env : RecvEnv) (args : String) (dest : Memory) (s : Receiver)
    (acts : List Xmodem.Action) (n : ℕ), env.malloc = some dest →
    Xmodem.run env.ram (Receiver.start dest) env.line = some (s, acts) → s.pc = .done n →
      RecvRight env args ((stored acts).map payload).flatten := by
  intro hall
  let env := granting [{ ch := some Xmodem.eot }, { ch := none }]
  obtain ⟨ops, program, hops, -, -⟩ := hall env "" _ _ _ 0 rfl rfl rfl
  have hnone : shellRecv env "" = none := rfl
  rw [hnone] at hops
  exact absurd hops nofun

end ELuaBrain.Shell
