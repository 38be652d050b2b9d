import ELuaBrain.System.Reach
import Mathlib.Data.Fin.VecNotation
import Mathlib.Data.Fintype.Pi
import Mathlib.Data.UInt
import Mathlib.Logic.Function.Basic
import Mathlib.Tactic.IntervalCases

/-!
# The virtual machine of the lights

`ledvm.c`, with the part of `main.c` that it runs on: the delay counter of the timer interrupt and
the program slots in the EEPROM. Words are those of the machine: `int` has 16 bits.

The counters and the call stack are arrays. A step that would read or write behind the end of one
has no result.

## Main definitions

* `State`, `step` : the machine, with an arbitrary EEPROM and program at each call.
* `Careful` : the instructions that do not leave the slot and use counters that exist.

## Main results

* `step_inv` : what a careful step keeps.
* `vm_safe` : the runs whose steps are careful stay in the slot and in the tables.
-/

namespace ELuaBrain.Lights

/-! ### The machine -/

/-- `LEDVM_REP_COUNTERS`. -/
def ledvmRepCounters : ℕ := 8

/-- `LEDVM_MAX_CALLS`. -/
def ledvmMaxCalls : ℕ := 8

/-- `LEDVM_EMPTY_MARK`. -/
def ledvmEmptyMark : UInt32 := 0xAA55AA

/-- `PGM_MAX`. -/
def pgmMax : ℕ := 8

instance neZeroPgmMax : NeZero pgmMax := ⟨by decide⟩

/-- `PGM_MAX_INSTR`. -/
def pgmMaxInstr : ℕ := 32 * 1024 / (pgmMax * 4)

/-- `PGM_MAX_BYTES`. -/
def pgmMaxBytes : ℕ := pgmMaxInstr * 4

/-- The results of `ledvm_run`. -/
inductive LedvmErr where
  | ok
  | invalidOpcode
  | invalidInstruction
  | tooManyCalls
  | invalidPc
  | finished
  deriving DecidableEq

/-- `LEDVM_DATA`, with the colours that are shown and the delay that is left. -/
structure State where
  pc : UInt16
  v : Fin 3 → Int8
  a : Fin 3 → Int8
  b : Fin 3 → Int8
  m : Fin 3 → Bool
  min : Fin 3 → Int8
  max : Fin 3 → Int8
  on : Fin 3 → Int8
  cntCrt : Fin ledvmRepCounters → UInt16
  cntSaddr : Fin ledvmRepCounters → UInt16
  cntActive : BitVec 8
  cntLim : BitVec 8
  rgbDelay : UInt32
  cstack : Fin ledvmMaxCalls → UInt16
  numcalls : ℕ
  delayFlag : Bool
  shown : Fin 3 → Int8
  delayCnt : UInt32
  deriving DecidableEq

/-- The four bytes of an instruction. -/
abbrev Inst := Fin 4 → UInt8

scoped instance neZero_four : NeZero 4 := ⟨by decide⟩

/-- `ledvm_init`. -/
def ledvmInit (s : State) : State where
  pc := 0
  v := 0
  a := 0
  b := 0
  m _ := true
  min := 0
  max _ := 32
  on _ := 1
  cntCrt := 0
  cntSaddr := 0
  cntActive := 0
  cntLim := 0
  rgbDelay := 0
  cstack := 0
  numcalls := 0
  delayFlag := false
  shown := s.shown
  delayCnt := s.delayCnt

/-- `vmh_clip_rgb`. -/
def vmhClipRgb (s : State) (ch : Fin 3) (v : Int8) : Int8 :=
  if s.on ch = 0 then 0
  else
    let v := if v < s.min ch then s.min ch else v
    if s.max ch < v then s.max ch else v

/-- `vmh_delay`, with `ledvm_ll_delayms_start`. -/
def vmhDelay (s : State) (period : UInt32) : State :=
  { s with delayCnt := (period <<< 4) / 5, delayFlag := true }

/-- `vmh_set_rgbdata`. -/
def vmhSetRgbdata (s : State) (newv : Fin 3 → Int8) (dodelay : Bool) : State :=
  let v := fun ch => vmhClipRgb s ch (newv ch)
  let s := { s with v, shown := v }
  if dodelay then vmhDelay s s.rgbDelay else s

/-- `vmh_set_crtrgb`. -/
def vmhSetCrtrgb (s : State) (dodelay : Bool) : State := vmhSetRgbdata s s.v dodelay

/-- `vmh_data_to_u32`. -/
def vmhDataToU32 (inst : Inst) : UInt32 :=
  (inst 1).toUInt32 <<< 16 ||| (inst 2).toUInt32 <<< 8 ||| (inst 3).toUInt32

/-- `vmh_check_empty_inst`. -/
def vmhCheckEmptyInst (inst : Inst) : Bool := vmhDataToU32 inst = ledvmEmptyMark

/-- `vmh_maskv`. -/
def vmhMaskv (s : State) (ch : Fin 3) (v : Int8) : Int8 := if s.m ch then v else s.v ch

/-- `vmh_getv`, where `rand` is what `ledvm_ll_rand` gives. -/
def vmhGetv (rand : ℕ) (ch : Fin 3) (v : Int16) (base : Fin 3 → Int8) (specvalues : Bool) : Int8 :=
  let crt := base ch
  if specvalues ∧ v = 0xFF then Int8.ofNat (rand % 33)
  else
    let mul : Int16 := if specvalues ∧ v &&& 0x40 ≠ 0 then 1 else 0
    let v := ((v &&& 0x3F) <<< 10) >>> 10
    (v + 1 + crt.toInt16 * mul).toInt8

/-- `vmh_check_mask`. -/
def vmhCheckMask (s : State) (data : UInt8) : State :=
  if data &&& 0x08 ≠ 0 then { s with m := fun ch => data &&& ![0x04, 0x02, 0x01] ch ≠ 0 } else s

/-- `VM_INC_PC`. -/
def incPc (s : State) : State := { s with pc := s.pc + 1 }

/-! ### The instructions -/

/-- An instruction handler. `rand` has the random numbers for the channels. -/
abbrev Handler := (rand : Fin 3 → ℕ) → Inst → State → Option (LedvmErr × State)

/-- The operand for a channel. -/
def operand (inst : Inst) (ch : Fin 3) : UInt8 := inst ch.succ

/-- The operands for all channels, as `vmh_getv` takes them. -/
def operands (rand : Fin 3 → ℕ) (inst : Inst) (base : Fin 3 → Int8) (specvalues : Bool) :
    Fin 3 → Int8 :=
  fun ch => vmhGetv (rand ch) ch (operand inst ch).toUInt16.toInt16 base specvalues

/-- `vm_h_nop`. -/
def vmHNop : Handler := fun _ inst s =>
  if ¬vmhCheckEmptyInst inst then some (.invalidInstruction, s)
  else some (.ok, incPc (vmhCheckMask s (inst 0)))

/-- `vm_h_setrgb`. -/
def vmHSetrgb : Handler := fun rand inst s =>
  let s := vmhCheckMask s (inst 0)
  some (.ok, incPc (vmhSetRgbdata s (operands rand inst s.v true) true))

/-- `vm_h_delay`. -/
def vmHDelay : Handler := fun _ inst s =>
  some (.ok, incPc (vmhDelay (vmhCheckMask s (inst 0)) (vmhDataToU32 inst)))

/-- `vm_h_seta`. -/
def vmHSeta : Handler := fun rand inst s =>
  let s := vmhCheckMask s (inst 0)
  some (.ok, incPc { s with a := operands rand inst s.a true })

/-- `vm_h_setb`. -/
def vmHSetb : Handler := fun rand inst s =>
  let s := vmhCheckMask s (inst 0)
  some (.ok, incPc { s with b := operands rand inst s.b true })

/-- The number of the counter in a `repeat`. -/
def cntid (inst : Inst) : ℕ := (inst 0 &&& 0x0F).toNat

/-- The number of rounds in a `repeat`. -/
def repeatCnt (inst : Inst) : UInt16 := (inst 1).toUInt16 <<< 4 ||| (inst 2).toUInt16 >>> 4

/-- The start address in a `repeat`. -/
def repeatAddr (inst : Inst) : UInt16 := ((inst 2).toUInt16 &&& 0x0F) <<< 8 ||| (inst 3).toUInt16

/-- A colour that may change has reached its limit. -/
def limitReached (s : State) : Bool :=
  decide (∃ ch : Fin 3, s.m ch = true ∧ (s.v ch ≤ s.min ch ∨ s.max ch ≤ s.v ch))

/-- An active counter is disabled in this round. -/
def repeatDone (s : State) (c : Fin ledvmRepCounters) : Bool :=
  if s.cntLim.getLsbD c then limitReached s else s.cntCrt c - 1 = 0

/-- `vm_h_repeat`. -/
def vmHRepeat : Handler := fun _ inst s =>
  if h : cntid inst < ledvmRepCounters then
    let c : Fin ledvmRepCounters := ⟨cntid inst, h⟩
    if s.cntActive.getLsbD c then
      let s' := if s.cntLim.getLsbD c then s
        else { s with cntCrt := Function.update s.cntCrt c (s.cntCrt c - 1) }
      if repeatDone s c then
        some (.ok, incPc { s' with
          cntActive := s.cntActive &&& ~~~BitVec.twoPow 8 c
          cntLim := s.cntLim &&& ~~~BitVec.twoPow 8 c })
      else some (.ok, { s' with pc := s.cntSaddr c })
    else
      some (.ok, { s with
        cntCrt := Function.update s.cntCrt c (repeatCnt inst)
        cntSaddr := Function.update s.cntSaddr c (repeatAddr inst)
        pc := repeatAddr inst
        cntActive := s.cntActive ||| BitVec.twoPow 8 c
        cntLim := if repeatCnt inst = 0 then s.cntLim ||| BitVec.twoPow 8 c else s.cntLim })
  else none -- the bits of the counter are not set, and its value is written behind the table

/-- `vm_h_rgbdelay`. -/
def vmHRgbdelay : Handler := fun _ inst s =>
  some (.ok, incPc { vmhCheckMask s (inst 0) with rgbDelay := vmhDataToU32 inst })

/-- `vm_h_nextrgb`. -/
def vmHNextrgb : Handler := fun _ inst s =>
  if ¬vmhCheckEmptyInst inst then some (.invalidInstruction, s)
  else
    let s := vmhCheckMask s (inst 0)
    let newv ch :=
      vmhMaskv s ch ((s.a ch).toInt16 * (s.v ch).toInt16 + (s.b ch).toInt16).toInt8
    some (.ok, incPc (vmhSetRgbdata s newv true))

/-- The target of a `call` or of a `jmp`. -/
def target (inst : Inst) : UInt16 := (vmhDataToU32 inst).toUInt16

/-- `vm_h_call`. -/
def vmHCall : Handler := fun _ inst s =>
  if s.numcalls = ledvmMaxCalls then some (.tooManyCalls, s)
  else
    let s := vmhCheckMask s (inst 0)
    if h : s.numcalls < ledvmMaxCalls then
      some (.ok, { s with
        cstack := Function.update s.cstack ⟨s.numcalls, h⟩ (s.pc + 1)
        numcalls := s.numcalls + 1
        pc := target inst })
    else none

/-- `vm_h_ret`. -/
def vmHRet : Handler := fun _ inst s =>
  if ¬vmhCheckEmptyInst inst then some (.invalidInstruction, s)
  else if s.numcalls = 0 then some (.finished, s)
  else
    let s := vmhCheckMask s (inst 0)
    if h : s.numcalls - 1 < ledvmMaxCalls then
      some (.ok, { s with pc := s.cstack ⟨s.numcalls - 1, h⟩, numcalls := s.numcalls - 1 })
    else none

/-- `vm_h_addrgb`. -/
def vmHAddrgb : Handler := fun _ inst s =>
  let s := vmhCheckMask s (inst 0)
  let newv ch :=
    vmhMaskv s ch ((s.v ch).toInt16 + (operand inst ch).toUInt16.toInt16).toInt8
  some (.ok, incPc (vmhSetRgbdata s newv true))

/-- `vm_h_jmp`. -/
def vmHJmp : Handler := fun _ inst s =>
  some (.ok, { vmhCheckMask s (inst 0) with pc := target inst })

/-- `vm_h_setmin`. -/
def vmHSetmin : Handler := fun rand inst s =>
  let s := vmhCheckMask s (inst 0)
  some (.ok, incPc (vmhSetCrtrgb { s with min := operands rand inst s.min true } false))

/-- `vm_h_on`. -/
def vmHOn : Handler := fun rand inst s =>
  let s := vmhCheckMask s (inst 0)
  some (.ok, incPc (vmhSetCrtrgb { s with on := operands rand inst s.on false } false))

/-- `vm_h_setmax`. -/
def vmHSetmax : Handler := fun rand inst s =>
  let s := vmhCheckMask s (inst 0)
  some (.ok, incPc (vmhSetCrtrgb { s with max := operands rand inst s.max true } false))

/-- `vm_handlers`. -/
def vmHandlers : List Handler :=
  [vmHNop, vmHSetrgb, vmHDelay, vmHSeta, vmHSetb, vmHRepeat, vmHRgbdelay, vmHNextrgb, vmHCall,
    vmHRet, vmHAddrgb, vmHJmp, vmHSetmin, vmHOn, vmHSetmax]

/-! ### Runs -/

/-- What a call of `ledvm_run` finds: the EEPROM, the program in `pgm_crt`, and random numbers. -/
structure Env where
  eeprom : UInt16 → UInt8
  pgmCrt : Option (Fin pgmMax)
  rand : Fin 3 → ℕ

/-- The address of an instruction of a program in the EEPROM. The product has 16 bits. -/
def instAddr (pgm : Fin pgmMax) (pc : UInt16) : UInt16 :=
  UInt16.ofNat (pgm * pgmMaxBytes + (pc * 4).toNat)

/-- `ledvm_ll_getinst`, with `i2cee_read_block`. -/
def ledvmLlGetinst (env : Env) (pc : UInt16) : Option Inst :=
  env.pgmCrt.map fun pgm i => env.eeprom (instAddr pgm pc + UInt16.ofNat i)

/-- The number of the handler of an instruction. -/
def code (inst : Inst) : ℕ := (inst 0 >>> 4).toNat

/-- A delay that has not elapsed. -/
def Waits (s : State) : Prop := s.delayFlag = true ∧ s.delayCnt ≠ 0

instance decidableWaits (s : State) : Decidable (Waits s) := inferInstanceAs (Decidable (_ ∧ _))

/-- `ledvm_run`. -/
def ledvmRun (env : Env) (s : State) : Option (LedvmErr × State) :=
  if Waits s then some (.ok, s)
  else
    let s := { s with delayFlag := false }
    match ledvmLlGetinst env s.pc with
    | none => some (.invalidPc, s)
    | some inst =>
        match vmHandlers[code inst]? with
        | some handler => handler env.rand inst s
        | none => some (.invalidOpcode, s)

/-- What can happen to the machine. -/
inductive Event where
  | init
  | tick
  | run (env : Env)

/-- A step of the machine. The timer interrupt counts the delay down. -/
def step (s : State) : Event → Option State
  | .init => some (ledvmInit s)
  | .tick => some { s with delayCnt := if 0 < s.delayCnt then s.delayCnt - 1 else s.delayCnt }
  | .run env => (ledvmRun env s).map Prod.snd

/-! ### Careful programs -/

/-- A program counter that is in the slot. The address of an instruction has 16 bits, so that the
upper two bits of a program counter do not count. -/
def InSlot (pc : UInt16) : Prop := pc.toNat % 2 ^ 14 < pgmMaxInstr

/-- A program counter that is not the last place of the slot. -/
def NotLast (pc : UInt16) : Prop := pc.toNat % 2 ^ 14 ≠ pgmMaxInstr - 1

/-- The address behind the last place of the slot. -/
def Behind (pc : UInt16) : Prop := pc.toNat % 2 ^ 14 = pgmMaxInstr

instance decidableInSlot (pc : UInt16) : Decidable (InSlot pc) :=
  inferInstanceAs (Decidable (_ < _))

instance decidableNotLast (pc : UInt16) : Decidable (NotLast pc) :=
  inferInstanceAs (Decidable (_ ≠ _))

instance decidableBehind (pc : UInt16) : Decidable (Behind pc) :=
  inferInstanceAs (Decidable (_ = _))

/-- The counter of a `repeat` is active. -/
def cntIsActive (s : State) (inst : Inst) : Bool := s.cntActive.getLsbD (cntid inst)

/-- The instruction after this one in the slot is the next one. -/
def goesOn (s : State) (inst : Inst) : Bool :=
  match code inst with
  | 0 | 7 => vmhCheckEmptyInst inst
  | 5 =>
      if h : cntid inst < ledvmRepCounters then cntIsActive s inst && repeatDone s ⟨_, h⟩
      else false
  | 8 | 9 | 11 | 15 => false
  | _ => true

/-- An instruction whose counter exists and that does not go out of the slot: not by its start
address or target, not to the place behind the slot. -/
structure CarefulInst (s : State) (inst : Inst) : Prop where
  counter : code inst = 5 → cntid inst < ledvmRepCounters
  start : code inst = 5 → cntIsActive s inst = false → InSlot (repeatAddr inst)
  call : code inst = 8 → s.numcalls ≠ ledvmMaxCalls → InSlot (target inst)
  jmp : code inst = 11 → InSlot (target inst)
  ret : code inst = 9 → vmhCheckEmptyInst inst = true →
    ∀ h : s.numcalls - 1 < ledvmMaxCalls, s.numcalls ≠ 0 → ¬Behind (s.cstack ⟨s.numcalls - 1, h⟩)
  last : goesOn s inst = true → NotLast s.pc

instance decidableCarefulInst (s : State) (inst : Inst) : Decidable (CarefulInst s inst) :=
  decidable_of_iff (_ ∧ _ ∧ _ ∧ _ ∧ _ ∧ _)
    ⟨fun ⟨h₁, h₂, h₃, h₄, h₅, h₆⟩ => ⟨h₁, h₂, h₃, h₄, h₅, h₆⟩,
      fun ⟨h₁, h₂, h₃, h₄, h₅, h₆⟩ => ⟨h₁, h₂, h₃, h₄, h₅, h₆⟩⟩

/-- A step that executes no instruction, or a careful one. -/
def Careful (s : State) : Event → Prop
  | .run env => ¬Waits s → ∀ inst ∈ ledvmLlGetinst env s.pc, CarefulInst s inst
  | _ => True

instance decidableCareful (s : State) : (e : Event) → Decidable (Careful s e)
  | .run env =>
      letI := Option.decidableForallMem (p := CarefulInst s) (ledvmLlGetinst env s.pc)
      inferInstanceAs (Decidable (_ → _))
  | .init => inferInstanceAs (Decidable True)
  | .tick => inferInstanceAs (Decidable True)

/-! ### What a step keeps -/

/-- The part of the machine that decides where it goes. -/
structure Control where
  pc : UInt16
  saddr : Fin ledvmRepCounters → UInt16
  active : BitVec 8
  cstack : Fin ledvmMaxCalls → UInt16
  numcalls : ℕ

/-- The control part of a machine. -/
def State.control (s : State) : Control := ⟨s.pc, s.cntSaddr, s.cntActive, s.cstack, s.numcalls⟩

/-- Everything that the machine can go to is in the slot, but for a return to the place behind
it. -/
structure Inv (c : Control) : Prop where
  pc : InSlot c.pc
  saddr : ∀ i : Fin ledvmRepCounters, c.active.getLsbD i = true → InSlot (c.saddr i)
  numcalls : c.numcalls ≤ ledvmMaxCalls
  cstack : ∀ i : Fin ledvmMaxCalls, i < c.numcalls → InSlot (c.cstack i) ∨ Behind (c.cstack i)

section Steps

variable {s s₁ s' : State} {inst : Inst} {rand : Fin 3 → ℕ} {handler : Handler} {res : LedvmErr}
  {pc : UInt16} {env : Env}

@[simp] theorem control_vmhCheckMask (data : UInt8) :
    (vmhCheckMask s data).control = s.control := by
  rw [vmhCheckMask]
  split <;> rfl

@[simp] theorem control_vmhDelay (period : UInt32) : (vmhDelay s period).control = s.control := rfl

@[simp] theorem control_vmhSetRgbdata (newv : Fin 3 → Int8) (dodelay : Bool) :
    (vmhSetRgbdata s newv dodelay).control = s.control := by
  cases dodelay <;> rfl

@[simp] theorem control_vmhSetCrtrgb (dodelay : Bool) :
    (vmhSetCrtrgb s dodelay).control = s.control := control_vmhSetRgbdata s.v dodelay

@[simp] theorem control_min (f : Fin 3 → Int8) : { s with min := f }.control = s.control := rfl

@[simp] theorem control_on (f : Fin 3 → Int8) : { s with on := f }.control = s.control := rfl

@[simp] theorem control_max (f : Fin 3 → Int8) : { s with max := f }.control = s.control := rfl

theorem inSlot_succ (h : InSlot pc) : InSlot (pc + 1) ∨ Behind (pc + 1) := by
  rw [InSlot, Behind, UInt16.toNat_add] at *
  simp only [pgmMaxInstr, pgmMax, UInt16.toNat_one] at *
  omega

theorem inSlot_succ_of_notLast (h : InSlot pc) (hlast : NotLast pc) : InSlot (pc + 1) := by
  obtain h' | h' := inSlot_succ h
  · exact h'
  · rw [InSlot, NotLast, Behind, UInt16.toNat_add] at *
    simp only [pgmMaxInstr, pgmMax, UInt16.toNat_one] at *
    omega

/-- Going on to the next place of the slot. -/
theorem Inv.incPc (h : Inv s.control) (hsame : s₁.control = s.control) (hlast : NotLast s.pc) :
    Inv (incPc s₁).control := by
  have hpc : s₁.pc = s.pc := congrArg Control.pc hsame
  rw [← hsame] at h
  exact ⟨inSlot_succ_of_notLast h.pc (hpc ▸ hlast), h.saddr, h.numcalls, h.cstack⟩

/-- Going to another place of the slot. -/
theorem Inv.goto (h : Inv s.control) (hsame : s₁.control = s.control) (hpc : InSlot pc) :
    Inv { s₁ with pc }.control := by
  rw [← hsame] at h
  exact ⟨hpc, h.saddr, h.numcalls, h.cstack⟩

/-- Going on, with fewer counters that are active. -/
theorem Inv.disable {active lim : BitVec 8} (h : Inv s.control) (hsame : s₁.control = s.control)
    (hlast : NotLast s.pc) (hactive : ∀ i, active.getLsbD i = true → s.cntActive.getLsbD i = true) :
    Inv (ELuaBrain.Lights.incPc { s₁ with cntActive := active, cntLim := lim }).control := by
  have hon := h.incPc hsame hlast
  have hsaddr : s₁.cntSaddr = s.cntSaddr := congrArg Control.saddr hsame
  refine ⟨hon.pc, fun i hi => ?_, hon.numcalls, hon.cstack⟩
  change InSlot (s₁.cntSaddr i)
  rw [hsaddr]
  exact h.saddr i (hactive i hi)

/-- A `repeat` goes to the start address of its counter, or on. -/
theorem repeat_inv (h : Inv s.control) (hcode : code inst = 5) (hcareful : CarefulInst s inst) :
    ∃ res s', vmHRepeat rand inst s = some (res, s') ∧ Inv s'.control := by
  have hcnt := hcareful.counter hcode
  have hlast := hcareful.last
  simp only [goesOn, hcode, dif_pos hcnt, Bool.and_eq_true] at hlast
  rw [vmHRepeat, dif_pos hcnt]
  set c : Fin ledvmRepCounters := ⟨cntid inst, hcnt⟩
  by_cases hactive : s.cntActive.getLsbD c = true
  · simp only [if_pos hactive]
    have hsame : (if s.cntLim.getLsbD c = true then s else
        { s with cntCrt := Function.update s.cntCrt c (s.cntCrt c - 1) }).control = s.control := by
      split <;> rfl
    by_cases hdone : repeatDone s c = true
    · rw [if_pos hdone]
      refine ⟨_, _, rfl, h.disable hsame (hlast ⟨hactive, hdone⟩) fun i hi => ?_⟩
      rw [BitVec.getLsbD_and, Bool.and_eq_true] at hi
      exact hi.1
    · rw [if_neg hdone]
      exact ⟨_, _, rfl, h.goto hsame (h.saddr c hactive)⟩
  · rw [if_neg hactive]
    have hstart : InSlot (repeatAddr inst) := hcareful.start hcode (Bool.not_eq_true _ ▸ hactive)
    refine ⟨_, _, rfl, hstart, fun i hi => ?_, h.numcalls, h.cstack⟩
    change InSlot (Function.update s.cntSaddr c (repeatAddr inst) i)
    by_cases hi' : i = c
    · rw [hi', Function.update_self]
      exact hstart
    · have hne : (c : ℕ) ≠ i := fun heq => hi' (Fin.ext heq.symm)
      have hold : s.cntActive.getLsbD i = true := by
        simpa [State.control, BitVec.getLsbD_twoPow, hne] using hi
      rw [Function.update_of_ne hi']
      exact h.saddr i hold

/-- A `call` goes to its target, and puts the next place on the stack. -/
theorem call_inv (h : Inv s.control) (hcode : code inst = 8) (hcareful : CarefulInst s inst) :
    ∃ res s', vmHCall rand inst s = some (res, s') ∧ Inv s'.control := by
  rw [vmHCall]
  split
  · exact ⟨_, _, rfl, h⟩
  · rename_i hmax
    have hroom : s.numcalls < ledvmMaxCalls := lt_of_le_of_ne h.numcalls hmax
    have hsame : (vmhCheckMask s (inst 0)).control = s.control := control_vmhCheckMask _
    generalize vmhCheckMask s (inst 0) = s₁ at hsame
    have hnum : s₁.numcalls = s.numcalls := congrArg Control.numcalls hsame
    have hroom₁ : s₁.numcalls < ledvmMaxCalls := hnum ▸ hroom
    rw [← hsame] at h
    rw [dif_pos hroom₁]
    refine ⟨_, _, rfl, hcareful.call hcode hmax, h.saddr, hroom₁, fun i hi => ?_⟩
    change InSlot (Function.update s₁.cstack ⟨s₁.numcalls, hroom₁⟩ (s₁.pc + 1) i) ∨
      Behind (Function.update s₁.cstack ⟨s₁.numcalls, hroom₁⟩ (s₁.pc + 1) i)
    by_cases hi' : i = ⟨s₁.numcalls, hroom₁⟩
    · rw [hi', Function.update_self]
      exact inSlot_succ h.pc
    · have hlt : (i : ℕ) < s₁.numcalls :=
        lt_of_le_of_ne (Nat.le_of_lt_succ hi) fun heq => hi' (Fin.ext heq)
      rw [Function.update_of_ne hi']
      exact h.cstack i hlt

/-- A `ret` goes to a place in the slot that is on the stack. -/
theorem ret_inv (h : Inv s.control) (hcode : code inst = 9) (hcareful : CarefulInst s inst) :
    ∃ res s', vmHRet rand inst s = some (res, s') ∧ Inv s'.control := by
  rw [vmHRet]
  split
  · exact ⟨_, _, rfl, h⟩
  · rename_i hempty
    split
    · exact ⟨_, _, rfl, h⟩
    · rename_i hne
      have hle : s.numcalls ≤ ledvmMaxCalls := h.numcalls
      have hroom : s.numcalls - 1 < ledvmMaxCalls := by omega
      have hback := hcareful.ret hcode (not_not.mp hempty) hroom hne
      have hplace : InSlot (s.cstack ⟨s.numcalls - 1, hroom⟩) :=
        (h.cstack ⟨s.numcalls - 1, hroom⟩ (by
          change s.numcalls - 1 < s.numcalls
          omega)).resolve_right hback
      have hsame : (vmhCheckMask s (inst 0)).control = s.control := control_vmhCheckMask _
      generalize vmhCheckMask s (inst 0) = s₁ at hsame
      have hnum : s₁.numcalls = s.numcalls := congrArg Control.numcalls hsame
      have hstack : s₁.cstack = s.cstack := congrArg Control.cstack hsame
      simp only [hnum, hstack, dif_pos hroom]
      rw [← hsame] at h
      refine ⟨_, _, rfl, hplace, h.saddr, ?_, fun i hi => ?_⟩
      · exact (Nat.sub_le _ _).trans hle
      · change InSlot (s.cstack i) ∨ Behind (s.cstack i)
        have hi' : (i : ℕ) < s₁.numcalls := by
          rw [hnum]
          exact lt_of_lt_of_le hi (Nat.sub_le _ _)
        rw [← hstack]
        exact h.cstack i hi'

/-- Every careful instruction keeps the invariant, and does not go over the end of a table. -/
theorem handler_inv (h : Inv s.control) (hget : vmHandlers[code inst]? = some handler)
    (hcareful : CarefulInst s inst) :
    ∃ res s', handler rand inst s = some (res, s') ∧ Inv s'.control := by
  have hlt : code inst < 15 := (List.getElem?_eq_some_iff.mp hget).1
  have hlast := hcareful.last
  rw [goesOn] at hlast
  interval_cases hcode : code inst
  all_goals obtain rfl := Option.some.inj hget
  · rw [vmHNop]
    split
    · exact ⟨_, _, rfl, h⟩
    · rename_i hempty
      exact ⟨_, _, rfl, h.incPc (by simp) (hlast (not_not.mp hempty))⟩
  · exact ⟨_, _, rfl, h.incPc (by simp) (hlast rfl)⟩
  · exact ⟨_, _, rfl, h.incPc (by simp) (hlast rfl)⟩
  · exact ⟨_, _, rfl, h.incPc (control_vmhCheckMask _) (hlast rfl)⟩
  · exact ⟨_, _, rfl, h.incPc (control_vmhCheckMask _) (hlast rfl)⟩
  · exact repeat_inv h hcode hcareful
  · exact ⟨_, _, rfl, h.incPc (control_vmhCheckMask _) (hlast rfl)⟩
  · rw [vmHNextrgb]
    split
    · exact ⟨_, _, rfl, h⟩
    · rename_i hempty
      exact ⟨_, _, rfl, h.incPc (by simp) (hlast (not_not.mp hempty))⟩
  · exact call_inv h hcode hcareful
  · exact ret_inv h hcode hcareful
  · exact ⟨_, _, rfl, h.incPc (by simp) (hlast rfl)⟩
  · exact ⟨_, _, rfl, h.goto (control_vmhCheckMask _) (hcareful.jmp hcode)⟩
  · refine ⟨_, _, rfl, h.incPc ?_ (hlast rfl)⟩
    rw [control_vmhSetCrtrgb, control_min, control_vmhCheckMask]
  · refine ⟨_, _, rfl, h.incPc ?_ (hlast rfl)⟩
    rw [control_vmhSetCrtrgb, control_on, control_vmhCheckMask]
  · refine ⟨_, _, rfl, h.incPc ?_ (hlast rfl)⟩
    rw [control_vmhSetCrtrgb, control_max, control_vmhCheckMask]

theorem CarefulInst.awake (h : CarefulInst s inst) :
    CarefulInst { s with delayFlag := false } inst :=
  ⟨h.counter, h.start, h.call, h.jmp, h.ret, h.last⟩

theorem ledvmRun_inv (h : Inv s.control) (hcareful : Careful s (.run env)) :
    ∃ res s', ledvmRun env s = some (res, s') ∧ Inv s'.control := by
  rw [ledvmRun]
  split
  · exact ⟨_, _, rfl, h⟩
  · rename_i hwaits
    cases hget : ledvmLlGetinst env s.pc with
    | none =>
      simp only [hget]
      exact ⟨_, _, rfl, h⟩
    | some inst =>
      simp only [hget]
      cases hhandler : vmHandlers[code inst]? with
      | none => exact ⟨_, _, rfl, h⟩
      | some handler =>
        exact handler_inv (s := { s with delayFlag := false }) h hhandler
          (hcareful hwaits inst hget).awake

theorem init_inv : Inv (ledvmInit s).control :=
  ⟨(by decide : InSlot 0), fun _ _ => (by decide : InSlot 0), Nat.zero_le _,
    fun _ hi => absurd hi (Nat.not_lt_zero _)⟩

/-- A careful step has a result, and keeps the invariant. -/
theorem step_inv {e : Event} (h : Inv s.control) (hcareful : Careful s e) :
    ∃ s', step s e = some s' ∧ Inv s'.control := by
  cases e with
  | init => exact ⟨_, rfl, init_inv⟩
  | tick => exact ⟨_, rfl, h⟩
  | run env =>
    obtain ⟨res, s', hrun, hinv⟩ := ledvmRun_inv h hcareful
    exact ⟨s', by rw [step, hrun]; rfl, hinv⟩

/-- An instruction that reports an error does nothing. -/
theorem handler_error (hget : vmHandlers[code inst]? = some handler)
    (hrun : handler rand inst s = some (res, s')) (hres : res ≠ .ok) : s' = s := by
  have hlt : code inst < 15 := (List.getElem?_eq_some_iff.mp hget).1
  have hok {s₁ : State} (h : some (LedvmErr.ok, s₁) = some (res, s')) : s' = s :=
    absurd (congrArg Prod.fst (Option.some.inj h)).symm hres
  have herr {e : LedvmErr} (h : some (e, s) = some (res, s')) : s' = s :=
    (congrArg Prod.snd (Option.some.inj h)).symm
  interval_cases hcode : code inst
  all_goals obtain rfl := Option.some.inj hget
  all_goals try exact hok hrun
  · rw [vmHNop] at hrun
    split at hrun
    · exact herr hrun
    · exact hok hrun
  · rw [vmHRepeat] at hrun
    by_cases hcnt : cntid inst < ledvmRepCounters
    · rw [dif_pos hcnt] at hrun
      by_cases hactive : s.cntActive.getLsbD (cntid inst) = true
      · rw [if_pos hactive] at hrun
        by_cases hdone : repeatDone s ⟨cntid inst, hcnt⟩ = true
        · rw [if_pos hdone] at hrun
          exact hok hrun
        · rw [if_neg hdone] at hrun
          exact hok hrun
      · rw [if_neg hactive] at hrun
        exact hok hrun
    · rw [dif_neg hcnt] at hrun
      exact absurd hrun nofun
  · rw [vmHNextrgb] at hrun
    split at hrun
    · exact herr hrun
    · exact hok hrun
  · rw [vmHCall] at hrun
    split at hrun
    · exact herr hrun
    · dsimp only at hrun
      split at hrun
      · exact hok hrun
      · exact absurd hrun nofun
  · rw [vmHRet] at hrun
    split at hrun
    · exact herr hrun
    · split at hrun
      · exact herr hrun
      · dsimp only at hrun
        split at hrun
        · exact hok hrun
        · exact absurd hrun nofun

theorem ledvmRun_error (hrun : ledvmRun env s = some (res, s')) (hres : res ≠ .ok) :
    s' = { s with delayFlag := false } := by
  have herr {e : LedvmErr} (h : some (e, { s with delayFlag := false }) = some (res, s')) :
      s' = { s with delayFlag := false } := (congrArg Prod.snd (Option.some.inj h)).symm
  rw [ledvmRun] at hrun
  split at hrun
  · exact absurd (congrArg Prod.fst (Option.some.inj hrun)).symm hres
  · cases hget : ledvmLlGetinst env s.pc with
    | none =>
      simp only [hget] at hrun
      exact herr hrun
    | some inst =>
      simp only [hget] at hrun
      cases hhandler : vmHandlers[code inst]? with
      | none =>
        rw [hhandler] at hrun
        exact herr hrun
      | some handler =>
        rw [hhandler] at hrun
        exact handler_error hhandler hrun hres

/-- The address of an instruction in the slot. -/
theorem instAddr_of_inSlot (pgm : Fin pgmMax) (h : InSlot pc) :
    pgm * pgmMaxBytes ≤ (instAddr pgm pc).toNat ∧
      (instAddr pgm pc).toNat + 4 ≤ (pgm + 1) * pgmMaxBytes := by
  have hpgm : (pgm : ℕ) < 8 := pgm.isLt
  have hprod : (pc * 4).toNat = pc.toNat * 4 % 65536 := UInt16.toNat_mul pc 4
  simp only [InSlot, instAddr, pgmMaxBytes, pgmMaxInstr, pgmMax, UInt16.toNat_ofNat', hprod] at *
  omega

/-- **The machine is safe.** Where every step is careful the counters and the stack are in their
tables, and the instructions in the slot of the program. An error changes nothing. -/
theorem vm_safe {s₀ : State} (h : Reach step Careful (ledvmInit s₀) s) :
    s.numcalls ≤ ledvmMaxCalls ∧
      (∀ env, Careful s (.run env) → (ledvmRun env s).isSome) ∧
      (∀ pgm : Fin pgmMax, pgm * pgmMaxBytes ≤ (instAddr pgm s.pc).toNat ∧
        (instAddr pgm s.pc).toNat + 4 ≤ (pgm + 1) * pgmMaxBytes) ∧
      ∀ env res s', ledvmRun env s = some (res, s') → res ≠ .ok →
        s' = { s with delayFlag := false } := by
  have hinv : Inv s.control := by
    refine Reach.invariant (P := fun s => Inv s.control) init_inv (fun s e s' hs hg hstep => ?_) h
    obtain ⟨s₁, hs₁, hinv⟩ := step_inv hs hg
    rwa [Option.some.inj (hstep.symm.trans hs₁)]
  refine ⟨hinv.numcalls, fun env hg => ?_, fun pgm => instAddr_of_inSlot pgm hinv.pc, ?_⟩
  · obtain ⟨res, s', hrun, -⟩ := ledvmRun_inv hinv hg
    rw [hrun]
    rfl
  · exact fun env res s' hrun hres => ledvmRun_error hrun hres

/-- An EEPROM that starts with some bytes, with the first program. -/
def firstProgram (bytes : List UInt8) : Env where
  eeprom a := bytes.getD a.toNat 0xFF
  pgmCrt := some 0
  rand := 0

/-- The machine before `ledvm_init`. -/
def resetState : State :=
  ⟨0, 0, 0, 0, fun _ => false, 0, 0, 0, 0, 0, 0, 0, 0, 0, 0, false, 0, 0⟩

/-- A program with a loop and a call: `nop`, `repeat`, `call`, `jmp`, `ret`. -/
def loopProgram : Env :=
  firstProgram [0x00, 0xAA, 0x55, 0xAA, 0x50, 0x00, 0x20, 0x00, 0x80, 0x00, 0x00, 0x04,
    0xB0, 0x00, 0x00, 0x00, 0x90, 0xAA, 0x55, 0xAA]

theorem vm_safe_loop : ∃ s, Reach step Careful (ledvmInit resetState) s ∧ s.numcalls = 1 ∧
    s.numcalls ≤ ledvmMaxCalls ∧
      (∀ env, Careful s (.run env) → (ledvmRun env s).isSome) ∧
      (∀ pgm : Fin pgmMax, pgm * pgmMaxBytes ≤ (instAddr pgm s.pc).toNat ∧
        (instAddr pgm s.pc).toNat + 4 ≤ (pgm + 1) * pgmMaxBytes) ∧
      ∀ env res s', ledvmRun env s = some (res, s') → res ≠ .ok →
        s' = { s with delayFlag := false } := by
  have hrun : (runAll (guarded step Careful) (List.replicate 7 (.run loopProgram))
      (ledvmInit resetState)).map State.numcalls = some 1 := by decide +kernel
  obtain ⟨s, hs, hcalls⟩ := Option.map_eq_some_iff.mp hrun
  have hreach : Reach step Careful (ledvmInit resetState) s := reach_of_runAll hs
  exact ⟨s, hreach, hcalls, vm_safe hreach⟩

/-- A counter that does not exist is written to, and a `jmp` leads into another program. -/
theorem vm_unsafe :
    ledvmRun (firstProgram [0x58, 0x00, 0x10, 0x00]) (ledvmInit resetState) = none ∧
      (ledvmRun (firstProgram [0xB0, 0x00, 0x04, 0x00]) (ledvmInit resetState)).map
        (fun r => (r.1, (instAddr 0 r.2.pc).toNat)) = some (.ok, 1 * pgmMaxBytes) := by
  decide +kernel

end Steps

end ELuaBrain.Lights
