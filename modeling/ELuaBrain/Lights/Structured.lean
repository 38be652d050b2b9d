import ELuaBrain.Lights.Vm
import ELuaBrain.System.Lockstep

/-!
# Structured programs of the lights

`ledvm.c` has loops and calls by addresses: a `repeat` goes back to its start address and counts
in a table, a `call` puts an address on a stack. A structured program has neither. It is executed
as a list of things to do, that a loop and a call put the things of their bodies in front of.

## Main definitions

* `Prog`, `Prog.items`, `Prog.step` : structured programs, and how they are executed.
* `Located` : the instructions from one address to another one are a structured program.

## Main results

* `Located.follows` : the machine does what is to do, and then goes on behind the program.
* `run_structured` : every run of the machine is a run of the structured program.
-/

namespace ELuaBrain.Lights

/-! ### The machine without its control -/

/-- The part of the machine that is not for its control. -/
structure Values where
  v : Fin 3 → Int8
  a : Fin 3 → Int8
  b : Fin 3 → Int8
  m : Fin 3 → Bool
  min : Fin 3 → Int8
  max : Fin 3 → Int8
  on : Fin 3 → Int8
  rgbDelay : UInt32
  delayFlag : Bool
  shown : Fin 3 → Int8
  delayCnt : UInt32
  deriving DecidableEq

/-- The values of a machine. -/
def State.values (s : State) : Values :=
  ⟨s.v, s.a, s.b, s.m, s.min, s.max, s.on, s.rgbDelay, s.delayFlag, s.shown, s.delayCnt⟩

/-- A machine with other values. -/
def State.put (s : State) (d : Values) : State :=
  { s with
    v := d.v, a := d.a, b := d.b, m := d.m, min := d.min, max := d.max, on := d.on
    rgbDelay := d.rgbDelay, delayFlag := d.delayFlag, shown := d.shown, delayCnt := d.delayCnt }

/-- A machine that has nothing but values. -/
def Values.state (d : Values) : State where
  pc := 0
  v := d.v
  a := d.a
  b := d.b
  m := d.m
  min := d.min
  max := d.max
  on := d.on
  cntCrt := 0
  cntSaddr := 0
  cntActive := 0
  cntLim := 0
  rgbDelay := d.rgbDelay
  cstack := 0
  numcalls := 0
  delayFlag := d.delayFlag
  shown := d.shown
  delayCnt := d.delayCnt

/-- The execution of an instruction. -/
def execInst (rand : Fin 3 → ℕ) (inst : Inst) (s : State) : Option (LedvmErr × State) :=
  match vmHandlers[code inst]? with
  | some handler => handler rand inst s
  | none => some (.invalidOpcode, s)

/-- What an instruction does with the values. Only a `repeat` has no result, with a counter that
does not exist. -/
def Values.exec (rand : Fin 3 → ℕ) (inst : Inst) (d : Values) : LedvmErr × Values :=
  match execInst rand inst d.state with
  | some (res, s) => (res, s.values)
  | none => (.ok, d)

/-- What the first byte of an instruction does with the masks. -/
def Values.checkMask (d : Values) (data : UInt8) : Values := (vmhCheckMask d.state data).values

/-- An instruction that says where the machine goes: `repeat`, `call`, `ret` and `jmp`. -/
def Directs (inst : Inst) : Prop := code inst ∈ [5, 8, 9, 11]

instance decidableDirects (inst : Inst) : Decidable (Directs inst) :=
  inferInstanceAs (Decidable (_ ∈ _))

/-! ### Structured programs -/

/-- A structured program. A `call` and a `jmp` have the byte that may set the masks, and a `call`
also that of the `ret` at its end. -/
inductive Prog where
  | skip
  | inst (inst : Inst)
  | jmp (data : UInt8)
  | seq (p q : Prog)
  | loop (c : ℕ) (n : ℕ) (body : Prog)
  | limit (c : ℕ) (body : Prog)
  | call (data : UInt8) (body : Prog) (back : UInt8)

/-- Something to do. -/
inductive Item where
  /-- An instruction that is not for control. -/
  | exec (inst : Inst)
  /-- A `call`, `ret` or `jmp`, of which there are only the masks. -/
  | mask (data : UInt8)
  /-- A `repeat` of which it is known where it goes. -/
  | round
  /-- A `repeat` in limit mode, that may do its body again. -/
  | limit (body : Prog)

namespace Prog

/-- The things to do for a program, and then others. A loop with a count of `n` has its body
`n + 1` times. -/
def items : Prog → List Item → List Item
  | skip, k => k
  | inst i, k => .exec i :: k
  | jmp data, k => .mask data :: k
  | seq p q, k => p.items (q.items k)
  | loop _ n p, k => (fun k => p.items (.round :: k))^[n + 1] k
  | limit _ p, k => p.items (.round :: p.items (.limit p :: k))
  | call data p back, k => .mask data :: p.items (.mask back :: k)

/-- The counters that are used in a program, in what it calls also. -/
def counters : Prog → Set ℕ
  | skip | inst _ | jmp _ => ∅
  | seq p q => p.counters ∪ q.counters
  | loop c _ p | limit c p => insert c p.counters
  | call _ p _ => p.counters

/-- The depth of the calls in a program. -/
def depth : Prog → ℕ
  | skip | inst _ | jmp _ => 0
  | seq p q => max p.depth q.depth
  | loop _ _ p | limit _ p => p.depth
  | call _ p _ => p.depth + 1

end Prog

/-- What can happen in the run of a program: the timer interrupt, and a call of `ledvm_run`. -/
inductive Turn where
  | tick
  | run (rand : Fin 3 → ℕ)

/-- Doing the first thing of the list. An instruction that reports an error stays in it. -/
def Item.run (rand : Fin 3 → ℕ) (k : List Item) (d : Values) :
    Item → LedvmErr × Values × List Item
  | exec inst =>
      let r := d.exec rand inst
      (r.1, r.2, if r.1 = .ok then k else .exec inst :: k)
  | mask data => (.ok, d.checkMask data, k)
  | round => (.ok, d, k)
  | limit p => (.ok, d, if limitReached d.state then k else p.items (.limit p :: k))

/-- Doing the first thing of the list, if there is one. -/
def Prog.next (rand : Fin 3 → ℕ) (d : Values) :
    List Item → Option (LedvmErr × Values × List Item)
  | [] => none
  | item :: k => some (item.run rand k d)

/-- A step of a structured program. It has none behind its end. -/
def Prog.step : Values × List Item → Turn → Option (LedvmErr × Values × List Item)
  | (d, k), .tick =>
      some (.ok, { d with delayCnt := if 0 < d.delayCnt then d.delayCnt - 1 else d.delayCnt }, k)
  | (d, k), .run rand =>
      if Waits d.state then some (.ok, d, k) else Prog.next rand { d with delayFlag := false } k

/-- The instruction at an address of a program in the EEPROM. -/
def fetch (eeprom : UInt16 → UInt8) (pgm : Fin pgmMax) (pc : UInt16) : Inst :=
  fun i => eeprom (instAddr pgm pc + UInt16.ofNat i)

/-- A step of the machine with a program that does not change. -/
def turn (eeprom : UInt16 → UInt8) (pgm : Fin pgmMax) (s : State) :
    Turn → Option (LedvmErr × State)
  | .tick => (step s .tick).map fun s => (.ok, s)
  | .run rand => ledvmRun ⟨eeprom, some pgm, rand⟩ s

/-- The instructions that are executed from one address to another one are a structured program.
The counter of a loop exists and is not used in its body, and every `call` has its `ret`. -/
inductive Located (mem : UInt16 → Inst) : UInt16 → Prog → UInt16 → Prop where
  | skip {a : UInt16} : Located mem a .skip a
  | inst {a : UInt16} (h : ¬Directs (mem a)) : Located mem a (.inst (mem a)) (a + 1)
  | jmp {a : UInt16} (h : code (mem a) = 11) : Located mem a (.jmp (mem a 0)) (target (mem a))
  | seq {a b c : UInt16} {p q : Prog} (hp : Located mem a p b) (hq : Located mem b q c) :
      Located mem a (.seq p q) c
  | loop {a r : UInt16} {p : Prog} (h : code (mem r) = 5) (hstart : repeatAddr (mem r) = a)
      (hvalid : cntid (mem r) < ledvmRepCounters) (hother : cntid (mem r) ∉ p.counters)
      (hcnt : repeatCnt (mem r) ≠ 0) (hp : Located mem a p r) :
      Located mem a (.loop (cntid (mem r)) (repeatCnt (mem r)).toNat p) (r + 1)
  | limit {a r : UInt16} {p : Prog} (h : code (mem r) = 5) (hstart : repeatAddr (mem r) = a)
      (hvalid : cntid (mem r) < ledvmRepCounters) (hother : cntid (mem r) ∉ p.counters)
      (hcnt : repeatCnt (mem r) = 0) (hp : Located mem a p r) :
      Located mem a (.limit (cntid (mem r)) p) (r + 1)
  | call {a r : UInt16} {p : Prog} (h : code (mem a) = 8) (hret : code (mem r) = 9)
      (hempty : vmhCheckEmptyInst (mem r) = true) (hp : Located mem (target (mem a)) p r) :
      Located mem a (.call (mem a 0) p (mem r 0)) (a + 1)

/-- The control of a machine but for the program counter: the counters that are active, and the
call stack. -/
structure SameControl (s s' : State) : Prop where
  active : s'.cntActive = s.cntActive
  lim : s'.cntLim = s.cntLim
  numcalls : s'.numcalls = s.numcalls
  crt : ∀ i : Fin ledvmRepCounters, s.cntActive.getLsbD i = true → s'.cntCrt i = s.cntCrt i
  saddr : ∀ i : Fin ledvmRepCounters, s.cntActive.getLsbD i = true → s'.cntSaddr i = s.cntSaddr i
  cstack : ∀ i : Fin ledvmMaxCalls, i < s.numcalls → s'.cstack i = s.cstack i

/-! ### What an instruction keeps -/

section Machine

variable {s s' s₁ : State} {inst : Inst} {rand : Fin 3 → ℕ} {mem : UInt16 → Inst} {a b : UInt16}
  {p : Prog} {N : ℕ} {k : List Item}

namespace SameControl

theorem refl (s : State) : SameControl s s :=
  ⟨rfl, rfl, rfl, fun _ _ => rfl, fun _ _ => rfl, fun _ _ => rfl⟩

theorem trans (h : SameControl s s₁) (h' : SameControl s₁ s') : SameControl s s' where
  active := h'.active.trans h.active
  lim := h'.lim.trans h.lim
  numcalls := h'.numcalls.trans h.numcalls
  crt i hi := (h'.crt i (h.active ▸ hi)).trans (h.crt i hi)
  saddr i hi := (h'.saddr i (h.active ▸ hi)).trans (h.saddr i hi)
  cstack i hi := (h'.cstack i (h.numcalls ▸ hi)).trans (h.cstack i hi)

/-- Other values and another place are no other control. -/
theorem put (s : State) (d : Values) (pc : UInt16) : SameControl s { s.put d with pc } :=
  ⟨rfl, rfl, rfl, fun _ _ => rfl, fun _ _ => rfl, fun _ _ => rfl⟩

end SameControl

@[simp] theorem State.put_values (s : State) : s.put s.values = s := rfl

@[simp] theorem State.values_put (s : State) (d : Values) : (s.put d).values = d := rfl

theorem vmhCheckMask_put (s : State) (data : UInt8) :
    vmhCheckMask s data = s.put (s.values.checkMask data) := by
  rw [Values.checkMask, vmhCheckMask, vmhCheckMask]
  split <;> rfl

/-- The machine after an instruction that is not for control. -/
def State.goOn (s : State) (res : LedvmErr) (d : Values) : State :=
  { s.put d with pc := if res = .ok then s.pc + 1 else s.pc }

@[simp] theorem State.values_goOn (s : State) (res : LedvmErr) (d : Values) :
    (s.goOn res d).values = d := rfl

@[simp] theorem Values.state_values (d : Values) : d.state.values = d := rfl

/-- Showing the colours again, after values have changed. -/
theorem incPc_vmhSetCrtrgb (s : State) (d : Values) :
    incPc (vmhSetCrtrgb (s.put d) false) = s.goOn .ok (vmhSetCrtrgb d.state false).values := rfl

/-- An instruction that is not for control looks at the values only. -/
theorem execInst_of_not_directs (h : ¬Directs inst) (s : State) :
    execInst rand inst s = some ((s.values.exec rand inst).1,
      s.goOn (s.values.exec rand inst).1 (s.values.exec rand inst).2) := by
  rw [Values.exec, execInst, execInst]
  cases hget : vmHandlers[code inst]? with
  | none => rfl
  | some handler =>
    have hlt : code inst < 15 := (List.getElem?_eq_some_iff.mp hget).1
    rw [Directs] at h
    interval_cases hcode : code inst
    all_goals obtain rfl := Option.some.inj hget
    all_goals try exact absurd (by decide) h
    all_goals clear hget h hlt hcode
    · simp only [vmHNop, vmhCheckMask_put]
      split <;> rfl
    · simp only [vmHSetrgb, vmhCheckMask_put]
      rfl
    · simp only [vmHDelay, vmhCheckMask_put]
      rfl
    · simp only [vmHSeta, vmhCheckMask_put]
      rfl
    · simp only [vmHSetb, vmhCheckMask_put]
      rfl
    · simp only [vmHRgbdelay, vmhCheckMask_put]
      rfl
    · simp only [vmHNextrgb, vmhCheckMask_put]
      split <;> rfl
    · simp only [vmHAddrgb, vmhCheckMask_put]
      rfl
    · have hput (s : State) (d : Values) (f : Fin 3 → Int8) :
          { s.put d with min := f } = s.put { d with min := f } := rfl
      simp only [vmHSetmin, vmhCheckMask_put, hput, incPc_vmhSetCrtrgb,
        State.values_goOn, Values.state_values]
      rfl
    · have hput (s : State) (d : Values) (f : Fin 3 → Int8) :
          { s.put d with on := f } = s.put { d with on := f } := rfl
      simp only [vmHOn, vmhCheckMask_put, hput, incPc_vmhSetCrtrgb,
        State.values_goOn, Values.state_values]
      rfl
    · have hput (s : State) (d : Values) (f : Fin 3 → Int8) :
          { s.put d with max := f } = s.put { d with max := f } := rfl
      simp only [vmHSetmax, vmhCheckMask_put, hput, incPc_vmhSetCrtrgb,
        State.values_goOn, Values.state_values]
      rfl

/-! ### What the instructions of the control do -/

theorem execInst_jmp (h : code inst = 11) (s : State) : execInst rand inst s =
    some (.ok, { s.put (s.values.checkMask (inst 0)) with pc := target inst }) := by
  rw [execInst, h, ← vmhCheckMask_put]
  rfl

theorem execInst_call (h : code inst = 8) (hroom : s.numcalls < ledvmMaxCalls) :
    execInst rand inst s = some (.ok, { s.put (s.values.checkMask (inst 0)) with
      cstack := Function.update s.cstack ⟨s.numcalls, hroom⟩ (s.pc + 1)
      numcalls := s.numcalls + 1
      pc := target inst }) := by
  have hexec : execInst rand inst s = vmHCall rand inst s := by
    rw [execInst, h]
    rfl
  rw [hexec, vmHCall, if_neg hroom.ne, vmhCheckMask_put]
  exact dif_pos hroom

theorem execInst_ret (h : code inst = 9) (hempty : vmhCheckEmptyInst inst = true) {n : ℕ}
    (hn : s.numcalls = n + 1) (hroom : n < ledvmMaxCalls) :
    execInst rand inst s = some (.ok, { s.put (s.values.checkMask (inst 0)) with
      pc := s.cstack ⟨n, hroom⟩
      numcalls := n }) := by
  have hexec : execInst rand inst s = vmHRet rand inst s := by
    rw [execInst, h]
    rfl
  have hne : s.numcalls ≠ 0 := by omega
  have hpred : (s.put (s.values.checkMask (inst 0))).numcalls - 1 = n := by
    change s.numcalls - 1 = n
    omega
  rw [hexec, vmHRet, if_neg (not_not.mpr hempty), if_neg hne, vmhCheckMask_put]
  simp only [hpred]
  exact dif_pos hroom

/-- A counter that is not active, and not in limit mode. -/
def Idle (s : State) (c : ℕ) : Prop :=
  s.cntActive.getLsbD c = false ∧ s.cntLim.getLsbD c = false

/-- The machine after a `repeat` whose counter was not active. -/
def State.enable (s : State) (c : Fin ledvmRepCounters) (cnt addr : UInt16) : State :=
  { s with
    cntCrt := Function.update s.cntCrt c cnt
    cntSaddr := Function.update s.cntSaddr c addr
    pc := addr
    cntActive := s.cntActive ||| BitVec.twoPow 8 c
    cntLim := if cnt = 0 then s.cntLim ||| BitVec.twoPow 8 c else s.cntLim }

/-- The machine without a counter. -/
def State.disable (s : State) (c : Fin ledvmRepCounters) : State :=
  { s with
    cntActive := s.cntActive &&& ~~~BitVec.twoPow 8 c
    cntLim := s.cntLim &&& ~~~BitVec.twoPow 8 c }

section Repeat

variable (h : code inst = 5) (hvalid : cntid inst < ledvmRepCounters)

include h

theorem execInst_repeat : execInst rand inst s = vmHRepeat rand inst s := by
  rw [execInst, h]
  rfl

theorem execInst_repeat_start (hidle : Idle s (cntid inst)) : execInst rand inst s =
    some (.ok, s.enable ⟨cntid inst, hvalid⟩ (repeatCnt inst) (repeatAddr inst)) := by
  rw [execInst_repeat h, vmHRepeat, dif_pos hvalid]
  exact if_neg (by simp [hidle.1])

theorem execInst_repeat_limit (hactive : s.cntActive.getLsbD (cntid inst) = true)
    (hlim : s.cntLim.getLsbD (cntid inst) = true) : execInst rand inst s =
    some (.ok, if limitReached s then incPc (s.disable ⟨cntid inst, hvalid⟩)
      else { s with pc := s.cntSaddr ⟨cntid inst, hvalid⟩ }) := by
  rw [execInst_repeat h, vmHRepeat, dif_pos hvalid]
  simp only [hactive, repeatDone, hlim, if_true]
  split <;> rfl

theorem execInst_repeat_count (hactive : s.cntActive.getLsbD (cntid inst) = true)
    (hlim : s.cntLim.getLsbD (cntid inst) = false) {n : UInt16}
    (hcrt : s.cntCrt ⟨cntid inst, hvalid⟩ = n + 1) : execInst rand inst s =
    some (.ok,
      let s' := { s with cntCrt := Function.update s.cntCrt ⟨cntid inst, hvalid⟩ n }
      if n = 0 then incPc (s'.disable ⟨cntid inst, hvalid⟩)
      else { s' with pc := s.cntSaddr ⟨cntid inst, hvalid⟩ }) := by
  have hpred : s.cntCrt ⟨cntid inst, hvalid⟩ - 1 = n := by rw [hcrt, UInt16.add_sub_cancel]
  rw [execInst_repeat h, vmHRepeat, dif_pos hvalid]
  simp only [hactive, repeatDone, hlim, hpred, if_true, Bool.false_eq_true, if_false,
    decide_eq_true_eq]
  split <;> rfl

end Repeat

/-! ### Loops -/

section Counter

variable {c : Fin ledvmRepCounters} {d : ℕ} {cnt addr : UInt16}

/-- A bit that is not set comes off again. -/
theorem disable_bit {x : BitVec 8} {i : ℕ} (h : x.getLsbD i = false) :
    (x ||| BitVec.twoPow 8 i) &&& ~~~BitVec.twoPow 8 i = x := by
  ext j hj
  by_cases hij : i = j
  · subst hij
    simp [← BitVec.getLsbD_eq_getElem, h]
  · simp [← BitVec.getLsbD_eq_getElem, BitVec.getLsbD_twoPow, hij, hj]

theorem enable_bit {x : BitVec 8} {i : ℕ} (hi : i < 8) :
    (x ||| BitVec.twoPow 8 i).getLsbD i = true := by
  simp [hi]

theorem disable_bit_of_not_set {x : BitVec 8} {i : ℕ} (h : x.getLsbD i = false) :
    x &&& ~~~BitVec.twoPow 8 i = x := by
  ext j hj
  by_cases hij : i = j
  · subst hij
    simp [← BitVec.getLsbD_eq_getElem, h]
  · simp [← BitVec.getLsbD_eq_getElem, BitVec.getLsbD_twoPow, hij, hj]

theorem getLsbD_disable_of_ne {x : BitVec 8} {i j : ℕ} (h : j ≠ i) :
    (x &&& ~~~BitVec.twoPow 8 i).getLsbD j = x.getLsbD j := by
  by_cases hj : j < 8
  · simp [hj, h]
  · simp [BitVec.getLsbD_of_ge _ _ (Nat.le_of_not_lt hj)]

/-- A counter that is enabled and disabled again. -/
theorem SameControl.enable (h : Idle s c) (cnt addr : UInt16) :
    SameControl s ((s.enable c cnt addr).disable c) where
  active := disable_bit h.1
  lim := by
    change (if cnt = 0 then _ else _) &&& _ = _
    split
    · exact disable_bit h.2
    · exact disable_bit_of_not_set h.2
  numcalls := rfl
  crt i hi := Function.update_of_ne (fun hic => by simp [hic, h.1] at hi) ..
  saddr i hi := Function.update_of_ne (fun hic => by simp [hic, h.1] at hi) ..
  cstack _ _ := rfl

theorem SameControl.disable (h : SameControl s s') : SameControl (s.disable c) (s'.disable c) where
  active := congrArg (· &&& ~~~BitVec.twoPow 8 (c : ℕ)) h.active
  lim := congrArg (· &&& ~~~BitVec.twoPow 8 (c : ℕ)) h.lim
  numcalls := h.numcalls
  crt i hi := h.crt i (by
    rw [State.disable, BitVec.getLsbD_and, Bool.and_eq_true] at hi
    exact hi.1)
  saddr i hi := h.saddr i (by
    rw [State.disable, BitVec.getLsbD_and, Bool.and_eq_true] at hi
    exact hi.1)
  cstack := h.cstack

theorem Idle.of_same (h : SameControl s s') (hd : Idle s d) : Idle s' d :=
  ⟨h.active ▸ hd.1, h.lim ▸ hd.2⟩

theorem Idle.of_disable (h : Idle (s.disable c) d) (hne : d ≠ c) : Idle s d :=
  ⟨(getLsbD_disable_of_ne hne).symm.trans h.1, (getLsbD_disable_of_ne hne).symm.trans h.2⟩

/-- The counters of the body of a loop, when that of the loop is enabled. -/
theorem idle_of_disable {s₀ : State} (hother : (c : ℕ) ∉ p.counters)
    (hidle : ∀ d ∈ p.counters, Idle s₀ d) (hsame : SameControl s₀ (s.disable c)) :
    ∀ d ∈ p.counters, Idle s d := by
  intro d hd
  refine ((hidle d hd).of_same hsame).of_disable ?_
  rintro rfl
  exact hother hd

/-- The counter of an enabled loop may have any value. -/
theorem SameControl.count {s₀ : State} (h : SameControl s₀ (s.disable c)) (n pc : UInt16) :
    SameControl s₀
      (State.disable { s with cntCrt := Function.update s.cntCrt c n, pc } c) := by
  refine ⟨h.active, h.lim, h.numcalls, fun i hi => ?_, h.saddr, h.cstack⟩
  refine Eq.trans (Function.update_of_ne ?_ ..) (h.crt i hi)
  rintro rfl
  rw [← h.active] at hi
  simp [State.disable] at hi

end Counter

/-! ### The machine follows the program -/

section Follow

variable {eeprom : UInt16 → UInt8} {pgm : Fin pgmMax} {R : State → Values × List Item → Prop}

theorem turn_run_waits (h : Waits s) : turn eeprom pgm s (.run rand) = some (.ok, s) := by
  rw [turn, ledvmRun, if_pos h]

theorem turn_run (h : ¬Waits s) : turn eeprom pgm s (.run rand) =
    execInst rand (fetch eeprom pgm s.pc) { s with delayFlag := false } := by
  rw [turn, ledvmRun, if_neg h]
  rfl

/-- The timer interrupt and a delay leave the machine where it is. It remains to follow what is
done then. -/
theorem follows_awake (hR : ∀ s₁, SameControl s s₁ → s₁.pc = s.pc → R s₁ (s₁.values, k))
    (h : ∀ M < N, ∀ s₁, SameControl s s₁ → s₁.pc = s.pc → ∀ rand o c,
      Prog.next rand s₁.values k = some (o, c) →
      ∃ s', execInst rand (fetch eeprom pgm s.pc) s₁ = some (o, s') ∧
        ((c = (s'.values, k) ∧ SameControl s s' ∧ s'.pc = s.pc) ∨
          InStep (turn eeprom pgm) Prog.step R M s' c)) :
    InStep (turn eeprom pgm) Prog.step R N s (s.values, k) := by
  refine InStep.of_step
    (P := fun s₁ c => c = (s₁.values, k) ∧ SameControl s s₁ ∧ s₁.pc = s.pc)
    (fun s₁ c hP => hP.1 ▸ hR s₁ hP.2.1 hP.2.2) ?_ ⟨rfl, .refl s, rfl⟩
  rintro M hM s₁ _ (_ | rand) o c ⟨rfl, hsame, hpc⟩ hstep
  · obtain ⟨rfl, rfl⟩ := Prod.mk.inj (Option.some.inj hstep)
    exact ⟨_, rfl, .inl ⟨rfl, hsame.trans
      (.put s₁ { s₁.values with delayCnt := if 0 < s₁.delayCnt then _ else _ } s₁.pc), hpc⟩⟩
  · by_cases hwaits : Waits s₁
    · rw [Prog.step, if_pos (show Waits s₁.values.state from hwaits)] at hstep
      obtain ⟨rfl, rfl⟩ := Prod.mk.inj (Option.some.inj hstep)
      exact ⟨s₁, turn_run_waits hwaits, .inl ⟨rfl, hsame, hpc⟩⟩
    · rw [Prog.step, if_neg (show ¬Waits s₁.values.state from hwaits)] at hstep
      obtain ⟨s', hexec, hrest⟩ := h M hM { s₁ with delayFlag := false }
        (hsame.trans (.put s₁ { s₁.values with delayFlag := false } s₁.pc)) hpc rand o c hstep
      refine ⟨s', ?_, hrest⟩
      rw [turn_run hwaits, ← hexec]
      exact congrArg (fun pc => execInst rand (fetch eeprom pgm pc) _) hpc

/-- What is needed to follow one thing to do: that the machine does it from its place. -/
theorem follows_item {item : Item} (hR : ∀ s item k, R s (s.values, item :: k))
    (h : ∀ M < N, ∀ s₁, SameControl s s₁ → s₁.pc = s.pc → ∀ rand o c,
      item.run rand k s₁.values = (o, c) →
      ∃ s', execInst rand (fetch eeprom pgm s.pc) s₁ = some (o, s') ∧
        ((c = (s'.values, item :: k) ∧ SameControl s s' ∧ s'.pc = s.pc) ∨
          InStep (turn eeprom pgm) Prog.step R M s' c)) :
    InStep (turn eeprom pgm) Prog.step R N s (s.values, item :: k) :=
  follows_awake (fun s₁ _ _ => hR s₁ item k) fun M hM s₁ hsame hpc rand o c hrun =>
    h M hM s₁ hsame hpc rand o c (Option.some.inj hrun)

theorem follows_exec (hR : ∀ s item k, R s (s.values, item :: k))
    (hdirects : ¬Directs (fetch eeprom pgm s.pc))
    (hk : ∀ s', s'.pc = s.pc + 1 → SameControl s s' →
      InStep (turn eeprom pgm) Prog.step R N s' (s'.values, k)) :
    InStep (turn eeprom pgm) Prog.step R N s
      (s.values, .exec (fetch eeprom pgm s.pc) :: k) := by
  refine follows_item hR fun M hM s₁ hsame hpc rand o c hrun => ?_
  have hexec : execInst rand _ s₁ = _ := execInst_of_not_directs hdirects s₁
  rw [Item.run] at hrun
  generalize s₁.values.exec rand (fetch eeprom pgm s.pc) = r at hexec hrun
  obtain ⟨res, d⟩ := r
  obtain ⟨rfl, rfl⟩ := Prod.mk.inj hrun
  have hgoes : SameControl s (s₁.goOn res d) := hsame.trans (.put s₁ d _)
  refine ⟨_, hexec, ?_⟩
  by_cases hres : res = .ok
  · refine .inr ?_
    subst hres
    exact (hk _ (congrArg (· + 1) hpc) hgoes).mono hM.le
  · refine .inl ⟨congrArg _ (if_neg hres), hgoes, ?_⟩
    exact (if_neg hres).trans hpc

/-- A `jmp`, `call` or `ret`, that goes to a place from where the machine follows the rest. -/
theorem follows_mask {data : UInt8} (hR : ∀ s item k, R s (s.values, item :: k))
    (h : ∀ s₁, SameControl s s₁ → s₁.pc = s.pc → ∀ rand, ∃ s',
      execInst rand (fetch eeprom pgm s.pc) s₁ = some (.ok, s') ∧
        s'.values = s₁.values.checkMask data ∧
        InStep (turn eeprom pgm) Prog.step R N s' (s'.values, k)) :
    InStep (turn eeprom pgm) Prog.step R N s (s.values, .mask data :: k) := by
  refine follows_item hR fun M hM s₁ hsame hpc rand o c hrun => ?_
  obtain ⟨rfl, rfl⟩ := Prod.mk.inj hrun
  obtain ⟨s', hexec, hvalues, hF⟩ := h s₁ hsame hpc rand
  exact ⟨s', hexec, .inr (hvalues ▸ hF.mono hM.le)⟩

/-- From one address the machine follows a program, and then what is to do behind it. The counters
of the program are idle at its start, and there is room for its calls. -/
def FollowsProg (eeprom : UInt16 → UInt8) (pgm : Fin pgmMax)
    (R : State → Values × List Item → Prop) (a : UInt16) (p : Prog) (b : UInt16) : Prop :=
  ∀ N s k, s.pc = a → (∀ d ∈ p.counters, Idle s d) → s.numcalls + p.depth ≤ ledvmMaxCalls →
    (∀ s', s'.pc = b → SameControl s s' →
      InStep (turn eeprom pgm) Prog.step R N s' (s'.values, k)) →
    InStep (turn eeprom pgm) Prog.step R N s (s.values, p.items k)

theorem FollowsProg.seq {b c : UInt16} {q : Prog} (hp : FollowsProg eeprom pgm R a p b)
    (hq : FollowsProg eeprom pgm R b q c) : FollowsProg eeprom pgm R a (.seq p q) c := by
  intro N s k hpc hidle hdepth hk
  have hleft : s.numcalls + p.depth ≤ ledvmMaxCalls :=
    (Nat.add_le_add_left (le_max_left _ _) _).trans hdepth
  have hright : s.numcalls + q.depth ≤ ledvmMaxCalls :=
    (Nat.add_le_add_left (le_max_right _ _) _).trans hdepth
  refine hp N s _ hpc (fun d hd => hidle d (.inl hd)) hleft fun s₁ hpc₁ hsame₁ => ?_
  refine hq N s₁ k hpc₁ (fun d hd => (hidle d (.inr hd)).of_same hsame₁) ?_ fun s₂ hpc₂ hsame₂ => ?_
  · rwa [hsame₁.numcalls]
  · exact hk s₂ hpc₂ (hsame₁.trans hsame₂)

/-- A `call`, its body and the `ret`. -/
theorem FollowsProg.call {r : UInt16} (hR : ∀ s item k, R s (s.values, item :: k))
    (h : code (fetch eeprom pgm a) = 8) (hret : code (fetch eeprom pgm r) = 9)
    (hempty : vmhCheckEmptyInst (fetch eeprom pgm r) = true)
    (hp : FollowsProg eeprom pgm R (target (fetch eeprom pgm a)) p r) :
    FollowsProg eeprom pgm R a (.call (fetch eeprom pgm a 0) p (fetch eeprom pgm r 0)) (a + 1) := by
  rintro N s k rfl hidle hdepth hk
  rw [Prog.depth] at hdepth
  refine follows_mask hR fun s₁ hsame₁ hpc₁ rand => ?_
  have hroom : s₁.numcalls < ledvmMaxCalls := by
    rw [hsame₁.numcalls]
    omega
  refine ⟨_, execInst_call h hroom, rfl, hp N _ _ rfl (fun d hd => ?_) ?_ fun s₂ hpc₂ hsame₂ => ?_⟩
  · have hidle₁ : Idle s₁ d := (hidle d hd).of_same hsame₁
    exact hidle₁
  · change s₁.numcalls + 1 + p.depth ≤ ledvmMaxCalls
    rw [hsame₁.numcalls]
    omega
  · subst hpc₂
    refine follows_mask hR fun s₃ hsame₃ hpc₃ rand => ?_
    have hsame := hsame₂.trans hsame₃
    refine ⟨_, execInst_ret hret hempty hsame.numcalls hroom, rfl, hk _ ?_ (hsame₁.trans ?_)⟩
    · -- the address on the stack is that behind the `call`
      refine (hsame.cstack ⟨s₁.numcalls, hroom⟩ (Nat.lt_succ_self _)).trans ?_
      exact (Function.update_self ..).trans (congrArg (· + 1) hpc₁)
    · refine ⟨hsame.active, hsame.lim, rfl, hsame.crt, hsame.saddr, fun i hi => ?_⟩
      refine (hsame.cstack i (Nat.lt_succ_of_lt hi)).trans (Function.update_of_ne ?_ ..)
      exact fun heq => absurd (congrArg Fin.val heq) hi.ne

section Rounds

variable {r : UInt16} (hR : ∀ s item k, R s (s.values, item :: k))
  (hp : FollowsProg eeprom pgm R a p r) (hcode : code (fetch eeprom pgm r) = 5)
  (hvalid : cntid (fetch eeprom pgm r) < ledvmRepCounters)
  (hother : cntid (fetch eeprom pgm r) ∉ p.counters)

include hR hp

/-- The body of a loop, and the `repeat` at its end. -/
theorem follows_body {item : Item} {next : Values → List Item}
    (hitem : ∀ rand d, item.run rand k d = (.ok, d, next d)) (hpc : s.pc = a)
    (hidle : ∀ d ∈ p.counters, Idle s d) (hdepth : s.numcalls + p.depth ≤ ledvmMaxCalls)
    (h : ∀ M < N, ∀ s₁, SameControl s s₁ → s₁.pc = r → ∀ rand, ∃ s',
      execInst rand (fetch eeprom pgm r) s₁ = some (.ok, s') ∧ s'.values = s₁.values ∧
        InStep (turn eeprom pgm) Prog.step R M s' (s'.values, next s₁.values)) :
    InStep (turn eeprom pgm) Prog.step R N s (s.values, p.items (item :: k)) := by
  refine hp N s _ hpc hidle hdepth fun s₁ hpc₁ hsame₁ => ?_
  subst hpc₁
  refine follows_item hR fun M hM s₂ hsame₂ hpc₂ rand o c hrun => ?_
  rw [hitem] at hrun
  obtain ⟨rfl, rfl⟩ := Prod.mk.inj hrun
  obtain ⟨s', hexec, hvalues, hF⟩ := h M hM s₂ (hsame₁.trans hsame₂) hpc₂ rand
  exact ⟨s', hexec, .inr (hvalues ▸ hF)⟩

include hcode hvalid hother

/-- The rounds that are left when a `repeat` has enabled its counter: the induction is on their
number, which the counter has. -/
theorem follows_rounds {n : ℕ} (hn : n < 2 ^ 16) {s₀ : State}
    (hidle : ∀ d ∈ p.counters, Idle s₀ d) (hdepth : s₀.numcalls + p.depth ≤ ledvmMaxCalls)
    (hk : ∀ s', s'.pc = r + 1 → SameControl s₀ s' →
      InStep (turn eeprom pgm) Prog.step R N s' (s'.values, k))
    (hpc : s.pc = a) (hsame : SameControl s₀ (s.disable ⟨_, hvalid⟩))
    (hactive : s.cntActive.getLsbD (cntid (fetch eeprom pgm r)) = true)
    (hlim : s.cntLim.getLsbD (cntid (fetch eeprom pgm r)) = false)
    (hcrt : s.cntCrt ⟨_, hvalid⟩ = UInt16.ofNat n + 1) (hsaddr : s.cntSaddr ⟨_, hvalid⟩ = a) :
    InStep (turn eeprom pgm) Prog.step R N s
      (s.values, (fun k => p.items (.round :: k))^[n + 1] k) := by
  have hidle₁ : ∀ d ∈ p.counters, Idle s d :=
    idle_of_disable (c := ⟨_, hvalid⟩) hother hidle hsame
  have hdepth₁ : s.numcalls + p.depth ≤ ledvmMaxCalls := hsame.numcalls ▸ hdepth
  induction n generalizing s with
  | zero =>
    refine follows_body hR hp (fun _ _ => rfl) hpc hidle₁ hdepth₁ fun M hM s₁ hsame₁ hpc₁ rand => ?_
    refine ⟨_, execInst_repeat_count hcode hvalid (hsame₁.active ▸ hactive) (hsame₁.lim ▸ hlim)
      ((hsame₁.crt ⟨_, hvalid⟩ hactive).trans hcrt), rfl, ?_⟩
    exact (hk _ (congrArg (· + 1) hpc₁)
      ((hsame.trans hsame₁.disable).count _ (s₁.pc + 1))).mono hM.le
  | succ n ih =>
    rw [Function.iterate_succ_apply']
    refine follows_body hR hp (fun _ _ => rfl) hpc hidle₁ hdepth₁ fun M hM s₁ hsame₁ hpc₁ rand => ?_
    have hne : UInt16.ofNat (n + 1) ≠ 0 := by
      intro heq
      have := congrArg UInt16.toNat heq
      simp at this
      omega
    have hexec : execInst rand _ s₁ = _ := execInst_repeat_count hcode hvalid
      (hsame₁.active ▸ hactive) (hsame₁.lim ▸ hlim) ((hsame₁.crt ⟨_, hvalid⟩ hactive).trans hcrt)
    rw [if_neg hne] at hexec
    have hback : SameControl s₀ _ :=
      (hsame.trans hsame₁.disable).count (UInt16.ofNat (n + 1)) (s₁.cntSaddr ⟨_, hvalid⟩)
    refine ⟨_, hexec, rfl, (ih (by omega) ?_ hback (hsame₁.active ▸ hactive) (hsame₁.lim ▸ hlim)
      ?_ ?_ (idle_of_disable hother hidle hback) (hback.numcalls ▸ hdepth)).mono hM.le⟩
    · exact (hsame₁.saddr ⟨_, hvalid⟩ hactive).trans hsaddr
    · refine (Function.update_self ..).trans ?_
      rw [UInt16.ofNat_add]
      rfl
    · exact (hsame₁.saddr ⟨_, hvalid⟩ hactive).trans hsaddr

/-- A loop with a count. -/
theorem FollowsProg.loop (hstart : repeatAddr (fetch eeprom pgm r) = a)
    (hcnt : repeatCnt (fetch eeprom pgm r) ≠ 0) :
    FollowsProg eeprom pgm R a
      (.loop (cntid (fetch eeprom pgm r)) (repeatCnt (fetch eeprom pgm r)).toNat p) (r + 1) := by
  intro N s k hpc hidle hdepth hk
  have hbody : ∀ d ∈ p.counters, Idle s d := fun d hd => hidle d (.inr hd)
  obtain ⟨n, hn⟩ := Nat.exists_eq_succ_of_ne_zero fun h => hcnt (UInt16.toNat_inj.mp h)
  have hlt : n + 1 < 2 ^ 16 := by
    have h := UInt16.toNat_lt (repeatCnt (fetch eeprom pgm r))
    omega
  rw [hn, Prog.items, Function.iterate_succ_apply']
  refine follows_body hR hp (fun _ _ => rfl) hpc hbody hdepth fun M hM s₁ hsame₁ hpc₁ rand => ?_
  have hidle₁ : Idle s₁ (cntid (fetch eeprom pgm r)) := (hidle _ (.inl rfl)).of_same hsame₁
  refine ⟨_, execInst_repeat_start hcode hvalid hidle₁, rfl, ?_⟩
  refine (follows_rounds hR hp hcode hvalid hother (n.lt_succ_self.trans hlt) hbody hdepth hk
    hstart (hsame₁.trans (.enable hidle₁ _ _)) (enable_bit hvalid) ?_ ?_ ?_).mono hM.le
  · exact (congrArg (BitVec.getLsbD · _) (if_neg hcnt)).trans hidle₁.2
  · refine (Function.update_self ..).trans (UInt16.toNat_inj.mp ?_)
    rw [hn, ← UInt16.ofNat_one, ← UInt16.ofNat_add, UInt16.toNat_ofNat_of_lt' hlt]
  · exact (Function.update_self ..).trans hstart

/-- The rounds of a loop in limit mode. The steps that are left have an end, the rounds need not
have one. -/
theorem follows_limit {s₀ : State} (hidle : ∀ d ∈ p.counters, Idle s₀ d)
    (hdepth : s₀.numcalls + p.depth ≤ ledvmMaxCalls)
    (hk : ∀ s', s'.pc = r + 1 → SameControl s₀ s' →
      InStep (turn eeprom pgm) Prog.step R N s' (s'.values, k))
    (hpc : s.pc = a) (hsame : SameControl s₀ (s.disable ⟨_, hvalid⟩))
    (hactive : s.cntActive.getLsbD (cntid (fetch eeprom pgm r)) = true)
    (hlim : s.cntLim.getLsbD (cntid (fetch eeprom pgm r)) = true)
    (hsaddr : s.cntSaddr ⟨_, hvalid⟩ = a) :
    InStep (turn eeprom pgm) Prog.step R N s (s.values, p.items (.limit p :: k)) := by
  induction N using Nat.strong_induction_on generalizing s with
  | h N ih =>
    refine follows_body hR hp (fun _ _ => rfl) hpc
      (idle_of_disable (c := ⟨_, hvalid⟩) hother hidle hsame) (hsame.numcalls ▸ hdepth)
      fun M hM s₁ hsame₁ hpc₁ rand => ?_
    refine ⟨_, execInst_repeat_limit hcode hvalid (hsame₁.active ▸ hactive)
      (hsame₁.lim ▸ hlim), by split <;> rfl, ?_⟩
    have hback := hsame.trans hsame₁.disable
    by_cases hreached : limitReached s₁ = true
    · rw [if_pos hreached, if_pos (show limitReached s₁.values.state = true from hreached)]
      exact (hk _ (congrArg (· + 1) hpc₁)
        (hback.trans (.put _ (State.values s₁) (s₁.pc + 1)))).mono hM.le
    · rw [if_neg hreached, if_neg (show ¬limitReached s₁.values.state = true from hreached)]
      refine ih M hM (fun s' hpc' hsame' => (hk s' hpc' hsame').mono hM.le) ?_
        (hback.trans (.put _ (State.values s₁) (s₁.cntSaddr ⟨_, hvalid⟩))) (hsame₁.active ▸ hactive)
        (hsame₁.lim ▸ hlim) ?_
      · exact (hsame₁.saddr ⟨_, hvalid⟩ hactive).trans hsaddr
      · exact (hsame₁.saddr ⟨_, hvalid⟩ hactive).trans hsaddr

/-- A loop in limit mode. -/
theorem FollowsProg.limit (hstart : repeatAddr (fetch eeprom pgm r) = a)
    (hcnt : repeatCnt (fetch eeprom pgm r) = 0) :
    FollowsProg eeprom pgm R a (.limit (cntid (fetch eeprom pgm r)) p) (r + 1) := by
  intro N s k hpc hidle hdepth hk
  have hbody : ∀ d ∈ p.counters, Idle s d := fun d hd => hidle d (.inr hd)
  refine follows_body hR hp (fun _ _ => rfl) hpc hbody hdepth fun M hM s₁ hsame₁ hpc₁ rand => ?_
  have hidle₁ : Idle s₁ (cntid (fetch eeprom pgm r)) := (hidle _ (.inl rfl)).of_same hsame₁
  refine ⟨_, execInst_repeat_start hcode hvalid hidle₁, rfl, ?_⟩
  refine (follows_limit hR hp hcode hvalid hother hbody hdepth
    (fun s' hpc' hsame' => (hk s' hpc' hsame').mono hM.le) hstart
    (hsame₁.trans (.enable hidle₁ _ _)) (enable_bit hvalid) ?_ ?_)
  · exact (congrArg (BitVec.getLsbD · _) (if_pos hcnt)).trans (enable_bit hvalid)
  · exact (Function.update_self ..).trans hstart

end Rounds

/-- **The machine follows the program.** The induction is on the way that the program is found in
the instructions. -/
theorem Located.follows (hR : ∀ s item k, R s (s.values, item :: k))
    (h : Located (fetch eeprom pgm) a p b) : FollowsProg eeprom pgm R a p b := by
  induction h with
  | skip => exact fun N s k hpc _ _ hk => hk s hpc (.refl s)
  | inst h =>
    rintro N s k rfl _ _ hk
    exact follows_exec hR h hk
  | jmp h =>
    rintro N s k rfl _ _ hk
    refine follows_mask hR fun s₁ hsame₁ hpc₁ rand => ⟨_, execInst_jmp h s₁, rfl, ?_⟩
    exact hk _ rfl (hsame₁.trans (.put s₁ _ _))
  | seq _ _ ihp ihq => exact ihp.seq ihq
  | loop h hstart hvalid hother hcnt _ ih => exact .loop hR ih h hvalid hother hstart hcnt
  | limit h hstart hvalid hother hcnt _ ih => exact .limit hR ih h hvalid hother hstart hcnt
  | call h hret hempty _ ih => exact .call hR h hret hempty ih

end Follow

/-- A structured program has a step until its end. -/
theorem eq_nil_of_step {d : Values} {t : Turn} (h : Prog.step (d, k) t = none) : k = [] := by
  cases t with
  | tick => exact absurd h nofun
  | run rand =>
    cases k with
    | nil => rfl
    | cons item k =>
      rw [Prog.step] at h
      split at h
      · exact absurd h nofun
      · exact absurd h nofun

/-- A structured program that cannot take all steps has come to its end. -/
theorem ends_of_outputs {ts : List Turn} {d : Values} (h : outputs Prog.step ts (d, k) = none) :
    ∃ ts₁ ts₂ os d', ts = ts₁ ++ ts₂ ∧ outputs Prog.step ts₁ (d, k) = some (os, d', []) := by
  induction ts generalizing d k with
  | nil => exact absurd h nofun
  | cons t ts ih =>
    rw [outputs] at h
    cases hstep : Prog.step (d, k) t with
    | none =>
      obtain rfl := eq_nil_of_step hstep
      exact ⟨[], t :: ts, [], d, rfl, rfl⟩
    | some r =>
      rw [hstep, Option.bind_some, Option.map_eq_none_iff] at h
      obtain ⟨ts₁, ts₂, os, d', rfl, hts₁⟩ := ih h
      refine ⟨t :: ts₁, ts₂, r.1 :: os, d', rfl, ?_⟩
      rw [outputs, hstep, Option.bind_some, hts₁]
      rfl

/-- **A run of the machine is a run of the structured program.** They have the same results and the
same values. At its end the machine is behind the program, no counter is active, and the stack is
as before. Only a program that has come to its end has no more steps. -/
theorem run_structured {eeprom : UInt16 → UInt8} {pgm : Fin pgmMax} {s : State} {p : Prog}
    {b : UInt16} (h : Located (fetch eeprom pgm) s.pc p b) (hactive : s.cntActive = 0)
    (hlim : s.cntLim = 0) (hdepth : s.numcalls + p.depth ≤ ledvmMaxCalls) (ts : List Turn) :
    (∀ os d k, outputs Prog.step ts (s.values, p.items []) = some (os, d, k) →
      ∃ s', outputs (turn eeprom pgm) ts s = some (os, s') ∧ s'.values = d ∧
        (k = [] → s'.pc = b ∧ s'.cntActive = 0 ∧ s'.cntLim = 0 ∧ s'.numcalls = s.numcalls ∧
          ∀ i : Fin ledvmMaxCalls, i < s.numcalls → s'.cstack i = s.cstack i)) ∧
    (outputs Prog.step ts (s.values, p.items []) = none →
      ∃ ts₁ ts₂ os d, ts = ts₁ ++ ts₂ ∧
        outputs Prog.step ts₁ (s.values, p.items []) = some (os, d, [])) := by
  refine ⟨fun os d k hrun => ?_, ends_of_outputs⟩
  let R (s' : State) (c : Values × List Item) : Prop :=
    s'.values = c.1 ∧ (c.2 = [] → s'.pc = b ∧ SameControl s s')
  have hfollows : InStep (turn eeprom pgm) Prog.step R ts.length s (s.values, p.items []) := by
    refine h.follows (fun s item k => ⟨rfl, nofun⟩) _ s [] rfl (fun c _ => ?_) hdepth ?_
    · rw [Idle, hactive, hlim]
      exact ⟨BitVec.getLsbD_zero, BitVec.getLsbD_zero⟩
    · intro s' hpc hsame
      refine follows_awake (fun s₁ hsame₁ hpc₁ => ⟨rfl, fun _ => ?_⟩)
        fun _ _ _ _ _ _ _ _ hnext => absurd hnext nofun
      exact ⟨hpc₁.trans hpc, hsame.trans hsame₁⟩
  obtain ⟨s', hs', hvalues, hend⟩ := hfollows.outputs hrun
  refine ⟨s', hs', hvalues, fun hk => ?_⟩
  obtain ⟨hpc, hsame⟩ := hend hk
  exact ⟨hpc, hsame.active.trans hactive, hsame.lim.trans hlim, hsame.numcalls, hsame.cstack⟩

/-- `addrgb`, a `repeat` in which it is done twice, a `call` of a `ret`, and a `repeat` in which all
of this is done three times. -/
def nestedLoops : UInt16 → UInt8 :=
  (firstProgram [0xA0, 0x01, 0x02, 0x03, 0x50, 0x00, 0x10, 0x00, 0x80, 0x00, 0x00, 0x04,
    0x51, 0x00, 0x20, 0x00, 0x90, 0xAA, 0x55, 0xAA]).eeprom

/-- The structure of `nestedLoops`. -/
def nestedLoopsProg : Prog :=
  let inst := fetch nestedLoops 0
  .loop 1 2 (.seq (.loop 0 1 (.inst (inst 0))) (.call (inst 2 0) .skip (inst 4 0)))

theorem located_nestedLoops : Located (fetch nestedLoops 0) 0 nestedLoopsProg 4 := by
  obtain ⟨hinst, h₁, h₃⟩ : ¬Directs (fetch nestedLoops 0 0) ∧
      (code (fetch nestedLoops 0 1) = 5 ∧ repeatAddr (fetch nestedLoops 0 1) = 0 ∧
        cntid (fetch nestedLoops 0 1) = 0 ∧ repeatCnt (fetch nestedLoops 0 1) ≠ 0) ∧
      code (fetch nestedLoops 0 3) = 5 ∧ repeatAddr (fetch nestedLoops 0 3) = 0 ∧
        cntid (fetch nestedLoops 0 3) = 1 ∧ repeatCnt (fetch nestedLoops 0 3) ≠ 0 := by
    decide +kernel
  obtain ⟨hcall, hret, hempty⟩ : code (fetch nestedLoops 0 2) = 8 ∧
      code (fetch nestedLoops 0 4) = 9 ∧ vmhCheckEmptyInst (fetch nestedLoops 0 4) = true := by
    decide +kernel
  have hinner : Located (fetch nestedLoops 0) 0 (.loop 0 1 (.inst (fetch nestedLoops 0 0))) 2 :=
    .loop (r := 1) h₁.1 h₁.2.1 (h₁.2.2.1 ▸ Nat.zero_lt_succ 7) (Set.notMem_empty _) h₁.2.2.2
      (.inst hinst)
  refine .loop (r := 3) h₃.1 h₃.2.1 (by rw [h₃.2.2.1]; decide) ?_ h₃.2.2.2
    (.seq hinner (.call (r := 4) hcall hret hempty .skip))
  rw [h₃.2.2.1]
  simp [Prog.counters]

theorem run_structured_nestedLoops : ∃ os s',
    outputs (turn nestedLoops 0) (List.replicate 21 (.run 0)) (ledvmInit resetState) =
      some (os, s') ∧ s'.v = ![6, 12, 18] ∧ s'.pc = 4 ∧ s'.cntActive = 0 := by
  have hrun : (outputs Prog.step (List.replicate 21 (.run 0))
      ((ledvmInit resetState).values, nestedLoopsProg.items [])).map
        (fun r => (r.2.1.v, r.2.2.isEmpty)) = some (![6, 12, 18], true) := by decide +kernel
  obtain ⟨⟨os, d, k⟩, hout, heq⟩ := Option.map_eq_some_iff.mp hrun
  obtain ⟨hv, hk⟩ := Prod.mk.inj heq
  obtain ⟨s', hs', hvalues, hend⟩ := (run_structured located_nestedLoops rfl rfl (by decide +kernel)
    (List.replicate 21 (.run 0))).1 os d k hout
  obtain ⟨hpc, hactive, -⟩ := hend (List.isEmpty_iff.mp hk)
  exact ⟨os, s', hs', (congrArg Values.v hvalues).trans hv, hpc, hactive⟩

end Machine

end ELuaBrain.Lights
