import ELuaBrain.Lights.Upload

/-!
# Switching programs of the lights

The main loop with the virtual machine that it runs. The packets of the radio, the buttons and the
end of a program change the program that is executed, and an upload can change its instructions.
The machine has to start again then.

## Main definitions

* `Lamp`, `step` : the variables of `main.c` and the machine, and what a round of the loop does.
* `Calm` : the rounds after which the machine starts again.

## Main results

* `step_inv` : what a calm step keeps.
* `switch_restarts` : in calm runs a program that is new starts from its beginning.
-/

namespace ELuaBrain.Lights.Switching

/-- The lights. `pending` says that the program that is executed has changed, or has been uploaded
again, since an instruction was executed. -/
structure Lamp where
  main : Main
  vm : State
  pending : Bool

/-- What can happen: the timer interrupt, and a round of the loop. -/
inductive Event where
  | tick
  | round (rand : Fin 3 → ℕ) (packet : Option Inst) (button : Option Button)

/-- What `ledvm_run` is called with. -/
def Lamp.env (l : Lamp) (crt : ℕ) (rand : Fin 3 → ℕ) : Env where
  eeprom address := l.main.ee address.toNat
  pgmCrt := some (Fin.ofNat pgmMax crt)
  rand := rand

/-- The machine after `ledvm_run` has returned. -/
def returned (res : LedvmErr) (vm : State) : State :=
  match res with
  | .ok => vm
  | .finished => ledvmInit vm
  | _ => { vm with shown := 0 }

/-- The first part of a round: an instruction of the program. -/
def execPart (l : Lamp) (rand : Fin 3 → ℕ) : Option Lamp :=
  match l.main.pgmCrt with
  | none => some l
  | some crt => (ledvmRun (l.env crt rand) l.vm).map fun r =>
      { main := runPart l.main r.1
        vm := returned r.1 r.2
        pending := (l.pending && decide (Waits l.vm)) ||
          decide ((runPart l.main r.1).pgmCrt ≠ l.main.pgmCrt) }

/-- A packet with which something is written to the slot of the program that is executed. -/
def Rewrites (m : Main) (data : Inst) : Prop :=
  m.pgmCrt = some m.pgmRecvSlot.toNat ∧
    (radioPart m data).2.any (fun w => w matches .ee ..) = true

instance decidableRewrites (m : Main) (data : Inst) : Decidable (Rewrites m data) :=
  inferInstanceAs (Decidable (_ ∧ _))

/-- The machine after a packet. -/
def radioVm (m : Main) (data : Inst) (vm : State) : State :=
  if data 0 = cmdStartWrite then vm
  else if data 0 = cmdEndWrite then vm
  else if data 0 = cmdRun then
    if m.pgmMask.getLsbD (data 3).toNat then ledvmInit vm else vm
  else if data 0 = cmdRaw then { vm with shown := fun ch => (operand data ch).toInt8 }
  else if data 0 = cmdDel then
    if m.pgmCrt = some (data 3).toNat then ledvmInit vm else vm
  else vm

/-- The second part of a round, with a packet. -/
def receive (l : Lamp) (data : Inst) : Lamp where
  main := (radioPart l.main data).1.writeAll (radioPart l.main data).2
  vm := radioVm l.main data l.vm
  pending := l.pending || decide ((radioPart l.main data).1.pgmCrt ≠ l.main.pgmCrt) ||
    decide (Rewrites l.main data)

/-- The machine after a button. -/
def buttonVm (m : Main) (button : Option Button) (vm : State) : State :=
  match m.pgmCrt, button with
  | some _, some .next => ledvmInit vm
  | some _, some .prev => ledvmInit vm
  | _, _ => vm

/-- The third part of a round. -/
def press (l : Lamp) (button : Option Button) : Lamp where
  main := buttonPart l.main button
  vm := buttonVm l.main button l.vm
  pending := l.pending || decide ((buttonPart l.main button).pgmCrt ≠ l.main.pgmCrt)

/-- The second part of a round, with a packet or with none. -/
def receiveAny (l : Lamp) : Option Inst → Lamp
  | none => l
  | some data => receive l data

/-- A step of the lights. -/
def step (l : Lamp) : Event → Option Lamp
  | .tick => (Lights.step l.vm .tick).map fun vm => { l with vm }
  | .round rand packet button =>
      (execPart l rand).map fun l => press (receiveAny l packet) button

/-- The lights when they are turned on. -/
def boot (m : Main) (vm : State) : Lamp where
  main := powerUp m
  vm := ledvmInit vm
  pending := true

/-- The machine is as `ledvm_init` leaves it. -/
def Initial (vm : State) : Prop := vm = ledvmInit vm

instance decidableInitial (vm : State) : Decidable (Initial vm) :=
  inferInstanceAs (Decidable (_ = _))

/-- The next call of `ledvm_run` executes an instruction. -/
def Executes (l : Lamp) : Prop := l.main.pgmCrt ≠ none ∧ ¬Waits l.vm

instance decidableExecutes (l : Lamp) : Decidable (Executes l) :=
  inferInstanceAs (Decidable (_ ∧ _))

/-- A packet after which the machine starts again, if it has to: no upload ends while no program is
executed, and none is written over the program that is executed. The machine may be initial. -/
def CalmPacket (l : Lamp) (data : Inst) : Prop :=
  Initial l.vm ∨ ((data 0 = cmdEndWrite → l.main.pgmCrt ≠ none) ∧ ¬Rewrites l.main data)

instance decidableCalmPacket (l : Lamp) (data : Inst) : Decidable (CalmPacket l data) :=
  inferInstanceAs (Decidable (_ ∨ _))

/-- A step with no packet or a calm one. -/
def Calm (l : Lamp) : Event → Prop
  | .tick => True
  | .round rand packet _ => ∀ l₁ ∈ execPart l rand, ∀ data ∈ packet, CalmPacket l₁ data

instance decidableCalm (l : Lamp) : (e : Event) → Decidable (Calm l e)
  | .tick => inferInstanceAs (Decidable True)
  | .round rand packet _ =>
      letI (l₁ : Lamp) : Decidable (∀ data ∈ packet, CalmPacket l₁ data) :=
        Option.decidableForallMem packet
      Option.decidableForallMem (execPart l rand)

/-! ### What a step keeps -/

/-- A program that is new will start from its beginning. -/
def Inv (l : Lamp) : Prop := l.pending = true → l.main.pgmCrt ≠ none → Initial l.vm

section Steps

variable {l l' : Lamp} {m : Main} {vm : State} {data : Inst} {rand : Fin 3 → ℕ}

theorem initial_init (vm : State) : Initial (ledvmInit vm) := rfl

/-- The colours that are shown and the delay counter are not the machine's. -/
theorem Initial.congr {shown : Fin 3 → Int8} {delayCnt : UInt32} (h : Initial vm) :
    Initial { vm with shown, delayCnt } := by
  rw [Initial] at h ⊢
  rw [h]
  rfl

theorem writeAll_pgmCrt (m : Main) (ws : List Write) : (m.writeAll ws).pgmCrt = m.pgmCrt := by
  induction ws generalizing m with
  | nil => rfl
  | cons w ws ih =>
    refine (ih (m.write w)).trans ?_
    cases w <;> rfl

/-- A part of a round keeps the invariant, if the machine is initial after it, or nothing is new
and the machine is the same. -/
theorem Inv.part (h : Inv l)
    (hpart : l'.main.pgmCrt = none ∨ Initial l'.vm ∨
      l'.main.pgmCrt = l.main.pgmCrt ∧ l'.vm = l.vm ∧ l'.pending = l.pending) : Inv l' := by
  intro hpending hcrt
  obtain hnone | hinitial | ⟨hmain, hvm, hsame⟩ := hpart
  · exact absurd hnone hcrt
  · exact hinitial
  · rw [hvm]
    exact h (hsame ▸ hpending) (hmain ▸ hcrt)

theorem runPart_ok (m : Main) : runPart m .ok = m := by
  unfold runPart
  cases m.pgmCrt <;> rfl

theorem runPart_error {res : LedvmErr} (hok : res ≠ .ok) (hfinished : res ≠ .finished) :
    (runPart m res).pgmCrt = none := by
  unfold runPart
  split
  · assumption
  · exact absurd rfl hok
  · exact absurd rfl hfinished
  · rfl

theorem execPart_inv (h : Inv l) (hexec : execPart l rand = some l') : Inv l' := by
  cases hcrt : l.main.pgmCrt with
  | none =>
    rw [execPart, hcrt] at hexec
    exact Option.some.inj hexec ▸ h
  | some crt =>
    simp only [execPart, hcrt] at hexec
    obtain ⟨⟨res, vm⟩, hrun, rfl⟩ := Option.map_eq_some_iff.mp hexec
    by_cases hwaits : Waits l.vm
    · rw [ledvmRun, if_pos hwaits] at hrun
      obtain ⟨rfl, rfl⟩ := Prod.mk.inj (Option.some.inj hrun)
      refine h.part (.inr (.inr ⟨congrArg Main.pgmCrt (runPart_ok l.main), rfl, ?_⟩))
      simp [runPart_ok, hcrt, hwaits]
    · by_cases hok : res = .ok
      · -- an instruction has been executed, and nothing is new
        subst hok
        intro hpending
        simp [runPart_ok, hcrt, hwaits] at hpending
      · by_cases hfinished : res = .finished
        · subst hfinished
          exact h.part (.inr (.inl (initial_init vm)))
        · exact h.part (.inl (runPart_error hok hfinished))

/-- What a packet does with the program that is executed, and with the machine. -/
theorem radioPart_cases (m : Main) (data : Inst) (vm : State) :
    (radioPart m data).1.pgmCrt = none ∨ Initial (radioVm m data vm) ∨
      data 0 = cmdEndWrite ∧ m.pgmCrt = none ∧ radioVm m data vm = vm ∨
      (radioPart m data).1.pgmCrt = m.pgmCrt ∧ radioVm m data vm = vm := by
  rw [radioPart, radioVm]
  by_cases hstart : data 0 = cmdStartWrite
  · rw [if_pos hstart, if_pos hstart]
    dsimp only
    split
    · exact .inl rfl
    · exact .inr (.inr (.inr ⟨rfl, rfl⟩))
  rw [if_neg hstart, if_neg hstart]
  by_cases hend : data 0 = cmdEndWrite
  · rw [if_pos hend, if_pos hend]
    obtain ⟨ws, heq, -⟩ := pgmSetProgramState_eq
      (m := (pgmRecvToFlash { m with pgmRecvOn := false }).1) m.pgmRecvSlot true
    have hslot : (pgmRecvToFlash { m with pgmRecvOn := false }).1.pgmRecvSlot = m.pgmRecvSlot := rfl
    simp only [hslot, heq]
    cases hcrt : m.pgmCrt with
    | none => exact .inr (.inr (.inl ⟨hend, rfl, trivial⟩))
    | some crt =>
      refine .inr (.inr (.inr ⟨?_, trivial⟩))
      simp [pgmRecvToFlash]
  rw [if_neg hend, if_neg hend]
  by_cases hrun : data 0 = cmdRun
  · rw [if_pos hrun, if_pos hrun]
    split
    · exact .inr (.inl (initial_init vm))
    · exact .inr (.inr (.inr ⟨rfl, rfl⟩))
  rw [if_neg hrun, if_neg hrun]
  by_cases hraw : data 0 = cmdRaw
  · rw [if_pos hraw]
    exact .inl rfl
  rw [if_neg hraw, if_neg hraw]
  by_cases hdel : data 0 = cmdDel
  · rw [if_pos hdel, if_pos hdel]
    obtain ⟨ws, heq, -⟩ := pgmSetProgramState_eq (m := m) (data 3) false
    simp only [heq]
    split
    · exact .inr (.inl (initial_init vm))
    · exact .inr (.inr (.inr ⟨rfl, rfl⟩))
  rw [if_neg hdel, if_neg hdel]
  refine .inr (.inr (.inr ⟨?_, rfl⟩))
  split
  · dsimp only
    split
    · rfl
    · rfl
  · rfl

theorem receive_inv (h : Inv l) (hcalm : CalmPacket l data) : Inv (receive l data) := by
  have hcrt : (receive l data).main.pgmCrt = (radioPart l.main data).1.pgmCrt :=
    writeAll_pgmCrt _ _
  obtain hnone | hinit | ⟨hend, hidle, hvm⟩ | ⟨hsame, hvm⟩ := radioPart_cases l.main data l.vm
  · exact h.part (.inl (hcrt.trans hnone))
  · exact h.part (.inr (.inl hinit))
  · obtain hinitial | ⟨hrunning, -⟩ := hcalm
    · exact h.part (.inr (.inl ((congrArg Initial hvm).mpr hinitial)))
    · exact absurd hidle (hrunning hend)
  · obtain hinitial | ⟨-, hkept⟩ := hcalm
    · exact h.part (.inr (.inl ((congrArg Initial hvm).mpr hinitial)))
    · refine h.part (.inr (.inr ⟨hcrt.trans hsame, hvm, ?_⟩))
      simp [receive, hsame, hkept]

theorem press_inv (h : Inv l) (button : Option Button) : Inv (press l button) := by
  cases hcrt : l.main.pgmCrt with
  | none =>
    refine h.part (.inl ?_)
    change (buttonPart l.main button).pgmCrt = none
    unfold buttonPart
    rw [hcrt]
    exact hcrt
  | some crt =>
    have hvm : buttonVm l.main button l.vm =
        if button = some .next ∨ button = some .prev then ledvmInit l.vm else l.vm := by
      unfold buttonVm
      rw [hcrt]
      obtain _ | (_ | _ | _) := button <;> rfl
    by_cases hswitch : button = some .next ∨ button = some .prev
    · refine h.part (.inr (.inl ?_))
      change Initial (buttonVm l.main button l.vm)
      rw [hvm, if_pos hswitch]
      exact initial_init l.vm
    · have hmain : (buttonPart l.main button).pgmCrt = l.main.pgmCrt := by
        unfold buttonPart
        rw [hcrt]
        obtain _ | (_ | _ | _) := button
        · exact hcrt
        · exact absurd (.inl rfl) hswitch
        · exact absurd (.inr rfl) hswitch
        · rfl
      refine h.part (.inr (.inr ⟨hmain, hvm.trans (if_neg hswitch), ?_⟩))
      simp [press, hmain]

/-- **What a step keeps.** In a calm step a program that is new will start from its beginning. -/
theorem step_inv {e : Event} (h : Inv l) (hcalm : Calm l e) (hstep : step l e = some l') :
    Inv l' := by
  cases e with
  | tick =>
    obtain rfl := Option.some.inj hstep
    exact fun hpending hcrt => (h hpending hcrt).congr
  | round rand packet button =>
    obtain ⟨l₁, hexec, rfl⟩ := Option.map_eq_some_iff.mp hstep
    have h₁ : Inv l₁ := execPart_inv h hexec
    refine press_inv ?_ button
    cases packet with
    | none => exact h₁
    | some data => exact receive_inv h₁ (hcalm l₁ hexec data rfl)

end Steps

/-! ### Runs -/

/-- **Switching programs.** In a run whose steps are calm, when the program that is executed has
changed or was uploaded again, the next instruction that is executed is its first one, and the
machine is as `ledvm_init` leaves it. -/
theorem switch_restarts (m : Main) (vm : State) {l : Lamp}
    (h : Reach step Calm (boot m vm) l) (hpending : l.pending = true) (hexec : Executes l) :
    l.vm.pc = 0 ∧ Initial l.vm := by
  have hinv : Inv l := Reach.invariant (fun _ _ => initial_init vm)
    (fun l e l' hl hcalm hstep => step_inv hl hcalm hstep) h
  have hinitial := hinv hpending hexec.1
  exact ⟨congrArg State.pc hinitial, hinitial⟩

/-- A round with a packet. -/
def radio (data : Inst) : Event := .round 0 (some data) none

/-- The upload of a `nop`, and of a `jmp` back to it, to a slot. -/
def uploadTo (slot : UInt8) : List Event :=
  [radio ![0xFF, 0, 0, slot], radio ![0x00, 0xAA, 0x55, 0xAA], radio ![0xB0, 0, 0, 0],
    radio ![0xFE, 0, 0, 0]]

/-- The lights with a blank EEPROM. -/
def blank : Lamp := boot ⟨0, none, false, 0, 0, [], false, fun _ => 0, 0xFF⟩ resetState

/-- Two programs, and the command to run the second one while the first one is executed. -/
def runSecond : List Event :=
  uploadTo 0 ++ uploadTo 1 ++ [radio ![0xFD, 0, 0, 1]]

theorem runSecond_run : (runAll (guarded step Calm) runSecond blank).isSome := by
  decide +kernel

theorem switch_restarts_runSecond : ∃ l, Reach step Calm blank l ∧ l.main.pgmCrt = some 1 ∧
    l.vm.pc = 0 ∧ Initial l.vm :=
  ⟨_, reach_get _ _ _ runSecond_run, by decide +kernel,
    switch_restarts _ _ (reach_get _ _ _ runSecond_run) (by decide +kernel) (by decide +kernel)⟩

/-- The program that is executed is uploaded again, and goes on with its second instruction. -/
theorem not_switch_restarts : ¬∀ (m : Main) (vm : State) (l : Lamp),
    Reach step (fun _ _ => True) (boot m vm) l → l.pending = true → Executes l →
      l.vm.pc = 0 ∧ Initial l.vm := by
  intro hall
  have hrun : ((runAll (guarded step fun _ _ => True) (uploadTo 0 ++ uploadTo 0) blank).map
      fun l => decide (l.pending = true ∧ Executes l ∧ l.vm.pc = 1)) = some true := by
    decide +kernel
  obtain ⟨l, hl, hbad⟩ := Option.map_eq_some_iff.mp hrun
  obtain ⟨hpending, hexec, hpc⟩ := of_decide_eq_true hbad
  have hstart := (hall _ _ l (reach_of_runAll hl) hpending hexec).1
  rw [hpc] at hstart
  exact absurd hstart (by decide)

end ELuaBrain.Lights.Switching
