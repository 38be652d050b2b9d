import ELuaBrain.System.Reach
import Mathlib.Algebra.Order.Ring.Nat
import Mathlib.Data.List.Basic
import Mathlib.Logic.Function.Basic

/-!
# The virtual timers

The virtual timers of `common_tmr.c`, with match interrupts. The callback of the platform's timer
may run between any two statements of a call, and a call that waits goes on after it. Timers are
numbered from `0`, that is, without `VTMR_FIRST_ID`.

What a timer should do is said by `Timer`, which counts the ticks that are left.

## Main definitions

* `State`, `cmnVirtualTimerCb`, `Stmt.exec`, `Call.stmts` : the code.
* `Timer`, `Timer.tick` : what a timer should do.
* `Sys.step` : the code, with what should happen.
* `Careful` : what has to be avoided for a timer.

## Main results

* `Matches.step` : one event.
* `behaves_of_reach` : every run.
-/

namespace ELuaBrain.Timers

variable {n : ℕ}

/-! ### The code -/

/-- The statements of a call, one after the other. -/
inductive Stmt (n : ℕ) where
  /-- `vtmr_period_limit[ id ] = final`. -/
  | setLimit (id : Fin n) (final : UInt32)
  /-- `vtmr_int_periodic_flag` is set or cleared. -/
  | setPeriodic (id : Fin n) (periodic : Bool)
  /-- `vtmr_int_flag` is cleared. -/
  | clearFlag (id : Fin n)
  /-- `vtmr_reset_idx = ( s8 )id`. -/
  | setReset (id : Fin n)
  /-- `while( vtmr_reset_idx != -1 )`. -/
  | waitReset
  /-- `vtmr_int_enabled` is set or cleared. -/
  | setEnabled (id : Fin n) (enabled : Bool)
  /-- `while( vtmr_counters[ id ] < final )`. -/
  | waitCount (id : Fin n) (final : UInt32)

/-- The static variables, the calls of `elua_int_add`, and the statements of the call that runs. The
bits of an array are given by the timer. -/
structure State (n : ℕ) where
  counters : Fin n → UInt32 := fun _ => 0
  resetIdx : ℤ := -1
  periodLimit : Fin n → UInt32 := fun _ => 0
  periodic : Fin n → Bool := fun _ => false
  enabled : Fin n → Bool := fun _ => false
  flag : Fin n → Bool := fun _ => false
  added : List (Fin n) := []
  todo : List (Stmt n) := []

section Code

variable (s : State n) (i : Fin n)

/-- The counter has reached the limit once it is incremented. -/
def State.hit : Bool := s.periodLimit i ≤ s.counters i + 1

/-- The loop of `cmn_virtual_timer_cb`. -/
def countAll : State n :=
  { s with
    counters := fun i => if s.hit i ∧ s.periodic i then 0 else s.counters i + 1
    flag := fun i => s.flag i || s.hit i
    enabled := fun i => if s.hit i ∧ s.periodic i = false then false else s.enabled i
    added := s.added ++ (List.finRange n).filter fun i => s.hit i && s.enabled i }

/-- `cmn_virtual_timer_cb`. There is no result if the reset index is not the index of a counter. -/
def cmnVirtualTimerCb : Option (State n) :=
  if s.resetIdx ≠ -1 then
    if h : 0 ≤ s.resetIdx ∧ s.resetIdx.toNat < n then
      some { countAll s with
        counters := Function.update (countAll s).counters ⟨s.resetIdx.toNat, h.2⟩ 0
        resetIdx := -1 }
    else none
  else some (countAll s)

/-- `( s8 )id`. -/
def toS8 (id : ℕ) : ℤ := if id % 256 < 128 then (id % 256 : ℕ) else (id % 256 : ℕ) - 256

/-- A statement, if it does not wait. -/
def Stmt.exec : Stmt n → Option (State n)
  | .setLimit id final => some { s with periodLimit := Function.update s.periodLimit id final }
  | .setPeriodic id periodic => some { s with periodic := Function.update s.periodic id periodic }
  | .clearFlag id => some { s with flag := Function.update s.flag id false }
  | .setReset id => some { s with resetIdx := toS8 id }
  | .waitReset => if s.resetIdx ≠ -1 then none else some s
  | .setEnabled id enabled => some { s with enabled := Function.update s.enabled id enabled }
  | .waitCount id final => if s.counters id < final then none else some s

end Code

/-- The calls that change something. -/
inductive Call (n : ℕ) where
  /-- `platform_timer_op` with `PLATFORM_TIMER_OP_START`. -/
  | start (id : Fin n)
  /-- `platform_timer_delay`. -/
  | delay (id : Fin n) (delayUs : UInt32)
  | setMatchInt (id : Fin n) (periodUs : UInt32) (oneShot : Bool)
  | intGetFlag (id : Fin n) (clear : Bool)
  | intSetStatus (id : Fin n) (status : Bool)

/-- The ticks of a time in microseconds. -/
def ticks (freq : ℕ) (us : UInt32) : ℕ := us.toNat * freq / 1000000

/-- `final`. -/
def final (freq : ℕ) (us : UInt32) : UInt32 := UInt32.ofNat (ticks freq us)

/-- `vtmr_reset_timer`. -/
def resetTimer (id : Fin n) : List (Stmt n) := [.setReset id, .waitReset]

/-- `vtmr_set_match_int` for a time that is neither zero nor too short. -/
def armTimer (id : Fin n) (final : UInt32) (oneShot : Bool) : List (Stmt n) :=
  [.setLimit id final, .setPeriodic id (!oneShot), .clearFlag id] ++ resetTimer id ++
    [.setEnabled id true]

/-- The statements of a call. -/
def Call.stmts (freq : ℕ) : Call n → List (Stmt n)
  | .start id => resetTimer id
  | .delay id delayUs => resetTimer id ++ [.waitCount id (final freq delayUs)]
  | .setMatchInt id periodUs oneShot =>
      if periodUs = 0 then [.setEnabled id false, .clearFlag id]
      else if final freq periodUs = 0 then []
      else armTimer id (final freq periodUs) oneShot
  | .intGetFlag id clear => if clear then [.clearFlag id] else []
  | .intSetStatus id status => [.setEnabled id status]

/-! ### What a timer should do -/

/-- What a timer is used for. -/
inductive Mode where
  /-- The timer was never armed, or disarmed. -/
  | free
  /-- It is armed at the next tick after a reset was asked for. -/
  | arming (ticks : ℕ) (oneShot : Bool)
  /-- The flag is raised when no ticks are left. -/
  | oneShot (left : ℕ)
  /-- It was armed once, and the flag was raised. -/
  | expired
  | periodic (ticks left : ℕ)

/-- A timer. Its ticks are counted since it was last started, by a call or at the end of a period.
-/
structure Timer where
  mode : Mode := .free
  count : ℕ := 0
  flag : Bool := false
  /-- It starts at the next tick. -/
  restart : Bool := false
  /-- The ticks that the last delay asked for. -/
  wanted : ℕ := 0

/-- The timer is armed. -/
def Mode.Armed : Mode → Prop
  | .oneShot _ => True
  | .periodic _ _ => True
  | _ => False

/-- One more tick is counted, or the timer starts. -/
def Timer.counted (t : Timer) : Timer :=
  { t with count := if t.restart then 0 else t.count + 1, restart := false }

/-- A tick. -/
def Timer.tick (t : Timer) : Timer :=
  match t.mode with
  | .free => t.counted
  | .arming ticks once =>
      if t.restart then { t.counted with mode := if once then .oneShot ticks else .periodic ticks ticks }
      else t.counted
  | .oneShot left =>
      if left = 1 then { t.counted with mode := .expired, flag := true }
      else { t.counted with mode := .oneShot (left - 1) }
  | .expired => t.counted
  | .periodic ticks left =>
      if left = 1 then { t.counted with mode := .periodic ticks ticks, flag := true, count := 0 }
      else { t.counted with mode := .periodic ticks (left - 1) }

/-- What a call does to the use of its timer. -/
def Call.use (freq : ℕ) (c : Call n) (i : Fin n) (t : Timer) : Timer :=
  match c with
  | .setMatchInt id periodUs oneShot =>
      if id = i then
        if periodUs = 0 then { t with mode := .free }
        else if ticks freq periodUs = 0 then t
        else { t with mode := .arming (ticks freq periodUs) oneShot }
      else t
  | .delay id delayUs => if id = i then { t with wanted := ticks freq delayUs } else t
  | _ => t

/-- What a statement does to a timer. -/
def Stmt.use (st : Stmt n) (i : Fin n) (t : Timer) : Timer :=
  match st with
  | .clearFlag id => if id = i then { t with flag := false } else t
  | .setReset id => if id = i then { t with restart := true } else t
  | _ => t

/-! ### Runs -/

/-- The code, and what the timers should do. -/
structure Sys (n : ℕ) where
  state : State n := {}
  timer : Fin n → Timer := fun _ => {}

/-- What may happen. -/
inductive Event (n : ℕ) where
  | tick
  | call (c : Call n)
  /-- The call that runs goes on. -/
  | stmt

/-- One event. -/
def Sys.step (freq : ℕ) (y : Sys n) : Event n → Option (Sys n)
  | .tick => (cmnVirtualTimerCb y.state).map fun state => ⟨state, fun i => (y.timer i).tick⟩
  | .call c =>
      match y.state.todo with
      | [] => some ⟨{ y.state with todo := c.stmts freq }, fun i => c.use freq i (y.timer i)⟩
      | _ :: _ => none
  | .stmt =>
      match y.state.todo with
      | [] => none
      | st :: todo =>
          (st.exec y.state).map fun state =>
            ⟨{ state with todo }, fun i => st.use i (y.timer i)⟩

/-- What has to be avoided for the timer `i`. A tick does not find the counter at a limit while the
timer is not armed, where the flag would be raised or the counter would be cleared. An armed timer
is not started. Timers from 128 on are not reset, and the ticks that are asked for have 32 bits. -/
def Careful (freq : ℕ) (i : Fin n) (y : Sys n) : Event n → Prop
  | .tick =>
      y.state.hit i →
        match (y.timer i).mode with
        | .free => y.state.flag i = true ∧ y.state.periodic i = false
        | .expired => y.state.flag i = true ∧ y.state.periodic i = false
        | .arming _ _ => y.state.flag i = true
        | _ => True
  | .call (.start id) => id.val < 128 ∧ (id = i → ¬ (y.timer i).mode.Armed)
  | .call (.delay id delayUs) =>
      id.val < 128 ∧ (id = i → ¬ (y.timer i).mode.Armed ∧ ticks freq delayUs < 2 ^ 32)
  | .call (.setMatchInt id periodUs _) =>
      (final freq periodUs ≠ 0 → id.val < 128) ∧ (id = i → ticks freq periodUs < 2 ^ 32)
  | _ => True

/-- The flag of the timer `i` is raised when it should be, its counter counts the ticks since the
last start while it is not armed, and a delay of such a timer ends after the ticks that were asked
for. No tick writes outside of the counters. -/
structure Behaves (i : Fin n) (y : Sys n) : Prop where
  flag_eq : y.state.flag i = (y.timer i).flag
  counter_eq : (y.timer i).mode = .free →
    (y.state.counters i).toNat = (y.timer i).count % 2 ^ 32
  delay : ∀ final todo, y.state.todo = .waitCount i final :: todo → (y.timer i).mode = .free →
    (y.timer i).count < 2 ^ 32 →
      ((Stmt.exec y.state (.waitCount i final)).isSome ↔ (y.timer i).wanted ≤ (y.timer i).count)
  tick : (cmnVirtualTimerCb y.state).isSome

/-- The statement concerns the limit or the counter of the timer `i`. -/
def Stmt.Touches (i : Fin n) : Stmt n → Prop
  | .setLimit id _ => id = i
  | .setPeriodic id _ => id = i
  | .setReset id => id = i
  | _ => False

/-- How a mode is stored. While a timer is being armed, the statements that were executed have set
its limit and its kind. -/
def Mode.Stored (i : Fin n) (y : Sys n) : Mode → Prop
  | .arming ticks once =>
      ticks ≠ 0 ∧ ticks < 2 ^ 32 ∧ ∃ k ≤ 4,
        y.state.todo = (armTimer i (UInt32.ofNat ticks) once).drop k ∧
        (1 ≤ k → (y.state.periodLimit i).toNat = ticks) ∧
        (2 ≤ k → y.state.periodic i = !once) ∧ ((y.timer i).restart = true ↔ k = 4)
  | .oneShot left =>
      left ≠ 0 ∧ (y.state.periodLimit i).toNat = (y.state.counters i).toNat + left ∧
        y.state.periodic i = false
  | .periodic ticks left =>
      left ≠ 0 ∧ ticks = (y.state.counters i).toNat + left ∧
        (y.state.periodLimit i).toNat = ticks ∧ y.state.periodic i = true
  | _ => True

/-- A reset is followed by the wait for it, and its timer has a number of seven bits. -/
def Ordered : List (Stmt n) → Prop
  | [] => True
  | .setReset j :: todo => j.val < 128 ∧ (∃ rest, todo = .waitReset :: rest) ∧ Ordered todo
  | _ :: todo => Ordered todo

/-- What holds of the timer `i` in every state. -/
structure Matches (i : Fin n) (y : Sys n) : Prop where
  flag_eq : y.state.flag i = (y.timer i).flag
  counter_eq : (∀ ticks once, (y.timer i).mode ≠ .arming ticks once) →
    (y.state.counters i).toNat = (y.timer i).count % 2 ^ 32
  stored : (y.timer i).mode.Stored i y
  armed : (y.timer i).mode.Armed →
    (y.timer i).restart = false ∧ ∀ st ∈ y.state.todo, ¬ st.Touches i
  restart_iff : (y.timer i).restart = true ↔ y.state.resetIdx = i.val
  resetIdx : y.state.resetIdx = -1 ∨
    ∃ j : Fin n, y.state.resetIdx = j.val ∧ ∃ todo, y.state.todo = .waitReset :: todo
  ordered : Ordered y.state.todo
  waitCount : ∀ final, .waitCount i final ∈ y.state.todo → final.toNat = (y.timer i).wanted

section Steps

variable {freq : ℕ} {i : Fin n} {y y' : Sys n}

/-! ### Ticks -/

/-- A tick, as the timer `i` sees it. -/
structure Ticked (i : Fin n) (y : Sys n) (s' : State n) : Prop where
  counter : s'.counters i = if (y.timer i).restart ∨ y.state.hit i ∧ y.state.periodic i then 0
    else y.state.counters i + 1
  flag : s'.flag i = (y.state.flag i || y.state.hit i)
  limit : s'.periodLimit = y.state.periodLimit
  periodic : s'.periodic = y.state.periodic
  todo : s'.todo = y.state.todo
  idx : s'.resetIdx = -1

theorem Matches.exists_tick (h : Matches i y) :
    ∃ s', cmnVirtualTimerCb y.state = some s' ∧ Ticked i y s' := by
  rcases h.resetIdx with hidx | ⟨j, hidx, -⟩
  · have hrestart : ¬ (y.timer i).restart = true := fun ht => by
      have := h.restart_iff.mp ht
      omega
    refine ⟨countAll y.state, if_neg (not_not.mpr hidx), ?_, rfl, rfl, rfl, rfl, hidx⟩
    simp only [countAll, hrestart, Bool.false_eq_true, false_or]
  · have hne : y.state.resetIdx ≠ -1 := by omega
    have hj : 0 ≤ y.state.resetIdx ∧ y.state.resetIdx.toNat < n := by
      have := j.isLt
      omega
    refine ⟨_, (if_pos hne).trans (dif_pos hj), ?_, rfl, rfl, rfl, rfl, rfl⟩
    by_cases hij : y.state.resetIdx = i.val
    · have hi : (⟨y.state.resetIdx.toNat, hj.2⟩ : Fin n) = i := Fin.ext (by
        change y.state.resetIdx.toNat = i.val
        omega)
      rw [hi, if_pos (.inl (h.restart_iff.mpr hij))]
      exact Function.update_self ..
    · have hi : i ≠ ⟨y.state.resetIdx.toNat, hj.2⟩ := fun heq => hij (by
        have := congrArg Fin.val heq
        change i.val = y.state.resetIdx.toNat at this
        omega)
      have hrestart : ¬ (y.timer i).restart = true := fun ht => hij (h.restart_iff.mp ht)
      simp only [Function.update_of_ne hi, countAll, hrestart, Bool.false_eq_true, false_or]

/-- What does not depend on the use of a timer is the same after a tick. -/
theorem Matches.tick_of_stored (h : Matches i y) {s' : State n} (hs : Ticked i y s') {t : Timer}
    (hrestart : t.restart = false) (hwanted : t.wanted = (y.timer i).wanted)
    (hflag : s'.flag i = t.flag)
    (hcounter : (∀ ticks once, t.mode ≠ .arming ticks once) →
      (s'.counters i).toNat = t.count % 2 ^ 32)
    {timer : Fin n → Timer} (ht : timer i = t) (hstored : t.mode.Stored i ⟨s', timer⟩)
    (harmed : t.mode.Armed → ∀ st ∈ y.state.todo, ¬ st.Touches i) : Matches i ⟨s', timer⟩ := by
  subst ht
  refine ⟨hflag, hcounter, hstored, fun ha => ⟨hrestart, ?_⟩, ?_, .inl hs.idx, ?_, ?_⟩
  · rw [hs.todo]
    exact harmed ha
  · dsimp only
    rw [hrestart, hs.idx]
    refine ⟨nofun, fun heq => ?_⟩
    omega
  · rw [hs.todo]
    exact h.ordered
  · dsimp only
    rw [hs.todo, hwanted]
    exact h.waitCount

theorem toNat_add_one (a : UInt32) : (a + 1).toNat = (a.toNat + 1) % 2 ^ 32 := UInt32.toNat_add a 1

theorem hit_iff : y.state.hit i = true ↔
    (y.state.periodLimit i).toNat ≤ ((y.state.counters i).toNat + 1) % 2 ^ 32 := by
  rw [State.hit, decide_eq_true_iff, UInt32.le_iff_toNat_le, toNat_add_one]

theorem Timer.tick_of_unarmed {t : Timer} (hmode : t.mode = .free ∨ t.mode = .expired) :
    t.tick = t.counted := by
  rcases hmode with hmode | hmode <;> simp only [Timer.tick, hmode]

/-- A timer that is not armed goes on counting. -/
theorem Matches.tick_unarmed (h : Matches i y) {s' : State n} (hs : Ticked i y s')
    (hcareful : y.state.hit i → y.state.flag i = true ∧ y.state.periodic i = false)
    (hmode : (y.timer i).mode = .free ∨ (y.timer i).mode = .expired) :
    Matches i ⟨s', fun i => (y.timer i).tick⟩ := by
  have hnot : ∀ ticks once, (y.timer i).mode ≠ .arming ticks once := by
    rcases hmode with hmode | hmode <;> rw [hmode] <;> exact nofun
  refine h.tick_of_stored hs (t := (y.timer i).counted) rfl rfl ?_ (fun _ => ?_)
    (Timer.tick_of_unarmed hmode) ?_ ?_
  · rw [hs.flag]
    change _ = (y.timer i).flag
    rw [← h.flag_eq]
    by_cases hhit : y.state.hit i
    · rw [(hcareful hhit).1]
      rfl
    · rw [Bool.eq_false_iff.mpr hhit, Bool.or_false]
  · have hzero : ¬ (y.state.hit i = true ∧ y.state.periodic i = true) := fun hand =>
      Bool.false_ne_true ((hcareful hand.1).2.symm.trans hand.2)
    rw [hs.counter]
    simp only [hzero, or_false, Timer.counted]
    split_ifs
    · rfl
    · rw [toNat_add_one, h.counter_eq hnot, Nat.mod_add_mod]
  · change (y.timer i).mode.Stored i _
    rcases hmode with hmode | hmode <;> rw [hmode] <;> trivial
  · change (y.timer i).mode.Armed → _
    rcases hmode with hmode | hmode <;> rw [hmode] <;> exact False.elim

/-- A timer that is being armed. At the tick that resets its counter it is armed. -/
theorem Matches.tick_arming (h : Matches i y) {s' : State n} (hs : Ticked i y s')
    (hcareful : y.state.hit i → y.state.flag i = true) {ticks : ℕ} {once : Bool}
    (hmode : (y.timer i).mode = .arming ticks once) :
    Matches i ⟨s', fun i => (y.timer i).tick⟩ := by
  have hflag' : s'.flag i = (y.timer i).flag := by
    rw [hs.flag, ← h.flag_eq]
    by_cases hhit : y.state.hit i
    · rw [hcareful hhit]
      rfl
    · rw [Bool.eq_false_iff.mpr hhit, Bool.or_false]
  have hstored := h.stored
  rw [hmode] at hstored
  obtain ⟨hne, hlt, k, hk, hdrop, hlim, hper, hrestart⟩ := hstored
  rcases Bool.eq_false_or_eq_true (y.timer i).restart with htrue | hfalse
  · -- the counter is zero after the tick
    obtain rfl := hrestart.mp htrue
    have htick : (y.timer i).tick = { (y.timer i).counted with
        mode := if once then .oneShot ticks else .periodic ticks ticks } := by
      simp only [Timer.tick, hmode, htrue, if_true]
    have hzero : s'.counters i = 0 := by rw [hs.counter, if_pos (.inl htrue)]
    have hnone : ∀ st ∈ y.state.todo, ¬ st.Touches i := by
      rw [hdrop]
      exact List.forall_mem_cons.mpr ⟨id, List.forall_mem_singleton.mpr id⟩
    refine h.tick_of_stored hs (t := { (y.timer i).counted with
      mode := if once then .oneShot ticks else .periodic ticks ticks }) rfl rfl hflag' (fun _ => ?_)
      htick ?_ fun _ => hnone
    · rw [hzero]
      change 0 = (if (y.timer i).restart = true then 0 else (y.timer i).count + 1) % 2 ^ 32
      simp only [if_pos htrue, Nat.zero_mod]
    · have hlim' : (s'.periodLimit i).toNat = ticks := hs.limit ▸ hlim (by decide)
      have hper' : s'.periodic i = !once := hs.periodic ▸ hper (by decide)
      have hsum : ticks = (s'.counters i).toNat + ticks := by
        rw [hzero]
        exact (Nat.zero_add _).symm
      cases once with
      | true => exact ⟨hne, hlim'.trans hsum, hper'⟩
      | false => exact ⟨hne, hsum, hlim', hper'⟩
  · have htick : (y.timer i).tick = (y.timer i).counted := by
      simp only [Timer.tick, hmode, hfalse, Bool.false_eq_true, if_false]
    refine h.tick_of_stored hs (t := (y.timer i).counted) rfl rfl hflag'
      (fun hnot => absurd hmode (hnot ticks once)) htick ?_ ?_
    · change (y.timer i).mode.Stored i _
      rw [hmode]
      refine ⟨hne, hlt, k, hk, hs.todo.trans hdrop, ?_, ?_, ?_⟩
      · rw [hs.limit]
        exact hlim
      · rw [hs.periodic]
        exact hper
      · change (y.timer i).tick.restart = true ↔ k = 4
        rw [htick]
        rwa [hfalse] at hrestart
    · change (y.timer i).mode.Armed → _
      rw [hmode]
      exact False.elim

/-- An armed timer. Its counter is at the limit when no ticks are left. -/
theorem Matches.tick_armed (h : Matches i y) {s' : State n} (hs : Ticked i y s') (harmed : (y.timer i).mode.Armed) :
    Matches i ⟨s', fun i => (y.timer i).tick⟩ := by
  obtain ⟨hrestart, htouch⟩ := h.armed harmed
  have hnot : ∀ ticks once, (y.timer i).mode ≠ .arming ticks once := fun ticks once heq => by
    rw [heq] at harmed
    exact harmed
  have hcount := h.counter_eq hnot
  have hlt := (y.state.periodLimit i).toNat_lt
  have hstored := h.stored
  have hcounter := hs.counter
  simp only [hrestart, Bool.false_eq_true, false_or] at hcounter
  have hsucc : (y.state.counters i + 1).toNat = (y.timer i).counted.count % 2 ^ 32 := by
    rw [toNat_add_one, hcount, Timer.counted, hrestart, Nat.mod_add_mod]
    rfl
  rcases hmode : (y.timer i).mode with _ | _ | left | _ | ⟨ticks, left⟩
  all_goals rw [hmode] at hstored harmed
  case free => exact harmed.elim
  case arming => exact harmed.elim
  case expired => exact harmed.elim
  case oneShot =>
    obtain ⟨hleft, hlim, hper⟩ := hstored
    have hhit : y.state.hit i = true ↔ left = 1 := by
      rw [hit_iff]
      omega
    simp only [hper, Bool.false_eq_true, and_false, if_false] at hcounter
    by_cases hone : left = 1
    · have htick : (y.timer i).tick = { (y.timer i).counted with mode := .expired, flag := true } := by
        simp only [Timer.tick, hmode, if_pos hone]
      refine h.tick_of_stored hs (t := { (y.timer i).counted with
        mode := .expired, flag := true }) rfl rfl ?_ (fun _ => ?_) htick trivial False.elim
      · rw [hs.flag, hhit.mpr hone, Bool.or_true]
      · rw [hcounter]
        exact hsucc
    · have htick : (y.timer i).tick = { (y.timer i).counted with mode := .oneShot (left - 1) } := by
        simp only [Timer.tick, hmode, if_neg hone]
      refine h.tick_of_stored hs (t := { (y.timer i).counted with
        mode := .oneShot (left - 1) }) rfl rfl ?_ (fun _ => ?_) htick ?_ fun _ => htouch
      · rw [hs.flag, Bool.eq_false_iff.mpr (mt hhit.mp hone), Bool.or_false]
        exact h.flag_eq
      · rw [hcounter]
        exact hsucc
      · refine ⟨by omega, ?_, hs.periodic ▸ hper⟩
        change (s'.periodLimit i).toNat = (s'.counters i).toNat + (left - 1)
        rw [hs.limit, hcounter, toNat_add_one]
        omega
  case periodic =>
    obtain ⟨hleft, hsum, hlim, hper⟩ := hstored
    have hhit : y.state.hit i = true ↔ left = 1 := by
      rw [hit_iff]
      omega
    by_cases hone : left = 1
    · have htick : (y.timer i).tick =
          { (y.timer i).counted with mode := .periodic ticks ticks, flag := true, count := 0 } := by
        simp only [Timer.tick, hmode, if_pos hone]
      have hzero : s'.counters i = 0 := by rw [hcounter, if_pos ⟨hhit.mpr hone, hper⟩]
      refine h.tick_of_stored hs (t := { (y.timer i).counted with
        mode := .periodic ticks ticks, flag := true, count := 0 }) rfl rfl ?_ (fun _ => ?_) htick ?_
        fun _ => htouch
      · rw [hs.flag, hhit.mpr hone, Bool.or_true]
      · rw [hzero]
        rfl
      · refine ⟨by omega, ?_, hs.limit ▸ hlim, hs.periodic ▸ hper⟩
        change ticks = (s'.counters i).toNat + ticks
        rw [hzero]
        exact (Nat.zero_add _).symm
    · have htick : (y.timer i).tick =
          { (y.timer i).counted with mode := .periodic ticks (left - 1) } := by
        simp only [Timer.tick, hmode, if_neg hone]
      rw [if_neg fun hand => hone (hhit.mp hand.1)] at hcounter
      refine h.tick_of_stored hs (t := { (y.timer i).counted with
        mode := .periodic ticks (left - 1) }) rfl rfl ?_ (fun _ => ?_) htick ?_ fun _ => htouch
      · rw [hs.flag, Bool.eq_false_iff.mpr (mt hhit.mp hone), Bool.or_false]
        exact h.flag_eq
      · rw [hcounter]
        exact hsucc
      · refine ⟨by omega, ?_, hs.limit ▸ hlim, hs.periodic ▸ hper⟩
        change ticks = (s'.counters i).toNat + (left - 1)
        rw [hcounter, toNat_add_one]
        omega

/-- **A tick.** -/
theorem Matches.tick (h : Matches i y) (hcareful : Careful freq i y .tick)
    (hs : y.step freq .tick = some y') : Matches i y' := by
  obtain ⟨s', hcb, hticked⟩ := h.exists_tick
  rw [Sys.step, hcb, Option.map_some, Option.some_inj] at hs
  subst hs
  rcases hmode : (y.timer i).mode with _ | ⟨ticks, once⟩ | left | _ | ⟨ticks, left⟩
  all_goals simp only [Careful, hmode] at hcareful
  · exact h.tick_unarmed hticked hcareful (.inl hmode)
  · exact h.tick_arming hticked hcareful hmode
  · exact h.tick_armed hticked (hmode ▸ trivial)
  · exact h.tick_unarmed hticked hcareful (.inr hmode)
  · exact h.tick_armed hticked (hmode ▸ trivial)

/-! ### Calls -/

/-- Only what is stored of a timer that is being armed depends on the statements. -/
theorem Mode.Stored.congr {m : Mode} (hm : m.Stored i y) (hnot : ∀ ticks once, m ≠ .arming ticks once)
    (hcounter : y'.state.counters i = y.state.counters i)
    (hlimit : m.Armed → y'.state.periodLimit i = y.state.periodLimit i)
    (hperiodic : m.Armed → y'.state.periodic i = y.state.periodic i) : m.Stored i y' := by
  cases m with
  | free => trivial
  | arming ticks once => exact absurd rfl (hnot ticks once)
  | oneShot left =>
    obtain ⟨hleft, hlim, hper⟩ := hm
    refine ⟨hleft, ?_, (hperiodic trivial).trans hper⟩
    rw [hlimit trivial, hcounter]
    exact hlim
  | expired => trivial
  | periodic ticks left =>
    obtain ⟨hleft, hsum, hlim, hper⟩ := hm
    refine ⟨hleft, ?_, ?_, (hperiodic trivial).trans hper⟩
    · rw [hcounter]
      exact hsum
    · rw [hlimit trivial]
      exact hlim

/-- Between two calls no timer is being armed. -/
theorem Matches.not_arming (h : Matches i y) (hnil : y.state.todo = []) (ticks : ℕ) (once : Bool) :
    (y.timer i).mode ≠ .arming ticks once := by
  intro hmode
  have hstored := h.stored
  rw [hmode] at hstored
  obtain ⟨-, -, k, hk, hdrop, -⟩ := hstored
  have hlen := congrArg List.length hdrop
  rw [hnil, List.length_drop] at hlen
  change 0 = 6 - k at hlen
  omega

/-- No reset is asked for between two calls. -/
theorem Matches.resetIdx_of_nil (h : Matches i y) (hnil : y.state.todo = []) :
    y.state.resetIdx = -1 := by
  rcases h.resetIdx with hidx | ⟨j, -, todo, htodo⟩
  · exact hidx
  · exact absurd (hnil.symm.trans htodo) (List.cons_ne_nil _ _).symm

/-- A call with the statements `todo`, after which the timer is `t`. -/
theorem Matches.call_of (h : Matches i y) (hnil : y.state.todo = []) {todo : List (Stmt n)}
    {timer : Fin n → Timer} {t : Timer} (ht : timer i = t) (hflag : t.flag = (y.timer i).flag)
    (hcount : t.count = (y.timer i).count) (hrestart : t.restart = (y.timer i).restart)
    (hstored : t.mode.Stored i ⟨{ y.state with todo }, timer⟩)
    (harmed : t.mode.Armed → ∀ st ∈ todo, ¬ st.Touches i) (hordered : Ordered todo)
    (hwait : ∀ final, .waitCount i final ∈ todo → final.toNat = t.wanted) :
    Matches i ⟨{ y.state with todo }, timer⟩ := by
  subst ht
  have hidx := h.resetIdx_of_nil hnil
  have hfalse : (y.timer i).restart = false := by
    rw [Bool.eq_false_iff]
    intro htrue
    have := h.restart_iff.mp htrue
    omega
  refine ⟨h.flag_eq.trans hflag.symm, fun _ => ?_, hstored,
    fun ha => ⟨hrestart.trans hfalse, harmed ha⟩, ?_, .inl hidx, hordered, hwait⟩
  · rw [hcount]
    exact h.counter_eq (h.not_arming hnil)
  · dsimp only
    rw [hrestart]
    exact h.restart_iff

theorem toNat_final (freq : ℕ) (us : UInt32) : (final freq us).toNat = ticks freq us % 2 ^ 32 :=
  UInt32.toNat_ofNat'

/-- **A call.** -/
theorem Matches.call (h : Matches i y) {c : Call n} (hcareful : Careful freq i y (.call c))
    (hs : y.step freq (.call c) = some y') : Matches i y' := by
  rcases hnil : y.state.todo with _ | ⟨st, todo⟩
  case cons => simp only [Sys.step, hnil, reduceCtorEq] at hs
  simp only [Sys.step, hnil, Option.some_inj] at hs
  subst hs
  have hnot := h.not_arming hnil
  -- the use of the timer stays the same
  have hsame : ∀ (todo : List (Stmt n)) (timer : Fin n → Timer),
      (y.timer i).mode.Stored i ⟨{ y.state with todo }, timer⟩ := fun _ _ =>
    h.stored.congr hnot rfl (fun _ => rfl) fun _ => rfl
  cases c with
  | start id =>
    refine h.call_of hnil rfl rfl rfl rfl (hsame _ _) (fun harmed => ?_)
      ⟨hcareful.1, ⟨_, rfl⟩, trivial⟩ ?_
    · exact List.forall_mem_cons.mpr ⟨fun heq => hcareful.2 heq harmed,
        List.forall_mem_singleton.mpr False.elim⟩
    · simp [Call.stmts, resetTimer]
  | delay id delayUs =>
    by_cases hid : id = i
    · obtain ⟨hnarmed, hlt⟩ := hcareful.2 hid
      refine h.call_of hnil (t := { y.timer i with wanted := ticks freq delayUs }) (if_pos hid)
        rfl rfl rfl (hsame _ _) (fun harmed => absurd harmed hnarmed)
        ⟨hcareful.1, ⟨_, rfl⟩, trivial⟩ ?_
      intro f hf
      have hfinal : f = final freq delayUs := by
        simpa [Call.stmts, resetTimer, hid] using hf
      rw [hfinal, toNat_final, Nat.mod_eq_of_lt hlt]
    · refine h.call_of hnil (t := y.timer i) (if_neg hid) rfl rfl rfl (hsame _ _) (fun _ => ?_)
        ⟨hcareful.1, ⟨_, rfl⟩, trivial⟩ ?_
      · exact List.forall_mem_cons.mpr ⟨hid, List.forall_mem_cons.mpr
          ⟨False.elim, List.forall_mem_singleton.mpr False.elim⟩⟩
      · simp [Call.stmts, resetTimer, Ne.symm hid]
  | setMatchInt id periodUs oneShot =>
    by_cases hid : id = i
    · subst hid
      have hlt := hcareful.2 rfl
      by_cases hzero : periodUs = 0
      · refine h.call_of hnil (t := { y.timer id with mode := .free }) ?_ rfl rfl rfl trivial
          False.elim ?_ ?_
        · simp only [Call.use, if_pos hzero, if_true]
        · rw [Call.stmts, if_pos hzero]
          trivial
        · rw [Call.stmts, if_pos hzero]
          simp
      have hfinal : final freq periodUs = 0 ↔ ticks freq periodUs = 0 := by
        rw [← UInt32.toNat_inj, toNat_final, Nat.mod_eq_of_lt hlt]
        rfl
      by_cases hshort : ticks freq periodUs = 0
      · refine h.call_of hnil (t := y.timer id) ?_ rfl rfl rfl (hsame _ _) ?_ ?_ ?_
        · simp only [Call.use, if_neg hzero, if_pos hshort, if_true]
        all_goals rw [Call.stmts, if_neg hzero, if_pos (hfinal.mpr hshort)]
        · exact fun _ => List.forall_mem_nil _
        · trivial
        · exact fun _ hf => absurd hf List.not_mem_nil
      · have hstmts : (Call.setMatchInt id periodUs oneShot).stmts freq =
            armTimer id (final freq periodUs) oneShot := by
          rw [Call.stmts, if_neg hzero, if_neg (mt hfinal.mp hshort)]
        have huse : (Call.setMatchInt id periodUs oneShot).use freq id (y.timer id) =
            { y.timer id with mode := .arming (ticks freq periodUs) oneShot } := by
          simp only [Call.use, if_neg hzero, if_neg hshort, if_true]
        have hfalse : ¬ (y.timer id).restart = true := fun htrue => by
          have := h.restart_iff.mp htrue
          have := h.resetIdx_of_nil hnil
          omega
        refine h.call_of hnil huse rfl rfl rfl ⟨hshort, hlt, 0, Nat.zero_le _, hstmts, nofun, nofun, ?_⟩
          False.elim ?_ ?_
        · dsimp only
          rw [huse]
          exact ⟨fun htrue => absurd htrue hfalse, nofun⟩
        · rw [hstmts]
          exact ⟨hcareful.1 (mt hfinal.mp hshort), ⟨_, rfl⟩, trivial⟩
        · rw [hstmts]
          simp [armTimer, resetTimer]
    · refine h.call_of hnil (t := y.timer i) (if_neg hid) rfl rfl rfl (hsame _ _) ?_ ?_ ?_
      all_goals rw [Call.stmts]
      all_goals split_ifs with hzero hshort
      · simp [Stmt.Touches]
      · simp
      · simp [armTimer, resetTimer, Stmt.Touches, hid]
      · trivial
      · trivial
      · exact ⟨hcareful.1 hshort, ⟨_, rfl⟩, trivial⟩
      · simp
      · simp
      · simp [armTimer, resetTimer]
  | intGetFlag id clear =>
    cases clear with
    | true =>
      refine h.call_of hnil rfl rfl rfl rfl (hsame _ _) (fun _ => ?_) trivial ?_
      · exact List.forall_mem_singleton.mpr False.elim
      · simp [Call.stmts]
    | false =>
      exact h.call_of hnil rfl rfl rfl rfl (hsame _ _) (fun _ => List.forall_mem_nil _) trivial
        fun _ hf => absurd hf List.not_mem_nil
  | intSetStatus id status =>
    refine h.call_of hnil rfl rfl rfl rfl (hsame _ _) (fun _ => ?_) trivial ?_
    · exact List.forall_mem_singleton.mpr False.elim
    · simp [Call.stmts]

/-! ### Statements -/

/-- A statement that is executed finds no reset that was asked for. -/
theorem Matches.resetIdx_of_exec (h : Matches i y) {st : Stmt n} {todo : List (Stmt n)}
    (htodo : y.state.todo = st :: todo) {s' : State n} (hexec : st.exec y.state = some s') :
    y.state.resetIdx = -1 := by
  rcases h.resetIdx with hidx | ⟨j, hidx, todo', htodo'⟩
  · exact hidx
  · obtain rfl : st = .waitReset := (List.cons.inj (htodo.symm.trans htodo')).1
    have hne : y.state.resetIdx ≠ -1 := by omega
    rw [Stmt.exec, if_pos hne] at hexec
    exact absurd hexec nofun

theorem toS8_of_lt {k : ℕ} (h : k < 128) : toS8 k = k := by
  have hmod : k % 256 = k := Nat.mod_eq_of_lt (h.trans (by decide))
  rw [toS8, hmod, if_pos h]

theorem Ordered.tail {st : Stmt n} {todo : List (Stmt n)} (h : Ordered (st :: todo)) :
    Ordered todo := by
  cases st with
  | setReset j => exact h.2.2
  | setLimit | setPeriodic | clearFlag | waitReset | setEnabled | waitCount => exact h

/-- A statement, after which the timer is `t`. -/
theorem Matches.stmt_of_stored (h : Matches i y) {st : Stmt n} {todo : List (Stmt n)}
    (htodo : y.state.todo = st :: todo) {z : State n} {timer : Fin n → Timer} {t : Timer}
    (ht : timer i = t) (hmode : t.mode = (y.timer i).mode) (hcount : t.count = (y.timer i).count)
    (hwanted : t.wanted = (y.timer i).wanted) (hcounter : z.counters = y.state.counters)
    (hflag : z.flag i = t.flag) (hstored : (y.timer i).mode.Stored i ⟨{ z with todo }, timer⟩)
    (hrestart : (y.timer i).mode.Armed → t.restart = false)
    (hiff : t.restart = true ↔ z.resetIdx = i.val)
    (hidx : z.resetIdx = -1 ∨ ∃ j : Fin n, z.resetIdx = j.val ∧ ∃ rest, todo = .waitReset :: rest) :
    Matches i ⟨{ z with todo }, timer⟩ := by
  subst ht
  have hordered := h.ordered
  rw [htodo] at hordered
  have hmem : ∀ st' ∈ todo, st' ∈ y.state.todo := fun st' hst' => by
    rw [htodo]
    exact List.mem_cons_of_mem _ hst'
  refine ⟨hflag, fun hnot => ?_, hmode ▸ hstored, fun harmed => ?_, hiff, hidx, hordered.tail,
    fun f hf => ?_⟩
  · dsimp only
    rw [hcounter, hcount]
    exact h.counter_eq (hmode ▸ hnot)
  · dsimp only at harmed
    rw [hmode] at harmed
    exact ⟨hrestart harmed, fun st' hst' => (h.armed harmed).2 st' (hmem st' hst')⟩
  · rw [hwanted]
    exact h.waitCount f (hmem _ hf)

/-- A statement, of a timer that is not being armed. -/
theorem Matches.stmt_of (h : Matches i y) {st : Stmt n} {todo : List (Stmt n)}
    (htodo : y.state.todo = st :: todo) (hnot : ∀ ticks once, (y.timer i).mode ≠ .arming ticks once)
    {z : State n} {timer : Fin n → Timer} {t : Timer} (ht : timer i = t)
    (hmode : t.mode = (y.timer i).mode) (hcount : t.count = (y.timer i).count)
    (hwanted : t.wanted = (y.timer i).wanted) (hcounter : z.counters = y.state.counters)
    (hflag : z.flag i = t.flag)
    (hlimit : (y.timer i).mode.Armed → z.periodLimit i = y.state.periodLimit i)
    (hperiodic : (y.timer i).mode.Armed → z.periodic i = y.state.periodic i)
    (hrestart : (y.timer i).mode.Armed → t.restart = false)
    (hiff : t.restart = true ↔ z.resetIdx = i.val)
    (hidx : z.resetIdx = -1 ∨ ∃ j : Fin n, z.resetIdx = j.val ∧ ∃ rest, todo = .waitReset :: rest) :
    Matches i ⟨{ z with todo }, timer⟩ :=
  h.stmt_of_stored htodo ht hmode hcount hwanted hcounter hflag
    (h.stored.congr hnot (congrFun hcounter i) hlimit hperiodic) hrestart hiff hidx

/-- A statement of the call that arms a timer. -/
theorem Matches.stmt_arming (h : Matches i y) {ticks : ℕ} {once : Bool}
    (hmode : (y.timer i).mode = .arming ticks once) {st : Stmt n} {todo : List (Stmt n)}
    (htodo : y.state.todo = st :: todo) {s' : State n} (hexec : st.exec y.state = some s') :
    Matches i ⟨{ s' with todo }, fun i => st.use i (y.timer i)⟩ := by
  have hidx := h.resetIdx_of_exec htodo hexec
  have hfalse : ¬ (y.timer i).restart = true := fun htrue => by
    have := h.restart_iff.mp htrue
    omega
  have hordered := h.ordered
  rw [htodo] at hordered
  have hstored := h.stored
  rw [hmode] at hstored
  obtain ⟨hne, hlt, k, hk, hdrop, hlim, hper, hrestart⟩ := hstored
  have hnot : ∀ {k}, k < 4 → ((y.timer i).restart = true ↔ k = 4) := fun hk =>
    ⟨fun htrue => absurd htrue hfalse, fun heq => absurd heq hk.ne⟩
  have hk4 : k < 4 := lt_of_le_of_ne hk (mt hrestart.mpr hfalse)
  have harmed : (y.timer i).mode.Armed → ∀ {P : Prop}, P := fun harmed => by
    rw [hmode] at harmed
    exact harmed.elim
  have hlist := htodo.symm.trans hdrop
  -- the statements of `armTimer` one by one
  obtain rfl | rfl | rfl | rfl : k = 0 ∨ k = 1 ∨ k = 2 ∨ k = 3 := by omega
  all_goals obtain ⟨rfl, rfl⟩ := List.cons.inj hlist
  all_goals obtain rfl := Option.some_inj.mp hexec
  · refine h.stmt_of_stored htodo rfl rfl rfl rfl rfl h.flag_eq ?_ (fun ha => harmed ha)
      h.restart_iff (.inl hidx)
    rw [hmode]
    refine ⟨hne, hlt, 1, by decide, rfl, fun _ => ?_, fun h2 => absurd h2 (by decide),
      hnot (by decide)⟩
    change (Function.update y.state.periodLimit i (UInt32.ofNat ticks) i).toNat = ticks
    rw [Function.update_self]
    exact (UInt32.toNat_ofNat').trans (Nat.mod_eq_of_lt hlt)
  · refine h.stmt_of_stored htodo rfl rfl rfl rfl rfl h.flag_eq ?_ (fun ha => harmed ha)
      h.restart_iff (.inl hidx)
    rw [hmode]
    exact ⟨hne, hlt, 2, by decide, rfl, fun _ => hlim (Nat.le_refl _),
      fun _ => Function.update_self .., hnot (by decide)⟩
  · refine h.stmt_of_stored htodo (t := { y.timer i with flag := false }) (if_pos rfl) rfl rfl rfl
      rfl (Function.update_self ..) ?_ (fun ha => harmed ha) h.restart_iff (.inl hidx)
    rw [hmode]
    refine ⟨hne, hlt, 3, by decide, rfl, fun _ => hlim (by decide), fun _ => hper (Nat.le_refl _), ?_⟩
    change (if i = i then _ else _ : Timer).restart = true ↔ _
    rw [if_pos rfl]
    exact hnot (by decide)
  · rw [toS8_of_lt hordered.1]
    refine h.stmt_of_stored htodo (z := { y.state with resetIdx := i.val })
      (t := { y.timer i with restart := true }) (if_pos rfl) rfl rfl rfl rfl h.flag_eq ?_
      (fun ha => harmed ha) ⟨fun _ => rfl, fun _ => rfl⟩ (.inr ⟨i, rfl, hordered.2.1⟩)
    rw [hmode]
    refine ⟨hne, hlt, 4, Nat.le_refl _, rfl, fun _ => hlim (by decide), fun _ => hper (by decide), ?_⟩
    change (if i = i then _ else _ : Timer).restart = true ↔ _
    rw [if_pos rfl]
    exact ⟨fun _ => rfl, fun _ => rfl⟩

/-- **A statement.** -/
theorem Matches.stmt (h : Matches i y) (hs : y.step freq .stmt = some y') : Matches i y' := by
  rcases htodo : y.state.todo with _ | ⟨st, todo⟩
  · simp only [Sys.step, htodo, reduceCtorEq] at hs
  simp only [Sys.step, htodo, Option.map_eq_some_iff] at hs
  obtain ⟨s', hexec, rfl⟩ := hs
  by_cases harming : ∃ ticks once, (y.timer i).mode = .arming ticks once
  · obtain ⟨ticks, once, hmode⟩ := harming
    exact h.stmt_arming hmode htodo hexec
  have hnot : ∀ ticks once, (y.timer i).mode ≠ .arming ticks once := fun ticks once hmode =>
    harming ⟨ticks, once, hmode⟩
  have hidx := h.resetIdx_of_exec htodo hexec
  have hfalse : (y.timer i).mode.Armed → (y.timer i).restart = false := fun harmed =>
    (h.armed harmed).1
  have htouch : (y.timer i).mode.Armed → ¬ st.Touches i := fun harmed =>
    (h.armed harmed).2 st (htodo ▸ List.mem_cons_self)
  cases st with
  | setLimit j f =>
    obtain rfl := Option.some_inj.mp hexec
    refine h.stmt_of htodo hnot rfl rfl rfl rfl rfl h.flag_eq (fun harmed => ?_) (fun _ => rfl) hfalse
      h.restart_iff (.inl hidx)
    exact Function.update_of_ne (fun heq => htouch harmed heq.symm) _ _
  | setPeriodic j periodic =>
    obtain rfl := Option.some_inj.mp hexec
    refine h.stmt_of htodo hnot rfl rfl rfl rfl rfl h.flag_eq (fun _ => rfl) (fun harmed => ?_) hfalse
      h.restart_iff (.inl hidx)
    exact Function.update_of_ne (fun heq => htouch harmed heq.symm) _ _
  | clearFlag j =>
    obtain rfl := Option.some_inj.mp hexec
    by_cases hj : j = i
    · exact h.stmt_of htodo hnot (t := { y.timer i with flag := false }) (if_pos hj) rfl rfl rfl rfl
        (hj ▸ Function.update_self ..) (fun _ => rfl) (fun _ => rfl) hfalse h.restart_iff (.inl hidx)
    · exact h.stmt_of htodo hnot (t := y.timer i) (if_neg hj) rfl rfl rfl rfl
        ((Function.update_of_ne (Ne.symm hj) _ _).trans h.flag_eq) (fun _ => rfl) (fun _ => rfl) hfalse
        h.restart_iff (.inl hidx)
  | setReset j =>
    obtain rfl := Option.some_inj.mp hexec
    have hordered := h.ordered
    rw [htodo] at hordered
    obtain ⟨hj128, hwait, -⟩ := hordered
    rw [toS8_of_lt hj128]
    by_cases hj : j = i
    · refine h.stmt_of htodo hnot (z := { y.state with resetIdx := j.val })
        (t := { y.timer i with restart := true }) (if_pos hj) rfl rfl rfl rfl h.flag_eq (fun _ => rfl)
        (fun _ => rfl) (fun harmed => absurd hj (htouch harmed)) ?_ (.inr ⟨j, rfl, hwait⟩)
      exact ⟨fun _ => hj ▸ rfl, fun _ => rfl⟩
    · refine h.stmt_of htodo hnot (z := { y.state with resetIdx := j.val }) (t := y.timer i)
        (if_neg hj) rfl rfl rfl rfl h.flag_eq (fun _ => rfl) (fun _ => rfl) hfalse ?_
        (.inr ⟨j, rfl, hwait⟩)
      refine ⟨fun htrue => ?_, fun heq => ?_⟩
      · have := h.restart_iff.mp htrue
        omega
      · refine absurd (Fin.ext ?_) hj
        dsimp only at heq
        omega
  | waitReset =>
    rw [Stmt.exec, if_neg (not_not.mpr hidx)] at hexec
    obtain rfl := Option.some_inj.mp hexec
    exact h.stmt_of htodo hnot rfl rfl rfl rfl rfl h.flag_eq (fun _ => rfl) (fun _ => rfl) hfalse
      h.restart_iff (.inl hidx)
  | setEnabled j enabled =>
    obtain rfl := Option.some_inj.mp hexec
    exact h.stmt_of htodo hnot rfl rfl rfl rfl rfl h.flag_eq (fun _ => rfl) (fun _ => rfl) hfalse
      h.restart_iff (.inl hidx)
  | waitCount j f =>
    obtain ⟨-, rfl⟩ : _ ∧ y.state = s' := by
      simpa only [Stmt.exec, Option.ite_none_left_eq_some, Option.some_inj] using hexec
    exact h.stmt_of htodo hnot rfl rfl rfl rfl rfl h.flag_eq (fun _ => rfl) (fun _ => rfl) hfalse
      h.restart_iff (.inl hidx)

/-- **One event.** -/
theorem Matches.step (h : Matches i y) {e : Event n} (hcareful : Careful freq i y e)
    (hs : y.step freq e = some y') : Matches i y' := by
  cases e with
  | tick => exact h.tick hcareful hs
  | call c => exact h.call hcareful hs
  | stmt => exact h.stmt hs

theorem Matches.init (i : Fin n) : Matches i {} :=
  ⟨rfl, fun _ => rfl, trivial, False.elim, ⟨nofun, fun heq => by dsimp only at heq; omega⟩, .inl rfl,
    trivial, fun _ hf => absurd hf List.not_mem_nil⟩

theorem Matches.behaves (h : Matches i y) : Behaves i y := by
  refine ⟨h.flag_eq, fun hmode => h.counter_eq (hmode ▸ nofun), fun f todo htodo hmode hlt => ?_, ?_⟩
  · have hcount := h.counter_eq (hmode ▸ nofun)
    rw [Nat.mod_eq_of_lt hlt] at hcount
    have hwait : f.toNat = (y.timer i).wanted := h.waitCount f (htodo ▸ List.mem_cons_self)
    rw [Stmt.exec, ← hwait, ← hcount, ← not_lt, ← UInt32.lt_iff_toNat_lt]
    split_ifs with hless
    · exact ⟨nofun, fun hnot => absurd hless hnot⟩
    · exact ⟨fun _ => hless, fun _ => rfl⟩
  · obtain ⟨s', hcb, -⟩ := h.exists_tick
    rw [hcb]
    rfl

end Steps

end ELuaBrain.Timers
