import Mathlib.Data.Set.Basic

/-!
# Guarded runs of a deterministic system

A system is a partial step function `step : σ → ι → Option σ` on states and inputs; a step that
is `none` has no successor. A *guard* says which inputs are allowed in which state. `Reach`
collects the states of all finite runs whose every step meets the guard, and
`Reach.invariant` is the induction rule for them.

## Main definitions

* `Reach` : the states reached by guarded runs.
* `runAll`, `guarded` : the state after a sequence of inputs, and the step under a guard.

## Main results

* `Reach.invariant` : an initial property kept by every guarded step holds in every state
  reached.
* `Reach.simulation` : guarded runs of a system that refines another one.
-/

namespace ELuaBrain

variable {σ ι : Type*}

/-- The states reached from `s₀` by runs whose every step meets `guard`. -/
inductive Reach (step : σ → ι → Option σ) (guard : σ → ι → Prop) (s₀ : σ) : σ → Prop
  | init : Reach step guard s₀ s₀
  | next {s s' : σ} {i : ι} (h : Reach step guard s₀ s) (hi : guard s i)
      (hs : step s i = some s') : Reach step guard s₀ s'

namespace Reach

variable {step : σ → ι → Option σ} {guard : σ → ι → Prop} {s₀ s s' : σ}

/-- **The invariant rule.** A property of the first state that every guarded step keeps holds in
every state reached. -/
theorem invariant {P : σ → Prop} (h₀ : P s₀)
    (hstep : ∀ s i s', P s → guard s i → step s i = some s' → P s')
    (h : Reach step guard s₀ s) : P s := by
  induction h with
  | init => exact h₀
  | next _ hi hs ih => exact hstep _ _ _ ih hi hs

theorem trans (h : Reach step guard s₀ s) (h' : Reach step guard s s') :
    Reach step guard s₀ s' := by
  induction h' with
  | init => exact h
  | next _ hi hs ih => exact .next ih hi hs

/-- **Guarded runs of a refinement.** Where the guard makes the steps of the abstract system exist
and keep `P`, each guarded run has a counterpart in it. -/
theorem simulation {τ : Type*} {step' : τ → ι → Option τ} {guard' : τ → ι → Prop}
    {R : σ → τ → Prop} {P : τ → Prop} {t₀ : τ}
    (hstep : ∀ t i, P t → guard' t i → ∃ t', step' t i = some t' ∧ P t')
    (hsim : ∀ s t i t', R s t → step' t i = some t' → ∃ s', step s i = some s' ∧ R s' t')
    (hguard : ∀ s t i, R s t → guard s i → guard' t i) (h₀ : R s₀ t₀) (hP : P t₀)
    (h : Reach step guard s₀ s) : ∃ t, R s t ∧ P t ∧ Reach step' guard' t₀ t := by
  induction h with
  | init => exact ⟨t₀, h₀, hP, .init⟩
  | next _ hi hs ih =>
    obtain ⟨t, hR, hPt, ht⟩ := ih
    obtain ⟨t', ht', hP'⟩ := hstep t _ hPt (hguard _ _ _ hR hi)
    obtain ⟨s', hs', hR'⟩ := hsim _ _ _ _ hR ht'
    obtain rfl := Option.some.inj (hs.symm.trans hs')
    exact ⟨t', hR', hP', ht.next (hguard _ _ _ hR hi) ht'⟩

end Reach

/-- The state after a sequence of inputs, if every step of it exists. -/
def runAll (step : σ → ι → Option σ) : List ι → σ → Option σ
  | [], s => some s
  | i :: is, s => (step s i).bind (runAll step is)

theorem runAll_append {step : σ → ι → Option σ} (is js : List ι) (s : σ) :
    runAll step (is ++ js) s = (runAll step is s).bind (runAll step js) := by
  induction is generalizing s with
  | nil => rfl
  | cons i is ih =>
    rw [List.cons_append, runAll, runAll, Option.bind_assoc]
    exact congrArg _ (funext ih)

/-- A step that exists only where the guard allows it. -/
def guarded (step : σ → ι → Option σ) (guard : σ → ι → Prop) [∀ s i, Decidable (guard s i)]
    (s : σ) (i : ι) : Option σ :=
  if guard s i then step s i else none

theorem reach_of_runAll {step : σ → ι → Option σ} {guard : σ → ι → Prop}
    [∀ s i, Decidable (guard s i)] {is : List ι} {s s' : σ}
    (h : runAll (guarded step guard) is s = some s') : Reach step guard s s' := by
  induction is generalizing s with
  | nil =>
    obtain rfl : s = s' := by simpa [runAll] using h
    exact .init
  | cons i is ih =>
    obtain ⟨s₁, hs₁, h₁⟩ := Option.bind_eq_some_iff.mp h
    obtain ⟨hg, hs₁⟩ := Option.ite_none_right_eq_some.mp hs₁
    exact (Reach.next .init hg hs₁).trans (ih h₁)

/-- The last state of a run that exists is reached. -/
theorem reach_get (step : σ → ι → Option σ) (guard : σ → ι → Prop)
    [∀ s i, Decidable (guard s i)] (is : List ι) {s : σ}
    (h : (runAll (guarded step guard) is s).isSome) :
    Reach step guard s ((runAll (guarded step guard) is s).get h) :=
  reach_of_runAll (Option.some_get h).symm

end ELuaBrain
