import Mathlib.Data.Set.Basic

/-!
# Systems in lock step

Two systems with the same inputs and outputs. The second one is the simpler: where it has a step,
the first one has a step with the same output. A relation that holds again after each of the next
`N` steps is followed for `N` steps.

## Main definitions

* `outputs` : the outputs of a run, and its last state.
* `InStep` : the relation holds now and after each of the next steps of both systems.

## Main results

* `InStep.outputs` : the outputs are the same, and the relation holds at the end.
* `InStep.of_step` : a state that the second system leaves by one step, after any number of steps
  that stay.
-/

namespace ELuaBrain

variable {σ τ ι ρ : Type*}

/-- The outputs of a run and its last state, if every step of it exists. -/
def outputs (step : σ → ι → Option (ρ × σ)) : List ι → σ → Option (List ρ × σ)
  | [], s => some ([], s)
  | i :: is, s => (step s i).bind fun r => (outputs step is r.2).map fun q => (r.1 :: q.1, q.2)

/-- For `N` steps of the second system the first one has the same outputs, and `R` holds. -/
def InStep (f : σ → ι → Option (ρ × σ)) (g : τ → ι → Option (ρ × τ)) (R : σ → τ → Prop) :
    ℕ → σ → τ → Prop
  | 0, s, t => R s t
  | N + 1, s, t => R s t ∧ ∀ i o t', g t i = some (o, t') →
      ∃ s', f s i = some (o, s') ∧ InStep f g R N s' t'

namespace InStep

variable {f : σ → ι → Option (ρ × σ)} {g : τ → ι → Option (ρ × τ)} {R : σ → τ → Prop} {N M : ℕ}
  {s : σ} {t : τ}

theorem rel (h : InStep f g R N s t) : R s t := by
  cases N with
  | zero => exact h
  | succ N => exact h.1

theorem mono (h : InStep f g R N s t) (hM : M ≤ N) : InStep f g R M s t := by
  induction M generalizing N s t with
  | zero => exact h.rel
  | succ M ih =>
    obtain _ | N := N
    · omega
    · refine ⟨h.1, fun i o t' ht => ?_⟩
      obtain ⟨s', hs, h'⟩ := h.2 i o t' ht
      exact ⟨s', hs, ih h' (Nat.le_of_succ_le_succ hM)⟩

/-- **A run that is followed.** The outputs are the same, and the relation holds at its end. -/
theorem outputs {is : List ι} {os : List ρ} {t' : τ} (h : InStep f g R is.length s t)
    (ht : ELuaBrain.outputs g is t = some (os, t')) :
    ∃ s', ELuaBrain.outputs f is s = some (os, s') ∧ R s' t' := by
  induction is generalizing s t os with
  | nil =>
    obtain ⟨rfl, rfl⟩ := Prod.mk.inj (Option.some.inj ht)
    exact ⟨s, rfl, h⟩
  | cons i is ih =>
    obtain ⟨⟨o, t₁⟩, ht₁, hrest⟩ := Option.bind_eq_some_iff.mp ht
    obtain ⟨⟨os₁, t₂⟩, hos, heq⟩ := Option.map_eq_some_iff.mp hrest
    obtain ⟨rfl, rfl⟩ := Prod.mk.inj heq
    obtain ⟨s₁, hs₁, h₁⟩ := h.2 i o t₁ ht₁
    obtain ⟨s', hs', hR⟩ := ih h₁ hos
    refine ⟨s', ?_, hR⟩
    rw [ELuaBrain.outputs, hs₁, Option.bind_some, hs']
    rfl

/-- A state that a step leaves, after any number of steps that keep `P`. -/
theorem of_step {P : σ → τ → Prop} (hR : ∀ s t, P s t → R s t)
    (hstep : ∀ M < N, ∀ s t i o t', P s t → g t i = some (o, t') →
      ∃ s', f s i = some (o, s') ∧ (P s' t' ∨ InStep f g R M s' t'))
    (h : P s t) : InStep f g R N s t := by
  induction N generalizing s t with
  | zero => exact hR s t h
  | succ N ih =>
    refine ⟨hR s t h, fun i o t' ht => ?_⟩
    obtain ⟨s', hs, hP | hF⟩ := hstep N (Nat.lt_succ_self N) s t i o t' h ht
    · exact ⟨s', hs, ih (fun M hM => hstep M (hM.trans (Nat.lt_succ_self N))) hP⟩
    · exact ⟨s', hs, hF⟩

end InStep

end ELuaBrain
