import Mathlib.Control.Monad.Basic

/-!
# Programs over operations

A program is a tree whose inner nodes perform an operation and go on with its response. It says
nothing about what the operations do: an *interpreter* runs each operation on a state, and may
fault, which stands for undefined behaviour. The same program can be run by two interpreters, and
if every operation of the first follows the second, so does every program.

## Main definitions

* `Program` : programs over a signature of operations, a monad.
* `Program.run` : a program under an interpreter.
* `Program.Ensures` : a program does not fault and ends in a postcondition.
* `Follows` : one computation does what another one does, up to a relation between the states.

## Main results

* `Program.follows` : **simulation**. If each operation follows its counterpart, so does each
  program.
-/

namespace ELuaBrain

/-- Programs over the operations `Op`, where `o : Op` responds with a `Resp o`. -/
inductive Program (Op : Type) (Resp : Op → Type) (α : Type) : Type
  | pure (a : α)
  | op (o : Op) (k : Resp o → Program Op Resp α)

/-- Computations on a state that may fault. -/
abbrev Comp (σ α : Type) := StateT σ Option α

variable {Op : Type} {Resp : Op → Type} {σ τ α β : Type}

namespace Program

/-- Sequential composition. -/
def bind : Program Op Resp α → (α → Program Op Resp β) → Program Op Resp β
  | pure a, f => f a
  | op o k, f => op o fun r => (k r).bind f

instance : Monad (Program Op Resp) where
  pure := pure
  bind := bind

/-- A single operation. -/
def perform (o : Op) : Program Op Resp (Resp o) := op o pure

/-- A program that is only run if the condition holds. -/
def when (c : Prop) [Decidable c] (p : Program Op Resp Unit) : Program Op Resp Unit :=
  if c then p else pure ()

/-- One program after another for each element of a list. -/
def forEach {ι : Type} : List ι → (ι → Program Op Resp Unit) → Program Op Resp Unit
  | [], _ => pure ()
  | i :: is, f => f i >>= fun _ => forEach is f

/-- The computation of a program under an interpreter. -/
def run (H : (o : Op) → Comp σ (Resp o)) : Program Op Resp α → Comp σ α
  | pure a => StateT.pure a
  | op o k => StateT.bind (H o) fun r => (k r).run H

end Program

/-! ### Running -/

namespace Program

variable (H : (o : Op) → Comp σ (Resp o)) (s : σ)

@[simp] theorem run_pure (a : α) :
    (Pure.pure a : Program Op Resp α).run H s = some (a, s) := rfl

@[simp] theorem run_perform (o : Op) : (perform o : Program Op Resp _).run H s = H o s := by
  change (H o s).bind (fun r => some (r.1, r.2)) = H o s
  exact Option.bind_fun_some _

@[simp] theorem run_bind (p : Program Op Resp α) (f : α → Program Op Resp β) :
    (p >>= f).run H s = (p.run H s).bind fun r => (f r.1).run H r.2 := by
  change (p.bind f).run H s = _
  induction p generalizing s with
  | pure a => rfl
  | op o k ih =>
    change ((H o s).bind fun r => ((k r.1).bind f).run H r.2) =
      ((H o s).bind fun r => (k r.1).run H r.2).bind fun r => (f r.1).run H r.2
    rw [Option.bind_assoc]
    congr 1
    funext r
    exact ih r.1 r.2

@[simp] theorem run_forEach_nil {ι : Type} (f : ι → Program Op Resp Unit) :
    (forEach [] f).run H s = some ((), s) := rfl

@[simp] theorem run_forEach_cons {ι : Type} (i : ι) (is : List ι)
    (f : ι → Program Op Resp Unit) :
    (forEach (i :: is) f).run H s =
      ((f i).run H s).bind fun r => (forEach is f).run H r.2 := by
  rw [forEach, run_bind]

theorem run_forEach_append {ι : Type} (is js : List ι) (f : ι → Program Op Resp Unit) :
    (forEach (is ++ js) f).run H s =
      ((forEach is f).run H s).bind fun r => (forEach js f).run H r.2 := by
  induction is generalizing s with
  | nil => rfl
  | cons i is ih =>
    rw [List.cons_append, run_forEach_cons, run_forEach_cons, Option.bind_assoc]
    exact congrArg _ (funext fun r => ih r.2)

end Program

/-! ### Postconditions -/

namespace Program

variable {H : (o : Op) → Comp σ (Resp o)} {s : σ}

/-- The program does not fault on the state `s`, and the postcondition holds at its end. -/
def Ensures (H : (o : Op) → Comp σ (Resp o)) (p : Program Op Resp α) (s : σ) (Q : α → σ → Prop) :
    Prop :=
  ∃ a s', p.run H s = some (a, s') ∧ Q a s'

theorem Ensures.mono {p : Program Op Resp α} {Q Q' : α → σ → Prop} (h : Ensures H p s Q)
    (hQ : ∀ a s', Q a s' → Q' a s') : Ensures H p s Q' := by
  obtain ⟨a, s', hrun, hpost⟩ := h
  exact ⟨a, s', hrun, hQ a s' hpost⟩

/-- The postcondition of a program with a known result. -/
theorem ensures_iff_of_run {p : Program Op Resp α} {Q : α → σ → Prop} {a : α} {s' : σ}
    (h : p.run H s = some (a, s')) : Ensures H p s Q ↔ Q a s' := by
  constructor
  · rintro ⟨b, s₁, hrun, hpost⟩
    obtain ⟨rfl, rfl⟩ := Prod.mk.inj (Option.some.inj (h.symm.trans hrun))
    exact hpost
  · exact fun hpost => ⟨a, s', h, hpost⟩

@[simp] theorem ensures_pure {Q : α → σ → Prop} (a : α) :
    Ensures H (Pure.pure a : Program Op Resp α) s Q ↔ Q a s :=
  ensures_iff_of_run (run_pure H s a)

@[simp] theorem ensures_bind {p : Program Op Resp α} {f : α → Program Op Resp β}
    {Q : β → σ → Prop} :
    Ensures H (p >>= f) s Q ↔ Ensures H p s fun a s' => Ensures H (f a) s' Q := by
  constructor
  · rintro ⟨b, s', hrun, hpost⟩
    rw [run_bind] at hrun
    obtain ⟨⟨a, s₁⟩, hrun₁, hrun₂⟩ := Option.bind_eq_some_iff.mp hrun
    exact ⟨a, s₁, hrun₁, b, s', hrun₂, hpost⟩
  · rintro ⟨a, s₁, hrun₁, b, s', hrun₂, hpost⟩
    refine ⟨b, s', ?_, hpost⟩
    rw [run_bind, hrun₁]
    exact hrun₂

@[simp] theorem ensures_ite {c : Prop} [Decidable c] {p q : Program Op Resp α}
    {Q : α → σ → Prop} :
    Ensures H (if c then p else q) s Q ↔ if c then Ensures H p s Q else Ensures H q s Q := by
  split <;> rfl

@[simp] theorem ensures_when {c : Prop} [Decidable c] {p : Program Op Resp Unit}
    {Q : Unit → σ → Prop} :
    Ensures H (when c p) s Q ↔ if c then Ensures H p s Q else Q () s := by
  unfold when
  split
  · rfl
  · exact ensures_pure ()

end Program

/-! ### Stepping through a computation -/

namespace Comp

variable {p : Comp σ α} {f : α → Comp σ β} {s s₁ : σ} {a : α}

/-- The rest of a computation after a step that does not fault. -/
theorem bind_eq (h : p s = some (a, s₁)) : (p >>= f) s = f a s₁ := by
  change (p s).bind (fun r => f r.1 r.2) = f a s₁
  rw [h]
  rfl

/-- A computation that does not fault does not fault at its first step. -/
theorem bind_eq_some {r : β × σ} :
    (p >>= f) s = some r ↔ ∃ a s₁, p s = some (a, s₁) ∧ f a s₁ = some r := by
  change (p s).bind (fun r => f r.1 r.2) = some r ↔ _
  simp only [Option.bind_eq_some_iff, Prod.exists]

@[simp] theorem pure_apply (a : α) (s : σ) : (pure a : Comp σ α) s = some (a, s) := rfl

@[simp] theorem modify_apply (g : σ → σ) (s : σ) : (modify g : Comp σ Unit) s = some ((), g s) :=
  rfl

@[simp] theorem get_apply (s : σ) : (get : Comp σ σ) s = some (s, s) := rfl

end Comp

/-! ### Simulation -/

/-- Whenever the second computation does not fault, the first one does the same. -/
def Follows (R : σ → τ → Prop) (p : Comp σ α) (q : Comp τ α) : Prop :=
  ∀ s t, R s t → ∀ a t', q t = some (a, t') → ∃ s', p s = some (a, s') ∧ R s' t'

theorem Follows.bind {R : σ → τ → Prop} {p : Comp σ α} {q : Comp τ α} {f : α → Comp σ β}
    {g : α → Comp τ β} (h : Follows R p q) (h' : ∀ a, Follows R (f a) (g a)) :
    Follows R (StateT.bind p f) (StateT.bind q g) := by
  intro s t hR b t' hq
  obtain ⟨⟨a, t₁⟩, hq₁, hq₂⟩ := Option.bind_eq_some_iff.mp hq
  obtain ⟨s₁, hp₁, hR₁⟩ := h s t hR a t₁ hq₁
  obtain ⟨s', hp₂, hR'⟩ := h' a s₁ t₁ hR₁ b t' hq₂
  exact ⟨s', Option.bind_eq_some_iff.mpr ⟨(a, s₁), hp₁, hp₂⟩, hR'⟩

/-- **Simulation.** If each operation follows its counterpart, so does each program. -/
theorem Program.follows {R : σ → τ → Prop} {H : (o : Op) → Comp σ (Resp o)}
    {H' : (o : Op) → Comp τ (Resp o)} (h : ∀ o, Follows R (H o) (H' o))
    (p : Program Op Resp α) : Follows R (p.run H) (p.run H') := by
  induction p with
  | pure a =>
    intro s t hR b t' hq
    obtain ⟨rfl, rfl⟩ := Prod.mk.inj (Option.some.inj hq)
    exact ⟨s, rfl, hR⟩
  | op o k ih => exact (h o).bind ih

end ELuaBrain
