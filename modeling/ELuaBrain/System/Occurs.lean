import Mathlib.Data.List.Infix

/-!
# The first occurrence of a list in another one

What a search from left to right knows about the places it has left behind.

## Main definitions

* `NoneBefore s w n` : the list `s` does not occur in `w` at a place before `n`.

## Main results

* `NoneBefore.append` : the search goes on.
* `NoneBefore.length_le` : an occurrence behind such places is the first one.
* `NoneBefore.not_infix` : there is no occurrence if the search is at an end.
-/

namespace ELuaBrain

variable {α : Type*} {s u w : List α} {m n : ℕ}

/-- The list `s` does not occur in `w` at a place before `n`. -/
def NoneBefore (s w : List α) (n : ℕ) : Prop := ∀ j < n, ¬ s <+: w.drop j

instance [DecidableEq α] (s w : List α) (n : ℕ) : Decidable (NoneBefore s w n) :=
  inferInstanceAs (Decidable (∀ j < n, ¬ s <+: w.drop j))

theorem noneBefore_zero (s w : List α) : NoneBefore s w 0 :=
    fun _ hj => absurd hj (Nat.not_lt_zero _)

/-- A list occurs in another one at some place. -/
theorem infix_iff_exists_drop : s <:+: w ↔ ∃ j, s <+: w.drop j := by
  constructor
  · rintro ⟨pre, rest, rfl⟩
    refine ⟨pre.length, ?_⟩
    rw [List.append_assoc, List.drop_left]
    exact List.prefix_append _ _
  · rintro ⟨j, hj⟩
    exact hj.isInfix.trans (List.drop_suffix j w).isInfix

/-- **The search goes on.** -/
theorem NoneBefore.append (h : NoneBefore s (u ++ w) u.length) (hw : NoneBefore s w m) :
    NoneBefore s (u ++ w) (u.length + m) := by
  intro j hj
  rcases Nat.lt_or_ge j u.length with hlt | hge
  · exact h j hlt
  · obtain ⟨i, rfl⟩ := Nat.exists_eq_add_of_le hge
    rw [← List.drop_drop, List.drop_left]
    exact hw i (Nat.lt_of_add_lt_add_left hj)

/-- **The first occurrence.** -/
theorem NoneBefore.length_le {rest pre rest' : List α} (h : NoneBefore s (u ++ s ++ rest) u.length)
    (heq : u ++ s ++ rest = pre ++ s ++ rest') : u.length ≤ pre.length := by
  by_contra hlt
  refine h pre.length (Nat.lt_of_not_le hlt) ?_
  rw [heq, List.append_assoc, List.drop_left]
  exact List.prefix_append _ _

/-- **No occurrence.** -/
theorem NoneBefore.not_infix (h : NoneBefore s (u ++ w) u.length) (hw : ¬ s <:+: w) :
    ¬ s <:+: u ++ w := by
  intro hin
  obtain ⟨j, hj⟩ := infix_iff_exists_drop.mp hin
  rcases Nat.lt_or_ge j u.length with hlt | hge
  · exact h j hlt hj
  · obtain ⟨i, rfl⟩ := Nat.exists_eq_add_of_le hge
    rw [← List.drop_drop, List.drop_left] at hj
    exact hw (infix_iff_exists_drop.mpr ⟨i, hj⟩)

end ELuaBrain
