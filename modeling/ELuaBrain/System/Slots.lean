import Mathlib.Data.Fintype.Card
import Mathlib.Data.List.FinRange

/-!
# Tables with slots

A table with a number of slots, each of which is in use or free, and the search for the first one
that is free.

## Main definitions

* `Slots.count` : the number of slots in use.
* `Slots.firstFree` : the first free slot.

## Main results

* `Slots.count_take`, `Slots.count_release` : a slot is taken or released.
* `Slots.exists_firstFree` : a table that is not full has a free slot.
-/

namespace ELuaBrain.Slots

variable {n : ℕ} {used : Fin n → Bool} {i : Fin n}

/-- The number of slots in use. -/
def count (used : Fin n → Bool) : ℕ := (Finset.univ.filter fun i => used i = true).card

/-- The first slot that is free. -/
def firstFree (used : Fin n → Bool) : Option (Fin n) := (List.finRange n).find? fun i => !used i

theorem count_free : count (fun _ : Fin n => false) = 0 := by
  rw [count, Finset.card_eq_zero, Finset.filter_eq_empty_iff]
  exact fun _ _ => Bool.false_ne_true

theorem count_take (h : used i = false) : count (Function.update used i true) = count used + 1 := by
  have hset : (Finset.univ.filter fun j => Function.update used i true j = true) =
      insert i (Finset.univ.filter fun j => used j = true) := by
    ext j
    by_cases hj : j = i
    · subst hj
      simp
    · simp [hj]
  rw [count, hset, Finset.card_insert_of_notMem (by simp [h]), count]

theorem count_release (h : used i = true) :
    count (Function.update used i false) + 1 = count used := by
  have hfree : Function.update used i false i = false := Function.update_self ..
  rw [← count_take hfree, Function.update_idem, ← h, Function.update_eq_self]

theorem count_le : count used ≤ n :=
  (Finset.card_le_univ _).trans (Fintype.card_fin n).le

theorem firstFree_eq_some (h : firstFree used = some i) : used i = false := by
  have hfree := List.find?_some h
  simpa using hfree

/-- **A table that is not full** has a free slot. -/
theorem exists_firstFree (h : count used < n) : ∃ i, firstFree used = some i := by
  by_contra hnone
  have hall : ∀ i, used i = true := fun i => by
    have hfind := Option.eq_none_iff_forall_ne_some.mpr fun i hi => hnone ⟨i, hi⟩
    have hi := List.find?_eq_none.mp hfind i (List.mem_finRange i)
    simpa using hi
  have hcount : count used = n := by
    rw [count, Finset.filter_true_of_mem fun i _ => hall i, Finset.card_univ, Fintype.card_fin]
  exact absurd hcount h.ne

end ELuaBrain.Slots
