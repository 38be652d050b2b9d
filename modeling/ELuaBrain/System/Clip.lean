import Mathlib.Data.Int.Order.Basic
import Mathlib.Order.MinMax

/-!
# Clipping after truncation

A number is clipped to two limits. The limits fit into a word, the number need not: it is truncated
to the word first, and clipped then. The result is right unless what is left of the number is on
another side of a limit.

## Main definitions

* `clip` : the number that is clipped to two limits.
* `HarmlessWrap` : the truncation does not change what is clipped.

## Main results

* `clip_bmod_iff` : when a truncated number is clipped to the right number.
* `clip_mem_iff` : when a clipped number is in a range.
-/

namespace ELuaBrain

/-- A number that is clipped to the limits `lo` and `hi`. -/
def clip (lo hi x : ℤ) : ℤ := max lo (min hi x)

/-- A number in words from `-m` to `m - 1` that is truncated to the same side of the limits. -/
def HarmlessWrap (m : ℕ) (lo hi x : ℤ) : Prop :=
  (-m ≤ x ∧ x < m) ∨ lo = hi ∨ (m ≤ x ∧ hi ≤ x.bmod (2 * m)) ∨ (x < -m ∧ x.bmod (2 * m) ≤ lo)

instance decidableHarmlessWrap (m : ℕ) (lo hi x : ℤ) : Decidable (HarmlessWrap m lo hi x) :=
  inferInstanceAs (Decidable (_ ∨ _ ∨ _ ∨ _))

variable {m : ℕ} {lo hi x : ℤ}

theorem bmod_range (hm : 0 < m) (x : ℤ) : -m ≤ x.bmod (2 * m) ∧ x.bmod (2 * m) < m := by
  have hle := Int.le_bmod (x := x) (m := 2 * m) (by omega)
  have hlt := Int.bmod_lt (x := x) (m := 2 * m) (by omega)
  push_cast at hle hlt
  omega

theorem bmod_of_range (hle : -m ≤ x) (hlt : x < m) : x.bmod (2 * m) = x :=
  Int.bmod_eq_of_le (by push_cast; omega) (by push_cast; omega)

/-- A truncated number is clipped as the number, if and only if the limits are in order and the
truncation is harmless. -/
theorem clip_bmod_iff (hm : 0 < m) (hlo : -m ≤ lo) (hlo' : lo < m) (hhi : -m ≤ hi) (hhi' : hi < m) :
    min hi (max lo (x.bmod (2 * m))) = clip lo hi x ↔ lo ≤ hi ∧ HarmlessWrap m lo hi x := by
  have hrange := bmod_range hm x
  have hsame := @bmod_of_range m x
  rw [clip, HarmlessWrap]
  generalize x.bmod (2 * m) = t at hrange hsame ⊢
  by_cases hfits : -m ≤ x ∧ x < m
  · rw [hsame hfits.1 hfits.2]
    omega
  · omega

/-- A clipped number is in a range, if the limits meet it, and neither a number outside it nor
a limit outside it is taken. -/
theorem clip_mem_iff {a b : ℤ} (h : lo ≤ hi) : a ≤ clip lo hi x ∧ clip lo hi x ≤ b ↔
    a ≤ hi ∧ lo ≤ b ∧ (lo < a → a ≤ x) ∧ (b < hi → x ≤ b) := by
  rw [clip]
  omega

end ELuaBrain
