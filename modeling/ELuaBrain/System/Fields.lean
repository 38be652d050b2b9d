import ELuaBrain.System.Bytes
import Mathlib.Data.Nat.Bitwise
import Mathlib.Algebra.Order.Ring.Nat

/-!
# Fields of bits

The fields of a number, and numbers of less than a byte that are packed into bytes, the first one in
the highest bits of its byte.

## Main definitions

* `bitField` : some bits of a number.
* `WritesField` : a number with other bits in a field.
* `packedField` : one of the numbers that are packed into bytes.

## Main results

* `packedField_overlay` : what is packed once a byte is replaced by one with another field.
-/

namespace ELuaBrain

/-! ### One field -/

/-- The `w` bits of `b` from `p` on. -/
def bitField (b p w : ℕ) : ℕ := (b >>> p) % 2 ^ w

/-- `c` has the bits of `x` in the field of `w` bits from `p` on, and elsewhere those of `b`. -/
def WritesField (b p w x c : ℕ) : Prop :=
  ∀ t, c.testBit t = if p ≤ t ∧ t < p + w then x.testBit (t - p) else b.testBit t

variable {b c p q w x : ℕ}

theorem testBit_bitField (t : ℕ) :
    (bitField b p w).testBit t = (decide (t < w) && b.testBit (p + t)) := by
  rw [bitField, Nat.testBit_mod_two_pow, Nat.testBit_shiftRight]

/-- The field that is written. -/
theorem WritesField.self (h : WritesField b p w x c) : bitField c p w = x % 2 ^ w := by
  refine Nat.eq_of_testBit_eq fun t => ?_
  rw [testBit_bitField, Nat.testBit_mod_two_pow]
  by_cases ht : t < w
  · have hin : p ≤ p + t ∧ p + t < p + w := by omega
    rw [h, if_pos hin, Nat.add_sub_cancel_left]
  · simp [ht]

/-- A field beside the one that is written. -/
theorem WritesField.other (h : WritesField b p w x c) (hdisjoint : q + w ≤ p ∨ p + w ≤ q) :
    bitField c q w = bitField b q w := by
  refine Nat.eq_of_testBit_eq fun t => ?_
  rw [testBit_bitField, testBit_bitField]
  by_cases ht : t < w
  · have hout : ¬ (p ≤ q + t ∧ q + t < p + w) := by omega
    rw [h, if_neg hout]
  · simp [ht]

/-! ### Packed fields -/

/-- The number `k` of those that are packed into bytes, `n` into each of them, with `w` bits. -/
def packedField (m : Memory) (n w k : ℕ) : ℕ :=
  bitField (m (k / n)).toNat ((n - 1 - k % n) * w) w

variable {m : Memory} {n k j : ℕ}

/-- Two fields of one byte are side by side. -/
theorem field_disjoint (hn : 0 < n) (hbyte : j / n = k / n) (hne : j ≠ k) :
    (n - 1 - j % n) * w + w ≤ (n - 1 - k % n) * w ∨
      (n - 1 - k % n) * w + w ≤ (n - 1 - j % n) * w := by
  have hmod : j % n ≠ k % n := fun h => hne (by
    rw [← Nat.div_add_mod j n, ← Nat.div_add_mod k n, hbyte, h])
  have hj := Nat.mod_lt j hn
  have hk := Nat.mod_lt k hn
  rw [← Nat.succ_mul, ← Nat.succ_mul]
  rcases Nat.lt_or_gt_of_ne hmod with hlt | hgt
  · exact Or.inr (Nat.mul_le_mul_right w (by omega))
  · exact Or.inl (Nat.mul_le_mul_right w (by omega))

/-- A byte with another number in the place of number `k` changes this number only. -/
theorem packedField_overlay {c : UInt8} (hn : 0 < n)
    (h : WritesField (m (k / n)).toNat ((n - 1 - k % n) * w) w x c.toNat) :
    packedField (m.overlay (k / n) [c]) n w j =
      if j = k then x % 2 ^ w else packedField m n w j := by
  have hnew : m.overlay (k / n) [c] (k / n) = c :=
    Memory.overlay_add (p := k / n) (k := 0) (by simp)
  unfold packedField
  split_ifs with hjk
  · rw [hjk, hnew, h.self]
  · by_cases hbyte : j / n = k / n
    · rw [hbyte, hnew, h.other (field_disjoint hn hbyte hjk)]
    · have hout : j / n < k / n ∨ k / n + [c].length ≤ j / n := by
        rw [List.length_singleton]
        omega
      rcases hout with hout | hout
      · rw [Memory.overlay_of_lt hout]
      · rw [Memory.overlay_of_le hout]

end ELuaBrain
