import Mathlib.Algebra.Field.ZMod
import Mathlib.Algebra.Polynomial.FieldDivision
import Mathlib.Data.Nat.Bitwise
import Mathlib.Data.UInt
import Mathlib.RingTheory.PrincipalIdealDomain

/-!
# Polynomials of bits

The bits of a number are the coefficients of a polynomial over the field of two elements. Exclusive
or of numbers is the sum of their polynomials. A polynomial that is not divisible by `X` divides no
burst of errors that is shorter than its degree.

## Main definitions

* `bitPoly` : the polynomial of a number.
* `bigEndian` : the number that bytes make up, the first byte highest.
* `Burst` : two numbers differ, and only in some bits in a row.

## Main results

* `bitPoly_xor`, `bitPoly_two_pow_mul_add` : the operations on numbers.
* `not_dvd_of_burst` : a burst is found.
-/

namespace ELuaBrain

open Polynomial

/-- The polynomial whose coefficients are the bits of a number. -/
noncomputable def bitPoly (n : ℕ) : (ZMod 2)[X] :=
  ∑ i ∈ Finset.range n with n.testBit i = true, X ^ i

/-- The number with these bytes, the first one highest. -/
def bigEndian (bs : List UInt8) : ℕ := bs.foldl (fun n b => 2 ^ 8 * n + b.toNat) 0

/-- The numbers differ, and all bits in which they do are among `k` bits in a row. -/
def Burst (k a b : ℕ) : Prop :=
  a ≠ b ∧ ∃ i, ∀ j, a.testBit j ≠ b.testBit j → i ≤ j ∧ j < i + k

variable {a b k n : ℕ}

/-! ### The polynomial of a number -/

theorem coeff_bitPoly (n i : ℕ) : (bitPoly n).coeff i = if n.testBit i then 1 else 0 := by
  have hmem : i ∈ (Finset.range n).filter (fun i => n.testBit i = true) ↔ n.testBit i = true := by
    rw [Finset.mem_filter, Finset.mem_range]
    refine and_iff_right_of_imp fun hbit => ?_
    exact Nat.lt_two_pow_self.trans_le (Nat.ge_two_pow_of_testBit hbit)
  simp only [bitPoly, finsetSum_coeff, coeff_X_pow, Finset.sum_ite_eq, hmem]

@[simp] theorem bitPoly_zero : bitPoly 0 = 0 := Finset.sum_empty

theorem bitPoly_injective : Function.Injective bitPoly := by
  intro a b h
  refine Nat.eq_of_testBit_eq fun i => ?_
  have hcoeff : (bitPoly a).coeff i = (bitPoly b).coeff i := by rw [h]
  rw [coeff_bitPoly, coeff_bitPoly] at hcoeff
  cases ha : a.testBit i <;> cases hb : b.testBit i <;> simp [ha, hb] at hcoeff ⊢

/-- Exclusive or adds the polynomials. -/
theorem bitPoly_xor (a b : ℕ) : bitPoly (a ^^^ b) = bitPoly a + bitPoly b := by
  ext i
  rw [coeff_add, coeff_bitPoly, coeff_bitPoly, coeff_bitPoly, Nat.testBit_xor]
  cases a.testBit i <;> cases b.testBit i <;> decide

/-- Numbers behind one another. -/
theorem bitPoly_two_pow_mul_add (a : ℕ) (hb : b < 2 ^ k) :
    bitPoly (2 ^ k * a + b) = X ^ k * bitPoly a + bitPoly b := by
  ext i
  rw [coeff_add, coeff_X_pow_mul', coeff_bitPoly, coeff_bitPoly, coeff_bitPoly,
    Nat.testBit_two_pow_mul_add a hb i]
  by_cases hi : i < k
  · rw [if_pos hi, if_neg (Nat.not_le.mpr hi), zero_add]
  · have hlow : b.testBit i = false :=
      Nat.testBit_lt_two_pow (hb.trans_le (Nat.pow_le_pow_right (by decide) (Nat.le_of_not_lt hi)))
    rw [if_neg hi, if_pos (Nat.le_of_not_lt hi), hlow, if_neg Bool.false_ne_true, add_zero]

theorem bitPoly_two_pow_mul (k a : ℕ) : bitPoly (2 ^ k * a) = X ^ k * bitPoly a := by
  have h := bitPoly_two_pow_mul_add a (Nat.two_pow_pos k)
  rwa [Nat.add_zero, bitPoly_zero, add_zero] at h

@[simp] theorem bitPoly_one : bitPoly 1 = 1 := by
  ext i
  rw [coeff_bitPoly, coeff_one]
  exact if_congr Nat.testBit_one_eq_true_iff_self_eq_zero rfl rfl

theorem bitPoly_two_pow (k : ℕ) : bitPoly (2 ^ k) = X ^ k := by
  have h := bitPoly_two_pow_mul k 1
  rwa [Nat.mul_one, bitPoly_one, mul_one] at h

theorem degree_bitPoly_lt (h : n < 2 ^ k) : (bitPoly n).degree < k := by
  rw [degree_lt_iff_coeff_zero]
  intro i hi
  have hbit : n.testBit i = false :=
    Nat.testBit_lt_two_pow (h.trans_le (Nat.pow_le_pow_right (by decide) hi))
  rw [coeff_bitPoly, hbit, if_neg Bool.false_ne_true]

/-! ### Bytes -/

@[simp] theorem bigEndian_nil : bigEndian [] = 0 := rfl

theorem bigEndian_concat (bs : List UInt8) (b : UInt8) :
    bigEndian (bs ++ [b]) = 2 ^ 8 * bigEndian bs + b.toNat := by
  rw [bigEndian, List.foldl_append]
  rfl

/-! ### Bursts -/

/-- The difference is a short number, moved up. -/
theorem Burst.exists_eq (h : Burst k a b) :
    ∃ i e, a ^^^ b = 2 ^ i * e ∧ e ≠ 0 ∧ e < 2 ^ k := by
  obtain ⟨hne, i, hin⟩ := h
  have hbit : ∀ j, (a ^^^ b).testBit j = true → i ≤ j ∧ j < i + k := by
    intro j hj
    rw [Nat.testBit_xor, bne_iff_ne] at hj
    exact hin j hj
  have heq : a ^^^ b = 2 ^ i * ((a ^^^ b) >>> i) := by
    refine Nat.eq_of_testBit_eq fun j => ?_
    rw [Nat.testBit_two_pow_mul, Nat.testBit_shiftRight]
    by_cases hj : i ≤ j
    · rw [decide_eq_true hj, Bool.true_and, Nat.add_sub_cancel' hj]
    · rw [decide_eq_false hj, Bool.false_and]
      exact Bool.eq_false_iff.mpr fun hset => hj (hbit j hset).1
  refine ⟨i, (a ^^^ b) >>> i, heq, fun h0 => hne ?_, ?_⟩
  · rw [h0, Nat.mul_zero] at heq
    exact Nat.xor_eq_zero_iff.mp heq
  · refine Nat.lt_pow_two_of_testBit _ fun j hj => ?_
    rw [Nat.testBit_shiftRight]
    refine Bool.eq_false_iff.mpr fun hset => ?_
    have := (hbit (i + j) hset).2
    omega

/-- **A burst is found.** A polynomial with a constant term divides no burst of at most as many
bits as its degree. -/
theorem not_dvd_of_burst {g : (ZMod 2)[X]} (hg : g.coeff 0 ≠ 0) (hk : k ≤ g.natDegree)
    (h : Burst k a b) : ¬ g ∣ bitPoly (a ^^^ b) := by
  obtain ⟨i, e, heq, hne, hlt⟩ := h.exists_eq
  intro hdvd
  rw [heq, bitPoly_two_pow_mul] at hdvd
  have hcoprime : IsCoprime (X ^ i) g := by
    have hX : Irreducible (X : (ZMod 2)[X]) := irreducible_X
    refine IsCoprime.pow_left ?_
    rw [hX.coprime_iff_not_dvd, X_dvd_iff]
    exact hg
  have hdvd' : g ∣ bitPoly e := hcoprime.symm.dvd_of_dvd_mul_left hdvd
  have hpoly : bitPoly e ≠ 0 := fun h0 => hne (bitPoly_injective (h0.trans bitPoly_zero.symm))
  have hdegree : g.degree ≤ (bitPoly e).degree := degree_le_of_dvd hdvd' hpoly
  have hgne : g ≠ 0 := fun h0 => hg (by rw [h0, coeff_zero])
  rw [degree_eq_natDegree hgne] at hdegree
  have hk' : ((g.natDegree : ℕ) : WithBot ℕ) < k := hdegree.trans_lt (degree_bitPoly_lt hlt)
  exact absurd (WithBot.coe_lt_coe.mp hk') (Nat.not_lt.mpr hk)

end ELuaBrain
