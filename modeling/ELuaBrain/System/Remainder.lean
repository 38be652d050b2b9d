import ELuaBrain.System.BitPoly
import ELuaBrain.System.Crc
import Mathlib.RingTheory.AdjoinRoot
import Mathlib.Tactic.ComputeDegree

/-!
# The check sum as a remainder

The check sum of 16 bits is the remainder of a division of polynomials: the bytes, moved up by 16
bits, are divided by `x^16 + x^12 + x^5 + 1`. Bytes with their check sum behind them are a multiple
of that polynomial, and a burst of errors makes them something else.

## Main definitions

* `ccitt` : the polynomial.

## Main results

* `crc16_remainder` : the check sum is the remainder.
* `crc16_eq_iff_dvd` : the check sum is right if and only if the whole is a multiple.
* `crc16_burst` : a burst of at most 16 bits is found.
-/

namespace ELuaBrain

open Polynomial

/-- `x^16 + x^12 + x^5 + 1`. -/
noncomputable def ccitt : (ZMod 2)[X] := X ^ 16 + X ^ 12 + X ^ 5 + 1

/-! ### The polynomial -/

theorem natDegree_ccitt : ccitt.natDegree = 16 := by
  unfold ccitt
  compute_degree!

theorem monic_ccitt : ccitt.Monic := by
  unfold ccitt
  monicity!

theorem degree_ccitt : ccitt.degree = 16 := by
  rw [degree_eq_natDegree monic_ccitt.ne_zero, natDegree_ccitt]
  rfl

theorem coeff_zero_ccitt : ccitt.coeff 0 ≠ 0 := by
  simp [ccitt]

/-- The number that is subtracted, with the bit above it. -/
theorem bitPoly_ccitt : bitPoly (2 ^ 16 ^^^ 0x1021) = ccitt := by
  have hbits : 0x1021 = 2 ^ 12 ^^^ 2 ^ 5 ^^^ 1 := by decide
  simp only [hbits, bitPoly_xor, bitPoly_two_pow, bitPoly_one]
  rw [ccitt, add_assoc, add_assoc, add_assoc]

/-! ### The register -/

section Register

variable (c : UInt16) (b : UInt8) (bs : List UInt8)

/-- The polynomial of a number, up to multiples of the divisor. -/
noncomputable def residue (n : ℕ) : AdjoinRoot ccitt := AdjoinRoot.mk ccitt (bitPoly n)

/-- The residue of `x`. -/
noncomputable def shiftRoot : AdjoinRoot ccitt := AdjoinRoot.root ccitt

@[simp] theorem residue_zero : residue 0 = 0 := by
  rw [residue, bitPoly_zero, map_zero]

@[simp] theorem residue_one : residue 1 = 1 := by
  rw [residue, bitPoly_one, map_one]

theorem residue_xor (m n : ℕ) : residue (m ^^^ n) = residue m + residue n := by
  rw [residue, bitPoly_xor, map_add]
  rfl

theorem residue_add_self (n : ℕ) : residue n + residue n = 0 := by
  rw [← residue_xor, Nat.xor_self, residue_zero]

theorem residue_two_pow_mul_add (k m : ℕ) {n : ℕ} (h : n < 2 ^ k) :
    residue (2 ^ k * m + n) = shiftRoot ^ k * residue m + residue n := by
  rw [residue, bitPoly_two_pow_mul_add m h, map_add, map_mul, map_pow, AdjoinRoot.mk_X]
  rfl

theorem residue_two_pow_mul (k m : ℕ) : residue (2 ^ k * m) = shiftRoot ^ k * residue m := by
  rw [residue, bitPoly_two_pow_mul, map_mul, map_pow, AdjoinRoot.mk_X]
  rfl

/-- What a bit that is shifted out stands for. -/
theorem shiftRoot_pow : shiftRoot ^ 16 = residue 0x1021 := by
  have hpow : residue (2 ^ 16) = shiftRoot ^ 16 := by
    have hmul := residue_two_pow_mul 16 1
    rwa [Nat.mul_one, residue_one, mul_one] at hmul
  have hzero : residue (2 ^ 16 ^^^ 0x1021) = 0 := by
    rw [residue, bitPoly_ccitt, AdjoinRoot.mk_self]
  rw [residue_xor, hpow, ← residue_add_self 0x1021] at hzero
  exact add_right_cancel hzero

/-- The highest bit of a register. -/
theorem and_high_ne_zero : c &&& 0x8000 ≠ 0 ↔ 2 ^ 15 ≤ c.toNat := by
  have hlt := c.toNat_lt
  have hand : (c &&& 0x8000).toNat = (c.toNat.testBit 15).toNat * 2 ^ 15 := by
    rw [UInt16.toNat_and]
    exact Nat.and_two_pow c.toNat 15
  have hbit : c.toNat.testBit 15 = true ↔ 2 ^ 15 ≤ c.toNat := by
    rw [Nat.testBit_eq_decide_div_mod_eq, decide_eq_true_iff]
    omega
  rw [← hbit, ne_eq, ← UInt16.toNat_inj, hand]
  cases c.toNat.testBit 15 <;> decide

/-- One bit multiplies the register by `x`. -/
theorem residue_crcBit : residue (crcBit c).toNat = shiftRoot * residue c.toNat := by
  have hlt := c.toNat_lt
  have hdouble : residue (2 ^ 1 * c.toNat) = shiftRoot * residue c.toNat := by
    rw [residue_two_pow_mul, pow_one]
  have hshift : (c <<< 1).toNat = 2 * c.toNat % 2 ^ 16 := by
    rw [UInt16.toNat_shiftLeft]
    exact congrArg (· % 2 ^ 16) ((Nat.shiftLeft_eq _ _).trans (Nat.mul_comm _ _))
  rw [crcBit, ← hdouble]
  split_ifs with hhigh
  · have hle := (and_high_ne_zero c).mp hhigh
    have hsplit : 2 ^ 1 * c.toNat = 2 ^ 16 * 1 + (2 * c.toNat - 2 ^ 16) := by omega
    have hcut : (c <<< 1).toNat = 2 * c.toNat - 2 ^ 16 := by omega
    have hrest : 2 * c.toNat - 2 ^ 16 < 2 ^ 16 := by omega
    have hconst : (0x1021 : UInt16).toNat = 0x1021 := rfl
    rw [hsplit, residue_two_pow_mul_add 16 1 hrest, residue_one, mul_one, shiftRoot_pow,
      UInt16.toNat_xor, residue_xor, hcut, hconst, add_comm]
  · have hlow : c.toNat < 2 ^ 15 := Nat.lt_of_not_le fun hle => hhigh ((and_high_ne_zero c).mpr hle)
    rw [hshift, Nat.mod_eq_of_lt (by omega), pow_one]

theorem residue_iterate_crcBit (n : ℕ) :
    residue (crcBit^[n] c).toNat = shiftRoot ^ n * residue c.toNat := by
  induction n generalizing c with
  | zero => rw [Function.iterate_zero_apply, pow_zero, one_mul]
  | succ n ih => rw [Function.iterate_succ_apply, ih, residue_crcBit, pow_succ, mul_assoc]

/-- One byte. -/
theorem residue_crcByte : residue (crcByte c b).toNat =
    shiftRoot ^ 8 * residue c.toNat + shiftRoot ^ 16 * residue b.toNat := by
  have hlt := b.toNat_lt
  have hbyte : (b.toUInt16 <<< 8).toNat = 2 ^ 8 * b.toNat := by
    rw [UInt16.toNat_shiftLeft, UInt8.toNat_toUInt16, Nat.shiftLeft_eq]
    change b.toNat * 2 ^ 8 % 2 ^ 16 = 2 ^ 8 * b.toNat
    omega
  rw [crcByte, residue_iterate_crcBit, UInt16.toNat_xor, residue_xor, hbyte, residue_two_pow_mul]
  ring

/-- All bytes. -/
theorem residue_crc16 : residue (crc16 bs).toNat = shiftRoot ^ 16 * residue (bigEndian bs) := by
  induction bs using List.reverseRecOn with
  | nil => exact residue_zero.trans (mul_zero _).symm
  | append_singleton bs b ih =>
    have hconcat : crc16 (bs ++ [b]) = crcByte (crc16 bs) b := by
      rw [crc16, List.foldl_append]
      rfl
    rw [hconcat, residue_crcByte, ih, bigEndian_concat, residue_two_pow_mul_add 8 _ b.toNat_lt]
    ring

end Register

/-! ### The check sum -/

variable {bs bs' : List UInt8}

/-- **The check sum is the remainder** of the bytes, moved up by 16 bits. -/
theorem crc16_remainder (bs : List UInt8) :
    bitPoly (crc16 bs).toNat = (X ^ 16 * bitPoly (bigEndian bs)) %ₘ ccitt := by
  have hdegree : (bitPoly (crc16 bs).toNat).degree < ccitt.degree := by
    rw [degree_ccitt]
    exact degree_bitPoly_lt (crc16 bs).toNat_lt
  have hdvd : ccitt ∣ bitPoly (crc16 bs).toNat - X ^ 16 * bitPoly (bigEndian bs) := by
    rw [← AdjoinRoot.mk_eq_mk, map_mul, map_pow, AdjoinRoot.mk_X]
    exact residue_crc16 bs
  rw [← (modByMonic_eq_self_iff monic_ccitt).mpr hdegree]
  exact modByMonic_eq_of_dvd_sub monic_ccitt hdvd

/-- The check sum of the digits `1` to `9`. -/
example : crc16 [0x31, 0x32, 0x33, 0x34, 0x35, 0x36, 0x37, 0x38, 0x39] = 0x31C3 := by decide +kernel

/-- The check sum is right if and only if the whole is a multiple of the polynomial. -/
theorem crc16_eq_iff_dvd {x : ℕ} (hx : x < 2 ^ 16) :
    (crc16 bs).toNat = x ↔ ccitt ∣ bitPoly (2 ^ 16 * bigEndian bs + x) := by
  have hresidue : residue (2 ^ 16 * bigEndian bs + x) = residue (crc16 bs).toNat + residue x := by
    rw [residue_two_pow_mul_add 16 _ hx, residue_crc16]
  rw [← AdjoinRoot.mk_eq_zero]
  change _ ↔ residue _ = 0
  rw [hresidue, ← residue_xor]
  constructor
  · rintro rfl
    rw [Nat.xor_self, residue_zero]
  · intro hzero
    have hlt : (crc16 bs).toNat ^^^ x < 2 ^ 16 := Nat.xor_lt_two_pow (crc16 bs).toNat_lt hx
    by_contra hne
    have hpoly : bitPoly ((crc16 bs).toNat ^^^ x) ≠ 0 := fun h0 =>
      hne (Nat.xor_eq_zero_iff.mp (bitPoly_injective (h0.trans bitPoly_zero.symm)))
    refine monic_ccitt.not_dvd_of_degree_lt hpoly ?_ (AdjoinRoot.mk_eq_zero.mp hzero)
    rw [degree_ccitt]
    exact degree_bitPoly_lt hlt

/-- **A burst is found.** Of two sequences of bytes that differ by a burst of at most 16 bits, their
check sums included, at most one has the right check sum. -/
theorem crc16_burst {x y : ℕ} (hx : x < 2 ^ 16) (hy : y < 2 ^ 16) (h : (crc16 bs).toNat = x)
    (hburst : Burst 16 (2 ^ 16 * bigEndian bs + x) (2 ^ 16 * bigEndian bs' + y)) :
    (crc16 bs').toNat ≠ y := by
  intro h'
  refine not_dvd_of_burst coeff_zero_ccitt natDegree_ccitt.ge hburst ?_
  rw [bitPoly_xor]
  exact dvd_add ((crc16_eq_iff_dvd hx).mp h) ((crc16_eq_iff_dvd hy).mp h')

end ELuaBrain
