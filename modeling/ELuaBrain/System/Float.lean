import Mathlib.Data.Rat.Cast.Order
import Mathlib.Data.Nat.Log
import Mathlib.Algebra.Order.Field.Power
import Mathlib.Tactic.Ring
import Mathlib.Tactic.Linarith

/-!
# Binary floating-point formats

The finite values of the words of a binary format, and the word of an integer, rounded to nearest
with ties to even.

## Main definitions

* `FloatFormat`, `FloatFormat.value` : a format, and the value of a word if it is finite.
* `FloatFormat.ofInt` : the word of an integer.

## Main results

* `FloatFormat.value_ofInt` : an integer that is the value of some word is the value of its own
  word.
* `FloatFormat.value_ofInt_le` : the word of an integer is finite and rounds to no more than a
  power of two above the integer.
-/

namespace ELuaBrain

/-- A binary format, by the bits of its fraction and of its exponent. -/
structure FloatFormat where
  frac : ℕ
  ebits : ℕ
  two_le : 2 ≤ ebits

namespace FloatFormat

variable (f : FloatFormat)

def bias : ℕ := 2 ^ (f.ebits - 1) - 1

def fraction (x : ℕ) : ℕ := x % 2 ^ f.frac

def exponent (x : ℕ) : ℕ := x / 2 ^ f.frac % 2 ^ f.ebits

def Negative (x : ℕ) : Prop := x / 2 ^ (f.frac + f.ebits) % 2 = 1

instance (x : ℕ) : Decidable (f.Negative x) := inferInstanceAs (Decidable (_ = _))

/-- The fraction with its leading bit. -/
def significand (x : ℕ) : ℕ := if f.exponent x = 0 then f.fraction x else 2 ^ f.frac + f.fraction x

/-- The power of two that the significand is multiplied with. -/
def power (x : ℕ) : ℤ := (if f.exponent x = 0 then 1 else f.exponent x : ℕ) - f.bias - f.frac

def magnitude (x : ℕ) : ℚ := f.significand x * 2 ^ f.power x

/-- The value of a word, if it is neither infinite nor a NaN. -/
def value (x : ℕ) : Option ℚ :=
  if f.exponent x = 2 ^ f.ebits - 1 then none
  else some (if f.Negative x then -f.magnitude x else f.magnitude x)

def IsNaN (x : ℕ) : Prop := f.exponent x = 2 ^ f.ebits - 1 ∧ f.fraction x ≠ 0

instance (x : ℕ) : Decidable (f.IsNaN x) := inferInstanceAs (Decidable (_ ∧ _))

/-- The quotient, rounded to nearest with ties to even. -/
def roundQuot (a b : ℕ) : ℕ :=
  if b < 2 * (a % b) ∨ b = 2 * (a % b) ∧ a / b % 2 = 1 then a / b + 1 else a / b

/-- The word of a natural number. -/
def ofNat (m : ℕ) : ℕ :=
  if m = 0 then 0
  else (m.log2 + f.bias) * 2 ^ f.frac + (roundQuot (m * 2 ^ f.frac) (2 ^ m.log2) - 2 ^ f.frac)

/-- The word of an integer. -/
def ofInt (z : ℤ) : ℕ := (if z < 0 then 2 ^ (f.frac + f.ebits) else 0) + f.ofNat z.natAbs

variable {f} {m x e r : ℕ} {z : ℤ}

theorem not_isNaN_of_value {q : ℚ} (h : f.value x = some q) : ¬f.IsNaN x := fun hnan => by
  rw [value, if_pos hnan.1] at h
  exact nomatch h

theorem roundQuot_of_dvd {a b : ℕ} (hb : 0 < b) (h : b ∣ a) : roundQuot a b = a / b := by
  rw [roundQuot, Nat.mod_eq_zero_of_dvd h, if_neg (by omega)]

/-- A word by its fields. -/
theorem fields (hr : r < 2 ^ f.frac) (he : e < 2 ^ f.ebits) (s : ℕ) :
    f.fraction (s * 2 ^ (f.frac + f.ebits) + (e * 2 ^ f.frac + r)) = r ∧
      f.exponent (s * 2 ^ (f.frac + f.ebits) + (e * 2 ^ f.frac + r)) = e ∧
      (s * 2 ^ (f.frac + f.ebits) + (e * 2 ^ f.frac + r)) / 2 ^ (f.frac + f.ebits) = s := by
  have hpos : 0 < 2 ^ f.frac := Nat.two_pow_pos _
  have heq : s * 2 ^ (f.frac + f.ebits) + (e * 2 ^ f.frac + r) =
      (s * 2 ^ f.ebits + e) * 2 ^ f.frac + r := by
    rw [Nat.pow_add]
    ring
  have hlow : e * 2 ^ f.frac + r < 2 ^ (f.frac + f.ebits) := by
    rw [Nat.pow_add]
    calc e * 2 ^ f.frac + r < (e + 1) * 2 ^ f.frac := by
          rw [Nat.add_mul, Nat.one_mul]
          omega
      _ ≤ 2 ^ f.ebits * 2 ^ f.frac := Nat.mul_le_mul_right _ he
      _ = 2 ^ f.frac * 2 ^ f.ebits := Nat.mul_comm _ _
  refine ⟨?_, ?_, ?_⟩
  · rw [fraction, heq, Nat.mul_add_mod_self_right, Nat.mod_eq_of_lt hr]
  · rw [exponent, heq, Nat.mul_comm, Nat.mul_add_div hpos, Nat.div_eq_of_lt hr, Nat.add_zero,
      Nat.mul_add_mod_self_right, Nat.mod_eq_of_lt he]
  · rw [Nat.mul_comm, Nat.mul_add_div (Nat.two_pow_pos _), Nat.div_eq_of_lt hlow, Nat.add_zero]

theorem bias_pos (f : FloatFormat) : 0 < f.bias := by
  have h : 2 ^ 1 ≤ 2 ^ (f.ebits - 1) :=
      Nat.pow_le_pow_right Nat.two_pos (by have := f.two_le; omega)
  rw [bias]
  omega

theorem fraction_lt (f : FloatFormat) (x : ℕ) : f.fraction x < 2 ^ f.frac :=
  Nat.mod_lt _ (Nat.two_pow_pos _)

theorem exponent_lt (f : FloatFormat) (x : ℕ) : f.exponent x < 2 ^ f.ebits :=
  Nat.mod_lt _ (Nat.two_pow_pos _)

theorem magnitude_nonneg (f : FloatFormat) (x : ℕ) : 0 ≤ f.magnitude x := by
  rw [magnitude]
  positivity

/-- The magnitude of a value that is an integer. -/
theorem magnitude_of_value (h : f.value x = some (z : ℚ)) : f.magnitude x = z.natAbs := by
  have hnonneg := f.magnitude_nonneg x
  rw [Nat.cast_natAbs, Int.cast_abs]
  rw [value] at h
  split_ifs at h with hmax hneg
  · rw [← Option.some_inj.mp h, abs_neg, abs_of_nonneg hnonneg]
  · rw [← Option.some_inj.mp h, abs_of_nonneg hnonneg]

theorem zpow_mul_two_pow (k : ℤ) (n : ℕ) : (2 : ℚ) ^ k * 2 ^ n = 2 ^ (k + n) := by
  rw [zpow_add₀ two_ne_zero, zpow_natCast]

/-- A word with the value of an integer that is not zero. Its exponent is the one of the integer,
and its significand has the bits of the integer. -/
theorem exponent_of_value (h : f.value x = some (z : ℚ)) (hz : z ≠ 0) :
    f.exponent x = z.natAbs.log2 + f.bias ∧
      z.natAbs * 2 ^ f.frac = (2 ^ f.frac + f.fraction x) * 2 ^ z.natAbs.log2 := by
  have hmag := magnitude_of_value h
  obtain ⟨m, hm⟩ : ∃ m, m = z.natAbs := ⟨_, rfl⟩
  have hone : (1 : ℚ) ≤ m := by
    rw [hm]
    exact_mod_cast Int.natAbs_pos.mpr hz
  have hfrac : (f.fraction x : ℚ) < 2 ^ f.frac := by exact_mod_cast f.fraction_lt x
  have hbias := f.bias_pos
  rw [← hm] at hmag ⊢
  rw [magnitude, significand, power] at hmag
  by_cases hexp : f.exponent x = 0
  · -- a word with the least exponent is less than one
    rw [if_pos hexp, if_pos hexp] at hmag
    have hlt : (f.fraction x : ℚ) * 2 ^ (((1 : ℕ) : ℤ) - f.bias - f.frac) <
        2 ^ f.frac * 2 ^ (((1 : ℕ) : ℤ) - f.bias - f.frac) :=
      mul_lt_mul_of_pos_right hfrac (zpow_pos two_pos _)
    have hle : (2 : ℚ) ^ (((1 : ℕ) : ℤ) - f.bias - f.frac + f.frac) ≤ 1 :=
      zpow_le_one_of_nonpos₀ one_le_two (by omega)
    rw [mul_comm ((2 : ℚ) ^ f.frac), zpow_mul_two_pow, hmag] at hlt
    exact absurd (hlt.trans_le hle) (not_lt.mpr hone)
  · rw [if_neg hexp, if_neg hexp] at hmag
    have hlt : 2 ^ f.frac + f.fraction x < 2 ^ f.frac * 2 := by
      have := f.fraction_lt x
      omega
    have hpos : 0 < 2 ^ f.frac := Nat.two_pow_pos _
    have hprod : (m : ℚ) * 2 ^ f.frac =
        (2 ^ f.frac + f.fraction x : ℕ) * 2 ^ ((f.exponent x : ℤ) - f.bias) := by
      rw [← hmag, mul_assoc, zpow_mul_two_pow, Int.sub_add_cancel]
    rcases Nat.lt_or_ge (f.exponent x) f.bias with hless | hge
    · -- the value would be less than one
      have hhalf : (2 : ℚ) ^ ((f.exponent x : ℤ) - f.bias) ≤ 2 ^ (-1 : ℤ) :=
        zpow_le_zpow_right₀ one_le_two (by omega)
      have hbound : (m : ℚ) * 2 ^ f.frac < 1 * 2 ^ f.frac := by
        calc (m : ℚ) * 2 ^ f.frac
            = (2 ^ f.frac + f.fraction x : ℕ) * 2 ^ ((f.exponent x : ℤ) - f.bias) := hprod
          _ ≤ (2 ^ f.frac + f.fraction x : ℕ) * 2 ^ (-1 : ℤ) := by gcongr
          _ < (2 ^ f.frac * 2 : ℕ) * 2 ^ (-1 : ℤ) := by
              have hcast : ((2 ^ f.frac + f.fraction x : ℕ) : ℚ) < (2 ^ f.frac * 2 : ℕ) := by
                exact_mod_cast hlt
              gcongr
          _ = 1 * 2 ^ f.frac := by
              rw [zpow_neg_one, Nat.cast_mul, Nat.cast_pow, Nat.cast_two, mul_assoc,
                mul_inv_cancel₀ two_ne_zero, mul_comm]
      exact absurd (lt_of_mul_lt_mul_right hbound (by positivity)) (not_lt.mpr hone)
    · obtain ⟨l, hl⟩ := Nat.exists_eq_add_of_le' hge
      have hexact : m * 2 ^ f.frac = (2 ^ f.frac + f.fraction x) * 2 ^ l := by
        have hpow : ((l + f.bias : ℕ) : ℤ) - f.bias = l := by omega
        rw [hl, hpow, zpow_natCast] at hprod
        exact_mod_cast hprod
      have hlog : m.log2 = l := by
        refine (Nat.log2_eq_iff fun hzero => ?_).mpr ⟨?_, ?_⟩
        · rw [hzero, Nat.cast_zero] at hone
          exact absurd hone (by norm_num)
        · refine Nat.le_of_mul_le_mul_right ?_ hpos
          rw [hexact, Nat.mul_comm]
          exact Nat.mul_le_mul_right _ (Nat.le_add_right _ _)
        · refine Nat.lt_of_mul_lt_mul_right (a := 2 ^ f.frac) ?_
          calc m * 2 ^ f.frac = (2 ^ f.frac + f.fraction x) * 2 ^ l := hexact
            _ < 2 ^ f.frac * 2 * 2 ^ l := Nat.mul_lt_mul_of_pos_right hlt (Nat.two_pow_pos _)
            _ = 2 ^ (l + 1) * 2 ^ f.frac := by ring
      rw [hlog]
      exact ⟨hl, hexact⟩

/-- The value of a word, by its fields. -/
theorem value_fields (hr : r < 2 ^ f.frac) (hpos : 0 < e) (he : e < 2 ^ f.ebits - 1) (neg : Prop)
    [Decidable neg] {m : ℚ}
    (hm : ((2 ^ f.frac + r : ℕ) : ℚ) * 2 ^ ((e : ℤ) - f.bias - f.frac) = m) :
    f.value ((if neg then 2 ^ (f.frac + f.ebits) else 0) + (e * 2 ^ f.frac + r)) =
      some (if neg then -m else m) := by
  obtain ⟨s, hs⟩ : ∃ s, s = if neg then 1 else 0 := ⟨_, rfl⟩
  have hsign : (if neg then 2 ^ (f.frac + f.ebits) else 0) = s * 2 ^ (f.frac + f.ebits) := by
    rw [hs]
    split_ifs
    · rw [Nat.one_mul]
    · rw [Nat.zero_mul]
  obtain ⟨hfraction, hexponent, hneg⟩ := fields hr (by omega : e < 2 ^ f.ebits) s
  have hmag : f.magnitude (s * 2 ^ (f.frac + f.ebits) + (e * 2 ^ f.frac + r)) = m := by
    rw [magnitude, significand, power, hexponent, if_neg hpos.ne', if_neg hpos.ne', hfraction, hm]
  have hiff : f.Negative (s * 2 ^ (f.frac + f.ebits) + (e * 2 ^ f.frac + r)) ↔ neg := by
    change _ % 2 = 1 ↔ neg
    rw [hneg, hs]
    split_ifs with h
    · exact iff_of_true rfl h
    · exact iff_of_false (by decide) h
  rw [hsign, value, hexponent, if_neg he.ne, hmag]
  exact congrArg some (if_congr hiff rfl rfl)

theorem value_zero (f : FloatFormat) : f.value 0 = some ((0 : ℤ) : ℚ) := by
  have hmax : 0 < 2 ^ f.ebits - 1 := by
    have hle : 2 ^ 2 ≤ 2 ^ f.ebits := Nat.pow_le_pow_right Nat.two_pos f.two_le
    omega
  have hexponent : f.exponent 0 = 0 := by
    rw [exponent, Nat.zero_div, Nat.zero_mod]
  have hmag : f.magnitude 0 = 0 := by
    rw [magnitude, significand, hexponent, if_pos rfl, fraction, Nat.zero_mod, Nat.cast_zero,
      zero_mul]
  rw [value, hexponent, if_neg hmax.ne, hmag, neg_zero, ite_self, Int.cast_zero]

/-- **Integers.** If an integer is the value of a word, it is the value of its own word. -/
theorem value_ofInt (h : f.value x = some (z : ℚ)) : f.value (f.ofInt z) = some (z : ℚ) := by
  by_cases hz : z = 0
  · rw [hz, ofInt, if_neg (lt_irrefl 0), Int.natAbs_zero, ofNat, if_pos rfl]
    exact value_zero f
  · obtain ⟨hexponent, hexact⟩ := exponent_of_value h hz
    obtain ⟨m, hm⟩ : ∃ m, m = z.natAbs := ⟨_, rfl⟩
    rw [← hm] at hexponent hexact
    have hmax : f.exponent x ≠ 2 ^ f.ebits - 1 := fun heq => by
      rw [value, if_pos heq] at h
      exact nomatch h
    have hlt := f.exponent_lt x
    have hbias := f.bias_pos
    have hword : f.ofNat m = (m.log2 + f.bias) * 2 ^ f.frac + f.fraction x := by
      have hne : m ≠ 0 := hm ▸ Int.natAbs_ne_zero.mpr hz
      rw [ofNat, if_neg hne, hexact, roundQuot_of_dvd (Nat.two_pow_pos _) (Nat.dvd_mul_left _ _),
        Nat.mul_div_cancel _ (Nat.two_pow_pos _), Nat.add_sub_cancel_left]
    have hvalue : ((2 ^ f.frac + f.fraction x : ℕ) : ℚ) *
        2 ^ (((m.log2 + f.bias : ℕ) : ℤ) - f.bias - f.frac) = m := by
      have hpow : ((m.log2 + f.bias : ℕ) : ℤ) - f.bias - f.frac + f.frac = m.log2 := by omega
      have hexact' : (m : ℚ) * 2 ^ f.frac = (2 ^ f.frac + f.fraction x : ℕ) * 2 ^ m.log2 := by
        exact_mod_cast hexact
      refine mul_right_cancel₀ (pow_ne_zero f.frac (two_ne_zero' ℚ)) ?_
      rw [mul_assoc, zpow_mul_two_pow, hpow, zpow_natCast, hexact']
    rw [ofInt, ← hm, hword, value_fields (f.fraction_lt x) (by omega) (by omega) (z < 0) hvalue, hm,
      Nat.cast_natAbs, Int.cast_abs]
    split_ifs with hneg
    · rw [abs_of_neg (by exact_mod_cast hneg), neg_neg]
    · rw [abs_of_nonneg (by exact_mod_cast not_lt.mp hneg)]

/-! ### Rounding -/

theorem le_roundQuot (a b : ℕ) : a / b ≤ roundQuot a b := by
  rw [roundQuot]
  split_ifs
  · exact Nat.le_succ _
  · exact le_rfl

theorem roundQuot_le (a b : ℕ) : roundQuot a b ≤ a / b + 1 := by
  rw [roundQuot]
  split_ifs
  · exact le_rfl
  · exact Nat.le_succ _

/-- The significand of an integer, its leading bit included. It may be rounded up to the next
power. -/
theorem roundQuot_log2 (f : FloatFormat) (hm : m ≠ 0) :
    2 ^ f.frac ≤ roundQuot (m * 2 ^ f.frac) (2 ^ m.log2) ∧
      roundQuot (m * 2 ^ f.frac) (2 ^ m.log2) ≤ 2 ^ (f.frac + 1) := by
  obtain ⟨hle, hlt⟩ := (Nat.log2_eq_iff hm).mp rfl
  have hpos : 0 < 2 ^ m.log2 := Nat.two_pow_pos _
  have hlow : 2 ^ f.frac ≤ m * 2 ^ f.frac / 2 ^ m.log2 :=
    (Nat.le_div_iff_mul_le hpos).mpr (by rw [Nat.mul_comm]; exact Nat.mul_le_mul_right _ hle)
  have hhigh : m * 2 ^ f.frac / 2 ^ m.log2 < 2 ^ (f.frac + 1) := by
    refine Nat.div_lt_of_lt_mul ?_
    calc m * 2 ^ f.frac < 2 ^ (m.log2 + 1) * 2 ^ f.frac :=
          Nat.mul_lt_mul_of_pos_right hlt (Nat.two_pow_pos _)
      _ = 2 ^ m.log2 * 2 ^ (f.frac + 1) := by ring
  exact ⟨hlow.trans (le_roundQuot _ _), (roundQuot_le _ _).trans hhigh⟩

/-- The value of the word of an integer: the significand, and the power of the leading bit. -/
theorem value_ofInt_round (hz : z ≠ 0) (hmax : z.natAbs.log2 + f.bias + 1 < 2 ^ f.ebits - 1) {m : ℚ}
    (hm : (roundQuot (z.natAbs * 2 ^ f.frac) (2 ^ z.natAbs.log2) : ℚ) *
      2 ^ ((z.natAbs.log2 : ℤ) - f.frac) = m) :
    f.value (f.ofInt z) = some (if z < 0 then -m else m) := by
  have hne : z.natAbs ≠ 0 := Int.natAbs_ne_zero.mpr hz
  have hbias := f.bias_pos
  obtain ⟨hlow, hhigh⟩ := roundQuot_log2 f hne
  obtain ⟨r, hr⟩ := Nat.exists_eq_add_of_le hlow
  rw [ofInt, ofNat, if_neg hne, hr, Nat.add_sub_cancel_left]
  rw [hr] at hm hhigh
  rcases Nat.lt_or_ge r (2 ^ f.frac) with hlt | hge
  · have hpow : ((z.natAbs.log2 + f.bias : ℕ) : ℤ) - f.bias - f.frac =
        z.natAbs.log2 - f.frac := by omega
    exact value_fields hlt (by omega) (by omega) (z < 0) (by rw [hpow, hm])
  · -- rounded up to the next power
    have hcarry : r = 2 ^ f.frac := by
      rw [Nat.pow_succ] at hhigh
      omega
    have hword : (z.natAbs.log2 + f.bias) * 2 ^ f.frac + r =
        (z.natAbs.log2 + f.bias + 1) * 2 ^ f.frac + 0 := by
      rw [hcarry, Nat.add_mul _ 1, Nat.one_mul, Nat.add_zero]
    have hpow : ((z.natAbs.log2 + f.bias + 1 : ℕ) : ℤ) - f.bias - f.frac =
        z.natAbs.log2 - f.frac + 1 := by omega
    rw [hword]
    refine value_fields (Nat.two_pow_pos _) (by omega) hmax (z < 0) ?_
    rw [hpow, zpow_add_one₀ two_ne_zero, ← hm, hcarry, Nat.add_zero, Nat.cast_add]
    ring

theorem ofInt_lt (hmax : z.natAbs.log2 + f.bias + 1 < 2 ^ f.ebits - 1) :
    f.ofInt z < 2 ^ (f.frac + f.ebits + 1) := by
  have hpos : 0 < 2 ^ (f.frac + f.ebits) := Nat.two_pow_pos _
  have hlow : f.ofNat z.natAbs < 2 ^ (f.frac + f.ebits) := by
    rw [ofNat]
    split_ifs with hzero
    · exact hpos
    · have hround := (roundQuot_log2 f hzero).2
      rw [Nat.pow_succ] at hround
      calc (z.natAbs.log2 + f.bias) * 2 ^ f.frac +
            (roundQuot (z.natAbs * 2 ^ f.frac) (2 ^ z.natAbs.log2) - 2 ^ f.frac)
          ≤ (z.natAbs.log2 + f.bias + 1) * 2 ^ f.frac := by
            rw [Nat.add_mul _ 1, Nat.one_mul]
            omega
        _ < 2 ^ f.ebits * 2 ^ f.frac := Nat.mul_lt_mul_of_pos_right (by omega) (Nat.two_pow_pos _)
        _ = 2 ^ (f.frac + f.ebits) := by rw [Nat.pow_add, Nat.mul_comm]
  rw [ofInt, Nat.pow_succ]
  split_ifs <;> omega

theorem log2_le_of_le_pow {k : ℕ} (h : m ≤ 2 ^ k) : m.log2 ≤ k := by
  by_contra hlt
  have hne : m ≠ 0 := fun hzero => hlt (by rw [hzero, Nat.log2_zero]; exact Nat.zero_le _)
  have hle := ((Nat.log2_eq_iff hne).mp rfl).1
  have hpow : 2 ^ k < 2 ^ m.log2 := Nat.pow_lt_pow_right (by decide) (not_le.mp hlt)
  omega

/-- The word of an integer is finite and rounds to no more than a power of two above the integer. -/
theorem value_ofInt_le {k : ℕ} (hk : z.natAbs ≤ 2 ^ k) (hmax : k + f.bias + 1 < 2 ^ f.ebits - 1) :
    ∃ q, f.value (f.ofInt z) = some q ∧ |q| ≤ 2 ^ k ∧ (z < 0 → q ≤ 0) := by
  by_cases hz : z = 0
  · refine ⟨0, ?_, ?_, fun _ => le_rfl⟩
    · rw [hz, value_ofInt f.value_zero, Int.cast_zero]
    · rw [abs_zero]
      positivity
  · have hne : z.natAbs ≠ 0 := Int.natAbs_ne_zero.mpr hz
    have hlog := log2_le_of_le_pow hk
    have hbound : roundQuot (z.natAbs * 2 ^ f.frac) (2 ^ z.natAbs.log2) * 2 ^ z.natAbs.log2 ≤
        2 ^ k * 2 ^ f.frac := by
      rcases Nat.lt_or_ge z.natAbs.log2 k with hlt | hge
      · calc roundQuot (z.natAbs * 2 ^ f.frac) (2 ^ z.natAbs.log2) * 2 ^ z.natAbs.log2
            ≤ 2 ^ (f.frac + 1) * 2 ^ z.natAbs.log2 :=
              Nat.mul_le_mul_right _ (roundQuot_log2 f hne).2
          _ = 2 ^ (z.natAbs.log2 + 1) * 2 ^ f.frac := by ring
          _ ≤ 2 ^ k * 2 ^ f.frac := Nat.mul_le_mul_right _ (Nat.pow_le_pow_right Nat.two_pos hlt)
      · -- the integer is the power itself
        have heq : z.natAbs.log2 = k := Nat.le_antisymm hlog hge
        have hself : z.natAbs = 2 ^ k := Nat.le_antisymm hk (heq ▸ ((Nat.log2_eq_iff hne).mp rfl).1)
        rw [heq, hself, roundQuot_of_dvd (Nat.two_pow_pos _) (Nat.dvd_mul_right _ _),
          Nat.mul_div_cancel_left _ (Nat.two_pow_pos _), Nat.mul_comm]
    obtain ⟨m, hm⟩ : ∃ m : ℚ, (roundQuot (z.natAbs * 2 ^ f.frac) (2 ^ z.natAbs.log2) : ℚ) *
        2 ^ ((z.natAbs.log2 : ℤ) - f.frac) = m := ⟨_, rfl⟩
    have hnonneg : 0 ≤ m := by
      rw [← hm]
      positivity
    have hle : m ≤ 2 ^ k := by
      have hprod : m * 2 ^ f.frac =
          (roundQuot (z.natAbs * 2 ^ f.frac) (2 ^ z.natAbs.log2) : ℚ) * 2 ^ z.natAbs.log2 := by
        rw [← hm, mul_assoc, zpow_mul_two_pow, Int.sub_add_cancel, zpow_natCast]
      refine le_of_mul_le_mul_right ?_ (show (0 : ℚ) < 2 ^ f.frac by positivity)
      rw [hprod]
      exact_mod_cast hbound
    refine ⟨_, value_ofInt_round hz (by omega) hm, ?_, fun hneg => ?_⟩
    · split_ifs
      · rw [abs_neg, abs_of_nonneg hnonneg]
        exact hle
      · rw [abs_of_nonneg hnonneg]
        exact hle
    · rw [if_pos hneg]
      exact neg_nonpos.mpr hnonneg

end FloatFormat

end ELuaBrain
