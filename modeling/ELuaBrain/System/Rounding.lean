import ELuaBrain.System.Float
import Mathlib.Data.Int.Log
import Mathlib.Data.Rat.Floor

/-!
# Conversion between binary floating-point formats

The word of a positive rational number, rounded to nearest with ties to even, and the conversion of
a word of one format to another.

## Main definitions

* `FloatFormat.ofPos` : the word of a positive rational number.
* `FloatFormat.convert` : the word of another format.

## Main results

* `FloatFormat.ofPos_magnitude` : the magnitude of a word has that word.
* `FloatFormat.value_convert` : a value that the other format has is kept.
* `FloatFormat.value_ofInt_of_log2_le` : an integer with few bits is the value of its word.
* `FloatFormat.exists_value_ofInt` : the word of an integer is the word of some integer's value.
-/

namespace ELuaBrain.FloatFormat

variable (f g : FloatFormat)

/-- The word of the positive infinity. -/
def infinity : ℕ := (2 ^ f.ebits - 1) * 2 ^ f.frac

/-- The power of two of the leading bit of the words next to a positive number. -/
def leading (q : ℚ) : ℤ := max (Int.log 2 q) (1 - f.bias)

/-- The word of a positive number, rounded to nearest with ties to even. -/
def ofPos (q : ℚ) : ℕ :=
  let r := q * 2 ^ (f.frac - f.leading q)
  min ((f.leading q + f.bias - 1).toNat * 2 ^ f.frac + roundQuot r.num.natAbs r.den) f.infinity

/-- The word of the format `f` for a word of the format `g`. A NaN becomes a quiet one. -/
def convert (x : ℕ) : ℕ :=
  (if g.Negative x then 2 ^ (f.frac + f.ebits) else 0) +
    if g.exponent x = 2 ^ g.ebits - 1 then
      f.infinity + if g.fraction x = 0 then 0 else 2 ^ (f.frac - 1)
    else if g.magnitude x = 0 then 0
    else f.ofPos (g.magnitude x)

variable {f g} {x y w : ℕ} {q : ℚ}

theorem roundQuot_one (a : ℕ) : roundQuot a 1 = a := by
  rw [roundQuot_of_dvd Nat.one_pos (Nat.one_dvd a), Nat.div_one]

/-- The exponent and the fraction of a word. -/
def unsigned (f : FloatFormat) (y : ℕ) : ℕ := f.exponent y * 2 ^ f.frac + f.fraction y

/-- The significand of a word and the power of its leading bit, if the word is not zero. -/
theorem leading_magnitude (hpos : 0 < f.magnitude y) :
    f.leading (f.magnitude y) = f.power y + f.frac := by
  have hfrac : (f.fraction y : ℚ) < 2 ^ f.frac := by exact_mod_cast f.fraction_lt y
  have hlt : ∀ k : ℤ, (0 : ℚ) < 2 ^ k := fun k => zpow_pos two_pos k
  rw [leading]
  by_cases hexp : f.exponent y = 0
  · have hpower : f.power y + f.frac = 1 - f.bias := by
      rw [power, if_pos hexp]
      omega
    have hmag : f.magnitude y < (2 : ℕ) ^ (1 - f.bias : ℤ) := by
      calc f.magnitude y = f.fraction y * 2 ^ f.power y := by
            rw [magnitude, significand, if_pos hexp]
        _ < 2 ^ f.frac * 2 ^ f.power y := mul_lt_mul_of_pos_right hfrac (hlt _)
        _ = (2 : ℕ) ^ (1 - f.bias : ℤ) := by
            rw [mul_comm, zpow_mul_two_pow, hpower, Nat.cast_two]
    have hlog := (Int.lt_zpow_iff_log_lt (by decide) hpos).mp hmag
    rw [max_eq_right hlog.le, hpower]
  · have hpower : f.power y + f.frac = f.exponent y - f.bias := by
      rw [power, if_neg hexp]
      omega
    have hone : 1 ≤ f.exponent y := Nat.one_le_iff_ne_zero.mpr hexp
    have hmag : f.magnitude y = (2 ^ f.frac + f.fraction y) * 2 ^ f.power y := by
      rw [magnitude, significand, if_neg hexp, Nat.cast_add, Nat.cast_pow, Nat.cast_two]
    have hlow : ((2 : ℕ) : ℚ) ^ (f.power y + f.frac) ≤ f.magnitude y := by
      rw [hmag, Nat.cast_two, ← zpow_mul_two_pow, mul_comm]
      exact mul_le_mul_of_nonneg_right (le_add_of_nonneg_right (Nat.cast_nonneg _)) (hlt _).le
    have hhigh : f.magnitude y < ((2 : ℕ) : ℚ) ^ (f.power y + f.frac + 1) := by
      rw [hmag, Nat.cast_two, zpow_add_one₀ two_ne_zero, ← zpow_mul_two_pow, mul_assoc, mul_comm]
      refine mul_lt_mul_of_pos_left ?_ (hlt _)
      linarith
    have hge := (Int.zpow_le_iff_le_log (by decide) hpos).mp hlow
    have hle := (Int.lt_zpow_iff_log_lt (by decide) hpos).mp hhigh
    omega

/-- The magnitude of a finite word has that word. -/
theorem ofPos_magnitude (hpos : 0 < f.magnitude y) (hfin : f.exponent y ≠ 2 ^ f.ebits - 1) :
    f.ofPos (f.magnitude y) = f.unsigned y := by
  have hquot : f.magnitude y * 2 ^ ((f.frac : ℤ) - f.leading (f.magnitude y)) =
      f.significand y := by
    have hzero : f.power y + (f.frac - (f.power y + f.frac)) = 0 := by omega
    rw [leading_magnitude hpos, magnitude, mul_assoc, ← zpow_add₀ two_ne_zero, hzero, zpow_zero,
      mul_one]
  have hlt := f.exponent_lt y
  have hfrac := f.fraction_lt y
  have hbound : f.unsigned y ≤ f.infinity := by
    calc f.unsigned y ≤ (f.exponent y + 1) * 2 ^ f.frac := by
          rw [unsigned, Nat.add_mul, Nat.one_mul]
          omega
      _ ≤ f.infinity := Nat.mul_le_mul_right _ (by omega)
  have hword : (f.leading (f.magnitude y) + f.bias - 1).toNat * 2 ^ f.frac + f.significand y =
      f.unsigned y := by
    rw [leading_magnitude hpos, power, significand, unsigned]
    split_ifs with hexp
    · have hzero : (((1 : ℕ) : ℤ) - f.bias - f.frac + f.frac + f.bias - 1).toNat = 0 := by omega
      rw [hzero, hexp]
    · obtain ⟨e, he⟩ := Nat.exists_eq_succ_of_ne_zero hexp
      have hpred : ((f.exponent y : ℤ) - f.bias - f.frac + f.frac + f.bias - 1).toNat = e := by
        omega
      rw [hpred, he, Nat.succ_mul, Nat.add_assoc]
  rw [ofPos]
  simp only [hquot, Rat.num_natCast, Rat.den_natCast, Int.natAbs_natCast, roundQuot_one]
  rw [hword, min_eq_left hbound]

/-- The value of a word with a sign. -/
theorem value_sign (neg : Prop) [Decidable neg] (hfin : f.exponent y ≠ 2 ^ f.ebits - 1) :
    f.value ((if neg then 2 ^ (f.frac + f.ebits) else 0) + f.unsigned y) =
      some (if neg then -f.magnitude y else f.magnitude y) := by
  obtain ⟨s, hs⟩ : ∃ s, s = if neg then 1 else 0 := ⟨_, rfl⟩
  have hsign : (if neg then 2 ^ (f.frac + f.ebits) else 0) = s * 2 ^ (f.frac + f.ebits) := by
    rw [hs]
    split_ifs
    · rw [Nat.one_mul]
    · rw [Nat.zero_mul]
  obtain ⟨hfraction, hexponent, hneg⟩ := fields (f.fraction_lt y) (f.exponent_lt y) s
  have hmag : f.magnitude (s * 2 ^ (f.frac + f.ebits) + f.unsigned y) = f.magnitude y := by
    rw [magnitude, magnitude, significand, significand, power, power, unsigned, hexponent,
      hfraction]
  have hiff : f.Negative (s * 2 ^ (f.frac + f.ebits) + f.unsigned y) ↔ neg := by
    change _ % 2 = 1 ↔ neg
    rw [unsigned, hneg, hs]
    split_ifs with h
    · exact iff_of_true rfl h
    · exact iff_of_false (by decide) h
  have hexp : f.exponent (s * 2 ^ (f.frac + f.ebits) + f.unsigned y) = f.exponent y := hexponent
  rw [hsign, value, hexp, if_neg hfin, hmag]
  exact congrArg some (if_congr hiff rfl rfl)

/-- The magnitude of a finite word, and its sign. -/
theorem magnitude_eq_abs (h : f.value x = some q) : f.magnitude x = |q| := by
  have hnonneg := f.magnitude_nonneg x
  rw [value] at h
  split_ifs at h with hmax hneg
  · rw [← Option.some_inj.mp h, abs_neg, abs_of_nonneg hnonneg]
  · rw [← Option.some_inj.mp h, abs_of_nonneg hnonneg]

theorem exponent_ne_of_value (h : f.value x = some q) : f.exponent x ≠ 2 ^ f.ebits - 1 := by
  intro heq
  rw [value, if_pos heq] at h
  cases h

/-- **Conversion.** A value that the other format has is kept. -/
theorem value_convert (hx : g.value x = some q) (hy : f.value y = some q) :
    f.value (convert f g x) = some q := by
  have hmag : f.magnitude y = g.magnitude x :=
    (magnitude_eq_abs hy).trans (magnitude_eq_abs hx).symm
  have hfin := exponent_ne_of_value hx
  have hsigned : some (if g.Negative x then -g.magnitude x else g.magnitude x) = some q := by
    rw [value, if_neg hfin] at hx
    exact hx
  rw [convert, if_neg hfin]
  by_cases hzero : g.magnitude x = 0
  · have hmax : 0 < 2 ^ f.ebits - 1 := by
      have hle : 2 ^ 2 ≤ 2 ^ f.ebits := Nat.pow_le_pow_right Nat.two_pos f.two_le
      omega
    have hexp : f.exponent 0 = 0 := by rw [exponent, Nat.zero_div, Nat.zero_mod]
    have hfrac : f.fraction 0 = 0 := Nat.zero_mod _
    have hunsigned : f.unsigned 0 = 0 := by rw [unsigned, hexp, hfrac, Nat.zero_mul]
    have hmag' : f.magnitude 0 = 0 := by
      rw [magnitude, significand, if_pos hexp, hfrac, Nat.cast_zero, zero_mul]
    have hvalue := value_sign (f := f) (y := 0) (g.Negative x) (by rw [hexp]; exact hmax.ne)
    rw [hunsigned, hmag'] at hvalue
    rw [if_pos hzero, hvalue, ← hsigned, hzero]
  · have hpos : 0 < f.magnitude y := by
      rw [hmag]
      exact lt_of_le_of_ne (g.magnitude_nonneg x) (Ne.symm hzero)
    rw [if_neg hzero, ← hmag, ofPos_magnitude hpos (exponent_ne_of_value hy),
      value_sign _ (exponent_ne_of_value hy), hmag, hsigned]

/-- The bits above the sign do not matter. -/
theorem value_mod (f : FloatFormat) (x : ℕ) :
    f.value (x % 2 ^ (f.frac + f.ebits + 1)) = f.value x := by
  have hpow : 2 ^ (f.frac + f.ebits + 1) = 2 ^ f.frac * 2 ^ (f.ebits + 1) := by
    rw [← Nat.pow_add, Nat.add_assoc]
  have hpow' : 2 ^ (f.frac + f.ebits + 1) = 2 ^ (f.frac + f.ebits) * 2 := Nat.pow_succ ..
  have hfraction : f.fraction (x % 2 ^ (f.frac + f.ebits + 1)) = f.fraction x := by
    rw [fraction, fraction, hpow, Nat.mod_mul_right_mod]
  have hexponent : f.exponent (x % 2 ^ (f.frac + f.ebits + 1)) = f.exponent x := by
    rw [exponent, exponent, hpow, Nat.mod_mul_right_div_self,
      Nat.mod_mod_of_dvd _ (Nat.pow_dvd_pow 2 (Nat.le_succ _))]
  have hneg : f.Negative (x % 2 ^ (f.frac + f.ebits + 1)) ↔ f.Negative x := by
    rw [Negative, Negative, hpow', Nat.mod_mul_right_div_self, Nat.mod_mod]
  have hmag : f.magnitude (x % 2 ^ (f.frac + f.ebits + 1)) = f.magnitude x := by
    rw [magnitude, magnitude, significand, significand, power, power, hfraction, hexponent]
  rw [value, value, hexponent, hmag]
  exact if_congr Iff.rfl rfl (congrArg some (if_congr hneg rfl rfl))

/-! ### Words of integers -/

variable {z : ℤ}

/-- An integer with no more bits than the significand is the value of its word. -/
theorem value_ofInt_of_log2_le (hlog : z.natAbs.log2 ≤ f.frac)
    (hmax : z.natAbs.log2 + f.bias + 1 < 2 ^ f.ebits - 1) : f.value (f.ofInt z) = some (z : ℚ) := by
  by_cases hz : z = 0
  · rw [hz]
    exact value_ofInt f.value_zero
  · obtain ⟨k, hk⟩ := Nat.exists_eq_add_of_le hlog
    have hdvd : 2 ^ z.natAbs.log2 ∣ z.natAbs * 2 ^ f.frac :=
      (pow_dvd_pow 2 hlog).trans (Nat.dvd_mul_left _ _)
    have hquot : z.natAbs * 2 ^ f.frac / 2 ^ z.natAbs.log2 = z.natAbs * 2 ^ k := by
      rw [hk, Nat.pow_add, Nat.mul_left_comm, Nat.mul_div_cancel_left _ (Nat.two_pow_pos _)]
    have hm : (roundQuot (z.natAbs * 2 ^ f.frac) (2 ^ z.natAbs.log2) : ℚ) *
        2 ^ ((z.natAbs.log2 : ℤ) - f.frac) = z.natAbs := by
      have hpow : (k : ℤ) + (z.natAbs.log2 - f.frac) = 0 := by omega
      rw [roundQuot_of_dvd (Nat.two_pow_pos _) hdvd, hquot, Nat.cast_mul, Nat.cast_pow,
        Nat.cast_two, mul_assoc, ← zpow_natCast, ← zpow_add₀ two_ne_zero, hpow, zpow_zero, mul_one]
    rw [value_ofInt_round hz hmax hm, Nat.cast_natAbs, Int.cast_abs]
    split_ifs with hneg
    · rw [abs_of_neg (by exact_mod_cast hneg), neg_neg]
    · rw [abs_of_nonneg (by exact_mod_cast not_lt.mp hneg)]

/-- The value of the word of an integer is an integer. -/
theorem exists_value_ofInt (hmax : z.natAbs.log2 + f.bias + 1 < 2 ^ f.ebits - 1) :
    ∃ y : ℤ, f.value (f.ofInt z) = some (y : ℚ) := by
  rcases Nat.lt_or_ge f.frac z.natAbs.log2 with hlt | hge
  · obtain ⟨k, hk⟩ := Nat.exists_eq_add_of_le hlt.le
    have hz : z ≠ 0 := fun hz => by
      rw [hz, Int.natAbs_zero, Nat.log2_zero] at hlt
      exact Nat.not_lt_zero _ hlt
    obtain ⟨r, hr⟩ : ∃ r, r = roundQuot (z.natAbs * 2 ^ f.frac) (2 ^ z.natAbs.log2) := ⟨_, rfl⟩
    have hm : (roundQuot (z.natAbs * 2 ^ f.frac) (2 ^ z.natAbs.log2) : ℚ) *
        2 ^ ((z.natAbs.log2 : ℤ) - f.frac) = ((r * 2 ^ k : ℕ) : ℤ) := by
      have hpow : (z.natAbs.log2 : ℤ) - f.frac = k := by omega
      rw [← hr, hpow, zpow_natCast]
      push_cast
      rfl
    refine ⟨if z < 0 then -(r * 2 ^ k : ℕ) else (r * 2 ^ k : ℕ), ?_⟩
    rw [value_ofInt_round hz hmax hm]
    split_ifs
    · rw [Int.cast_neg]
    · rfl
  · exact ⟨z, value_ofInt_of_log2_le hge hmax⟩

end ELuaBrain.FloatFormat
