import Mathlib.Data.Nat.Init
import Mathlib.Algebra.Order.Ring.Nat
import Mathlib.Tactic.Linarith
import Mathlib.Order.MinMax

/-!
# The difference of two timer values

`platform_timer_get_diff_us` of `common_tmr.c`. The quotient has 64 bits and is stored in a variable
of 32 bits before it is compared with the largest result, so an interval that is long enough is
reported as a short one.

## Main definitions

* `getDiffUs` : the code.
* `elapsed` : the number of microseconds between two timer values.

## Main results

* `getDiffUs_eq_some` : the value of the result.
* `getDiffUs_saturates_iff` : when the result is the number of microseconds, up to the largest
  result.
* `getDiffUs_saturates_of_le` : from a clock of 1 MHz on it always is.
* `getDiffUs_mono` : a longer interval is not reported as a shorter one, unless it is too long.
-/

namespace ELuaBrain.Timers

/-! ### Truncation before saturation -/

section Truncation

variable {q w m : ℕ}

/-- A number that is cut to less than `w` and then bounded by `m` is the number bounded by `m`, if
it is less than `w` or what is left of it reaches the bound. -/
theorem min_mod_eq_min_iff (hm : m ≤ w) : min (q % w) m = min q m ↔ q < w ∨ m ≤ q % w := by
  rcases lt_or_ge q w with hq | hq
  · simp [Nat.mod_eq_of_lt hq, hq]
  · have hmin : min q m = m := min_eq_right (hm.trans hq)
    rw [hmin, min_eq_right_iff]
    exact ⟨Or.inr, fun h => h.resolve_left (not_lt.mpr hq)⟩

/-- The same for a quotient, in terms of the dividend. -/
theorem min_div_mod_eq_min_iff {n d : ℕ} (hd : 0 < d) (hm : m ≤ w) :
    min (n / d % w) m = min (n / d) m ↔ n < w * d ∨ m * d ≤ n % (w * d) := by
  have hrest : n / d % w = n % (w * d) / d := by
    rw [Nat.mul_comm w d, Nat.mod_mul_right_div_self]
  rw [min_mod_eq_min_iff hm, Nat.div_lt_iff_lt_mul hd, hrest, Nat.le_div_iff_mul_le hd]

end Truncation

/-! ### The code -/

/-- `MAX_U32` of `common_tmr.c`. -/
def maxU32 : UInt32 := ~~~(0 : UInt32) >>> 1

/-- `platform_timer_get_diff_us`, for a timer with the clock `freq`. There is no result if it
divides by zero. -/
def getDiffUs (freq stop start : UInt32) : Option UInt32 :=
  let diff := if start < stop then stop - start else start - stop
  if freq = 0 then none
  else
    let res := (diff.toUInt64 * 1000000 / freq.toUInt64).toUInt32
    some (if res > maxU32 then maxU32 else res)

/-- The distance of two timer values. -/
def distance (stop start : UInt32) : ℕ :=
  max stop.toNat start.toNat - min stop.toNat start.toNat

/-- The number of microseconds between two timer values, rounded down. -/
def elapsed (freq stop start : UInt32) : ℕ :=
  distance stop start * 1000000 / freq.toNat

variable {freq stop start : UInt32}

@[simp] theorem toNat_maxU32 : maxU32.toNat = 2 ^ 31 - 1 := by decide

theorem distance_lt : distance stop start < 2 ^ 32 := by
  have hstop := stop.toNat_lt
  have hstart := start.toNat_lt
  unfold distance
  omega

/-- The subtraction of the smaller value from the larger one. -/
theorem toNat_diff :
    (if start < stop then stop - start else start - stop).toNat = distance stop start := by
  unfold distance
  split
  · case isTrue h =>
    have hle : start ≤ stop := UInt32.le_of_lt h
    have hlt := UInt32.lt_iff_toNat_lt.mp h
    rw [UInt32.toNat_sub_of_le _ _ hle]
    omega
  · case isFalse h =>
    have hle : stop ≤ start := UInt32.not_lt.mp h
    have hle' := UInt32.le_iff_toNat_le.mp hle
    rw [UInt32.toNat_sub_of_le _ _ hle]
    omega

/-- The product fits into 64 bits, so only the assignment to a variable of 32 bits loses bits. -/
theorem toNat_quotient (d : UInt32) :
    (d.toUInt64 * 1000000 / freq.toUInt64).toUInt32.toNat
      = d.toNat * 1000000 / freq.toNat % 2 ^ 32 := by
  have hd := d.toNat_lt
  have hproduct : d.toNat * 1000000 % 2 ^ 64 = d.toNat * 1000000 :=
    Nat.mod_eq_of_lt (by omega)
  calc (d.toUInt64 * 1000000 / freq.toUInt64).toUInt32.toNat
      = d.toNat * 1000000 % 2 ^ 64 / freq.toNat % 2 ^ 32 := by simp
    _ = d.toNat * 1000000 / freq.toNat % 2 ^ 32 := by rw [hproduct]

/-- The bound on the result, in numbers. -/
theorem toNat_saturate (r : UInt32) :
    (if r > maxU32 then maxU32 else r).toNat = min r.toNat (2 ^ 31 - 1) := by
  split
  · case isTrue h =>
    have hlt := UInt32.lt_iff_toNat_lt.mp h
    rw [toNat_maxU32] at hlt ⊢
    omega
  · case isFalse h =>
    have hle := UInt32.le_iff_toNat_le.mp (UInt32.not_lt.mp h)
    rw [toNat_maxU32] at hle
    omega

/-- The result is the number of microseconds, cut to 32 bits and then bounded. -/
theorem getDiffUs_eq_some (stop start : UInt32) (hfreq : 0 < freq) :
    ∃ r, getDiffUs freq stop start = some r ∧
      r.toNat = min (elapsed freq stop start % 2 ^ 32) (2 ^ 31 - 1) := by
  have hne : freq ≠ 0 := (UInt32.ne_of_lt hfreq).symm
  refine ⟨_, by rw [getDiffUs, if_neg hne], ?_⟩
  rw [toNat_saturate, toNat_quotient, toNat_diff, elapsed]

/-! ### The result and the number of microseconds -/

/-- The result is the number of microseconds, up to the largest one, unless the bits that are lost
leave less than it. -/
theorem getDiffUs_saturates_iff (hfreq : 0 < freq) :
    (∃ r, getDiffUs freq stop start = some r ∧
        r.toNat = min (elapsed freq stop start) (2 ^ 31 - 1)) ↔
      distance stop start * 1000000 < 2 ^ 32 * freq.toNat ∨
        (2 ^ 31 - 1) * freq.toNat ≤ distance stop start * 1000000 % (2 ^ 32 * freq.toNat) := by
  have hpos : 0 < freq.toNat := UInt32.lt_iff_toNat_lt.mp hfreq
  obtain ⟨r, hr, hval⟩ := getDiffUs_eq_some stop start hfreq
  rw [hr]
  simp only [Option.some.injEq, exists_eq_left', hval]
  exact min_div_mod_eq_min_iff hpos (by norm_num)

/-- With a clock of 4 Hz, `17179` ticks are right. -/
theorem getDiffUs_saturates_at_four :
    ∃ r, getDiffUs 4 17179 0 = some r ∧ r.toNat = min (elapsed 4 17179 0) (2 ^ 31 - 1) :=
  (getDiffUs_saturates_iff (by decide)).mpr (Or.inl (by decide))

/-- One tick later the result is `32704` microseconds. -/
theorem getDiffUs_wraps :
    ¬ ∀ freq stop start : UInt32, 0 < freq → ∃ r, getDiffUs freq stop start = some r ∧
      r.toNat = min (elapsed freq stop start) (2 ^ 31 - 1) := by
  intro h
  obtain ⟨r, hr, hval⟩ := h 4 17180 0 (by decide)
  have hwrapped : getDiffUs 4 17180 0 = some 32704 := by decide
  rw [hwrapped] at hr
  cases hr
  exact absurd hval (by decide)

/-- From a clock of 1 MHz on nothing is lost. -/
theorem getDiffUs_saturates_of_le (hfreq : 1000000 ≤ freq.toNat) :
    ∃ r, getDiffUs freq stop start = some r ∧
      r.toNat = min (elapsed freq stop start) (2 ^ 31 - 1) := by
  have hpos : 0 < freq := UInt32.lt_iff_toNat_lt.mpr (by simp; omega)
  have hdist : distance stop start < 2 ^ 32 := distance_lt
  refine (getDiffUs_saturates_iff hpos).mpr (Or.inl ?_)
  calc distance stop start * 1000000
      < 2 ^ 32 * 1000000 := Nat.mul_lt_mul_of_pos_right hdist (by norm_num)
    _ ≤ 2 ^ 32 * freq.toNat := Nat.mul_le_mul_left _ hfreq

/-- A longer interval is not reported as a shorter one, as long as its number of microseconds has 32
bits. -/
theorem getDiffUs_mono {stop' start' r r' : UInt32} (hfreq : 0 < freq)
    (hdist : distance stop start ≤ distance stop' start')
    (hfits : distance stop' start' * 1000000 < 2 ^ 32 * freq.toNat)
    (hr : getDiffUs freq stop start = some r) (hr' : getDiffUs freq stop' start' = some r') :
    r ≤ r' := by
  have hscaled : distance stop start * 1000000 ≤ distance stop' start' * 1000000 :=
    Nat.mul_le_mul_right _ hdist
  obtain ⟨s, hs, hval⟩ := (getDiffUs_saturates_iff hfreq).mpr (Or.inl (hscaled.trans_lt hfits))
  obtain ⟨s', hs', hval'⟩ := (getDiffUs_saturates_iff hfreq).mpr (Or.inl hfits)
  cases hr.symm.trans hs
  cases hr'.symm.trans hs'
  rw [UInt32.le_iff_toNat_le, hval, hval']
  exact min_le_min_right _ (Nat.div_le_div_right hscaled)

end ELuaBrain.Timers
