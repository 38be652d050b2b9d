import ELuaBrain.Lua.Compact
import Mathlib.Algebra.BigOperators.Intervals

/-!
# Counting keys

Before a rehash the integer keys are counted by the powers of 2 between which they lie. The size of
the array part is the largest power of 2 such that more than half of the slots up to it are in use.

## Main definitions

* `upto` : the number of integer keys up to a power of 2.
* `Key.upTo`, `hashCount` : the integer keys up to a bound, and the nodes with such keys.

## Main results

* `numusearray_spec`, `numusehash_spec`, `countint_spec` : what is counted.
* `computesizes_spec` : what goes to the array part.
-/

namespace ELuaBrain.Lua.Tables

open Function

/-- The number of integer keys up to `2 ^ b`. -/
def upto (nums : ℕ → ℕ) (b : ℕ) : ℕ := ∑ i ∈ Finset.range (b + 1), nums i

theorem upto_succ (nums : ℕ → ℕ) (b : ℕ) : upto nums (b + 1) = upto nums b + nums (b + 1) :=
  Finset.sum_range_succ ..

theorem upto_update (nums : ℕ → ℕ) (lg c b : ℕ) :
    upto (update nums lg (nums lg + c)) b = upto nums b + if lg ≤ b then c else 0 := by
  rw [upto, upto]
  split_ifs with hle
  · have hmem : lg ∈ Finset.range (b + 1) := Finset.mem_range.mpr (by omega)
    rw [Finset.sum_update_of_mem hmem, ← Finset.erase_eq, ← Finset.add_sum_erase _ _ hmem]
    omega
  · rw [Nat.add_zero]
    refine Finset.sum_congr rfl fun j hj => update_of_ne ?_ ..
    have := Finset.mem_range.mp hj
    omega

/-! ### The size of the array part -/

/-- What `computesizes` returns is a power of 2 with what is up to it. -/
def Sized (nums : ℕ → ℕ) (r : ℕ × ℕ) : Prop :=
  r = (0, 0) ∨ ∃ b, b ≤ maxbits ∧ r = (upto nums b, 2 ^ b)

theorem computesizesLoop_spec {nums : ℕ → ℕ} {narray : ℕ} (hall : upto nums maxbits = narray)
    (rounds : ℕ) : ∀ (i a : ℕ) (r : ℕ × ℕ), i ≤ maxbits → a + nums i = upto nums i → Sized nums r →
      Sized nums (computesizesLoop nums narray rounds i a r) := by
  induction rounds with
  | zero => exact fun i a r _ _ hr => hr
  | succ rounds ih =>
    rintro i a ⟨na, n⟩ hi ha hr
    rw [computesizesLoop]
    split_ifs with hmore
    · dsimp only
      have hr' : Sized nums (if 0 < nums i ∧ 2 ^ i / 2 < a + nums i then (a + nums i, 2 ^ i)
          else (na, n)) := by
        split_ifs
        · exact .inr ⟨i, hi, by rw [ha]⟩
        · exact hr
      by_cases hdone : a + nums i = narray
      · rw [if_pos hdone]
        exact hr'
      · rw [if_neg hdone]
        have hlt : i < maxbits := by
          refine lt_of_le_of_ne hi fun heq => hdone ?_
          rw [ha, heq, hall]
        refine ih (i + 1) (a + nums i) _ hlt ?_ hr'
        rw [ha, upto_succ]
    · exact hr

/-- **`computesizes`.** What goes to the array part are the integer keys up to its size. -/
theorem computesizes_spec {nums : ℕ → ℕ} {narray : ℕ} (hall : upto nums maxbits = narray) :
    Sized nums (computesizes nums narray) := by
  refine computesizesLoop_spec hall _ 0 0 (0, 0) (Nat.zero_le _) ?_ (.inl rfl)
  rw [upto, Finset.sum_range_one, Nat.zero_add]

/-- The best size: a power of 2 such that more than half of the slots up to it are in use, and the
largest one. -/
structure Optimal (c : ℕ → ℕ) (n : ℕ) : Prop where
  half_lt : n = 0 ∨ ∃ b, b ≤ maxbits ∧ n = 2 ^ b ∧ 2 ^ b / 2 < c (2 ^ b)
  largest : ∀ b, b ≤ maxbits → n < 2 ^ b → c (2 ^ b) ≤ 2 ^ b / 2

theorem upto_mono (nums : ℕ → ℕ) : Monotone (upto nums) :=
  monotone_nat_of_le_succ fun b => by
    rw [upto_succ]
    exact Nat.le_add_right ..

/-- The best size among the powers of 2 below `2 ^ i`. -/
structure Best (nums : ℕ → ℕ) (i n : ℕ) : Prop where
  half_lt : n = 0 ∨ ∃ b, b < i ∧ b ≤ maxbits ∧ n = 2 ^ b ∧ 2 ^ b / 2 < upto nums b
  largest : ∀ b, b < i → n < 2 ^ b → upto nums b ≤ 2 ^ b / 2

/-- A round of the loop. -/
theorem Best.step {nums : ℕ → ℕ} {i n : ℕ} (h : Best nums i n) (hi : i ≤ maxbits)
    (hle : ∀ b, b ≤ maxbits → upto nums b ≤ 2 ^ b) :
    Best nums (i + 1) (if 0 < nums i ∧ 2 ^ i / 2 < upto nums i then 2 ^ i else n) := by
  split_ifs with hmore
  · refine ⟨.inr ⟨i, Nat.lt_succ_self i, hi, rfl, hmore.2⟩, fun b hb hlt => ?_⟩
    have := Nat.pow_lt_pow_iff_right (a := 2) (by omega) |>.mp hlt
    omega
  · refine ⟨h.half_lt.imp_right fun ⟨b, hb, hand⟩ => ⟨b, by omega, hand⟩, fun b hb hlt => ?_⟩
    rcases Nat.lt_succ_iff_lt_or_eq.mp hb with hlt' | rfl
    · exact h.largest b hlt' hlt
    · by_cases hnone : nums b = 0
      · -- no more keys than up to the power of 2 before
        cases b with
        | zero =>
          rw [upto, Finset.sum_range_one, hnone]
          exact Nat.zero_le _
        | succ b =>
          rw [upto_succ, hnone, Nat.add_zero, Nat.pow_succ, Nat.mul_div_cancel _ (by omega)]
          exact hle b (by omega)
      · omega

theorem computesizesLoop_best {nums : ℕ → ℕ} {narray : ℕ} (hall : upto nums maxbits = narray)
    (hle : ∀ b, b ≤ maxbits → upto nums b ≤ 2 ^ b) (rounds : ℕ) :
    ∀ (i a na n : ℕ), i ≤ maxbits → i + rounds = narray + 1 → a + nums i = upto nums i →
      Best nums i n →
      Best nums (maxbits + 1) (computesizesLoop nums narray rounds i a (na, n)).2 := by
  -- beyond a power of 2 that is at least twice the number of keys, there is nothing better
  have hdone : ∀ {i n}, narray ≤ 2 ^ i / 2 → Best nums i n → Best nums (maxbits + 1) n :=
    fun {i n} hstop h => by
      refine ⟨h.half_lt.imp_right fun ⟨b, _, hb, hand⟩ => ⟨b, by omega, hb, hand⟩,
        fun b hb hlt => ?_⟩
      rcases Nat.lt_or_ge b i with hlt' | hge
      · exact h.largest b hlt' hlt
      · calc upto nums b ≤ narray := hall ▸ upto_mono nums (by omega)
          _ ≤ 2 ^ i / 2 := hstop
          _ ≤ 2 ^ b / 2 := Nat.div_le_div_right (Nat.pow_le_pow_right (by omega) hge)
  induction rounds with
  | zero =>
    intro i a na n hi hrounds _ h
    have hpow : narray < 2 ^ narray := Nat.lt_two_pow_self
    refine hdone ?_ h
    rw [Nat.add_zero] at hrounds
    rw [hrounds, Nat.pow_succ, Nat.mul_div_cancel _ (by omega)]
    exact hpow.le
  | succ rounds ih =>
    intro i a na n hi hrounds ha h
    rw [computesizesLoop]
    split_ifs with hmore
    · have hnext := h.step hi hle
      rw [← ha] at hnext
      have hr : (if 0 < nums i ∧ 2 ^ i / 2 < a + nums i then (a + nums i, 2 ^ i) else (na, n)) =
          (if 0 < nums i ∧ 2 ^ i / 2 < a + nums i then a + nums i else na,
            if 0 < nums i ∧ 2 ^ i / 2 < a + nums i then 2 ^ i else n) := by
        split_ifs <;> rfl
      dsimp only
      rw [hr]
      by_cases hend : a + nums i = narray
      · rw [if_pos hend]
        refine hdone ?_ hnext
        rw [Nat.pow_succ, Nat.mul_div_cancel _ (by omega), ← hend, ha]
        exact hle i hi
      · rw [if_neg hend]
        have hlt : i < maxbits := by
          refine lt_of_le_of_ne hi fun heq => hend ?_
          rw [ha, heq, hall]
        refine ih (i + 1) _ _ _ hlt (by omega) ?_ hnext
        rw [ha, upto_succ]
    · exact hdone (Nat.le_of_not_lt hmore) h

/-- **`computesizes`** returns the best size. -/
theorem computesizes_optimal {c : ℕ → ℕ} {nums : ℕ → ℕ}
    (hc : ∀ b, b ≤ maxbits → upto nums b = c (2 ^ b)) (hle : ∀ b, b ≤ maxbits → c (2 ^ b) ≤ 2 ^ b) :
    Optimal c (computesizes nums (upto nums maxbits)).2 := by
  have hbest := computesizesLoop_best (rfl : upto nums maxbits = _)
    (fun b hb => (hc b hb).trans_le (hle b hb)) (upto nums maxbits + 1) 0 0 0 0 (Nat.zero_le _) (Nat.zero_add _)
    (by rw [upto, Finset.sum_range_one, Nat.zero_add])
    ⟨.inl rfl, fun b hb => absurd hb (Nat.not_lt_zero b)⟩
  refine ⟨?_, fun b hb hlt => ?_⟩
  · obtain hzero | ⟨b, -, hb, heq, hlt⟩ := hbest.half_lt
    · exact .inl hzero
    · rw [hc b hb] at hlt
      exact .inr ⟨b, hb, heq, hlt⟩
  · have hlargest := hbest.largest b (Nat.lt_succ_of_le hb) hlt
    rwa [hc b hb] at hlargest

/-! ### The array part -/

section Array

variable {V : Type} (array : List (Option V))

/-- The number of elements among the first `x` ones. -/
def arrayCount (x : ℕ) : ℕ := (array.take x).countP Option.isSome

theorem arrayCount_min (x : ℕ) : arrayCount array (min x array.length) = arrayCount array x := by
  rw [arrayCount, arrayCount]
  rcases Nat.le_total x array.length with h | h
  · rw [Nat.min_eq_left h]
  · rw [Nat.min_eq_right h, List.take_of_length_le h, List.take_length]

theorem arrayCount_add_slice {a b : ℕ} (h : a ≤ b) :
    arrayCount array a + slice array a b = arrayCount array b := by
  rw [arrayCount, slice, arrayCount, ← List.countP_append]
  congr 1
  conv_rhs => rw [← List.take_append_drop a (array.take b)]
  rw [List.take_take, Nat.min_eq_left h]

/-- Half of the power of 2 where a slice ends, which is where it begins. -/
def half : ℕ → ℕ
  | 0 => 0
  | lg + 1 => 2 ^ lg

theorem half_le (lg : ℕ) : half lg ≤ 2 ^ lg := by
  cases lg with
  | zero => exact Nat.zero_le _
  | succ lg => exact Nat.pow_le_pow_right (by omega) (Nat.le_succ lg)

theorem half_mono {lg b : ℕ} (h : lg ≤ b) : half lg ≤ 2 ^ b :=
  (half_le lg).trans (Nat.pow_le_pow_right (by omega) h)

variable {array}

theorem arrayCount_eq_of_le {a b : ℕ} (ha : array.length ≤ a) (hb : array.length ≤ b) :
    arrayCount array a = arrayCount array b := by
  rw [arrayCount, arrayCount, List.take_of_length_le ha, List.take_of_length_le hb]

theorem numusearrayLoop_spec (rounds : ℕ) : ∀ (lg i : ℕ) (nums : ℕ → ℕ) (ause : ℕ),
    lg + rounds = maxbits + 1 → i = min (half lg) array.length + 1 →
    (∀ b, lg ≤ b → b ≤ maxbits →
      upto (numusearrayLoop array rounds lg i nums ause).1 b + arrayCount array (half lg) =
        upto nums b + arrayCount array (2 ^ b)) ∧
    (∀ b, b < lg → upto (numusearrayLoop array rounds lg i nums ause).1 b = upto nums b) ∧
    (numusearrayLoop array rounds lg i nums ause).2 + arrayCount array (half lg) =
      ause + arrayCount array maxasize := by
  induction rounds with
  | zero =>
    intro lg i nums ause hlg hi
    rw [Nat.add_zero] at hlg
    subst hlg
    exact ⟨fun b hb hb' => by omega, fun b _ => rfl, rfl⟩
  | succ rounds ih =>
    intro lg i nums ause hlg hi
    rw [numusearrayLoop]
    dsimp only
    split_ifs with hbreak
    · -- all elements are counted
      have hlen : array.length ≤ half lg := by omega
      have hall : ∀ b, lg ≤ b → arrayCount array (half lg) = arrayCount array (2 ^ b) :=
        fun b hb => arrayCount_eq_of_le hlen (hlen.trans (half_mono hb))
      refine ⟨fun b hb _ => by rw [hall b hb], fun b _ => rfl, ?_⟩
      rw [hall maxbits (by omega)]
      rfl
    · have hi' : max i (min (2 ^ lg) array.length + 1) =
          min (half (lg + 1)) array.length + 1 := by
        have := half_le lg
        rw [half]
        omega
      have hslice : arrayCount array (half lg) + slice array (i - 1) (min (2 ^ lg) array.length) =
          arrayCount array (2 ^ lg) := by
        have hle : i - 1 ≤ min (2 ^ lg) array.length := by
          have := half_le lg
          omega
        rw [← arrayCount_min array (2 ^ lg), ← arrayCount_add_slice array hle, hi,
          Nat.add_sub_cancel, arrayCount_min]
      set c := slice array (i - 1) (min (2 ^ lg) array.length)
      obtain ⟨habove, hbelow, hause⟩ := ih (lg + 1) _ (update nums lg (nums lg + c)) (ause + c)
        (by omega) hi'
      rw [half] at habove hause
      refine ⟨fun b hb hb' => ?_, fun b hb => ?_, by omega⟩
      · rcases Nat.eq_or_lt_of_le hb with rfl | hlt
        · rw [hbelow lg (Nat.lt_succ_self lg), upto_update, if_pos le_rfl]
          omega
        · have hupto := habove b hlt hb'
          rw [upto_update, if_pos hb] at hupto
          omega
      · rw [hbelow b (by omega), upto_update, if_neg (by omega), Nat.add_zero]

end Array

variable {N V : Type} [LuaNumber N] [DecidableEq N] {t : Table N V} {k : Key N}

omit [LuaNumber N] [DecidableEq N] in
/-- **`numusearray`.** -/
theorem numusearray_spec (t : Table N V) (nums : ℕ → ℕ) :
    (∀ b, b ≤ maxbits →
      upto (numusearray t nums).1 b = upto nums b + arrayCount t.array (2 ^ b)) ∧
    (numusearray t nums).2 = arrayCount t.array maxasize := by
  obtain ⟨habove, -, hause⟩ := numusearrayLoop_spec (maxbits + 1) 0 1 nums 0
    (Nat.zero_add _) (show 1 = min (half 0) t.array.length + 1 by rw [half, Nat.zero_min])
  have hzero : arrayCount t.array (half 0) = 0 := rfl
  rw [hzero, Nat.add_zero, Nat.zero_add] at hause
  refine ⟨fun b hb => ?_, hause⟩
  have := habove b (Nat.zero_le b) hb
  rwa [hzero, Nat.add_zero] at this

/-! ### The hash part -/

/-- The key is an integer from 1 up to `x`. -/
def Key.upTo (k : Key N) (x : ℕ) : Bool :=
  match arrayindex k with
  | some m => decide (1 ≤ m ∧ m ≤ x)
  | none => false

theorem upTo_iff {x : ℕ} : k.upTo x = true ↔ ∃ m, arrayindex k = some m ∧ 1 ≤ m ∧ m ≤ x := by
  rw [Key.upTo]
  cases arrayindex k with
  | none => exact iff_of_false Bool.false_ne_true fun ⟨m, hm, _⟩ => Option.some_ne_none m hm.symm
  | some m =>
    rw [decide_eq_true_iff]
    constructor
    · exact fun h => ⟨m, rfl, h⟩
    · rintro ⟨m', hm', h⟩
      rwa [Option.some_inj.mp hm']

theorem inArray_iff : t.InArray k ↔ k.upTo t.array.length = true := upTo_iff.symm

theorem upTo_of_arrayindex {m : ℤ} (h : arrayindex k = some m) (x : ℕ) :
    k.upTo x = decide (1 ≤ m ∧ m ≤ x) := by
  rw [Key.upTo, h]

theorem upTo_of_none (h : arrayindex k = none) (x : ℕ) : k.upTo x = false := by
  rw [Key.upTo, h]

/-- **`countint`.** -/
theorem countint_spec (key : Key N) (nums : ℕ → ℕ) :
    (∀ b, b ≤ maxbits →
      upto (countint key nums).1 b = upto nums b + (key.upTo (2 ^ b)).toNat) ∧
    (countint key nums).2 = (key.upTo maxasize).toNat := by
  rw [countint]
  cases hkey : arrayindex key with
  | none =>
    exact ⟨fun b _ => by rw [upTo_of_none hkey]; rfl, by rw [upTo_of_none hkey]; rfl⟩
  | some m =>
    dsimp only
    rw [upTo_of_arrayindex hkey]
    by_cases hin : 0 < m ∧ m ≤ maxasize
    · rw [if_pos hin, decide_eq_true (p := 1 ≤ m ∧ m ≤ maxasize) hin]
      refine ⟨fun b _ => ?_, rfl⟩
      rw [upto_update, upTo_of_arrayindex hkey]
      have hiff : ceillog2 m.toNat ≤ b ↔ 1 ≤ m ∧ m ≤ (2 ^ b : ℕ) := by
        constructor
        · intro hle
          have hpow := (le_two_pow_ceillog2 m.toNat).trans
            (Nat.pow_le_pow_right (by omega) hle : 2 ^ ceillog2 m.toNat ≤ 2 ^ b)
          exact ⟨hin.1, by omega⟩
        · rintro ⟨hpos, hle⟩
          exact ceillog2_le (by omega)
      by_cases hle : ceillog2 m.toNat ≤ b
      · rw [if_pos hle, decide_eq_true (hiff.mp hle)]
        rfl
      · rw [if_neg hle, decide_eq_false fun h => hle (hiff.mpr h)]
        rfl
    · rw [if_neg hin, decide_eq_false (p := 1 ≤ m ∧ m ≤ maxasize) hin]
      refine ⟨fun b hb => ?_, rfl⟩
      have hpow : 2 ^ b ≤ maxasize := Nat.pow_le_pow_right (by omega) hb
      rw [upTo_of_arrayindex hkey, decide_eq_false]
      · rfl
      · rintro ⟨hpos, hle⟩
        exact hin ⟨hpos, by omega⟩

/-- The node holds a key of a kind that is not mapped to nil. -/
def Node.holds (p : Key N → Bool) (n : Node N V) : Bool := n.val.isSome && n.key.get?.any p

/-- The number of nodes below `n` that hold a key of a kind. -/
def hashCount (node : ℕ → Node N V) (p : Key N → Bool) (n : ℕ) : ℕ :=
  ((Finset.range n).filter fun j => (node j).holds p = true).card

omit [LuaNumber N] [DecidableEq N] in
theorem hashCount_succ (node : ℕ → Node N V) (p : Key N → Bool) (n : ℕ) :
    hashCount node p (n + 1) = hashCount node p n + ((node n).holds p).toNat := by
  rw [hashCount, Finset.range_add_one, Finset.filter_insert]
  cases h : (node n).holds p with
  | true =>
    rw [if_pos rfl, Finset.card_insert_of_notMem (by simp), hashCount]
    rfl
  | false =>
    rw [if_neg Bool.false_ne_true, hashCount]
    rfl

theorem numusehashLoop_spec {node : ℕ → Node N V}
    (hvalue : ∀ i v, (node i).val = some v → ∃ k, (node i).key.get? = some k) (n : ℕ) :
    ∀ (nums : ℕ → ℕ) (totaluse ause : ℕ),
    (∀ b, b ≤ maxbits → upto (numusehashLoop node n (nums, totaluse, ause)).1 b =
      upto nums b + hashCount node (Key.upTo · (2 ^ b)) n) ∧
    (numusehashLoop node n (nums, totaluse, ause)).2.1 =
      totaluse + hashCount node (fun _ => true) n ∧
    (numusehashLoop node n (nums, totaluse, ause)).2.2 =
      ause + hashCount node (Key.upTo · maxasize) n := by
  induction n with
  | zero => exact fun nums totaluse ause => ⟨fun b _ => rfl, rfl, rfl⟩
  | succ n ih =>
    intro nums totaluse ause
    cases hv : (node n).val with
    | none =>
      have hholds : ∀ p, (node n).holds p = false := fun p => by
        rw [Node.holds, hv]
        rfl
      have heq : numusehashLoop node (n + 1) (nums, totaluse, ause) =
          numusehashLoop node n (nums, totaluse, ause) := by
        rw [numusehashLoop, if_neg]
        rw [hv, Option.isSome_none]
        exact Bool.false_ne_true
      rw [heq]
      simp only [hashCount_succ, hholds]
      exact ih nums totaluse ause
    | some v =>
      obtain ⟨k, hk⟩ := hvalue n v hv
      have hholds : ∀ p, (node n).holds p = p k := fun p => by
        rw [Node.holds, hv, hk]
        rfl
      have heq : numusehashLoop node (n + 1) (nums, totaluse, ause) =
          numusehashLoop node n ((countint k nums).1, totaluse + 1,
            ause + (countint k nums).2) := by
        rw [numusehashLoop, if_pos (by rw [hv, Option.isSome_some]), NodeKey.get?_eq_some.mp hk]
        rfl
      obtain ⟨hnums, hone⟩ := countint_spec k nums
      obtain ⟨habove, htotal, hause⟩ := ih (countint k nums).1 (totaluse + 1)
        (ause + (countint k nums).2)
      rw [heq]
      simp only [hashCount_succ, hholds]
      refine ⟨fun b hb => ?_, ?_, ?_⟩
      · rw [habove b hb, hnums b hb]
        omega
      · rw [htotal]
        simp only [Bool.toNat_true]
        omega
      · rw [hause, hone]
        omega

end ELuaBrain.Lua.Tables
