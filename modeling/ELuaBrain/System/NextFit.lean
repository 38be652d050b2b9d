import Mathlib.Logic.Function.Iterate
import Mathlib.Algebra.Order.Group.Nat

/-!
# Next fit in a map of zones

A search for `size` free zones in a row among `n` zones. It begins at the zone `cur`, goes back to
zone `0` once the last zone is passed, and gives up at a free zone at or behind `cur` after that.
Of a free stretch that is too short only the zones up to the next used one are skipped; a free
zone with less than `size` zones up to the last one is skipped with the `size - 1` zones behind it.

The search is a step function on where it stands. It ends with the right answer exactly when there
is a run of `size` free zones, or when a free stretch begins at or behind `cur` and every stretch
that begins before `cur` has `size` zones from its begin up to the last zone.

## Main definitions

* `NextFit.step`, `NextFit.start` : one step of the search, and where it begins.
* `NextFit.Move` : what a step can do.
* `NextFit.IsRun`, `NextFit.IsStart` : `size` free zones in a row, and the begin of a free stretch.
* `NextFit.Ends` : the search ends with an answer.

## Main results

* `NextFit.Passed.iterate` : the zones passed so far are no begin of a run.
* `NextFit.ends_of_isRun`, `NextFit.ends_of_isStart` : when the search ends, and in how many steps.
* `NextFit.Ends.soon` : a search that ends does so in `4 * n + 2` steps.
* `NextFit.ends_right_iff` : exactly when the search ends with the right answer.
-/

namespace ELuaBrain

namespace NextFit

/-- Where the search stands: at the head of the outer loop, at the search of a free zone, or at
its end. The flag tells that the last zone was passed. -/
inductive Ctl
  | head (i : ℕ) (overflow : Bool)
  | probe (i : ℕ) (overflow : Bool)
  | done (r : Option ℕ)
deriving DecidableEq, Repr

open Ctl

variable (used : ℕ → Bool) (n cur size : ℕ)

/-- The first of the `rounds` offsets from `j` on whose zone behind `i` is used. -/
def scan (i : ℕ) : ℕ → ℕ → ℕ
  | 0, j => j
  | rounds + 1, j => if used (i + j) then j else scan i rounds (j + 1)

/-- One step of the search. -/
def step : Ctl → Ctl
  | head i ov => if n ≤ i then probe 0 true else probe i ov
  | probe i ov =>
    if used i then
      if i + 1 = n then probe 0 true else probe (i + 1) ov
    else if ov ∧ cur ≤ i then done none
    else if n < i + size then head (i + size) ov
    else if scan used i (size - 1) 1 = size then done (some i)
    else head (i + scan used i (size - 1) 1) ov
  | done r => done r

/-- The search begins at the zone `cur`. -/
def start : Ctl :=
  head cur false

/-- The search ends with the answer `r`. -/
def Ends (r : Option ℕ) : Prop :=
  ∃ m, (step used n cur size)^[m] (start cur) = done r

/-- The `size` zones from `z` on are there and free. -/
def IsRun (z : ℕ) : Prop :=
  z + size ≤ n ∧ ∀ k < size, used (z + k) = false

/-- The zone `f` is free and the one before it is not. -/
def IsStart (f : ℕ) : Prop :=
  used f = false ∧ (f = 0 ∨ used (f - 1) = true)

/-- What a step can do, for a request of at least one zone. -/
inductive Move : Ctl → Ctl → Prop
  | wrap (i : ℕ) (ov : Bool) (hi : n ≤ i) : Move (head i ov) (probe 0 true)
  | enter (i : ℕ) (ov : Bool) (hi : i < n) : Move (head i ov) (probe i ov)
  | last (i : ℕ) (ov : Bool) (hu : used i = true) (hi : i + 1 = n) :
      Move (probe i ov) (probe 0 true)
  | next (i : ℕ) (ov : Bool) (hu : used i = true) (hi : i + 1 ≠ n) :
      Move (probe i ov) (probe (i + 1) ov)
  | giveUp (i : ℕ) (hu : used i = false) (hi : cur ≤ i) : Move (probe i true) (done none)
  | skip (i : ℕ) (ov : Bool) (hu : used i = false) (hov : ov = true → i < cur)
      (hi : n < i + size) : Move (probe i ov) (head (i + size) ov)
  | hit (i : ℕ) (ov : Bool) (j : ℕ) (hov : ov = true → i < cur) (hi : i + size ≤ n) (hpos : 0 < j)
      (hj : j < size) (hfree : ∀ k < j, used (i + k) = false) (hu : used (i + j) = true) :
      Move (probe i ov) (head (i + j) ov)
  | found (i : ℕ) (ov : Bool) (hrun : IsRun used n size i) : Move (probe i ov) (done (some i))
  | stay (r : Option ℕ) : Move (done r) (done r)

variable {used n cur size}

/-! ### One step -/

theorem le_scan (i rounds j : ℕ) : j ≤ scan used i rounds j := by
  induction rounds generalizing j with
  | zero => exact le_rfl
  | succ rounds ih =>
    rw [scan]
    split_ifs
    · exact le_rfl
    · exact (Nat.le_succ j).trans (ih (j + 1))

theorem scan_le (i rounds j : ℕ) : scan used i rounds j ≤ j + rounds := by
  induction rounds generalizing j with
  | zero => exact le_rfl
  | succ rounds ih =>
    rw [scan]
    split_ifs
    · exact Nat.le_add_right j _
    · have := ih (j + 1)
      omega

theorem used_of_lt_scan {i rounds j k : ℕ} (hjk : j ≤ k) (hk : k < scan used i rounds j) :
    used (i + k) = false := by
  induction rounds generalizing j with
  | zero => exact absurd hk (Nat.not_lt.mpr hjk)
  | succ rounds ih =>
    rw [scan] at hk
    split_ifs at hk with hu
    · exact absurd hk (Nat.not_lt.mpr hjk)
    · obtain rfl | hlt := Nat.eq_or_lt_of_le hjk
      · exact Bool.eq_false_iff.mpr hu
      · exact ih hlt hk

theorem used_scan {i rounds j : ℕ} (h : scan used i rounds j < j + rounds) :
    used (i + scan used i rounds j) = true := by
  induction rounds generalizing j with
  | zero => exact absurd h (Nat.lt_irrefl j)
  | succ rounds ih =>
    rw [scan] at h ⊢
    split_ifs at h ⊢ with hu
    · exact hu
    · exact ih (by omega)

/-- What a step does, said once for all the invariants below. -/
theorem move_step (hsize : 0 < size) (c : Ctl) :
    Move used n cur size c (step used n cur size c) := by
  obtain ⟨i, ov⟩ | ⟨i, ov⟩ | r := c
  · rw [step]
    split_ifs with hi
    · exact .wrap i ov hi
    · exact .enter i ov (Nat.lt_of_not_le hi)
  · rw [step]
    have hfree : ∀ k < scan used i (size - 1) 1, used i = false → used (i + k) = false := by
      intro k hk hu
      obtain rfl | hpos := Nat.eq_zero_or_pos k
      · exact hu
      · exact used_of_lt_scan hpos hk
    have hle : scan used i (size - 1) 1 ≤ 1 + (size - 1) := scan_le i (size - 1) 1
    have hbefore : ∀ {ov : Bool}, ¬ (ov = true ∧ cur ≤ i) → ov = true → i < cur :=
      fun hov h => Nat.lt_of_not_le fun hc => hov ⟨h, hc⟩
    split_ifs with hu hi hov hi hj
    · exact .last i ov hu hi
    · exact .next i ov hu hi
    · obtain ⟨rfl, hcur⟩ := hov
      exact .giveUp i (Bool.eq_false_iff.mpr hu) hcur
    · exact .skip i ov (Bool.eq_false_iff.mpr hu) (hbefore hov) hi
    · refine .found i ov ⟨Nat.le_of_not_lt hi, fun k hk => ?_⟩
      exact hfree k (hk.trans_eq hj.symm) (Bool.eq_false_iff.mpr hu)
    · have hlt : scan used i (size - 1) 1 < size := by omega
      refine .hit i ov _ (hbefore hov) (Nat.le_of_not_lt hi)
        (le_scan i (size - 1) 1) hlt (fun k hk => hfree k hk (Bool.eq_false_iff.mpr hu)) ?_
      exact used_scan (by omega)
  · exact .stay r

/-- What every move keeps holds all along. -/
theorem iterate_of_move {P : Ctl → Prop} (hsize : 0 < size)
    (hmove : ∀ c c', Move used n cur size c c' → P c → P c') {c : Ctl} (h : P c) (m : ℕ) :
    P ((step used n cur size)^[m] c) := by
  induction m generalizing c with
  | zero => exact h
  | succ m ih => exact ih (hmove c _ (move_step hsize c) h)

theorem iterate_done (r : Option ℕ) (m : ℕ) : (step used n cur size)^[m] (done r) = done r :=
  Function.iterate_fixed rfl m

/-- A longer search has the same end. -/
theorem iterate_eq_done_of_le {c : Ctl} {r : Option ℕ} {m m' : ℕ} (hm : m ≤ m')
    (h : (step used n cur size)^[m] c = done r) : (step used n cur size)^[m'] c = done r := by
  obtain ⟨k, rfl⟩ := Nat.exists_eq_add_of_le' hm
  rw [Function.iterate_add_apply, h, iterate_done]

/-! ### The answer -/

variable (used n cur size) in
/-- The zones passed so far are no begin of a run; an answer is right. -/
def Passed : Ctl → Prop
  | head i false | probe i false => ∀ z, cur ≤ z → z < i → ¬ IsRun used n size z
  | head i true | probe i true => ∀ z, cur ≤ z ∨ z < i → ¬ IsRun used n size z
  | done none => ∀ z, ¬ IsRun used n size z
  | done (some z) => IsRun used n size z

theorem IsRun.lt (hsize : 0 < size) {z : ℕ} (h : IsRun used n size z) : z < n := by
  have := h.1
  omega

theorem IsRun.free (hsize : 0 < size) {z : ℕ} (h : IsRun used n size z) : used z = false :=
  h.2 0 hsize

/-- A used zone among the `size` zones from `z` on. -/
theorem not_isRun_of_used {z i : ℕ} (hz : z ≤ i) (hi : i < z + size) (hu : used i = true) :
    ¬ IsRun used n size z := by
  intro h
  have hfree := h.2 (i - z) (by omega)
  rw [Nat.add_sub_cancel' hz, hu] at hfree
  exact Bool.noConfusion hfree

/-- Zones that are passed go on the list of those that begin no run. -/
theorem Passed.extend {i i' : ℕ} {ov : Bool} (h : Passed used n cur size (probe i ov))
    (hnew : ∀ z, i ≤ z → z < i' → ¬ IsRun used n size z) :
    Passed used n cur size (head i' ov) := by
  cases ov
  · intro z hz hlt
    by_cases hi : z < i
    · exact h z hz hi
    · exact hnew z (Nat.le_of_not_lt hi) hlt
  · intro z hz
    by_cases hi : cur ≤ z ∨ z < i
    · exact h z hi
    · exact hnew z (by omega) (by omega)

/-- Behind the last zone no run begins. -/
theorem Passed.wrap (hsize : 0 < size) {i : ℕ} {ov : Bool} (hi : n ≤ i)
    (h : Passed used n cur size (head i ov)) : Passed used n cur size (probe 0 true) := by
  intro z hz hrun
  have hlt := hrun.lt hsize
  cases ov
  · exact h z (by omega) (by omega) hrun
  · exact h z (by omega) hrun

theorem Passed.move (hsize : 0 < size) (c c' : Ctl) (hmove : Move used n cur size c c')
    (h : Passed used n cur size c) : Passed used n cur size c' := by
  have hafter : ∀ i : ℕ, used i = true → ∀ z, i ≤ z → z < i + 1 → ¬ IsRun used n size z := by
    intro i hu z hz hlt
    exact not_isRun_of_used (Nat.le_of_lt_succ hlt) (by omega) hu
  cases hmove with
  | wrap i ov hi => exact h.wrap hsize hi
  | enter i ov hi => cases ov <;> exact h
  | last i ov hu hi => exact (h.extend (hafter i hu)).wrap hsize hi.ge
  | next i ov hu hi =>
    have hext := h.extend (hafter i hu)
    cases ov <;> exact hext
  | giveUp i hu hi => exact fun z => h z (by omega)
  | skip i ov hu hov hi =>
    refine h.extend fun z hz _ hrun => ?_
    have := hrun.1
    omega
  | hit i ov j hov hi hpos hj hfree hu =>
    exact h.extend fun z hz hlt => not_isRun_of_used hlt.le (by omega) hu
  | found i ov hrun => exact hrun
  | stay r => exact h

/-- **The zones passed so far.** No run begins there, and an answer is right. -/
theorem Passed.iterate (hsize : 0 < size) (m : ℕ) :
    Passed used n cur size ((step used n cur size)^[m] (start cur)) := by
  have hstart : Passed used n cur size (start cur) := fun z hz hlt => absurd hlt (Nat.not_lt.mpr hz)
  exact iterate_of_move hsize (Passed.move hsize) hstart m

/-- An answer of the search is right. -/
theorem Ends.right (hsize : 0 < size) {r : Option ℕ} (h : Ends used n cur size r) :
    match r with
    | none => ∀ z, ¬ IsRun used n size z
    | some z => IsRun used n size z := by
  obtain ⟨m, hm⟩ := h
  have hpassed : Passed used n cur size ((step used n cur size)^[m] (start cur)) :=
    Passed.iterate hsize m
  rw [hm] at hpassed
  cases r <;> exact hpassed

/-! ### The end -/

variable (used n) in
/-- The search stands at a zone; its next step does not go back to zone `0` once more. -/
def Onward : Ctl → Prop
  | head i ov => ov = true → i < n
  | probe i ov => i < n ∧ (ov = true → used i = true → i + 1 ≠ n)
  | done _ => True

variable (n) in
/-- How far the search is from its end, if it does not go back once more. -/
def distance : Ctl → ℕ
  | head i ov => (if ov then 0 else 2 * n) + 2 * (n - i) + 1
  | probe i ov => (if ov then 0 else 2 * n) + 2 * (n - i)
  | done _ => 0

theorem distance_lt (c c' : Ctl) (hsize : 0 < size) (hmove : Move used n cur size c c')
    (h : Onward used n c) : (∃ r, c' = done r) ∨ distance n c' < distance n c := by
  cases hmove with
  | wrap i ov hi =>
    cases ov
    · simp only [distance, Bool.false_eq_true, if_true, if_false]
      omega
    · exact absurd (h rfl) (Nat.not_lt.mpr hi)
  | enter i ov hi => exact .inr (Nat.lt_succ_self _)
  | last i ov hu hi =>
    cases ov
    · simp only [distance, Bool.false_eq_true, if_true, if_false]
      omega
    · exact absurd hi (h.2 rfl hu)
  | next i ov hu hi =>
    have := h.1
    simp only [distance]
    omega
  | giveUp i hu hi => exact .inl ⟨_, rfl⟩
  | skip i ov hu hov hi =>
    have hlt : i < i + size := Nat.lt_add_of_pos_right hsize
    have := h.1
    simp only [distance]
    omega
  | hit i ov j hov hi hpos hj hfree hu =>
    have := h.1
    simp only [distance]
    omega
  | found i ov hrun => exact .inl ⟨_, rfl⟩
  | stay r => exact .inl ⟨r, rfl⟩

/-- A search that never goes back a second time ends, in as many steps as it is far away. -/
theorem exists_iterate_eq_done {P : Ctl → Prop} (hsize : 0 < size)
    (hP : ∀ c, P c → Onward used n c)
    (hmove : ∀ c c', Move used n cur size c c' → P c → P c') {c : Ctl} (h : P c) :
    ∃ r, (step used n cur size)^[distance n c + 1] c = done r := by
  induction hd : distance n c using Nat.strongRecOn generalizing c with
  | _ d ih =>
    have hm : Move used n cur size c (step used n cur size c) := move_step hsize c
    rw [Function.iterate_succ_apply]
    obtain ⟨r, hr⟩ | hlt := distance_lt c _ hsize hm (hP c h)
    · exact ⟨r, by rw [hr, iterate_done]⟩
    · obtain ⟨r, hr⟩ := ih _ (hd ▸ hlt) (hmove c _ hm h) rfl
      exact ⟨r, iterate_eq_done_of_le (by omega) hr⟩

theorem distance_start_lt : distance n (start cur) < 4 * n + 2 := by
  simp only [start, distance, Bool.false_eq_true, if_false]
  omega

/-- The search stands at a zone. -/
def InRange (n : ℕ) : Ctl → Prop
  | probe i _ => i < n
  | _ => True

theorem InRange.move (hn : 0 < n) (c c' : Ctl) (hmove : Move used n cur size c c')
    (h : InRange n c) : InRange n c' := by
  cases hmove with
  | wrap | last => exact hn
  | enter i ov hi => exact hi
  | next i ov hu hi =>
    have : i < n := h
    exact show i + 1 < n by omega
  | _ => trivial

/-- **A run ends the search.** -/
theorem ends_of_isRun (hn : 0 < n) (hsize : 0 < size) {z : ℕ} (hz : IsRun used n size z) :
    ∃ r, (step used n cur size)^[4 * n + 2] (start cur) = done r := by
  have honward : ∀ c, Passed used n cur size c ∧ InRange n c → Onward used n c := by
    rintro (⟨i, ov⟩ | ⟨i, ov⟩ | r) ⟨hp, hr⟩
    · rintro rfl
      by_contra hi
      exact hp z (.inr ((hz.lt hsize).trans_le (Nat.le_of_not_lt hi))) hz
    · refine ⟨hr, ?_⟩
      rintro rfl hu hi
      have hne : z ≠ i := fun h => by
        rw [← h, hz.free hsize] at hu
        exact Bool.noConfusion hu
      have := hz.lt hsize
      exact hp z (by omega) hz
    · trivial
  obtain ⟨r, hr⟩ := exists_iterate_eq_done hsize honward
    (fun c c' hm h => ⟨Passed.move hsize c c' hm h.1, InRange.move hn c c' hm h.2⟩)
    (c := start cur) ⟨Passed.iterate hsize 0, trivial⟩
  exact ⟨r, iterate_eq_done_of_le distance_start_lt hr⟩

/-! ### Begins of free stretches -/

/-- A stretch that is passed up to its used end holds no later begin. -/
theorem IsStart.beyond {f i j : ℕ} (hf : IsStart used f) (hlt : i < f)
    (hfree : ∀ k < j, used (i + k) = false) (hu : used (i + j) = true) : i + j < f := by
  obtain ⟨hfree', rfl | hbefore⟩ := hf
  · exact absurd hlt (Nat.not_lt_zero i)
  · by_contra hle
    obtain heq | hne := eq_or_ne f (i + j)
    · rw [heq, hu] at hfree'
      exact Bool.noConfusion hfree'
    · have := hfree (f - 1 - i) (by omega)
      rw [show i + (f - 1 - i) = f - 1 by omega, hbefore] at this
      exact Bool.noConfusion this

variable (used n) in
/-- After the return to zone `0` the search comes to free zones at their begin only. -/
def Fresh : Ctl → Prop
  | head i true => i < n → used i = false → IsStart used i
  | probe i true => used i = false → IsStart used i
  | _ => True

theorem Fresh.move (c c' : Ctl) (hmove : Move used n cur size c c') (h : Fresh used n c) :
    Fresh used n c' := by
  have hused : ∀ i : ℕ, used i = true → used i = false → IsStart used i := by
    intro i hu hfree
    exact absurd hfree (by rw [hu]; exact Bool.noConfusion)
  cases hmove with
  | wrap | last => exact fun hu => ⟨hu, .inl rfl⟩
  | enter i ov hi =>
    cases ov
    · trivial
    · exact h hi
  | next i ov hu hi =>
    cases ov
    · trivial
    · exact fun hfree => ⟨hfree, .inr hu⟩
  | skip i ov hu hov hi =>
    cases ov
    · trivial
    · exact fun hlt => absurd hlt (Nat.not_lt.mpr hi.le)
  | hit i ov j hov hi hpos hj hfree hu =>
    cases ov
    · trivial
    · exact fun _ => hused _ hu
  | giveUp | found | stay => trivial

/-- After the return to zone `0`, the zone `f` is still ahead or the last zone was passed again. -/
def Ahead (n f : ℕ) : Ctl → Prop
  | head i true => i ≤ f ∨ n ≤ i
  | probe i true => i ≤ f
  | _ => True

/-- A begin at which the search gives up, or from which it goes behind the last zone, is not
passed. -/
theorem Ahead.move {f : ℕ} (hf : IsStart used f) (hback : cur ≤ f ∨ n < f + size)
    (c c' : Ctl) (hmove : Move used n cur size c c') (h : Ahead n f c) : Ahead n f c' := by
  cases hmove with
  | wrap | last => exact Nat.zero_le f
  | enter i ov hi =>
    cases ov
    · trivial
    · exact h.resolve_right (Nat.not_le.mpr hi)
  | next i ov hu hi =>
    cases ov
    · trivial
    · refine Nat.lt_of_le_of_ne h fun heq => ?_
      rw [heq, hf.1] at hu
      exact Bool.noConfusion hu
  | skip i ov hu hov hi =>
    cases ov
    · trivial
    · exact .inr hi.le
  | hit i ov j hov hi hpos hj hfree hu =>
    cases ov
    · trivial
    · have hle : i ≤ f := h
      have hcur := hov rfl
      exact .inl (hf.beyond (by omega) hfree hu).le
  | giveUp | found | stay => trivial

/-- **A begin that ends the search.** A stretch begins at or behind `cur`, and from no begin before
`cur` the search goes behind the last zone. -/
theorem ends_of_isStart {f : ℕ} (hn : f < n) (hsize : 0 < size) (hf : IsStart used f)
    (hcur : cur ≤ f) (hroom : ∀ g < n, g < cur → IsStart used g → g + size ≤ n) :
    ∃ r, (step used n cur size)^[4 * n + 2] (start cur) = done r := by
  let P : Ctl → Prop := fun c => InRange n c ∧ Fresh used n c ∧
    match c with
    | head i true => i ≤ f
    | probe i true => i ≤ f
    | _ => True
  have honward : ∀ c, P c → Onward used n c := by
    rintro (⟨i, ov⟩ | ⟨i, ov⟩ | r) ⟨hr, -, hle⟩
    · rintro rfl
      exact lt_of_le_of_lt hle hn
    · refine ⟨hr, ?_⟩
      rintro rfl hu hi
      have hle' : i ≤ f := hle
      have heq : i = f := by omega
      rw [heq, hf.1] at hu
      exact Bool.noConfusion hu
    · trivial
  have hkeep : ∀ c c', Move used n cur size c c' → P c → P c' := by
    rintro c c' hm ⟨hr, hfresh, hle⟩
    refine ⟨InRange.move (by omega) c c' hm hr, Fresh.move c c' hm hfresh, ?_⟩
    have hahead := Ahead.move hf (.inl hcur) c c' hm (by
      obtain ⟨i, _ | _⟩ | ⟨i, _ | _⟩ | r := c
      · trivial
      · exact .inl hle
      · trivial
      · exact hle
      · trivial)
    cases hm with
    | skip i ov hu hov hi =>
      cases ov
      · trivial
      · have hi' : i < n := hr
        exact absurd (hroom i hi' (hov rfl) (hfresh hu)) (Nat.not_le.mpr hi)
    | hit i ov j hov hi hpos hj hfree hu =>
      cases ov
      · trivial
      · exact hahead.resolve_right (by omega)
    | enter i ov hi => cases ov <;> exact hle
    | next i ov hu hi =>
      cases ov
      · trivial
      · exact hahead
    | wrap | last => exact Nat.zero_le f
    | giveUp | found | stay => trivial
  obtain ⟨r, hr⟩ := exists_iterate_eq_done hsize honward hkeep
    (c := start cur) ⟨trivial, trivial, trivial⟩
  exact ⟨r, iterate_eq_done_of_le distance_start_lt hr⟩

/-! ### No end -/

/-- No stretch begins at or behind `cur`: the search does not give up. -/
theorem not_giveUp_of_forall_lt (hsize : 0 < size) (hn : 0 < n)
    (hlt : ∀ f < n, IsStart used f → f < cur) (m : ℕ) :
    (step used n cur size)^[m] (start cur) ≠ done none := by
  have hmove : ∀ c c', Move used n cur size c c' →
      (InRange n c ∧ Fresh used n c) ∧ c ≠ done none →
      (InRange n c' ∧ Fresh used n c') ∧ c' ≠ done none := by
    rintro c c' hm ⟨⟨hr, hfresh⟩, hne⟩
    refine ⟨⟨InRange.move hn c c' hm hr, Fresh.move c c' hm hfresh⟩, ?_⟩
    cases hm with
    | giveUp i hu hi => exact absurd (hlt i hr (hfresh hu)) (Nat.not_lt.mpr hi)
    | stay r => exact hne
    | _ => exact nofun
  have hstart : (InRange n (start cur) ∧ Fresh used n (start cur)) ∧ start cur ≠ done none :=
    ⟨⟨trivial, trivial⟩, nofun⟩
  exact (iterate_of_move hsize hmove hstart m).2

/-- From a begin before `cur` the search goes behind the last zone: it does not give up. -/
theorem not_giveUp_of_isStart (hsize : 0 < size) {f : ℕ} (hf : IsStart used f)
    (hcur : f < cur) (hroom : n < f + size) (m : ℕ) :
    (step used n cur size)^[m] (start cur) ≠ done none := by
  have hmove : ∀ c c', Move used n cur size c c' →
      Ahead n f c ∧ c ≠ done none → Ahead n f c' ∧ c' ≠ done none := by
    rintro c c' hm ⟨hahead, hne⟩
    refine ⟨Ahead.move hf (.inr hroom) c c' hm hahead, ?_⟩
    cases hm with
    | giveUp i hu hi =>
      have hle : i ≤ f := hahead
      omega
    | stay r => exact hne
    | _ => exact nofun
  have hstart : Ahead n f (start cur) ∧ start cur ≠ done none := ⟨trivial, nofun⟩
  exact (iterate_of_move hsize hmove hstart m).2

/-- A request of no zone is never served. -/
theorem not_found_of_size_eq_zero (m z : ℕ) :
    (step used n cur 0)^[m] (start cur) ≠ done (some z) := by
  have hstep : ∀ c, c ≠ done (some z) → step used n cur 0 c ≠ done (some z) := by
    rintro (⟨i, ov⟩ | ⟨i, ov⟩ | r) hc
    · rw [step]
      split_ifs <;> exact nofun
    · have hscan : scan used i (0 - 1) 1 ≠ 0 := Nat.one_ne_zero
      rw [step, if_neg hscan]
      split_ifs <;> exact nofun
    · exact hc
  induction m with
  | zero => exact nofun
  | succ m ih =>
    rw [Function.iterate_succ_apply']
    exact hstep _ ih

/-- A search that ends says what makes it end. -/
theorem Ends.condition (hn : 0 < n) (hsize : 0 < size) {r : Option ℕ}
    (h : Ends used n cur size r) :
    (∃ z, IsRun used n size z) ∨ ((∃ f < n, cur ≤ f ∧ IsStart used f) ∧
      ∀ f < n, f < cur → IsStart used f → f + size ≤ n) := by
  obtain ⟨m, hm⟩ := id h
  cases r with
  | some z => exact .inl ⟨z, h.right hsize⟩
  | none =>
    refine .inr ⟨?_, fun f _ hcur hstart => ?_⟩
    · by_contra hstart
      push Not at hstart
      refine not_giveUp_of_forall_lt hsize hn (fun f hf hf' => ?_) m hm
      exact Nat.lt_of_not_le fun hcur => hstart f hf hcur hf'
    · by_contra hroom
      exact not_giveUp_of_isStart hsize hstart hcur (Nat.lt_of_not_le hroom) m hm

theorem ends_of_condition (hn : 0 < n) (hsize : 0 < size)
    (h : (∃ z, IsRun used n size z) ∨ ((∃ f < n, cur ≤ f ∧ IsStart used f) ∧
      ∀ f < n, f < cur → IsStart used f → f + size ≤ n)) :
    ∃ r, (step used n cur size)^[4 * n + 2] (start cur) = done r := by
  obtain ⟨z, hz⟩ | ⟨⟨f, hf, hcur, hstart⟩, hroom⟩ := h
  · exact ends_of_isRun hn hsize hz
  · exact ends_of_isStart hf hsize hstart hcur hroom

/-- **A search that ends does so soon.** -/
theorem Ends.soon (hn : 0 < n) (hsize : 0 < size) {r : Option ℕ} (h : Ends used n cur size r) :
    (step used n cur size)^[4 * n + 2] (start cur) = done r := by
  obtain ⟨r', hr'⟩ := ends_of_condition hn hsize (h.condition hn hsize)
  obtain ⟨m, hm⟩ := h
  have heq : done r' = done r := by
    rw [← iterate_eq_done_of_le (Nat.le_max_left (4 * n + 2) m) hr',
      ← iterate_eq_done_of_le (Nat.le_max_right (4 * n + 2) m) hm]
  rw [hr', heq]

/-- **Exactly when the search ends with the right answer.** -/
theorem ends_right_iff (hn : 0 < n) :
    (∃ r, Ends used n cur size r ∧ (r = none → ¬ ∃ z, IsRun used n size z)) ↔
      0 < size ∧ ((∃ z, IsRun used n size z) ∨
        ((∃ f < n, cur ≤ f ∧ IsStart used f) ∧
          ∀ f < n, f < cur → IsStart used f → f + size ≤ n)) := by
  obtain rfl | hsize := Nat.eq_zero_or_pos size
  · refine iff_of_false ?_ fun h => Nat.lt_irrefl 0 h.1
    rintro ⟨r, ⟨m, hm⟩, hr⟩
    cases r with
    | none => exact hr rfl ⟨0, hn.le, fun k hk => absurd hk (Nat.not_lt_zero k)⟩
    | some z => exact not_found_of_size_eq_zero m z hm
  · refine ⟨fun ⟨r, hends, _⟩ => ⟨hsize, hends.condition hn hsize⟩, fun ⟨_, hcond⟩ => ?_⟩
    obtain ⟨r, hr⟩ := ends_of_condition hn hsize hcond
    refine ⟨r, ⟨_, hr⟩, ?_⟩
    rintro rfl ⟨z, hz⟩
    exact Ends.right (r := none) hsize ⟨_, hr⟩ z hz

end NextFit

end ELuaBrain
