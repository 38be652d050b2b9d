import Mathlib.Order.Interval.Finset.Nat

/-!
# Extents of zones

Maps that say which zones are used, and the extents of zones that are given out on them. The zones
that are used are those of the extents, and no zone belongs to two of them.

## Main definitions

* `Extent`, `Extent.Covers`, `Extent.Apart` : zones in a row on one of the maps.
* `mark` : maps with the zones of an extent marked as used or as free.
* `Owned` : the used zones of the maps are those of extents that do not overlap.
* `freeCount` : the number of free zones of a map.

## Main results

* `Owned.cons`, `Owned.tail`, `Owned.resize` : an extent is given out, given back, or changed.
* `freeCount_mark_true`, `freeCount_mark_false` : how many zones are free after that.
-/

namespace ELuaBrain

variable {κ : Type*}

/-- The `count` zones from `first` on, on the map `key`. -/
structure Extent (κ : Type*) where
  key : κ
  first : ℕ
  count : ℕ
  deriving DecidableEq, Repr

namespace Extent

variable {e e' : Extent κ}

/-- The zone `z` of the map `k` belongs to the extent. -/
def Covers (e : Extent κ) (k : κ) (z : ℕ) : Prop :=
  e.key = k ∧ e.first ≤ z ∧ z < e.first + e.count

instance [DecidableEq κ] (e : Extent κ) (k : κ) (z : ℕ) : Decidable (e.Covers k z) :=
  inferInstanceAs (Decidable (_ ∧ _ ∧ _))

/-- No zone belongs to both. -/
def Apart (e e' : Extent κ) : Prop := ∀ k z, e.Covers k z → ¬ e'.Covers k z

theorem Apart.symm (h : e.Apart e') : e'.Apart e := fun k z he' he => h k z he he'

/-- Extents on one map that are apart lie one behind the other. -/
theorem Apart.order (h : e.Apart e') (hkey : e.key = e'.key) (hpos : 0 < e.count)
    (hpos' : 0 < e'.count) :
    e.first + e.count ≤ e'.first ∨ e'.first + e'.count ≤ e.first := by
  by_contra hover
  push Not at hover
  obtain ⟨hlt, hlt'⟩ := hover
  have hmax : ¬ e'.Covers e.key (max e.first e'.first) :=
    h e.key _ ⟨rfl, le_max_left _ _, max_lt (Nat.lt_add_of_pos_right hpos) hlt⟩
  exact hmax ⟨hkey.symm, le_max_right _ _, max_lt hlt' (Nat.lt_add_of_pos_right hpos')⟩

end Extent

variable [DecidableEq κ] {n : ℕ} {used used' : κ → ℕ → Bool} {e e' : Extent κ}
  {es es' : List (Extent κ)}

/-- The maps with the zones of an extent marked. -/
def mark (used : κ → ℕ → Bool) (e : Extent κ) (v : Bool) : κ → ℕ → Bool :=
  fun k z => if e.Covers k z then v else used k z

theorem mark_of_ne {k : κ} (hk : k ≠ e.key) (v : Bool) : mark used e v k = used k := by
  funext z
  exact if_neg fun h => hk h.1.symm

/-! ### Ownership -/

omit [DecidableEq κ] in
/-- The used zones are those of the extents, and no zone belongs to two of them. -/
structure Owned (n : ℕ) (used : κ → ℕ → Bool) (es : List (Extent κ)) : Prop where
  inside : ∀ e ∈ es, 0 < e.count ∧ e.first + e.count ≤ n
  apart : es.Pairwise Extent.Apart
  used_iff : ∀ k, ∀ z < n, used k z = true ↔ ∃ e ∈ es, e.Covers k z

namespace Owned

omit [DecidableEq κ] in
/-- Once every extent is given back every zone is free. -/
theorem eq_false_of_nil (h : Owned n used []) (k : κ) {z : ℕ} (hz : z < n) : used k z = false := by
  refine Bool.eq_false_iff.mpr fun hu => ?_
  obtain ⟨e, he, -⟩ := (h.used_iff k z hz).mp hu
  exact List.not_mem_nil he

omit [DecidableEq κ] in
theorem nil (h : ∀ k, ∀ z < n, used k z = false) : Owned n used [] := by
  refine ⟨List.forall_mem_nil _, .nil, fun k z hz => ?_⟩
  rw [h k z hz]
  exact ⟨nofun, fun ⟨_, he, _⟩ => absurd he List.not_mem_nil⟩

omit [DecidableEq κ] in
theorem congr (h : Owned n used es) (heq : ∀ k, ∀ z < n, used' k z = used k z) :
    Owned n used' es := by
  refine ⟨h.inside, h.apart, fun k z hz => ?_⟩
  rw [heq k z hz]
  exact h.used_iff k z hz

omit [DecidableEq κ] in
theorem perm (h : Owned n used es) (hperm : es.Perm es') : Owned n used es' := by
  refine ⟨fun e he => h.inside e (hperm.mem_iff.mpr he), ?_, fun k z hz => ?_⟩
  · exact (hperm.pairwise_iff Extent.Apart.symm).mp h.apart
  · rw [h.used_iff k z hz]
    constructor
    · rintro ⟨e, he, hc⟩
      exact ⟨e, hperm.mem_iff.mp he, hc⟩
    · rintro ⟨e, he, hc⟩
      exact ⟨e, hperm.mem_iff.mpr he, hc⟩

omit [DecidableEq κ] in
theorem used_of_covers (h : Owned n used es) (he : e ∈ es) {k : κ} {z : ℕ} (hc : e.Covers k z) :
    used k z = true := by
  have hin := (h.inside e he).2
  have hlt := hc.2.2
  exact (h.used_iff k z (by omega)).mpr ⟨e, he, hc⟩

/-- **Free zones are given out.** -/
theorem cons (h : Owned n used es) (hpos : 0 < e.count) (hin : e.first + e.count ≤ n)
    (hfree : ∀ z, e.Covers e.key z → used e.key z = false) :
    Owned n (mark used e true) (e :: es) := by
  refine ⟨?_, ?_, fun k z hz => ?_⟩
  · rintro d hd
    obtain rfl | hd := List.mem_cons.mp hd
    · exact ⟨hpos, hin⟩
    · exact h.inside d hd
  · refine List.pairwise_cons.mpr ⟨fun d hd k z hc hcd => ?_, h.apart⟩
    obtain rfl : e.key = k := hc.1
    exact Bool.noConfusion ((hfree z hc).symm.trans (h.used_of_covers hd hcd))
  · by_cases hc : e.Covers k z
    · exact ⟨fun _ => ⟨e, List.mem_cons_self, hc⟩, fun _ => if_pos hc⟩
    · rw [mark, if_neg hc, h.used_iff k z hz]
      constructor
      · rintro ⟨d, hd, hcd⟩
        exact ⟨d, List.mem_cons_of_mem e hd, hcd⟩
      · rintro ⟨d, hd, hcd⟩
        obtain rfl | hd := List.mem_cons.mp hd
        · exact absurd hcd hc
        · exact ⟨d, hd, hcd⟩

/-- **Zones are given back.** -/
theorem tail (h : Owned n used (e :: es)) : Owned n (mark used e false) es := by
  have hapart := List.pairwise_cons.mp h.apart
  refine ⟨fun d hd => h.inside d (List.mem_cons_of_mem e hd), hapart.2, fun k z hz => ?_⟩
  by_cases hc : e.Covers k z
  · rw [mark, if_pos hc]
    exact ⟨nofun, fun ⟨d, hd, hcd⟩ => absurd hcd (hapart.1 d hd k z hc)⟩
  · rw [mark, if_neg hc, h.used_iff k z hz]
    constructor
    · rintro ⟨d, hd, hcd⟩
      obtain rfl | hd := List.mem_cons.mp hd
      · exact absurd hcd hc
      · exact ⟨d, hd, hcd⟩
    · rintro ⟨d, hd, hcd⟩
      exact ⟨d, List.mem_cons_of_mem e hd, hcd⟩

/-- An extent keeps its begin and gets another length; zones that are new to it were free. -/
theorem resize (h : Owned n used (e :: es)) {c : ℕ} (hpos : 0 < c) (hin : e.first + c ≤ n)
    (hfree : ∀ z, e.first + e.count ≤ z → z < e.first + c → used e.key z = false) :
    Owned n (mark (mark used e false) { e with count := c } true)
      ({ e with count := c } :: es) := by
  refine h.tail.cons hpos hin fun z hz => ?_
  rw [mark]
  split_ifs with hc
  · rfl
  · have hlow : e.first ≤ z := hz.2.1
    have hnot : ¬ z < e.first + e.count := fun hlt => hc ⟨rfl, hlow, hlt⟩
    exact hfree z (Nat.le_of_not_lt hnot) hz.2.2

end Owned

/-! ### The number of free zones -/

/-- The number of free zones. -/
def freeCount (n : ℕ) (used : ℕ → Bool) : ℕ :=
  ((Finset.range n).filter fun z => used z = false).card

theorem freeCount_le (n : ℕ) (used : ℕ → Bool) : freeCount n used ≤ n :=
  (Finset.card_filter_le _ _).trans_eq (Finset.card_range n)

theorem freeCount_eq_of_forall {f : ℕ → Bool} (h : ∀ z < n, f z = false) : freeCount n f = n := by
  rw [freeCount, Finset.filter_true_of_mem fun z hz => h z (Finset.mem_range.mp hz),
    Finset.card_range]

/-- The free zones are those of the extent, and those that are free once it is marked as used. -/
theorem freeCount_mark_true (hin : e.first + e.count ≤ n)
    (hfree : ∀ z, e.Covers e.key z → used e.key z = false) :
    freeCount n (mark used e true e.key) + e.count = freeCount n (used e.key) := by
  have hsub : Finset.Ico e.first (e.first + e.count) ⊆
      (Finset.range n).filter fun z => used e.key z = false := by
    intro z hz
    have hz := Finset.mem_Ico.mp hz
    exact Finset.mem_filter.mpr ⟨Finset.mem_range.mpr (by omega), hfree z ⟨rfl, hz.1, hz.2⟩⟩
  have hsdiff : ((Finset.range n).filter fun z => mark used e true e.key z = false) =
      ((Finset.range n).filter fun z => used e.key z = false) \
        Finset.Ico e.first (e.first + e.count) := by
    ext z
    have hcovers : e.Covers e.key z ↔ z ∈ Finset.Ico e.first (e.first + e.count) := by
      rw [Finset.mem_Ico]
      exact and_iff_right rfl
    rw [Finset.mem_sdiff, Finset.mem_filter, Finset.mem_filter, ← hcovers, mark]
    split_ifs with hc
    · exact iff_of_false (fun h => h.2.elim) (fun h => h.2 hc)
    · exact (and_iff_left hc).symm
  have hcard : (Finset.Ico e.first (e.first + e.count)).card = e.count := by
    rw [Nat.card_Ico, Nat.add_sub_cancel_left]
  have hadd := Finset.card_sdiff_add_card_eq_card hsub
  rwa [← hsdiff, hcard] at hadd

/-- Used zones that are marked as free are free then. -/
theorem freeCount_mark_false (hin : e.first + e.count ≤ n)
    (hused : ∀ z, e.Covers e.key z → used e.key z = true) :
    freeCount n (mark used e false e.key) = freeCount n (used e.key) + e.count := by
  have hback : mark (mark used e false) e true = used := by
    funext k z
    by_cases hc : e.Covers k z
    · obtain rfl : e.key = k := hc.1
      rw [mark, if_pos hc, hused z hc]
    · rw [mark, if_neg hc, mark, if_neg hc]
  have hfree : ∀ z, e.Covers e.key z → mark used e false e.key z = false := fun z hz => if_pos hz
  have hadd := freeCount_mark_true hin hfree
  rw [hback] at hadd
  exact hadd.symm

end ELuaBrain
