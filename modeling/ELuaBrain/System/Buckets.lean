import Mathlib.Data.List.Perm.Basic
import Mathlib.Data.List.Range
import Mathlib.Tactic.SplitIfs

/-!
# Chained hash tables

A vector of buckets, each with a list of items. Rehashing takes one bucket after the other and puts
its items into the buckets of their new positions, in the vector itself.

## Main definitions

* `Buckets.bucket`, `Buckets.items` : a bucket, and the items of all buckets.
* `Buckets.Placed` : every item is in the bucket of its position.
* `Buckets.rehash` : rehashing in place.

## Main results

* `Buckets.rehash_placed` : rehashing in place puts the items into the buckets of their new
  positions, if these do not lie ahead among the buckets to come.
* `Buckets.rehash_perm` : it keeps the items.
-/

namespace ELuaBrain.Buckets

variable {α : Type*}

/-- The bucket at an index. -/
def bucket (b : List (List α)) (i : ℕ) : List α := b[i]?.getD []

/-- The items of all buckets. -/
abbrev items (b : List (List α)) : List α := b.flatten

/-- A new item at the head of a bucket. -/
def push (i : ℕ) (a : α) (b : List (List α)) : List (List α) := b.modify i (a :: ·)

/-- Every item is in the bucket of its position. -/
def Placed (pos : α → ℕ) (b : List (List α)) : Prop := ∀ i, ∀ a ∈ bucket b i, pos a = i

/-- The items of a bucket are put into the buckets of their positions. -/
def scatter (pos : α → ℕ) (as : List α) (b : List (List α)) : List (List α) :=
  as.foldl (fun b a => push (pos a) a b) b

/-- The first `n` buckets are emptied and their items are put into the buckets of their positions.
-/
def rehash (pos : α → ℕ) (n : ℕ) (b : List (List α)) : List (List α) :=
  (List.range n).foldl (fun b i => scatter pos (bucket b i) (b.set i [])) b

variable {pos old : α → ℕ} {a a' : α} {as : List α} {b : List (List α)} {i j n : ℕ}

/-! ### Buckets -/

theorem bucket_eq_nil (h : b.length ≤ i) : bucket b i = [] := by
  rw [bucket, List.getElem?_eq_none h, Option.getD_none]

theorem bucket_push (i j : ℕ) (a : α) (b : List (List α)) :
    bucket (push i a b) j = if i = j ∧ j < b.length then a :: bucket b j else bucket b j := by
  rw [bucket, bucket, push, List.getElem?_modify]
  rcases lt_or_ge j b.length with hj | hj
  · rw [List.getElem?_eq_getElem hj]
    by_cases hij : i = j
    · simp only [hij, hj, if_true, and_self, Option.map_eq_map, Option.map_some, Option.getD_some]
    · simp only [hij, if_false, false_and, Option.map_eq_map, Option.map_some, Option.getD_some]
  · rw [List.getElem?_eq_none hj, if_neg fun h => absurd h.2 (Nat.not_lt.mpr hj)]
    rfl

theorem bucket_set_nil (i j : ℕ) (b : List (List α)) :
    bucket (b.set i []) j = if i = j then [] else bucket b j := by
  rw [bucket, bucket, List.getElem?_set]
  split_ifs <;> rfl

theorem mem_items : a ∈ items b ↔ ∃ i, a ∈ bucket b i := by
  constructor
  · intro h
    obtain ⟨l, hl, ha⟩ := List.mem_flatten.mp h
    obtain ⟨i, hi, rfl⟩ := List.mem_iff_getElem.mp hl
    exact ⟨i, by rwa [bucket, List.getElem?_eq_getElem hi]⟩
  · rintro ⟨i, ha⟩
    rcases lt_or_ge i b.length with hi | hi
    · rw [bucket, List.getElem?_eq_getElem hi] at ha
      exact List.mem_flatten.mpr ⟨_, List.getElem_mem hi, ha⟩
    · rw [bucket_eq_nil hi] at ha
      cases ha

/-- In a table with placed items these are where they are looked for. -/
theorem Placed.mem_bucket (h : Placed pos b) : a ∈ bucket b (pos a) ↔ a ∈ items b := by
  refine ⟨fun ha => mem_items.mpr ⟨_, ha⟩, fun ha => ?_⟩
  obtain ⟨i, hi⟩ := mem_items.mp ha
  rwa [h i a hi]

theorem Placed.lt_length (h : Placed pos b) (ha : a ∈ items b) : pos a < b.length := by
  refine lt_of_not_ge fun hle => ?_
  have hmem := h.mem_bucket.mpr ha
  rw [bucket_eq_nil hle] at hmem
  cases hmem

/-- A new item in the bucket of its position. -/
theorem Placed.push (h : Placed pos b) (a : α) : Placed pos (push (pos a) a b) := by
  intro j a' ha'
  rw [bucket_push] at ha'
  split_ifs at ha' with hj
  · rcases List.mem_cons.mp ha' with rfl | hmem
    · exact hj.1
    · exact h j a' hmem
  · exact h j a' ha'

theorem Placed.nil (n : ℕ) : Placed pos (List.replicate n ([] : List α)) := by
  intro i a ha
  have hnil : bucket (List.replicate n ([] : List α)) i = [] := by
    rw [bucket, List.getElem?_replicate]
    split_ifs <;> rfl
  rw [hnil] at ha
  cases ha

theorem bucket_append_replicate (n : ℕ) (b : List (List α)) (i : ℕ) :
    bucket (b ++ List.replicate n []) i = bucket b i := by
  rcases lt_or_ge i b.length with hi | hi
  · rw [bucket, List.getElem?_append_left hi]
    rfl
  · rw [bucket, List.getElem?_append_right hi, List.getElem?_replicate, bucket_eq_nil hi]
    split_ifs <;> rfl

theorem items_append_replicate (n : ℕ) (b : List (List α)) :
    items (b ++ List.replicate n []) = items b := by
  rw [items, List.flatten_append, List.flatten_replicate_nil, List.append_nil]

/-! ### Items -/

theorem length_push (i : ℕ) (a : α) (b : List (List α)) : (push i a b).length = b.length :=
  List.length_modify ..

theorem push_perm (h : i < b.length) : (items (push i a b)).Perm (a :: items b) := by
  induction b generalizing i with
  | nil => cases h
  | cons l b ih =>
    cases i with
    | zero => exact .rfl
    | succ i =>
      have hperm := (ih (Nat.lt_of_succ_lt_succ h)).append_left l
      exact hperm.trans List.perm_middle

theorem set_nil_perm (i : ℕ) (b : List (List α)) :
    (bucket b i ++ items (b.set i [])).Perm (items b) := by
  induction b generalizing i with
  | nil => exact .rfl
  | cons l b ih =>
    cases i with
    | zero => exact .rfl
    | succ i =>
      have hcomm : (bucket b i ++ (l ++ items (b.set i []))).Perm
          (l ++ (bucket b i ++ items (b.set i []))) := by
        rw [← List.append_assoc, ← List.append_assoc]
        exact List.perm_append_comm.append_right _
      exact hcomm.trans ((ih i).append_left l)

/-- A bucket with other items. -/
theorem set_perm {l : List α} (h : i < b.length) :
    (items (b.set i l)).Perm (l ++ items (b.set i [])) := by
  induction b generalizing i with
  | nil => cases h
  | cons l' b ih =>
    cases i with
    | zero => exact .rfl
    | succ i =>
      have hcomm : (l' ++ (l ++ items (b.set i []))).Perm (l ++ (l' ++ items (b.set i []))) := by
        rw [← List.append_assoc, ← List.append_assoc]
        exact List.perm_append_comm.append_right _
      exact ((ih (Nat.lt_of_succ_lt_succ h)).append_left l').trans hcomm

theorem bucket_set {l : List α} (h : i < b.length) :
    bucket (b.set i l) j = if i = j then l else bucket b j := by
  rw [bucket, bucket, List.getElem?_set]
  split_ifs <;> rfl

theorem bucket_map (f : α → α) (b : List (List α)) (i : ℕ) :
    bucket (b.map (List.map f)) i = (bucket b i).map f := by
  rw [bucket, bucket, List.getElem?_map]
  cases b[i]? <;> rfl

/-! ### Rehashing -/

theorem length_scatter (pos : α → ℕ) (as : List α) (b : List (List α)) :
    (scatter pos as b).length = b.length := by
  induction as generalizing b with
  | nil => rfl
  | cons a as ih => exact (ih (push (pos a) a b)).trans (length_push _ _ _)

theorem scatter_perm (h : ∀ a ∈ as, pos a < b.length) :
    (items (scatter pos as b)).Perm (as ++ items b) := by
  induction as generalizing b with
  | nil => exact .rfl
  | cons a as ih =>
    have hrest : ∀ a' ∈ as, pos a' < (push (pos a) a b).length := fun a' ha' => by
      rw [length_push]
      exact h a' (List.mem_cons_of_mem _ ha')
    calc (items (scatter pos as (push (pos a) a b))).Perm (as ++ items (push (pos a) a b)) :=
          ih hrest
      List.Perm _ (as ++ a :: items b) := (push_perm (h a List.mem_cons_self)).append_left as
      List.Perm _ (a :: as ++ items b) := List.perm_middle

theorem mem_bucket_scatter (h : a ∈ bucket (scatter pos as b) j) :
    a ∈ bucket b j ∨ a ∈ as ∧ pos a = j := by
  induction as generalizing b with
  | nil => exact Or.inl h
  | cons a' as ih =>
    rcases ih h with hmem | ⟨hmem, hpos⟩
    · rw [bucket_push] at hmem
      split_ifs at hmem with hj
      · rcases List.mem_cons.mp hmem with rfl | hmem
        · exact Or.inr ⟨List.mem_cons_self, hj.1⟩
        · exact Or.inl hmem
      · exact Or.inl hmem
    · exact Or.inr ⟨List.mem_cons_of_mem _ hmem, hpos⟩

theorem rehash_succ (pos : α → ℕ) (n : ℕ) (b : List (List α)) : rehash pos (n + 1) b =
    scatter pos (bucket (rehash pos n b) n) ((rehash pos n b).set n []) := by
  rw [rehash, List.range_succ, List.foldl_append]
  rfl

theorem length_rehash (pos : α → ℕ) (n : ℕ) (b : List (List α)) :
    (rehash pos n b).length = b.length := by
  induction n with
  | zero => rfl
  | succ n ih => rw [rehash_succ, length_scatter, List.length_set, ih]

theorem rehash_perm (h : ∀ a ∈ items b, pos a < b.length) (n : ℕ) :
    (items (rehash pos n b)).Perm (items b) := by
  induction n with
  | zero => exact .rfl
  | succ n ih =>
    have hlt : ∀ a ∈ bucket (rehash pos n b) n, pos a < ((rehash pos n b).set n []).length :=
        fun a ha => by
      rw [List.length_set, length_rehash]
      exact h a (ih.subset (mem_items.mpr ⟨n, ha⟩))
    rw [rehash_succ]
    exact (scatter_perm hlt).trans ((set_nil_perm n _).trans ih)

/-- The items of the buckets that are done and of those behind the last one are in their new places,
the others in their old ones. -/
theorem mem_bucket_rehash (hold : Placed old b) (hb : ∀ i, n ≤ i → bucket b i = [])
    (hpos : ∀ a ∈ items b, pos a ≤ old a ∨ n ≤ pos a) (hi : i ≤ n) :
    ∀ j, ∀ a ∈ bucket (rehash pos i b) j, a ∈ items b ∧
      if i ≤ j ∧ j < n then old a = j else pos a = j := by
  induction i with
  | zero =>
    intro j a ha
    refine ⟨mem_items.mpr ⟨j, ha⟩, ?_⟩
    rcases lt_or_ge j n with hj | hj
    · rw [if_pos ⟨Nat.zero_le j, hj⟩]
      exact hold j a ha
    · rw [show rehash pos 0 b = b from rfl, hb j hj] at ha
      cases ha
  | succ i ih =>
    intro j a ha
    have ih := ih (Nat.le_of_succ_le hi)
    rw [rehash_succ] at ha
    rcases mem_bucket_scatter ha with hmem | ⟨hmem, hpos'⟩
    · rw [bucket_set_nil] at hmem
      split_ifs at hmem with hij
      · cases hmem
      · obtain ⟨hitem, hplace⟩ := ih j a hmem
        refine ⟨hitem, ?_⟩
        split_ifs at hplace ⊢ with h₁ h₂ h₂
        · exact hplace
        · exact absurd ⟨by omega, h₁.2⟩ h₂
        · exact absurd ⟨by omega, h₂.2⟩ h₁
        · exact hplace
    · obtain ⟨hitem, hplace⟩ := ih i a hmem
      rw [if_pos ⟨le_rfl, Nat.lt_of_succ_le hi⟩] at hplace
      refine ⟨hitem, ?_⟩
      have hle := hpos a hitem
      rw [if_neg (by omega)]
      exact hpos'

/-- **Rehashing in place.** New positions that do not lie ahead among the buckets to come. -/
theorem rehash_placed (hold : Placed old b) (hb : ∀ i, n ≤ i → bucket b i = [])
    (hpos : ∀ a ∈ items b, pos a ≤ old a ∨ n ≤ pos a) : Placed pos (rehash pos n b) := by
  intro j a ha
  have hplace := (mem_bucket_rehash hold hb hpos le_rfl j a ha).2
  rwa [if_neg (by omega)] at hplace

/-- Buckets behind the last position are empty. -/
theorem Placed.bucket_eq_nil_of_le (h : Placed pos b) (hlt : ∀ a ∈ items b, pos a < n)
    (hi : n ≤ i) : bucket b i = [] := by
  refine List.eq_nil_iff_forall_not_mem.mpr fun a ha => ?_
  have := h i a ha
  have := hlt a (mem_items.mpr ⟨i, ha⟩)
  omega

/-- The end of the vector is given back. -/
theorem bucket_take (b : List (List α)) (hi : i < n) : bucket (b.take n) i = bucket b i := by
  rw [bucket, List.getElem?_take_of_lt hi]
  rfl

theorem items_take (h : ∀ i, n ≤ i → bucket b i = []) : items (b.take n) = items b := by
  have hdrop : items (b.drop n) = [] := by
    refine List.eq_nil_iff_forall_not_mem.mpr fun a ha => ?_
    obtain ⟨i, hi⟩ := mem_items.mp ha
    rw [bucket, List.getElem?_drop] at hi
    have hnil := h (n + i) (Nat.le_add_right n i)
    rw [bucket] at hnil
    rw [hnil] at hi
    cases hi
  calc items (b.take n) = items (b.take n) ++ items (b.drop n) := by rw [hdrop, List.append_nil]
    _ = items b := by rw [items, items, items, ← List.flatten_append, List.take_append_drop]

end ELuaBrain.Buckets
