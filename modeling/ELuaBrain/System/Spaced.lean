import Mathlib.Data.List.Basic

/-!
# Words between separators

The words of a list are its parts without separators, as long as they can be. A list that ends with
a separator is made up of separators and of words that are followed by separators.

## Main definitions

* `pieces` : the words of a list.
* `Spaced` : a list of words, each followed by separators.

## Main results

* `Spaced.pieces_eq` : the words of such a list.
* `exists_spaced` : the parts of a list that ends with a separator.
-/

namespace ELuaBrain

variable {α β : Type*} {p : α → Bool} {q : β → Bool} {c : α} {l w seps : List α}
  {ws : List (List α)}

/-- The words of a list. -/
def pieces (p : α → Bool) (l : List α) : List (List α) := (l.splitOnP p).filter fun w => !w.isEmpty

/-- A list of words that are followed by separators. -/
inductive Spaced (p : α → Bool) : List α → List (List α) → Prop
  | nil : Spaced p [] []
  | word {w seps l : List α} {ws : List (List α)} (hne : w ≠ []) (hw : ∀ c ∈ w, p c = false)
      (hseps : ∀ c ∈ seps, p c = true) (hsome : seps ≠ []) (h : Spaced p l ws) :
      Spaced p (w ++ seps ++ l) (w :: ws)

@[simp] theorem pieces_nil : pieces p [] = [] := by simp [pieces]

theorem pieces_cons_sep (hc : p c = true) : pieces p (c :: l) = pieces p l := by
  simp [pieces, List.splitOnP_cons_eq_if_modifyHead, hc]

theorem pieces_seps_append (hseps : ∀ c ∈ seps, p c = true) :
    pieces p (seps ++ l) = pieces p l := by
  induction seps with
  | nil => rfl
  | cons c seps ih =>
    rw [List.cons_append, pieces_cons_sep (hseps c List.mem_cons_self)]
    exact ih fun d hd => hseps d (List.mem_cons_of_mem _ hd)

theorem pieces_word_append (hne : w ≠ []) (hw : ∀ c ∈ w, p c = false) (hc : p c = true) :
    pieces p (w ++ c :: l) = w :: pieces p l := by
  have hfirst : (w ++ c :: l).splitOnP p = w :: l.splitOnP p :=
    List.splitOnP_append_cons_of_forall_mem hw c hc l
  rw [pieces, hfirst, List.filter_cons_of_pos (by simpa using hne), pieces]

/-- A separator at the end makes no difference. -/
theorem pieces_append_sep (hc : p c = true) : pieces p (l ++ [c]) = pieces p l := by
  have hsplit := List.splitOnP_append_cons l [] hc
  simp [pieces, hsplit]

/-- The words of a list of words. -/
theorem Spaced.pieces_eq (h : Spaced p l ws) : pieces p l = ws := by
  induction h with
  | nil => exact pieces_nil
  | @word w seps l ws hne hw hseps hsome h ih =>
    obtain ⟨c, seps, rfl⟩ := List.exists_cons_of_ne_nil hsome
    have hc := hseps c List.mem_cons_self
    rw [List.append_assoc, List.cons_append, pieces_word_append hne hw hc,
      pieces_seps_append fun d hd => hseps d (List.mem_cons_of_mem _ hd), ih]

theorem Spaced.head (h : Spaced p l ws) : ∀ c ∈ l.head?, p c = false := by
  cases h with
  | nil => simp
  | @word w seps l ws hne hw hseps hsome h =>
    obtain ⟨d, w, rfl⟩ := List.exists_cons_of_ne_nil hne
    intro c hc
    obtain rfl : d = c := by simpa using hc
    exact hw d List.mem_cons_self

theorem Spaced.length_le (h : Spaced p l ws) : ws.length ≤ l.length := by
  induction h with
  | nil => exact Nat.le_refl _
  | @word w seps l ws hne hw hseps hsome h ih =>
    have hpos := List.length_pos_iff.mpr hne
    simp only [List.length_append, List.length_cons]
    omega

theorem Spaced.word_of_mem (h : Spaced p l ws) (hmem : w ∈ ws) : w ≠ [] ∧ ∀ c ∈ w, p c = false := by
  induction h with
  | nil => exact absurd hmem List.not_mem_nil
  | @word v seps l ws hne hw hseps hsome h ih =>
    obtain rfl | hmem := List.mem_cons.mp hmem
    · exact ⟨hne, hw⟩
    · exact ih hmem

theorem Spaced.subset (h : Spaced p l ws) (hmem : w ∈ ws) : w ⊆ l := by
  induction h with
  | nil => exact absurd hmem List.not_mem_nil
  | @word v seps l ws hne hw hseps hsome h ih =>
    rw [List.append_assoc]
    obtain rfl | hmem := List.mem_cons.mp hmem
    · exact List.subset_append_left _ _
    · exact fun x hx => List.mem_append_right _ (List.mem_append_right _ (ih hmem hx))

/-- The same list with other elements. -/
theorem Spaced.map {f : α → β} (hf : ∀ c, q (f c) = p c) (h : Spaced p l ws) :
    Spaced q (l.map f) (ws.map (List.map f)) := by
  induction h with
  | nil => exact .nil
  | @word w seps l ws hne hw hseps hsome h ih =>
    rw [List.map_append, List.map_append, List.map_cons]
    refine .word (by simpa using hne) ?_ ?_ (by simpa using hsome) ih
    · simpa [hf] using hw
    · simpa [hf] using hseps

/-- One more element in front of the parts of a list. -/
theorem Spaced.cons (hc : p c = false) (hseps : ∀ d ∈ seps, p d = true) (h : Spaced p l ws)
    (hne : seps ++ l ≠ []) : ∃ ws', Spaced p (c :: (seps ++ l)) ws' := by
  by_cases hnone : seps = []
  · subst hnone
    cases h with
    | nil => exact absurd rfl hne
    | @word w seps l ws hwne hw hseps hsome h =>
      refine ⟨_, .word (w := c :: w) (by simp) (fun d hd => ?_) hseps hsome h⟩
      obtain rfl | hd := List.mem_cons.mp hd
      · exact hc
      · exact hw d hd
  · refine ⟨_, .word (w := [c]) (by simp) (fun d hd => ?_) hseps hnone h⟩
    rw [List.mem_singleton.mp hd]
    exact hc

/-- The parts of a list that ends with a separator. -/
theorem exists_spaced {p : α → Bool} {l : List α} (h : ∀ c, l.getLast? = some c → p c = true) :
    ∃ seps body, l = seps ++ body ∧ (∀ c ∈ seps, p c = true) ∧ Spaced p body (pieces p l) := by
  have hparts : ∃ seps body ws, l = seps ++ body ∧ (∀ c ∈ seps, p c = true) ∧ Spaced p body ws := by
    induction l with
    | nil => exact ⟨[], [], [], rfl, fun c hc => absurd hc List.not_mem_nil, .nil⟩
    | cons c l ih =>
      by_cases hl : l = []
      · subst hl
        exact ⟨[c], [], [], rfl, fun d hd => h d (by rw [List.mem_singleton.mp hd]; rfl), .nil⟩
      · obtain ⟨seps, body, ws, rfl, hseps, hspaced⟩ := ih fun d hd => h d (by
          rw [List.getLast?_cons, hd]
          rfl)
        by_cases hc : p c = true
        · refine ⟨c :: seps, body, ws, rfl, fun d hd => ?_, hspaced⟩
          obtain rfl | hd := List.mem_cons.mp hd
          · exact hc
          · exact hseps d hd
        · obtain ⟨ws', hspaced'⟩ := hspaced.cons (by simpa using hc) hseps hl
          exact ⟨[], _, ws', rfl, fun d hd => absurd hd List.not_mem_nil, hspaced'⟩
  obtain ⟨seps, body, ws, rfl, hseps, hspaced⟩ := hparts
  refine ⟨seps, body, rfl, hseps, ?_⟩
  rw [pieces_seps_append hseps, hspaced.pieces_eq]
  exact hspaced

end ELuaBrain
