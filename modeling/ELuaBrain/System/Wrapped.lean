import Mathlib.Data.List.Basic
import Mathlib.Data.List.GetD
import Mathlib.Data.Nat.Basic
import Mathlib.Tactic.Conv
import Mathlib.Tactic.SplitIfs

/-!
# Text in rows

A text is cut at the ends of its lines, and each line into rows of a width. The last row of a line
is the only one that can be shorter. A line that is a multiple of the width has no empty row after
it.

## Main definitions

* `wrap` : the rows of a text.
* `extendRows` : one more character.
* `lastRows` : the rows that are on a screen.
* `cellAt` : the characters of rows.

## Main results

* `wrap_concat_sep`, `wrap_concat` : the rows of a text that becomes longer.
* `lastRows_concat` : one more row scrolls the screen if it is full.
-/

namespace ELuaBrain

variable {α : Type*}

/-- The rows of a line. -/
def rowsOf (width : ℕ) (l : List α) : List (List α) :=
  if width = 0 ∨ l.length ≤ width then [l]
  else l.take width :: rowsOf width (l.drop width)
termination_by l.length
decreasing_by
  rw [List.length_drop]
  omega

/-- The rows of a text, where `sep` ends a line. -/
def wrap [BEq α] (width : ℕ) (sep : α) (text : List α) : List (List α) :=
  (text.splitOn sep).flatMap (rowsOf width)

/-- The last of some rows. -/
def lastRow (rows : List (List α)) : List α := rows.getLast?.getD []

/-- One more character, which starts a new row if the last one is full. -/
def extendRows (width : ℕ) (rows : List (List α)) (c : α) : List (List α) :=
  if (lastRow rows).length < width then rows.dropLast ++ [lastRow rows ++ [c]]
  else rows ++ [[c]]

/-- The last `n` rows. -/
def lastRows (n : ℕ) (rows : List (List α)) : List (List α) := rows.drop (rows.length - n)

/-- The character at a position of the rows. -/
def cellAt (blank : α) (rows : List (List α)) (x y : ℕ) : α := (rows.getD y []).getD x blank

variable {width : ℕ} {rows : List (List α)} {row : List α} {c : α}

/-! ### The last row -/

@[simp] theorem lastRow_concat (rows : List (List α)) (row : List α) :
    lastRow (rows ++ [row]) = row := by
  rw [lastRow, List.getLast?_concat, Option.getD_some]

theorem dropLast_concat_lastRow (hrows : rows ≠ []) : rows.dropLast ++ [lastRow rows] = rows := by
  rw [lastRow, List.getLast?_eq_some_getLast hrows, Option.getD_some]
  exact List.dropLast_append_getLast hrows

theorem lastRow_append (before : List (List α)) (hrows : rows ≠ []) :
    lastRow (before ++ rows) = lastRow rows := by
  rw [← dropLast_concat_lastRow hrows, ← List.append_assoc, lastRow_concat, lastRow_concat]

/-- Rows that are before do not matter. -/
theorem extendRows_append (before : List (List α)) (hrows : rows ≠ []) :
    extendRows width (before ++ rows) c = before ++ extendRows width rows c := by
  rw [extendRows, extendRows, lastRow_append before hrows]
  split_ifs
  · rw [List.dropLast_append_of_ne_nil hrows, List.append_assoc]
  · rw [List.append_assoc]

/-! ### The rows of a text -/

theorem rowsOf_short (h : row.length ≤ width) : rowsOf width row = [row] := by
  rw [rowsOf, if_pos (.inr h)]

theorem rowsOf_ne_nil (width : ℕ) (l : List α) : rowsOf width l ≠ [] := by
  rw [rowsOf]
  split_ifs
  · exact List.cons_ne_nil _ _
  · exact List.cons_ne_nil _ _

/-- A line becomes longer. -/
theorem rowsOf_concat (hwidth : 0 < width) (l : List α) (c : α) :
    rowsOf width (l ++ [c]) = extendRows width (rowsOf width l) c := by
  induction l using rowsOf.induct width with
  | case1 l hshort =>
    have hle : l.length ≤ width := hshort.resolve_left (Nat.ne_of_gt hwidth)
    rw [rowsOf_short hle, ← List.nil_append [l], extendRows, lastRow_concat, List.dropLast_concat]
    split_ifs with hlt
    · exact rowsOf_short (by simpa using Nat.succ_le_of_lt hlt)
    · -- The row is full.
      have hlen : l.length = width := le_antisymm hle (Nat.le_of_not_lt hlt)
      rw [rowsOf, if_neg (by simp; omega), List.take_left' hlen, List.drop_left' hlen,
        rowsOf_short (Nat.succ_le_of_lt hwidth)]
      rfl
  | case2 l hlong ih =>
    rw [not_or, Nat.not_le] at hlong
    have hle : width ≤ l.length := Nat.le_of_lt hlong.2
    rw [rowsOf, if_neg (by simp; omega), List.take_append_of_le_length hle,
      List.drop_append_of_le_length hle, ih]
    have hrows : rowsOf width l = [l.take width] ++ rowsOf width (l.drop width) := by
      rw [rowsOf, if_neg (not_or.mpr ⟨hlong.1, Nat.not_le.mpr hlong.2⟩)]
      rfl
    rw [hrows]
    exact (extendRows_append [_] (rowsOf_ne_nil _ _)).symm

section Wrap

variable [BEq α] {sep : α}

theorem wrap_nil (width : ℕ) (sep : α) : wrap width sep [] = [[]] := by
  rw [wrap, List.splitOn_nil, List.flatMap_singleton, rowsOf_short (Nat.zero_le _)]

/-- The rows of the last line are the last ones. -/
theorem wrap_eq (width : ℕ) (sep : α) (text : List α) : wrap width sep text =
    (text.splitOn sep).dropLast.flatMap (rowsOf width) ++
      rowsOf width (lastRow (text.splitOn sep)) := by
  have hne : text.splitOn sep ≠ [] := List.splitOnP_ne_nil _ _
  conv_lhs => rw [wrap, ← dropLast_concat_lastRow hne]
  rw [List.flatMap_append, List.flatMap_singleton]

theorem wrap_ne_nil (width : ℕ) (sep : α) (text : List α) : wrap width sep text ≠ [] := by
  rw [wrap_eq]
  exact List.append_ne_nil_of_right_ne_nil _ (rowsOf_ne_nil _ _)

variable [LawfulBEq α]

theorem splitOn_concat (text : List α) (hc : c ≠ sep) :
    (text ++ [c]).splitOn sep =
      (text.splitOn sep).dropLast ++ [lastRow (text.splitOn sep) ++ [c]] := by
  simp only [List.splitOn_eq_splitOnP]
  induction text with
  | nil => simp [List.splitOnP_cons_eq_if_modifyHead, hc, lastRow]
  | cons d text ih =>
    have hne := List.splitOnP_ne_nil (· == sep) text
    rw [List.cons_append, List.splitOnP_cons_eq_if_modifyHead, List.splitOnP_cons_eq_if_modifyHead,
      ih]
    split_ifs
    · rw [List.dropLast_cons_of_ne_nil hne, ← lastRow_append [[]] hne]
      rfl
    · -- The first line is the last one, or it is not.
      cases hlines : text.splitOnP (· == sep) with
      | nil => exact absurd hlines hne
      | cons line lines =>
        cases lines with
        | nil => rfl
        | cons next lines =>
          rw [List.modifyHead_cons, List.dropLast_cons_of_ne_nil (List.cons_ne_nil _ _),
            List.dropLast_cons_of_ne_nil (List.cons_ne_nil _ _), List.cons_append,
            List.modifyHead_cons]
          exact congrArg _ (congrArg _ (congrArg (fun l => [l ++ [c]])
            ((lastRow_append [line] (List.cons_ne_nil _ _)).trans
              (lastRow_append [d :: line] (List.cons_ne_nil _ _)).symm)))

/-- The end of a line starts an empty row. -/
theorem wrap_concat_sep (text : List α) :
    wrap width sep (text ++ [sep]) = wrap width sep text ++ [[]] := by
  have hsplit : (text ++ [sep]).splitOn sep = text.splitOn sep ++ [[]] :=
    List.splitOnP_append_cons text [] (beq_self_eq_true sep)
  rw [wrap, hsplit, List.flatMap_append, List.flatMap_singleton, rowsOf_short (Nat.zero_le _), wrap]

/-- One more character. -/
theorem wrap_concat (hwidth : 0 < width) (text : List α) (hc : c ≠ sep) :
    wrap width sep (text ++ [c]) = extendRows width (wrap width sep text) c := by
  rw [wrap, splitOn_concat text hc, List.flatMap_append, List.flatMap_singleton,
    rowsOf_concat hwidth, wrap_eq width sep text, extendRows_append _ (rowsOf_ne_nil _ _)]

end Wrap

/-! ### The last rows -/

section LastRows

variable {n : ℕ}

theorem length_lastRows (n : ℕ) (rows : List (List α)) :
    (lastRows n rows).length = min rows.length n := by
  rw [lastRows, List.length_drop]
  omega

theorem lastRows_ne_nil (hn : 0 < n) (hrows : rows ≠ []) : lastRows n rows ≠ [] := by
  have hlen := List.length_pos_iff.mpr hrows
  rw [← List.length_pos_iff, length_lastRows]
  omega

theorem lastRow_lastRows (hn : 0 < n) (hrows : rows ≠ []) :
    lastRow (lastRows n rows) = lastRow rows := by
  have happend := lastRow_append (rows.take (rows.length - n)) (lastRows_ne_nil hn hrows)
  rw [← happend, lastRows, List.take_append_drop]

/-- One more row. If the screen is full, it scrolls. -/
theorem lastRows_concat (hn : 0 < n) (rows : List (List α)) (row : List α) :
    lastRows n (rows ++ [row]) =
      (if (lastRows n rows).length = n then (lastRows n rows).drop 1 else lastRows n rows) ++
        [row] := by
  have hlen : (rows ++ [row]).length - n ≤ rows.length := by
    rw [List.length_append, List.length_singleton]
    omega
  rw [length_lastRows, lastRows, List.drop_append_of_le_length hlen, lastRows, List.drop_drop,
    List.length_append, List.length_singleton]
  split_ifs with hfull
  · rw [show rows.length + 1 - n = rows.length - n + 1 from by omega]
  · rw [show rows.length + 1 - n = rows.length - n from by omega]

/-- Another row in the place of the last one. -/
theorem lastRows_dropLast (hn : 0 < n) (hrows : rows ≠ []) (row : List α) :
    lastRows n (rows.dropLast ++ [row]) = (lastRows n rows).dropLast ++ [row] := by
  have hlen : (rows.dropLast ++ [row]).length = rows.length := by
    have hpos := List.length_pos_iff.mpr hrows
    rw [List.length_append, List.length_dropLast, List.length_singleton]
    omega
  have hle : rows.length - n ≤ rows.dropLast.length := by
    have hpos := List.length_pos_iff.mpr hrows
    rw [List.length_dropLast]
    omega
  rw [lastRows, hlen, List.drop_append_of_le_length hle, lastRows, List.dropLast_eq_take,
    List.dropLast_eq_take, List.drop_take, List.length_drop, Nat.sub_right_comm]

end LastRows

/-! ### Cells -/

section Cells

variable {blank : α} {x y : ℕ}

theorem cellAt_of_length_le (h : rows.length ≤ y) : cellAt blank rows x y = blank := by
  rw [cellAt, List.getD_eq_default _ _ h, List.getD_nil]

/-- An empty row has no characters. -/
theorem cellAt_concat_nil : cellAt blank (rows ++ [[]]) x y = cellAt blank rows x y := by
  rw [cellAt, cellAt]
  rcases Nat.lt_or_ge y rows.length with hlt | hge
  · rw [List.getD_append _ _ _ _ hlt]
  · rw [List.getD_append_right _ _ _ _ hge, List.getD_eq_default _ _ hge]
    cases y - rows.length with
    | zero => rfl
    | succ n => rfl

theorem cellAt_drop_one : cellAt blank (rows.drop 1) x y = cellAt blank rows x (y + 1) := by
  cases rows with
  | nil => rfl
  | cons row rows => rfl

/-- The row of a character that is put behind the last one. -/
theorem cellAt_append_last (hrows : rows ≠ []) :
    cellAt blank (rows.dropLast ++ [lastRow rows ++ [c]]) x y =
      if y + 1 = rows.length ∧ x = (lastRow rows).length then c else cellAt blank rows x y := by
  have hlen : rows.length = rows.dropLast.length + 1 := by
    have hpos := List.length_pos_iff.mpr hrows
    rw [List.length_dropLast]
    omega
  conv_rhs => rw [← dropLast_concat_lastRow hrows]
  rw [List.length_append, List.length_singleton, lastRow_concat]
  rcases Nat.lt_trichotomy y rows.dropLast.length with hlt | heq | hgt
  · rw [if_neg (by omega), cellAt, cellAt, List.getD_append _ _ _ _ hlt,
      List.getD_append _ _ _ _ hlt]
  · subst heq
    rw [cellAt, cellAt, List.getD_append_right _ _ _ _ (Nat.le_refl _), Nat.sub_self,
      List.getD_cons_zero,
      List.getD_append_right _ _ _ _ (Nat.le_refl _), Nat.sub_self, List.getD_cons_zero]
    rcases Nat.lt_trichotomy x (lastRow rows).length with hlt | rfl | hgt
    · rw [if_neg (by omega), List.getD_append _ _ _ _ hlt]
    · rw [if_pos ⟨rfl, rfl⟩, List.getD_append_right _ _ _ _ (Nat.le_refl _), Nat.sub_self,
        List.getD_cons_zero]
    · rw [if_neg (by omega), List.getD_eq_default _ _ (by simp; omega),
        List.getD_eq_default _ _ (Nat.le_of_lt hgt)]
  · rw [if_neg (by omega), cellAt_of_length_le (by rw [List.length_append]; exact hgt),
      cellAt_of_length_le (by rw [List.length_append]; exact hgt)]

end Cells

end ELuaBrain
