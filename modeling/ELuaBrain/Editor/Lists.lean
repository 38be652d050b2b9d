import ELuaBrain.Editor.View

/-!
# The keys on a list of strings

What each key does to the text and to the block buffer, as an operation on plain lists.

## Main definitions

* `insertAt`, `removeAt`, `joinAt`, `breakAt`, `pasteAt` : the operations on lists of lists.
* `editText`, `removesLine` : the text after a key, and whether it has one line less.
* `Ed.edited`, `Ed.blockAfter` : the same for a state of the editor.

## Main results

* `EachChar.editText` : what holds of all characters before holds of them afterwards.
-/

namespace ELuaBrain.Editor

/-! ### Lists of lines -/

section Lines

variable {α : Type*}

/-- The line `i` with `s` inserted at `pos`. -/
def insertAt (text : List (List α)) (i pos : ℕ) (s : List α) : List (List α) :=
  text.set i ((text.getD i []).take pos ++ s ++ (text.getD i []).drop pos)

/-- The line `i` without its character at `pos`. -/
def removeAt (text : List (List α)) (i pos : ℕ) : List (List α) :=
  text.set i ((text.getD i []).eraseIdx pos)

/-- The line behind the line `i` is put at its end. -/
def joinAt (text : List (List α)) (i : ℕ) : List (List α) :=
  (text.set i (text.getD i [] ++ text.getD (i + 1) [])).eraseIdx (i + 1)

/-- The line `i` is split at `pos`, and its second part starts with `indent`. -/
def breakAt (text : List (List α)) (i pos : ℕ) (indent : List α) : List (List α) :=
  text.take i ++ (text.getD i []).take pos :: (indent ++ (text.getD i []).drop pos) ::
    text.drop (i + 1)

/-- Lines are inserted before the line `i`. -/
def pasteAt (text : List (List α)) (i : ℕ) (block : List (List α)) : List (List α) :=
  text.take i ++ block ++ text.drop i

variable {text block : List (List α)} {i j pos : ℕ} {s t indent : List α}

theorem length_insertAt : (insertAt text i pos s).length = text.length := List.length_set

theorem length_removeAt : (removeAt text i pos).length = text.length := List.length_set

theorem length_joinAt (text : List (List α)) (i : ℕ) (h : i + 1 < text.length) :
    (joinAt text i).length = text.length - 1 := by
  rw [joinAt, List.length_eraseIdx_of_lt (by rwa [List.length_set]), List.length_set]

theorem length_breakAt (pos : ℕ) (indent : List α) (h : i < text.length) :
    (breakAt text i pos indent).length = text.length + 1 := by
  rw [breakAt, List.length_append, List.length_take_of_le h.le, List.length_cons, List.length_cons,
    List.length_drop]
  omega

theorem length_pasteAt (block : List (List α)) (h : i ≤ text.length) :
    (pasteAt text i block).length = text.length + block.length := by
  rw [pasteAt, List.length_append, List.length_append, List.length_take_of_le h, List.length_drop]
  omega

theorem getD_set_self (h : i < text.length) : (text.set i t).getD i [] = t := by
  rw [List.getD_eq_getElem _ _ (by rwa [List.length_set]), List.getElem_set_self]

theorem set_getD_self (h : i < text.length) : text.set i (text.getD i []) = text := by
  rw [List.getD_eq_getElem _ _ h, List.set_getElem_self]

theorem getD_set_of_ne (h : i ≠ j) : (text.set i t).getD j [] = text.getD j [] := by
  rw [List.getD_eq_getElem?_getD, List.getElem?_set_ne h, ← List.getD_eq_getElem?_getD]

theorem getD_eraseIdx_of_lt (h : j < i) : (text.eraseIdx i).getD j [] = text.getD j [] := by
  rw [List.getD_eq_getElem?_getD, List.getElem?_eraseIdx_of_lt h, ← List.getD_eq_getElem?_getD]

/-- The length of a line with an insertion. -/
theorem length_getD_insertAt (h : i < text.length) (hpos : pos ≤ (text.getD i []).length) :
    ((insertAt text i pos s).getD i []).length = (text.getD i []).length + s.length := by
  rw [insertAt, getD_set_self h, List.length_append, List.length_append,
    List.length_take_of_le hpos, List.length_drop]
  omega

theorem length_getD_removeAt (h : i < text.length) (hpos : pos < (text.getD i []).length) :
    ((removeAt text i pos).getD i []).length = (text.getD i []).length - 1 := by
  rw [removeAt, getD_set_self h, List.length_eraseIdx_of_lt hpos]

/-- The line behind the line `i` is inserted at its end, and removed. -/
theorem eraseIdx_insertAt (text : List (List α)) (i : ℕ) :
    (insertAt text i (text.getD i []).length (text.getD (i + 1) [])).eraseIdx (i + 1) =
      joinAt text i := by
  rw [insertAt, List.take_length, List.drop_length, List.append_nil, joinAt]

/-- The line that two lines were joined to. -/
theorem getD_joinAt (h : i < text.length) :
    (joinAt text i).getD i [] = text.getD i [] ++ text.getD (i + 1) [] := by
  rw [joinAt, getD_eraseIdx_of_lt (Nat.lt_succ_self i), getD_set_self h]

/-- The second part of a line that was split. -/
theorem getD_breakAt (pos : ℕ) (indent : List α) (h : i < text.length) :
    (breakAt text i pos indent).getD (i + 1) [] = indent ++ (text.getD i []).drop pos := by
  have hlen : (text.take i).length = i := List.length_take_of_le h.le
  rw [breakAt, List.getD_append_right _ _ _ _ (by omega), hlen, Nat.add_sub_cancel_left]
  rfl

/-- Two characters are inserted one after the other. -/
theorem insertAt_insertAt (h : i < text.length) (hpos : pos ≤ (text.getD i []).length) (c d : α) :
    insertAt (insertAt text i pos [c]) i (pos + 1) [d] = insertAt text i pos [c, d] := by
  have hlen : ((text.getD i []).take pos).length = pos := List.length_take_of_le hpos
  have hline : (insertAt text i pos [c]).getD i [] =
      (text.getD i []).take pos ++ [c] ++ (text.getD i []).drop pos := getD_set_self h
  have hfirst : ((text.getD i []).take pos ++ [c]).length = pos + 1 := by
    rw [List.length_append, hlen]
    rfl
  rw [insertAt, hline, List.take_left' hfirst, List.drop_left' hfirst, insertAt, insertAt,
    List.set_set, List.append_assoc _ [c] [d]]
  rfl

end Lines

/-! ### Characters -/

section EachChar

variable {α : Type*} {P : α → Prop} {text block : List (List α)} {i pos : ℕ} {s t indent : List α}

/-- All characters of the lines satisfy `P`. -/
def EachChar (P : α → Prop) (text : List (List α)) : Prop := ∀ t ∈ text, ∀ c ∈ t, P c

theorem EachChar.getD (h : EachChar P text) (i : ℕ) : ∀ c ∈ text.getD i [], P c := by
  rw [List.getD_eq_getElem?_getD]
  cases hi : text[i]? with
  | none => exact fun c hc => absurd hc List.not_mem_nil
  | some t => exact h t (List.mem_of_getElem? hi)

theorem EachChar.set (h : EachChar P text) (ht : ∀ c ∈ t, P c) : EachChar P (text.set i t) := by
  intro t' ht'
  obtain ht' | rfl := List.mem_or_eq_of_mem_set ht'
  · exact h t' ht'
  · exact ht

theorem EachChar.eraseIdx (h : EachChar P text) : EachChar P (text.eraseIdx i) := fun t ht =>
  h t (List.mem_of_mem_eraseIdx ht)

theorem EachChar.insertAt (h : EachChar P text) (hs : ∀ c ∈ s, P c) :
    EachChar P (insertAt text i pos s) := by
  refine h.set fun c hc => ?_
  obtain (hc | hc) | hc := (List.mem_append.mp hc).imp_left List.mem_append.mp
  · exact h.getD i c (List.mem_of_mem_take hc)
  · exact hs c hc
  · exact h.getD i c (List.mem_of_mem_drop hc)

theorem EachChar.removeAt (h : EachChar P text) : EachChar P (removeAt text i pos) :=
  h.set fun c hc => h.getD i c (List.mem_of_mem_eraseIdx hc)

theorem EachChar.joinAt (h : EachChar P text) : EachChar P (joinAt text i) :=
  (h.set fun c hc => (List.mem_append.mp hc).elim (h.getD i c) (h.getD (i + 1) c)).eraseIdx

theorem EachChar.breakAt (h : EachChar P text) (hindent : ∀ c ∈ indent, P c) :
    EachChar P (breakAt text i pos indent) := by
  intro t ht
  simp only [Editor.breakAt, List.mem_append, List.mem_cons] at ht
  obtain ht | rfl | rfl | ht := ht
  · exact h t (List.mem_of_mem_take ht)
  · exact fun c hc => h.getD i c (List.mem_of_mem_take hc)
  · exact fun c hc => (List.mem_append.mp hc).elim (hindent c) fun hc =>
      h.getD i c (List.mem_of_mem_drop hc)
  · exact h t (List.mem_of_mem_drop ht)

theorem EachChar.pasteAt (h : EachChar P text) (hblock : EachChar P block) :
    EachChar P (pasteAt text i block) := by
  intro t ht
  simp only [Editor.pasteAt, List.mem_append] at ht
  obtain (ht | ht) | ht := ht
  · exact h t (List.mem_of_mem_take ht)
  · exact hblock t ht
  · exact h t (List.mem_of_mem_drop ht)

end EachChar

/-! ### Keys -/

theorem displayable_printable (c : Printable) : Vram.Displayable c := by
  obtain ⟨c, hc, hc'⟩ := c
  refine ⟨?_, ?_, ?_, ?_, ?_⟩ <;> (rintro rfl; revert hc hc'; decide)

theorem printable_ne_zero (c : Printable) : (c : UInt8) ≠ 0 := by
  obtain ⟨c, hc, hc'⟩ := c
  rintro rfl
  revert hc
  decide

/-- The character before the cursor is removed, or the line is put at the end of the one above. -/
def backspaceText (text : List Str) (i pos : ℕ) : List Str :=
  if pos ≠ 0 then removeAt text i (pos - 1)
  else if i ≠ 0 then joinAt text (i - 1) else text

/-- The character at the cursor is removed, or the line below is put at the end of this one. -/
def delText (text : List Str) (i pos : ℕ) : List Str :=
  if pos < (text.getD i []).length then removeAt text i pos
  else if i + 1 < text.length then joinAt text i else text

/-- A line is removed; a text has at least one. -/
def dellineText (text : List Str) (i : ℕ) : List Str :=
  if text.length = 1 then [[]] else text.eraseIdx i

/-- The text after a key that is pressed with the cursor at `pos` in the line `i`. -/
def editText (text block : List Str) (i pos : ℕ) : Key → List Str
  | .char c => insertAt text i pos [c.1]
  | .kcTab => insertAt text i pos [0x20, 0x20]
  | .kcBackspace => backspaceText text i pos
  | .kcDel => delText text i pos
  | .kcEnter => breakAt text i pos ((text.getD i []).takeWhile (· == 0x20))
  | .kcCtrlY => dellineText text i
  | .kcCtrlE => text.set i ((text.getD i []).take pos)
  | .kcCtrlB => text.set i ((text.getD i []).drop pos)
  | .kcCtrlV => pasteAt text i block
  | _ => text

/-- The keys that remove a line. -/
def removesLine (text : List Str) (i pos : ℕ) : Key → Prop
  | .kcBackspace => pos = 0 ∧ i ≠ 0
  | .kcDel => (text.getD i []).length ≤ pos ∧ i + 1 < text.length
  | .kcCtrlY => text.length ≠ 1
  | _ => False

instance decidableRemovesLine (text : List Str) (i pos : ℕ) (k : Key) :
    Decidable (removesLine text i pos k) := by
  apply @Key.casesOn (fun k => Decidable (removesLine text i pos k)) k <;> intros <;>
    dsimp only [removesLine] <;> infer_instance

section Length

variable {text : List Str} {i : ℕ} (pos : ℕ)

theorem length_backspaceText (hi : i < text.length) :
    text.length ≤ (backspaceText text i pos).length ∨
      (pos = 0 ∧ i ≠ 0) ∧ text.length = (backspaceText text i pos).length + 1 := by
  rw [backspaceText]
  split_ifs with hpos hline
  · exact .inl length_removeAt.ge
  · refine .inr ⟨⟨not_not.mp hpos, hline⟩, ?_⟩
    rw [length_joinAt _ _ (by omega)]
    omega
  · exact .inl le_rfl

theorem length_delText :
    text.length ≤ (delText text i pos).length ∨
      ((text.getD i []).length ≤ pos ∧ i + 1 < text.length) ∧
        text.length = (delText text i pos).length + 1 := by
  rw [delText]
  split_ifs with hpos hline
  · exact .inl length_removeAt.ge
  · refine .inr ⟨⟨not_lt.mp hpos, hline⟩, ?_⟩
    rw [length_joinAt _ _ hline]
    omega
  · exact .inl le_rfl

theorem length_dellineText (hi : i < text.length) :
    text.length ≤ (dellineText text i).length ∨
      text.length ≠ 1 ∧ text.length = (dellineText text i).length + 1 := by
  rw [dellineText]
  split_ifs with hone
  · exact .inl hone.le
  · refine .inr ⟨hone, ?_⟩
    rw [List.length_eraseIdx_of_lt hi]
    omega

theorem length_editText (block : List Str) (k : Key) (hi : i < text.length) :
    text.length ≤ (editText text block i pos k).length ∨
      removesLine text i pos k ∧ text.length = (editText text block i pos k).length + 1 := by
  cases k with
  | char c => exact .inl length_insertAt.ge
  | kcTab => exact .inl length_insertAt.ge
  | kcBackspace => exact length_backspaceText pos hi
  | kcDel => exact length_delText pos
  | kcEnter => exact .inl ((Nat.le_succ _).trans (length_breakAt _ _ hi).ge)
  | kcCtrlY => exact length_dellineText hi
  | kcCtrlE => exact .inl List.length_set.ge
  | kcCtrlB => exact .inl List.length_set.ge
  | kcCtrlV => exact .inl ((Nat.le_add_right _ _).trans (length_pasteAt _ hi.le).ge)
  | _ => exact .inl le_rfl

end Length

theorem EachChar.backspaceText {P : UInt8 → Prop} {text : List Str} (h : EachChar P text)
    (i pos : ℕ) : EachChar P (backspaceText text i pos) := by
  rw [Editor.backspaceText]
  split_ifs
  · exact h.removeAt
  · exact h.joinAt
  · exact h

theorem EachChar.delText {P : UInt8 → Prop} {text : List Str} (h : EachChar P text) (i pos : ℕ) :
    EachChar P (delText text i pos) := by
  rw [Editor.delText]
  split_ifs
  · exact h.removeAt
  · exact h.joinAt
  · exact h

theorem EachChar.dellineText {P : UInt8 → Prop} {text : List Str} (h : EachChar P text) (i : ℕ) :
    EachChar P (dellineText text i) := by
  rw [Editor.dellineText]
  split_ifs
  · intro t ht
    rw [List.mem_singleton.mp ht]
    exact fun c hc => absurd hc List.not_mem_nil
  · exact h.eraseIdx

theorem EachChar.editText {P : UInt8 → Prop} {text block : List Str} (h : EachChar P text)
    (hblock : EachChar P block) (hprint : ∀ c : Printable, P c) (i pos : ℕ) (k : Key) :
    EachChar P (editText text block i pos k) := by
  have hspace : P 0x20 := hprint ⟨0x20, by decide⟩
  cases k with
  | char c => exact h.insertAt (by simpa using hprint c)
  | kcTab => exact h.insertAt (by simpa using hspace)
  | kcBackspace => exact h.backspaceText i pos
  | kcDel => exact h.delText i pos
  | kcEnter => exact h.breakAt fun c hc => h.getD i c ((List.takeWhile_sublist _).subset hc)
  | kcCtrlY => exact h.dellineText i
  | kcCtrlE => exact h.set fun c hc => h.getD i c (List.mem_of_mem_take hc)
  | kcCtrlB => exact h.set fun c hc => h.getD i c (List.mem_of_mem_drop hc)
  | kcCtrlV => exact h.pasteAt hblock
  | _ => exact h

namespace Ed

/-- The text after a key. -/
def edited (e : Ed) (k : Key) : List Str :=
  editText e.text (e.block.getD []) e.lineid.toNat e.linepos.toNat k

/-- The block buffer after a key. -/
def blockAfter (e : Ed) : Key → Option (List Str)
  | .kcF4 =>
      if e.ui.select then
        some (selection e.text (min e.ui.firstsel e.ui.lastsel) (max e.ui.firstsel e.ui.lastsel))
      else none
  | .kcCtrlF4 | .kcCtrlV => none
  | _ => e.block

end Ed

end ELuaBrain.Editor
