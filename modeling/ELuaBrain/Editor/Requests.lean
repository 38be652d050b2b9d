import ELuaBrain.Editor.Lists

/-!
# The operations when every request is granted

The rules of the operations on the text for an allocator that grants every request. Which requests
an operation makes, and how much room the array of the lines has, is of no interest then.

## Main definitions

* `Ed.Granting` : every request is granted.

## Main results

* `ensures_addstring` to `ensures_clearSelection` : the rules of the operations.
-/

namespace ELuaBrain.Editor

open Prog Program

/-- The allocator grants every request. -/
def Ed.Granting (e : Ed) : Prop := ∀ n, e.answers n = true

variable {e : Ed} {id pos : ℤ}

/-! ### Requests -/

theorem Ed.Granting.request (h : e.Granting) :
    Ed.request e = some (true, { e with calls := e.calls + 1 }) := by
  rw [Ed.request, h]

theorem Ed.Granting.resize (h : e.Granting) (n size : ℕ) :
    ∃ c, Ed.resize n size e = some (true, { e with calls := c }) := by
  unfold Ed.resize
  split
  · exact ⟨e.calls, rfl⟩
  · exact ⟨e.calls + 1, h.request⟩

theorem Ed.Granting.reserve (h : e.Granting) (n : ℤ) :
    ∃ a c, Ed.reserve n e = some ((), { e with allocated := a, calls := c }) := by
  refine ⟨n + extraLines, e.calls + 1, ?_⟩
  have hreq : Ed.request { e with allocated := n + extraLines } =
      some (true, { e with allocated := n + extraLines, calls := e.calls + 1 }) :=
    Ed.Granting.request (e := { e with allocated := n + extraLines }) h
  rw [Ed.reserve, Comp.bind_eq (Comp.modify_apply _ _), Comp.bind_eq hreq]
  rfl

theorem Ed.Granting.grow (h : e.Granting) :
    ∃ a c, Ed.grow e = some ((), { e with allocated := a, calls := c }) := by
  rw [Ed.grow, Comp.bind_eq (Comp.get_apply _)]
  split
  · exact h.reserve _
  · exact ⟨e.allocated, e.calls, rfl⟩

theorem Ed.Granting.shrink (h : e.Granting) :
    ∃ a c, Ed.shrink e = some ((), { e with allocated := a, calls := c }) := by
  rw [Ed.shrink, Comp.bind_eq (Comp.get_apply _)]
  split
  · exact h.reserve _
  · exact ⟨e.allocated, e.calls, rfl⟩

theorem Ed.guard_eq {p : Prop} [Decidable p] (h : p) : Ed.guard p e = some ((), e) := if_pos h

theorem ensures_malloc {Q : Bool → Ed → Prop} (h : e.answers e.calls = true) :
    malloc.Ensures Ed.perform e Q ↔ Q true { e with calls := e.calls + 1 } := by
  have hrun : malloc.run Ed.perform e = some (true, { e with calls := e.calls + 1 }) := by
    rw [← h]
    exact run_perform Ed.perform e EdOp.malloc
  exact ensures_iff_of_run hrun

theorem ensures_lineAt {c : ℕ} {Q : Str → Ed → Prop} (h : c < e.text.length) :
    (lineAt c).Ensures Ed.perform e Q ↔ Q (e.text.getD c []) e :=
  ensures_iff_of_run ((run_perform _ _ _).trans
    (Ed.line_eq (Int.natCast_nonneg c) (Int.ofNat_lt.mpr h)))

/-! ### Lines -/

section Lines

variable (hid : 0 ≤ id) (hid' : id < e.text.length)

include hid hid'

/-- **`ededit_addstring`.** -/
theorem ensures_addstring {s : Str} {Q : Bool → Ed → Prop} (hg : e.Granting) (hpos : 0 ≤ pos)
    (hpos' : pos ≤ (e.text.getD id.toNat []).length) (hs : 0 ∉ s)
    (hQ : ∀ c, Q true { e with text := insertAt e.text id.toNat pos.toNat s, calls := c }) :
    (addstring id pos s).Ensures Ed.perform e Q := by
  obtain ⟨c, hresize⟩ := hg.resize (e.text.getD id.toNat []).length
    ((e.text.getD id.toNat []).length + s.length + 1)
  refine (ensures_iff_of_run ((run_perform _ _ _).trans (?_ : Ed.addstring id pos s e = _))).mpr
    (hQ c)
  rw [Ed.addstring, Comp.bind_eq (Ed.line_eq hid hid'),
    Comp.bind_eq (Ed.guard_eq ⟨hpos, hpos', hs⟩), Comp.bind_eq hresize]
  rfl

theorem ensures_removeChar {Q : Unit → Ed → Prop} (hpos : 0 ≤ pos)
    (hpos' : pos < (e.text.getD id.toNat []).length)
    (hQ : Q () { e with text := removeAt e.text id.toNat pos.toNat }) :
    (removeChar id pos).Ensures Ed.perform e Q := by
  refine (ensures_iff_of_run ((run_perform _ _ _).trans (?_ : Ed.removeChar id pos e = _))).mpr hQ
  rw [Ed.removeChar, Comp.bind_eq (Ed.line_eq hid hid'),
    Comp.bind_eq (Ed.guard_eq ⟨hpos, hpos'⟩)]
  rfl

theorem ensures_truncate {Q : Bool → Ed → Prop} (hg : e.Granting) (hpos : 0 ≤ pos)
    (hpos' : pos ≤ (e.text.getD id.toNat []).length)
    (hQ : ∀ c, Q true { e with
      text := e.text.set id.toNat ((e.text.getD id.toNat []).take pos.toNat), calls := c }) :
    (truncate id pos).Ensures Ed.perform e Q := by
  obtain ⟨c, hresize⟩ := hg.resize (e.text.getD id.toNat []).length (pos.toNat + 1)
  refine (ensures_iff_of_run ((run_perform _ _ _).trans (?_ : Ed.truncate id pos e = _))).mpr (hQ c)
  rw [Ed.truncate, Comp.bind_eq (Ed.line_eq hid hid'), Comp.bind_eq (Ed.guard_eq ⟨hpos, hpos'⟩),
    Comp.bind_eq hresize]
  rfl

theorem ensures_cut {Q : Bool → Ed → Prop} (hpos : 0 ≤ pos)
    (hpos' : pos ≤ (e.text.getD id.toNat []).length)
    (hsize : edallocRoundSize (Ed.cutSize (e.text.getD id.toNat []).length pos.toNat) =
      edallocRoundSize ((e.text.getD id.toNat []).length - pos.toNat + 1))
    (hQ : Q true { e with
      text := e.text.set id.toNat ((e.text.getD id.toNat []).drop pos.toNat) }) :
    (cut id pos).Ensures Ed.perform e Q := by
  refine (ensures_iff_of_run ((run_perform _ _ _).trans (?_ : Ed.cut id pos e = _))).mpr hQ
  have hresize : Ed.resize ((e.text.getD id.toNat []).length - pos.toNat)
      (Ed.cutSize (e.text.getD id.toNat []).length pos.toNat) = return true := if_pos hsize
  rw [Ed.cut, Comp.bind_eq (Ed.line_eq hid hid'), Comp.bind_eq (Ed.guard_eq ⟨hpos, hpos'⟩),
    Ed.setLine, Comp.bind_eq (Comp.modify_apply _ _), hresize, Comp.bind_eq (Comp.pure_apply _ _),
    Comp.bind_eq (Ed.guard_eq (.inr hsize))]
  rfl

theorem ensures_split {indentation : ℕ} {Q : Bool → Ed → Prop} (hg : e.Granting)
    (hpos : 0 ≤ pos)
    (hpos' : pos ≤ (e.text.getD id.toNat []).length)
    (hQ : ∀ a c, Q true { e with
      text := breakAt e.text id.toNat pos.toNat (spaces indentation)
      allocated := a
      calls := c }) :
    (split id pos indentation).Ensures Ed.perform e Q := by
  obtain ⟨c₁, hresize⟩ := Ed.Granting.resize (e := { e with calls := e.calls + 1 }) hg
    (e.text.getD id.toNat []).length (pos.toNat + 1)
  obtain ⟨a, c, hgrow⟩ := Ed.Granting.grow (e := { e with calls := c₁ }) hg
  refine (ensures_iff_of_run ((run_perform _ _ _).trans
    (?_ : Ed.split id pos indentation e = _))).mpr (hQ a c)
  rw [Ed.split, Comp.bind_eq (Ed.line_eq hid hid'), Comp.bind_eq (Ed.guard_eq ⟨hpos, hpos'⟩),
    Comp.bind_eq hg.request, if_pos rfl, Comp.bind_eq hresize, Comp.bind_eq (Ed.guard_eq rfl),
    Comp.bind_eq hgrow]
  rfl

/-- **`edalloc_buffer_remove_line`.** -/
theorem ensures_removeLine {Q : Unit → Ed → Prop} (hg : e.Granting)
    (hQ : ∀ a c, Q () { e with text := e.text.eraseIdx id.toNat, allocated := a, calls := c }) :
    (removeLine id).Ensures Ed.perform e Q := by
  obtain ⟨a, c, hshrink⟩ := Ed.Granting.shrink
    (e := { e with text := e.text.eraseIdx id.toNat }) hg
  refine (ensures_iff_of_run ((run_perform _ _ _).trans (?_ : Ed.removeLine id e = _))).mpr (hQ a c)
  rw [Ed.removeLine, Comp.bind_eq (Ed.line_eq hid hid'), Comp.bind_eq (Comp.modify_apply _ _)]
  exact hshrink

end Lines

/-! ### The block buffer -/

theorem pasteAt_append (text : List Str) (i : ℕ) (block : List Str) (t : Str)
    (hi : i ≤ text.length) :
    pasteAt (text.take i ++ t :: text.drop i) i block = pasteAt text i (block ++ [t]) := by
  have hlen : (text.take i).length = i := List.length_take_of_le hi
  rw [pasteAt, List.take_left' hlen, List.drop_left' hlen, pasteAt, ← List.append_assoc,
    List.append_assoc _ [t]]
  rfl

/-- The loop of `ededit_pasteblock`. -/
theorem Ed.Granting.pasteAll (hg : e.Granting) {i : ℕ} (hi : i ≤ e.text.length)
    (block : List Str) :
    ∃ a c, Ed.pasteAll i block e = some ((), { e with
      text := pasteAt e.text i block.reverse, allocated := a, calls := c }) := by
  induction block generalizing e with
  | nil =>
    refine ⟨e.allocated, e.calls, ?_⟩
    rw [Ed.pasteAll, List.reverse_nil, pasteAt, List.append_nil, List.take_append_drop]
    rfl
  | cons t block ih =>
    obtain ⟨a, c, hgrow⟩ := hg.grow
    obtain ⟨a', c', hrest⟩ := ih (e := { e with
      text := e.text.take i ++ t :: e.text.drop i, allocated := a, calls := c }) hg (by
        simp only [List.length_append, List.length_take_of_le hi]
        omega)
    refine ⟨a', c', ?_⟩
    rw [Ed.pasteAll, Comp.bind_eq hgrow, Comp.bind_eq (Comp.modify_apply _ _)]
    refine hrest.trans ?_
    rw [pasteAt_append _ _ _ _ hi, List.reverse_cons]

theorem ensures_pasteLines {block : List Str} {Q : Bool → Ed → Prop} (hg : e.Granting)
    (hblock : e.block = some block) (hmarks : e.ui.lastsel - e.ui.firstsel + 1 = block.length)
    (hid : 0 ≤ e.ui.startline + e.ui.cursory)
    (hid' : e.ui.startline + e.ui.cursory < e.text.length)
    (hQ : ∀ a c, Q true { e with
      text := pasteAt e.text (e.ui.startline + e.ui.cursory).toNat block
      block := none
      allocated := a
      calls := c
      ui := { e.ui with firstsel := -1, lastsel := -1 } }) :
    pasteLines.Ensures Ed.perform e Q := by
  obtain ⟨a, c, hpaste⟩ := hg.pasteAll (i := (e.ui.startline + e.ui.cursory).toNat) (by omega)
    block.reverse
  rw [List.reverse_reverse] at hpaste
  refine (ensures_iff_of_run ((run_perform _ _ _).trans (?_ : Ed.pasteLines e = _))).mpr (hQ a c)
  rw [Ed.pasteLines, Comp.bind_eq (Comp.get_apply _), hblock]
  simp only
  rw [Comp.bind_eq (Ed.guard_eq hmarks), Comp.bind_eq (Ed.guard_eq ⟨hid, hid'⟩),
    Comp.bind_eq hpaste]
  rfl

theorem Ed.Granting.copyLines (hg : e.Granting) (block : List Str) :
    ∃ c, Ed.copyLines block e = some (true, { e with calls := c }) := by
  induction block generalizing e with
  | nil => exact ⟨e.calls, rfl⟩
  | cons t block ih =>
    obtain ⟨c, hrest⟩ := ih (e := { e with calls := e.calls + 1 }) hg
    refine ⟨c, ?_⟩
    rw [Ed.copyLines, Comp.bind_eq hg.request, if_pos rfl]
    exact hrest

theorem ensures_fillSelection {Q : Bool → Ed → Prop} (hg : e.Granting)
    (hfirst : 0 ≤ e.ui.firstsel) (hle : e.ui.firstsel ≤ e.ui.lastsel)
    (hlast : e.ui.lastsel < e.text.length) (hblock : e.block = none)
    (hQ : ∀ c, Q true { e with
      block := some (Ed.selection e.text e.ui.firstsel e.ui.lastsel), calls := c }) :
    fillSelection.Ensures Ed.perform e Q := by
  obtain ⟨c, hcopy⟩ := Ed.Granting.copyLines (e := { e with calls := e.calls + 1 }) hg
    (Ed.selection e.text e.ui.firstsel e.ui.lastsel)
  refine (ensures_iff_of_run ((run_perform _ _ _).trans (?_ : Ed.fillSelection e = _))).mpr (hQ c)
  rw [Ed.fillSelection, Comp.bind_eq (Comp.get_apply _),
    Comp.bind_eq (Ed.guard_eq ⟨hfirst, hle, hlast, hblock⟩), Comp.bind_eq hg.request, if_pos rfl,
    Comp.bind_eq hcopy]
  rfl

/-- **`edalloc_clear_selection`.** -/
theorem ensures_clearSelection {Q : Unit → Ed → Prop}
    (hmarks : ∀ bl, e.block = some bl → e.ui.lastsel - e.ui.firstsel + 1 = bl.length)
    (hQ : ∀ fs ls, (e.block = none → fs = e.ui.firstsel ∧ ls = e.ui.lastsel) →
      Q () { e with block := none, ui := { e.ui with firstsel := fs, lastsel := ls } }) :
    clearSelection.Ensures Ed.perform e Q := by
  cases hb : e.block with
  | none =>
    refine (ensures_iff_of_run ((run_perform _ _ _).trans
      (?_ : Ed.clearSelection e = some ((), _)))).mpr
        (hQ e.ui.firstsel e.ui.lastsel fun _ => ⟨rfl, rfl⟩)
    obtain ⟨text, block, allocated, answers, calls, ui⟩ := e
    subst hb
    rfl
  | some bl =>
    refine (ensures_iff_of_run ((run_perform _ _ _).trans
      (?_ : Ed.clearSelection e = some ((), _)))).mpr (hQ (-1) (-1) fun h => by simp [hb] at h)
    rw [Ed.clearSelection, Comp.bind_eq (Comp.get_apply _), hb]
    simp only
    rw [Comp.bind_eq (Ed.guard_eq (hmarks bl hb))]
    rfl

end ELuaBrain.Editor
