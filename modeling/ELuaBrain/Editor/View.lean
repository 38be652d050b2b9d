import ELuaBrain.Editor.Redraw

/-!
# The view

What the editing and movement keys rely on and keep: the window and the cursor lie in the text, and
the cursor is not behind the end of its line. The code does not keep this by itself. `Careful` is
the condition on a key under which it does.

## Main definitions

* `Window`, `Column` : a window of the text and a position in a line.
* `Ed.Valid` : the invariant of the editor.
* `Ed.Careful` : the condition under which a key keeps it.
-/

namespace ELuaBrain.Editor

open Prog

/-! ### The invariant -/

/-- The window from the line `sl` on, with the cursor in its row `cy`, in a text of `n` lines. -/
structure Window (n sl cy : ℤ) : Prop where
  sl_nonneg : 0 ≤ sl
  sl_le : sl ≤ 32767
  cy_nonneg : 0 ≤ cy
  cy_lt : cy < 29
  lt : sl + cy < n

/-- A column that is stored in the two variables `sx` and `cx`. -/
structure Column (sx cx : ℤ) : Prop where
  sx_nonneg : 0 ≤ sx
  sx_le : sx ≤ 32767
  cx_nonneg : 0 ≤ cx
  cx_lt : cx < 80

namespace Ed

/-- The number of the current line. -/
def lineid (e : Ed) : ℤ := e.ui.startline + e.ui.cursory

/-- The position of the cursor in the current line. -/
def linepos (e : Ed) : ℤ := e.ui.startx + e.ui.cursorx

/-- The current line. -/
def current (e : Ed) : Str := e.text.getD (e.ui.startline + e.ui.cursory).toNat []

/-- The invariant of the editor. -/
structure Valid (e : Ed) : Prop where
  window : Window e.text.length e.ui.startline e.ui.cursory
  column : Column e.ui.startx e.ui.cursorx
  pos_le : e.ui.startx + e.ui.cursorx ≤ e.current.length
  user : Column e.ui.userstartx e.ui.userx
  nlines : e.ui.nlines = min 29 (e.text.length - e.ui.startline)
  delLastLine : e.ui.delLastLine = false
  select : e.ui.select = true → e.block = none
  marks : ∀ bl, e.block = some bl → e.ui.lastsel - e.ui.firstsel + 1 = bl.length
  terminated : ∀ t ∈ e.text ++ e.block.getD [], 0 ∉ t

/-- The window shows the text. -/
def Shown (e : Ed) : Prop := Shows e.text e.ui.startline e.ui.startx e.ui.vram

end Ed

/-- The string that is typed at a prompt. -/
def typedText (maxlen : ℕ) (validator : Str → UInt8 → Bool) (ks : List PromptKey) : Str :=
  ks.foldl (fun s k =>
    match k with
    | .kcBackspace => s.dropLast
    | .char c => if s.length < maxlen ∧ validator s c then s ++ [c.1] else s) []

/-- The first line of the window after `edmove_goto_line( y )`. -/
def gotoStart (n y : ℤ) : ℤ :=
  let sy := max (y - 1 - editorLines / 2) 0
  if sy + editorLines > n then max (n - editorLines) 0 else sy

/-- The condition on a key under which the view stays valid. -/
def Ed.Careful (e : Ed) (k : Key) (env : Env) : Prop :=
  match k with
  -- the first row of the window may be the last line of the text
  | .kcDown =>
      (e.ui.cursory = 0 → 1 < e.text.length → e.lineid + 1 < e.text.length) ∧
        (e.ui.cursory = 28 → e.ui.startline + 29 < e.text.length → e.ui.startline < 32767)
  | .kcPagedown =>
      e.ui.startline + e.ui.nlines ≠ e.text.length →
        min (e.ui.startline + 29) (e.text.length - 29) ≤ 32767
  -- the line may end with `'\r'`, behind which the cursor does not stop
  | .kcRight =>
      e.linepos ≠ edutilsGetActsize e.current →
        e.linepos < e.current.length ∧ (e.ui.cursorx = 79 → e.ui.startx < 32767)
  | .kcHome =>
      e.linepos ≠ 0 → (e.current.takeWhile Vram.isSpace).length ≠ e.linepos →
        (e.current.takeWhile Vram.isSpace).length ≤ 32767
  | .kcEnd => edutilsGetActsize e.current ≤ 32767
  | .kcF4 =>
      e.ui.select = true → 0 ≤ min e.ui.firstsel e.ui.lastsel ∧
        max e.ui.firstsel e.ui.lastsel < e.text.length
  | .char _ => e.linepos < 32767
  | .kcTab => e.linepos + 1 < 32767
  | .kcBackspace =>
      if e.linepos = 0 then
        e.lineid ≠ 0 → (e.text.getD (e.lineid - 1).toNat []).length ≤ 32767
      else e.linepos ≤ 32768
  | .kcDel =>
      e.linepos = e.current.length → e.lineid + 1 < e.text.length → e.linepos ≤ 32767
  | .kcEnter =>
      (e.current.takeWhile (· == 0x20)).length ≤ 32767 ∧
        (e.ui.cursory = 28 → e.ui.startline < 32767)
  | .kcCtrlE => e.linepos ≠ e.current.length → e.linepos ≤ 32767
  -- the size that is asked for is computed from a length that is already reduced
  | .kcCtrlB =>
      e.linepos ≠ 0 → edallocRoundSize (Ed.cutSize e.current.length e.linepos.toNat) =
        edallocRoundSize (e.current.length - e.linepos.toNat + 1)
  | .kcF7 =>
      e.ui.select = false → env.entered = true →
        atoi (typedText 6 edutilsNumberValidator env.typed) ≠ 0 ∧
        (0 ≤ atoi (typedText 6 edutilsNumberValidator env.typed) →
          atoi (typedText 6 edutilsNumberValidator env.typed) ≤ e.text.length →
          gotoStart e.text.length (atoi (typedText 6 edutilsNumberValidator env.typed)) ≤ 32767)
  | _ => True

instance (e : Ed) (k : Key) (env : Env) : Decidable (e.Careful k env) := by
  cases k <;> dsimp only [Ed.Careful] <;> infer_instance

end ELuaBrain.Editor
