import ELuaBrain.Editor.State

/-!
# Displaying lines, messages and dialogs

The code of `edutils.c` and `edhw.c`. Both only change the characters on the screen, `ed_nlines` and
`EDFLAG_DEL_LAST_LINE`; what `edutils_update_selection` does is a matter of colours.

## Main definitions

* `edutilsLineDisplay`, `edutilsDisplayStatus`, `edutilsShowScreen` : drawing the buffer.
* `edhwMsg`, `edhwRead`, `edhwDlg` : a message, a prompt and a question.
-/

namespace ELuaBrain.Editor

open Prog

/-! ### Lines -/

/-- `edutils_get_actsize`. -/
def edutilsGetActsize (pdata : Str) : ℤ :=
  (pdata.reverse.dropWhile fun c => c == 0x0D || c == 0x0A).length

/-- `edhw_gotoxy`. -/
def edhwGotoxy (x y : ℤ) : Prog Unit := term fun v => v.gotoxy x y

/-- `edhw_writetext`, or `edhw_writechar` for each character. -/
def edhwWritetext (s : Str) : Prog Unit := term fun v => v.putstr s

/-- `edhw_clearline`. -/
def edhwClearline (line : ℤ) : Prog Unit :=
  term fun v => ((v.gotoxy 0 line).clreol).gotoxy v.cx v.cy

/-- Blanks. -/
def spaces (n : ℕ) : Str := List.replicate n 0x20

/-- The characters of a line that fit on the screen, from the column `startx` on. -/
def visible (startx : ℤ) (pline : Str) : Str :=
  if 0 ≤ startx ∧ startx < pline.length then (pline.drop startx.toNat).take 80 else []

/-- `edutils_line_display`. -/
def edutilsLineDisplay (scrline id : ℤ) : Prog Unit := do
  let pline ← lineGet id
  edhwGotoxy 0 scrline
  let u ← ui
  edhwWritetext (visible u.startx pline)
  edhwWritetext (spaces (80 - (visible u.startx pline).length))

/-- The text that `snprintf` puts into `temp`. -/
def statusText (u : Ui) (fileLines : ℤ) (hasBlock : Bool) : Str :=
  (ascii " " ++ (if u.dirty then ascii "*" else ascii " ") ++ ascii " " ++
    u.fpath.getD (ascii "(none)") ++
    ascii "   Col: " ++ ascii (toString (u.cursorx + u.startx + 1)) ++
    ascii "   Line: " ++ ascii (toString (u.cursory + u.startline + 1)) ++
    ascii "/" ++ ascii (toString fileLines) ++
    ascii "   Buffer: " ++ ascii (toString (if hasBlock then u.lastsel - u.firstsel + 1 else 0)) ++
    ascii " line(s)   F1 - help").take 79

/-- `edutils_display_status`. -/
def edutilsDisplayStatus : Prog Unit := do
  let u ← ui
  let n ← fileLines
  let block ← hasBlock
  edhwGotoxy 0 (termLines - 1)
  edhwWritetext (statusText u n block)
  edhwWritetext (spaces (80 - (statusText u n block).length))
  edhwGotoxy u.cursorx u.cursory

/-- The values of an `unsigned` loop variable from `a` up to `b`. -/
def unsignedRange (a b : ℤ) : List ℤ :=
  (List.range (u32 b - u32 a).toNat).map fun k : ℕ => a + (k : ℤ)

/-- `edutils_show_screen`. -/
def edutilsShowScreen : Prog Unit := do
  let n ← fileLines
  modify fun u => { u with
    nlines := if u.startline + editorLines > n then s16 (n - u.startline) else editorLines }
  let u ← ui
  Program.forEach (unsignedRange u.startline (u.startline + u.nlines)) fun i =>
    edutilsLineDisplay (i - u.startline) i
  Program.when (u.delLastLine = true) do
    edhwGotoxy 0 u.nlines
    edhwWritetext (spaces 80)
    modify fun u => { u with delLastLine := false }
  edutilsDisplayStatus

/-- `edutils_number_validator`. -/
def edutilsNumberValidator (input : Str) (c : UInt8) : Bool :=
  Vram.isDigit c || (input == [] && c == 0x2D)

/-- `edutils_fname_validator`. -/
def edutilsFnameValidator (_input : Str) (c : UInt8) : Bool := 0x21 ≤ c && c ≤ 0x7E

/-! ### Boxes -/

/-- `term_box`; the box and the characters behind it are allocated. -/
def termBox (x y width height : ℕ) (title : Str) : Prog (Option Vram.Box) := do
  let pbox ← malloc
  if pbox then
    let savedata ← malloc
    if savedata then
      let u ← ui
      term fun v => (v.box x y width height title).2
      return some (u.vram.box x y width height title).1
    else return none
  else return none

/-- `term_close_box`, which does not expect `NULL`. -/
def termCloseBox : Option Vram.Box → Prog Unit
  | none => undefined
  | some pbox => term fun v => v.closeBox pbox

/-- The column of a box in the middle of the screen. -/
def boxColumn (width : ℕ) : ℕ := (80 - width) / 2

/-- `edhw_msg`; `title` is the one chosen for the type of the message. -/
def edhwMsg (text title : Str) : Prog Unit := do
  let width := max 26 (text.length + 4)
  let u ← ui
  let pbox ← termBox (boxColumn width) 13 width 3 title
  term fun v => v.cstrxy (boxColumn width + 2 : ℕ) 14 text
  termCloseBox pbox
  edhwGotoxy u.vram.cx u.vram.cy

/-- The error messages of the editor. -/
def edhwError (text : Str) : Prog Unit := edhwMsg text (ascii "Error")

/-- What is typed at a prompt: the text and the column of the cursor. -/
structure Entry where
  input : Str := []
  cx : ℤ

/-- One round of the loop of `edhw_read`. -/
def promptKey (maxlen : ℕ) (validator : Str → UInt8 → Bool) (cy : ℤ) (k : PromptKey) :
    Entry × Vram → Entry × Vram
  | (e, v) =>
    match k with
    | .kcBackspace =>
        if 0 < e.input.length then
          ({ input := e.input.dropLast, cx := e.cx - 1 },
            ((v.gotoxy (e.cx - 1) cy).putchar 0x20).gotoxy (e.cx - 1) cy)
        else (e, v)
    | .char c =>
        if e.input.length < maxlen ∧ validator e.input c then
          ({ input := e.input ++ [c.1], cx := e.cx + 1 }, (v.putchar c.1).gotoxy (e.cx + 1) cy)
        else (e, v)

/-- The loop of `edhw_read`. -/
def promptKeys (maxlen : ℕ) (validator : Str → UInt8 → Bool) (cy : ℤ) (ks : List PromptKey)
    (p : Entry × Vram) : Entry × Vram :=
  ks.foldl (fun p k => promptKey maxlen validator cy k p) p

/-- `edhw_read` with a text above the input; `none` stands for `NULL`. -/
def edhwRead (env : Env) (title text : Str) (maxlen : ℕ) (validator : Str → UInt8 → Bool) :
    Prog (Option Str) := do
  let width := max 26 (max text.length maxlen + 4)
  let cx := boxColumn width + 2
  let u ← ui
  let input ← malloc
  if input then
    let pbox ← termBox (boxColumn width) 13 width 4 title
    term fun v => (v.cstrxy cx 14 text).gotoxy cx 15
    let v ← ui
    let p := promptKeys maxlen validator 15 env.typed ({ cx := cx }, v.vram)
    term fun _ => p.2
    termCloseBox pbox
    edhwGotoxy u.vram.cx u.vram.cy
    return if env.entered then some p.1.input else none
  else return none

/-- `edhw_dlg` with the buttons Yes and No; `yes` is the answer. -/
def edhwDlg (text : Str) (yes : Bool) : Prog Bool := do
  let width := max 26 (max text.length 7 + 4)
  let u ← ui
  let pbox ← termBox (boxColumn width) 13 width 4 (ascii "Confirmation")
  term fun v => v.cstrxy (boxColumn width + 2 : ℕ) 14 text
  term fun v => v.cstrxy (boxColumn width + 2 : ℕ) 15 (ascii "Yes/No")
  termCloseBox pbox
  edhwGotoxy u.vram.cx u.vram.cy
  modify fun u => { u with dialogs := (text, yes) :: u.dialogs }
  return yes

end ELuaBrain.Editor
