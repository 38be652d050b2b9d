import ELuaBrain.Editor.Display

/-!
# Movement keys

The code of `edmove.c`. Where the source assigns to an `s16`, the value goes through `s16`.

## Main definitions

* `edmoveSetCursorx`, `edmoveCursorCheck`, `edmoveGotoLine` : the helpers.
* `edmoveHandleKey` : the movement keys.
-/

namespace ELuaBrain.Editor

open Prog

/-! ### Helpers -/

/-- `edmove_set_cursorx`. -/
def edmoveSetCursorx (x : ℤ) : Prog Unit := do
  let newstart := if s16 x ≥ termCols then x - (termCols - 1) else 0
  modify fun u => { u with cursorx := if s16 x ≥ termCols then termCols - 1 else s16 x }
  let u ← ui
  Program.when (newstart ≠ u.startx) do
    modify fun u => { u with startx := s16 newstart }
    edutilsShowScreen
  let u ← ui
  edhwGotoxy u.cursorx u.cursory

/-- `edmove_cursor_check`. -/
def edmoveCursorCheck : Prog Unit := do
  let u ← ui
  let pline ← lineGet (u.startline + u.cursory)
  if u.userstartx + u.userx > edutilsGetActsize pline then edmoveSetCursorx 0
  else do
    Program.when (u.startx ≠ u.userstartx) do
      modify fun u => { u with startx := u.userstartx }
      edutilsShowScreen
    modify fun u => { u with cursorx := u.userx }
    let u ← ui
    edhwGotoxy u.cursorx u.cursory

/-- `edmove_save_cursorx`. -/
def edmoveSaveCursorx : Prog Unit :=
  modify fun u => { u with userx := u.cursorx, userstartx := u.startx }

/-- `edmove_goto_line`. -/
def edmoveGotoLine (y : ℤ) : Prog Unit := do
  let n ← fileLines
  let y := y - 1
  Program.when (y < n) do
    let sy := max (y - editorLines / 2) 0
    let newstart := if sy + editorLines > n then max (n - editorLines) 0 else sy
    modify fun u => { u with cursory := s16 (y - newstart) }
    let u ← ui
    Program.when (newstart ≠ u.startline) do
      modify fun u => { u with startline := s16 newstart }
      edutilsShowScreen
    edutilsDisplayStatus
    edmoveCursorCheck

/-- `ed_lastsel` follows the cursor while lines are selected. -/
def followSelection : Prog Unit :=
  modify fun u => { u with
    lastsel := if u.select then s16 (u.cursory + u.startline) else u.lastsel }

/-- The end of the four keys that change the line; `edutils_update_selection` is a matter of
colours. -/
def finishLineMove : Prog Unit := do
  followSelection
  edutilsDisplayStatus
  edmoveCursorCheck

/-! ### Keys -/

/-- `edmove_key_up`. -/
def edmoveKeyUp : Prog Unit := do
  let n ← fileLines
  Program.when (n ≠ 0) do
    let u ← ui
    if u.cursory = 0 then
      Program.when (u.startline > 0) do
        modify fun u => { u with startline := s16 (u.startline - 1) }
        followSelection
        edutilsShowScreen
    else modify fun u => { u with cursory := s16 (u.cursory - 1) }
    finishLineMove

/-- `edmove_key_down`. -/
def edmoveKeyDown : Prog Unit := do
  let n ← fileLines
  Program.when (n ≠ 0) do
    let u ← ui
    if u.cursory = 0 then
      Program.when (n > 1) do
        modify fun u => { u with cursory := s16 (u.cursory + 1) }
    else if u.cursory = u.nlines - 1 then
      Program.when (u.nlines = editorLines ∧ u.startline + editorLines < n) do
        modify fun u => { u with startline := s16 (u.startline + 1) }
        followSelection
        edutilsShowScreen
    else modify fun u => { u with cursory := s16 (u.cursory + 1) }
    finishLineMove

/-- `edmove_key_pageup`. -/
def edmoveKeyPageup : Prog Unit := do
  let n ← fileLines
  Program.when (n ≠ 0) do
    let u ← ui
    if u.startline = 0 then modify fun u => { u with cursory := 0 }
    else do
      modify fun u => { u with startline := s16 (max 0 (u.startline - editorLines)) }
      followSelection
      edutilsShowScreen
    finishLineMove

/-- `edmove_key_pagedown`. -/
def edmoveKeyPagedown : Prog Unit := do
  let n ← fileLines
  Program.when (n ≠ 0) do
    let u ← ui
    if u.startline + u.nlines = n then
      modify fun u => { u with cursory := s16 (u.nlines - 1) }
    else do
      modify fun u => { u with
        startline := s16 (min (u.startline + editorLines) (n - editorLines)) }
      followSelection
      edutilsShowScreen
    finishLineMove

/-- `edmove_key_left`. -/
def edmoveKeyLeft : Prog Unit := do
  let n ← fileLines
  Program.when (n ≠ 0) do
    let u ← ui
    if u.cursorx = 0 then
      Program.when (u.startx > 0) do
        modify fun u => { u with startx := s16 (u.startx - 1) }
        edutilsShowScreen
    else modify fun u => { u with cursorx := s16 (u.cursorx - 1) }
    edutilsDisplayStatus

/-- `edmove_key_right`. -/
def edmoveKeyRight : Prog Unit := do
  let n ← fileLines
  Program.when (n ≠ 0) do
    let u ← ui
    let pline ← lineGet (u.startline + u.cursory)
    Program.when (u.startx + u.cursorx ≠ edutilsGetActsize pline) do
      if u.cursorx = termCols - 1 then
        modify fun u => { u with startx := s16 (u.startx + 1) }
        edutilsShowScreen
      else modify fun u => { u with cursorx := s16 (u.cursorx + 1) }
      edutilsDisplayStatus

/-- `edmove_key_home`. -/
def edmoveKeyHome : Prog Unit := do
  let n ← fileLines
  let u ← ui
  Program.when (¬ (n = 0 ∨ u.startx + u.cursorx = 0)) do
    let pline ← lineGet (u.startline + u.cursory)
    let firstc := (pline.takeWhile Vram.isSpace).length
    edmoveSetCursorx (if firstc = u.startx + u.cursorx then 0 else firstc)

/-- `edmove_key_end`. -/
def edmoveKeyEnd : Prog Unit := do
  let n ← fileLines
  Program.when (n ≠ 0) do
    let u ← ui
    let pline ← lineGet (u.startline + u.cursory)
    if s16 (edutilsGetActsize pline) > termCols - 1 then do
      modify fun u => { u with
        cursorx := termCols - 1
        startx := s16 (edutilsGetActsize pline - (termCols - 1)) }
      edutilsShowScreen
    else do
      modify fun u => { u with cursorx := s16 (edutilsGetActsize pline) }
      Program.when (u.startx > 0) do
        modify fun u => { u with startx := 0 }
        edutilsShowScreen
    edutilsDisplayStatus

/-- `edmove_toggle_select`. -/
def edmoveToggleSelect : Prog Unit := do
  let u ← ui
  let n ← fileLines
  if u.select then do
    modify fun u => { u with
      select := false
      firstsel := min u.firstsel u.lastsel
      lastsel := max u.firstsel u.lastsel }
    let _ ← fillSelection
    edutilsDisplayStatus
  else
    Program.when (n > 0) do
      modify fun u => { u with select := true }
      clearSelection
      modify fun u => { u with
        firstsel := s16 (u.startline + u.cursory)
        lastsel := s16 (u.startline + u.cursory) }
      edutilsLineDisplay u.cursory (u.startline + u.cursory)

/-- `edmove_clear_selection`. -/
def edmoveClearSelection : Prog Unit := do
  clearSelection
  edutilsDisplayStatus

/-- `edmove_handle_key`; false for a key that is not a movement key. -/
def edmoveHandleKey : Key → Prog Bool
  | .kcUp => do edmoveKeyUp; return true
  | .kcDown => do edmoveKeyDown; return true
  | .kcPageup => do edmoveKeyPageup; return true
  | .kcPagedown => do edmoveKeyPagedown; return true
  | .kcLeft => do edmoveKeyLeft; edmoveSaveCursorx; return true
  | .kcRight => do edmoveKeyRight; edmoveSaveCursorx; return true
  | .kcHome => do edmoveKeyHome; edmoveSaveCursorx; return true
  | .kcEnd => do edmoveKeyEnd; edmoveSaveCursorx; return true
  | .kcF4 => do edmoveToggleSelect; return true
  | .kcCtrlF4 => do edmoveClearSelection; return true
  | _ => return false

end ELuaBrain.Editor
