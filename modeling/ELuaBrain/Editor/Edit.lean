import ELuaBrain.Editor.Move

/-!
# Editing keys

The code of `ededit.c`, above the operations that change the memory of the lines.

## Main definitions

* `ededitHandleKey` : the editing keys, with what they return to the main loop.
-/

namespace ELuaBrain.Editor

open Prog

/-- What `ededit_handle_key` returns. -/
inductive EditResult where
  /-- `1`. -/
  | done
  /-- `-1`. -/
  | fatal
  /-- `-2`. -/
  | silent
  /-- `0`: not an editing key. -/
  | notMine
  deriving DecidableEq, Repr

/-- `edutils_set_flag( ed_crt_buffer, EDFLAG_DIRTY, 1 )`. -/
def setDirty : Prog Unit := modify fun u => { u with dirty := true }

/-- `ededit_key_char`. -/
def ededitKeyChar (c : UInt8) : Prog EditResult := do
  let u ← ui
  let lineid := u.startline + u.cursory
  let added ← addstring lineid (u.startx + u.cursorx) [c]
  if added then do
    edmoveSetCursorx (u.startx + u.cursorx + 1)
    edutilsLineDisplay u.cursory lineid
    setDirty
    edutilsDisplayStatus
    return .done
  else return .fatal

/-- `ededit_key_backspace`. -/
def ededitKeyBackspace : Prog EditResult := do
  let u ← ui
  let linepos := u.startx + u.cursorx
  let lineid := u.startline + u.cursory
  let pline ← lineGet lineid
  if linepos = 0 then
    -- the first column: join this line with the one above
    if lineid = 0 then return .done
    else do
      let prev ← lineGet (lineid - 1)
      let added ← addstring (lineid - 1) prev.length pline
      if added then do
        removeLine lineid
        let n ← fileLines
        if u.cursory = 0 ∨ (u.startline > 0 ∧ u.startline + editorLines > n) then
          modify fun u => { u with startline := s16 (u.startline - 1) }
        else modify fun u => { u with cursory := s16 (u.cursory - 1) }
        edmoveSetCursorx prev.length
        setDirty
        modify fun u => { u with
          delLastLine := u.delLastLine || (u.nlines < editorLines && u.startline == 0) }
        edutilsShowScreen
        return .done
      else return .fatal
  else do
    removeChar lineid (linepos - 1)
    edmoveSetCursorx (u.startx + u.cursorx - 1)
    edutilsLineDisplay u.cursory lineid
    setDirty
    edutilsDisplayStatus
    return .done

/-- `ededit_key_del`. -/
def ededitKeyDel : Prog EditResult := do
  let u ← ui
  let linepos := u.startx + u.cursorx
  let lineid := u.startline + u.cursory
  let pline ← lineGet lineid
  if linepos = pline.length then do
    -- the last column: join this line with the one below
    let n ← fileLines
    if lineid = n - 1 then return .done
    else do
      let below ← lineGet (lineid + 1)
      let added ← addstring lineid linepos below
      if added then do
        removeLine (lineid + 1)
        let n ← fileLines
        Program.when (u.startline > 0 ∧ u.startline + editorLines > n) do
          modify fun u => { u with
            startline := s16 (u.startline - 1)
            cursory := s16 (u.cursory + 1) }
        edmoveSetCursorx linepos
        setDirty
        edutilsShowScreen
        return .done
      else return .fatal
  else if pline.length > 0 then do
    removeChar lineid linepos
    edutilsLineDisplay u.cursory lineid
    setDirty
    edutilsDisplayStatus
    return .done
  else return .done

/-- `ededit_key_enter`. -/
def ededitKeyEnter : Prog EditResult := do
  let u ← ui
  let linepos := u.startx + u.cursorx
  let lineid := u.startline + u.cursory
  let oldline ← lineGet lineid
  let indentation := (oldline.takeWhile (· == 0x20)).length
  let done ← split lineid linepos indentation
  if done then do
    edmoveSetCursorx indentation
    edmoveSaveCursorx
    modify fun u =>
      if u.cursory = editorLines - 1 then { u with startline := s16 (u.startline + 1) }
      else { u with cursory := s16 (u.cursory + 1) }
    setDirty
    edutilsShowScreen
    return .done
  else return .fatal

/-- The end of `ededit_delline`. -/
def finishDelline (lineid : ℤ) : Prog EditResult := do
  let n ← fileLines
  Program.when (n = lineid) do
    modify fun u =>
      if u.startline > 0 then { u with startline := s16 (u.startline - 1) }
      else { u with cursory := s16 (u.cursory - 1) }
  edmoveSetCursorx 0
  edmoveSaveCursorx
  setDirty
  edutilsShowScreen
  return .done

/-- `ededit_delline`. -/
def ededitDelline : Prog EditResult := do
  let u ← ui
  let lineid := u.startline + u.cursory
  let pline ← lineGet lineid
  let n ← fileLines
  if n = 1 then
    -- a single line is replaced with an empty one
    if pline.length > 0 then do
      let shrunk ← truncate lineid 0
      if shrunk then finishDelline lineid else return .fatal
    else return .done
  else do
    edhwClearline (min (editorLines - 1) (n - 1))
    removeLine lineid
    finishDelline lineid

/-- `ededit_deltoeol`. -/
def ededitDeltoeol : Prog EditResult := do
  let u ← ui
  let lineid := u.startline + u.cursory
  let linepos := u.startx + u.cursorx
  let pline ← lineGet lineid
  if pline.length > 0 ∧ linepos ≠ pline.length then do
    let shrunk ← truncate lineid linepos
    if shrunk then do
      edutilsLineDisplay u.cursory lineid
      setDirty
      edmoveSetCursorx linepos
      return .done
    else return .fatal
  else return .done

/-- `ededit_deltobol`. -/
def ededitDeltobol : Prog EditResult := do
  let u ← ui
  let lineid := u.startline + u.cursory
  let linepos := u.startx + u.cursorx
  let pline ← lineGet lineid
  if pline.length > 0 ∧ linepos ≠ 0 then do
    let shrunk ← cut lineid linepos
    if shrunk then do
      edutilsLineDisplay u.cursory lineid
      setDirty
      edmoveSetCursorx 0
      return .done
    else return .silent
  else return .done

/-- `ededit_pasteblock`. -/
def ededitPasteblock : Prog EditResult := do
  let block ← hasBlock
  if block then do
    let pasted ← pasteLines
    if pasted then do
      setDirty
      edmoveSetCursorx 0
      edutilsShowScreen
      return .done
    else return .fatal
  else return .done

/-- `ededit_handle_key`. -/
def ededitHandleKey : Key → Prog EditResult
  | .char c => ededitKeyChar c
  | .kcBackspace => ededitKeyBackspace
  | .kcDel => ededitKeyDel
  | .kcTab => do
      -- the result of the first call is not zero
      let _ ← ededitKeyChar 0x20
      ededitKeyChar 0x20
  | .kcEnter => ededitKeyEnter
  | .kcCtrlY => ededitDelline
  | .kcCtrlE => ededitDeltoeol
  | .kcCtrlB => ededitDeltobol
  | .kcCtrlV => ededitPasteblock
  | _ => return .notMine

end ELuaBrain.Editor
