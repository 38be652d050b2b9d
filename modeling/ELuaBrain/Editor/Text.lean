import ELuaBrain.Editor.Main

/-!
# The editor on lists of strings

What the editor is for: its text is a list of strings, and each operation on the memory of the lines
is one on that list. An operation is undefined here wherever the code would leave the memory of the
lines, lose it, or lose the array of the lines because it could not be resized.

## Main definitions

* `Ed` : the text, the block, and what decides which requests the allocator gets and refuses.
* `Ed.perform` : the operations of the editor on the text.
* `Sys.abs` : the text that a buffer in memory stands for.
-/

namespace ELuaBrain.Editor

/-- The text of the editor. -/
structure Ed where
  text : List Str
  block : Option (List Str) := none
  /-- The number of lines that there is room for. -/
  allocated : ℤ
  /-- The requests that the allocator grants, by their number. -/
  answers : ℕ → Bool
  calls : ℕ
  ui : Ui

namespace Ed

/-- A request to the allocator. -/
def request : Comp Ed Bool := fun e => some (e.answers e.calls, { e with calls := e.calls + 1 })

/-- The line with the number `id`. -/
def line (id : ℤ) : Comp Ed Str := fun e =>
  if 0 ≤ id then (e.text[id.toNat]?).map fun t => (t, e) else none

/-- Another text for a line. -/
def setLine (id : ℤ) (t : Str) : Comp Ed Unit :=
  modify fun e => { e with text := e.text.set id.toNat t }

/-- What must hold for the operation to be defined. -/
def guard (p : Prop) [Decidable p] : Comp Ed Unit := fun e => if p then some ((), e) else none

/-- Memory for a line of `n` characters becomes memory for `size` bytes. -/
def resize (n size : ℕ) : Comp Ed Bool :=
  if edallocRoundSize size = edallocRoundSize (n + 1) then return true else request

/-- The array of the lines gets room for `n` lines and some more. -/
def reserve (n : ℤ) : Comp Ed Unit := do
  modify fun e => { e with allocated := n + extraLines }
  let granted ← request
  guard (granted = true)

/-- There is room for one more line than the text has. -/
def grow : Comp Ed Unit := do
  let e ← get
  if (e.text.length + 1 : ℤ) ≥ e.allocated then reserve (e.text.length + 1) else pure ()

/-- Room that is not needed any more is given back. -/
def shrink : Comp Ed Unit := do
  let e ← get
  if e.text.length + 2 * extraLines < e.allocated then reserve e.text.length else pure ()

/-- Inserting a string. -/
def addstring (id pos : ℤ) (s : Str) : Comp Ed Bool := do
  let t ← line id
  guard (0 ≤ pos ∧ pos ≤ t.length ∧ 0 ∉ s)
  let resized ← resize t.length (t.length + s.length + 1)
  if resized then do
    setLine id (t.take pos.toNat ++ s ++ t.drop pos.toNat)
    return true
  else return false

/-- Removing one character. -/
def removeChar (id pos : ℤ) : Comp Ed Unit := do
  let t ← line id
  guard (0 ≤ pos ∧ pos < t.length)
  setLine id (t.eraseIdx pos.toNat)

/-- Removing the end of a line. -/
def truncate (id pos : ℤ) : Comp Ed Bool := do
  let t ← line id
  guard (0 ≤ pos ∧ pos ≤ t.length)
  let resized ← resize t.length (pos.toNat + 1)
  if resized then do
    setLine id (t.take pos.toNat)
    return true
  else return false

/-- The size that `ededit_deltobol` asks for when it removes the first `pos` of `n` characters. -/
def cutSize (n pos : ℕ) : ℕ := (if 2 * pos ≤ n then n - 2 * pos else n - pos) + 1

/-- Removing the beginning of a line. -/
def cut (id pos : ℤ) : Comp Ed Bool := do
  let t ← line id
  guard (0 ≤ pos ∧ pos ≤ t.length)
  setLine id (t.drop pos.toNat)
  let resized ← resize (t.length - pos.toNat) (cutSize t.length pos.toNat)
  -- the line only fits into the memory that is asked for if it has that size already
  guard (resized = false ∨ edallocRoundSize (cutSize t.length pos.toNat) =
    edallocRoundSize (t.length - pos.toNat + 1))
  return resized

/-- Splitting a line. -/
def split (id pos : ℤ) (indentation : ℕ) : Comp Ed Bool := do
  let t ← line id
  guard (0 ≤ pos ∧ pos ≤ t.length)
  let granted ← request
  if granted then do
    let resized ← resize t.length (pos.toNat + 1)
    guard (resized = true)
    grow
    modify fun e => { e with
      text := e.text.take id.toNat ++ t.take pos.toNat ::
        (spaces indentation ++ t.drop pos.toNat) :: e.text.drop (id.toNat + 1) }
    return true
  else return false

/-- Removing a line. -/
def removeLine (id : ℤ) : Comp Ed Unit := do
  let _ ← line id
  modify fun e => { e with text := e.text.eraseIdx id.toNat }
  shrink

/-- Inserting lines before the line `id`, the last one first. -/
def pasteAll (id : ℕ) : List Str → Comp Ed Unit
  | [] => pure ()
  | t :: ts => do
      grow
      modify fun e => { e with text := e.text.take id ++ t :: e.text.drop id }
      pasteAll id ts

/-- Nothing is selected any more. -/
def resetSelection : Comp Ed Unit :=
  modify fun e => { e with block := none, ui := { e.ui with firstsel := -1, lastsel := -1 } }

/-- Inserting the block before the current line. -/
def pasteLines : Comp Ed Bool := do
  let e ← get
  match e.block with
  | none => guard False
  | some bl => do
      guard (e.ui.lastsel - e.ui.firstsel + 1 = bl.length)
      guard (0 ≤ e.ui.startline + e.ui.cursory ∧ e.ui.startline + e.ui.cursory < e.text.length)
      pasteAll (e.ui.startline + e.ui.cursory).toNat bl.reverse
      resetSelection
  return true

/-- Memory for copies of some lines. -/
def copyLines : List Str → Comp Ed Bool
  | [] => return true
  | _ :: ts => do
      let granted ← request
      if granted then copyLines ts else return false

/-- The lines from `first` to `last`. -/
def selection (text : List Str) (first last : ℤ) : List Str :=
  (text.drop first.toNat).take (last - first + 1).toNat

/-- Copying the selected lines to the block. -/
def fillSelection : Comp Ed Bool := do
  let e ← get
  guard (0 ≤ e.ui.firstsel ∧ e.ui.firstsel ≤ e.ui.lastsel ∧ e.ui.lastsel < e.text.length ∧
    e.block = none)
  let granted ← request
  if granted then do
    let copied ← copyLines (selection e.text e.ui.firstsel e.ui.lastsel)
    if copied then do
      modify fun e => { e with block := some (selection e.text e.ui.firstsel e.ui.lastsel) }
      return true
    else do
      resetSelection
      return false
  else return false

/-- Forgetting the block. -/
def clearSelection : Comp Ed Unit := do
  let e ← get
  match e.block with
  | none => pure ()
  | some bl => do
      guard (e.ui.lastsel - e.ui.firstsel + 1 = bl.length)
      resetSelection

/-- The operations of the editor on the text. -/
def perform : (o : EdOp) → Comp Ed o.Resp
  | .ui => fun e => some (e.ui, e)
  | .modify f => fun e => some ((), { e with ui := f e.ui })
  | .fileLines => fun e => some ((e.text.length : ℤ), e)
  | .lineGet id => line id
  | .lineAt c => line c
  | .hasBlock => fun e => some (e.block.isSome, e)
  | .addstring lineid linepos pstr => addstring lineid linepos pstr
  | .removeChar lineid linepos => removeChar lineid linepos
  | .truncate lineid linepos => truncate lineid linepos
  | .cut lineid linepos => cut lineid linepos
  | .split lineid linepos indentation => split lineid linepos indentation
  | .removeLine id => removeLine id
  | .pasteLines => pasteLines
  | .fillSelection => fillSelection
  | .clearSelection => clearSelection
  | .malloc => request
  | .undefined => fault

/-- The lines that are freed when the editor is closed. -/
def free : Comp Ed (List Str) := fun e => some (e.text, e)

end Ed

/-- The text that a buffer in memory stands for. -/
def Sys.abs (s : Sys) : Ed where
  text := s.text
  block := s.block
  allocated := s.allocatedLines
  answers n := (s.heap.answers n).granted
  calls := s.heap.calls
  ui := s.ui

/-- The step of the editor in memory. -/
def Sys.step : Session Sys → Key × Env → Option (Session Sys) :=
  sessionStep Sys.perform edallocFreeBuffer

/-- The step of the editor on lists of strings. -/
def Ed.step : Session Ed → Key × Env → Option (Session Ed) := sessionStep Ed.perform Ed.free

end ELuaBrain.Editor
