import ELuaBrain.Editor.Edit

/-!
# The lines in memory

The code of `edalloc.c`, and the parts of `ededit.c` that work on the memory of the lines. Lines are
blocks of a heap; the array of their addresses has cells behind the last line, and a cell holds
`none` if nothing was ever written there. An array that could not be resized is lost.

## Main definitions

* `Sys` : the buffer in memory.
* `edallocLineMalloc`, `edallocLineRealloc`, `edallocBufferChangeLines`, `edallocBufferAddLine`,
  `edallocBufferRemoveLine`, `edallocFillSelection`, `edallocClearSelection`.
* `Sys.perform` : the operations of the editor on the buffer in memory.
* `Sys.text`, `Sys.block` : the strings that the lines and the block buffer hold.
-/

namespace ELuaBrain.Editor

/-- The part of the state that the allocator owns, with that of the other code. -/
structure Sys where
  heap : Heap
  /-- `lines`, with all cells that were allocated; `none` stands for `NULL`. -/
  lines : Option (List (Option Ptr))
  fileLines : ℤ
  allocatedLines : ℤ
  /-- `sellines`. -/
  sellines : Option (List (Option Ptr)) := none
  ui : Ui
  /-- The calls of `edutils_line_get`, latest first, with `file_lines` at that time. -/
  gets : List (ℤ × ℤ) := []

/-- `LINE_ALLOCATOR_ZONE_SIZE`. -/
def zoneSize : ℕ := 24

/-- `BUFFER_ALLOCATOR_EXTRA_LINES`. -/
def extraLines : ℤ := 10

/-- `edalloc_round_size`. -/
def edallocRoundSize (size : ℕ) : ℕ := (size + zoneSize - 1) / zoneSize * zoneSize

/-! ### Memory -/

/-- A computation on the heap. -/
def onHeap {α : Type} (c : Comp Heap α) : Comp Sys α := fun s =>
  (c s.heap).map fun r => (r.1, { s with heap := r.2 })

/-- An offset or a size. A negative one wraps to one that no block has. -/
def offset (i : ℤ) : Comp Sys ℕ := fun s => if 0 ≤ i then some (i.toNat, s) else none

/-- `strlen( p + off )`. -/
def strlen (p : Ptr) (off : ℕ) : Comp Sys ℕ := do
  let t ← onHeap (Heap.string p off)
  return t.length

/-- The address in a cell of `lines`. -/
def lineCell (id : ℤ) : Comp Sys Ptr := fun s =>
  match s.lines with
  | none => none
  | some cells =>
      if 0 ≤ id then
        match cells[id.toNat]? with
        | some (some p) => some (p, s)
        | _ => none
      else none

/-- `edutils_line_get`, for a line that is read. -/
def edutilsLineGet (id : ℤ) : Comp Sys Ptr := fun s =>
  lineCell id { s with gets := (id, s.fileLines) :: s.gets }

/-- `edutils_line_set`. -/
def edutilsLineSet (id : ℤ) (pline : Option Ptr) : Comp Sys Unit := fun s =>
  match s.lines with
  | none => none
  | some cells =>
      if 0 ≤ id ∧ id < cells.length then
        some ((), { s with lines := some (cells.set id.toNat pline) })
      else none

/-! ### `edalloc.c` -/

/-- `edalloc_line_malloc`. -/
def edallocLineMalloc (size : ℕ) : Comp Sys (Option Ptr) :=
  if edallocRoundSize size = 0 then return none
  else onHeap (Heap.malloc (edallocRoundSize size))

/-- `edalloc_line_realloc`. -/
def edallocLineRealloc (ptr : Ptr) (size : ℕ) : Comp Sys (Option Ptr) := do
  let n ← strlen ptr 0
  if edallocRoundSize size = edallocRoundSize (n + 1) then return some ptr
  else onHeap (Heap.realloc ptr (edallocRoundSize size))

/-- `realloc` of `lines` to `n` cells. -/
def reallocLines (n : ℕ) : Comp Sys Bool := do
  let granted ← onHeap Heap.request
  modify fun s => { s with
    lines :=
      if granted then
        let cells := (s.lines.getD []).take n
        some (cells ++ List.replicate (n - cells.length) none)
      else none }
  return granted

/-- `edalloc_buffer_change_lines`. -/
def edallocBufferChangeLines (delta : ℤ) : Comp Sys Bool := do
  modify fun s => { s with fileLines := s.fileLines + delta }
  let s ← get
  if (if delta > 0 then s.fileLines ≥ s.allocatedLines
      else s.fileLines + 2 * extraLines < s.allocatedLines) then do
    modify fun s => { s with allocatedLines := s.fileLines + extraLines }
    reallocLines (s.fileLines + extraLines).toNat
  else return true

/-- `memmove` of the pointers of `lines` from the cell `src` on to the cell `dst`, up to the last
line of `total`. -/
def moveCells (dst src total : ℕ) : Comp Sys Unit := fun s =>
  match s.lines with
  | none => none
  | some cells =>
      if src ≤ total ∧ total ≤ cells.length ∧ dst + (total - src) ≤ cells.length then
        some ((), { s with
          lines := some (cells.take dst ++ (cells.take total).drop src ++
            cells.drop (dst + (total - src))) })
      else none

/-- `edalloc_buffer_remove_line`. -/
def edallocBufferRemoveLine (line : ℤ) : Comp Sys Unit := do
  let total := (← get).fileLines
  let p ← lineCell line
  onHeap (Heap.free p)
  let i ← offset line
  if line < total - 1 then moveCells i (i + 1) total.toNat else pure ()
  let _ ← edallocBufferChangeLines (-1)

/-- `edalloc_buffer_add_line`. -/
def edallocBufferAddLine (line : ℤ) (pline : Option Ptr) : Comp Sys Bool := do
  let changed ← edallocBufferChangeLines 1
  if changed then do
    let total := (← get).fileLines
    let i ← offset line
    if line < total - 1 then moveCells (i + 1) i (total - 1).toNat else pure ()
    edutilsLineSet line pline
    return true
  else return false

/-- The address in a cell of `sellines`. -/
def selCell (i : ℤ) : Comp Sys (Option Ptr) := fun s =>
  match s.sellines with
  | none => none
  | some cells => if 0 ≤ i then (cells[i.toNat]?).map fun p => (p, s) else none

/-- The loop of `edalloc_clear_selection` over `n` cells from `i` on. -/
def freeCells : ℕ → ℤ → Comp Sys Unit
  | 0, _ => pure ()
  | n + 1, i => do
      let p ← selCell i
      match p with
      | some p => onHeap (Heap.free p)
      | none => pure ()
      freeCells n (i + 1)

/-- `edalloc_reset_used_selection`. -/
def edallocResetUsedSelection : Comp Sys Unit :=
  modify fun s =>
    if s.sellines.isSome then
      { s with sellines := none, ui := { s.ui with firstsel := -1, lastsel := -1 } }
    else s

/-- `edalloc_clear_selection`. -/
def edallocClearSelection : Comp Sys Unit := do
  let s ← get
  if s.sellines.isSome then do
    freeCells (s.ui.lastsel - s.ui.firstsel + 1).toNat 0
    edallocResetUsedSelection
  else pure ()

/-- The loop of `edalloc_fill_selection` over `n` lines from the line `id` on, with `cells` already
filled. -/
def fillCells (total : ℕ) : ℕ → ℤ → List (Option Ptr) → Comp Sys Bool
  | 0, _, _ => return true
  | n + 1, id, cells => do
      let pline ← edutilsLineGet id
      let t ← onHeap (Heap.string pline 0)
      let copy ← edallocLineMalloc (t.length + 1)
      match copy with
      | none => return false
      | some p => do
          modify fun s => { s with
            sellines := some (cells ++ some p :: List.replicate (total - cells.length - 1) none) }
          -- the second argument of `strcpy` is another call
          let pline ← edutilsLineGet id
          let t ← onHeap (Heap.string pline 0)
          onHeap (Heap.store p 0 (t ++ [0]))
          fillCells total n (id + 1) (cells ++ [some p])

/-- `edalloc_fill_selection`. -/
def edallocFillSelection : Comp Sys Bool := do
  let u := (← get).ui
  let total := (u.lastsel - u.firstsel + 1).toNat
  let granted ← onHeap Heap.request
  if granted then do
    modify fun s => { s with sellines := some (List.replicate total none) }
    let filled ← fillCells total total u.firstsel []
    if filled then return true
    else do
      edallocClearSelection
      return false
  else return false

/-- The loop of `edalloc_free_buffer`; the result holds the strings of the lines. -/
def freeLines : List (Option Ptr) → Comp Sys (List Str)
  | [] => return []
  | none :: cells => freeLines cells
  | some p :: cells => do
      let t ← onHeap (Heap.string p 0)
      onHeap (Heap.free p)
      let ts ← freeLines cells
      return t :: ts

/-- `edalloc_free_buffer`, which leaves the block buffer. -/
def edallocFreeBuffer : Comp Sys (List Str) := do
  let s ← get
  match s.lines with
  | none => return []
  | some cells => do
      let ts ← freeLines (cells.take s.fileLines.toNat)
      modify fun s => { s with lines := none }
      return ts

/-! ### `ededit.c` -/

/-- `ededit_addstring`. -/
def ededitAddstring (lineid linepos : ℤ) (pstr : Str) : Comp Sys Bool := do
  let pline ← edutilsLineGet lineid
  let n ← strlen pline 0
  let pline ← edallocLineRealloc pline (n + pstr.length + 1)
  match pline with
  | none => return false
  | some pline => do
      let n ← strlen pline 0
      if (n : ℤ) = linepos then onHeap (Heap.store pline n (pstr ++ [0]))
      else do
        let i ← offset linepos
        let count ← offset (n - linepos + 1)
        onHeap (Heap.memmove pline (i + pstr.length) i count)
        onHeap (Heap.store pline i pstr)
      edutilsLineSet lineid (some pline)
      return true

/-- `ededit_key_backspace` and `ededit_key_del` for one character of a line. -/
def removeCharacter (lineid linepos : ℤ) : Comp Sys Unit := do
  let pline ← lineCell lineid
  let n ← strlen pline 0
  let i ← offset linepos
  let count ← offset (n - linepos)
  onHeap (Heap.memmove pline i (i + 1) count)
  let n ← strlen pline 0
  let pline ← edallocLineRealloc pline (n + 1)
  edutilsLineSet lineid pline

/-- The calls of `edalloc_line_realloc` in `ededit_delline` and `ededit_deltoeol`. -/
def truncateLine (lineid linepos : ℤ) : Comp Sys Bool := do
  let pline ← lineCell lineid
  let i ← offset linepos
  let pline ← edallocLineRealloc pline (i + 1)
  match pline with
  | none => return false
  | some pline => do
      onHeap (Heap.store pline i [0])
      edutilsLineSet lineid (some pline)
      return true

/-- The `memmove` of `ededit_deltobol` and what follows it. -/
def cutLine (lineid linepos : ℤ) : Comp Sys Bool := do
  let pline ← lineCell lineid
  let i ← offset linepos
  let n ← strlen pline i
  onHeap (Heap.memmove pline 0 i (n + 1))
  -- the length behind `linepos` is taken after the line has moved
  let n ← strlen pline i
  let pline ← edallocLineRealloc pline (n + 1)
  match pline with
  | none => return false
  | some pline => do
      edutilsLineSet lineid (some pline)
      return true

/-- The middle part of `ededit_key_enter`. -/
def splitLine (lineid linepos : ℤ) (indentation : ℕ) : Comp Sys Bool := do
  let oldline ← lineCell lineid
  let i ← offset linepos
  let n ← strlen oldline i
  let newline ← edallocLineMalloc (n + indentation + 1)
  match newline with
  | none => return false
  | some newline => do
      onHeap (Heap.store newline 0 (spaces indentation))
      let t ← onHeap (Heap.string oldline i)
      onHeap (Heap.store newline indentation (t ++ [0]))
      let oldline ← edallocLineRealloc oldline (i + 1)
      match oldline with
      | none => return false
      | some oldline => do
          onHeap (Heap.store oldline i [0])
          let added ← edallocBufferAddLine lineid (some oldline)
          if added then do
            edutilsLineSet (lineid + 1) (some newline)
            return true
          else return false

/-- The loop of `ededit_pasteblock`, for the `n` cells before the last ones pasted. -/
def pasteCells : ℕ → Comp Sys Bool
  | 0 => return true
  | n + 1 => do
      let u := (← get).ui
      let p ← selCell n
      let added ← edallocBufferAddLine (u.startline + u.cursory) p
      if added then pasteCells n else return false

/-- `ededit_pasteblock`, up to the use of the block. -/
def pasteSelection : Comp Sys Bool := do
  let u := (← get).ui
  let pasted ← pasteCells (u.lastsel - u.firstsel + 1).toNat
  if pasted then do
    edallocResetUsedSelection
    return true
  else do
    edallocClearSelection
    return false

/-! ### The operations -/

/-- The string at an address. -/
def stringAt (p : Comp Sys Ptr) : Comp Sys Str := do
  let p ← p
  onHeap (Heap.string p 0)

/-- The operations of the editor on the buffer in memory. -/
def Sys.perform : (o : EdOp) → Comp Sys o.Resp
  | .ui => fun s => some (s.ui, s)
  | .modify f => fun s => some ((), { s with ui := f s.ui })
  | .fileLines => fun s => some (s.fileLines, s)
  | .lineGet id => stringAt (edutilsLineGet id)
  | .lineAt c => stringAt (lineCell c)
  | .hasBlock => fun s => some (s.sellines.isSome, s)
  | .addstring lineid linepos pstr => ededitAddstring lineid linepos pstr
  | .removeChar lineid linepos => removeCharacter lineid linepos
  | .truncate lineid linepos => truncateLine lineid linepos
  | .cut lineid linepos => cutLine lineid linepos
  | .split lineid linepos indentation => splitLine lineid linepos indentation
  | .removeLine line => edallocBufferRemoveLine line
  | .pasteLines => pasteSelection
  | .fillSelection => edallocFillSelection
  | .clearSelection => edallocClearSelection
  | .malloc => onHeap Heap.request
  | .undefined => fault

/-! ### Strings -/

/-- The strings that a row of cells points to. -/
def Sys.strings (s : Sys) (cells : List (Option Ptr)) : List Str :=
  cells.map fun cell => ((cell.bind s.heap.blocks).getD []).takeWhile (· ≠ 0)

/-- The lines of the buffer. -/
def Sys.text (s : Sys) : List Str :=
  s.strings ((s.lines.getD []).take s.fileLines.toNat)

/-- The lines of the block buffer. -/
def Sys.block (s : Sys) : Option (List Str) := s.sellines.map s.strings

end ELuaBrain.Editor
