import ELuaBrain.Editor.Alloc

/-!
# The editor

The code of `editor.c`, and the part of `edalloc.c` that reads a file. What the help pages and the
programs of the user print is an input, as are the outcomes of the file operations.

## Main definitions

* `editorhSaveFile`, `editorSaveasFile`, `editorGotoLine`, `editorExit` : the commands.
* `mainloopStep` : one round of `editor_mainloop`.
* `edallocBufferNew`, `editorInit`, `editorStart` : up to the first round.
* `Session`, `sessionStep` : the rounds of the main loop as steps of a system.
-/

namespace ELuaBrain.Editor

open Prog

/-! ### Files -/

/-- A successful `fprintf( fp, "%s\n", line )`. -/
def Disk.write (line : Str) (d : Disk) : Disk :=
  { d with file := d.file ++ (line ++ [0x0A]), pending := d.pending ++ [line] }

/-- `fclose`, after all lines were written. -/
def Disk.close (closes : Bool) (d : Disk) : Disk :=
  if closes then { d with saved := d.pending } else d

/-- An operation on the file. -/
def Prog.onDisk (f : Disk → Disk) : Prog Unit := modify fun u => { u with disk := f u.disk }

/-- The loop of `editorh_save_file` over `n` lines from the line `c` on. -/
def writeLines (env : Env) : ℕ → ℕ → Prog Bool
  | 0, _ => return true
  | n + 1, c => do
      let line ← lineAt c
      if env.writes c then do
        onDisk (Disk.write line)
        writeLines env n (c + 1)
      else return false

/-- `editorh_save_file`, with the confirmation. -/
def editorhSaveFile (env : Env) (fname : Option Str) : Prog Bool := do
  if fname.getD [] = [] then do
    edhwError (ascii "No file specified")
    return false
  else if ¬ env.opens then do
    edhwError (ascii "Unable to open file")
    return false
  else do
    onDisk fun d => { d with file := [], pending := [] }
    let n ← fileLines
    let written ← writeLines env n.toNat 0
    if written then do
      onDisk (Disk.close env.closes)
      modify fun u => { u with dirty := false }
      edutilsDisplayStatus
      edhwMsg (ascii "File saved") (ascii "Info")
      return true
    else do
      edhwError (ascii "Error writing to file")
      return false

/-- `editor_save_file`. -/
def editorSaveFile (env : Env) : Prog Unit := do
  let u ← ui
  let _ ← editorhSaveFile env u.fpath

/-- `edalloc_set_fname`. -/
def edallocSetFname (name : Str) : Prog Bool :=
  if name ≠ [] then do
    modify fun u => { u with fpath := none }
    let copy ← malloc
    if copy then do
      modify fun u => { u with fpath := some name }
      return true
    else return false
  else return true

/-- `editor_saveas_file`; false stands for `EDITOR_FATAL_CODE`. -/
def editorSaveasFile (env : Env) : Prog Bool := do
  let line ← edhwRead env (ascii "Save as") (ascii "Enter file name") 32 edutilsFnameValidator
  match line with
  | none => return true
  | some line => do
      let res ← edallocSetFname line
      if res then do
        editorSaveFile env
        return true
      else return false

/-! ### Commands -/

/-- `atoi`. -/
def atoi (s : Str) : ℤ := ((Vram.scanInt s).map Prod.fst).getD 0

/-- `editor_goto_line`. -/
def editorGotoLine (env : Env) : Prog Unit := do
  let u ← ui
  Program.when (u.select = false) do
    let line ← edhwRead env (ascii "Go to line") (ascii "Enter line number") 6
      edutilsNumberValidator
    match line with
    | none => return ()
    | some line => do
        let n ← fileLines
        if atoi line < 0 ∨ atoi line > n then edhwError (ascii "Invalid line number")
        else edmoveGotoLine (atoi line)

/-- `term_reset`, and `edhw_init`. -/
def Vram.reset (v : Vram) : Vram := v.clrscr.gotoxy 0 0

/-- `editor_help` and `editor_apihelp`: a page that is shown until a key is pressed. -/
def editorHelp (env : Env) : Prog Unit := do
  term fun v => (env.page v.clrscr).reset
  edutilsShowScreen

/-- `editor_run`. Every way through the Lua program ends with `edhw_init` and a redraw. -/
def editorRun (env : Env) : Prog Unit := do
  let n ← fileLines
  Program.forEach (List.range n.toNat) fun c => do
    let _ ← lineAt c
  let buf ← malloc
  if buf then do
    Program.forEach (List.range n.toNat) fun c => do
      let _ ← lineAt c
    if env.luaOpens then do
      term fun v => (env.page v.reset).reset
      edutilsShowScreen
    else edhwError (ascii "Not enough memory")
  else edhwError (ascii "Not enough memory")

/-- The second question of `editor_exit`. -/
def saveQuestion : Str := ascii "File not saved, save it now?"

/-- `editor_exit`; true stands for `EDITOR_EXIT_CODE`, after which the buffer is freed. -/
def editorExit (env : Env) : Prog Bool := do
  let res ← edhwDlg (ascii "Are you sure you want to exit?") env.exitYes
  if res then do
    let u ← ui
    Program.when (u.dirty = true) do
      let res ← edhwDlg saveQuestion env.saveYes
      Program.when (res = true) do
        let u ← ui
        if u.fpath.isSome then editorSaveFile env
        else do
          let _ ← editorSaveasFile env
    return true
  else return false

/-- The `switch` of `editor_mainloop`; true ends the loop. -/
def editorCommand (k : Key) (env : Env) : Prog Bool :=
  match k with
  | .kcF1 => do editorHelp env; return false
  | .kcCtrlF1 => do editorHelp env; return false
  | .kcF5 => do editorRun env; return false
  | .kcF2 => do
      let u ← ui
      if u.fpath.isSome then do editorSaveFile env; return false
      else do
        let _ ← editorSaveasFile env
        return false
  | .kcCtrlF2 => do
      let _ ← editorSaveasFile env
      return false
  | .kcF7 => do editorGotoLine env; return false
  | .kcF10 => editorExit env
  | _ => return false

/-- One round of `editor_mainloop`; true ends the loop. -/
def mainloopStep (k : Key) (env : Env) : Prog Bool := do
  let moved ← edmoveHandleKey k
  if moved then return false
  else do
    let res ← ededitHandleKey k
    if res = .done then return false
    else do
      Program.when (res = .fatal) (edhwWritetext (ascii "FATAL ERROR IN EDITOR!!!!!\n"))
      editorCommand k env

/-! ### Reading a file -/

/-- `LINE_BUFFER_SIZE`. -/
def lineBufferSize : ℕ := 500

/-- `FILE_ESTIMATED_LINE_SIZE`. -/
def fileEstimatedLineSize : ℤ := 40

/-- What the calls of `fgets( linebuf, LINE_BUFFER_SIZE, fp )` return from here on, where `piece`
has been read and there is room for `room` bytes. -/
def fgetsPieces (room : ℕ) (piece : Str) : Str → List Str
  | [] => if piece = [] then [] else [piece]
  | c :: s =>
      if c = 0x0A ∨ room ≤ 1 then (piece ++ [c]) :: fgetsPieces (lineBufferSize - 1) [] s
      else fgetsPieces (room - 1) (piece ++ [c]) s

/-- The string in `linebuf`, without the `'\r'` and `'\n'` at its end. -/
def stripLine (piece : Str) : Str :=
  ((piece.takeWhile (· ≠ 0)).reverse.dropWhile fun c => c == 0x0D || c == 0x0A).reverse

/-- The loop of `edalloc_buffer_new`, from the line `i` on. -/
def readLines : ℤ → List Str → Comp Sys Bool
  | _, [] => return true
  | i, piece :: pieces => do
      let t := stripLine piece
      let p ← edallocLineMalloc (t.length + 1)
      edutilsLineSet i p
      match p with
      | none => return false
      | some p => do
          onHeap (Heap.store p 0 (t ++ [0]))
          let changed ← edallocBufferChangeLines 1
          if changed then readLines (i + 1) pieces else return false

/-- The empty buffer of `edalloc_buffer_new`. -/
def emptyBuffer : Comp Sys Bool := do
  let p ← edallocLineMalloc zoneSize
  edutilsLineSet 0 p
  match p with
  | none => return false
  | some p => do
      onHeap (Heap.store p 0 [0])
      let changed ← edallocBufferChangeLines 1
      if changed then do
        modify fun s => { s with ui := { s.ui with wasEmpty := true } }
        return true
      else return false

/-- `fsize`. -/
def fileSize (content : Str) : ℤ := Int.bmod content.length 4294967296

/-- `edalloc_buffer_new` with a buffer that is already allocated and cleared, and its name set; the
`content` is `none` for a file that cannot be opened. False stands for `NULL`. -/
def edallocBufferRead (content : Option Str) : Comp Sys Bool := do
  let fsize := (content.map fileSize).getD 0
  let allocated := fsize.tdiv fileEstimatedLineSize + extraLines
  modify fun s => { s with allocatedLines := allocated }
  let granted ← onHeap Heap.request
  if granted then do
    modify fun s => { s with lines := some (List.replicate allocated.toNat none) }
    let complete ←
      if fsize > 0 then readLines 0 (fgetsPieces (lineBufferSize - 1) [] (content.getD []))
      else emptyBuffer
    if complete then return true
    else do
      let _ ← edallocFreeBuffer
      return false
  else return false

/-- `edalloc_buffer_new`, where `content` is that of the file `fname`. -/
def edallocBufferNew (fname content : Option Str) : Comp Sys Bool := do
  let linebuf ← onHeap Heap.request
  let b ← if linebuf then onHeap Heap.request else pure false
  if b then
    match fname with
    | some (c :: name) => do
        let copy ← onHeap Heap.request
        if copy then do
          modify fun s => { s with ui := { s.ui with fpath := some (c :: name) } }
          edallocBufferRead content
        else return false
    | _ => edallocBufferRead none
  else return false

/-- The state before the editor is started, on a screen in any state. -/
def Sys.blank (answers : ℕ → Answer) (vram : Vram) : Sys where
  heap := { answers := answers }
  lines := none
  fileLines := 0
  allocatedLines := 0
  ui := { fpath := none, vram := vram, disk := { saved := [] } }

/-- `editor_init`. -/
def editorInit (fname content : Option Str) : Comp Sys Bool := do
  modify fun s => { s with ui := { s.ui with vram := s.ui.vram.reset } }
  let created ← edallocBufferNew fname content
  modify fun s => { s with ui := { s.ui with disk := { saved := s.text } } }
  return created

/-- `editor_init`, and `editor_mainloop` up to the first key. -/
def editorStart (fname content : Option Str) : Comp Sys Bool := do
  let created ← editorInit fname content
  if created then do
    edutilsShowScreen.run Sys.perform
    return true
  else return false

/-! ### Sessions -/

/-- The editor, or the lines that were freed and what is left when it was closed. -/
inductive Session (σ : Type) where
  | running (s : σ)
  | closed (texts : List Str) (s : σ)

/-- One round of the main loop under an interpreter of the operations, and `edalloc_free_buffer` at
the end of `editor_exit`. -/
def sessionStep {σ : Type} (H : (o : EdOp) → Comp σ o.Resp) (free : Comp σ (List Str)) :
    Session σ → Key × Env → Option (Session σ)
  | .running s, i =>
      ((mainloopStep i.1 i.2).run H s).bind fun r =>
        if r.1 then (free r.2).map fun f => .closed f.1 f.2 else some (.running r.2)
  | .closed ts s, _ => some (.closed ts s)

end ELuaBrain.Editor
