import ELuaBrain.Editor.Vram

/-!
# The editor and its operations

The variables of the editor, the keys, what the outside answers while a key is handled, and the
operations in which the code of the editor is written. The fields of `EDITOR_BUFFER` that the
allocator owns (the lines, the block buffer and their counters) are behind the operations; all
others are in `Ui`, together with the screen and the file.

## Main definitions

* `Ui`, `Disk` : the variables of the editor and its file.
* `Key`, `Env` : the inputs of one step.
* `EdOp`, `Prog` : the operations, and the programs over them.
-/

namespace ELuaBrain.Editor

/-- `TERM_COLS`. -/
def termCols : ℤ := 80

/-- `TERM_LINES`. -/
def termLines : ℤ := 30

/-- `EDITOR_LINES`. -/
def editorLines : ℤ := termLines - 1

/-- The value that an `s16` holds after an assignment. -/
def s16 (i : ℤ) : ℤ := Int.bmod i 65536

/-- The value of a conversion to a 32-bit `unsigned`. -/
def u32 (i : ℤ) : ℤ := i % 4294967296

/-- The file that is being written, and what it is compared with: `saved` holds the lines that the
buffer was loaded with or that were last written completely. -/
structure Disk where
  /-- The bytes written since the file was opened. -/
  file : Str := []
  /-- The lines written since the file was opened. -/
  pending : List Str := []
  saved : List Str

/-- The variables of the editor that the allocator does not own. -/
structure Ui where
  startx : ℤ := 0
  startline : ℤ := 0
  cursorx : ℤ := 0
  cursory : ℤ := 0
  nlines : ℤ := 0
  userstartx : ℤ := 0
  userx : ℤ := 0
  firstsel : ℤ := -1
  lastsel : ℤ := -1
  /-- `EDFLAG_DIRTY`. -/
  dirty : Bool := false
  /-- `EDFLAG_WAS_EMPTY`. -/
  wasEmpty : Bool := false
  /-- `EDFLAG_SELECT`. -/
  select : Bool := false
  /-- `EDFLAG_DEL_LAST_LINE`. -/
  delLastLine : Bool := false
  fpath : Option Str
  vram : Vram
  disk : Disk
  /-- The questions asked by `edhw_dlg`, latest first, and whether the answer was Yes. -/
  dialogs : List (Str × Bool) := []

/-! ### Inputs -/

/-- The characters for which `isprint` holds. -/
abbrev Printable := { c : UInt8 // 0x20 ≤ c ∧ c ≤ 0x7E }

/-- What `edhw_getkey` returns. -/
inductive Key where
  | char (c : Printable)
  | kcUp | kcDown | kcPageup | kcPagedown | kcLeft | kcRight | kcHome | kcEnd | kcF4 | kcCtrlF4
  | kcBackspace | kcDel | kcTab | kcEnter | kcCtrlY | kcCtrlE | kcCtrlB | kcCtrlV
  | kcF1 | kcCtrlF1 | kcF2 | kcCtrlF2 | kcF5 | kcF7 | kcF10
  /-- A key without an action. -/
  | other
  deriving DecidableEq

/-- A key that does something at the prompt of `edhw_read` and does not end it. -/
inductive PromptKey where
  | char (c : Printable)
  | kcBackspace
  deriving DecidableEq

/-- What the user and the rest of the system answer while a key is handled. -/
structure Env where
  /-- The keys typed at the prompt before `KC_ENTER` or `KC_ESC`. -/
  typed : List PromptKey := []
  /-- The prompt ends with `KC_ENTER`. -/
  entered : Bool := true
  /-- The answers to the questions of `editor_exit`. -/
  exitYes : Bool := true
  saveYes : Bool := true
  /-- `fopen` succeeds. -/
  opens : Bool := true
  /-- `fprintf` of the line with this number succeeds. -/
  writes : ℕ → Bool := fun _ => true
  /-- `fclose` writes out all that is buffered. -/
  closes : Bool := true
  /-- `lua_open` succeeds. -/
  luaOpens : Bool := true
  /-- What the help pages and the programs that are run print. -/
  page : Vram → Vram := id

/-! ### Operations -/

/-- The operations of the editor's code on its state. -/
inductive EdOp where
  | ui
  | modify (f : Ui → Ui)
  /-- `ed_crt_buffer->file_lines`. -/
  | fileLines
  /-- The string at `edutils_line_get( id )`. -/
  | lineGet (id : ℤ)
  /-- The string at `ed_crt_buffer->lines[ c ]`. -/
  | lineAt (c : ℕ)
  /-- `ed_sellines != NULL`. -/
  | hasBlock
  | addstring (lineid linepos : ℤ) (pstr : Str)
  | removeChar (lineid linepos : ℤ)
  | truncate (lineid linepos : ℤ)
  | cut (lineid linepos : ℤ)
  | split (lineid linepos : ℤ) (indentation : ℕ)
  | removeLine (line : ℤ)
  | pasteLines
  | fillSelection
  | clearSelection
  /-- A `malloc` of memory that is not a line. -/
  | malloc
  /-- Undefined behaviour. -/
  | undefined

/-- The responses of the operations. An allocation responds with whether it succeeded. -/
def EdOp.Resp : EdOp → Type
  | .ui => Ui
  | .fileLines => ℤ
  | .lineGet _ | .lineAt _ => Str
  | .hasBlock | .addstring .. | .truncate .. | .cut .. | .split .. | .pasteLines
  | .fillSelection | .malloc => Bool
  | .modify _ | .removeChar .. | .removeLine _ | .clearSelection | .undefined => Unit

/-- The code of the editor. -/
abbrev Prog (α : Type) := Program EdOp EdOp.Resp α

namespace Prog

def ui : Prog Ui := .perform EdOp.ui

def modify (f : Ui → Ui) : Prog Unit := .perform (EdOp.modify f)

/-- An operation on the terminal. -/
def term (f : Vram → Vram) : Prog Unit := modify fun u => { u with vram := f u.vram }

def fileLines : Prog ℤ := .perform EdOp.fileLines

/-- `edutils_line_get`, and the string that it points to. -/
def lineGet (id : ℤ) : Prog Str := .perform (EdOp.lineGet id)

def lineAt (c : ℕ) : Prog Str := .perform (EdOp.lineAt c)

def hasBlock : Prog Bool := .perform EdOp.hasBlock

/-- `ededit_addstring`. -/
def addstring (lineid linepos : ℤ) (pstr : Str) : Prog Bool :=
  .perform (EdOp.addstring lineid linepos pstr)

/-- The memory of the line when one character is removed. -/
def removeChar (lineid linepos : ℤ) : Prog Unit := .perform (EdOp.removeChar lineid linepos)

/-- The memory of the line when its end is removed. -/
def truncate (lineid linepos : ℤ) : Prog Bool := .perform (EdOp.truncate lineid linepos)

/-- The memory of the line when its beginning is removed. -/
def cut (lineid linepos : ℤ) : Prog Bool := .perform (EdOp.cut lineid linepos)

/-- The memory of the lines when one is split. -/
def split (lineid linepos : ℤ) (indentation : ℕ) : Prog Bool :=
  .perform (EdOp.split lineid linepos indentation)

/-- `edalloc_buffer_remove_line`. -/
def removeLine (line : ℤ) : Prog Unit := .perform (EdOp.removeLine line)

/-- The memory of the lines when the block is pasted. -/
def pasteLines : Prog Bool := .perform EdOp.pasteLines

/-- `edalloc_fill_selection`. -/
def fillSelection : Prog Bool := .perform EdOp.fillSelection

/-- `edalloc_clear_selection`. -/
def clearSelection : Prog Unit := .perform EdOp.clearSelection

def malloc : Prog Bool := .perform EdOp.malloc

def undefined : Prog Unit := .perform EdOp.undefined

end Prog

/-- An assignment that fits into an `s16`. -/
theorem s16_eq {i : ℤ} (h : -32768 ≤ i) (h' : i ≤ 32767) : s16 i = i := by
  rw [s16]
  exact Int.bmod_eq_of_le (by omega) (by omega)

theorem u32_eq {i : ℤ} (h : 0 ≤ i) (h' : i < 4294967296) : u32 i = i := Int.emod_eq_of_lt h h'

end ELuaBrain.Editor
