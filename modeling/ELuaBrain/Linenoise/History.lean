import ELuaBrain.System.Heap
import ELuaBrain.Terminal.Decode

/-!
# Line history

The histories of `src/linenoise.c`, one for Lua and one for the shell. While a prompt reads a line,
the last entry of its history is that line, and the keys up and down replace entries in place. What
is printed and the saving of a history are left out.

Using a block that is not there, freeing it twice, and reading outside of an array or through
`NULL` have no result.

## Main definitions

* `internalAddhistory`, `cleanup`, `endPrompt`, `navigate` : the operations on a history.
* `step` : the calls, and the keys at a prompt.
* `Model.step` : histories as lists of lines, where the line at the prompt is apart.
-/

namespace ELuaBrain.Linenoise

open Terminal.Decode (isprint)

/-! ### The code -/

/-- The components. -/
inductive Component where
  | lua
  | shell
  deriving DecidableEq

/-- `histories[ id ]` and `history_lengths[ id ]`. The pointers are kept beside the block of the
array. -/
structure History where
  array : Option (Ptr × List (Option Ptr)) := none
  length : ℤ := 0

/-- The keys. -/
inductive Key where
  | kcEnter
  | kcCtrlC
  | kcCtrlZ
  | kcBackspace
  | kcLeft
  | kcRight
  | kcUp
  | kcDown
  | kcDel
  | kcHome
  | kcEnd
  | kcCtrlU
  | kcCtrlK
  | char (c : UInt8)
  | other

/-- The variables of `linenoisePrompt`. -/
structure Prompt where
  id : Component
  buflen : ℕ
  buf : List UInt8 := []
  pos : ℕ := 0
  historyIndex : ℤ := 0

/-- The memory, the histories and the prompt that reads a line. -/
structure State where
  heap : Heap
  histories : Component → History := fun _ => {}
  prompt : Option Prompt := none

/-- `free`. -/
def free : Option Ptr → Heap → Option Heap
  | none, heap => some heap
  | some p, heap => (Heap.free p heap).map Prod.snd

/-- `strdup`. -/
def strdup (str : List UInt8) (heap : Heap) : Option (Option Ptr × Heap) :=
  (Heap.malloc (str.length + 1) heap).bind fun r =>
    match r with
    | (none, heap) => some (none, heap)
    | (some p, heap) => (Heap.store p 0 (str ++ [0]) heap).map fun r => (some p, r.2)

namespace History

/-- `histories[ id ][ j ]`. -/
def entry (h : History) (j : ℤ) : Option (Option Ptr) :=
  h.array.bind fun a => if 0 ≤ j then a.2[j.toNat]? else none

/-- `histories[ id ][ j ] = p`. -/
def setEntry (h : History) (j : ℤ) (p : Option Ptr) : Option History :=
  h.array.bind fun a =>
    if 0 ≤ j ∧ j < a.2.length then some { h with array := some (a.1, a.2.set j.toNat p) } else none

end History

/-- The array is allocated. -/
def allocate (max : ℕ) (h : History) (heap : Heap) : Option (Bool × History × Heap) :=
  match h.array with
  | some _ => some (true, h, heap)
  | none => (Heap.malloc (4 * max) heap).map fun r =>
      match r with
      | (none, heap) => (false, h, heap)
      | (some p, heap) => (true, { h with array := some (p, List.replicate max none) }, heap)

/-- The oldest entry is removed from a full array. -/
def evict (max : ℕ) (h : History) (heap : Heap) : Option (History × Heap) :=
  if h.length = max then do
    let old ← h.entry 0
    let heap ← free old heap
    let a ← h.array
    return ({ array := some (a.1, a.2.drop 1 ++ a.2.drop (max - 1)), length := h.length - 1 }, heap)
  else some (h, heap)

/-- A line is added. -/
def addLine (max : ℕ) (line : List UInt8) (h : History) (heap : Heap) :
    Option (Bool × History × Heap) :=
  (strdup line heap).bind fun r =>
    match r with
    | (none, heap) => some (false, h, heap)
    | (some linecopy, heap) => do
        let (h, heap) ← evict max h heap
        let h ← h.setEntry h.length (some linecopy)
        return (true, { h with length := h.length + 1 }, heap)

/-- The lines of a text. -/
def pieces : List UInt8 → List (List UInt8)
  | [] => [[]]
  | c :: line =>
      if c = 0x0A then if line = [] then [[]] else [] :: pieces line
      else
        match pieces line with
        | [] => [[c]]
        | p :: ps => (c :: p) :: ps

/-- The loop of `linenoise_internal_addhistory`. -/
def addLines (max : ℕ) (forceEmpty : Bool) :
    List (List UInt8) → History → Heap → Option (Bool × History × Heap)
  | [], h, heap => some (true, h, heap)
  | line :: lines, h, heap =>
      if line ≠ [] ∨ forceEmpty then
        (addLine max line h heap).bind fun r =>
          if r.1 then addLines max forceEmpty lines r.2.1 r.2.2 else some r
      else addLines max forceEmpty lines h heap

/-- `linenoise_internal_addhistory`. -/
def internalAddhistory (max : ℕ) (line : List UInt8) (forceEmpty : Bool) (h : History)
    (heap : Heap) : Option (Bool × History × Heap) :=
  if max = 0 then some (false, h, heap)
  else
    (allocate max h heap).bind fun r =>
      if r.1 then addLines max forceEmpty (pieces (line.takeWhile (· ≠ 0))) r.2.1 r.2.2 else some r

/-- The entries from `j` on are freed. -/
def freeEntries (h : History) : ℕ → ℤ → Heap → Option Heap
  | 0, _, heap => some heap
  | n + 1, j, heap => do
      let old ← h.entry j
      let heap ← free old heap
      freeEntries h n (j + 1) heap

/-- `linenoise_cleanup`. -/
def cleanup (h : History) (heap : Heap) : Option (History × Heap) :=
  match h.array with
  | some a => do
      let heap ← freeEntries h h.length.toNat 0 heap
      let heap ← free (some a.1) heap
      return ({}, heap)
  | none => some ({}, heap)

/-- The last entry is removed, when a prompt ends. -/
def endPrompt (h : History) (heap : Heap) : Option (History × Heap) := do
  let old ← h.entry (h.length - 1)
  let heap ← free old heap
  return ({ h with length := h.length - 1 }, heap)

/-- An entry gets another text. -/
def replaceEntry (j : ℤ) (text : List UInt8) (h : History) (heap : Heap) :
    Option (History × Heap) := do
  let old ← h.entry j
  let heap ← free old heap
  let r ← strdup text heap
  let h ← h.setEntry j r.1
  return (h, r.2)

/-- An entry is read, if there is one. -/
def showEntry (historyIndex : ℤ) (p : Prompt) (h : History) (heap : Heap) :
    Option (Prompt × Heap) :=
  if historyIndex < 0 then some ({ p with historyIndex := 0 }, heap)
  else if historyIndex ≥ h.length then some ({ p with historyIndex := h.length - 1 }, heap)
  else do
    let entry ← h.entry (h.length - 1 - historyIndex)
    let str ← entry
    let r ← Heap.string str 0 heap
    let buf := r.1.take p.buflen
    return ({ p with buf, pos := buf.length, historyIndex }, r.2)

/-- The keys up and down. -/
def navigate (delta : ℤ) (p : Prompt) (h : History) (heap : Heap) :
    Option (Prompt × History × Heap) :=
  if h.length > 1 then do
    let (h, heap) ← replaceEntry (h.length - 1 - p.historyIndex) p.buf h heap
    let (p, heap) ← showEntry (p.historyIndex + delta) p h heap
    return (p, h, heap)
  else some (p, h, heap)

/-- The other keys. -/
def Prompt.edit (p : Prompt) : Key → Prompt
  | .kcBackspace =>
      if 0 < p.pos then { p with buf := p.buf.eraseIdx (p.pos - 1), pos := p.pos - 1 } else p
  | .kcLeft => { p with pos := p.pos - 1 }
  | .kcRight => if p.pos ≠ p.buf.length then { p with pos := p.pos + 1 } else p
  | .kcDel => { p with buf := p.buf.eraseIdx p.pos }
  | .kcHome => { p with pos := 0 }
  | .kcEnd => { p with pos := p.buf.length }
  | .kcCtrlU => { p with buf := [], pos := 0 }
  | .kcCtrlK => { p with buf := p.buf.take p.pos }
  | .char c =>
      if isprint c ∧ p.buf.length < p.buflen then
        { p with buf := p.buf.insertIdx p.pos c, pos := p.pos + 1 }
      else p
  | _ => p

namespace State

/-- The memory and the history of a component. -/
def put (s : State) (id : Component) (r : History × Heap) : State :=
  { s with histories := Function.update s.histories id r.1, heap := r.2 }

/-- `linenoisePrompt`, until it waits for a key. -/
def startPrompt (maxLength : Component → ℕ) (id : Component) (buflen : ℕ) (s : State) :
    Option State :=
  (internalAddhistory (maxLength id) [] true (s.histories id) s.heap).map fun r =>
    { s.put id r.2 with prompt := some { id, buflen } }

/-- A prompt ends. -/
def finish (s : State) (id : Component) : Option State :=
  (endPrompt (s.histories id) s.heap).map fun r => { s.put id r with prompt := none }

/-- A key at a prompt. After Ctrl+C there is another prompt. -/
def press (maxLength : Component → ℕ) (s : State) (p : Prompt) : Key → Option State
  | .kcEnter | .kcCtrlZ => s.finish p.id
  | .kcCtrlC => (s.finish p.id).bind (startPrompt maxLength p.id p.buflen)
  | .kcUp => (navigate 1 p (s.histories p.id) s.heap).map fun r =>
      { s.put p.id r.2 with prompt := some r.1 }
  | .kcDown => (navigate (-1) p (s.histories p.id) s.heap).map fun r =>
      { s.put p.id r.2 with prompt := some r.1 }
  | key => some { s with prompt := some (p.edit key) }

end State

/-- The calls of a program, with a buffer of `buflen + 1` bytes, and the keys. -/
inductive Event where
  | getline (id : Component) (buflen : ℕ)
  | key (key : Key)
  | addhistory (id : Component) (line : List UInt8)
  | cleanup (id : Component)

/-- One event. A call waits for the end of the prompt, and a key for a prompt. Without a history
`linenoise_getline` reads with `fgets`. -/
def step (maxLength : Component → ℕ) (s : State) (e : Event) : Option State :=
  match s.prompt, e with
  | none, .getline id buflen =>
      if maxLength id = 0 then some s else s.startPrompt maxLength id buflen
  | none, .addhistory id line =>
      (internalAddhistory (maxLength id) line false (s.histories id) s.heap).map fun r =>
        s.put id r.2
  | none, .cleanup id => (cleanup (s.histories id) s.heap).map (s.put id)
  | some p, .key key => s.press maxLength p key
  | _, _ => some s

/-! ### Histories as lists of lines -/

/-- The lines of a history, and the line at the prompt. -/
structure Lines where
  lines : List (List UInt8) := []
  current : Option (List UInt8) := none

namespace Lines

variable (l : Lines)

/-- All the entries. -/
def texts : List (List UInt8) := l.lines ++ l.current.toList

/-- An entry, counted from the line at the prompt. -/
def fetch (i : ℕ) : List UInt8 :=
  (if i = 0 then l.current else l.lines[l.lines.length - i]?).getD []

/-- Another text for an entry. -/
def store (i : ℕ) (text : List UInt8) : Lines :=
  if i = 0 then { l with current := some text }
  else { l with lines := l.lines.set (l.lines.length - i) text }

/-- The prompt with another entry, if there is one. -/
def look (historyIndex : ℤ) (p : Prompt) : Prompt :=
  if historyIndex < 0 then { p with historyIndex := 0 }
  else if historyIndex > l.lines.length then { p with historyIndex := l.lines.length }
  else
    let buf := (l.fetch historyIndex.toNat).take p.buflen
    { p with buf, pos := buf.length, historyIndex }

/-- Up and down. -/
def navigate (delta : ℤ) (p : Prompt) : Prompt × Lines :=
  if l.lines = [] then (p, l)
  else
    let l := l.store p.historyIndex.toNat p.buf
    (l.look (p.historyIndex + delta) p, l)

end Lines

/-- There is room for one line more. -/
def makeRoom {α : Type} (max : ℕ) (lines : List α) : List α :=
  if lines.length = max then lines.tail else lines

/-- Lines are added. -/
def addAll (max : ℕ) (lines texts : List (List UInt8)) : List (List UInt8) :=
  texts.foldl (fun lines text => makeRoom max lines ++ [text]) lines

/-- The histories, and the prompt. -/
structure Model where
  histories : Component → Lines := fun _ => {}
  prompt : Option Prompt := none

namespace Model

/-- A prompt starts with an empty line. -/
def start (maxLength : Component → ℕ) (id : Component) (buflen : ℕ) (a : Model) : Model where
  histories := Function.update a.histories id
    { lines := makeRoom (maxLength id) (a.histories id).lines, current := some [] }
  prompt := some { id, buflen }

/-- The line at the prompt is removed. -/
def finish (a : Model) (id : Component) : Model where
  histories := Function.update a.histories id { a.histories id with current := none }
  prompt := none

/-- A key at a prompt. -/
def press (maxLength : Component → ℕ) (a : Model) (p : Prompt) : Key → Model
  | .kcEnter | .kcCtrlZ => a.finish p.id
  | .kcCtrlC => (a.finish p.id).start maxLength p.id p.buflen
  | .kcUp =>
      let r := (a.histories p.id).navigate 1 p
      { histories := Function.update a.histories p.id r.2, prompt := some r.1 }
  | .kcDown =>
      let r := (a.histories p.id).navigate (-1) p
      { histories := Function.update a.histories p.id r.2, prompt := some r.1 }
  | key => { a with prompt := some (p.edit key) }

/-- One event, where memory is found for the first `n` lines of a text. -/
def step (maxLength : Component → ℕ) (n : ℕ) (a : Model) (e : Event) : Model :=
  match a.prompt, e with
  | none, .getline id buflen => if maxLength id = 0 then a else a.start maxLength id buflen
  | none, .addhistory id line =>
      { a with
        histories := Function.update a.histories id
          { a.histories id with
            lines := addAll (maxLength id) (a.histories id).lines
              (((pieces (line.takeWhile (· ≠ 0))).filter (· ≠ [])).take n) } }
  | none, .cleanup id => { a with histories := Function.update a.histories id {} }
  | some p, .key key => a.press maxLength p key
  | _, _ => a

end Model

end ELuaBrain.Linenoise
