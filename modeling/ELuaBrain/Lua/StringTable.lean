import ELuaBrain.Lua.Collector
import ELuaBrain.System.Buckets

/-!
# The string table of Lua

`luaS_newlstr`, `luaS_newrolstr` and `luaS_resize` of `lstring.c`, step by step: where one of them
waits for the allocator, a collection may run, and its finalizers may call them again. What is
pending is kept as a list of frames, the innermost one first.

Of the collector there is what touches strings: the marks, the sweep of the table, its shrinking,
and the finalizers, which are arbitrary programs. What the mark phase comes upon is chosen by the
events; before the phase ends it has marked the strings that are held. The shrinking of the lexer's
buffer is left out.

## Main definitions

* `TString`, `getstr` : a string object, and its characters.
* `State`, `Frame` : the string table with the collector, and what is pending.
* `Event`, `step` : the steps.
* `start` : the table of a new state.
-/

namespace ELuaBrain.Lua.Strings

open Buckets (bucket items push rehash)

/-! ### Strings -/

/-- The bits of `marked` of a string: `WHITE0BIT`, `WHITE1BIT`, `BLACKBIT`, `FIXEDBIT` and
`READONLYBIT`. -/
structure Marked where
  white0 : Bool
  white1 : Bool
  black : Bool
  fixed : Bool
  readonly : Bool
  deriving DecidableEq

/-- What is behind the header of a string: its characters and a zero, or a pointer to them. -/
inductive Payload where
  | chars (bytes : List UInt8)
  | pointer (p : UInt32)
  deriving DecidableEq

/-- The characters that a string is created from: bytes, or bytes in read-only memory. -/
inductive Source where
  | copy (bytes : List UInt8)
  | rom (p : UInt32) (len : ℕ)
  deriving DecidableEq

/-- A string object. What it was created from is only there to speak about it. -/
structure TString where
  addr : UInt32
  hash : UInt32
  len : ℕ
  payload : Payload
  marked : Marked
  source : Source
  deriving DecidableEq

/-- Bytes in read-only memory. -/
def slice (rom : UInt32 → UInt8) (p : UInt32) (len : ℕ) : List UInt8 :=
  (List.range len).map fun i => rom (p + UInt32.ofNat i)

def Source.content (rom : UInt32 → UInt8) : Source → List UInt8
  | .copy bytes => bytes
  | .rom p len => slice rom p len

/-- The argument `readonly` of `luaS_newlstr_helper`: in `luaS_newrolstr` a string that would be
larger is copied. -/
def Source.readonly : Source → Bool
  | .copy _ => false
  | .rom _ len => !decide (len + 1 < 4)

/-- `getstr`, as many characters as the string has. A pointer is not followed where the bit says
that the characters are here, nor the other way round. -/
def getstr (rom : UInt32 → UInt8) (ts : TString) : Option (List UInt8) :=
  match ts.marked.readonly, ts.payload with
  | true, .pointer p => some (slice rom p ts.len)
  | false, .chars bytes => some (bytes.take ts.len)
  | _, _ => none

/-- The hash in `luaS_newlstr_helper`. The loop takes the indices from the last one on. -/
def hashOf (str : List UInt8) : UInt32 :=
  let l := str.length
  let step := l / 32 + 1
  (List.range (l / step)).foldl
    (fun h k => h ^^^ ((h <<< 5) + (h >>> 2) + (str.getD (l - k * step - 1) 0).toUInt32))
    (UInt32.ofNat l)

/-- `lmod`. -/
def lmod (h : UInt32) (size : ℕ) : ℕ := h.toNat &&& (size - 1)

/-! ### Marks -/

/-- `luaC_white`, where `current` is the white of `currentwhite`. -/
def luaCWhite (current : Bool) : Marked := ⟨!current, current, false, false, false⟩

/-- `isdead`. -/
def isdead (current : Bool) (m : Marked) : Bool := if current then m.white0 else m.white1

/-- `changewhite`. -/
def changewhite (m : Marked) : Marked := { m with white0 := !m.white0, white1 := !m.white1 }

/-- `makewhite`. -/
def makewhite (current : Bool) (m : Marked) : Marked :=
  { m with white0 := !current, white1 := current, black := false }

/-- `stringmark`. -/
def stringmark (m : Marked) : Marked := { m with white0 := false, white1 := false }

/-- `luaS_fix`. -/
def luaSFix (m : Marked) : Marked := { m with fixed := true }

/-- The test of `sweeplist`. `otherwhite` has `FIXEDBIT`. -/
def survives (current : Bool) (m : Marked) : Bool := !isdead current m || m.fixed

/-! ### The state -/

/-- What a collection does: it is one of `luaC_step`, or `luaC_fullgc` before or behind its
`markroot`. -/
inductive Collection where
  | step
  | finish
  | full
  deriving DecidableEq

/-- What is pending: `newlstr` before or behind `luaS_resize`, which waits for a larger vector, or
for the object; `luaS_resize` from `checkSizes`, which waits for a smaller vector; a collection; a
finalizer. -/
inductive Frame where
  | growing (src : Source) (newsize : ℕ)
  | creating (src : Source)
  | shrinking (newsize : ℕ)
  | collecting (c : Collection)
  | finalizer
  deriving DecidableEq

/-- The string table, the collector, what is pending, and the addresses of the strings that the
program holds. -/
structure State where
  hash : List (List TString)
  nuse : UInt32
  size : ℕ
  gcstate : GcState
  currentwhite : Bool
  sweepstrgc : ℕ
  blockGc : Bool
  resizing : Bool
  frames : List Frame
  held : List UInt32

/-- `MINSTRTABSIZE`. -/
def minstrtabsize : ℕ := 32

/-- `MAX_INT`. -/
def maxInt : ℕ := 2 ^ 31 - 1 - 2

/-- A new state with its string table. -/
def start : State where
  hash := List.replicate minstrtabsize []
  nuse := 0
  size := minstrtabsize
  gcstate := .pause
  currentwhite := false
  sweepstrgc := 0
  blockGc := false
  resizing := false
  frames := []
  held := []

/-- The strings of the table. -/
abbrev State.strings (s : State) : List TString := items s.hash

/-- Lua code runs: the program or a finalizer. -/
def State.Running (s : State) : Prop :=
  match s.frames with
  | [] => True
  | .finalizer :: _ => True
  | _ => False

/-- The allocator runs. -/
def State.Allocating (s : State) : Prop :=
  match s.frames with
  | .growing _ _ :: _ => True
  | .creating _ :: _ => True
  | .shrinking _ :: _ => True
  | _ => False

instance (s : State) : Decidable s.Running := by
  rw [State.Running]
  split <;> infer_instance

instance (s : State) : Decidable s.Allocating := by
  rw [State.Allocating]
  split <;> infer_instance

/-- New marks for the strings at some addresses. -/
def State.remark (s : State) (f : Marked → Marked) (addrs : List UInt32) : State :=
  { s with hash := s.hash.map (List.map fun ts =>
      if ts.addr ∈ addrs then { ts with marked := f ts.marked } else ts) }

/-! ### Strings and their table -/

variable (rom : UInt32 → UInt8)

/-- The first test of `luaS_resize`. -/
def State.cannotResize (s : State) (newsize : ℕ) : Prop :=
  s.gcstate = .sweepstring ∨ newsize = s.size ∨ s.resizing = true

instance (s : State) (newsize : ℕ) : Decidable (s.cannotResize newsize) :=
  inferInstanceAs (Decidable (_ ∨ _ ∨ _))

/-- The loop in `luaS_newlstr_helper`. -/
def State.find (s : State) (str : List UInt8) : Option TString :=
  (bucket s.hash (lmod (hashOf str) s.size)).find? fun ts =>
    decide (ts.len = str.length ∧ getstr rom ts = some str)

/-- `newlstr` up to the call of the allocator. -/
def State.newlstr (s : State) (src : Source) : State :=
  if UInt32.ofNat s.size < s.nuse + 1 ∧ s.size ≤ maxInt / 2 ∧ ¬s.cannotResize (2 * s.size) then
    { s with resizing := true, frames := .growing src (2 * s.size) :: s.frames }
  else { s with frames := .creating src :: s.frames }

/-- `luaS_newlstr_helper` up to the call of the allocator. A string that is dead is changed to the
current white. -/
def State.intern (s : State) (src : Source) : State :=
  match s.find rom (src.content rom) with
  | some ts =>
    let s := if isdead s.currentwhite ts.marked then s.remark changewhite [ts.addr] else s
    { s with held := ts.addr :: s.held }
  | none => s.newlstr src

/-- The new object in `newlstr`. -/
def newTString (addr : UInt32) (src : Source) (current : Bool) : TString where
  addr := addr
  hash := hashOf (src.content rom)
  len := (src.content rom).length
  payload :=
    match src with
    | .rom p len => if src.readonly then .pointer p else .chars (slice rom p len ++ [0])
    | .copy bytes => .chars (bytes ++ [0])
  marked := { luaCWhite current with readonly := src.readonly }
  source := src

/-- The end of `newlstr`. -/
def State.link (s : State) (ts : TString) : State :=
  { s with
    hash := push (lmod ts.hash s.size) ts s.hash
    nuse := s.nuse + 1
    held := ts.addr :: s.held }

/-- The rehash in `luaS_resize`. -/
def State.rehash (s : State) (newsize : ℕ) : State :=
  { s with hash := Buckets.rehash (fun ts : TString => lmod ts.hash newsize) s.size s.hash }

/-- The allocator returns a block, and what waits for it goes on. A new object is at an address
where there is no string. -/
def State.allocated (s : State) (addr : UInt32) : Option State :=
  match s.frames with
  | .growing src newsize :: frames =>
    let s := { s with hash := s.hash ++ List.replicate (newsize - s.size) [] }
    some { s.rehash newsize with size := newsize, resizing := false, frames := .creating src :: frames }
  | .creating src :: frames =>
    if addr ≠ 0 ∧ ∀ ts ∈ s.strings, ts.addr ≠ addr then
      let s := { s with frames := frames }
      some (s.link (newTString rom addr src s.currentwhite))
    else none
  | .shrinking newsize :: frames =>
    some { s with
      hash := s.hash.take newsize
      size := newsize
      resizing := false
      gcstate := .finalize
      frames := frames }
  | _ => none

/-! ### The collector -/

/-- What the collector comes upon: strings to mark, and whether there is more to do in the phase. -/
structure Chance where
  marks : List UInt32
  more : Bool

/-- `sweepwholelist` for a list of strings. -/
def State.sweepList (s : State) (i : ℕ) : State :=
  let kept := (bucket s.hash i).filter fun ts => survives s.currentwhite ts.marked
  { s with
    hash := s.hash.set i (kept.map fun ts =>
      { ts with marked := makewhite s.currentwhite ts.marked })
    nuse := s.nuse - UInt32.ofNat ((bucket s.hash i).length - kept.length) }

/-- `checkSizes` behind the sweep, and the end of the phase. -/
def State.checkSizes (s : State) : State :=
  if s.nuse < UInt32.ofNat (s.size / 4) ∧ 2 * minstrtabsize < s.size ∧
      ¬s.cannotResize (s.size / 2) then
    let s := s.rehash (s.size / 2)
    { s with resizing := true, frames := .shrinking (s.size / 2) :: s.frames }
  else { s with gcstate := .finalize }

/-- The strings that are held are marked, or fixed. -/
def State.HeldMarked (s : State) : Prop :=
  ∀ ts ∈ s.strings, ts.addr ∈ s.held →
    ts.marked.white0 = false ∧ ts.marked.white1 = false ∨ ts.marked.fixed = true

instance (s : State) : Decidable s.HeldMarked := inferInstanceAs (Decidable (∀ _ ∈ _, _))

/-- `singlestep`. -/
def State.singlestep (s : State) (c : Chance) : Option State :=
  match s.gcstate with
  | .pause => some { s with gcstate := .propagate }
  | .propagate =>
    let s := s.remark stringmark c.marks
    if c.more then some s
    else if s.HeldMarked then
      some { s with currentwhite := !s.currentwhite, sweepstrgc := 0, gcstate := .sweepstring }
    else none
  | .sweepstring =>
    let s := s.sweepList s.sweepstrgc
    some { s with
      sweepstrgc := s.sweepstrgc + 1
      gcstate := if s.size ≤ s.sweepstrgc + 1 then .sweep else .sweepstring }
  | .sweep => some (if c.more then s else s.checkSizes)
  | .finalize =>
    some (if c.more then { s with frames := .finalizer :: s.frames } else { s with gcstate := .pause })

/-- `luaC_step` and `luaC_fullgc` up to their loops. -/
def State.collect (s : State) (full : Bool) : State :=
  if s.blockGc then s
  else if full then
    let s := if s.gcstate = .pause ∨ s.gcstate = .propagate then
        { s with sweepstrgc := 0, gcstate := .sweepstring } else s
    { s with blockGc := true, frames := .collecting .finish :: s.frames }
  else { s with blockGc := true, frames := .collecting .step :: s.frames }

/-- One iteration of the loops in `luaC_step` and `luaC_fullgc`, or their end. -/
def State.collecting (s : State) (c : Chance) (last : Bool) : Option State :=
  match s.frames with
  | .collecting .step :: frames =>
    if last then some { s with blockGc := false, frames := frames } else s.singlestep c
  | .collecting .finish :: frames =>
    if s.gcstate = .finalize then
      some { s with gcstate := .propagate, frames := .collecting .full :: frames }
    else s.singlestep c
  | .collecting .full :: frames =>
    if s.gcstate = .pause then some { s with blockGc := false, frames := frames }
    else s.singlestep c
  | _ => none

/-! ### Steps -/

/-- What can happen. -/
inductive Event where
  /-- `luaS_newlstr` or `luaS_newrolstr` is called. -/
  | intern (src : Source)
  /-- The allocator returns a block. -/
  | allocated (addr : UInt32)
  /-- An error is thrown, or the allocator has no memory; the innermost frames are left. -/
  | throw (n : ℕ)
  /-- `luaC_step` or `luaC_fullgc` is called, also by the allocator. -/
  | collect (full : Bool)
  /-- A collection goes on. -/
  | collecting (c : Chance) (last : Bool)
  /-- A finalizer returns. -/
  | returns
  /-- The program does not hold a string any more. -/
  | drop (addr : UInt32)
  /-- `luaS_fix`. -/
  | fix (addr : UInt32)
  /-- `set_block_gc` or `unset_block_gc`, by `lua_gc` or the parser. -/
  | block (b : Bool)

/-- A step. -/
def step (s : State) : Event → Option State
  | .intern src => if s.Running then some (s.intern rom src) else none
  | .allocated addr => s.allocated rom addr
  | .throw n =>
    let s' := { s with blockGc := false, frames := s.frames.drop n }
    if (s.Running ∨ s.Allocating) ∧ n ≤ s.frames.length ∧ s'.Running then some s' else none
  | .collect full => if s.Running ∨ s.Allocating then some (s.collect full) else none
  | .collecting c last => s.collecting c last
  | .returns =>
    match s.frames with
    | .finalizer :: frames => some { s with frames := frames }
    | _ => none
  | .drop addr => if s.Running then some { s with held := s.held.filter (· ≠ addr) } else none
  | .fix addr => if s.Running then some (s.remark luaSFix [addr]) else none
  | .block b => if s.Running then some { s with blockGc := b } else none

end ELuaBrain.Lua.Strings
