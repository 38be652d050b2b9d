import Mathlib.Algebra.BigOperators.Group.List.Basic
import Mathlib.Data.Prod.Lex
import Mathlib.Tactic.SplitIfs

/-!
# The collector under a memory limit

What the allocator of Lua, `l_alloc`, sees of the collector: its phases, the bytes that it gives
back, and the memory that the finalizers ask for while it runs. A collector that runs does not start
another one.

What the collector comes upon (objects to mark, garbage, finalizers) and what `realloc` of the C
library says is part of the state, as what is to come. Where a finalizer is refused memory its error
ends the collection.

## Main definitions

* `Global` : the fields of `global_State`, and the bytes in use.
* `lAlloc`, `luaMRealloc` : the allocator, over what it calls of the collector.
* `singlestep`, `luaCStep`, `luaCFullgc` : the collector.

## Main results

* `singlestep_work` : every step is a step to the end of the collection.
-/

namespace ELuaBrain.Lua

/-- `gcstate`. -/
inductive GcState where
  | pause
  | propagate
  | sweepstring
  | sweep
  | finalize
  deriving DecidableEq

/-- The new size of a block, and whether `realloc` has memory for it, at once and after a full
collection. -/
structure Request where
  nsize : UInt32
  first : Bool
  again : Bool

/-- What the collector comes upon in a step. -/
structure Chance where
  /-- Objects that `markroot` marks, and objects that it leaves. -/
  gray : ℕ
  white : ℕ
  /-- Objects that an object refers to, and its size. -/
  found : ℕ
  cost : ℕ
  /-- Lists of strings, other objects and userdata, as the mark phase ends. -/
  strings : ℕ
  rest : ℕ
  tmudata : ℕ
  /-- Bytes that are given back: dead objects, and the unused ends of stacks and tables. -/
  freed : ℕ
  /-- The blocks that a finalizer resizes, with their sizes. -/
  finalizer : List (ℕ × Request)

/-- The fields of `global_State` that matter here. -/
structure Global where
  totalbytes : ℕ
  memlimit : UInt32
  egcmode : ℕ
  gcstepmul : ℕ
  /-- `GCBlockGCBit` of `gcflags`. -/
  blockGc : Bool
  gcstate : GcState
  /-- The work of each phase: objects in `gray`, objects that are not marked, lists of strings and
  objects that are not swept, userdata to finalize. -/
  gray : ℕ
  white : ℕ
  strings : ℕ
  rest : ℕ
  tmudata : ℕ
  /-- The sizes of the blocks of the program; a block of size 0 is `NULL`. -/
  live : List ℕ
  /-- The bytes in blocks of the finalizers, and in blocks that the collector may free. -/
  own : ℕ
  garbage : ℕ
  /-- The most that `totalbytes` has been. -/
  peak : ℕ
  future : ℕ → Chance

/-- `EGC_ON_ALLOC_FAILURE`, `EGC_ON_MEM_LIMIT` and `EGC_ALWAYS`, by their bits. -/
def egcOnAllocFailure : ℕ := 0
def egcOnMemLimit : ℕ := 1
def egcAlways : ℕ := 2

/-! ### The allocator -/

/-- A block of the program, or one of a finalizer with its size. -/
inductive Block where
  | slot (i : ℕ)
  | own (osize : ℕ)

/-- The size of a block. -/
def Global.osize (g : Global) : Block → ℕ
  | .slot i => g.live.getD i 0
  | .own osize => osize

/-- A block with a new size. -/
def Global.resize (g : Global) (b : Block) (nsize : ℕ) : Global :=
  match b with
  | .slot i => { g with live := g.live.set i nsize }
  | .own osize => { g with own := g.own - osize + nsize }

/-- A call that may throw an error, and what follows it. -/
def andThen (a : Bool × Global) (f : Global → Bool × Global) : Bool × Global :=
  if a.1 then f a.2 else a

/-- A call under a condition. -/
def callIf (p : Prop) [Decidable p] (f : Global → Bool × Global) (g : Global) : Bool × Global :=
  if p then f g else (true, g)

/-- `realloc`, and once more after a full collection. -/
def tryRealloc (fullgc : Global → Bool × Global) (r : Request) (g : Global) : Bool × Global :=
  if r.first then (true, g)
  else if g.egcmode.testBit egcOnAllocFailure then
    andThen (fullgc g) fun g => (r.again, g)
  else (false, g)

/-- `l_alloc`, with `luaC_fullgc` and `l_check_memlimit`; the result tells whether it returns a
block (or has freed one). -/
def lAlloc (fullgc : Global → Bool × Global) (check : UInt32 → Global → Bool × Global) (osize : ℕ)
    (r : Request) (g : Global) : Bool × Global :=
  if r.nsize = 0 then (true, g)
  else
    andThen (callIf (g.egcmode.testBit egcAlways) fullgc g) fun g =>
    andThen (callIf (osize < r.nsize.toNat ∧ 0 < g.memlimit ∧ g.egcmode.testBit egcOnMemLimit)
      (check (r.nsize - UInt32.ofNat osize)) g) fun g =>
    tryRealloc fullgc r g

/-- The state behind a request that was granted. -/
def Global.grant (g : Global) (b : Block) (osize nsize : ℕ) : Global :=
  { g.resize b nsize with
    totalbytes := g.totalbytes - osize + nsize
    peak := max g.peak (g.totalbytes - osize + nsize) }

/-- `luaM_realloc_`; the result tells whether it returns. An error resets the collector's lock. -/
def luaMRealloc (fullgc : Global → Bool × Global) (check : UInt32 → Global → Bool × Global)
    (b : Block) (r : Request) (g : Global) : Bool × Global :=
  let a := lAlloc fullgc check (g.osize b) r g
  if a.1 then (true, a.2.grant b (g.osize b) r.nsize.toNat)
  else (false, { a.2 with blockGc := false })

/-- The test of `l_check_memlimit`. -/
def testLimit (needbytes : UInt32) (g : Global) : Bool × Global :=
  (decide (g.totalbytes < (g.memlimit - needbytes).toNat), g)

/-- `luaM_realloc_` while the collector is blocked: `luaC_fullgc` returns at once, and
`l_check_memlimit` only makes its test. -/
def reallocBlocked : Block → Request → Global → Bool × Global :=
  luaMRealloc (fun g => (true, g)) testLimit

/-! ### Steps of the collector -/

/-- A finalizer; it only has blocks that there are. -/
def runFinalizer : List (ℕ × Request) → Global → Bool × Global
  | [], g => (true, g)
  | (osize, r) :: l, g =>
      andThen (callIf (osize ≤ g.own) (reallocBlocked (.own osize) r) g) (runFinalizer l)

/-- Garbage that is given back. -/
def Global.free (g : Global) (n : ℕ) : Global :=
  { g with
    totalbytes := g.totalbytes - min n g.garbage
    garbage := g.garbage - min n g.garbage }

/-- What a step does: whether it ends, its cost, and the state. -/
structure Stepped where
  ok : Bool := true
  cost : ℕ := 0
  g : Global

/-- `GCSWEEPMAX`, `GCSWEEPCOST` and `GCFINALIZECOST`. -/
def gcSweepMax : ℕ := 40
def gcSweepCost : ℕ := 10
def gcFinalizeCost : ℕ := 100

/-- `singlestep`, where the collector comes upon `c`. -/
def singlestepWith (c : Chance) (g : Global) : Stepped :=
  match g.gcstate with
  | .pause => { g := { g with gcstate := .propagate, gray := c.gray, white := c.white } }
  | .propagate =>
      if g.gray ≠ 0 then
        let found := min c.found g.white
        { cost := c.cost
          g := { g with gray := g.gray - 1 + found, white := g.white - found }.free c.freed }
      else
        { g := { g with
            gcstate := .sweepstring
            strings := c.strings
            rest := c.rest
            tmudata := g.tmudata + c.tmudata } }
  | .sweepstring =>
      { cost := gcSweepCost
        g := { g with
          gcstate := if g.strings ≤ 1 then .sweep else .sweepstring
          strings := g.strings - 1 }.free c.freed }
  | .sweep =>
      { cost := gcSweepMax * gcSweepCost
        g := { g with
          gcstate := if g.rest ≤ gcSweepMax then .finalize else .sweep
          rest := g.rest - gcSweepMax }.free c.freed }
  | .finalize =>
      if g.tmudata ≠ 0 then
        let r := runFinalizer c.finalizer { g with tmudata := g.tmudata - 1 }
        { ok := r.1, cost := gcFinalizeCost, g := r.2 }
      else { g := { g with gcstate := .pause } }

/-- `singlestep`. -/
def singlestep (g : Global) : Stepped :=
  singlestepWith (g.future 0) { g with future := fun k => g.future (k + 1) }

/-! ### The end of a collection -/

/-- The phases to come. -/
def GcState.phases : GcState → ℕ
  | .pause => 0
  | .finalize => 1
  | .sweep => 2
  | .sweepstring => 3
  | .propagate => 4

/-- What is left to do in a phase. -/
def Global.left (g : Global) : ℕ :=
  match g.gcstate with
  | .pause => 0
  | .propagate => 2 * g.white + g.gray
  | .sweepstring => g.strings
  | .sweep => g.rest
  | .finalize => g.tmudata

/-- The limit, where it is in force, leaves room for `need` more bytes. -/
def Global.Room (g : Global) (need : UInt32) : Prop :=
  0 < g.memlimit → g.egcmode.testBit egcOnMemLimit = true →
    g.totalbytes < (g.memlimit - need).toNat

/-- While the collector is blocked, `l_alloc` has no effect but its result. -/
theorem lAlloc_blocked (osize : ℕ) (r : Request) (g : Global) :
    ∃ ok, lAlloc (fun g => (true, g)) testLimit osize r g = (ok, g) ∧
      (ok = true → osize < r.nsize.toNat → g.Room (r.nsize - UInt32.ofNat osize)) := by
  have hrealloc : ∃ ok, tryRealloc (fun g => (true, g)) r g = (ok, g) := by
    rw [tryRealloc]
    split_ifs
    · exact ⟨true, rfl⟩
    · exact ⟨r.again, rfl⟩
    · exact ⟨false, rfl⟩
  obtain ⟨ok, hrealloc⟩ := hrealloc
  have halways : callIf (g.egcmode.testBit egcAlways) (fun g => (true, g)) g = (true, g) :=
    ite_self _
  rw [lAlloc]
  by_cases hzero : r.nsize = 0
  · rw [if_pos hzero]
    refine ⟨true, rfl, fun _ hlt => absurd hlt ?_⟩
    rw [hzero]
    exact Nat.not_lt_zero _
  · rw [if_neg hzero, halways, andThen, if_pos rfl, callIf]
    split_ifs with hlimit
    · by_cases hroom : g.totalbytes < (g.memlimit - (r.nsize - UInt32.ofNat osize)).toNat
      · refine ⟨ok, ?_, fun _ _ _ _ => hroom⟩
        rw [testLimit, decide_eq_true hroom, andThen, if_pos rfl, hrealloc]
      · refine ⟨false, ?_, nofun⟩
        rw [testLimit, decide_eq_false hroom, andThen, if_neg nofun]
    · refine ⟨ok, ?_, fun _ hlt hpos hbit => absurd ⟨hlt, hpos, hbit⟩ hlimit⟩
      rw [andThen, if_pos rfl, hrealloc]

/-- What a request can do while the collector is blocked. -/
theorem reallocBlocked_cases (b : Block) (r : Request) (g : Global) :
    reallocBlocked b r g = (false, { g with blockGc := false }) ∨
      (g.osize b < r.nsize.toNat → g.Room (r.nsize - UInt32.ofNat (g.osize b))) ∧
        reallocBlocked b r g = (true, g.grant b (g.osize b) r.nsize.toNat) := by
  obtain ⟨ok, halloc, hroom⟩ := lAlloc_blocked (g.osize b) r g
  rw [reallocBlocked, luaMRealloc, halloc]
  cases ok with
  | true => exact Or.inr ⟨hroom rfl, rfl⟩
  | false => exact Or.inl rfl

/-- A finalizer does not change the phase, nor what is left of it. -/
theorem runFinalizer_phase (l : List (ℕ × Request)) (g : Global) :
    (runFinalizer l g).2.gcstate = g.gcstate ∧ (runFinalizer l g).2.tmudata = g.tmudata := by
  induction l generalizing g with
  | nil => exact ⟨rfl, rfl⟩
  | cons p l ih =>
    rw [runFinalizer, callIf]
    by_cases hown : p.1 ≤ g.own
    · rw [if_pos hown]
      rcases reallocBlocked_cases (.own p.1) p.2 g with h | ⟨-, h⟩
      · rw [h]
        exact ⟨rfl, rfl⟩
      · rw [h]
        exact ih (g.grant (.own p.1) (g.osize (.own p.1)) p.2.nsize.toNat)
    · rw [if_neg hown]
      exact ih g

theorem singlestepWith_work (c : Chance) {g : Global} (h : g.gcstate ≠ .pause) :
    (singlestepWith c g).g.gcstate.phases < g.gcstate.phases ∨
      (singlestepWith c g).g.gcstate = g.gcstate ∧ (singlestepWith c g).g.left < g.left := by
  rw [singlestepWith]
  cases hg : g.gcstate with
  | pause => exact absurd hg h
  | propagate =>
    by_cases hgray : g.gray ≠ 0
    · -- an object turns black, and those that it refers to turn gray
      have hle : min c.found g.white ≤ g.white := Nat.min_le_right _ _
      refine Or.inr ?_
      simp only [if_pos hgray, Global.free, Global.left, hg, true_and]
      omega
    · refine Or.inl ?_
      simp only [if_neg hgray]
      decide
  | sweepstring =>
    by_cases hstrings : g.strings ≤ 1
    · refine Or.inl ?_
      simp only [Global.free, if_pos hstrings]
      decide
    · refine Or.inr ?_
      simp only [Global.free, if_neg hstrings, Global.left, hg, true_and]
      omega
  | sweep =>
    by_cases hrest : g.rest ≤ gcSweepMax
    · refine Or.inl ?_
      simp only [Global.free, if_pos hrest]
      decide
    · refine Or.inr ?_
      have : gcSweepMax = 40 := rfl
      simp only [Global.free, if_neg hrest, Global.left, hg, true_and]
      omega
  | finalize =>
    by_cases htmudata : g.tmudata ≠ 0
    · obtain ⟨hstate, hleft⟩ := runFinalizer_phase c.finalizer
        { g with gcstate := .finalize, tmudata := g.tmudata - 1 }
      refine Or.inr ?_
      simp only [if_pos htmudata, hstate, Global.left, hg, hleft, true_and]
      omega
    · refine Or.inl ?_
      simp only [if_neg htmudata]
      decide

/-- **A step is a step to the end of the collection.** -/
theorem singlestep_work {g : Global} (h : g.gcstate ≠ .pause) :
    (singlestep g).g.gcstate.phases < g.gcstate.phases ∨
      (singlestep g).g.gcstate = g.gcstate ∧ (singlestep g).g.left < g.left :=
  singlestepWith_work (g.future 0) (g := { g with future := fun k => g.future (k + 1) }) h

/-- What is left of a collection. -/
def Global.work (g : Global) : ℕ × ℕ := (g.gcstate.phases, g.left)

theorem singlestep_lex {g : Global} (h : g.gcstate ≠ .pause) :
    Prod.Lex (· < ·) (· < ·) (singlestep g).g.work g.work := by
  rcases singlestep_work h with hlt | ⟨heq, hlt⟩
  · exact Prod.Lex.left _ _ hlt
  · rw [Global.work, Global.work, heq]
    exact Prod.Lex.right _ hlt

/-! ### The loops of the collector -/

/-- The loop of `luaC_step`, behind its first iteration. -/
def moreSteps (lim : ℤ) (g : Global) : Bool × Global :=
  if g.gcstate = .pause then (true, g)
  else if 0 < lim then
    let r := singlestep g
    if r.ok then moreSteps (lim - r.cost) r.g else (false, r.g)
  else (true, g)
termination_by g.work
decreasing_by exact singlestep_lex (by assumption)

/-- `GCSTEPSIZE` and `MAX_LUMEM`. -/
def gcStepSize : ℕ := 1024
def maxLumem : ℕ := 2 ^ 32 - 1 - 2

/-- The cost that `luaC_step` may have. -/
def Global.stepLimit (g : Global) : ℤ :=
  let lim := gcStepSize / 100 * g.gcstepmul
  if lim = 0 then ((maxLumem - 1) / 2 : ℕ) else lim

/-- `luaC_step` if the collector is not blocked. -/
def stepUnblocked (g : Global) : Bool × Global :=
  let r := singlestep { g with blockGc := true }
  andThen (if r.ok then moreSteps (g.stepLimit - r.cost) r.g else (false, r.g)) fun g =>
  (true, { g with blockGc := false })

/-- A loop of `luaC_fullgc`, up to the phase `last`; none of them comes by `GCSpause`. -/
def stepsTo (last : GcState) (g : Global) : Bool × Global :=
  if g.gcstate = last ∨ g.gcstate = .pause then (true, g)
  else
    let r := singlestep g
    if r.ok then stepsTo last r.g else (false, r.g)
termination_by g.work
decreasing_by
  rename_i h _
  exact singlestep_lex fun hpause => h (Or.inr hpause)

/-- The reset of the mark phase in `luaC_fullgc`. -/
def resetMark (g : Global) : Global :=
  if g.gcstate = .pause ∨ g.gcstate = .propagate then
    { g with
      gcstate := .sweepstring
      gray := 0
      strings := (g.future 0).strings
      rest := (g.future 0).rest
      future := fun k => g.future (k + 1) }
  else g

/-- `markroot`. -/
def markroot (g : Global) : Global :=
  { g with
    gcstate := .propagate
    gray := (g.future 0).gray
    white := (g.future 0).white
    future := fun k => g.future (k + 1) }

/-- `luaC_fullgc`. -/
def luaCFullgc (g : Global) : Bool × Global :=
  if g.blockGc then (true, g)
  else
    andThen (stepsTo .finalize (resetMark { g with blockGc := true })) fun g =>
    andThen (stepsTo .pause (markroot g)) fun g =>
    (true, { g with blockGc := false })

end ELuaBrain.Lua
