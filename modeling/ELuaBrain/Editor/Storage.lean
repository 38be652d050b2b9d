import ELuaBrain.Editor.Text

/-!
# The lines in memory stand for a list of strings

The relation between a buffer in memory and a text, and what the operations of `edalloc.c` do to it.
The allocator does not store the size of a line; `edalloc_line_realloc` infers it from the length of
the string. `HoldsLine` says that this never gives more than there is.

## Main definitions

* `HoldsLine` : memory that holds a line.
* `Cells` : the cells of `lines` in use, and those behind them.
* `Accounts` : the allocator and the variables that the text shares with the memory.
* `Lines`, `Stores`, `Represents` : a buffer in memory that stands for a text.

## Main results

* `lineRealloc_spec`, `changeLines_spec`, `addLine_spec` : the rules of the allocator.
-/

namespace ELuaBrain.Editor

/-! ### Zones -/

theorem le_edallocRoundSize (n : ℕ) : n ≤ edallocRoundSize n := by
  simp only [edallocRoundSize, zoneSize]
  omega

theorem edallocRoundSize_mono {n k : ℕ} (h : n ≤ k) :
    edallocRoundSize n ≤ edallocRoundSize k := by
  simp only [edallocRoundSize, zoneSize]
  omega

theorem edallocRoundSize_pos (n : ℕ) : edallocRoundSize (n + 1) ≠ 0 := by
  have := le_edallocRoundSize (n + 1)
  omega

/-! ### The relation -/

/-- Memory that holds the string `t`, and has the size that is inferred from it. -/
structure HoldsLine (m : List UInt8) (t : Str) : Prop where
  str : CString m t
  size_le : edallocRoundSize (t.length + 1) ≤ m.length

/-- Lines in memory. -/
abbrev Blocks := List (Ptr × List UInt8)

/-- The cells that hold the addresses of some lines. -/
def Blocks.cells (l : Blocks) : List (Option Ptr) := l.map fun b => some b.1

@[simp] theorem Blocks.cells_append (l l' : Blocks) :
    Blocks.cells (l ++ l') = Blocks.cells l ++ Blocks.cells l' := List.map_append

@[simp] theorem Blocks.cells_cons (p : Ptr) (m : List UInt8) (l : Blocks) :
    Blocks.cells ((p, m) :: l) = some p :: Blocks.cells l := rfl

@[simp] theorem Blocks.cells_length (l : Blocks) : (Blocks.cells l).length = l.length :=
  List.length_map _

/-- The lines `l` hold the strings `ts`. -/
abbrev Blocks.Hold (l : Blocks) (ts : List Str) : Prop :=
  List.Forall₂ (fun b t => HoldsLine b.2 t) l ts

/-- The cells of `lines` that are in use, and those behind them, of which there is at least one. -/
structure Cells (s : Sys) (cells junk : List (Option Ptr)) : Prop where
  lines : s.lines = some (cells ++ junk)
  junk_ne : junk ≠ []
  fileLines : s.fileLines = cells.length
  allocated : s.allocatedLines = cells.length + junk.length

/-- The heap and the text agree on the requests to come. -/
structure Matches (h : Heap) (e : Ed) : Prop where
  answers : ∀ n, e.answers n = (h.answers n).granted
  calls : e.calls = h.calls

/-- What the memory and the text have in common. -/
structure Accounts (s : Sys) (e : Ed) : Prop where
  matches_ : Matches s.heap e
  allocated : e.allocated = s.allocatedLines
  ui : e.ui = s.ui
  gets : ∀ g ∈ s.gets, 0 ≤ g.1 ∧ g.1 < g.2

/-- The lines `lns` of a buffer in memory hold the text; the other lines that are allocated are
`l`. -/
structure Lines (s : Sys) (e : Ed) (lns l : Blocks) (junk : List (Option Ptr)) : Prop where
  cells : Cells s lns.cells junk
  text : lns.Hold e.text
  owns : s.heap.Owns (lns ++ l)
  accounts : Accounts s e

/-- A buffer in memory with the lines `lns` and the block buffer `bls` that stands for a text. No
other line is allocated, and none belongs to both. -/
structure Stores (s : Sys) (e : Ed) (lns bls : Blocks) (junk : List (Option Ptr)) : Prop
    extends Lines s e lns bls junk where
  sellines : s.sellines = e.block.map fun _ => bls.cells
  block : bls.Hold (e.block.getD [])

/-- A buffer in memory that stands for a text. -/
def Represents (s : Sys) (e : Ed) : Prop := ∃ lns bls junk, Stores s e lns bls junk

variable {s : Sys} {e e' : Ed} {lns bls : Blocks} {junk : List (Option Ptr)}

/-! ### Steps -/

/-- The same buffer on another heap. -/
def Sys.withHeap (s : Sys) (h : Heap) : Sys := { s with heap := h }

@[simp] theorem Sys.withHeap_heap (s : Sys) (h : Heap) : (s.withHeap h).heap = h := rfl

@[simp] theorem Sys.withHeap_withHeap (s : Sys) (h h' : Heap) :
    (s.withHeap h).withHeap h' = s.withHeap h' := rfl

theorem onHeap_eq {α : Type} {c : Comp Heap α} {a : α} {h' : Heap}
    (h : c s.heap = some (a, h')) : onHeap c s = some (a, s.withHeap h') := by
  rw [onHeap, h]
  rfl

/-- The next computation on the heap. -/
theorem onHeap_withHeap {α : Type} {c : Comp Heap α} {a : α} {h h' : Heap}
    (hc : c h = some (a, h')) : onHeap c (s.withHeap h) = some (a, s.withHeap h') := onHeap_eq hc

theorem offset_eq {i : ℤ} (h : 0 ≤ i) : offset i s = some (i.toNat, s) := if_pos h

theorem strlen_eq {l : Blocks} {p : Ptr} {m : List UInt8} {t : Str} {off : ℕ}
    (ho : s.heap.Owns l) (hm : (p, m) ∈ l) (hs : CString m t) (hle : off ≤ t.length) :
    strlen p off s = some (t.length - off, s) := by
  rw [strlen, Comp.bind_eq (onHeap_eq (ho.string hm hs hle)), Comp.pure_apply, List.length_drop]
  rfl

theorem strlen_withHeap {h : Heap} {l : Blocks} {p : Ptr} {m : List UInt8} {t : Str} {off : ℕ}
    (ho : h.Owns l) (hm : (p, m) ∈ l) (hs : CString m t) (hle : off ≤ t.length) :
    strlen p off (s.withHeap h) = some (t.length - off, s.withHeap h) :=
  strlen_eq (s := s.withHeap h) ho hm hs hle

theorem Matches.called {h : Heap} (hm : Matches h e) :
    Matches h.called { e with calls := e.calls + 1 } where
  answers := hm.answers
  calls := congrArg (· + 1) hm.calls

theorem Matches.put {h : Heap} (hm : Matches h e) (p : Ptr) (m : Option (List UInt8)) :
    Matches (h.put p m) e := ⟨hm.answers, hm.calls⟩

theorem Accounts.setHeap (ha : Accounts s e) {h : Heap} {c : ℕ} (hm : Matches h e')
    (he' : e' = { e with calls := c }) : Accounts (s.withHeap h) e' := by
  subst he'
  exact ⟨hm, ha.allocated, ha.ui, ha.gets⟩

theorem Accounts.setText (ha : Accounts s e) (text : List Str) :
    Accounts s { e with text := text } :=
  ⟨⟨ha.matches_.answers, ha.matches_.calls⟩, ha.allocated, ha.ui, ha.gets⟩

theorem Cells.setHeap {cells : List (Option Ptr)} (hc : Cells s cells junk) (h : Heap) :
    Cells (s.withHeap h) cells junk := ⟨hc.lines, hc.junk_ne, hc.fileLines, hc.allocated⟩

theorem Matches.eq_calls {h : Heap} (hm : Matches h e) : e = { e with calls := h.calls } := by
  rw [← hm.calls]

theorem Ed.request_eq_some {r : Bool} :
    Ed.request e = some (r, e') ↔ r = e.answers e.calls ∧ e' = { e with calls := e.calls + 1 } := by
  simp only [Ed.request, Option.some.injEq, Prod.mk.injEq, eq_comm]

theorem Ed.guard_eq_some {p : Prop} [Decidable p] :
    Ed.guard p e = some ((), e') ↔ p ∧ e' = e := by
  unfold Ed.guard
  split
  next h => simp [h, eq_comm]
  next h => simp [h]

theorem Ed.line_eq_some {id : ℤ} {t : Str} :
    Ed.line id e = some (t, e') ↔ 0 ≤ id ∧ e.text[id.toNat]? = some t ∧ e' = e := by
  unfold Ed.line
  split
  next h =>
    cases e.text[id.toNat]? with
    | none => simp
    | some t' => simp [h, eq_comm]
  next h => simp [h]

/-- A request whose memory is not a line. -/
theorem request_spec {r : Bool} (hm : Matches s.heap e) (hq : Ed.request e = some (r, e')) :
    onHeap Heap.request s = some (r, s.withHeap s.heap.called) ∧
      e' = { e with calls := s.heap.called.calls } ∧ Matches s.heap.called e' := by
  obtain ⟨rfl, rfl⟩ := Ed.request_eq_some.mp hq
  refine ⟨onHeap_eq ?_, by rw [hm.calls]; rfl, hm.called⟩
  rw [Heap.request, hm.answers, hm.calls]

/-! ### Resizing a line -/

/-- **`edalloc_line_realloc`.** The first bytes of the line stay, and it has at least the size asked
for. -/
theorem lineRealloc_spec {p : Ptr} {m : List UInt8} {t : Str} {l : Blocks} {r : Bool}
    (hm : Matches s.heap e) (ho : s.heap.Owns ((p, m) :: l)) (hl : HoldsLine m t) (size : ℕ)
    (hq : Ed.resize t.length size e = some (r, e')) :
    ∃ h', Matches h' e' ∧ e' = { e with calls := h'.calls } ∧
      ((r = false ∧ edallocLineRealloc p size s = some (none, s.withHeap h') ∧
        h'.Owns ((p, m) :: l)) ∨
      (r = true ∧ ∃ p' m', edallocLineRealloc p size s = some (some p', s.withHeap h') ∧
        h'.Owns ((p', m') :: l) ∧ edallocRoundSize size ≤ m'.length ∧
        ∀ k, k ≤ t.length + 1 → k ≤ edallocRoundSize size → m'.take k = (t ++ [0]).take k)) := by
  have hlen := strlen_eq ho List.mem_cons_self hl.str (Nat.zero_le _)
  have htake : ∀ k, k ≤ t.length + 1 → m.take k = (t ++ [0]).take k := by
    intro k hk
    rw [← hl.str.take, List.take_take, Nat.min_eq_left hk]
  unfold Ed.resize at hq
  rw [edallocLineRealloc, Comp.bind_eq hlen, Nat.sub_zero]
  split at hq
  next heq =>
    obtain ⟨rfl, rfl⟩ := Prod.mk.inj (Option.some.inj hq)
    refine ⟨s.heap, hm, by rw [← hm.calls], .inr ⟨rfl, p, m, ?_, ho, ?_, fun k hk _ => htake k hk⟩⟩
    · rw [if_pos heq, Comp.pure_apply]
      rfl
    · exact heq ▸ hl.size_le
  next heq =>
    rw [if_neg heq]
    obtain ⟨hr, rfl⟩ := Ed.request_eq_some.mp hq
    rw [hm.answers, hm.calls] at hr
    cases r with
    | false =>
      refine ⟨s.heap.called, hm.called, by rw [hm.calls]; rfl, .inl ⟨rfl, ?_, ho.called⟩⟩
      exact onHeap_eq (ho.realloc_refused hr.symm _)
    | true =>
      obtain ⟨p', m', h', hc, hlen', htake', ho', hans, hcalls⟩ :=
        ho.realloc hr.symm (edallocRoundSize size)
      refine ⟨h', ⟨fun n => by rw [hans]; exact hm.answers n, by rw [hcalls, hm.calls]⟩,
        by rw [hcalls, hm.calls],
          .inr ⟨rfl, p', m', onHeap_eq hc, ho', hlen'.ge, fun k hk hk' => ?_⟩⟩
      -- the line was not shorter than its string
      have hkm : k ≤ m.length := hk.trans (hl.str.length_lt)
      calc m'.take k = (m'.take m.length).take k := by rw [List.take_take, Nat.min_eq_left hkm]
        _ = m.take k := by rw [htake', List.take_take, Nat.min_eq_left hk']
        _ = _ := htake k hk

/-- **`edalloc_line_malloc`.** -/
theorem lineMalloc_spec {l : Blocks} {r : Bool} (hm : Matches s.heap e) (ho : s.heap.Owns l)
    (size : ℕ) (hq : Ed.request e = some (r, e')) :
    ∃ h', Matches h' e' ∧ e' = { e with calls := h'.calls } ∧
      ((r = false ∧ edallocLineMalloc (size + 1) s = some (none, s.withHeap h') ∧
        h'.Owns l) ∨
      (r = true ∧ ∃ p m, edallocLineMalloc (size + 1) s = some (some p, s.withHeap h') ∧
        h'.Owns ((p, m) :: l) ∧ m.length = edallocRoundSize (size + 1))) := by
  obtain ⟨hr, rfl⟩ := Ed.request_eq_some.mp hq
  rw [hm.answers, hm.calls] at hr
  rw [edallocLineMalloc, if_neg (edallocRoundSize_pos size)]
  cases r with
  | false =>
    refine ⟨s.heap.called, hm.called, by rw [hm.calls]; rfl, .inl ⟨rfl, ?_, ho.called⟩⟩
    exact onHeap_eq (Heap.malloc_refused hr.symm _)
  | true =>
    obtain ⟨p, m, h', hc, hlen, ho', hans, hcalls⟩ :=
      ho.malloc hr.symm (edallocRoundSize (size + 1))
    exact ⟨h', ⟨fun n => by rw [hans]; exact hm.answers n, by rw [hcalls, hm.calls]⟩,
      by rw [hcalls, hm.calls], .inr ⟨rfl, p, m, onHeap_eq hc, ho', hlen⟩⟩

/-! ### The array of the lines -/

/-- The array of the lines is resized; its first cells stay. -/
theorem reserve_spec {arr : List (Option Ptr)} {n : ℕ} (hlines : s.lines = some arr)
    (hm : Matches s.heap e) (hq : Ed.reserve n e = some ((), e')) :
    reallocLines (n + 10) s =
        some (true, { s with
          heap := s.heap.called
          lines := some (arr.take (n + 10) ++ List.replicate (n + 10 - arr.length) none) }) ∧
      e' = { e with allocated := n + extraLines, calls := s.heap.called.calls } ∧
      Matches s.heap.called e' := by
  rw [Ed.reserve, Comp.bind_eq (Comp.modify_apply _ _), Comp.bind_eq_some] at hq
  obtain ⟨r, e₁, hreq, hq⟩ := hq
  obtain ⟨rfl, rfl⟩ := Ed.guard_eq_some.mp hq
  obtain ⟨hr, rfl, hm'⟩ := request_spec
    (e := { e with allocated := n + extraLines }) ⟨hm.answers, hm.calls⟩ hreq
  refine ⟨?_, rfl, hm'⟩
  rw [reallocLines, Comp.bind_eq hr, Comp.bind_eq (Comp.modify_apply _ _), Comp.pure_apply]
  have hlen : n + 10 - (arr.take (n + 10)).length = n + 10 - arr.length := by
    rw [List.length_take]
    omega
  simp only [↓reduceIte, Sys.withHeap, hlines, Option.getD_some, hlen]

/-- **`edalloc_buffer_change_lines` for one more line.** -/
theorem grow_spec {cells : List (Option Ptr)} (hc : Cells s cells junk) (ha : Accounts s e)
    (hlen : e.text.length = cells.length) (hq : Ed.grow e = some ((), e')) :
    ∃ h' a junk', edallocBufferChangeLines 1 s =
        some (true, { s with
          heap := h', lines := some (cells ++ junk'), fileLines := cells.length + 1,
          allocatedLines := a }) ∧
      2 ≤ junk'.length ∧ junk'.head? = junk.head? ∧ a = cells.length + junk'.length ∧
      (∀ l, s.heap.Owns l → h'.Owns l) ∧ Matches h' e' ∧
      e' = { e with allocated := a, calls := h'.calls } := by
  have hpos : 0 < junk.length := List.length_pos_iff.mpr hc.junk_ne
  rw [Ed.grow, Comp.bind_eq (Comp.get_apply _)] at hq
  rw [edallocBufferChangeLines, Comp.bind_eq (Comp.modify_apply _ _),
    Comp.bind_eq (Comp.get_apply _)]
  simp only [Int.zero_lt_one, ↓reduceIte, gt_iff_lt, hc.fileLines]
  rw [ha.allocated, hlen] at hq
  split at hq
  next hge =>
    rw [if_pos hge, Comp.bind_eq (Comp.modify_apply _ _)]
    rw [show ((cells.length : ℤ) + 1) = (cells.length + 1 : ℕ) from rfl] at hq ⊢
    obtain ⟨hr, rfl, hm⟩ := reserve_spec
      (s := { s with fileLines := (cells.length + 1 : ℕ),
                     allocatedLines := (cells.length + 1 : ℕ) + extraLines })
      hc.lines ha.matches_ hq
    have htake : (cells ++ junk).take (cells.length + 1 + 10) =
        cells ++ junk.take 11 := by
      rw [List.take_append, List.take_of_length_le (by omega)]
      congr 2
      omega
    rw [htake, List.append_assoc] at hr
    refine ⟨_, _, junk.take 11 ++ List.replicate (cells.length + 11 - (cells ++ junk).length) none,
      hr, ?_, ?_, ?_, fun l ho => ho.called, hm, rfl⟩
    · simp only [List.length_append, List.length_take, List.length_replicate]
      omega
    · obtain ⟨x, junk, rfl⟩ := List.exists_cons_of_ne_nil hc.junk_ne
      rfl
    · simp only [List.length_append, List.length_take, List.length_replicate, extraLines]
      omega
  next hlt =>
    rw [if_neg hlt, Comp.pure_apply]
    obtain ⟨-, rfl⟩ := Prod.mk.inj (Option.some.inj hq)
    refine ⟨s.heap, s.allocatedLines, junk, ?_, ?_, rfl, hc.allocated, fun _ ho => ho, ha.matches_,
      ?_⟩
    · rw [← hc.lines]
    · have := hc.allocated
      omega
    · rw [← ha.matches_.calls, ← ha.allocated]

/-- **`edalloc_buffer_change_lines` for one line less.** -/
theorem shrink_spec (cells : List (Option Ptr)) (hlines : s.lines = some (cells ++ junk))
    (hjunk : junk ≠ []) (hfile : s.fileLines = cells.length + 1)
    (halloc : s.allocatedLines = cells.length + junk.length) (hm : Matches s.heap e)
    (hea : e.allocated = s.allocatedLines) (hlen : e.text.length = cells.length)
    (hq : Ed.shrink e = some ((), e')) :
    ∃ h' a junk', edallocBufferChangeLines (-1) s =
        some (true, { s with
          heap := h', lines := some (cells ++ junk'), fileLines := cells.length,
          allocatedLines := a }) ∧
      junk' ≠ [] ∧ a = cells.length + junk'.length ∧ (∀ l, s.heap.Owns l → h'.Owns l) ∧
      Matches h' e' ∧ e' = { e with allocated := a, calls := h'.calls } := by
  have hone : s.fileLines + -1 = cells.length := by omega
  have hneg : ¬ (-1 : ℤ) > 0 := by omega
  rw [Ed.shrink, Comp.bind_eq (Comp.get_apply _)] at hq
  rw [edallocBufferChangeLines, Comp.bind_eq (Comp.modify_apply _ _),
    Comp.bind_eq (Comp.get_apply _)]
  simp only [hone, hneg, ↓reduceIte]
  rw [hea, hlen] at hq
  split at hq
  next hlt =>
    rw [if_pos hlt, Comp.bind_eq (Comp.modify_apply _ _)]
    obtain ⟨hr, rfl, hm'⟩ := reserve_spec
      (s := { s with fileLines := cells.length, allocatedLines := cells.length + extraLines })
      hlines hm hq
    have htake : (cells ++ junk).take (cells.length + 10) = cells ++ junk.take 10 := by
      rw [List.take_append, List.take_of_length_le (by omega)]
      congr 2
      omega
    rw [htake, List.append_assoc] at hr
    have hpos : 0 < junk.length := List.length_pos_iff.mpr hjunk
    refine ⟨_, _, junk.take 10 ++ List.replicate (cells.length + 10 - (cells ++ junk).length) none,
      hr, ?_, ?_, fun l ho => ho.called, hm', rfl⟩
    · rw [← List.length_pos_iff]
      simp only [List.length_append, List.length_take, List.length_replicate]
      omega
    · simp only [List.length_append, List.length_take, List.length_replicate, extraLines]
      omega
  next hge =>
    rw [if_neg hge, Comp.pure_apply]
    obtain ⟨-, rfl⟩ := Prod.mk.inj (Option.some.inj hq)
    refine ⟨s.heap, s.allocatedLines, junk, ?_, hjunk, halloc, fun _ ho => ho, hm, ?_⟩
    · rw [← hlines]
    · rw [← hm.calls, ← hea]

/-- A cell is written behind the first `i` cells. -/
theorem set_take_append {α : Type} (arr l : List α) {i : ℕ} (hi : i < arr.length) (x : α) :
    (arr.take (i + 1) ++ l).set i x = arr.take i ++ x :: l := by
  have hlen : (arr.take (i + 1)).length = i + 1 := by
    rw [List.length_take]
    omega
  rw [List.set_eq_take_append_cons_drop, if_pos (by rw [List.length_append]; omega),
    List.take_append_of_le_length (by omega), List.take_take, Nat.min_eq_left (Nat.le_succ i),
    List.drop_left' hlen]

theorem edutilsLineSet_eq {arr : List (Option Ptr)} {i : ℕ} (hlines : s.lines = some arr)
    (hi : i < arr.length) (x : Option Ptr) :
    edutilsLineSet i x s = some ((), { s with lines := some (arr.set i x) }) := by
  simp only [edutilsLineSet, hlines]
  rw [if_pos ⟨by omega, by omega⟩, Int.toNat_natCast]

/-- **`edalloc_buffer_add_line`.** -/
theorem addLine_spec {cells : List (Option Ptr)} (hc : Cells s cells junk) (ha : Accounts s e)
    (hlen : e.text.length = cells.length) (hq : Ed.grow e = some ((), e')) {i : ℕ}
    (hi : i ≤ cells.length) (x : Option Ptr) :
    ∃ h' a junk', edallocBufferAddLine i x s =
        some (true, { s with
          heap := h', lines := some (cells.take i ++ x :: cells.drop i ++ junk'),
          fileLines := cells.length + 1, allocatedLines := a }) ∧
      junk' ≠ [] ∧ a = cells.length + 1 + junk'.length ∧ (∀ l, s.heap.Owns l → h'.Owns l) ∧
      Matches h' e' ∧ e' = { e with allocated := a, calls := h'.calls } := by
  obtain ⟨h', a, junk', hch, hjunk', -, ha', howns, hm, he'⟩ := grow_spec hc ha hlen hq
  have hne : junk'.drop 1 ≠ [] := by
    rw [← List.length_pos_iff, List.length_drop]
    omega
  have halen : a = cells.length + 1 + (junk'.drop 1).length := by
    rw [List.length_drop]
    omega
  refine ⟨h', a, junk'.drop 1, ?_, hne, halen, howns, hm, he'⟩
  have hdrop : (cells ++ junk').drop (cells.length + 1) = junk'.drop 1 := by
    rw [← List.drop_drop, List.drop_left]
  have htake : (cells ++ junk').take i = cells.take i := List.take_append_of_le_length hi
  rw [edallocBufferAddLine, Comp.bind_eq hch]
  simp only [↓reduceIte]
  rw [Comp.bind_eq (Comp.get_apply _), Comp.bind_eq (offset_eq (by omega)), Int.toNat_natCast]
  split
  next hlt =>
    have hlt' : i < cells.length := by
      have : ((cells.length : ℤ) + 1 - 1) = cells.length := by omega
      simp only [this] at hlt
      omega
    have hmove : moveCells (i + 1) i ((cells.length : ℤ) + 1 - 1).toNat
        { s with
          heap := h', lines := some (cells ++ junk'), fileLines := cells.length + 1,
          allocatedLines := a } =
        some ((), { s with
          heap := h'
          lines := some ((cells ++ junk').take (i + 1) ++ (cells.drop i ++ junk'.drop 1))
          fileLines := cells.length + 1
          allocatedLines := a }) := by
      rw [show ((cells.length : ℤ) + 1 - 1).toNat = cells.length by omega]
      simp only [moveCells, List.length_append]
      rw [if_pos ⟨by omega, by omega, by omega⟩,
        show i + 1 + (cells.length - i) = cells.length + 1 by omega, List.take_left, hdrop,
        List.append_assoc]
    have hlen' : i < ((cells ++ junk').take (i + 1) ++ (cells.drop i ++ junk'.drop 1)).length := by
      simp only [List.length_append, List.length_take]
      omega
    rw [Comp.bind_eq hmove, Comp.bind_eq (edutilsLineSet_eq rfl hlen' x), Comp.pure_apply,
      set_take_append _ _ (by rw [List.length_append]; omega), htake, List.append_assoc]
    rfl
  next hge =>
    obtain rfl : i = cells.length := by
      have : ((cells.length : ℤ) + 1 - 1) = cells.length := by omega
      simp only [this] at hge
      omega
    have hlen' : cells.length < (cells ++ junk').length := by
      rw [List.length_append]
      omega
    rw [Comp.bind_eq (edutilsLineSet_eq rfl hlen' x), Comp.pure_apply,
      List.set_eq_take_append_cons_drop, if_pos hlen', htake, hdrop,
      List.drop_length, List.append_assoc]
    rfl

theorem lineCell_eq {pre post : List (Option Ptr)} {p : Ptr}
    (hc : Cells s (pre ++ some p :: post) junk) : lineCell pre.length s = some (p, s) := by
  simp only [lineCell, hc.lines, Int.toNat_natCast]
  rw [if_pos (by omega), List.append_assoc, List.getElem?_append_right (Nat.le_refl _),
    Nat.sub_self]
  rfl

/-- **`edalloc_buffer_remove_line`.** -/
theorem bufferRemoveLine_spec {pre post : List (Option Ptr)} {p : Ptr} {m : List UInt8}
    {l : Blocks} (hc : Cells s (pre ++ some p :: post) junk) (ha : Accounts s e)
    (ho : s.heap.Owns ((p, m) :: l)) (hlen : e.text.length = pre.length + post.length)
    (hq : Ed.shrink e = some ((), e')) :
    ∃ h' a junk', edallocBufferRemoveLine pre.length s =
        some ((), { s with
          heap := h', lines := some (pre ++ post ++ junk'),
          fileLines := (pre.length + post.length : ℕ), allocatedLines := a }) ∧
      junk' ≠ [] ∧ a = (pre ++ post).length + junk'.length ∧ h'.Owns l ∧
      Matches h' e' ∧ e' = { e with allocated := a, calls := h'.calls } := by
  obtain ⟨hfree, ho'⟩ := ho.free
  have hfile : s.fileLines = (pre.length + post.length + 1 : ℕ) := by
    rw [hc.fileLines, List.length_append, List.length_cons, Nat.add_assoc]
  -- the last cell in use stays behind the others
  obtain ⟨z, hz⟩ : ∃ z, (some p :: post).drop post.length = [z] := by
    rw [← List.length_eq_one_iff, List.length_drop, List.length_cons]
    omega
  have hdrop : (pre ++ some p :: post ++ junk).drop (pre.length + post.length) = z :: junk := by
    rw [List.append_assoc, ← List.drop_drop, List.drop_left,
      List.drop_append_of_le_length (by rw [List.length_cons]; omega), hz]
    rfl
  have hmove : (if (pre.length : ℤ) < s.fileLines - 1 then
        moveCells pre.length (pre.length + 1) s.fileLines.toNat
      else pure ()) (s.withHeap (s.heap.put p none)) =
        some ((), { s with
          heap := s.heap.put p none, lines := some (pre ++ post ++ (z :: junk)) }) := by
    split
    next hlt =>
      simp only [moveCells, Sys.withHeap, hc.lines, hfile, Int.toNat_natCast, List.length_append,
        List.length_cons]
      have htake : (pre ++ some p :: post ++ junk).take (pre.length + post.length + 1) =
          pre ++ some p :: post := by
        rw [List.take_left' (by rw [List.length_append, List.length_cons]; omega)]
      rw [if_pos ⟨by omega, by omega, by omega⟩,
        show pre.length + (pre.length + post.length + 1 - (pre.length + 1)) =
          pre.length + post.length by omega, htake, hdrop, List.append_assoc pre, List.take_left,
        ← List.drop_drop, List.drop_left]
      rfl
    next hge =>
      obtain rfl : post = [] := by
        rw [← List.length_eq_zero_iff]
        omega
      obtain rfl : some p = z := by simpa using hz
      rw [Comp.pure_apply, Sys.withHeap, hc.lines, List.append_nil, List.append_assoc]
      rfl
  have halloc : s.allocatedLines = (pre ++ post).length + (z :: junk).length := by
    have := hc.allocated
    simp only [List.length_append, List.length_cons] at this ⊢
    omega
  obtain ⟨h', a, junk', hch, hne, ha', howns, hm, he'⟩ := shrink_spec (pre ++ post)
    (s := { s with heap := s.heap.put p none, lines := some (pre ++ post ++ (z :: junk)) })
    rfl (List.cons_ne_nil _ _) (by rw [hfile, List.length_append]; rfl) halloc
    ⟨ha.matches_.answers, ha.matches_.calls⟩ ha.allocated
    (by rw [hlen, List.length_append]) hq
  refine ⟨h', a, junk', ?_, hne, ha', howns l ho', hm, he'⟩
  rw [edallocBufferRemoveLine, Comp.bind_eq (Comp.get_apply _), Comp.bind_eq (lineCell_eq hc),
    Comp.bind_eq (onHeap_eq hfree), Comp.bind_eq (offset_eq (by omega)), Int.toNat_natCast]
  rw [← List.length_append]
  split
  next hlt =>
    rw [if_pos hlt] at hmove
    exact (Comp.bind_eq hmove).trans (Comp.bind_eq hch)
  next hge =>
    rw [if_neg hge, Comp.pure_apply] at hmove
    obtain ⟨-, hs⟩ := Prod.mk.inj (Option.some.inj hmove)
    rw [hs]
    exact Comp.bind_eq hch

end ELuaBrain.Editor
