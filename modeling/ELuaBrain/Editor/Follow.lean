import ELuaBrain.Editor.Storage

/-!
# The memory follows the text

Each operation of the editor on a buffer in memory does what the operation on lists of strings does,
wherever the latter is defined: no address outside the memory of a line is read or written, the new
lines are those of the new text, and no line is lost or used twice. By `Program.follows` the same
holds of the whole code.

## Main results

* `perform_follows` : every operation follows its counterpart.
* `run_follows` : every program does.
-/

namespace ELuaBrain.Editor

variable {s : Sys} {e e' : Ed} {lns bls pre post : Blocks} {junk : List (Option Ptr)} {p : Ptr}
  {m : List UInt8} {t : Str}

/-! ### One line of many -/

theorem Blocks.Hold.split {l : Blocks} {ts : List Str} (h : l.Hold ts) {i : ℕ}
    (hi : ts[i]? = some t) :
    ∃ pre p m post, l = pre ++ (p, m) :: post ∧ pre.length = i ∧ HoldsLine m t ∧
      Blocks.Hold pre (ts.take i) ∧ Blocks.Hold post (ts.drop (i + 1)) := by
  induction h generalizing i with
  | nil => simp at hi
  | @cons b t' l ts hb h ih =>
    cases i with
    | zero =>
      obtain rfl : t' = t := by simpa using hi
      exact ⟨[], b.1, b.2, l, rfl, rfl, hb, .nil, h⟩
    | succ i =>
      obtain ⟨pre, p, m, post, rfl, rfl, hm, hpre, hpost⟩ := ih (by simpa using hi)
      exact ⟨b :: pre, p, m, post, rfl, rfl, hm, .cons hb hpre, hpost⟩

/-- The line `i` of a buffer, with the lines before and behind it. -/
theorem Stores.split (h : Stores s e lns bls junk) {i : ℕ} (hi : e.text[i]? = some t) :
    ∃ pre p m post, Stores s e (pre ++ (p, m) :: post) bls junk ∧ pre.length = i ∧ HoldsLine m t ∧
      Blocks.Hold pre (e.text.take i) ∧ Blocks.Hold post (e.text.drop (i + 1)) := by
  obtain ⟨pre, p, m, post, rfl, hlen, hm, hpre, hpost⟩ := h.text.split hi
  exact ⟨pre, p, m, post, h, hlen, hm, hpre, hpost⟩

theorem Stores.text_length (h : Stores s e lns bls junk) : e.text.length = lns.length :=
  h.text.length_eq.symm

/-- The line comes first, in any order of the others. -/
theorem Stores.owns_line (h : Stores s e (pre ++ (p, m) :: post) bls junk) :
    s.heap.Owns ((p, m) :: (pre ++ post ++ bls)) := by
  refine h.owns.perm ?_
  rw [List.append_assoc, List.append_assoc, List.cons_append]
  exact List.perm_middle

theorem Stores.owns_of_line {h' : Heap} (ho : h'.Owns ((p, m) :: (pre ++ post ++ bls))) :
    h'.Owns (pre ++ (p, m) :: post ++ bls) := by
  refine ho.perm ?_
  rw [List.append_assoc, List.append_assoc, List.cons_append]
  exact List.perm_middle.symm

theorem Stores.lineCell (h : Stores s e (pre ++ (p, m) :: post) bls junk) :
    lineCell pre.length s = some (p, s) := by
  have hc := h.cells
  rw [Blocks.cells_append, Blocks.cells_cons] at hc
  have := lineCell_eq hc
  rwa [Blocks.cells_length] at this

/-- A line that is read: the call is recorded. -/
def Sys.got (s : Sys) (id : ℤ) : Sys := { s with gets := (id, s.fileLines) :: s.gets }

theorem Lines.got {l : Blocks} (h : Lines s e lns l junk) {i : ℕ} (hi : i < lns.length) :
    Lines (s.got i) e lns l junk where
  cells := ⟨h.cells.lines, h.cells.junk_ne, h.cells.fileLines, h.cells.allocated⟩
  text := h.text
  owns := h.owns
  accounts := by
    refine ⟨h.accounts.matches_, h.accounts.allocated, h.accounts.ui, fun g hg => ?_⟩
    obtain rfl | hg := List.mem_cons.mp hg
    · have := h.cells.fileLines
      rw [Blocks.cells_length] at this
      exact ⟨by omega, by simp only; omega⟩
    · exact h.accounts.gets g hg

theorem Stores.edutilsLineGet (h : Stores s e (pre ++ (p, m) :: post) bls junk) :
    edutilsLineGet pre.length s = some (p, s.got pre.length) ∧
      Stores (s.got pre.length) e (pre ++ (p, m) :: post) bls junk := by
  have hg : Stores (s.got pre.length) e (pre ++ (p, m) :: post) bls junk :=
    ⟨h.toLines.got (by rw [List.length_append, List.length_cons]; omega), h.sellines, h.block⟩
  exact ⟨hg.lineCell, hg⟩

/-- Another string in the memory of one line, at the same or another address. -/
theorem Stores.replaceLine (h : Stores s e (pre ++ (p, m) :: post) bls junk) {h' : Heap} {p' : Ptr}
    {m' : List UInt8} {t' : Str} (ho : h'.Owns ((p', m') :: (pre ++ post ++ bls)))
    (hm : Matches h' e') (he' : e' = { e with calls := h'.calls }) (hl : HoldsLine m' t') :
    Stores { s.withHeap h' with lines := some (Blocks.cells (pre ++ (p', m') :: post) ++ junk) }
      { e' with text := e'.text.set pre.length t' } (pre ++ (p', m') :: post) bls junk := by
  subst he'
  have hlen : pre.length < e.text.length := by
    rw [h.text_length, List.length_append, List.length_cons]
    omega
  refine ⟨⟨⟨rfl, h.cells.junk_ne, ?_, ?_⟩, ?_, Stores.owns_of_line ho, ⟨⟨hm.answers, hm.calls⟩,
    h.accounts.allocated, h.accounts.ui, h.accounts.gets⟩⟩, h.sellines, h.block⟩
  · have := h.cells.fileLines
    simpa [Sys.withHeap] using this
  · have := h.cells.allocated
    simpa [Sys.withHeap] using this
  · -- the strings of the other lines
    have hpre := List.forall₂_take pre.length h.text
    have hpost := List.forall₂_drop (pre.length + 1) h.text
    rw [List.take_left] at hpre
    rw [← List.drop_drop, List.drop_left] at hpost
    rw [List.set_eq_take_append_cons_drop, if_pos hlen]
    exact List.rel_append hpre (.cons hl hpost)

/-- The address of the line is written to its cell. -/
theorem Stores.setLine (h : Stores s e (pre ++ (p, m) :: post) bls junk) {h' : Heap} {p' : Ptr}
    {m' : List UInt8} {t' : Str} (ho : h'.Owns ((p', m') :: (pre ++ post ++ bls)))
    (hm : Matches h' e') (he' : e' = { e with calls := h'.calls }) (hl : HoldsLine m' t') :
    ∃ s', edutilsLineSet pre.length (some p') (s.withHeap h') = some ((), s') ∧
      Represents s' { e' with text := e'.text.set pre.length t' } := by
  have hlines := h.cells.lines
  rw [Blocks.cells_append, Blocks.cells_cons] at hlines
  have hset : (Blocks.cells pre ++ some p :: Blocks.cells post ++ junk).set pre.length (some p') =
      Blocks.cells (pre ++ (p', m') :: post) ++ junk := by
    rw [List.append_assoc, List.set_append_right _ _ (by rw [Blocks.cells_length]),
      Blocks.cells_length, Nat.sub_self]
    simp
  refine ⟨_, edutilsLineSet_eq (s := s.withHeap h') hlines ?_ _,
    pre ++ (p', m') :: post, bls, junk, ?_⟩
  · simp only [List.length_append, List.length_cons, Blocks.cells_length]
    omega
  · rw [hset]
    exact h.replaceLine ho hm he' hl

/-- The line stays at its address. -/
theorem Stores.keepLine (h : Stores s e (pre ++ (p, m) :: post) bls junk) {h' : Heap}
    {m' : List UInt8} {t' : Str} (ho : h'.Owns ((p, m') :: (pre ++ post ++ bls)))
    (hm : Matches h' e') (he' : e' = { e with calls := h'.calls }) (hl : HoldsLine m' t') :
    Represents (s.withHeap h') { e' with text := e'.text.set pre.length t' } := by
  have hlines : s.lines = some (Blocks.cells (pre ++ (p, m') :: post) ++ junk) := by
    rw [h.cells.lines, Blocks.cells_append, Blocks.cells_append, Blocks.cells_cons,
      Blocks.cells_cons]
  have := h.replaceLine ho hm he' hl
  rw [← hlines] at this
  exact ⟨_, _, _, this⟩

/-- Another heap with the same lines. -/
theorem Stores.setHeap (h : Stores s e lns bls junk) {h' : Heap} (ho : h'.Owns (lns ++ bls))
    (hm : Matches h' e') (he' : e' = { e with calls := h'.calls }) :
    Stores (s.withHeap h') e' lns bls junk := by
  subst he'
  exact ⟨⟨h.cells.setHeap h', h.text, ho, h.accounts.setHeap hm rfl⟩, h.sellines, h.block⟩

/-! ### Editing a line -/

/-- The memory after a string was written to a position of a line. -/
theorem HoldsLine.insert {m : List UInt8} (m' : List UInt8) {t pstr : Str} (hm : HoldsLine m t)
    {pos : ℕ} (hpos : pos ≤ t.length) (hz : 0 ∉ pstr)
    (hsize : edallocRoundSize (t.length + pstr.length + 1) ≤ m'.length)
    (htake : m'.take (pos + pstr.length + (t.length - pos + 1)) =
      t.take pos ++ pstr ++ (t.drop pos ++ [0])) :
    HoldsLine m' (t.take pos ++ pstr ++ t.drop pos) := by
  have hlen : (t.take pos ++ pstr ++ t.drop pos).length = t.length + pstr.length := by
    simp only [List.length_append, List.length_take, List.length_drop]
    omega
  refine ⟨.of_take ?_ ?_, by rw [hlen]; exact hsize⟩
  · simp only [List.mem_append, not_or]
    exact ⟨⟨fun h => hm.str.1 (List.mem_of_mem_take h), hz⟩,
      fun h => hm.str.1 (List.mem_of_mem_drop h)⟩
  · rw [hlen, List.append_assoc _ (t.drop pos), ← htake]
    congr 1
    omega

/-- **`ededit_addstring`.** -/
theorem addstring_follows (id pos : ℤ) (pstr : Str) :
    Follows Represents (ededitAddstring id pos pstr) (Ed.addstring id pos pstr) := by
  rintro s e ⟨lns, bls, junk, h⟩ r e' hq
  obtain ⟨t, e₁, hline, hq₁⟩ := Comp.bind_eq_some.mp hq
  obtain ⟨hid, hi, rfl⟩ := Ed.line_eq_some.mp hline
  obtain ⟨_, e₂, hguard, hq₂⟩ := Comp.bind_eq_some.mp hq₁
  obtain ⟨⟨hpos, hpos', hz⟩, rfl⟩ := Ed.guard_eq_some.mp hguard
  obtain ⟨resized, e₃, hres, hq₃⟩ := Comp.bind_eq_some.mp hq₂
  obtain ⟨pre, p, m, post, h, hlen, hm, -, -⟩ := h.split hi
  obtain ⟨pos, rfl⟩ := Int.eq_ofNat_of_zero_le hpos
  obtain rfl : id = pre.length := by omega
  have hpos'' : pos ≤ t.length := by omega
  obtain ⟨hget, h⟩ := h.edutilsLineGet
  rw [ededitAddstring, Comp.bind_eq hget,
    Comp.bind_eq (strlen_eq h.owns_line List.mem_cons_self hm.str (Nat.zero_le _)), Nat.sub_zero]
  obtain ⟨h', hm', he₃, ⟨rfl, hre, ho⟩ | ⟨rfl, p', m', hre, ho, hsize, htake⟩⟩ :=
    lineRealloc_spec h.accounts.matches_ h.owns_line hm _ hres
  · -- no memory: the line stays as it is
    obtain ⟨rfl, rfl⟩ := Prod.mk.inj (Option.some.inj hq₃)
    rw [Comp.bind_eq hre]
    exact ⟨_, rfl, _, _, _, h.setHeap (Stores.owns_of_line ho) hm' he₃⟩
  · obtain ⟨rfl, rfl⟩ := Prod.mk.inj (Option.some.inj hq₃)
    rw [Comp.bind_eq hre]
    -- the string is there, and room for the longer one behind it
    have hround := le_edallocRoundSize (t.length + pstr.length + 1)
    have hm₁ : CString m' t := .of_take hm.str.1 (by
      rw [htake _ (Nat.le_refl _) (by omega), List.take_of_length_le]
      rw [List.length_append]
      rfl)
    simp only
    rw [Comp.bind_eq (strlen_withHeap ho List.mem_cons_self hm₁ (Nat.zero_le _)), Nat.sub_zero]
    split
    next heq =>
      -- `strcat`
      obtain rfl : t.length = pos := by omega
      obtain ⟨hst, ho'⟩ := ho.store t.length (pstr ++ [0]) (by
        rw [List.length_append, List.length_singleton]
        omega)
      rw [Comp.bind_eq (onHeap_withHeap hst)]
      have hline' : HoldsLine (Heap.overwrite m' t.length (pstr ++ [0]))
          (t.take t.length ++ pstr ++ t.drop t.length) := by
        refine hm.insert _ (Nat.le_refl _) hz ?_ ?_
        · rw [Heap.overwrite_length]
          · omega
          · rw [List.length_append, List.length_singleton]
            omega
        · have htk := Heap.take_overwrite (pstr ++ [0]) t.length (m := m') (by omega)
          rw [List.length_append, List.length_singleton] at htk
          rw [Nat.sub_self, Nat.zero_add, Nat.add_assoc, htk, List.take_length, List.drop_length,
            List.nil_append, List.append_assoc]
          congr 1
          rw [hm₁.take_of_le (Nat.le_refl _), List.take_length]
      obtain ⟨s', hset, hR⟩ := h.setLine ho' ⟨hm'.answers, hm'.calls⟩ he₃ hline'
      rw [Comp.bind_eq hset]
      exact ⟨s', rfl, hR⟩
    next hne =>
      -- the rest of the line moves up
      have hcount : (0 : ℤ) ≤ t.length - pos + 1 := by omega
      have hcount' : ((t.length : ℤ) - pos + 1).toNat = t.length - pos + 1 := by omega
      obtain ⟨hmv, ho₂⟩ := ho.memmove (pos + pstr.length) pos
        (t.length - pos + 1) (by omega) (by omega)
      have hmoved : (m'.drop pos).take (t.length - pos + 1) = t.drop pos ++ [0] := by
        have := (hm₁.drop hpos'').take
        rwa [List.length_drop] at this
      rw [hmoved] at hmv ho₂
      have hlen₂ : (Heap.overwrite m' (pos + pstr.length) (t.drop pos ++ [0])).length =
          m'.length := Heap.overwrite_length (by
        rw [List.length_append, List.length_drop, List.length_singleton]
        omega)
      obtain ⟨hst, ho₃⟩ := ho₂.store pos pstr (by omega)
      rw [Comp.bind_eq (offset_eq (Int.natCast_nonneg _)), Comp.bind_eq (offset_eq hcount), hcount',
        Int.toNat_natCast, Comp.bind_eq (onHeap_withHeap hmv), Comp.bind_eq (onHeap_withHeap hst)]
      have hline' := hm.insert (Heap.overwrite (Heap.overwrite m' (pos + pstr.length)
          (t.drop pos ++ [0])) pos pstr) hpos'' hz (by
        rw [Heap.overwrite_length (by omega), hlen₂]
        omega) (by
        have htk := Heap.take_overwrite_overwrite pstr (t.drop pos ++ [0]) (m := m') pos (by
          rw [List.length_append, List.length_drop, List.length_singleton]
          omega)
        rw [List.length_append, List.length_drop, List.length_singleton] at htk
        rw [htk]
        congr 2
        exact hm₁.take_of_le hpos'')
      obtain ⟨s', hset, hR⟩ := h.setLine ho₃ ⟨hm'.answers, hm'.calls⟩ he₃ hline'
      rw [Comp.bind_eq hset]
      exact ⟨s', rfl, hR⟩

/-- **Removing a character.** The line keeps its memory. -/
theorem removeChar_follows (id pos : ℤ) :
    Follows Represents (removeCharacter id pos) (Ed.removeChar id pos) := by
  rintro s e ⟨lns, bls, junk, h⟩ r e' hq
  obtain ⟨t, e₁, hline, hq₁⟩ := Comp.bind_eq_some.mp hq
  obtain ⟨hid, hi, rfl⟩ := Ed.line_eq_some.mp hline
  obtain ⟨_, e₂, hguard, hq₂⟩ := Comp.bind_eq_some.mp hq₁
  obtain ⟨⟨hpos, hpos'⟩, rfl⟩ := Ed.guard_eq_some.mp hguard
  obtain ⟨-, rfl⟩ := Prod.mk.inj (Option.some.inj hq₂)
  obtain ⟨pre, p, m, post, h, hlen, hm, -, -⟩ := h.split hi
  obtain ⟨pos, rfl⟩ := Int.eq_ofNat_of_zero_le hpos
  obtain rfl : id = pre.length := by omega
  have hpos'' : pos < t.length := by omega
  have hround := hm.size_le
  have hle := le_edallocRoundSize (t.length + 1)
  obtain ⟨hmv, ho⟩ := h.owns_line.memmove pos (pos + 1) (t.length - pos)
    (by omega) (by omega)
  have hmoved : (m.drop (pos + 1)).take (t.length - pos) = t.drop (pos + 1) ++ [0] := by
    have := (hm.str.drop (show pos + 1 ≤ t.length from hpos'')).take
    rwa [List.length_drop, show t.length - (pos + 1) + 1 = t.length - pos by omega] at this
  rw [hmoved] at hmv ho
  have hlen' : (t.drop (pos + 1) ++ [0]).length = t.length - pos := by
    rw [List.length_append, List.length_drop, List.length_singleton]
    omega
  have herase : (t.eraseIdx pos).length + 1 = t.length := by
    rw [List.length_eraseIdx, if_pos hpos'']
    omega
  have hline' : HoldsLine (Heap.overwrite m pos (t.drop (pos + 1) ++ [0])) (t.eraseIdx pos) := by
    refine ⟨.of_take (fun hz => hm.str.1 (List.mem_of_mem_eraseIdx hz)) ?_, ?_⟩
    · have htk := Heap.take_overwrite (t.drop (pos + 1) ++ [0]) pos (m := m) (by omega)
      rw [hlen', show pos + (t.length - pos) = (t.eraseIdx pos).length + 1 by omega,
        hm.str.take_of_le hpos''.le] at htk
      rw [htk, List.eraseIdx_eq_take_drop_succ, List.append_assoc]
    · rw [Heap.overwrite_length (by omega), herase]
      exact (edallocRoundSize_mono (Nat.le_succ _)).trans hround
  rw [removeCharacter, Comp.bind_eq h.lineCell,
    Comp.bind_eq (strlen_eq h.owns_line List.mem_cons_self hm.str (Nat.zero_le _)),
    Comp.bind_eq (offset_eq (Int.natCast_nonneg _)), Nat.sub_zero,
    Comp.bind_eq (offset_eq (by omega)), Int.toNat_natCast,
    show ((t.length : ℤ) - pos).toNat = t.length - pos by omega, Comp.bind_eq (onHeap_eq hmv),
    Comp.bind_eq (strlen_withHeap ho List.mem_cons_self hline'.str (Nat.zero_le _)), Nat.sub_zero]
  -- the size asked for is the one that is inferred
  have hkeep : edallocLineRealloc p ((t.eraseIdx pos).length + 1)
      (s.withHeap (s.heap.put p (some (Heap.overwrite m pos (t.drop (pos + 1) ++ [0]))))) =
      some (some p,
        s.withHeap (s.heap.put p (some (Heap.overwrite m pos (t.drop (pos + 1) ++ [0]))))) := by
    rw [edallocLineRealloc,
      Comp.bind_eq (strlen_withHeap ho List.mem_cons_self hline'.str (Nat.zero_le _)),
      Nat.sub_zero, if_pos rfl, Comp.pure_apply]
  have hm' := h.accounts.matches_.put p (some (Heap.overwrite m pos (t.drop (pos + 1) ++ [0])))
  obtain ⟨s', hset, hR⟩ := h.setLine ho hm' hm'.eq_calls hline'
  rw [Comp.bind_eq hkeep, hset]
  exact ⟨s', rfl, hR⟩

/-- The memory after a terminator was written behind the first `pos` characters. -/
theorem HoldsLine.truncate {m' : List UInt8} {pos : ℕ} (hm : HoldsLine m t) (hpos : pos ≤ t.length)
    (hsize : edallocRoundSize (pos + 1) ≤ m'.length)
    (htake : ∀ k, k ≤ t.length + 1 → k ≤ edallocRoundSize (pos + 1) →
      m'.take k = (t ++ [0]).take k) : HoldsLine (Heap.overwrite m' pos [0]) (t.take pos) := by
  have hround := le_edallocRoundSize (pos + 1)
  have hlen : (t.take pos).length = pos := by
    rw [List.length_take, Nat.min_eq_left hpos]
  refine ⟨.of_take (fun hz => hm.str.1 (List.mem_of_mem_take hz)) ?_, ?_⟩
  · have htk := Heap.take_overwrite [0] pos (m := m') (by omega)
    rw [List.length_singleton, htake pos (by omega) (by omega),
      List.take_append_of_le_length hpos] at htk
    rw [hlen, htk]
  · rw [Heap.overwrite_length (by rw [List.length_singleton]; omega), hlen]
    exact hsize

/-- **Removing the end of a line.** -/
theorem truncate_follows (id pos : ℤ) :
    Follows Represents (truncateLine id pos) (Ed.truncate id pos) := by
  rintro s e ⟨lns, bls, junk, h⟩ r e' hq
  obtain ⟨t, e₁, hline, hq₁⟩ := Comp.bind_eq_some.mp hq
  obtain ⟨hid, hi, rfl⟩ := Ed.line_eq_some.mp hline
  obtain ⟨_, e₂, hguard, hq₂⟩ := Comp.bind_eq_some.mp hq₁
  obtain ⟨⟨hpos, hpos'⟩, rfl⟩ := Ed.guard_eq_some.mp hguard
  obtain ⟨resized, e₃, hres, hq₃⟩ := Comp.bind_eq_some.mp hq₂
  obtain ⟨pre, p, m, post, h, hlen, hm, -, -⟩ := h.split hi
  obtain ⟨pos, rfl⟩ := Int.eq_ofNat_of_zero_le hpos
  obtain rfl : id = pre.length := by omega
  rw [Int.toNat_natCast] at hres
  rw [truncateLine, Comp.bind_eq h.lineCell, Comp.bind_eq (offset_eq (Int.natCast_nonneg _)),
    Int.toNat_natCast]
  obtain ⟨h', hm', he₃, ⟨rfl, hre, ho⟩ | ⟨rfl, p', m', hre, ho, hsize, htake⟩⟩ :=
    lineRealloc_spec h.accounts.matches_ h.owns_line hm _ hres
  · obtain ⟨rfl, rfl⟩ := Prod.mk.inj (Option.some.inj hq₃)
    rw [Comp.bind_eq hre]
    exact ⟨_, rfl, _, _, _, h.setHeap (Stores.owns_of_line ho) hm' he₃⟩
  · obtain ⟨rfl, rfl⟩ := Prod.mk.inj (Option.some.inj hq₃)
    have hround := le_edallocRoundSize (pos + 1)
    obtain ⟨hst, ho'⟩ := ho.store pos [0] (by
      rw [List.length_singleton]
      omega)
    have hline' := hm.truncate (by omega) hsize htake
    obtain ⟨s', hset, hR⟩ := h.setLine ho' ⟨hm'.answers, hm'.calls⟩ he₃ hline'
    rw [Comp.bind_eq hre]
    simp only
    rw [Comp.bind_eq (onHeap_withHeap hst), Comp.bind_eq hset]
    exact ⟨s', rfl, hR⟩

/-- The length behind `pos` after the first `pos` characters were removed: past the end of the
string there is what it held before. -/
theorem strlen_cut {l : Blocks} {h' : Heap} {pos : ℕ} (hm : CString m t) (hpos : pos ≤ t.length)
    (ho : h'.Owns ((p, Heap.overwrite m 0 (t.drop pos ++ [0])) :: l)) :
    strlen p pos (s.withHeap h') = some (Ed.cutSize t.length pos - 1, s.withHeap h') := by
  have hlt := hm.length_lt
  have hlen : (t.drop pos ++ [0]).length = t.length - pos + 1 := by
    rw [List.length_append, List.length_drop, List.length_singleton]
  have htk := Heap.take_overwrite (t.drop pos ++ [0]) 0 (m := m) (Nat.zero_le _)
  rw [hlen, Nat.zero_add, List.take_zero, List.nil_append] at htk
  have hm' : CString (Heap.overwrite m 0 (t.drop pos ++ [0])) (t.drop pos) :=
    .of_take (fun hz => hm.1 (List.mem_of_mem_drop hz)) (by rwa [List.length_drop])
  simp only [Ed.cutSize, Nat.add_sub_cancel]
  split
  next hle =>
    rw [strlen_withHeap ho List.mem_cons_self hm' (by rw [List.length_drop]; omega),
      List.length_drop, Nat.sub_sub]
    congr 3
    omega
  next hgt =>
    -- these bytes have not moved
    have hrest : (Heap.overwrite m 0 (t.drop pos ++ [0])).drop pos = m.drop pos := by
      have := Heap.drop_overwrite (t.drop pos ++ [0]) 0 (m := m) (Nat.zero_le _)
        (pos - (t.length - pos + 1))
      rwa [hlen, Nat.zero_add, Nat.add_sub_cancel' (by omega)] at this
    have hold := hm.drop hpos
    rw [← hrest] at hold
    have hstr : Heap.string p pos h' = some (t.drop pos, h') := by
      simp only [Heap.string, ho.blocks_eq List.mem_cons_self, hold.zero_mem, ↓reduceIte,
        hold.takeWhile_eq]
    rw [strlen, Comp.bind_eq (onHeap_withHeap hstr), Comp.pure_apply, List.length_drop]

/-- **Removing the beginning of a line.** -/
theorem cut_follows (id pos : ℤ) : Follows Represents (cutLine id pos) (Ed.cut id pos) := by
  rintro s e ⟨lns, bls, junk, h⟩ r e' hq
  obtain ⟨t, e₁, hline, hq₁⟩ := Comp.bind_eq_some.mp hq
  obtain ⟨hid, hi, rfl⟩ := Ed.line_eq_some.mp hline
  obtain ⟨_, e₂, hguard, hq₂⟩ := Comp.bind_eq_some.mp hq₁
  obtain ⟨⟨hpos, hpos'⟩, rfl⟩ := Ed.guard_eq_some.mp hguard
  obtain ⟨pre, p, m, post, h, hlen, hm, -, -⟩ := h.split hi
  obtain ⟨pos, rfl⟩ := Int.eq_ofNat_of_zero_le hpos
  obtain rfl : id = pre.length := by omega
  have hpos'' : pos ≤ t.length := by omega
  have hlt := hm.str.length_lt
  have hlen' : (t.drop pos).length + 1 = t.length - pos + 1 := by rw [List.length_drop]
  obtain ⟨hmv, ho⟩ := h.owns_line.memmove 0 pos (t.length - pos + 1)
    (by omega) (by omega)
  have hmoved : (m.drop pos).take (t.length - pos + 1) = t.drop pos ++ [0] := by
    have := (hm.str.drop hpos'').take
    rwa [List.length_drop] at this
  rw [hmoved] at hmv ho
  have hline' : HoldsLine (Heap.overwrite m 0 (t.drop pos ++ [0])) (t.drop pos) := by
    refine ⟨.of_take (fun hz => hm.str.1 (List.mem_of_mem_drop hz)) ?_, ?_⟩
    · have htk := Heap.take_overwrite (t.drop pos ++ [0]) 0 (m := m) (Nat.zero_le _)
      rwa [List.length_append, List.length_singleton, Nat.zero_add, List.take_zero,
        List.nil_append] at htk
    · rw [Heap.overwrite_length (by rw [List.length_append, List.length_singleton]; omega), hlen']
      exact (edallocRoundSize_mono (by omega)).trans hm.size_le
  have hcut := strlen_cut (s := s) hm.str hpos'' ho
  have hsize : Ed.cutSize t.length pos - 1 + 1 = Ed.cutSize t.length pos := by
    simp only [Ed.cutSize, Nat.add_sub_cancel]
  have hm₁ := h.accounts.matches_.put p (some (Heap.overwrite m 0 (t.drop pos ++ [0])))
  generalize s.heap.put p (some (Heap.overwrite m 0 (t.drop pos ++ [0]))) = h₁ at *
  obtain ⟨_, e₃, hset', hq₃⟩ := Comp.bind_eq_some.mp hq₂
  obtain ⟨-, rfl⟩ := Prod.mk.inj (Option.some.inj hset')
  obtain ⟨resized, e₄, hres, hq₄⟩ := Comp.bind_eq_some.mp hq₃
  obtain ⟨_, e₅, hguard', hq₅⟩ := Comp.bind_eq_some.mp hq₄
  obtain ⟨hfit, rfl⟩ := Ed.guard_eq_some.mp hguard'
  obtain ⟨rfl, rfl⟩ := Prod.mk.inj (Option.some.inj hq₅)
  rw [Int.toNat_natCast] at hres hfit
  rw [cutLine, Comp.bind_eq h.lineCell, Comp.bind_eq (offset_eq (Int.natCast_nonneg _)),
    Int.toNat_natCast, Comp.bind_eq (strlen_eq h.owns_line List.mem_cons_self hm.str hpos''),
    Comp.bind_eq (onHeap_eq hmv), Comp.bind_eq hcut, hsize]
  rw [← List.length_drop] at hres
  obtain ⟨h', hm', he₄, ⟨rfl, hre, ho'⟩ | ⟨rfl, p', m', hre, ho', hsize', htake⟩⟩ :=
    lineRealloc_spec (s := s.withHeap h₁)
      (e := { e₂ with text := e₂.text.set pre.length (t.drop pos) }) ⟨hm₁.answers, hm₁.calls⟩ ho
      hline' _ hres
  · -- no memory: the line has changed nevertheless
    subst he₄
    rw [Comp.bind_eq hre]
    have hcalls : Matches h' { e₂ with calls := h'.calls } := ⟨hm'.answers, rfl⟩
    exact ⟨_, rfl, h.keepLine ho' hcalls rfl hline'⟩
  · subst he₄
    have hround : edallocRoundSize (Ed.cutSize t.length pos) =
        edallocRoundSize ((t.drop pos).length + 1) := by
      rw [hlen']
      exact hfit.resolve_left nofun
    have hge := le_edallocRoundSize ((t.drop pos).length + 1)
    have hline'' : HoldsLine m' (t.drop pos) := by
      refine ⟨.of_take (fun hz => hm.str.1 (List.mem_of_mem_drop hz)) ?_, hround ▸ hsize'⟩
      rw [htake _ (Nat.le_refl _) (by omega), List.take_of_length_le]
      rw [List.length_append]
      rfl
    have hcalls : Matches h' { e₂ with calls := h'.calls } := ⟨hm'.answers, rfl⟩
    obtain ⟨s', hset, hR⟩ := h.setLine ho' hcalls rfl hline''
    rw [Comp.bind_eq hre]
    simp only
    exact ⟨s', Comp.bind_eq hset, hR⟩

/-! ### Splitting and removing lines -/

/-- A string that is copied to new memory. -/
theorem holdsLine_copy {m : List UInt8} (hz : 0 ∉ t)
    (hlen : m.length = edallocRoundSize (t.length + 1)) :
    HoldsLine (Heap.overwrite m 0 (t ++ [0])) t := by
  have hle := le_edallocRoundSize (t.length + 1)
  have htk := Heap.take_overwrite (t ++ [0]) 0 (m := m) (Nat.zero_le _)
  rw [List.length_append, List.length_singleton, Nat.zero_add, List.take_zero,
    List.nil_append] at htk
  refine ⟨.of_take hz htk, ?_⟩
  rw [Heap.overwrite_length (by rw [List.length_append, List.length_singleton]; omega), hlen]

/-- Spaces and a string that are copied to new memory. -/
theorem holdsLine_newline {m : List UInt8} (indentation : ℕ) (hz : 0 ∉ t)
    (hlen : m.length = edallocRoundSize (t.length + indentation + 1)) :
    HoldsLine (Heap.overwrite (Heap.overwrite m 0 (spaces indentation)) indentation (t ++ [0]))
      (spaces indentation ++ t) := by
  have hle := le_edallocRoundSize (t.length + indentation + 1)
  have hspaces : (spaces indentation).length = indentation := List.length_replicate
  have hlen₁ : (Heap.overwrite m 0 (spaces indentation)).length = m.length :=
    Heap.overwrite_length (by omega)
  have htotal : (spaces indentation ++ t).length = t.length + indentation := by
    rw [List.length_append, hspaces, Nat.add_comm]
  have htk₁ := Heap.take_overwrite (spaces indentation) 0 (m := m) (Nat.zero_le _)
  have htk₂ := Heap.take_overwrite (t ++ [0]) indentation
    (m := Heap.overwrite m 0 (spaces indentation)) (by omega)
  rw [hspaces, Nat.zero_add, List.take_zero, List.nil_append] at htk₁
  rw [htk₁, List.length_append, List.length_singleton] at htk₂
  refine ⟨.of_take ?_ ?_, ?_⟩
  · simp only [List.mem_append, not_or]
    exact ⟨fun h => absurd (List.eq_of_mem_replicate h) (by decide), hz⟩
  · rw [htotal, Nat.add_comm t.length, Nat.add_assoc, htk₂, List.append_assoc]
  · rw [Heap.overwrite_length (by rw [List.length_append, List.length_singleton]; omega), hlen₁,
      hlen, htotal]

/-- **Splitting a line.** -/
theorem split_follows (id pos : ℤ) (indentation : ℕ) :
    Follows Represents (splitLine id pos indentation) (Ed.split id pos indentation) := by
  rintro s e ⟨lns, bls, junk, h⟩ r e' hq
  obtain ⟨t, e₁, hline, hq₁⟩ := Comp.bind_eq_some.mp hq
  obtain ⟨hid, hi, rfl⟩ := Ed.line_eq_some.mp hline
  obtain ⟨_, e₂, hguard, hq₂⟩ := Comp.bind_eq_some.mp hq₁
  obtain ⟨⟨hpos, hpos'⟩, rfl⟩ := Ed.guard_eq_some.mp hguard
  obtain ⟨granted, e₃, hreq, hq₃⟩ := Comp.bind_eq_some.mp hq₂
  obtain ⟨pre, p, m, post, h, hlen, hm, hpre, hpost⟩ := h.split hi
  obtain ⟨pos, rfl⟩ := Int.eq_ofNat_of_zero_le hpos
  obtain rfl : id = pre.length := by omega
  have hpos'' : pos ≤ t.length := by omega
  have hz : 0 ∉ t.drop pos := fun hz => hm.str.1 (List.mem_of_mem_drop hz)
  rw [splitLine, Comp.bind_eq h.lineCell, Comp.bind_eq (offset_eq (Int.natCast_nonneg _)),
    Int.toNat_natCast, Comp.bind_eq (strlen_eq h.owns_line List.mem_cons_self hm.str hpos'')]
  obtain ⟨h₁, hm₁, he₃, ⟨rfl, hmal, ho₁⟩ | ⟨rfl, q, mq, hmal, ho₁, hqlen⟩⟩ :=
    lineMalloc_spec h.accounts.matches_ h.owns_line (t.length - pos + indentation) hreq
  · obtain ⟨rfl, rfl⟩ := Prod.mk.inj (Option.some.inj hq₃)
    rw [Comp.bind_eq hmal]
    exact ⟨_, rfl, _, _, _, h.setHeap (Stores.owns_of_line ho₁) hm₁ he₃⟩
  · obtain ⟨resized, e₄, hres, hq₄⟩ := Comp.bind_eq_some.mp hq₃
    obtain ⟨_, e₅, hguard', hq₅⟩ := Comp.bind_eq_some.mp hq₄
    obtain ⟨rfl, rfl⟩ := Ed.guard_eq_some.mp hguard'
    obtain ⟨_, e₆, hgrow, hq₆⟩ := Comp.bind_eq_some.mp hq₅
    obtain ⟨rfl, rfl⟩ := Prod.mk.inj (Option.some.inj hq₆)
    -- the second part of the line
    rw [← List.length_drop] at hqlen
    have hround := le_edallocRoundSize ((t.drop pos).length + indentation + 1)
    have hspaces : (spaces indentation).length = indentation := List.length_replicate
    obtain ⟨hst₁, ho₂⟩ := ho₁.store 0 (spaces indentation) (by omega)
    have hlen₁ : (Heap.overwrite mq 0 (spaces indentation)).length = mq.length :=
      Heap.overwrite_length (by omega)
    obtain ⟨hst₂, ho₃⟩ := ho₂.store indentation (t.drop pos ++ [0]) (by
      rw [List.length_append, List.length_singleton]
      omega)
    have hnew := holdsLine_newline indentation hz hqlen
    have hstr := ho₂.string (List.mem_cons_of_mem _ List.mem_cons_self) hm.str hpos''
    generalize Heap.overwrite (Heap.overwrite mq 0 (spaces indentation)) indentation
      (t.drop pos ++ [0]) = mq' at hst₂ ho₃ hnew
    have hm₃ := (hm₁.put q (some (Heap.overwrite mq 0 (spaces indentation)))).put q (some mq')
    generalize Heap.put q (some mq') _ = h₃ at hst₂ ho₃ hm₃
    -- the first part
    have ho₃' := ho₃.perm (List.Perm.swap _ _ _)
    obtain ⟨h₄, hm₄, he₄, ⟨hr, -, -⟩ | ⟨-, p', m', hre, ho₄, hsize, htake⟩⟩ :=
      lineRealloc_spec (s := s.withHeap h₃) hm₃ ho₃' hm _ hres
    · exact absurd hr nofun
    have hround' := le_edallocRoundSize (pos + 1)
    rw [Int.toNat_natCast] at hre hsize htake
    obtain ⟨hst₄, ho₅⟩ := ho₄.store pos [0] (by
      rw [List.length_singleton]
      omega)
    have hold := hm.truncate hpos'' hsize htake
    generalize Heap.overwrite m' pos [0] = m'' at hst₄ ho₅ hold
    have hm₅ := hm₄.put p' (some m'')
    -- the lines
    subst he₃
    generalize h₄.put p' (some m'') = h₅ at hst₄ ho₅ hm₅
    have htext : e₅.text = e₂.text := by rw [he₄]
    obtain ⟨h₆, a, junk', hadd, hjunk', ha, howns, hm₆, he₆⟩ := addLine_spec
      (h.cells.setHeap h₅) (h.accounts.setHeap hm₅ he₄)
      (by rw [htext, h.text_length, Blocks.cells_length]) hgrow (i := pre.length)
      (by rw [Blocks.cells_length, List.length_append]; omega) (some p')
    have hins : (Blocks.cells (pre ++ (p, m) :: post)).take pre.length ++ some p' ::
        (Blocks.cells (pre ++ (p, m) :: post)).drop pre.length ++ junk' =
        (Blocks.cells pre ++ [some p']) ++ some p :: (Blocks.cells post ++ junk') := by
      rw [Blocks.cells_append, List.take_left' (Blocks.cells_length pre),
        List.drop_left' (Blocks.cells_length pre), Blocks.cells_cons]
      simp
    rw [hins] at hadd
    have hset : ((Blocks.cells pre ++ [some p']) ++ some p :: (Blocks.cells post ++ junk')).set
        (pre.length + 1) (some q) =
        Blocks.cells (pre ++ (p', m'') :: (q, mq') :: post) ++ junk' := by
      rw [List.set_append_right _ _ (by simp)]
      simp
    rw [Comp.bind_eq hmal]
    simp only
    rw [Comp.bind_eq (onHeap_withHeap hst₁), Comp.bind_eq (onHeap_withHeap hstr),
      Comp.bind_eq (onHeap_withHeap hst₂), Comp.bind_eq hre]
    simp only
    rw [Comp.bind_eq (onHeap_withHeap hst₄), Sys.withHeap_withHeap, Comp.bind_eq hadd]
    simp only [↓reduceIte]
    rw [show ((pre.length : ℤ) + 1) = (pre.length + 1 : ℕ) from rfl,
      Comp.bind_eq (edutilsLineSet_eq (i := pre.length + 1) rfl (by simp) _)]
    refine ⟨_, rfl, pre ++ (p', m'') :: (q, mq') :: post, bls, junk', ?_⟩
    have hfinal : h₆.Owns (pre ++ (p', m'') :: (q, mq') :: post ++ bls) := by
      refine (howns _ ho₅).perm ?_
      simp only [List.append_assoc, List.cons_append]
      exact List.perm_append_comm_assoc [(p', m''), (q, mq')] pre (post ++ bls)
    subst he₆
    subst he₄
    refine ⟨⟨⟨congrArg some hset, hjunk', ?_, ?_⟩, ?_, hfinal, ⟨⟨hm₆.answers, hm₆.calls⟩, rfl,
      h.accounts.ui, h.accounts.gets⟩⟩, h.sellines, h.block⟩
    · simp
      omega
    · simp at ha ⊢
      omega
    · exact List.rel_append hpre (.cons hold (.cons hnew hpost))

/-- **Removing a line.** -/
theorem removeLine_follows (id : ℤ) :
    Follows Represents (edallocBufferRemoveLine id) (Ed.removeLine id) := by
  rintro s e ⟨lns, bls, junk, h⟩ r e' hq
  obtain ⟨t, e₁, hline, hq₁⟩ := Comp.bind_eq_some.mp hq
  obtain ⟨hid, hi, rfl⟩ := Ed.line_eq_some.mp hline
  obtain ⟨_, e₂, hmod, hshrink⟩ := Comp.bind_eq_some.mp hq₁
  obtain ⟨-, rfl⟩ := Prod.mk.inj (Option.some.inj hmod)
  obtain ⟨pre, p, m, post, h, hlen, hm, hpre, hpost⟩ := h.split hi
  obtain rfl : id = pre.length := by omega
  rw [Int.toNat_natCast] at hpre hpost
  have herase : e₁.text.eraseIdx pre.length =
      e₁.text.take pre.length ++ e₁.text.drop (pre.length + 1) :=
    List.eraseIdx_eq_take_drop_succ _ _
  have hc := h.cells
  rw [Blocks.cells_append, Blocks.cells_cons] at hc
  have hlen' : (e₁.text.eraseIdx pre.length).length =
      (Blocks.cells pre).length + (Blocks.cells post).length := by
    rw [herase, List.length_append, ← hpre.length_eq, ← hpost.length_eq, Blocks.cells_length,
      Blocks.cells_length]
  obtain ⟨h', a, junk', hrem, hjunk', ha, ho, hm', he'⟩ := bufferRemoveLine_spec
    (e := { e₁ with text := e₁.text.eraseIdx pre.length }) hc
    (h.accounts.setText _) h.owns_line hlen' hshrink
  rw [Blocks.cells_length] at hrem
  subst he'
  refine ⟨_, hrem, pre ++ post, bls, junk', ?_⟩
  refine ⟨⟨⟨by rw [Blocks.cells_append], hjunk', ?_, ?_⟩, ?_, ho,
    ⟨hm', rfl, h.accounts.ui, h.accounts.gets⟩⟩, h.sellines, h.block⟩
  · simp
  · simpa using ha
  · simp only [herase]
    exact List.rel_append hpre hpost

/-! ### The block -/

theorem selCell_eq {cs cs' : List (Option Ptr)} {c : Option Ptr}
    (hsel : s.sellines = some (cs ++ c :: cs')) : selCell cs.length s = some (c, s) := by
  simp only [selCell, hsel, Int.toNat_natCast]
  rw [if_pos (by omega), List.getElem?_append_right (Nat.le_refl _), Nat.sub_self]
  rfl

/-- The loop of `edalloc_clear_selection` over cells that hold nothing. -/
theorem freeCells_none (n : ℕ) (cs : List (Option Ptr))
    (hsel : s.sellines = some (cs ++ List.replicate n none)) :
    freeCells n cs.length s = some ((), s) := by
  induction n generalizing cs with
  | zero => rfl
  | succ n ih =>
    rw [List.replicate_succ] at hsel
    rw [freeCells, Comp.bind_eq (selCell_eq hsel)]
    have := ih (cs ++ [none]) (by rw [hsel, List.append_assoc]; rfl)
    rw [List.length_append, List.length_singleton] at this
    exact this

/-- The loop of `edalloc_clear_selection`. -/
theorem freeCells_spec (n : ℕ) (bls l : Blocks) (cs : List (Option Ptr))
    (hsel : s.sellines = some (cs ++ (bls.cells ++ List.replicate n none)))
    (ho : s.heap.Owns (bls ++ l)) (hm : Matches s.heap e) :
    ∃ h', freeCells (bls.length + n) cs.length s = some ((), s.withHeap h') ∧ h'.Owns l ∧
      Matches h' e := by
  induction bls generalizing s cs with
  | nil =>
    refine ⟨s.heap, ?_, ho, hm⟩
    rw [List.length_nil, Nat.zero_add, freeCells_none n cs hsel]
    rfl
  | cons b bls ih =>
    obtain ⟨p, m⟩ := b
    obtain ⟨hfree, ho'⟩ := ho.free
    obtain ⟨h', hrun, ho'', hm'⟩ := ih (s := s.withHeap (s.heap.put p none)) (cs ++ [some p])
      (by rw [List.append_assoc]; exact hsel) ho' (hm.put p none)
    refine ⟨h', ?_, ho'', hm'⟩
    rw [List.length_cons, Nat.add_right_comm, freeCells, Comp.bind_eq (selCell_eq hsel)]
    simp only
    rw [Comp.bind_eq (onHeap_eq hfree)]
    rw [List.length_append, List.length_singleton] at hrun
    exact hrun

/-- The buffer without a block. -/
def Sys.noBlock (s : Sys) : Sys :=
  { s with sellines := none, ui := { s.ui with firstsel := -1, lastsel := -1 } }

/-- The text without a block. -/
def Ed.noBlock (e : Ed) : Ed :=
  { e with block := none, ui := { e.ui with firstsel := -1, lastsel := -1 } }

theorem resetUsedSelection_eq (h : s.sellines.isSome = true) :
    edallocResetUsedSelection s = some ((), s.noBlock) := by
  rw [edallocResetUsedSelection, Comp.modify_apply, if_pos h]
  rfl

theorem Lines.noBlock (h : Lines s e lns [] junk) :
    Stores s.noBlock e.noBlock lns [] junk where
  cells := ⟨h.cells.lines, h.cells.junk_ne, h.cells.fileLines, h.cells.allocated⟩
  text := h.text
  owns := h.owns
  accounts := ⟨⟨h.accounts.matches_.answers, h.accounts.matches_.calls⟩, h.accounts.allocated,
    by simp only [Ed.noBlock, Sys.noBlock, h.accounts.ui], h.accounts.gets⟩
  sellines := rfl
  block := .nil

/-- **`edalloc_clear_selection`**, when `n` cells of the block buffer hold nothing. -/
theorem Lines.clearSelection {n : ℕ} (h : Lines s e lns bls junk)
    (hsel : s.sellines = some (bls.cells ++ List.replicate n none))
    (htotal : s.ui.lastsel - s.ui.firstsel + 1 = (bls.length + n : ℕ)) :
    ∃ s', edallocClearSelection s = some ((), s') ∧ Represents s' e.noBlock := by
  obtain ⟨h', hrun, ho, hm⟩ := freeCells_spec n bls lns [] hsel
    (h.owns.perm List.perm_append_comm) h.accounts.matches_
  have hl : Lines (s.withHeap h') e lns [] junk :=
    ⟨h.cells.setHeap h', h.text, by rwa [List.append_nil], h.accounts.setHeap hm hm.eq_calls⟩
  refine ⟨(s.withHeap h').noBlock, ?_, _, _, _, hl.noBlock⟩
  rw [edallocClearSelection, Comp.bind_eq (Comp.get_apply _), if_pos (by rw [hsel]; rfl), htotal,
    Int.toNat_natCast]
  refine (Comp.bind_eq hrun).trans ?_
  have hsome : (s.withHeap h').sellines.isSome = true := by
    rw [show (s.withHeap h').sellines = s.sellines from rfl, hsel]
    rfl
  exact resetUsedSelection_eq hsome

/-- **Forgetting the block.** -/
theorem clearSelection_follows :
    Follows Represents edallocClearSelection Ed.clearSelection := by
  rintro s e ⟨lns, bls, junk, h⟩ r e' hq
  have hsel := h.sellines
  rw [Ed.clearSelection, Comp.bind_eq (Comp.get_apply _)] at hq
  cases hb : e.block with
  | none =>
    rw [hb] at hq hsel
    obtain ⟨-, rfl⟩ := Prod.mk.inj (Option.some.inj hq)
    refine ⟨s, ?_, lns, bls, junk, h⟩
    rw [edallocClearSelection, Comp.bind_eq (Comp.get_apply _), hsel]
    rfl
  | some bl =>
    rw [hb] at hq hsel
    obtain ⟨_, e₁, hguard, hq₁⟩ := Comp.bind_eq_some.mp hq
    obtain ⟨htotal, rfl⟩ := Ed.guard_eq_some.mp hguard
    obtain ⟨-, rfl⟩ := Prod.mk.inj (Option.some.inj hq₁)
    have hlen := h.block.length_eq
    rw [hb, Option.getD_some] at hlen
    rw [h.accounts.ui, ← hlen] at htotal
    exact h.toLines.clearSelection (n := 0) (by rw [hsel]; simp) htotal

/-- A line that is read while other lines are allocated. -/
theorem Lines.edutilsLineGet {l : Blocks} (h : Lines s e lns l junk) {i : ℕ}
    (hi : e.text[i]? = some t) :
    ∃ p m, edutilsLineGet i s = some (p, s.got i) ∧ (p, m) ∈ lns ∧ HoldsLine m t ∧
      Lines (s.got i) e lns l junk := by
  obtain ⟨pre, p, m, post, rfl, rfl, hm, -, -⟩ := h.text.split hi
  have hg := h.got (i := pre.length) (by rw [List.length_append, List.length_cons]; omega)
  have hc := hg.cells
  rw [Blocks.cells_append, Blocks.cells_cons] at hc
  have := lineCell_eq hc
  rw [Blocks.cells_length] at this
  exact ⟨p, m, this, by simp, hm, hg⟩

/-- The first of the lines behind a position. -/
theorem getElem?_of_take_drop {text ts : List Str} {i : ℕ}
    (h : t :: ts = (text.drop i).take (t :: ts).length) :
    text[i]? = some t ∧ ts = (text.drop (i + 1)).take ts.length := by
  cases hd : text.drop i with
  | nil => simp [hd] at h
  | cons t' ts' =>
    rw [hd, List.length_cons, List.take_succ_cons] at h
    obtain ⟨rfl, hts⟩ := List.cons.inj h
    refine ⟨?_, ?_⟩
    · rw [← List.head?_drop, hd, List.head?_cons]
    · rw [← List.drop_drop, hd, List.drop_one, List.tail_cons]
      exact hts

/-- The loop of `edalloc_fill_selection`: `n` cells are left empty, none if it succeeds. -/
theorem fillCells_spec (total : ℕ) {i : ℕ} (done : List Str) {ts : List Str} {r : Bool}
    (h : Lines s e lns bls junk) (hdone : bls.Hold done)
    (hts : ts = (e.text.drop i).take ts.length)
    (hsel : s.sellines = some (bls.cells ++ List.replicate ts.length none))
    (htotal : total = bls.length + ts.length) (hq : Ed.copyLines ts e = some (r, e')) :
    ∃ s' bls' n, fillCells total ts.length i bls.cells s = some (r, s') ∧
      Lines s' e' lns bls' junk ∧ s'.sellines = some (bls'.cells ++ List.replicate n none) ∧
      total = bls'.length + n ∧ e' = { e with calls := e'.calls } ∧
      (r = true → n = 0 ∧ bls'.Hold (done ++ ts)) := by
  induction ts generalizing s e bls done i with
  | nil =>
    obtain ⟨rfl, rfl⟩ := Prod.mk.inj (Option.some.inj hq)
    exact ⟨s, bls, 0, rfl, h, hsel, htotal, rfl, fun _ => ⟨rfl, by rwa [List.append_nil]⟩⟩
  | cons t ts ih =>
    obtain ⟨hi, hts'⟩ := getElem?_of_take_drop hts
    obtain ⟨granted, e₁, hreq, hq₁⟩ := Comp.bind_eq_some.mp hq
    obtain ⟨p, m, hget, hmem, hm, h₁⟩ := h.edutilsLineGet hi
    have hstr := h₁.owns.string (List.mem_append_left _ hmem) hm.str (Nat.zero_le _)
    rw [List.drop_zero] at hstr
    rw [List.length_cons, fillCells, Comp.bind_eq hget, Comp.bind_eq (onHeap_eq hstr)]
    obtain ⟨h', hm', he₁, ⟨rfl, hmal, ho⟩ | ⟨rfl, q, mq, hmal, ho, hqlen⟩⟩ :=
      lineMalloc_spec (s := (s.got i).withHeap (s.got i).heap) h₁.accounts.matches_ h₁.owns
        t.length hreq
    · obtain ⟨rfl, rfl⟩ := Prod.mk.inj (Option.some.inj hq₁)
      rw [Comp.bind_eq hmal]
      exact ⟨_, bls, ts.length + 1, rfl,
        ⟨h₁.cells.setHeap h', by rw [he₁]; exact h₁.text, ho, h₁.accounts.setHeap hm' he₁⟩, hsel,
        htotal, by rw [he₁], nofun⟩
    · -- the copy belongs to the block
      have hperm : ∀ b : Ptr × List UInt8, (b :: (lns ++ bls)).Perm (lns ++ (bls ++ [b])) :=
        fun b => by
          rw [← List.append_assoc]
          exact (List.perm_append_singleton b _).symm
      obtain ⟨hst, ho₃⟩ := ho.store 0 (t ++ [0]) (by
        have := le_edallocRoundSize (t.length + 1)
        rw [List.length_append, List.length_singleton]
        omega)
      have hcopy := holdsLine_copy hm.str.1 hqlen
      have hm₃ := hm'.put q (some (Heap.overwrite mq 0 (t ++ [0])))
      generalize Heap.overwrite mq 0 (t ++ [0]) = mq' at hst ho₃ hcopy hm₃
      generalize h'.put q (some mq') = h₃ at hst ho₃ hm₃
      generalize hcs : bls.cells ++ some q :: List.replicate (total - bls.cells.length - 1) none =
        cs
      have h₂ : Lines { (s.got i).withHeap h' with sellines := some cs } e₁ lns
          (bls ++ [(q, mq)]) junk :=
        ⟨⟨h.cells.lines, h.cells.junk_ne, h.cells.fileLines, h.cells.allocated⟩,
          by rw [he₁]; exact h.text, ho.perm (hperm _),
          ⟨hm', by rw [he₁]; exact h₁.accounts.allocated, by rw [he₁]; exact h₁.accounts.ui,
            h₁.accounts.gets⟩⟩
      obtain ⟨p', m', hget', hmem', hline', h₃'⟩ := h₂.edutilsLineGet (i := i) (t := t)
        (by rw [he₁]; exact hi)
      have hstr' := h₃'.owns.string (List.mem_append_left _ hmem') hline'.str (Nat.zero_le _)
      rw [List.drop_zero] at hstr'
      have h₄ : Lines ((Sys.got { (s.got i).withHeap h' with sellines := some cs } i).withHeap h₃)
          e₁ lns (bls ++ [(q, mq')]) junk :=
        ⟨h₃'.cells.setHeap h₃, h₃'.text, ho₃.perm (hperm _),
          h₃'.accounts.setHeap hm₃ hm₃.eq_calls⟩
      have hcs' : cs = (bls ++ [(q, mq')]).cells ++ List.replicate ts.length none := by
        rw [← hcs, Blocks.cells_append, List.append_assoc, Blocks.cells_length, htotal,
          List.length_cons, show bls.length + (ts.length + 1) - bls.length - 1 = ts.length by omega]
        rfl
      have htext : e₁.text = e.text := by rw [he₁]
      obtain ⟨s', bls', n, hrun, hl, hsel', htotal', he', hr⟩ := ih (i := i + 1)
        (done ++ [t]) h₄ (List.rel_append hdone (.cons hcopy .nil))
        (by rw [htext]; exact hts') (congrArg some hcs')
        (by rw [htotal, List.length_append, List.length_singleton, List.length_cons]; omega) hq₁
      refine ⟨s', bls', n, ?_, hl, hsel', htotal', ?_, fun h => ?_⟩
      · rw [Comp.bind_eq hmal]
        simp only
        rw [Comp.bind_eq (Comp.modify_apply _ _), hcs]
        refine (Comp.bind_eq hget').trans ?_
        rw [Comp.bind_eq (onHeap_eq hstr')]
        refine (Comp.bind_eq (onHeap_withHeap hst)).trans ?_
        rw [Blocks.cells_append] at hrun
        exact hrun
      · rw [he', he₁]
      · obtain ⟨hn, hb⟩ := hr h
        refine ⟨hn, ?_⟩
        rwa [List.append_assoc] at hb

/-- **Filling the block.** -/
theorem fillSelection_follows :
    Follows Represents edallocFillSelection Ed.fillSelection := by
  rintro s e ⟨lns, bls, junk, h⟩ r e' hq
  rw [Ed.fillSelection, Comp.bind_eq (Comp.get_apply _)] at hq
  obtain ⟨_, e₁, hguard, hq₁⟩ := Comp.bind_eq_some.mp hq
  obtain ⟨⟨hfirst, hle, hlast, hblock⟩, rfl⟩ := Ed.guard_eq_some.mp hguard
  obtain ⟨granted, e₂, hreq, hq₂⟩ := Comp.bind_eq_some.mp hq₁
  obtain ⟨hrun, he₂, hm⟩ := request_spec h.accounts.matches_ hreq
  have hui : s.ui = e₁.ui := h.accounts.ui.symm
  obtain rfl : bls = [] := by
    have := h.block
    rw [hblock] at this
    exact List.forall₂_nil_right_iff.mp this
  have hlines : Lines (s.withHeap s.heap.called) e₂ lns [] junk :=
    ⟨h.cells.setHeap _, by rw [he₂]; exact h.text, h.owns.called, h.accounts.setHeap hm he₂⟩
  rw [edallocFillSelection, Comp.bind_eq (Comp.get_apply _), hui, Comp.bind_eq hrun]
  cases granted with
  | false =>
    obtain ⟨rfl, rfl⟩ := Prod.mk.inj (Option.some.inj hq₂)
    refine ⟨_, rfl, lns, [], junk, hlines, ?_, ?_⟩
    · rw [he₂]
      exact h.sellines
    · rw [he₂]
      exact h.block
  | true =>
    obtain ⟨copied, e₃, hcopy, hq₃⟩ := Comp.bind_eq_some.mp hq₂
    generalize hts : Ed.selection e₁.text e₁.ui.firstsel e₁.ui.lastsel = ts at hcopy hq₃
    have htslen : ts.length = (e₁.ui.lastsel - e₁.ui.firstsel + 1).toNat := by
      rw [← hts, Ed.selection, List.length_take, List.length_drop]
      omega
    obtain ⟨i, hi⟩ := Int.eq_ofNat_of_zero_le hfirst
    have hdrop : ts = (e₂.text.drop i).take ts.length := by
      rw [htslen, he₂, ← hts, Ed.selection, hi, Int.toNat_natCast]
    have hsel : Lines { s.withHeap s.heap.called with
        sellines := some (List.replicate ts.length none) } e₂ lns [] junk :=
      ⟨⟨h.cells.lines, h.cells.junk_ne, h.cells.fileLines, h.cells.allocated⟩, hlines.text,
        hlines.owns, ⟨hm, hlines.accounts.allocated, hlines.accounts.ui, hlines.accounts.gets⟩⟩
    obtain ⟨s', bls', n, hfill, hl, hsel', htotal, he₃, hr⟩ := fillCells_spec ts.length []
      hsel .nil hdrop rfl (by simp) hcopy
    simp only [↓reduceIte]
    rw [Comp.bind_eq (Comp.modify_apply _ _), ← htslen, hi]
    have hui' : e₃.ui = e₁.ui := by rw [he₃, he₂]
    cases copied with
    | true =>
      obtain ⟨rfl, rfl⟩ := Prod.mk.inj (Option.some.inj hq₃)
      obtain ⟨rfl, hb⟩ := hr rfl
      refine ⟨s', Comp.bind_eq hfill, lns, bls', junk, ⟨hl.cells, hl.text, hl.owns, ?_⟩, ?_, ?_⟩
      · exact ⟨⟨hl.accounts.matches_.answers, hl.accounts.matches_.calls⟩, hl.accounts.allocated,
          hl.accounts.ui, hl.accounts.gets⟩
      · simpa using hsel'
      · have htext : e₃.text = e₁.text := by rw [he₃, he₂]
        simpa [htext, hui', hts] using hb
    | false =>
      obtain ⟨_, e₄, hreset, hq₄⟩ := Comp.bind_eq_some.mp hq₃
      obtain ⟨-, rfl⟩ := Prod.mk.inj (Option.some.inj hreset)
      obtain ⟨rfl, rfl⟩ := Prod.mk.inj (Option.some.inj hq₄)
      obtain ⟨s'', hclear, hR⟩ := hl.clearSelection hsel' (by
        rw [← hl.accounts.ui, hui', ← htotal, htslen]
        omega)
      exact ⟨s'', (Comp.bind_eq hfill).trans (Comp.bind_eq hclear), hR⟩

/-- One more line, which was allocated before. -/
theorem Lines.addLine {l : Blocks} (h : Lines s e lns ((p, m) :: l) junk) (hm : HoldsLine m t)
    {i : ℕ}
    (hi : i ≤ lns.length) (hq : Ed.grow e = some ((), e')) :
    ∃ s' junk', edallocBufferAddLine i (some p) s = some (true, s') ∧
      Lines s' { e' with text := e'.text.take i ++ t :: e'.text.drop i }
        (lns.take i ++ (p, m) :: lns.drop i) l junk' ∧
      s'.sellines = s.sellines ∧ s'.ui = s.ui ∧ e'.text = e.text ∧ e'.ui = e.ui := by
  obtain ⟨h', a, junk', hadd, hjunk', ha, howns, hm', he'⟩ := addLine_spec h.cells h.accounts
    (by rw [Blocks.cells_length]; exact h.text.length_eq.symm) hq
    (i := i) (by rw [Blocks.cells_length]; exact hi) (some p)
  have hcells : (lns.cells.take i ++ some p :: lns.cells.drop i) =
      Blocks.cells (lns.take i ++ (p, m) :: lns.drop i) := by
    simp [Blocks.cells]
  rw [hcells] at hadd
  subst he'
  refine ⟨_, junk', hadd, ⟨⟨rfl, hjunk', ?_, ?_⟩, ?_, ?_, ⟨⟨hm'.answers, hm'.calls⟩, rfl,
    h.accounts.ui, h.accounts.gets⟩⟩, rfl, rfl, rfl, rfl⟩
  · simp
    omega
  · simp at ha ⊢
    omega
  · exact List.rel_append (List.forall₂_take i h.text) (.cons hm (List.forall₂_drop i h.text))
  · refine (howns _ h.owns).perm ?_
    rw [List.append_assoc, List.cons_append]
    refine List.perm_middle.trans (.trans (.cons _ ?_) List.perm_middle.symm)
    rw [← List.append_assoc, List.take_append_drop]

/-- The loop of `ededit_pasteblock`. -/
theorem pasteCells_spec {rb : Blocks} {rt : List Str} {i : ℕ} (rest : List (Option Ptr))
    (hrb : rb.Hold rt) (h : Lines s e lns rb junk)
    (hsel : s.sellines = some (Blocks.cells rb.reverse ++ rest)) (hi : i ≤ lns.length)
    (hpos : s.ui.startline + s.ui.cursory = i) (hq : Ed.pasteAll i rt e = some ((), e')) :
    ∃ s' lns' junk', pasteCells rb.length s = some (true, s') ∧ Lines s' e' lns' [] junk' ∧
      s'.sellines = s.sellines ∧ e'.ui = e.ui := by
  induction hrb generalizing s e lns junk rest with
  | nil =>
    obtain ⟨-, rfl⟩ := Prod.mk.inj (Option.some.inj hq)
    exact ⟨s, lns, junk, rfl, h, rfl, rfl⟩
  | @cons b t rb rt hb hrb ih =>
    obtain ⟨p, m⟩ := b
    obtain ⟨_, e₁, hgrow, hq₁⟩ := Comp.bind_eq_some.mp hq
    obtain ⟨_, e₂, hmod, hq₂⟩ := Comp.bind_eq_some.mp hq₁
    obtain ⟨-, rfl⟩ := Prod.mk.inj (Option.some.inj hmod)
    have hsel' : s.sellines = some (Blocks.cells rb.reverse ++ some p :: rest) := by
      rw [hsel, List.reverse_cons, Blocks.cells_append, List.append_assoc]
      rfl
    obtain ⟨s₁, junk₁, hadd, h₁, hsel₁, hui₁, -, heui⟩ := h.addLine hb hi hgrow
    obtain ⟨s', lns', junk', hrun, hl, hsel₂, hui⟩ := ih _ h₁ (hsel₁.trans hsel')
      (by rw [List.length_append, List.length_take]; omega) (by rw [hui₁]; exact hpos) hq₂
    refine ⟨s', lns', junk', ?_, hl, hsel₂.trans hsel₁, hui.trans heui⟩
    have hcell := selCell_eq hsel'
    rw [Blocks.cells_length, List.length_reverse] at hcell
    rw [List.length_cons, pasteCells, Comp.bind_eq (Comp.get_apply _), Comp.bind_eq hcell, hpos,
      Comp.bind_eq hadd]
    exact hrun

/-- **Pasting the block.** -/
theorem pasteLines_follows : Follows Represents pasteSelection Ed.pasteLines := by
  rintro s e ⟨lns, bls, junk, h⟩ r e' hq
  have hsel := h.sellines
  have hblock := h.block
  rw [Ed.pasteLines, Comp.bind_eq (Comp.get_apply _)] at hq
  cases hb : e.block with
  | none =>
    rw [hb] at hq
    obtain ⟨_, e₁, hguard, -⟩ := Comp.bind_eq_some.mp hq
    exact (Ed.guard_eq_some.mp hguard).1.elim
  | some bl =>
    rw [hb] at hq hsel
    rw [hb, Option.getD_some] at hblock
    obtain ⟨_, e₁, hguard, hq₁⟩ := Comp.bind_eq_some.mp hq
    obtain ⟨htotal, rfl⟩ := Ed.guard_eq_some.mp hguard
    obtain ⟨_, e₂, hguard', hq₂⟩ := Comp.bind_eq_some.mp hq₁
    obtain ⟨⟨hpos, hpos'⟩, rfl⟩ := Ed.guard_eq_some.mp hguard'
    obtain ⟨_, e₃, hpaste, hq₃⟩ := Comp.bind_eq_some.mp hq₂
    obtain ⟨_, e₄, hreset, hq₄⟩ := Comp.bind_eq_some.mp hq₃
    obtain ⟨-, rfl⟩ := Prod.mk.inj (Option.some.inj hreset)
    obtain ⟨rfl, rfl⟩ := Prod.mk.inj (Option.some.inj hq₄)
    have hui : s.ui = e₂.ui := h.accounts.ui.symm
    obtain ⟨i, hi⟩ := Int.eq_ofNat_of_zero_le hpos
    rw [hi, Int.toNat_natCast] at hpaste
    have hlines : Lines s e₂ lns bls.reverse junk :=
      ⟨h.cells, h.text, h.owns.perm ((List.reverse_perm bls).symm.append_left lns), h.accounts⟩
    obtain ⟨s', lns', junk', hrun, hl, hsel', hui'⟩ := pasteCells_spec []
      (List.rel_reverse hblock) hlines (by rw [List.reverse_reverse, hsel]; simp)
      (by rw [h.text_length] at hpos'; omega) (by rw [hui]; exact hi) hpaste
    have hlen : bls.length = (e₂.ui.lastsel - e₂.ui.firstsel + 1).toNat := by
      rw [htotal, Int.toNat_natCast]
      exact hblock.length_eq
    refine ⟨s'.noBlock, ?_, lns', [], junk', hl.noBlock⟩
    rw [List.length_reverse, hlen] at hrun
    rw [pasteSelection, Comp.bind_eq (Comp.get_apply _), hui, Comp.bind_eq hrun]
    have hsome : s'.sellines.isSome = true := by
      rw [hsel', hsel]
      rfl
    exact Comp.bind_eq (resetUsedSelection_eq hsome)

/-! ### All operations -/

/-- A line that is read. -/
theorem lineGet_follows (id : ℤ) :
    Follows Represents (stringAt (edutilsLineGet id)) (Ed.line id) := by
  rintro s e ⟨lns, bls, junk, h⟩ r e' hq
  obtain ⟨hid, hi, rfl⟩ := Ed.line_eq_some.mp hq
  obtain ⟨i, rfl⟩ := Int.eq_ofNat_of_zero_le hid
  obtain ⟨p, m, hget, hmem, hm, hl⟩ := h.toLines.edutilsLineGet (i := i) hi
  have hstr := hl.owns.string (List.mem_append_left _ hmem) hm.str (Nat.zero_le _)
  rw [List.drop_zero] at hstr
  exact ⟨s.got i, (Comp.bind_eq hget).trans (onHeap_eq hstr), lns, bls, junk, hl, h.sellines,
    h.block⟩

theorem lineAt_follows (c : ℕ) : Follows Represents (stringAt (lineCell c)) (Ed.line c) := by
  rintro s e ⟨lns, bls, junk, h⟩ r e' hq
  obtain ⟨-, hi, rfl⟩ := Ed.line_eq_some.mp hq
  obtain ⟨pre, p, m, post, h', rfl, hm, -, -⟩ := h.split (i := c) hi
  have hstr := h'.owns_line.string List.mem_cons_self hm.str (Nat.zero_le _)
  rw [List.drop_zero] at hstr
  exact ⟨s, (Comp.bind_eq h'.lineCell).trans (onHeap_eq hstr), lns, bls, junk, h⟩

/-- **Every operation on the memory follows the one on the text.** -/
theorem perform_follows (o : EdOp) : Follows Represents (Sys.perform o) (Ed.perform o) := by
  cases o with
  | ui =>
    rintro s e ⟨lns, bls, junk, h⟩ a e' hq
    obtain ⟨rfl, rfl⟩ := Prod.mk.inj (Option.some.inj hq)
    exact ⟨s, by rw [h.accounts.ui]; rfl, lns, bls, junk, h⟩
  | modify f =>
    rintro s e ⟨lns, bls, junk, h⟩ a e' hq
    obtain ⟨-, rfl⟩ := Prod.mk.inj (Option.some.inj hq)
    refine ⟨_, rfl, lns, bls, junk, ⟨⟨h.cells.lines, h.cells.junk_ne, h.cells.fileLines,
      h.cells.allocated⟩, h.text, h.owns, ?_⟩, h.sellines, h.block⟩
    exact ⟨⟨h.accounts.matches_.answers, h.accounts.matches_.calls⟩, h.accounts.allocated,
      congrArg f h.accounts.ui, h.accounts.gets⟩
  | fileLines =>
    rintro s e ⟨lns, bls, junk, h⟩ a e' hq
    obtain ⟨rfl, rfl⟩ := Prod.mk.inj (Option.some.inj hq)
    refine ⟨s, ?_, lns, bls, junk, h⟩
    rw [h.text_length, ← Blocks.cells_length, ← h.cells.fileLines]
    rfl
  | lineGet id => exact lineGet_follows id
  | lineAt c => exact lineAt_follows c
  | hasBlock =>
    rintro s e ⟨lns, bls, junk, h⟩ a e' hq
    obtain ⟨rfl, rfl⟩ := Prod.mk.inj (Option.some.inj hq)
    refine ⟨s, ?_, lns, bls, junk, h⟩
    have := congrArg Option.isSome h.sellines
    rw [Option.isSome_map] at this
    rw [← this]
    rfl
  | addstring id pos pstr => exact addstring_follows id pos pstr
  | removeChar id pos => exact removeChar_follows id pos
  | truncate id pos => exact truncate_follows id pos
  | cut id pos => exact cut_follows id pos
  | split id pos indentation => exact split_follows id pos indentation
  | removeLine id => exact removeLine_follows id
  | pasteLines => exact pasteLines_follows
  | fillSelection => exact fillSelection_follows
  | clearSelection => exact clearSelection_follows
  | malloc =>
    rintro s e ⟨lns, bls, junk, h⟩ a e' hq
    obtain ⟨hrun, he', hm⟩ := request_spec h.accounts.matches_ hq
    exact ⟨_, hrun, lns, bls, junk, h.setHeap h.owns.called hm he'⟩
  | undefined =>
    intro s e _ a e' hq
    exact absurd hq nofun

/-- **The code on the memory follows the code on the text.** -/
theorem run_follows {α : Type} (prog : Prog α) :
    Follows Represents (prog.run Sys.perform) (prog.run Ed.perform) :=
  Program.follows perform_follows prog

end ELuaBrain.Editor
