import ELuaBrain.Editor.Dialogs
import ELuaBrain.Editor.Runs
import Mathlib.Data.List.TakeWhile

/-!
# Starting the editor

`edalloc_buffer_new` makes a buffer of a file, line by line, and a buffer with one empty line where
there is nothing to read.

## Main definitions

* `loadedLines`, `initialText` : the lines that are made of a file.
* `Cleared` : a buffer without lines.

## Main results

* `bufferNew_spec` : the buffer that is made of a file stands for its lines.
* `editorStart_spec` : the editor before the first key.
-/

namespace ELuaBrain.Editor

open Prog Program

/-- The lines that `edalloc_buffer_new` makes of a file. -/
def loadedLines (content : Str) : List Str :=
  (fgetsPieces (lineBufferSize - 1) [] content).map stripLine

/-- The lines of the buffer that is made of a file. -/
def initialText (content : Str) : List Str :=
  if 0 < fileSize content then loadedLines content else [[]]

/-- What is read, if there is a name and a file. -/
def startContent (fname content : Option Str) : Str :=
  if fname.getD [] = [] then [] else content.getD []

variable {s s' : Sys} {e e' : Ed} {lns : Blocks} {junk : List (Option Ptr)} {n : ℕ} {t : Str}

/-! ### New lines -/

/-- The string that was stored at the start of new memory. -/
theorem HoldsLine.new {m : List UInt8} (ht : 0 ∉ t)
    (hm : m.length = edallocRoundSize (t.length + 1)) :
    HoldsLine (Heap.overwrite m 0 (t ++ [0])) t := by
  have hle : 0 + (t ++ [0]).length ≤ m.length := by
    rw [hm, Nat.zero_add, List.length_append]
    exact le_edallocRoundSize _
  refine ⟨.of_take ht ?_, ?_⟩
  · have htake := Heap.take_overwrite (m := m) (t ++ [0]) 0 (Nat.zero_le _)
    rwa [Nat.zero_add, List.take_zero, List.nil_append, List.length_append] at htake
  · rw [Heap.overwrite_length hle, hm]

/-- A line is put behind the others: memory for it, its cell, its string, and one line more. -/
theorem newLine_spec (h : Lines s e lns [] junk) (hall : e.Granting) (ht : 0 ∉ t) :
    ∃ p m s₁ s₂ s₃ s' e' junk',
      edallocLineMalloc (t.length + 1) s = some (some p, s₁) ∧
      edutilsLineSet lns.length (some p) s₁ = some ((), s₂) ∧
      onHeap (Heap.store p 0 (t ++ [0])) s₂ = some ((), s₃) ∧
      edallocBufferChangeLines 1 s₃ = some (true, s') ∧
      Lines s' e' (lns ++ [(p, m)]) [] junk' ∧ e'.text = e.text ++ [t] ∧ e'.block = e.block ∧
      e'.answers = e.answers ∧ e'.ui = e.ui ∧ s'.sellines = s.sellines := by
  have hreq := hall.request
  obtain ⟨h₁, hm₁, he₁, ⟨hfalse, -⟩ | ⟨-, p, m, hmalloc, ho, hlen⟩⟩ :=
    lineMalloc_spec h.accounts.matches_ h.owns t.length hreq
  · exact absurd hfalse.symm Bool.false_ne_true
  obtain ⟨cell, junk, rfl⟩ := List.exists_cons_of_ne_nil h.cells.junk_ne
  have hset := edutilsLineSet_eq (s := s.withHeap h₁) (i := lns.length) h.cells.lines
    (by simp) (some p)
  obtain ⟨hstore, ho'⟩ := ho.store 0 (t ++ [0]) (by
    rw [hlen, Nat.zero_add, List.length_append]
    exact le_edallocRoundSize _)
  have harr : (lns.cells ++ cell :: junk).set lns.length (some p) =
      lns.cells ++ some p :: junk := by
    rw [List.set_append_right _ _ (Blocks.cells_length lns).le, Blocks.cells_length, Nat.sub_self]
    rfl
  rw [harr] at hset
  have hm₂ := hm₁.put p (some (Heap.overwrite m 0 (t ++ [0])))
  obtain ⟨e', hgrow⟩ : ∃ e', Ed.grow { e with calls := e.calls + 1 } = some ((), e') := by
    obtain ⟨a, c, hgrow⟩ := Ed.Granting.grow (e := { e with calls := e.calls + 1 }) hall
    exact ⟨_, hgrow⟩
  obtain ⟨h', a, junk', hchange, htwo, hhead, ha, howns, hm', he'⟩ := grow_spec
    (s := { s with
      heap := h₁.put p (some (Heap.overwrite m 0 (t ++ [0])))
      lines := some (lns.cells ++ some p :: junk) })
    (show Cells _ lns.cells (some p :: junk) from
      ⟨rfl, List.cons_ne_nil _ _, h.cells.fileLines, h.cells.allocated⟩)
    ⟨hm₂, h.accounts.allocated, h.accounts.ui, h.accounts.gets⟩
    (by rw [Blocks.cells_length]; exact h.text.length_eq.symm) hgrow
  obtain ⟨cell', junk', rfl⟩ : ∃ x l, junk' = x :: l :=
    List.exists_cons_of_ne_nil (List.length_pos_iff.mp (by omega))
  obtain rfl : cell' = some p := Option.some.inj hhead
  subst he'
  refine ⟨p, Heap.overwrite m 0 (t ++ [0]), _, _, _, _,
    { e with text := e.text ++ [t], allocated := a, calls := h'.calls }, junk', hmalloc, hset,
    onHeap_eq hstore, hchange, ⟨⟨?_, ?_, ?_, ?_⟩, ?_, ?_, ?_⟩, rfl, rfl, rfl, rfl, rfl⟩
  · rw [Blocks.cells_append, Blocks.cells_cons, List.append_assoc]
    rfl
  · rintro rfl
    simp at htwo
  · simp
  · simp only [List.length_cons] at ha
    simp only [ha, Blocks.cells_length, List.length_append, List.length_singleton]
    omega
  · exact List.rel_append h.text (.cons (HoldsLine.new ht hlen) .nil)
  · refine (howns _ ho').perm ?_
    rw [List.append_nil, List.append_nil]
    exact (List.perm_append_singleton _ _).symm
  · exact ⟨⟨hm'.answers, rfl⟩, rfl, h.accounts.ui, h.accounts.gets⟩

theorem zero_notMem_stripLine (piece : Str) : 0 ∉ stripLine piece := by
  intro h
  have hmem := (List.dropWhile_sublist _).subset (List.mem_reverse.mp h)
  have hne := List.mem_takeWhile_imp (List.mem_reverse.mp hmem)
  simp at hne

/-- **The loop of `edalloc_buffer_new`.** -/
theorem readLines_spec (pieces : List Str) (h : Lines s e lns [] junk) (hall : e.Granting) :
    ∃ s' e' lns' junk', readLines lns.length pieces s = some (true, s') ∧
      Lines s' e' lns' [] junk' ∧ e'.text = e.text ++ pieces.map stripLine ∧ e'.block = e.block ∧
      e'.answers = e.answers ∧ e'.ui = e.ui ∧ s'.sellines = s.sellines := by
  induction pieces generalizing s e lns junk with
  | nil => exact ⟨s, e, lns, junk, rfl, h, (List.append_nil _).symm, rfl, rfl, rfl, rfl⟩
  | cons piece pieces ih =>
    obtain ⟨p, m, s₁, s₂, s₃, s₄, e₁, junk₁, hmalloc, hset, hstore, hchange, h₁, htext, hblock,
      hanswers, hui, hsel⟩ := newLine_spec h hall (zero_notMem_stripLine piece)
    obtain ⟨s', e', lns', junk', hrun, h', htext', hblock', hanswers', hui', hsel'⟩ :=
      ih h₁ (by rw [Ed.Granting, hanswers]; exact hall)
    refine ⟨s', e', lns', junk', ?_, h', ?_, hblock'.trans hblock, hanswers'.trans hanswers,
      hui'.trans hui, hsel'.trans hsel⟩
    · rw [List.length_append, List.length_singleton] at hrun
      rw [readLines, Comp.bind_eq hmalloc, Comp.bind_eq hset]
      exact (Comp.bind_eq hstore).trans ((Comp.bind_eq hchange).trans hrun)
    · rw [htext', htext, List.append_assoc, List.map_cons]
      rfl

/-! ### Buffers -/

/-- A buffer without lines, and with an array for them. -/
structure Cleared (s : Sys) : Prop where
  owns : s.heap.Owns []
  fileLines : s.fileLines = 0
  sellines : s.sellines = none
  gets : s.gets = []

theorem Cleared.abs_text (h : Cleared s) : s.abs.text = [] := by
  change s.text = []
  rw [Sys.text, h.fileLines]
  rfl

theorem Cleared.lines (h : Cleared s) (hlines : s.lines = some (List.replicate n none))
    (halloc : s.allocatedLines = n) (hn : 0 < n) :
    Lines s s.abs [] [] (List.replicate n none) where
  cells := ⟨hlines, by simp [hn.ne'], h.fileLines, by simpa [Blocks.cells] using halloc⟩
  text := by
    rw [h.abs_text]
    exact .nil
  owns := h.owns
  accounts := ⟨⟨fun _ => rfl, rfl⟩, rfl, rfl, by simp [h.gets]⟩

theorem Represents.text_eq (h : Represents s e) : s.text = e.text := congrArg Ed.text h.abs_eq

theorem Represents.answers_eq (h : Represents s e) (n : ℕ) :
    e.answers n = (s.heap.answers n).granted := by
  obtain ⟨lns, bls, junk, hst⟩ := h
  exact hst.accounts.matches_.answers n

theorem Lines.represents (h : Lines s e lns [] junk) (hsel : s.sellines = none)
    (hblock : e.block = none) : Represents s e :=
  ⟨lns, [], junk, h, by rw [hsel, hblock]; rfl, by rw [hblock]; exact .nil⟩

/-- The number of lines that there is room for at first. -/
def roomFor (content : Str) : ℤ := (fileSize content).tdiv fileEstimatedLineSize + extraLines

/-- The buffer when its array is allocated. -/
def Sys.withRoom (s : Sys) (content : Str) : Sys :=
  { s with
    heap := s.heap.called
    lines := some (List.replicate (roomFor content).toNat none)
    allocatedLines := roomFor content }

theorem Cleared.withRoom (h : Cleared s) (content : Str) : Cleared (s.withRoom content) :=
  ⟨h.owns.called, h.fileLines, h.sellines, h.gets⟩

theorem request_granted {answers : ℕ → Answer} (hs : s.heap.answers = answers)
    (hall : ∀ n, (answers n).granted = true) :
    onHeap Heap.request s = some (true, s.withHeap s.heap.called) := by
  refine onHeap_eq ?_
  rw [Heap.request, hs, hall]

/-- The buffer is allocated and gets its name. -/
theorem bufferNew_eq {answers : ℕ → Answer} (fname content : Option Str) (vram : Vram)
    (hall : ∀ n, (answers n).granted = true) :
    ∃ s : Sys, Cleared s ∧ s.heap.answers = answers ∧
      (∃ p, s.ui = { (Sys.blank answers vram).ui with fpath := p }) ∧
      edallocBufferNew fname content (Sys.blank answers vram) =
        edallocBufferRead (some (startContent fname content)) s := by
  have howns (c : ℕ) : Heap.Owns { answers := answers, calls := c } [] :=
    ⟨List.nodup_nil, fun p m => by simp, fun p m hm => by simp at hm⟩
  have hnone : edallocBufferRead none = edallocBufferRead (some []) := rfl
  by_cases hname : fname.getD [] = []
  · have hnew : edallocBufferNew fname content = edallocBufferNew none none := by
      cases fname with
      | none => rfl
      | some name =>
        obtain rfl : name = [] := hname
        rfl
    refine ⟨{ (Sys.blank answers vram) with heap := { answers := answers, calls := 2 } },
      ⟨howns 2, rfl, rfl, rfl⟩, rfl, ⟨none, rfl⟩, ?_⟩
    rw [hnew, startContent, if_pos hname, ← hnone, edallocBufferNew,
      Comp.bind_eq (request_granted rfl hall)]
    simp only [↓reduceIte]
    rw [Comp.bind_eq (request_granted rfl hall)]
    · rfl
    · intro c name hf
      cases hf
  · obtain ⟨c, name, rfl⟩ : ∃ c name, fname = some (c :: name) := by
      cases fname with
      | none => exact absurd rfl hname
      | some name =>
        obtain ⟨c, name, rfl⟩ := List.exists_cons_of_ne_nil hname
        exact ⟨c, name, rfl⟩
    refine ⟨{ (Sys.blank answers vram) with
      heap := { answers := answers, calls := 3 }
      ui := { (Sys.blank answers vram).ui with fpath := some (c :: name) } },
      ⟨howns 3, rfl, rfl, rfl⟩, rfl, ⟨_, rfl⟩, ?_⟩
    rw [startContent, if_neg hname, edallocBufferNew, Comp.bind_eq (request_granted rfl hall)]
    simp only [↓reduceIte]
    rw [Comp.bind_eq (request_granted rfl hall)]
    simp only [↓reduceIte]
    rw [Comp.bind_eq (request_granted rfl hall)]
    simp only [↓reduceIte]
    rw [Comp.bind_eq (Comp.modify_apply _ _)]
    cases content with
    | none => rw [hnone]; rfl
    | some content => rfl

theorem bufferRead_of_pos {answers : ℕ → Answer} {content : Str} (hs : s.heap.answers = answers)
    (hall : ∀ n, (answers n).granted = true) (hsize : 0 < fileSize content)
    (hrun : readLines 0 (fgetsPieces (lineBufferSize - 1) [] content) (s.withRoom content) =
      some (true, s')) :
    edallocBufferRead (some content) s = some (true, s') := by
  have hreq := request_granted (s := { s with allocatedLines := roomFor content }) hs hall
  rw [roomFor] at hreq
  rw [edallocBufferRead]
  -- the size stays folded
  rw [Option.map_some, Option.getD_some, Comp.bind_eq (Comp.modify_apply _ _), Comp.bind_eq hreq]
  simp only [↓reduceIte]
  rw [Comp.bind_eq (Comp.modify_apply _ _)]
  rw [if_pos hsize]
  exact Comp.bind_eq hrun

/-- A file without a size makes an empty buffer. -/
theorem bufferRead_of_not_pos {answers : ℕ → Answer} {content : Str}
    (hs : s.heap.answers = answers) (hall : ∀ n, (answers n).granted = true)
    (hsize : ¬0 < fileSize content) (hrun : edallocBufferRead (some content) s = some (true, s')) :
    emptyBuffer (s.withRoom content) = some (true, s') := by
  have hreq := request_granted (s := { s with allocatedLines := roomFor content }) hs hall
  rw [roomFor] at hreq
  rw [edallocBufferRead] at hrun
  -- the size stays folded
  rw [Option.map_some, Option.getD_some, Comp.bind_eq (Comp.modify_apply _ _),
    Comp.bind_eq hreq] at hrun
  simp only [↓reduceIte] at hrun
  rw [Comp.bind_eq (Comp.modify_apply _ _)] at hrun
  rw [if_neg hsize] at hrun
  obtain ⟨complete, s₁, hempty, hrest⟩ := Comp.bind_eq_some.mp hrun
  cases complete with
  | true =>
    obtain rfl : s₁ = s' := congrArg Prod.snd (Option.some.inj hrest)
    exact hempty
  | false =>
    obtain ⟨ts, s₂, -, hpure⟩ := Comp.bind_eq_some.mp hrest
    cases hpure

/-- A buffer that was made of a file. -/
structure Opened (s : Sys) (e : Ed) (text : List Str) (u : Ui) : Prop where
  represents : Represents s e
  text : e.text = text
  block : e.block = none
  granting : e.Granting
  ui : ∃ b, e.ui = { u with wasEmpty := b }

/-- **`edalloc_buffer_new`.** The buffer of a file with a size stands for its lines. -/
theorem bufferRead_pos_spec {content : Str} (h : Cleared s)
    (hall : ∀ n, (s.heap.answers n).granted = true) (hsize : 0 < fileSize content) :
    ∃ s' e, edallocBufferRead (some content) s = some (true, s') ∧
      Opened s' e (loadedLines content) s.ui := by
  have hroom : 0 < roomFor content := by
    have hnonneg := Int.tdiv_nonneg hsize.le (show 0 ≤ fileEstimatedLineSize by decide)
    rw [roomFor, extraLines]
    omega
  have hcleared := h.withRoom content
  have hlines := hcleared.lines rfl (Int.toNat_of_nonneg hroom.le).symm (by omega)
  obtain ⟨s', e', lns, junk, hrun, hlines', htext, hblock, hanswers, hui, hsel⟩ :=
    readLines_spec (fgetsPieces (lineBufferSize - 1) [] content) hlines hall
  have hnone : e'.block = none := hblock.trans (congrArg (Option.map _) hcleared.sellines)
  refine ⟨s', e', bufferRead_of_pos rfl hall hsize hrun, ?_, ?_, hnone, fun n => ?_, ?_⟩
  · exact hlines'.represents (hsel.trans hcleared.sellines) hnone
  · rw [htext, hcleared.abs_text, List.nil_append, loadedLines]
  · rw [hanswers]
    exact hall n
  · exact ⟨s.ui.wasEmpty, hui⟩

/-- An empty buffer has one line without characters. -/
theorem emptyBuffer_spec {content : Str} (h : Cleared s)
    (hall : ∀ n, (s.heap.answers n).granted = true)
    (hrun : emptyBuffer (s.withRoom content) = some (true, s')) : ∃ e, Opened s' e [[]] s.ui := by
  have hcleared := h.withRoom content
  have hzone : edallocRoundSize zoneSize = edallocRoundSize (([] : Str).length + 1) := by decide
  have hsize : edallocLineMalloc zoneSize = edallocLineMalloc (([] : Str).length + 1) := by
    rw [edallocLineMalloc, edallocLineMalloc, hzone]
  rw [emptyBuffer, hsize] at hrun
  by_cases hroom : 0 < roomFor content
  · have hlines := hcleared.lines rfl (Int.toNat_of_nonneg hroom.le).symm (by omega)
    obtain ⟨p, m, s₁, s₂, s₃, s₄, e', junk, hmalloc, hset, hstore, hchange, h', htext, hblock,
      hanswers, hui, hsel⟩ := newLine_spec (t := []) hlines hall List.not_mem_nil
    change edutilsLineSet 0 (some p) s₁ = _ at hset
    rw [Comp.bind_eq hmalloc, Comp.bind_eq hset] at hrun
    have hrest := (Comp.bind_eq hstore).symm.trans hrun
    rw [Comp.bind_eq hchange] at hrest
    obtain rfl := congrArg Prod.snd (Option.some.inj hrest)
    have hnone : e'.block = none := hblock.trans (congrArg (Option.map _) hcleared.sellines)
    have hrep : Represents s₄ e' := h'.represents (hsel.trans hcleared.sellines) hnone
    obtain ⟨s₅, hmodify, hrep'⟩ := perform_follows
      (.modify fun u => { u with wasEmpty := true }) s₄ e' hrep () _ rfl
    obtain rfl := congrArg Prod.snd (Option.some.inj hmodify)
    refine ⟨_, hrep', ?_, hnone, fun n => ?_, true, ?_⟩
    · change e'.text = _
      rw [htext, hcleared.abs_text, List.nil_append]
    · change e'.answers n = true
      rw [hanswers]
      exact hall n
    · change { e'.ui with wasEmpty := true } = _
      rw [hui]
      rfl
  · -- the array has no cell for the line
    obtain ⟨p, s₁, hmalloc, hrest⟩ := Comp.bind_eq_some.mp hrun
    obtain ⟨_, s₂, hset, -⟩ := Comp.bind_eq_some.mp hrest
    rw [edallocLineMalloc, if_neg (edallocRoundSize_pos _)] at hmalloc
    obtain ⟨r, -, hr⟩ := Option.map_eq_some_iff.mp hmalloc
    obtain ⟨-, rfl⟩ := Prod.mk.inj hr
    simp [edutilsLineSet, Sys.withRoom, Int.toNat_of_nonpos (not_lt.mp hroom)] at hset

/-- **`edalloc_buffer_new`**, up to its result. -/
theorem bufferRead_spec {content : Str} (h : Cleared s)
    (hall : ∀ n, (s.heap.answers n).granted = true)
    (hrun : edallocBufferRead (some content) s = some (true, s')) :
    ∃ e, Opened s' e (initialText content) s.ui := by
  rw [initialText]
  split
  next hsize =>
    obtain ⟨s₁, e, hrun', hopened⟩ := bufferRead_pos_spec h hall hsize
    obtain rfl := congrArg Prod.snd (Option.some.inj (hrun'.symm.trans hrun))
    exact ⟨e, hopened⟩
  next hsize => exact emptyBuffer_spec h hall (bufferRead_of_not_pos rfl hall hsize hrun)

/-! ### The first screen -/

theorem fgetsPieces_ne_nil {room : ℕ} {piece content : Str} (h : piece ≠ [] ∨ content ≠ []) :
    fgetsPieces room piece content ≠ [] := by
  induction content generalizing room piece with
  | nil =>
    have hpiece : piece ≠ [] := h.resolve_right fun hne => hne rfl
    rw [fgetsPieces, if_neg hpiece]
    exact List.cons_ne_nil _ _
  | cons c content ih =>
    rw [fgetsPieces]
    split
    · exact List.cons_ne_nil _ _
    · exact ih (.inl (List.append_ne_nil_of_right_ne_nil _ (List.cons_ne_nil _ _)))

theorem initialText_ne_nil (content : Str) : initialText content ≠ [] := by
  rw [initialText]
  split
  next hsize =>
    have hcontent : content ≠ [] := by
      rintro rfl
      exact absurd hsize (by decide)
    rw [loadedLines, ne_eq, List.map_eq_nil_iff]
    exact fgetsPieces_ne_nil (.inr hcontent)
  next => exact List.cons_ne_nil _ _

theorem zero_notMem_initialText {content t : Str} (ht : t ∈ initialText content) : 0 ∉ t := by
  rw [initialText] at ht
  split at ht
  · obtain ⟨piece, -, rfl⟩ := List.mem_map.mp ht
    exact zero_notMem_stripLine piece
  · rw [List.mem_singleton.mp ht]
    exact List.not_mem_nil

/-- The editor before the first key. -/
structure Started (e : Ed) : Prop where
  valid : e.Valid
  granting : e.Granting
  tracked : e.Tracked
  block : e.block = none
  select : e.ui.select = false

/-- The first redraw. -/
theorem firstScreen_spec {v : Vram} {p : Option Str} {b : Bool} (hne : e.text ≠ [])
    (hterm : ∀ t ∈ e.text, 0 ∉ t) (hblock : e.block = none) (hg : e.Granting)
    (hui : e.ui = { fpath := p, vram := v.reset, disk := { saved := e.text }, wasEmpty := b }) :
    edutilsShowScreen.Ensures Ed.perform e fun _ e' =>
      Started e' ∧ (v.ansi = none → e'.Plain → e'.Shown) := by
  obtain ⟨text, block, allocated, answers, calls, ui⟩ := e
  dsimp only at hne hterm hblock hui ⊢
  subst hblock hui
  have hlen : 0 < text.length := List.length_pos_iff.mpr hne
  have hw : Window text.length 0 0 := ⟨le_rfl, by decide, le_rfl, by decide, by omega⟩
  have hc : Column 0 0 := ⟨le_rfl, by decide, le_rfl, by decide⟩
  refine ensures_showScreen le_rfl hw.sl_le (by dsimp only; omega) fun v' hv => ?_
  dsimp only at hv ⊢
  refine ⟨⟨?_, hg, fun _ => rfl, rfl, rfl⟩, fun hansi hplain => ?_⟩
  · exact
      { window := hw
        column := hc
        pos_le := Int.natCast_nonneg _
        user := hc
        nlines := rfl
        delLastLine := rfl
        select := fun hsel => absurd hsel Bool.false_ne_true
        marks := fun bl hbl => absurd hbl (Option.some_ne_none bl).symm
        terminated := fun t ht => hterm t (by simpa using ht) }
  · exact hv _ (fun r _ hr => .inl hr) hplain (showsOn_reset le_rfl hansi)

/-- **`editor_init`**, and the first redraw. -/
theorem editorStart_spec {answers : ℕ → Answer} {fname content : Option Str} {vram : Vram}
    (hall : ∀ n, (answers n).granted = true)
    (hrun : editorStart fname content (Sys.blank answers vram) = some (true, s)) :
    ∃ e, Represents s e ∧ Started e ∧ (vram.ansi = none → e.Plain → e.Shown) := by
  rw [editorStart] at hrun
  obtain ⟨created, s₁, hinit, hrest⟩ := Comp.bind_eq_some.mp hrun
  cases created with
  | false => cases hrest
  | true =>
    obtain ⟨_, s₂, hshow, hpure⟩ := Comp.bind_eq_some.mp hrest
    obtain rfl : s₂ = s := congrArg Prod.snd (Option.some.inj hpure)
    rw [editorInit, Comp.bind_eq (Comp.modify_apply _ _)] at hinit
    obtain ⟨created, s₀, hnew, hsave⟩ := Comp.bind_eq_some.mp hinit
    rw [Comp.bind_eq (Comp.modify_apply _ _)] at hsave
    obtain ⟨rfl, rfl⟩ := Prod.mk.inj (Option.some.inj hsave)
    obtain ⟨sb, hcleared, hanswers, ⟨p, hp⟩, heq⟩ := bufferNew_eq fname content vram.reset hall
    obtain ⟨e₀, hopened⟩ := bufferRead_spec hcleared (fun n => by rw [hanswers, hall])
      (heq.symm.trans hnew)
    obtain ⟨hrep, htext, hblock, hg, b, hui⟩ := hopened
    obtain ⟨s₁, hsaved, hrep₁⟩ := perform_follows
      (.modify fun u => { u with disk := { saved := s₀.text } }) s₀ e₀ hrep () _ rfl
    obtain rfl := congrArg Prod.snd (Option.some.inj hsaved)
    rw [hp] at hui
    have hfirst := firstScreen_spec (e := { e₀ with ui := { e₀.ui with
      disk := { saved := s₀.text } } }) (v := vram) (p := p) (b := b)
      (by rw [htext]; exact initialText_ne_nil _)
      (fun t ht => zero_notMem_initialText (htext ▸ ht)) hblock hg (by
        rw [hui, hrep.text_eq]
        rfl)
    obtain ⟨_, e₂, hrun₂, hstarted⟩ := hfirst
    obtain ⟨s₂, hrun', hrep₂⟩ := run_follows _ _ _ hrep₁ _ _ hrun₂
    obtain rfl := congrArg Prod.snd (Option.some.inj (hrun'.symm.trans hshow))
    exact ⟨e₂, hrep₂, hstarted⟩

/-! ### A start -/

/-- An allocator that grants every request. -/
def granting : ℕ → Answer := fun _ => .grant false fun _ => 0

/-- The screen after a reset. -/
def clearVram : Vram := ⟨fun _ => 0x20, 0, 0, none⟩

theorem granted_granting (n : ℕ) : (granting n).granted = true := rfl

end ELuaBrain.Editor
