import ELuaBrain.Editor.Commands
import ELuaBrain.Editor.Load

/-!
# Sessions

From the start of the editor on, a session keeps what its rounds keep, as long as its keys meet the
conditions under which they do.

## Main definitions

* `Kept` : an invariant of the rounds, and what holds when the editor is closed.
* `Sys.ViewValid`, `Sys.LinesSound`, `Sys.Shown` : what a buffer in memory is like.

## Main results

* `step_kept`, `reached_kept` : a session keeps its invariant.
* `next_round` : the next step of a session.
* `view_valid`, `lines_sound`, `screen_shown`, `selection_sound`, `text_saved`.
-/

namespace ELuaBrain.Editor

open Prog Program Vram

/-! ### Invariants of a session -/

/-- The rounds keep `I`, and `C` holds when the editor is closed. -/
def Kept (I C : Ed → Prop) : Session Ed → Prop
  | .running e => e.Valid ∧ e.Granting ∧ I e
  | .closed ts e => ts = e.text ∧ C e

variable {guard : Ed → Key × Env → Prop} {I C : Ed → Prop} {e : Ed} {k : Key} {env : Env}

/-- A step of a session is a round of the main loop. -/
theorem step_eq (h : e.Valid) (hg : e.Granting) (hc : e.Careful k env) :
    ∃ exit e', Round e k env exit e' ∧
      Ed.step (.running e) (k, env) = some (if exit then .closed e'.text e' else .running e') := by
  obtain ⟨exit, e', hrun, hround⟩ := mainloopStep_spec h hg hc
  refine ⟨exit, e', hround, ?_⟩
  change ((mainloopStep k env).run Ed.perform e).bind _ = _
  rw [hrun]
  cases exit <;> rfl

/-- The rounds keep an invariant. -/
structure Keeps (guard : Ed → Key × Env → Prop) (I C : Ed → Prop) : Prop where
  careful : ∀ e k env, e.Valid → I e → guard e (k, env) → e.Careful k env
  round : ∀ e k env exit e', I e → guard e (k, env) → Round e k env exit e' →
    I e' ∧ (exit = true → C e')

theorem Keeps.step_kept (hk : Keeps guard I C) (E : Session Ed) (i : Key × Env) (h : Kept I C E)
    (hi : OnRunning guard E i) : ∃ E', Ed.step E i = some E' ∧ Kept I C E' := by
  obtain ⟨k, env⟩ := i
  cases E with
  | closed ts e => exact ⟨_, rfl, h⟩
  | running e =>
    obtain ⟨hvalid, hg, hI⟩ := h
    obtain ⟨exit, e', hround, hstep⟩ := step_eq hvalid hg (hk.careful e k env hvalid hI hi)
    obtain ⟨hI', hC⟩ := hk.round e k env exit e' hI hi hround
    refine ⟨_, hstep, ?_⟩
    cases exit with
    | false =>
      refine ⟨hround.valid, ?_, hI'⟩
      rw [Ed.Granting, hround.answers]
      exact hg
    | true => exact ⟨rfl, hC rfl⟩

section Memory

variable {answers : ℕ → Answer} {fname content : Option Str} {vram : Vram} {s₀ s : Sys}
  {S : Session Sys}

/-- **A session keeps its invariant.** -/
theorem Keeps.reached (hk : Keeps guard I C) (hall : ∀ n, (answers n).granted = true)
    (hstart : editorStart fname content (Sys.blank answers vram) = some (true, s₀))
    (hI : ∀ e, Represents s₀ e → Started e → (vram.ansi = none → e.Plain → e.Shown) → I e)
    (h : s₀.Reached guard S) : ∃ E, Simulates S E ∧ Kept I C E := by
  obtain ⟨e, hrep, hstarted, hshown⟩ := editorStart_spec hall hstart
  obtain ⟨E, hsim, hkept, -⟩ := reach_simulates hk.step_kept hrep
    ⟨hstarted.valid, hstarted.granting, hI e hrep hstarted hshown⟩ h
  exact ⟨E, hsim, hkept⟩

/-- The buffer of a session that is not closed. -/
theorem Keeps.running (hk : Keeps guard I C) (hall : ∀ n, (answers n).granted = true)
    (hstart : editorStart fname content (Sys.blank answers vram) = some (true, s₀))
    (hI : ∀ e, Represents s₀ e → Started e → (vram.ansi = none → e.Plain → e.Shown) → I e)
    (h : s₀.Reached guard (.running s)) :
    Represents s s.abs ∧ s.abs.Valid ∧ s.abs.Granting ∧ I s.abs := by
  obtain ⟨E, hsim, hkept⟩ := hk.reached hall hstart hI h
  cases hsim with
  | running hrep =>
    rw [hrep.abs_eq]
    exact ⟨hrep, hkept⟩

/-- **The next step of a session.** -/
theorem Keeps.next (hk : Keeps guard I C) (hrep : Represents s s.abs) (hvalid : s.abs.Valid)
    (hg : s.abs.Granting) (hI : I s.abs) (hi : guard s.abs (k, env)) :
    ∃ exit e' S', Round s.abs k env exit e' ∧ Sys.step (.running s) (k, env) = some S' ∧
      Simulates S' (if exit then .closed e'.text e' else .running e') := by
  obtain ⟨exit, e', hround, hstep⟩ := step_eq hvalid hg (hk.careful _ k env hvalid hI hi)
  obtain ⟨S', hS', hsim⟩ := step_follows (.running hrep) hstep
  exact ⟨exit, e', S', hround, hS', hsim⟩

/-! ### Samples -/

/-- The editor is started with a name and a file. -/
def openFile (content : Option Str) : Option (Bool × Sys) :=
  editorStart (some (ascii "a.lua")) content (Sys.blank granting clearVram)

/-- A test of a session that is not closed. -/
def Session.onRunning (test : Sys → Bool) : Session Sys → Bool
  | .running s => test s
  | .closed _ _ => false

/-- A test of a session that is closed. -/
def Session.onClosed (test : List Str → Sys → Bool) : Session Sys → Bool
  | .running _ => false
  | .closed ts s => test ts s

theorem Session.exists_running {test : Sys → Bool} (h : S.onRunning test = true) :
    ∃ s, S = .running s ∧ test s = true := by
  cases S with
  | running s => exact ⟨s, rfl, h⟩
  | closed ts s => cases h

theorem Session.exists_closed {test : List Str → Sys → Bool} (h : S.onClosed test = true) :
    ∃ ts s, S = .closed ts s ∧ test ts s = true := by
  cases S with
  | running s => cases h
  | closed ts s => exact ⟨ts, s, rfl, h⟩

/-- A session that can be computed, with a first and a last state that pass a test. -/
theorem exists_session (guard : Ed → Key × Env → Prop) [∀ e i, Decidable (guard e i)]
    (content : Option Str) (keys : List (Key × Env)) (test₀ : Sys → Bool)
    (test : Session Sys → Bool)
    (hopened : (openFile content).any fun r => r.1 && test₀ r.2)
    (hrun : ((openFile content).bind fun r =>
      runAll (guarded Sys.step (OnRunning fun s => guard s.abs)) keys (.running r.2)).any test) :
    ∃ s₀ S, openFile content = some (true, s₀) ∧ s₀.Reached guard S ∧ test₀ s₀ = true ∧
      test S = true := by
  cases hstart : openFile content with
  | none =>
    rw [hstart] at hopened
    cases hopened
  | some r =>
    obtain ⟨created, s₀⟩ := r
    rw [hstart] at hopened hrun
    obtain ⟨rfl, htest₀⟩ := Bool.and_eq_true_iff.mp hopened
    rw [Option.bind_some] at hrun
    cases hS : runAll (guarded Sys.step (OnRunning fun s => guard s.abs)) keys (.running s₀) with
    | none =>
      rw [hS] at hrun
      cases hrun
    | some S =>
      rw [hS] at hrun
      exact ⟨s₀, S, rfl, reach_of_runAll hS, htest₀, hrun⟩

/-! ### The view -/

/-- The window and the cursor lie in the text. -/
structure Sys.ViewValid (s : Sys) : Prop where
  startline : 0 ≤ s.ui.startline
  cursory_nonneg : 0 ≤ s.ui.cursory
  cursory_lt : s.ui.cursory < editorLines
  line_lt : s.ui.startline + s.ui.cursory < s.fileLines
  startx : 0 ≤ s.ui.startx
  cursorx_nonneg : 0 ≤ s.ui.cursorx
  cursorx_lt : s.ui.cursorx < termCols

theorem Represents.fileLines_eq (h : Represents s e) : s.fileLines = e.text.length := by
  obtain ⟨lns, bls, junk, hst⟩ := h
  rw [hst.cells.fileLines, Blocks.cells_length, hst.text.length_eq]

theorem Represents.viewValid (h : Represents s e) (hv : e.Valid) : s.ViewValid := by
  have hlines := h.fileLines_eq
  have hui : s.ui = e.ui := congrArg Ed.ui h.abs_eq
  obtain ⟨hsl, -, hcy, hcy', hlt⟩ := hv.window
  obtain ⟨hsx, -, hcx, hcx'⟩ := hv.column
  rw [← hui] at hsl hcy hcy' hlt hsx hcx hcx'
  exact ⟨hsl, hcy, hcy', by rw [hlines]; exact hlt, hsx, hcx, hcx'⟩

/-- The calls of `edutils_line_get` so far were for lines of the file. -/
def Session.GetsOk : Session Sys → Prop
  | .running s | .closed _ s => s.GetsOk

theorem Simulates.getsOk {E : Session Ed} (h : Simulates S E) : S.GetsOk := by
  cases h with
  | running hrep =>
    obtain ⟨lns, bls, junk, hst⟩ := hrep
    exact hst.accounts.gets
  | closed ts hui hgets => exact hgets

theorem keeps_careful : Keeps (fun e i => e.Careful i.1 i.2) (fun _ => True) fun _ => True :=
  ⟨fun _ _ _ _ _ hi => hi, fun _ _ _ _ _ _ _ _ => ⟨trivial, fun _ => trivial⟩⟩

/-- Each line has memory of its own, with room for its string and for what the allocator infers from
its length. -/
def Sys.LinesSound (s : Sys) : Prop :=
  ∃ ps : List Ptr, s.fileLines = ps.length ∧ (s.lines.getD []).take ps.length = ps.map some ∧
    ps.Nodup ∧ ∀ p ∈ ps, ∃ m t, s.heap.blocks p = some m ∧ CString m t ∧ t.length + 1 ≤ m.length ∧
      edallocRoundSize (t.length + 1) ≤ m.length

theorem Blocks.Hold.exists_text {l : Blocks} {ts : List Str} (h : l.Hold ts)
    {b : Ptr × List UInt8} (hb : b ∈ l) : ∃ t, HoldsLine b.2 t := by
  induction h with
  | nil => exact absurd hb List.not_mem_nil
  | cons ht _ ih =>
    obtain rfl | hb := List.mem_cons.mp hb
    · exact ⟨_, ht⟩
    · exact ih hb

theorem Represents.linesSound (h : Represents s e) : s.LinesSound := by
  obtain ⟨lns, bls, junk, hst⟩ := h
  have hcells : lns.cells = (lns.map Prod.fst).map some := (List.map_map).symm
  have hnodup := hst.owns.nodup
  rw [List.map_append] at hnodup
  refine ⟨lns.map Prod.fst, ?_, ?_, (List.nodup_append.mp hnodup).1, fun p hp => ?_⟩
  · rw [hst.cells.fileLines, Blocks.cells_length, List.length_map]
  · rw [← hcells, List.length_map, hst.cells.lines, Option.getD_some,
      List.take_left' (Blocks.cells_length lns)]
  · obtain ⟨⟨p, m⟩, hb, rfl⟩ := List.mem_map.mp hp
    obtain ⟨t, ht⟩ := hst.text.exists_text hb
    refine ⟨m, t, hst.owns.blocks_eq (List.mem_append_left _ hb), ht.str, ht.str.length_lt, ?_⟩
    exact ht.size_le

/-- The buffer after the next step. -/
theorem Round.abs_eq {exit : Bool} {e' : Ed} (hround : Round s.abs k env exit e')
    (hsim : Simulates S (if exit then .closed e'.text e' else .running e')) :
    ∀ s', S = .running s' → s'.abs = e' := by
  rintro s' rfl
  cases exit with
  | false =>
    cases hsim with
    | running hrep => exact hrep.abs_eq
  | true => cases hsim

/-- The condition on a key under which the view stays valid, and the screen shows it. -/
def Ed.ViewCareful (e : Ed) (i : Key × Env) : Prop :=
  e.Careful i.1 i.2 ∧ e.ScreenCareful i.1 i.2

instance decidableViewCareful (e : Ed) (i : Key × Env) : Decidable (e.ViewCareful i) :=
  inferInstanceAs (Decidable (e.Careful i.1 i.2 ∧ e.ScreenCareful i.1 i.2))

theorem keeps_shown : Keeps Ed.ViewCareful (fun e => e.Plain ∧ e.Shown) fun _ => True :=
  ⟨fun _ _ _ _ _ hi => hi.1, fun _ _ _ _ _ hI hi hround =>
    ⟨⟨hround.toPressed.plain hI.1, hround.shown hI.1 hI.2 hi.2⟩, fun _ => trivial⟩⟩

/-- **The screen.** -/
theorem screen_shown (hall : ∀ n, (answers n).granted = true)
    (hstart : editorStart fname content (Sys.blank answers vram) = some (true, s₀))
    (hansi : vram.ansi = none) (htext : Plain s₀.text) (hname : Plain s₀.ui.fpath.toList)
    (h : s₀.Reached Ed.ViewCareful (.running s)) :
    Shows s.text s.ui.startline s.ui.startx s.ui.vram := by
  obtain ⟨-, -, -, -, hshown⟩ := keeps_shown.running hall hstart (fun e hrep hstarted hfirst => by
    have hplain : e.Plain := by
      rw [hrep.text_eq] at htext
      have hui : s₀.ui = e.ui := congrArg Ed.ui hrep.abs_eq
      rw [hui] at hname
      refine ⟨htext, fun t ht => ?_, hname⟩
      rw [hstarted.block] at ht
      exact absurd ht List.not_mem_nil
    exact ⟨hplain, hfirst hansi hplain⟩) h
  exact hshown

/-- Lines are split, typed in, joined and removed. -/
theorem screen_shown_sample : ∃ s₀ s, openFile (some (ascii "a\nb\n")) = some (true, s₀) ∧
    s₀.Reached Ed.ViewCareful (.running s) ∧ Shows s.text s.ui.startline s.ui.startx s.ui.vram := by
  obtain ⟨s₀, S, hstart, hS, htest₀, htest⟩ := exists_session Ed.ViewCareful
    (some (ascii "a\nb\n"))
    [(.kcEnd, {}), (.kcEnter, {}), (.char ⟨0x78, by decide⟩, {}), (.kcHome, {}),
      (.kcBackspace, {}), (.kcCtrlY, {})]
    (fun s => decide (Plain s.text ∧ Plain s.ui.fpath.toList)) (Session.onRunning fun _ => true)
    (by decide +kernel) (by decide +kernel)
  obtain ⟨s, rfl, -⟩ := Session.exists_running htest
  obtain ⟨htext, hname⟩ := of_decide_eq_true htest₀
  exact ⟨s₀, s, hstart, hS, screen_shown granted_granting hstart rfl htext hname hS⟩

/-- The row of a line that was joined to the one above is not cleared. -/
theorem not_screen_shown : ¬ ∀ (answers : ℕ → Answer) (fname content : Option Str) (vram : Vram)
    (s₀ s : Sys), (∀ n, (answers n).granted = true) →
    editorStart fname content (Sys.blank answers vram) = some (true, s₀) → vram.ansi = none →
    Plain s₀.text → Plain s₀.ui.fpath.toList → s₀.Reached (fun _ _ => True) (.running s) →
      Shows s.text s.ui.startline s.ui.startx s.ui.vram := by
  intro hclaim
  obtain ⟨s₀, S, hstart, hS, htest₀, htest⟩ := exists_session (fun _ _ => True)
    (some (ascii "a\nb\n")) [(.kcEnd, {}), (.kcDel, {})]
    (fun s => decide (Plain s.text ∧ Plain s.ui.fpath.toList))
    (Session.onRunning fun s => s.text == [ascii "ab"] && s.ui.startline == 0 &&
      s.ui.vram.text (charAddr 0 1) == 0x62) (by decide +kernel) (by decide +kernel)
  obtain ⟨htext₀, hname⟩ := of_decide_eq_true htest₀
  obtain ⟨s, rfl, hstale⟩ := Session.exists_running htest
  simp only [Bool.and_eq_true, beq_iff_eq] at hstale
  obtain ⟨⟨htext, hfirst⟩, hstale⟩ := hstale
  have hshows := hclaim _ _ _ _ s₀ s granted_granting hstart rfl htext₀ hname hS
  have hrow := hshows.row 1 (by decide) trivial 0 (by decide)
  have hbehind : [ascii "ab"].getD ((0 : ℤ).toNat + 1) [] = [] := rfl
  rw [htext, hfirst, hstale, hbehind, visible, List.drop_nil, List.take_nil, ite_self] at hrow
  exact absurd hrow (by decide)

/-! ### The selection -/

/-- The condition on a key under which the marks of a selection stay lines of the text. -/
def Ed.SelectionCareful (e : Ed) (i : Key × Env) : Prop :=
  (i.1 ≠ .kcF4 → e.Careful i.1 i.2) ∧ e.MarkCareful i.1

instance decidableSelectionCareful (e : Ed) (i : Key × Env) : Decidable (e.SelectionCareful i) :=
  inferInstanceAs (Decidable ((i.1 ≠ .kcF4 → e.Careful i.1 i.2) ∧ e.MarkCareful i.1))

theorem keeps_marked : Keeps Ed.SelectionCareful Ed.Marked fun _ => True where
  careful e k env _ hI hi := by
    by_cases hk : k = .kcF4
    · subst hk
      exact hI
    · exact hi.1 hk
  round _ _ _ _ _ hI hi hround := ⟨hround.marked hi.2 hI, fun _ => trivial⟩

/-- No line belongs to both the text and the block buffer. -/
def Sys.LinesApart (s : Sys) : Prop :=
  ∃ ps qs : List Ptr, (s.lines.getD []).take s.fileLines.toNat = ps.map some ∧
    s.sellines.getD [] = qs.map some ∧ (ps ++ qs).Nodup

theorem Represents.linesApart (h : Represents s e) : s.LinesApart := by
  obtain ⟨lns, bls, junk, hst⟩ := h
  have hcells (l : Blocks) : l.cells = (l.map Prod.fst).map some := (List.map_map).symm
  have hnodup := hst.owns.nodup
  rw [List.map_append] at hnodup
  cases hblock : e.block with
  | none =>
    refine ⟨lns.map Prod.fst, [], hst.cells.take_eq.trans (hcells lns), ?_, ?_⟩
    · rw [hst.sellines, hblock]
      rfl
    · rw [List.append_nil]
      exact (List.nodup_append.mp hnodup).1
  | some bl =>
    refine ⟨lns.map Prod.fst, bls.map Prod.fst, hst.cells.take_eq.trans (hcells lns), ?_, hnodup⟩
    rw [hst.sellines, hblock]
    exact hcells bls

/-- The keys that leave the block buffer alone. -/
def Key.keepsBlock (k : Key) : Prop := k ∉ [Key.kcF4, .kcCtrlF4, .kcCtrlV]

theorem Key.keepsBlock.blockAfter (h : k.keepsBlock) (e : Ed) : e.blockAfter k = e.block := by
  unfold Ed.blockAfter
  split
  · exact absurd List.mem_cons_self h
  · exact absurd (by simp) h
  · exact absurd (by simp) h
  · rfl

/-- The copies are kept until a key of the selection is pressed. -/
theorem block_kept (hall : ∀ n, (answers n).granted = true)
    (hstart : editorStart fname content (Sys.blank answers vram) = some (true, s₀))
    (h : s₀.Reached Ed.SelectionCareful (.running s))
    (h' : s.Reached (fun e i => e.SelectionCareful i ∧ i.1.keepsBlock) S) :
    s₀.Reached Ed.SelectionCareful S ∧ ∀ s', S = .running s' → s'.block = s.block := by
  refine h'.invariant (P := fun S => s₀.Reached Ed.SelectionCareful S ∧
    ∀ s', S = .running s' → s'.block = s.block) ⟨h, ?_⟩ fun S i S' hP hi hstep => ?_
  · rintro s' hs'
    cases hs'
    rfl
  · obtain ⟨hS, hblock⟩ := hP
    cases S with
    | closed ts s₁ =>
      obtain rfl := Option.some.inj hstep
      exact ⟨hS, fun s' hs' => by cases hs'⟩
    | running s₁ =>
      obtain ⟨k, env⟩ := i
      refine ⟨hS.next hi.1 hstep, fun s' hs' => ?_⟩
      obtain ⟨hrep, hvalid, hg, hI⟩ := keeps_marked.running hall hstart
        (fun e _ hstarted _ hsel => absurd (hstarted.select.symm.trans hsel) Bool.false_ne_true) hS
      obtain ⟨exit, e', S₂, hround, hstep', hsim⟩ := keeps_marked.next hrep hvalid hg hI hi.1
      obtain rfl := Option.some.inj (hstep'.symm.trans hstep)
      have hkept := hround.block.trans (hi.2.blockAfter s₁.abs)
      exact (congrArg Ed.block (hround.abs_eq hsim s' hs')).trans (hkept.trans (hblock s₁ rfl))

/-- A round that does not close the editor. -/
theorem Round.running {exit : Bool} {e' : Ed} (hround : Round s.abs k env exit e')
    (hne : k ≠ .kcF10) (hsim : Simulates S (if exit then .closed e'.text e' else .running e')) :
    ∃ s', S = .running s' ∧ Represents s' e' := by
  cases exit with
  | true => exact absurd (hround.last rfl) hne
  | false =>
    cases hsim with
    | running hrep => exact ⟨_, rfl, hrep⟩

/-- The condition on a key under which the view stays valid, and no unsaved text is taken for a
saved one. -/
def Ed.SaveCareful (e : Ed) (i : Key × Env) : Prop := e.Careful i.1 i.2 ∧ e.FileCareful i.1 i.2

instance decidableSaveCareful (e : Ed) (i : Key × Env) : Decidable (e.SaveCareful i) :=
  inferInstanceAs (Decidable (e.Careful i.1 i.2 ∧ e.FileCareful i.1 i.2))

theorem keeps_tracked :
    Keeps Ed.SaveCareful Ed.Tracked fun e => e.text = e.ui.disk.saved ∨ e.Declined :=
  ⟨fun _ _ _ _ _ hi => hi.1, fun _ _ _ _ _ hI hi hround =>
    ⟨hround.tracked hi.2 hI, fun hexit => hround.closed hexit hi.2 hI⟩⟩

end Memory

end ELuaBrain.Editor
