import ELuaBrain.Editor.Edits
import ELuaBrain.Editor.Dialogs

/-!
# The selection and the commands

What each key does that is neither a movement nor an editing key, and what a round of the main loop
does with any key.

## Main definitions

* `Ed.ScreenCareful` : the condition on a key under which the screen shows the text again.
* `Ed.FileCareful` : the condition on a key under which no unsaved text is taken for a saved one.
* `Ed.Marked`, `Ed.MarkCareful` : the marks of a selection lie in the text, and the condition on a
  key under which they do so afterwards.
* `Pressed` : what a round of the main loop does.

## Main results

* `mainloopStep_spec` : a round of the main loop, for every key.
* `exit_spec` : the text when the editor is closed.
-/

namespace ELuaBrain.Editor

open Prog Program Vram

/-! ### What a key does -/

/-- The condition on a key under which the screen shows the text again. -/
def Ed.ScreenCareful (e : Ed) (k : Key) (env : Env) : Prop :=
  match k with
  -- `term_reset` does not end an escape sequence that a page or a program has begun
  | .kcF1 | .kcCtrlF1 => (env.page e.ui.vram.clrscr).ansi = none
  | .kcF5 => (env.page e.ui.vram.reset).ansi = none
  | _ => e.Repaints k

instance decidableScreenCareful (e : Ed) (k : Key) (env : Env) :
    Decidable (e.ScreenCareful k env) := by
  apply @Key.casesOn (fun k => Decidable (e.ScreenCareful k env)) k <;> intros <;>
    dsimp only [Ed.ScreenCareful] <;> infer_instance

/-- The name of the file that a text is saved to, if it is asked for. -/
def Ed.savePath (e : Ed) (env : Env) : Option Str :=
  match e.ui.fpath with
  | some name => some name
  | none => if env.entered then some (typedText 32 edutilsFnameValidator env.typed) else none

/-- The condition on a key under which a text that is not marked as changed is in the file. -/
def Ed.FileCareful (e : Ed) (k : Key) (env : Env) : Prop :=
  match k with
  -- the result of `fclose` is not looked at
  | .kcF2 | .kcCtrlF2 =>
      env.opens = true → (∀ c < e.text.length, env.writes c = true) → env.closes = true
  -- nor is that of saving
  | .kcF10 =>
      env.exitYes = true → e.ui.dirty = true → env.saveYes = true →
        e.Written env (e.savePath env) ∧ env.closes = true
  | _ => True

instance decidableWritten (e : Ed) (env : Env) (fname : Option Str) :
    Decidable (e.Written env fname) :=
  inferInstanceAs (Decidable (_ ∧ _))

instance decidableFileCareful (e : Ed) (k : Key) (env : Env) : Decidable (e.FileCareful k env) := by
  apply @Key.casesOn (fun k => Decidable (e.FileCareful k env)) k <;> intros <;>
    dsimp only [Ed.FileCareful] <;> infer_instance

/-- The marks of a selection that has not ended are lines of the text. -/
def Ed.Marked (e : Ed) : Prop :=
  e.ui.select = true → 0 ≤ min e.ui.firstsel e.ui.lastsel ∧
    max e.ui.firstsel e.ui.lastsel < e.text.length

/-- The condition on a key under which the marks of a selection stay lines of the text. -/
def Ed.MarkCareful (e : Ed) (k : Key) : Prop :=
  -- the marks are stored in an `s16`
  (k = .kcF4 ∨ e.ui.select = true → e.text.length ≤ 32768) ∧
    -- and stay where they are when a line is removed
    (e.ui.select = true → removesLine e.text e.lineid.toNat e.linepos.toNat k →
      max e.ui.firstsel e.ui.lastsel + 1 < e.text.length)

instance decidableMarkCareful (e : Ed) (k : Key) : Decidable (e.MarkCareful k) :=
  inferInstanceAs (Decidable (_ ∧ _))

/-- What a round of the main loop does with a key. -/
structure Pressed (e : Ed) (k : Key) (env : Env) (e' : Ed) : Prop where
  text : e'.text = e.edited k
  block : e'.block = e.blockAfter k
  answers : e'.answers = e.answers
  valid : e'.Valid
  fpath : Plain e.ui.fpath.toList → Plain e'.ui.fpath.toList
  shown : e.Plain → e.Shown → e.ScreenCareful k env → e'.Shown
  tracked : e.FileCareful k env → e.Tracked → e'.Tracked
  marked : e.MarkCareful k → e.Marked → e'.Marked

variable {e e' : Ed} {k : Key} {env : Env}

/-- The marks after an editing key. -/
theorem Edited.marked (h : Edited e k e') (hi : e.lineid.toNat < e.text.length)
    (hc : e.MarkCareful k) (hm : e.Marked) : e'.Marked := by
  intro hsel
  rw [h.select] at hsel
  obtain ⟨hfirst, hlast⟩ := h.marks hsel
  obtain ⟨hnonneg, hlt⟩ := hm hsel
  rw [hfirst, hlast, h.text]
  refine ⟨hnonneg, ?_⟩
  obtain hle | ⟨hremoves, hlen⟩ := length_editText e.linepos.toNat (e.block.getD []) k hi
  · exact hlt.trans_le (by exact_mod_cast hle)
  · have hroom := hc.2 hsel hremoves
    rw [Ed.edited]
    omega

theorem Edited.pressed (h : Edited e k e') (hi : e.lineid.toNat < e.text.length)
    (hk : e.ScreenCareful k env → e.Repaints k) :
    Pressed e k env e' where
  marked := h.marked hi
  text := h.text
  block := h.block
  answers := h.answers
  valid := h.valid
  fpath hplain := by rwa [h.fpath]
  shown hplain hsh hc := h.shown hplain hsh (hk hc)
  tracked _ htr hd := by
    obtain ⟨hclean, htext⟩ := h.clean hd
    rw [htext, h.disk]
    exact htr hclean

/-- Another screen that shows the same, and requests to the allocator. -/
theorem Ed.Valid.screen (h : e.Valid) {v : Vram} {n : ℕ} :
    Ed.Valid { e with calls := n, ui := { e.ui with vram := v } } :=
  ⟨h.window, h.column, h.pos_le, h.user, h.nlines, h.delLastLine, h.select, h.marks, h.terminated⟩

/-- A dialog, and a movement. -/
theorem Moved.pressed {v : Vram} {n : ℕ}
    (h : Moved { e with calls := n, ui := { e.ui with vram := v } } e')
    (hv : SameScreen e.ui.vram v) (ht : e.edited k = e.text) (hb : e.blockAfter k = e.block) :
    Pressed e k env e' where
  text := h.text.trans ht.symm
  block := h.block.trans hb.symm
  answers := h.answers
  valid := h.valid
  fpath hplain := by rwa [h.fpath]
  shown hplain hsh _ := h.shown hplain (hsh.sameScreen hv)
  tracked _ htr hd := by
    rw [h.text, h.disk]
    exact htr (h.dirty.symm.trans hd)
  marked hc hm hsel := by
    have hsel' : e.ui.select = true := h.select.symm.trans hsel
    have hmany : e.text.length ≤ 32768 := hc.1 (.inr hsel')
    obtain ⟨hnonneg, hlt⟩ := hm hsel'
    have hfirst : e'.ui.firstsel = e.ui.firstsel := h.firstsel
    have htext : e'.text = e.text := h.text
    have hfollows : e.Follows e'.ui.lastsel := h.follows
    rw [hfirst, htext]
    obtain hlast | ⟨-, line, hline, hline', hlast⟩ := hfollows
    · rw [hlast]
      exact ⟨hnonneg, hlt⟩
    · rw [hlast, s16_eq (by omega) (by omega)]
      omega

/-! ### The selection -/

theorem length_selection {text : List Str} {first last : ℤ} (hfirst : 0 ≤ first)
    (hle : first ≤ last) (hlast : last < text.length) :
    ((Ed.selection text first last).length : ℤ) = last - first + 1 := by
  rw [Ed.selection, List.length_take, List.length_drop]
  omega

theorem mem_of_mem_selection {text : List Str} {first last : ℤ} {t : Str}
    (h : t ∈ Ed.selection text first last) : t ∈ text :=
  List.mem_of_mem_drop (List.mem_of_mem_take h)

/-- The block buffer is freed. -/
theorem Ed.Valid.noBlock (h : e.Valid) (sel : Bool) (fs ls : ℤ) (v : Vram) :
    Ed.Valid { e with block := none, ui := { e.ui with
      select := sel, firstsel := fs, lastsel := ls, vram := v } } where
  window := h.window
  column := h.column
  pos_le := h.pos_le
  user := h.user
  nlines := h.nlines
  delLastLine := h.delLastLine
  select _ := rfl
  marks bl hbl := absurd hbl (Option.some_ne_none bl).symm
  terminated t ht := h.terminated t (List.mem_append_left _ (by simpa using ht))

/-- **`edmove_toggle_select`**, where a selection ends. -/
theorem toggleSelect_end_spec (h : e.Valid) (hg : e.Granting) (hc : e.Careful .kcF4 env)
    (hsel : e.ui.select = true) :
    edmoveToggleSelect.Ensures Ed.perform e fun _ e' => Pressed e .kcF4 env e' ∧
      e'.ui.firstsel = min e.ui.firstsel e.ui.lastsel ∧
      e'.ui.lastsel = max e.ui.firstsel e.ui.lastsel := by
  obtain ⟨hfirst, hlast⟩ := hc hsel
  have hle := min_le_max (a := e.ui.firstsel) (b := e.ui.lastsel)
  have hblock : e.blockAfter .kcF4 = some (Ed.selection e.text
      (min e.ui.firstsel e.ui.lastsel) (max e.ui.firstsel e.ui.lastsel)) := by
    rw [Ed.blockAfter, if_pos hsel]
  simp only [edmoveToggleSelect, ensures_bind, ensures_ui, ensures_fileLines, hsel, ensures_ite,
    ↓reduceIte, ensures_modify]
  refine ensures_fillSelection (by exact hg) hfirst hle hlast (h.select hsel) fun c => ?_
  refine ensures_displayStatus fun v hv => ?_
  refine ⟨⟨rfl, hblock.symm, rfl, ?_, id, fun hplain hsh _ => ?_, fun _ htr => htr,
    fun _ _ hf => absurd hf Bool.false_ne_true⟩, rfl, rfl⟩
  · exact
      { window := h.window
        column := h.column
        pos_le := h.pos_le
        user := h.user
        nlines := h.nlines
        delLastLine := h.delLastLine
        select := fun hf => absurd hf Bool.false_ne_true
        marks := fun bl hbl => by
          obtain rfl := Option.some.inj hbl
          exact (length_selection hfirst hle hlast).symm
        terminated := fun t ht => by
          refine h.terminated t (List.mem_append_left _ ?_)
          obtain ht | ht := List.mem_append.mp ht
          · exact ht
          · exact mem_of_mem_selection ht }
  · refine hv _ _ _ _ ⟨hplain.text, fun t ht => ?_, hplain.fpath⟩ hsh
    exact hplain.text t (mem_of_mem_selection ht)

/-- **`edmove_toggle_select`**, where a selection begins. -/
theorem toggleSelect_begin_spec (h : e.Valid) (hsel : e.ui.select = false) :
    edmoveToggleSelect.Ensures Ed.perform e fun _ e' => Pressed e .kcF4 env e' := by
  have hsl := h.window.sl_nonneg
  have hcy := h.window.cy_nonneg
  have hlt := h.window.lt
  have hne : (e.text.length : ℤ) > 0 := by omega
  have hblock : e.blockAfter .kcF4 = none := by
    rw [Ed.blockAfter, if_neg (by simp [hsel])]
  simp only [edmoveToggleSelect, ensures_bind, ensures_ui, ensures_fileLines, hsel, ensures_ite,
    Bool.false_eq_true, ↓reduceIte, ensures_when, hne, ensures_modify]
  refine ensures_clearSelection h.marks fun fs ls _ => ?_
  refine ensures_lineDisplay h.window.cy_nonneg h.window.cy_lt rfl h.window.sl_nonneg h.window.lt
    fun v hv => ?_
  refine ⟨rfl, hblock.symm, rfl, h.noBlock true _ _ v, id, fun hplain hsh _ => ?_,
    fun _ htr => htr, fun hc _ _ => ?_⟩
  · refine (hv _ ⟨hplain.text, fun t ht => absurd ht List.not_mem_nil, hplain.fpath⟩ hsh).mono
      fun r _ _ => .inl trivial
  · have hmany := hc.1 (.inl rfl)
    dsimp only
    rw [s16_eq (by omega) (by omega), min_self, max_self]
    exact ⟨by omega, hlt⟩

/-- **`edmove_clear_selection`.** -/
theorem clearSelection_spec (h : e.Valid) :
    edmoveClearSelection.Ensures Ed.perform e fun _ e' => Pressed e .kcCtrlF4 env e' := by
  rw [edmoveClearSelection, ensures_bind]
  refine ensures_clearSelection h.marks fun fs ls hmarks => ?_
  refine ensures_displayStatus fun v hv => ?_
  refine ⟨rfl, rfl, rfl, h.noBlock e.ui.select fs ls v, id, fun hplain hsh _ => ?_,
    fun _ htr => htr, fun _ hm hsel => ?_⟩
  · exact hv _ _ _ _ ⟨hplain.text, fun t ht => absurd ht List.not_mem_nil, hplain.fpath⟩ hsh
  · obtain ⟨hfirst, hlast⟩ := hmarks (h.select hsel)
    dsimp only
    rw [hfirst, hlast]
    exact hm hsel

theorem plain_blockAfter (h : e.Plain) (k : Key) : Plain ((e.blockAfter k).getD []) := by
  unfold Ed.blockAfter
  split
  · split
    · exact fun t ht => h.text t (mem_of_mem_selection ht)
    · exact fun t ht => absurd ht List.not_mem_nil
  · exact fun t ht => absurd ht List.not_mem_nil
  · exact fun t ht => absurd ht List.not_mem_nil
  · exact h.block

/-- What is typed or copied can be shown. -/
theorem Pressed.plain (h : Pressed e k env e') (hp : e.Plain) : e'.Plain := by
  refine ⟨?_, ?_, h.fpath hp.fpath⟩
  · rw [h.text]
    exact (PlainStrings.edited hp k).text
  · rw [h.block]
    exact plain_blockAfter hp k

/-! ### Going to a line -/

/-- The window of `edmove_goto_line`. -/
theorem window_gotoStart {n y : ℤ} (hy : 1 ≤ y) (hle : y ≤ n) (hmax : gotoStart n y ≤ 32767) :
    Window n (gotoStart n y) (y - 1 - gotoStart n y) := by
  have hlines : editorLines = 29 := rfl
  rw [gotoStart] at hmax ⊢
  simp only [hlines] at hmax ⊢
  split at hmax
  next hfar =>
    rw [if_pos hfar]
    exact ⟨by omega, hmax, by omega, by omega, by omega⟩
  next hnear =>
    rw [if_neg hnear]
    exact ⟨by omega, hmax, by omega, by omega, by omega⟩

/-- The window only moves down if it is filled then. -/
theorem gotoStart_rows {n y sl : ℤ} (hsl : 0 ≤ sl) :
    gotoStart n y ≤ sl ∨ gotoStart n y + 29 ≤ n := by
  have hlines : editorLines = 29 := rfl
  rw [gotoStart]
  simp only [hlines]
  split <;> omega

/-- **`edmove_goto_line`.** -/
theorem gotoLine_spec {y : ℤ} (h : e.Valid) (hy : 1 ≤ y) (hle : y ≤ e.text.length)
    (hmax : gotoStart e.text.length y ≤ 32767) :
    (edmoveGotoLine y).Ensures Ed.perform e fun _ e' => Moved e e' := by
  have hw := window_gotoStart hy hle hmax
  have hrows := gotoStart_rows (n := e.text.length) (y := y) h.window.sl_nonneg
  simp only [edmoveGotoLine, ensures_bind, ensures_fileLines, ensures_when, ensures_modify,
    ensures_ui]
  have hstart : (if max (y - 1 - editorLines / 2) 0 + editorLines > (e.text.length : ℤ) then
      max ((e.text.length : ℤ) - editorLines) 0 else max (y - 1 - editorLines / 2) 0) =
      gotoStart e.text.length y := rfl
  have hcy := hw.cy_nonneg
  have hcy' := hw.cy_lt
  have hlt := hw.lt
  have hnonneg := hw.sl_nonneg
  rw [if_pos (by omega), hstart, s16_eq (by omega) hmax, s16_eq (by omega) (by omega)]
  split
  next hmove =>
    refine ensures_showScreen hw.sl_nonneg hmax (by dsimp only; omega) fun v hv => ?_
    dsimp only at hv ⊢
    refine ensures_displayStatus fun v₁ hv₁ => ?_
    dsimp only at hv₁ ⊢
    refine ensures_cursorCheck hw h.user rfl rfl fun sx cx nl d v₂ hc hpos hnl hd hv₂ => ?_
    dsimp only at *
    refine h.moved hw hc hpos h.user hnl hd (.inl rfl) fun hplain hsh => ?_
    refine hv₂ hplain (hv₁ _ _ _ _ hplain ?_)
    -- behind the text, the old screen is blank
    have hbelow : ShowsOn (fun r => (e.text.length : ℤ) - gotoStart e.text.length y ≤ r) e.text
        (gotoStart e.text.length y) e.ui.startx e.ui.vram := by
      refine ⟨hsh.ansi, fun r hr hle => ?_⟩
      refine (h.showsOn_below hsh hw.sl_nonneg).row r hr ⟨hle, ?_⟩
      omega
    exact hv _ (fun r _ hr => .inl hr) hplain hbelow
  next hstay =>
    rw [not_not] at hstay
    rw [hstay] at hw hcy hcy' ⊢
    refine ensures_displayStatus fun v₁ hv₁ => ?_
    dsimp only at hv₁ ⊢
    refine ensures_cursorCheck hw h.user h.nlines h.delLastLine
      fun sx cx nl d v₂ hc hpos hnl hd hv₂ => ?_
    dsimp only at *
    exact h.moved hw hc hpos h.user hnl hd (.inl rfl) fun hplain hsh =>
      hv₂ hplain (hv₁ _ _ _ _ hplain hsh)

/-- **`editor_goto_line`.** -/
theorem editorGotoLine_spec (h : e.Valid) (hg : e.Granting) (hc : e.Careful .kcF7 env) :
    (editorGotoLine env).Ensures Ed.perform e fun _ e' => Pressed e .kcF7 env e' := by
  have hdigits : ∀ c ∈ ascii "Enter line number", Displayable c :=
    displayable_ascii (by decide +kernel)
  have hinvalid : ∀ c ∈ ascii "Invalid line number", Displayable c :=
    displayable_ascii (by decide +kernel)
  simp only [editorGotoLine, ensures_bind, ensures_ui, ensures_when]
  split
  next hsel =>
    refine ensures_edhwRead hg hdigits (by decide) (by decide) fun v n hv => ?_
    by_cases hentered : env.entered = true
    · obtain ⟨hne, hbound⟩ := hc hsel hentered
      rw [if_pos hentered]
      generalize typedText 6 edutilsNumberValidator env.typed = line at hne hbound ⊢
      simp only [ensures_bind, ensures_fileLines, ensures_ite]
      split
      next hout =>
        refine ensures_edhwMsg (by exact hg) hinvalid (by decide) fun v' n' hv' => ?_
        exact h.screen.refl.pressed (hv.trans hv') rfl rfl
      next hin =>
        rw [not_or, not_lt, not_lt] at hin
        have hscreen := h.screen (v := v) (n := n)
        exact (gotoLine_spec hscreen (by omega) hin.2 (hbound hin.1 hin.2)).mono
          fun _ _ hm => hm.pressed hv rfl rfl
    · rw [if_neg hentered]
      exact (ensures_pure ()).mpr (h.screen.refl.pressed hv rfl rfl)
  next => exact h.refl.pressed (fun hansi => ⟨rfl, hansi⟩) rfl rfl

/-! ### Pages and programs -/

/-- A redraw of the whole screen. -/
theorem Ed.Valid.redraw (h : e.Valid) {w : Vram} {n : ℕ} (ht : e.edited k = e.text)
    (hb : e.blockAfter k = e.block) (hw : e.ScreenCareful k env → w.ansi = none) :
    edutilsShowScreen.Ensures Ed.perform { e with calls := n, ui := { e.ui with vram := w.reset } }
      fun _ e' => Pressed e k env e' := by
  obtain ⟨hsl, hsl', hcy, hcy', hlt⟩ := h.window
  refine ensures_showScreen hsl hsl' (by dsimp only; omega) fun v hv => ?_
  dsimp only at hv ⊢
  exact
    { text := ht.symm
      block := hb.symm
      answers := rfl
      valid := ⟨h.window, h.column, h.pos_le, h.user, rfl, rfl, h.select, h.marks, h.terminated⟩
      fpath := id
      shown := fun hplain _ hc => hv _ (fun r _ hr => .inl hr) hplain (showsOn_reset hsl (hw hc))
      tracked := fun _ htr => htr
      marked := fun _ hm => hm }

/-- **`editor_help`** and **`editor_apihelp`**. -/
theorem editorHelp_spec (h : e.Valid) (ht : e.edited k = e.text) (hb : e.blockAfter k = e.block)
    (hk : e.ScreenCareful k env → (env.page e.ui.vram.clrscr).ansi = none) :
    (editorHelp env).Ensures Ed.perform e fun _ e' => Pressed e k env e' := by
  rw [editorHelp, ensures_bind, ensures_term]
  exact h.redraw (n := e.calls) ht hb hk

theorem ensures_readLines {l : List ℕ} {Q : Unit → Ed → Prop} (hl : ∀ c ∈ l, c < e.text.length) :
    (forEach l fun c => do let _ ← lineAt c).Ensures Ed.perform e Q ↔ Q () e := by
  refine ensures_iff_of_run ?_
  induction l with
  | nil => rfl
  | cons c l ih =>
    have hline : (lineAt c).run Ed.perform e = some (e.text.getD c [], e) :=
      (run_perform _ _ _).trans (Ed.line_eq (Int.natCast_nonneg c)
        (Int.ofNat_lt.mpr (hl c List.mem_cons_self)))
    rw [run_forEach_cons, run_bind, hline]
    exact ih fun c' hc' => hl c' (List.mem_cons_of_mem _ hc')

/-- **`editor_run`.** -/
theorem editorRun_spec (h : e.Valid) (hg : e.Granting) :
    (editorRun env).Ensures Ed.perform e fun _ e' => Pressed e .kcF5 env e' := by
  have hg' : ∀ n, e.answers n = true := hg
  have hmemory : ∀ c ∈ ascii "Not enough memory", Displayable c :=
    displayable_ascii (by decide +kernel)
  have hlines : ∀ c ∈ List.range (e.text.length : ℤ).toNat, c < e.text.length := fun c hc => by
    rw [List.mem_range] at hc
    omega
  simp only [editorRun, ensures_bind, ensures_fileLines]
  rw [ensures_readLines hlines, ensures_malloc (hg' _), if_pos rfl, ensures_bind,
    ensures_readLines (by exact hlines), ensures_ite]
  split
  next hopens =>
    rw [ensures_bind, ensures_term]
    exact h.redraw rfl rfl fun hc => hc
  next hfails =>
    refine ensures_edhwMsg (by exact hg) hmemory (by decide) fun v n hv => ?_
    exact h.screen.refl.pressed hv rfl rfl

/-! ### Saving -/

/-- What saving does to the editor, where `fname` is the name of the file. -/
structure Filed (e : Ed) (env : Env) (fname : Option Str) (e' : Ed) : Prop where
  text : e'.text = e.text
  block : e'.block = e.block
  answers : e'.answers = e.answers
  valid : e'.Valid
  select : e'.ui.select = e.ui.select
  firstsel : e'.ui.firstsel = e.ui.firstsel
  lastsel : e'.ui.lastsel = e.ui.lastsel
  fpath : Plain e.ui.fpath.toList → Plain e'.ui.fpath.toList
  shown : e.Plain → e.Shown → e'.Shown
  tracked : (env.opens = true → (∀ c < e.text.length, env.writes c = true) → env.closes = true) →
    e.Tracked → e'.Tracked
  saved : e.Written env fname → env.closes = true → e'.ui.disk.saved = e.text

/-- Another name, another screen and another file do not change the view. -/
theorem Ed.Valid.file (h : e.Valid) {n : ℕ} {p : Option Str} {d : Bool} {f : Disk}
    {g : List (Str × Bool)} {v : Vram} :
    Ed.Valid { e with calls := n, ui := { e.ui with
      fpath := p, dirty := d, disk := f, dialogs := g, vram := v } } :=
  ⟨h.window, h.column, h.pos_le, h.user, h.nlines, h.delLastLine, h.select, h.marks, h.terminated⟩

/-- A dialog alone. -/
theorem Ed.Valid.dialog (h : e.Valid) {n : ℕ} {g : List (Str × Bool)} {v : Vram}
    (hv : SameScreen e.ui.vram v) :
    Filed e env none { e with calls := n, ui := { e.ui with vram := v, dialogs := g } } :=
  ⟨rfl, rfl, rfl, h.file, rfl, rfl, rfl, id, fun _ hsh => hsh.sameScreen hv, fun _ htr => htr,
    fun hw => absurd rfl hw.1⟩

/-- A dialog before, and another name. -/
theorem Filed.dialog {n : ℕ} {p : Option Str} {g : List (Str × Bool)} {v : Vram}
    {fname : Option Str}
    (h : Filed { e with calls := n, ui := { e.ui with fpath := p, vram := v, dialogs := g } } env
      fname e')
    (hv : SameScreen e.ui.vram v) (hp : Plain e.ui.fpath.toList → Plain p.toList) :
    Filed e env fname e' :=
  ⟨h.text, h.block, h.answers, h.valid, h.select, h.firstsel, h.lastsel,
    fun hplain => h.fpath (hp hplain),
    fun hplain hsh => h.shown ⟨hplain.text, hplain.block, hp hplain.fpath⟩ (hsh.sameScreen hv),
    h.tracked, h.saved⟩

/-- **`editor_save_file`.** -/
theorem editorSaveFile_spec (h : e.Valid) (hg : e.Granting) :
    (editorSaveFile env).Ensures Ed.perform e fun _ e' => Filed e env e.ui.fpath e' := by
  simp only [editorSaveFile, ensures_bind, ensures_ui]
  refine ensures_saveFile hg fun r d f v n hs => ?_
  rw [ensures_pure]
  refine ⟨rfl, rfl, rfl, h.file, rfl, rfl, rfl, id,
    fun hplain hsh => hs.shown _ _ _ _ hplain hsh, fun hclose htr hd => ?_,
    fun hw hclose => (hs.done (hs.written.mpr hw)).2.2 hclose⟩
  cases r with
  | true =>
    have hw := hs.written.mp rfl
    exact ((hs.done rfl).2.2 (hclose hw.2.1 hw.2.2)).symm
  | false =>
    obtain ⟨hdirty, hsaved⟩ := hs.failed rfl
    exact (htr (hdirty.symm.trans hd)).trans hsaved.symm

theorem displayable_typedText (maxlen : ℕ) (validator : Str → UInt8 → Bool) (ks : List PromptKey) :
    ∀ c ∈ typedText maxlen validator ks, Displayable c := by
  rw [typedText_eq]
  refine List.foldlRecOn (motive := fun s => ∀ c ∈ s, Displayable c) ks _ (by simp)
    fun s hs k _ => ?_
  cases k with
  | kcBackspace => exact fun c hc => hs c (List.dropLast_subset s hc)
  | char c =>
    rw [typeKey]
    split
    · intro c' hc'
      obtain hc' | hc' := List.mem_append.mp hc'
      · exact hs c' hc'
      · rw [List.mem_singleton.mp hc']
        exact displayable_printable c
    · exact hs

/-- The name of the file that `editor_saveas_file` saves to. -/
def Ed.saveasPath (e : Ed) (env : Env) : Option Str :=
  if env.entered then
    if typedText 32 edutilsFnameValidator env.typed = [] then e.ui.fpath
    else some (typedText 32 edutilsFnameValidator env.typed)
  else none

/-- **`edalloc_set_fname`.** -/
theorem ensures_setFname {name : Str} {Q : Bool → Ed → Prop} (hg : e.Granting)
    (hQ : ∀ n, Q true { e with
      calls := n, ui := { e.ui with fpath := if name = [] then e.ui.fpath else some name } }) :
    (edallocSetFname name).Ensures Ed.perform e Q := by
  have hg' : ∀ n, e.answers n = true := hg
  rw [edallocSetFname, ensures_ite]
  split
  next hne =>
    simp only [if_neg hne] at hQ
    simp only [ensures_bind, ensures_modify, ensures_malloc, hg', ensures_ite, ↓reduceIte,
      ensures_pure]
    exact hQ _
  next hempty =>
    rw [not_not] at hempty
    simp only [if_pos hempty] at hQ
    exact (ensures_pure true).mpr (hQ _)

/-- **`editor_saveas_file`.** -/
theorem editorSaveasFile_spec (h : e.Valid) (hg : e.Granting) :
    (editorSaveasFile env).Ensures Ed.perform e fun _ e' => Filed e env (e.saveasPath env) e' := by
  have hprompt : ∀ c ∈ ascii "Enter file name", Displayable c :=
    displayable_ascii (by decide +kernel)
  rw [editorSaveasFile, ensures_bind]
  refine ensures_edhwRead hg hprompt (by decide) (by decide) fun v n hv => ?_
  have htyped := displayable_typedText 32 edutilsFnameValidator env.typed
  rw [Ed.saveasPath]
  generalize typedText 32 edutilsFnameValidator env.typed = name at htyped ⊢
  by_cases hentered : env.entered = true
  · rw [if_pos hentered, if_pos hentered]
    have hname : Plain e.ui.fpath.toList →
        Plain (if name = [] then e.ui.fpath else some name).toList := fun hplain => by
      split
      · exact hplain
      · intro t ht
        obtain rfl := Option.some.inj (Option.mem_toList.mp ht)
        exact htyped
    simp only [ensures_bind]
    refine ensures_setFname (by exact hg) fun n' => ?_
    simp only [↓reduceIte, ensures_bind, ensures_pure]
    have hfile : Ed.Valid { e with calls := n', ui := { e.ui with
      fpath := if name = [] then e.ui.fpath else some name, vram := v } } := h.file
    exact (editorSaveFile_spec hfile hg).mono fun _ e' hf => Filed.dialog (e := e) hf hv hname
  · rw [if_neg hentered, if_neg hentered]
    exact (ensures_pure true).mpr (h.dialog (n := n) (g := e.ui.dialogs) hv)

theorem Filed.pressed {fname : Option Str} (h : Filed e env fname e') (ht : e.edited k = e.text)
    (hb : e.blockAfter k = e.block) (hk : e.FileCareful k env → e.Tracked → e'.Tracked) :
    Pressed e k env e' where
  text := h.text.trans ht.symm
  block := h.block.trans hb.symm
  answers := h.answers
  valid := h.valid
  fpath := h.fpath
  shown hplain hsh _ := h.shown hplain hsh
  tracked := hk
  marked _ hm hsel := by
    rw [h.firstsel, h.lastsel, h.text]
    exact hm (h.select.symm.trans hsel)

/-- What was asked last, if the text is not in the file. -/
def Ed.Declined (e : Ed) : Prop := e.ui.dialogs.head? = some (saveQuestion, false)

/-- Saving when the editor is closed. -/
theorem exitSave_spec (env : Env) (h : e.Valid) (hg : e.Granting) :
    (do
      let u ← ui
      if u.fpath.isSome then editorSaveFile env
      else do
        let _ ← editorSaveasFile env : Prog Unit).Ensures Ed.perform e fun _ e' =>
      ∃ fname, Filed e env fname e' ∧ (e.Written env (e.savePath env) → e.Written env fname) := by
  simp only [ensures_bind, ensures_ui, ensures_ite]
  split
  next hsome =>
    refine (editorSaveFile_spec h hg).mono fun _ e' hf => ⟨_, hf, fun hw => ?_⟩
    obtain ⟨name, hname⟩ := Option.isSome_iff_exists.mp hsome
    rw [Ed.savePath, hname] at hw
    rw [hname]
    exact hw
  next hnone =>
    have hname : e.ui.fpath = none := Option.not_isSome_iff_eq_none.mp hnone
    refine (editorSaveasFile_spec h hg).mono fun _ e' hf => ?_
    rw [ensures_pure]
    refine ⟨_, hf, fun hw => ?_⟩
    rw [Ed.savePath, hname] at hw
    rw [Ed.saveasPath, hname]
    split
    next hentered =>
      simp only [hentered, ↓reduceIte] at hw
      split
      next hempty => exact absurd hempty hw.1
      next => exact hw
    next hcancelled =>
      simp only [hcancelled] at hw
      exact hw

/-- **`editor_exit`.** -/
theorem editorExit_spec (h : e.Valid) (hg : e.Granting) :
    (editorExit env).Ensures Ed.perform e fun exit e' => Pressed e .kcF10 env e' ∧
      (exit = true → e.FileCareful .kcF10 env → e.Tracked →
        e'.text = e'.ui.disk.saved ∨ e'.Declined) := by
  have hsure : ∀ c ∈ ascii "Are you sure you want to exit?", Displayable c :=
    displayable_ascii (by decide +kernel)
  have hsave : ∀ c ∈ saveQuestion, Displayable c := displayable_ascii (by decide +kernel)
  rw [editorExit, ensures_bind]
  refine ensures_edhwDlg hg hsure (by decide) fun v n hv => ?_
  have hasked : Filed e env none { e with
      calls := n
      ui := { e.ui with
        vram := v
        dialogs := (ascii "Are you sure you want to exit?", env.exitYes) :: e.ui.dialogs } } :=
    h.dialog hv
  rw [ensures_ite]
  split
  next hyes =>
    rw [ensures_bind, ensures_ui, ensures_bind, ensures_when]
    split
    next hdirty =>
      rw [ensures_bind]
      refine ensures_edhwDlg (by exact hg) hsave (by decide) fun v' n' hv' => ?_
      rw [ensures_when]
      have hasked' : Filed e env none { e with
          calls := n'
          ui := { e.ui with
            vram := v'
            dialogs := (saveQuestion, env.saveYes) ::
              (ascii "Are you sure you want to exit?", env.exitYes) :: e.ui.dialogs } } :=
        h.dialog (hv.trans hv')
      by_cases hsaveYes : env.saveYes = true
      · rw [if_pos hsaveYes]
        refine (exitSave_spec env hasked'.valid (by exact hg)).mono fun _ e' hs => ?_
        obtain ⟨fname, hf, hw⟩ := hs
        have hf' : Filed e env fname e' := Filed.dialog (e := e) hf (hv.trans hv') id
        have hsaved (hc : e.FileCareful .kcF10 env) : e'.text = e'.ui.disk.saved := by
          obtain ⟨hwritten, hcloses⟩ := hc hyes hdirty hsaveYes
          rw [hf'.text, hf'.saved (hw hwritten) hcloses]
        rw [ensures_pure]
        exact ⟨hf'.pressed rfl rfl fun hc _ _ => hsaved hc, fun _ hc _ => .inl (hsaved hc)⟩
      · rw [if_neg hsaveYes, ensures_pure]
        refine ⟨hasked'.pressed rfl rfl fun _ htr => htr, fun _ _ _ => .inr ?_⟩
        rw [Bool.not_eq_true] at hsaveYes
        rw [Ed.Declined, hsaveYes]
        rfl
    next hclean =>
      rw [ensures_pure]
      exact ⟨hasked.pressed rfl rfl fun _ htr => htr,
        fun _ _ htr => .inl (htr (Bool.not_eq_true _ ▸ hclean))⟩
  next hno =>
    rw [ensures_pure]
    exact ⟨hasked.pressed rfl rfl fun _ htr => htr, fun hf => absurd hf Bool.false_ne_true⟩

/-! ### Rounds of the main loop -/

/-- What a round of the main loop does with a key, and whether it is the last one. -/
structure Round (e : Ed) (k : Key) (env : Env) (exit : Bool) (e' : Ed) : Prop
    extends Pressed e k env e' where
  last : exit = true → k = .kcF10
  ended : k = .kcF4 → e.ui.select = true →
    e'.ui.firstsel = min e.ui.firstsel e.ui.lastsel ∧
      e'.ui.lastsel = max e.ui.firstsel e.ui.lastsel
  closed : exit = true → e.FileCareful k env → e.Tracked →
    e'.text = e'.ui.disk.saved ∨ e'.Declined

theorem Pressed.round (h : Pressed e k env e') (hk : k ≠ .kcF4) : Round e k env false e' :=
  { h with
    last := fun hf => absurd hf Bool.false_ne_true
    ended := fun hf => absurd hf hk
    closed := fun hf => absurd hf Bool.false_ne_true }

section Keys

variable {P : Ed → Prop}

theorem ensures_moveKey
    (h : (edmoveHandleKey k).Ensures Ed.perform e fun moved e' => moved = true ∧ P e') :
    (mainloopStep k env).Ensures Ed.perform e fun exit e' => exit = false ∧ P e' := by
  rw [mainloopStep, ensures_bind]
  refine h.mono fun moved e' hm => ?_
  rw [hm.1, if_pos rfl, ensures_pure]
  exact ⟨rfl, hm.2⟩

theorem ensures_editKey (hk : edmoveHandleKey k = return false)
    (h : (ededitHandleKey k).Ensures Ed.perform e fun r e' => r = .done ∧ P e') :
    (mainloopStep k env).Ensures Ed.perform e fun exit e' => exit = false ∧ P e' := by
  rw [mainloopStep, ensures_bind, hk, ensures_pure, if_neg Bool.false_ne_true, ensures_bind]
  refine h.mono fun r e' hm => ?_
  rw [hm.1, if_pos rfl, ensures_pure]
  exact ⟨rfl, hm.2⟩

theorem ensures_commandKey {Q : Bool → Ed → Prop} (hk : edmoveHandleKey k = return false)
    (hk' : ededitHandleKey k = return .notMine) :
    (mainloopStep k env).Ensures Ed.perform e Q ↔
      (editorCommand k env).Ensures Ed.perform e Q := by
  rw [mainloopStep, ensures_bind, hk, ensures_pure, if_neg Bool.false_ne_true, ensures_bind, hk',
    ensures_pure, if_neg (by decide), ensures_bind, ensures_when, if_neg (by decide)]

/-- A movement key that changes the line. -/
theorem ensures_lineKey {p : Prog Unit}
    (hp : p.Ensures Ed.perform e fun _ e' => Moved e e') :
    (do p; return true : Prog Bool).Ensures Ed.perform e fun moved e' =>
      moved = true ∧ Moved e e' := by
  rw [ensures_bind]
  exact hp.mono fun _ _ hm => (ensures_pure true).mpr ⟨rfl, hm⟩

/-- A movement key that changes the column, which is remembered. -/
theorem ensures_columnKey {p : Prog Unit}
    (hp : p.Ensures Ed.perform e fun _ e' => Moved e e') :
    (do p; edmoveSaveCursorx; return true : Prog Bool).Ensures Ed.perform e fun moved e' =>
      moved = true ∧ Moved e e' := by
  simp only [ensures_bind]
  exact hp.mono fun _ _ hm => hm.saveCursorx.mono fun _ _ hm' => (ensures_pure true).mpr ⟨rfl, hm'⟩

theorem round_of_move (hk : k ≠ .kcF4) (ht : e.edited k = e.text) (hb : e.blockAfter k = e.block)
    (h : (edmoveHandleKey k).Ensures Ed.perform e fun moved e' => moved = true ∧ Moved e e') :
    (mainloopStep k env).Ensures Ed.perform e fun exit e' => Round e k env exit e' := by
  refine (ensures_moveKey h).mono fun exit e' hm => ?_
  rw [hm.1]
  exact (Moved.pressed (n := e.calls) hm.2 (fun hansi => ⟨rfl, hansi⟩) ht hb).round hk

theorem round_of_edit (hi : e.lineid.toNat < e.text.length) (hk : k ≠ .kcF4)
    (hk' : edmoveHandleKey k = return false) (hrep : e.ScreenCareful k env → e.Repaints k)
    (h : (ededitHandleKey k).Ensures Ed.perform e fun r e' => r = .done ∧ Edited e k e') :
    (mainloopStep k env).Ensures Ed.perform e fun exit e' => Round e k env exit e' := by
  refine (ensures_editKey hk' h).mono fun exit e' hm => ?_
  rw [hm.1]
  exact (hm.2.pressed hi hrep).round hk

theorem round_of_command {p : Prog Unit} (hk : k ≠ .kcF4) (hk' : edmoveHandleKey k = return false)
    (hk'' : ededitHandleKey k = return .notMine) (hp : editorCommand k env = do p; return false)
    (h : p.Ensures Ed.perform e fun _ e' => Pressed e k env e') :
    (mainloopStep k env).Ensures Ed.perform e fun exit e' => Round e k env exit e' := by
  rw [ensures_commandKey hk' hk'', hp, ensures_bind]
  exact h.mono fun _ e' hm => (ensures_pure false).mpr (hm.round hk)

end Keys

/-- **`edmove_toggle_select`.** -/
theorem toggleSelect_round (h : e.Valid) (hg : e.Granting) (hc : e.Careful .kcF4 env) :
    (mainloopStep .kcF4 env).Ensures Ed.perform e fun exit e' => Round e .kcF4 env exit e' := by
  have hkey : (edmoveHandleKey .kcF4).Ensures Ed.perform e fun moved e' =>
      moved = true ∧ Round e .kcF4 env false e' := by
    rw [edmoveHandleKey, ensures_bind]
    by_cases hsel : e.ui.select = true
    · refine (toggleSelect_end_spec h hg hc hsel).mono fun _ e' hm => (ensures_pure true).mpr ?_
      exact ⟨rfl, { hm.1 with
        last := fun hf => absurd hf Bool.false_ne_true
        ended := fun _ _ => hm.2
        closed := fun hf => absurd hf Bool.false_ne_true }⟩
    · rw [Bool.not_eq_true] at hsel
      have hbegin : edmoveToggleSelect.Ensures Ed.perform e fun _ e' => Pressed e .kcF4 env e' :=
        toggleSelect_begin_spec h hsel
      refine hbegin.mono fun _ e' hm => (ensures_pure true).mpr ?_
      exact ⟨rfl, { hm with
        last := fun hf => absurd hf Bool.false_ne_true
        ended := fun _ hf => absurd (hsel.symm.trans hf) Bool.false_ne_true
        closed := fun hf => absurd hf Bool.false_ne_true }⟩
  refine (ensures_moveKey hkey).mono fun exit e' hm => ?_
  rw [hm.1]
  exact hm.2

/-- A key that saves the text under a name that is given or asked for. -/
theorem saving_round (h : e.Valid) (hg : e.Granting) (hk : k = .kcF2 ∨ k = .kcCtrlF2) :
    (mainloopStep k env).Ensures Ed.perform e fun exit e' => Round e k env exit e' := by
  have hne : k ≠ .kcF4 := by rintro rfl; simp at hk
  have hround {fname : Option Str} {e' : Ed} (hf : Filed e env fname e') :
      Round e k env false e' := by
    refine (hf.pressed ?_ ?_ fun hc => hf.tracked ?_).round hne
    all_goals obtain rfl | rfl := hk <;> first | rfl | exact hc
  have hsaveas : (do let _ ← editorSaveasFile env; return false : Prog Bool).Ensures Ed.perform e
      fun exit e' => Round e k env exit e' := by
    rw [ensures_bind]
    exact (editorSaveasFile_spec h hg).mono fun _ _ hf => (ensures_pure false).mpr (hround hf)
  obtain rfl | rfl := hk
  · rw [ensures_commandKey rfl rfl, editorCommand, ensures_bind, ensures_ui, ensures_ite]
    split
    · rw [ensures_bind]
      exact (editorSaveFile_spec h hg).mono fun _ _ hf => (ensures_pure false).mpr (hround hf)
    · exact hsaveas
  · rw [ensures_commandKey rfl rfl]
    exact hsaveas

/-- **A round of the main loop.** -/
theorem mainloopStep_spec (h : e.Valid) (hg : e.Granting) (hc : e.Careful k env) :
    (mainloopStep k env).Ensures Ed.perform e fun exit e' => Round e k env exit e' := by
  have hi := h.lineid_lt
  cases k with
  | kcUp => exact round_of_move (by decide) rfl rfl (ensures_lineKey (keyUp_spec h))
  | kcDown => exact round_of_move (by decide) rfl rfl (ensures_lineKey (keyDown_spec h hc))
  | kcPageup => exact round_of_move (by decide) rfl rfl (ensures_lineKey (keyPageup_spec h))
  | kcPagedown => exact round_of_move (by decide) rfl rfl (ensures_lineKey (keyPagedown_spec h hc))
  | kcLeft => exact round_of_move (by decide) rfl rfl (ensures_columnKey (keyLeft_spec h))
  | kcRight => exact round_of_move (by decide) rfl rfl (ensures_columnKey (keyRight_spec h hc))
  | kcHome => exact round_of_move (by decide) rfl rfl (ensures_columnKey (keyHome_spec h hc))
  | kcEnd => exact round_of_move (by decide) rfl rfl (ensures_columnKey (keyEnd_spec h hc))
  | kcF4 => exact toggleSelect_round h hg hc
  | kcCtrlF4 =>
    have hkey : (edmoveHandleKey .kcCtrlF4).Ensures Ed.perform e fun moved e' =>
        moved = true ∧ Pressed e .kcCtrlF4 env e' := by
      rw [edmoveHandleKey, ensures_bind]
      exact (clearSelection_spec h).mono fun _ _ hm => (ensures_pure true).mpr ⟨rfl, hm⟩
    refine (ensures_moveKey hkey).mono fun exit e' hm => ?_
    rw [hm.1]
    exact hm.2.round (by decide)
  | char c => exact round_of_edit hi (by simp) rfl id (keyChar_spec h hg hc)
  | kcTab => exact round_of_edit hi (by decide) rfl id (keyTab_spec h hg hc)
  | kcBackspace => exact round_of_edit hi (by decide) rfl id (keyBackspace_spec h hg hc)
  | kcDel => exact round_of_edit hi (by decide) rfl id (keyDel_spec h hg hc)
  | kcEnter => exact round_of_edit hi (by decide) rfl id (keyEnter_spec h hg hc)
  | kcCtrlY => exact round_of_edit hi (by decide) rfl id (keyDelline_spec h hg)
  | kcCtrlE => exact round_of_edit hi (by decide) rfl id (keyDeltoeol_spec h hg hc)
  | kcCtrlB => exact round_of_edit hi (by decide) rfl id (keyDeltobol_spec h hc)
  | kcCtrlV => exact round_of_edit hi (by decide) rfl id (pasteblock_spec h hg)
  | kcF1 => exact round_of_command (by decide) rfl rfl rfl (editorHelp_spec h rfl rfl id)
  | kcCtrlF1 => exact round_of_command (by decide) rfl rfl rfl (editorHelp_spec h rfl rfl id)
  | kcF5 => exact round_of_command (by decide) rfl rfl rfl (editorRun_spec h hg)
  | kcF7 => exact round_of_command (by decide) rfl rfl rfl (editorGotoLine_spec h hg hc)
  | kcF2 => exact saving_round h hg (.inl rfl)
  | kcCtrlF2 => exact saving_round h hg (.inr rfl)
  | kcF10 =>
    rw [ensures_commandKey rfl rfl]
    exact (editorExit_spec h hg).mono fun exit e' hm =>
      { hm.1 with
        last := fun _ => rfl
        ended := fun hf => absurd hf (by decide)
        closed := hm.2 }
  | other =>
    rw [ensures_commandKey rfl rfl]
    have hstill : Pressed e .other env e := h.refl.pressed (n := e.calls)
      (fun hansi => ⟨rfl, hansi⟩) rfl rfl
    exact (ensures_pure false).mpr (hstill.round (by decide))

end ELuaBrain.Editor
