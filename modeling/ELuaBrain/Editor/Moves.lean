import ELuaBrain.Editor.View

/-!
# The movement keys keep the view valid

## Main definitions

* `Moved` : what a movement key may change.

## Main results

* `keyUp_spec` to `keyEnd_spec` : a movement key leaves the text alone, and keeps the invariant and
  the screen.
-/

namespace ELuaBrain.Editor

open Prog Program

variable {e e' : Ed}

/-! ### What may change -/

/-- What a movement key leaves as it is. -/
structure SameText (e e' : Ed) : Prop where
  text : e'.text = e.text
  allocated : e'.allocated = e.allocated
  answers : e'.answers = e.answers
  dirty : e'.ui.dirty = e.ui.dirty
  fpath : e'.ui.fpath = e.ui.fpath
  disk : e'.ui.disk = e.ui.disk
  dialogs : e'.ui.dialogs = e.ui.dialogs

/-- The mark is where it was, or at a line that the cursor was moved to. -/
def Ed.Follows (e : Ed) (ls : ℤ) : Prop :=
  ls = e.ui.lastsel ∨
    e.ui.select = true ∧ ∃ line : ℤ, 0 ≤ line ∧ line < e.text.length ∧ ls = s16 line

/-- What the movement keys other than those of the selection do. -/
structure Moved (e e' : Ed) : Prop extends SameText e e' where
  valid : e'.Valid
  shown : e.Plain → e.Shown → e'.Shown
  block : e'.block = e.block
  calls : e'.calls = e.calls
  select : e'.ui.select = e.ui.select
  firstsel : e'.ui.firstsel = e.ui.firstsel
  follows : e.Follows e'.ui.lastsel

/-- Another view of the same text. -/
theorem Ed.Valid.moved (h : e.Valid) {sl cy sx cx usx ux ls nl : ℤ} {d : Bool} {v : Vram}
    (hw : Window e.text.length sl cy) (hc : Column sx cx)
    (hpos : sx + cx ≤ (e.text.getD (sl + cy).toNat []).length) (hu : Column usx ux)
    (hnl : nl = min 29 (e.text.length - sl)) (hd : d = false)
    (hls : e.Follows ls) (hv : e.Plain → e.Shown → Shows e.text sl sx v) :
    Moved e { e with ui := { e.ui with
      startx := sx, startline := sl, cursorx := cx, cursory := cy, nlines := nl,
      userstartx := usx, userx := ux, lastsel := ls, delLastLine := d, vram := v } } where
  text := rfl
  allocated := rfl
  answers := rfl
  dirty := rfl
  fpath := rfl
  disk := rfl
  dialogs := rfl
  block := rfl
  calls := rfl
  select := rfl
  firstsel := rfl
  follows := hls
  shown := hv
  valid :=
    { window := hw
      column := hc
      pos_le := hpos
      user := hu
      nlines := hnl
      delLastLine := hd
      select := h.select
      terminated := h.terminated
      marks := fun bl hbl => by
        obtain hls | ⟨hsel, -⟩ := hls
        · rw [hls]
          exact h.marks bl hbl
        · cases (h.select hsel).symm.trans hbl }

theorem edutilsGetActsize_nonneg (t : Str) : 0 ≤ edutilsGetActsize t := Int.natCast_nonneg _

theorem edutilsGetActsize_le (t : Str) : edutilsGetActsize t ≤ t.length := by
  rw [edutilsGetActsize]
  have := (List.dropWhile_sublist (fun c => c == 0x0D || c == 0x0A) (l := t.reverse)).length_le
  rw [List.length_reverse] at this
  exact_mod_cast this

/-! ### Rules -/

/-- **`edmove_cursor_check`.** -/
theorem ensures_cursorCheck {Q : Unit → Ed → Prop}
    (hw : Window e.text.length e.ui.startline e.ui.cursory) (hu : Column e.ui.userstartx e.ui.userx)
    (hnl : e.ui.nlines = min 29 (e.text.length - e.ui.startline)) (hdel : e.ui.delLastLine = false)
    (hQ : ∀ sx cx nl d v, Column sx cx →
      sx + cx ≤ (e.text.getD (e.ui.startline + e.ui.cursory).toNat []).length →
      nl = min 29 (e.text.length - e.ui.startline) → d = false →
      (e.Plain → e.Shown → Shows e.text e.ui.startline sx v) →
      Q () { e with ui := { e.ui with
        startx := sx, cursorx := cx, nlines := nl, delLastLine := d, vram := v } }) :
    edmoveCursorCheck.Ensures Ed.perform e Q := by
  obtain ⟨hsl, hsl', hcy, hcy', hlt⟩ := hw
  rw [edmoveCursorCheck]
  simp only [ensures_bind, ensures_ui]
  rw [ensures_lineGet (by omega) hlt]
  have hact := edutilsGetActsize_le (e.text.getD (e.ui.startline + e.ui.cursory).toNat [])
  rw [ensures_ite]
  split
  · refine ensures_setCursorx le_rfl (by decide) hsl hsl' (by omega) hdel fun v hv => ?_
    refine hQ _ _ _ _ _ ⟨by decide, by decide, by decide, by decide⟩ (by simp) ?_ hdel
      fun hplain hsh => hv _ hplain hsh
    split
    · exact hnl
    · rfl
  next hle =>
    simp only [ensures_bind, ensures_when, ensures_modify, ensures_ui, edhwGotoxy, ensures_term]
    split
    · refine ensures_showScreen hsl hsl' (by dsimp only; omega) fun v hv => ?_
      dsimp only at hv ⊢
      refine hQ e.ui.userstartx e.ui.userx _ _ _ hu (by omega) rfl rfl fun hplain hsh => ?_
      have hbelow : ShowsOn ((e.text.length - e.ui.startline).toNat ≤ ·) e.text e.ui.startline
          e.ui.userstartx e.ui.vram :=
        hsh.below (fun _ _ _ => trivial) (by omega) (by omega)
      exact (hv _ (fun r hr hk => .inl (by omega)) hplain hbelow).gotoxy _ _
    next heq =>
      rw [not_not] at heq
      have hu' : Column e.ui.startx e.ui.userx := by rwa [heq]
      exact hQ e.ui.startx e.ui.userx _ _ _ hu' (by omega) hnl hdel fun _ hsh => hsh.gotoxy _ _

/-- The end of the keys that change the line. -/
theorem ensures_finishLineMove {Q : Unit → Ed → Prop}
    (hw : Window e.text.length e.ui.startline e.ui.cursory) (hu : Column e.ui.userstartx e.ui.userx)
    (hnl : e.ui.nlines = min 29 (e.text.length - e.ui.startline)) (hdel : e.ui.delLastLine = false)
    (hQ : ∀ sx cx nl d v ls, Column sx cx →
      sx + cx ≤ (e.text.getD (e.ui.startline + e.ui.cursory).toNat []).length →
      nl = min 29 (e.text.length - e.ui.startline) → d = false →
      (e.Plain → e.Shown → Shows e.text e.ui.startline sx v) →
      (ls = if e.ui.select then s16 (e.ui.cursory + e.ui.startline) else e.ui.lastsel) →
      Q () { e with ui := { e.ui with
        startx := sx, cursorx := cx, nlines := nl, delLastLine := d, vram := v, lastsel := ls } }) :
    finishLineMove.Ensures Ed.perform e Q := by
  simp only [finishLineMove, followSelection, ensures_bind, ensures_modify]
  refine ensures_displayStatus fun v hv => ?_
  dsimp only at hv ⊢
  refine ensures_cursorCheck hw hu hnl hdel fun sx cx nl d w hc hpos hnl' hd hw' => ?_
  dsimp only at *
  exact hQ sx cx nl d w _ hc hpos hnl' hd (fun hplain hsh => hw' hplain (hv _ _ _ _ hplain hsh))
    rfl

/-! ### Lines -/

/-- The mark after the last redraw of a key that changes the line. -/
theorem Ed.follows_of_eq {sl cy ls ls' : ℤ} (hw : Window e.text.length sl cy)
    (hls : e.ui.select = false → ls = e.ui.lastsel)
    (hls' : ls' = if e.ui.select then s16 (cy + sl) else ls) : e.Follows ls' := by
  have hlt := hw.lt
  have hcy := hw.cy_nonneg
  have hsl := hw.sl_nonneg
  cases hsel : e.ui.select with
  | true =>
    rw [hsel, if_pos rfl] at hls'
    exact .inr ⟨hsel, cy + sl, by omega, by omega, hls'⟩
  | false =>
    rw [hsel, if_neg Bool.false_ne_true] at hls'
    exact .inl (hls'.trans (hls hsel))

/-- Another row of the window. -/
theorem Ed.Valid.row (h : e.Valid) {cy : ℤ} (hw : Window e.text.length e.ui.startline cy) :
    finishLineMove.Ensures Ed.perform { e with ui := { e.ui with cursory := cy } }
      fun _ e' => Moved e e' := by
  refine ensures_finishLineMove hw h.user h.nlines h.delLastLine
    fun sx cx nl d v ls hc hpos hnl hd hv hls => ?_
  dsimp only at *
  exact h.moved hw hc hpos h.user hnl hd (Ed.follows_of_eq hw (fun _ => rfl) hls) hv

/-- Another first line of the window. -/
theorem Ed.Valid.scroll (h : e.Valid) {sl ls : ℤ} (hw : Window e.text.length sl e.ui.cursory)
    (hrows : sl ≤ e.ui.startline ∨ sl + 29 ≤ e.text.length)
    (hls : e.ui.select = false → ls = e.ui.lastsel) :
    edutilsShowScreen.Ensures Ed.perform
      { e with ui := { e.ui with startline := sl, lastsel := ls } } fun _ e₁ =>
        finishLineMove.Ensures Ed.perform e₁ fun _ e' => Moved e e' := by
  refine ensures_showScreen hw.sl_nonneg hw.sl_le (by
    have := hw.lt
    have := hw.cy_nonneg
    dsimp only
    omega) fun v hv => ?_
  dsimp only at hv ⊢
  refine ensures_finishLineMove hw h.user rfl rfl fun sx cx nl d w ls' hc hpos hnl hd hw' hls' => ?_
  dsimp only at *
  refine h.moved hw hc hpos h.user hnl hd (Ed.follows_of_eq hw hls hls')
    fun hplain hsh => hw' hplain ?_
  -- behind the text, the old screen is blank
  have hbelow : ShowsOn ((e.text.length - sl).toNat ≤ ·) e.text sl e.ui.startx e.ui.vram := by
    by_cases hle : sl ≤ e.ui.startline
    · exact hsh.below (fun _ _ _ => trivial) (by omega) (by omega)
    · exact ⟨hsh.ansi, fun r hr hk => by omega⟩
  exact hv _ (fun r hr hk => .inl (by omega)) hplain hbelow

theorem keyUp_spec (h : e.Valid) : edmoveKeyUp.Ensures Ed.perform e fun _ e' => Moved e e' := by
  obtain ⟨hsl, hsl', hcy, hcy', hlt⟩ := h.window
  have hne : (e.text.length : ℤ) ≠ 0 := by omega
  simp only [edmoveKeyUp, ensures_bind, ensures_fileLines, ensures_when, ensures_ui, ensures_ite,
    ensures_modify, followSelection, hne, ne_eq, not_false_eq_true, ↓reduceIte]
  split
  next hrow =>
    split
    next hpos =>
      rw [s16_eq (by omega) (by omega)]
      exact h.scroll ⟨by omega, by omega, hcy, hcy', by omega⟩ (.inl (by omega))
        fun hsel => by rw [hsel]; rfl
    next => exact h.row h.window
  next hrow =>
    rw [s16_eq (by omega) (by omega)]
    exact h.row ⟨hsl, hsl', by omega, by omega, by omega⟩

theorem keyDown_spec {env : Env} (h : e.Valid) (hc : e.Careful .kcDown env) :
    edmoveKeyDown.Ensures Ed.perform e fun _ e' => Moved e e' := by
  obtain ⟨hsl, hsl', hcy, hcy', hlt⟩ := h.window
  obtain ⟨hlast, hbound⟩ := hc
  have hnl := h.nlines
  have hlines : editorLines = 29 := rfl
  have hne : (e.text.length : ℤ) ≠ 0 := by omega
  rw [Ed.lineid] at hlast
  simp only [edmoveKeyDown, ensures_bind, ensures_fileLines, ensures_when, ensures_ui, ensures_ite,
    ensures_modify, followSelection, hne, ne_eq, not_false_eq_true, ↓reduceIte]
  split
  next hrow =>
    split
    next hmany =>
      rw [s16_eq (by omega) (by omega)]
      exact h.row ⟨hsl, hsl', by omega, by omega, by omega⟩
    next => exact h.row h.window
  next hrow =>
    split
    next hend =>
      split
      next hmore =>
        rw [s16_eq (by omega) (by omega)]
        exact h.scroll ⟨by omega, by omega, hcy, hcy', by omega⟩ (.inr (by omega))
          fun hsel => by rw [hsel]; rfl
      next => exact h.row h.window
    next hend =>
      rw [s16_eq (by omega) (by omega)]
      exact h.row ⟨hsl, hsl', by omega, by omega, by omega⟩

theorem keyPageup_spec (h : e.Valid) :
    edmoveKeyPageup.Ensures Ed.perform e fun _ e' => Moved e e' := by
  obtain ⟨hsl, hsl', hcy, hcy', hlt⟩ := h.window
  have hlines : editorLines = 29 := rfl
  have hne : (e.text.length : ℤ) ≠ 0 := by omega
  simp only [edmoveKeyPageup, ensures_bind, ensures_fileLines, ensures_when, ensures_ui,
    ensures_ite, ensures_modify, followSelection, hne, ne_eq, not_false_eq_true, ↓reduceIte]
  split
  next hfirst => exact h.row ⟨hsl, hsl', by omega, by omega, by omega⟩
  next hfirst =>
    rw [s16_eq (by omega) (by omega)]
    exact h.scroll ⟨by omega, by omega, hcy, hcy', by omega⟩ (.inl (by omega))
      fun hsel => by rw [hsel]; rfl

theorem keyPagedown_spec {env : Env} (h : e.Valid) (hc : e.Careful .kcPagedown env) :
    edmoveKeyPagedown.Ensures Ed.perform e fun _ e' => Moved e e' := by
  obtain ⟨hsl, hsl', hcy, hcy', hlt⟩ := h.window
  have hnl := h.nlines
  have hlines : editorLines = 29 := rfl
  have hne : (e.text.length : ℤ) ≠ 0 := by omega
  simp only [edmoveKeyPagedown, ensures_bind, ensures_fileLines, ensures_when, ensures_ui,
    ensures_ite, ensures_modify, followSelection, hne, ne_eq, not_false_eq_true, ↓reduceIte]
  split
  next hlast =>
    rw [s16_eq (by omega) (by omega)]
    exact h.row ⟨hsl, hsl', by omega, by omega, by omega⟩
  next hlast =>
    have hle := hc hlast
    rw [hlines, s16_eq (by omega) hle]
    exact h.scroll ⟨by omega, hle, hcy, hcy', by omega⟩ (.inr (by omega))
      fun hsel => by rw [hsel]; rfl

/-! ### Columns -/

theorem Ed.Valid.refl (h : e.Valid) : Moved e e :=
  h.moved h.window h.column h.pos_le h.user h.nlines h.delLastLine (.inl rfl) fun _ hsh => hsh

theorem SameText.plain (h : SameText e e') (hb : e'.block = e.block) (hp : e.Plain) : e'.Plain := by
  rw [Ed.Plain, h.text, hb, h.fpath]
  exact hp

theorem Moved.plain (h : Moved e e') (hp : e.Plain) : e'.Plain := h.toSameText.plain h.block hp

theorem Moved.trans {e₁ : Ed} (h : Moved e e₁) (h' : Moved e₁ e') : Moved e e' where
  text := h'.text.trans h.text
  allocated := h'.allocated.trans h.allocated
  answers := h'.answers.trans h.answers
  dirty := h'.dirty.trans h.dirty
  fpath := h'.fpath.trans h.fpath
  disk := h'.disk.trans h.disk
  dialogs := h'.dialogs.trans h.dialogs
  valid := h'.valid
  shown hp hs := h'.shown (h.plain hp) (h.shown hp hs)
  block := h'.block.trans h.block
  calls := h'.calls.trans h.calls
  select := h'.select.trans h.select
  firstsel := h'.firstsel.trans h.firstsel
  follows := by
    obtain hls | ⟨hsel, line, hline, hline', hls⟩ := h'.follows
    · rw [hls]
      exact h.follows
    · rw [h.text] at hline'
      exact .inr ⟨h.select.symm.trans hsel, line, hline, hline', hls⟩

/-- Another screen with the same window. -/
theorem Ed.Valid.vram (h : e.Valid) {v : Vram} (hv : e.Plain → e.Shown →
    Shows e.text e.ui.startline e.ui.startx v) :
    Moved e { e with ui := { e.ui with vram := v } } :=
  h.moved h.window h.column h.pos_le h.user h.nlines h.delLastLine (.inl rfl) hv

theorem Moved.displayStatus (h : Moved e e') :
    edutilsDisplayStatus.Ensures Ed.perform e' fun _ e'' => Moved e e'' :=
  ensures_displayStatus fun _ hv => h.trans (h.valid.vram fun hp hs => hv _ _ _ _ hp hs)

theorem Moved.saveCursorx (h : Moved e e') :
    edmoveSaveCursorx.Ensures Ed.perform e' fun _ e'' => Moved e e'' := by
  rw [edmoveSaveCursorx, ensures_modify]
  have hv := h.valid
  exact h.trans (hv.moved hv.window hv.column hv.pos_le hv.column hv.nlines hv.delLastLine
    (.inl rfl) fun _ hs => hs)

/-- Another column of the same line that is in the window. -/
theorem Ed.Valid.column_row (h : e.Valid) {cx : ℤ} (hc : Column e.ui.startx cx)
    (hpos : e.ui.startx + cx ≤ e.current.length) :
    Moved e { e with ui := { e.ui with cursorx := cx } } :=
  h.moved h.window hc hpos h.user h.nlines h.delLastLine (.inl rfl) fun _ hs => hs

/-- Another first column of the window. -/
theorem Ed.Valid.scrollx (h : e.Valid) {sx cx : ℤ} (hc : Column sx cx)
    (hpos : sx + cx ≤ e.current.length) :
    edutilsShowScreen.Ensures Ed.perform { e with ui := { e.ui with startx := sx, cursorx := cx } }
      fun _ e' => Moved e e' := by
  obtain ⟨hsl, hsl', hcy, hcy', hlt⟩ := h.window
  refine ensures_showScreen hsl hsl' (by dsimp only; omega) fun v hv => ?_
  dsimp only at hv ⊢
  refine h.moved h.window hc hpos h.user rfl rfl (.inl rfl) fun hplain hsh => ?_
  have hbelow : ShowsOn ((e.text.length - e.ui.startline).toNat ≤ ·) e.text e.ui.startline
      sx e.ui.vram := hsh.below (fun _ _ _ => trivial) (by omega) (by omega)
  exact hv _ (fun r hr hk => .inl (by omega)) hplain hbelow

/-- **`edmove_set_cursorx`**, for a column of the current line. -/
theorem Ed.Valid.setCursorx (h : e.Valid) {x : ℤ} (hx : 0 ≤ x) (hx' : x ≤ 32767)
    (hpos : x ≤ e.current.length) :
    (edmoveSetCursorx x).Ensures Ed.perform e fun _ e' => Moved e e' := by
  obtain ⟨hsl, hsl', hcy, hcy', hlt⟩ := h.window
  refine ensures_setCursorx hx hx' hsl hsl' (by omega) h.delLastLine fun v hv => ?_
  refine h.moved h.window ⟨by omega, by omega, by omega, by omega⟩ ?_ h.user ?_ h.delLastLine
    (.inl rfl) fun hplain hsh => hv _ hplain hsh
  · change _ ≤ (e.current.length : ℤ)
    omega
  · split
    · exact h.nlines
    · rfl

theorem keyLeft_spec (h : e.Valid) : edmoveKeyLeft.Ensures Ed.perform e fun _ e' => Moved e e' := by
  obtain ⟨hsx, hsx', hcx, hcx'⟩ := h.column
  have hpos := h.pos_le
  have hlt := h.window.lt
  have hsl := h.window.sl_nonneg
  have hcy := h.window.cy_nonneg
  have hne : (e.text.length : ℤ) ≠ 0 := by omega
  simp only [edmoveKeyLeft, ensures_bind, ensures_fileLines, ensures_when, ensures_ui,
    ensures_ite, ensures_modify, hne, ne_eq, not_false_eq_true, ↓reduceIte]
  split
  next hcol =>
    split
    next hscroll =>
      rw [s16_eq (by omega) (by omega)]
      exact (h.scrollx ⟨by omega, by omega, hcx, hcx'⟩ (by omega)).mono
        fun _ _ hm => hm.displayStatus
    next => exact h.refl.displayStatus
  next hcol =>
    rw [s16_eq (by omega) (by omega)]
    exact (h.column_row ⟨hsx, hsx', by omega, by omega⟩ (by omega)).displayStatus

theorem keyRight_spec {env : Env} (h : e.Valid) (hc : e.Careful .kcRight env) :
    edmoveKeyRight.Ensures Ed.perform e fun _ e' => Moved e e' := by
  obtain ⟨hsx, hsx', hcx, hcx'⟩ := h.column
  obtain ⟨hsl, hsl', hcy, hcy', hlt⟩ := h.window
  have hcols : termCols = 80 := rfl
  have hne : (e.text.length : ℤ) ≠ 0 := by omega
  simp only [edmoveKeyRight, ensures_bind, ensures_fileLines, ensures_when, ensures_ui,
    ensures_ite, ensures_modify, hne, ne_eq, not_false_eq_true, ↓reduceIte]
  rw [ensures_lineGet (by omega) hlt]
  split
  next hend =>
    obtain ⟨hlast, hbound⟩ := hc hend
    rw [Ed.linepos] at hlast
    split
    next hcol =>
      rw [s16_eq (by omega) (by omega)]
      exact (h.scrollx ⟨by omega, by omega, hcx, hcx'⟩ (by omega)).mono
        fun _ _ hm => hm.displayStatus
    next hcol =>
      rw [s16_eq (by omega) (by omega)]
      exact (h.column_row ⟨hsx, hsx', by omega, by omega⟩ (by omega)).displayStatus
  next => exact h.refl

theorem keyHome_spec {env : Env} (h : e.Valid) (hc : e.Careful .kcHome env) :
    edmoveKeyHome.Ensures Ed.perform e fun _ e' => Moved e e' := by
  obtain ⟨hsl, hsl', hcy, hcy', hlt⟩ := h.window
  simp only [edmoveKeyHome, ensures_bind, ensures_fileLines, ensures_when, ensures_ui]
  split
  next hpos =>
    rw [ensures_lineGet (by omega) hlt]
    rw [not_or] at hpos
    split
    next => exact h.setCursorx le_rfl (by decide) (by omega)
    next hne =>
      exact h.setCursorx (by omega) (by exact_mod_cast hc hpos.2 hne) (by
        exact_mod_cast (List.takeWhile_sublist _).length_le)
  next => exact h.refl

theorem keyEnd_spec {env : Env} (h : e.Valid) (hc : e.Careful .kcEnd env) :
    edmoveKeyEnd.Ensures Ed.perform e fun _ e' => Moved e e' := by
  obtain ⟨hsx, hsx', hcx, hcx'⟩ := h.column
  obtain ⟨hsl, hsl', hcy, hcy', hlt⟩ := h.window
  have hcols : termCols = 80 := rfl
  have hne : (e.text.length : ℤ) ≠ 0 := by omega
  have hact := edutilsGetActsize_nonneg e.current
  have hact' := edutilsGetActsize_le e.current
  have hbound : edutilsGetActsize e.current ≤ 32767 := hc
  have hs : s16 (edutilsGetActsize e.current) = edutilsGetActsize e.current :=
    s16_eq (by omega) hbound
  simp only [edmoveKeyEnd, ensures_bind, ensures_fileLines, ensures_when, ensures_ui, hne, ne_eq,
    not_false_eq_true, ↓reduceIte]
  rw [ensures_lineGet (by omega) hlt, ← Ed.current, hs, ensures_ite]
  split
  next hfar =>
    have hcol : Column (edutilsGetActsize e.current - (termCols - 1)) (termCols - 1) :=
      ⟨by omega, by omega, by omega, by omega⟩
    rw [s16_eq (by omega) (by omega), ensures_bind, ensures_modify, ensures_bind]
    exact (h.scrollx hcol (by omega)).mono fun _ _ hm => hm.displayStatus
  next hnear =>
    simp only [ensures_bind, ensures_modify, ensures_when]
    split
    next hscroll =>
      exact (h.scrollx ⟨by omega, by omega, by omega, by omega⟩ (by omega)).mono
        fun _ _ hm => hm.displayStatus
    next hstart =>
      exact (h.column_row ⟨hsx, hsx', hact, by omega⟩ (by omega)).displayStatus

end ELuaBrain.Editor
