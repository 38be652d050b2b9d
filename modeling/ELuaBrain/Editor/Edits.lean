import ELuaBrain.Editor.Moves
import ELuaBrain.Editor.Requests

/-!
# The editing keys

Each editing key does to the text what the operation on the list does, keeps the view valid, and
marks the text as changed. Which rows it draws anew is a choice of its own, and it may leave a row
behind that is not part of the text any more. `Repaints` is the condition under which it does not.

## Main definitions

* `Ed.Repaints` : the condition on a key under which the screen is right again.
* `Edited` : what an editing key does.

## Main results

* `keyChar_spec` to `pasteblock_spec` : the editing keys.
-/

namespace ELuaBrain.Editor

open Prog Program

/-! ### What an editing key does -/

/-- The condition on a key under which no row is left behind. -/
def Ed.Repaints (e : Ed) : Key → Prop
  -- the row behind a text of 29 lines is only cleared after another redraw
  | .kcBackspace =>
      e.linepos = 0 → e.ui.cursory ≠ 0 → e.ui.startline = 0 → e.text.length = 29 →
        80 ≤ (e.text.getD (e.lineid - 1).toNat []).length
  | .kcDel =>
      e.linepos = e.current.length → e.lineid + 1 < e.text.length → e.ui.startline = 0 →
        29 < e.text.length
  -- the row that is cleared is that of a window at the start of the text
  | .kcCtrlY =>
      e.lineid + 1 < e.text.length → e.ui.startline ≠ 0 → e.ui.startline + 29 ≤ e.text.length
  | _ => True

instance decidableRepaints (e : Ed) (k : Key) : Decidable (e.Repaints k) := by
  apply @Key.casesOn (fun k => Decidable (e.Repaints k)) k <;> intros <;>
    dsimp only [Ed.Repaints] <;> infer_instance

/-- The view of a text. -/
structure Placed (text : List Str) (u : Ui) : Prop where
  window : Window text.length u.startline u.cursory
  column : Column u.startx u.cursorx
  pos_le : u.startx + u.cursorx ≤ (text.getD (u.startline + u.cursory).toNat []).length
  user : Column u.userstartx u.userx
  nlines : u.nlines = min 29 (text.length - u.startline)
  delLastLine : u.delLastLine = false

/-- The variables that an editing key leaves alone. -/
structure Ui.Kept (u u' : Ui) : Prop where
  select : u'.select = u.select
  firstsel : u'.firstsel = u.firstsel
  lastsel : u'.lastsel = u.lastsel
  fpath : u'.fpath = u.fpath
  disk : u'.disk = u.disk
  dialogs : u'.dialogs = u.dialogs

/-- What an editing key does. -/
structure Edited (e : Ed) (k : Key) (e' : Ed) : Prop where
  text : e'.text = e.edited k
  block : e'.block = e.blockAfter k
  answers : e'.answers = e.answers
  valid : e'.Valid
  fpath : e'.ui.fpath = e.ui.fpath
  disk : e'.ui.disk = e.ui.disk
  dialogs : e'.ui.dialogs = e.ui.dialogs
  select : e'.ui.select = e.ui.select
  marks : e.ui.select = true →
    e'.ui.firstsel = e.ui.firstsel ∧ e'.ui.lastsel = e.ui.lastsel
  clean : e'.ui.dirty = false → e.ui.dirty = false ∧ e'.text = e.text
  shown : e.Plain → e.Shown → e.Repaints k → e'.Shown

variable {e e' : Ed} {k : Key}

theorem PlainStrings.edited (h : e.Plain) (k : Key) :
    PlainStrings (e.edited k) (e.block.getD []) e.ui.fpath :=
  ⟨EachChar.editText h.text h.block displayable_printable _ _ k, h.block, h.fpath⟩

theorem Ed.Valid.eachChar (h : e.Valid) :
    EachChar (· ≠ 0) e.text ∧ EachChar (· ≠ 0) (e.block.getD []) :=
  ⟨fun t ht _ hc h0 => h.terminated t (List.mem_append_left _ ht) (h0 ▸ hc),
    fun t ht _ hc h0 => h.terminated t (List.mem_append_right _ ht) (h0 ▸ hc)⟩

/-- No line of the text after a key has a terminator. -/
theorem Ed.Valid.terminated_edited (h : e.Valid) (k : Key) : ∀ t ∈ e.edited k, 0 ∉ t :=
  fun t ht h0 => EachChar.editText h.eachChar.1 h.eachChar.2 printable_ne_zero _ _ k t ht 0 h0 rfl

theorem Ed.Valid.edited (h : e.Valid) {text : List Str} {a : ℤ} {c : ℕ} {u : Ui}
    (ht : text = e.edited k) (hb : e.blockAfter k = e.block) (hp : Placed text u)
    (hk : e.ui.Kept u) (hd : u.dirty = true)
    (hs : PlainStrings text (e.block.getD []) e.ui.fpath → e.Plain → e.Shown → e.Repaints k →
      Shows text u.startline u.startx u.vram) :
    Edited e k { e with text := text, allocated := a, calls := c, ui := u } where
  text := ht
  block := hb.symm
  answers := rfl
  fpath := hk.fpath
  disk := hk.disk
  dialogs := hk.dialogs
  select := hk.select
  marks _ := ⟨hk.firstsel, hk.lastsel⟩
  clean hdirty := absurd (hdirty.symm.trans hd) Bool.false_ne_true
  shown hplain := hs (ht ▸ PlainStrings.edited hplain k) hplain
  valid :=
    { window := hp.window
      column := hp.column
      pos_le := hp.pos_le
      user := hp.user
      nlines := hp.nlines
      delLastLine := hp.delLastLine
      select := fun hsel => h.select (hk.select.symm.trans hsel)
      marks := fun bl hbl => by
        rw [hk.lastsel, hk.firstsel]
        exact h.marks bl hbl
      terminated := fun t ht' => by
        obtain ht' | ht' := List.mem_append.mp ht'
        · exact h.terminated_edited k t (ht ▸ ht')
        · exact h.terminated t (List.mem_append_right _ ht') }

/-- A key that finds nothing to do. -/
theorem Ed.Valid.unedited (h : e.Valid) (ht : e.edited k = e.text) (hb : e.blockAfter k = e.block) :
    Edited e k e :=
  ⟨ht.symm, hb.symm, rfl, h, rfl, rfl, rfl, rfl, fun _ => ⟨rfl, rfl⟩, fun hd => ⟨hd, rfl⟩,
    fun _ hs _ => hs⟩

/-! ### The last redraw -/

/-- The variables before the redraw at the end of an editing key. -/
structure Ready (e : Ed) (k : Key) (text : List Str) (u : Ui) : Prop where
  kept : e.ui.Kept u
  dirty : u.dirty = true
  window : Window text.length u.startline u.cursory
  column : Column u.startx u.cursorx
  pos_le : u.startx + u.cursorx ≤ (text.getD (u.startline + u.cursory).toNat []).length
  user : Column u.userstartx u.userx
  /-- The rows behind the text are blank, or will be cleared. -/
  rows : PlainStrings text (e.block.getD []) e.ui.fpath → e.Shown → e.Repaints k →
    ShowsOn (fun r => text.length - u.startline ≤ r ∧
      ¬(u.delLastLine = true ∧ r = text.length - u.startline)) text u.startline u.startx u.vram

theorem Ready.showScreen {text : List Str} {u : Ui} (hr : Ready e k text u) (h : e.Valid)
    (ht : text = e.edited k) (hb : e.blockAfter k = e.block) (a : ℤ) (c : ℕ) :
    edutilsShowScreen.Ensures Ed.perform
      { e with text := text, allocated := a, calls := c, ui := u } fun _ e' => Edited e k e' := by
  have hlt := hr.window.lt
  have hcy := hr.window.cy_nonneg
  refine ensures_showScreen hr.window.sl_nonneg hr.window.sl_le (by dsimp only; omega)
    fun v hv => ?_
  refine h.edited ht hb ⟨hr.window, hr.column, hr.pos_le, hr.user, rfl, rfl⟩
    ⟨hr.kept.select, hr.kept.firstsel, hr.kept.lastsel, hr.kept.fpath, hr.kept.disk,
      hr.kept.dialogs⟩ hr.dirty fun hplain _ hsh hrep => ?_
  have hplain' : PlainStrings text (e.block.getD []) u.fpath := by rwa [hr.kept.fpath]
  refine hv _ (fun r _ hle => ?_) hplain' (hr.rows hplain hsh hrep)
  by_cases hdel : u.delLastLine = true ∧ (r : ℤ) = text.length - u.startline
  · exact .inr hdel
  · exact .inl ⟨hle, hdel⟩

/-- The rows that were behind the text, and are behind another one too. -/
theorem Ed.Valid.showsOn_below (h : e.Valid) (hsh : e.Shown) {text : List Str} {sl sx : ℤ}
    (hsl : 0 ≤ sl) :
    ShowsOn (fun r => text.length - sl ≤ r ∧ e.text.length - e.ui.startline ≤ r) text sl sx
      e.ui.vram := by
  have := h.window.sl_nonneg
  exact hsh.blank fun r _ hr => ⟨trivial, by omega, by omega⟩

/-! ### One line -/

/-- How `edmove_set_cursorx` stores a column. -/
theorem column_of_le {x : ℤ} (hx : 0 ≤ x) (hx' : x ≤ 32767) : Column (max 0 (x - 79)) (min x 79) :=
  ⟨by omega, by omega, by omega, by omega⟩

theorem column_add {x : ℤ} (hx : 0 ≤ x) : max 0 (x - 79) + min x 79 = x := by omega

theorem Ed.Valid.lineid_lt (h : e.Valid) : e.lineid.toNat < e.text.length := by
  obtain ⟨hsl, hsl', hcy, hcy', hlt⟩ := h.window
  rw [Ed.lineid]
  omega

theorem Ed.Valid.linepos_nonneg (h : e.Valid) : 0 ≤ e.linepos :=
  add_nonneg h.column.sx_nonneg h.column.cx_nonneg

theorem Ed.Valid.linepos_le (h : e.Valid) : e.linepos.toNat ≤ e.current.length := by
  have := h.pos_le
  rw [Ed.linepos]
  omega

/-- The view of a text with another current line. -/
theorem Placed.line (h : e.Valid) {text : List Str} (hlen : text.length = e.text.length) {sx cx : ℤ}
    (hc : Column sx cx) (hpos : sx + cx ≤ (text.getD e.lineid.toNat []).length) (d : Bool)
    (v : Vram) :
    Placed text { e.ui with startx := sx, cursorx := cx, dirty := d, vram := v } where
  window := by
    rw [hlen]
    exact h.window
  column := hc
  pos_le := hpos
  user := h.user
  nlines := by
    rw [hlen]
    exact h.nlines
  delLastLine := h.delLastLine

section Line

variable {text : List Str} {n : ℕ} {x : ℤ} (h : e.Valid) (hlen : text.length = e.text.length)

include h

/-- Only the row of the current line is not right any more. -/
theorem Ed.Valid.showsOn_line (hline : ∀ j, e.lineid.toNat ≠ j → text.getD j [] = e.text.getD j [])
    (hsh : e.Shown) :
    ShowsOn (· ≠ e.ui.cursory.toNat) text e.ui.startline e.ui.startx e.ui.vram := by
  obtain ⟨hsl, hsl', hcy, hcy', hlt⟩ := h.window
  refine hsh.congr fun r _ hr => ⟨trivial, hline _ ?_⟩
  rw [Ed.lineid]
  omega

include hlen

/-- `edmove_set_cursorx` for a text with another current line. -/
theorem Ed.Valid.setCursorx_line (hx : 0 ≤ x) (hx' : x ≤ 32767) {d : Bool} {w : Vram}
    {Q : Unit → Ed → Prop}
    (hQ : ∀ v,
      (∀ P, PlainStrings text (e.block.getD []) e.ui.fpath →
        ShowsOn P text e.ui.startline e.ui.startx w →
          ShowsOn P text e.ui.startline (max 0 (x - 79)) v) →
      Q () { e with
        text := text
        calls := n
        ui := { e.ui with
          startx := max 0 (x - 79), cursorx := min x 79, dirty := d, vram := v } }) :
    (edmoveSetCursorx x).Ensures Ed.perform
      { e with text := text, calls := n, ui := { e.ui with dirty := d, vram := w } } Q := by
  obtain ⟨hsl, hsl', hcy, hcy', hlt⟩ := h.window
  have hnl : (if max 0 (x - 79) = e.ui.startx then e.ui.nlines
      else min 29 ((text.length : ℤ) - e.ui.startline)) = e.ui.nlines := by
    rw [hlen, ← h.nlines, ite_self]
  refine ensures_setCursorx hx hx' hsl hsl' (by simp only [hlen]; omega) h.delLastLine
    fun v hv => ?_
  simp only [hnl] at hv ⊢
  exact hQ v hv

/-- `edutils_line_display` for a text with another current line. -/
theorem Ed.Valid.lineDisplay_line {sx cx : ℤ} {d : Bool} {w : Vram} {Q : Unit → Ed → Prop}
    (hQ : ∀ v,
      (PlainStrings text (e.block.getD []) e.ui.fpath →
        ShowsOn (· ≠ e.ui.cursory.toNat) text e.ui.startline sx w →
          Shows text e.ui.startline sx v) →
      Q () { e with
        text := text
        calls := n
        ui := { e.ui with startx := sx, cursorx := cx, dirty := d, vram := v } }) :
    (edutilsLineDisplay e.ui.cursory (e.ui.startline + e.ui.cursory)).Ensures Ed.perform
      { e with
        text := text
        calls := n
        ui := { e.ui with startx := sx, cursorx := cx, dirty := d, vram := w } } Q := by
  obtain ⟨hsl, hsl', hcy, hcy', hlt⟩ := h.window
  refine ensures_lineDisplay hcy hcy' rfl hsl (by simpa only [hlen] using hlt) fun v hv => ?_
  exact hQ v fun hplain hsh => (hv _ hplain hsh).mono fun r _ _ => ne_or_eq r _

end Line

/-! ### Characters -/

/-- **`ededit_key_char`.** -/
theorem ensures_keyChar (h : e.Valid) (hg : e.Granting) (c : Printable)
    (hpos : e.linepos < 32767) {Q : EditResult → Ed → Prop}
    (hQ : ∀ n v,
      (PlainStrings (insertAt e.text e.lineid.toNat e.linepos.toNat [c.1]) (e.block.getD [])
          e.ui.fpath → e.Shown →
        Shows (insertAt e.text e.lineid.toNat e.linepos.toNat [c.1]) e.ui.startline
          (max 0 (e.linepos + 1 - 79)) v) →
      Q .done { e with
        text := insertAt e.text e.lineid.toNat e.linepos.toNat [c.1]
        calls := n
        ui := { e.ui with
          startx := max 0 (e.linepos + 1 - 79)
          cursorx := min (e.linepos + 1) 79
          dirty := true
          vram := v } }) :
    (ededitKeyChar c).Ensures Ed.perform e Q := by
  have hlt := h.window.lt
  have hid : 0 ≤ e.lineid := add_nonneg h.window.sl_nonneg h.window.cy_nonneg
  have hnonneg := h.linepos_nonneg
  simp only [ededitKeyChar, ensures_bind, ensures_ui]
  refine ensures_addstring hid hlt hg hnonneg h.pos_le (by simpa using (printable_ne_zero c).symm)
    fun n => ?_
  simp only [↓reduceIte, ensures_bind]
  refine h.setCursorx_line length_insertAt (Int.add_nonneg hnonneg (by decide)) hpos fun v hv => ?_
  refine h.lineDisplay_line length_insertAt fun v₁ hv₁ => ?_
  simp only [setDirty, ensures_modify]
  refine ensures_displayStatus fun v₂ hv₂ => ?_
  rw [ensures_pure]
  exact hQ n v₂ fun hplain hsh => hv₂ _ _ _ _ hplain (hv₁ hplain (hv _ hplain
    (h.showsOn_line (fun _ hj => getD_set_of_ne hj) hsh)))

/-- The text with one more character. -/
theorem Ed.Valid.char (h : e.Valid) (c : Printable) (hpos : e.linepos < 32767) {n : ℕ} {v : Vram}
    (hv : PlainStrings (insertAt e.text e.lineid.toNat e.linepos.toNat [c.1]) (e.block.getD [])
        e.ui.fpath → e.Shown →
      Shows (insertAt e.text e.lineid.toNat e.linepos.toNat [c.1]) e.ui.startline
        (max 0 (e.linepos + 1 - 79)) v) :
    Edited e (.char c) { e with
      text := insertAt e.text e.lineid.toNat e.linepos.toNat [c.1]
      calls := n
      ui := { e.ui with
        startx := max 0 (e.linepos + 1 - 79)
        cursorx := min (e.linepos + 1) 79
        dirty := true
        vram := v } } := by
  have hnonneg := h.linepos_nonneg
  have hple : e.linepos ≤ (e.text.getD e.lineid.toNat []).length := h.pos_le
  refine h.edited rfl rfl (.line h length_insertAt
    (column_of_le (by omega) (Int.add_one_le_of_lt hpos)) ?_ true v)
    ⟨rfl, rfl, rfl, rfl, rfl, rfl⟩ rfl fun hplain _ hsh _ => hv hplain hsh
  rw [column_add (by omega), length_getD_insertAt h.lineid_lt h.linepos_le, List.length_singleton,
    Nat.cast_add]
  exact Int.add_le_add_right hple 1

theorem keyChar_spec {c : Printable} {env : Env} (h : e.Valid) (hg : e.Granting)
    (hc : e.Careful (.char c) env) :
    (ededitHandleKey (.char c)).Ensures Ed.perform e fun r e' =>
      r = .done ∧ Edited e (.char c) e' :=
  ensures_keyChar h hg c hc fun _ _ hv => ⟨rfl, h.char c hc hv⟩

/-- A tabulator is two blanks. -/
theorem keyTab_spec {env : Env} (h : e.Valid) (hg : e.Granting) (hc : e.Careful .kcTab env) :
    (ededitHandleKey .kcTab).Ensures Ed.perform e fun r e' => r = .done ∧ Edited e .kcTab e' := by
  have hlt : e.linepos + 1 < 32767 := hc
  have hnonneg := h.linepos_nonneg
  have hpos := column_add (x := e.linepos + 1) (by omega)
  have hpos' : (max 0 (e.linepos + 1 - 79) + min (e.linepos + 1) 79).toNat =
      e.linepos.toNat + 1 := by
    rw [hpos]
    exact Int.toNat_add hnonneg (by decide)
  change (do let _ ← ededitKeyChar 0x20; ededitKeyChar 0x20 : Prog EditResult).Ensures _ _ _
  rw [ensures_bind]
  refine ensures_keyChar h hg ⟨0x20, by decide⟩ (by omega) fun n v hv => ?_
  have h₁ := h.char ⟨0x20, by decide⟩ (by omega) (n := n) hv
  refine ensures_keyChar h₁.valid hg ⟨0x20, by decide⟩ (hpos.trans_lt hlt) fun n' v' hv' => ?_
  have h₂ := h₁.valid.char ⟨0x20, by decide⟩ (hpos.trans_lt hlt) (n := n') hv'
  refine ⟨rfl, ?_, h₂.block, h₂.answers, h₂.valid, h₂.fpath, h₂.disk, h₂.dialogs, h₂.select,
    h₂.marks, fun hd => absurd hd.symm Bool.false_ne_true, fun hplain hsh _ => ?_⟩
  · refine Eq.trans ?_ (insertAt_insertAt h.lineid_lt h.linepos_le 0x20 0x20)
    rw [← hpos']
    rfl
  · have hplain₁ := PlainStrings.edited hplain (.char ⟨0x20, by decide⟩)
    exact h₂.shown hplain₁ (h₁.shown hplain hsh trivial) trivial

/-! ### Joining lines -/

/-- The end of a key that joins two lines. -/
theorem Ed.Valid.finishJoin (h : e.Valid) {text : List Str} {sl cy x : ℤ}
    (ht : text = e.edited k) (hb : e.blockAfter k = e.block) (hw : Window text.length sl cy)
    (hx : 0 ≤ x) (hx' : x ≤ 32767) (hpos : x ≤ (text.getD (sl + cy).toNat []).length)
    (f : Ui → Bool)
    (hrows : e.Repaints k → ∀ u : Ui, u.startline = sl → u.delLastLine = false →
      (u.nlines = if max 0 (x - 79) = e.ui.startx then e.ui.nlines
        else min 29 ((text.length : ℤ) - sl)) →
      ∀ r : ℕ, r < 29 → text.length - sl ≤ r →
        e.text.length - e.ui.startline ≤ r ∨ f u = true ∧ (r : ℤ) = text.length - sl)
    (a : ℤ) (c : ℕ) :
    (edmoveSetCursorx x).Ensures Ed.perform
      { e with
        text := text
        allocated := a
        calls := c
        ui := { e.ui with startline := sl, cursory := cy } } fun _ e₁ =>
      edutilsShowScreen.Ensures Ed.perform
        { e₁ with ui := { e₁.ui with dirty := true, delLastLine := f e₁.ui } }
          fun _ e' => Edited e k e' := by
  obtain ⟨hsl, hsl', hcy, hcy', hlt⟩ := hw
  refine ensures_setCursorx hx hx' hsl hsl' (by dsimp only; omega) h.delLastLine fun v hv => ?_
  dsimp only at hv ⊢
  refine Ready.showScreen ?_ h ht hb a c
  refine ⟨⟨rfl, rfl, rfl, rfl, rfl, rfl⟩, rfl, ⟨hsl, hsl', hcy, hcy', hlt⟩, column_of_le hx hx',
    (column_add hx).trans_le hpos, h.user, fun hplain hsh hrep => ?_⟩
  refine (hv _ hplain (h.showsOn_below hsh hsl)).mono fun r hr hout => ⟨hout.1, ?_⟩
  refine Or.resolve_right ?_ hout.2
  refine hrows hrep _ ?_ ?_ ?_ r hr hout.1
  · rfl
  · exact h.delLastLine
  · rfl

/-! ### Removing characters -/

/-- The text without a character. -/
theorem Ed.Valid.remove (h : e.Valid) {pos x : ℤ} (hpos : 0 ≤ pos) (hpos' : pos < e.current.length)
    (ht : removeAt e.text e.lineid.toNat pos.toNat = e.edited k) (hb : e.blockAfter k = e.block)
    {sx cx : ℤ} (hcol : Column sx cx) (hx : sx + cx = x) (hx' : x < e.current.length) {v : Vram}
    (hv : PlainStrings (removeAt e.text e.lineid.toNat pos.toNat) (e.block.getD [])
        e.ui.fpath → e.Shown →
      Shows (removeAt e.text e.lineid.toNat pos.toNat) e.ui.startline sx v) :
    Edited e k { e with
      text := removeAt e.text e.lineid.toNat pos.toNat
      ui := { e.ui with startx := sx, cursorx := cx, dirty := true, vram := v } } := by
  refine h.edited ht hb (.line h length_removeAt hcol ?_ true v)
    ⟨rfl, rfl, rfl, rfl, rfl, rfl⟩ rfl fun hplain _ hsh _ => hv hplain hsh
  have hlen : pos.toNat < (e.text.getD e.lineid.toNat []).length := by
    change _ < e.current.length
    omega
  rw [hx, length_getD_removeAt h.lineid_lt hlen]
  change _ ≤ ((e.current.length - 1 : ℕ) : ℤ)
  omega

theorem edited_backspace (h : e.linepos ≠ 0) (hnonneg : 0 ≤ e.linepos) :
    removeAt e.text e.lineid.toNat (e.linepos - 1).toNat = e.edited .kcBackspace := by
  change _ = backspaceText e.text e.lineid.toNat e.linepos.toNat
  rw [backspaceText, if_pos (by omega),
    show (e.linepos - 1).toNat = e.linepos.toNat - 1 by omega]

theorem edited_backspace_join (h : e.linepos = 0) (h' : 0 < e.lineid) :
    joinAt e.text (e.lineid - 1).toNat = e.edited .kcBackspace := by
  change _ = backspaceText e.text e.lineid.toNat e.linepos.toNat
  rw [backspaceText, if_neg (by omega), if_pos (by omega),
    show (e.lineid - 1).toNat = e.lineid.toNat - 1 by omega]

/-- Backspace at the start of a line. -/
theorem ensures_backspace_join (h : e.Valid) (hg : e.Granting) {env : Env}
    (hc : e.Careful .kcBackspace env) (hstart : e.linepos = 0) (hnotfirst : e.lineid ≠ 0) :
    ededitKeyBackspace.Ensures Ed.perform e fun r e' => r = .done ∧ Edited e .kcBackspace e' := by
  obtain ⟨hsl, hsl', hcy, hcy', hlt⟩ := h.window
  have hlines : editorLines = 29 := rfl
  have hid : 0 < e.lineid := by
    rw [Ed.lineid] at hnotfirst ⊢
    omega
  have ht := edited_backspace_join hstart hid
  have hnext : (e.lineid - 1).toNat + 1 = e.lineid.toNat := by omega
  have hlen := length_joinAt e.text (e.lineid - 1).toNat (by
    rw [hnext]
    exact h.lineid_lt)
  replace hc := Eq.mp (if_pos hstart) hc
  rw [Ed.lineid] at hc hid hnext ht hlen hnotfirst
  rw [Ed.linepos] at hstart
  have hjoin := eraseIdx_insertAt e.text (e.ui.startline + e.ui.cursory - 1).toNat
  rw [hnext] at hjoin
  simp only [ededitKeyBackspace, ensures_bind, ensures_ui]
  rw [ensures_lineGet (by omega) hlt, if_pos hstart, if_neg hnotfirst]
  simp only [ensures_bind]
  rw [ensures_lineGet (by omega) (by omega)]
  refine ensures_addstring (by omega) (by omega) hg (Int.natCast_nonneg _) le_rfl ?_ fun n => ?_
  · exact fun h0 => h.eachChar.1.getD _ 0 h0 rfl
  simp only [↓reduceIte, ensures_bind]
  refine ensures_removeLine (by omega) (by simpa only [length_insertAt] using hlt) hg fun a n' => ?_
  simp only [Int.toNat_natCast, hjoin, ensures_fileLines, ensures_ite, ensures_bind,
    ensures_modify, setDirty, ensures_pure, true_and, hlen, hlines]
  have hline : ∀ sl cy : ℤ, sl + cy = e.ui.startline + e.ui.cursory - 1 →
      ((e.text.getD (e.ui.startline + e.ui.cursory - 1).toNat []).length : ℤ) ≤
        ((joinAt e.text (e.ui.startline + e.ui.cursory - 1).toNat).getD
          (sl + cy).toNat []).length := by
    intro sl cy hsum
    rw [hsum, getD_joinAt (by omega), List.length_append]
    omega
  have hmax : ((e.text.getD (e.ui.startline + e.ui.cursory - 1).toNat []).length : ℤ) ≤ 32767 :=
    Int.ofNat_le.mpr (hc hnotfirst)
  split
  next hup =>
    rw [s16_eq (by omega) (by omega)]
    have hw : Window (joinAt e.text (e.ui.startline + e.ui.cursory - 1).toNat).length
        (e.ui.startline - 1) e.ui.cursory :=
      ⟨by omega, by omega, hcy, hcy', by omega⟩
    have hx := hline (e.ui.startline - 1) e.ui.cursory (by omega)
    refine h.finishJoin ht rfl hw (Int.natCast_nonneg _) hmax hx
      (fun u => u.delLastLine || decide (u.nlines < 29) && u.startline == 0)
      (fun _ u _ _ _ r _ hle => .inl ?_) a n'
    omega
  next hstay =>
    rw [s16_eq (by omega) (by omega)]
    have hw : Window (joinAt e.text (e.ui.startline + e.ui.cursory - 1).toNat).length
        e.ui.startline (e.ui.cursory - 1) :=
      ⟨hsl, hsl', by omega, by omega, by omega⟩
    have hx := hline e.ui.startline (e.ui.cursory - 1) (by omega)
    refine h.finishJoin ht rfl hw (Int.natCast_nonneg _) hmax hx
      (fun u => u.delLastLine || decide (u.nlines < 29) && u.startline == 0)
      (fun hrep u husl hdel hnl r hr hle => ?_) a n'
    have hsx := h.column.sx_nonneg
    have hcx := h.column.cx_nonneg
    have hrows := h.nlines
    by_cases hbehind : (e.text.length : ℤ) - e.ui.startline ≤ r
    · exact .inl hbehind
    · -- the row of the last line is left, and the flag is set unless the text filled the window
      refine .inr ⟨?_, by omega⟩
      have hfirst : e.ui.startline = 0 := by omega
      have hlong : e.text.length = 29 →
          80 ≤ (e.text.getD (e.ui.startline + e.ui.cursory - 1).toNat []).length :=
        hrep hstart (fun hzero => hstay (.inl hzero)) hfirst
      simp only [hdel, Bool.false_or, Bool.and_eq_true, decide_eq_true_eq, beq_iff_eq]
      refine ⟨?_, by omega⟩
      rw [hnl]
      split <;> omega

/-- **`ededit_key_backspace`.** -/
theorem keyBackspace_spec {env : Env} (h : e.Valid) (hg : e.Granting)
    (hc : e.Careful .kcBackspace env) :
    (ededitHandleKey .kcBackspace).Ensures Ed.perform e fun r e' =>
      r = .done ∧ Edited e .kcBackspace e' := by
  have hlt := h.window.lt
  have hid : 0 ≤ e.ui.startline + e.ui.cursory :=
    add_nonneg h.window.sl_nonneg h.window.cy_nonneg
  have hpos : e.linepos = e.ui.startx + e.ui.cursorx := rfl
  have hnonneg := h.linepos_nonneg
  have hple := h.pos_le
  change ededitKeyBackspace.Ensures _ _ _
  by_cases hstart : e.ui.startx + e.ui.cursorx = 0
  · by_cases hfirst : e.ui.startline + e.ui.cursory = 0
    · simp only [ededitKeyBackspace, ensures_bind, ensures_ui]
      rw [ensures_lineGet hid hlt, if_pos hstart, if_pos hfirst, ensures_pure]
      refine ⟨rfl, h.unedited ?_ rfl⟩
      rw [Ed.edited, Ed.linepos, Ed.lineid, hstart, hfirst]
      rfl
    · exact ensures_backspace_join h hg hc hstart hfirst
  · have hmax : e.ui.startx + e.ui.cursorx ≤ 32768 := by
      have hstart' : ¬e.linepos = 0 := hstart
      exact Eq.mp (if_neg hstart') hc
    simp only [ededitKeyBackspace, ensures_bind, ensures_ui]
    rw [ensures_lineGet hid hlt, if_neg hstart]
    simp only [ensures_bind]
    refine ensures_removeChar hid hlt (by omega) (by
      change _ < (e.current.length : ℤ)
      omega) ?_
    refine h.setCursorx_line length_removeAt (by omega) (by omega) fun v hv => ?_
    refine h.lineDisplay_line length_removeAt fun v₁ hv₁ => ?_
    simp only [setDirty, ensures_modify]
    refine ensures_displayStatus fun v₂ hv₂ => ?_
    rw [ensures_pure]
    refine ⟨rfl, h.remove (by omega) (by omega) (edited_backspace hstart hnonneg) rfl
      (column_of_le (by omega) (by omega)) (column_add (by omega)) (by omega)
      fun hplain hsh => ?_⟩
    exact hv₂ _ _ _ _ hplain (hv₁ hplain (hv _ hplain
      (h.showsOn_line (fun _ hj => getD_set_of_ne hj) hsh)))

theorem edited_del (h : e.linepos.toNat < e.current.length) :
    removeAt e.text e.lineid.toNat e.linepos.toNat = e.edited .kcDel := by
  exact (if_pos h).symm

theorem edited_del_join (h : e.linepos.toNat = e.current.length)
    (h' : e.lineid.toNat + 1 < e.text.length) : joinAt e.text e.lineid.toNat = e.edited .kcDel := by
  exact ((if_neg fun hlt => hlt.ne h).trans (if_pos h')).symm

/-- Delete at the end of a line. -/
theorem ensures_del_join (h : e.Valid) (hg : e.Granting) {env : Env} (hc : e.Careful .kcDel env)
    (hend : e.linepos = e.current.length) (hnotlast : e.lineid + 1 < e.text.length) :
    ededitKeyDel.Ensures Ed.perform e fun r e' => r = .done ∧ Edited e .kcDel e' := by
  obtain ⟨hsl, hsl', hcy, hcy', hlt⟩ := h.window
  have hlines : editorLines = 29 := rfl
  have hnonneg : 0 ≤ e.ui.startx + e.ui.cursorx := h.linepos_nonneg
  have hid : 0 ≤ e.lineid := add_nonneg hsl hcy
  have hmax := hc hend hnotlast
  have ht := edited_del_join (by omega : e.linepos.toNat = e.current.length) (by omega)
  have hnext : (e.lineid + 1).toNat = e.lineid.toNat + 1 := by omega
  have hlen := length_joinAt e.text e.lineid.toNat (by omega)
  have hjoin := eraseIdx_insertAt e.text e.lineid.toNat
  have hpos : (e.ui.startx + e.ui.cursorx).toNat = (e.text.getD e.lineid.toNat []).length := by
    change e.linepos.toNat = e.current.length
    omega
  rw [← hnext] at hjoin
  simp only [Ed.lineid] at hid hnotlast hnext ht hlen hjoin hpos
  rw [Ed.linepos] at hend hmax
  simp only [ededitKeyDel, ensures_bind, ensures_ui]
  rw [ensures_lineGet hid hlt, ← Ed.current, if_pos hend]
  simp only [ensures_bind, ensures_fileLines]
  rw [if_neg (by omega)]
  simp only [ensures_bind]
  rw [ensures_lineGet (by omega) hnotlast]
  refine ensures_addstring hid hlt hg hnonneg h.pos_le ?_ fun n => ?_
  · exact fun h0 => h.eachChar.1.getD _ 0 h0 rfl
  simp only [↓reduceIte, ensures_bind]
  refine ensures_removeLine (by omega) (by simpa only [length_insertAt] using hnotlast) hg
    fun a n' => ?_
  simp only [hpos, hjoin, ensures_fileLines, ensures_when, ensures_modify, setDirty, ensures_pure,
    true_and, hlen, hlines]
  have hline : ∀ sl cy : ℤ, sl + cy = e.ui.startline + e.ui.cursory → e.ui.startx + e.ui.cursorx ≤
      ((joinAt e.text (e.ui.startline + e.ui.cursory).toNat).getD (sl + cy).toNat []).length := by
    intro sl cy hsum
    rw [hsum, getD_joinAt (by omega), List.length_append, ← hpos]
    omega
  split
  next hup =>
    rw [s16_eq (by omega) (by omega), s16_eq (by omega) (by omega)]
    have hw : Window (joinAt e.text (e.ui.startline + e.ui.cursory).toNat).length
        (e.ui.startline - 1) (e.ui.cursory + 1) :=
      ⟨by omega, by omega, by omega, by omega, by omega⟩
    have hx := hline (e.ui.startline - 1) (e.ui.cursory + 1) (by omega)
    refine h.finishJoin ht rfl hw hnonneg hmax hx (fun u => u.delLastLine)
      (fun _ u _ _ _ r _ hle => .inl ?_) a n'
    omega
  next hstay =>
    have hw : Window (joinAt e.text (e.ui.startline + e.ui.cursory).toNat).length
        e.ui.startline e.ui.cursory :=
      ⟨hsl, hsl', hcy, hcy', by omega⟩
    have hx := hline e.ui.startline e.ui.cursory rfl
    refine h.finishJoin ht rfl hw hnonneg hmax hx (fun u => u.delLastLine)
      (fun hrep u _ _ _ r hr hle => .inl ?_) a n'
    have hlong : e.ui.startline = 0 → 29 < e.text.length := hrep hend hnotlast
    omega

/-- **`ededit_key_del`.** -/
theorem keyDel_spec {env : Env} (h : e.Valid) (hg : e.Granting) (hc : e.Careful .kcDel env) :
    (ededitHandleKey .kcDel).Ensures Ed.perform e fun r e' => r = .done ∧ Edited e .kcDel e' := by
  have hlt := h.window.lt
  have hid : 0 ≤ e.ui.startline + e.ui.cursory :=
    add_nonneg h.window.sl_nonneg h.window.cy_nonneg
  have hpos : e.linepos = e.ui.startx + e.ui.cursorx := rfl
  have hlineid : e.lineid = e.ui.startline + e.ui.cursory := rfl
  have hnonneg := h.linepos_nonneg
  have hple := h.pos_le
  change ededitKeyDel.Ensures _ _ _
  by_cases hend : e.ui.startx + e.ui.cursorx = e.current.length
  · by_cases hlast : e.ui.startline + e.ui.cursory = (e.text.length : ℤ) - 1
    · simp only [ededitKeyDel, ensures_bind, ensures_ui]
      rw [ensures_lineGet hid hlt, ← Ed.current, if_pos hend]
      simp only [ensures_bind, ensures_fileLines]
      rw [if_pos hlast, ensures_pure]
      refine ⟨rfl, h.unedited ?_ rfl⟩
      have hbehind : ¬e.linepos.toNat < e.current.length := by omega
      exact (if_neg hbehind).trans (if_neg (by omega))
    · exact ensures_del_join h hg hc hend (by omega)
  · simp only [ededitKeyDel, ensures_bind, ensures_ui]
    rw [ensures_lineGet hid hlt, ← Ed.current, if_neg hend, if_pos (by omega)]
    simp only [ensures_bind]
    refine ensures_removeChar hid hlt (by omega) (by
      change _ < (e.current.length : ℤ)
      omega) ?_
    refine h.lineDisplay_line length_removeAt fun v₁ hv₁ => ?_
    simp only [setDirty, ensures_modify]
    refine ensures_displayStatus fun v₂ hv₂ => ?_
    rw [ensures_pure]
    refine ⟨rfl, h.remove (by omega) (by omega) (edited_del (by omega)) rfl h.column rfl (by omega)
      fun hplain hsh => ?_⟩
    exact hv₂ _ _ _ _ hplain (hv₁ hplain (h.showsOn_line (fun _ hj => getD_set_of_ne hj) hsh))

/-! ### Removing a part of a line -/

/-- The text with a part of the current line. -/
theorem Ed.Valid.part (h : e.Valid) {t : Str} {x : ℤ} (hx : 0 ≤ x) (hx' : x ≤ 32767)
    (hpos : x ≤ t.length) (ht : e.text.set e.lineid.toNat t = e.edited k)
    (hb : e.blockAfter k = e.block) {n : ℕ} {v : Vram}
    (hv : PlainStrings (e.text.set e.lineid.toNat t) (e.block.getD []) e.ui.fpath → e.Shown →
      Shows (e.text.set e.lineid.toNat t) e.ui.startline (max 0 (x - 79)) v) :
    Edited e k { e with
      text := e.text.set e.lineid.toNat t
      calls := n
      ui := { e.ui with
        startx := max 0 (x - 79), cursorx := min x 79, dirty := true, vram := v } } := by
  refine h.edited ht hb (.line h List.length_set (column_of_le hx hx') ?_ true v)
    ⟨rfl, rfl, rfl, rfl, rfl, rfl⟩ rfl fun hplain _ hsh _ => hv hplain hsh
  rwa [column_add hx, getD_set_self h.lineid_lt]

/-- **`ededit_deltoeol`.** -/
theorem keyDeltoeol_spec {env : Env} (h : e.Valid) (hg : e.Granting) (hc : e.Careful .kcCtrlE env) :
    (ededitHandleKey .kcCtrlE).Ensures Ed.perform e fun r e' =>
      r = .done ∧ Edited e .kcCtrlE e' := by
  have hlt := h.window.lt
  have hid : 0 ≤ e.ui.startline + e.ui.cursory :=
    add_nonneg h.window.sl_nonneg h.window.cy_nonneg
  have hpos : e.linepos = e.ui.startx + e.ui.cursorx := rfl
  have hnonneg : 0 ≤ e.ui.startx + e.ui.cursorx := h.linepos_nonneg
  have hple := h.pos_le
  change ededitDeltoeol.Ensures _ _ _
  simp only [ededitDeltoeol, ensures_bind, ensures_ui]
  rw [ensures_lineGet hid hlt, ← Ed.current]
  by_cases hend : e.ui.startx + e.ui.cursorx = e.current.length
  · rw [if_neg (by simp [hend]), ensures_pure]
    refine ⟨rfl, h.unedited ?_ rfl⟩
    have hall : (e.text.getD e.lineid.toNat []).take e.linepos.toNat =
        e.text.getD e.lineid.toNat [] := by
      refine List.take_of_length_le ?_
      change e.current.length ≤ _
      omega
    change e.text.set e.lineid.toNat ((e.text.getD e.lineid.toNat []).take e.linepos.toNat) = _
    rw [hall, set_getD_self h.lineid_lt]
  · have hmax : e.linepos ≤ 32767 := hc hend
    rw [if_pos ⟨by omega, hend⟩]
    simp only [ensures_bind]
    refine ensures_truncate hid hlt hg hnonneg hple fun n => ?_
    simp only [↓reduceIte, ensures_bind]
    refine h.lineDisplay_line List.length_set fun v hv => ?_
    simp only [setDirty, ensures_modify]
    refine h.setCursorx_line List.length_set hnonneg hmax fun v₁ hv₁ => ?_
    rw [ensures_pure]
    refine ⟨rfl, h.part hnonneg hmax ?_ rfl rfl fun hplain hsh => ?_⟩
    · have hlen : ((e.text.getD e.lineid.toNat []).take e.linepos.toNat).length =
          e.linepos.toNat := List.length_take_of_le h.linepos_le
      change e.linepos ≤ (((e.text.getD e.lineid.toNat []).take e.linepos.toNat).length : ℤ)
      omega
    · exact hv₁ _ hplain (hv hplain (h.showsOn_line (fun _ hj => getD_set_of_ne hj) hsh))

/-- **`ededit_deltobol`.** -/
theorem keyDeltobol_spec {env : Env} (h : e.Valid) (hc : e.Careful .kcCtrlB env) :
    (ededitHandleKey .kcCtrlB).Ensures Ed.perform e fun r e' =>
      r = .done ∧ Edited e .kcCtrlB e' := by
  have hlt := h.window.lt
  have hid : 0 ≤ e.ui.startline + e.ui.cursory :=
    add_nonneg h.window.sl_nonneg h.window.cy_nonneg
  have hpos : e.linepos = e.ui.startx + e.ui.cursorx := rfl
  have hnonneg : 0 ≤ e.ui.startx + e.ui.cursorx := h.linepos_nonneg
  have hple := h.pos_le
  change ededitDeltobol.Ensures _ _ _
  simp only [ededitDeltobol, ensures_bind, ensures_ui]
  rw [ensures_lineGet hid hlt, ← Ed.current]
  by_cases hstart : e.ui.startx + e.ui.cursorx = 0
  · rw [if_neg (by simp [hstart]), ensures_pure]
    refine ⟨rfl, h.unedited ?_ rfl⟩
    change e.text.set e.lineid.toNat ((e.text.getD e.lineid.toNat []).drop e.linepos.toNat) = _
    rw [hpos, hstart, Int.toNat_zero, List.drop_zero, set_getD_self h.lineid_lt]
  · rw [if_pos ⟨by omega, hstart⟩]
    simp only [ensures_bind]
    refine ensures_cut hid hlt hnonneg hple (hc hstart) ?_
    simp only [↓reduceIte, ensures_bind]
    refine h.lineDisplay_line List.length_set fun v hv => ?_
    simp only [setDirty, ensures_modify]
    refine h.setCursorx_line List.length_set le_rfl (by decide) fun v₁ hv₁ => ?_
    rw [ensures_pure]
    refine ⟨rfl, h.part le_rfl (by decide) (Int.natCast_nonneg _) rfl rfl fun hplain hsh => ?_⟩
    exact hv₁ _ hplain (hv hplain (h.showsOn_line (fun _ hj => getD_set_of_ne hj) hsh))

/-! ### Lines -/

theorem spaces_takeWhile (t : Str) :
    spaces (t.takeWhile (· == 0x20)).length = t.takeWhile (· == 0x20) := by
  refine (List.eq_replicate_of_mem fun c hc => ?_).symm
  exact beq_iff_eq.mp (List.all_eq_true.mp List.all_takeWhile c hc)

/-- **`ededit_key_enter`.** -/
theorem keyEnter_spec {env : Env} (h : e.Valid) (hg : e.Granting) (hc : e.Careful .kcEnter env) :
    (ededitHandleKey .kcEnter).Ensures Ed.perform e fun r e' =>
      r = .done ∧ Edited e .kcEnter e' := by
  obtain ⟨hsl, hsl', hcy, hcy', hlt⟩ := h.window
  obtain ⟨hmax, hbound⟩ := hc
  have hlines : editorLines = 29 := rfl
  have hid : 0 ≤ e.ui.startline + e.ui.cursory := add_nonneg hsl hcy
  have ht : breakAt e.text e.lineid.toNat e.linepos.toNat
      (spaces (e.current.takeWhile (· == 0x20)).length) = e.edited .kcEnter := by
    rw [spaces_takeWhile]
    rfl
  generalize hind : (e.current.takeWhile (· == 0x20)).length = n at ht hmax
  have hlen := length_breakAt e.linepos.toNat (spaces n) h.lineid_lt
  have hline := getD_breakAt e.linepos.toNat (spaces n) h.lineid_lt
  change ededitKeyEnter.Ensures _ _ _
  simp only [ededitKeyEnter, ensures_bind, ensures_ui]
  rw [ensures_lineGet hid hlt, ← Ed.current, hind]
  refine ensures_split hid hlt hg h.linepos_nonneg h.pos_le fun a c => ?_
  simp only [↓reduceIte, ensures_bind]
  simp only [Ed.lineid, Ed.linepos] at ht hlen hline
  generalize breakAt e.text (e.ui.startline + e.ui.cursory).toNat
    (e.ui.startx + e.ui.cursorx).toNat (spaces n) = text at ht hlen hline ⊢
  refine ensures_setCursorx (Int.natCast_nonneg _) (by omega) hsl hsl' (by dsimp only; omega)
    h.delLastLine fun v hv => ?_
  dsimp only at hv ⊢
  simp only [edmoveSaveCursorx, setDirty, ensures_modify, ensures_pure, true_and, hlines]
  have hpos : ∀ sl cy : ℤ, sl + cy = e.ui.startline + e.ui.cursory + 1 →
      max 0 ((n : ℤ) - 79) + min (n : ℤ) 79 ≤ (text.getD (sl + cy).toNat []).length := by
    intro sl cy hsum
    rw [column_add (Int.natCast_nonneg n), hsum, Int.toNat_add hid (by decide)]
    have hind' : (spaces n).length = n := List.length_replicate
    change (n : ℤ) ≤ ((text.getD ((e.ui.startline + e.ui.cursory).toNat + 1) []).length : ℤ)
    rw [hline, List.length_append, hind']
    omega
  have hcol := column_of_le (Int.natCast_nonneg n) (by omega)
  split
  next hbottom =>
    rw [s16_eq (by omega) (by omega)]
    have hw : Window text.length (e.ui.startline + 1) e.ui.cursory :=
      ⟨by omega, by omega, hcy, hcy', by omega⟩
    refine Ready.showScreen ?_ h ht rfl a c
    refine ⟨⟨rfl, rfl, rfl, rfl, rfl, rfl⟩, rfl, hw, hcol, hpos _ _ (by dsimp only; omega), hcol,
      fun hplain hsh _ => ?_⟩
    -- the text filled the window
    refine ⟨(hv _ hplain (h.showsOn_below hsh hsl)).ansi, fun r hr hout => ?_⟩
    have hle := hout.1
    dsimp only at hle
    omega
  next hinside =>
    rw [s16_eq (by omega) (by omega)]
    have hw : Window text.length e.ui.startline (e.ui.cursory + 1) :=
      ⟨hsl, hsl', by omega, by omega, by omega⟩
    refine Ready.showScreen ?_ h ht rfl a c
    refine ⟨⟨rfl, rfl, rfl, rfl, rfl, rfl⟩, rfl, hw, hcol, hpos _ _ (by dsimp only; omega), hcol,
      fun hplain hsh _ => ?_⟩
    refine (hv _ hplain (h.showsOn_below hsh hsl)).mono fun r hr hout => ⟨hout.1, ?_⟩
    have hle := hout.1
    dsimp only at hle
    omega

/-- **`edhw_clearline`.** A row becomes blank, and the others stay. -/
theorem ShowsOn.clearline {P : ℕ → Prop} {text : List Str} {sl sx : ℤ} {v : Vram}
    (h : ShowsOn P text sl sx v) {r₀ : ℕ} (hr₀ : r₀ < 29) (x y : ℤ) :
    ShowsOn (fun r => P r ∧ r ≠ r₀ ∨ r = r₀ ∧ text.length ≤ sl.toNat + r) text sl sx
      (((v.gotoxy 0 r₀).clreol).gotoxy x y) := by
  have hlines : vramLines = 30 := rfl
  have hgoto : v.gotoxy 0 r₀ = { v with cx := 0, cy := r₀ } :=
    Vram.gotoxy_eq (x := 0) (by decide) (by omega)
  rw [hgoto]
  have hclear : ShowsOn (fun r => P r ∧ r ≠ r₀ ∨ r = r₀ ∧ text.length ≤ sl.toNat + r) text sl sx
      { v with cx := 0, cy := r₀ }.clreol := by
    refine ⟨h.ansi, fun r hr hrow x hx => ?_⟩
    obtain ⟨hP, hne⟩ | ⟨rfl, hlen⟩ := hrow
    · refine (if_neg ?_).trans (h.row r hr hP x hx)
      simp only [Vram.charAddr, vramCols] at hx ⊢
      omega
    · rw [List.getD_eq_default _ _ hlen, visible, List.drop_nil, List.take_nil, ite_self]
      refine if_pos ?_
      simp only [Vram.charAddr, vramCols] at hx ⊢
      omega
  exact hclear.gotoxy x y

/-- The end of **`ededit_delline`**. -/
theorem ensures_finishDelline (h : e.Valid) {text : List Str} (ht : text = e.edited .kcCtrlY)
    (hne : 0 < text.length) (hle : e.lineid ≤ text.length) {w : Vram} (a : ℤ) (c : ℕ)
    (hrows : e.Shown → e.Repaints .kcCtrlY → ∀ sl, 0 ≤ sl →
      (e.ui.startline = sl ∧ (sl = 0 ∨ e.lineid < text.length) ∨
        e.ui.startline = sl + 1 ∧ e.lineid = text.length) →
      ShowsOn (fun r => text.length - sl ≤ r) text sl e.ui.startx w) :
    (finishDelline (e.ui.startline + e.ui.cursory)).Ensures Ed.perform
      { e with text := text, allocated := a, calls := c, ui := { e.ui with vram := w } }
        fun r e' => r = .done ∧ Edited e .kcCtrlY e' := by
  obtain ⟨hsl, hsl', hcy, hcy', hlt⟩ := h.window
  rw [Ed.lineid] at hle hrows
  -- the three ways to place the window have the rest in common
  have hplace : ∀ sl cy : ℤ, Window text.length sl cy →
      (e.ui.startline = sl ∧ (sl = 0 ∨ e.ui.startline + e.ui.cursory < text.length) ∨
        e.ui.startline = sl + 1 ∧ e.ui.startline + e.ui.cursory = text.length) →
      (edmoveSetCursorx 0).Ensures Ed.perform
        { e with
          text := text
          allocated := a
          calls := c
          ui := { e.ui with startline := sl, cursory := cy, vram := w } } fun _ e₁ =>
        edutilsShowScreen.Ensures Ed.perform { e₁ with ui := { e₁.ui with
          userx := e₁.ui.cursorx, userstartx := e₁.ui.startx, dirty := true } }
            fun _ e' => Edited e .kcCtrlY e' := by
    intro sl cy hw hcase
    refine ensures_setCursorx le_rfl (by decide) hw.sl_nonneg hw.sl_le (by
      have := hw.lt
      have := hw.cy_nonneg
      dsimp only
      omega) h.delLastLine fun v hv => ?_
    dsimp only at hv ⊢
    have hcol := column_of_le (x := 0) le_rfl (by decide)
    refine Ready.showScreen ?_ h ht rfl a c
    refine ⟨⟨rfl, rfl, rfl, rfl, rfl, rfl⟩, rfl, hw, hcol, Int.natCast_nonneg _, hcol,
      fun hplain hsh hrep => ?_⟩
    exact (hv _ hplain (hrows hsh hrep sl hw.sl_nonneg hcase)).mono fun r hr hout => hout.1
  simp only [finishDelline, ensures_bind, ensures_fileLines, ensures_when, ensures_modify,
    edmoveSaveCursorx, setDirty, ensures_pure, true_and]
  split
  next hlast =>
    split
    next hup =>
      rw [s16_eq (by omega) (by omega)]
      exact hplace (e.ui.startline - 1) e.ui.cursory ⟨by omega, by omega, hcy, hcy', by omega⟩
        (.inr ⟨by omega, hlast.symm⟩)
    next hfirst =>
      rw [s16_eq (by omega) (by omega)]
      exact hplace e.ui.startline (e.ui.cursory - 1) ⟨hsl, hsl', by omega, by omega, by omega⟩
        (.inl ⟨rfl, .inl (by omega)⟩)
  next hinside =>
    exact hplace e.ui.startline e.ui.cursory ⟨hsl, hsl', hcy, hcy', by omega⟩
      (.inl ⟨rfl, .inr (by omega)⟩)

/-- **`ededit_delline`.** -/
theorem keyDelline_spec (h : e.Valid) (hg : e.Granting) :
    (ededitHandleKey .kcCtrlY).Ensures Ed.perform e fun r e' =>
      r = .done ∧ Edited e .kcCtrlY e' := by
  obtain ⟨hsl, hsl', hcy, hcy', hlt⟩ := h.window
  have hlines : editorLines = 29 := rfl
  have hid : 0 ≤ e.ui.startline + e.ui.cursory := add_nonneg hsl hcy
  have hlineid : e.lineid = e.ui.startline + e.ui.cursory := rfl
  change ededitDelline.Ensures _ _ _
  simp only [ededitDelline, ensures_bind, ensures_ui]
  rw [ensures_lineGet hid hlt]
  simp only [ensures_fileLines, ensures_ite]
  by_cases hone : e.text.length = 1
  · have ht : e.edited .kcCtrlY = [[]] := if_pos hone
    obtain ⟨t, htext⟩ := List.length_eq_one_iff.mp hone
    have hzero : (e.ui.startline + e.ui.cursory).toNat = 0 := by omega
    rw [if_pos (by omega), hzero, htext, List.getD_cons_zero]
    split
    next hchars =>
      simp only [ensures_bind]
      refine ensures_truncate hid hlt hg le_rfl (Int.natCast_nonneg _) fun c => ?_
      have hset : e.text.set (e.ui.startline + e.ui.cursory).toNat
          ((e.text.getD (e.ui.startline + e.ui.cursory).toNat []).take (0 : ℤ).toNat) = [[]] := by
        rw [hzero, htext]
        rfl
      rw [hset]
      simp only [↓reduceIte]
      refine ensures_finishDelline h ht.symm (by decide) (by
        rw [hlineid, List.length_singleton]
        omega) e.allocated c fun hsh _ sl hsl₀ hcase => ?_
      refine (h.showsOn_below hsh hsl₀).mono fun r _ hr => ⟨hr, ?_⟩
      rw [List.length_singleton] at hr hcase
      omega
    next hempty =>
      rw [ensures_pure]
      refine ⟨rfl, h.unedited (ht.trans ?_) rfl⟩
      rw [htext, List.length_eq_zero_iff.mp (Nat.eq_zero_of_not_pos hempty)]
  · have ht : e.text.eraseIdx e.lineid.toNat = e.edited .kcCtrlY := (if_neg hone).symm
    have hlen : (e.text.eraseIdx e.lineid.toNat).length = e.text.length - 1 :=
      List.length_eraseIdx_of_lt h.lineid_lt
    obtain ⟨r₀, hr₀⟩ := Int.eq_ofNat_of_zero_le
      (by omega : 0 ≤ min (editorLines - 1) ((e.text.length : ℤ) - 1))
    rw [if_neg (by omega), hr₀]
    simp only [ensures_bind, edhwClearline, ensures_term]
    refine ensures_removeLine hid (by exact hlt) (by exact hg) fun a c => ?_
    refine ensures_finishDelline h ht (by omega) (by omega) a c
      fun hsh hrep sl hsl₀ hcase => ?_
    rw [hlen] at hcase
    have hrep' : e.lineid + 1 < e.text.length → e.ui.startline ≠ 0 →
        e.ui.startline + 29 ≤ e.text.length := hrep
    refine ((h.showsOn_below hsh hsl₀).clearline (by omega) _ _).mono fun r hr hle => ?_
    rw [hlen] at hle ⊢
    by_cases hbehind : (e.text.length : ℤ) - e.ui.startline ≤ r
    · by_cases hrow : r = r₀
      · exact .inr ⟨hrow, by omega⟩
      · exact .inl ⟨⟨hle, hbehind⟩, hrow⟩
    · -- the row of the last line is the one that was cleared
      exact .inr ⟨by omega, by omega⟩

/-- **`ededit_pasteblock`.** -/
theorem pasteblock_spec (h : e.Valid) (hg : e.Granting) :
    (ededitHandleKey .kcCtrlV).Ensures Ed.perform e fun r e' =>
      r = .done ∧ Edited e .kcCtrlV e' := by
  obtain ⟨hsl, hsl', hcy, hcy', hlt⟩ := h.window
  have hid : 0 ≤ e.ui.startline + e.ui.cursory := add_nonneg hsl hcy
  change ededitPasteblock.Ensures _ _ _
  simp only [ededitPasteblock, ensures_bind, ensures_hasBlock, ensures_ite]
  cases hb : e.block with
  | none =>
    simp only [Option.isSome_none, Bool.false_eq_true, ↓reduceIte, ensures_pure, true_and]
    refine h.unedited ?_ hb.symm
    change pasteAt e.text e.lineid.toNat (e.block.getD []) = _
    rw [hb, Option.getD_none, pasteAt, List.append_nil, List.take_append_drop]
  | some bl =>
    have ht : pasteAt e.text e.lineid.toNat bl = e.edited .kcCtrlV := by
      rw [Ed.edited, hb]
      rfl
    have hlen := length_pasteAt bl h.lineid_lt.le
    simp only [Option.isSome_some, ↓reduceIte]
    refine ensures_pasteLines hg hb (h.marks bl hb) hid hlt fun a c => ?_
    simp only [Ed.lineid] at ht hlen
    generalize pasteAt e.text (e.ui.startline + e.ui.cursory).toNat bl = text at ht hlen ⊢
    simp only [↓reduceIte, setDirty, ensures_modify]
    refine ensures_setCursorx le_rfl (by decide) hsl hsl' (by dsimp only; omega) h.delLastLine
      fun v hv => ?_
    dsimp only at hv ⊢
    refine ensures_showScreen hsl hsl' (by dsimp only; omega) fun v₁ hv₁ => ?_
    dsimp only at hv₁ ⊢
    rw [ensures_pure]
    have hterm := h.terminated_edited .kcCtrlV
    rw [← ht] at hterm
    have hselect : e.ui.select ≠ true := fun hsel => by cases (h.select hsel).symm.trans hb
    refine ⟨rfl, ht, rfl, rfl, ?_, rfl, rfl, rfl, rfl, fun hsel => absurd hsel hselect,
      fun hd => absurd hd.symm Bool.false_ne_true, fun hplain hsh _ => ?_⟩
    · exact
        { window := ⟨hsl, hsl', hcy, hcy', by dsimp only; omega⟩
          column := column_of_le le_rfl (by decide)
          pos_le := Int.natCast_nonneg _
          user := h.user
          nlines := rfl
          delLastLine := rfl
          select := fun _ => rfl
          marks := fun bl' hbl' => absurd hbl' (Option.some_ne_none bl').symm
          terminated := fun t ht' => hterm t (by simpa using ht') }
    · have hplain' : PlainStrings text [] e.ui.fpath :=
        ⟨ht ▸ (PlainStrings.edited hplain .kcCtrlV).text,
          fun t ht' => absurd ht' List.not_mem_nil, hplain.fpath⟩
      have hbelow : ShowsOn (fun r => (text.length : ℤ) - e.ui.startline ≤ r) text
          e.ui.startline e.ui.startx e.ui.vram :=
        (h.showsOn_below hsh hsl).mono fun r _ hr => ⟨hr, by omega⟩
      exact hv₁ _ (fun r _ hr => .inl hr) hplain' (hv _ hplain' hbelow)

end ELuaBrain.Editor
