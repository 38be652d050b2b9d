import Mathlib.Data.List.GetD
import ELuaBrain.Editor.Text

/-!
# What is drawn

The rules for the code that draws. They describe the screen by the rows that show the right part of
the text, so that what one drawing leaves out is what the next one has to draw.

## Main definitions

* `Vram.Row` : a row of the screen that shows a string.
* `ShowsOn` : the rows of the screen that show the lines of a text.
* `Plain` : strings whose characters are printed as they are.

## Main results

* `ensures_lineDisplay`, `ensures_showScreen`, `ensures_setCursorx` : what the drawing code does.
-/

namespace ELuaBrain.Editor

open Vram Prog

/-! ### Rows -/

/-- The row `r` of the screen shows the string `s`, and blanks behind it. -/
def Vram.Row (v : Vram) (r : ℕ) (s : Str) : Prop :=
  ∀ x < vramCols, v.text (charAddr x r) = s.getD x 0x20

/-- Drawing a row, as `edutils_line_display` and `edutils_display_status` do. -/
def Vram.drawRow (r : ℤ) (s : Str) (v : Vram) : Vram :=
  ((v.gotoxy 0 r).putstr s).putstr (spaces (80 - s.length))

theorem displayable_spaces {n : ℕ} : ∀ c ∈ spaces n, Displayable c := by
  intro c hc
  rw [List.eq_of_mem_replicate hc]
  decide

theorem getD_append_spaces (s : Str) (n x : ℕ) : (s ++ spaces n).getD x 0x20 = s.getD x 0x20 := by
  rw [List.getD_eq_getElem?_getD, List.getD_eq_getElem?_getD, List.getElem?_append]
  split
  · rfl
  next h =>
    rw [spaces, List.getElem?_replicate, List.getElem?_eq_none (by omega : s.length ≤ x)]
    split <;> rfl

section drawRow

variable {v : Vram} {r : ℕ} {s : Str}

theorem drawRow_eq (hs : ∀ c ∈ s, Displayable c) (hlen : s.length ≤ 80) (hansi : v.ansi = none)
    (hr : r < vramLines) :
    (v.drawRow r s).text = paint v.text (charAddr 0 r) (s ++ spaces (80 - s.length)) ∧
      (v.drawRow r s).ansi = none := by
  have hall : ∀ c ∈ s ++ spaces (80 - s.length), Displayable c := fun c hc =>
    (List.mem_append.mp hc).elim (hs c) (displayable_spaces c)
  have hfit : (s ++ spaces (80 - s.length)).length = 80 := by
    rw [List.length_append, spaces, List.length_replicate]
    omega
  have hdraw : v.drawRow r s = v.cstrxy (0 : ℕ) r (s ++ spaces (80 - s.length)) :=
    (List.foldl_append ..).symm
  rw [hdraw, cstrxy_eq hall hansi (by rw [hfit]; decide) (by decide) hr]
  exact ⟨rfl, hansi⟩

/-- The row that is drawn. -/
theorem drawRow_row (hs : ∀ c ∈ s, Displayable c) (hlen : s.length ≤ 80) (hansi : v.ansi = none)
    (hr : r < vramLines) : (v.drawRow r s).Row r s := by
  intro x hx
  have hcols : vramCols = 80 := rfl
  rw [(drawRow_eq hs hlen hansi hr).1, paint, ← getD_append_spaces s (80 - s.length) x]
  have hfit : (s ++ spaces (80 - s.length)).length = 80 := by
    rw [List.length_append, spaces, List.length_replicate]
    omega
  rw [if_pos (by rw [hfit]; simp only [charAddr]; omega),
    show charAddr x r - charAddr 0 r = x by simp only [charAddr]; omega,
    List.getD_eq_getElem _ _ (by omega), List.getD_eq_getElem _ _ (by omega)]

/-- The other rows. -/
theorem drawRow_other (hs : ∀ c ∈ s, Displayable c) (hlen : s.length ≤ 80) (hansi : v.ansi = none)
    (hr : r < vramLines) {r' : ℕ} (hne : r' ≠ r) {s' : Str} (h : v.Row r' s') :
    (v.drawRow r s).Row r' s' := by
  intro x hx
  have hcols : vramCols = 80 := rfl
  rw [(drawRow_eq hs hlen hansi hr).1, paint, ← h x hx]
  have hfit : (s ++ spaces (80 - s.length)).length = 80 := by
    rw [List.length_append, spaces, List.length_replicate]
    omega
  have hout : ¬ (charAddr 0 r ≤ charAddr x r' ∧ charAddr x r' < charAddr 0 r + 80) := by
    simp only [charAddr, vramCols] at hx ⊢
    omega
  rw [hfit, if_neg hout]

end drawRow

/-! ### The rows of a text -/

/-- The rows of the window that satisfy `P` show the lines of the text from `startline` on, each
from the column `startx` on. -/
structure ShowsOn (P : ℕ → Prop) (text : List Str) (startline startx : ℤ) (v : Vram) : Prop where
  ansi : v.ansi = none
  row : ∀ r < 29, P r → v.Row r (visible startx (text.getD (startline.toNat + r) []))

/-- The whole window shows the text. -/
abbrev Shows : List Str → ℤ → ℤ → Vram → Prop := ShowsOn fun _ => True

/-- The characters of the strings are printed as they are. -/
def Plain (ts : List Str) : Prop := ∀ t ∈ ts, ∀ c ∈ t, Displayable c

instance decidablePlain (ts : List Str) : Decidable (Plain ts) :=
  inferInstanceAs (Decidable (∀ t ∈ ts, ∀ c ∈ t, Displayable c))

section ShowsOn

variable {P Q : ℕ → Prop} {text text' : List Str} {sl sl' sx sx' : ℤ} {v v' : Vram}

theorem ShowsOn.mono (h : ShowsOn P text sl sx v) (hPQ : ∀ r < 29, Q r → P r) :
    ShowsOn Q text sl sx v :=
  ⟨h.ansi, fun r hr hQ => h.row r hr (hPQ r hr hQ)⟩

theorem ShowsOn.and (h : ShowsOn P text sl sx v) (h' : ShowsOn Q text sl sx v)
    {R : ℕ → Prop} (hR : ∀ r < 29, R r → P r ∨ Q r) : ShowsOn R text sl sx v :=
  ⟨h.ansi, fun r hr hRr => (hR r hr hRr).elim (h.row r hr) (h'.row r hr)⟩

/-- Rows behind the text are blank, whatever the view. -/
theorem ShowsOn.blank (h : ShowsOn P text sl sx v)
    (hrows : ∀ r < 29, Q r → P r ∧ text.length ≤ sl.toNat + r ∧ text'.length ≤ sl'.toNat + r) :
    ShowsOn Q text' sl' sx' v := by
  refine ⟨h.ansi, fun r hr hQ => ?_⟩
  obtain ⟨hP, hlen, hlen'⟩ := hrows r hr hQ
  have hrow := h.row r hr hP
  rw [List.getD_eq_default _ _ hlen] at hrow
  rw [List.getD_eq_default _ _ hlen']
  have hnil : ∀ i, visible i [] = [] := by
    intro i
    rw [visible, List.drop_nil, List.take_nil, ite_self]
  rwa [hnil] at hrow ⊢

theorem ShowsOn.below {k : ℕ} (h : ShowsOn P text sl sx v) (hP : ∀ r < 29, k ≤ r → P r)
    (hk : text.length ≤ sl.toNat + k) (hk' : text'.length ≤ sl'.toNat + k) :
    ShowsOn (k ≤ ·) text' sl' sx' v :=
  h.blank fun r hr hkr => ⟨hP r hr hkr, by omega, by omega⟩

/-- Another text with the same lines in these rows. -/
theorem ShowsOn.congr (h : ShowsOn P text sl sx v)
    (heq : ∀ r < 29, Q r → P r ∧
      text'.getD (sl'.toNat + r) [] = text.getD (sl.toNat + r) []) :
    ShowsOn Q text' sl' sx v := by
  refine ⟨h.ansi, fun r hr hQ => ?_⟩
  obtain ⟨hP, heq⟩ := heq r hr hQ
  rw [heq]
  exact h.row r hr hP

theorem visible_length (startx : ℤ) (t : Str) : (visible startx t).length ≤ 80 := by
  rw [visible]
  split
  · exact List.length_take_le _ _
  · exact Nat.zero_le _

theorem mem_of_mem_visible {startx : ℤ} {t : Str} {c : UInt8} (h : c ∈ visible startx t) :
    c ∈ t := by
  rw [visible] at h
  split at h
  · exact List.mem_of_mem_drop (List.mem_of_mem_take h)
  · exact absurd h List.not_mem_nil

theorem Plain.getD (h : Plain text) (i : ℕ) : ∀ c ∈ text.getD i [], Displayable c := by
  rw [List.getD_eq_getElem?_getD]
  cases hi : text[i]? with
  | none => exact fun c hc => absurd hc List.not_mem_nil
  | some t => exact h t (List.mem_of_getElem? hi)

/-- Drawing one more line. -/
theorem ShowsOn.drawRow (h : ShowsOn P text sl sx v) (hplain : Plain text) {r : ℕ} (hr : r < 29) :
    ShowsOn (fun r' => P r' ∨ r' = r) text sl sx
      (v.drawRow r (visible sx (text.getD (sl.toNat + r) []))) := by
  have hs : ∀ c ∈ visible sx (text.getD (sl.toNat + r) []), Displayable c := fun c hc =>
    hplain.getD _ c (mem_of_mem_visible hc)
  have hr' : r < vramLines := Nat.lt_succ_of_lt hr
  refine ⟨(drawRow_eq hs (visible_length _ _) h.ansi hr').2, fun r₁ hr₁ hP => ?_⟩
  by_cases heq : r₁ = r
  · subst heq
    exact drawRow_row hs (visible_length _ _) h.ansi hr'
  · exact drawRow_other hs (visible_length _ _) h.ansi hr' heq (h.row r₁ hr₁ (hP.resolve_right heq))

/-- Drawing below the window, or a blank row behind the text. -/
theorem ShowsOn.drawRow_below (h : ShowsOn P text sl sx v) {r : ℕ} {s : Str}
    (hs : ∀ c ∈ s, Displayable c) (hlen : s.length ≤ 80) (hr : r < 30)
    (hbelow : r = 29 ∨ s = [] ∧ text.length ≤ sl.toNat + r) :
    ShowsOn (fun r' => P r' ∨ r' = r) text sl sx (v.drawRow r s) := by
  refine ⟨(drawRow_eq hs hlen h.ansi hr).2, fun r₁ hr₁ hP => ?_⟩
  by_cases heq : r₁ = r
  · obtain hr29 | ⟨rfl, hle⟩ := hbelow
    · omega
    · subst heq
      rw [List.getD_eq_default _ _ hle]
      have hnil : visible sx [] = [] := by rw [visible, List.drop_nil, List.take_nil, ite_self]
      rw [hnil]
      exact drawRow_row hs hlen h.ansi hr
  · exact drawRow_other hs hlen h.ansi hr heq (h.row r₁ hr₁ (hP.resolve_right heq))

/-- The cursor does not matter. -/
theorem ShowsOn.gotoxy (h : ShowsOn P text sl sx v) (x y : ℤ) :
    ShowsOn P text sl sx (v.gotoxy x y) := ⟨h.ansi, h.row⟩

end ShowsOn

/-! ### The status line -/

theorem ascii_append (s t : String) : ascii (s ++ t) = ascii s ++ ascii t := by
  simp only [ascii, String.toList_append, List.map_append]

/-- A text of the program without control characters. -/
theorem displayable_ascii {s : String}
    (h : (ascii s).all (fun c => decide (Displayable c)) = true) :
    ∀ c ∈ ascii s, Displayable c := fun c hc => of_decide_eq_true (List.all_eq_true.mp h c hc)

theorem displayable_toString_nat {n : ℕ} {c : UInt8} (h : c ∈ ascii (toString n)) :
    Displayable c := by
  obtain ⟨d, hd, rfl⟩ := List.mem_map.mp h
  rw [Nat.toString_eq_repr, Nat.toList_repr] at hd
  have hdigit := Nat.isDigit_of_mem_toDigits (by decide) (by decide) hd
  simp only [Char.isDigit, Bool.and_eq_true, decide_eq_true_eq] at hdigit
  have hle : 48 ≤ d.toNat := hdigit.1
  have hge : d.toNat ≤ 57 := hdigit.2
  have hne : ∀ k < 48, UInt8.ofNat d.toNat ≠ UInt8.ofNat k := by
    intro k hk h
    have := congrArg UInt8.toNat h
    rw [UInt8.toNat_ofNat', UInt8.toNat_ofNat'] at this
    omega
  exact ⟨hne 0x1B (by decide), hne 0x0D (by decide), hne 0x0A (by decide), hne 0x08 (by decide),
    hne 0x09 (by decide)⟩

theorem displayable_toString {i : ℤ} {c : UInt8} (h : c ∈ ascii (toString i)) :
    Displayable c := by
  cases i with
  | ofNat n => exact displayable_toString_nat h
  | negSucc n =>
    have hi : toString (Int.negSucc n) = "-" ++ toString (n + 1) := rfl
    have hminus : ∀ c ∈ ascii "-", Displayable c := displayable_ascii (by decide +kernel)
    rw [hi, ascii_append] at h
    exact (List.mem_append.mp h).elim (hminus c) displayable_toString_nat

theorem statusText_length (u : Ui) (n : ℤ) (block : Bool) : (statusText u n block).length ≤ 79 :=
  List.length_take_le _ _

theorem displayable_statusText {u : Ui} (h : Plain u.fpath.toList) (n : ℤ) (block : Bool) :
    ∀ c ∈ statusText u n block, Displayable c := by
  have hconst : ∀ s ∈ [" ", "*", "(none)", "   Col: ", "   Line: ", "/", "   Buffer: ",
      " line(s)   F1 - help"], ∀ c ∈ ascii s, Displayable c := by
    have hall : [" ", "*", "(none)", "   Col: ", "   Line: ", "/", "   Buffer: ",
        " line(s)   F1 - help"].all (fun s => (ascii s).all fun c => decide (Displayable c)) =
          true := by
      decide +kernel
    exact fun s hs => displayable_ascii (List.all_eq_true.mp hall s hs)
  have hpath : ∀ c ∈ u.fpath.getD (ascii "(none)"), Displayable c := by
    cases hf : u.fpath with
    | none => exact hconst "(none)" (by decide)
    | some t => exact h t (by rw [hf]; exact List.mem_cons_self)
  have hflag : ∀ c ∈ (if u.dirty then ascii "*" else ascii " "), Displayable c := by
    split
    · exact hconst "*" (by decide)
    · exact hconst " " (by decide)
  intro c hc
  refine (?_ : ∀ c ∈ _, Displayable c) c (List.mem_of_mem_take hc)
  simp only [List.forall_mem_append, and_assoc]
  exact ⟨hconst " " (by decide), hflag, hconst " " (by decide), hpath,
    hconst "   Col: " (by decide), fun _ => displayable_toString, hconst "   Line: " (by decide),
    fun _ => displayable_toString, hconst "/" (by decide), fun _ => displayable_toString,
    hconst "   Buffer: " (by decide), fun _ => displayable_toString,
    hconst " line(s)   F1 - help" (by decide)⟩

/-! ### Operations -/

/-- The characters that may be displayed at some time are printed as they are. -/
structure PlainStrings (text block : List Str) (fpath : Option Str) : Prop where
  text : Plain text
  block : Plain block
  fpath : Plain fpath.toList

abbrev Ed.Plain (e : Ed) : Prop := PlainStrings e.text (e.block.getD []) e.ui.fpath

section Operations

open Program

variable {e : Ed}

@[simp] theorem ensures_ui {Q : Ui → Ed → Prop} : ui.Ensures Ed.perform e Q ↔ Q e.ui e :=
  ensures_iff_of_run rfl

@[simp] theorem ensures_modify {f : Ui → Ui} {Q : Unit → Ed → Prop} :
    (modify f).Ensures Ed.perform e Q ↔ Q () { e with ui := f e.ui } :=
  ensures_iff_of_run rfl

@[simp] theorem ensures_term {f : Vram → Vram} {Q : Unit → Ed → Prop} :
    (term f).Ensures Ed.perform e Q ↔
      Q () { e with ui := { e.ui with vram := f e.ui.vram } } :=
  ensures_iff_of_run rfl

@[simp] theorem ensures_fileLines {Q : ℤ → Ed → Prop} :
    fileLines.Ensures Ed.perform e Q ↔ Q e.text.length e :=
  ensures_iff_of_run rfl

@[simp] theorem ensures_hasBlock {Q : Bool → Ed → Prop} :
    hasBlock.Ensures Ed.perform e Q ↔ Q e.block.isSome e :=
  ensures_iff_of_run rfl

theorem Ed.line_eq {id : ℤ} (h : 0 ≤ id) (h' : id < e.text.length) :
    Ed.line id e = some (e.text.getD id.toNat [], e) := by
  have hlt : id.toNat < e.text.length := by omega
  rw [Ed.line, if_pos h, List.getElem?_eq_getElem hlt, List.getD_eq_getElem _ _ hlt]
  rfl

theorem ensures_lineGet {id : ℤ} {Q : Str → Ed → Prop} (h : 0 ≤ id) (h' : id < e.text.length) :
    (lineGet id).Ensures Ed.perform e Q ↔ Q (e.text.getD id.toNat []) e :=
  ensures_iff_of_run ((run_perform _ _ _).trans (Ed.line_eq h h'))

/-! ### Drawing -/

/-- The line that the row `r` of the window shows. -/
def Ed.windowLine (e : Ed) (r : ℕ) : Str := e.text.getD (e.ui.startline.toNat + r) []

theorem lineDisplay_run {r : ℕ} (h : 0 ≤ e.ui.startline)
    (h' : e.ui.startline + r < e.text.length) :
    (edutilsLineDisplay r (e.ui.startline + r)).run Ed.perform e = some ((), { e with
      ui := { e.ui with
        vram := e.ui.vram.drawRow r (visible e.ui.startx (e.windowLine r)) } }) := by
  have hline : (lineGet (e.ui.startline + r)).run Ed.perform e = some (e.windowLine r, e) := by
    rw [Ed.windowLine, show e.ui.startline.toNat + r = (e.ui.startline + r).toNat by omega]
    exact (run_perform _ _ _).trans (Ed.line_eq (by omega) h')
  rw [edutilsLineDisplay, run_bind, hline]
  rfl

/-- The screen after the first `n` rows of the window were drawn. -/
def Ed.drawWindow (e : Ed) : ℕ → Vram
  | 0 => e.ui.vram
  | n + 1 => (e.drawWindow n).drawRow n (visible e.ui.startx (e.windowLine n))

theorem drawWindow_run {n : ℕ} (h : 0 ≤ e.ui.startline)
    (h' : e.ui.startline + n ≤ e.text.length) :
    (forEach ((List.range n).map fun k : ℕ => e.ui.startline + (k : ℤ)) fun i =>
      edutilsLineDisplay (i - e.ui.startline) i).run Ed.perform e =
        some ((), { e with ui := { e.ui with vram := e.drawWindow n } }) := by
  induction n with
  | zero => rfl
  | succ n ih =>
    rw [List.range_succ, List.map_append, run_forEach_append, ih (by omega)]
    have hrow := lineDisplay_run (e := { e with ui := { e.ui with vram := e.drawWindow n } }) (r :=
        n)
      h (by simpa using by omega)
    simp only [List.map_cons, List.map_nil, Option.bind_some, run_forEach_cons, run_forEach_nil,
      add_sub_cancel_left]
    rw [hrow]
    rfl

theorem drawWindow_shows {P : ℕ → Prop} {n : ℕ} (hn : n ≤ 29) (hplain : Editor.Plain e.text)
    (h : ShowsOn P e.text e.ui.startline e.ui.startx e.ui.vram) :
    ShowsOn (fun r => P r ∨ r < n) e.text e.ui.startline e.ui.startx (e.drawWindow n) := by
  induction n with
  | zero => exact h.mono fun r _ hr => hr.resolve_right (Nat.not_lt_zero r)
  | succ n ih =>
    refine ((ih (by omega)).drawRow hplain (by omega)).mono fun r _ hr => ?_
    rcases hr with hr | hr
    · exact .inl (.inl hr)
    · exact (Nat.lt_succ_iff_lt_or_eq.mp hr).imp .inr id

/-- **`edutils_line_display`.** -/
theorem ensures_lineDisplay {r id : ℤ} {Q : Unit → Ed → Prop} (hr : 0 ≤ r) (hr' : r < 29)
    (hid : id = e.ui.startline + r) (h : 0 ≤ e.ui.startline) (h' : id < e.text.length)
    (hQ : ∀ v, (∀ P, e.Plain → ShowsOn P e.text e.ui.startline e.ui.startx e.ui.vram →
        ShowsOn (fun r' => P r' ∨ r' = r.toNat) e.text e.ui.startline e.ui.startx v) →
      Q () { e with ui := { e.ui with vram := v } }) :
    (edutilsLineDisplay r id).Ensures Ed.perform e Q := by
  obtain ⟨n, rfl⟩ := Int.eq_ofNat_of_zero_le hr
  subst hid
  refine (ensures_iff_of_run (lineDisplay_run h h')).mpr (hQ _ fun P hplain hv => ?_)
  exact hv.drawRow hplain.text (by omega)

/-- **`edutils_display_status`.** -/
theorem ensures_displayStatus {Q : Unit → Ed → Prop}
    (hQ : ∀ v, (∀ P text sl sx, e.Plain → ShowsOn P text sl sx e.ui.vram →
        ShowsOn P text sl sx v) →
      Q () { e with ui := { e.ui with vram := v } }) :
    edutilsDisplayStatus.Ensures Ed.perform e Q := by
  have hlast : termLines - 1 = (29 : ℕ) := rfl
  simp only [edutilsDisplayStatus, ensures_bind, ensures_ui, ensures_fileLines, ensures_hasBlock,
    edhwGotoxy, edhwWritetext, ensures_term, hlast]
  refine hQ _ fun P text sl sx hplain hv => ShowsOn.gotoxy ?_ _ _
  refine (hv.drawRow_below (r := 29) (displayable_statusText hplain.fpath _ _) ?_ (by decide)
    (.inl rfl)).mono fun r _ hr => .inl hr
  exact (statusText_length _ _ _).trans (by decide)

/-- **`edutils_show_screen`.** It draws the rows of the text, and clears the one behind them if
`EDFLAG_DEL_LAST_LINE` is set. -/
theorem ensures_showScreen_rows {Q : Unit → Ed → Prop} (h : 0 ≤ e.ui.startline)
    (h' : e.ui.startline ≤ 32767) (hle : e.ui.startline ≤ e.text.length)
    (hQ : ∀ v,
      (∀ P, e.Plain → ShowsOn P e.text e.ui.startline e.ui.startx e.ui.vram →
        ShowsOn (fun r => P r ∨ r < e.text.length - e.ui.startline ∨
          e.ui.delLastLine = true ∧ r = e.text.length - e.ui.startline)
          e.text e.ui.startline e.ui.startx v) →
      Q () { e with ui := { e.ui with
        nlines := min 29 (e.text.length - e.ui.startline)
        delLastLine := false
        vram := v } }) :
    edutilsShowScreen.Ensures Ed.perform e Q := by
  have hlines : editorLines = 29 := rfl
  have hmax : vramLines = 30 := rfl
  have hnl : (if e.ui.startline + editorLines > e.text.length
      then s16 (e.text.length - e.ui.startline) else editorLines) =
      min 29 ((e.text.length : ℤ) - e.ui.startline) := by
    rw [hlines]
    split
    · rw [s16_eq (by omega) (by omega)]
      omega
    · omega
  generalize hn : min 29 ((e.text.length : ℤ) - e.ui.startline) = nl at hnl hQ
  obtain ⟨n, rfl⟩ := Int.eq_ofNat_of_zero_le (by omega : 0 ≤ nl)
  set e₁ : Ed := { e with ui := { e.ui with nlines := n } } with he₁
  have hrange : unsignedRange e₁.ui.startline (e₁.ui.startline + n) =
      (List.range n).map fun k : ℕ => e₁.ui.startline + (k : ℤ) := by
    have hsl : e₁.ui.startline = e.ui.startline := rfl
    rw [unsignedRange, u32_eq (by omega) (by omega), u32_eq (by omega) (by omega),
      show (e₁.ui.startline + n - e₁.ui.startline).toNat = n by omega]
  have hwindow := drawWindow_run (e := e₁) (n := n) h (by
    change e.ui.startline + n ≤ (e.text.length : ℤ)
    omega)
  rw [edutilsShowScreen]
  simp only [ensures_bind, ensures_fileLines, ensures_modify, ensures_ui, hnl, ensures_when]
  rw [hrange]
  refine (ensures_iff_of_run hwindow).mpr ?_
  have hshown : ∀ P, e.Plain → ShowsOn P e.text e.ui.startline e.ui.startx e.ui.vram →
      ShowsOn (fun r => P r ∨ r < n) e.text e.ui.startline e.ui.startx (e₁.drawWindow n) :=
    fun P hplain hv => drawWindow_shows (e := e₁) (by omega) hplain.text hv
  split
  next hdel =>
    -- the row behind the text is cleared
    simp only [edhwGotoxy, edhwWritetext, ensures_term]
    refine ensures_displayStatus fun v hv => hQ v fun P hplain hsh => hv _ _ _ _ hplain ?_
    have hrow := (hshown P hplain hsh).drawRow_below (r := n) (s := []) (by simp) (by simp)
      (by omega) (by
        by_cases hn29 : n = 29
        · exact .inl hn29
        · exact .inr ⟨rfl, by omega⟩)
    have hdraw : (e₁.drawWindow n).drawRow n [] =
        ((e₁.drawWindow n).gotoxy 0 n).putstr (spaces 80) := by
      rw [drawRow, List.length_nil, Nat.sub_zero]
      rfl
    rw [hdraw] at hrow
    dsimp only
    refine hrow.mono fun r hr hin => ?_
    obtain hP | hlt | ⟨-, heq⟩ := hin
    · exact .inl (.inl hP)
    · exact .inl (.inr (by omega))
    · exact .inr (by omega)
  next hdel =>
    have hfalse : e.ui.delLastLine = false := by simpa using hdel
    refine ensures_displayStatus fun v hv => ?_
    have hpost := hQ v fun P hplain hsh => by
      refine hv _ _ _ _ hplain ((hshown P hplain hsh).mono fun r hr hin => ?_)
      obtain hP | hlt | ⟨hdel', -⟩ := hin
      · exact .inl hP
      · exact .inr (by omega)
      · exact absurd (hfalse.symm.trans hdel') Bool.false_ne_true
    rw [← hfalse] at hpost
    exact hpost

/-- The rows behind the text must be blank already, except for the one that is cleared. -/
theorem ensures_showScreen {Q : Unit → Ed → Prop} (h : 0 ≤ e.ui.startline)
    (h' : e.ui.startline ≤ 32767) (hle : e.ui.startline ≤ e.text.length)
    (hQ : ∀ v,
      (∀ P, (∀ r : ℕ, r < 29 → e.text.length - e.ui.startline ≤ r →
          P r ∨ e.ui.delLastLine = true ∧ r = e.text.length - e.ui.startline) → e.Plain →
        ShowsOn P e.text e.ui.startline e.ui.startx e.ui.vram →
        Shows e.text e.ui.startline e.ui.startx v) →
      Q () { e with ui := { e.ui with
        nlines := min 29 (e.text.length - e.ui.startline)
        delLastLine := false
        vram := v } }) :
    edutilsShowScreen.Ensures Ed.perform e Q := by
  refine ensures_showScreen_rows h h' hle fun v hv => hQ v fun P hP hplain hsh => ?_
  refine (hv P hplain hsh).mono fun r hr _ => ?_
  by_cases hlt : (r : ℤ) < e.text.length - e.ui.startline
  · exact .inr (.inl hlt)
  · exact (hP r hr (by omega)).imp_right .inr

/-- **`edmove_set_cursorx`.** -/
theorem ensures_setCursorx {x : ℤ} {Q : Unit → Ed → Prop} (hx : 0 ≤ x) (hx' : x ≤ 32767)
    (h : 0 ≤ e.ui.startline) (h' : e.ui.startline ≤ 32767) (hle : e.ui.startline ≤ e.text.length)
    (hdel : e.ui.delLastLine = false)
    (hQ : ∀ v,
      (∀ P, e.Plain → ShowsOn P e.text e.ui.startline e.ui.startx e.ui.vram →
        ShowsOn P e.text e.ui.startline (max 0 (x - 79)) v) →
      Q () { e with ui := { e.ui with
        startx := max 0 (x - 79)
        cursorx := min x 79
        nlines := if max 0 (x - 79) = e.ui.startx then e.ui.nlines
          else min 29 (e.text.length - e.ui.startline)
        vram := v } }) :
    (edmoveSetCursorx x).Ensures Ed.perform e Q := by
  have hcols : termCols = 80 := rfl
  have hs : s16 x = x := s16_eq (by omega) hx'
  have hstart : (if x ≥ 80 then x - (80 - 1) else 0) = max 0 (x - 79) := by
    split <;> omega
  have hcursor : (if x ≥ 80 then (80 : ℤ) - 1 else x) = min x 79 := by
    split <;> omega
  simp only [edmoveSetCursorx, ensures_bind, ensures_modify, ensures_ui, ensures_when, edhwGotoxy,
    ensures_term, hs, hcols, hstart, hcursor]
  by_cases heq : max 0 (x - 79) = e.ui.startx
  · rw [if_neg (by simpa using heq)]
    simp only [heq, ↓reduceIte] at hQ
    exact hQ _ fun P _ hv => hv.gotoxy _ _
  · rw [if_pos heq]
    simp only [heq, ↓reduceIte] at hQ
    have hs' : s16 (max 0 (x - 79)) = max 0 (x - 79) := s16_eq (by omega) (by omega)
    rw [hs']
    refine ensures_showScreen_rows h h' hle fun v hv => ?_
    have hpost := hQ (v.gotoxy (min x 79) e.ui.cursory) fun P hplain hsh => by
      -- the rows of the text are drawn, and those behind it are blank in any column
      have hbelow : ShowsOn (fun r => P r ∧ (e.text.length - e.ui.startline).toNat ≤ r) e.text
          e.ui.startline (max 0 (x - 79)) e.ui.vram :=
        hsh.blank fun r _ hr => ⟨hr.1, by omega, by omega⟩
      refine ((hv _ hplain hbelow).mono fun r _ hP => ?_).gotoxy _ _
      by_cases hlt : (r : ℤ) < e.text.length - e.ui.startline
      · exact .inr (.inl hlt)
      · exact .inl ⟨hP, by omega⟩
    rw [← hdel]
    exact hpost

end Operations

end ELuaBrain.Editor
