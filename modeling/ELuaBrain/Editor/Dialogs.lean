import ELuaBrain.Editor.Requests

/-!
# Dialogs and files

A dialog draws inside a box, and closing the box brings back what was on the screen before. Saving
writes the lines of the text one after the other, and may fail at each of them.

## Main definitions

* `SameScreen` : the characters on the screen are the same.
* `Ed.Tracked` : a text that is not marked as changed is the one in the file.

## Main results

* `ensures_edhwMsg`, `ensures_edhwRead`, `ensures_edhwDlg` : the dialogs.
* `ensures_saveFile` : saving.
-/

namespace ELuaBrain.Editor

open Prog Program Vram

/-! ### Boxes -/

/-- The same characters, unless an escape sequence is pending. -/
def SameScreen (v v' : Vram) : Prop := v.ansi = none → v'.text = v.text ∧ v'.ansi = none

theorem ShowsOn.sameScreen {P : ℕ → Prop} {text : List Str} {sl sx : ℤ} {v v' : Vram}
    (h : ShowsOn P text sl sx v) (hv : SameScreen v v') : ShowsOn P text sl sx v' := by
  obtain ⟨htext, hansi⟩ := hv h.ansi
  refine ⟨hansi, fun r hr hP x hx => ?_⟩
  rw [htext]
  exact h.row r hr hP x hx

theorem SameScreen.trans {v v₁ v₂ : Vram} (h : SameScreen v v₁) (h' : SameScreen v₁ v₂) :
    SameScreen v v₂ := fun hansi => by
  obtain ⟨htext, hansi₁⟩ := h hansi
  obtain ⟨htext', hansi₂⟩ := h' hansi₁
  exact ⟨htext'.trans htext, hansi₂⟩

/-- The screen after `term_reset` is blank. -/
theorem showsOn_reset {text : List Str} {sl sx : ℤ} {v : Vram} (hsl : 0 ≤ sl)
    (hansi : v.ansi = none) :
    ShowsOn (fun r => (text.length : ℤ) - sl ≤ r) text sl sx v.reset := by
  refine ⟨hansi, fun r hr hle x hx => ?_⟩
  have hline : text.getD (sl.toNat + r) [] = [] := List.getD_eq_default _ _ (by omega)
  rw [hline, visible, List.drop_nil, List.take_nil, ite_self]
  refine if_pos ?_
  simp only [charAddr, vramCols, vramLines] at hx ⊢
  omega

namespace Vram

variable {v v' : Vram} {b : Box} {s : Str}

/-- A string inside the box. -/
theorem OnlyBox.cstrxy (h : OnlyBox b v v') {x y : ℕ} (hs : ∀ c ∈ s, Displayable c)
    (hx : b.x ≤ x) (hx' : x + s.length ≤ b.x + b.width) (hb : b.x + b.width ≤ 80) (hin : x < 80)
    (hy : b.y ≤ y) (hy' : y < b.y + b.height) (hlines : y < 30) :
    OnlyBox b v (v'.cstrxy x y s) := by
  rw [Vram.cstrxy, gotoxy_eq hin hlines]
  have hmoved : OnlyBox b v { v' with cx := x, cy := y } := ⟨h.text_eq, h.ansi_eq⟩
  exact hmoved.putstr hs hx hx' hb hy hy'

/-- The screen after a dialog. -/
theorem sameScreen_closeBox {x y width height : ℕ} {title : Str}
    (h : v.ansi = none → OnlyBox (v.box x y width height title).1 v v') (cx cy : ℤ) :
    SameScreen v ((v'.closeBox (v.box x y width height title).1).gotoxy cx cy) := fun hansi =>
  ⟨closeBox_text (h hansi), (h hansi).ansi_eq⟩

end Vram

variable {e : Ed} {env : Env}

theorem ensures_termBox {x y width height : ℕ} {title : Str} {Q : Option Box → Ed → Prop}
    (hg : e.Granting)
    (hQ : ∀ n, Q (some (e.ui.vram.box x y width height title).1) { e with
      calls := n, ui := { e.ui with vram := (e.ui.vram.box x y width height title).2 } }) :
    (termBox x y width height title).Ensures Ed.perform e Q := by
  have hg' : ∀ n, e.answers n = true := hg
  simp only [termBox, ensures_bind, ensures_malloc, hg', ensures_ite, ↓reduceIte, ensures_ui,
    ensures_term, ensures_pure]
  exact hQ _

/-! ### Dialogs -/

/-- **`edhw_msg`.** -/
theorem ensures_edhwMsg {msg title : Str} {Q : Unit → Ed → Prop} (hg : e.Granting)
    (hmsg : ∀ c ∈ msg, Displayable c) (hlen : msg.length ≤ 76)
    (hQ : ∀ v n, SameScreen e.ui.vram v →
      Q () { e with calls := n, ui := { e.ui with vram := v } }) :
    (edhwMsg msg title).Ensures Ed.perform e Q := by
  simp only [edhwMsg, ensures_bind, ensures_ui]
  refine ensures_termBox hg fun n => ?_
  simp only [ensures_term, termCloseBox, edhwGotoxy]
  refine hQ _ n (sameScreen_closeBox (fun hansi => ?_) _ _)
  refine (onlyBox_box hansi).cstrxy hmsg ?_ ?_ ?_ ?_ ?_ ?_ ?_
  all_goals
    simp only [Vram.box, boxColumn]
    omega

/-- One key at a prompt. -/
def typeKey (maxlen : ℕ) (validator : Str → UInt8 → Bool) (s : Str) : PromptKey → Str
  | .kcBackspace => s.dropLast
  | .char c => if s.length < maxlen ∧ validator s c then s ++ [c.1] else s

/-- The screen while `input` is typed in a box, from the column `x` on. -/
structure Prompting (b : Box) (v : Vram) (x cy : ℕ) (input : Str) (v' : Vram) : Prop
    extends OnlyBox b v v' where
  cx_eq : v'.cx = x + input.length
  cy_eq : v'.cy = cy

section Prompt

variable {maxlen : ℕ} {validator : Str → UInt8 → Bool} {x cy : ℕ} {b : Box} {v v' : Vram}
  {input : Str}

theorem OnlyBox.prompting (h : OnlyBox b v v') (hx : x + input.length < 80) (hcy : cy < 30) :
    Prompting b v x cy input (v'.gotoxy (x + input.length : ℕ) cy) := by
  have hgoto := gotoxy_eq (v := v') hx hcy
  exact ⟨h.gotoxy _ _, by rw [hgoto], by rw [hgoto]⟩

/-- Each key at a prompt is shown inside the box. -/
theorem promptKey_spec (hx : b.x ≤ x) (hx' : x + maxlen ≤ b.x + b.width) (hb : b.x + b.width < 80)
    (hy : b.y ≤ cy) (hy' : cy < b.y + b.height) (hcy : cy < 30) (hlen : input.length ≤ maxlen)
    (h : v.ansi = none → Prompting b v x cy input v') (k : PromptKey) :
    ∃ v₁, promptKey maxlen validator cy k
        ({ input := input, cx := ((x + input.length : ℕ) : ℤ) }, v') =
          ({ input := typeKey maxlen validator input k,
             cx := ((x + (typeKey maxlen validator input k).length : ℕ) : ℤ) }, v₁) ∧
      (typeKey maxlen validator input k).length ≤ maxlen ∧
      (v.ansi = none → Prompting b v x cy (typeKey maxlen validator input k) v₁) := by
  cases k with
  | kcBackspace =>
    rw [typeKey, promptKey]
    split
    next hpos =>
      dsimp only at hpos
      have hshort : input.dropLast.length = input.length - 1 := List.length_dropLast
      have hcol : ((x + input.length : ℕ) : ℤ) - 1 = ((x + input.dropLast.length : ℕ) : ℤ) := by
        omega
      rw [hcol]
      refine ⟨_, rfl, by omega, fun hansi => OnlyBox.prompting ?_ (by omega) hcy⟩
      exact (h hansi).toOnlyBox.cstrxy (s := [0x20]) (by decide +kernel) (by omega)
        (by rw [List.length_singleton]; omega) hb.le (by omega) hy hy' hcy
    next hempty =>
      obtain rfl : input = [] := List.length_eq_zero_iff.mp (Nat.eq_zero_of_not_pos hempty)
      exact ⟨v', rfl, hlen, h⟩
  | char c =>
    rw [typeKey, promptKey]
    split
    next hroom =>
      dsimp only at hroom
      have hlong : (input ++ [c.1]).length = input.length + 1 := List.length_append
      have hcol : ((x + input.length : ℕ) : ℤ) + 1 = ((x + (input ++ [c.1]).length : ℕ) : ℤ) := by
        omega
      rw [hcol]
      refine ⟨_, rfl, by omega, fun hansi => OnlyBox.prompting ?_ (by omega) hcy⟩
      have hv := h hansi
      have hcx := hv.cx_eq
      have hrow := hv.cy_eq
      exact hv.toOnlyBox.putstr (s := [c.1])
        (fun c' hc' => (List.mem_singleton.mp hc') ▸ displayable_printable c) (by omega)
        (by rw [List.length_singleton]; omega) hb.le (by omega) (by omega)
    next hfull => exact ⟨v', rfl, hlen, h⟩

variable (maxlen validator) in
theorem promptKeys_spec (hx : b.x ≤ x) (hx' : x + maxlen ≤ b.x + b.width)
    (hb : b.x + b.width < 80) (hy : b.y ≤ cy) (hy' : cy < b.y + b.height) (hcy : cy < 30)
    (ks : List PromptKey) (hlen : input.length ≤ maxlen)
    (h : v.ansi = none → Prompting b v x cy input v') :
    ∃ cx v₁, promptKeys maxlen validator cy ks
        ({ input := input, cx := ((x + input.length : ℕ) : ℤ) }, v') =
          ({ input := ks.foldl (typeKey maxlen validator) input, cx := cx }, v₁) ∧
      (v.ansi = none → OnlyBox b v v₁) := by
  induction ks generalizing input v' with
  | nil => exact ⟨_, v', rfl, fun hansi => (h hansi).toOnlyBox⟩
  | cons k ks ih =>
    obtain ⟨v₁, heq, hlen₁, h₁⟩ := promptKey_spec hx hx' hb hy hy' hcy hlen h k
    obtain ⟨cx, v₂, hrest, h₂⟩ := ih hlen₁ h₁
    refine ⟨cx, v₂, ?_, h₂⟩
    rw [promptKeys, List.foldl_cons, heq]
    exact hrest

end Prompt

theorem typedText_eq (maxlen : ℕ) (validator : Str → UInt8 → Bool) (ks : List PromptKey) :
    typedText maxlen validator ks = ks.foldl (typeKey maxlen validator) [] := rfl

/-- **`edhw_read`.** -/
theorem ensures_edhwRead {title text : Str} {maxlen : ℕ} {validator : Str → UInt8 → Bool}
    {Q : Option Str → Ed → Prop} (hg : e.Granting) (htext : ∀ c ∈ text, Displayable c)
    (hlen : text.length ≤ 74) (hmax : maxlen ≤ 74)
    (hQ : ∀ v n, SameScreen e.ui.vram v →
      Q (if env.entered then some (typedText maxlen validator env.typed) else none)
        { e with calls := n, ui := { e.ui with vram := v } }) :
    (edhwRead env title text maxlen validator).Ensures Ed.perform e Q := by
  have hg' : ∀ n, e.answers n = true := hg
  simp only [edhwRead, ensures_bind, ensures_ui, ensures_malloc, hg', ensures_ite, ↓reduceIte]
  refine ensures_termBox (by exact hg) fun n => ?_
  simp only [ensures_term, termCloseBox, edhwGotoxy, ensures_pure]
  have hwidth : 26 ≤ max 26 (max text.length maxlen + 4) := le_max_left _ _
  have hwidth' : max 26 (max text.length maxlen + 4) ≤ 78 := by omega
  have htext' : text.length + 4 ≤ max 26 (max text.length maxlen + 4) := by omega
  have hmax' : maxlen + 4 ≤ max 26 (max text.length maxlen + 4) := by omega
  generalize max 26 (max text.length maxlen + 4) = width at hwidth hwidth' htext' hmax' ⊢
  have hopen : e.ui.vram.ansi = none →
      Prompting (box (boxColumn width) 13 width 4 title e.ui.vram).1 e.ui.vram
        (boxColumn width + 2) 15 [] (gotoxy (boxColumn width + 2 : ℕ) 15
          (cstrxy (boxColumn width + 2 : ℕ) 14 text
            (box (boxColumn width) 13 width 4 title e.ui.vram).2)) := by
    intro hansi
    refine OnlyBox.prompting (((onlyBox_box hansi).cstrxy htext ?_ ?_ ?_ ?_ ?_ ?_ ?_)) ?_ ?_
    all_goals first
      | decide
      | simp only [Vram.box, boxColumn, List.length_nil]
        omega
  have hcol : boxColumn width = (80 - width) / 2 := rfl
  obtain ⟨cx, v₁, hkeys, hbox⟩ := promptKeys_spec maxlen validator
    (Nat.le_add_right _ 2) (by simp only [Vram.box]; omega) (by simp only [Vram.box]; omega)
    (show 13 ≤ 15 by decide) (show 15 < 13 + 4 by decide) (by decide) env.typed (Nat.zero_le _)
    hopen
  have hpost := hQ _ n (sameScreen_closeBox hbox e.ui.vram.cx e.ui.vram.cy)
  rw [typedText_eq] at hpost
  change promptKeys maxlen validator 15 env.typed ({ cx := ((boxColumn width + 2 : ℕ) : ℤ) }, _) =
    _ at hkeys
  rw [hkeys]
  exact hpost

/-- **`edhw_dlg`.** -/
theorem ensures_edhwDlg {text : Str} {yes : Bool} {Q : Bool → Ed → Prop} (hg : e.Granting)
    (htext : ∀ c ∈ text, Displayable c) (hlen : text.length ≤ 76)
    (hQ : ∀ v n, SameScreen e.ui.vram v → Q yes { e with
      calls := n
      ui := { e.ui with vram := v, dialogs := (text, yes) :: e.ui.dialogs } }) :
    (edhwDlg text yes).Ensures Ed.perform e Q := by
  have hbuttons : ∀ c ∈ ascii "Yes/No", Displayable c := displayable_ascii (by decide +kernel)
  have hsix : (ascii "Yes/No").length = 6 := by decide
  simp only [edhwDlg, ensures_bind, ensures_ui]
  refine ensures_termBox hg fun n => ?_
  simp only [ensures_term, termCloseBox, edhwGotoxy, ensures_modify, ensures_pure]
  refine hQ _ n (sameScreen_closeBox (fun hansi => ?_) _ _)
  refine ((onlyBox_box hansi).cstrxy htext ?_ ?_ ?_ ?_ ?_ ?_ ?_).cstrxy hbuttons
    ?_ ?_ ?_ ?_ ?_ ?_ ?_
  all_goals
    simp only [Vram.box, boxColumn]
    omega

/-! ### Files -/

/-- The file that `editorh_save_file` writes. -/
def savedFile (text : List Str) : Str := text.flatMap (· ++ [0x0A])

theorem savedFile_cons (t : Str) (text : List Str) :
    savedFile (t :: text) = t ++ 0x0A :: savedFile text := by
  rw [savedFile, List.flatMap_cons, List.append_assoc]
  rfl

/-- A text that is not marked as changed is the one that was loaded, or written completely. -/
def Ed.Tracked (e : Ed) : Prop := e.ui.dirty = false → e.text = e.ui.disk.saved

/-- The file with this name is opened, and every line is written. -/
def Ed.Written (e : Ed) (env : Env) (fname : Option Str) : Prop :=
  fname.getD [] ≠ [] ∧ env.opens = true ∧ ∀ c < e.text.length, env.writes c = true

/-- The loop of `editorh_save_file` over the lines from the line `c` on. -/
theorem ensures_writeLines {n c : ℕ} {Q : Bool → Ed → Prop} (hlen : c + n = e.text.length)
    (hQ : ∀ d : Disk, d.saved = e.ui.disk.saved →
      d.pending = e.ui.disk.pending ++ e.text.drop c →
      d.file = e.ui.disk.file ++ savedFile (e.text.drop c) →
      (∀ i, c ≤ i → i < e.text.length → env.writes i = true) →
      Q true { e with ui := { e.ui with disk := d } })
    (hQ' : ∀ d : Disk, d.saved = e.ui.disk.saved →
      (∃ i < e.text.length, env.writes i = false) →
      Q false { e with ui := { e.ui with disk := d } }) :
    (writeLines env n c).Ensures Ed.perform e Q := by
  induction n generalizing c e with
  | zero =>
    have hdrop : e.text.drop c = [] := List.drop_of_length_le (by omega)
    rw [writeLines, ensures_pure]
    refine hQ e.ui.disk rfl ?_ ?_ fun i hi hi' => by omega
    · rw [hdrop, List.append_nil]
    · rw [hdrop]
      exact (List.append_nil _).symm
  | succ n ih =>
    have hlt : c < e.text.length := by omega
    have hdrop : e.text.drop c = e.text[c] :: e.text.drop (c + 1) := List.drop_eq_getElem_cons hlt
    rw [writeLines, ensures_bind, ensures_lineAt hlt, ensures_ite]
    split
    next hwrite =>
      simp only [ensures_bind, onDisk, ensures_modify]
      refine ih (by dsimp only; omega) (fun d hsaved hpending hfile hall => ?_)
        fun d hsaved hfail => hQ' d hsaved hfail
      refine hQ d hsaved ?_ ?_ fun i hi hi' => ?_
      · rw [hpending, hdrop, List.getD_eq_getElem _ _ hlt]
        simp only [Disk.write, List.append_assoc, List.singleton_append]
      · rw [hfile, hdrop, savedFile_cons, List.getD_eq_getElem _ _ hlt]
        simp only [Disk.write, List.append_assoc, List.singleton_append]
      · obtain rfl | hne := Nat.eq_or_lt_of_le hi
        · exact hwrite
        · exact hall i hne hi'
    next hfail =>
      rw [ensures_pure]
      exact hQ' e.ui.disk rfl ⟨c, hlt, by simpa using hfail⟩

/-- What is left when saving has ended, and whether everything was written. -/
structure Saving (e : Ed) (env : Env) (fname : Option Str) (r d : Bool) (k : Disk) (v : Vram) :
    Prop where
  written : r = true ↔ e.Written env fname
  done : r = true →
    d = false ∧ k.file = savedFile e.text ∧ (env.closes = true → k.saved = e.text)
  failed : r = false → d = e.ui.dirty ∧ k.saved = e.ui.disk.saved
  shown : ∀ P text sl sx, e.Plain → ShowsOn P text sl sx e.ui.vram → ShowsOn P text sl sx v

/-- **`editorh_save_file`.** -/
theorem ensures_saveFile {fname : Option Str} {Q : Bool → Ed → Prop} (hg : e.Granting)
    (hQ : ∀ r d k v n, Saving e env fname r d k v →
      Q r { e with calls := n, ui := { e.ui with dirty := d, disk := k, vram := v } }) :
    (editorhSaveFile env fname).Ensures Ed.perform e Q := by
  rw [editorhSaveFile, ensures_ite]
  split
  next hname =>
    rw [ensures_bind]
    refine ensures_edhwMsg hg (displayable_ascii (by decide +kernel)) (by decide) fun v n hv => ?_
    rw [ensures_pure]
    exact hQ false e.ui.dirty e.ui.disk v n
      ⟨iff_of_false Bool.false_ne_true fun hw => hw.1 hname, fun hr => absurd hr Bool.false_ne_true,
        fun _ => ⟨rfl, rfl⟩, fun _ _ _ _ _ hsh => hsh.sameScreen hv⟩
  next hname =>
    rw [ensures_ite]
    split
    next hopen =>
      rw [ensures_bind]
      refine ensures_edhwMsg hg (displayable_ascii (by decide +kernel)) (by decide) fun v n hv => ?_
      rw [ensures_pure]
      exact hQ false e.ui.dirty e.ui.disk v n
        ⟨iff_of_false Bool.false_ne_true fun hw => hopen hw.2.1,
          fun hr => absurd hr Bool.false_ne_true,
          fun _ => ⟨rfl, rfl⟩, fun _ _ _ _ _ hsh => hsh.sameScreen hv⟩
    next hopen =>
      simp only [ensures_bind, onDisk, ensures_modify, ensures_fileLines]
      refine ensures_writeLines (Nat.zero_add _) (fun d hsaved hpending hfile hall => ?_)
        fun d hsaved hfail => ?_
      · simp only [↓reduceIte, ensures_bind, ensures_modify]
        refine ensures_displayStatus fun v hv => ?_
        refine ensures_edhwMsg (by exact hg) (displayable_ascii (by decide +kernel)) (by decide)
          fun v' n hv' => ?_
        rw [ensures_pure]
        refine hQ true false (d.close env.closes) v' n
          ⟨iff_of_true rfl ⟨hname, not_not.mp hopen, fun c hc => hall c (Nat.zero_le c) hc⟩,
            fun _ => ⟨rfl, ?_, fun hclose => ?_⟩, fun hr => absurd hr.symm Bool.false_ne_true,
            fun P text sl sx hplain hsh => (hv P text sl sx hplain hsh).sameScreen hv'⟩
        · rw [List.drop_zero, List.nil_append] at hfile
          rw [Disk.close]
          split <;> exact hfile
        · rw [Disk.close, if_pos hclose]
          rw [List.drop_zero, List.nil_append] at hpending
          exact hpending
      · simp only [Bool.false_eq_true, ↓reduceIte, ensures_bind]
        refine ensures_edhwMsg (by exact hg) (displayable_ascii (by decide +kernel)) (by decide)
          fun v' n hv' => ?_
        rw [ensures_pure]
        obtain ⟨i, hi, hfalse⟩ := hfail
        refine hQ false e.ui.dirty d v' n
          ⟨iff_of_false Bool.false_ne_true fun hw => ?_, fun hr => absurd hr Bool.false_ne_true,
            fun _ => ⟨rfl, hsaved⟩, fun _ _ _ _ _ hsh => hsh.sameScreen hv'⟩
        exact Bool.false_ne_true (hfalse.symm.trans (hw.2.2 i hi))

end ELuaBrain.Editor
