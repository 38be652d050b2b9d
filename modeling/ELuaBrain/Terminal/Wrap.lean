import ELuaBrain.System.Wrapped
import ELuaBrain.Terminal.Console
import ELuaBrain.Terminal.Video
import Mathlib.Data.List.Induction

/-!
# Text on the screen

A text that is printed on a cleared screen is wrapped: the rows on the screen are the last rows of
the text, and the cursor is behind the last character. A row that is full stays the last one until
the next character is printed.

## Main definitions

* `Video.Shows` : the screen shows rows.

## Main results

* `Video.Prints.putchar` : one character.
* `screen_wraps` : a text.
-/

namespace ELuaBrain.Terminal

open Editor (Str vramCols vramLines)

/-- A character is printed, or it ends a line. -/
def IsText (c : UInt8) : Prop := IsPrint c ∨ c = lf

instance IsText.decidable (c : UInt8) : Decidable (IsText c) := inferInstanceAs (Decidable (_ ∨ _))

/-- The screen shows rows, with blanks where they have no characters, and the cursor is behind the
last character. -/
structure Video.Shows (v : Video) (rows : List Str) : Prop where
  cells : ∀ x < vramCols, ∀ y < vramLines, v.data (y * vramCols + x) = v.cell (cellAt 0x20 rows x y)
  cx : v.cx.toNat = (lastRow rows).length
  cy : v.cy.toNat + 1 = rows.length

/-- The terminal after some characters are printed in `v₀`. -/
structure Video.Prints (v₀ v : Video) (rows : List Str) : Prop where
  /-- The other variables stay. -/
  same : ∃ data cx cy, v = { v₀ with data, cx, cy }
  shows : v.Shows rows

namespace Video

variable {v₀ v : Video} {rows : List Str} {c : UInt8} {outOfRange : ℤ → ℤ}

/-- An index of a cell. -/
theorem cell_inj {x y x' y' : ℕ} (hx : x < vramCols) (hx' : x' < vramCols) :
    y * vramCols + x = y' * vramCols + x' ↔ y = y' ∧ x = x' := by
  rw [vramCols] at hx hx' ⊢
  omega

/-- The screen is shifted, and the last line is blank. -/
theorem scroll_eq (hlast : v.lastLine.toNat < vramLines) : v.scroll = some { v with
    data := fun i =>
      if v.lastLine.toNat * vramCols ≤ i ∧ i < v.lastLine.toNat * vramCols + vramCols then
        v.cell 0x20
      else if i < v.lastLine.toNat * vramCols then v.data (i + vramCols) else v.data i } := by
  have hle : (v.lastLine.toNat + 1) * vramCols ≤ vramChars := Nat.mul_le_mul_right _ hlast
  rw [scroll, if_pos hle, clearLine, fill, if_pos (charAddr_add_le (Nat.le_refl _) hlast)]
  rfl

theorem countLine_of_not_paging (hpaging : v.pagingEnabled = false) : v.countLine = v := by
  rw [countLine, hpaging]
  rfl

/-- A new line at the end of the screen. -/
theorem newline_last (hfull : v.cy = v.lastLine) (hpaging : v.pagingEnabled = false)
    (hlast : v.lastLine.toNat < vramLines) : v.newline = some { v with
      cx := 0
      data := fun i =>
        if v.lastLine.toNat * vramCols ≤ i ∧ i < v.lastLine.toNat * vramCols + vramCols then
          v.cell 0x20
        else if i < v.lastLine.toNat * vramCols then v.data (i + vramCols) else v.data i } := by
  rw [Video.newline, if_pos hfull, scroll_eq (v := { v with cx := 0 }) hlast]
  exact congrArg some (countLine_of_not_paging hpaging)

/-- A new line before the end of the screen. -/
theorem newline_next (hfull : v.cy ≠ v.lastLine) (hpaging : v.pagingEnabled = false) :
    v.newline = some { v with cx := 0, cy := v.cy + 1 } := by
  rw [Video.newline, if_neg hfull]
  exact congrArg some (countLine_of_not_paging hpaging)

theorem toNat_add_one {n : UInt8} (h : n.toNat < 255) : (n + 1).toNat = n.toNat + 1 := by
  rw [UInt8.toNat_add]
  change (n.toNat + 1) % 256 = _
  omega

/-- **A new line.** -/
theorem Prints.newline (h : Prints v₀ v rows) (hpaging : v₀.pagingEnabled = false)
    (hlast : v₀.lastLine.toNat < vramLines) (hlen : rows.length ≤ v₀.lastLine.toNat + 1) :
    ∃ v', v.newline = some v' ∧ Prints v₀ v'
      ((if rows.length = v₀.lastLine.toNat + 1 then rows.drop 1 else rows) ++ [[]]) := by
  obtain ⟨⟨data, cx, cy, rfl⟩, hcells, -, hcy⟩ := h
  dsimp only at hcells hcy
  by_cases hfull : cy = v₀.lastLine
  · have hrows : rows.length = v₀.lastLine.toNat + 1 := by rw [← hcy, hfull]
    rw [if_pos hrows]
    refine ⟨_, newline_last hfull hpaging hlast, ⟨_, _, _, rfl⟩, fun x hx y hy => ?_, ?_, ?_⟩
    · change (if v₀.lastLine.toNat * vramCols ≤ _ ∧ _ < v₀.lastLine.toNat * vramCols + vramCols then
        v₀.cell 0x20 else if _ < v₀.lastLine.toNat * vramCols then _ else _) = v₀.cell _
      rw [cellAt_concat_nil, cellAt_drop_one]
      rcases Nat.lt_trichotomy y v₀.lastLine.toNat with hlt | heq | hgt
      · -- The row below comes up.
        have hbelow := hcells x hx (y + 1) (by omega)
        rw [Nat.add_one_mul, Nat.add_right_comm] at hbelow
        rw [if_neg (by rw [vramCols] at hx ⊢; omega), if_pos (by rw [vramCols] at hx ⊢; omega)]
        exact hbelow
      · rw [if_pos (by rw [heq]; omega), cellAt_of_length_le (by omega)]
      · rw [if_neg (by rw [vramCols] at hx ⊢; omega), if_neg (by rw [vramCols] at hx ⊢; omega)]
        refine (hcells x hx y hy).trans ?_
        rw [cellAt_of_length_le (by omega), cellAt_of_length_le (by omega)]
        rfl
    · rw [lastRow_concat]
      rfl
    · rw [List.length_append, List.length_drop, List.length_singleton, hcy]
      exact (Nat.sub_add_cancel (Nat.le_of_lt_succ (by omega))).symm
  · have hne : cy.toNat ≠ v₀.lastLine.toNat := fun heq => hfull (UInt8.toNat_inj.mp heq)
    rw [if_neg (by omega)]
    refine ⟨_, newline_next hfull hpaging, ⟨_, _, _, rfl⟩, fun x hx y hy => ?_, ?_, ?_⟩
    · rw [cellAt_concat_nil]
      exact hcells x hx y hy
    · rw [lastRow_concat]
      rfl
    · rw [vramLines] at hlast
      have hlt : cy.toNat < 255 := by omega
      rw [List.length_append, List.length_singleton]
      exact congrArg (· + 1) ((toNat_add_one hlt).trans hcy)

/-- A character in a row that is not full. -/
theorem Prints.putcharInternal (h : Prints v₀ v rows) (hrows : rows ≠ [])
    (hlen : rows.length ≤ v₀.lastLine.toNat + 1) (hlast : v₀.lastLine.toNat < vramLines)
    (hroom : (lastRow rows).length < vramCols) (c : UInt8) :
    ∃ data, v.putcharInternal v.cx v.cy c = some { v with data } ∧
      Prints v₀ { v with data, cx := v.cx + 1 } (rows.dropLast ++ [lastRow rows ++ [c]]) := by
  obtain ⟨⟨data, cx, cy, rfl⟩, hcells, hcx, hcy⟩ := h
  dsimp only at hcells hcx hcy
  have hline : cy.toNat < vramLines := by omega
  have hcolumn : cx.toNat < vramCols := hcx ▸ hroom
  rw [Video.putcharInternal, fill, if_pos (charAddr_add_le hcolumn hline)]
  refine ⟨_, rfl, ⟨_, _, _, rfl⟩, fun x hx y hy => ?_, ?_, ?_⟩
  · rw [cellAt_append_last hrows, ← hcx, ← hcy]
    by_cases hcell : y = cy.toNat ∧ x = cx.toNat
    · obtain ⟨rfl, rfl⟩ := hcell
      rw [if_pos ⟨rfl, rfl⟩]
      exact if_pos ⟨Nat.le_refl _, Nat.lt_succ_self _⟩
    · rw [if_neg (by omega)]
      refine (if_neg ?_).trans (hcells x hx y hy)
      intro hsame
      have haddress : y * vramCols + x = charAddr cx cy := Nat.le_antisymm
        (Nat.le_of_lt_succ hsame.2) hsame.1
      exact hcell ((cell_inj hx hcolumn).mp haddress)
  · rw [lastRow_concat, List.length_append, List.length_singleton, ← hcx]
    rw [vramCols] at hcolumn
    have hlt : cx.toNat < 255 := by omega
    exact toNat_add_one hlt
  · rw [hcy, List.length_append, List.length_dropLast, List.length_singleton]
    exact (Nat.sub_add_cancel (List.length_pos_iff.mpr hrows)).symm

/-- **One character.** -/
theorem Prints.putcharPlain (h : Prints v₀ v rows) (hrows : rows ≠ [])
    (hpaging : v₀.pagingEnabled = false) (hlast : v₀.lastLine.toNat < vramLines)
    (hlen : rows.length ≤ v₀.lastLine.toNat + 1) (c : UInt8) :
    ∃ v', v.putcharPlain c = some v' ∧ Prints v₀ v'
      (if (lastRow rows).length < vramCols then rows.dropLast ++ [lastRow rows ++ [c]]
        else (if rows.length = v₀.lastLine.toNat + 1 then rows.drop 1 else rows) ++ [[c]]) := by
  rw [Video.putcharPlain, h.shows.cx]
  by_cases hroom : (lastRow rows).length < vramCols
  · obtain ⟨data, hput, hprints⟩ := h.putcharInternal hrows hlen hlast hroom c
    rw [if_neg hroom.not_ge, if_pos hroom, Option.bind_eq_bind, Option.bind_some]
    dsimp only
    rw [hput]
    exact ⟨_, rfl, hprints⟩
  · obtain ⟨v₁, hnewline, h₁⟩ := h.newline hpaging hlast hlen
    have hcx : v₁.cx = 0 := by
      refine UInt8.toNat_inj.mp (h₁.shows.cx.trans ?_)
      rw [lastRow_concat]
      rfl
    have hlen₁ : ((if rows.length = v₀.lastLine.toNat + 1 then rows.drop 1 else rows) ++
        [[]]).length ≤ v₀.lastLine.toNat + 1 := by
      rw [List.length_append, List.length_singleton]
      split_ifs
      · rw [List.length_drop]
        omega
      · omega
    obtain ⟨data, hput, hprints⟩ := h₁.putcharInternal (List.append_ne_nil_of_right_ne_nil _
      (List.cons_ne_nil _ _)) hlen₁ hlast (by rw [lastRow_concat]; exact Nat.succ_pos 79) c
    rw [lastRow_concat, List.dropLast_concat] at hprints
    rw [if_pos (Nat.le_of_not_lt hroom), if_neg hroom, hnewline, Option.map_some,
      Option.bind_eq_bind, Option.bind_some]
    have hv₁ : ({ v₁ with cx := 0 } : Video) = v₁ := by rw [← hcx]
    dsimp only
    rw [hv₁, ← hcx, hput]
    exact ⟨_, rfl, hprints⟩

theorem putchar_lf (hansi : v.readingAnsi = false) : v.putchar outOfRange lf = v.newline := by
  rw [Video.putchar, if_neg (by decide), hansi]
  rfl

/-- A character that is printed is no command. -/
theorem putchar_of_isPrint (hansi : v.readingAnsi = false) (hc : IsPrint c) :
    v.putchar outOfRange c = v.putcharPlain c := by
  have hne {d : UInt8} (hd : ¬IsPrint d) : c ≠ d := fun heq => hd (heq ▸ hc)
  have hcolor : v.isColor c = false := by
    have hlt : c.toNat < 127 := UInt8.lt_iff_toNat_lt.mp hc.2
    refine decide_eq_false fun hmode => ?_
    obtain ⟨hge, -⟩ | heq := hmode.2
    · have hle : 128 ≤ c.toNat := UInt8.le_iff_toNat_le.mp hge
      omega
    · exact hne (by decide) heq
  rw [Video.putchar, if_neg (hne (by decide)), if_neg (hansi ▸ Bool.false_ne_true),
    if_neg (hne (by decide)), if_neg (hne (by decide)), if_neg (hne (by decide)),
    if_neg (hne (by decide)), if_neg (hcolor ▸ Bool.false_ne_true)]

/-- A cleared screen shows an empty row. -/
theorem prints_clrscr (v : Video) : ∃ v', v.clrscr = some v' ∧ Prints v v' [[]] := by
  have hclr : v.clrscr = some { v with
      data := fun i => if 0 ≤ i ∧ i < 0 + vramChars then v.cell 0x20 else v.data i
      cx := 0
      cy := 0 } := by
    rw [clrscr, fill, if_pos (Nat.le_of_eq (Nat.zero_add _))]
  refine ⟨_, hclr, ⟨_, _, _, rfl⟩, fun x hx y hy => ?_, rfl, rfl⟩
  have hin : 0 ≤ y * vramCols + x ∧ y * vramCols + x < 0 + vramChars := by
    rw [vramCols] at hx ⊢
    rw [vramLines] at hy
    rw [vramChars, vramLines, vramCols]
    omega
  refine (if_pos hin).trans ?_
  rw [← List.nil_append [[]], cellAt_concat_nil, cellAt_of_length_le (Nat.zero_le _)]
  rfl

theorem vramCols_pos : 0 < vramCols := Nat.succ_pos 79

/-- **One character of a text.** -/
theorem Prints.putchar (outOfRange : ℤ → ℤ) {text : Str} (hpaging : v₀.pagingEnabled = false)
    (hansi : v₀.readingAnsi = false) (hlast : v₀.lastLine.toNat < vramLines)
    (h : Prints v₀ v (lastRows (v₀.lastLine.toNat + 1) (wrap vramCols lf text))) (hc : IsText c) :
    ∃ v', v.putchar outOfRange c = some v' ∧
      Prints v₀ v' (lastRows (v₀.lastLine.toNat + 1) (wrap vramCols lf (text ++ [c]))) := by
  have hpos : 0 < v₀.lastLine.toNat + 1 := Nat.succ_pos _
  have hne : wrap vramCols lf text ≠ [] := wrap_ne_nil _ _ _
  have hlen : (lastRows (v₀.lastLine.toNat + 1) (wrap vramCols lf text)).length ≤
      v₀.lastLine.toNat + 1 := (length_lastRows _ _).trans_le (Nat.min_le_right _ _)
  have hansi' : v.readingAnsi = false := by
    obtain ⟨_, _, _, rfl⟩ := h.same
    exact hansi
  obtain hprint | rfl := hc
  · have hsep : c ≠ lf := by
      rintro rfl
      exact absurd hprint (by decide)
    obtain ⟨v', hv', hprints⟩ := h.putcharPlain (lastRows_ne_nil hpos hne) hpaging hlast hlen c
    refine ⟨v', (putchar_of_isPrint hansi' hprint).trans hv', ?_⟩
    rw [wrap_concat vramCols_pos text hsep, extendRows]
    rw [lastRow_lastRows hpos hne] at hprints
    split_ifs at hprints ⊢ with hroom hfull
    · rwa [lastRows_dropLast hpos hne]
    · rwa [lastRows_concat hpos, if_pos hfull]
    · rwa [lastRows_concat hpos, if_neg hfull]
  · obtain ⟨v', hv', hprints⟩ := h.newline hpaging hlast hlen
    refine ⟨v', (putchar_lf hansi').trans hv', ?_⟩
    rwa [wrap_concat_sep, lastRows_concat hpos]

end Video

/-- A text is printed on the screen after it is cleared. The screen shows the last rows of the
text. -/
def Video.Displays (outOfRange : ℤ → ℤ) (v : Video) (text : Str) : Prop :=
  ∃ v', (v.clrscr.bind fun v => runAll (fun v c => v.putchar outOfRange c) text v) = some v' ∧
    v'.crtAttr = v.crtAttr ∧
      v'.Shows (lastRows (v.lastLine.toNat + 1) (wrap vramCols lf text))

/-- **A text on a cleared screen**, without paging, when no escape sequence is under way and the
last line is one of the screen. -/
theorem screen_wraps (outOfRange : ℤ → ℤ) (v : Video) (hpaging : v.pagingEnabled = false)
    (hansi : v.readingAnsi = false) (hlast : v.lastLine.toNat < vramLines) {text : Str}
    (htext : ∀ c ∈ text, IsText c) : v.Displays outOfRange text := by
  obtain ⟨v₀, hclr, hprints⟩ := Video.prints_clrscr v
  have hrun : ∃ v', runAll (fun v c => v.putchar outOfRange c) text v₀ = some v' ∧
      v.Prints v' (lastRows (v.lastLine.toNat + 1) (wrap vramCols lf text)) := by
    induction text using List.reverseRecOn with
    | nil =>
      refine ⟨v₀, rfl, ?_⟩
      rwa [wrap_nil, lastRows, List.length_singleton, Nat.sub_eq_zero_of_le (Nat.succ_pos _),
        List.drop_zero]
    | append_singleton text c ih =>
      obtain ⟨v₁, hrun₁, h₁⟩ := ih fun d hd => htext d (List.mem_append_left _ hd)
      obtain ⟨v', hv', h'⟩ := h₁.putchar outOfRange hpaging hansi hlast
        (htext c (List.mem_append_right _ List.mem_cons_self))
      refine ⟨v', ?_, h'⟩
      rw [runAll_append, hrun₁, Option.bind_some, runAll, hv']
      rfl
  obtain ⟨v', hv', h'⟩ := hrun
  obtain ⟨_, _, _, hsame⟩ := h'.same
  exact ⟨v', by rw [hclr, Option.bind_some, hv'], by rw [hsame], h'.shows⟩

theorem screen_wraps_two : started.Displays id [0x61, 0x62, lf, 0x63] := by
  have hall : [0x61, 0x62, lf, 0x63].all (fun c => decide (IsText c)) = true := by decide
  exact screen_wraps id started rfl rfl (by decide)
    fun c hc => of_decide_eq_true (List.all_eq_true.mp hall c hc)

/-- A character that ends an escape sequence is not printed, and a last line below the screen takes
the cursor there. -/
theorem not_screen_wraps :
    ¬Video.Displays id { started with readingAnsi := true, ansi := [0x1B] } [0x61] ∧
      ¬Video.Displays id { started with lastLine := 30 } (List.replicate 30 lf ++ [0x61]) := by
  constructor
  · rintro ⟨v', hv', -, hshows⟩
    have hcx : (({ started with readingAnsi := true, ansi := [0x1B] } : Video).clrscr.bind fun v =>
        runAll (fun v c => v.putchar id c) [0x61] v).map Video.cx = some 0 := by decide
    rw [hv', Option.map_some] at hcx
    have hlen := hshows.cx
    rw [Option.some.inj hcx, ← List.nil_append [0x61],
      wrap_concat Video.vramCols_pos [] (by decide), wrap_nil] at hlen
    exact absurd hlen (by decide)
  · rintro ⟨v', hv', -⟩
    have hnone : (({ started with lastLine := 30 } : Video).clrscr.bind fun v =>
        runAll (fun v c => v.putchar id c) (List.replicate 30 lf ++ [0x61]) v).isSome = false := by
      decide
    rw [hv'] at hnone
    cases hnone

end ELuaBrain.Terminal
