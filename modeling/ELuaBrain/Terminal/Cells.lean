import ELuaBrain.Terminal.Box
import Mathlib.Tactic.IntervalCases

/-!
# Rows of the screen

Characters without a meaning of their own that are printed in a row of the video terminal, and
`vram_change_attr` of `src/vram.c`.

## Main definitions

* `overlay` : some values from a place on.
* `Video.putstr`, `Video.Plain` : printing, and characters that are just printed.
* `Video.vramChangeAttr` : other attributes for cells of a row.

## Main results

* `putstr_plain` : characters that fit into a row.
* `vramChangeAttr_eq` : attributes in a row.
-/

namespace ELuaBrain.Terminal

open Editor (Str vramCols vramLines)

/-! ### Values from a place on -/

section Overlay

variable {β : Type*} {f : ℕ → β} {a i k : ℕ} {x : β} {l : List β}

/-- Other values from a place on. -/
def overlay (f : ℕ → β) (a : ℕ) (l : List β) (i : ℕ) : β :=
  if a ≤ i then l[i - a]?.getD (f i) else f i

theorem overlay_nil : overlay f a [] = f := by
  funext i
  rw [overlay, List.getElem?_nil, Option.getD_none, ite_self]

theorem overlay_update : overlay (Function.update f a x) (a + 1) l = overlay f a (x :: l) := by
  funext i
  rw [overlay, overlay]
  obtain hlt | rfl | hlt := lt_trichotomy i a
  · rw [if_neg (by omega), if_neg (by omega), Function.update_of_ne hlt.ne]
  · rw [if_neg (by omega), if_pos le_rfl, Function.update_self, Nat.sub_self]
    rfl
  · have hsub : i - a = (i - (a + 1)) + 1 := by omega
    rw [if_pos (by omega), if_pos hlt.le, Function.update_of_ne hlt.ne', hsub,
      List.getElem?_cons_succ]

theorem overlay_of_outside (h : i < a ∨ a + l.length ≤ i) : overlay f a l i = f i := by
  rw [overlay]
  split_ifs with ha
  · rw [List.getElem?_eq_none (by omega), Option.getD_none]
  · rfl

theorem overlay_add (h : l[k]? = some x) : overlay f a l (a + k) = x := by
  rw [overlay, if_pos (Nat.le_add_right a k), Nat.add_sub_cancel_left, h, Option.getD_some]

end Overlay

/-! ### Cells -/

/-- A cell with an attribute and a character. -/
def mkCell (attr c : UInt8) : UInt16 := UInt16.ofNat (c.toNat * 2 ^ 8 + attr.toNat)

/-- The character of a cell. -/
def cellChar (cell : UInt16) : ℕ := cell.toNat / 2 ^ 8

/-- The attribute of a cell. -/
def cellAttr (cell : UInt16) : UInt8 := UInt8.ofNat cell.toNat

/-- A cell with another attribute. -/
def withAttr (cell : UInt16) (attr : UInt8) : UInt16 :=
  UInt16.ofNat (cellChar cell * 2 ^ 8 + attr.toNat)

section Cells

variable {attr attr' c : UInt8} {cell : UInt16}

theorem toNat_mkCell : (mkCell attr c).toNat = c.toNat * 2 ^ 8 + attr.toNat := by
  have hattr : attr.toNat < 2 ^ 8 := attr.toNat_lt
  have hc : c.toNat < 2 ^ 8 := c.toNat_lt
  refine UInt16.toNat_ofNat_of_lt' ?_
  change _ < 2 ^ 16
  omega

theorem toNat_withAttr : (withAttr cell attr).toNat = cellChar cell * 2 ^ 8 + attr.toNat := by
  have hattr : attr.toNat < 2 ^ 8 := attr.toNat_lt
  have hcell : cell.toNat < 2 ^ 16 := cell.toNat_lt
  refine UInt16.toNat_ofNat_of_lt' ?_
  change _ < 2 ^ 16
  rw [cellChar]
  omega

@[simp] theorem cellChar_mkCell : cellChar (mkCell attr c) = c.toNat := by
  have hattr : attr.toNat < 2 ^ 8 := attr.toNat_lt
  rw [cellChar, toNat_mkCell]
  omega

@[simp] theorem cellAttr_withAttr : cellAttr (withAttr cell attr) = attr := by
  rw [← UInt8.toNat_inj, cellAttr, toNat_withAttr, UInt8.toNat_ofNat']
  have hattr : attr.toNat < 2 ^ 8 := attr.toNat_lt
  omega

@[simp] theorem withAttr_mkCell : withAttr (mkCell attr c) attr' = mkCell attr' c := by
  rw [withAttr, cellChar_mkCell, mkCell]

theorem unsigned_natCast {n : ℕ} (hn : n < 2 ^ 32) : unsigned n = n := by
  rw [unsigned, Int.emod_eq_of_lt (by omega) (by omega), Int.toNat_natCast]

theorem address_add (c l j : ℕ) : address c l + j = address (c + j) l := by
  rw [address, address, Nat.add_assoc]

end Cells

/-! ### Printing in a row -/

namespace Video

/-- `term_putstr`. -/
def putstr (outOfRange : ℤ → ℤ) : List UInt8 → Video → Option Video
  | [], v => some v
  | c :: str, v => (v.putchar outOfRange c).bind (putstr outOfRange str)

/-- A character that is just printed. -/
def Plain (v : Video) (c : UInt8) : Prop :=
  c ≠ 0x1B ∧ c ≠ 0x0D ∧ c ≠ 0x0A ∧ c ≠ 0x08 ∧ c ≠ 0x09 ∧ v.isColor c = false

instance (v : Video) (c : UInt8) : Decidable (v.Plain c) := inferInstanceAs (Decidable (_ ∧ _))

/-- The cell in a column of a line. -/
def wordAt (v : Video) (c l : ℕ) : UInt16 := v.data (address c l)

/-- Some cells of a line, from a column on. -/
def HasRow (v : Video) (c l : ℕ) (cells : List UInt16) : Prop :=
  ∀ j cell, cells[j]? = some cell → v.wordAt (c + j) l = cell

theorem HasRow.congr {v v' : Video} {c l : ℕ} {cells : List UInt16} (h : v.HasRow c l cells)
    (hcells : ∀ j < cells.length, v'.wordAt (c + j) l = v.wordAt (c + j) l) :
    v'.HasRow c l cells := by
  intro j cell hj
  rw [hcells j (List.getElem?_eq_some_iff.mp hj).1]
  exact h j cell hj

section Printing

variable (outOfRange : ℤ → ℤ) {v v' : Video} {c : UInt8} {str : List UInt8}

theorem putstr_append (str str' : List UInt8) (v : Video) :
    putstr outOfRange (str ++ str') v =
      (putstr outOfRange str v).bind (putstr outOfRange str') := by
  induction str generalizing v with
  | nil => rfl
  | cons c str ih =>
    rw [List.cons_append, putstr, putstr, Option.bind_assoc]
    exact congrArg _ (funext ih)

theorem Plain.congr (h : v.Plain c) (hmode : v'.mode = v.mode) : v'.Plain c := by
  rw [Plain, isColor, hmode]
  exact h

theorem plain_space (v : Video) : v.Plain 0x20 := by
  refine ⟨by decide, by decide, by decide, by decide, by decide, ?_⟩
  rw [isColor, decide_eq_false_iff_not]
  rintro ⟨-, hcol⟩
  revert hcol
  decide

theorem putchar_plain (hansi : v.readingAnsi = false) (hc : v.Plain c)
    (hx : v.cx.toNat < vramCols) (hy : v.cy.toNat < vramLines) :
    v.putchar outOfRange c =
      some { v with
        data := Function.update v.data (charAddr v.cx v.cy) (v.cell c)
        cx := v.cx + 1 } := by
  obtain ⟨hesc, hcr, hlf, hbs, htab, hcolor⟩ := hc
  obtain ⟨data, hput⟩ := exists_putcharInternal hx hy c
  have hdata := fill_one hput
  rw [putchar, if_neg hesc, if_neg (Bool.eq_false_iff.mp hansi), if_neg hcr, if_neg hlf, if_neg hbs,
    if_neg htab, if_neg (Bool.eq_false_iff.mp hcolor), putcharPlain, if_neg (not_le.mpr hx)]
  change ((v.putcharInternal v.cx v.cy c).bind fun v => some { v with cx := v.cx + 1 }) = _
  rw [hput, hdata]
  rfl

/-- Characters that fit into the row. -/
theorem putstr_plain (hansi : v.readingAnsi = false) (hstr : ∀ c ∈ str, v.Plain c)
    (hx : v.cx.toNat + str.length ≤ vramCols) (hy : v.cy.toNat < vramLines) :
    putstr outOfRange str v =
      some { v with
        data := overlay v.data (charAddr v.cx v.cy) (str.map v.cell)
        cx := v.cx + UInt8.ofNat str.length } := by
  induction str generalizing v with
  | nil =>
    rw [List.map_nil, overlay_nil, List.length_nil]
    change some v = some { v with cx := v.cx + 0 }
    rw [UInt8.add_zero]
  | cons c str ih =>
    rw [List.length_cons] at hx
    have hcx : (v.cx + 1).toNat = v.cx.toNat + 1 := by
      rw [UInt8.toNat_add, UInt8.toNat_one]
      rw [vramCols] at hx
      omega
    have haddr : charAddr (v.cx + 1) v.cy = charAddr v.cx v.cy + 1 := by
      rw [charAddr, charAddr, hcx, Nat.add_assoc]
    have hlen : v.cx + 1 + UInt8.ofNat str.length = v.cx + UInt8.ofNat (str.length + 1) := by
      rw [UInt8.ofNat_add, UInt8.add_assoc, UInt8.add_comm 1]
      rfl
    rw [putstr, putchar_plain outOfRange hansi (hstr c List.mem_cons_self) (by omega) hy,
      Option.bind_some]
    let v₁ : Video := { v with
      data := Function.update v.data (charAddr v.cx v.cy) (v.cell c), cx := v.cx + 1 }
    have hrest := ih (v := v₁) hansi
      (fun c hc => (hstr c (List.mem_cons_of_mem _ hc)).congr rfl)
      (by change (v.cx + 1).toNat + _ ≤ _; omega) hy
    rw [hrest, List.length_cons, ← hlen, List.map_cons, ← overlay_update, ← haddr]
    rfl

/-- Characters are printed in a row that they fit into. -/
theorem exists_putstr_gotoxy {x y : ℕ} (hansi : v.readingAnsi = false)
    (hstr : ∀ c ∈ str, v.Plain c) (hx : x + str.length ≤ vramCols) (hpos : str ≠ [])
    (hy : y < vramLines) :
    ∃ data cx cy, putstr outOfRange str (v.gotoxy (UInt8.ofInt x) (UInt8.ofInt y)) =
        some { v with data, cx, cy } ∧
      ({ v with data, cx, cy } : Video).HasRow x y (str.map (mkCell v.crtAttr)) ∧
      ∀ c l, c < vramCols → (l = y → c < x ∨ x + str.length ≤ c) →
        ({ v with data, cx, cy } : Video).wordAt c l = v.wordAt c l := by
  have hlength := List.length_pos_iff.mpr hpos
  have hcx : (UInt8.ofInt x).toNat = x := by
    rw [vramCols] at hx
    rw [toNat_ofInt]
    omega
  have hcy : (UInt8.ofInt y).toNat = y := by
    rw [vramLines] at hy
    rw [toNat_ofInt]
    omega
  have hgoto : v.gotoxy (UInt8.ofInt x) (UInt8.ofInt y) =
      { v with cx := UInt8.ofInt x, cy := UInt8.ofInt y } := by
    rw [gotoxy, hcx, hcy, if_pos (by omega), if_pos hy]
  have haddr : charAddr (UInt8.ofInt x) (UInt8.ofInt y) = address x y := by
    rw [charAddr, hcx, hcy, address]
  have hput : putstr outOfRange str { v with cx := UInt8.ofInt x, cy := UInt8.ofInt y } = _ :=
    putstr_plain outOfRange hansi (fun c hc => (hstr c hc).congr rfl) (hcx.symm ▸ hx)
      (hcy.symm ▸ hy)
  rw [hgoto]
  refine ⟨_, _, _, hput, fun j cell hj => ?_, fun c l hc hout => ?_⟩
  · rw [wordAt, ← address_add, ← haddr]
    exact overlay_add hj
  · refine overlay_of_outside ?_
    dsimp only
    rw [haddr, List.length_map, address, address]
    rw [vramCols] at *
    omega

end Printing

/-! ### Attributes -/

/-- The attribute that `vram_change_attr` stores over another one. -/
def newAttr (newfg newbg : ℤ) (oldcol : UInt8) : UInt8 :=
  if 0 < newfg ∧ 0 < newbg then UInt8.ofInt (newbg * 2 ^ 4 + newfg)
  else
    let oldcol :=
      if newfg ≠ vramColDontChange then oldcol &&& 0xF0 ||| UInt8.ofInt newfg else oldcol
    if newbg ≠ vramColDontChange then oldcol &&& 0x0F ||| UInt8.ofInt (newbg * 2 ^ 4) else oldcol

/-- `vram_change_attr`. -/
def vramChangeAttr (v : Video) (x y len newfg newbg : ℤ) : Option Video :=
  let first := address (unsigned x) (unsigned y) % 2 ^ 31
  if unsigned len = 0 ∨ first + unsigned len ≤ vramChars then
    some { v with
      data := fun i =>
        if first ≤ i ∧ i < first + unsigned len then
          withAttr (v.data i) (newAttr newfg newbg (cellAttr (v.data i)))
        else v.data i }
  else none

/-- The attribute of two colours. -/
def colorAttr (fg bg : ℤ) : UInt8 := UInt8.ofInt (bg * 2 ^ 4 + fg)

/-- Colours that are stored as they are. -/
def Storable (fg bg : ℤ) : Prop := 0 ≤ fg ∧ 0 ≤ bg ∧ (bg = 0 → fg < 16)

instance (fg bg : ℤ) : Decidable (Storable fg bg) := inferInstanceAs (Decidable (_ ∧ _))

section Attributes

variable {v : Video} {fg bg : ℤ} {x y len : ℕ}

/-- The low half of an attribute. -/
theorem and_or_low_half (oldcol a : UInt8) : (oldcol &&& 0xF0 ||| a) &&& 0x0F = a &&& 0x0F := by
  rw [← UInt8.toBitVec_inj]
  ext i hi
  simp only [UInt8.toBitVec_and, UInt8.toBitVec_or, BitVec.getElem_and, BitVec.getElem_or]
  interval_cases i <;> simp

theorem ofInt_and_low_half {n : ℕ} (hn : n < 16) : UInt8.ofInt n &&& 0x0F = UInt8.ofInt n := by
  interval_cases n <;> rfl

theorem newAttr_eq (h : Storable fg bg) (oldcol : UInt8) :
    newAttr fg bg oldcol = colorAttr fg bg := by
  obtain ⟨hfg, hbg, hlow⟩ := h
  have hfg_ne : fg ≠ vramColDontChange := by
    change fg ≠ -1
    omega
  have hbg_ne : bg ≠ vramColDontChange := by
    change bg ≠ -1
    omega
  rw [newAttr, colorAttr]
  split_ifs with hboth
  · rfl
  · -- One of the colours is zero.
    change (oldcol &&& 0xF0 ||| UInt8.ofInt fg) &&& 0x0F ||| UInt8.ofInt (bg * 2 ^ 4) = _
    rw [and_or_low_half]
    by_cases hzero : bg = 0
    · obtain ⟨n, rfl⟩ := Int.eq_ofNat_of_zero_le hfg
      rw [hzero, Int.zero_mul, Int.zero_add, ofInt_and_low_half (Int.ofNat_lt.mp (hlow hzero))]
      exact UInt8.or_zero
    · have hfg₀ : fg = 0 := by omega
      rw [hfg₀, Int.add_zero]
      exact UInt8.zero_or

theorem vramChangeAttr_eq (h : Storable fg bg) (hx : x + len ≤ vramCols) (hy : y < vramLines) :
    v.vramChangeAttr x y len fg bg =
      some { v with
        data := fun i =>
          if address x y ≤ i ∧ i < address x y + len then withAttr (v.data i) (colorAttr fg bg)
          else v.data i } := by
  have hx₁ : unsigned x = x := unsigned_natCast (by rw [vramCols] at hx; omega)
  have hy₁ : unsigned y = y := unsigned_natCast (by rw [vramLines] at hy; omega)
  have hlen : unsigned len = len := unsigned_natCast (by rw [vramCols] at hx; omega)
  have haddr : address x y + len ≤ vramChars := by
    rw [vramCols] at hx
    rw [vramLines] at hy
    rw [address, vramChars, vramLines, vramCols]
    omega
  have hmod : address x y % 2 ^ 31 = address x y :=
    Nat.mod_eq_of_lt (by rw [vramChars, vramLines, vramCols] at haddr; omega)
  rw [vramChangeAttr, hx₁, hy₁, hlen, hmod, if_pos (.inr haddr)]
  simp only [newAttr_eq h]

/-- The cells of a row with other attributes. -/
theorem exists_vramChangeAttr (v : Video) (len : ℕ) (h : Storable fg bg) (hx : x + len ≤ vramCols)
    (hy : y < vramLines) :
    ∃ data, v.vramChangeAttr x y len fg bg = some { v with data } ∧
      ∀ c l, c < vramCols → ({ v with data } : Video).wordAt c l =
        if l = y ∧ x ≤ c ∧ c < x + len then withAttr (v.wordAt c l) (colorAttr fg bg)
        else v.wordAt c l := by
  refine ⟨_, vramChangeAttr_eq h hx hy, fun c l hc => ?_⟩
  refine if_congr ?_ rfl rfl
  rw [address, address]
  rw [vramCols] at *
  omega

theorem crtAttr_setColor (hfg : 0 ≤ fg) (hbg : 0 ≤ bg) :
    (v.setColor fg bg).crtAttr = colorAttr fg bg := by
  have hne {n : ℤ} (hn : 0 ≤ n) : n ≠ vramColDefault ∧ n ≠ vramColDontChange := by
    change n ≠ -2 ∧ n ≠ -1
    omega
  rw [setColor, if_neg (hne hfg).1, if_neg (hne hbg).1, if_pos (hne hfg).2, if_pos (hne hbg).2]
  have hshift (a : UInt8) : a <<< 4 = a * 16 := by
    rw [← UInt8.toBitVec_inj]
    exact BitVec.shiftLeft_eq_mul_twoPow _ _
  rw [colorAttr, UInt8.ofInt_add, UInt8.ofInt_mul, hshift]
  rfl

end Attributes

end Video

end ELuaBrain.Terminal
