import ELuaBrain.Terminal.Video
import Mathlib.Data.List.GetD

/-!
# Boxes

A box covers a rectangle of the screen. `vram_box` of `src/vram.c` saves the cells of the rectangle
and draws the box, and `vram_close_box` puts the cells back. The line with the title is not clipped
to the rectangle.

An access that is outside of the cells of `vram_data` has no result.

## Main definitions

* `Video.vramBox`, `Video.vramCloseBox` : the calls.
* `boxCells` : what is drawn, in order.
* `Box.Restores` : the box can be closed without a trace.

## Main results

* `box_restores_iff` : the boxes whose title fits.
-/

namespace ELuaBrain.Terminal

open Editor (Str vramCols vramLines)

/-! ### The code -/

/-- A value as `unsigned`. -/
def unsigned (n : ℤ) : ℕ := (n % 2 ^ 32).toNat

/-- `TERM_BOX_FLAG_BORDER`, `TERM_BOX_FLAG_RESTORE` and `TERM_BOX_FLAG_CENTER`. -/
def termBoxFlagBorder : UInt16 := 0x8000
def termBoxFlagRestore : UInt16 := 0x4000
def termBoxFlagCenter : UInt16 := 0x2000

/-- A flag is set. -/
def hasFlag (flags flag : UInt16) : Bool := flags &&& flag ≠ 0

/-- `VRAM_SBOX_UL`, `VRAM_SBOX_UR`, `VRAM_SBOX_BL`, `VRAM_SBOX_BR`, `VRAM_SBOX_HLINE` and
`VRAM_SBOX_VLINE`. -/
def vramSboxUl : UInt8 := 0xDA
def vramSboxUr : UInt8 := 0xBF
def vramSboxBl : UInt8 := 0xC0
def vramSboxBr : UInt8 := 0xD9
def vramSboxHline : UInt8 := 0xC4
def vramSboxVline : UInt8 := 0xB3

/-- `TERM_BOX`. There are no cells in `savedata` if it is `NULL`. -/
structure TermBox where
  x : ℕ
  y : ℕ
  width : ℕ
  height : ℕ
  flags : UInt16
  savedata : List UInt16

/-- The arguments of `vram_box`. -/
structure Box where
  x : ℕ
  y : ℕ
  width : ℕ
  height : ℕ
  title : Option Str
  flags : UInt16

/-- The index of a cell. -/
def address (x y : ℕ) : ℕ := y * vramCols + x

namespace Box

variable (box : Box)

/-- The column of the box, after it is centered. -/
def column : ℕ :=
  if hasFlag box.flags termBoxFlagCenter then unsigned (vramCols - box.width) / 2 else box.x

/-- The row of the box, after it is centered. -/
def line : ℕ :=
  if hasFlag box.flags termBoxFlagCenter then unsigned (vramLines - box.height) / 2 else box.y

/-- The column where the lines end. -/
def right : ℕ := unsigned (box.column + box.width - 1)

/-- The row where the lines of the body end. -/
def bottom : ℕ := unsigned (box.line + box.height - 1)

/-- A character of the border. -/
def border (c : UInt8) : UInt8 := if hasFlag box.flags termBoxFlagBorder then c else 0x20

end Box

/-- Characters from a column on. -/
def cellsFrom (y : ℕ) : ℕ → List UInt8 → List (ℕ × UInt8)
  | _, [] => []
  | x, c :: cs => (address x y, c) :: cellsFrom y (x + 1) cs

/-- The same character from a column to another one. -/
def cellsTo (y x x' : ℕ) (c : UInt8) : List (ℕ × UInt8) := cellsFrom y x (List.replicate (x' - x) c)

/-- The title line. -/
def titleLine (box : Box) : List (ℕ × UInt8) :=
  let title := box.title.getD []
  let ix := title.length + box.column + 3
  (address box.column box.line, box.border vramSboxUl) ::
    (address (box.column + 1) box.line, box.border vramSboxHline) ::
    (address (box.column + 2) box.line, box.border vramSboxHline) ::
    cellsFrom box.line (box.column + 3) title ++
    cellsTo box.line ix box.right (box.border vramSboxHline) ++
    [(address (max ix box.right) box.line, box.border vramSboxUr)]

/-- A line below it. -/
def boxLine (box : Box) (iy : ℕ) (first middle last : UInt8) : List (ℕ × UInt8) :=
  (address box.column iy, first) :: cellsTo iy (box.column + 1) box.right middle ++
    [(address (max (box.column + 1) box.right) iy, last)]

/-- The characters that are drawn, one after the other. -/
def boxCells (box : Box) : List (ℕ × UInt8) :=
  titleLine box ++
    (List.range (box.bottom - (box.line + 1))).flatMap (fun k =>
      boxLine box (box.line + 1 + k) (box.border vramSboxVline) 0x20 (box.border vramSboxVline)) ++
    boxLine box (max (box.line + 1) box.bottom) (box.border vramSboxBl) (box.border vramSboxHline)
      (box.border vramSboxBr)

namespace Video

variable (v : Video)

/-- Calls of `vram_putchar_internal`. -/
def drawAll (v : Video) : List (ℕ × UInt8) → Option Video
  | [] => some v
  | p :: l => (v.fill p.1 1 (v.cell p.2)).bind fun v => v.drawAll l

/-- The cells of a rectangle. -/
def saveRows (x width : ℕ) : ℕ → ℕ → Option (List UInt16)
  | 0, _ => some []
  | n + 1, iy => do
      if address x iy + width ≤ vramChars then
        let rest ← saveRows x width n (iy + 1)
        return (List.range width).map (fun i => v.data (address x iy + i)) ++ rest
      else none

/-- The cells of a rectangle are put back. -/
def restoreRows (x width : ℕ) : ℕ → ℕ → List UInt16 → Video → Option Video
  | 0, _, _, v => some v
  | n + 1, iy, crt, v =>
      if address x iy + width ≤ vramChars then
        restoreRows x width n (iy + 1) (crt.drop width)
          { v with data := fun i =>
              if address x iy ≤ i ∧ i < address x iy + width then crt.getD (i - address x iy) 0
              else v.data i }
      else none

/-- `vram_box`, where `mallocs` says which of the two calls of `malloc` succeed. -/
def vramBox (mallocs : Bool × Bool) (box : Box) : Option (Option TermBox × Video) :=
  let restore := hasFlag box.flags termBoxFlagRestore
  if mallocs.1 = false ∨ restore ∧ mallocs.2 = false then some (none, v)
  else do
    let savedata ← if restore then v.saveRows box.column box.width box.height box.line else some []
    let v ← v.drawAll (boxCells box)
    return (some ⟨box.column % 2 ^ 16, box.line % 2 ^ 16, box.width % 2 ^ 16, box.height % 2 ^ 16,
      box.flags, savedata⟩, v)

/-- `vram_close_box`. -/
def vramCloseBox (p : TermBox) : Option Video :=
  if hasFlag p.flags termBoxFlagRestore then
    restoreRows p.x p.width p.height p.y p.savedata v
  else some v

end Video

/-! ### Boxes that leave no trace -/

namespace Box

variable (box : Box)

/-- The cells of the rectangle. -/
def Covers (i : ℕ) : Prop :=
  (box.line ≤ i / vramCols ∧ i / vramCols < box.line + box.height) ∧
    box.column ≤ i % vramCols ∧ i % vramCols < box.column + box.width

/-- The rectangle is in the screen. -/
structure Inside : Prop where
  columns : box.column + box.width ≤ vramCols
  lines : box.line + box.height ≤ vramLines

/-- A box is opened, the cells in its rectangle change, and it is closed: the screen is as before.
If there is no memory for the box, nothing changes. -/
def Restores (v : Video) : Prop :=
  ∀ mallocs, ∃ p v₁, v.vramBox mallocs box = some (p, v₁) ∧
    match p with
    | none => v₁ = v
    | some p => ∀ v₂ : Video, (∀ i, ¬box.Covers i → v₂.data i = v₁.data i) →
        ∃ v₃, v₂.vramCloseBox p = some v₃ ∧ v₃.data = v.data

/-- The title line ends in the rectangle. -/
def TitleFits : Prop :=
  (box.title.getD []).length + 4 ≤ box.width ∨
    box.width = vramCols ∧ (box.title.getD []).length + 4 ≤ vramCols * box.height

end Box

/-! ### Drawing -/

section Drawing

variable {v v' : Video} {l : List (ℕ × UInt8)} {i : ℕ}

theorem fill_one {a : ℕ} {cell : UInt16} (h : v.fill a 1 cell = some v') :
    v' = { v with data := Function.update v.data a cell } := by
  rw [Video.fill] at h
  split_ifs at h
  rw [← Option.some.inj h]
  congr 1
  funext i
  rw [Function.update_apply]
  exact if_congr (by omega) rfl rfl

/-- Other cells stay. -/
theorem drawAll_frame (h : v.drawAll l = some v') (hi : i ∉ l.map Prod.fst) :
    v'.data i = v.data i := by
  induction l generalizing v with
  | nil => exact Option.some.inj h ▸ rfl
  | cons p l ih =>
    obtain ⟨v₁, hfill, h⟩ := Option.bind_eq_some_iff.mp h
    rw [List.map_cons, List.mem_cons, not_or] at hi
    rw [ih h hi.2, fill_one hfill]
    exact Function.update_of_ne hi.1 _ _

theorem exists_drawAll (h : ∀ a ∈ l.map Prod.fst, a < vramChars) (v : Video) :
    ∃ v', v.drawAll l = some v' := by
  induction l generalizing v with
  | nil => exact ⟨v, rfl⟩
  | cons p l ih =>
    rw [List.map_cons, List.forall_mem_cons] at h
    obtain ⟨data, hfill⟩ := Video.exists_fill (v := v) (n := 1) h.1 (v.cell p.2)
    obtain ⟨v', hv'⟩ := ih h.2 { v with data }
    exact ⟨v', by rw [Video.drawAll, hfill, Option.bind_some, hv']⟩

/-- What is in a cell that is drawn does not depend on what was there. -/
theorem drawAll_written (hi : i ∈ l.map Prod.fst) :
    ∃ c, ∀ v v', Video.drawAll v l = some v' → v'.data i = v.cell c := by
  induction l with
  | nil => exact (List.not_mem_nil hi).elim
  | cons p l ih =>
    by_cases hlater : i ∈ l.map Prod.fst
    · -- It is drawn once more.
      obtain ⟨c, hc⟩ := ih hlater
      refine ⟨c, fun v v' h => ?_⟩
      obtain ⟨v₁, hfill, h⟩ := Option.bind_eq_some_iff.mp h
      rw [hc v₁ v' h, fill_one hfill]
      rfl
    · rw [List.map_cons, List.mem_cons] at hi
      refine ⟨p.2, fun v v' h => ?_⟩
      obtain ⟨v₁, hfill, h⟩ := Option.bind_eq_some_iff.mp h
      rw [drawAll_frame h hlater, fill_one hfill, hi.resolve_right hlater]
      exact Function.update_self _ _ _

end Drawing

/-! ### The cells of a box -/

section Cells

variable {box : Box} {i : ℕ}

theorem map_cellsFrom (y x : ℕ) (cs : List UInt8) :
    (cellsFrom y x cs).map Prod.fst = List.range' (address x y) cs.length := by
  induction cs generalizing x with
  | nil => rfl
  | cons c cs ih =>
    rw [cellsFrom, List.map_cons, ih, List.length_cons, List.range'_succ]
    rfl

theorem mem_titleLine : i ∈ (titleLine box).map Prod.fst ↔ address box.column box.line ≤ i ∧
    i ≤ address (max ((box.title.getD []).length + box.column + 3) box.right) box.line := by
  simp only [titleLine, cellsTo, List.map_cons, List.map_append, map_cellsFrom, List.map_nil,
    List.mem_cons, List.mem_append, List.mem_range'_1, List.length_replicate, address,
    List.cons_append, List.not_mem_nil, or_false]
  omega

theorem mem_boxLine {iy : ℕ} {first middle last : UInt8} :
    i ∈ (boxLine box iy first middle last).map Prod.fst ↔
      address box.column iy ≤ i ∧ i ≤ address (max (box.column + 1) box.right) iy := by
  simp only [boxLine, cellsTo, List.map_cons, List.map_append, map_cellsFrom, List.map_nil,
    List.mem_cons, List.mem_append, List.mem_range'_1, List.length_replicate, address,
    List.cons_append, List.not_mem_nil, or_false]
  omega

theorem unsigned_natCast_sub_one {n : ℕ} (hpos : 1 ≤ n) (hn : n < 2 ^ 32) :
    unsigned (n - 1) = n - 1 := by
  rw [unsigned, Int.emod_eq_of_lt (by omega) (by omega)]
  omega

theorem Box.Inside.right_eq (h : box.Inside) (hwidth : 2 ≤ box.width) :
    box.right = box.column + box.width - 1 := by
  have hcolumns := h.columns
  rw [vramCols] at hcolumns
  rw [Box.right, ← Nat.cast_add]
  exact unsigned_natCast_sub_one (by omega) (by omega)

theorem Box.Inside.bottom_eq (h : box.Inside) (hheight : 2 ≤ box.height) :
    box.bottom = box.line + box.height - 1 := by
  have hlines := h.lines
  rw [vramLines] at hlines
  rw [Box.bottom, ← Nat.cast_add]
  exact unsigned_natCast_sub_one (by omega) (by omega)

theorem Box.Inside.lt_vramChars (h : box.Inside) (hi : box.Covers i) : i < vramChars := by
  have hlines := h.lines
  obtain ⟨⟨-, hline⟩, -⟩ := hi
  have hlt : i / vramCols < vramLines := hline.trans_le hlines
  exact (Nat.div_lt_iff_lt_mul (Nat.succ_pos 79)).mp hlt

/-- The cells of a box whose title fits are in its rectangle. -/
theorem covers_of_fits (h : box.Inside) (hwidth : 2 ≤ box.width) (hheight : 2 ≤ box.height)
    (hfits : box.TitleFits) (hi : i ∈ (boxCells box).map Prod.fst) : box.Covers i := by
  have hcolumns := h.columns
  have hright := h.right_eq hwidth
  have hbottom := h.bottom_eq hheight
  rw [boxCells, List.map_append, List.map_append, List.mem_append, List.mem_append,
    mem_titleLine, mem_boxLine, List.map_flatMap, List.mem_flatMap] at hi
  rw [Box.TitleFits, vramCols] at hfits
  simp only [address, hright, hbottom, vramCols] at hi hcolumns
  rw [Box.Covers, vramCols]
  obtain (hi | ⟨k, hk, hi⟩) | hi := hi
  · omega
  · rw [List.mem_range] at hk
    rw [mem_boxLine, address, address, hright, vramCols] at hi
    omega
  · omega

/-- A cell that is drawn outside of the rectangle, because the title does not fit. -/
theorem exists_not_covers (h : box.Inside) (hwidth : 2 ≤ box.width) (hheight : 2 ≤ box.height)
    (hfits : ¬box.TitleFits) : ∃ i ∈ (boxCells box).map Prod.fst, ¬box.Covers i := by
  have hcolumns := h.columns
  have hright := h.right_eq hwidth
  rw [Box.TitleFits, not_or, not_and] at hfits
  rw [vramCols] at hfits hcolumns
  have htitle {i : ℕ} (hi : i ∈ (titleLine box).map Prod.fst) :
      i ∈ (boxCells box).map Prod.fst := by
    rw [boxCells, List.append_assoc, List.map_append, List.mem_append]
    exact .inl hi
  by_cases hall : box.width = 80
  · -- The lines of the rectangle are whole lines, so that the line below them is drawn.
    refine ⟨address 0 (box.line + box.height), htitle ?_, ?_⟩
    · rw [mem_titleLine, address, address, address, hright, vramCols]
      have hlong := hfits.2 hall
      omega
    · rw [Box.Covers, address, vramCols]
      omega
  · refine ⟨address (box.column + box.width) box.line, htitle ?_, ?_⟩
    · rw [mem_titleLine, address, address, address, hright, vramCols]
      omega
    · rw [Box.Covers, address, vramCols]
      omega

end Cells

/-! ### Closing a box -/

section Closing

variable {box : Box} {v v₁ v₂ : Video} {i x width n iy : ℕ}

/-- The rectangle has the cells that were saved, and the others stay. -/
theorem restoreRows_saveRows (v₂ : Video) {savedata : List UInt16} (hx : x + width ≤ vramCols)
    (hsave : v.saveRows x width n iy = some savedata) :
    ∃ v₃, Video.restoreRows x width n iy savedata v₂ = some v₃ ∧
      ∀ i, v₃.data i = if (iy ≤ i / vramCols ∧ i / vramCols < iy + n) ∧
        x ≤ i % vramCols ∧ i % vramCols < x + width then v.data i else v₂.data i := by
  induction n generalizing iy v₂ savedata with
  | zero => exact ⟨v₂, rfl, fun i => (if_neg (by omega)).symm⟩
  | succ n ih =>
    rw [Video.saveRows] at hsave
    split_ifs at hsave with hle
    obtain ⟨rest, hrest, hsave⟩ := Option.bind_eq_some_iff.mp hsave
    obtain rfl := Option.some.inj hsave
    rw [Video.restoreRows, if_pos hle, List.drop_left' (by simp)]
    obtain ⟨v₃, hrestore, hdata⟩ := ih { v₂ with data := _ } hrest
    refine ⟨v₃, hrestore, fun i => (hdata i).trans ?_⟩
    rw [vramCols] at hx ⊢
    dsimp only
    by_cases hrow : address x iy ≤ i ∧ i < address x iy + width
    · -- A cell of the first row.
      have hcell : ((List.range width).map (fun k => v.data (address x iy + k)) ++ rest).getD
          (i - address x iy) 0 = v.data i := by
        rw [List.getD_append _ _ _ _ (by simp; omega), List.getD_eq_getElem _ _ (by simp; omega),
          List.getElem_map, List.getElem_range, Nat.add_sub_cancel' hrow.1]
      rw [if_pos hrow, hcell, ite_self, if_pos]
      rw [address, vramCols] at hrow
      omega
    · rw [if_neg hrow]
      rw [address, vramCols] at hrow
      exact if_congr (by omega) rfl rfl

theorem exists_saveRows (hx : x + width ≤ vramCols) (hn : iy + n ≤ vramLines) (v : Video) :
    ∃ savedata, v.saveRows x width n iy = some savedata := by
  induction n generalizing iy with
  | zero => exact ⟨[], rfl⟩
  | succ n ih =>
    obtain ⟨rest, hrest⟩ := @ih (iy + 1) (by omega)
    have hle : address x iy + width ≤ vramChars := by
      rw [vramCols] at hx
      rw [vramLines] at hn
      rw [address, vramChars, vramLines, vramCols]
      omega
    rw [Video.saveRows, if_pos hle, hrest]
    exact ⟨_, rfl⟩

/-- The rectangle of a box is put back. -/
theorem closeBox_saveRows (v₂ : Video) (h : box.Inside)
    (hrestore : hasFlag box.flags termBoxFlagRestore) {savedata : List UInt16}
    (hsave : v.saveRows box.column box.width box.height box.line = some savedata) :
    ∃ v₃, v₂.vramCloseBox ⟨box.column % 2 ^ 16, box.line % 2 ^ 16, box.width % 2 ^ 16,
        box.height % 2 ^ 16, box.flags, savedata⟩ = some v₃ ∧
      ∀ i, (box.Covers i → v₃.data i = v.data i) ∧ (¬box.Covers i → v₃.data i = v₂.data i) := by
  have hcolumns := h.columns
  have hlines := h.lines
  rw [vramCols] at hcolumns
  rw [vramLines] at hlines
  obtain ⟨v₃, hv₃, hdata⟩ := restoreRows_saveRows v₂ h.columns hsave
  refine ⟨v₃, ?_, fun i => ⟨fun hi => (hdata i).trans (if_pos hi),
    fun hi => (hdata i).trans (if_neg hi)⟩⟩
  rw [Video.vramCloseBox, if_pos hrestore]
  dsimp only
  rw [Nat.mod_eq_of_lt (by omega), Nat.mod_eq_of_lt (by omega), Nat.mod_eq_of_lt (by omega),
    Nat.mod_eq_of_lt (by omega), hv₃]

/-- The cells outside of the rectangle are not put back. -/
theorem Box.Restores.outside (hrestores : box.Restores v) (h : box.Inside)
    (hrestore : hasFlag box.flags termBoxFlagRestore) :
    ∃ v₁, v.drawAll (boxCells box) = some v₁ ∧ ∀ i, ¬box.Covers i → v₁.data i = v.data i := by
  obtain ⟨p, v₁, hbox, hclose⟩ := hrestores (true, true)
  obtain ⟨savedata, hsave⟩ := exists_saveRows h.columns h.lines v
  rw [Video.vramBox] at hbox
  dsimp only at hbox
  rw [if_neg (by simp), if_pos hrestore, hsave, Option.bind_eq_bind, Option.bind_some] at hbox
  obtain ⟨v₁', hdraw, hbox⟩ := Option.bind_eq_some_iff.mp hbox
  obtain ⟨rfl, rfl⟩ := Prod.mk.inj (Option.some.inj hbox)
  obtain ⟨v₃, hv₃, hdata⟩ := hclose v₁' fun _ _ => rfl
  obtain ⟨v₃', hv₃', hcells⟩ := closeBox_saveRows v₁' h hrestore hsave
  obtain rfl := Option.some.inj (hv₃.symm.trans hv₃')
  exact ⟨v₁', hdraw, fun i hi => ((hcells i).2 hi).symm.trans (congrFun hdata i)⟩

/-- A box whose title does not fit changes cells outside of its rectangle. -/
theorem Box.TitleFits.of_restores (h : box.Inside) (hwidth : 2 ≤ box.width)
    (hheight : 2 ≤ box.height) (hrestore : hasFlag box.flags termBoxFlagRestore)
    (hrestores : ∀ v, box.Restores v) : box.TitleFits := by
  by_contra hfits
  obtain ⟨i, hi, hnot⟩ := exists_not_covers h hwidth hheight hfits
  obtain ⟨c, hc⟩ := drawAll_written hi
  -- The cell has another character before.
  obtain ⟨v₁, hdraw, hkept⟩ := (hrestores { data := fun _ => ({} : Video).cell c + 1 }).outside h
    hrestore
  have heq : ({} : Video).cell c = ({} : Video).cell c + 1 :=
    (hc _ v₁ hdraw).symm.trans (hkept i hnot)
  have hlt := (({} : Video).cell c).toNat_lt
  have hval := congrArg UInt16.toNat heq
  rw [UInt16.toNat_add] at hval
  change _ = (_ + 1) % _ at hval
  omega

theorem Box.TitleFits.restores (hfits : box.TitleFits) (h : box.Inside) (hwidth : 2 ≤ box.width)
    (hheight : 2 ≤ box.height) (hrestore : hasFlag box.flags termBoxFlagRestore) (v : Video) :
    box.Restores v := by
  rintro ⟨mallocBox, mallocData⟩
  rw [Video.vramBox]
  dsimp only
  split_ifs with hnull
  · exact ⟨none, v, rfl, rfl⟩
  · obtain ⟨savedata, hsave⟩ := exists_saveRows h.columns h.lines v
    obtain ⟨v₁, hdraw⟩ := exists_drawAll
      (fun a ha => h.lt_vramChars (covers_of_fits h hwidth hheight hfits ha)) v
    rw [hsave, Option.bind_eq_bind, Option.bind_some, hdraw]
    refine ⟨_, v₁, rfl, fun v₂ hconfined => ?_⟩
    obtain ⟨v₃, hv₃, hcells⟩ := closeBox_saveRows v₂ h hrestore hsave
    refine ⟨v₃, hv₃, funext fun i => ?_⟩
    by_cases hi : box.Covers i
    · exact (hcells i).1 hi
    · rw [(hcells i).2 hi, hconfined i hi]
      exact drawAll_frame hdraw fun hmem => hi (covers_of_fits h hwidth hheight hfits hmem)

end Closing

/-- **The boxes that leave no trace** on a screen are those whose title fits. -/
theorem box_restores_iff (box : Box) (h : box.Inside) (hwidth : 2 ≤ box.width)
    (hheight : 2 ≤ box.height) (hrestore : hasFlag box.flags termBoxFlagRestore) :
    (∀ v, box.Restores v) ↔ box.TitleFits :=
  ⟨Box.TitleFits.of_restores h hwidth hheight hrestore,
    fun hfits => hfits.restores h hwidth hheight hrestore⟩

/-- A centered box with a border. -/
def centeredBox : Box := ⟨0, 0, 20, 3, some [0x49, 0x6E, 0x66, 0x6F],
  termBoxFlagBorder + termBoxFlagRestore + termBoxFlagCenter⟩

theorem centeredBox_restores : centeredBox.Inside ∧ ∀ v, centeredBox.Restores v :=
  have hinside : centeredBox.Inside := ⟨by decide, by decide⟩
  ⟨hinside, (box_restores_iff centeredBox hinside (by decide) (by decide) (by decide)).mpr
    (.inl (by decide))⟩

/-- A box of four columns with a title of two characters. -/
theorem not_box_restores : ¬∀ box : Box, box.Inside → 2 ≤ box.width → 2 ≤ box.height →
    hasFlag box.flags termBoxFlagRestore → ∀ v, box.Restores v := by
  intro h
  let box : Box := ⟨10, 5, 4, 2, some [0x61, 0x62], termBoxFlagRestore⟩
  have hinside : box.Inside := ⟨by decide, by decide⟩
  have hfits : box.TitleFits := .of_restores hinside (by decide) (by decide) (by decide)
    (h box hinside (by decide) (by decide) (by decide))
  obtain hshort | ⟨hwidth, -⟩ := hfits
  · exact absurd hshort (by decide)
  · exact absurd hwidth (by decide)

end ELuaBrain.Terminal
