import ELuaBrain.Editor.Vram
import ELuaBrain.System.Reach

/-!
# The video terminal

The terminal that keeps its screen in memory, `src/vram.c`, with colours, modes, paging and escape
sequences. An access that is outside of the cells of `vram_data` or of `vram_ansi_inbuf` has no
result.

What `sscanf` stores for a number that is no `int` is a parameter.

## Main definitions

* `Video` : the cells and the static variables.
* `Video.putchar`, `Call`, `Video.step` : the calls.
* `Video.Safe` : the cursor and the last line are on the screen.
* `Call.Careful` : what the calls have to avoid.

## Main results

* `Video.Safe.step` : one call.
* `safe_of_reach` : every run after `vram_init`.
-/

namespace ELuaBrain.Terminal

open Editor (Str vramCols vramLines)

/-- The number of cells, `VRAM_CHARS`. -/
def vramChars : ℕ := vramLines * vramCols

/-- `TERM_MAX_ANSI_SIZE`. -/
def termMaxAnsiSize : ℕ := 14

/-- `VRAM_TAB_SIZE`. -/
def vramTabSize : ℕ := 4

/-- `VRAM_COL_DONT_CHANGE`. -/
def vramColDontChange : ℤ := -1

/-- `VRAM_COL_DEFAULT`. -/
def vramColDefault : ℤ := -2

/-- `TERM_MODE_ASCII`. -/
def termModeAscii : UInt8 := 0

/-- `TERM_MODE_COLS`. -/
def termModeCols : UInt8 := 1

/-- The cells of `vram_data`, with the attribute in the low byte, and the static variables. -/
structure Video where
  data : ℕ → UInt16 := fun _ => 0
  cx : UInt8 := 0
  cy : UInt8 := 0
  fgCol : UInt8 := 7
  bgCol : UInt8 := 0
  pagingEnabled : Bool := false
  pagingLines : UInt8 := 0
  lastLine : UInt8 := 0
  crtAttr : UInt8 := 0
  mode : UInt8 := 0
  readingAnsi : Bool := false
  /-- The first `vram_ansi_count` bytes of `vram_ansi_inbuf`. -/
  ansi : Str := []
  ansiBrightness : UInt8 := 0

/-! ### Escape sequences -/

/-- `vram_ansi_op`. -/
inductive AnsiOp where
  | clrscr
  | clreol
  | gotoxy (p1 p2 : ℤ)
  | up (p1 : ℤ)
  | down (p1 : ℤ)
  | right (p1 : ℤ)
  | left (p1 : ℤ)
  | setsgr (p1 p2 : ℤ)
  | gotocol (p1 : ℤ)

section Scan

variable (outOfRange : ℤ → ℤ)

/-- The conversion `%d` of `sscanf`. -/
def scanInt (s : Str) : Option (ℤ × Str) :=
  (Editor.Vram.scanInt s).map fun r =>
    (if -2 ^ 31 ≤ r.1 ∧ r.1 < 2 ^ 31 then r.1 else outOfRange r.1, r.2)

/-- `sscanf( p, "%d", &p1 )`, where `p1` is `-1` before. -/
def scanOne (s : Str) : ℤ := ((scanInt outOfRange s).map Prod.fst).getD (-1)

/-- `sscanf( p, "%d;%d", &p1, &p2 )`, where both are `-1` before. -/
def scanTwo (s : Str) : ℤ × ℤ :=
  match scanInt outOfRange s with
  | some (p1, 0x3B :: rest) => (p1, scanOne outOfRange rest)
  | some (p1, _) => (p1, -1)
  | none => (-1, -1)

/-- `vram_cvt_escape`, on the string in `vram_ansi_inbuf`. -/
def cvtEscape (inbuf : Str) : Option AnsiOp :=
  match inbuf with
  | 0x1B :: 0x5B :: rest =>
      let p := rest.dropLast
      match rest.getLast?.getD 0x5B with
      | 0x4A => if p.head? ≠ some 0x32 then none else some .clrscr
      | 0x4B => some .clreol
      | 0x48 => some (.gotoxy 1 1)
      | 0x66 => some (.gotoxy (scanTwo outOfRange p).1 (scanTwo outOfRange p).2)
      | 0x47 => some (.gotocol (scanOne outOfRange p))
      | 0x6D =>
          if 0x3B ∈ p then some (.setsgr (scanTwo outOfRange p).1 (scanTwo outOfRange p).2)
          else some (.setsgr (scanOne outOfRange p) (-1))
      | 0x41 => some (.up (scanOne outOfRange p))
      | 0x42 => some (.down (scanOne outOfRange p))
      | 0x43 => some (.right (scanOne outOfRange p))
      | 0x44 => some (.left (scanOne outOfRange p))
      | _ => none
  | _ => none

end Scan

/-- `vram_ansi_col_lut`. -/
def vramAnsiColLut : List ℤ := [0, 4, 2, 6, 1, 5, 3, 8, 7, 12, 10, 14, 9, 13, 11, 15]

namespace Video

/-! ### Cells and cursor -/

variable (v : Video)

/-- The cells from `first` on are set. -/
def fill (first n : ℕ) (cell : UInt16) : Option Video :=
  if first + n ≤ vramChars then
    some { v with data := fun i => if first ≤ i ∧ i < first + n then cell else v.data i }
  else none

/-- `( c << 8 ) | vram_crt_attr`. -/
def cell (c : UInt8) : UInt16 := UInt16.ofNat (c.toNat * 2 ^ 8 + v.crtAttr.toNat)

/-- `VRAM_CHARADDR`. -/
def charAddr (x y : UInt8) : ℕ := y.toNat * vramCols + x.toNat

/-- `vram_putchar_internal`. -/
def putcharInternal (x y c : UInt8) : Option Video := v.fill (charAddr x y) 1 (v.cell c)

/-- `vram_clear_line`. -/
def clearLine (y : UInt8) : Option Video := v.fill (charAddr 0 y) vramCols (v.cell 0x20)

/-- `vram_clrscr`. -/
def clrscr : Option Video := { v with cx := 0, cy := 0 }.fill 0 vramChars (v.cell 0x20)

/-- `vram_clreol`. -/
def clreol : Option Video :=
  if v.cx.toNat < vramCols then
    v.fill (charAddr v.cx v.cy) (vramCols - v.cx.toNat) (v.cell 0x20)
  else some v

/-- `vram_gotoxy`. -/
def gotoxy (x y : UInt8) : Video :=
  { v with
    cx := if x.toNat < vramCols then x else v.cx
    cy := if y.toNat < vramLines then y else v.cy }

/-- The value of an `int`. -/
def toInt (n : ℤ) : ℤ := n.bmod (2 ^ 32)

/-- `vram_deltaxy`. -/
def deltaxy (dx dy : ℤ) : Video :=
  let x := toInt (v.cx.toNat + dx)
  let y := toInt (v.cy.toNat + dy)
  if x > 0 ∧ y > 0 then v.gotoxy (UInt8.ofInt x) (UInt8.ofInt y) else v

/-- `vram_set_color`. -/
def setColor (fg bg : ℤ) : Video :=
  let fgCol :=
    if fg = vramColDefault then 7 else if fg ≠ vramColDontChange then UInt8.ofInt fg else v.fgCol
  let bgCol :=
    if bg = vramColDefault then 0 else if bg ≠ vramColDontChange then UInt8.ofInt bg else v.bgCol
  { v with fgCol, bgCol, crtAttr := (bgCol <<< 4) + fgCol }

/-- `vram_init`. -/
def init : Option Video :=
  ({ v with lastLine := 29, mode := termModeAscii }.setColor 7 0).clrscr

/-! ### Escape sequences -/

/-- `ANSI_SEQ_SETSGR` for other parameters than reset, bright and faint. -/
def setSgrColor (p1 p2 : ℤ) : Video :=
  let f1 : UInt8 := if p1 ≥ 60 then 8 else 0
  let p1 := if p1 ≥ 60 then p1 - 30 else p1
  let f2 : UInt8 := if p2 ≥ 60 then 8 else 0
  let p2 := if p2 ≥ 60 then p2 - 30 else p2
  let color (p : ℤ) (f : UInt8) :=
    vramAnsiColLut.getD (p.toNat + (v.ansiBrightness ||| f).toNat) 0
  if 40 ≤ p1 ∧ p1 ≤ 47 then
    if 40 ≤ p2 ∧ p2 ≤ 47 then v.setColor vramColDontChange (color (p2 - 40) f2)
    else if 30 ≤ p2 ∧ p2 ≤ 37 then v.setColor (color (p2 - 30) f2) (color (p1 - 40) f1)
    else v.setColor vramColDontChange (color (p1 - 40) f1)
  else if 30 ≤ p1 ∧ p1 ≤ 37 then
    if 40 ≤ p2 ∧ p2 ≤ 47 then v.setColor (color (p1 - 30) f1) (color (p2 - 40) f2)
    else if 30 ≤ p2 ∧ p2 ≤ 37 then v.setColor (color (p2 - 30) f2) vramColDontChange
    else v.setColor (color (p1 - 30) f1) vramColDontChange
  else v

/-- `ANSI_SEQ_SETSGR`. -/
def setSgr (p1 p2 : ℤ) : Video :=
  if p1 = 0 then { v with ansiBrightness := 0 }.setColor vramColDefault vramColDefault
  else if p1 = 1 ∨ p1 = 2 then
    { v with ansiBrightness :=
    if p1 = 2 then 0 else 8 }.setColor vramColDontChange vramColDontChange
  else v.setSgrColor p1 p2

/-- `vram_ansi_execute`. -/
def ansiExecute : Option AnsiOp → Option Video
  | none => some v
  | some .clrscr => v.clrscr
  | some .clreol => v.clreol
  | some (.gotoxy p1 p2) => some { v with cx := UInt8.ofInt p1 - 1, cy := UInt8.ofInt p2 - 1 }
  | some (.gotocol p1) => some { v with cx := UInt8.ofInt p1 }
  | some (.up p1) => some (v.deltaxy 0 (-p1))
  | some (.down p1) => some (v.deltaxy 0 p1)
  | some (.right p1) => some (v.deltaxy p1 0)
  | some (.left p1) => some (v.deltaxy (-p1) 0)
  | some (.setsgr p1 p2) => some (v.setSgr p1 p2)

/-! ### Printing -/

/-- The screen is shifted up by one line. -/
def scroll : Option Video :=
  if (v.lastLine.toNat + 1) * vramCols ≤ vramChars then
    { v with data := fun i =>
        if i < v.lastLine.toNat * vramCols then v.data (i + vramCols) else v.data i }.clearLine
      v.lastLine
  else none

/-- A line is counted. After a page the terminal waits for a key. -/
def countLine : Video :=
  if v.pagingEnabled then
    { v with
      pagingLines :=
        if ((v.pagingLines + 1).toNat : ℤ) = v.lastLine.toNat - 1 then 0 else v.pagingLines + 1 }
  else v

/-- `vram_putchar( '\n' )`, outside of escape sequences. -/
def newline : Option Video :=
  (if v.cy = v.lastLine then { v with cx := 0 }.scroll
    else some { v with cx := 0, cy := v.cy + 1 }).map countLine

/-- The last branch of `vram_putchar`. -/
def putcharPlain (c : UInt8) : Option Video := do
  let v ← if v.cx.toNat ≥ vramCols then v.newline.map fun v => { v with cx := 0 } else some v
  let v ← v.putcharInternal v.cx v.cy c
  return { v with cx := v.cx + 1 }

/-- `vram_putchar( ' ' )` for `n` times. -/
def putBlanks : ℕ → Video → Option Video
  | 0, v => some v
  | n + 1, v => (v.putcharPlain 0x20).bind (putBlanks n)

/-- The cursor after a backspace. -/
def backspace : Video :=
  if v.cx = 0 then if v.cy > 0 then { v with cx := 79, cy := v.cy - 1 } else v
  else { v with cx := v.cx - 1 }

/-- A byte that sets a colour. -/
def isColor (c : UInt8) : Bool :=
  v.mode = termModeCols ∧ (128 ≤ c ∧ c ≤ 159 ∨ c = 255)

/-- The colour of such a byte is set. -/
def putColor (c : UInt8) : Video :=
  if c = 255 then v.setColor vramColDefault vramColDefault
  else if c < 144 then v.setColor (c.toNat - 128) vramColDontChange
  else v.setColor vramColDontChange (c.toNat - 144)

/-- `vram_putchar`. -/
def putchar (outOfRange : ℤ → ℤ) (c : UInt8) : Option Video :=
  if c = 0x1B then some { v with readingAnsi := true, ansi := [c] }
  else if v.readingAnsi then
    let inbuf := v.ansi ++ [c]
    if inbuf.length ≤ termMaxAnsiSize + 1 then
      if Editor.Vram.isAlpha c then
        -- the terminator is stored behind it
        if inbuf.length < termMaxAnsiSize + 1 then
          ({ v with ansi := inbuf }.ansiExecute
            (cvtEscape outOfRange (inbuf.takeWhile (· ≠ 0)))).map fun v : Video =>
              { v with readingAnsi := false }
        else none
      else some { v with ansi := inbuf }
    else none
  else if c = 0x0D then some { v with cx := 0 }
  else if c = 0x0A then v.newline
  else if c = 0x08 then v.backspace.putcharInternal v.backspace.cx v.backspace.cy 0x20
  else if c = 0x09 then putBlanks vramTabSize v
  else if v.isColor c then some (v.putColor c)
  else v.putcharPlain c

end Video

/-- The calls. -/
inductive Call where
  | putchar (c : UInt8)
  | gotoxy (x y : UInt8)
  | deltaxy (dx dy : ℤ)
  | clreol
  | setColor (fg bg : ℤ)
  | setMode (mode : ℤ)
  | setLastLine (line : Fin vramLines)

/-- One call. -/
def Video.step (outOfRange : ℤ → ℤ) (v : Video) : Call → Option Video
  | .putchar c => v.putchar outOfRange c
  | .gotoxy x y => some (v.gotoxy x y)
  | .deltaxy dx dy => some (v.deltaxy dx dy)
  | .clreol => v.clreol
  | .setColor fg bg => some (v.setColor fg bg)
  | .setMode mode => some { v with mode := UInt8.ofInt mode }
  | .setLastLine line => some { v with lastLine := UInt8.ofNat line }

/-! ### The cursor stays on the screen -/

/-- The cursor is on the screen, or behind the end of a line, and the last line is on the screen. -/
structure Video.Safe (v : Video) : Prop where
  cx_le : v.cx.toNat ≤ vramCols
  cy_lt : v.cy.toNat < vramLines
  lastLine_lt : v.lastLine.toNat < vramLines

/-- The position an escape sequence asks for is on the screen. -/
def AnsiOp.OnScreen : AnsiOp → Prop
  | .gotoxy p1 p2 => 1 ≤ p1 % 256 ∧ p1 % 256 ≤ 81 ∧ 1 ≤ p2 % 256 ∧ p2 % 256 ≤ 30
  | .gotocol p1 => p1 % 256 ≤ 80
  | _ => True

/-- The byte starts a new line. -/
def Video.Wraps (v : Video) (c : UInt8) : Prop :=
  c = 0x0A ∨ c = 0x09 ∧ vramCols < v.cx.toNat + vramTabSize ∨
    c ≠ 0x0D ∧ c ≠ 0x08 ∧ c ≠ 0x09 ∧ v.isColor c = false ∧ vramCols ≤ v.cx.toNat

/-- An escape sequence fits into its array and asks for a position on the screen, and in the last
row of the screen a new line is started only if it is the last line. -/
def Call.Careful (outOfRange : ℤ → ℤ) (v : Video) : Call → Prop
  | .putchar c =>
      if c = 0x1B then True
      else if v.readingAnsi then
        v.ansi.length < termMaxAnsiSize + 1 ∧
          (Editor.Vram.isAlpha c → v.ansi.length < termMaxAnsiSize ∧
          ∀ op, cvtEscape outOfRange ((v.ansi ++ [c]).takeWhile (· ≠ 0)) = some op → op.OnScreen)
      else v.Wraps c → v.cy = 29 → v.lastLine = 29
  | _ => True

namespace Video

variable {v v' : Video}

theorem Safe.congr (h : Safe v) (hcx : v'.cx = v.cx) (hcy : v'.cy = v.cy)
    (hlast : v'.lastLine = v.lastLine) : Safe v' :=
  ⟨hcx ▸ h.cx_le, hcy ▸ h.cy_lt, hlast ▸ h.lastLine_lt⟩

theorem exists_fill {first n : ℕ} (h : first + n ≤ vramChars) (cell : UInt16) :
    ∃ data, v.fill first n cell = some { v with data } :=
  ⟨_, if_pos h⟩

/-- Some cells of a line. -/
theorem charAddr_add_le {x y : UInt8} {n : ℕ} (hx : x.toNat + n ≤ vramCols)
    (hy : y.toNat < vramLines) :
    charAddr x y + n ≤ vramChars := by
  have hrow : (y.toNat + 1) * vramCols ≤ vramLines * vramCols := Nat.mul_le_mul_right _ hy
  rw [Nat.add_one_mul] at hrow
  rw [charAddr, Nat.add_assoc]
  exact (Nat.add_le_add_left hx _).trans hrow

theorem exists_putcharInternal {x y : UInt8} (hx : x.toNat < vramCols) (hy : y.toNat < vramLines)
    (c : UInt8) : ∃ data, v.putcharInternal x y c = some { v with data } :=
  exists_fill (charAddr_add_le hx hy) _

theorem exists_clearLine {y : UInt8} (hy : y.toNat < vramLines) :
    ∃ data, v.clearLine y = some { v with data } :=
  exists_fill (charAddr_add_le (Nat.le_refl _) hy) _

theorem exists_clrscr (v : Video) : ∃ data, v.clrscr = some { v with data, cx := 0, cy := 0 } :=
  exists_fill (v := { v with cx := 0, cy := 0 }) (Nat.le_of_eq (Nat.zero_add _)) _

theorem Safe.clrscr (h : v.lastLine.toNat < vramLines) : ∃ v', v.clrscr = some v' ∧ Safe v' := by
  obtain ⟨data, hclr⟩ := exists_clrscr v
  exact ⟨_, hclr, Nat.zero_le _, Nat.succ_pos 29, h⟩

theorem Safe.clreol (h : Safe v) : ∃ v', v.clreol = some v' ∧ Safe v' := by
  rw [Video.clreol]
  split_ifs with hcx
  · obtain ⟨data, hfill⟩ := exists_fill (v := v)
      (charAddr_add_le (Nat.add_sub_cancel' hcx.le).le h.cy_lt) (v.cell 0x20)
    exact ⟨_, hfill, h.congr rfl rfl rfl⟩
  · exact ⟨v, rfl, h⟩

theorem Safe.gotoxy (h : Safe v) (x y : UInt8) : Safe (v.gotoxy x y) := by
  refine ⟨?_, ?_, h.lastLine_lt⟩
  · change (if x.toNat < vramCols then x else v.cx).toNat ≤ vramCols
    split_ifs with hx
    · exact hx.le
    · exact h.cx_le
  · change (if y.toNat < vramLines then y else v.cy).toNat < vramLines
    split_ifs with hy
    · exact hy
    · exact h.cy_lt

theorem Safe.deltaxy (h : Safe v) (dx dy : ℤ) : Safe (v.deltaxy dx dy) := by
  rw [Video.deltaxy]
  split_ifs
  · exact h.gotoxy _ _
  · exact h

/-! ### Escape sequences -/

theorem Safe.setColor (h : Safe v) (fg bg : ℤ) : Safe (v.setColor fg bg) := h.congr rfl rfl rfl

theorem Safe.setSgr (h : Safe v) (p1 p2 : ℤ) : Safe (v.setSgr p1 p2) := by
  rw [Video.setSgr, Video.setSgrColor]
  dsimp only
  split_ifs
  all_goals first | exact h | exact h.congr rfl rfl rfl

theorem toNat_ofInt (n : ℤ) : (UInt8.ofInt n).toNat = (n % 256).toNat := by
  rw [UInt8.ofInt, UInt8.toNat_ofNat']
  omega

theorem toNat_ofInt_sub_one (n : ℤ) : (UInt8.ofInt n - 1).toNat = ((n - 1) % 256).toNat := by
  rw [UInt8.sub_eq_add_neg, ← UInt8.ofInt_neg_one, ← UInt8.ofInt_add, toNat_ofInt]
  rfl

theorem Safe.ansiExecute (h : Safe v) {op : Option AnsiOp} (hop : ∀ o, op = some o → o.OnScreen) :
    ∃ v', v.ansiExecute op = some v' ∧ Safe v' := by
  rcases op with _ | op
  · exact ⟨v, rfl, h⟩
  have honscreen := hop op rfl
  cases op with
  | clrscr => exact Safe.clrscr h.lastLine_lt
  | clreol => exact h.clreol
  | gotoxy p1 p2 =>
    obtain ⟨h₁, h₂, h₃, h₄⟩ := honscreen
    refine ⟨_, rfl, ?_, ?_, h.lastLine_lt⟩
    · rw [toNat_ofInt_sub_one, vramCols]
      omega
    · rw [toNat_ofInt_sub_one, vramLines]
      omega
  | gotocol p1 =>
    refine ⟨_, rfl, ?_, h.cy_lt, h.lastLine_lt⟩
    rw [toNat_ofInt, vramCols]
    exact Int.toNat_le.mpr honscreen
  | up p1 => exact ⟨_, rfl, h.deltaxy _ _⟩
  | down p1 => exact ⟨_, rfl, h.deltaxy _ _⟩
  | right p1 => exact ⟨_, rfl, h.deltaxy _ _⟩
  | left p1 => exact ⟨_, rfl, h.deltaxy _ _⟩
  | setsgr p1 p2 => exact ⟨_, rfl, h.setSgr p1 p2⟩

/-! ### Printing -/

theorem exists_scroll (h : v.lastLine.toNat < vramLines) :
    ∃ data, v.scroll = some { v with data } := by
  have hle : (v.lastLine.toNat + 1) * vramCols ≤ vramChars := Nat.mul_le_mul_right _ h
  rw [scroll, if_pos hle]
  exact exists_clearLine h

theorem countLine_eq (v : Video) : ∃ pagingLines, v.countLine = { v with pagingLines } := by
  rw [countLine]
  by_cases hpaging : v.pagingEnabled
  · exact ⟨_, if_pos hpaging⟩
  · exact ⟨v.pagingLines, if_neg hpaging⟩

/-- A new line, where it does not leave the screen. -/
theorem Safe.newline (h : Safe v) (hlast : v.cy = 29 → v.lastLine = 29) :
    ∃ v', v.newline = some v' ∧ Safe v' ∧ v'.lastLine = v.lastLine := by
  rw [Video.newline]
  split_ifs with hcy
  · obtain ⟨data, hscroll⟩ := exists_scroll (v := { v with cx := 0 }) h.lastLine_lt
    obtain ⟨lines, hlines⟩ := countLine_eq { v with data, cx := 0 }
    rw [hscroll, Option.map_some, hlines]
    exact ⟨_, rfl, ⟨Nat.zero_le _, h.cy_lt, h.lastLine_lt⟩, rfl⟩
  · obtain ⟨lines, hlines⟩ := countLine_eq { v with cx := 0, cy := v.cy + 1 }
    rw [Option.map_some, hlines]
    refine ⟨_, rfl, ⟨Nat.zero_le _, ?_, h.lastLine_lt⟩, rfl⟩
    have hne : v.cy.toNat ≠ 29 := fun heq => by
      have h29 : v.cy = 29 := UInt8.toNat_inj.mp heq
      exact hcy (h29.trans (hlast h29).symm)
    have hlt := h.cy_lt
    change (v.cy + 1).toNat < 30
    rw [vramLines] at hlt
    rw [UInt8.toNat_add]
    change (v.cy.toNat + 1) % 256 < 30
    omega

/-- A character that is printed moves the cursor by one column. -/
theorem Safe.putcharPlain (h : Safe v) (c : UInt8)
    (hlast : vramCols ≤ v.cx.toNat → v.cy = 29 → v.lastLine = 29) :
    ∃ v', v.putcharPlain c = some v' ∧ Safe v' ∧ v'.lastLine = v.lastLine ∧
      (v.cx.toNat < vramCols → v'.cx.toNat = v.cx.toNat + 1 ∧ v'.cy = v.cy) ∧
      (vramCols ≤ v.cx.toNat → v'.cx.toNat = 1) := by
  rw [Video.putcharPlain]
  by_cases hcx : vramCols ≤ v.cx.toNat
  · obtain ⟨v₁, hnewline, h₁, hlast₁⟩ := h.newline (hlast hcx)
    obtain ⟨data, hput⟩ := exists_putcharInternal (v := { v₁ with cx := 0 }) (x := 0)
      (by decide) h₁.cy_lt c
    rw [if_pos hcx, hnewline, Option.map_some, Option.bind_eq_bind, Option.bind_some]
    dsimp only
    rw [hput]
    have hone : (0 + 1 : UInt8).toNat ≤ vramCols := by decide
    exact ⟨_, rfl, ⟨hone, h₁.cy_lt, h₁.lastLine_lt⟩, hlast₁, fun hlt => absurd hcx hlt.not_ge,
      fun _ => rfl⟩
  · have hlt : v.cx.toNat < vramCols := Nat.lt_of_not_ge hcx
    obtain ⟨data, hput⟩ := exists_putcharInternal (v := v) hlt h.cy_lt c
    have hadd : (v.cx + 1).toNat = v.cx.toNat + 1 := by
      rw [vramCols] at hlt
      rw [UInt8.toNat_add]
      change (v.cx.toNat + 1) % 256 = _
      omega
    rw [if_neg hcx, Option.bind_eq_bind, Option.bind_some]
    dsimp only
    rw [hput]
    exact ⟨_, rfl, ⟨hadd.trans_le hlt, h.cy_lt, h.lastLine_lt⟩, rfl, fun _ => ⟨hadd, rfl⟩,
      fun hle => absurd hle hcx⟩

/-- Blanks, of which at most one starts a new line. -/
theorem Safe.putBlanks {n : ℕ} (hn : n ≤ vramTabSize) (h : Safe v)
    (hlast : vramCols < v.cx.toNat + n → v.cy = 29 → v.lastLine = 29) :
    ∃ v', putBlanks n v = some v' ∧ Safe v' := by
  induction n generalizing v with
  | zero => exact ⟨v, rfl, h⟩
  | succ n ih =>
    obtain ⟨v₁, hplain, h₁, hlast₁, hin, hout⟩ := h.putcharPlain 0x20
      fun hle => hlast (Nat.lt_add_of_pos_right (Nat.succ_pos n) |>.trans_le' hle)
    rw [Video.putBlanks, hplain, Option.bind_some]
    refine ih (Nat.le_of_succ_le hn) h₁ fun hlt => ?_
    rcases Nat.lt_or_ge v.cx.toNat vramCols with hcx | hcx
    · obtain ⟨hcx₁, hcy₁⟩ := hin hcx
      rw [hcy₁, hlast₁]
      exact hlast (by omega)
    · rw [hout hcx] at hlt
      rw [vramTabSize] at hn
      rw [vramCols] at hlt
      omega

theorem toNat_sub_one {n : UInt8} (h : n ≠ 0) : (n - 1).toNat = n.toNat - 1 := by
  have hpos : n.toNat ≠ 0 := fun h0 => h (UInt8.toNat_inj.mp h0)
  refine UInt8.toNat_sub_of_le n 1 ?_
  rw [UInt8.le_iff_toNat_le]
  exact Nat.one_le_iff_ne_zero.mpr hpos

theorem Safe.backspace (h : Safe v) : Safe v.backspace ∧ v.backspace.cx.toNat < vramCols := by
  have hcx := h.cx_le
  have hcy := h.cy_lt
  rw [vramCols] at hcx
  rw [vramLines] at hcy
  rw [Video.backspace]
  split_ifs with hx hy
  · have hsub := toNat_sub_one (UInt8.pos_iff_ne_zero.mp hy)
    refine ⟨⟨Nat.le_succ 79, ?_, h.lastLine_lt⟩, Nat.lt_succ_self 79⟩
    change (v.cy - 1).toNat < 30
    omega
  · exact ⟨h, hx ▸ Nat.succ_pos 79⟩
  · have hsub := toNat_sub_one hx
    have hlt : (v.cx - 1).toNat < 80 := by
      have hpos : v.cx.toNat ≠ 0 := fun h0 => hx (UInt8.toNat_inj.mp h0)
      omega
    exact ⟨⟨hlt.le, h.cy_lt, h.lastLine_lt⟩, hlt⟩

theorem Safe.putColor (h : Safe v) (c : UInt8) : Safe (v.putColor c) := by
  rw [Video.putColor]
  split_ifs
  · exact h.setColor _ _
  · exact h.setColor _ _
  · exact h.setColor _ _

variable {outOfRange : ℤ → ℤ}

/-- **Printing.** -/
theorem Safe.putchar (h : Safe v) {c : UInt8} (hcareful : (Call.putchar c).Careful outOfRange v) :
    ∃ v', v.putchar outOfRange c = some v' ∧ Safe v' := by
  rw [Call.Careful] at hcareful
  rw [Video.putchar]
  by_cases hesc : c = 0x1B
  · rw [if_pos hesc]
    exact ⟨_, rfl, h.congr rfl rfl rfl⟩
  rw [if_neg hesc] at hcareful ⊢
  by_cases hansi : v.readingAnsi
  · -- the byte belongs to an escape sequence
    rw [if_pos hansi] at hcareful ⊢
    obtain ⟨hlen, hend⟩ := hcareful
    have hinbuf : (v.ansi ++ [c]).length ≤ termMaxAnsiSize + 1 := by
      rw [List.length_append]
      exact hlen
    dsimp only
    rw [if_pos hinbuf]
    by_cases halpha : Editor.Vram.isAlpha c
    · obtain ⟨hlen', hop⟩ := hend halpha
      have hterm : (v.ansi ++ [c]).length < termMaxAnsiSize + 1 := by
        rw [List.length_append]
        exact Nat.succ_lt_succ hlen'
      obtain ⟨v₁, hexec, h₁⟩ := Safe.ansiExecute (v := { v with ansi := v.ansi ++ [c] })
        (h.congr rfl rfl rfl) hop
      rw [if_pos halpha, if_pos hterm, hexec]
      exact ⟨_, rfl, h₁.congr rfl rfl rfl⟩
    · rw [if_neg halpha]
      exact ⟨_, rfl, h.congr rfl rfl rfl⟩
  rw [if_neg hansi] at hcareful ⊢
  split_ifs with hcr hnl hbs htab hcolor
  · exact ⟨_, rfl, Nat.zero_le _, h.cy_lt, h.lastLine_lt⟩
  · obtain ⟨v', hv', hsafe, -⟩ := h.newline (hcareful (.inl hnl))
    exact ⟨v', hv', hsafe⟩
  · obtain ⟨hback, hlt⟩ := h.backspace
    obtain ⟨data, hput⟩ := exists_putcharInternal (v := v.backspace) hlt hback.cy_lt 0x20
    exact ⟨_, hput, hback.congr rfl rfl rfl⟩
  · exact h.putBlanks (Nat.le_refl _) fun hlt => hcareful (.inr (.inl ⟨htab, hlt⟩))
  · exact ⟨_, rfl, h.putColor c⟩
  · obtain ⟨v', hv', hsafe, -⟩ := h.putcharPlain c fun hle =>
      hcareful (.inr (.inr ⟨hcr, hbs, htab, Bool.eq_false_iff.mpr hcolor, hle⟩))
    exact ⟨v', hv', hsafe⟩

/-- **One call.** -/
theorem Safe.step (h : Safe v) {call : Call} (hcareful : call.Careful outOfRange v) :
    ∃ v', v.step outOfRange call = some v' ∧ Safe v' := by
  cases call with
  | putchar c => exact h.putchar hcareful
  | gotoxy x y => exact ⟨_, rfl, h.gotoxy x y⟩
  | deltaxy dx dy => exact ⟨_, rfl, h.deltaxy dx dy⟩
  | clreol => exact h.clreol
  | setColor fg bg => exact ⟨_, rfl, h.setColor fg bg⟩
  | setMode mode => exact ⟨_, rfl, h.congr rfl rfl rfl⟩
  | setLastLine line =>
    refine ⟨_, rfl, h.cx_le, h.cy_lt, ?_⟩
    change (UInt8.ofNat line.val).toNat < vramLines
    rw [UInt8.toNat_ofNat']
    exact (Nat.mod_le _ _).trans_lt line.isLt

theorem Safe.init (v : Video) : ∃ v', v.init = some v' ∧ Safe v' :=
  Safe.clrscr (Nat.lt_succ_self 29)

end Video

/-- **Every run.** In every run after `vram_init` whose calls are careful, the cursor and the last
line are on the screen, and every careful call stays in the memory of the terminal. -/
theorem safe_of_reach (outOfRange : ℤ → ℤ) {v₀ v₁ v : Video} (hinit : v₀.init = some v₁)
    (h : Reach (Video.step outOfRange) (fun v call => Call.Careful outOfRange v call) v₁ v) :
    v.Safe ∧ ∀ call : Call, call.Careful outOfRange v →
      ∃ v', v.step outOfRange call = some v' ∧ v'.Safe := by
  have hsafe : v.Safe := by
    refine h.invariant ?_ fun v call v' hv hcareful hstep => ?_
    · obtain ⟨v', hv', hsafe⟩ := Video.Safe.init v₀
      exact Option.some_inj.mp (hinit.symm.trans hv') ▸ hsafe
    · obtain ⟨v₂, hv₂, hsafe⟩ := hv.step hcareful
      exact Option.some_inj.mp (hstep.symm.trans hv₂) ▸ hsafe
  exact ⟨hsafe, fun call hcareful => hsafe.step hcareful⟩

/-- The terminal after `vram_init`. -/
def started : Video := ({} : Video).init.getD {}

theorem init_default : ({} : Video).init = some started := rfl

/-- The escape sequence `ESC [ 200 G` sets the column to 200. -/
theorem not_safe_gotocol :
    ¬ ∀ (outOfRange : ℤ → ℤ) (v₀ v₁ v : Video), v₀.init = some v₁ →
      Reach (Video.step outOfRange) (fun _ _ => True) v₁ v → v.Safe := by
  intro h
  have hcx : ∀ hrun : (runAll (guarded (Video.step id) fun _ _ => True)
      ([0x1B, 0x5B, 0x32, 0x30, 0x30, 0x47].map Call.putchar) started).isSome,
      ¬ (Option.get _ hrun).cx.toNat ≤ vramCols := by decide
  have hrun : (runAll (guarded (Video.step id) fun _ _ => True)
      ([0x1B, 0x5B, 0x32, 0x30, 0x30, 0x47].map Call.putchar) started).isSome := by decide
  exact hcx hrun (h id {} started _ init_default (reach_get _ _ _ hrun)).cx_le

/-- The beginning of an escape sequence. -/
theorem safe_escape :
    ∃ v, runAll (Video.step id) ([0x1B, 0x5B].map Call.putchar) started = some v ∧ v.Safe := by
  have hreach : Reach (Video.step id) (fun v call => Call.Careful id v call) started _ :=
    .next (i := .putchar 0x5B) (.next (i := .putchar 0x1B) .init trivial rfl)
      ⟨by decide, fun halpha => absurd halpha (by decide)⟩ rfl
  exact ⟨_, rfl, (safe_of_reach id init_default hreach).1⟩

end ELuaBrain.Terminal
