import Mathlib.Algebra.Order.Ring.Int
import Mathlib.Logic.Function.Basic
import ELuaBrain.System.Heap

/-!
# The video memory

The characters of the terminal that keeps its screen in memory (`src/vram.c`, through
`src/term_vram.c`), as the editor uses it: printing, moving the cursor, clearing, and the boxes of
the dialogs. A cell also has a colour, which no character depends on; colours are left out. Paging
is off and the mode is `TERM_MODE_ASCII`, as `term_reset` leaves them.

## Main definitions

* `Vram` : the characters, the cursor and the pending escape sequence.
* `Vram.putchar`, `Vram.putstr`, `Vram.gotoxy`, `Vram.clreol`, `Vram.clrscr`.
* `Vram.box`, `Vram.closeBox`.
* `Displayable` : a byte that is printed as it is.

## Main results

* `Vram.putstr_eq` : displayable bytes that fit on the line change the cells they cover.
* `Vram.closeBox_text` : a box that is closed leaves the screen as it was.
-/

namespace ELuaBrain.Editor

/-- Text, without a terminator. -/
abbrev Str := List UInt8

/-- The bytes of an ASCII string. -/
def ascii (s : String) : Str := s.toList.map fun c => UInt8.ofNat c.toNat

/-- `VRAM_COLS`. -/
def vramCols : ℕ := 80

/-- `VRAM_LINES`. -/
def vramLines : ℕ := 30

/-- `vram_last_line`, as `term_reset` sets it. -/
def vramLastLine : ℕ := vramLines - 1

/-- The character of each cell by its offset, and the static variables of the module. Offsets from
`VRAM_CHARS` on stand for the memory behind the screen. -/
structure Vram where
  text : ℕ → UInt8
  /-- `*vram_p_cx`. -/
  cx : ℕ
  /-- `*vram_p_cy`. -/
  cy : ℕ
  /-- `vram_ansi_inbuf` while `vram_reading_ansi`. -/
  ansi : Option Str

namespace Vram

/-! ### Cells and cursor -/

/-- `VRAM_CHARADDR`. -/
def charAddr (x y : ℕ) : ℕ := y * vramCols + x

/-- `vram_putchar_internal`. -/
def putcharInternal (x y : ℕ) (c : UInt8) (v : Vram) : Vram :=
  { v with text := Function.update v.text (charAddr x y) c }

/-- `vram_gotoxy`, with arguments that are truncated to `u8`. -/
def gotoxy (x y : ℤ) (v : Vram) : Vram :=
  { v with
    cx := if x % 256 < vramCols then (x % 256).toNat else v.cx
    cy := if y % 256 < vramLines then (y % 256).toNat else v.cy }

/-- `vram_deltaxy`. -/
def deltaxy (dx dy : ℤ) (v : Vram) : Vram :=
  if v.cx + dx > 0 ∧ v.cy + dy > 0 then v.gotoxy (v.cx + dx) (v.cy + dy) else v

/-- `vram_clrscr`. -/
def clrscr (v : Vram) : Vram :=
  { v with
    text := fun i => if i < vramLines * vramCols then 0x20 else v.text i
    cx := 0
    cy := 0 }

/-- `vram_clreol`. -/
def clreol (v : Vram) : Vram :=
  { v with
    text := fun i =>
      if charAddr v.cx v.cy ≤ i ∧ i < charAddr v.cx v.cy + (vramCols - v.cx) then 0x20
      else v.text i }

/-! ### Escape sequences -/

/-- `isspace` of the C locale. -/
def isSpace (c : UInt8) : Bool := c == 0x20 || (0x09 ≤ c && c ≤ 0x0D)

/-- `isdigit`. -/
def isDigit (c : UInt8) : Bool := 0x30 ≤ c && c ≤ 0x39

/-- `isalpha` of the C locale. -/
def isAlpha (c : UInt8) : Bool := (0x41 ≤ c && c ≤ 0x5A) || (0x61 ≤ c && c ≤ 0x7A)

/-- The value of a sequence of digits. -/
def digitsValue (s : Str) : ℕ := s.foldl (fun n c => 10 * n + (c.toNat - 0x30)) 0

/-- The conversion `%d` of `sscanf`: the number read and the rest of the input. -/
def scanInt (s : Str) : Option (ℤ × Str) :=
  let s := s.dropWhile isSpace
  let negative := s.head? == some 0x2D
  let s := if negative || s.head? == some 0x2B then s.tail else s
  let digits := s.takeWhile isDigit
  if digits = [] then none
  else
    some (if negative then -(digitsValue digits : ℤ) else digitsValue digits,
      s.dropWhile isDigit)

/-- The operations of `vram_ansi_op` that change characters or the cursor. -/
inductive AnsiOp where
  | clrscr
  | clreol
  | gotoxy (p1 p2 : ℤ)
  | gotocol (p1 : ℤ)
  | delta (dx dy : ℤ)
  /-- `ANSI_SEQ_SETSGR`. -/
  | setsgr

/-- `vram_cvt_escape`. -/
def cvtEscape (inbuf : Str) : Option AnsiOp :=
  match inbuf with
  | 0x1B :: 0x5B :: rest =>
      let p := rest.dropLast
      let p1 := ((scanInt p).map Prod.fst).getD (-1)
      match rest.getLast?.getD 0x5B with
      | 0x4A => if p.head? = some 0x32 then some .clrscr else none
      | 0x4B => some .clreol
      | 0x48 => some (.gotoxy 1 1)
      | 0x66 =>
          match scanInt p with
          | some (p1, 0x3B :: p') => some (.gotoxy p1 (((scanInt p').map Prod.fst).getD (-1)))
          | some (p1, _) => some (.gotoxy p1 (-1))
          | none => some (.gotoxy (-1) (-1))
      | 0x47 => some (.gotocol p1)
      | 0x6D => some .setsgr
      | 0x41 => some (.delta 0 (-p1))
      | 0x42 => some (.delta 0 p1)
      | 0x43 => some (.delta p1 0)
      | 0x44 => some (.delta (-p1) 0)
      | _ => none
  | _ => none

/-- `vram_ansi_execute`. -/
def ansiExecute (inbuf : Str) (v : Vram) : Vram :=
  match cvtEscape inbuf with
  | none => v
  | some .clrscr => v.clrscr
  | some .clreol => v.clreol
  | some (.gotoxy p1 p2) =>
      { v with cx := ((p1 % 256 - 1) % 256).toNat, cy := ((p2 % 256 - 1) % 256).toNat }
  | some (.gotocol p1) => { v with cx := (p1 % 256).toNat }
  | some (.delta dx dy) => v.deltaxy dx dy
  | some .setsgr => v

/-! ### Printing -/

/-- `vram_putchar( '\n' )`. -/
def newline (v : Vram) : Vram :=
  if v.cy = vramLastLine then
    { v with
      text := fun i =>
        if i < vramLastLine * vramCols then v.text (i + vramCols)
        else if i < vramLines * vramCols then 0x20
        else v.text i
      cx := 0 }
  else { v with cx := 0, cy := (v.cy + 1) % 256 }

/-- The last branch of `vram_putchar`: a character that is printed. -/
def putcharPlain (c : UInt8) (v : Vram) : Vram :=
  let v := if v.cx ≥ vramCols then { v.newline with cx := 0 } else v
  { v.putcharInternal v.cx v.cy c with cx := (v.cx + 1) % 256 }

/-- `vram_putchar`. -/
def putchar (c : UInt8) (v : Vram) : Vram :=
  if c = 0x1B then { v with ansi := some [c] }
  else
    match v.ansi with
    | some inbuf =>
        if isAlpha c then { v.ansiExecute (inbuf ++ [c]) with ansi := none }
        else { v with ansi := some (inbuf ++ [c]) }
    | none =>
        if c = 0x0D then { v with cx := 0 }
        else if c = 0x0A then v.newline
        else if c = 0x08 then
          let v :=
            if v.cx = 0 then
              if v.cy > 0 then { v with cx := vramCols - 1, cy := v.cy - 1 } else v
            else { v with cx := v.cx - 1 }
          v.putcharInternal v.cx v.cy 0x20
        else if c = 0x09 then
          -- four blanks, `VRAM_TAB_SIZE`
          (((v.putcharPlain 0x20).putcharPlain 0x20).putcharPlain 0x20).putcharPlain 0x20
        else v.putcharPlain c

/-- `term_putstr`. -/
def putstr (s : Str) (v : Vram) : Vram := s.foldl (fun v c => v.putchar c) v

/-- `term_cstrxy`. -/
def cstrxy (x y : ℤ) (s : Str) (v : Vram) : Vram := (v.gotoxy x y).putstr s

/-! ### Boxes -/

/-- `TERM_BOX`, with the characters of the screen when the box was opened for `savedata`. -/
structure Box where
  x : ℕ
  y : ℕ
  width : ℕ
  height : ℕ
  savedata : ℕ → UInt8

/-- The cells of a box. -/
def Box.contains (b : Box) (i : ℕ) : Bool :=
  b.x ≤ i % vramCols && i % vramCols < b.x + b.width && b.y ≤ i / vramCols &&
    i / vramCols < b.y + b.height

/-- What `vram_box` draws in the column `ix` and the row `iy` of the box, with a border. -/
def boxChar (width height : ℕ) (title : Str) (ix iy : ℕ) : UInt8 :=
  if iy = 0 then
    if ix = 0 then 0xDA
    else if ix = width - 1 then 0xBF
    else if 3 ≤ ix ∧ ix < 3 + title.length then title.getD (ix - 3) 0
    else 0xC4
  else if iy = height - 1 then
    if ix = 0 then 0xC0 else if ix = width - 1 then 0xD9 else 0xC4
  else if ix = 0 ∨ ix = width - 1 then 0xB3
  else 0x20

/-- `vram_box` with `TERM_BOX_FLAG_BORDER | TERM_BOX_FLAG_RESTORE`, once it has its memory; the
title is shorter than the box. -/
def box (x y width height : ℕ) (title : Str) (v : Vram) : Box × Vram :=
  let b : Box := ⟨x, y, width, height, v.text⟩
  (b, { v with
    text := fun i =>
      if b.contains i then boxChar width height title (i % vramCols - x) (i / vramCols - y)
      else v.text i })

/-- `vram_close_box`. -/
def closeBox (b : Box) (v : Vram) : Vram :=
  { v with text := fun i => if b.contains i then b.savedata i else v.text i }

/-! ### Displayable text -/

/-- A byte that is neither `ESC` nor one of the characters that move the cursor. -/
def Displayable (c : UInt8) : Prop :=
  c ≠ 0x1B ∧ c ≠ 0x0D ∧ c ≠ 0x0A ∧ c ≠ 0x08 ∧ c ≠ 0x09

instance (c : UInt8) : Decidable (Displayable c) := inferInstanceAs (Decidable (_ ∧ _))

/-- The characters with those of `s` from the offset `start` on. -/
def paint (text : ℕ → UInt8) (start : ℕ) (s : Str) : ℕ → UInt8 := fun i =>
  if start ≤ i ∧ i < start + s.length then s.getD (i - start) 0 else text i

theorem paint_nil (text : ℕ → UInt8) (start : ℕ) : paint text start [] = text := by
  funext i
  simp only [paint, List.length_nil, Nat.add_zero]
  rw [if_neg (by omega)]

theorem paint_cons (text : ℕ → UInt8) (start : ℕ) (c : UInt8) (s : Str) :
    paint (Function.update text start c) (start + 1) s = paint text start (c :: s) := by
  funext i
  simp only [paint, List.length_cons]
  rcases Nat.lt_trichotomy i start with hi | rfl | hi
  · rw [if_neg (by omega), if_neg (by omega), Function.update_of_ne (by omega)]
  · rw [if_neg (by omega), if_pos (by omega), Function.update_self, Nat.sub_self]
    rfl
  · by_cases hle : i < start + 1 + s.length
    · rw [if_pos (by omega), if_pos (by omega)]
      obtain ⟨k, rfl⟩ := Nat.exists_eq_add_of_lt hi
      rw [show start + k + 1 - (start + 1) = k by omega,
        show start + k + 1 - start = k + 1 by omega]
      rfl
    · rw [if_neg (by omega), if_neg (by omega), Function.update_of_ne (by omega)]

variable {v : Vram}

theorem putchar_eq {c : UInt8} (hc : Displayable c) (hansi : v.ansi = none) (hx : v.cx < vramCols) :
    v.putchar c =
      { v with text := Function.update v.text (charAddr v.cx v.cy) c, cx := v.cx + 1 } := by
  obtain ⟨h₁, h₂, h₃, h₄, h₅⟩ := hc
  have hcols : vramCols = 80 := rfl
  have hmod : (v.cx + 1) % 256 = v.cx + 1 := by omega
  have hge : ¬ v.cx ≥ vramCols := by omega
  simp only [putchar, h₁, hansi, h₂, h₃, h₄, h₅, ↓reduceIte, putcharPlain, hge, putcharInternal,
    hmod]

/-- **Printing on one line.** -/
theorem putstr_eq {s : Str} (hs : ∀ c ∈ s, Displayable c) (hansi : v.ansi = none)
    (hx : v.cx + s.length ≤ vramCols) :
    v.putstr s =
      { v with text := paint v.text (charAddr v.cx v.cy) s, cx := v.cx + s.length } := by
  induction s generalizing v with
  | nil => simp only [putstr, List.foldl_nil, paint_nil, List.length_nil, Nat.add_zero]
  | cons c s ih =>
    rw [List.length_cons] at hx
    have hc := putchar_eq (hs c List.mem_cons_self) hansi (by omega)
    have hih := ih (v := v.putchar c) (fun c' hc' => hs c' (List.mem_cons_of_mem _ hc'))
      (by rw [hc]; exact hansi) (by
        rw [hc]
        show v.cx + 1 + s.length ≤ vramCols
        omega)
    change (v.putchar c).putstr s = _
    rw [hih, hc]
    have haddr : charAddr (v.cx + 1) v.cy = charAddr v.cx v.cy + 1 := by
      simp only [charAddr]
      omega
    simp only [haddr, paint_cons, List.length_cons, Nat.add_right_comm, Nat.add_assoc]

theorem gotoxy_eq {x y : ℕ} (hx : x < vramCols) (hy : y < vramLines) :
    v.gotoxy x y = { v with cx := x, cy := y } := by
  have hcols : vramCols = 80 := rfl
  have hlines : vramLines = 30 := rfl
  have h₁ : ((x : ℤ) % 256) = x := by omega
  have h₂ : ((y : ℤ) % 256) = y := by omega
  simp only [gotoxy, h₁, h₂, Nat.cast_lt, hx, hy, ↓reduceIte, Int.toNat_natCast]

@[simp] theorem gotoxy_text (x y : ℤ) : (v.gotoxy x y).text = v.text := rfl

@[simp] theorem gotoxy_ansi (x y : ℤ) : (v.gotoxy x y).ansi = v.ansi := rfl

/-- Printing displayable text at a position where it fits. -/
theorem cstrxy_eq {x y : ℕ} {s : Str} (hs : ∀ c ∈ s, Displayable c) (hansi : v.ansi = none)
    (hx : x + s.length ≤ vramCols) (hx' : x < vramCols) (hy : y < vramLines) :
    v.cstrxy x y s =
      { v with text := paint v.text (charAddr x y) s, cx := x + s.length, cy := y } := by
  rw [cstrxy, gotoxy_eq hx' hy]
  exact putstr_eq (v := { v with cx := x, cy := y }) hs hansi hx

/-! ### Closing a box -/

/-- The screen agrees with that of `v` outside the box, and no escape sequence is pending. -/
structure OnlyBox (b : Box) (v v' : Vram) : Prop where
  text_eq : ∀ i, b.contains i = false → v'.text i = v.text i
  ansi_eq : v'.ansi = none

theorem onlyBox_box {x y width height : ℕ} {title : Str} (hansi : v.ansi = none) :
    OnlyBox (v.box x y width height title).1 v (v.box x y width height title).2 := by
  refine ⟨fun i hi => ?_, hansi⟩
  have hi' : (Box.mk x y width height v.text).contains i = false := hi
  simp only [box, hi', Bool.false_eq_true, ↓reduceIte]

theorem OnlyBox.gotoxy {b : Box} {v' : Vram} (h : OnlyBox b v v') (x y : ℤ) :
    OnlyBox b v (v'.gotoxy x y) :=
  ⟨h.text_eq, h.ansi_eq⟩

/-- Text printed inside the box stays inside. -/
theorem OnlyBox.putstr {b : Box} {v' : Vram} (h : OnlyBox b v v') {s : Str}
    (hs : ∀ c ∈ s, Displayable c) (hx : b.x ≤ v'.cx) (hx' : v'.cx + s.length ≤ b.x + b.width)
    (hb : b.x + b.width ≤ vramCols) (hy : b.y ≤ v'.cy) (hy' : v'.cy < b.y + b.height) :
    OnlyBox b v (v'.putstr s) := by
  rw [putstr_eq hs h.ansi_eq (by omega)]
  refine ⟨fun i hi => ?_, h.ansi_eq⟩
  rw [← h.text_eq i hi]
  simp only [paint]
  refine if_neg fun hin => ?_
  -- the cell lies in the row of the cursor, between the borders
  simp only [charAddr, vramCols] at hin hb
  have hmem : b.contains i = true := by
    simp only [Box.contains, Bool.and_eq_true, decide_eq_true_eq]
    simp only [vramCols]
    omega
  simp [hmem] at hi

/-- **Closing a box.** A box that was drawn on, and only there, leaves the screen as it was. -/
theorem closeBox_text {x y width height : ℕ} {title : Str} {v' : Vram}
    (h : OnlyBox (v.box x y width height title).1 v v') :
    (v'.closeBox (v.box x y width height title).1).text = v.text := by
  funext i
  simp only [closeBox]
  split
  · rfl
  next hi => exact h.text_eq i (by simpa using hi)

end Vram

end ELuaBrain.Editor
