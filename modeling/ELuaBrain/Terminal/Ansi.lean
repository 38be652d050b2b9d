import ELuaBrain.System.Reach
import ELuaBrain.Terminal.Cursor
import Mathlib.Data.Nat.Digits.Defs

/-!
# Cursor moves over escape sequences

The terminal of `src/term.c` sends escape sequences and keeps a position of its own. At the other
end is a terminal that moves its cursor as the sequences say.

## Main definitions

* `Display` : the terminal at the other end.
* `AnsiTerm`, `AnsiTerm.call` : the position that is kept, and what the calls send.
* `AnsiTerm.Tracks` : the calls after which the position is right.

## Main results

* `Display.move_iff`, `Display.up_down_iff`, `Display.left_right_iff` : the moves at the other end.
* `AnsiTerm.Agrees.step` : one call.
* `cursor_moves` : both terminals.
-/

namespace ELuaBrain.Terminal

open Editor (Str vramCols vramLines)
open Editor.Vram (isDigit digitsValue)

/-! ### The terminal at the other end -/

/-- What a terminal has read of an escape sequence, with the parameters from the last one on. -/
inductive Parser where
  | ground
  | escape
  | control (params : List ℕ)
  deriving DecidableEq

/-- A terminal. -/
structure Display where
  cols : ℕ
  lines : ℕ
  /-- A new line starts in the first column. -/
  newline : Bool
  /-- The cursor goes home when the screen is cleared. -/
  homes : Bool
  x : ℕ := 0
  y : ℕ := 0
  /-- The next character starts a new line. -/
  wraps : Bool := false
  parser : Parser := .ground
  deriving DecidableEq

namespace Display

/-- The cursor goes to another position. -/
def goto (t : Display) (x y : ℕ) : Display :=
  { t with x := min x (t.cols - 1), y := min y (t.lines - 1), wraps := false }

/-- A control sequence. A parameter that is missing or zero is one. -/
def execute (t : Display) (final : UInt8) (params : List ℕ) : Display :=
  let n := max 1 (params.headD 0)
  match final with
  | 0x41 => t.goto t.x (t.y - n)
  | 0x42 => t.goto t.x (t.y + n)
  | 0x43 => t.goto (t.x + n) t.y
  | 0x44 => t.goto (t.x - n) t.y
  | 0x48 => t.goto (max 1 (params.getD 1 0) - 1) (n - 1)
  | 0x4A => if t.homes ∧ params.headD 0 = 2 then t.goto 0 0 else t
  | _ => t

/-- A character outside of escape sequences. -/
def plain (t : Display) (c : UInt8) : Display :=
  if c = 0x0A then t.goto (if t.newline then 0 else t.x) (t.y + 1)
  else if c = 0x0D then t.goto 0 t.y
  else if c = 0x08 then t.goto (t.x - 1) t.y
  else if c = 0x09 then t.goto ((t.x / 8 + 1) * 8) t.y
  else if c < 0x20 ∨ c = 0x7F then t
  else
    let t := if t.wraps then t.goto 0 (t.y + 1) else t
    if t.x + 1 < t.cols then { t with x := t.x + 1 } else { t with wraps := true }

/-- A byte. -/
def byte (t : Display) (c : UInt8) : Display :=
  match t.parser with
  | .ground => if c = 0x1B then { t with parser := .escape } else t.plain c
  | .escape => { t with parser := if c = 0x5B then .control [0] else .ground }
  | .control params =>
      if isDigit c then
        { t with parser := .control ((10 * params.headD 0 + (c.toNat - 0x30)) :: params.tail) }
      else if c = 0x3B then { t with parser := .control (0 :: params) }
      else if 0x40 ≤ c then { t with parser := .ground }.execute c params.reverse
      else t

/-- Some bytes. -/
def feed (t : Display) (s : Str) : Display := s.foldl byte t

end Display

/-! ### The code -/

/-- The conversion `%u`. -/
def formatUnsigned (n : ℕ) : Str := (Nat.toDigits 10 n).map fun c => UInt8.ofNat c.toNat

/-- The conversion `%d`. -/
def formatInt (n : ℤ) : Str :=
  if n < 0 then 0x2D :: formatUnsigned n.natAbs else formatUnsigned n.natAbs

/-- `term_ansi`, where `vsnprintf` cuts the text. -/
def termAnsi (text : Str) : Str := 0x1B :: 0x5B :: text.take (termMaxAnsiSize - 2 - 1)

/-- The size of the terminal and the position that is kept. -/
structure AnsiTerm where
  numLines : UInt32
  numCols : UInt32
  cx : UInt32 := 0
  cy : UInt32 := 0

/-- The calls. -/
inductive AnsiCall where
  | clrscr
  | clreol
  | gotoxy (x y : UInt32)
  | move (n : UInt32) (d : Direction)
  | putch (ch : UInt8)
  | putstr (str : Str)
  | setColor (fgcol bgcol : ℤ)

/-- The letter of a move. -/
def Direction.final : Direction → UInt8
  | .up => 0x41
  | .down => 0x42
  | .right => 0x43
  | .left => 0x44

namespace AnsiTerm

/-- `term_up`, `term_down`, `term_right` and `term_left`. -/
def move (s : AnsiTerm) (n : UInt32) : Direction → AnsiTerm
  | .up => { s with cy := s.cy - n }
  | .down => { s with cy := s.cy + n }
  | .right => { s with cx := s.cx - n }
  | .left => { s with cx := s.cx + n }

/-- The calls, and what they send. -/
def call (s : AnsiTerm) : AnsiCall → AnsiTerm × Str
  | .clrscr => ({ s with cx := 0, cy := 0 }, termAnsi [0x32, 0x4A])
  | .clreol => (s, termAnsi [0x4B])
  | .gotoxy x y => ({ s with cx := x, cy := y },
      termAnsi (formatUnsigned y.toNat ++ 0x3B :: formatUnsigned x.toNat ++ [0x48]))
  | .move n d => (s.move n d, termAnsi (formatUnsigned n.toNat ++ [d.final]))
  | .putch ch =>
      (if ch = 0x0A then { s with cx := 0, cy := if s.cy < s.numLines then s.cy + 1 else s.cy }
        else s, [ch])
  | .putstr str => (s, str)
  | .setColor fgcol bgcol => (s, termAnsi (formatInt (Video.toInt (fgcol + 30)) ++
      0x3B :: formatInt (Video.toInt (bgcol + 40)) ++ [0x6D]))

end AnsiTerm

/-! ### Numbers in escape sequences -/

theorem toNat_digit {c : Char} (h : c.isDigit) : (UInt8.ofNat c.toNat).toNat = c.toNat ∧
    48 ≤ c.toNat ∧ c.toNat ≤ 57 := by
  simp only [Char.isDigit, Bool.and_eq_true, decide_eq_true_eq] at h
  have hle : 48 ≤ c.toNat := h.1
  have hge : c.toNat ≤ 57 := h.2
  rw [UInt8.toNat_ofNat']
  omega

theorem isDigit_of_mem_formatUnsigned {n : ℕ} {c : UInt8} (h : c ∈ formatUnsigned n) :
    isDigit c = true := by
  obtain ⟨d, hd, rfl⟩ := List.mem_map.mp h
  obtain ⟨hval, hle, hge⟩ :=
    toNat_digit (Nat.isDigit_of_mem_toDigits (by decide) (by decide) hd)
  simp only [isDigit, Bool.and_eq_true, decide_eq_true_eq, UInt8.le_iff_toNat_le, hval]
  exact ⟨hle, hge⟩

theorem digitsValue_concat (s : Str) (c : UInt8) :
    digitsValue (s ++ [c]) = 10 * digitsValue s + (c.toNat - 0x30) := by
  rw [digitsValue, List.foldl_append]
  rfl

theorem toNat_digitChar {n : ℕ} (h : n < 10) :
    (UInt8.ofNat n.digitChar.toNat).toNat - 0x30 = n := by
  have hall : ∀ m < 10, (UInt8.ofNat m.digitChar.toNat).toNat - 0x30 = m := by decide
  exact hall n h

/-- The digits of a number have its value. -/
theorem digitsValue_formatUnsigned (n : ℕ) : digitsValue (formatUnsigned n) = n := by
  induction n using Nat.strongRecOn with
  | ind n ih =>
    rcases Nat.lt_or_ge n 10 with hlt | hge
    · rw [formatUnsigned, Nat.toDigits_of_lt_base hlt, List.map_singleton,
        ← List.nil_append [UInt8.ofNat _], digitsValue_concat, toNat_digitChar hlt]
      exact Nat.zero_add n
    · have hdiv := ih (n / 10) (Nat.div_lt_self (by omega) (by decide))
      rw [formatUnsigned] at hdiv
      rw [formatUnsigned, Nat.toDigits_of_base_le (by decide) hge, List.map_append,
        List.map_singleton, digitsValue_concat, hdiv, toNat_digitChar (Nat.mod_lt _ (by decide))]
      exact Nat.div_add_mod n 10

theorem length_formatUnsigned_le (n : UInt32) : (formatUnsigned n.toNat).length ≤ 10 := by
  have hlt := n.toNat_lt
  rw [formatUnsigned, List.length_map, Nat.length_toDigits_le_iff (by decide) (by decide)]
  omega

/-! ### Moves at the other end -/

namespace Display

variable {t : Display} {n : UInt32} {x' y' : ℕ} {s : Str}

/-- The cursor is on the screen, and no escape sequence is under way. -/
structure Ready (t : Display) : Prop where
  parser : t.parser = .ground
  x_lt : t.x < t.cols
  y_lt : t.y < t.lines

/-- A move, at most to the edge of the screen. -/
def shift (t : Display) (k : ℕ) : Direction → Display
  | .up => t.goto t.x (t.y - k)
  | .down => t.goto t.x (t.y + k)
  | .right => t.goto (t.x + k) t.y
  | .left => t.goto (t.x - k) t.y

/-- The cursor is at the edge of the screen in a direction. -/
def AtEdge (t : Display) : Direction → Prop
  | .up => t.y = 0
  | .down => t.y + 1 = t.lines
  | .right => t.x + 1 = t.cols
  | .left => t.x = 0

theorem feed_append (t : Display) (s s' : Str) : t.feed (s ++ s') = (t.feed s).feed s' :=
  List.foldl_append ..

theorem feed_digits {p : ℕ} {ps : List ℕ} (ht : t.parser = .control (p :: ps))
    (hs : ∀ c ∈ s, isDigit c = true) : t.feed s =
      { t with parser := .control (s.foldl (fun n c => 10 * n + (c.toNat - 0x30)) p :: ps) } := by
  induction s generalizing t p with
  | nil =>
    rw [List.foldl_nil, ← ht]
    rfl
  | cons c s ih =>
    rw [List.forall_mem_cons] at hs
    have hbyte : t.byte c = { t with parser := .control ((10 * p + (c.toNat - 0x30)) :: ps) } := by
      rw [byte, ht]
      exact if_pos hs.1
    change (t.byte c).feed s = _
    rw [hbyte, ih rfl hs.2]
    rfl

/-- The start of a control sequence. -/
theorem feed_termAnsi (ht : t.parser = .ground) {text : Str} (hlen : text.length ≤ 11) :
    t.feed (termAnsi text) = { t with parser := .control [0] }.feed text := by
  have hescape : t.byte 0x1B = { t with parser := .escape } := by
    rw [byte, ht]
    rfl
  rw [termAnsi, List.take_of_length_le (by rw [termMaxAnsiSize]; exact hlen)]
  change ((t.byte 0x1B).byte 0x5B).feed text = _
  rw [hescape]
  rfl

theorem execute_final (t : Display) (n : ℕ) (d : Direction) :
    t.execute d.final [n] = t.shift (max 1 n) d := by
  cases d with
  | up | down | right | left => rfl

/-- **A move** by `n` cells is one by at least one cell. -/
theorem feed_move (ht : t.Ready) (term : AnsiTerm) (n : UInt32) (d : Direction) :
    t.feed (term.call (.move n d)).2 = t.shift (max 1 n.toNat) d := by
  have hlen : (formatUnsigned n.toNat ++ [d.final]).length ≤ 11 := by
    rw [List.length_append]
    exact Nat.add_le_add_right (length_formatUnsigned_le n) 1
  have hfinal : isDigit d.final = false ∧ d.final ≠ 0x3B ∧ 0x40 ≤ d.final := by
    cases d with
    | up | down | right | left => decide
  have hground : ({ t with parser := .ground } : Display) = t := by rw [← ht.parser]
  rw [AnsiTerm.call, feed_termAnsi ht.parser hlen, feed_append,
    feed_digits (t := { t with parser := .control [0] }) rfl
      fun c hc => isDigit_of_mem_formatUnsigned hc]
  change (if isDigit d.final then _ else if _ then _ else if _ then _ else _) = _
  rw [if_neg (hfinal.1 ▸ Bool.false_ne_true), if_neg hfinal.2.1, if_pos hfinal.2.2]
  change ({ t with parser := .ground } : Display).execute d.final [digitsValue _] = _
  rw [hground, digitsValue_formatUnsigned, execute_final]

/-- **The moves that are done**, of those whose target is on the screen. -/
theorem move_iff (ht : t.Ready) (term : AnsiTerm) (n : UInt32) (d : Direction)
    (hto : d.To n.toNat t.x t.y x' y') (hx' : x' < t.cols) (hy' : y' < t.lines) :
    (t.feed (term.call (.move n d)).2).x = x' ∧ (t.feed (term.call (.move n d)).2).y = y' ↔
      n ≠ 0 ∨ t.AtEdge d := by
  have hx := ht.x_lt
  have hy := ht.y_lt
  rw [feed_move ht, Ne, Video.eq_zero_iff]
  cases d with
  | up | down | right | left =>
    obtain ⟨hcolumn, hline⟩ := hto
    simp only [shift, goto, AtEdge]
    omega

/-- **The moves up that moves down undo.** -/
theorem up_down_iff (ht : t.Ready) (term : AnsiTerm) (n : UInt32) (hn : n.toNat ≤ t.y) :
    ((t.feed (term.call (.move n .up)).2).feed (term.call (.move n .down)).2).y = t.y ↔
      n ≠ 0 ∨ 0 < t.y ∨ t.lines = 1 := by
  have hx := ht.x_lt
  have hy := ht.y_lt
  have hup : (t.shift (max 1 n.toNat) .up).Ready :=
    ⟨ht.parser, by simp only [shift, goto]; omega, by simp only [shift, goto]; omega⟩
  rw [feed_move ht, feed_move hup, Ne, Video.eq_zero_iff]
  simp only [shift, goto]
  omega

/-- **The moves to the left that moves to the right undo.** -/
theorem left_right_iff (ht : t.Ready) (term : AnsiTerm) (n : UInt32) (hn : n.toNat ≤ t.x) :
    ((t.feed (term.call (.move n .left)).2).feed (term.call (.move n .right)).2).x = t.x ↔
      n ≠ 0 ∨ 0 < t.x ∨ t.cols = 1 := by
  have hx := ht.x_lt
  have hy := ht.y_lt
  have hleft : (t.shift (max 1 n.toNat) .left).Ready :=
    ⟨ht.parser, by simp only [shift, goto]; omega, by simp only [shift, goto]; omega⟩
  rw [feed_move ht, feed_move hleft, Ne, Video.eq_zero_iff]
  simp only [shift, goto]
  omega

/-- A text that moves no cursor. -/
def Still (t : Display) (s : Str) : Prop :=
  (t.feed s).x = t.x ∧ (t.feed s).y = t.y ∧ (t.feed s).parser = .ground

theorem size_execute (t : Display) (final : UInt8) (params : List ℕ) :
    (t.execute final params).cols = t.cols ∧ (t.execute final params).lines = t.lines := by
  unfold execute
  split
  all_goals try split_ifs
  all_goals exact ⟨rfl, rfl⟩

theorem size_byte (t : Display) (c : UInt8) :
    (t.byte c).cols = t.cols ∧ (t.byte c).lines = t.lines := by
  rw [byte]
  split
  · rw [plain]
    dsimp only
    split_ifs
    all_goals exact ⟨rfl, rfl⟩
  · exact ⟨rfl, rfl⟩
  · split_ifs
    · exact ⟨rfl, rfl⟩
    · exact ⟨rfl, rfl⟩
    · exact size_execute _ _ _
    · exact ⟨rfl, rfl⟩

/-- The size of the screen stays. -/
theorem size_feed (t : Display) (s : Str) :
    (t.feed s).cols = t.cols ∧ (t.feed s).lines = t.lines := by
  induction s generalizing t with
  | nil => exact ⟨rfl, rfl⟩
  | cons c s ih =>
    obtain ⟨hcols, hlines⟩ := ih (t.byte c)
    exact ⟨hcols.trans (size_byte t c).1, hlines.trans (size_byte t c).2⟩

/-- Parameters of a control sequence. -/
theorem feed_params {ps : List ℕ} (ht : t.parser = .control ps) (hs : ∀ c ∈ s, c < 0x40) :
    ∃ ps', t.feed s = { t with parser := .control ps' } := by
  induction s generalizing t ps with
  | nil => exact ⟨ps, by rw [← ht]; rfl⟩
  | cons c s ih =>
    rw [List.forall_mem_cons] at hs
    have hbyte : ∃ ps', t.byte c = { t with parser := .control ps' } := by
      rw [byte, ht]
      dsimp only
      split_ifs with hdigit hsemicolon hfinal
      · exact ⟨_, rfl⟩
      · exact ⟨_, rfl⟩
      · exact absurd hs.1 (UInt8.not_lt.mpr hfinal)
      · exact ⟨ps, by rw [← ht]⟩
    obtain ⟨ps₁, hps₁⟩ := hbyte
    obtain ⟨ps₂, hps₂⟩ := ih (t := { t with parser := .control ps₁ }) rfl hs.2
    exact ⟨ps₂, by change (t.byte c).feed s = _; rw [hps₁, hps₂]⟩

/-- A control sequence. -/
theorem feed_control (final : UInt8) (ht : t.parser = .ground) (hlen : (s ++ [final]).length ≤ 11)
    (hs : ∀ c ∈ s, c < 0x40) (hfinal : 0x40 ≤ final) :
    ∃ params, t.feed (termAnsi (s ++ [final])) = t.execute final params := by
  have hground : ({ t with parser := .ground } : Display) = t := by rw [← ht]
  obtain ⟨ps, hps⟩ := feed_params (t := { t with parser := .control [0] }) rfl hs
  refine ⟨ps.reverse, ?_⟩
  have hdigit : isDigit final = false := by
    rw [isDigit, Bool.and_eq_false_iff]
    refine .inr (decide_eq_false fun hle => ?_)
    exact absurd (UInt8.le_trans hfinal hle) (by decide)
  have hsemicolon : final ≠ 0x3B := by
    rintro rfl
    exact absurd hfinal (by decide)
  rw [feed_termAnsi ht hlen, feed_append, hps]
  change (if isDigit final then _ else if _ then _ else if _ then _ else _) = _
  rw [if_neg (hdigit ▸ Bool.false_ne_true), if_neg hsemicolon, if_pos hfinal]
  change ({ t with parser := .ground } : Display).execute _ _ = _
  rw [hground]

end Display

/-! ### The position that is kept -/

namespace AnsiTerm

/-- The position is that of the terminal at the other end, which has the same size. -/
structure Agrees (s : AnsiTerm) (t : Display) : Prop where
  ready : t.Ready
  cols : t.cols = s.numCols.toNat
  lines : t.lines = s.numLines.toNat
  cx : s.cx.toNat = t.x
  cy : s.cy.toNat = t.y

/-- The text of `term_set_color`. -/
def colorText (fgcol bgcol : ℤ) : Str :=
  formatInt (Video.toInt (fgcol + 30)) ++ 0x3B :: formatInt (Video.toInt (bgcol + 40)) ++ [0x6D]

/-- The calls after which the position is right. -/
def Tracks (s : AnsiTerm) (t : Display) : AnsiCall → Prop
  | .clrscr => t.homes = true ∨ s.cx = 0 ∧ s.cy = 0
  | .clreol => True
  | .gotoxy x y => x = 0 ∧ y = 0
  | .move n d =>
      n = 0 ∧ t.AtEdge d ∨ n ≠ 0 ∧ (d = .up ∧ n.toNat ≤ s.cy.toNat ∨
        d = .down ∧ s.cy.toNat + n.toNat < s.numLines.toNat)
  | .putch ch =>
      if ch = 0x0A then (t.newline = true ∨ s.cx = 0) ∧ s.cy.toNat + 1 < s.numLines.toNat
      else t.Still [ch]
  | .putstr str => t.Still str
  | .setColor fgcol bgcol => (colorText fgcol bgcol).length ≤ 11

/-- A call, and the terminal that gets what it sends. -/
def step (p : AnsiTerm × Display) (call : AnsiCall) : Option (AnsiTerm × Display) :=
  some ((p.1.call call).1, p.2.feed (p.1.call call).2)

variable {s : AnsiTerm} {t : Display}

theorem Agrees.still (h : s.Agrees t) {str : Str} (hstill : t.Still str) :
    s.Agrees (t.feed str) := by
  obtain ⟨hx, hy, hparser⟩ := hstill
  obtain ⟨hcols, hlines⟩ := t.size_feed str
  refine ⟨⟨hparser, ?_, ?_⟩, hcols.trans h.cols, hlines.trans h.lines, h.cx.trans hx.symm,
    h.cy.trans hy.symm⟩
  · rw [hx, hcols]
    exact h.ready.x_lt
  · rw [hy, hlines]
    exact h.ready.y_lt

theorem formatInt_lt {n : ℤ} {c : UInt8} (h : c ∈ formatInt n) : c < 0x40 := by
  have hdigit {c : UInt8} (hc : c ∈ formatUnsigned n.natAbs) : c < 0x40 := by
    have hc := isDigit_of_mem_formatUnsigned hc
    rw [Editor.Vram.isDigit, Bool.and_eq_true, decide_eq_true_eq, decide_eq_true_eq] at hc
    exact UInt8.lt_of_le_of_lt hc.2 (by decide)
  rw [formatInt] at h
  split_ifs at h
  · obtain rfl | h := List.mem_cons.mp h
    · decide
    · exact hdigit h
  · exact hdigit h

/-- The cursor goes where the position says. -/
theorem Agrees.goto (h : s.Agrees t) {x y : ℕ} {cx cy : UInt32} (hcx : cx.toNat = x)
    (hcy : cy.toNat = y) (hx : x < t.cols) (hy : y < t.lines) :
    ({ s with cx, cy } : AnsiTerm).Agrees (t.goto x y) := by
  refine ⟨⟨h.ready.parser, ?_, ?_⟩, h.cols, h.lines, ?_, ?_⟩
  · exact (Nat.min_le_left _ _).trans_lt hx
  · exact (Nat.min_le_left _ _).trans_lt hy
  · exact hcx.trans (Nat.min_eq_left (Nat.le_sub_one_of_lt hx)).symm
  · exact hcy.trans (Nat.min_eq_left (Nat.le_sub_one_of_lt hy)).symm

theorem Agrees.move (h : s.Agrees t) {n : UInt32} {d : Direction}
    (htracks : s.Tracks t (.move n d)) : (s.move n d).Agrees (t.shift (max 1 n.toNat) d) := by
  have hx := h.ready.x_lt
  have hy := h.ready.y_lt
  have hcx := h.cx
  have hcy := h.cy
  have hlines := h.lines
  obtain ⟨rfl, hedge⟩ | ⟨hne, ⟨rfl, hn⟩ | ⟨rfl, hn⟩⟩ := htracks
  · -- No cell for the position, and one for the terminal, which is at the edge.
    have hstays : t.shift (max 1 (0 : UInt32).toNat) d = t.goto t.x t.y := by
      cases d with
      | up | down | right | left =>
        simp only [Display.AtEdge] at hedge
        simp only [Display.shift, Display.goto]
        congr 1
        all_goals simp
        all_goals omega
    have hzero : s.move 0 d = s := by
      cases d with
      | up | down | right | left => simp [AnsiTerm.move]
    rw [hstays, hzero]
    exact h.goto hcx hcy hx hy
  · have hpos : n.toNat ≠ 0 := fun hzero => hne (Video.eq_zero_iff.mpr hzero)
    rw [Nat.max_eq_right (Nat.one_le_iff_ne_zero.mpr hpos)]
    refine h.goto hcx ?_ hx (by omega)
    rw [UInt32.toNat_sub_of_le _ _ (UInt32.le_iff_toNat_le.mpr hn), hcy]
  · have hpos : n.toNat ≠ 0 := fun hzero => hne (Video.eq_zero_iff.mpr hzero)
    have hlt := s.numLines.toNat_lt
    rw [Nat.max_eq_right (Nat.one_le_iff_ne_zero.mpr hpos)]
    refine h.goto hcx ?_ hx (by omega)
    rw [UInt32.toNat_add, hcy, Nat.mod_eq_of_lt (by omega)]

/-- **One call.** -/
theorem Agrees.step (h : s.Agrees t) {call : AnsiCall} (htracks : s.Tracks t call) :
    (s.call call).1.Agrees (t.feed (s.call call).2) := by
  have hx := h.ready.x_lt
  have hy := h.ready.y_lt
  have hground : ({ t with parser := .ground } : Display) = t := by rw [← h.ready.parser]
  cases call with
  | clrscr =>
    have hfeed : t.feed (termAnsi [0x32, 0x4A]) = if t.homes ∧ 2 = 2 then t.goto 0 0 else t := by
      rw [Display.feed_termAnsi h.ready.parser (by decide)]
      change ({ t with parser := .ground } : Display).execute 0x4A [2] = _
      rw [hground]
      rfl
    rw [AnsiTerm.call, hfeed]
    split_ifs with hhomes
    · exact h.goto rfl rfl (by omega) (by omega)
    · obtain ⟨hcx, hcy⟩ := htracks.resolve_left fun hhome => hhomes ⟨hhome, rfl⟩
      exact ⟨h.ready, h.cols, h.lines, hcx ▸ h.cx, hcy ▸ h.cy⟩
  | clreol =>
    obtain ⟨params, hfeed⟩ := Display.feed_control (s := []) 0x4B h.ready.parser
      (by decide) nofun (by decide)
    rw [AnsiTerm.call]
    exact hfeed ▸ h
  | gotoxy x y =>
    obtain ⟨rfl, rfl⟩ := htracks
    have hfeed : t.feed (termAnsi (formatUnsigned 0 ++ 0x3B :: formatUnsigned 0 ++ [0x48])) =
        t.goto 0 0 := by
      rw [Display.feed_termAnsi h.ready.parser (by decide)]
      change ({ t with parser := .ground } : Display).execute 0x48 [0, 0] = _
      rw [hground]
      rfl
    exact hfeed ▸ h.goto rfl rfl (by omega) (by omega)
  | move n d =>
    rw [Display.feed_move h.ready]
    exact h.move htracks
  | putch ch =>
    rw [Tracks] at htracks
    rw [AnsiTerm.call]
    split_ifs at htracks with hnl
    · subst hnl
      obtain ⟨hcolumn, hline⟩ := htracks
      have hcy := h.cy
      have hlines := h.lines
      have hlt := s.numLines.toNat_lt
      have hfeed : t.feed [0x0A] = t.goto (if t.newline then 0 else t.x) (t.y + 1) := by
        change t.byte 0x0A = _
        rw [Display.byte, h.ready.parser]
        rfl
      rw [if_pos rfl, if_pos (UInt32.lt_iff_toNat_lt.mpr (by omega)), hfeed]
      refine h.goto ?_ ?_ ?_ (by omega)
      · split_ifs with hnewline
        · rfl
        · exact (hcolumn.resolve_left hnewline) ▸ h.cx
      · rw [UInt32.toNat_add, hcy]
        change (t.y + 1) % 2 ^ 32 = _
        omega
      · split_ifs
        · omega
        · exact hx
    · rw [if_neg hnl]
      exact h.still htracks
  | putstr str => exact h.still htracks
  | setColor fgcol bgcol =>
    have hparams : ∀ c ∈ formatInt (Video.toInt (fgcol + 30)) ++
        0x3B :: formatInt (Video.toInt (bgcol + 40)), c < 0x40 := by
      intro c hc
      obtain hc | hc := List.mem_append.mp hc
      · exact formatInt_lt hc
      · obtain rfl | hc := List.mem_cons.mp hc
        · decide
        · exact formatInt_lt hc
    obtain ⟨params, hfeed⟩ := Display.feed_control 0x6D h.ready.parser htracks hparams (by decide)
    rw [AnsiTerm.call]
    exact hfeed ▸ h

/-- **The position that is kept** is right after every run of such calls. -/
theorem Agrees.of_reach {p : AnsiTerm × Display} (h : s.Agrees t)
    (hreach : Reach AnsiTerm.step (fun p call => p.1.Tracks p.2 call) (s, t) p) :
    p.1.Agrees p.2 := by
  refine hreach.invariant (P := fun p => p.1.Agrees p.2) h fun p call p' hp htracks hstep => ?_
  obtain rfl := Option.some.inj hstep
  exact hp.step htracks

end AnsiTerm

/-- **Cursor moves** of the two terminals: when a move reaches a target that is on the screen, when
the opposite move undoes it, and when the position that is kept is that of the terminal at the other
end. -/
theorem cursor_moves (v : Video) (s : AnsiTerm) (t : Display) (n : UInt32) :
    (∀ (d : Direction) (x y x' y' : ℕ), v.At x y → d.To n.toNat x y x' y' → x' < vramCols →
      y' < vramLines → ((v.move n d).At x' y' ↔ n = 0 ∨ d ≠ .down ∧ 0 < x' ∧ 0 < y')) ∧
    (∀ x y : ℕ, v.At x y → x < vramCols → y < vramLines →
      (n.toNat ≤ y → (((v.move n .up).move n .down).At x y ↔ n = 0 ∨ x = 0 ∨ n.toNat = y)) ∧
      (n.toNat ≤ x → (((v.move n .left).move n .right).At x y ↔
        n = 0 ∨ y = 0 ∨ n.toNat < x ∨ vramCols ≤ x + n.toNat))) ∧
    (t.Ready → ∀ (d : Direction) (x' y' : ℕ), d.To n.toNat t.x t.y x' y' → x' < t.cols →
      y' < t.lines →
        ((t.feed (s.call (.move n d)).2).x = x' ∧ (t.feed (s.call (.move n d)).2).y = y' ↔
          n ≠ 0 ∨ t.AtEdge d)) ∧
    (t.Ready →
      (n.toNat ≤ t.y →
        (((t.feed (s.call (.move n .up)).2).feed (s.call (.move n .down)).2).y = t.y ↔
          n ≠ 0 ∨ 0 < t.y ∨ t.lines = 1)) ∧
      (n.toNat ≤ t.x →
        (((t.feed (s.call (.move n .left)).2).feed (s.call (.move n .right)).2).x = t.x ↔
          n ≠ 0 ∨ 0 < t.x ∨ t.cols = 1))) ∧
    ∀ p : AnsiTerm × Display, s.Agrees t →
      Reach AnsiTerm.step (fun p call => p.1.Tracks p.2 call) (s, t) p → p.1.Agrees p.2 := by
  refine ⟨?_, ?_, ?_, ?_, ?_⟩
  · intro d x y x' y' h hto hx' hy'
    exact Video.move_iff d n h hto hx' hy'
  · intro x y h hx hy
    exact ⟨Video.up_down_iff n h hx hy, Video.left_right_iff n h hx hy⟩
  · intro ht d x' y' hto hx' hy'
    exact Display.move_iff ht s n d hto hx' hy'
  · intro ht
    exact ⟨Display.up_down_iff ht s n, Display.left_right_iff ht s n⟩
  · intro p h hreach
    exact h.of_reach hreach

/-- A terminal of 25 lines, with its cursor in the first one. -/
def sampleAnsi : AnsiTerm := { numLines := 25, numCols := 80, cx := 10 }

/-- The terminal at the other end. -/
def sampleDisplay : Display where
  cols := 80
  lines := 25
  newline := true
  homes := false
  x := 10

/-- A move to the right on the screen, and a move down that is tracked. -/
theorem cursor_moves_sample :
    (({ started with cx := 5, cy := 5 } : Video).move 3 .right).At 8 5 ∧
      ∃ p, AnsiTerm.step (sampleAnsi, sampleDisplay) (.move 2 .down) = some p ∧
        p.1.Agrees p.2 := by
  have hagrees : sampleAnsi.Agrees sampleDisplay :=
    ⟨⟨rfl, by decide, by decide⟩, rfl, rfl, rfl, rfl⟩
  have htracks : sampleAnsi.Tracks sampleDisplay (.move 2 .down) :=
    .inr ⟨by decide, .inr ⟨rfl, by decide⟩⟩
  obtain ⟨hmove, -, -, -, hrun⟩ :=
    cursor_moves { started with cx := 5, cy := 5 } sampleAnsi sampleDisplay 3
  exact ⟨(hmove .right 5 5 8 5 ⟨rfl, rfl⟩ ⟨rfl, rfl⟩ (by decide) (by decide)).mpr
      (.inr (by decide)),
    _, rfl, hrun _ hagrees (.next .init htracks rfl)⟩

/-- In the first row there is no move to the right, a move down goes up, and a move to the right
takes the position that is kept to the left. -/
theorem not_cursor_moves :
    ¬(({ started with cx := 5, cy := 0 } : Video).move 3 .right).At 8 0 ∧
      ¬(({ started with cx := 5, cy := 5 } : Video).move 1 .down).At 5 6 ∧
      ¬(sampleAnsi.call (.move 3 .right)).1.Agrees
        (sampleDisplay.feed (sampleAnsi.call (.move 3 .right)).2) := by
  refine ⟨fun h => ?_, fun h => ?_, fun h => ?_⟩
  · exact absurd h.1 (by decide +kernel)
  · exact absurd h.2 (by decide +kernel)
  · exact absurd h.cx (by decide +kernel)

end ELuaBrain.Terminal
