import ELuaBrain.Terminal.Video

/-!
# Cursor moves of the video terminal

`term_up`, `term_down`, `term_left` and `term_right` of `src/term_vram.c`. They go through
`vram_deltaxy`, which does nothing if the new column or the new row is not positive, and `term_down`
asks it for a move up.

## Main definitions

* `Direction.To` : the position that a move asks for.
* `Video.move` : the calls.

## Main results

* `Video.move_iff` : the moves that are done.
* `Video.up_down_iff`, `Video.left_right_iff` : the moves that are undone.
-/

namespace ELuaBrain.Terminal

open Editor (vramCols vramLines)

/-- The relative moves of the cursor. -/
inductive Direction where
  | up
  | down
  | right
  | left
  deriving DecidableEq

/-- A move by `n` cells leads from a position to another one. -/
def Direction.To (n : ℕ) (x y x' y' : ℕ) : Direction → Prop
  | .up => x' = x ∧ y' + n = y
  | .down => x' = x ∧ y' = y + n
  | .right => x' = x + n ∧ y' = y
  | .left => x' + n = x ∧ y' = y

/-- The differences that `vram_deltaxy` gets for a move. -/
def Direction.delta (n : ℤ) : Direction → ℤ × ℤ
  | .up => (0, -n)
  | .down => (0, -n)
  | .right => (n, 0)
  | .left => (-n, 0)

namespace Video

/-- `term_up`, `term_down`, `term_right` and `term_left`. -/
def move (v : Video) (n : UInt32) : Direction → Video
  | .up => v.deltaxy 0 (toInt (-n.toNat))
  | .down => v.deltaxy 0 (toInt (-n.toNat))
  | .right => v.deltaxy (toInt n.toNat) 0
  | .left => v.deltaxy (toInt (-n.toNat)) 0

/-- The cursor is at a position. -/
def At (v : Video) (x y : ℕ) : Prop := v.cx.toNat = x ∧ v.cy.toNat = y

variable {v : Video} {n : UInt32} {x y x' y' : ℕ}

theorem toInt_of_lt {a : ℤ} (hlow : -2 ^ 31 ≤ a) (hhigh : a < 2 ^ 31) : toInt a = a :=
  Int.bmod_eq_of_le_mul_two (by omega) (by omega)

theorem move_eq (v : Video) (n : UInt32) (d : Direction) : v.move n d =
    v.deltaxy (toInt (d.delta n.toNat).1) (toInt (d.delta n.toNat).2) := by
  have hzero : toInt 0 = 0 := toInt_of_lt (by decide) (by decide)
  cases d with
  | up | down | right | left => rw [move, Direction.delta, hzero]

theorem At.eq (h : v.At x y) (h' : v.At x' y') : x = x' ∧ y = y' :=
  ⟨h.1.symm.trans h'.1, h.2.symm.trans h'.2⟩

/-- A move that does not stay in positive columns and rows does nothing. -/
theorem move_stays (h : v.At x y) (d : Direction)
    (hx : -2 ^ 31 ≤ x + (d.delta n.toNat).1 ∧ x + (d.delta n.toNat).1 < 256)
    (hy : -2 ^ 31 ≤ y + (d.delta n.toNat).2 ∧ y + (d.delta n.toNat).2 < 256)
    (hcrossed : x + (d.delta n.toNat).1 ≤ 0 ∨ y + (d.delta n.toNat).2 ≤ 0) :
    (v.move n d).At x y := by
  have hsum {c e : ℤ} (hc : -2 ^ 31 ≤ c + e ∧ c + e < 256) : toInt (c + toInt e) = c + e :=
    Int.add_bmod_bmod.trans (toInt_of_lt hc.1 (by omega))
  rw [move_eq, deltaxy, h.1, h.2, hsum hx, hsum hy, if_neg (by omega)]
  exact h

/-- Another move is done, if the screen has that many columns. -/
theorem move_goes (x' y' : ℕ) (h : v.At x y) (d : Direction)
    (hx' : (x' : ℤ) = x + (d.delta n.toNat).1) (hy' : (y' : ℤ) = y + (d.delta n.toNat).2)
    (hpos : 0 < x' ∧ 0 < y') (hcolumn : x' < 256) (hline : y' < vramLines) :
    (v.move n d).At (if x' < vramCols then x' else x) y' := by
  rw [vramLines] at hline
  have hsum {c e : ℤ} {m : ℕ} (hm : (m : ℤ) = c + e) (hlt : m < 256) :
      toInt (c + toInt e) = m :=
    Int.add_bmod_bmod.trans (hm ▸ toInt_of_lt (by omega) (by omega))
  have hnat {m : ℕ} (hlt : m < 256) : (UInt8.ofInt m).toNat = m := by
    rw [toNat_ofInt]
    omega
  rw [move_eq, deltaxy, h.1, h.2, hsum hx' hcolumn, hsum hy' (by omega), if_pos (by omega), gotoxy,
    hnat hcolumn, hnat (by omega : y' < 256), if_pos (c := y' < vramLines) hline]
  constructor
  · dsimp only
    split_ifs
    · exact hnat hcolumn
    · exact h.1
  · exact hnat (by omega)

theorem At.iff (h : v.At x y) : v.At x' y' ↔ x = x' ∧ y = y' :=
  ⟨fun h' => h.eq h', fun heq => heq.1 ▸ heq.2 ▸ h⟩

theorem eq_zero_iff : n = 0 ↔ n.toNat = 0 := UInt32.toNat_inj.symm

/-- A move down does something else than nothing only if it goes up. -/
theorem down_iff (n : UInt32) (h : v.At x y) (hx : x < vramCols) (hy : y + n.toNat < vramLines) :
    (v.move n .down).At x (y + n.toNat) ↔ n = 0 := by
  have hcolumn : x < 256 := h.1 ▸ v.cx.toNat_lt
  rw [vramLines] at hy
  rw [eq_zero_iff]
  by_cases hpos : 0 < x ∧ n.toNat < y
  · have hgoes := move_goes (n := n) x (y - n.toNat) h .down
      (by rw [Direction.delta]; omega) (by rw [Direction.delta]; omega) (by omega) hcolumn
      (by rw [vramLines]; omega)
    rw [if_pos hx] at hgoes
    rw [hgoes.iff]
    omega
  · have hstays := move_stays (n := n) h .down (by rw [Direction.delta]; omega)
      (by rw [Direction.delta]; omega) (by rw [Direction.delta]; omega)
    rw [hstays.iff]
    omega

/-- **The moves that are done**, of those whose target is on the screen. -/
theorem move_iff (d : Direction) (n : UInt32) (h : v.At x y) (hto : d.To n.toNat x y x' y')
    (hx' : x' < vramCols) (hy' : y' < vramLines) :
    (v.move n d).At x' y' ↔ n = 0 ∨ d ≠ .down ∧ 0 < x' ∧ 0 < y' := by
  by_cases hdown : d = .down
  · subst hdown
    obtain ⟨rfl, rfl⟩ := hto
    simpa using down_iff n h hx' hy'
  have hx : x < 256 := h.1 ▸ v.cx.toNat_lt
  have hy : y < 256 := h.2 ▸ v.cy.toNat_lt
  have hdelta : (x' : ℤ) = x + (d.delta n.toNat).1 ∧ (y' : ℤ) = y + (d.delta n.toNat).2 := by
    cases d with
    | down => exact absurd rfl hdown
    | up | right | left =>
      obtain ⟨hcolumn, hline⟩ := hto
      simp only [Direction.delta]
      omega
  by_cases hpos : 0 < x' ∧ 0 < y'
  · have hgoes := move_goes x' y' h d hdelta.1 hdelta.2 hpos (by rw [vramCols] at hx'; omega) hy'
    rw [if_pos hx'] at hgoes
    exact iff_of_true hgoes (.inr ⟨hdown, hpos⟩)
  · rw [vramCols] at hx'
    rw [vramLines] at hy'
    have hstays := move_stays (n := n) h d (by omega) (by omega) (by omega)
    rw [hstays.iff, eq_zero_iff, or_iff_left fun hcond => hpos hcond.2]
    cases d with
    | down => exact absurd rfl hdown
    | up | right | left =>
      obtain ⟨hcolumn, hline⟩ := hto
      omega

/-- **The moves up that moves down undo.** -/
theorem up_down_iff (n : UInt32) (h : v.At x y) (hx : x < vramCols) (hy : y < vramLines)
    (hn : n.toNat ≤ y) : ((v.move n .up).move n .down).At x y ↔ n = 0 ∨ x = 0 ∨ n.toNat = y := by
  have hcolumn : x < 256 := h.1 ▸ v.cx.toNat_lt
  rw [vramLines] at hy
  rw [eq_zero_iff]
  by_cases hpos : 0 < x ∧ n.toNat < y
  · have hup := move_goes (n := n) x (y - n.toNat) h .up
      (by rw [Direction.delta]; omega) (by rw [Direction.delta]; omega) (by omega) hcolumn
      (by rw [vramLines]; omega)
    rw [if_pos hx] at hup
    -- The second move goes up, too, or it does nothing.
    have hdown := down_iff n hup hx (by rw [vramLines]; omega)
    rw [Nat.sub_add_cancel hn, eq_zero_iff] at hdown
    rw [hdown]
    omega
  · have hup := move_stays (n := n) h .up (by rw [Direction.delta]; omega)
      (by rw [Direction.delta]; omega) (by rw [Direction.delta]; omega)
    have hdown := move_stays (n := n) hup .down (by rw [Direction.delta]; omega)
      (by rw [Direction.delta]; omega) (by rw [Direction.delta]; omega)
    refine iff_of_true hdown ?_
    omega

/-- **The moves to the left that moves to the right undo.** -/
theorem left_right_iff (n : UInt32) (h : v.At x y) (hx : x < vramCols) (hy : y < vramLines)
    (hn : n.toNat ≤ x) : ((v.move n .left).move n .right).At x y ↔
      n = 0 ∨ y = 0 ∨ n.toNat < x ∨ vramCols ≤ x + n.toNat := by
  rw [vramCols] at hx
  rw [vramLines] at hy
  rw [eq_zero_iff, vramCols]
  by_cases hpos : n.toNat < x ∧ 0 < y
  · have hleft := move_goes (n := n) (x - n.toNat) y h .left
      (by rw [Direction.delta]; omega) (by rw [Direction.delta]; omega) (by omega) (by omega)
      (by rw [vramLines]; omega)
    rw [vramCols, if_pos (by omega)] at hleft
    have hright := move_goes (n := n) x y hleft .right
      (by rw [Direction.delta]; omega) (by rw [Direction.delta]; omega) (by omega) (by omega)
      (by rw [vramLines]; omega)
    rw [vramCols, if_pos hx] at hright
    refine iff_of_true hright ?_
    omega
  · have hleft := move_stays (n := n) h .left (by rw [Direction.delta]; omega)
      (by rw [Direction.delta]; omega) (by rw [Direction.delta]; omega)
    by_cases hline : 0 < y
    · -- The cursor does not go to the first column, but it goes away from it.
      by_cases hzero : n.toNat = 0
      · have hright := move_stays (n := n) hleft .right (by rw [Direction.delta]; omega)
          (by rw [Direction.delta]; omega) (by rw [Direction.delta]; omega)
        exact iff_of_true hright (.inl hzero)
      · have hright := move_goes (n := n) (x + n.toNat) y hleft .right
          (by rw [Direction.delta]; omega) (by rw [Direction.delta]; omega) (by omega) (by omega)
          (by rw [vramLines]; omega)
        rw [vramCols] at hright
        rw [hright.iff]
        split_ifs
        all_goals omega
    · have hright := move_stays (n := n) hleft .right (by rw [Direction.delta]; omega)
        (by rw [Direction.delta]; omega) (by rw [Direction.delta]; omega)
      refine iff_of_true hright ?_
      omega

end Video

end ELuaBrain.Terminal
