import Mathlib.Data.Nat.Bitwise
import Mathlib.Data.List.Basic
import Mathlib.Data.UInt

/-!
# Bytes in memory

A memory as the byte at each address, what is in a part of it, and what is in it after bytes were
written. The words of 16 and 32 bits have their bytes in little-endian order.

## Main definitions

* `Memory.slice`, `Memory.overlay` : the bytes in a part, and a memory with bytes written to it.
* `Memory.ofBytes` : a memory with given bytes.
* `u16Bytes`, `u32Bytes`, `u16OfBytes`, `u32OfBytes` : words and their bytes.

## Main results

* `Memory.slice_overlay`, `Memory.overlay_overlay` : what was written can be read, and writing on.
* `u32OfBytes_eq_iff` : a word has the bytes that make it up.
-/

namespace ELuaBrain

/-- The byte at each address. -/
abbrev Memory := ℕ → UInt8

namespace Memory

variable {m : Memory} {p q n k : ℕ} {bs cs : List UInt8}

/-- The `n` bytes from `p` on. -/
def slice (m : Memory) (p n : ℕ) : List UInt8 := (List.range n).map fun i => m (p + i)

/-- The memory with `bs` written to `p`. -/
def overlay (m : Memory) (p : ℕ) (bs : List UInt8) : Memory :=
  fun a => if p ≤ a then bs.getD (a - p) (m a) else m a

@[simp] theorem length_slice : (m.slice p n).length = n := by
  rw [slice, List.length_map, List.length_range]

@[simp] theorem slice_zero : m.slice p 0 = [] := rfl

theorem slice_succ : m.slice p (n + 1) = m p :: m.slice (p + 1) n := by
  rw [slice, List.range_succ_eq_map, List.map_cons, List.map_map, Nat.add_zero]
  simp only [slice, Function.comp_def, Nat.succ_eq_add_one, Nat.add_assoc, Nat.add_comm 1]

theorem slice_add : m.slice p (n + k) = m.slice p n ++ m.slice (p + n) k := by
  rw [slice, List.range_add, List.map_append, List.map_map]
  simp only [slice, Function.comp_def, Nat.add_assoc]

theorem getElem?_slice (h : k < n) : (m.slice p n)[k]? = some (m (p + k)) := by
  rw [slice, List.getElem?_map, List.getElem?_range h, Option.map_some]

theorem slice_congr {m' : Memory} (h : ∀ i < n, m (p + i) = m' (q + i)) :
    m.slice p n = m'.slice q n := by
  rw [slice, slice]
  exact List.map_congr_left fun i hi => h i (List.mem_range.mp hi)

theorem overlay_of_lt (h : k < p) : m.overlay p bs k = m k := if_neg (Nat.not_le.mpr h)

theorem overlay_of_le (h : p + bs.length ≤ k) : m.overlay p bs k = m k := by
  rw [overlay, if_pos (Nat.le_trans (Nat.le_add_right _ _) h)]
  exact List.getD_eq_default _ _ (Nat.le_sub_of_add_le' h)

theorem overlay_add (h : k < bs.length) : m.overlay p bs (p + k) = bs[k] := by
  rw [overlay, if_pos (Nat.le_add_right _ _), Nat.add_sub_cancel_left]
  exact List.getD_eq_getElem _ _ h

@[simp] theorem overlay_nil : m.overlay p [] = m := by
  funext a
  rw [overlay]
  split_ifs <;> rfl

/-- What was written can be read. -/
@[simp] theorem slice_overlay : (m.overlay p bs).slice p bs.length = bs := by
  refine List.ext_getElem? fun k => ?_
  rcases Nat.lt_or_ge k bs.length with hlt | hge
  · rw [getElem?_slice hlt, overlay_add hlt, List.getElem?_eq_getElem hlt]
  · rw [List.getElem?_eq_none (by rw [length_slice]; exact hge), List.getElem?_eq_none hge]

/-- What is before or behind the bytes that are written is left alone. -/
theorem slice_overlay_of_disjoint (h : q + n ≤ p ∨ p + bs.length ≤ q) :
    (m.overlay p bs).slice q n = m.slice q n := by
  refine slice_congr fun i hi => ?_
  rcases h with h | h
  · exact overlay_of_lt (by omega)
  · exact overlay_of_le (by omega)

/-- Writing on behind what was written. -/
theorem overlay_overlay : (m.overlay p bs).overlay (p + bs.length) cs = m.overlay p (bs ++ cs) := by
  funext a
  rcases Nat.lt_or_ge a p with hlt | hge
  · rw [overlay_of_lt (by omega), overlay_of_lt hlt, overlay_of_lt hlt]
  · obtain ⟨k, rfl⟩ := Nat.exists_eq_add_of_le hge
    rcases Nat.lt_or_ge k bs.length with hk | hk
    · rw [overlay_of_lt (by omega), overlay_add hk, overlay_add (by rw [List.length_append]; omega),
        List.getElem_append_left hk]
    · obtain ⟨j, rfl⟩ := Nat.exists_eq_add_of_le hk
      rw [← Nat.add_assoc]
      rcases Nat.lt_or_ge j cs.length with hj | hj
      · rw [overlay_add hj, Nat.add_assoc, overlay_add (by rw [List.length_append]; omega),
          List.getElem_append_right (Nat.le_add_right _ _)]
        simp only [Nat.add_sub_cancel_left]
      · rw [overlay_of_le (by omega), overlay_of_le (by omega),
          overlay_of_le (by rw [List.length_append]; omega)]

/-- Writing in front of what was written. -/
theorem overlay_overlay_front : (m.overlay (p + bs.length) cs).overlay p bs =
    m.overlay p (bs ++ cs) := by
  rw [← overlay_overlay]
  funext a
  rcases Nat.lt_or_ge a (p + bs.length) with hlt | hge
  · rw [overlay_of_lt hlt]
    rcases Nat.lt_or_ge a p with ha | ha
    · rw [overlay_of_lt ha, overlay_of_lt ha, overlay_of_lt hlt]
    · obtain ⟨k, rfl⟩ := Nat.exists_eq_add_of_le ha
      rw [overlay_add (by omega), overlay_add (by omega)]
  · rw [overlay_of_le hge, overlay, overlay, if_pos hge, if_pos hge, overlay_of_le hge]

theorem overlay_slice : m.overlay p (m.slice p n) = m := by
  funext a
  rcases Nat.lt_or_ge a p with hlt | hge
  · exact overlay_of_lt hlt
  · obtain ⟨k, rfl⟩ := Nat.exists_eq_add_of_le hge
    rcases Nat.lt_or_ge k n with hk | hk
    · rw [overlay_add (by rw [length_slice]; exact hk)]
      exact Option.some.inj ((List.getElem?_eq_getElem _).symm.trans (getElem?_slice hk))
    · exact overlay_of_le (by rw [length_slice]; omega)

/-- A memory with the given bytes at its start. -/
def ofBytes (bs : List UInt8) : Memory := fun k => bs.getD k 0

@[simp] theorem slice_ofBytes : (ofBytes bs).slice 0 bs.length = bs := by
  refine List.ext_getElem? fun k => ?_
  rcases Nat.lt_or_ge k bs.length with hlt | hge
  · rw [getElem?_slice hlt, Nat.zero_add, ofBytes, List.getD_eq_getElem _ _ hlt,
      List.getElem?_eq_getElem hlt]
  · rw [List.getElem?_eq_none (by rwa [length_slice]), List.getElem?_eq_none hge]

end Memory

/-! ### Words -/

/-- The bytes of a word of 16 bits. -/
def u16Bytes (x : UInt16) : List UInt8 := [(x &&& 0xFF).toUInt8, ((x >>> 8) &&& 0xFF).toUInt8]

/-- The bytes of a word of 32 bits. -/
def u32Bytes (x : UInt32) : List UInt8 :=
  [(x &&& 0xFF).toUInt8, ((x >>> 8) &&& 0xFF).toUInt8, ((x >>> 16) &&& 0xFF).toUInt8,
    ((x >>> 24) &&& 0xFF).toUInt8]

/-- The word of 16 bits with these bytes. -/
def u16OfBytes (a b : UInt8) : UInt16 := a.toUInt16 ||| b.toUInt16 <<< 8

/-- The word of 32 bits with these bytes. -/
def u32OfBytes (a b c d : UInt8) : UInt32 :=
  a.toUInt32 ||| b.toUInt32 <<< 8 ||| c.toUInt32 <<< 16 ||| d.toUInt32 <<< 24

@[simp] theorem length_u16Bytes (x : UInt16) : (u16Bytes x).length = 2 := rfl

@[simp] theorem length_u32Bytes (x : UInt32) : (u32Bytes x).length = 4 := rfl

theorem toNat_u16OfBytes (a b : UInt8) : (u16OfBytes a b).toNat = a.toNat + 256 * b.toNat := by
  have ha := a.toNat_lt
  have hb := b.toNat_lt
  have hor : b.toNat <<< 8 + a.toNat = b.toNat <<< 8 ||| a.toNat :=
    Nat.shiftLeft_add_eq_or_of_lt ha _
  rw [Nat.shiftLeft_eq] at hor
  have h8 : UInt16.toNat 8 % 16 = 8 := rfl
  simp only [u16OfBytes, UInt16.toNat_or, UInt16.toNat_shiftLeft, UInt8.toNat_toUInt16, h8,
    Nat.shiftLeft_eq]
  rw [Nat.mod_eq_of_lt (by omega), Nat.or_comm, ← hor]
  omega

theorem toNat_u32OfBytes (a b c d : UInt8) :
    (u32OfBytes a b c d).toNat =
      a.toNat + 256 * b.toNat + 65536 * c.toNat + 16777216 * d.toNat := by
  have ha := a.toNat_lt
  have hb := b.toNat_lt
  have hc := c.toNat_lt
  have hd := d.toNat_lt
  have hor : ∀ {i x y : ℕ}, x < 2 ^ i → x ||| y * 2 ^ i = x + y * 2 ^ i := by
    intro i x y hx
    rw [Nat.or_comm, ← Nat.shiftLeft_eq, ← Nat.shiftLeft_add_eq_or_of_lt hx, Nat.add_comm]
  have h8 : UInt32.toNat 8 % 32 = 8 := rfl
  have h16 : UInt32.toNat 16 % 32 = 16 := rfl
  have h24 : UInt32.toNat 24 % 32 = 24 := rfl
  simp only [u32OfBytes, UInt32.toNat_or, UInt32.toNat_shiftLeft, UInt8.toNat_toUInt32, h8, h16,
    h24, Nat.shiftLeft_eq]
  rw [Nat.mod_eq_of_lt (by omega), Nat.mod_eq_of_lt (by omega), Nat.mod_eq_of_lt (by omega),
    hor (i := 8) ha, hor (i := 16) (by omega), hor (i := 24) (by omega)]
  omega

/-- A word has the two bytes that make it up, and no others. -/
theorem u16OfBytes_eq_iff {a b : UInt8} {x : UInt16} :
    u16OfBytes a b = x ↔ [a, b] = u16Bytes x := by
  have hx := x.toNat_lt
  have ha := a.toNat_lt
  have hb := b.toNat_lt
  have hand : ∀ y : ℕ, y &&& 255 = y % 256 := fun y => Nat.and_two_pow_sub_one_eq_mod y 8
  have h8 : UInt16.toNat 8 % 16 = 8 := rfl
  have h255 : UInt16.toNat 0xFF = 255 := rfl
  simp only [u16Bytes, List.cons.injEq, and_true, ← UInt16.toNat_inj, ← UInt8.toNat_inj,
    toNat_u16OfBytes, UInt16.toNat_toUInt8, UInt16.toNat_and, UInt16.toNat_shiftRight, h8, h255,
    Nat.shiftRight_eq_div_pow, hand]
  omega

/-- A word has the four bytes that make it up, and no others. -/
theorem u32OfBytes_eq_iff {a b c d : UInt8} {x : UInt32} :
    u32OfBytes a b c d = x ↔ [a, b, c, d] = u32Bytes x := by
  have hx := x.toNat_lt
  have ha := a.toNat_lt
  have hb := b.toNat_lt
  have hc := c.toNat_lt
  have hd := d.toNat_lt
  have hand : ∀ y : ℕ, y &&& 255 = y % 256 := fun y => Nat.and_two_pow_sub_one_eq_mod y 8
  have h8 : UInt32.toNat 8 % 32 = 8 := rfl
  have h16 : UInt32.toNat 16 % 32 = 16 := rfl
  have h24 : UInt32.toNat 24 % 32 = 24 := rfl
  have h255 : UInt32.toNat 0xFF = 255 := rfl
  simp only [u32Bytes, List.cons.injEq, and_true, ← UInt32.toNat_inj, ← UInt8.toNat_inj,
    toNat_u32OfBytes, UInt32.toNat_toUInt8, UInt32.toNat_and, UInt32.toNat_shiftRight, h8, h16, h24,
    h255, Nat.shiftRight_eq_div_pow, hand]
  omega

end ELuaBrain
