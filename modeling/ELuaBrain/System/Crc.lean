import Mathlib.Data.UInt
import Mathlib.Data.List.Basic
import Mathlib.Logic.Function.Iterate

/-!
# A check sum of 16 bits

The CRC with the polynomial `x^16 + x^12 + x^5 + 1`, bit by bit, and its computation in a wider
register from which nothing is cut before the end.

## Main definitions

* `crc16` : the check sum.
* `wideCrc` : the computation with 32 bits.

## Main results

* `toUInt16_wideCrc` : the lower half of the wider register is the check sum.
-/

namespace ELuaBrain

/-- The register after one bit. -/
def crcBit (c : UInt16) : UInt16 := if c &&& 0x8000 ≠ 0 then c <<< 1 ^^^ 0x1021 else c <<< 1

/-- The register after one byte. -/
def crcByte (c : UInt16) (b : UInt8) : UInt16 := crcBit^[8] (c ^^^ b.toUInt16 <<< 8)

/-- The check sum of some bytes. -/
def crc16 (bs : List UInt8) : UInt16 := bs.foldl crcByte 0

/-- The register of 32 bits after one bit. -/
def wideBit (c : UInt32) : UInt32 := if c &&& 0x8000 ≠ 0 then c <<< 1 ^^^ 0x1021 else c <<< 1

/-- The register of 32 bits after one byte. -/
def wideByte (c : UInt32) (b : UInt8) : UInt32 := wideBit^[8] (c ^^^ b.toUInt32 <<< 8)

/-- The register of 32 bits after some bytes. -/
def wideCrc (bs : List UInt8) : UInt32 := bs.foldl wideByte 0

variable {c : UInt32} {b : UInt8} {bs : List UInt8}

theorem toUInt16_wideBit (c : UInt32) : (wideBit c).toUInt16 = crcBit c.toUInt16 := by
  have hle : (c &&& 0x8000).toNat ≤ 0x8000 := by
    rw [UInt32.toNat_and]
    exact Nat.and_le_right
  have hbit : c &&& 0x8000 = 0 ↔ c.toUInt16 &&& 0x8000 = 0 := by
    have hcut : c.toUInt16 &&& 0x8000 = (c &&& 0x8000).toUInt16 := by simp
    rw [hcut, ← UInt32.toNat_inj, ← UInt16.toNat_inj, UInt32.toNat_toUInt16,
      Nat.mod_eq_of_lt (by omega)]
    rfl
  unfold wideBit crcBit
  simp only [ne_eq, hbit]
  split_ifs <;> simp

theorem toUInt16_wideByte (c : UInt32) (b : UInt8) :
    (wideByte c b).toUInt16 = crcByte c.toUInt16 b := by
  have hiterate := Function.Semiconj.iterate_right (f := UInt32.toUInt16) toUInt16_wideBit 8
  have hfirst : (c ^^^ b.toUInt32 <<< 8).toUInt16 = c.toUInt16 ^^^ b.toUInt16 <<< 8 := by
    simp
  rw [wideByte, crcByte, ← hfirst]
  exact hiterate _

/-- **The check sum in a wider register.** -/
theorem toUInt16_wideCrc (bs : List UInt8) : (wideCrc bs).toUInt16 = crc16 bs := by
  have hfold : ∀ c : UInt32, (bs.foldl wideByte c).toUInt16 = bs.foldl crcByte c.toUInt16 := by
    induction bs with
    | nil => exact fun _ => rfl
    | cons b bs ih =>
      intro c
      rw [List.foldl_cons, List.foldl_cons, ih, toUInt16_wideByte]
  exact hfold 0

end ELuaBrain
