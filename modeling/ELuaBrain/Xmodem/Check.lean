import ELuaBrain.System.Remainder
import ELuaBrain.Xmodem.Receive

/-!
# The check of a record

`xmodem_get_record` compares the bytes behind a block with a check sum that it works out bit by bit
in a register of 32 bits. The check sum is the remainder of a division of polynomials, so that a
record that was changed by a short burst of errors is refused.

The bits of block and check sum are in the order in which the loop takes them, the highest one of
each byte first.

## Main definitions

* `sumAccepted` : the check sum is accepted.

## Main results

* `getRecord_eq` : the code in terms of it.
* `check_detects` : the remainder, which blocks are accepted, and that bursts are refused.
-/

namespace ELuaBrain.Xmodem

open Polynomial

/-- The comparisons of `xmodem_get_record` with the two bytes behind a block. -/
def sumAccepted (block : List UInt8) (hi lo : UInt8) : Bool :=
  let chk := wideCrc block &&& 0xFFFF
  hi.toUInt32 = (chk >>> 8) &&& 0xFF ∧ lo.toUInt32 = chk &&& 0xFF

variable {block block' : List UInt8} {hi lo hi' lo' : UInt8}

/-- The code for a record as it comes from the line. -/
theorem getRecord_eq (num first second : UInt8) (h : block.length = packetSize) :
    getRecord num (first :: second :: (block ++ [hi, lo])) =
      (decide (first = num) && decide (second = ~~~num) && sumAccepted block hi lo) := by
  have hblock : ((first :: second :: (block ++ [hi, lo])).drop 2).take packetSize = block := by
    rw [← h]
    exact List.take_left
  have hhi : (first :: second :: (block ++ [hi, lo])).getD 130 0 = hi := by
    change (block ++ [hi, lo]).getD packetSize 0 = hi
    rw [← h, List.getD_append_right _ _ _ _ le_rfl, Nat.sub_self]
    rfl
  have hlo : (first :: second :: (block ++ [hi, lo])).getD 131 0 = lo := by
    change (block ++ [hi, lo]).getD (packetSize + 1) 0 = lo
    rw [← h, List.getD_append_right _ _ _ _ (Nat.le_add_right _ 1), Nat.add_sub_cancel_left]
    rfl
  rw [getRecord, hblock, hhi, hlo, sumAccepted, ← Bool.decide_and, ← Bool.decide_and]
  exact decide_eq_decide.mpr and_assoc.symm

/-- The remainder of the register is the one of the check sum. -/
theorem toNat_wideCrc_and (block : List UInt8) :
    (wideCrc block &&& 0xFFFF).toNat = (crc16 block).toNat := by
  rw [← toUInt16_wideCrc, UInt32.toNat_toUInt16, UInt32.toNat_and]
  exact Nat.and_two_pow_sub_one_eq_mod _ 16

theorem bigEndian_append_pair (block : List UInt8) (hi lo : UInt8) :
    bigEndian (block ++ [hi, lo]) = 2 ^ 16 * bigEndian block + (u16OfBytes lo hi).toNat := by
  have hsplit : block ++ [hi, lo] = block ++ [hi] ++ [lo] := by
    rw [List.append_assoc, List.singleton_append]
  rw [hsplit, bigEndian_concat, bigEndian_concat, toNat_u16OfBytes]
  ring

theorem bigEndian_pair (hi lo : UInt8) : bigEndian [hi, lo] = (u16OfBytes lo hi).toNat := by
  have happend := bigEndian_append_pair [] hi lo
  rwa [List.nil_append, bigEndian_nil, Nat.mul_zero, Nat.zero_add] at happend

theorem sumAccepted_iff : sumAccepted block hi lo = true ↔
    (crc16 block).toNat = (u16OfBytes lo hi).toNat := by
  rw [sumAccepted, decide_eq_true_iff, sum_iff, UInt16.toNat_inj]

/-- **The check of a record.** The loop computes the remainder; a record with the right number is
accepted if and only if the bytes behind its block are that remainder; and of two blocks that differ
by a burst of at most 16 bits, their check sums included, at most one is accepted. -/
theorem check_detects :
    (∀ block, bitPoly (wideCrc block &&& 0xFFFF).toNat =
      (X ^ 16 * bitPoly (bigEndian block)) %ₘ ccitt) ∧
    (∀ block hi lo, sumAccepted block hi lo = true ↔
      bitPoly (bigEndian [hi, lo]) = (X ^ 16 * bitPoly (bigEndian block)) %ₘ ccitt) ∧
    (∀ num first second block hi lo, block.length = packetSize →
      getRecord num (first :: second :: (block ++ [hi, lo])) =
        (decide (first = num) && decide (second = ~~~num) && sumAccepted block hi lo)) ∧
    (∀ block hi lo block' hi' lo', sumAccepted block hi lo = true →
      Burst 16 (bigEndian (block ++ [hi, lo])) (bigEndian (block' ++ [hi', lo'])) →
        sumAccepted block' hi' lo' = false) := by
  refine ⟨fun block => ?_, fun block hi lo => ?_, fun num first second block hi lo => getRecord_eq
    num first second, fun block hi lo block' hi' lo' h hburst => ?_⟩
  · rw [toNat_wideCrc_and, crc16_remainder]
  · rw [sumAccepted_iff, bigEndian_pair, ← crc16_remainder, bitPoly_injective.eq_iff]
    exact eq_comm
  · rw [bigEndian_append_pair, bigEndian_append_pair] at hburst
    refine Bool.eq_false_iff.mpr fun h' => ?_
    exact crc16_burst (u16OfBytes lo hi).toNat_lt (u16OfBytes lo' hi').toNat_lt
      (sumAccepted_iff.mp h) hburst (sumAccepted_iff.mp h')

end ELuaBrain.Xmodem
