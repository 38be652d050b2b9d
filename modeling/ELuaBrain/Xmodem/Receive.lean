import ELuaBrain.System.Bytes
import ELuaBrain.System.Crc

/-!
# The receiver of XMODEM

`xmodem_receive`, as a machine that goes on with each answer of the function that reads from the
line. What it sends and what it stores is given by the steps.

## Main definitions

* `Ram` : how much memory `realloc` can give.
* `Receiver`, `Receiver.step` : the code.
* `ValidRecord` : what a record with a given number is.
* `Carries` : the records that a line carries.

## Main results

* `getRecord_iff` : the check of a record.
* `Carries.append` : what a line carries that goes on.
-/

namespace ELuaBrain.Xmodem

/-! ### The code -/

/-- `XMODEM_INITIAL_BUFFER_SIZE`. -/
def initialBufferSize : UInt32 := 1024

/-- `XMODEM_INCREMENT_AMMOUNT`. -/
def incrementAmount : UInt32 := 512

/-- `XMODEM_RETRY_LIMIT`. -/
def retryLimit : UInt32 := 20

/-- `PXM_ACKET_SIZE`. -/
def packetSize : ℕ := 128

/-- `XM_SOH`. -/
def soh : UInt8 := 0x01

/-- `XM_ACK`. -/
def ack : UInt8 := 0x06

/-- `XM_NAK`. -/
def nak : UInt8 := 0x15

/-- `XM_CAN`. -/
def can : UInt8 := 0x18

/-- `XM_EOT`. -/
def eot : UInt8 := 0x04

/-- The character `C`. -/
def charC : UInt8 := 0x43

/-- `XMODEM_ERROR_REMOTECANCEL`. -/
def errorRemoteCancel : ℤ := -1

/-- `XMODEM_ERROR_RETRYEXCEED`. -/
def errorRetryExceed : ℤ := -3

/-- `XMODEM_ERROR_OUTOFMEM`. -/
def errorOutOfMem : ℤ := -4

/-- The memory that `realloc` takes blocks from. Addresses have 32 bits, and the code and its stack
take up some of them. -/
structure Ram where
  size : ℕ
  lt : size < 2 ^ 32 - 512

/-- What follows when the line has become quiet. -/
inductive After where
  /-- The record in `buf` is valid. -/
  | accept (buf : List UInt8)
  /-- The function returns. -/
  | finish (result : ℤ)
  /-- The other side is told that the transfer is cancelled, and the function returns. -/
  | cancel (result : ℤ)
  deriving DecidableEq

/-- Where the function waits for a character. -/
inductive Pc where
  | wait
  | record (buf : List UInt8)
  | flush (after : After)
  | done (result : ℤ)
  deriving DecidableEq

/-- The variables of `xmodem_receive`, with the block at `*dest` and the number of its bytes. -/
structure Receiver where
  starting : Bool := true
  packnum : UInt8 := 1
  retries : UInt32 := retryLimit
  limit : UInt32 := initialBufferSize
  size : UInt32 := 0
  dest : Memory
  room : ℕ := initialBufferSize.toNat
  pc : Pc := .wait

/-- What a step does: a character that is sent, or a record that is stored. -/
inductive Action where
  | send (c : UInt8)
  | store (buf : List UInt8)
  deriving DecidableEq

/-- What a step depends on: the answer of `xmodem_in_func`, which is a character or a timeout, and
whether `realloc` finds a place. -/
structure Event where
  ch : Option UInt8
  granted : Bool := true
  deriving DecidableEq

/-- The checks of `xmodem_get_record`. -/
def getRecord (blocknum : UInt8) (pbuf : List UInt8) : Bool :=
  let chk := wideCrc ((pbuf.drop 2).take packetSize) &&& 0xFFFF
  pbuf.getD 0 0 = blocknum ∧ pbuf.getD 1 0 = ~~~blocknum ∧
    (pbuf.getD 130 0).toUInt32 = (chk >>> 8) &&& 0xFF ∧ (pbuf.getD 131 0).toUInt32 = chk &&& 0xFF

namespace Receiver

variable (s : Receiver)

/-- The head of the loop. -/
def loop : Receiver × List Action :=
  if s.retries ≠ 0 then
    ({ s with retries := s.retries - 1, pc := .wait }, if s.starting then [.send charC] else [])
  else ({ s with retries := s.retries - 1, pc := .flush (.cancel errorRetryExceed) }, [])

/-- The record is copied into the block. -/
def copy (buf : List UInt8) : Receiver :=
  { s with
    dest := s.dest.overlay s.size.toNat ((buf.drop 2).take packetSize)
    size := s.size + 128 }

/-- The end of the body of the loop: the record is acknowledged and copied. There is no result if it
is copied to a place outside of the block. -/
def consume (buf : List UInt8) : Option (Receiver × List Action) :=
  if s.size.toNat + packetSize ≤ s.room then
    some ((s.copy buf).loop.1, .send ack :: .store buf :: (s.copy buf).loop.2)
  else none

/-- What is done with a valid record. -/
def accept (ram : Ram) (granted : Bool) (buf : List UInt8) : Option (Receiver × List Action) :=
  let s := { s with retries := retryLimit, packnum := s.packnum + 1 }
  if s.size + 128 > s.limit then
    let s := { s with limit := s.limit + incrementAmount }
    if granted ∧ s.limit.toNat ≤ ram.size then { s with room := s.limit.toNat }.consume buf
    else some ({ s with pc := .flush (.cancel errorOutOfMem) }, [])
  else s.consume buf

/-- The function after `xmodem_in_func`. -/
def step (ram : Ram) (e : Event) : Option (Receiver × List Action) :=
  match s.pc, e.ch with
  | .wait, some c =>
      if c = soh then some ({ s with starting := false, pc := .record [] }, [])
      else if c = eot then
        some ({ s with pc := .flush (.finish s.size.toBitVec.toInt) }, [.send ack])
      else if c = can then some ({ s with pc := .flush (.finish errorRemoteCancel) }, [.send ack])
      else some s.loop
  | .wait, none => some s.loop
  | .record buf, some c =>
      if buf.length + 1 < packetSize + 4 then some ({ s with pc := .record (buf ++ [c]) }, [])
      else if getRecord s.packnum (buf ++ [c]) then
        some ({ s with pc := .flush (.accept (buf ++ [c])) }, [])
      else some (s.loop.1, .send nak :: s.loop.2)
  | .record _, none => some (s.loop.1, .send nak :: s.loop.2)
  | .flush _, some _ => some (s, [])
  | .flush (.accept buf), none => s.accept ram e.granted buf
  | .flush (.finish result), none => some ({ s with pc := .done result }, [])
  | .flush (.cancel result), none =>
      some ({ s with pc := .done result }, [.send can, .send can, .send can])
  | .done _, _ => some (s, [])

/-- The call of `xmodem_receive`, up to the first wait. -/
def start (dest : Memory) : Receiver × List Action := loop { dest := dest }

end Receiver

/-- The function with the answers of a sequence of calls of `xmodem_in_func`, and what it has sent
and stored. -/
def run (ram : Ram) : Receiver × List Action → List Event → Option (Receiver × List Action)
  | s, [] => some s
  | (s, acts), e :: es =>
      match s.step ram e with
      | some (s', acts') => run ram (s', acts ++ acts') es
      | none => none

/-! ### Records -/

/-- The bytes of the file in a record. -/
def payload (record : List UInt8) : List UInt8 := (record.drop 2).take packetSize

/-- A record with the number `num`, its complement, and the check sum of what it carries. -/
structure ValidRecord (num : UInt8) (record : List UInt8) : Prop where
  length : record.length = 132
  number : record.getD 0 0 = num
  complement : record.getD 1 0 = ~~~num
  sum : crc16 (payload record) = u16OfBytes (record.getD 131 0) (record.getD 130 0)

/-- The records that are stored, in order. -/
def stored (acts : List Action) : List (List UInt8) :=
  acts.filterMap fun
    | .store buf => some buf
    | .send _ => none

/-- A line carries these records in order, each behind a `SOH`. -/
inductive Carries : List (Option UInt8) → List (List UInt8) → Prop
  | nil : Carries [] []
  | other {line : List (Option UInt8)} {records : List (List UInt8)} (h : Carries line records)
      (ch : Option UInt8) : Carries (line ++ [ch]) records
  | record {line : List (Option UInt8)} {records : List (List UInt8)} (h : Carries line records)
      (buf : List UInt8) : Carries (line ++ some soh :: buf.map some) (records ++ [buf])

/-! ### The check of a record -/

/-- The bytes of a check sum, compared in the wider register. -/
theorem sum_iff (bs : List UInt8) (hi lo : UInt8) :
    hi.toUInt32 = ((wideCrc bs &&& 0xFFFF) >>> 8) &&& 0xFF ∧
        lo.toUInt32 = (wideCrc bs &&& 0xFFFF) &&& 0xFF ↔
      crc16 bs = u16OfBytes lo hi := by
  have hhi := hi.toNat_lt
  have hlo := lo.toNat_lt
  have hcrc := (crc16 bs).toNat_lt
  have hand8 (x : ℕ) : x &&& 255 = x % 256 := Nat.and_two_pow_sub_one_eq_mod x 8
  have hand16 (x : ℕ) : x &&& 65535 = x % 65536 := Nat.and_two_pow_sub_one_eq_mod x 16
  have hwide : (wideCrc bs).toNat % 65536 = (crc16 bs).toNat := by
    rw [← toUInt16_wideCrc, UInt32.toNat_toUInt16]
  rw [← UInt16.toNat_inj, toNat_u16OfBytes, ← UInt32.toNat_inj, ← UInt32.toNat_inj]
  simp [hand8, hand16, hwide, Nat.shiftRight_eq_div_pow]
  omega

theorem getRecord_iff {num : UInt8} {record : List UInt8} (hlength : record.length = 132) :
    getRecord num record = true ↔ ValidRecord num record := by
  have hsum := sum_iff (payload record) (record.getD 130 0) (record.getD 131 0)
  rw [getRecord, decide_eq_true_iff]
  constructor
  · rintro ⟨hnumber, hcomplement, hbytes⟩
    exact ⟨hlength, hnumber, hcomplement, hsum.mp hbytes⟩
  · rintro ⟨-, hnumber, hcomplement, hbytes⟩
    exact ⟨hnumber, hcomplement, hsum.mpr hbytes⟩

/-! ### Lines -/

variable {line gap : List (Option UInt8)} {records : List (List UInt8)}

/-- A line that goes on carries what it has carried. -/
theorem Carries.append (h : Carries line records) (gap : List (Option UInt8)) :
    Carries (line ++ gap) records := by
  induction gap generalizing line with
  | nil => rwa [List.append_nil]
  | cons ch gap ih =>
    have hmore := ih (h.other ch)
    rwa [List.append_assoc, List.singleton_append] at hmore

@[simp] theorem stored_nil : stored [] = [] := rfl

@[simp] theorem stored_append (acts acts' : List Action) :
    stored (acts ++ acts') = stored acts ++ stored acts' := List.filterMap_append ..

@[simp] theorem stored_send (c : UInt8) (acts : List Action) :
    stored (.send c :: acts) = stored acts := rfl

@[simp] theorem stored_store (buf : List UInt8) (acts : List Action) :
    stored (.store buf :: acts) = buf :: stored acts := rfl

end ELuaBrain.Xmodem
