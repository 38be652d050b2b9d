import ELuaBrain.System.Reach

/-!
# The serial multiplexer protocol

Constants of `inc/sermux.h` and the bytes that both endpoints put on the serial line. A service ID
byte announces the service of the bytes that follow; a data byte that is one of the protocol's
own bytes is sent as the escape character followed by the byte with its sixth bit flipped; a
forced service ID request asks the peer to repeat its service ID and its last data byte.

## Main definitions

* `isServiceId`, `isSpecial` : the bytes with a meaning of their own on the line.
* `Tx` : what an endpoint sends, one constructor for each kind of call.
* `LastSent` : the last data byte, as both endpoints remember it.
* `sendTx` : how an endpoint sends a byte of a service.

## Main results

* `not_isSpecial_xor` : a flipped special byte is not special, so the receiver never mistakes it.
-/

namespace ELuaBrain.Sermux

/-- `SERMUX_SERVICE_ID_FIRST`. -/
def sermuxServiceIdFirst : ℕ := 0xD0

/-- `SERMUX_SERVICE_ID_LAST`. -/
def sermuxServiceIdLast : ℕ := 0xD7

/-- `SERMUX_SERVICE_MAX`. -/
def sermuxServiceMax : ℕ := sermuxServiceIdLast - sermuxServiceIdFirst + 1

/-- `SERMUX_ESCAPE_CHAR`. -/
def sermuxEscapeChar : UInt8 := 0xC0

/-- `SERMUX_FORCE_SID_CHAR`. -/
def sermuxForceSidChar : UInt8 := 0xFF

/-- `SERMUX_ESCAPE_XOR_MASK`. -/
def sermuxEscapeXorMask : UInt8 := 0x20

/-- A byte in the range of the service IDs. -/
def isServiceId (c : UInt8) : Bool :=
  sermuxServiceIdFirst ≤ c.toNat && c.toNat ≤ sermuxServiceIdLast

/-- A byte that has to be escaped when it is data. -/
def isSpecial (c : UInt8) : Bool :=
  c == sermuxEscapeChar || c == sermuxForceSidChar || isServiceId c

/-- What an endpoint sends on the line, one constructor for each kind of call. -/
inductive Tx where
  | serviceId (id : ℕ)
  | escape
  | data (c : UInt8)
  | forceSid
  deriving DecidableEq, Repr

/-- The byte of a call; a service ID is an `int` that the send function truncates to `u8`. -/
def Tx.byte : Tx → UInt8
  | serviceId id => UInt8.ofNat id
  | escape => sermuxEscapeChar
  | data c => c
  | forceSid => sermuxForceSidChar

/-- The last data byte sent (`prev_sent`, `uart_last_sent`): the byte on the line in the low eight
bits, and whether the bit `SERMUX_ESC_MASK` says that it followed an escape character. -/
structure LastSent where
  escaped : Bool
  byte : UInt8
  deriving DecidableEq, Repr

/-- The calls that send, or repeat, a remembered data byte. -/
def LastSent.tx (p : LastSent) : List Tx :=
  if p.escaped then [.escape, .data p.byte] else [.data p.byte]

/-- How a data byte is sent and remembered: escaped when it is special. -/
def lastSentOf (c : UInt8) : LastSent :=
  if isSpecial c then ⟨true, c ^^^ sermuxEscapeXorMask⟩ else ⟨false, c⟩

/-- The calls that send a byte of the service `id` after `idOut`. -/
def sendTx (idOut : Option ℕ) (id : ℕ) (c : UInt8) : List Tx :=
  (if some id ≠ idOut then [.serviceId id] else []) ++ (lastSentOf c).tx

@[simp] theorem tx_byte_serviceId (id : ℕ) : (Tx.serviceId id).byte = UInt8.ofNat id := rfl

@[simp] theorem tx_byte_escape : Tx.escape.byte = sermuxEscapeChar := rfl

@[simp] theorem tx_byte_data (c : UInt8) : (Tx.data c).byte = c := rfl

@[simp] theorem tx_byte_forceSid : Tx.forceSid.byte = sermuxForceSidChar := rfl

theorem sermuxServiceIdLast_eq :
    sermuxServiceIdLast + 1 = sermuxServiceIdFirst + sermuxServiceMax := rfl

/-! ### The special bytes -/

@[simp] theorem xor_mask_xor_mask (c : UInt8) :
    c ^^^ sermuxEscapeXorMask ^^^ sermuxEscapeXorMask = c := by
  rcases c with ⟨c⟩
  revert c
  decide +kernel

/-- **Escaping is unambiguous.** A flipped special byte is no special byte. -/
theorem not_isSpecial_xor {c : UInt8} (hc : isSpecial c = true) :
    isSpecial (c ^^^ sermuxEscapeXorMask) = false := by
  rcases c with ⟨c⟩
  revert c
  decide +kernel

theorem isSpecial_eq_false_iff {c : UInt8} : isSpecial c = false ↔
    c ≠ sermuxEscapeChar ∧ c ≠ sermuxForceSidChar ∧ isServiceId c = false := by
  simp [isSpecial, and_assoc]

/-- The byte on the line of a data byte, escaped or not, is no special byte. -/
theorem not_isSpecial_lastSentOf (c : UInt8) : isSpecial (lastSentOf c).byte = false := by
  by_cases hc : isSpecial c = true
  · simpa [lastSentOf, hc] using not_isSpecial_xor hc
  · simp [lastSentOf, hc]

/-- A service ID byte on the line is read back as the ID it was sent for. -/
theorem toNat_ofNat_serviceId {id : ℕ} (h : id ≤ sermuxServiceIdLast) :
    (UInt8.ofNat id).toNat = id := by
  have hlast : sermuxServiceIdLast = 0xD7 := rfl
  rw [UInt8.toNat_ofNat']
  omega

theorem isServiceId_ofNat {id : ℕ} (h₁ : sermuxServiceIdFirst ≤ id)
    (h₂ : id ≤ sermuxServiceIdLast) : isServiceId (UInt8.ofNat id) = true := by
  simp [isServiceId, toNat_ofNat_serviceId h₂, h₁, h₂]

theorem ne_escapeChar_of_isServiceId {c : UInt8} (h : isServiceId c = true) :
    c ≠ sermuxEscapeChar := by
  rintro rfl
  exact absurd h (by decide)

theorem ne_forceSidChar_of_isServiceId {c : UInt8} (h : isServiceId c = true) :
    c ≠ sermuxForceSidChar := by
  rintro rfl
  exact absurd h (by decide)

end ELuaBrain.Sermux
