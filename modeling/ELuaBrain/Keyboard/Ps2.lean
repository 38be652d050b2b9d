import Mathlib.Data.List.Basic

/-!
# The PS/2 keyboard decoder

The interrupt handler of `src/ps2.c`, from the byte that it has put together on, and
`ps2_get_rawkey`. Key codes go through a queue that the handler writes and the reader reads. A byte
that comes while an acknowledgement is awaited is taken for one.

What `isalpha` and `toupper` make of a code above 255 is a parameter.

## Main definitions

* `Ps2` : the static variables.
* `Ps2.byte` : the handler. It does not return when the board is reset.
* `Ps2.fetch`, `Ps2.advance` : the reader, between which the handler can run.
-/

namespace ELuaBrain.Keyboard

/-! ### Key codes -/

/-- The key codes of `term.h` that the keyboard has. -/
def kcUp : UInt16 := 256
def kcDown : UInt16 := 257
def kcLeft : UInt16 := 258
def kcRight : UInt16 := 259
def kcHome : UInt16 := 260
def kcEnd : UInt16 := 261
def kcPageup : UInt16 := 262
def kcPagedown : UInt16 := 263
def kcDel : UInt16 := 279
def kcF1 : UInt16 := 280
def kcF2 : UInt16 := 281
def kcF3 : UInt16 := 282
def kcF4 : UInt16 := 283
def kcF5 : UInt16 := 284
def kcF6 : UInt16 := 285
def kcF7 : UInt16 := 286
def kcF8 : UInt16 := 287
def kcF9 : UInt16 := 288
def kcF10 : UInt16 := 289
def kcF11 : UInt16 := 290
def kcF12 : UInt16 := 291
def kcInsert : UInt16 := 295

/-- `ps2_direct_mapping`. -/
def ps2DirectMapping : List UInt16 := [
  0, kcF9, 0, kcF5, kcF3, kcF1, kcF2, kcF12, 0, kcF10, kcF8, kcF6, kcF4, 0x09, 0x60, 0,
  0, 0, 0, 0, 0, 0x71, 0x31, 0, 0, 0, 0x7A, 0x73, 0x61, 0x77, 0x32, 0,
  0, 0x63, 0x78, 0x64, 0x65, 0x34, 0x33, 0, 0, 0x20, 0x76, 0x66, 0x74, 0x72, 0x35, 0,
  0, 0x6E, 0x62, 0x68, 0x67, 0x79, 0x36, 0, 0, 0, 0x6D, 0x6A, 0x75, 0x37, 0x38, 0,
  0, 0x2C, 0x6B, 0x69, 0x6F, 0x30, 0x39, 0, 0, 0x2E, 0x2F, 0x6C, 0x3B, 0x70, 0x2D, 0,
  0, 0, 0x27, 0, 0x5B, 0x3D, 0, 0, 0, 0, 0x0A, 0x5D, 0, 0x5C, 0, 0,
  0, 0, 0, 0, 0, 0, 0x08, 0, 0, 0x31, 0, 0x34, 0x37, 0, 0, 0,
  0x30, 0x2E, 0x32, 0x35, 0x36, 0x38, 0x1B, 0, kcF11, 0x2B, 0x33, 0x2D, 0x2A, 0x39, 0, 0]

/-- `ps2_shift_mapping`. -/
def ps2ShiftMapping : List UInt16 := [
  0, kcF9, 0, kcF5, kcF3, kcF1, kcF2, kcF12, 0, kcF10, kcF8, kcF6, kcF4, 0x09, 0x7E, 0,
  0, 0, 0, 0, 0, 0x51, 0x21, 0, 0, 0, 0x5A, 0x53, 0x41, 0x57, 0x40, 0,
  0, 0x43, 0x58, 0x44, 0x45, 0x24, 0x23, 0, 0, 0x20, 0x56, 0x46, 0x54, 0x52, 0x25, 0,
  0, 0x4E, 0x42, 0x48, 0x47, 0x59, 0x5E, 0, 0, 0, 0x4D, 0x4A, 0x55, 0x26, 0x2A, 0,
  0, 0x3C, 0x4B, 0x49, 0x4F, 0x29, 0x28, 0, 0, 0x3E, 0x3F, 0x4C, 0x3A, 0x50, 0x5F, 0,
  0, 0, 0x22, 0, 0x7B, 0x2B, 0, 0, 0, 0, 0x0A, 0x7D, 0, 0x7C, 0, 0,
  0, 0, 0, 0, 0, 0, 0x08, 0, 0, 0x31, 0, 0x34, 0x37, 0, 0, 0,
  0x30, 0x2E, 0x32, 0x35, 0x36, 0x38, 0x1B, 0, kcF11, 0x2B, 0x33, 0x2D, 0x2A, 0x39, 0, 0]

/-- `ps2_ext_mapping`. -/
def ps2ExtMapping : List (UInt8 × UInt16) := [(0x75, kcUp), (0x72, kcDown), (0x6B, kcLeft),
  (0x74, kcRight), (0x6C, kcHome), (0x69, kcEnd), (0x7D, kcPageup), (0x7A, kcPagedown),
  (0x71, kcDel), (0x70, kcInsert), (0x5A, 10), (0x4A, 0x2F)]

/-- `PS2_EXTENDED_CODE`, `PS2_BREAK_CODE`, `PS2_PAUSE_1ST_CODE`, `PS2_CTRL_CODE`, `PS2_ALT_CODE`,
`PS2_LSHIFT_CODE`, `PS2_RSHIFT_CODE`, `PS2_LAST_MAP_CODE`, `PS2_F7_CODE` and `PS2_CAPS_CODE`. -/
def ps2ExtendedCode : UInt8 := 0xE0
def ps2BreakCode : UInt8 := 0xF0
def ps2Pause1stCode : UInt8 := 0xE1
def ps2CtrlCode : UInt8 := 0x14
def ps2AltCode : UInt8 := 0x11
def ps2LshiftCode : UInt8 := 0x12
def ps2RshiftCode : UInt8 := 0x59
def ps2LastMapCode : UInt8 := 0x7F
def ps2F7Code : UInt8 := 0x83
def ps2CapsCode : UInt8 := 0x58

/-- `PS2_CMD_LED_SET`, `PS2_CMD_TYPE_RATE`, `PS2_CMD_RESET` and `PS2_CAPS_LED_MASK`. -/
def ps2CmdLedSet : UInt8 := 0xED
def ps2CmdTypeRate : UInt8 := 0xF3
def ps2CmdReset : UInt8 := 0xFF
def ps2CapsLedMask : UInt8 := 0x04

/-- `PS2_PAUSE_NUM_CODES`. -/
def ps2PauseNumCodes : UInt8 := 8

/-! ### The decoder -/

/-- The bits of `ps2_flags`: `PS2_SHIFT`, `PS2_CTRL` and `PS2_ALT`, and those of `PS2_IF_...`. -/
structure Flags where
  shift : Bool := false
  ctrl : Bool := false
  alt : Bool := false
  extended : Bool := false
  isBreak : Bool := false
  extCtrl : Bool := false
  extAlt : Bool := false
  ifCtrl : Bool := false
  ifAlt : Bool := false
  lshift : Bool := false
  rshift : Bool := false
  caps : Bool := false
  deriving DecidableEq

/-- `( ps2_flags & PS2_BASEF_MASK ) << PS2_BASEF_SHIFT`. -/
def baseFlags (shift ctrl alt : Bool) : UInt16 :=
  let bit (b : Bool) (mask : UInt16) : UInt16 := if b then mask else 0
  (bit shift 1 ||| bit ctrl 2 ||| bit alt 4) <<< 13

/-- The static variables. The commands that are sent are kept with the acknowledgements that they
get. -/
structure Ps2 where
  flags : Flags := {}
  rIdx : UInt8 := 0
  wIdx : UInt8 := 0
  queue : UInt8 → UInt16 := fun _ => 0
  ignoreCount : UInt8 := 0
  sendBuffer : List (UInt8 × UInt8) := []
  cmdsToSend : UInt8 := 0
  sendIdx : UInt8 := 0
  acksToReceive : UInt8 := 0

namespace Ps2

variable (s : Ps2)

/-- `ps2h_send_cmd`. -/
def sendCmd (idx : UInt8) : Ps2 :=
  { s with acksToReceive := (s.sendBuffer.getD idx.toNat (0, 0)).2 }

/-- `ps2_send`. -/
def send (cmds : List (UInt8 × UInt8)) : Ps2 :=
  { s with
    sendBuffer := cmds
    cmdsToSend := UInt8.ofNat cmds.length
    sendIdx := 0
    acksToReceive := 0 }.sendCmd 0

/-- A key goes into the queue. -/
def enqueue (key : UInt16) : Ps2 :=
  { s with queue := Function.update s.queue s.wIdx key, wIdx := s.wIdx + 1 }

/-- The flags change. -/
def setFlags (f : Flags → Flags) : Ps2 := { s with flags := f s.flags }

/-- An acknowledgement. -/
def acknowledge : Ps2 :=
  let s := { s with acksToReceive := s.acksToReceive - 1 }
  if s.acksToReceive = 0 then
    let s := { s with cmdsToSend := s.cmdsToSend - 1 }
    if s.cmdsToSend ≠ 0 then { s with sendIdx := s.sendIdx + 1 }.sendCmd (s.sendIdx + 1) else s
  else s

/-- The code of an extended key that was released. -/
def extRelease (data : UInt8) : Ps2 :=
  let s :=
    if data = ps2CtrlCode then
      s.setFlags fun f => { f with extCtrl := false, ctrl := f.ctrl && f.ifCtrl }
    else if data = ps2AltCode then
      s.setFlags fun f => { f with extAlt := false, alt := f.alt && f.ifAlt }
    else s
  s.setFlags fun f => { f with isBreak := false, extended := false }

/-- The code of an extended key that was pressed. -/
def extPress (data : UInt8) : Option Ps2 := do
  let s := if data = ps2CtrlCode then s.setFlags fun f => { f with extCtrl := true, ctrl := true }
    else s
  let s ←
    if data = ps2AltCode then some (s.setFlags fun f => { f with extAlt := true, alt := true })
    else
      match ps2ExtMapping.lookup data with
      | none => some s
      | some code =>
          if code = kcDel ∧ s.flags.alt ∧ s.flags.ctrl then none
          else some (s.enqueue (baseFlags s.flags.shift s.flags.ctrl s.flags.alt ||| code))
  return s.setFlags fun f => { f with extended := false }

/-- The code of a key that was released. -/
def release (data : UInt8) : Ps2 :=
  let s :=
    if data = ps2CtrlCode then
      s.setFlags fun f => { f with ifCtrl := false, ctrl := f.ctrl && f.extCtrl }
    else if data = ps2AltCode then
      s.setFlags fun f => { f with ifAlt := false, alt := f.alt && f.extAlt }
    else if data = ps2LshiftCode then
      s.setFlags fun f => { f with lshift := false, shift := f.shift && f.rshift }
    else if data = ps2RshiftCode then
      s.setFlags fun f => { f with rshift := false, shift := f.shift && f.lshift }
    else if data = ps2CapsCode then
      if s.flags.caps then
        (s.setFlags fun f => { f with caps := false }).send [(ps2CmdLedSet, 1), (0, 1)]
      else
        (s.setFlags fun f => { f with caps := true }).send [(ps2CmdLedSet, 1), (ps2CapsLedMask, 1)]
    else s
  s.setFlags fun f => { f with isBreak := false }

/-- `toupper( temp )` if `isalpha( temp )`. -/
def capital (outOfRange : UInt16 → UInt16) (temp : UInt16) : UInt16 :=
  if temp < 256 then if 0x61 ≤ temp ∧ temp ≤ 0x7A then temp - 0x20 else temp else outOfRange temp

/-- The key that a code stands for, or zero. -/
def mapping (outOfRange : UInt16 → UInt16) (shift caps : Bool) (data : UInt8) : UInt16 :=
  let temp :=
    if data = ps2F7Code then kcF7
    else if data > ps2LastMapCode then 0
    else if shift then ps2ShiftMapping.getD data.toNat 0
    else ps2DirectMapping.getD data.toNat 0
  if temp ≠ 0 ∧ caps then capital outOfRange temp else temp

/-- A code that is neither extended nor released. -/
def press (outOfRange : UInt16 → UInt16) (data : UInt8) : Ps2 :=
  if data = ps2Pause1stCode then { s with ignoreCount := ps2PauseNumCodes - 1 }
  else if data = ps2ExtendedCode then s.setFlags fun f => { f with extended := true }
  else if data = ps2BreakCode then s.setFlags fun f => { f with isBreak := true }
  else if data = ps2CtrlCode then s.setFlags fun f => { f with ifCtrl := true, ctrl := true }
  else if data = ps2AltCode then s.setFlags fun f => { f with ifAlt := true, alt := true }
  else if data = ps2LshiftCode then s.setFlags fun f => { f with lshift := true, shift := true }
  else if data = ps2RshiftCode then s.setFlags fun f => { f with rshift := true, shift := true }
  else if mapping outOfRange s.flags.shift false data ≠ 0 then
    s.enqueue (baseFlags s.flags.shift s.flags.ctrl s.flags.alt |||
      mapping outOfRange s.flags.shift s.flags.caps data)
  else s

/-- `ps2_hl_clk_int_handler`, after the last bit of a byte. -/
def byte (outOfRange : UInt16 → UInt16) (data : UInt8) : Option Ps2 :=
  if s.acksToReceive > 0 then some s.acknowledge
  else if s.ignoreCount > 0 then some { s with ignoreCount := s.ignoreCount - 1 }
  else if s.flags.extended then
    if s.flags.isBreak then some (s.extRelease data)
    else if data = ps2BreakCode then some (s.setFlags fun f => { f with isBreak := true })
    else s.extPress data
  else if s.flags.isBreak then some (s.release data)
  else some (s.press outOfRange data)

/-- The first part of `ps2_get_rawkey`: a key is read, if there is one. -/
def fetch : Option UInt16 := if s.rIdx = s.wIdx then none else some (s.queue s.rIdx)

/-- The end of `ps2_get_rawkey`. -/
def advance : Ps2 := { s with rIdx := s.rIdx + 1 }

/-- The variables after `ps2_init`. -/
def init : Ps2 := ({} : Ps2).send [(ps2CmdReset, 2), (ps2CmdTypeRate, 1), (0x00, 1)]

end Ps2

end ELuaBrain.Keyboard
