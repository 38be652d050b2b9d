import ELuaBrain.System.Bytes
import ELuaBrain.Lights.Vm

/-!
# Uploading programs to the lights

The main loop of the lights: the packets of the radio, which upload programs to the slots of the
EEPROM, the buttons, and the program mask that is kept over power losses. What the virtual machine
returns and which button is pressed is left open in each round of the loop.

Power can be lost in any round, after any number of the bytes that the round writes.

## Main definitions

* `Main`, `iterate` : the variables of `main.c` with both EEPROMs, and a round of the loop.
* `Ledger` : what was uploaded, by the packets alone.
* `Sys.Careful` : the packets that the code copes with.

## Main results

* `writeAll_blockWrites` : a block in the EEPROM.
* `Sys.step_inv` : what a careful round keeps.
* `upload_safe` : where each round is careful, uploads stay in their slots, and the slots in the
  mask hold what was uploaded last.
-/

namespace ELuaBrain.Lights

/-! ### The main loop -/

/-- `CMD_START_WRITE`. -/
def cmdStartWrite : UInt8 := 0xFF

/-- `CMD_END_WRITE`. -/
def cmdEndWrite : UInt8 := 0xFE

/-- `CMD_RUN`. -/
def cmdRun : UInt8 := 0xFD

/-- `CMD_RAW`. -/
def cmdRaw : UInt8 := 0xFC

/-- `CMD_DEL`. -/
def cmdDel : UInt8 := 0xFB

/-- `PGM_EE_PAGE_SIZE`. -/
def pgmEePageSize : ℕ := 64

/-- The variables of `main.c`, with the EEPROM of the programs and the byte for the program mask.
`pgmRecvBuffer` has the bytes up to `pgm_recv_buf_idx`. -/
structure Main where
  pgmMask : BitVec 8
  pgmCrt : Option ℕ
  pgmRecvOn : Bool
  pgmRecvSlot : UInt8
  pgmRecvAddr : UInt16
  pgmRecvBuffer : List UInt8
  pgmCycle : Bool
  ee : Memory
  eeMask : BitVec 8

/-- A write of a byte to one of the EEPROMs. -/
inductive Write where
  | ee (address : UInt16) (data : UInt8)
  | mask (value : BitVec 8)
  deriving DecidableEq

/-- The state after a write. -/
def Main.write (s : Main) : Write → Main
  | .ee address data => { s with ee := s.ee.overlay address.toNat [data] }
  | .mask value => { s with eeMask := value }

/-- The state after some writes. -/
def Main.writeAll (s : Main) (ws : List Write) : Main := ws.foldl Main.write s

/-- `i2cee_write_block`. -/
def i2ceeWriteBlock (address : UInt16) : List UInt8 → List Write
  | [] => []
  | data :: rest => .ee address data :: i2ceeWriteBlock (address + 1) rest

/-- `pgm_get_first_index`. -/
def pgmGetFirstIndex (mask : BitVec 8) : Option ℕ :=
  (List.range pgmMax).find? fun i => mask.getLsbD i

/-- The loop of `pgm_get_next_index`, with the number of rounds that are left. -/
def nextIndex (mask : BitVec 8) (up : Bool) : ℕ → ℕ → Option ℕ
  | 0, _ => none
  | rounds + 1, start =>
      let start := if up then (if start + 1 > pgmMax - 1 then 0 else start + 1)
        else if start = 0 then pgmMax - 1 else start - 1
      if mask.getLsbD start then some start else nextIndex mask up rounds start

/-- `pgm_get_next_index`. -/
def pgmGetNextIndex (mask : BitVec 8) (start : ℕ) (up : Bool) : Option ℕ :=
  nextIndex mask up (pgmMax - 1) start

/-- `pgm_init`, after a power loss. -/
def powerUp (s : Main) : Main :=
  let mask := if s.eeMask = 0xFF then 0 else s.eeMask
  { pgmMask := mask
    pgmCrt := pgmGetFirstIndex mask
    pgmRecvOn := false
    pgmRecvSlot := 0
    pgmRecvAddr := 0
    pgmRecvBuffer := []
    pgmCycle := false
    ee := s.ee
    eeMask := mask }

/-- `pgm_recv_to_flash`. -/
def pgmRecvToFlash (s : Main) : Main × List Write :=
  ({ s with
      pgmRecvAddr := s.pgmRecvAddr + UInt16.ofNat s.pgmRecvBuffer.length
      pgmRecvBuffer := [] },
    i2ceeWriteBlock (UInt16.ofNat (s.pgmRecvSlot.toNat * pgmMaxBytes + s.pgmRecvAddr.toNat))
      s.pgmRecvBuffer)

/-- The mask with the bit of a slot set or cleared. -/
def setState (mask : BitVec 8) (slot : ℕ) (state : Bool) : BitVec 8 :=
  if state then mask ||| BitVec.twoPow 8 slot else mask &&& ~~~BitVec.twoPow 8 slot

/-- `pgm_set_program_state`. -/
def pgmSetProgramState (s : Main) (slot : UInt8) (state : Bool) : Main × List Write :=
  let newstate := setState s.pgmMask slot.toNat state
  if newstate = s.pgmMask then (s, []) else ({ s with pgmMask := newstate }, [.mask newstate])

/-- The first part of a round, where `res` is what `ledvm_run` returns. -/
def runPart (s : Main) (res : LedvmErr) : Main :=
  match s.pgmCrt, res with
  | none, _ => s
  | some _, .ok => s
  | some crt, .finished =>
      if s.pgmCycle then
        { s with pgmCrt := some ((pgmGetNextIndex s.pgmMask crt true).getD crt) }
      else s
  | some _, _ => { s with pgmCrt := none }

/-- The second part of a round, with a packet. -/
def radioPart (s : Main) (data : Inst) : Main × List Write :=
  if data 0 = cmdStartWrite then
    ({ s with
        pgmRecvOn := true
        pgmRecvSlot := data 3
        pgmRecvAddr := 0
        pgmRecvBuffer := []
        pgmCrt := if s.pgmCrt = some (data 3).toNat then none else s.pgmCrt }, [])
  else if data 0 = cmdEndWrite then
    let (s, block) := pgmRecvToFlash { s with pgmRecvOn := false }
    let (s, mask) := pgmSetProgramState s s.pgmRecvSlot true
    ({ s with pgmCrt := s.pgmCrt <|> pgmGetFirstIndex s.pgmMask }, block ++ mask)
  else if data 0 = cmdRun then
    (if s.pgmMask.getLsbD (data 3).toNat then { s with pgmCrt := some (data 3).toNat } else s, [])
  else if data 0 = cmdRaw then ({ s with pgmCrt := none }, [])
  else if data 0 = cmdDel then
    let (s, mask) := pgmSetProgramState s (data 3) false
    (if s.pgmCrt = some (data 3).toNat then { s with pgmCrt := pgmGetFirstIndex s.pgmMask } else s,
      mask)
  else if s.pgmRecvOn then
    let s := { s with pgmRecvBuffer := s.pgmRecvBuffer ++ List.ofFn data }
    if s.pgmRecvBuffer.length = pgmEePageSize then pgmRecvToFlash s else (s, [])
  else (s, [])

/-- The buttons. -/
inductive Button where
  | next
  | prev
  | repeat
  deriving DecidableEq

/-- The third part of a round. -/
def buttonPart (s : Main) (button : Option Button) : Main :=
  match s.pgmCrt, button with
  | none, _ => s
  | some _, none => s
  | some crt, some .next =>
      { s with pgmCrt := some ((pgmGetNextIndex s.pgmMask crt true).getD crt) }
  | some crt, some .prev =>
      { s with pgmCrt := some ((pgmGetNextIndex s.pgmMask crt false).getD crt) }
  | some _, some .repeat => { s with pgmCycle := !s.pgmCycle }

/-- What a round of the loop finds. `cut` is the number of bytes that are written before the power
is lost. -/
structure Input where
  res : LedvmErr
  packet : Option Inst
  button : Option Button
  cut : Option ℕ
  deriving DecidableEq

/-- The first two parts of a round, with what they write. -/
def received (s : Main) (i : Input) : Main × List Write :=
  match i.packet with
  | none => (runPart s i.res, [])
  | some data => radioPart (runPart s i.res) data

/-- What is written in a round. -/
def written (s : Main) (i : Input) : List Write :=
  match i.cut with
  | none => (received s i).2
  | some n => (received s i).2.take n

/-- A round of the loop. -/
def iterate (s : Main) (i : Input) : Main :=
  match i.cut with
  | none => buttonPart ((received s i).1.writeAll (written s i)) i.button
  | some _ => powerUp ((received s i).1.writeAll (written s i))

/-! ### What was uploaded -/

/-- An upload that was started, with the instructions that have been received. -/
structure Upload where
  slot : UInt8
  instrs : List Inst
  going : Bool

/-- The upload that was started last since the power is on, and the last complete upload for each
slot. -/
structure Ledger where
  upload : Option Upload
  last : ℕ → Option (List Inst)

/-- A round of the loop has made all its writes. -/
def Complete (s : Main) (i : Input) : Prop := ∀ n ∈ i.cut, (received s i).2.length ≤ n

instance decidableComplete (s : Main) (i : Input) : Decidable (Complete s i) :=
  Option.decidableForallMem i.cut

/-- A packet is an instruction and no command. -/
def IsInstr (data : Inst) : Prop := data 0 < cmdDel

instance decidableIsInstr (data : Inst) : Decidable (IsInstr data) :=
  inferInstanceAs (Decidable (_ < _))

/-- The ledger after a packet. -/
def Ledger.receive (l : Ledger) (data : Inst) (complete : Prop) [Decidable complete] : Ledger :=
  if data 0 = cmdStartWrite then { l with upload := some ⟨data 3, [], true⟩ }
  else if data 0 = cmdEndWrite then
    match l.upload with
    | none => l
    | some u =>
        { upload := some { u with going := false }
          last := if complete then Function.update l.last u.slot.toNat (some u.instrs) else l.last }
  else if IsInstr data then
    { l with upload := l.upload.map fun u =>
        if u.going then { u with instrs := u.instrs ++ [data] } else u }
  else l

/-- The lights and what was uploaded to them. -/
structure Sys where
  main : Main
  ledger : Ledger

/-- A round of the loop. -/
def Sys.step (s : Sys) (i : Input) : Option Sys :=
  let ledger := match i.packet with
    | none => s.ledger
    | some data => s.ledger.receive data (Complete s.main i)
  some ⟨iterate s.main i, if i.cut.isSome then { ledger with upload := none } else ledger⟩

/-- The lights with a blank mask, when they are turned on. -/
def factory (ee : Memory) : Sys :=
  ⟨powerUp ⟨0, none, false, 0, 0, [], false, ee, 0xFF⟩, ⟨none, fun _ => none⟩⟩

/-- The bytes of instructions. -/
def instrBytes (instrs : List Inst) : List UInt8 := instrs.flatMap List.ofFn

/-- A slot starts with some bytes. -/
def Holds (ee : Memory) (slot : ℕ) (bytes : List UInt8) : Prop :=
  ee.slice (slot * pgmMaxBytes) bytes.length = bytes

instance decidableHolds (ee : Memory) (slot : ℕ) (bytes : List UInt8) :
    Decidable (Holds ee slot bytes) := inferInstanceAs (Decidable (_ = _))

/-- A packet that the code copes with: an upload is started for a slot that exists, is ended if it
was started, does not have more instructions than there is room for, and is not written over a
program that can be run, unless all of it is written when it is ended. -/
def Sys.CarefulPacket (s : Sys) (data : Inst) (cut : Option ℕ) : Prop :=
  if data 0 = cmdStartWrite then (data 3).toNat < pgmMax
  else if data 0 = cmdEndWrite then
    ∃ u ∈ s.ledger.upload, ∀ n ∈ cut, n < s.main.pgmRecvBuffer.length →
      s.main.pgmMask.getLsbD u.slot.toNat = false
  else IsInstr data → ∀ u ∈ s.ledger.upload, u.going = true → u.instrs.length < pgmMaxInstr ∧
    (s.main.pgmRecvBuffer.length + 4 = pgmEePageSize →
      s.main.pgmMask.getLsbD u.slot.toNat = false)

/-- A round with no packet, or with a packet that the code copes with. -/
def Sys.Careful (s : Sys) (i : Input) : Prop := ∀ data ∈ i.packet, s.CarefulPacket data i.cut

instance decidableCarefulPacket (s : Sys) (data : Inst) (cut : Option ℕ) :
    Decidable (s.CarefulPacket data cut) := by
  unfold Sys.CarefulPacket
  infer_instance

instance decidableSysCareful (s : Sys) (i : Input) : Decidable (s.Careful i) :=
  Option.decidableForallMem i.packet

/-! ### Blocks in the EEPROM -/

section Blocks

variable {s m : Main} {address : UInt16} {bytes : List UInt8} {ws vs : List Write} {n : ℕ}

theorem writeAll_append : s.writeAll (ws ++ vs) = (s.writeAll ws).writeAll vs := List.foldl_append

theorem length_i2ceeWriteBlock : (i2ceeWriteBlock address bytes).length = bytes.length := by
  induction bytes generalizing address with
  | nil => rfl
  | cons data bytes ih => rw [i2ceeWriteBlock, List.length_cons, ih, List.length_cons]

theorem take_i2ceeWriteBlock :
    (i2ceeWriteBlock address bytes).take n = i2ceeWriteBlock address (bytes.take n) := by
  induction bytes generalizing address n with
  | nil => simp [i2ceeWriteBlock]
  | cons data bytes ih =>
    cases n with
    | zero => rfl
    | succ n => rw [i2ceeWriteBlock, List.take_succ_cons, ih, List.take_succ_cons, i2ceeWriteBlock]

theorem toNat_succ (h : address.toNat + (n + 1) < 2 ^ 16) :
    (address + 1).toNat = address.toNat + 1 := by
  rw [UInt16.toNat_add, UInt16.toNat_one]
  exact Nat.mod_eq_of_lt (by omega)

/-- A block is written as it is. -/
theorem writeAll_i2ceeWriteBlock (h : address.toNat + bytes.length < 2 ^ 16) :
    s.writeAll (i2ceeWriteBlock address bytes) =
      { s with ee := s.ee.overlay address.toNat bytes } := by
  induction bytes generalizing address s with
  | nil =>
    rw [Memory.overlay_nil]
    rfl
  | cons data bytes ih =>
    rw [List.length_cons] at h
    have hnext := toNat_succ h
    have hsplit : (s.ee.overlay address.toNat [data]).overlay (address.toNat + 1) bytes =
        s.ee.overlay address.toNat (data :: bytes) := Memory.overlay_overlay
    rw [i2ceeWriteBlock]
    change (s.write (.ee address data)).writeAll _ = _
    rw [ih (by omega), hnext]
    exact congrArg (fun ee => { s with ee }) hsplit

/-- Where a block is written. -/
theorem mem_i2ceeWriteBlock {place : UInt16} {data : UInt8}
    (h : address.toNat + bytes.length < 2 ^ 16)
    (hmem : .ee place data ∈ i2ceeWriteBlock address bytes) :
    address.toNat ≤ place.toNat ∧ place.toNat < address.toNat + bytes.length := by
  induction bytes generalizing address with
  | nil => exact absurd hmem List.not_mem_nil
  | cons b bytes ih =>
    rw [List.length_cons] at h ⊢
    have hnext := toNat_succ h
    obtain heq | hmem := List.mem_cons.mp hmem
    · obtain ⟨rfl, rfl⟩ := Write.ee.inj heq
      omega
    · have hplace := ih (by omega) hmem
      omega

end Blocks

/-! ### The contents of the slots -/

section Slots

variable {ee : Memory} {slot other start : ℕ} {bytes head : List UInt8} {instrs : List Inst}
  {data : Inst} {mask : BitVec 8} {last : ℕ → Option (List Inst)}

/-- The slots in a mask hold what was uploaded last. -/
def Held (mask : BitVec 8) (ee : Memory) (last : ℕ → Option (List Inst)) : Prop :=
  ∀ slot, mask.getLsbD slot = true → ∃ instrs, last slot = some instrs ∧
    instrs.length ≤ pgmMaxInstr ∧ Holds ee slot (instrBytes instrs)

theorem length_instrBytes : (instrBytes instrs).length = 4 * instrs.length := by
  induction instrs with
  | nil => rfl
  | cons data instrs ih =>
    have hcons : instrBytes (data :: instrs) = List.ofFn data ++ instrBytes instrs := rfl
    rw [hcons, List.length_append, ih, List.length_ofFn, List.length_cons]
    omega

theorem instrBytes_append :
    instrBytes (instrs ++ [data]) = instrBytes instrs ++ List.ofFn data := by
  simp [instrBytes]

/-- Writing behind what a slot holds. -/
theorem Holds.append (h : Holds ee slot head) :
    Holds (ee.overlay (slot * pgmMaxBytes + head.length) bytes) slot (head ++ bytes) := by
  rw [Holds, List.length_append, Memory.slice_add, Memory.slice_overlay,
    Memory.slice_overlay_of_disjoint (.inl (Nat.le_refl _))]
  exact congrArg (· ++ bytes) h

/-- Writing in another slot. -/
theorem Holds.elsewhere (h : Holds ee other head) (hhead : head.length ≤ pgmMaxBytes)
    (hne : other ≠ slot) (hfits : start + bytes.length ≤ pgmMaxBytes) :
    Holds (ee.overlay (slot * pgmMaxBytes + start) bytes) other head := by
  rw [Holds, Memory.slice_overlay_of_disjoint]
  · exact h
  · simp only [pgmMaxBytes, pgmMaxInstr, pgmMax] at *
    omega

/-- Writing in a slot that is not in the mask. -/
theorem Held.overlay (h : Held mask ee last) (hclear : mask.getLsbD slot = false)
    (hfits : start + bytes.length ≤ pgmMaxBytes) :
    Held mask (ee.overlay (slot * pgmMaxBytes + start) bytes) last := by
  intro other hother
  obtain ⟨instrs, hlast, hlen, hholds⟩ := h other hother
  refine ⟨instrs, hlast, hlen, hholds.elsewhere ?_ ?_ hfits⟩
  · rw [length_instrBytes, pgmMaxBytes]
    omega
  · rintro rfl
    rw [hclear] at hother
    exact absurd hother Bool.false_ne_true

end Slots

/-! ### What a round keeps -/

/-- An upload as far as it has been received. The bytes in the buffer are not written yet. -/
structure Receiving (m : Main) (u : Upload) : Prop where
  on : m.pgmRecvOn = u.going
  slot : m.pgmRecvSlot = u.slot
  slot_lt : u.slot.toNat < pgmMax
  fits : u.instrs.length ≤ pgmMaxInstr
  stored : ∃ head, instrBytes u.instrs = head ++ m.pgmRecvBuffer ∧
    head.length = m.pgmRecvAddr.toNat ∧ Holds m.ee u.slot.toNat head

/-- The slots in the mask hold what was uploaded last, and the upload that was started is as far as
it has been received. -/
structure Sys.Inv (m : Main) (l : Ledger) : Prop where
  mask : m.eeMask = m.pgmMask
  held : Held m.pgmMask m.ee l.last
  idle : l.upload = none → m.pgmRecvOn = false
  receiving : ∀ u ∈ l.upload, Receiving m u
  page : 4 ∣ m.pgmRecvBuffer.length ∧ m.pgmRecvBuffer.length < pgmEePageSize

section Rounds

variable {s : Sys} {m : Main} {l : Ledger} {u : Upload} {data : Inst} {i : Input}
  {ws : List Write} {n : ℕ}

/-- The variables that uploads have nothing to do with. -/
def Main.turn (m : Main) (crt : Option ℕ) (cycle : Bool) : Main :=
  { m with pgmCrt := crt, pgmCycle := cycle }

theorem Sys.Inv.turn (h : Sys.Inv m l) (crt : Option ℕ) (cycle : Bool) :
    Sys.Inv (m.turn crt cycle) l :=
  ⟨h.mask, h.held, h.idle, fun u hu =>
    let r := h.receiving u hu
    ⟨r.on, r.slot, r.slot_lt, r.fits, r.stored⟩, h.page⟩

theorem runPart_eq (m : Main) (res : LedvmErr) : ∃ crt, runPart m res = m.turn crt m.pgmCycle := by
  unfold runPart
  split
  · exact ⟨m.pgmCrt, rfl⟩
  · exact ⟨m.pgmCrt, rfl⟩
  · split
    · exact ⟨_, rfl⟩
    · exact ⟨m.pgmCrt, rfl⟩
  · exact ⟨none, rfl⟩

theorem buttonPart_eq (button : Option Button) :
    ∃ crt cycle, buttonPart m button = m.turn crt cycle := by
  unfold buttonPart
  split
  · exact ⟨m.pgmCrt, m.pgmCycle, rfl⟩
  · exact ⟨m.pgmCrt, m.pgmCycle, rfl⟩
  · exact ⟨_, m.pgmCycle, rfl⟩
  · exact ⟨_, m.pgmCycle, rfl⟩
  · exact ⟨m.pgmCrt, _, rfl⟩

/-- Only the EEPROMs are left by a power loss. -/
theorem powerUp_inv {last : ℕ → Option (List Inst)} (h : Held m.eeMask m.ee last) :
    Sys.Inv (powerUp m) ⟨none, last⟩ := by
  refine ⟨rfl, ?_, fun _ => rfl, nofun, (by decide : 4 ∣ 0 ∧ 0 < pgmEePageSize)⟩
  rw [powerUp]
  dsimp only
  split
  · exact fun slot hslot => absurd hslot (by simp)
  · exact h

/-- Where the bytes in the buffer are written. -/
theorem Receiving.base (h : Receiving m u) :
    (UInt16.ofNat (m.pgmRecvSlot.toNat * pgmMaxBytes + m.pgmRecvAddr.toNat)).toNat =
        u.slot.toNat * pgmMaxBytes + m.pgmRecvAddr.toNat ∧
      m.pgmRecvAddr.toNat + m.pgmRecvBuffer.length ≤ pgmMaxBytes := by
  obtain ⟨head, hbytes, hhead, -⟩ := h.stored
  have hslot := h.slot_lt
  have hfits := h.fits
  have hlen := congrArg List.length hbytes
  rw [length_instrBytes, List.length_append, hhead] at hlen
  rw [h.slot, UInt16.toNat_ofNat']
  simp only [pgmMaxBytes, pgmMaxInstr, pgmMax] at *
  omega

theorem Receiving.base_take (h : Receiving m u) (n : ℕ) :
    m.pgmRecvAddr.toNat + (m.pgmRecvBuffer.take n).length ≤ pgmMaxBytes :=
  (Nat.add_le_add_left (List.length_take_le' n _) _).trans h.base.2

/-- The bytes in the buffer are written behind those that were written before. -/
theorem Receiving.writeAll_take (h : Receiving m u) (s : Main) (n : ℕ) :
    s.writeAll ((pgmRecvToFlash m).2.take n) = { s with
      ee := s.ee.overlay (u.slot.toNat * pgmMaxBytes + m.pgmRecvAddr.toNat)
        (m.pgmRecvBuffer.take n) } := by
  obtain ⟨hbase, hfits⟩ := h.base
  have hslot := h.slot_lt
  have htake := List.length_take_le' n m.pgmRecvBuffer
  rw [pgmRecvToFlash, take_i2ceeWriteBlock, writeAll_i2ceeWriteBlock, hbase]
  rw [hbase]
  simp only [pgmMaxBytes, pgmMaxInstr, pgmMax] at *
  omega

theorem Receiving.writeAll (h : Receiving m u) (s : Main) :
    s.writeAll (pgmRecvToFlash m).2 = { s with
      ee := s.ee.overlay (u.slot.toNat * pgmMaxBytes + m.pgmRecvAddr.toNat) m.pgmRecvBuffer } := by
  have hall := h.writeAll_take s m.pgmRecvBuffer.length
  rw [List.take_length, List.take_of_length_le] at hall
  · exact hall
  · rw [pgmRecvToFlash, length_i2ceeWriteBlock]

/-- After a flush the slot has all that was received. -/
theorem Receiving.flushed (h : Receiving m u) :
    Receiving { (pgmRecvToFlash m).1 with
      ee := m.ee.overlay (u.slot.toNat * pgmMaxBytes + m.pgmRecvAddr.toNat) m.pgmRecvBuffer }
      u := by
  obtain ⟨head, hbytes, hhead, hholds⟩ := h.stored
  obtain ⟨-, hfits⟩ := h.base
  refine ⟨h.on, h.slot, h.slot_lt, h.fits, instrBytes u.instrs, (List.append_nil _).symm, ?_, ?_⟩
  · rw [hbytes, List.length_append, hhead, pgmRecvToFlash, UInt16.toNat_add, UInt16.toNat_ofNat']
    simp only [pgmMaxBytes, pgmMaxInstr, pgmMax] at *
    omega
  · rw [hbytes, ← hhead]
    exact hholds.append

theorem Receiving.holds (h : Receiving m u) (hbuffer : m.pgmRecvBuffer = []) :
    Holds m.ee u.slot.toNat (instrBytes u.instrs) := by
  obtain ⟨head, hbytes, -, hholds⟩ := h.stored
  rw [hbuffer, List.append_nil] at hbytes
  rwa [hbytes]

/-- The writes that store a mask. -/
def StoresMask (old new : BitVec 8) (ws : List Write) : Prop :=
  new = old ∧ ws = [] ∨ new ≠ old ∧ ws = [.mask new]

theorem StoresMask.writeAll {old new : BitVec 8} (h : StoresMask old new ws) (m : Main)
    (hold : m.eeMask = old) : m.writeAll ws = { m with eeMask := new } := by
  obtain ⟨rfl, rfl⟩ | ⟨-, rfl⟩ := h
  · rw [← hold]
    rfl
  · rfl

theorem pgmSetProgramState_eq (slot : UInt8) (state : Bool) :
    ∃ ws, pgmSetProgramState m slot state =
      ({ m with pgmMask := setState m.pgmMask slot.toNat state }, ws) ∧
        StoresMask m.pgmMask (setState m.pgmMask slot.toNat state) ws := by
  by_cases hsame : setState m.pgmMask slot.toNat state = m.pgmMask
  · refine ⟨[], ?_, .inl ⟨hsame, rfl⟩⟩
    rw [pgmSetProgramState, if_pos hsame, hsame]
  · exact ⟨_, if_neg hsame, .inr ⟨hsame, rfl⟩⟩

theorem getLsbD_setState {mask : BitVec 8} {slot other : ℕ} (h : slot < pgmMax) :
    (setState mask slot true).getLsbD other = (mask.getLsbD other || decide (slot = other)) := by
  have hslot : slot < 8 := h
  simp [setState, BitVec.getLsbD_twoPow, hslot]

theorem getLsbD_of_setState_ne {mask : BitVec 8} {slot : ℕ} (h : setState mask slot true ≠ mask) :
    mask.getLsbD slot = false := by
  by_contra hset
  refine h (BitVec.eq_of_getLsbD_eq fun i hi => ?_)
  by_cases hsame : slot = i
  · subst hsame
    rw [Bool.not_eq_false] at hset
    simp [setState, hset]
  · simp [setState, BitVec.getLsbD_twoPow, hsame]

theorem getLsbD_of_setState {mask : BitVec 8} {slot other : ℕ}
    (h : (setState mask slot false).getLsbD other = true) : mask.getLsbD other = true := by
  simp only [setState, Bool.false_eq_true, if_false, BitVec.getLsbD_and, Bool.and_eq_true] at h
  exact h.1

/-- The packet that starts an upload. -/
theorem start_inv (h : Sys.Inv m l) (hslot : (data 3).toNat < pgmMax) (crt : Option ℕ) :
    Sys.Inv { m with
        pgmRecvOn := true, pgmRecvSlot := data 3, pgmRecvAddr := 0, pgmRecvBuffer := [],
        pgmCrt := crt }
      { l with upload := some ⟨data 3, [], true⟩ } := by
  refine ⟨h.mask, h.held, nofun, fun u hu => ?_, (by decide : 4 ∣ 0 ∧ 0 < pgmEePageSize)⟩
  obtain rfl := Option.some.inj hu
  exact ⟨rfl, rfl, hslot, Nat.zero_le _, [], rfl, rfl, rfl⟩

/-- The packet that ends an upload. -/
theorem end_inv (h : Sys.Inv m l) (hu : l.upload = some u) (crt : Option ℕ) :
    Sys.Inv { m with
        pgmRecvOn := false
        pgmRecvAddr := m.pgmRecvAddr + UInt16.ofNat m.pgmRecvBuffer.length
        pgmRecvBuffer := []
        pgmMask := setState m.pgmMask u.slot.toNat true
        eeMask := setState m.pgmMask u.slot.toNat true
        ee := m.ee.overlay (u.slot.toNat * pgmMaxBytes + m.pgmRecvAddr.toNat) m.pgmRecvBuffer
        pgmCrt := crt }
      { upload := some { u with going := false }
        last := Function.update l.last u.slot.toNat (some u.instrs) } := by
  have hr := h.receiving u hu
  have hf := hr.flushed
  obtain ⟨-, hfits⟩ := hr.base
  refine ⟨rfl, fun slot hslot => ?_, nofun, fun v hv => ?_,
    (by decide : 4 ∣ 0 ∧ 0 < pgmEePageSize)⟩
  · by_cases hsame : slot = u.slot.toNat
    · subst hsame
      exact ⟨u.instrs, Function.update_self .., hr.fits, hf.holds rfl⟩
    · rw [getLsbD_setState hr.slot_lt] at hslot
      have hold : m.pgmMask.getLsbD slot = true := by simpa [Ne.symm hsame] using hslot
      obtain ⟨instrs, hlast, hlen, hholds⟩ := h.held slot hold
      refine ⟨instrs, (Function.update_of_ne hsame ..).trans hlast, hlen, ?_⟩
      refine hholds.elsewhere ?_ hsame hfits
      rw [length_instrBytes, pgmMaxBytes]
      omega
  · obtain rfl := Option.some.inj hv
    exact ⟨rfl, hf.slot, hf.slot_lt, hf.fits, hf.stored⟩

/-- An instruction that is put into the buffer. -/
theorem instr_receiving (data : Inst) (h : Receiving m u) (hroom : u.instrs.length < pgmMaxInstr) :
    Receiving { m with pgmRecvBuffer := m.pgmRecvBuffer ++ List.ofFn data }
      { u with instrs := u.instrs ++ [data] } := by
  obtain ⟨head, hbytes, hhead, hholds⟩ := h.stored
  refine ⟨h.on, h.slot, h.slot_lt, ?_, head, ?_, hhead, hholds⟩
  · rw [List.length_append, List.length_singleton]
    exact hroom
  · rw [instrBytes_append, hbytes, List.append_assoc]

/-- What the packet that ends an upload does. -/
theorem radioPart_end (hdata : data 0 = cmdEndWrite) : ∃ crt ws, radioPart m data =
    ({ m with
        pgmRecvOn := false
        pgmRecvAddr := m.pgmRecvAddr + UInt16.ofNat m.pgmRecvBuffer.length
        pgmRecvBuffer := []
        pgmMask := setState m.pgmMask m.pgmRecvSlot.toNat true
        pgmCrt := crt }, (pgmRecvToFlash m).2 ++ ws) ∧
      StoresMask m.pgmMask (setState m.pgmMask m.pgmRecvSlot.toNat true) ws := by
  have hstart : data 0 ≠ cmdStartWrite := by
    rw [hdata]
    decide
  obtain ⟨ws, heq, hws⟩ := pgmSetProgramState_eq (m := { m with
    pgmRecvOn := false
    pgmRecvAddr := m.pgmRecvAddr + UInt16.ofNat m.pgmRecvBuffer.length
    pgmRecvBuffer := [] }) m.pgmRecvSlot true
  rw [radioPart, if_neg hstart, if_pos hdata]
  simp only [pgmRecvToFlash, heq]
  exact ⟨_, ws, rfl, hws⟩

theorem radioPart_end_inv (h : Sys.Inv m l) (hu : l.upload = some u)
    (hdata : data 0 = cmdEndWrite) :
    Sys.Inv ((radioPart m data).1.writeAll (radioPart m data).2)
      { upload := some { u with going := false }
        last := Function.update l.last u.slot.toNat (some u.instrs) } := by
  have hr := h.receiving u hu
  obtain ⟨crt, ws, heq, hws⟩ := radioPart_end (m := m) hdata
  have hinv := end_inv h hu crt
  rw [← hr.slot] at hinv ⊢
  rw [heq, writeAll_append, hr.writeAll, hws.writeAll, ← hr.slot]
  · exact hinv
  · exact h.mask

/-- What the packet with an instruction does. -/
theorem radioPart_instr (hdata : IsInstr data) : radioPart m data =
    if m.pgmRecvOn then
      let s := { m with pgmRecvBuffer := m.pgmRecvBuffer ++ List.ofFn data }
      if s.pgmRecvBuffer.length = pgmEePageSize then pgmRecvToFlash s else (s, [])
    else (m, []) := by
  have hne (c : UInt8) (hc : ¬c < cmdDel) : data 0 ≠ c := fun h => hc (h ▸ hdata)
  rw [radioPart, if_neg (hne _ (by decide)), if_neg (hne _ (by decide)),
    if_neg (hne _ (by decide)), if_neg (hne _ (by decide)), if_neg (hne _ (by decide))]

/-- An instruction goes into the buffer, and the buffer into the slot when it is full. -/
theorem radioPart_instr_inv (h : Sys.Inv m l) (hdata : IsInstr data)
    (hcareful : ∀ u ∈ l.upload, u.going = true → u.instrs.length < pgmMaxInstr ∧
      (m.pgmRecvBuffer.length + 4 = pgmEePageSize → m.pgmMask.getLsbD u.slot.toNat = false)) :
    Sys.Inv ((radioPart m data).1.writeAll (radioPart m data).2)
      { l with upload := l.upload.map fun u =>
          if u.going then { u with instrs := u.instrs ++ [data] } else u } := by
  obtain ⟨hdvd, hpage⟩ := h.page
  rw [radioPart_instr hdata]
  by_cases hon : m.pgmRecvOn = true
  · rw [if_pos hon]
    obtain ⟨upload, last⟩ := l
    cases upload with
    | none => exact absurd (h.idle rfl) (by rw [hon]; decide)
    | some u =>
      have hr := h.receiving u rfl
      have hgoing : u.going = true := hr.on.symm.trans hon
      obtain ⟨hroom, hclear⟩ := hcareful u rfl hgoing
      have hr' := instr_receiving data hr hroom
      have hlen : (m.pgmRecvBuffer ++ List.ofFn data).length = m.pgmRecvBuffer.length + 4 := by
        simp
      rw [Option.map_some, if_pos hgoing]
      dsimp only
      by_cases hfull : (m.pgmRecvBuffer ++ List.ofFn data).length = pgmEePageSize
      · rw [if_pos hfull, hr'.writeAll]
        refine ⟨h.mask, ?_, nofun, fun v hv => ?_, (by decide : 4 ∣ 0 ∧ 0 < pgmEePageSize)⟩
        · exact h.held.overlay (hclear (hlen ▸ hfull)) hr'.base.2
        · obtain rfl := Option.some.inj hv
          exact hr'.flushed
      · rw [if_neg hfull]
        refine ⟨h.mask, h.held, nofun, fun v hv => ?_, ?_⟩
        · obtain rfl := Option.some.inj hv
          exact hr'
        · change 4 ∣ (m.pgmRecvBuffer ++ List.ofFn data).length ∧
            (m.pgmRecvBuffer ++ List.ofFn data).length < pgmEePageSize
          rw [hlen] at hfull ⊢
          simp only [pgmEePageSize] at *
          omega
  · rw [if_neg hon]
    have hsame : (l.upload.map fun u =>
        if u.going then { u with instrs := u.instrs ++ [data] } else u) = l.upload := by
      cases hu : l.upload with
      | none => rfl
      | some u =>
        have hgoing : ¬u.going = true := fun hg => hon ((h.receiving u hu).on.trans hg)
        rw [Option.map_some, if_neg hgoing]
    rw [hsame]
    exact h

/-- The packets that run a program, show a colour or delete a program. -/
theorem radioPart_other (hstart : data 0 ≠ cmdStartWrite) (hend : data 0 ≠ cmdEndWrite)
    (hdata : ¬IsInstr data) :
    (∃ crt, radioPart m data = (m.turn crt m.pgmCycle, [])) ∨
      ∃ crt ws, radioPart m data = ({ m with
          pgmMask := setState m.pgmMask (data 3).toNat false
          pgmCrt := crt }, ws) ∧
        StoresMask m.pgmMask (setState m.pgmMask (data 3).toNat false) ws := by
  rw [radioPart, if_neg hstart, if_neg hend]
  by_cases hrun : data 0 = cmdRun
  · rw [if_pos hrun]
    left
    split
    · exact ⟨_, rfl⟩
    · exact ⟨m.pgmCrt, rfl⟩
  · rw [if_neg hrun]
    by_cases hraw : data 0 = cmdRaw
    · rw [if_pos hraw]
      exact .inl ⟨none, rfl⟩
    · have hdel : data 0 = cmdDel := by
        have hbyte := (data 0).toNat_lt
        simp only [IsInstr, UInt8.lt_iff_toNat_lt, ← UInt8.toNat_inj, ne_eq, cmdStartWrite,
          cmdEndWrite, cmdRun, cmdRaw, cmdDel, UInt8.reduceToNat] at *
        omega
      rw [if_neg hraw, if_pos hdel]
      right
      obtain ⟨ws, heq, hws⟩ := pgmSetProgramState_eq (m := m) (data 3) false
      simp only [heq]
      split
      · exact ⟨_, ws, rfl, hws⟩
      · exact ⟨m.pgmCrt, ws, rfl, hws⟩

theorem delete_inv (h : Sys.Inv m l) (slot : ℕ) (crt : Option ℕ) :
    Sys.Inv { m with
        pgmMask := setState m.pgmMask slot false
        eeMask := setState m.pgmMask slot false
        pgmCrt := crt } l :=
  ⟨rfl, fun other hother => h.held other (getLsbD_of_setState hother), h.idle, fun u hu =>
    let r := h.receiving u hu
    ⟨r.on, r.slot, r.slot_lt, r.fits, r.stored⟩, h.page⟩

/-- A packet that is careful, if all that it writes is written. -/
theorem radioPart_inv {cut : Option ℕ} {P : Prop} [Decidable P] (h : Sys.Inv m l)
    (hcareful : Sys.CarefulPacket ⟨m, l⟩ data cut) (hP : P) :
    Sys.Inv ((radioPart m data).1.writeAll (radioPart m data).2) (l.receive data P) := by
  rw [Sys.CarefulPacket] at hcareful
  by_cases hstart : data 0 = cmdStartWrite
  · rw [if_pos hstart] at hcareful
    rw [radioPart, if_pos hstart, Ledger.receive, if_pos hstart]
    exact start_inv h hcareful _
  rw [if_neg hstart] at hcareful
  rw [Ledger.receive, if_neg hstart]
  by_cases hend : data 0 = cmdEndWrite
  · rw [if_pos hend] at hcareful ⊢
    obtain ⟨u, hu, -⟩ := hcareful
    have hinv := radioPart_end_inv h hu hend
    obtain ⟨upload, last⟩ := l
    obtain rfl : upload = some u := hu
    simpa only [if_pos hP] using hinv
  rw [if_neg hend] at hcareful ⊢
  by_cases hinstr : IsInstr data
  · rw [if_pos hinstr]
    exact radioPart_instr_inv h hinstr (hcareful hinstr)
  · rw [if_neg hinstr]
    obtain ⟨crt, heq⟩ | ⟨crt, ws, heq, hws⟩ := radioPart_other (m := m) hstart hend hinstr
    · rw [heq]
      exact h.turn crt m.pgmCycle
    · rw [heq, hws.writeAll]
      · exact delete_inv h _ crt
      · exact h.mask

/-- The writes of a stored mask that are made when power is lost before the last one. -/
theorem StoresMask.take {old new : BitVec 8} (h : StoresMask old new ws) (hn : n < ws.length) :
    new ≠ old ∧ ws.take n = [] := by
  obtain ⟨-, rfl⟩ | ⟨hne, rfl⟩ := h
  · exact absurd hn (Nat.not_lt_zero n)
  · obtain rfl : n = 0 := Nat.lt_one_iff.mp hn
    exact ⟨hne, rfl⟩

/-- A packet that is careful leaves the slots in the mask as they were if power is lost before all
is written. -/
theorem radioPart_cut (h : Sys.Inv m l) (hcareful : Sys.CarefulPacket ⟨m, l⟩ data (some n))
    (hn : n < (radioPart m data).2.length) :
    Held ((radioPart m data).1.writeAll ((radioPart m data).2.take n)).eeMask
      ((radioPart m data).1.writeAll ((radioPart m data).2.take n)).ee l.last := by
  have hheld : Held m.eeMask m.ee l.last := h.mask ▸ h.held
  rw [Sys.CarefulPacket] at hcareful
  by_cases hstart : data 0 = cmdStartWrite
  · rw [radioPart, if_pos hstart]
    rw [List.take_nil]
    exact hheld
  rw [if_neg hstart] at hcareful
  by_cases hend : data 0 = cmdEndWrite
  · rw [if_pos hend] at hcareful
    obtain ⟨u, hu, hclear⟩ := hcareful
    have hr := h.receiving u hu
    obtain ⟨crt, ws, heq, hws⟩ := radioPart_end (m := m) hend
    have hlen : (pgmRecvToFlash m).2.length = m.pgmRecvBuffer.length := length_i2ceeWriteBlock
    rw [heq] at hn ⊢
    rw [List.length_append, hlen] at hn
    have hcut : m.pgmMask.getLsbD u.slot.toNat = false ∧
        ws.take (n - m.pgmRecvBuffer.length) = [] := by
      by_cases hblock : n < m.pgmRecvBuffer.length
      · refine ⟨hclear n rfl hblock, ?_⟩
        rw [Nat.sub_eq_zero_of_le hblock.le, List.take_zero]
      · obtain ⟨hne, hnil⟩ := hws.take (n := n - m.pgmRecvBuffer.length) (by omega)
        rw [hr.slot] at hne
        exact ⟨getLsbD_of_setState_ne hne, hnil⟩
    rw [List.take_append, hlen, hcut.2, List.append_nil, hr.writeAll_take]
    exact hheld.overlay (h.mask ▸ hcut.1) (hr.base_take n)
  rw [if_neg hend] at hcareful
  by_cases hinstr : IsInstr data
  · have hcareful := hcareful hinstr
    rw [radioPart_instr hinstr] at hn ⊢
    by_cases hon : m.pgmRecvOn = true
    · rw [if_pos hon] at hn ⊢
      cases hu : l.upload with
      | none => exact absurd (h.idle hu) (by rw [hon]; decide)
      | some u =>
        have hr := h.receiving u hu
        obtain ⟨hroom, hclear⟩ := hcareful u hu (hr.on.symm.trans hon)
        have hr' := instr_receiving data hr hroom
        dsimp only at hn ⊢
        by_cases hfull : (m.pgmRecvBuffer ++ List.ofFn data).length = pgmEePageSize
        · rw [if_pos hfull] at hn ⊢
          rw [hr'.writeAll_take]
          rw [List.length_append, List.length_ofFn] at hfull
          exact hheld.overlay (h.mask ▸ hclear hfull) (hr'.base_take n)
        · rw [if_neg hfull, List.take_nil]
          exact hheld
    · rw [if_neg hon, List.take_nil]
      exact hheld
  · obtain ⟨crt, heq⟩ | ⟨crt, ws, heq, hws⟩ := radioPart_other (m := m) hstart hend hinstr
    · rw [heq, List.take_nil]
      exact hheld
    · rw [heq] at hn ⊢
      rw [(hws.take hn).2]
      exact hheld

theorem Receiving.writes {address : UInt16} {byte : UInt8} (h : Receiving m u)
    (hmem : .ee address byte ∈ (pgmRecvToFlash m).2) :
    u.slot.toNat < pgmMax ∧ u.slot.toNat * pgmMaxBytes ≤ address.toNat ∧
      address.toNat < (u.slot.toNat + 1) * pgmMaxBytes := by
  obtain ⟨hbase, hfits⟩ := h.base
  have hslot := h.slot_lt
  have hplace := mem_i2ceeWriteBlock (by
    rw [hbase]
    simp only [pgmMaxBytes, pgmMaxInstr, pgmMax] at *
    omega) hmem
  rw [hbase] at hplace
  refine ⟨hslot, by omega, ?_⟩
  rw [Nat.add_mul, Nat.one_mul]
  omega

theorem StoresMask.ee_not_mem {old new : BitVec 8} {address : UInt16} {byte : UInt8}
    (h : StoresMask old new ws) : Write.ee address byte ∉ ws := by
  obtain ⟨-, rfl⟩ | ⟨-, rfl⟩ := h
  · exact List.not_mem_nil
  · exact fun hmem => absurd (List.mem_singleton.mp hmem) nofun

/-- Where a packet that is careful writes. -/
theorem radioPart_writes {cut : Option ℕ} {address : UInt16} {byte : UInt8} (h : Sys.Inv m l)
    (hcareful : Sys.CarefulPacket ⟨m, l⟩ data cut)
    (hmem : .ee address byte ∈ (radioPart m data).2) :
    ∃ u, l.upload = some u ∧ u.slot.toNat < pgmMax ∧
      u.slot.toNat * pgmMaxBytes ≤ address.toNat ∧
      address.toNat < (u.slot.toNat + 1) * pgmMaxBytes := by
  rw [Sys.CarefulPacket] at hcareful
  by_cases hstart : data 0 = cmdStartWrite
  · rw [radioPart, if_pos hstart] at hmem
    exact absurd hmem List.not_mem_nil
  rw [if_neg hstart] at hcareful
  by_cases hend : data 0 = cmdEndWrite
  · rw [if_pos hend] at hcareful
    obtain ⟨u, hu, -⟩ := hcareful
    obtain ⟨crt, ws, heq, hws⟩ := radioPart_end (m := m) hend
    rw [heq] at hmem
    obtain hmem | hmem := List.mem_append.mp hmem
    · exact ⟨u, hu, (h.receiving u hu).writes hmem⟩
    · exact absurd hmem hws.ee_not_mem
  rw [if_neg hend] at hcareful
  by_cases hinstr : IsInstr data
  · have hcareful := hcareful hinstr
    rw [radioPart_instr hinstr] at hmem
    split at hmem
    · rename_i hon
      cases hu : l.upload with
      | none => exact absurd (h.idle hu) (by rw [hon]; decide)
      | some u =>
        have hr := h.receiving u hu
        obtain ⟨hroom, -⟩ := hcareful u hu (hr.on.symm.trans hon)
        dsimp only at hmem
        split at hmem
        · exact ⟨u, rfl, (instr_receiving data hr hroom).writes hmem⟩
        · exact absurd hmem List.not_mem_nil
    · exact absurd hmem List.not_mem_nil
  · obtain ⟨crt, heq⟩ | ⟨crt, ws, heq, hws⟩ := radioPart_other (m := m) hstart hend hinstr
    · rw [heq] at hmem
      exact absurd hmem List.not_mem_nil
    · rw [heq] at hmem
      exact absurd hmem hws.ee_not_mem

theorem receive_last (l : Ledger) (data : Inst) {P : Prop} [Decidable P] (hP : ¬P) :
    (l.receive data P).last = l.last := by
  rw [Ledger.receive]
  split
  · rfl
  · split
    · split
      · rfl
      · rfl
    · split <;> rfl

/-- What a round keeps. -/
theorem Sys.step_inv {s' : Sys} (h : Sys.Inv s.main s.ledger) (hcareful : s.Careful i)
    (hstep : s.step i = some s') : Sys.Inv s'.main s'.ledger := by
  obtain rfl := Option.some.inj hstep
  obtain ⟨crt, hrun⟩ := runPart_eq s.main i.res
  have hturn := h.turn crt s.main.pgmCycle
  dsimp only
  cases hpacket : i.packet with
  | none =>
    have hreceived : received s.main i = (s.main.turn crt s.main.pgmCycle, []) := by
      rw [received, hpacket, ← hrun]
    cases hcut : i.cut with
    | none =>
      obtain ⟨crt', cycle, hbutton⟩ := buttonPart_eq
        (m := (s.main.turn crt s.main.pgmCycle).writeAll []) i.button
      simp only [iterate, written, hcut, hreceived, hbutton]
      exact hturn.turn crt' cycle
    | some n =>
      simp only [iterate, written, hcut, hreceived, List.take_nil]
      exact powerUp_inv (h.mask ▸ h.held)
  | some data =>
    have hpart : Sys.CarefulPacket ⟨s.main.turn crt s.main.pgmCycle, s.ledger⟩ data i.cut :=
      hcareful data hpacket
    have hreceived : received s.main i = radioPart (s.main.turn crt s.main.pgmCycle) data := by
      rw [received, hpacket, ← hrun]
    cases hcut : i.cut with
    | none =>
      have hinv := radioPart_inv (P := Complete s.main i) hturn hpart (by
        rw [Complete, hcut]
        nofun)
      obtain ⟨crt', cycle, hbutton⟩ := buttonPart_eq
        (m := (radioPart (s.main.turn crt s.main.pgmCycle) data).1.writeAll
          (radioPart (s.main.turn crt s.main.pgmCycle) data).2) i.button
      simp only [iterate, written, hcut, hreceived, hbutton]
      exact hinv.turn crt' cycle
    | some n =>
      simp only [iterate, written, hcut, hreceived]
      by_cases hall : Complete s.main i
      · have hinv := radioPart_inv (P := Complete s.main i) hturn hpart hall
        rw [Complete, hcut, hreceived] at hall
        rw [List.take_of_length_le (hall n rfl)]
        exact powerUp_inv (hinv.mask ▸ hinv.held)
      · have hlast := receive_last s.ledger data hall
        rw [Complete, hcut, hreceived] at hall
        have hn : n < (radioPart (s.main.turn crt s.main.pgmCycle) data).2.length := by
          by_contra hle
          exact hall fun k hk => Option.some.inj hk ▸ Nat.not_lt.mp hle
        have hheld := radioPart_cut hturn (hcut ▸ hpart) hn
        rw [← hlast] at hheld
        exact powerUp_inv hheld

end Rounds

/-! ### Runs -/

/-- A round with a packet. -/
def radio (data : Inst) : Input := ⟨.ok, some data, none, none⟩

theorem factory_inv (ee : Memory) : Sys.Inv (factory ee).main (factory ee).ledger :=
  ⟨rfl, fun slot hslot => absurd hslot (by simp [factory, powerUp]), fun _ => rfl, nofun,
    (by decide : 4 ∣ 0 ∧ 0 < pgmEePageSize)⟩

/-- **Uploads.** Where every round is careful, the slots in the mask hold what was uploaded last,
the buffer of the packets does not overflow, and uploads are written to their slots. -/
theorem upload_safe (ee : Memory) {s : Sys} (h : Reach Sys.step Sys.Careful (factory ee) s) :
    (∀ slot, s.main.pgmMask.getLsbD slot = true → ∃ instrs, s.ledger.last slot = some instrs ∧
        Holds s.main.ee slot (instrBytes instrs)) ∧
      s.main.pgmRecvBuffer.length < pgmEePageSize ∧
      ∀ i, s.Careful i → ∀ address byte, .ee address byte ∈ written s.main i →
        ∃ u, s.ledger.upload = some u ∧ u.slot.toNat < pgmMax ∧
          u.slot.toNat * pgmMaxBytes ≤ address.toNat ∧
          address.toNat < (u.slot.toNat + 1) * pgmMaxBytes := by
  have hinv : Sys.Inv s.main s.ledger := by
    exact Reach.invariant (P := fun s => Sys.Inv s.main s.ledger) (factory_inv ee)
      (fun s i s' hs hg hstep => Sys.step_inv hs hg hstep) h
  refine ⟨fun slot hslot => ?_, hinv.page.2, fun i hi address byte hmem => ?_⟩
  · obtain ⟨instrs, hlast, -, hholds⟩ := hinv.held slot hslot
    exact ⟨instrs, hlast, hholds⟩
  · have hmem : .ee address byte ∈ (received s.main i).2 := by
      rw [written] at hmem
      split at hmem
      · exact hmem
      · exact List.mem_of_mem_take hmem
    cases hpacket : i.packet with
    | none =>
      rw [received, hpacket] at hmem
      exact absurd hmem List.not_mem_nil
    | some data =>
      obtain ⟨crt, hrun⟩ := runPart_eq s.main i.res
      rw [received, hpacket, hrun] at hmem
      exact radioPart_writes (hinv.turn crt _) (hi data hpacket) hmem

/-- The upload of 17 instructions to slot 2. -/
def seventeen : List Input :=
  radio ![0xFF, 0, 0, 2] :: List.replicate 17 (radio ![0x10, 1, 2, 3]) ++ [radio ![0xFE, 0, 0, 0]]

theorem seventeen_run :
    (runAll (guarded Sys.step Sys.Careful) seventeen (factory fun _ => 0)).isSome := by
  decide +kernel

theorem upload_safe_seventeen : ∃ s, Reach Sys.step Sys.Careful (factory fun _ => 0) s ∧
    s.main.pgmMask.getLsbD 2 = true ∧
    (∀ slot, s.main.pgmMask.getLsbD slot = true → ∃ instrs, s.ledger.last slot = some instrs ∧
        Holds s.main.ee slot (instrBytes instrs)) ∧
      s.main.pgmRecvBuffer.length < pgmEePageSize ∧
      ∀ i, s.Careful i → ∀ address byte, .ee address byte ∈ written s.main i →
        ∃ u, s.ledger.upload = some u ∧ u.slot.toNat < pgmMax ∧
          u.slot.toNat * pgmMaxBytes ≤ address.toNat ∧
          address.toNat < (u.slot.toNat + 1) * pgmMaxBytes :=
  ⟨_, reach_get _ _ _ seventeen_run, by decide +kernel,
    upload_safe (fun _ => 0) (reach_get _ _ _ seventeen_run)⟩

/-- A program is put into the mask that was never uploaded, a program that can be run is written
over, and an upload is written to a slot that does not exist. -/
theorem upload_unsafe :
    (runAll Sys.step [radio ![0xFE, 0, 0, 0]] (factory fun _ => 0)).map (fun s =>
        (s.main.pgmMask.getLsbD 0, s.ledger.last 0)) = some (true, none) ∧
      (runAll Sys.step (seventeen ++ radio ![0xFF, 0, 0, 2] ::
        List.replicate 16 (radio ![0x20, 1, 2, 3])) (factory fun _ => 0)).map (fun s =>
          (s.main.pgmMask.getLsbD 2, (s.ledger.last 2).map List.length,
            decide (Holds s.main.ee 2 (instrBytes ((s.ledger.last 2).getD []))))) =
        some (true, some 17, false) ∧
      (runAll Sys.step (radio ![0xFF, 0, 0, 9] :: List.replicate 15 (radio ![0x10, 1, 2, 3]))
        (factory fun _ => 0)).map (fun s =>
          (written s.main (radio ![0x10, 1, 2, 3])).head?) =
        some (some (.ee 0x9000 0x10)) := by
  decide +kernel

end ELuaBrain.Lights
