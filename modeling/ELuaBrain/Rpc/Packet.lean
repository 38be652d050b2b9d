import ELuaBrain.System.Bytes

/-!
# The packets of the remote procedure calls

The code of `eluarpc.c`. A packet is written and read by a format string with its arguments; here a
format is the list of its fields, and each field has the type of what is written for it and of what
is read. Memory starts at the packet, and a pointer into the packet is its offset. The signature is
an `unsigned long` constant, so its complement has the width of the host.

## Main definitions

* `Field`, `Args`, `Outs` : formats, what is written by them and what is read.
* `genWrite`, `genRead`, `getPacketSize`, `getRequestId` : the functions of the codec.
* `packetBytes` : the bytes of a packet.

## Main results

* `genWrite_eq` : what is written are these bytes.
* `genRead_genWrite` : they are read back.
* `genRead_ok_iff` : only packets are read without an error.
-/

namespace ELuaBrain.Rpc

/-! ### Constants -/

/-- The width of `unsigned long`. -/
inductive ULong where
  | bits32
  | bits64
  deriving DecidableEq

/-- `~` of an `unsigned long`. -/
def ULong.compl : ULong → ℕ → ℕ
  | bits32, x => 2 ^ 32 - 1 - x
  | bits64, x => 2 ^ 64 - 1 - x

/-- `PACKET_SIG`. -/
def packetSig : ℕ := 0x18AFC284

/-- `TYPE_INT_8` and the other codes. -/
def typeInt8 : UInt8 := 0x01
def typeInt16 : UInt8 := 0x02
def typeInt32 : UInt8 := 0x03
def typePtr : UInt8 := 0x04
def typeStart : UInt8 := 0x05
def typeEnd : UInt8 := 0x06
def typeOpId : UInt8 := 0x07
def typeSmallPtr : UInt8 := 0x08
def typePktSize : UInt8 := 0xA5

/-- `ELUARPC_OP_RES_MOD`. -/
def opResMod : UInt8 := 0x80

/-- `ELUARPC_START_OFFSET`. -/
def startOffset : ℕ := 4

/-- `ELUARPC_READ_BUF_OFFSET`. -/
def readBufOffset : ℕ := 17

/-- `ELUARPC_WRITE_REQUEST_EXTRA`. -/
def writeRequestExtra : ℕ := 29

/-- `ELUARPC_PTR_HEADER_SIZE`. -/
def ptrHeaderSize : ℕ := 6

/-- `ELUARPC_SMALL_PTR_HEADER_SIZE`. -/
def smallPtrHeaderSize : ℕ := 4

/-! ### Formats -/

/-- The specifiers of a format, the first two with the operation. -/
inductive Field where
  | o (id : UInt8)
  | r (id : UInt8)
  | c
  | h
  | l
  | L
  | i
  | p
  | P
  deriving DecidableEq

/-- What is written for a field. A pointer is `none` if it is `NULL`, and else the memory there. -/
abbrev Field.Arg : Field → Type
  | o _ | r _ => Unit
  | c => UInt8
  | h => UInt16
  | l => UInt32
  | L | i => Int32
  | p => Option Memory × UInt32
  | P => Option Memory × UInt16

/-- What is read for a field. A pointer is `none` if it is `NULL`, and else an offset. -/
abbrev Field.Out : Field → Type
  | o _ | r _ => Unit
  | c => UInt8
  | h => UInt16
  | l => UInt32
  | L | i => Int32
  | p => Option ℕ × UInt32
  | P => Option ℕ × UInt16

/-- The arguments of `eluarpc_gen_write`. -/
abbrev Args : List Field → Type
  | [] => Unit
  | f :: fs => f.Arg × Args fs

/-- What `eluarpc_gen_read` gives. -/
abbrev Outs : List Field → Type
  | [] => Unit
  | f :: fs => f.Out × Outs fs

/-! ### Writing -/

/-- The memory with the pointer of the writing functions. -/
structure Cursor where
  mem : Memory
  p : ℕ

/-- `*p ++ =` for some bytes. -/
def emit (bs : List UInt8) (w : Cursor) : Cursor :=
  { mem := w.mem.overlay w.p bs, p := w.p + bs.length }

/-- `eluarpc_write_u8`. -/
def writeU8 (x : UInt8) : Cursor → Cursor := emit [typeInt8, x]

/-- `eluarpc_write_op_id`. -/
def writeOpId (x : UInt8) : Cursor → Cursor := emit [typeOpId, x]

/-- `eluarpc_write_u16`. -/
def writeU16 (x : UInt16) : Cursor → Cursor := emit (typeInt16 :: u16Bytes x)

/-- `eluarpc_write_u32`. -/
def writeU32 (x : UInt32) : Cursor → Cursor := emit (typeInt32 :: u32Bytes x)

/-- `memcpy` of `len` bytes if `src` is not `NULL`, after which the pointer is advanced. -/
def copyBlock (src : Option Memory) (len : ℕ) (w : Cursor) : Cursor :=
  match src with
  | some src => emit (src.slice 0 len) w
  | none => { w with p := w.p + len }

/-- `eluarpc_write_ptr`. -/
def writePtr (src : Option Memory) (len : UInt32) (w : Cursor) : Cursor :=
  copyBlock src len.toNat (writeU32 len (emit [typePtr] w))

/-- `eluarpc_write_small_ptr`. -/
def writeSmallPtr (src : Option Memory) (len : UInt16) (w : Cursor) : Cursor :=
  copyBlock src len.toNat (writeU16 len (emit [typeSmallPtr] w))

/-- `eluarpc_start_packet`. -/
def startPacket (m : Memory) : Cursor :=
  writeU32 (UInt32.ofNat packetSig) (emit [typeStart] { mem := m, p := startOffset })

/-- The end marker that `eluarpc_end_packet` writes first. The complement of the signature is
converted to 32 bits. -/
def endMarker (w : Cursor) : Cursor :=
  writeU32 (UInt32.ofNat (ULong.bits32.compl packetSig)) (emit [typeEnd] w)

/-- `eluarpc_end_packet`, after the end marker. -/
def writePacketSize (w : Cursor) : Memory :=
  (writeU16 (UInt16.ofNat w.p) (emit [typePktSize] { w with p := 0 })).mem

/-- The cases of `eluarpc_gen_write`. -/
def writeField : (f : Field) → f.Arg → Cursor → Cursor
  | .o id, _ => writeOpId id
  | .r id, _ => emit [opResMod ||| id]
  | .c, x => writeU8 x
  | .h, x => writeU16 x
  | .l, x => writeU32 x
  | .L, x => writeU32 x.toUInt32
  | .i, x => writeU32 x.toUInt32
  | .p, (src, len) => writePtr src len
  | .P, (src, len) => writeSmallPtr src len

/-- The loop of `eluarpc_gen_write`. -/
def writeFields : (fs : List Field) → Args fs → Cursor → Cursor
  | [], _, w => w
  | f :: fs, (a, as), w => writeFields fs as (writeField f a w)

/-- `eluarpc_gen_write` up to the end marker. The pointer is then behind the packet. -/
def genWriteCursor (m : Memory) (fs : List Field) (as : Args fs) : Cursor :=
  endMarker (writeFields fs as (startPacket m))

/-- `eluarpc_gen_write`. -/
def genWrite (m : Memory) (fs : List Field) (as : Args fs) : Memory :=
  writePacketSize (genWriteCursor m fs as)

/-! ### Reading -/

/-- The pointer of the reading functions, `eluarpc_err_flag`, and the end of the part of the memory
that was read. -/
structure Reader where
  p : ℕ
  err : Bool := false
  far : ℕ := 0
  deriving DecidableEq

section Read

variable (m : Memory)

/-- `*p ++`. -/
def next (s : Reader) : UInt8 × Reader :=
  (m s.p, { s with p := s.p + 1, far := max s.far (s.p + 1) })

/-- `eluarpc_read_expect`. -/
def readExpect (x : UInt8) (s : Reader) : Reader :=
  let (y, s) := next m s
  if y ≠ x then { s with err := true } else s

/-- `eluarpc_read_u8`. -/
def readU8 (s : Reader) : UInt8 × Reader := next m (readExpect m typeInt8 s)

/-- `eluarpc_read_op_id`. -/
def readOpId (s : Reader) : UInt8 × Reader := next m (readExpect m typeOpId s)

/-- `eluarpc_expect_op_id`. -/
def expectOpId (id : UInt8) (s : Reader) : Reader :=
  let (temp, s) := next m (readExpect m typeOpId s)
  if temp ≠ id then { s with err := true } else s

/-- `eluarpc_read_u16`. -/
def readU16 (s : Reader) : UInt16 × Reader :=
  let (a, s) := next m (readExpect m typeInt16 s)
  let (b, s) := next m s
  (u16OfBytes a b, s)

/-- `eluarpc_read_u32`. -/
def readU32 (s : Reader) : UInt32 × Reader :=
  let (a, s) := next m (readExpect m typeInt32 s)
  let (b, s) := next m s
  let (c, s) := next m s
  let (d, s) := next m s
  (u32OfBytes a b c d, s)

/-- `eluarpc_read_ptr`, where nothing is copied. -/
def readPtr (s : Reader) : UInt32 × Reader :=
  let (len, s) := readU32 m (readExpect m typePtr s)
  (len, { s with p := s.p + len.toNat })

/-- `eluarpc_read_small_ptr`, where nothing is copied. -/
def readSmallPtr (s : Reader) : UInt16 × Reader :=
  let (len, s) := readU16 m (readExpect m typeSmallPtr s)
  (len, { s with p := s.p + len.toNat })

/-- What `eluarpc_match_packet_start` and `eluarpc_match_packet_end` have in common. -/
def matchMarker (type : UInt8) (sig : ℕ) (s : Reader) : Reader :=
  let (fdata, s) := readU32 m (readExpect m type s)
  if fdata.toNat ≠ sig then { s with err := true } else s

/-- `eluarpc_match_packet_start`. -/
def matchPacketStart (s : Reader) : Reader :=
  matchMarker m typeStart packetSig { s with p := s.p + startOffset }

/-- `eluarpc_match_packet_end`. -/
def matchPacketEnd (w : ULong) (s : Reader) : Reader :=
  matchMarker m typeEnd (w.compl packetSig) s

/-- The cases of `eluarpc_gen_read`. -/
def readField (f : Field) (s : Reader) : f.Out × Reader :=
  match f with
  | .o id => ((), expectOpId m id s)
  | .r id => ((), readExpect m (opResMod ||| id) s)
  | .c => readU8 m s
  | .h => readU16 m s
  | .l => readU32 m s
  | .L => let (temp32, s) := readU32 m s; (temp32.toInt32, s)
  | .i => let (temp32, s) := readU32 m s; (temp32.toInt32, s)
  | .p =>
      let (len, s') := readPtr m s
      ((if s'.p = s.p + ptrHeaderSize then none else some (s.p + ptrHeaderSize), len), s')
  | .P =>
      let (len, s') := readSmallPtr m s
      ((if s'.p = s.p + smallPtrHeaderSize then none else some (s.p + smallPtrHeaderSize), len), s')

/-- The loop of `eluarpc_gen_read`. -/
def readFields : (fs : List Field) → Reader → Outs fs × Reader
  | [], s => ((), s)
  | f :: fs, s =>
      let (v, s) := readField m f s
      let (vs, s) := readFields fs s
      ((v, vs), s)

/-- `eluarpc_gen_read`, with the state of the reading functions at the end. -/
def genReadState (w : ULong) (fs : List Field) : Outs fs × Reader :=
  let (vs, s) := readFields m fs (matchPacketStart m { p := 0 })
  (vs, matchPacketEnd m w s)

/-- `eluarpc_gen_read`. True stands for `ELUARPC_OK`. -/
def genRead (w : ULong) (fs : List Field) : Bool × Outs fs :=
  let (vs, s) := genReadState m w fs
  (!s.err, vs)

/-- `eluarpc_get_packet_size`. -/
def getPacketSize : Bool × UInt16 :=
  let (size, s) := readU16 m (readExpect m typePktSize { p := 0 })
  (!s.err, size)

/-- `eluarpc_get_request_id`. -/
def getRequestId : Bool × UInt8 :=
  let (id, s) := readOpId m (matchPacketStart m { p := 0 })
  (!s.err, id)

end Read

/-! ### The bytes of a packet -/

/-- The bytes of a block. Where nothing is copied they are those that are there already. -/
def blockBytes (m : Memory) (p : ℕ) (src : Option Memory) (len : ℕ) : List UInt8 :=
  match src with
  | some src => src.slice 0 len
  | none => m.slice p len

/-- The bytes of a field that is written to `p`. -/
def fieldBytes (m : Memory) (p : ℕ) : (f : Field) → f.Arg → List UInt8
  | .o id, _ => [typeOpId, id]
  | .r id, _ => [opResMod ||| id]
  | .c, x => [typeInt8, x]
  | .h, x => typeInt16 :: u16Bytes x
  | .l, x => typeInt32 :: u32Bytes x
  | .L, x => typeInt32 :: u32Bytes x.toUInt32
  | .i, x => typeInt32 :: u32Bytes x.toUInt32
  | .p, (src, len) =>
      (typePtr :: typeInt32 :: u32Bytes len) ++ blockBytes m (p + ptrHeaderSize) src len.toNat
  | .P, (src, len) =>
      (typeSmallPtr :: typeInt16 :: u16Bytes len) ++
        blockBytes m (p + smallPtrHeaderSize) src len.toNat

/-- Their number. -/
def fieldLength : (f : Field) → f.Arg → ℕ
  | .o _, _ => 2
  | .r _, _ => 1
  | .c, _ => 2
  | .h, _ => 3
  | .l, _ | .L, _ | .i, _ => 5
  | .p, (_, len) => ptrHeaderSize + len.toNat
  | .P, (_, len) => smallPtrHeaderSize + len.toNat

/-- The bytes of fields that are written to `p` one after the other. -/
def fieldsBytes (m : Memory) (p : ℕ) : (fs : List Field) → Args fs → List UInt8
  | [], _ => []
  | f :: fs, (a, as) => fieldBytes m p f a ++ fieldsBytes m (p + fieldLength f a) fs as

/-- Their number. -/
def fieldsLength : (fs : List Field) → Args fs → ℕ
  | [], _ => 0
  | f :: fs, (a, as) => fieldLength f a + fieldsLength fs as

/-- The bytes of the start marker. -/
def startBytes : List UInt8 := typeStart :: typeInt32 :: u32Bytes (UInt32.ofNat packetSig)

/-- The bytes of the end marker. -/
def endBytes : List UInt8 :=
  typeEnd :: typeInt32 :: u32Bytes (UInt32.ofNat (ULong.bits32.compl packetSig))

/-- The bytes of a packet behind its size. -/
def bodyBytes (m : Memory) (fs : List Field) (as : Args fs) : List UInt8 :=
  startBytes ++ fieldsBytes m 10 fs as ++ endBytes

/-- The number of bytes of a packet. -/
def packetLength (fs : List Field) (as : Args fs) : ℕ := 16 + fieldsLength fs as

/-- The bytes of a packet. -/
def packetBytes (m : Memory) (fs : List Field) (as : Args fs) : List UInt8 :=
  (typePktSize :: typeInt16 :: u16Bytes (UInt16.ofNat (packetLength fs as))) ++ bodyBytes m fs as

section Bytes

variable {m m' : Memory} {p : ℕ} {f : Field} {fs : List Field}

@[simp] theorem length_blockBytes {src : Option Memory} {len : ℕ} :
    (blockBytes m p src len).length = len := by
  cases src <;> exact Memory.length_slice

@[simp] theorem length_fieldBytes (m : Memory) (p : ℕ) (f : Field) (a : f.Arg) :
    (fieldBytes m p f a).length = fieldLength f a := by
  cases f with
  | p | P =>
    simp only [fieldBytes, fieldLength, ptrHeaderSize, smallPtrHeaderSize, List.length_append,
      List.length_cons, length_u16Bytes, length_u32Bytes, length_blockBytes]
  | _ => rfl

@[simp] theorem length_fieldsBytes (m : Memory) (p : ℕ) (fs : List Field) (as : Args fs) :
    (fieldsBytes m p fs as).length = fieldsLength fs as := by
  induction fs generalizing p with
  | nil => rfl
  | cons f fs ih => rw [fieldsBytes, fieldsLength, List.length_append, length_fieldBytes, ih]

theorem length_bodyBytes (m : Memory) (fs : List Field) (as : Args fs) :
    (bodyBytes m fs as).length = 12 + fieldsLength fs as := by
  simp only [bodyBytes, List.length_append, length_fieldsBytes]
  change 6 + _ + 6 = _
  omega

theorem length_packetBytes (m : Memory) (fs : List Field) (as : Args fs) :
    (packetBytes m fs as).length = packetLength fs as := by
  rw [packetBytes, List.length_append, length_bodyBytes, packetLength]
  change 4 + _ = _
  omega

/-- The bytes depend on what is at and behind the place where they are written. -/
theorem fieldBytes_congr (h : ∀ k, p ≤ k → m k = m' k) (a : f.Arg) :
    fieldBytes m p f a = fieldBytes m' p f a := by
  have hblock : ∀ (src : Option Memory) (len n : ℕ),
      blockBytes m (p + n) src len = blockBytes m' (p + n) src len := by
    intro src len n
    cases src with
    | some src => rfl
    | none => exact Memory.slice_congr fun i _ => h _ (by omega)
  cases f with
  | p => rw [fieldBytes, fieldBytes, hblock]
  | P => rw [fieldBytes, fieldBytes, hblock]
  | _ => rfl

theorem fieldsBytes_congr (h : ∀ k, p ≤ k → m k = m' k) (as : Args fs) :
    fieldsBytes m p fs as = fieldsBytes m' p fs as := by
  induction fs generalizing p with
  | nil => rfl
  | cons f fs ih =>
    rw [fieldsBytes, fieldsBytes, fieldBytes_congr h, ih fun k hk => h k (by omega)]

end Bytes

/-! ### Writing a packet -/

section Write

variable {m : Memory} {p : ℕ} {bs cs : List UInt8}

theorem emit_emit (w : Cursor) : emit cs (emit bs w) = emit (bs ++ cs) w := by
  rw [emit, emit, emit, Memory.overlay_overlay, List.length_append, Nat.add_assoc]

/-- A block is written, or skipped, which comes to the same as writing what is there. -/
theorem copyBlock_eq (src : Option Memory) (len : ℕ) (w : Cursor) :
    copyBlock src len w = emit (blockBytes w.mem w.p src len) w := by
  cases src with
  | some src => rfl
  | none =>
    rw [blockBytes, emit, Memory.overlay_slice, Memory.length_slice]
    rfl

theorem copyBlock_emit (src : Option Memory) (len : ℕ) (w : Cursor) :
    copyBlock src len (emit bs w) =
      emit (bs ++ blockBytes w.mem (w.p + bs.length) src len) w := by
  rw [copyBlock_eq, emit_emit]
  cases src with
  | some src => rfl
  | none =>
    have hslice : (emit bs w).mem.slice (w.p + bs.length) len =
        w.mem.slice (w.p + bs.length) len := Memory.slice_overlay_of_disjoint (.inr (Nat.le_refl _))
    exact congrArg (fun cs => emit (bs ++ cs) w) hslice

theorem writeField_eq (f : Field) (a : f.Arg) (w : Cursor) :
    writeField f a w = emit (fieldBytes w.mem w.p f a) w := by
  cases f with
  | p =>
    rw [writeField, writePtr, writeU32, emit_emit, copyBlock_emit]
    rfl
  | P =>
    rw [writeField, writeSmallPtr, writeU16, emit_emit, copyBlock_emit]
    rfl
  | _ => rfl

theorem writeFields_eq (fs : List Field) (as : Args fs) (w : Cursor) :
    writeFields fs as w = emit (fieldsBytes w.mem w.p fs as) w := by
  induction fs generalizing w with
  | nil =>
    rw [writeFields, fieldsBytes, emit, Memory.overlay_nil]
    rfl
  | cons f fs ih =>
    have hbytes : ∀ a : f.Arg, ∀ as : Args fs,
        fieldsBytes (emit (fieldBytes w.mem w.p f a) w).mem (w.p + fieldLength f a) fs as =
          fieldsBytes w.mem (w.p + fieldLength f a) fs as := fun a as =>
      fieldsBytes_congr (fun k hk => Memory.overlay_of_le (by rwa [length_fieldBytes])) as
    have hp : ∀ a, (emit (fieldBytes w.mem w.p f a) w).p = w.p + fieldLength f a := fun a => by
      rw [emit, length_fieldBytes]
    rw [writeFields, writeField_eq, ih, hp, hbytes, emit_emit]
    rfl

/-- The pointer is behind the packet when its size is written. -/
theorem genWriteCursor_eq (m : Memory) (fs : List Field) (as : Args fs) :
    genWriteCursor m fs as = { mem := m.overlay 4 (bodyBytes m fs as), p := packetLength fs as } := by
  have hstart : startPacket m = emit startBytes { mem := m, p := 4 } := emit_emit _
  have hbytes : fieldsBytes (startPacket m).mem 10 fs as = fieldsBytes m 10 fs as :=
    fieldsBytes_congr (fun k hk => by rw [hstart]; exact Memory.overlay_of_le hk) as
  have hp : (startPacket m).p = 10 := rfl
  have hend : ∀ w, endMarker w = emit endBytes w := fun w => emit_emit w
  rw [genWriteCursor, writeFields_eq, hend, hp, hbytes, hstart, emit_emit, emit_emit,
    ← List.append_assoc]
  change Cursor.mk (m.overlay 4 (bodyBytes m fs as)) (4 + (bodyBytes m fs as).length) = _
  rw [length_bodyBytes, packetLength]
  congr 1
  omega

/-- **Writing.** The bytes of the packet are written, and nothing else. -/
theorem genWrite_eq (m : Memory) (fs : List Field) (as : Args fs) :
    genWrite m fs as = m.overlay 0 (packetBytes m fs as) := by
  have hfront : ∀ hdr : List UInt8, hdr.length = 4 →
      (m.overlay 4 (bodyBytes m fs as)).overlay 0 hdr = m.overlay 0 (hdr ++ bodyBytes m fs as) := by
    intro hdr hlen
    rw [← Memory.overlay_overlay_front, hlen]
  rw [genWrite, genWriteCursor_eq, writePacketSize, writeU16, emit_emit]
  exact hfront _ rfl

end Write

/-! ### Reading a packet -/

/-- What was read for a field as what can be written for it. -/
def Field.toArg (m : Memory) : (f : Field) → f.Out → f.Arg
  | .o _, _ => ()
  | .r _, _ => ()
  | .c, x => x
  | .h, x => x
  | .l, x => x
  | .L, x => x
  | .i, x => x
  | .p, (at?, len) => (at?.map fun a k => m (a + k), len)
  | .P, (at?, len) => (at?.map fun a k => m (a + k), len)

/-- What was read as what can be written. -/
def toArgs (m : Memory) : (fs : List Field) → Outs fs → Args fs
  | [], _ => ()
  | f :: fs, (v, vs) => (f.toArg m v, toArgs m fs vs)

/-- What is read for a field that was written to `p`. -/
def Field.outOf (p : ℕ) : (f : Field) → f.Arg → f.Out
  | .o _, _ => ()
  | .r _, _ => ()
  | .c, x => x
  | .h, x => x
  | .l, x => x
  | .L, x => x
  | .i, x => x
  | .p, (_, len) => (if len = 0 then none else some (p + ptrHeaderSize), len)
  | .P, (_, len) => (if len = 0 then none else some (p + smallPtrHeaderSize), len)

/-- What is read for fields that were written to `p`. -/
def outsOf (p : ℕ) : (fs : List Field) → Args fs → Outs fs
  | [], _ => ()
  | f :: fs, (a, as) => (f.outOf p a, outsOf (p + fieldLength f a) fs as)

/-- A reading function goes on by `n` bytes, where it finds `bs` if and only if there is no error.
It reads nothing behind them. -/
structure Reads (m : Memory) (s s' : Reader) (bs : List UInt8) : Prop where
  p : s'.p = s.p + bs.length
  err : s'.err = false ↔ s.err = false ∧ m.slice s.p bs.length = bs
  far : s'.far ≤ s'.p

section Reads

variable {m : Memory} {s s' s'' : Reader} {bs cs : List UInt8}

theorem Reads.trans (h : Reads m s s' bs) (h' : Reads m s' s'' cs) : Reads m s s'' (bs ++ cs) where
  p := by rw [h'.p, h.p, List.length_append, Nat.add_assoc]
  err := by
    rw [h'.err, h.err, List.length_append, Memory.slice_add, h.p, and_assoc]
    refine and_congr_right fun _ => ⟨fun ⟨h₁, h₂⟩ => by rw [h₁, h₂], fun heq => ?_⟩
    exact List.append_inj heq Memory.length_slice
  far := h'.far

theorem readExpect_reads (x : UInt8) (h : s.far ≤ s.p) : Reads m s (readExpect m x s) [x] := by
  have hslice : m.slice s.p 1 = [x] ↔ m s.p = x := by simp [Memory.slice]
  rw [readExpect]
  dsimp only [next]
  split_ifs with hne
  · refine ⟨rfl, ?_, by dsimp only; omega⟩
    rw [List.length_singleton, hslice]
    simp [hne]
  · refine ⟨rfl, ?_, by dsimp only; omega⟩
    rw [List.length_singleton, hslice]
    simp [not_not.mp hne]

/-- `*p ++` takes the byte that is there. -/
theorem next_reads (h : s.far ≤ s.p) : Reads m s (next m s).2 [(next m s).1] where
  p := rfl
  err := by simp [next, Memory.slice]
  far := by dsimp only [next]; omega

theorem skip_reads (n : ℕ) (h : s.far ≤ s.p) :
    Reads m s { s with p := s.p + n } (m.slice s.p n) where
  p := by rw [Memory.length_slice]
  err := by simp
  far := by dsimp only; omega

theorem readU8_reads (h : s.far ≤ s.p) : Reads m s (readU8 m s).2 [typeInt8, (readU8 m s).1] :=
  have hexpect := readExpect_reads typeInt8 h
  hexpect.trans (next_reads hexpect.far)

theorem expectOpId_reads (id : UInt8) (h : s.far ≤ s.p) :
    Reads m s (expectOpId m id s) [typeOpId, id] :=
  have hexpect := readExpect_reads typeOpId h
  hexpect.trans (readExpect_reads id hexpect.far)

theorem readU16_reads (h : s.far ≤ s.p) :
    Reads m s (readU16 m s).2 (typeInt16 :: u16Bytes (readU16 m s).1) := by
  have hexpect := readExpect_reads (m := m) typeInt16 h
  have ha := next_reads (m := m) hexpect.far
  have hb := next_reads (m := m) ha.far
  have hbytes := hexpect.trans (ha.trans hb)
  rwa [List.singleton_append, List.singleton_append, u16OfBytes_eq_iff.mp rfl] at hbytes

theorem readU32_reads (h : s.far ≤ s.p) :
    Reads m s (readU32 m s).2 (typeInt32 :: u32Bytes (readU32 m s).1) := by
  have hexpect := readExpect_reads (m := m) typeInt32 h
  have ha := next_reads (m := m) hexpect.far
  have hb := next_reads (m := m) ha.far
  have hc := next_reads (m := m) hb.far
  have hd := next_reads (m := m) hc.far
  have hbytes := hexpect.trans (ha.trans (hb.trans (hc.trans hd)))
  rwa [List.singleton_append, List.singleton_append, List.singleton_append, List.singleton_append,
    u32OfBytes_eq_iff.mp rfl] at hbytes

theorem readPtr_reads (h : s.far ≤ s.p) :
    Reads m s (readPtr m s).2 ((typePtr :: typeInt32 :: u32Bytes (readPtr m s).1) ++
      m.slice (s.p + ptrHeaderSize) (readPtr m s).1.toNat) := by
  have hexpect := readExpect_reads (m := m) typePtr h
  have hlen := hexpect.trans (readU32_reads hexpect.far)
  have hp : (readU32 m (readExpect m typePtr s)).2.p = s.p + ptrHeaderSize := hlen.p
  rw [← hp]
  exact hlen.trans (skip_reads (readPtr m s).1.toNat hlen.far)

theorem readSmallPtr_reads (h : s.far ≤ s.p) :
    Reads m s (readSmallPtr m s).2 ((typeSmallPtr :: typeInt16 :: u16Bytes (readSmallPtr m s).1) ++
      m.slice (s.p + smallPtrHeaderSize) (readSmallPtr m s).1.toNat) := by
  have hexpect := readExpect_reads (m := m) typeSmallPtr h
  have hlen := hexpect.trans (readU16_reads hexpect.far)
  have hp : (readU16 m (readExpect m typeSmallPtr s)).2.p = s.p + smallPtrHeaderSize := hlen.p
  rw [← hp]
  exact hlen.trans (skip_reads (readSmallPtr m s).1.toNat hlen.far)

theorem readPtr_p (h : s.far ≤ s.p) :
    (readPtr m s).2.p = s.p + ptrHeaderSize + (readPtr m s).1.toNat := by
  rw [(readPtr_reads h).p, List.length_append, Memory.length_slice, ← Nat.add_assoc]
  rfl

theorem readSmallPtr_p (h : s.far ≤ s.p) :
    (readSmallPtr m s).2.p = s.p + smallPtrHeaderSize + (readSmallPtr m s).1.toNat := by
  rw [(readSmallPtr_reads h).p, List.length_append, Memory.length_slice, ← Nat.add_assoc]
  rfl

/-- A pointer that was read, or `NULL` for an empty block, is one to the bytes of the block. -/
theorem blockBytes_toArg {c : Prop} [Decidable c] {p len : ℕ} (hc : c → len = 0) :
    blockBytes m p ((if c then none else some p).map fun a k => m (a + k)) len =
      m.slice p len := by
  split_ifs with h
  · rw [hc h]
    rfl
  · change Memory.slice (fun k => m (p + k)) 0 len = m.slice p len
    exact Memory.slice_congr fun k _ => by rw [Nat.zero_add]

/-- **One field.** It is read without an error if and only if the bytes are those that would be
written for what was read. -/
theorem readField_reads (f : Field) (h : s.far ≤ s.p) :
    Reads m s (readField m f s).2 (fieldBytes m s.p f (f.toArg m (readField m f s).1)) := by
  cases f with
  | o id => exact expectOpId_reads id h
  | r id => exact readExpect_reads _ h
  | c => exact readU8_reads h
  | h => exact readU16_reads h
  | l => exact readU32_reads h
  | L => exact readU32_reads h
  | i => exact readU32_reads h
  | p =>
    have hreads := readPtr_reads (m := m) h
    have hc : (readPtr m s).2.p = s.p + ptrHeaderSize → (readPtr m s).1.toNat = 0 := fun hp => by
      rw [readPtr_p h] at hp
      omega
    rw [← blockBytes_toArg hc] at hreads
    exact hreads
  | P =>
    have hreads := readSmallPtr_reads (m := m) h
    have hc : (readSmallPtr m s).2.p = s.p + smallPtrHeaderSize →
        (readSmallPtr m s).1.toNat = 0 := fun hp => by
      rw [readSmallPtr_p h] at hp
      omega
    rw [← blockBytes_toArg hc] at hreads
    exact hreads

/-- **The loop.** The fields are read without an error if and only if their bytes are those that
would be written for what was read. -/
theorem readFields_reads (fs : List Field) (h : s.far ≤ s.p) :
    Reads m s (readFields m fs s).2
      (fieldsBytes m s.p fs (toArgs m fs (readFields m fs s).1)) := by
  induction fs generalizing s with
  | nil => exact ⟨rfl, by simp [readFields, fieldsBytes], h⟩
  | cons f fs ih =>
    have hfield := readField_reads (m := m) f h
    have hp := hfield.p
    rw [length_fieldBytes] at hp
    have hfields := ih hfield.far
    rw [hp] at hfields
    exact hfield.trans hfields

@[simp] theorem readExpect_p (x : UInt8) : (readExpect m x s).p = s.p + 1 := by
  rw [readExpect]
  dsimp only [next]
  split_ifs <;> rfl

/-- The value that is read from the bytes of a word. -/
theorem readU16_fst_of_slice {x : UInt16} (h : m.slice (s.p + 1) 2 = u16Bytes x) :
    (readU16 m s).1 = x := by
  simp only [Memory.slice_succ, Memory.slice_zero, ← u16OfBytes_eq_iff] at h
  rw [← h, readU16]
  simp only [next, readExpect_p]

theorem readU32_fst_of_slice {x : UInt32} (h : m.slice (s.p + 1) 4 = u32Bytes x) :
    (readU32 m s).1 = x := by
  simp only [Memory.slice_succ, Memory.slice_zero, ← u32OfBytes_eq_iff] at h
  rw [← h, readU32]
  simp only [next, readExpect_p]

/-- A marker of 32 bits is matched. -/
theorem matchMarker_reads (type : UInt8) {sig : ℕ} (hsig : sig < 2 ^ 32) (h : s.far ≤ s.p) :
    Reads m s (matchMarker m type sig s)
      (type :: typeInt32 :: u32Bytes (UInt32.ofNat sig)) := by
  have hexpect := readExpect_reads (m := m) type h
  have hreads := hexpect.trans (readU32_reads hexpect.far)
  rw [matchMarker]
  dsimp only
  split_ifs with hne
  · refine ⟨hreads.p, ⟨fun herr => absurd herr (by simp), fun ⟨_, hslice⟩ => ?_⟩, hreads.far⟩
    have hbytes : m.slice ((readExpect m type s).p + 1) 4 = u32Bytes (UInt32.ofNat sig) := by
      simp only [List.length_cons, length_u32Bytes, Memory.slice_succ (n := 5),
        Memory.slice_succ (n := 4), List.cons.injEq] at hslice
      rw [readExpect_p]
      exact hslice.2.2
    exact absurd (by rw [readU32_fst_of_slice hbytes, UInt32.toNat_ofNat_of_lt' hsig]) hne
  · rw [← not_not.mp hne, UInt32.ofNat_toNat]
    exact hreads

/-- No word of 32 bits is a marker that does not fit into one. -/
theorem matchMarker_err (type : UInt8) {sig : ℕ} (hsig : 2 ^ 32 ≤ sig) :
    (matchMarker m type sig s).err = true := by
  rw [matchMarker]
  dsimp only
  rw [if_pos ((UInt32.toNat_lt _).trans_le hsig).ne]

/-! ### Accepted packets -/

theorem matchPacketStart_reads :
    Reads m { p := 4 } (matchPacketStart m { p := 0 }) startBytes :=
  matchMarker_reads (s := { p := 0 + startOffset }) typeStart (by decide) (Nat.zero_le _)

/-- **Reading.** Where `unsigned long` has 32 bits, a packet is read without an error if and only if
its body consists of the bytes that would be written for what was read. -/
theorem genReadState_reads (fs : List Field) :
    Reads m { p := 4 } (genReadState m .bits32 fs).2
      (bodyBytes m fs (toArgs m fs (genReadState m .bits32 fs).1)) := by
  have hstart := matchPacketStart_reads (m := m)
  have hfields := readFields_reads (m := m) fs hstart.far
  have hp : (matchPacketStart m { p := 0 }).p = 10 := hstart.p
  rw [hp] at hfields
  exact (hstart.trans hfields).trans (matchMarker_reads typeEnd (by decide) hfields.far)

theorem genRead_ok_iff (fs : List Field) :
    (genRead m .bits32 fs).1 = true ↔
      m.slice 4 (12 + fieldsLength fs (toArgs m fs (genRead m .bits32 fs).2)) =
        bodyBytes m fs (toArgs m fs (genRead m .bits32 fs).2) := by
  have hreads := (genReadState_reads (m := m) fs).err
  rw [length_bodyBytes] at hreads
  change (!(genReadState m .bits32 fs).2.err) = true ↔ _
  rw [Bool.not_eq_true', hreads]
  exact and_iff_right rfl

/-- Where `unsigned long` has 64 bits, nothing is read without an error. -/
theorem genRead_bits64 (fs : List Field) : (genRead m .bits64 fs).1 = false := by
  rw [genRead, genReadState]
  dsimp only
  rw [matchPacketEnd, matchMarker_err typeEnd (by decide)]
  rfl

/-! ### The round trip -/

/-- What is read for a field whose bytes were written for `a`. -/
theorem readField_fst_of_slice {m' : Memory} {q : ℕ} (f : Field) (a : f.Arg) (h : s.far ≤ s.p)
    (hslice : m.slice s.p (fieldLength f a) = fieldBytes m' q f a) :
    (readField m f s).1 = f.outOf s.p a := by
  cases f with
  | o id => rfl
  | r id => rfl
  | c =>
    simp only [fieldLength, fieldBytes, Memory.slice_succ, Memory.slice_zero, List.cons.injEq]
      at hslice
    simp only [readField, readU8, next, readExpect_p]
    exact hslice.2.1
  | h =>
    rw [fieldLength, fieldBytes, Memory.slice_succ, List.cons.injEq] at hslice
    exact readU16_fst_of_slice hslice.2
  | l =>
    rw [fieldLength, fieldBytes, Memory.slice_succ, List.cons.injEq] at hslice
    exact readU32_fst_of_slice hslice.2
  | L =>
    rw [fieldLength, fieldBytes, Memory.slice_succ, List.cons.injEq] at hslice
    exact congrArg UInt32.toInt32 (readU32_fst_of_slice hslice.2)
  | i =>
    rw [fieldLength, fieldBytes, Memory.slice_succ, List.cons.injEq] at hslice
    exact congrArg UInt32.toInt32 (readU32_fst_of_slice hslice.2)
  | p =>
    obtain ⟨src, len⟩ := a
    have hlen : (readPtr m s).1 = len := by
      rw [fieldLength, fieldBytes, ptrHeaderSize, Memory.slice_add] at hslice
      have hhdr := (List.append_inj hslice rfl).1
      rw [Memory.slice_succ (n := 5), Memory.slice_succ (n := 4), List.cons.injEq,
        List.cons.injEq] at hhdr
      refine readU32_fst_of_slice ?_
      rw [readExpect_p]
      exact hhdr.2.2
    have hnull : (readPtr m s).2.p = s.p + ptrHeaderSize ↔ len = 0 := by
      rw [readPtr_p h, hlen, ← UInt32.toNat_inj]
      exact Nat.add_eq_left
    change (if (readPtr m s).2.p = _ then _ else _, (readPtr m s).1) = _
    rw [Field.outOf, hlen]
    simp only [hnull]
  | P =>
    obtain ⟨src, len⟩ := a
    have hlen : (readSmallPtr m s).1 = len := by
      rw [fieldLength, fieldBytes, smallPtrHeaderSize, Memory.slice_add] at hslice
      have hhdr := (List.append_inj hslice rfl).1
      rw [Memory.slice_succ (n := 3), Memory.slice_succ (n := 2), List.cons.injEq,
        List.cons.injEq] at hhdr
      refine readU16_fst_of_slice ?_
      rw [readExpect_p]
      exact hhdr.2.2
    have hnull : (readSmallPtr m s).2.p = s.p + smallPtrHeaderSize ↔ len = 0 := by
      rw [readSmallPtr_p h, hlen, ← UInt16.toNat_inj]
      exact Nat.add_eq_left
    change (if (readSmallPtr m s).2.p = _ then _ else _, (readSmallPtr m s).1) = _
    rw [Field.outOf, hlen]
    simp only [hnull]

/-- What is read for a field is written as the same bytes again. -/
theorem fieldBytes_toArg_outOf {m' : Memory} {p q : ℕ} (f : Field) (a : f.Arg)
    (hslice : m.slice p (fieldLength f a) = fieldBytes m' q f a) :
    fieldBytes m p f (f.toArg m (f.outOf p a)) = fieldBytes m' q f a := by
  cases f with
  | p =>
    obtain ⟨src, len⟩ := a
    rw [← hslice, fieldLength, Memory.slice_add]
    rw [fieldLength, fieldBytes, Memory.slice_add] at hslice
    rw [(List.append_inj hslice rfl).1, fieldBytes]
    exact congrArg _ (blockBytes_toArg fun h => by rw [h]; rfl)
  | P =>
    obtain ⟨src, len⟩ := a
    rw [← hslice, fieldLength, Memory.slice_add]
    rw [fieldLength, fieldBytes, Memory.slice_add] at hslice
    rw [(List.append_inj hslice rfl).1, fieldBytes]
    exact congrArg _ (blockBytes_toArg fun h => by rw [h]; rfl)
  | _ => rfl

/-- What is read for fields whose bytes were written for `as`. -/
theorem readFields_of_slice {m' : Memory} {q : ℕ} (fs : List Field) (as : Args fs)
    (h : s.far ≤ s.p) (hslice : m.slice s.p (fieldsLength fs as) = fieldsBytes m' q fs as) :
    (readFields m fs s).1 = outsOf s.p fs as ∧
      Reads m s (readFields m fs s).2 (fieldsBytes m' q fs as) := by
  induction fs generalizing s q with
  | nil => exact ⟨rfl, ⟨rfl, by simp [readFields, fieldsBytes], h⟩⟩
  | cons f fs ih =>
    obtain ⟨a, as⟩ := as
    rw [fieldsLength, fieldsBytes, Memory.slice_add] at hslice
    obtain ⟨hhead, htail⟩ := List.append_inj hslice (by simp)
    have hout := readField_fst_of_slice f a h hhead
    have hreads := readField_reads (m := m) f h
    rw [hout, fieldBytes_toArg_outOf f a hhead] at hreads
    have hp := hreads.p
    rw [length_fieldBytes] at hp
    rw [← hp] at htail
    obtain ⟨houts, hreads'⟩ := ih as hreads.far htail
    refine ⟨?_, hreads.trans hreads'⟩
    rw [hp] at houts
    exact Prod.ext hout houts

/-- **The round trip.** A packet in the memory is read. -/
theorem genRead_of_slice {m' : Memory} (fs : List Field) (as : Args fs)
    (hslice : m.slice 4 (12 + fieldsLength fs as) = bodyBytes m' fs as) :
    genRead m .bits32 fs = (true, outsOf 10 fs as) := by
  have hbody := hslice
  have hlen : 12 + fieldsLength fs as = 6 + fieldsLength fs as + 6 := by omega
  rw [hlen, Memory.slice_add, Memory.slice_add, bodyBytes] at hslice
  obtain ⟨hhead, -⟩ := List.append_inj hslice (by simp; rfl)
  obtain ⟨-, hfields⟩ := List.append_inj hhead rfl
  have hstart := matchPacketStart_reads (m := m)
  have hp : (matchPacketStart m { p := 0 }).p = 10 := hstart.p
  have hslice' : m.slice (matchPacketStart m { p := 0 }).p (fieldsLength fs as) =
      fieldsBytes m' 10 fs as := by
    rw [hp]
    exact hfields
  obtain ⟨houts, hreads⟩ := readFields_of_slice fs as hstart.far hslice'
  have hend := matchMarker_reads (m := m) typeEnd
    (show ULong.bits32.compl packetSig < 2 ^ 32 by decide) hreads.far
  have hbytes := (hstart.trans hreads).trans hend
  have herr := hbytes.err.mpr ⟨rfl, by
    change m.slice 4 (bodyBytes m' fs as).length = bodyBytes m' fs as
    rw [length_bodyBytes]
    exact hbody⟩
  rw [hp] at houts
  refine Prod.ext ?_ houts
  rw [← Bool.not_eq_true'] at herr
  exact herr

/-- What is in the memory after a packet was written. -/
theorem slice_genWrite (m : Memory) (fs : List Field) (as : Args fs) :
    (genWrite m fs as).slice 0 4 =
        typePktSize :: typeInt16 :: u16Bytes (UInt16.ofNat (packetLength fs as)) ∧
      (genWrite m fs as).slice 4 (12 + fieldsLength fs as) = bodyBytes m fs as := by
  have hslice : (genWrite m fs as).slice 0 (4 + (12 + fieldsLength fs as)) =
      packetBytes m fs as := by
    have hlen : 4 + (12 + fieldsLength fs as) = (packetBytes m fs as).length := by
      rw [length_packetBytes, packetLength]
      omega
    rw [genWrite_eq, hlen, Memory.slice_overlay]
  rw [Memory.slice_add, packetBytes] at hslice
  exact List.append_inj hslice rfl

/-- The bytes of the first field and those of the others. -/
theorem slice_fields_cons {m' : Memory} {p : ℕ} {f : Field} {fs : List Field} {a : f.Arg}
    {as : Args fs} (h : m'.slice p (fieldsLength (f :: fs) (a, as)) =
      fieldsBytes m p (f :: fs) (a, as)) :
    m'.slice p (fieldLength f a) = fieldBytes m p f a ∧
      m'.slice (p + fieldLength f a) (fieldsLength fs as) =
        fieldsBytes m (p + fieldLength f a) fs as := by
  rw [fieldsLength, fieldsBytes, Memory.slice_add] at h
  exact List.append_inj h (by simp)

/-- The bytes of the fields of a packet that was written. -/
theorem slice_fields_genWrite (m : Memory) (fs : List Field) (as : Args fs) :
    (genWrite m fs as).slice 10 (fieldsLength fs as) = fieldsBytes m 10 fs as := by
  have hslice := (slice_genWrite m fs as).2
  have hlen : 12 + fieldsLength fs as = 6 + fieldsLength fs as + 6 := by omega
  rw [hlen, Memory.slice_add, Memory.slice_add, bodyBytes] at hslice
  exact (List.append_inj (List.append_inj hslice (by simp; rfl)).1 rfl).2

/-- The bytes of the block of a field. -/
theorem slice_block {m' : Memory} {p : ℕ} {src : Option Memory} {len : UInt32}
    (h : m'.slice p (fieldLength .p (src, len)) = fieldBytes m p .p (src, len)) :
    m'.slice (p + ptrHeaderSize) len.toNat =
      blockBytes m (p + ptrHeaderSize) src len.toNat := by
  rw [fieldLength, fieldBytes, Memory.slice_add] at h
  exact (List.append_inj h rfl).2

/-- A packet that was written is read. -/
theorem genRead_genWrite (m : Memory) (fs : List Field) (as : Args fs) :
    genRead (genWrite m fs as) .bits32 fs = (true, outsOf 10 fs as) :=
  genRead_of_slice fs as (slice_genWrite m fs as).2

/-- The size that is read from the first four bytes of a packet. -/
theorem getPacketSize_of_slice {size : UInt16}
    (h : m.slice 0 4 = typePktSize :: typeInt16 :: u16Bytes size) :
    getPacketSize m = (true, size) := by
  have hexpect := readExpect_reads (m := m) (s := { p := 0 }) typePktSize (Nat.le_refl _)
  have hsize : (readU16 m (readExpect m typePktSize { p := 0 })).1 = size := by
    have hslice := h
    rw [Memory.slice_succ, Memory.slice_succ, List.cons.injEq, List.cons.injEq] at hslice
    refine readU16_fst_of_slice ?_
    rw [readExpect_p]
    exact hslice.2.2
  have herr := ((hexpect.trans (readU16_reads hexpect.far)).err).mpr ⟨rfl, by
    rw [hsize]
    exact h⟩
  rw [← Bool.not_eq_true'] at herr
  exact Prod.ext herr hsize

/-- The size of a packet that was written, as far as it fits into 16 bits. -/
theorem getPacketSize_genWrite (m : Memory) (fs : List Field) (as : Args fs) :
    getPacketSize (genWrite m fs as) = (true, UInt16.ofNat (packetLength fs as)) :=
  getPacketSize_of_slice (slice_genWrite m fs as).1

/-- The operation of a request in the memory. -/
theorem getRequestId_of_slice {m' : Memory} (id : UInt8) (fs : List Field) (as : Args fs)
    (hslice : m.slice 4 (12 + fieldsLength (.o id :: fs) ((), as)) =
      bodyBytes m' (.o id :: fs) ((), as)) : getRequestId m = (true, id) := by
  have hbytes : bodyBytes m' (.o id :: fs) ((), as) =
      (startBytes ++ [typeOpId, id]) ++ (fieldsBytes m' 12 fs as ++ endBytes) := by
    simp only [bodyBytes, fieldsBytes, fieldBytes, fieldLength, List.append_assoc]
  have hlen : 12 + fieldsLength (.o id :: fs) ((), as) = 8 + (6 + fieldsLength fs as) := by
    rw [fieldsLength, fieldLength]
    omega
  rw [hbytes, hlen, Memory.slice_add] at hslice
  have hbody := (List.append_inj hslice rfl).1
  have hstart := matchPacketStart_reads (m := m)
  have hexpect := hstart.trans (readExpect_reads typeOpId hstart.far)
  have hid : (getRequestId m).2 = id := by
    have hget := congrArg (fun bs => bs[7]?) hbody
    rw [Memory.getElem?_slice (by decide)] at hget
    change m _ = _
    rw [hexpect.p]
    exact Option.some.inj hget
  have herr := ((hexpect.trans (next_reads hexpect.far)).err).mpr ⟨rfl, by
    change m.slice 4 8 = startBytes ++ [typeOpId] ++ [(getRequestId m).2]
    rw [hid, hbody, List.append_assoc]
    rfl⟩
  rw [← Bool.not_eq_true'] at herr
  exact Prod.ext herr hid

/-- The operation of a request that was written. -/
theorem getRequestId_genWrite (m : Memory) (id : UInt8) (fs : List Field) (as : Args fs) :
    getRequestId (genWrite m (.o id :: fs) ((), as)) = (true, id) :=
  getRequestId_of_slice id fs as (slice_genWrite m (.o id :: fs) ((), as)).2

end Reads

end ELuaBrain.Rpc
