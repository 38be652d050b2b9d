import ELuaBrain.Rpc.Packet

/-!
# The packets of the remote file system

The functions of `remotefs.c`: each operation has a format for its request and one for its response,
and for each of them one function that writes and one that reads. Where `unsigned long` has 32 bits
the two undo each other; where it has 64 bits, the complement of the signature has 64 bits too and
the reading functions refuse every packet.

## Main definitions

* `CString` : the strings of C.
* `remotefsOpenWriteRequest`, `remotefsOpenReadRequest` and others : the functions of `remotefs.c`.
* `RfsPacket`, `RfsPacket.RoundTrips` : the packets with their arguments, and that they are read.

## Main results

* `roundTrips_iff` : they are read if and only if `unsigned long` has 32 bits.
-/

namespace ELuaBrain.Rpc

/-- A string of C: its bytes before the final zero. The address space has 32 bits. -/
structure CString where
  bytes : List UInt8
  nonzero : 0 ∉ bytes
  length_lt : bytes.length + 1 < 2 ^ 32

namespace CString

/-- `strlen`. -/
def strlen (s : CString) : ℕ := s.bytes.length

/-- The bytes with the final zero. -/
def block (s : CString) : List UInt8 := s.bytes ++ [0]

/-- What is in memory at the string. -/
def mem (s : CString) : Memory := fun k => s.bytes.getD k 0

end CString

/-! ### The operations -/

/-- `RFS_OP_OPEN` and the other operations. -/
def rfsOpOpen : UInt8 := 0x01
def rfsOpWrite : UInt8 := 0x02
def rfsOpRead : UInt8 := 0x03
def rfsOpClose : UInt8 := 0x04
def rfsOpLseek : UInt8 := 0x05
def rfsOpOpendir : UInt8 := 0x06
def rfsOpReaddir : UInt8 := 0x07
def rfsOpClosedir : UInt8 := 0x08

section Functions

variable (w : ULong) (m : Memory)

/-- `remotefs_open_write_response`. -/
def remotefsOpenWriteResponse (result : Int32) : Memory :=
  genWrite m [.r rfsOpOpen, .i] ((), result, ())

/-- `remotefs_open_read_response`. -/
def remotefsOpenReadResponse : Bool × Int32 :=
  let (ok, _, result, _) := genRead m w [.r rfsOpOpen, .i]
  (ok, result)

/-- `remotefs_open_write_request`. -/
def remotefsOpenWriteRequest (pathname : CString) (flags mode : Int32) : Memory :=
  genWrite m [.o rfsOpOpen, .p, .i, .i]
    ((), (some pathname.mem, UInt32.ofNat (pathname.strlen + 1)), flags, mode, ())

/-- `remotefs_open_read_request`. -/
def remotefsOpenReadRequest : Bool × Option ℕ × Int32 × Int32 :=
  let (ok, _, (pathname, _), flags, mode, _) := genRead m w [.o rfsOpOpen, .p, .i, .i]
  (ok, pathname, flags, mode)

/-- `remotefs_write_write_response`. -/
def remotefsWriteWriteResponse (result : UInt32) : Memory :=
  genWrite m [.r rfsOpWrite, .l] ((), result, ())

/-- `remotefs_write_read_response`. -/
def remotefsWriteReadResponse : Bool × UInt32 :=
  let (ok, _, result, _) := genRead m w [.r rfsOpWrite, .l]
  (ok, result)

/-- `remotefs_write_write_request`. -/
def remotefsWriteWriteRequest (fd : Int32) (buf : Option Memory) (count : UInt32) : Memory :=
  genWrite m [.o rfsOpWrite, .i, .p] ((), fd, (buf, count), ())

/-- `remotefs_write_read_request`. -/
def remotefsWriteReadRequest : Bool × Int32 × Option ℕ × UInt32 :=
  let (ok, _, fd, (buf, count), _) := genRead m w [.o rfsOpWrite, .i, .p]
  (ok, fd, buf, count)

/-- `remotefs_read_write_response`. The data is in its place already. -/
def remotefsReadWriteResponse (readbytes : UInt32) : Memory :=
  genWrite m [.r rfsOpRead, .p] ((), (none, readbytes), ())

/-- `remotefs_read_read_response`. -/
def remotefsReadReadResponse : Bool × Option ℕ × UInt32 :=
  let (ok, _, (data, readbytes), _) := genRead m w [.r rfsOpRead, .p]
  (ok, data, readbytes)

/-- `remotefs_read_write_request`. -/
def remotefsReadWriteRequest (fd : Int32) (count : UInt32) : Memory :=
  genWrite m [.o rfsOpRead, .i, .l] ((), fd, count, ())

/-- `remotefs_read_read_request`. -/
def remotefsReadReadRequest : Bool × Int32 × UInt32 :=
  let (ok, _, fd, count, _) := genRead m w [.o rfsOpRead, .i, .l]
  (ok, fd, count)

/-- `remotefs_close_write_response`. -/
def remotefsCloseWriteResponse (result : Int32) : Memory :=
  genWrite m [.r rfsOpClose, .i] ((), result, ())

/-- `remotefs_close_read_response`. -/
def remotefsCloseReadResponse : Bool × Int32 :=
  let (ok, _, result, _) := genRead m w [.r rfsOpClose, .i]
  (ok, result)

/-- `remotefs_close_write_request`. -/
def remotefsCloseWriteRequest (fd : Int32) : Memory :=
  genWrite m [.o rfsOpClose, .i] ((), fd, ())

/-- `remotefs_close_read_request`. -/
def remotefsCloseReadRequest : Bool × Int32 :=
  let (ok, _, fd, _) := genRead m w [.o rfsOpClose, .i]
  (ok, fd)

/-- `remotefs_lseek_write_response`. -/
def remotefsLseekWriteResponse (result : Int32) : Memory :=
  genWrite m [.r rfsOpLseek, .L] ((), result, ())

/-- `remotefs_lseek_read_response`. -/
def remotefsLseekReadResponse : Bool × Int32 :=
  let (ok, _, result, _) := genRead m w [.r rfsOpLseek, .L]
  (ok, result)

/-- `remotefs_lseek_write_request`. -/
def remotefsLseekWriteRequest (fd offset whence : Int32) : Memory :=
  genWrite m [.o rfsOpLseek, .i, .L, .i] ((), fd, offset, whence, ())

/-- `remotefs_lseek_read_request`. -/
def remotefsLseekReadRequest : Bool × Int32 × Int32 × Int32 :=
  let (ok, _, fd, offset, whence, _) := genRead m w [.o rfsOpLseek, .i, .L, .i]
  (ok, fd, offset, whence)

/-- `remotefs_opendir_write_response`. -/
def remotefsOpendirWriteResponse (d : UInt32) : Memory :=
  genWrite m [.r rfsOpOpendir, .l] ((), d, ())

/-- `remotefs_opendir_read_response`. -/
def remotefsOpendirReadResponse : Bool × UInt32 :=
  let (ok, _, d, _) := genRead m w [.r rfsOpOpendir, .l]
  (ok, d)

/-- `remotefs_opendir_write_request`. -/
def remotefsOpendirWriteRequest (name : CString) : Memory :=
  genWrite m [.o rfsOpOpendir, .p] ((), (some name.mem, UInt32.ofNat (name.strlen + 1)), ())

/-- `remotefs_opendir_read_request`. -/
def remotefsOpendirReadRequest : Bool × Option ℕ :=
  let (ok, _, (name, _), _) := genRead m w [.o rfsOpOpendir, .p]
  (ok, name)

/-- `remotefs_readdir_write_response`. -/
def remotefsReaddirWriteResponse (name : Option CString) (size ftime : UInt32) : Memory :=
  genWrite m [.r rfsOpReaddir, .p, .l, .l]
    ((), (name.map CString.mem, name.elim 0 fun s => UInt32.ofNat (s.strlen + 1)), size, ftime, ())

/-- `remotefs_readdir_read_response`. -/
def remotefsReaddirReadResponse : Bool × Option ℕ × UInt32 × UInt32 :=
  let (ok, _, (name, _), size, ftime, _) := genRead m w [.r rfsOpReaddir, .p, .l, .l]
  (ok, name, size, ftime)

/-- `remotefs_readdir_write_request`. -/
def remotefsReaddirWriteRequest (d : UInt32) : Memory :=
  genWrite m [.o rfsOpReaddir, .l] ((), d, ())

/-- `remotefs_readdir_read_request`. -/
def remotefsReaddirReadRequest : Bool × UInt32 :=
  let (ok, _, d, _) := genRead m w [.o rfsOpReaddir, .l]
  (ok, d)

/-- `remotefs_closedir_write_response`. -/
def remotefsClosedirWriteResponse (d : Int32) : Memory :=
  genWrite m [.r rfsOpClosedir, .i] ((), d, ())

/-- `remotefs_closedir_read_response`. -/
def remotefsClosedirReadResponse : Bool × Int32 :=
  let (ok, _, d, _) := genRead m w [.r rfsOpClosedir, .i]
  (ok, d)

/-- `remotefs_closedir_write_request`. -/
def remotefsClosedirWriteRequest (d : UInt32) : Memory :=
  genWrite m [.o rfsOpClosedir, .l] ((), d, ())

/-- `remotefs_closedir_read_request`. -/
def remotefsClosedirReadRequest : Bool × UInt32 :=
  let (ok, _, d, _) := genRead m w [.o rfsOpClosedir, .l]
  (ok, d)

end Functions

/-! ### Packets with their arguments -/

/-- A packet: the operation, the kind and the arguments of the function that writes it. -/
inductive RfsPacket where
  | openRequest (pathname : CString) (flags mode : Int32)
  | openResponse (result : Int32)
  | writeRequest (fd : Int32) (buf : Option Memory) (count : UInt32)
  | writeResponse (result : UInt32)
  | readRequest (fd : Int32) (count : UInt32)
  | readResponse (readbytes : UInt32)
  | closeRequest (fd : Int32)
  | closeResponse (result : Int32)
  | lseekRequest (fd offset whence : Int32)
  | lseekResponse (result : Int32)
  | opendirRequest (name : CString)
  | opendirResponse (d : UInt32)
  | readdirRequest (d : UInt32)
  | readdirResponse (name : Option CString) (size ftime : UInt32)
  | closedirRequest (d : UInt32)
  | closedirResponse (d : Int32)

/-- What a pointer that was read is for the block `bs`: `NULL` if that is empty, and else where its
bytes are. -/
def IsBlock (m : Memory) (at? : Option ℕ) (bs : List UInt8) : Prop :=
  if bs = [] then at? = none else ∃ a, at? = some a ∧ m.slice a bs.length = bs

namespace RfsPacket

/-- The call of the writing function. -/
def write (m : Memory) : RfsPacket → Memory
  | openRequest pathname flags mode => remotefsOpenWriteRequest m pathname flags mode
  | openResponse result => remotefsOpenWriteResponse m result
  | writeRequest fd buf count => remotefsWriteWriteRequest m fd buf count
  | writeResponse result => remotefsWriteWriteResponse m result
  | readRequest fd count => remotefsReadWriteRequest m fd count
  | readResponse readbytes => remotefsReadWriteResponse m readbytes
  | closeRequest fd => remotefsCloseWriteRequest m fd
  | closeResponse result => remotefsCloseWriteResponse m result
  | lseekRequest fd offset whence => remotefsLseekWriteRequest m fd offset whence
  | lseekResponse result => remotefsLseekWriteResponse m result
  | opendirRequest name => remotefsOpendirWriteRequest m name
  | opendirResponse d => remotefsOpendirWriteResponse m d
  | readdirRequest d => remotefsReaddirWriteRequest m d
  | readdirResponse name size ftime => remotefsReaddirWriteResponse m name size ftime
  | closedirRequest d => remotefsClosedirWriteRequest m d
  | closedirResponse d => remotefsClosedirWriteResponse m d

/-- The operation of a request. -/
def requestOp : RfsPacket → Option UInt8
  | openRequest _ _ _ => some rfsOpOpen
  | writeRequest _ _ _ => some rfsOpWrite
  | readRequest _ _ => some rfsOpRead
  | closeRequest _ => some rfsOpClose
  | lseekRequest _ _ _ => some rfsOpLseek
  | opendirRequest _ => some rfsOpOpendir
  | readdirRequest _ => some rfsOpReaddir
  | closedirRequest _ => some rfsOpClosedir
  | _ => none

/-- The fields of a packet. -/
def fields : RfsPacket → List Field
  | openRequest _ _ _ => [.o rfsOpOpen, .p, .i, .i]
  | openResponse _ => [.r rfsOpOpen, .i]
  | writeRequest _ _ _ => [.o rfsOpWrite, .i, .p]
  | writeResponse _ => [.r rfsOpWrite, .l]
  | readRequest _ _ => [.o rfsOpRead, .i, .l]
  | readResponse _ => [.r rfsOpRead, .p]
  | closeRequest _ => [.o rfsOpClose, .i]
  | closeResponse _ => [.r rfsOpClose, .i]
  | lseekRequest _ _ _ => [.o rfsOpLseek, .i, .L, .i]
  | lseekResponse _ => [.r rfsOpLseek, .L]
  | opendirRequest _ => [.o rfsOpOpendir, .p]
  | opendirResponse _ => [.r rfsOpOpendir, .l]
  | readdirRequest _ => [.o rfsOpReaddir, .l]
  | readdirResponse _ _ _ => [.r rfsOpReaddir, .p, .l, .l]
  | closedirRequest _ => [.o rfsOpClosedir, .l]
  | closedirResponse _ => [.r rfsOpClosedir, .i]

/-- What is written for them. -/
def args : (pk : RfsPacket) → Args pk.fields
  | openRequest pathname flags mode =>
      ((), (some pathname.mem, UInt32.ofNat (pathname.strlen + 1)), flags, mode, ())
  | openResponse result => ((), result, ())
  | writeRequest fd buf count => ((), fd, (buf, count), ())
  | writeResponse result => ((), result, ())
  | readRequest fd count => ((), fd, count, ())
  | readResponse readbytes => ((), (none, readbytes), ())
  | closeRequest fd => ((), fd, ())
  | closeResponse result => ((), result, ())
  | lseekRequest fd offset whence => ((), fd, offset, whence, ())
  | lseekResponse result => ((), result, ())
  | opendirRequest name => ((), (some name.mem, UInt32.ofNat (name.strlen + 1)), ())
  | opendirResponse d => ((), d, ())
  | readdirRequest d => ((), d, ())
  | readdirResponse name size ftime =>
      ((), (name.map CString.mem, name.elim 0 fun s => UInt32.ofNat (s.strlen + 1)), size,
        ftime, ())
  | closedirRequest d => ((), d, ())
  | closedirResponse d => ((), d, ())

/-- The number of bytes that are written: how far the pointer is when the size is. -/
def written (pk : RfsPacket) : ℕ := (genWriteCursor (fun _ => 0) pk.fields pk.args).p

/-- The reading function gives no error and the original arguments; `m₀` is the memory before the
packet was written. -/
def ReadsBack (w : ULong) (m₀ m : Memory) : RfsPacket → Prop
  | openRequest pathname flags mode =>
      ∃ p, remotefsOpenReadRequest w m = (true, p, flags, mode) ∧ IsBlock m p pathname.block
  | openResponse result => remotefsOpenReadResponse w m = (true, result)
  | writeRequest fd buf count =>
      ∃ p, remotefsWriteReadRequest w m = (true, fd, p, count) ∧
        IsBlock m p (blockBytes m₀ 23 buf count.toNat)
  | writeResponse result => remotefsWriteReadResponse w m = (true, result)
  | readRequest fd count => remotefsReadReadRequest w m = (true, fd, count)
  | readResponse readbytes =>
      ∃ p, remotefsReadReadResponse w m = (true, p, readbytes) ∧
        IsBlock m p (m₀.slice 17 readbytes.toNat)
  | closeRequest fd => remotefsCloseReadRequest w m = (true, fd)
  | closeResponse result => remotefsCloseReadResponse w m = (true, result)
  | lseekRequest fd offset whence =>
      remotefsLseekReadRequest w m = (true, fd, offset, whence)
  | lseekResponse result => remotefsLseekReadResponse w m = (true, result)
  | opendirRequest name =>
      ∃ p, remotefsOpendirReadRequest w m = (true, p) ∧ IsBlock m p name.block
  | opendirResponse d => remotefsOpendirReadResponse w m = (true, d)
  | readdirRequest d => remotefsReaddirReadRequest w m = (true, d)
  | readdirResponse name size ftime =>
      ∃ p, remotefsReaddirReadResponse w m = (true, p, size, ftime) ∧
        IsBlock m p (name.elim [] CString.block)
  | closedirRequest d => remotefsClosedirReadRequest w m = (true, d)
  | closedirResponse d => remotefsClosedirReadResponse w m = (true, d)

/-- The packet is read as it was written. -/
structure RoundTrips (w : ULong) (m : Memory) (pk : RfsPacket) : Prop where
  readsBack : pk.ReadsBack w m (pk.write m)
  size : ∃ size, getPacketSize (pk.write m) = (true, size) ∧ size.toNat = pk.written
  request : ∀ op ∈ pk.requestOp, getRequestId (pk.write m) = (true, op)

end RfsPacket

/-! ### The round trip -/

theorem CString.slice_mem (s : CString) : s.mem.slice 0 (s.strlen + 1) = s.block := by
  refine List.ext_getElem? fun k => ?_
  rcases Nat.lt_or_ge k (s.strlen + 1) with hlt | hge
  · rw [Memory.getElem?_slice hlt, Nat.zero_add, block, mem]
    rcases Nat.lt_succ_iff_lt_or_eq.mp hlt with hk | rfl
    · rw [List.getElem?_append_left hk, List.getD_eq_getElem _ _ hk, List.getElem?_eq_getElem hk]
    · rw [strlen, List.getElem?_append_right (Nat.le_refl _),
        List.getD_eq_default _ _ (Nat.le_refl _), Nat.sub_self]
      rfl
  · rw [List.getElem?_eq_none (by rwa [Memory.length_slice]), List.getElem?_eq_none]
    rwa [block, List.length_append, List.length_singleton]

theorem CString.toNat_ofNat_strlen (s : CString) :
    (UInt32.ofNat (s.strlen + 1)).toNat = s.strlen + 1 := UInt32.toNat_ofNat_of_lt' s.length_lt

/-- The block of a string that is written. -/
theorem CString.blockBytes_mem (s : CString) (m : Memory) (p : ℕ) :
    blockBytes m p (some s.mem) (UInt32.ofNat (s.strlen + 1)).toNat = s.block := by
  rw [s.toNat_ofNat_strlen]
  exact s.slice_mem

section RoundTrip

variable {m m' : Memory} {p : ℕ}

/-- The pointer that is read for a block of a packet. -/
theorem isBlock_outOf {len : UInt32} {src : Option Memory}
    (h : m'.slice p (fieldLength .p (src, len)) = fieldBytes m p .p (src, len)) :
    IsBlock m' (Field.outOf p .p (src, len)).1
      (blockBytes m (p + ptrHeaderSize) src len.toNat) := by
  have hslice := slice_block h
  have hnil : blockBytes m (p + ptrHeaderSize) src len.toNat = [] ↔ len = 0 := by
    rw [← List.length_eq_zero_iff, length_blockBytes, ← UInt32.toNat_inj]
    rfl
  rw [IsBlock]
  simp only [hnil, length_blockBytes, Field.outOf]
  split_ifs
  · rfl
  · exact ⟨_, rfl, hslice⟩

/-- A block behind the first field of a packet. -/
theorem isBlock_second (f : Field) (a : f.Arg) (src : Option Memory) (len : UInt32)
    (fs : List Field) (as : Args fs) :
    IsBlock (genWrite m (f :: .p :: fs) (a, (src, len), as))
      (Field.outOf (10 + fieldLength f a) .p (src, len)).1
      (blockBytes m (10 + fieldLength f a + ptrHeaderSize) src len.toNat) := by
  have htail := (slice_fields_cons (slice_fields_genWrite m (f :: .p :: fs) (a, (src, len), as))).2
  exact isBlock_outOf (slice_fields_cons htail).1

namespace RfsPacket

theorem write_eq (m : Memory) (pk : RfsPacket) : pk.write m = genWrite m pk.fields pk.args := by
  cases pk <;> rfl

theorem written_eq (pk : RfsPacket) : pk.written = packetLength pk.fields pk.args := by
  rw [written, genWriteCursor_eq]

/-- Where `unsigned long` has 32 bits, every packet is read with the arguments that were written. -/
theorem readsBack_bits32 (m : Memory) (pk : RfsPacket) :
    pk.ReadsBack .bits32 m (pk.write m) := by
  cases pk with
  | openRequest pathname flags mode =>
    have hblock := isBlock_second (m := m) (.o rfsOpOpen) () (some pathname.mem)
      (UInt32.ofNat (pathname.strlen + 1)) [.i, .i] (flags, mode, ())
    rw [pathname.blockBytes_mem] at hblock
    refine ⟨_, ?_, hblock⟩
    rw [write, remotefsOpenWriteRequest, remotefsOpenReadRequest, genRead_genWrite]
    rfl
  | openResponse result =>
    rw [ReadsBack, write, remotefsOpenWriteResponse, remotefsOpenReadResponse, genRead_genWrite]
    rfl
  | writeRequest fd buf count =>
    have htail := (slice_fields_cons (slice_fields_genWrite m [.o rfsOpWrite, .i, .p]
      ((), fd, (buf, count), ()))).2
    have hblock := isBlock_outOf (slice_fields_cons (slice_fields_cons htail).2).1
    refine ⟨_, ?_, hblock⟩
    rw [write, remotefsWriteWriteRequest, remotefsWriteReadRequest, genRead_genWrite]
    rfl
  | writeResponse result =>
    rw [ReadsBack, write, remotefsWriteWriteResponse, remotefsWriteReadResponse, genRead_genWrite]
    rfl
  | readRequest fd count =>
    rw [ReadsBack, write, remotefsReadWriteRequest, remotefsReadReadRequest, genRead_genWrite]
    rfl
  | readResponse readbytes =>
    refine ⟨_, ?_, isBlock_second (m := m) (.r rfsOpRead) () none readbytes [] ()⟩
    rw [write, remotefsReadWriteResponse, remotefsReadReadResponse, genRead_genWrite]
    rfl
  | closeRequest fd =>
    rw [ReadsBack, write, remotefsCloseWriteRequest, remotefsCloseReadRequest, genRead_genWrite]
    rfl
  | closeResponse result =>
    rw [ReadsBack, write, remotefsCloseWriteResponse, remotefsCloseReadResponse, genRead_genWrite]
    rfl
  | lseekRequest fd offset whence =>
    rw [ReadsBack, write, remotefsLseekWriteRequest, remotefsLseekReadRequest, genRead_genWrite]
    rfl
  | lseekResponse result =>
    rw [ReadsBack, write, remotefsLseekWriteResponse, remotefsLseekReadResponse, genRead_genWrite]
    rfl
  | opendirRequest name =>
    have hblock := isBlock_second (m := m) (.o rfsOpOpendir) () (some name.mem)
      (UInt32.ofNat (name.strlen + 1)) [] ()
    rw [name.blockBytes_mem] at hblock
    refine ⟨_, ?_, hblock⟩
    rw [write, remotefsOpendirWriteRequest, remotefsOpendirReadRequest, genRead_genWrite]
    rfl
  | opendirResponse d =>
    rw [ReadsBack, write, remotefsOpendirWriteResponse, remotefsOpendirReadResponse,
      genRead_genWrite]
    rfl
  | readdirRequest d =>
    rw [ReadsBack, write, remotefsReaddirWriteRequest, remotefsReaddirReadRequest, genRead_genWrite]
    rfl
  | readdirResponse name size ftime =>
    have hblock := isBlock_second (m := m) (.r rfsOpReaddir) () (name.map CString.mem)
      (name.elim 0 fun s => UInt32.ofNat (s.strlen + 1)) [.l, .l] (size, ftime, ())
    have hbytes : blockBytes m 17 (name.map CString.mem)
        (name.elim 0 fun s => UInt32.ofNat (s.strlen + 1)).toNat = name.elim [] CString.block := by
      cases name with
      | none => rfl
      | some s => exact s.blockBytes_mem m 17
    refine ⟨_, ?_, hbytes ▸ hblock⟩
    rw [write, remotefsReaddirWriteResponse, remotefsReaddirReadResponse, genRead_genWrite]
    rfl
  | closedirRequest d =>
    rw [ReadsBack, write, remotefsClosedirWriteRequest, remotefsClosedirReadRequest,
      genRead_genWrite]
    rfl
  | closedirResponse d =>
    rw [ReadsBack, write, remotefsClosedirWriteResponse, remotefsClosedirReadResponse,
      genRead_genWrite]
    rfl

/-- Where it has 64 bits, none is. -/
theorem not_readsBack_bits64 (m : Memory) (pk : RfsPacket) :
    ¬ pk.ReadsBack .bits64 m (pk.write m) := by
  have hread : ∀ fs, (genRead (pk.write m) .bits64 fs).1 ≠ true := fun fs => by
    rw [genRead_bits64]
    exact Bool.false_ne_true
  intro h
  cases pk with
  | openRequest | writeRequest | readResponse | opendirRequest | readdirResponse =>
    obtain ⟨p, hp, -⟩ := h
    simp only [remotefsOpenReadRequest, remotefsWriteReadRequest, remotefsReadReadResponse,
      remotefsOpendirReadRequest, remotefsReaddirReadResponse] at hp
    exact hread _ (Prod.mk.inj hp).1
  | _ =>
    simp only [ReadsBack, remotefsOpenReadResponse, remotefsWriteReadResponse,
      remotefsReadReadRequest, remotefsCloseReadRequest, remotefsCloseReadResponse,
      remotefsLseekReadRequest, remotefsLseekReadResponse, remotefsOpendirReadResponse,
      remotefsReaddirReadRequest, remotefsClosedirReadRequest,
      remotefsClosedirReadResponse] at h
    exact hread _ (Prod.mk.inj h).1

theorem getPacketSize_write (m : Memory) (pk : RfsPacket) (h : pk.written < 65536) :
    ∃ size, getPacketSize (pk.write m) = (true, size) ∧ size.toNat = pk.written := by
  rw [write_eq, getPacketSize_genWrite, ← written_eq]
  exact ⟨_, rfl, UInt16.toNat_ofNat_of_lt' h⟩

theorem getRequestId_write (m : Memory) (pk : RfsPacket) :
    ∀ op ∈ pk.requestOp, getRequestId (pk.write m) = (true, op) := by
  intro op hop
  rw [write_eq]
  cases pk with
  | openRequest | writeRequest | readRequest | closeRequest | lseekRequest | opendirRequest
  | readdirRequest | closedirRequest =>
    obtain rfl := Option.some.inj hop
    exact getRequestId_genWrite m _ _ _
  | _ => cases hop

/-- **The codec of the remote file system.** A packet of less than 65536 bytes is read as it was
written if and only if `unsigned long` has 32 bits. -/
theorem roundTrips_iff (w : ULong) (m : Memory) (pk : RfsPacket) (h : pk.written < 65536) :
    pk.RoundTrips w m ↔ w = .bits32 := by
  constructor
  · intro hround
    cases w with
    | bits32 => rfl
    | bits64 => exact absurd hround.readsBack (not_readsBack_bits64 m pk)
  · rintro rfl
    exact ⟨readsBack_bits32 m pk, getPacketSize_write m pk h, getRequestId_write m pk⟩

/-- A request to close a file. -/
theorem roundTrips_iff_close :
    (closeRequest 3).RoundTrips .bits32 (fun _ => 0) ↔ ULong.bits32 = .bits32 :=
  roundTrips_iff .bits32 _ (closeRequest 3) (by decide)

/-- With an `unsigned long` of 64 bits it is not read. -/
theorem not_roundTrips_close :
    ¬ ∀ (w : ULong) (m : Memory) (pk : RfsPacket), pk.written < 65536 → pk.RoundTrips w m :=
  fun h => not_readsBack_bits64 _ _ (h .bits64 (fun _ => 0) (closeRequest 3) (by decide)).readsBack

end RfsPacket

end RoundTrip

end ELuaBrain.Rpc
