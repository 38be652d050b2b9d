import ELuaBrain.Rpc.Client
import ELuaBrain.Rpc.Safety

/-!
# One exchange of packets

A request of the client arrives at the server, its handler does what it is asked for, and the
response arrives at the client. Here is what each handler does with a request that has arrived, and
what a function of the client returns with a response that has.

## Main definitions

* `Carries` : a buffer with a packet at its start.
* `Returns` : what a function of the client returns, with the state of the server's system then.

## Main results

* `returns_iff_of_answer`, `not_returns_of_none` : a call by what the server does.
* `serverExecuteRequest_open` and the others : what the handlers do.
-/

namespace ELuaBrain.Rpc

/-! ### Packets in a buffer -/

/-- A packet is at the start of the memory. -/
def Carries (m : Memory) (fs : List Field) (as : Args fs) : Prop :=
  ∃ m₀, m.slice 0 (packetLength fs as) = packetBytes m₀ fs as

section Carries

variable {m m' : Memory} {fs : List Field} {as : Args fs}

theorem carries_genWrite (m : Memory) (fs : List Field) (as : Args fs) :
    Carries (genWrite m fs as) fs as := by
  refine ⟨m, ?_⟩
  rw [genWrite_eq, ← length_packetBytes m]
  exact Memory.slice_overlay

/-- A packet that arrives on the other side. -/
theorem Carries.overlay (h : Carries m fs as) (m' : Memory) :
    Carries (m'.overlay 0 (m.slice 0 (packetLength fs as))) fs as := by
  obtain ⟨m₀, h⟩ := h
  refine ⟨m₀, ?_⟩
  rw [h, ← length_packetBytes m₀]
  exact Memory.slice_overlay

theorem Carries.header_body (h : Carries m fs as) :
    ∃ m₀, m.slice 0 4 =
        typePktSize :: typeInt16 :: u16Bytes (UInt16.ofNat (packetLength fs as)) ∧
      m.slice 4 (12 + fieldsLength fs as) = bodyBytes m₀ fs as := by
  obtain ⟨m₀, h⟩ := h
  have hlen : packetLength fs as = 4 + (12 + fieldsLength fs as) := by
    rw [packetLength]
    omega
  rw [packetBytes, hlen, Memory.slice_add, ← hlen] at h
  exact ⟨m₀, List.append_inj h rfl⟩

theorem Carries.getPacketSize (h : Carries m fs as) :
    getPacketSize m = (true, UInt16.ofNat (packetLength fs as)) := by
  obtain ⟨m₀, hsize, -⟩ := h.header_body
  exact getPacketSize_of_slice hsize

theorem Carries.getRequestId {id : UInt8} {as : Args fs} (h : Carries m (.o id :: fs) ((), as)) :
    getRequestId m = (true, id) := by
  obtain ⟨m₀, -, hbody⟩ := h.header_body
  exact getRequestId_of_slice id fs as hbody

theorem Carries.genRead (h : Carries m fs as) :
    genRead m .bits32 fs = (true, outsOf 10 fs as) := by
  obtain ⟨m₀, -, hbody⟩ := h.header_body
  exact genRead_of_slice fs as hbody

/-- The fields of the packet. -/
theorem Carries.fields (h : Carries m fs as) :
    ∃ m₀, m.slice 10 (fieldsLength fs as) = fieldsBytes m₀ 10 fs as := by
  obtain ⟨m₀, -, hbody⟩ := h.header_body
  have hlen : 12 + fieldsLength fs as = 6 + fieldsLength fs as + 6 := by omega
  rw [hlen, Memory.slice_add, Memory.slice_add, bodyBytes] at hbody
  exact ⟨m₀, (List.append_inj (List.append_inj hbody (by simp; rfl)).1 rfl).2⟩

theorem fieldLength_toArg_outOf (m : Memory) (p : ℕ) (f : Field) (a : f.Arg) :
    fieldLength f (f.toArg m (f.outOf p a)) = fieldLength f a := by
  cases f <;> rfl

theorem fieldsLength_toArgs_outsOf (m : Memory) (p : ℕ) (fs : List Field) (as : Args fs) :
    fieldsLength fs (toArgs m fs (outsOf p fs as)) = fieldsLength fs as := by
  induction fs generalizing p with
  | nil => rfl
  | cons f fs ih =>
    obtain ⟨a, as⟩ := as
    exact congrArg₂ _ (fieldLength_toArg_outOf m p f a) (ih _ as)

/-- The decoder reads the bytes of the packet and no others. -/
theorem Carries.readIn {α : Type} (h : Carries m fs as) {size : ℕ}
    (hle : packetLength fs as ≤ size) (v : α) : readIn size m fs v = some v := by
  rw [Rpc.readIn, genReadState_far, genReadState_p, h.genRead, packetLength,
    fieldsLength_toArgs_outsOf]
  exact if_pos hle

/-- The block of the second field, or that of the third one, whose bytes are there. -/
theorem Carries.block_second {f : Field} {a : f.Arg} {src : Memory} {len : UInt32} {as : Args fs}
    (h : Carries m (f :: .p :: fs) (a, (some src, len), as)) :
    m.slice (10 + fieldLength f a + ptrHeaderSize) len.toNat = src.slice 0 len.toNat := by
  obtain ⟨m₀, h⟩ := h.fields
  exact slice_block (slice_fields_cons (slice_fields_cons h).2).1

theorem Carries.block_third {f g : Field} {a : f.Arg} {b : g.Arg} {src : Memory} {len : UInt32}
    {as : Args fs} (h : Carries m (f :: g :: .p :: fs) (a, b, (some src, len), as)) :
    m.slice (10 + fieldLength f a + fieldLength g b + ptrHeaderSize) len.toNat =
      src.slice 0 len.toNat := by
  obtain ⟨m₀, h⟩ := h.fields
  exact slice_block (slice_fields_cons (slice_fields_cons (slice_fields_cons h).2).2).1

end Carries

/-- A string in the memory is read up to its zero. -/
theorem stringIn_of_slice {m : Memory} {a size : ℕ} (s : CString)
    (h : m.slice a (UInt32.ofNat (s.strlen + 1)).toNat =
      s.mem.slice 0 (UInt32.ofNat (s.strlen + 1)).toNat) (hle : a + s.strlen + 1 ≤ size) :
    stringIn size m a = some s.bytes := by
  rw [s.toNat_ofNat_strlen, s.slice_mem] at h
  obtain ⟨k, rfl⟩ := Nat.exists_eq_add_of_le hle
  have hlen : a + s.strlen + 1 + k - a = s.strlen + 1 + k := by omega
  have hne : ∀ b ∈ s.bytes, decide (b ≠ 0) = true := fun b hb =>
    decide_eq_true fun hzero => s.nonzero (hzero ▸ hb)
  rw [stringIn, hlen, Memory.slice_add, h, CString.block]
  rw [if_pos (by simp), List.append_assoc, List.takeWhile_append_of_pos hne]
  simp

/-- A block in the memory, to which there is no pointer if it is empty. -/
theorem blockIn_of_slice {m : Memory} {a size : ℕ} {bytes : List UInt8} {len : UInt32}
    (hlen : len.toNat = bytes.length) (h : m.slice a len.toNat = bytes)
    (hle : a + bytes.length ≤ size) :
    blockIn size m len.toNat (if len = 0 then none else some a) = some bytes := by
  split_ifs with hzero
  · have hnil : bytes = [] := List.length_eq_zero_iff.mp (by rw [← hlen, hzero]; rfl)
    rw [blockIn, if_pos (by rw [hzero]; rfl), hnil]
  · rw [blockIn, hlen, if_pos hle, ← hlen, h]

/-! ### One exchange -/

section Exchange

variable {σ : Type} {os : Os σ} {basedir : CString} {n : Fin 16} {s : Rfs σ}

theorem two_pow_lt (n : Fin 16) : 2 ^ n.val < 65536 :=
  Nat.pow_lt_pow_right (by decide) n.isLt

/-- The size of a packet that fits into the buffer of the client. -/
theorem toNat_size {fs : List Field} {as : Args fs} (h : packetLength fs as ≤ 2 ^ n.val) :
    (UInt16.ofNat (packetLength fs as)).toNat = packetLength fs as :=
  UInt16.toNat_ofNat_of_lt' (h.trans_lt (two_pow_lt n))

theorem startOffset_le (fs : List Field) (as : Args fs) : ¬ packetLength fs as < startOffset := by
  rw [packetLength, startOffset]
  omega

/-- **One exchange.** A request that fits is answered by the server, and its response, if it fits
too, is in the buffer of the client. -/
theorem rfsch_of_answer {fs fs' : List Field} {as : Args fs} {rs : Args fs'} {ok : Bool}
    {server : Memory} {st : σ} (hbuf : Carries s.buf fs as) (hlt : packetLength fs as ≤ 2 ^ n.val)
    (hfit : packetLength fs as ≤ rfsBufferSize)
    (hans : serverExecuteRequest os basedir
      (s.server.overlay 0 (s.buf.slice 0 (packetLength fs as))) s.st = some (ok, server, st))
    (hrsp : Carries server fs' rs) (hle : packetLength fs' rs ≤ rfsBufferSize) :
    rfschSendRequestReadResponse os basedir n s =
      if packetLength fs' rs ≤ 2 ^ n.val then
        some (true, { buf := s.buf.overlay 0 (server.slice 0 (packetLength fs' rs)), server, st })
      else none := by
  have hsize : (UInt16.ofNat (packetLength fs' rs)).toNat = packetLength fs' rs :=
    UInt16.toNat_ofNat_of_lt' (hle.trans_lt (by decide))
  rw [rfschSendRequestReadResponse, hbuf.getPacketSize]
  dsimp only
  rw [toNat_size hlt, if_neg (startOffset_le _ _), if_neg (Nat.not_lt.mpr hfit), hans]
  simp only [Option.bind_eq_bind, Option.bind_some, hrsp.getPacketSize, hsize,
    if_neg (startOffset_le fs' rs)]
  split_ifs with h₁ h₂ h₃
  · exact absurd h₁ (Nat.not_lt.mpr h₂)
  · rfl
  · rfl
  · exact absurd (Nat.not_lt.mp h₁) h₃

/-- A request for which the server leaves its buffers, or that does not fit into them. -/
theorem rfsch_of_none {fs : List Field} {as : Args fs} (hbuf : Carries s.buf fs as)
    (hlt : packetLength fs as ≤ 2 ^ n.val)
    (hans : packetLength fs as ≤ rfsBufferSize → serverExecuteRequest os basedir
      (s.server.overlay 0 (s.buf.slice 0 (packetLength fs as))) s.st = none) :
    rfschSendRequestReadResponse os basedir n s = none := by
  rw [rfschSendRequestReadResponse, hbuf.getPacketSize]
  dsimp only
  rw [toNat_size hlt, if_neg (startOffset_le _ _)]
  split_ifs with hfit
  · rfl
  · rw [hans (Nat.not_lt.mp hfit)]
    rfl

/-- The request that a function has written. -/
theorem carries_request (f : Rfsc) (m : Memory) :
    Carries (f.request.write m) f.request.fields f.request.args := by
  rw [RfsPacket.write_eq]
  exact carries_genWrite m _ _

/-- A call for which the server leaves its buffers. -/
theorem run_eq_none_of_none {f : Rfsc}
    (hans : f.request.written ≤ rfsBufferSize → ∀ m, Carries m f.request.fields f.request.args →
      serverExecuteRequest os basedir m s.st = none) : f.run os basedir n s = none := by
  have hwrite := carries_request f s.buf
  rw [Rfsc.run, writeIn]
  rw [RfsPacket.written_eq] at hans ⊢
  split_ifs with hlt
  · rw [Option.bind_eq_bind, Option.bind_some,
      rfsch_of_none (s := { s with buf := f.request.write s.buf }) hwrite hlt fun hfit =>
        hans hfit _ (hwrite.overlay s.server)]
    rfl
  · rfl

/-- **One call.** What a function of the client returns if the server answers its request and both
packets fit into the buffers. -/
theorem run_of_answer {f : Rfsc} {fs' : List Field} {rs : Args fs'} {st : σ} {v : RfsResult}
    (hans : ∀ m, Carries m f.request.fields f.request.args →
      ∃ server, serverExecuteRequest os basedir m s.st = some (true, server, st) ∧
        Carries server fs' rs ∧ packetLength fs' rs ≤ rfsBufferSize)
    (hint : ∀ m, Carries m fs' rs → packetLength fs' rs ≤ 2 ^ n.val → f.interpret m = some v)
    (hlt : f.request.written ≤ 2 ^ n.val) (hfit : f.request.written ≤ rfsBufferSize)
    (hres : packetLength fs' rs ≤ 2 ^ n.val) :
    ∃ s', f.run os basedir n s = some (v, s') ∧ s'.st = st := by
  have hwrite := carries_request f s.buf
  rw [Rfsc.run, writeIn, if_pos hlt]
  rw [RfsPacket.written_eq] at hlt hfit
  obtain ⟨server, hexec, hrsp, hle⟩ := hans _ (hwrite.overlay s.server)
  rw [Option.bind_eq_bind, Option.bind_some,
    rfsch_of_answer (s := { s with buf := f.request.write s.buf }) hwrite hlt hfit hexec hrsp hle,
    if_pos hres]
  simp only [Option.bind_eq_bind, Option.bind_some, if_true,
    hint _ (hrsp.overlay (f.request.write s.buf)) hres]
  exact ⟨_, rfl, rfl⟩

/-- A call whose response does not fit into the buffer of the client. -/
theorem run_eq_none_of_answer {f : Rfsc} {fs' : List Field} {rs : Args fs'} {st : σ}
    (hans : ∀ m, Carries m f.request.fields f.request.args →
      ∃ server, serverExecuteRequest os basedir m s.st = some (true, server, st) ∧
        Carries server fs' rs ∧ packetLength fs' rs ≤ rfsBufferSize)
    (hres : ¬ packetLength fs' rs ≤ 2 ^ n.val) : f.run os basedir n s = none := by
  have hwrite := carries_request f s.buf
  by_cases hfit : f.request.written ≤ rfsBufferSize
  · rw [Rfsc.run, writeIn]
    rw [RfsPacket.written_eq] at hfit ⊢
    split_ifs with hlt
    · obtain ⟨server, hexec, hrsp, hle⟩ := hans _ (hwrite.overlay s.server)
      rw [Option.bind_eq_bind, Option.bind_some,
        rfsch_of_answer (s := { s with buf := f.request.write s.buf }) hwrite hlt hfit hexec hrsp
          hle, if_neg hres]
      rfl
    · rfl
  · exact run_eq_none_of_none fun h => absurd h hfit

/-- A call whose request does not fit into the buffers. -/
theorem run_eq_none_of_unfit {f : Rfsc}
    (h : ¬ (f.request.written ≤ 2 ^ n.val ∧ f.request.written ≤ rfsBufferSize)) :
    f.run os basedir n s = none := by
  by_cases hlt : f.request.written ≤ 2 ^ n.val
  · exact run_eq_none_of_none fun hfit => absurd ⟨hlt, hfit⟩ h
  · rw [Rfsc.run, writeIn, if_neg hlt]
    rfl

/-- The client gets a result, and the system of the server comes to a state. -/
def Returns (os : Os σ) (basedir : CString) (n : Fin 16) (f : Rfsc) (s : Rfs σ)
    (r : RfsResult × σ) : Prop :=
  ∃ s', f.run os basedir n s = some (r.1, s') ∧ s'.st = r.2

/-- A call without a result returns nothing. -/
theorem not_returns_of_run {f : Rfsc} {r : RfsResult × σ} (h : f.run os basedir n s = none) :
    ¬ Returns os basedir n f s r := by
  rintro ⟨s', hs, -⟩
  rw [h] at hs
  cases hs

/-- A function returns the answer of the server, if the packets fit, and nothing else. -/
theorem returns_iff_of_answer {f : Rfsc} {fs' : List Field} {rs : Args fs'} {st : σ}
    {v : RfsResult} {r : RfsResult × σ}
    (hans : f.request.written ≤ rfsBufferSize → ∀ m, Carries m f.request.fields f.request.args →
      ∃ server, serverExecuteRequest os basedir m s.st = some (true, server, st) ∧
        Carries server fs' rs ∧ packetLength fs' rs ≤ rfsBufferSize)
    (hint : ∀ m, Carries m fs' rs → packetLength fs' rs ≤ 2 ^ n.val → f.interpret m = some v) :
    Returns os basedir n f s r ↔
      (f.request.written ≤ 2 ^ n.val ∧ f.request.written ≤ rfsBufferSize ∧
        packetLength fs' rs ≤ 2 ^ n.val) ∧ r = (v, st) := by
  by_cases hfit : f.request.written ≤ rfsBufferSize
  · by_cases hlt : f.request.written ≤ 2 ^ n.val
    · by_cases hres : packetLength fs' rs ≤ 2 ^ n.val
      · obtain ⟨s', hrun, hst⟩ := run_of_answer (hans hfit) hint hlt hfit hres
        refine ⟨fun ⟨s'', hs, hst'⟩ => ?_, fun ⟨_, hr⟩ => hr ▸ ⟨s', hrun, hst⟩⟩
        obtain ⟨hv, rfl⟩ := Prod.mk.inj (Option.some.inj (hrun.symm.trans hs))
        exact ⟨⟨hlt, hfit, hres⟩, Prod.ext hv.symm (hst'.symm.trans hst)⟩
      · exact iff_of_false (not_returns_of_run (run_eq_none_of_answer (hans hfit) hres))
          fun h => hres h.1.2.2
    · exact iff_of_false (not_returns_of_run (run_eq_none_of_unfit fun h => hlt h.1))
        fun h => hlt h.1.1
  · exact iff_of_false (not_returns_of_run (run_eq_none_of_unfit fun h => hfit h.2))
      fun h => hfit h.1.2.1

/-- A function returns the answer of the server if and only if the packets fit. -/
theorem returns_iff_fits {f : Rfsc} {fs' : List Field} {rs : Args fs'} {r : RfsResult × σ}
    (hans : f.request.written ≤ rfsBufferSize → ∀ m, Carries m f.request.fields f.request.args →
      ∃ server, serverExecuteRequest os basedir m s.st = some (true, server, r.2) ∧
        Carries server fs' rs ∧ packetLength fs' rs ≤ rfsBufferSize)
    (hint : ∀ m, Carries m fs' rs → packetLength fs' rs ≤ 2 ^ n.val →
      f.interpret m = some r.1) :
    Returns os basedir n f s r ↔ f.request.written ≤ 2 ^ n.val ∧
      f.request.written ≤ rfsBufferSize ∧ packetLength fs' rs ≤ 2 ^ n.val :=
  (returns_iff_of_answer hans hint).trans (and_iff_left rfl)

end Exchange

/-! ### The handlers -/

section Handlers

variable {σ : Type} {os : Os σ} {basedir : CString} {m : Memory} {st : σ}

/-- A response that fits is in the buffer of the server. -/
theorem writeIn_of_le (m : Memory) (pk : RfsPacket)
    (h : packetLength pk.fields pk.args ≤ rfsBufferSize) :
    writeIn rfsBufferSize m pk = some (pk.write m) := by
  rw [writeIn, RfsPacket.written_eq]
  exact if_pos h

/-- The pointer to a string that was read. -/
theorem outOf_string (s : CString) (p : ℕ) :
    Field.outOf p .p (some s.mem, UInt32.ofNat (s.strlen + 1)) =
      (some (p + ptrHeaderSize), UInt32.ofNat (s.strlen + 1)) := by
  have hne : UInt32.ofNat (s.strlen + 1) ≠ 0 := fun h => by
    have hlen := s.toNat_ofNat_strlen
    rw [h] at hlen
    exact Nat.succ_ne_zero _ hlen.symm
  rw [Field.outOf, if_neg hne]

/-- `server_open`. -/
theorem serverExecuteRequest_open {pathname : CString} {flags mode : Int32}
    (h : Carries m [.o rfsOpOpen, .p, .i, .i]
      ((), (some pathname.mem, UInt32.ofNat (pathname.strlen + 1)), flags, mode, ()))
    (hfit : 35 + pathname.strlen ≤ rfsBufferSize) :
    serverExecuteRequest os basedir m st =
      (serverFullname basedir.bytes pathname.bytes).bind fun fullname =>
        some (true, RfsPacket.write m (.openResponse (os.openFile st fullname flags mode).1),
          (os.openFile st fullname flags mode).2) := by
  have hlen : packetLength [.o rfsOpOpen, .p, .i, .i]
      ((), (some pathname.mem, UInt32.ofNat (pathname.strlen + 1)), flags, mode, ()) =
        35 + pathname.strlen := by
    simp only [packetLength, fieldsLength, fieldLength, pathname.toNat_ofNat_strlen, ptrHeaderSize]
    omega
  have hread : remotefsOpenReadRequest .bits32 m = (true, some 18, flags, mode) := by
    have hout := outOf_string pathname 12
    rw [remotefsOpenReadRequest, h.genRead]
    exact congrArg (fun v => (true, v.1, flags, mode)) hout
  have hblock := h.block_second
  have hname : nameAt m (some 18) = some pathname.bytes := by
    rw [nameAt]
    exact stringIn_of_slice pathname hblock (by omega)
  rw [serverExecuteRequest, h.getRequestId]
  change serverOpen os basedir m st = _
  rw [serverOpen, h.readIn (hlen.trans_le hfit), hread]
  simp only [Option.bind_eq_bind, Option.bind_some, if_true, hname]
  refine Option.bind_congr fun fullname _ => ?_
  rw [writeIn_of_le m (.openResponse _) (show 22 ≤ rfsBufferSize by decide)]
  rfl

/-- `server_opendir`. -/
theorem serverExecuteRequest_opendir {name : CString}
    (h : Carries m [.o rfsOpOpendir, .p]
      ((), (some name.mem, UInt32.ofNat (name.strlen + 1)), ()))
    (hfit : 25 + name.strlen ≤ rfsBufferSize) :
    serverExecuteRequest os basedir m st =
      (serverFullname basedir.bytes name.bytes).bind fun fullname =>
        some (true, RfsPacket.write m (.opendirResponse (os.opendir st fullname).1),
          (os.opendir st fullname).2) := by
  have hlen : packetLength [.o rfsOpOpendir, .p]
      ((), (some name.mem, UInt32.ofNat (name.strlen + 1)), ()) = 25 + name.strlen := by
    simp only [packetLength, fieldsLength, fieldLength, name.toNat_ofNat_strlen, ptrHeaderSize]
    omega
  have hread : remotefsOpendirReadRequest .bits32 m = (true, some 18) := by
    have hout := outOf_string name 12
    rw [remotefsOpendirReadRequest, h.genRead]
    exact congrArg (fun v => (true, v.1)) hout
  have hblock := h.block_second
  have hname : nameAt m (some 18) = some name.bytes := by
    rw [nameAt]
    exact stringIn_of_slice name hblock (by omega)
  rw [serverExecuteRequest, h.getRequestId]
  change serverOpendir os basedir m st = _
  rw [serverOpendir, h.readIn (hlen.trans_le hfit), hread]
  simp only [Option.bind_eq_bind, Option.bind_some, if_true, hname]
  refine Option.bind_congr fun fullname _ => ?_
  rw [writeIn_of_le m (.opendirResponse _) (show 22 ≤ rfsBufferSize by decide)]
  rfl

/-- `server_write`. -/
theorem serverExecuteRequest_write {fd : Int32} {buf : Block}
    (h : Carries m [.o rfsOpWrite, .i, .p]
      ((), fd, (some buf.mem, UInt32.ofNat buf.bytes.length), ()))
    (hfit : 29 + buf.bytes.length ≤ rfsBufferSize) :
    serverExecuteRequest os basedir m st =
      some (true, RfsPacket.write m (.writeResponse (os.write st fd buf.bytes).1.toUInt32),
        (os.write st fd buf.bytes).2) := by
  have hcount : (UInt32.ofNat buf.bytes.length).toNat = buf.bytes.length :=
    UInt32.toNat_ofNat_of_lt' buf.length_lt
  have hlen : packetLength [.o rfsOpWrite, .i, .p]
      ((), fd, (some buf.mem, UInt32.ofNat buf.bytes.length), ()) = 29 + buf.bytes.length := by
    simp only [packetLength, fieldsLength, fieldLength, hcount, ptrHeaderSize]
    omega
  have hread : remotefsWriteReadRequest .bits32 m =
      (true, fd, if UInt32.ofNat buf.bytes.length = 0 then none else some 23,
        UInt32.ofNat buf.bytes.length) := by
    rw [remotefsWriteReadRequest, h.genRead]
    rfl
  have hblock := h.block_third
  have hdata : blockIn rfsBufferSize m (UInt32.ofNat buf.bytes.length).toNat
      (if UInt32.ofNat buf.bytes.length = 0 then none else some 23) = some buf.bytes := by
    refine blockIn_of_slice hcount (hblock.trans ?_) (by omega)
    rw [hcount, Block.mem, Memory.slice_ofBytes]
  rw [serverExecuteRequest, h.getRequestId]
  change serverWrite os m st = _
  rw [serverWrite, h.readIn (hlen.trans_le hfit), hread]
  simp only [Option.bind_eq_bind, Option.bind_some, if_true, hdata]
  rw [writeIn_of_le m (.writeResponse _) (show 22 ≤ rfsBufferSize by decide)]
  rfl

/-- A response with data that was put into its place before. -/
theorem carries_readResponse (m : Memory) (bytes : List UInt8) (h : bytes.length < 2 ^ 32) :
    Carries (RfsPacket.write (m.overlay readBufOffset bytes)
        (.readResponse (UInt32.ofNat bytes.length))) [.r rfsOpRead, .p]
      ((), (some (.ofBytes bytes), UInt32.ofNat bytes.length), ()) := by
  have hlen : (UInt32.ofNat bytes.length).toNat = bytes.length := UInt32.toNat_ofNat_of_lt' h
  have hblock : blockBytes (m.overlay 17 bytes) 17 none (UInt32.ofNat bytes.length).toNat =
      blockBytes (m.overlay 17 bytes) 17 (some (.ofBytes bytes))
        (UInt32.ofNat bytes.length).toNat := by
    rw [blockBytes, blockBytes, hlen, Memory.slice_overlay, Memory.slice_ofBytes]
  have hbytes : packetBytes (m.overlay 17 bytes) [.r rfsOpRead, .p]
        ((), (none, UInt32.ofNat bytes.length), ()) =
      packetBytes (m.overlay 17 bytes) [.r rfsOpRead, .p]
        ((), (some (.ofBytes bytes), UInt32.ofNat bytes.length), ()) := by
    simp only [packetBytes, bodyBytes, fieldsBytes, fieldBytes]
    exact congrArg (fun bs => _ ++ (startBytes ++ (_ ++ (_ ++ bs ++ [])) ++ endBytes)) hblock
  refine ⟨m.overlay 17 bytes, ?_⟩
  rw [← hbytes, RfsPacket.write_eq, genWrite_eq]
  change Memory.slice _ 0 (packetLength [.r rfsOpRead, .p]
    ((), (none, UInt32.ofNat bytes.length), ())) = _
  rw [← length_packetBytes (m.overlay 17 bytes)]
  exact Memory.slice_overlay

/-- `server_read`. -/
theorem serverExecuteRequest_read {fd : Int32} {count : UInt32}
    (h : Carries m [.o rfsOpRead, .i, .l] ((), fd, count, ())) :
    serverExecuteRequest os basedir m st =
      match os.read st fd count with
      | (none, _) => none
      | (some bytes, st) =>
          if 23 + bytes.length ≤ rfsBufferSize then
            some (true, RfsPacket.write (m.overlay readBufOffset bytes)
              (.readResponse (UInt32.ofNat bytes.length)), st)
          else none := by
  have hread : remotefsReadReadRequest .bits32 m = (true, fd, count) := by
    rw [remotefsReadReadRequest, h.genRead]
    rfl
  rw [serverExecuteRequest, h.getRequestId]
  change serverRead os m st = _
  rw [serverRead, h.readIn (show 28 ≤ rfsBufferSize by decide), hread]
  simp only [Option.bind_eq_bind, Option.bind_some, if_true]
  have hlen := os.read_length_le st fd count
  generalize os.read st fd count = res at hlen
  rcases res with ⟨_ | bytes, st'⟩
  · have hfit : ¬ packetLength (RfsPacket.readResponse (-1 : Int32).toUInt32).fields
        (RfsPacket.readResponse (-1 : Int32).toUInt32).args ≤ rfsBufferSize := by decide
    dsimp only
    rw [writeIn, RfsPacket.written_eq, if_neg hfit]
    rfl
  · have hlt : bytes.length < 2 ^ 32 := (hlen bytes rfl).trans_lt count.toNat_lt
    have hpacket : packetLength (RfsPacket.readResponse (UInt32.ofNat bytes.length)).fields
        (RfsPacket.readResponse (UInt32.ofNat bytes.length)).args = 23 + bytes.length := by
      simp only [RfsPacket.fields, RfsPacket.args, packetLength, fieldsLength, fieldLength,
        UInt32.toNat_ofNat_of_lt' hlt, ptrHeaderSize]
      omega
    dsimp only
    rw [writeIn, RfsPacket.written_eq, hpacket, readBufOffset]
    split_ifs with h₁ h₂
    · rfl
    · rfl
    · omega
    · rfl

/-- `server_close`. -/
theorem serverExecuteRequest_close {fd : Int32} (h : Carries m [.o rfsOpClose, .i] ((), fd, ())) :
    serverExecuteRequest os basedir m st =
      some (true, RfsPacket.write m (.closeResponse (os.close st fd).1), (os.close st fd).2) := by
  have hread : remotefsCloseReadRequest .bits32 m = (true, fd) := by
    rw [remotefsCloseReadRequest, h.genRead]
    rfl
  rw [serverExecuteRequest, h.getRequestId]
  change serverClose os m st = _
  rw [serverClose, h.readIn (show 23 ≤ rfsBufferSize by decide), hread]
  simp only [Option.bind_eq_bind, Option.bind_some, if_true]
  rw [writeIn_of_le m (.closeResponse _) (show 22 ≤ rfsBufferSize by decide)]
  rfl

/-- `server_lseek`. -/
theorem serverExecuteRequest_lseek {fd offset whence : Int32}
    (h : Carries m [.o rfsOpLseek, .i, .L, .i] ((), fd, offset, whence, ())) :
    serverExecuteRequest os basedir m st =
      some (true, RfsPacket.write m (.lseekResponse (os.lseek st fd offset whence).1),
        (os.lseek st fd offset whence).2) := by
  have hread : remotefsLseekReadRequest .bits32 m = (true, fd, offset, whence) := by
    rw [remotefsLseekReadRequest, h.genRead]
    rfl
  rw [serverExecuteRequest, h.getRequestId]
  change serverLseek os m st = _
  rw [serverLseek, h.readIn (show 33 ≤ rfsBufferSize by decide), hread]
  simp only [Option.bind_eq_bind, Option.bind_some, if_true]
  rw [writeIn_of_le m (.lseekResponse _) (show 22 ≤ rfsBufferSize by decide)]
  rfl

/-- `server_closedir`. -/
theorem serverExecuteRequest_closedir {d : UInt32}
    (h : Carries m [.o rfsOpClosedir, .l] ((), d, ())) :
    serverExecuteRequest os basedir m st =
      some (true, RfsPacket.write m (.closedirResponse d.toInt32), (os.closedir st d).2) := by
  have hread : remotefsClosedirReadRequest .bits32 m = (true, d) := by
    rw [remotefsClosedirReadRequest, h.genRead]
    rfl
  rw [serverExecuteRequest, h.getRequestId]
  change serverClosedir os m st = _
  rw [serverClosedir, h.readIn (show 23 ≤ rfsBufferSize by decide), hread]
  simp only [Option.bind_eq_bind, Option.bind_some, if_true]
  rw [writeIn_of_le m (.closedirResponse _) (show 22 ≤ rfsBufferSize by decide)]
  rfl

/-- The length of a response with data. -/
theorem packetLength_readResponse {bytes : List UInt8} (h : bytes.length < 2 ^ 32) :
    packetLength [.r rfsOpRead, .p]
      ((), (some (.ofBytes bytes), UInt32.ofNat bytes.length), ()) = 23 + bytes.length := by
  simp only [packetLength, fieldsLength, fieldLength, UInt32.toNat_ofNat_of_lt' h, ptrHeaderSize]
  omega

/-- The answer to a request to read, if there is no error and the data fits. -/
theorem answer_read {fd : Int32} {count : UInt32} {bytes : List UInt8} {st' : σ}
    (hres : os.read st fd count = (some bytes, st')) (hfits : 23 + bytes.length ≤ rfsBufferSize)
    (h : Carries m [.o rfsOpRead, .i, .l] ((), fd, count, ())) :
    ∃ server, serverExecuteRequest os basedir m st = some (true, server, st') ∧
      Carries server [.r rfsOpRead, .p]
        ((), (some (.ofBytes bytes), UInt32.ofNat bytes.length), ()) ∧
      packetLength [.r rfsOpRead, .p]
        ((), (some (.ofBytes bytes), UInt32.ofNat bytes.length), ()) ≤ rfsBufferSize := by
  have hle := os.read_length_le st fd count
  rw [hres] at hle
  have hlt : bytes.length < 2 ^ 32 := (hle bytes rfl).trans_lt count.toNat_lt
  rw [serverExecuteRequest_read h, hres]
  exact ⟨_, if_pos hfits, carries_readResponse m bytes hlt,
    (packetLength_readResponse hlt).trans_le hfits⟩

/-- `server_readdir` at the end of a directory. -/
theorem serverExecuteRequest_readdir_none {d : UInt32} {st' : σ}
    (h : Carries m [.o rfsOpReaddir, .l] ((), d, ())) (hres : os.readdir st d = (none, st')) :
    serverExecuteRequest os basedir m st =
      some (true, RfsPacket.write m (.readdirResponse none 0 0), st') := by
  have hread : remotefsReaddirReadRequest .bits32 m = (true, d) := by
    rw [remotefsReaddirReadRequest, h.genRead]
    rfl
  rw [serverExecuteRequest, h.getRequestId]
  change serverReaddir os basedir m st = _
  rw [serverReaddir, h.readIn (show 23 ≤ rfsBufferSize by decide), hread]
  simp only [Option.bind_eq_bind, Option.bind_some, if_true, hres]
  rw [writeIn_of_le m (.readdirResponse none 0 0) (show 33 ≤ rfsBufferSize by decide)]
  rfl

/-- `server_readdir` with an entry. -/
theorem serverExecuteRequest_readdir_some {d : UInt32} {name : CString} {st' : σ}
    (h : Carries m [.o rfsOpReaddir, .l] ((), d, ()))
    (hres : os.readdir st d = (some name, st')) :
    serverExecuteRequest os basedir m st =
      (serverFullname basedir.bytes name.bytes).bind fun fullname =>
        some <|
          let (fd, st) := os.openFile st' fullname rfsOpenFlagRdonly 0
          if fd = 0 then (true, RfsPacket.write m (.readdirResponse none 0 0), st)
          else
            let (fsize, st) := os.lseek st fd 0 rfsLseekEnd
            (true, RfsPacket.write m (.readdirResponse (some name) fsize.toUInt32 0),
              (os.close st fd).2) := by
  have hread : remotefsReaddirReadRequest .bits32 m = (true, d) := by
    rw [remotefsReaddirReadRequest, h.genRead]
    rfl
  rw [serverExecuteRequest, h.getRequestId]
  change serverReaddir os basedir m st = _
  rw [serverReaddir, h.readIn (show 23 ≤ rfsBufferSize by decide), hread]
  simp only [Option.bind_eq_bind, Option.bind_some, if_true, hres]
  refine Option.bind_congr fun fullname hfull => ?_
  have hlen := length_le_of_nameSafe (serverFullname_eq_some_iff_nameSafe.mp hfull).1
  have hfit := fun size => packetLength_readdirResponse_le name size 0 hlen
  by_cases hfd : (os.openFile st' fullname rfsOpenFlagRdonly 0).1 = 0
  · rw [if_neg (not_not.mpr hfd), if_pos hfd,
      writeIn_of_le m (.readdirResponse none 0 0) (show 33 ≤ rfsBufferSize by decide)]
    rfl
  · rw [if_pos hfd, if_neg hfd, writeIn_of_le m (.readdirResponse (some name) _ 0) (hfit _)]
    rfl

end Handlers

end ELuaBrain.Rpc
