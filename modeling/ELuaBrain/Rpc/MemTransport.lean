import ELuaBrain.Rpc.Packet
import ELuaBrain.System.Reach

/-!
# The memory transport of the server

The machine of `rfs_transports.c` that collects a request byte by byte, as the loop of the serial
multiplexer runs it: when a response is there the request is executed and the machine starts anew.
The first four bytes of a request hold its size. A size that is too small or too large makes the
machine write behind the buffer, and after four other bytes it stands still for ever.

## Main definitions

* `MemTransport`, `rfsMemReadRequestPacket`, `rfsMemWriteResponse` : the machine.
* `MemServer` : the machine with the requests that were answered.
* `MemServer.Recovers` : it comes back to the start of a request, and then answers.

## Main results

* `recovers_of_careful` : it does, as long as the first four bytes of each request are right.
-/

namespace ELuaBrain.Rpc

/-! ### The machine -/

/-- `MAX_PACKET_SIZE`. -/
def maxPacketSize : ℕ := 4096

/-- The size of `rfs_buffer`. -/
def rfsBufferSize : ℕ := maxPacketSize + writeRequestExtra

/-- `MEM_STATE_READ_LENGTH` and the other states. -/
inductive MemState where
  | readLength
  | readRequest
  | requestDone
  deriving DecidableEq

/-- The variables of the machine, with `rfs_buffer`. -/
structure MemTransport where
  buf : Memory := fun _ => 0
  readLen : ℕ := 0
  expectedLen : ℤ := 0
  state : MemState := .readLength
  responseFlag : Bool := false

namespace MemTransport

/-- `rfs_mem_start_request`. -/
def rfsMemStartRequest (t : MemTransport) : MemTransport :=
  { t with state := .readLength, readLen := 0, expectedLen := 0, responseFlag := false }

/-- `rfs_buffer[ i ] = c`, inside the buffer, and `mem_read_len ++`. -/
def store (t : MemTransport) (i : ℕ) (c : UInt8) : Option MemTransport :=
  if i < rfsBufferSize then some { t with buf := t.buf.overlay i [c], readLen := t.readLen + 1 }
  else none

/-- `rfs_mem_read_request_packet`, where `none` stands for `-1`. -/
def rfsMemReadRequestPacket (t : MemTransport) : Option UInt8 → Option (MemTransport × Bool)
  | none => some (t.rfsMemStartRequest, false)
  | some c =>
      match t.state with
      | .readLength =>
          (t.store t.readLen c).map fun t =>
            if t.readLen = startOffset then
              match getPacketSize t.buf with
              | (false, _) => ({ t with readLen := 0, state := .requestDone }, false)
              | (true, temp16) =>
                  ({ t with
                    readLen := 0
                    state := .readRequest
                    expectedLen := temp16.toNat - startOffset }, true)
            else (t, true)
      | .readRequest =>
          (t.store (startOffset + t.readLen) c).map fun t =>
            if (t.readLen : ℤ) = t.expectedLen then
              ({ t with state := .requestDone, responseFlag := true }, true)
            else (t, true)
      | .requestDone => some (t, true)

/-- `rfs_mem_write_response`, with the length of the response. `execute` is what
`server_execute_request` makes of the buffer. -/
def rfsMemWriteResponse (execute : Memory → Memory) (t : MemTransport) : MemTransport × UInt16 :=
  match getPacketSize (execute t.buf) with
  | (true, len) => ({ t with buf := execute t.buf }, len)
  | (false, _) => ({ t with buf := execute t.buf }, 0)

end MemTransport

/-- The machine, and the requests that were answered. -/
structure MemServer where
  transport : MemTransport := {}
  answered : List (List UInt8) := []

namespace MemServer

/-- A byte for the server in the loop of the multiplexer. -/
def step (execute : Memory → Memory) (s : MemServer) (c : UInt8) : Option MemServer :=
  (s.transport.rfsMemReadRequestPacket (some c)).map fun (t, _) =>
    if t.responseFlag then
      { transport := (t.rfsMemWriteResponse execute).1.rfsMemStartRequest
        answered := s.answered ++ [t.buf.slice 0 (startOffset + t.readLen)] }
    else { s with transport := t }

/-- The next byte is the first one of a request. -/
structure AtHeader (s : MemServer) : Prop where
  state : s.transport.state = .readLength
  readLen : s.transport.readLen = 0
  responseFlag : s.transport.responseFlag = false

end MemServer

/-- A request that starts with its size and fits into the buffer. -/
structure WellFormed (packet : List UInt8) : Prop where
  header : packet.take 4 = typePktSize :: typeInt16 :: u16Bytes (UInt16.ofNat packet.length)
  lt_length : startOffset < packet.length
  length_le : packet.length ≤ rfsBufferSize

namespace MemServer

variable (execute : Memory → Memory)

/-- Whatever comes within the guard, the next byte is stored in the buffer, and after finitely many
bytes the machine is at the start of a request. From then on it answers all requests. -/
structure Recovers (guard : MemServer → UInt8 → Prop) (s : MemServer) : Prop where
  stored : ∀ c, guard s c → (s.step execute c).isSome
  returns : ∀ stream : ℕ → UInt8,
    (∀ n s', runAll (step execute) ((List.range n).map stream) s = some s' →
      guard s' (stream n)) →
    ∃ n s', runAll (step execute) ((List.range n).map stream) s = some s' ∧ s'.AtHeader ∧
      ∀ packets, (∀ p ∈ packets, WellFormed p) →
        ∃ s'', runAll (step execute) packets.flatten s' = some s'' ∧ s''.AtHeader ∧
          s''.answered = s'.answered ++ packets

/-- The condition on a byte under which the machine goes on: if it is the fourth one of a request,
these four are a size that is larger than four and not larger than the buffer. -/
def Careful (s : MemServer) (c : UInt8) : Prop :=
  s.transport.state = .readLength → s.transport.readLen = 3 →
    (getPacketSize (s.transport.buf.overlay 3 [c])).1 = true ∧
      startOffset < (getPacketSize (s.transport.buf.overlay 3 [c])).2.toNat ∧
      (getPacketSize (s.transport.buf.overlay 3 [c])).2.toNat ≤ rfsBufferSize

instance (s : MemServer) (c : UInt8) : Decidable (s.Careful c) :=
  inferInstanceAs (Decidable (_ → _ → _))

/-! ### Steps -/

section Step

variable {execute} {s : MemServer} {c : UInt8} {n : ℕ}

/-- One of the first three bytes. -/
theorem step_length (hstate : s.transport.state = .readLength)
    (hflag : s.transport.responseFlag = false) (hlen : s.transport.readLen < 3) :
    s.step execute c = some { s with
      transport := { s.transport with
        buf := s.transport.buf.overlay s.transport.readLen [c]
        readLen := s.transport.readLen + 1 } } := by
  have hlt : s.transport.readLen < rfsBufferSize := hlen.trans (by decide)
  have hne : s.transport.readLen + 1 ≠ startOffset := by
    rw [startOffset]
    omega
  simp only [step, MemTransport.rfsMemReadRequestPacket, hstate, MemTransport.store, if_pos hlt,
    Option.map_some, if_neg hne, hflag, Bool.false_eq_true, if_false]

/-- The fourth byte. -/
theorem step_header {size : UInt16} (hstate : s.transport.state = .readLength)
    (hflag : s.transport.responseFlag = false) (hlen : s.transport.readLen = 3)
    (hsize : getPacketSize (s.transport.buf.overlay 3 [c]) = (true, size)) :
    s.step execute c = some { s with
      transport := { s.transport with
        buf := s.transport.buf.overlay 3 [c]
        readLen := 0
        state := .readRequest
        expectedLen := size.toNat - startOffset } } := by
  have hlt : 3 < rfsBufferSize := by decide
  have heq : 3 + 1 = startOffset := rfl
  simp only [step, MemTransport.rfsMemReadRequestPacket, hstate, MemTransport.store, hlen,
    if_pos hlt, Option.map_some, if_pos heq, hsize, hflag, Bool.false_eq_true, if_false]

/-- A byte behind the first four. -/
theorem step_request (hstate : s.transport.state = .readRequest)
    (hflag : s.transport.responseFlag = false) (hexpected : s.transport.expectedLen = n)
    (hlen : s.transport.readLen + 1 < n) (hn : startOffset + n ≤ rfsBufferSize) :
    s.step execute c = some { s with
      transport := { s.transport with
        buf := s.transport.buf.overlay (startOffset + s.transport.readLen) [c]
        readLen := s.transport.readLen + 1 } } := by
  have hlt : startOffset + s.transport.readLen < rfsBufferSize := by omega
  have hne : ((s.transport.readLen + 1 : ℕ) : ℤ) ≠ s.transport.expectedLen := by omega
  simp only [step, MemTransport.rfsMemReadRequestPacket, hstate, MemTransport.store, if_pos hlt,
    Option.map_some, if_neg hne, hflag, Bool.false_eq_true, if_false]

/-- The last byte. -/
theorem step_last (hstate : s.transport.state = .readRequest)
    (hexpected : s.transport.expectedLen = n) (hlen : s.transport.readLen + 1 = n)
    (hn : startOffset + n ≤ rfsBufferSize) :
    ∃ s', s.step execute c = some s' ∧ s'.AtHeader ∧
      s'.answered = s.answered ++
        [(s.transport.buf.overlay (startOffset + s.transport.readLen) [c]).slice 0
          (startOffset + n)] := by
  have hlt : startOffset + s.transport.readLen < rfsBufferSize := by omega
  have heq : ((s.transport.readLen + 1 : ℕ) : ℤ) = s.transport.expectedLen := by omega
  let t : MemTransport := { s.transport with
    buf := s.transport.buf.overlay (startOffset + s.transport.readLen) [c]
    readLen := s.transport.readLen + 1
    state := .requestDone
    responseFlag := true }
  have hstep : s.step execute c = some
      { transport := (t.rfsMemWriteResponse execute).1.rfsMemStartRequest
        answered := s.answered ++ [t.buf.slice 0 (startOffset + t.readLen)] } := by
    simp only [step, MemTransport.rfsMemReadRequestPacket, hstate, MemTransport.store, if_pos hlt,
      Option.map_some, if_pos heq, if_true, t]
  refine ⟨_, hstep, ⟨rfl, rfl, rfl⟩, ?_⟩
  dsimp only [t]
  rw [hlen]

end Step

/-! ### Recovery -/

/-- The invariant of the runs. The machine does not stand still, and what it expects fits into the
buffer. -/
structure Valid (s : MemServer) : Prop where
  responseFlag : s.transport.responseFlag = false
  state : s.transport.state = .readLength ∧ s.transport.readLen < 4 ∨
    s.transport.state = .readRequest ∧ ∃ n : ℕ, s.transport.expectedLen = n ∧
      s.transport.readLen < n ∧ startOffset + n ≤ rfsBufferSize

/-- A bound on the number of bytes until the start of a request. -/
def remaining (s : MemServer) : ℕ :=
  match s.transport.state with
  | .readLength =>
      if s.transport.readLen = 0 then 0 else rfsBufferSize + 4 - s.transport.readLen
  | .readRequest => s.transport.expectedLen.toNat - s.transport.readLen
  | .requestDone => 0

section Recovery

variable (execute : Memory → Memory) {s s' : MemServer} {c : UInt8}

theorem AtHeader.valid (h : s.AtHeader) : s.Valid :=
  ⟨h.responseFlag, .inl ⟨h.state, h.readLen.trans_lt (by decide)⟩⟩

/-- Every byte that meets the condition keeps the invariant, and brings the start of a request
nearer. -/
theorem Valid.step (h : s.Valid) (hc : s.Careful c) :
    ∃ s', s.step execute c = some s' ∧ s'.Valid ∧
      (s'.AtHeader ∨ s.AtHeader ∨ s'.remaining < s.remaining) := by
  obtain ⟨hflag, ⟨hstate, hlen⟩ | ⟨hstate, n, hexpected, hlen, hn⟩⟩ := h
  · rcases Nat.lt_succ_iff_lt_or_eq.mp hlen with hlt | heq
    · refine ⟨_, step_length hstate hflag hlt, ⟨hflag, .inl ⟨hstate, ?_⟩⟩, .inr ?_⟩
      · exact Nat.succ_lt_succ hlt
      · rcases Nat.eq_zero_or_pos s.transport.readLen with hzero | hpos
        · exact .inl ⟨hstate, hzero, hflag⟩
        · right
          simp only [remaining, hstate, Nat.succ_ne_zero, if_false, if_neg hpos.ne', rfsBufferSize,
            maxPacketSize, writeRequestExtra]
          omega
    · obtain ⟨hok, hlt, hle⟩ := hc hstate heq
      have hsize : getPacketSize (s.transport.buf.overlay 3 [c]) =
        (true, (getPacketSize (s.transport.buf.overlay 3 [c])).2) := Prod.ext hok rfl
      generalize (getPacketSize (s.transport.buf.overlay 3 [c])).2 = size at hlt hle hsize
      refine ⟨_, step_header hstate hflag heq hsize,
        ⟨hflag, .inr ⟨rfl, size.toNat - startOffset, ?_, ?_, ?_⟩⟩, .inr (.inr ?_)⟩
      · exact (Int.ofNat_sub hlt.le).symm
      · exact Nat.sub_pos_of_lt hlt
      · omega
      · simp only [remaining, hstate, heq, OfNat.ofNat_ne_zero, if_false]
        simp only [startOffset, rfsBufferSize, maxPacketSize, writeRequestExtra] at hlt hle ⊢
        omega
  · rcases Nat.lt_or_eq_of_le (Nat.succ_le_of_lt hlen) with hlt | heq
    · refine ⟨_, step_request hstate hflag hexpected hlt hn,
        ⟨hflag, .inr ⟨hstate, n, hexpected, hlt, hn⟩⟩, .inr (.inr ?_)⟩
      simp only [remaining, hstate, hexpected]
      omega
    · obtain ⟨s', hs', hheader, -⟩ := step_last (c := c) hstate hexpected heq hn
      exact ⟨s', hs', hheader.valid, .inl hheader⟩

/-- After finitely many bytes the machine is at the start of a request. -/
theorem Valid.returns (h : s.Valid) (stream : ℕ → UInt8)
    (hc : ∀ n s', runAll (MemServer.step execute) ((List.range n).map stream) s = some s' →
      s'.Careful (stream n)) :
    ∃ n s', runAll (MemServer.step execute) ((List.range n).map stream) s = some s' ∧
      s'.AtHeader := by
  have hrange : ∀ n, (List.range (n + 1)).map stream =
      stream 0 :: (List.range n).map fun i => stream (i + 1) := fun n => by
    rw [List.range_succ_eq_map, List.map_cons, List.map_map]
    rfl
  induction hk : s.remaining using Nat.strong_induction_on generalizing s stream with
  | _ k ih =>
    by_cases hheader : s.AtHeader
    · exact ⟨0, s, rfl, hheader⟩
    · obtain ⟨s₁, hs₁, hvalid, hstep⟩ := h.step execute (hc 0 s rfl)
      have hrun : ∀ n, runAll (MemServer.step execute) ((List.range (n + 1)).map stream) s =
          runAll (MemServer.step execute) ((List.range n).map fun i => stream (i + 1)) s₁ :=
            fun n => by
        rw [hrange, runAll, hs₁]
        rfl
      rcases hstep with hheader₁ | hheader' | hlt
      · exact ⟨1, s₁, (hrun 0).trans rfl, hheader₁⟩
      · exact absurd hheader' hheader
      · obtain ⟨n, s', hs', hheader'⟩ := ih _ (hk ▸ hlt) hvalid (fun i => stream (i + 1))
          (fun n s' hs' => hc (n + 1) s' ((hrun n).trans hs')) (fun n => by
            rw [List.range_succ_eq_map, List.map_cons, List.map_map]
            rfl) rfl
        exact ⟨n + 1, s', (hrun n).trans hs', hheader'⟩

end Recovery

/-! ### Answers -/

/-- The first `k` bytes of a request were read. -/
structure Reading (s : MemServer) (packet : List UInt8) (k : ℕ) : Prop where
  responseFlag : s.transport.responseFlag = false
  bytes : s.transport.buf.slice 0 k = packet.take k
  state : k < 4 ∧ s.transport.state = .readLength ∧ s.transport.readLen = k ∨
    s.transport.state = .readRequest ∧ ∃ j, k = startOffset + j ∧ s.transport.readLen = j ∧
      s.transport.expectedLen = (packet.length - startOffset : ℕ)

section Answers

variable (execute : Memory → Memory) {s s' : MemServer} {packet : List UInt8} {k : ℕ}

theorem slice_overlay_succ {m : Memory} {c : UInt8} {n : ℕ} (hn : k + 1 = n) :
    (m.overlay k [c]).slice 0 n = m.slice 0 k ++ [c] := by
  subst hn
  rw [Memory.slice_add, Memory.slice_overlay_of_disjoint (.inl (Nat.zero_add k).le), Nat.zero_add]
  exact congrArg _ Memory.slice_overlay

/-- The first four bytes are the size. -/
theorem getPacketSize_of_wellFormed (hp : WellFormed packet) {m : Memory}
    (h : m.slice 0 4 = packet.take 4) :
    getPacketSize m = (true, UInt16.ofNat packet.length) ∧
      (UInt16.ofNat packet.length).toNat = packet.length :=
  ⟨getPacketSize_of_slice (h.trans hp.header), UInt16.toNat_ofNat_of_lt'
    (hp.length_le.trans_lt (by decide))⟩

/-- A byte of the request that is not the last. -/
theorem Reading.step (h : s.Reading packet k) (hp : WellFormed packet)
    (hk : k + 1 < packet.length) :
    ∃ s', s.step execute packet[k] = some s' ∧ s'.Reading packet (k + 1) ∧
      s'.answered = s.answered := by
  have hbytes : (s.transport.buf.overlay k [packet[k]]).slice 0 (k + 1) = packet.take (k + 1) := by
    rw [slice_overlay_succ rfl, h.bytes, List.take_append_getElem]
  have hlt := hp.lt_length
  have hle := hp.length_le
  obtain ⟨hflag, -, ⟨hk4, hstate, hlen⟩ | ⟨hstate, j, rfl, hlen, hexpected⟩⟩ := h
  · rcases Nat.lt_succ_iff_lt_or_eq.mp hk4 with hk3 | rfl
    · refine ⟨_, step_length hstate hflag (hlen.trans_lt hk3), ⟨hflag, ?_, .inl ⟨?_, hstate, ?_⟩⟩,
        rfl⟩
      · rw [hlen]
        exact hbytes
      · exact Nat.succ_lt_succ hk3
      · exact congrArg (· + 1) hlen
    · obtain ⟨hsize, hnat⟩ := getPacketSize_of_wellFormed hp hbytes
      refine ⟨_, step_header hstate hflag hlen hsize, ⟨hflag, hbytes, .inr ⟨rfl, 0, rfl, rfl, ?_⟩⟩,
        rfl⟩
      dsimp only
      rw [hnat, Int.ofNat_sub hlt.le]
  · refine ⟨_, step_request hstate hflag hexpected ?_ ?_,
      ⟨hflag, ?_, .inr ⟨hstate, j + 1, rfl, ?_, hexpected⟩⟩, rfl⟩
    · omega
    · omega
    · rw [hlen]
      exact hbytes
    · exact congrArg (· + 1) hlen

/-- The last byte of the request. -/
theorem Reading.last (h : s.Reading packet k) (hp : WellFormed packet)
    (hk : k + 1 = packet.length) :
    ∃ s', s.step execute packet[k] = some s' ∧ s'.AtHeader ∧
      s'.answered = s.answered ++ [packet] := by
  have hbytes : (s.transport.buf.overlay k [packet[k]]).slice 0 packet.length = packet := by
    rw [slice_overlay_succ hk, h.bytes, List.take_append_getElem, hk, List.take_length]
  have hlt := hp.lt_length
  have hle := hp.length_le
  obtain ⟨-, -, ⟨hk4, -, -⟩ | ⟨hstate, j, rfl, hlen, hexpected⟩⟩ := h
  · rw [startOffset] at hlt
    omega
  · obtain ⟨s', hs', hheader, hanswered⟩ := step_last (s := s) (c := packet[startOffset + j])
      hstate hexpected (by omega) (by omega)
    refine ⟨s', hs', hheader, hanswered.trans ?_⟩
    rw [hlen, Nat.add_sub_cancel' hlt.le, hbytes]

/-- The rest of a request is read, and it is answered. -/
theorem Reading.run (h : s.Reading packet k) (hp : WellFormed packet) (hk : k < packet.length) :
    ∃ s', runAll (MemServer.step execute) (packet.drop k) s = some s' ∧ s'.AtHeader ∧
      s'.answered = s.answered ++ [packet] := by
  induction hn : packet.length - k generalizing s k with
  | zero => omega
  | succ n ih =>
    rw [List.drop_eq_getElem_cons hk, runAll]
    rcases Nat.lt_or_eq_of_le (Nat.succ_le_of_lt hk) with hlt | heq
    · obtain ⟨s₁, hs₁, hreading, hanswered⟩ := h.step execute hp hlt
      obtain ⟨s', hs', hheader, hanswered'⟩ := ih hreading hlt (by omega)
      exact ⟨s', by rw [hs₁]; exact hs', hheader, hanswered ▸ hanswered'⟩
    · obtain ⟨s', hs', hheader, hanswered⟩ := h.last execute hp heq
      refine ⟨s', ?_, hheader, hanswered⟩
      rw [hs', List.drop_eq_nil_of_le heq.ge]
      rfl

/-- At the start of a request the machine answers all requests that come. -/
theorem AtHeader.answers (h : s.AtHeader) {packets : List (List UInt8)}
    (hp : ∀ p ∈ packets, WellFormed p) :
    ∃ s', runAll (MemServer.step execute) packets.flatten s = some s' ∧ s'.AtHeader ∧
      s'.answered = s.answered ++ packets := by
  induction packets generalizing s with
  | nil => exact ⟨s, rfl, h, (List.append_nil _).symm⟩
  | cons p packets ih =>
    have hfirst := hp p List.mem_cons_self
    have hreading : s.Reading p 0 :=
      ⟨h.responseFlag, rfl, .inl ⟨by decide, h.state, h.readLen⟩⟩
    obtain ⟨s₁, hs₁, hheader₁, hanswered₁⟩ := hreading.run execute hfirst
      (Nat.zero_lt_of_lt hfirst.lt_length)
    obtain ⟨s', hs', hheader', hanswered'⟩ := ih hheader₁ fun q hq =>
      hp q (List.mem_cons_of_mem _ hq)
    refine ⟨s', ?_, hheader', ?_⟩
    · rw [List.flatten_cons, runAll_append]
      rw [List.drop_zero] at hs₁
      rw [hs₁]
      exact hs'
    · rw [hanswered', hanswered₁, List.append_assoc]
      rfl

end Answers

/-! ### Every run -/

/-- **The memory transport.** As long as the first four bytes of each request are a size that is
larger than four and not larger than the buffer, every byte is stored in the buffer, and the machine
comes back to the start of a request and answers what comes then. -/
theorem recovers_of_careful (execute : Memory → Memory) {s : MemServer}
    (h : Reach (step execute) Careful {} s) : s.Recovers execute Careful := by
  have hvalid : s.Valid := by
    refine h.invariant ⟨rfl, .inl ⟨rfl, by decide⟩⟩ fun s c s' hs hc hstep => ?_
    obtain ⟨s₁, hs₁, hvalid, -⟩ := hs.step execute hc
    obtain rfl := Option.some.inj (hs₁.symm.trans hstep)
    exact hvalid
  refine ⟨fun c hc => ?_, fun stream hstream => ?_⟩
  · obtain ⟨s', hs', -⟩ := hvalid.step execute hc
    rw [hs']
    rfl
  · obtain ⟨n, s', hs', hheader⟩ := hvalid.returns execute stream hstream
    exact ⟨n, s', hs', hheader, fun packets hp => hheader.answers execute hp⟩

/-- The first five bytes of a request of six. -/
theorem recovers_of_careful_five :
    ∃ s, Reach (step id) Careful {} s ∧ s.transport.readLen = 1 ∧ s.Recovers id Careful := by
  have hrun : ∀ hrun : (runAll (guarded (step id) Careful) [0xA5, 2, 6, 0, 7]
      ({} : MemServer)).isSome, (Option.get _ hrun).transport.readLen = 1 := by decide +kernel
  have hreach := reach_get (step id) Careful [0xA5, 2, 6, 0, 7] (s := {})
    (by decide +kernel)
  exact ⟨_, hreach, hrun _, recovers_of_careful id hreach⟩

/-- A request that is done without a response is never left. -/
theorem runAll_of_requestDone {execute : Memory → Memory} {s : MemServer}
    (hstate : s.transport.state = .requestDone) (hflag : s.transport.responseFlag = false)
    (cs : List UInt8) : runAll (step execute) cs s = some s := by
  induction cs with
  | nil => rfl
  | cons c cs ih =>
    have hstep : s.step execute c = some s := by
      simp only [step, MemTransport.rfsMemReadRequestPacket, hstate, Option.map_some, hflag,
        Bool.false_eq_true, if_false]
    rw [runAll, hstep]
    exact ih

/-- After four bytes that are not a size the machine stands still. -/
theorem not_recovers_zeros :
    ¬ ∀ (execute : Memory → Memory) (s : MemServer),
      Reach (step execute) (fun _ _ => True) {} s → s.Recovers execute fun _ _ => True := by
  intro h
  have hrun : ∀ hrun : (runAll (guarded (step id) fun _ _ => True) [0, 0, 0, 0]
      ({} : MemServer)).isSome, (Option.get _ hrun).transport.state = .requestDone ∧
        (Option.get _ hrun).transport.responseFlag = false := by decide +kernel
  have hreach := reach_get (step id) (fun _ _ => True) [0, 0, 0, 0] (s := {})
    (by decide +kernel)
  obtain ⟨hstate, hflag⟩ := hrun (by decide +kernel)
  obtain ⟨n, s', hs', hheader, -⟩ := (h id _ hreach).returns (fun _ => 0) fun _ _ _ => trivial
  rw [runAll_of_requestDone hstate hflag] at hs'
  obtain rfl := Option.some.inj hs'
  exact absurd (hstate.symm.trans hheader.state) (by decide)

end MemServer

end ELuaBrain.Rpc
