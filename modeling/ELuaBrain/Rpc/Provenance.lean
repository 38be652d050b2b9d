import ELuaBrain.Rpc.Exchange
import ELuaBrain.Rpc.Lossy

/-!
# Where the result of a call comes from

Nothing in a response says to which request it belongs. A response that arrives late is taken for
that of the next call if the two calls have the same operation, and a packet that a datagram puts
into the buffer before the request is sent goes to the server in its place, which sends it back.
What the client can rely on is that a result was sent by the server for a call of the same
operation, and that it is its own if no packet of this operation was on its way when the call was
made.

## Main definitions

* `Answered` : the server sends one packet for another.
* `Sound` : where the results of a run come from.

## Main results

* `sound_of_reach` : all results of every run.
-/

namespace ELuaBrain.Rpc

/-! ### The codes in a packet -/

section Codes

variable {m m' : Memory}

/-- The packet in the memory has a size, and that of a packet. -/
def Framed (m : Memory) : Prop := (getPacketSize m).1 = true ∧ 16 ≤ (getPacketSize m).2.toNat

/-- The size is in the first four bytes. -/
theorem getPacketSize_eq (m : Memory) :
    getPacketSize m =
      (decide (m 0 = typePktSize ∧ m 1 = typeInt16), u16OfBytes (m 2) (m 3)) := by
  by_cases h₀ : m 0 = typePktSize <;> by_cases h₁ : m 1 = typeInt16 <;>
    simp [getPacketSize, readU16, readExpect, next, h₀, h₁]

theorem getPacketSize_congr (h : ∀ k < 4, m k = m' k) : getPacketSize m = getPacketSize m' := by
  rw [getPacketSize_eq, getPacketSize_eq, h 0 (by decide), h 1 (by decide), h 2 (by decide),
    h 3 (by decide)]

theorem Framed.congr (hm : Framed m) (h : ∀ k < 4, m k = m' k) : Framed m' := by
  rw [Framed, ← getPacketSize_congr h]
  exact hm

/-- A packet that has a size starts with the code for it. -/
theorem byte_zero_of_getPacketSize (h : (getPacketSize m).1 = true) : m 0 = typePktSize := by
  rw [getPacketSize_eq] at h
  exact (of_decide_eq_true h).1

/-- What was written has a size. -/
theorem framed_genWrite (m : Memory) {fs : List Field} {as : Args fs}
    (h : packetLength fs as < 65536) : Framed (genWrite m fs as) := by
  rw [Framed, getPacketSize_genWrite, UInt16.toNat_ofNat_of_lt' h, packetLength]
  exact ⟨rfl, Nat.le_add_right _ _⟩

/-- The operation of a request and the code before it. -/
theorem byte_of_getRequestId {id : UInt8} (h : getRequestId m = (true, id)) :
    m 10 = typeOpId ∧ m 11 = id := by
  have hp : (matchPacketStart m { p := 0 }).p = 10 := matchPacketStart_reads.p
  rw [getRequestId, readOpId] at h
  generalize matchPacketStart m { p := 0 } = s at h hp
  obtain ⟨p, err, far⟩ := s
  obtain rfl : p = 10 := hp
  by_cases hop : m 10 = typeOpId
  · simp only [readExpect, next, hop, ne_eq, not_true_eq_false, if_false] at h
    exact ⟨hop, (Prod.mk.inj h).2⟩
  · simp [readExpect, next, hop] at h

/-- The code of a response that is read without an error. -/
theorem byte_of_genRead {id : UInt8} {fs : List Field}
    (h : (genRead m .bits32 (.r id :: fs)).1 = true) : m 10 = opResMod ||| id := by
  have hbody := (genRead_ok_iff (.r id :: fs)).mp h
  have hget := congrArg (·[6]?) hbody
  rw [Memory.getElem?_slice (by omega)] at hget
  exact Option.some.inj hget

/-- The codes in what was written for a response. -/
theorem byte_genWrite_response (m : Memory) {id : UInt8} {fs : List Field}
    (as : Args (.r id :: fs)) : genWrite m (.r id :: fs) as 10 = opResMod ||| id :=
  byte_of_genRead (congrArg Prod.fst (genRead_genWrite m (.r id :: fs) as))

/-- The codes in what was written for a request. -/
theorem byte_genWrite_request (m : Memory) {id : UInt8} {fs : List Field} (as : Args fs) :
    genWrite m (.o id :: fs) ((), as) 10 = typeOpId ∧
      genWrite m (.o id :: fs) ((), as) 11 = id :=
  byte_of_getRequestId (getRequestId_genWrite m id fs as)

theorem opResMod_or_ne (x : UInt8) : opResMod ||| x ≠ typeOpId := by
  intro h
  have hbit := congrArg (fun y : UInt8 => y.toNat.testBit 7) h
  simp only [UInt8.toNat_or, Nat.testBit_or] at hbit
  have h₁ : opResMod.toNat.testBit 7 = true := by decide
  have h₂ : typeOpId.toNat.testBit 7 = false := by decide
  rw [h₁, h₂, Bool.true_or] at hbit
  exact Bool.false_ne_true hbit.symm

end Codes

section Operations

/-- The operations are different without the bit that a response has. -/
theorem op_eq_of_response {call call' : RfsCall}
    (h : opResMod ||| call.op = opResMod ||| call'.op) : call.op = call'.op := by
  have hmask : ∀ call : RfsCall, (opResMod ||| call.op) &&& 0x7F = call.op := by
    intro call
    cases call <;> simp only [RfsCall.op] <;> decide
  rw [← hmask call, h, hmask call']

variable {c : SysConsts} {n : Fin 16} {m : Memory}

theorem readIn_eq_some {α : Type} {size : ℕ} {fs : List Field} {v r : α}
    (h : readIn size m fs v = some r) : v = r :=
  Option.some.inj (Option.ite_none_right_eq_some.mp h).2

/-- The codes in the request of a call. -/
theorem byte_request (call : RfsCall) (m : Memory) :
    (call.func c n).request.write m 10 = typeOpId ∧
      (call.func c n).request.write m 11 = call.op := by
  cases call <;> exact byte_genWrite_request m _

/-- A result other than that of a failure is that of a response of the same operation. -/
theorem byte_of_interpret {call : RfsCall} {r : RfsResult}
    (h : (call.func c n).interpret m = some r) (hr : r ≠ (call.func c n).failed) :
    m 10 = opResMod ||| call.op := by
  by_contra hne
  have hfalse : ∀ fs, (genRead m .bits32 (.r call.op :: fs)).1 = false := fun fs =>
    Bool.eq_false_iff.mpr fun hok => hne (byte_of_genRead hok)
  cases call with
  | rfscOpen pathname flags mode =>
    have hres : (remotefsOpenReadResponse .bits32 m).1 = false := hfalse [.i]
    have hv := readIn_eq_some h
    generalize remotefsOpenReadResponse .bits32 m = res at hres hv
    obtain ⟨ok, fd⟩ := res
    obtain rfl : ok = false := hres
    exact hr hv.symm
  | rfscWrite fd buf =>
    have hres : (remotefsWriteReadResponse .bits32 m).1 = false := hfalse [.l]
    have hv := readIn_eq_some h
    generalize remotefsWriteReadResponse .bits32 m = res at hres hv
    obtain ⟨ok, count⟩ := res
    obtain rfl : ok = false := hres
    exact hr hv.symm
  | rfscRead fd count =>
    have hres : (remotefsReadReadResponse .bits32 m).1 = false := hfalse [.p]
    obtain ⟨v, hv, h⟩ := Option.bind_eq_some_iff.mp h
    obtain rfl := readIn_eq_some hv
    generalize remotefsReadReadResponse .bits32 m = res at hres h
    obtain ⟨ok, resbuf, count⟩ := res
    obtain rfl : ok = false := hres
    exact hr (Option.some.inj h).symm
  | rfscLseek fd offset whence =>
    have hres : (remotefsLseekReadResponse .bits32 m).1 = false := hfalse [.L]
    have hv := readIn_eq_some h
    generalize remotefsLseekReadResponse .bits32 m = res at hres hv
    obtain ⟨ok, res⟩ := res
    obtain rfl : ok = false := hres
    exact hr hv.symm
  | rfscClose fd =>
    have hres : (remotefsCloseReadResponse .bits32 m).1 = false := hfalse [.i]
    have hv := readIn_eq_some h
    generalize remotefsCloseReadResponse .bits32 m = res at hres hv
    obtain ⟨ok, res⟩ := res
    obtain rfl : ok = false := hres
    exact hr hv.symm
  | rfscOpendir name =>
    have hres : (remotefsOpendirReadResponse .bits32 m).1 = false := hfalse [.l]
    have hv := readIn_eq_some h
    generalize remotefsOpendirReadResponse .bits32 m = res at hres hv
    obtain ⟨ok, d⟩ := res
    obtain rfl : ok = false := hres
    exact hr hv.symm
  | rfscReaddir d =>
    have hres : (remotefsReaddirReadResponse .bits32 m).1 = false := hfalse [.p, .l, .l]
    obtain ⟨v, hv, h⟩ := Option.bind_eq_some_iff.mp h
    obtain rfl := readIn_eq_some hv
    generalize remotefsReaddirReadResponse .bits32 m = res at hres h
    obtain ⟨ok, name, size, ftime⟩ := res
    obtain rfl : ok = false := hres
    exact hr (Option.some.inj h).symm
  | rfscClosedir d =>
    have hres : (remotefsClosedirReadResponse .bits32 m).1 = false := hfalse [.i]
    have hv := readIn_eq_some h
    generalize remotefsClosedirReadResponse .bits32 m = res at hres hv
    obtain ⟨ok, res⟩ := res
    obtain rfl : ok = false := hres
    exact hr hv.symm

end Operations

section Replies

variable {σ : Type} {os : Os σ} {basedir : CString} {m : Memory} {st : σ} {id : UInt8}

/-- What is left in the buffer of the server is what was there, or a response of the operation. -/
def Replies (m : Memory) (id : UInt8) (res : Option (Bool × Memory × σ)) : Prop :=
  ∀ r ∈ res, r.2.1 = m ∨ r.2.1 10 = opResMod ||| id ∧ Framed r.2.1

theorem replies_self : Replies m id (some (false, m, st)) := by
  intro r hr
  obtain rfl := Option.some.inj hr
  exact .inl rfl

theorem replies_bind {α : Type} {o : Option α} {f : α → Option (Bool × Memory × σ)}
    (h : ∀ a, Replies m id (f a)) : Replies m id (o.bind f) := by
  intro r hr
  obtain ⟨a, -, ha⟩ := Option.bind_eq_some_iff.mp hr
  exact h a r ha

/-- A response that is written. -/
theorem replies_write (m₀ : Memory) (pk : RfsPacket) (st : σ)
    (h : ∀ m, pk.write m 10 = opResMod ||| id) :
    Replies m id ((writeIn rfsBufferSize m₀ pk).bind fun m => some (true, m, st)) := by
  intro r hr
  obtain ⟨m', hm', hr⟩ := Option.bind_eq_some_iff.mp hr
  obtain ⟨hfit, hm'⟩ := Option.ite_none_right_eq_some.mp hm'
  obtain rfl := Option.some.inj hm'
  obtain rfl := Option.some.inj hr
  rw [RfsPacket.written_eq] at hfit
  have hframed := framed_genWrite m₀ (hfit.trans_lt (by decide))
  rw [← RfsPacket.write_eq] at hframed
  exact .inr ⟨h m₀, hframed⟩

theorem replies_open : Replies m rfsOpOpen (serverOpen os basedir m st) := by
  refine replies_bind fun ⟨ok, filename, flags, mode⟩ => ?_
  cases ok with
  | false => exact replies_self
  | true =>
    exact replies_bind fun name => replies_bind fun fullname =>
      replies_write m (.openResponse _) _ fun m => byte_genWrite_response m _

theorem replies_write_file : Replies m rfsOpWrite (serverWrite os m st) := by
  refine replies_bind fun ⟨ok, fd, buf, count⟩ => ?_
  cases ok with
  | false => exact replies_self
  | true =>
    exact replies_bind fun data =>
      replies_write m (.writeResponse _) _ fun m => byte_genWrite_response m _

theorem replies_read : Replies m rfsOpRead (serverRead os m st) := by
  refine replies_bind fun ⟨ok, fd, count⟩ => ?_
  cases ok with
  | false => exact replies_self
  | true =>
    simp only [if_true]
    generalize os.read st fd count = res
    rcases res with ⟨_ | bytes, st'⟩
    · exact replies_write m (.readResponse _) _ fun m => byte_genWrite_response m _
    · dsimp only
      split_ifs with hfit
      · exact replies_write _ (.readResponse _) _ fun m => byte_genWrite_response m _
      · rintro r ⟨⟩

theorem replies_close : Replies m rfsOpClose (serverClose os m st) := by
  refine replies_bind fun ⟨ok, fd⟩ => ?_
  cases ok with
  | false => exact replies_self
  | true => exact replies_write m (.closeResponse _) _ fun m => byte_genWrite_response m _

theorem replies_lseek : Replies m rfsOpLseek (serverLseek os m st) := by
  refine replies_bind fun ⟨ok, fd, offset, whence⟩ => ?_
  cases ok with
  | false => exact replies_self
  | true => exact replies_write m (.lseekResponse _) _ fun m => byte_genWrite_response m _

theorem replies_opendir : Replies m rfsOpOpendir (serverOpendir os basedir m st) := by
  refine replies_bind fun ⟨ok, name⟩ => ?_
  cases ok with
  | false => exact replies_self
  | true =>
    exact replies_bind fun name => replies_bind fun fullname =>
      replies_write m (.opendirResponse _) _ fun m => byte_genWrite_response m _

theorem replies_readdir : Replies m rfsOpReaddir (serverReaddir os basedir m st) := by
  refine replies_bind fun ⟨ok, d⟩ => ?_
  cases ok with
  | false => exact replies_self
  | true =>
    have hwrite : ∀ name size st', Replies m rfsOpReaddir
        ((writeIn rfsBufferSize m (.readdirResponse name size 0)).bind fun m =>
          some (true, m, (st' : σ))) := fun name size st' =>
      replies_write m (.readdirResponse name size 0) st' fun m => byte_genWrite_response m _
    simp only [if_true]
    generalize os.readdir st d = res
    rcases res with ⟨_ | name, st'⟩
    · exact hwrite none 0 st'
    · refine replies_bind fun fullname => ?_
      split_ifs
      · exact hwrite (some name) _ _
      · exact hwrite none 0 _

theorem replies_closedir : Replies m rfsOpClosedir (serverClosedir os m st) := by
  refine replies_bind fun ⟨ok, d⟩ => ?_
  cases ok with
  | false => exact replies_self
  | true => exact replies_write m (.closedirResponse _) _ fun m => byte_genWrite_response m _

/-- **What the server sends.** It is the packet that it got, or a response to a request, of the same
operation. -/
theorem serverExecuteRequest_replies :
    ∀ r ∈ serverExecuteRequest os basedir m st,
      r.2.1 = m ∨ m 10 = typeOpId ∧ r.2.1 10 = opResMod ||| m 11 ∧ Framed r.2.1 := by
  intro r hr
  rw [serverExecuteRequest] at hr
  rcases hid : getRequestId m with ⟨_ | _, req⟩
  · rw [hid] at hr
    obtain rfl := Option.some.inj hr
    exact .inl rfl
  · rw [hid] at hr
    obtain ⟨hop, hreq⟩ := byte_of_getRequestId hid
    have hreplies : ∀ {res : Option (Bool × Memory × σ)}, Replies m req res → r ∈ res →
        r.2.1 = m ∨ m 10 = typeOpId ∧ r.2.1 10 = opResMod ||| m 11 ∧ Framed r.2.1 := by
      intro res h hr
      rw [hreq]
      exact (h r hr).imp_right fun h => ⟨hop, h⟩
    dsimp only at hr
    split_ifs at hr with hopen hwrite hread hclose hlseek hopendir hreaddir hclosedir
    · exact hreplies (hopen ▸ replies_open) hr
    · exact hreplies (hwrite ▸ replies_write_file) hr
    · exact hreplies (hread ▸ replies_read) hr
    · exact hreplies (hclose ▸ replies_close) hr
    · exact hreplies (hlseek ▸ replies_lseek) hr
    · exact hreplies (hopendir ▸ replies_opendir) hr
    · exact hreplies (hreaddir ▸ replies_readdir) hr
    · exact hreplies (hclosedir ▸ replies_closedir) hr
    · exact hreplies replies_self hr

end Replies

/-! ### The packets of a run -/

/-- What is in memory at the packet. -/
def Parcel.mem (p : Parcel) : Memory := .ofBytes p.bytes

/-- The packet in the memory is a request of the operation, or a response to one. -/
def Coded (m : Memory) (op : UInt8) : Prop :=
  Framed m ∧ (m 10 = typeOpId ∧ m 11 = op ∨ m 10 = opResMod ||| op)

/-- The packet is one, and long enough to have an operation. -/
def Parcel.Of (p : Parcel) (op : UInt8) : Prop := 12 ≤ p.bytes.length ∧ Coded p.mem op

/-- As much of the packet as fits is at the start of the buffer of the client. -/
def StartsWith (n : Fin 16) (m : Memory) (p : Parcel) : Prop :=
  m.slice 0 (p.bytes.take (2 ^ n.val)).length = p.bytes.take (2 ^ n.val)

section Parcels

variable {n : Fin 16} {m m' : Memory} {p : Parcel} {op : UInt8}

theorem Coded.congr (hm : Coded m op) (h : ∀ k < 12, m k = m' k) : Coded m' op := by
  rw [Coded, ← h 10 (by decide), ← h 11 (by decide)]
  exact ⟨hm.1.congr fun k hk => h k (by omega), hm.2⟩

/-- The bytes of a part of the memory, as a packet of their own. -/
theorem mem_of_slice {i k size : ℕ} (h : k < size) :
    m k = Parcel.mem ⟨i, m.slice 0 size⟩ k := by
  have hlt : k < (m.slice 0 size).length := by rwa [Memory.length_slice]
  have hget := Memory.getElem?_slice (m := m) (p := 0) h
  rw [List.getElem?_eq_getElem hlt, Nat.zero_add] at hget
  rw [Parcel.mem, Memory.ofBytes, List.getD_eq_getElem _ _ hlt]
  exact (Option.some.inj hget).symm

theorem Coded.parcel (h : Coded m op) (id : ℕ) {size : ℕ} (hle : 12 ≤ size) :
    Parcel.Of ⟨id, m.slice 0 size⟩ op :=
  ⟨by rwa [Memory.length_slice], h.congr fun _ hk => mem_of_slice (by omega)⟩

/-- A packet that is put into a buffer. -/
theorem overlay_apply {bs : List UInt8} {k : ℕ} (h : k < bs.length) :
    m.overlay 0 bs k = Memory.ofBytes bs k := by
  have hover := Memory.overlay_add (m := m) (p := 0) h
  rw [Nat.zero_add] at hover
  rw [hover, Memory.ofBytes, List.getD_eq_getElem _ _ h]

theorem startsWith_overlay (n : Fin 16) (m : Memory) (p : Parcel) :
    StartsWith n (m.overlay 0 (p.bytes.take (2 ^ n.val))) p :=
  Memory.slice_overlay

/-- The codes of a packet are those in the buffer. -/
theorem StartsWith.mem_eq (h : StartsWith n m p) {k : ℕ} (hlen : k < p.bytes.length)
    (hfits : k < 2 ^ n.val) : p.mem k = m k := by
  have hlt : k < (p.bytes.take (2 ^ n.val)).length := by
    rw [List.length_take]
    exact lt_min hfits hlen
  have hget := congrArg (fun bs => bs[k]?) h
  rw [Memory.getElem?_slice hlt, List.getElem?_take_of_lt hfits, Nat.zero_add,
    List.getElem?_eq_getElem hlen] at hget
  rw [Parcel.mem, Memory.ofBytes, List.getD_eq_getElem _ _ hlen]
  exact (Option.some.inj hget).symm

end Parcels

/-- The packet goes back to a call, and is one of the operation of this call. -/
def Tagged (calls : List (RfsCall × Bool)) (p : Parcel) : Prop :=
  ∃ call, calls[p.id]? = some call ∧ p.Of call.1.op

/-- If no packet of its operation was on its way when the last call was made, the packets of this
operation go back to it. -/
def Apart (calls : List (RfsCall × Bool)) (p : Parcel) : Prop :=
  ∀ last ∈ calls.getLast?, last.2 = true →
    ∀ call ∈ calls[p.id]?, call.1.op = last.1.op → p.id + 1 = calls.length

/-- The packet is the request that the function makes. -/
def Parcel.IsRequest (p : Parcel) (f : Rfsc) : Prop :=
  ∃ m, p.bytes = packetBytes m f.request.fields f.request.args

/-- If the packet goes back to the last call, it is the request of this call. -/
def Own (c : SysConsts) (n : Fin 16) (calls : List (RfsCall × Bool)) (p : Parcel) : Prop :=
  ∀ last ∈ calls.getLast?, p.id + 1 = calls.length → p.IsRequest (last.1.func c n)

section Calls

variable {c : SysConsts} {n : Fin 16} {calls : List (RfsCall × Bool)} {p : Parcel}

theorem Tagged.lt_length (h : Tagged calls p) : p.id < calls.length := by
  obtain ⟨call, hcall, -⟩ := h
  exact (List.getElem?_eq_some_iff.mp hcall).1

theorem Tagged.append (h : Tagged calls p) (call : RfsCall × Bool) :
    Tagged (calls ++ [call]) p := by
  have hlt := h.lt_length
  obtain ⟨old, hold, hof⟩ := h
  exact ⟨old, by rwa [List.getElem?_append_left hlt], hof⟩

/-- A packet that was there before a call. -/
theorem Own.append (h : Tagged calls p) (call : RfsCall × Bool) :
    Own c n (calls ++ [call]) p := by
  intro last _ hlen
  have hlt := h.lt_length
  rw [List.length_append, List.length_singleton] at hlen
  omega

/-- What is seen of the other packets when a call is made. -/
theorem Apart.append {call : RfsCall} {alone : Bool}
    (h : alone = true → ∀ old ∈ calls[p.id]?, old.1.op ≠ call.op) (htag : Tagged calls p) :
    Apart (calls ++ [(call, alone)]) p := by
  intro last hlast hclean old hold hop
  rw [List.getLast?_concat, Option.mem_some_iff] at hlast
  subst hlast
  rw [List.getElem?_append_left htag.lt_length] at hold
  exact absurd hop (h hclean old hold)

theorem getElem?_of_prefix {α : Type} {l l' : List α} {i : ℕ} {x : α} (h : l <+: l')
    (hx : l[i]? = some x) : l'[i]? = some x := by
  obtain ⟨t, rfl⟩ := h
  rw [List.getElem?_append_left (List.getElem?_eq_some_iff.mp hx).1, hx]

end Calls

/-- The server gets the packet `q` and sends the packet `a`. -/
def Answered {σ : Type} (os : Os σ) (basedir : CString) (q a : Parcel) : Prop :=
  a.id = q.id ∧ ∃ m st r, m.slice 0 q.bytes.length = q.bytes ∧
    serverExecuteRequest os basedir m st = some r ∧ (getPacketSize r.2.1).1 = true ∧
    a.bytes = r.2.1.slice 0 (getPacketSize r.2.1).2.toNat

/-- The server sends a packet of the same operation as the one that it got. -/
theorem Answered.of {σ : Type} {os : Os σ} {basedir : CString} {q a : Parcel} {op : UInt8}
    (h : Answered os basedir q a) (hq : q.Of op) : a.Of op := by
  obtain ⟨-, m, st, r, hm, hexec, hsize, hbytes⟩ := h
  have hlong := hq.1
  have hcoded : Coded m op := by
    refine hq.2.congr fun k hk => ?_
    have hk' := mem_of_slice (m := m) (i := q.id) (show k < q.bytes.length by omega)
    rw [hm] at hk'
    exact hk'.symm
  have hanswer : Coded r.2.1 op := by
    rcases serverExecuteRequest_replies r hexec with heq | ⟨hop, hbyte, hframed⟩
    · rwa [heq]
    · rcases hcoded.2 with ⟨-, hid⟩ | hresp
      · exact ⟨hframed, .inr (hid ▸ hbyte)⟩
      · exact absurd (hresp.symm.trans hop) (opResMod_or_ne op)
  have hle := hanswer.1.2
  have hof := hanswer.parcel a.id (show 12 ≤ (getPacketSize r.2.1).2.toNat by omega)
  rwa [← hbytes] at hof

/-- What a function makes of the packet in its buffer. -/
def ResultOf (n : Fin 16) (f : Rfsc) (a : Parcel) (r : RfsResult) : Prop :=
  ∃ m, StartsWith n m a ∧ f.interpret m = some r

/-- What the call `i` returns is what it makes of `a`, which the server has sent for `q`: a packet
that goes back to a call of the same operation that was not made later. If no packet of this
operation was on its way when the call was made, `q` is its own request. -/
structure FromAnswer {σ : Type} (os : Os σ) (basedir : CString) (c : SysConsts) (n : Fin 16)
    (calls : List (RfsCall × Bool)) (answers : List (Parcel × Parcel)) (i : ℕ)
    (call : RfsCall × Bool) (r : RfsResult) (q a : Parcel) : Prop where
  mem_answers : (q, a) ∈ answers
  answered : Answered os basedir q a
  id_le : a.id ≤ i
  same_op : ∃ old, calls[a.id]? = some old ∧ old.1.op = call.1.op
  resultOf : ResultOf n (call.1.func c n) a r
  own : call.2 = true → a.id = i ∧ q.IsRequest (call.1.func c n)

/-- All results of calls that have not failed come from what the server has sent. -/
def Sound {σ : Type} (os : Os σ) (basedir : CString) (c : SysConsts) (n : Fin 16) (s : Net σ) :
    Prop :=
  ∀ i r, (i, r) ∈ s.results → ∃ call, s.calls[i]? = some call ∧
    (r ≠ (call.1.func c n).failed →
      ∃ q a, FromAnswer os basedir c n s.calls s.answers i call r q a)

section Mono

variable {σ : Type} {os : Os σ} {basedir : CString} {c : SysConsts} {n : Fin 16} {s s' : Net σ}

/-- More calls and more answers leave a result as it was. -/
theorem FromAnswer.mono {calls calls' : List (RfsCall × Bool)} {answers answers' : List (Parcel × Parcel)}
    {i : ℕ} {call : RfsCall × Bool} {r : RfsResult} {q a : Parcel}
    (h : FromAnswer os basedir c n calls answers i call r q a) (hcalls : calls <+: calls')
    (hanswers : answers ⊆ answers') : FromAnswer os basedir c n calls' answers' i call r q a where
  mem_answers := hanswers h.mem_answers
  answered := h.answered
  id_le := h.id_le
  same_op := by
    obtain ⟨old, hold, hop⟩ := h.same_op
    exact ⟨old, getElem?_of_prefix hcalls hold, hop⟩
  resultOf := h.resultOf
  own := h.own

theorem Sound.mono (h : Sound os basedir c n s) (hcalls : s.calls <+: s'.calls)
    (hanswers : s.answers ⊆ s'.answers) (hresults : s'.results = s.results) :
    Sound os basedir c n s' := by
  intro i r hr
  rw [hresults] at hr
  obtain ⟨call, hcall, hfrom⟩ := h i r hr
  refine ⟨call, getElem?_of_prefix hcalls hcall, fun hne => ?_⟩
  obtain ⟨q, a, hqa⟩ := hfrom hne
  exact ⟨q, a, hqa.mono hcalls hanswers⟩

end Mono

/-! ### The invariant -/

namespace Net

variable {σ : Type} (os : Os σ) (basedir : CString) (c : SysConsts) (n : Fin 16)
  (tr : RfsTransport)

/-- The packet was sent by the server. -/
def Sent (s : Net σ) (a : Parcel) : Prop := ∃ q, (q, a) ∈ s.answers

/-- What holds of the packets on their way and of the results. -/
structure Base (s : Net σ) : Prop where
  fits : s.calls ≠ [] → 16 ≤ 2 ^ n.val
  requests : ∀ q ∈ s.requests, Tagged s.calls q ∧ Apart s.calls q ∧ Own c n s.calls q
  responses : ∀ a ∈ s.responses, Tagged s.calls a ∧ Apart s.calls a ∧ s.Sent a
  arrived : ∀ a ∈ s.arrived, Tagged s.calls a ∧ s.Sent a
  answers : ∀ q a, (q, a) ∈ s.answers →
    Answered os basedir q a ∧ Tagged s.calls q ∧ Own c n s.calls q
  udp : tr = .udp → s.arrived = []
  results : Sound os basedir c n s

/-- What holds of the packet in the buffer during a call. -/
structure Active (s : Net σ) : Prop where
  calls_ne : s.calls ≠ []
  tagged : Tagged s.calls s.holds
  apart : Apart s.calls s.holds
  starts : StartsWith n s.buf s.holds
  code : s.holds.mem 10 = typeOpId ∨ s.Sent s.holds
  unsent : s.phase ≠ .waiting →
    Own c n s.calls s.holds ∧ ∀ p ∈ s.requests ++ s.responses, p.id + 1 ≠ s.calls.length
  fits : s.phase = .made → s.holds.id + 1 = s.calls.length → s.holds.bytes.length ≤ 2 ^ n.val
  sized : ∀ size, s.phase = .sized size →
    16 ≤ size ∧ (s.holds.id + 1 = s.calls.length → size = s.holds.bytes.length)

/-- The invariant. -/
structure Inv (s : Net σ) : Prop where
  base : Base os basedir c n tr s
  apart : s.phase ≠ .made → ∀ a ∈ s.arrived, Apart s.calls a
  active : s.phase ≠ .idle → Active c n s

variable {os basedir c n tr} {s s' : Net σ}

/-! ### The end of a call -/

theorem getLast?_getElem? {α : Type} {l : List α} {x : α} (h : l.getLast? = some x) :
    l[l.length - 1]? = some x := by
  rwa [← List.getLast?_eq_getElem?]

/-- A call that returns leaves the packets where they are. -/
theorem Base.finish (h : Base os basedir c n tr s) {call : RfsCall × Bool} {r : RfsResult}
    (hcall : s.calls.getLast? = some call)
    (hr : r ≠ (call.1.func c n).failed →
      ∃ q a, FromAnswer os basedir c n s.calls s.answers (s.calls.length - 1) call r q a) :
    Base os basedir c n tr (s.finish r) where
  fits := h.fits
  requests := h.requests
  responses := h.responses
  arrived := h.arrived
  answers := h.answers
  udp := h.udp
  results := by
    intro i r' hmem
    rcases List.mem_append.mp hmem with hold | hnew
    · exact h.results i r' hold
    · obtain ⟨rfl, rfl⟩ := Prod.mk.inj (List.mem_singleton.mp hnew)
      exact ⟨call, getLast?_getElem? hcall, hr⟩

theorem Inv.finish (h : Base os basedir c n tr s) (hapart : ∀ a ∈ s.arrived, Apart s.calls a)
    {call : RfsCall × Bool} {r : RfsResult} (hcall : s.calls.getLast? = some call)
    (hr : r ≠ (call.1.func c n).failed →
      ∃ q a, FromAnswer os basedir c n s.calls s.answers (s.calls.length - 1) call r q a) :
    Inv os basedir c n tr (s.finish r) :=
  ⟨h.finish hcall hr, fun _ => hapart, fun hphase => absurd rfl hphase⟩

/-- A call that fails. -/
theorem Inv.fail (h : Base os basedir c n tr s) (hapart : ∀ a ∈ s.arrived, Apart s.calls a)
    (hs : s.fail c n = some s') : Inv os basedir c n tr s' := by
  obtain ⟨call, hcall, rfl⟩ := Option.map_eq_some_iff.mp hs
  exact Inv.finish h hapart hcall fun hr => absurd rfl hr

/-! ### Packets on their way -/

/-- Packets are lost or duplicated. -/
theorem Inv.transport (h : Inv os basedir c n tr s) {requests responses : List Parcel}
    (hreq : requests ⊆ s.requests) (hresp : responses ⊆ s.responses) :
    Inv os basedir c n tr { s with requests, responses } where
  base :=
    { h.base with
      requests := fun q hq => h.base.requests q (hreq hq)
      responses := fun a ha => h.base.responses a (hresp ha) }
  apart := h.apart
  active hphase :=
    have hact := h.active hphase
    { hact with
      unsent := fun hne => by
        refine ⟨(hact.unsent hne).1, fun p hp => (hact.unsent hne).2 p ?_⟩
        rcases List.mem_append.mp hp with hp | hp
        · exact List.mem_append_left _ (hreq hp)
        · exact List.mem_append_right _ (hresp hp) }

/-- Packets are as they were if only the server, its system and what the client knows of it change.
-/
theorem Inv.control (h : Inv os basedir c n tr s) (server : Memory) (st : σ) (serverKnown : Bool)
    (dataSize : ℕ) : Inv os basedir c n tr { s with server, st, serverKnown, dataSize } where
  base := { h.base with }
  apart := h.apart
  active hphase := { h.active hphase with }

/-! ### Requests -/

/-- A call starts with its own request in the buffer. -/
theorem Inv.makeRequest (h : Inv os basedir c n tr s) {call : RfsCall}
    (hs : s.makeRequest c n call = some s') : Inv os basedir c n tr s' := by
  obtain ⟨buf, hbuf, rfl⟩ := Option.map_eq_some_iff.mp hs
  obtain ⟨hfits, rfl⟩ : _ ∧ _ = buf := by
    obtain ⟨hfits, hbuf⟩ := Option.ite_none_right_eq_some.mp hbuf
    exact ⟨hfits, Option.some.inj hbuf⟩
  set pk := (call.func c n).request with hpk
  have hlen : pk.written = packetLength pk.fields pk.args := RfsPacket.written_eq pk
  have hle : 16 ≤ pk.written := by
    rw [hlen, packetLength]
    exact Nat.le_add_right _ _
  have hslice : (pk.write s.buf).slice 0 pk.written = packetBytes s.buf pk.fields pk.args := by
    rw [hlen, RfsPacket.write_eq, genWrite_eq, ← length_packetBytes s.buf]
    exact Memory.slice_overlay
  have hframed : Framed (pk.write s.buf) := by
    rw [RfsPacket.write_eq]
    exact framed_genWrite _ (hlen ▸ hfits.trans_lt (two_pow_lt n))
  have hcoded : Coded (pk.write s.buf) call.op := ⟨hframed, .inl (byte_request call s.buf)⟩
  have hof := hcoded.parcel s.calls.length (show 12 ≤ pk.written by omega)
  have hnew : (s.calls ++ [(call, s.alone call)])[s.calls.length]? = some (call, s.alone call) :=
    List.getElem?_concat_length
  have hlast : ∀ {p : Parcel}, p.id = s.calls.length →
      Apart (s.calls ++ [(call, s.alone call)]) p := by
    intro p hid last _ _ old _ _
    rw [hid, List.length_append, List.length_singleton]
  have hapart : ∀ p ∈ s.requests ++ s.responses, Tagged s.calls p →
      Apart (s.calls ++ [(call, s.alone call)]) p := by
    intro p hp htag
    refine Apart.append (fun halone old hold => ?_) htag
    have hall := List.all_eq_true.mp halone p hp
    rw [Option.mem_def.mp hold] at hall
    exact of_decide_eq_true hall
  refine ⟨?_, fun hne => absurd rfl hne, fun _ => ?_⟩
  · exact
      { fits := fun _ => hle.trans hfits
        requests := fun q hq =>
          have htag := (h.base.requests q hq).1
          ⟨htag.append _, hapart q (List.mem_append_left _ hq) htag, .append htag _⟩
        responses := fun a ha =>
          have hresp := h.base.responses a ha
          ⟨hresp.1.append _, hapart a (List.mem_append_right _ ha) hresp.1, hresp.2.2⟩
        arrived := fun a ha => ⟨(h.base.arrived a ha).1.append _, (h.base.arrived a ha).2⟩
        answers := fun q a hqa =>
          have hans := h.base.answers q a hqa
          ⟨hans.1, hans.2.1.append _, .append hans.2.1 _⟩
        udp := h.base.udp
        results := h.base.results.mono (List.prefix_append _ _) (List.Subset.refl _) rfl }
  · exact
      { calls_ne := List.append_ne_nil_of_right_ne_nil _ (List.cons_ne_nil _ _)
        tagged := ⟨_, hnew, hof⟩
        apart := hlast rfl
        starts := by
          have htake : ((pk.write s.buf).slice 0 pk.written).take (2 ^ n.val) =
              (pk.write s.buf).slice 0 pk.written :=
            List.take_of_length_le (by rwa [Memory.length_slice])
          change Memory.slice _ 0 (List.take _ _).length = _
          rw [htake, Memory.length_slice]
        code := by
          refine .inl ?_
          rw [← (byte_request call s.buf).1]
          exact (mem_of_slice (show 10 < pk.written by omega)).symm
        unsent := by
          refine fun _ => ⟨fun last hlast _ => ?_, fun p hp => ?_⟩
          · rw [List.getLast?_concat, Option.mem_some_iff] at hlast
            subst hlast
            exact ⟨s.buf, hslice⟩
          · have hlt : p.id < s.calls.length := by
              rcases List.mem_append.mp hp with hp | hp
              · exact (h.base.requests p hp).1.lt_length
              · exact (h.base.responses p hp).1.lt_length
            rw [List.length_append, List.length_singleton]
            omega
        fits := fun _ _ => by rwa [Memory.length_slice]
        sized := by
          rintro size ⟨⟩ }

/-- A packet in the buffer that has a size is as it was before the flush. -/
theorem Active.size (h : Active c n s) (hbase : Base os basedir c n tr s) {x : UInt8}
    (hsize : (getPacketSize (s.buf.overlay 0 [x])).1 = true) : s.buf.overlay 0 [x] = s.buf := by
  have hfits := hbase.fits h.calls_ne
  obtain ⟨call, -, hlen, hcoded⟩ := h.tagged
  have hbuf : s.buf 0 = typePktSize := by
    rw [← h.starts.mem_eq (by omega) (by omega)]
    exact byte_zero_of_getPacketSize hcoded.1.1
  have hx : x = typePktSize := by
    have hzero := byte_zero_of_getPacketSize hsize
    rwa [overlay_apply Nat.zero_lt_one] at hzero
  have hslice : [x] = s.buf.slice 0 1 := by
    rw [hx, ← hbuf]
    rfl
  rw [hslice, Memory.overlay_slice]

/-- The size of the packet in the buffer. -/
theorem Active.getPacketSize (h : Active c n s) (hbase : Base os basedir c n tr s) :
    Rpc.getPacketSize s.buf = Rpc.getPacketSize s.holds.mem := by
  have hfits := hbase.fits h.calls_ne
  obtain ⟨call, -, hlen, hcoded⟩ := h.tagged
  exact getPacketSize_congr fun k hk => (h.starts.mem_eq (by omega) (by omega)).symm

/-- The size of a request is the number of its bytes. -/
theorem size_of_isRequest {p : Parcel} {f : Rfsc} (h : p.IsRequest f)
    (hle : p.bytes.length ≤ 2 ^ n.val) :
    (Rpc.getPacketSize p.mem).2.toNat = p.bytes.length := by
  obtain ⟨m, hm⟩ := h
  have hlen : p.bytes.length = packetLength f.request.fields f.request.args := by
    rw [hm, length_packetBytes]
  have hcarries : Carries p.mem f.request.fields f.request.args := by
    refine ⟨m, ?_⟩
    rw [← hlen, Parcel.mem, Memory.slice_ofBytes, hm]
  rw [hcarries.getPacketSize, hlen]
  exact toNat_size (hlen ▸ hle)

/-- What the flush leaves. -/
theorem Active.flush (h : Active c n s) (hbase : Base os basedir c n tr s) :
    ∃ buf, flush tr s = { s with buf, arrived := [] } ∧
      ((Rpc.getPacketSize buf).1 = true → buf = s.buf) := by
  cases tr with
  | udp =>
    refine ⟨s.buf, ?_, fun _ => rfl⟩
    rw [Net.flush, ← hbase.udp rfl]
  | uart =>
    rw [Net.flush]
    rcases hlast : s.arrived.getLast? with _ | p
    · refine ⟨s.buf, ?_, fun _ => rfl⟩
      dsimp only
      rw [← List.getLast?_eq_none_iff.mp hlast]
    · exact ⟨_, rfl, fun hsize => h.size hbase hsize⟩

theorem Inv.sizeRequest (h : Inv os basedir c n tr s) (hmade : s.phase = .made)
    (hs : s.sizeRequest c n tr = some s') : Inv os basedir c n tr s' := by
  have hact := h.active (by rw [hmade]; nofun)
  obtain ⟨buf, hflush, hbuf⟩ := hact.flush h.base
  rw [Net.sizeRequest, hflush] at hs
  dsimp only at hs
  have hbase : Base os basedir c n tr { s with buf, arrived := [] } :=
    { h.base with
      arrived := nofun
      udp := fun _ => rfl }
  rcases hsize : Rpc.getPacketSize buf with ⟨_ | _, size⟩
  · rw [hsize] at hs
    exact Inv.fail hbase nofun hs
  · rw [hsize] at hs
    obtain rfl := Option.some.inj hs
    obtain rfl := hbuf (congrArg Prod.fst hsize)
    have heq := hact.getPacketSize h.base
    rw [hsize] at heq
    refine ⟨{ hbase with }, fun _ => nofun, fun _ => ?_⟩
    exact
      { hact with
        unsent := fun _ => hact.unsent (by rw [hmade]; nofun)
        fits := nofun
        sized := by
          rintro _ ⟨⟩
          obtain ⟨call, -, -, hcoded⟩ := hact.tagged
          refine ⟨?_, fun hid => ?_⟩
          · have hle := hcoded.1.2
            rwa [← heq] at hle
          · have hlast := List.getLast?_eq_some_getLast hact.calls_ne
            have hreq := (hact.unsent (by rw [hmade]; nofun)).1 _ hlast hid
            have hlen := size_of_isRequest hreq (hact.fits hmade hid)
            rwa [← heq] at hlen }

/-- The request is sent, or what came into its place. -/
theorem Inv.sendRequest (h : Inv os basedir c n tr s) {size : ℕ} (hsized : s.phase = .sized size)
    (hs : s.sendRequest n size = some s') : Inv os basedir c n tr s' := by
  have hact := h.active (by rw [hsized]; nofun)
  obtain ⟨hfits, hs⟩ := Option.ite_none_left_eq_some.mp hs
  obtain rfl := Option.some.inj hs
  obtain ⟨hle, hlen⟩ := hact.sized size hsized
  have hnew : Tagged s.calls ⟨s.holds.id, s.buf.slice 0 size⟩ ∧
      Apart s.calls ⟨s.holds.id, s.buf.slice 0 size⟩ ∧
      Own c n s.calls ⟨s.holds.id, s.buf.slice 0 size⟩ := by
    refine ⟨?_, hact.apart, fun last hlast hid => ?_⟩
    · obtain ⟨call, hcall, hlong, hcoded⟩ := hact.tagged
      have hbuf : Coded s.buf call.1.op :=
        hcoded.congr fun k hk => hact.starts.mem_eq (by omega) (by omega)
      exact ⟨call, hcall, hbuf.parcel _ (by omega)⟩
    · obtain ⟨m, hm⟩ := (hact.unsent (by rw [hsized]; nofun)).1 last hlast hid
      have hstarts := hact.starts
      rw [StartsWith, List.take_of_length_le (by rw [← hlen hid]; omega), ← hlen hid] at hstarts
      exact ⟨m, hstarts.trans hm⟩
  refine ⟨?_, fun _ => h.apart (by rw [hsized]; nofun), fun _ => ?_⟩
  · exact
      { h.base with
        requests := fun q hq => by
          rcases List.mem_append.mp hq with hq | hq
          · exact h.base.requests q hq
          · obtain rfl := List.mem_singleton.mp hq
            exact hnew }
  · exact
      { hact with
        unsent := fun hne => absurd rfl hne
        fits := nofun
        sized := nofun }

/-! ### Responses -/

/-- A packet of the server comes to the client. -/
theorem Inv.arrive (h : Inv os basedir c n tr s) {p : Parcel} (htag : Tagged s.calls p)
    (hapart : Apart s.calls p) (hsent : s.Sent p)
    (hid : s.phase ≠ .idle → s.phase ≠ .waiting → p.id + 1 ≠ s.calls.length) :
    Inv os basedir c n tr (arrive n tr p s) := by
  cases tr with
  | uart =>
    refine ⟨?_, fun hne a ha => ?_, fun hphase => { h.active hphase with }⟩
    · exact
        { h.base with
          arrived := fun a ha => by
            rcases List.mem_append.mp ha with ha | ha
            · exact h.base.arrived a ha
            · obtain rfl := List.mem_singleton.mp ha
              exact ⟨htag, hsent⟩
          udp := nofun }
    · rcases List.mem_append.mp ha with ha | ha
      · exact h.apart hne a ha
      · obtain rfl := List.mem_singleton.mp ha
        exact hapart
  | udp =>
    refine ⟨{ h.base with }, h.apart, fun hphase => ?_⟩
    have hact := h.active hphase
    exact
      { calls_ne := hact.calls_ne
        tagged := htag
        apart := hapart
        starts := startsWith_overlay n s.buf p
        code := .inr hsent
        unsent := fun hne =>
          ⟨fun _ _ hlast => absurd hlast (hid hphase hne), (hact.unsent hne).2⟩
        fits := fun hmade hlast =>
          absurd hlast (hid hphase fun hwait => nomatch hmade.symm.trans hwait)
        sized := fun size hsized =>
          ⟨(hact.sized size hsized).1, fun hlast =>
            absurd hlast (hid hphase fun hwait => nomatch hsized.symm.trans hwait)⟩ }

/-- A call that has a response returns what it makes of it. -/
theorem Inv.interpretBuffer (h : Inv os basedir c n tr s) (hwait : s.phase = .waiting)
    (hs : s.interpretBuffer c n = some s') : Inv os basedir c n tr s' := by
  have hact := h.active (by rw [hwait]; nofun)
  have harrived := h.apart (by rw [hwait]; nofun)
  rw [Net.interpretBuffer] at hs
  rcases hsize : Rpc.getPacketSize s.buf with ⟨_ | _, size⟩
  · rw [hsize] at hs
    exact Inv.fail h.base harrived hs
  · rw [hsize] at hs
    obtain ⟨call, hcall, hs⟩ := Option.bind_eq_some_iff.mp hs
    obtain ⟨r, hr, rfl⟩ := Option.map_eq_some_iff.mp hs
    refine Inv.finish h.base harrived hcall fun hne => ?_
    have hfits := h.base.fits hact.calls_ne
    obtain ⟨old, hold, hlong, hcoded⟩ := hact.tagged
    have hbyte : s.holds.mem 10 = opResMod ||| call.1.op := by
      rw [hact.starts.mem_eq (by omega) (by omega)]
      exact byte_of_interpret hr hne
    have hop : old.1.op = call.1.op := by
      rcases hcoded.2 with ⟨hreq, -⟩ | hresp
      · exact absurd (hbyte.symm.trans hreq) (opResMod_or_ne _)
      · exact op_eq_of_response (hresp.symm.trans hbyte)
    obtain ⟨q, hq⟩ := hact.code.resolve_left fun hreq =>
      opResMod_or_ne _ (hbyte.symm.trans hreq)
    obtain ⟨hans, -, hown⟩ := h.base.answers q s.holds hq
    refine ⟨q, s.holds, ⟨hq, hans, ?_, ⟨old, hold, hop⟩, ⟨s.buf, hact.starts, hr⟩,
      fun hclean => ?_⟩⟩
    · exact Nat.le_sub_one_of_lt hact.tagged.lt_length
    · have hlast := hact.apart call hcall hclean old hold hop
      exact ⟨Nat.eq_sub_of_add_eq hlast, hown call hcall (hans.1 ▸ hlast)⟩

theorem Inv.receiveResponse (h : Inv os basedir c n tr s) (hwait : s.phase = .waiting)
    (hs : s.receiveResponse c n tr = some s') : Inv os basedir c n tr s' := by
  have hact := h.active (by rw [hwait]; nofun)
  have harrived := h.apart (by rw [hwait]; nofun)
  cases tr with
  | uart =>
    rw [Net.receiveResponse] at hs
    rcases hpacket : s.arrived with _ | ⟨p, arrived⟩
    · rw [hpacket] at hs
      cases hs
    · rw [hpacket] at hs
      obtain ⟨hfits, hs⟩ := Option.ite_none_left_eq_some.mp hs
      have hmem : ∀ a ∈ p :: arrived, a ∈ s.arrived := fun a ha => hpacket ▸ ha
      have hp := h.base.arrived p (hmem p List.mem_cons_self)
      refine Inv.interpretBuffer (s := { s with buf := s.buf.overlay 0 p.bytes, holds := p, arrived })
        ⟨?_, fun _ a ha => ?_, fun _ => ?_⟩ hwait hs
      · exact
          { h.base with
            arrived := fun a ha => h.base.arrived a (hmem a (List.mem_cons_of_mem _ ha))
            udp := nofun }
      · exact harrived a (hmem a (List.mem_cons_of_mem _ ha))
      · have hstarts := startsWith_overlay n s.buf p
        rw [List.take_of_length_le (Nat.not_lt.mp hfits)] at hstarts
        exact
          { calls_ne := hact.calls_ne
            tagged := hp.1
            apart := harrived p (hmem p List.mem_cons_self)
            starts := hstarts
            code := .inr hp.2
            unsent := fun hne => absurd hwait hne
            fits := fun hmade => absurd (hwait.symm.trans hmade) nofun
            sized := fun size hsized => absurd (hwait.symm.trans hsized) nofun }
  | udp =>
    have hdata := h.control s.server s.st s.serverKnown 0
    obtain ⟨-, hs⟩ := Option.ite_none_left_eq_some.mp hs
    split_ifs at hs
    · exact Inv.fail hdata.base harrived hs
    · exact hdata.interpretBuffer hwait hs

/-! ### The server -/

/-- The server takes the first request, and sends a packet for it. -/
theorem Inv.answer (h : Inv os basedir c n tr s) {q a : Parcel} {requests : List Parcel}
    (hq : q ∈ s.requests) (hreq : requests ⊆ s.requests) (hans : Answered os basedir q a) :
    Inv os basedir c n tr
      { s with requests, responses := s.responses ++ [a], answers := s.answers ++ [(q, a)] } := by
  obtain ⟨⟨call, hcall, hof⟩, hapart, hown⟩ := h.base.requests q hq
  have hsub : s.answers ⊆ s.answers ++ [(q, a)] := List.subset_append_left _ _
  have hsent : ∀ {p : Parcel}, s.Sent p → ∃ q', (q', p) ∈ s.answers ++ [(q, a)] :=
    fun ⟨q', hq'⟩ => ⟨q', hsub hq'⟩
  have htag : Tagged s.calls a := ⟨call, hans.1 ▸ hcall, hans.of hof⟩
  have hapart' : Apart s.calls a := by
    rw [Apart, hans.1]
    exact hapart
  refine ⟨?_, h.apart, fun hphase => ?_⟩
  · exact
      { fits := h.base.fits
        requests := fun q hq => h.base.requests q (hreq hq)
        responses := fun p hp => by
          rcases List.mem_append.mp hp with hp | hp
          · have hresp := h.base.responses p hp
            exact ⟨hresp.1, hresp.2.1, hsent hresp.2.2⟩
          · obtain rfl := List.mem_singleton.mp hp
            exact ⟨htag, hapart', q, List.mem_append_right _ List.mem_cons_self⟩
        arrived := fun p hp => ⟨(h.base.arrived p hp).1, hsent (h.base.arrived p hp).2⟩
        answers := fun q' a' hqa => by
          rcases List.mem_append.mp hqa with hqa | hqa
          · exact h.base.answers q' a' hqa
          · obtain ⟨rfl, rfl⟩ := Prod.mk.inj (List.mem_singleton.mp hqa)
            exact ⟨hans, ⟨call, hcall, hof⟩, hown⟩
        udp := h.base.udp
        results := h.base.results.mono (List.prefix_refl _) hsub rfl }
  · have hact := h.active hphase
    exact
      { hact with
        code := hact.code.imp_right hsent
        unsent := fun hne => by
          obtain ⟨hholds, hid⟩ := hact.unsent hne
          refine ⟨hholds, fun p hp => ?_⟩
          rcases List.mem_append.mp hp with hp | hp
          · exact hid p (List.mem_append_left _ (hreq hp))
          · rcases List.mem_append.mp hp with hp | hp
            · exact hid p (List.mem_append_right _ hp)
            · obtain rfl := List.mem_singleton.mp hp
              rw [hans.1]
              exact hid q (List.mem_append_left _ hq) }

theorem Inv.serve (h : Inv os basedir c n tr s) (hs : s.serve os basedir = some s') :
    Inv os basedir c n tr s' := by
  rw [Net.serve] at hs
  rcases hreqs : s.requests with _ | ⟨q, requests⟩
  · rw [hreqs] at hs
    cases hs
  · have hq : q ∈ s.requests := hreqs ▸ List.mem_cons_self
    have hreq : requests ⊆ s.requests := fun p hp => hreqs ▸ List.mem_cons_of_mem _ hp
    have hskip := fun server st =>
      (h.transport hreq (List.Subset.refl _)).control server st s.serverKnown s.dataSize
    rw [hreqs] at hs
    obtain ⟨-, hs⟩ := Option.ite_none_left_eq_some.mp hs
    dsimp only at hs
    rcases hsize : Rpc.getPacketSize (s.server.overlay 0 q.bytes) with ⟨_ | _, size⟩
    · rw [hsize] at hs
      obtain rfl := Option.some.inj hs
      exact hskip _ s.st
    · rw [hsize] at hs
      obtain ⟨⟨ok, server, st⟩, hexec, hs⟩ := Option.bind_eq_some_iff.mp hs
      dsimp only at hs
      rcases hanswer : Rpc.getPacketSize server with ⟨_ | _, size'⟩
      · rw [hanswer] at hs
        obtain rfl := Option.some.inj hs
        exact hskip server st
      · rw [hanswer] at hs
        obtain ⟨-, hs⟩ := Option.ite_none_left_eq_some.mp hs
        obtain rfl := Option.some.inj hs
        have hans : Answered os basedir q ⟨q.id, server.slice 0 size'.toNat⟩ :=
          ⟨rfl, _, s.st, _, Memory.slice_overlay, hexec, congrArg Prod.fst hanswer, by
            rw [hanswer]⟩
        exact (h.answer hq hreq hans).control server st s.serverKnown s.dataSize

/-! ### Runs -/

/-- **One step.** -/
theorem Inv.step (h : Inv os basedir c n tr s) (e : NetEvent)
    (hs : s.step os basedir c n tr e = some s') : Inv os basedir c n tr s' := by
  have hfail : ∀ {s s' : Net σ}, Inv os basedir c n tr s → s.phase ≠ .made →
      s.fail c n = some s' → Inv os basedir c n tr s' := fun h hphase hs =>
    Inv.fail h.base (h.apart hphase) hs
  cases e with
  | call call => exact h.makeRequest (Option.ite_none_right_eq_some.mp hs).2
  | size =>
    obtain ⟨hmade, hs⟩ := Option.ite_none_right_eq_some.mp hs
    exact h.sizeRequest hmade hs
  | discover =>
    rw [Net.step] at hs
    split at hs
    · obtain ⟨-, hs⟩ := Option.ite_none_right_eq_some.mp hs
      obtain rfl := Option.some.inj hs
      exact h.control s.server s.st true 0
    · cases hs
  | retry =>
    rw [Net.step] at hs
    split at hs
    · obtain ⟨-, hs⟩ := Option.ite_none_right_eq_some.mp hs
      obtain rfl := Option.some.inj hs
      exact h.control s.server s.st s.serverKnown 0
    · cases hs
  | giveUp =>
    rw [Net.step] at hs
    split at hs
    · rename_i hsized
      obtain ⟨-, hs⟩ := Option.ite_none_right_eq_some.mp hs
      exact hfail h (by rw [hsized]; nofun) hs
    · cases hs
  | send =>
    rw [Net.step] at hs
    split at hs
    · rename_i hsized
      exact h.sendRequest hsized (Option.ite_none_right_eq_some.mp hs).2
    · cases hs
  | serve => exact h.serve hs
  | loseRequest =>
    obtain rfl := Option.some.inj hs
    exact h.transport (List.tail_subset _) (List.Subset.refl _)
  | lose i =>
    obtain rfl := Option.some.inj hs
    exact h.transport (List.Subset.refl _) List.eraseIdx_subset
  | duplicate i =>
    obtain ⟨p, hp, rfl⟩ := Option.map_eq_some_iff.mp hs
    refine h.transport (List.Subset.refl _) (List.append_subset.mpr ⟨List.Subset.refl _, ?_⟩)
    exact fun p' hp' => List.mem_singleton.mp hp' ▸ List.mem_of_getElem? hp
  | deliver i =>
    obtain ⟨p, hp, rfl⟩ := Option.map_eq_some_iff.mp hs
    have hmem := List.mem_of_getElem? hp
    obtain ⟨htag, hapart, hsent⟩ := h.base.responses p hmem
    refine (h.transport (List.Subset.refl _) List.eraseIdx_subset).arrive htag hapart hsent
      fun hidle hwait => ?_
    exact ((h.active hidle).unsent hwait).2 p (List.mem_append_right _ hmem)
  | receive =>
    obtain ⟨hwait, hs⟩ := Option.ite_none_right_eq_some.mp hs
    exact h.receiveResponse hwait hs
  | timeout =>
    obtain ⟨⟨hwait, -⟩, hs⟩ := Option.ite_none_right_eq_some.mp hs
    exact hfail (h.control s.server s.st false s.dataSize) (by rw [hwait]; nofun) hs

theorem inv_start (buf server : Memory) (st : σ) :
    Inv os basedir c n tr { buf, server, st } where
  base :=
    { fits := fun h => absurd rfl h
      requests := nofun
      responses := nofun
      arrived := nofun
      answers := nofun
      udp := fun _ => rfl
      results := nofun }
  apart := fun _ => nofun
  active := fun h => absurd rfl h

end Net

/-- **The results of a run.** However packets are delayed, lost or duplicated, a call that has not
failed returns what it makes of a packet that the server has sent for a call of the same operation,
not made later, and for its own request if no packet of this operation was on its way when it was
made. -/
theorem sound_of_reach {σ : Type} (os : Os σ) (basedir : CString) (c : SysConsts) (n : Fin 16)
    (tr : RfsTransport) (buf server : Memory) (st : σ) {s : Net σ}
    (h : Reach (Net.step os basedir c n tr) (fun _ _ => True) { buf, server, st } s) :
    Sound os basedir c n s :=
  (h.invariant (Net.inv_start buf server st) fun _ e _ hinv _ hs => hinv.step e hs).base.results

/-- Two calls that read one byte each. The response to the first one arrives after it has timed out,
and behind the request of the second one. -/
def lateRead : Option (Net ℕ) :=
  runAll
    (guarded (Net.step (oneFile [0x41, 0x42]) ⟨[0x2F], by decide, by decide⟩ default 9 .uart)
      fun _ _ => True)
    [.call (.rfscRead 3 1), .size, .send, .serve, .timeout,
      .call (.rfscRead 3 1), .size, .send, .deliver 0, .receive]
    { st := 0 }

theorem lateRead_eq :
    (lateRead.map fun s => (s.results, s.answers.map (·.2.id),
      s.calls[1]?.map fun call => (call.1.func default 9).failed)) =
      some ([(0, .data (-1) []), (1, .data 1 [0x41])], [0], some (.data (-1) [])) := by
  decide +kernel

/-- The second one returns the byte that the first one has asked for. -/
theorem not_own_lateRead :
    ¬ ∀ (σ : Type) (os : Os σ) (basedir : CString) (c : SysConsts) (n : Fin 16)
        (tr : RfsTransport) (buf server : Memory) (st : σ) (s : Net σ),
      Reach (Net.step os basedir c n tr) (fun _ _ => True) { buf, server, st } s →
        ∀ i r call, (i, r) ∈ s.results → s.calls[i]? = some call →
          r ≠ (call.1.func c n).failed →
            ∃ q a, (q, a) ∈ s.answers ∧ a.id = i ∧ ResultOf n (call.1.func c n) a r := by
  intro h
  obtain ⟨s, hs, heq⟩ := Option.map_eq_some_iff.mp lateRead_eq
  obtain ⟨hresults, hrest⟩ := Prod.mk.inj heq
  obtain ⟨hids, hcall⟩ := Prod.mk.inj hrest
  obtain ⟨call, hcall, hfailed⟩ := Option.map_eq_some_iff.mp hcall
  obtain ⟨q, a, hqa, hid, -⟩ := h ℕ _ _ default 9 .uart _ _ 0 s (reach_of_runAll hs) 1
    (.data 1 [0x41]) call (by rw [hresults]; exact List.mem_cons_of_mem _ List.mem_cons_self)
    hcall (by rw [hfailed]; decide)
  have hmem : a.id ∈ s.answers.map (·.2.id) := List.mem_map_of_mem hqa
  rw [hids, hid] at hmem
  exact absurd (List.mem_singleton.mp hmem) (by decide)

/-- The same run in the theorem. -/
theorem sound_lateRead :
    ∃ s, lateRead = some s ∧
      Sound (oneFile [0x41, 0x42]) ⟨[0x2F], by decide, by decide⟩ default 9 s := by
  obtain ⟨s, hs, -⟩ := Option.map_eq_some_iff.mp lateRead_eq
  exact ⟨s, hs, sound_of_reach (oneFile [0x41, 0x42]) _ default 9 .uart _ _ 0
    (reach_of_runAll hs)⟩

end ELuaBrain.Rpc
