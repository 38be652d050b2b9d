import ELuaBrain.Net.Uip
import ELuaBrain.System.Reach

/-!
# Sending on a connection

`elua_net_send_internal` for `elua_net_send` on one connection, `elua_uip_appcall` in uIP, and a
peer that receives the packets. A packet may be lost, may arrive several times and late, and the
peer may take only a part of it. The peer acknowledges only what it has received.

## Main definitions

* `Sender`, `Sender.step` : the connection, the calls and the peer.
* `Sender.Delivers` : the peer receives what the calls were given, and a call says how much of it.
* `SendEvent.Careful` : what has to be avoided.

## Main results

* `Sender.Inv.step` : one event.
* `delivers_of_reach` : every run.
-/

namespace ELuaBrain.Net

/-- A call that ended. -/
structure SendResult where
  len : ℕ
  /-- The value that is returned. -/
  value : ℤ
  /-- How much was acknowledged of what the call was given. -/
  acked : ℕ
  res : NetErr

/-- A connection with the call that sends on it, the network and the peer. -/
structure Sender where
  conn : UipConn
  /-- What the call that waits was given. -/
  call : Option (List UInt8) := none
  last : Option SendResult := none
  /-- The packets with data that were sent. -/
  wire : List (ℕ × List UInt8) := []
  /-- The sequence number of the first byte. -/
  base : ℕ := 1
  /-- What the peer has received. -/
  received : List UInt8 := []
  /-- What the calls were given. -/
  stream : List UInt8 := []
  /-- How much is acknowledged, now and at the start of the call. -/
  acked : ℕ := 0
  start : ℕ := 0

/-- What may happen. -/
inductive SendEvent where
  | send (data : List UInt8)
  /-- The call goes on. -/
  | go
  | input (g : Segment) (stale : ℕ → UInt8)
  | periodic (p : Periodic) (replaced : Bool) (stale : ℕ → UInt8)
  /-- The peer takes up to `n` new bytes of a packet. -/
  | deliver (i n : ℕ)

namespace Sender

variable (s : Sender)

/-- `elua_prep_socket_state` for `ELUA_UIP_STATE_SEND`. -/
def prep (data : List UInt8) : Sender :=
  { s with
    conn := { s.conn with app := { s.conn.app with data, res := .ok, state := .send } }
    call := some data }

/-- A connection of uIP has done something. -/
def outcome (o : Outcome) : Sender := { s with conn := o.conn, wire := o.data.toList ++ s.wire }

/-- The number of the next byte that the peer expects. -/
def expected : ℕ := s.base + s.received.length

/-- A segment acknowledges data. -/
def acks (g : Segment) : Bool := ¬ g.rst ∧ s.conn.tcp = .established ∧ s.conn.acks g

/-- One event. -/
def step : SendEvent → Option Sender
  | .send data =>
      match s.call with
      | some _ => none
      | none =>
          if data = [] ∨ ¬ s.conn.tcp.Active then
            some { s with last := some ⟨data.length, 0, 0, s.conn.app.res⟩ }
          else some { s.prep data with stream := s.stream ++ data, start := s.acked }
  | .go =>
      match s.call, s.conn.app.state with
      | some data, .idle =>
          some { s with
            call := none
            last := some
              ⟨data.length, data.length - s.conn.app.data.length, s.acked - s.start,
                s.conn.app.res⟩ }
      | some data, .retry => some (s.prep data)
      | _, _ => none
  | .input g stale =>
      if s.conn.tcp.Active ∧ (s.conn.tcp = .established → g.ackno.all (· ≤ s.expected)) then
        some { s.outcome (s.conn.input true false stale g) with
          acked := if s.acks g then s.acked + s.conn.len else s.acked }
      else none
  | .periodic p replaced stale =>
      (s.conn.periodic true false stale p).map fun o =>
        s.outcome (if replaced then o.replace else o)
  | .deliver i n =>
      s.wire[i]?.map fun p =>
        if p.1 ≤ s.expected then
          { s with received := s.received ++ (p.2.drop (s.expected - p.1)).take n }
        else s

/-- The peer has received what the calls were given, in order and once, and at least what is
acknowledged. Every packet that was sent has the bytes that belong to its sequence number. It is
the segment that is outstanding, or acknowledged. A call returns how much was acknowledged, which
is everything if there is no error. -/
structure Delivers : Prop where
  received : s.received <+: s.stream
  acked_le : s.acked ≤ s.received.length
  wire : ∀ p ∈ s.wire, s.base ≤ p.1 ∧ p.2 <+: s.stream.drop (p.1 - s.base)
  outstanding : s.conn.tcp = .established → ∀ p ∈ s.wire,
    p.1 + p.2.length ≤ s.base + s.acked ∨ p.1 = s.conn.snd ∧ p.2.length = s.conn.len
  last : ∀ r, s.last = some r → r.value = r.acked ∧ (r.res = .ok → r.value = r.len)

end Sender

/-- What has to be avoided. An acknowledgement covers what the application computes from the new
segment size, comes while the call sends, and not together with the end of the connection. A
segment is sent again only if the segment size has not become smaller. A packet is replaced only if
nothing of the call is acknowledged. -/
def SendEvent.Careful (s : Sender) : SendEvent → Prop
  | .input g _ => s.acks g → ¬ g.fin ∧ s.conn.app.state = .send ∧
      s.conn.len = min s.conn.app.data.length (s.conn.advertise g).mss
  | .periodic p replaced _ =>
      (p.asks → s.conn.tcp = .established → s.conn.app.state = .send → s.conn.len ≤ s.conn.mss) ∧
        (replaced → s.call.all fun data => s.conn.app.data.length = data.length)
  | _ => True

instance SendEvent.decidableCareful (s : Sender) (e : SendEvent) : Decidable (e.Careful s) :=
  match e with
  | .input .. => inferInstanceAs (Decidable (_ → _ ∧ _ ∧ _))
  | .periodic .. => inferInstanceAs (Decidable ((_ → _ → _ → _) ∧ (_ → _)))
  | .send _ | .go | .deliver .. => isTrue trivial

/-- A call that was given `data` sends. -/
structure Sending (c : UipConn) (stream : List UInt8) (acked start : ℕ) (data : List UInt8) :
    Prop where
  stream_eq : c.tcp = .established → c.app.data = stream.drop acked
  data_eq : c.app.data = data.drop (acked - start)
  start_le : start ≤ acked
  acked_le : acked ≤ start + data.length
  len_le : c.tcp = .established → c.len ≤ c.app.data.length
  done : c.tcp = .established → c.app.state = .idle → c.app.data = []
  failed : c.tcp ≠ .established → c.app.state = .idle → c.app.res ≠ .ok
  retry : c.app.state = .retry → acked = start

/-- No call sends. -/
structure Rests (c : UipConn) (stream : List UInt8) (acked : ℕ) : Prop where
  done : c.tcp = .established → c.app.state = .idle ∧ c.len = 0 ∧ acked = stream.length
  failed : c.tcp ≠ .established → c.app.res ≠ .ok

/-- What holds in every state. -/
structure Sender.Inv (s : Sender) : Prop where
  tcp : s.conn.tcp = .established ∨ s.conn.tcp = .lastAck ∨ s.conn.tcp = .closed
  state : s.conn.app.state = .send ∨ s.conn.app.state = .idle ∨ s.conn.app.state = .retry
  wire : ∀ p ∈ s.wire, s.base ≤ p.1 ∧ p.2 <+: s.stream.drop (p.1 - s.base)
  outstanding : s.conn.tcp = .established → ∀ p ∈ s.wire,
    p.1 + p.2.length ≤ s.base + s.acked ∨ p.1 = s.conn.snd ∧ p.2.length = s.conn.len
  received : s.received <+: s.stream
  received_le : s.conn.tcp = .established → s.received.length ≤ s.acked + s.conn.len
  acked_le : s.acked ≤ s.received.length
  snd_eq : s.conn.tcp = .established → s.conn.snd = s.base + s.acked
  sending : ∀ data, s.call = some data → Sending s.conn s.stream s.acked s.start data
  rests : s.call = none → Rests s.conn s.stream s.acked
  last : ∀ r, s.last = some r → r.value = r.acked ∧ (r.res = .ok → r.value = r.len)

namespace Sender

variable {s s' : Sender} {c : UipConn} {o : Outcome}

theorem Inv.delivers (h : s.Inv) : s.Delivers := 
  ⟨h.received, h.acked_le, h.wire, h.outstanding, h.last⟩

/-! ### The calls -/

/-- A call starts. -/
theorem Inv.send (h : s.Inv) {data : List UInt8} (hs : s.step (.send data) = some s') : s'.Inv := by
  unfold step at hs
  rcases hcall : s.call with _ | data'
  · rw [hcall] at hs
    dsimp only at hs
    have hrests := h.rests hcall
    split_ifs at hs with hnot
    · refine Option.some_inj.mp hs ▸ ⟨h.tcp, h.state, h.wire, h.outstanding, h.received,
        h.received_le,
        h.acked_le, h.snd_eq, nofun, fun _ => hrests, fun r hr => ?_⟩
      obtain rfl := Option.some_inj.mp hr
      refine ⟨rfl, fun hok => ?_⟩
      obtain rfl | hclosed := hnot
      · rfl
      · have hne : s.conn.tcp ≠ .established := fun htcp => by
          rw [htcp] at hclosed
          exact hclosed (by decide)
        exact absurd hok (hrests.failed hne)
    · refine Option.some_inj.mp hs ▸ ⟨h.tcp, .inl rfl, fun p hp => ?_, h.outstanding,
        h.received.trans (List.prefix_append _ _), h.received_le, h.acked_le, h.snd_eq,
        fun data' hdata => ?_, nofun, h.last⟩
      · obtain ⟨hbase, hp⟩ := h.wire p hp
        refine ⟨hbase, ?_⟩
        change p.2 <+: (s.stream ++ data).drop (p.1 - s.base)
        rw [List.drop_append]
        exact hp.trans (List.prefix_append _ _)
      · obtain rfl := Option.some_inj.mp hdata
        refine ⟨fun htcp => ?_, ?_, le_rfl, Nat.le_add_right _ _, fun htcp => ?_, nofun, nofun,
          nofun⟩
        · change data = (s.stream ++ data).drop s.acked
          rw [(hrests.done htcp).2.2, List.drop_left]
        · change data = data.drop (s.acked - s.acked)
          rw [Nat.sub_self, List.drop_zero]
        · exact (hrests.done htcp).2.1.trans_le (Nat.zero_le _)
  · rw [hcall] at hs
    exact nomatch hs

/-- A call ends or starts again. -/
theorem Inv.go (h : s.Inv) (hs : s.step .go = some s') : s'.Inv := by
  unfold step at hs
  rcases hcall : s.call with _ | data
  · rw [hcall] at hs
    exact nomatch hs
  have hsending := h.sending data hcall
  have hdata := hsending.data_eq
  have hstart := hsending.start_le
  have hacked := hsending.acked_le
  rcases hstate : s.conn.app.state with _ | _ | _ | _ | _ | _
  case idle =>
    rw [hcall, hstate] at hs
    refine Option.some_inj.mp hs ▸ ⟨h.tcp, h.state, h.wire, h.outstanding, h.received,
      h.received_le,
      h.acked_le, h.snd_eq, nofun,
        fun _ => ⟨fun htcp => ?_, fun htcp => hsending.failed htcp hstate⟩,
      fun r hr => ?_⟩
    · have hnil := hsending.done htcp hstate
      have hlen := hsending.len_le htcp
      have hstream := hsending.stream_eq htcp
      rw [hnil, List.length_nil] at hlen
      rw [hnil] at hstream
      refine ⟨hstate, Nat.eq_zero_of_le_zero hlen, ?_⟩
      exact (h.acked_le.trans h.received.length_le).antisymm (List.drop_eq_nil_iff.mp hstream.symm)
    · have hlen : s.conn.app.data.length = data.length - (s.acked - s.start) := by
        rw [hdata, List.length_drop]
      obtain rfl := Option.some_inj.mp hr
      dsimp only
      refine ⟨by omega, fun hok => ?_⟩
      have htcp : s.conn.tcp = .established := by
        by_contra hne
        exact hsending.failed hne hstate hok
      rw [hsending.done htcp hstate]
      rfl
  case retry =>
    rw [hcall, hstate] at hs
    have heq := hsending.retry hstate
    rw [heq, Nat.sub_self, List.drop_zero] at hdata
    refine Option.some_inj.mp hs ▸ ⟨h.tcp, .inl rfl, h.wire, h.outstanding, h.received,
      h.received_le,
      h.acked_le, h.snd_eq, fun data' hdata' => ?_, nofun, h.last⟩
    obtain rfl := Option.some_inj.mp hdata'
    refine ⟨fun htcp => hdata ▸ hsending.stream_eq htcp, ?_, hstart, hacked,
      fun htcp => hdata ▸ hsending.len_le htcp, nofun, nofun, nofun⟩
    change data = data.drop (s.acked - s.start)
    rw [heq, Nat.sub_self, List.drop_zero]
  all_goals
    rw [hcall, hstate] at hs
    exact nomatch hs

/-! ### The peer -/

/-- The peer takes a part of a packet. -/
theorem Inv.deliver (h : s.Inv) {i n : ℕ} (hs : s.step (.deliver i n) = some s') : s'.Inv := by
  obtain ⟨p, hp, hs⟩ := Option.map_eq_some_iff.mp hs
  have hmem := List.mem_of_getElem? hp
  split_ifs at hs with hle
  · obtain ⟨hbase, hwire⟩ := h.wire p hmem
    obtain ⟨skip, hskip⟩ := Nat.exists_eq_add_of_le hle
    have hsub : s.expected - p.1 = skip := by omega
    have hpos : p.1 - s.base + skip = s.received.length := by
      rw [expected] at hskip
      omega
    -- what is new in the packet comes next in the stream
    have hnew : (p.2.drop skip).take n <+: s.stream.drop s.received.length := by
      obtain ⟨rest, hrest⟩ := hwire
      rw [← hpos, ← List.drop_drop, ← hrest, List.drop_append]
      exact (List.take_prefix _ _).trans (List.prefix_append _ _)
    have hlen : ((p.2.drop skip).take n).length ≤ p.2.length - skip :=
      (List.take_prefix _ _).length_le.trans List.length_drop.le
    rw [hsub] at hs
    refine hs ▸ ⟨h.tcp, h.state, h.wire, h.outstanding, ?_, fun htcp => ?_, ?_, h.snd_eq,
      h.sending, h.rests,
      h.last⟩
    · obtain ⟨rest, hrest⟩ := hnew
      refine ⟨rest, ?_⟩
      dsimp only
      rw [List.append_assoc, hrest, List.prefix_iff_eq_append.mp h.received]
    · have hbound := h.outstanding htcp p hmem
      have hold := h.received_le htcp
      have hsnd := h.snd_eq htcp
      dsimp only
      rw [List.length_append]
      omega
    · dsimp only
      rw [List.length_append]
      exact h.acked_le.trans (Nat.le_add_right _ _)
  · exact hs ▸ h

/-! ### The connection -/

/-- The connection is at its end. -/
theorem Inv.ended (h : s.Inv) {tcp : TcpState} (htcp : tcp = .lastAck ∨ tcp = .closed)
    {res : NetErr}
    (hres : res ≠ .ok) (snd len mss : ℕ) :
    Inv { s with conn :=
      { s.conn with tcp, snd, len, mss, app := { s.conn.app with res, state := .idle } } } := by
  have hne : tcp ≠ .established := by
    rintro rfl
    exact htcp.elim nofun nofun
  refine ⟨.inr htcp, .inr (.inl rfl), h.wire, fun heq => absurd heq hne, h.received,
    fun heq => absurd heq hne, h.acked_le, fun heq => absurd heq hne, fun data hdata => ?_,
    fun _ => ⟨fun heq => absurd heq hne, fun _ => hres⟩, h.last⟩
  have hsending := h.sending data hdata
  exact ⟨fun heq => absurd heq hne, hsending.data_eq, hsending.start_le, hsending.acked_le,
    fun heq => absurd heq hne, fun heq => absurd heq hne, fun _ _ => hres, nofun⟩

theorem Inv.advertise (h : s.Inv) (g : Segment) : Inv { s with conn := s.conn.advertise g } :=
  ⟨h.tcp, h.state, h.wire, h.outstanding, h.received, h.received_le, h.acked_le, h.snd_eq,
    fun data hdata => ⟨(h.sending data hdata).stream_eq, (h.sending data hdata).data_eq,
      (h.sending data hdata).start_le, (h.sending data hdata).acked_le,
        (h.sending data hdata).len_le,
      (h.sending data hdata).done, (h.sending data hdata).failed, (h.sending data hdata).retry⟩,
    fun hcall => ⟨(h.rests hcall).done, (h.rests hcall).failed⟩, h.last⟩

/-- The first bytes that are not acknowledged are sent. -/
theorem Inv.packet (h : s.Inv) (htcp : s.conn.tcp = .established) {data : List UInt8}
    (hcall : s.call = some data) {n : ℕ} (hn : n ≤ s.conn.app.data.length)
    (hlen : s.conn.len = 0 ∨ s.conn.len = n) :
    Inv { s with
      conn := { s.conn with len := n }
      wire := (s.conn.snd, s.conn.app.data.take n) :: s.wire } := by
  have hsending := h.sending data hcall
  have hsnd := h.snd_eq htcp
  have hle : s.conn.len ≤ n := by omega
  have hprefix : s.conn.app.data.take n <+: s.stream.drop (s.conn.snd - s.base) := by
    rw [hsnd, Nat.add_sub_cancel_left, ← hsending.stream_eq htcp]
    exact List.take_prefix _ _
  refine ⟨h.tcp, h.state, fun p hp => ?_, fun _ p hp => ?_, h.received,
    fun _ => (h.received_le htcp).trans (Nat.add_le_add_left hle _), h.acked_le, h.snd_eq,
    fun data' hdata' => ?_, fun hnone => (nomatch hcall.symm.trans hnone), h.last⟩
  · obtain rfl | hp := List.mem_cons.mp hp
    · exact ⟨hsnd ▸ Nat.le_add_right _ _, hprefix⟩
    · exact h.wire p hp
  · dsimp only
    obtain rfl | hp := List.mem_cons.mp hp
    · dsimp only
      rw [List.length_take, Nat.min_eq_left hn]
      exact .inr ⟨rfl, rfl⟩
    · have hbound := h.outstanding htcp p hp
      omega
  · have hsending' := h.sending data' hdata'
    exact ⟨hsending'.stream_eq, hsending'.data_eq, hsending'.start_le, hsending'.acked_le,
      fun _ => hn,
      hsending'.done, hsending'.failed, hsending'.retry⟩

/-- The application is asked for data while nothing is outstanding. -/
theorem Inv.transmit (h : s.Inv) (htcp : s.conn.tcp = .established) {data : List UInt8}
    (hcall : s.call = some data) (hlen : s.conn.len = 0) :
    (s.outcome (s.conn.transmit false)).Inv := by
  have hpacket := h.packet htcp hcall (Nat.min_le_left _ s.conn.mss) (.inl hlen)
  rw [UipConn.transmit]
  by_cases hdata : s.conn.app.data.length > 0
  · rw [if_pos hdata]
    by_cases hpos : min s.conn.app.data.length s.conn.mss > 0
    · rw [if_pos hpos]
      exact hpacket
    · rw [if_neg hpos, Nat.eq_zero_of_not_pos hpos, ← hlen]
      exact h
  · rw [if_neg hdata]
    have hnil : s.conn.app.data = [] := List.length_eq_zero_iff.mp (Nat.eq_zero_of_not_pos hdata)
    refine ⟨h.tcp, .inr (.inl rfl), h.wire, h.outstanding, h.received, h.received_le, h.acked_le,
      h.snd_eq,
      fun data' hdata' => ?_, fun hnone => (Option.some_ne_none _ (hcall.symm.trans hnone)).elim, h.last⟩
    have hsending := h.sending data' hdata'
    exact ⟨hsending.stream_eq, hsending.data_eq, hsending.start_le, hsending.acked_le,
      hsending.len_le,
      fun _ _ => hnil, fun hne => absurd htcp hne, by rintro ⟨⟩⟩

/-- What is outstanding is acknowledged. -/
theorem Inv.acknowledged (h : s.Inv) (htcp : s.conn.tcp = .established) {data : List UInt8}
    (hcall : s.call = some data) (hstate : s.conn.app.state = .send)
    (hexpected : s.conn.snd + s.conn.len ≤ s.expected) :
    Inv { s with
      conn := { s.conn with
        snd := s.conn.snd + s.conn.len
        len := 0
        app := { s.conn.app with data := s.conn.app.data.drop s.conn.len } }
      acked := s.acked + s.conn.len } := by
  have hsnd := h.snd_eq htcp
  rw [expected, hsnd] at hexpected
  refine ⟨h.tcp, .inl hstate, h.wire, fun _ p hp => ?_, h.received, fun _ => h.received_le htcp,
    ?_, fun _ => ?_,
    fun data' hdata' => ?_, fun hnone => (nomatch hcall.symm.trans hnone), h.last⟩
  · have hbound := h.outstanding htcp p hp
    dsimp only
    omega
  · dsimp only
    omega
  · dsimp only
    omega
  · have hsending := h.sending data' hdata'
    have hlen := hsending.len_le htcp
    have hstart := hsending.start_le
    have hacked := hsending.acked_le
    have hdata := hsending.data_eq
    refine ⟨fun _ => ?_, ?_, Nat.le_add_right_of_le hstart, ?_, fun _ => Nat.zero_le _,
      fun _ hidle => (nomatch hstate.symm.trans hidle), fun hne => absurd htcp hne,
      fun hretry => (nomatch hstate.symm.trans hretry)⟩
    · dsimp only
      rw [hsending.stream_eq htcp, List.drop_drop]
    · dsimp only
      rw [hdata, List.drop_drop, ← Nat.sub_add_comm hstart]
    · rw [hdata, List.length_drop] at hlen
      dsimp only
      omega

/-! ### Segments -/

theorem acks_eq_false {g : Segment}
    (h : g.rst = true ∨ s.conn.tcp ≠ .established ∨ s.conn.acks g = false) :
    s.acks g = false := by
  refine decide_eq_false fun ⟨hrst, htcp, hacks⟩ => ?_
  rcases h with h | h | h
  · exact hrst h
  · exact h htcp
  · exact Bool.false_ne_true (h.symm.trans hacks)

/-- A state that does not belong to a connection that is closed by its own side. -/
theorem Inv.state_ne (h : s.Inv) : s.conn.app.state ≠ .closeAck ∧ s.conn.app.state ≠ .close := by
  rcases h.state with hstate | hstate | hstate <;> rw [hstate] <;> exact ⟨nofun, nofun⟩

/-- The connection is at its end, and the application is called for that. -/
theorem Inv.notify (h : s.Inv) {f : Flags} (hf : f.Ends) (hc : c.app = s.conn.app)
    (hinitial : c.initialmss = s.conn.initialmss) {tcp : TcpState}
    (htcp : tcp = .lastAck ∨ tcp = .closed)
    (len : ℕ) : Inv { s with conn := { (c.notify true false f).conn with tcp, len } } := by
  have hended : ∃ res, res ≠ NetErr.ok ∧ c.notify true false f =
      { conn := { c with app := { c.app with res, state := .idle } }, request := false, control :=
        true } :=
    UipConn.notify_of_ends hf (hc ▸ h.state_ne.1)
  obtain ⟨res, hres, heq⟩ := hended
  rw [heq]
  dsimp only
  rw [hc, hinitial]
  exact h.ended htcp hres c.snd len c.mss

/-- A segment that acknowledges data. -/
theorem Inv.input_of_acks (h : s.Inv) {g : Segment} {stale : ℕ → UInt8} (hrst : g.rst = false)
    (htcp : s.conn.tcp = .established) (hacks : s.conn.acks g = true) (hfin : g.fin = false)
    (hstate : s.conn.app.state = .send)
    (hlen : s.conn.len = min s.conn.app.data.length (s.conn.advertise g).mss)
    (hexpected : g.ackno.all (· ≤ s.expected)) :
    Inv { s.outcome (s.conn.input true false stale g) with acked := s.acked + s.conn.len } := by
  obtain ⟨hpos, hackno⟩ := of_decide_eq_true hacks
  rw [hackno] at hexpected
  have hsnd : s.conn.snd + s.conn.len ≤ s.expected := of_decide_eq_true hexpected
  obtain ⟨data, hcall⟩ : ∃ data, s.call = some data := by
    refine Option.ne_none_iff_exists'.mp fun hnone => ?_
    exact hpos.ne' ((h.rests hnone).done htcp).2.1
  have h' := (h.advertise g).acknowledged htcp hcall hstate hsnd
  have hdata : s.conn.app.advance (s.conn.advertise g).mss true =
      { s.conn.app with data := s.conn.app.data.drop s.conn.len } := by
    rw [hlen]
    rfl
  have hinput : s.conn.input true false stale g = UipConn.transmit { s.conn.advertise g with
      snd := s.conn.snd + s.conn.len
      len := 0
      app := { s.conn.app with data := s.conn.app.data.drop s.conn.len } } false := by
    have hconn : s.conn.acknowledge g = { s.conn with snd := s.conn.snd + s.conn.len, len := 0 } :=
      if_pos hacks
    rw [UipConn.input, hrst, if_neg Bool.false_ne_true, hconn, hacks,
      UipConn.process_of_established (by exact htcp) hfin, if_pos (.inl rfl),
      UipConn.serve_of_send ⟨rfl, by decide⟩ (.inl rfl) (by exact hstate) rfl, ← hdata]
    rfl
  rw [hinput]
  exact h'.transmit htcp hcall rfl

/-- A segment that does not acknowledge data. -/
theorem Inv.input_of_not_acks (h : s.Inv) {g : Segment} (stale : ℕ → UInt8) (hrst : g.rst = false)
    (htcp : s.conn.tcp = .established) (hacks : s.conn.acks g = false) :
    (s.outcome (s.conn.input true false stale g)).Inv := by
  have hconn : s.conn.acknowledge g = s.conn := if_neg (Bool.eq_false_iff.mp hacks)
  rw [UipConn.input, hrst, if_neg Bool.false_ne_true, hconn, hacks]
  by_cases hfin : g.fin = true
  · rw [UipConn.process, htcp]
    dsimp only
    rw [if_pos hfin]
    split
    · exact h
    · exact h.notify (f :=
        { acked := false, closed := true }) ⟨rfl, .inr (.inr rfl)⟩ rfl rfl (.inl rfl) 1
  · have hserve : (s.conn.advertise g).serve true false stale {} =
        { conn := s.conn.advertise g, request := false } :=
      UipConn.serve_of_not_asked ⟨rfl, by decide⟩ (by decide) h.state_ne.2
    rw [UipConn.process_of_established htcp (Bool.eq_false_iff.mpr hfin), hserve, ite_self]
    exact h.advertise g

/-- A segment. -/
theorem Inv.input (h : s.Inv) {g : Segment} {stale : ℕ → UInt8}
    (hcareful : (SendEvent.input g stale).Careful s)
    (hs : s.step (.input g stale) = some s') : s'.Inv := by
  obtain ⟨⟨hactive, hexpected⟩, hs⟩ := Option.ite_none_right_eq_some.mp hs
  rw [← Option.some_inj.mp hs]
  by_cases hrst : g.rst = true
  · rw [acks_eq_false (.inl hrst), if_neg Bool.false_ne_true, UipConn.input, if_pos hrst]
    exact h.notify (c := { s.conn with tcp := .closed }) (f :=
      { aborted := true }) ⟨rfl, .inl rfl⟩ rfl rfl
      (.inr rfl) s.conn.len
  rw [Bool.not_eq_true] at hrst
  rcases h.tcp with htcp | htcp | htcp
  · by_cases hacks : s.conn.acks g = true
    · have hs : s.acks g = true := decide_eq_true ⟨Bool.eq_false_iff.mp hrst, htcp, hacks⟩
      obtain ⟨hfin, hstate, hlen⟩ := hcareful hs
      rw [hs, if_pos rfl]
      exact h.input_of_acks hrst htcp hacks (Bool.eq_false_iff.mpr hfin) hstate
        hlen (hexpected htcp)
    · rw [Bool.not_eq_true] at hacks
      rw [acks_eq_false (.inr (.inr hacks)), if_neg Bool.false_ne_true]
      exact h.input_of_not_acks stale hrst htcp hacks
  · have hne : s.conn.tcp ≠ .established := by
      rw [htcp]
      rintro ⟨⟩
    rw [acks_eq_false (.inr (.inl hne)), if_neg Bool.false_ne_true, UipConn.input, hrst,
      if_neg Bool.false_ne_true]
    have htcp' : (s.conn.acknowledge g).tcp = .lastAck := by
      rw [UipConn.acknowledge]
      split_ifs <;> exact htcp
    rw [UipConn.process, htcp']
    dsimp only
    by_cases hacks : s.conn.acks g = true
    · rw [if_pos hacks, UipConn.acknowledge, if_pos hacks]
      exact h.notify (c := { s.conn with tcp := .closed, snd := s.conn.snd + s.conn.len, len := 0 })
        (f := { closed := true }) ⟨rfl, .inr (.inr rfl)⟩ rfl rfl (.inr rfl) 0
    · rw [if_neg hacks, UipConn.acknowledge, if_neg hacks]
      exact h
  · rw [htcp] at hactive
    exact absurd rfl hactive.1

/-! ### The periodic timer -/

/-- A packet is replaced. -/
theorem Inv.replace (h : (s.outcome o).Inv)
    (hstart : ∀ data, s.call = some data → s.acked = s.start)
    (hnone : s.call = none → o.conn.tcp = .established → o.data = none ∧ o.control = false) :
    (s.outcome o.replace).Inv := by
  rw [Outcome.replace]
  split
  · next hsome =>
    refine ⟨h.tcp, .inr (.inr rfl), fun p hp => h.wire p (List.mem_append_right _ hp),
      fun htcp p hp => h.outstanding htcp p (List.mem_append_right _ hp), h.received, h.received_le,
      h.acked_le, h.snd_eq, fun data hdata => ?_,
        fun hcall => ⟨fun htcp => ?_, (h.rests hcall).failed⟩,
      h.last⟩
    · have hsending := h.sending data hdata
      exact ⟨hsending.stream_eq, hsending.data_eq, hsending.start_le, hsending.acked_le,
        hsending.len_le, by rintro - ⟨⟩, by rintro - ⟨⟩, fun _ => hstart data hdata⟩
    · obtain ⟨hdata, hcontrol⟩ := hnone hcall htcp
      rw [hdata, hcontrol] at hsome
      exact absurd hsome (by decide)
  · exact h

/-- Nothing of the call is acknowledged if all of its data is still there. -/
theorem Inv.acked_eq_start (h : s.Inv)
    (hall : s.call.all fun data => s.conn.app.data.length = data.length) (data : List UInt8)
    (hcall : s.call = some data) : s.acked = s.start := by
  have hsending := h.sending data hcall
  rw [hcall] at hall
  have hlen : s.conn.app.data.length = data.length := of_decide_eq_true hall
  have hstart := hsending.start_le
  have hacked := hsending.acked_le
  rw [hsending.data_eq, List.length_drop] at hlen
  omega

/-- The application is asked for data. -/
theorem Inv.asked (h : s.Inv) (htcp : s.conn.tcp = .established)
    (hmss : s.conn.app.state = .send → s.conn.len ≤ s.conn.mss) {f : Flags} (hf : f.Plain)
    (hacked : f.acked = false) (hasked : f.rexmit ∨ f.poll) (stale : ℕ → UInt8) :
    (s.outcome (s.conn.serve true false stale f)).Inv ∧
      (s.call = none → (s.conn.serve true false stale f).data = none ∧
        (s.conn.serve true false stale f).control = false) := by
  by_cases hstate : s.conn.app.state = .send
  · obtain ⟨data, hcall⟩ : ∃ data, s.call = some data := by
      refine Option.ne_none_iff_exists'.mp fun hnone => ?_
      exact nomatch hstate.symm.trans ((h.rests hnone).done htcp).1
    refine ⟨?_, fun hnone => nomatch hcall.symm.trans hnone⟩
    have hlen := (h.sending data hcall).len_le htcp
    rcases Nat.eq_zero_or_pos s.conn.len with hzero | hpos
    · have hadvance : s.conn.app.advance s.conn.mss f.acked = s.conn.app := by
        rw [hacked]
        rfl
      rw [UipConn.serve_of_send hf (.inr hasked) hstate hzero, hadvance]
      exact h.transmit htcp hcall hzero
    · rw [UipConn.serve_again hf hacked hasked hstate hpos hlen (hmss hstate)]
      exact h.packet htcp hcall hlen (.inr rfl)
  · rw [UipConn.serve_of_ne_send hf hstate h.state_ne.2]
    exact ⟨h, fun _ => ⟨rfl, rfl⟩⟩

/-- The periodic timer. -/
theorem Inv.periodic (h : s.Inv) {p : Periodic} {replaced : Bool} {stale : ℕ → UInt8}
    (hcareful : (SendEvent.periodic p replaced stale).Careful s)
    (hs : s.step (.periodic p replaced stale) = some s') : s'.Inv := by
  obtain ⟨o, ho, hs⟩ := Option.map_eq_some_iff.mp hs
  obtain ⟨hmss, hreplaced⟩ := hcareful
  have hkey : (s.outcome o).Inv ∧
      (s.call = none → o.conn.tcp = .established → o.data = none ∧ o.control = false) := by
    cases p with
    | expire =>
      obtain ⟨htcp, -⟩ := Option.ite_none_right_eq_some.mp ho
      rcases h.tcp with heq | heq | heq <;> rw [heq] at htcp <;> exact absurd htcp (by decide)
    | giveUp =>
      obtain ⟨-, ho⟩ := Option.ite_none_right_eq_some.mp ho
      rw [← Option.some_inj.mp ho]
      exact ⟨h.notify (c := { s.conn with tcp := .closed }) (f := { timedOut := true })
        ⟨rfl, .inr (.inl rfl)⟩ rfl rfl (.inr rfl) s.conn.len, fun _ => nofun⟩
    | rexmit =>
      by_cases htcp : s.conn.tcp = .established
      · rw [UipConn.periodic_rexmit h.state_ne.2 htcp ho]
        obtain ⟨hinv, hnone⟩ :=
            h.asked htcp (hmss rfl htcp) (f := { rexmit := true }) ⟨rfl, by decide⟩ rfl
          (.inl rfl) stale
        exact ⟨hinv, fun hcall _ => hnone hcall⟩
      · obtain ⟨-, ho⟩ := Option.ite_none_right_eq_some.mp ho
        rw [if_neg htcp] at ho
        rw [← Option.some_inj.mp ho]
        exact ⟨h, fun _ heq => absurd heq htcp⟩
    | poll forced =>
      obtain ⟨⟨htcp, -⟩, ho⟩ := Option.ite_none_right_eq_some.mp ho
      rw [← Option.some_inj.mp ho]
      obtain ⟨hinv, hnone⟩ :=
          h.asked htcp (hmss rfl htcp) (f := { poll := true }) ⟨rfl, by decide⟩ rfl
        (.inr rfl) stale
      exact ⟨hinv, fun hcall _ => hnone hcall⟩
  rw [← hs]
  split_ifs with hreplace
  · exact Inv.replace hkey.1 (h.acked_eq_start (hreplaced hreplace)) hkey.2
  · exact hkey.1

/-- **One event.** -/
theorem Inv.step (h : s.Inv) {e : SendEvent} (hcareful : e.Careful s) (hs : s.step e = some s') :
    s'.Inv := by
  cases e with
  | send data => exact h.send hs
  | go => exact h.go hs
  | input g stale => exact h.input hcareful hs
  | periodic p replaced stale => exact h.periodic hcareful hs
  | deliver i n => exact h.deliver hs

/-- A connection that was just established, of which the peer knows. -/
def established (base mss initialmss : ℕ) (buf : Option ℕ) : Sender :=
  { conn := { tcp := .established, snd := base, mss, initialmss, app := { buf } }, base }

theorem inv_established (base mss initialmss : ℕ) (buf : Option ℕ) :
    (established base mss initialmss buf).Inv :=
  ⟨.inl rfl, .inr (.inl rfl), nofun, fun _ => nofun, List.nil_prefix, fun _ => le_rfl, le_rfl,
    fun _ => rfl,
    nofun, fun _ => ⟨fun _ => ⟨rfl, rfl, rfl⟩, fun hne => absurd rfl hne⟩, nofun⟩

end Sender

/-- The bytes `abcd` are sent in segments of two bytes, and the peer announces the window `wnd`
when it acknowledges the first segment. -/
def sendAbcd (wnd : ℕ) : List SendEvent :=
  [.send [0x61, 0x62, 0x63, 0x64], .periodic (.poll true) false fun _ => 0, .deliver 0 2,
    .input { ackno := some 3, wnd } fun _ => 0, .deliver 0 2]

end ELuaBrain.Net
