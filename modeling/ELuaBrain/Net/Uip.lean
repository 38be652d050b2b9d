import ELuaBrain.Net.Socket

/-!
# A connection of uIP and its application

The states of a connection in `uip.c`, what `uip_process` does with a segment and with the periodic
timer, and `elua_uip_appcall` without the part that receives data, which is `Sock.readToBuffer`.
The timers of uIP are left open: an event says what they decide. Sequence numbers are natural
numbers, and segments out of order are left out, as they change nothing.

## Main definitions

* `appcall` : `elua_uip_appcall`.
* `UipConn.input`, `UipConn.periodic` : `uip_process`.
* `Outcome.replace` : a packet is replaced by an ARP request.

## Main results

* `UipConn.buf_input`, `UipConn.buf_periodic` : the receive buffer stays where it is.
-/

namespace ELuaBrain.Net

/-- The state of a connection, `tcpstateflags`. -/
inductive TcpState where
  | closed
  | synRcvd
  | synSent
  | established
  | finWait1
  | finWait2
  | closing
  | timeWait
  | lastAck
  | reserved
  | waitAccept
  deriving DecidableEq

/-- `uip_conn_active`. -/
def TcpState.Active (t : TcpState) : Prop := t ≠ .closed ∧ t ≠ .reserved ∧ t ≠ .waitAccept

instance (t : TcpState) : Decidable t.Active := inferInstanceAs (Decidable (_ ∧ _ ∧ _))

/-- The states of the application. -/
inductive AppState where
  | idle
  | send
  | connect
  | close
  | closeAck
  | retry
  deriving DecidableEq

/-- `elua_uip_state`. -/
structure App where
  state : AppState := .idle
  res : NetErr := .ok
  /-- The `len` bytes at `ptr`. -/
  data : List UInt8 := []
  /-- The memory block of the receive buffer. -/
  buf : Option ℕ := none

/-- `uip_flags`, when the application is called. -/
structure Flags where
  connected : Bool := false
  acked : Bool := false
  rexmit : Bool := false
  poll : Bool := false
  closed : Bool := false
  aborted : Bool := false
  timedOut : Bool := false

/-- What the application leaves behind. -/
structure Reply where
  app : App
  /-- `elua_uip_accept_request`. -/
  request : Bool
  /-- `uip_close` was called. -/
  close : Bool := false
  /-- The bytes for `uip_send`. -/
  sent : List UInt8 := []

namespace App

variable (s : App)

/-- The part for a connection that is new. -/
def onConnected (f : Flags) (request : Bool) : App × Bool :=
  if f.connected then
    if request then (s, false)
    else if s.state = .connect then ({ s with state := .idle }, request)
    else (s, request)
  else (s, request)

/-- The part for a connection that has ended. -/
def onEnd (f : Flags) : App :=
  if f.aborted ∨ f.timedOut ∨ f.closed then
    { s with
      res :=
        if ¬ f.closed ∨ s.state ≠ .closeAck then
          if f.aborted then .aborted else if f.timedOut then .timedOut else .closed
        else s.res
      state := .idle }
  else s

/-- The bytes that are acknowledged are left behind. -/
def advance (mss : ℕ) (acked : Bool) : App :=
  if acked then { s with data := s.data.drop (min s.data.length mss) } else s

/-- The part that sends data. -/
def onSend (f : Flags) (mss : ℕ) : App × List UInt8 :=
  if (f.acked ∨ f.rexmit ∨ f.poll) ∧ s.state = .send then
    let s := s.advance mss f.acked
    if s.data.length > 0 then (s, s.data.take (min s.data.length mss))
    else ({ s with state := .idle }, [])
  else (s, [])

end App

/-- `elua_uip_appcall`. -/
def appcall (configured request : Bool) (mss : ℕ) (f : Flags) (s : App) : Reply :=
  if configured then
    let (s, request) := s.onConnected f request
    let (s, sent) := (s.onEnd f).onSend f mss
    if s.state = .close then { app := { s with state := .closeAck }, request, close := true, sent }
    else { app := s, request, sent }
  else { app := s, request }

/-- `uip_conn`, with the application state. -/
structure UipConn where
  tcp : TcpState := .closed
  /-- `snd_nxt`. -/
  snd : ℕ := 0
  /-- What is not acknowledged. -/
  len : ℕ := 0
  mss : ℕ := 0
  initialmss : ℕ := 0
  app : App := {}

/-- A segment that is received. -/
structure Segment where
  rst : Bool := false
  syn : Bool := false
  fin : Bool := false
  ackno : Option ℕ := none
  /-- There is data in the segment. -/
  data : Bool := false
  wnd : ℕ := 0

/-- What is left after an event, with what is sent. -/
structure Outcome where
  conn : UipConn
  request : Bool
  /-- Data, with its sequence number. -/
  data : Option (ℕ × List UInt8) := none
  /-- A packet without data that belongs to the connection's state. -/
  control : Bool := false

/-- The first `len` bytes in the packet buffer, in which `stale` was before. -/
def payload (sent : List UInt8) (stale : ℕ → UInt8) (len : ℕ) : List UInt8 :=
  (List.range len).map fun i => sent.getD i (stale i)

/-- What the periodic timer does. -/
inductive Periodic where
  /-- A connection that only waits is removed. -/
  | expire
  /-- There were too many retransmissions. -/
  | giveUp
  | rexmit
  | poll (forced : Bool)

/-- The application is asked for data. -/
def Periodic.asks : Periodic → Bool
  | .rexmit | .poll _ => true
  | .expire | .giveUp => false

namespace UipConn

variable (c : UipConn) (configured request : Bool) (stale : ℕ → UInt8)

/-- `UIP_APPCALL`. -/
def call (f : Flags) : UipConn × Reply :=
  let r := appcall configured request c.mss f c.app
  ({ c with app := r.app }, r)

/-- `appsend`. -/
def appsend (r : Reply) (acked : Bool) : Outcome :=
  if r.close then
    { conn := { c with len := 1, tcp := .finWait1 }, request := r.request, control := true }
  else if r.sent.length > 0 then
    let len := if acked then 0 else c.len
    let c := { c with len := if len = 0 then min r.sent.length c.mss else len }
    { conn := c
      request := r.request
      data := if c.len > 0 then some (c.snd, payload r.sent stale c.len) else none }
  else { conn := c, request := r.request }

/-- The application is called, and nothing is sent for it. -/
def notify (f : Flags) : Outcome :=
  let (c, r) := c.call configured request f
  { conn := c, request := r.request, control := true }

/-- The application is called and may send. -/
def serve (f : Flags) : Outcome :=
  let (c, r) := c.call configured request f
  c.appsend stale r f.acked

/-- A segment acknowledges what is outstanding. -/
def acks (g : Segment) : Bool := c.len > 0 ∧ g.ackno = some (c.snd + c.len)

/-- What is outstanding is acknowledged. -/
def acknowledge (g : Segment) : UipConn :=
  if c.acks g then { c with snd := c.snd + c.len, len := 0 } else c

/-- The window of the peer is taken over. -/
def advertise (g : Segment) : UipConn :=
  { c with mss := if g.wnd > c.initialmss ∨ g.wnd = 0 then c.initialmss else g.wnd }

/-- What `uip_process` does in the states of a connection. -/
def process (acked : Bool) (g : Segment) : Outcome :=
  match c.tcp with
  | .synRcvd =>
      if acked then { c with tcp := .established }.serve configured request stale { connected := true }
      else { conn := c, request }
  | .synSent =>
      if acked ∧ g.syn then
        { c with tcp := .established }.serve configured request stale { connected := true }
      else { c with tcp := .closed }.notify configured request { aborted := true }
  | .established =>
      if g.fin then
        if c.len > 0 then { conn := c, request }
        else
          let o := c.notify configured request { acked, closed := true }
          { o with conn := { o.conn with len := 1, tcp := .lastAck } }
      else if acked ∨ g.data then (c.advertise g).serve configured request stale { acked }
      else { conn := c.advertise g, request }
  | .lastAck =>
      if acked then { c with tcp := .closed }.notify configured request { closed := true }
      else { conn := c, request }
  | .finWait1 =>
      if g.fin then
        { c with tcp := if acked then .timeWait else .closing }.notify configured request
          { closed := true }
      else { conn := { c with tcp := if acked then .finWait2 else .finWait1 }, request }
  | .finWait2 =>
      if g.fin then { c with tcp := .timeWait }.notify configured request { closed := true }
      else { conn := c, request }
  | .closing => { conn := { c with tcp := if acked then .timeWait else .closing }, request }
  | _ => { conn := c, request }

/-- `uip_process` for a segment of an active connection. -/
def input (g : Segment) : Outcome :=
  if g.rst then { c with tcp := .closed }.notify configured request { aborted := true }
  else (c.acknowledge g).process configured request stale (c.acks g) g

/-- `uip_process` for the periodic timer. -/
def periodic : Periodic → Option Outcome
  | .expire =>
      if c.tcp = .timeWait ∨ c.tcp = .finWait2 then
        some { conn := { c with tcp := .closed }, request }
      else none
  | .giveUp =>
      if c.tcp.Active ∧ c.tcp ≠ .timeWait ∧ c.tcp ≠ .finWait2 ∧ c.len > 0 then
        some ({ c with tcp := .closed }.notify configured request { timedOut := true })
      else none
  | .rexmit =>
      if c.tcp.Active ∧ c.tcp ≠ .timeWait ∧ c.tcp ≠ .finWait2 ∧ c.len > 0 then
        if c.tcp = .established then
          let (c, r) := c.call configured request { rexmit := true }
          some
            { conn := c
              request := r.request
              data := if r.sent.length > 0 then some (c.snd, payload r.sent stale c.len) else none }
        else some { conn := c, request, control := true }
      else none
  | .poll forced =>
      if c.tcp = .established ∧ (c.len = 0 ∨ forced) then
        some (c.serve configured request stale { poll := true })
      else none

end UipConn

/-- A packet of the periodic timer is replaced by an ARP request, and is to be sent again. -/
def Outcome.replace (o : Outcome) : Outcome :=
  if o.data.isSome ∨ o.control then
    { o with
      conn := { o.conn with app := { o.conn.app with state := .retry } }
      data := none
      control := false }
  else o

/-! ### The receive buffer -/

theorem App.buf_onConnected (s : App) (f : Flags) (request : Bool) :
    (s.onConnected f request).1.buf = s.buf := by
  rw [onConnected]
  split_ifs <;> rfl

theorem App.buf_onEnd (s : App) (f : Flags) : (s.onEnd f).buf = s.buf := by
  rw [onEnd]
  split_ifs <;> rfl

theorem App.buf_onSend (s : App) (f : Flags) (mss : ℕ) : (s.onSend f mss).1.buf = s.buf := by
  have hadvance : ∀ acked, (s.advance mss acked).buf = s.buf := by
    intro acked
    rw [advance]
    split_ifs <;> rfl
  rw [onSend]
  dsimp only
  split_ifs
  · exact hadvance f.acked
  · exact hadvance f.acked
  · rfl

theorem buf_appcall (configured request : Bool) (mss : ℕ) (f : Flags) (s : App) :
    (appcall configured request mss f s).app.buf = s.buf := by
  have hbuf : (((s.onConnected f request).1.onEnd f).onSend f mss).1.buf = s.buf := by
    rw [App.buf_onSend, App.buf_onEnd, App.buf_onConnected]
  rw [appcall]
  dsimp only
  split_ifs
  · exact hbuf
  · exact hbuf
  · rfl

namespace UipConn

variable (c : UipConn) (configured request : Bool) (stale : ℕ → UInt8)

theorem buf_notify (f : Flags) : (c.notify configured request f).conn.app.buf = c.app.buf :=
  buf_appcall ..

theorem app_appsend (r : Reply) (acked : Bool) : (c.appsend stale r acked).conn.app = c.app := by
  rw [appsend]
  dsimp only
  split
  · rfl
  · split <;> rfl

theorem buf_serve (f : Flags) : (c.serve configured request stale f).conn.app.buf = c.app.buf := by
  rw [serve]
  dsimp only
  rw [app_appsend]
  exact buf_appcall ..

theorem app_acknowledge (g : Segment) : (c.acknowledge g).app = c.app := by
  rw [acknowledge]
  split_ifs <;> rfl

theorem buf_process (acked : Bool) (g : Segment) :
    (c.process configured request stale acked g).conn.app.buf = c.app.buf := by
  rw [process]
  split
  · split_ifs
    · exact buf_serve ..
    · rfl
  · split_ifs <;> first | exact buf_serve .. | exact buf_notify ..
  · split_ifs <;> first | rfl | exact buf_serve .. | exact buf_notify ..
  · split_ifs
    · exact buf_notify ..
    · rfl
  · split
    · exact buf_notify ..
    · rfl
  · split_ifs
    · exact buf_notify ..
    · rfl
  · rfl
  · rfl

/-- **A segment.** -/
theorem buf_input (g : Segment) : (c.input configured request stale g).conn.app.buf = c.app.buf := by
  rw [input]
  split_ifs
  · exact buf_notify ..
  · rw [buf_process, app_acknowledge]

/-- **The periodic timer.** -/
theorem buf_periodic {p : Periodic} {o : Outcome}
    (h : c.periodic configured request stale p = some o) : o.conn.app.buf = c.app.buf := by
  cases p with
  | expire =>
    obtain ⟨-, ho⟩ := Option.ite_none_right_eq_some.mp h
    rw [← Option.some_inj.mp ho]
  | giveUp =>
    obtain ⟨-, ho⟩ := Option.ite_none_right_eq_some.mp h
    rw [← Option.some_inj.mp ho, buf_notify]
  | rexmit =>
    obtain ⟨-, ho⟩ := Option.ite_none_right_eq_some.mp h
    split_ifs at ho
    · rw [← Option.some_inj.mp ho]
      exact buf_appcall ..
    · rw [← Option.some_inj.mp ho]
  | poll forced =>
    obtain ⟨-, ho⟩ := Option.ite_none_right_eq_some.mp h
    rw [← Option.some_inj.mp ho, buf_serve]

end UipConn

theorem Outcome.buf_replace (o : Outcome) : o.replace.conn.app.buf = o.conn.app.buf := by
  rw [replace]
  split_ifs <;> rfl

/-! ### The application -/

/-- The connection is neither new nor at its end. -/
def Flags.Plain (f : Flags) : Prop := f.connected = false ∧ ¬ (f.aborted ∨ f.timedOut ∨ f.closed)

/-- The connection is at its end, by the peer or by a time-out. -/
def Flags.Ends (f : Flags) : Prop := f.connected = false ∧ (f.aborted ∨ f.timedOut ∨ f.closed)

variable {request : Bool} {mss : ℕ} {f : Flags} {s : App} {c : UipConn} {stale : ℕ → UInt8}

theorem appcall_of_plain (hf : f.Plain) (hstate : (s.onSend f mss).1.state ≠ .close) :
    appcall true request mss f s = { app := (s.onSend f mss).1, request, sent := (s.onSend f mss).2 } := by
  obtain ⟨hconnected, hend⟩ := hf
  have h₁ : s.onConnected f request = (s, request) := by
    rw [App.onConnected, hconnected]
    rfl
  have h₂ : s.onEnd f = s := if_neg hend
  rw [appcall, if_pos rfl, h₁]
  dsimp only
  rw [h₂, if_neg hstate]

/-- The end of a connection ends what the application does. -/
theorem appcall_of_ends (hf : f.Ends) (hstate : s.state ≠ .closeAck) :
    ∃ res, res ≠ .ok ∧ appcall true request mss f s = { app := { s with res, state := .idle }, request } := by
  obtain ⟨hconnected, hend⟩ := hf
  have h₁ : s.onConnected f request = (s, request) := by
    rw [App.onConnected, hconnected]
    rfl
  have h₂ : s.onEnd f = { s with
      res := if f.aborted then .aborted else if f.timedOut then .timedOut else .closed
      state := .idle } := by
    rw [App.onEnd, if_pos hend, if_pos (.inr hstate)]
  refine ⟨if f.aborted then .aborted else if f.timedOut then .timedOut else .closed, ?_, ?_⟩
  · split_ifs <;> exact nofun
  · have h₃ : (s.onEnd f).onSend f mss = (s.onEnd f, []) := by
      rw [h₂]
      exact if_neg fun h => nomatch h.2
    rw [appcall, if_pos rfl, h₁]
    dsimp only
    rw [h₃, h₂]
    exact if_neg nofun

/-- Of the packet buffer only what was sent is used. -/
theorem payload_eq_take {sent : List UInt8} {len : ℕ} (h : len ≤ sent.length) :
    payload sent stale len = sent.take len := by
  rw [payload]
  refine List.ext_getElem ?_ fun i hi hi' => ?_
  · rw [List.length_map, List.length_range, List.length_take, Nat.min_eq_left h]
  · rw [List.length_map, List.length_range] at hi
    rw [List.getElem_map, List.getElem_range, List.getElem_take,
      List.getD_eq_getElem _ _ (Nat.lt_of_lt_of_le hi h)]

namespace UipConn

/-- The application has nothing to send. -/
theorem serve_of_ne_send (hf : f.Plain) (hsend : c.app.state ≠ .send) (hclose : c.app.state ≠ .close) :
    c.serve true request stale f = { conn := c, request } := by
  have hnone : c.app.onSend f c.mss = (c.app, []) := if_neg fun h => hsend h.2
  rw [serve, call, appcall_of_plain hf (by rwa [hnone]), hnone]
  rfl

/-- The application is not asked for data. -/
theorem serve_of_not_asked (hf : f.Plain) (hasked : ¬ (f.acked ∨ f.rexmit ∨ f.poll))
    (hclose : c.app.state ≠ .close) : c.serve true request stale f = { conn := c, request } := by
  have hnone : c.app.onSend f c.mss = (c.app, []) := if_neg fun h => hasked h.1
  rw [serve, call, appcall_of_plain hf (by rwa [hnone]), hnone]
  rfl

/-- The first segment of the data is sent, if there is data. -/
def transmit (c : UipConn) (request : Bool) : Outcome :=
  if c.app.data.length > 0 then
    { conn := { c with len := min c.app.data.length c.mss }
      request
      data := if min c.app.data.length c.mss > 0 then
        some (c.snd, c.app.data.take (min c.app.data.length c.mss)) else none }
  else { conn := { c with app := { c.app with state := .idle } }, request }

theorem onSend_of_send (hasked : f.acked ∨ f.rexmit ∨ f.poll) (hsend : s.state = .send) (mss : ℕ) :
    s.onSend f mss = if (s.advance mss f.acked).data.length > 0 then
        (s.advance mss f.acked,
          (s.advance mss f.acked).data.take (min (s.advance mss f.acked).data.length mss))
      else ({ s.advance mss f.acked with state := .idle }, []) :=
  if_pos ⟨hasked, hsend⟩

theorem state_advance (s : App) (mss : ℕ) (acked : Bool) : (s.advance mss acked).state = s.state := by
  rw [App.advance]
  split_ifs <;> rfl

theorem length_take_min (data : List UInt8) (mss : ℕ) :
    (data.take (min data.length mss)).length = min data.length mss := by
  rw [List.length_take]
  omega

/-- Data is sent while nothing is outstanding. -/
theorem appsend_of_len_eq_zero (hlen : c.len = 0) (acked : Bool) (data : List UInt8) :
    c.appsend stale { app := c.app, request, sent := data.take (min data.length c.mss) } acked =
      { conn := { c with len := min data.length c.mss }
        request
        data := if min data.length c.mss > 0 then
          some (c.snd, data.take (min data.length c.mss)) else none } := by
  have hzero : (if acked then 0 else c.len) = 0 := by
    rw [hlen, ite_self]
  rw [appsend, if_neg nofun]
  dsimp only
  rw [length_take_min, hzero, if_pos rfl, Nat.min_assoc, Nat.min_self]
  by_cases hpos : min data.length c.mss > 0
  · rw [if_pos hpos, if_pos hpos, if_pos hpos, payload_eq_take (length_take_min data c.mss).ge, List.take_take,
      Nat.min_self]
  · rw [if_neg hpos, if_neg hpos, Nat.eq_zero_of_not_pos hpos, ← hlen]

/-- The application is asked for data while nothing is outstanding. -/
theorem serve_of_send (hf : f.Plain) (hasked : f.acked ∨ f.rexmit ∨ f.poll)
    (hsend : c.app.state = .send) (hlen : c.len = 0) :
    c.serve true request stale f =
      { c with app := c.app.advance c.mss f.acked }.transmit request := by
  have hstate := (state_advance c.app c.mss f.acked).trans hsend
  have honSend := onSend_of_send hasked hsend c.mss
  by_cases hdata : (c.app.advance c.mss f.acked).data.length > 0
  · rw [if_pos hdata] at honSend
    rw [serve, call, appcall_of_plain hf (by rw [honSend, hstate]; exact nofun), honSend, transmit,
      if_pos hdata]
    exact appsend_of_len_eq_zero (c := { c with app := c.app.advance c.mss f.acked }) hlen f.acked
      (c.app.advance c.mss f.acked).data
  · rw [if_neg hdata] at honSend
    rw [serve, call, appcall_of_plain hf (by rw [honSend]; exact nofun), honSend, transmit,
      if_neg hdata]
    rfl

/-- Data is sent while something is outstanding. -/
theorem appsend_of_pos (hlen : 0 < c.len) {r : Reply} (hclose : r.close = false) :
    c.appsend stale r false =
      { conn := c
        request := r.request
        data := if r.sent.length > 0 then some (c.snd, payload r.sent stale c.len) else none } := by
  rw [appsend, hclose, if_neg Bool.false_ne_true]
  dsimp only
  rw [if_neg Bool.false_ne_true, if_neg hlen.ne', if_pos hlen]
  split_ifs <;> rfl

/-- What is outstanding is sent again, if the segment size has not become smaller. -/
theorem serve_again (hf : f.Plain) (hacked : f.acked = false) (hasked : f.rexmit ∨ f.poll)
    (hsend : c.app.state = .send) (hlen : 0 < c.len) (hdata : c.len ≤ c.app.data.length)
    (hmss : c.len ≤ c.mss) :
    c.serve true request stale f =
      { conn := c, request, data := some (c.snd, c.app.data.take c.len) } := by
  have hadvance : c.app.advance c.mss f.acked = c.app := by
    rw [hacked]
    rfl
  have honSend := onSend_of_send (.inr hasked) hsend c.mss
  rw [hadvance, if_pos (hlen.trans_le hdata)] at honSend
  have hle : c.len ≤ min c.app.data.length c.mss := Nat.le_min.mpr ⟨hdata, hmss⟩
  rw [serve, call, appcall_of_plain hf (by rw [honSend, hsend]; exact nofun), honSend, hacked]
  dsimp only
  rw [appsend_of_pos hlen rfl]
  dsimp only
  rw [length_take_min, if_pos (hlen.trans_le hle), payload_eq_take (by rwa [length_take_min]),
    List.take_take, Nat.min_eq_left hle]

theorem close_call (hf : f.Plain) (hclose : c.app.state ≠ .close) :
    (c.call true request f).2.close = false := by
  have hstate : (c.app.onSend f c.mss).1.state ≠ .close := by
    rw [App.onSend]
    dsimp only
    split_ifs
    · rwa [state_advance]
    · exact nofun
    · exact hclose
  rw [call, appcall_of_plain hf hstate]

/-- A retransmission sends as a poll does. -/
theorem periodic_rexmit (hclose : c.app.state ≠ .close) (htcp : c.tcp = .established) {o : Outcome}
    (h : c.periodic true request stale .rexmit = some o) :
    o = c.serve true request stale { rexmit := true } := by
  obtain ⟨⟨-, -, -, hlen⟩, h⟩ := Option.ite_none_right_eq_some.mp h
  rw [if_pos htcp] at h
  have hr : (c.call true request { rexmit := true }).2.close = false := close_call ⟨rfl, by decide⟩ hclose
  have hlen' : 0 < (c.call true request { rexmit := true }).1.len := hlen
  rw [serve]
  dsimp only
  rw [appsend_of_pos hlen' hr]
  exact (Option.some_inj.mp h).symm

/-- The end of a connection. -/
theorem notify_of_ends (hf : f.Ends) (hstate : c.app.state ≠ .closeAck) :
    ∃ res, res ≠ .ok ∧ c.notify true request f =
      { conn := { c with app := { c.app with res, state := .idle } }, request, control := true } := by
  obtain ⟨res, hres, heq⟩ := appcall_of_ends hf hstate
  refine ⟨res, hres, ?_⟩
  rw [notify, call, heq]

theorem process_of_established (htcp : c.tcp = .established) {g : Segment} (hfin : g.fin = false)
    (configured acked : Bool) :
    c.process configured request stale acked g =
      if acked ∨ g.data then (c.advertise g).serve configured request stale { acked }
      else { conn := c.advertise g, request } := by
  rw [process, htcp]
  dsimp only
  rw [hfin]
  rfl

end UipConn

end ELuaBrain.Net
