import ELuaBrain.Rpc.Client
import ELuaBrain.System.Reach

/-!
# Client and server over a lossy transport

Here a response may come after the client has given up waiting for it, more than once, or never. On
a serial line the client throws away what has arrived before it sends a request, each byte of it
into the first byte of the buffer, in which the request already is. With datagrams a packet that
arrives is put into the buffer at once, whatever the client is doing, and the address of the server
is looked for again after a timeout. Packets are whole: no part of one is lost.

## Main definitions

* `Parcel` : a packet with the number of the call that it goes back to.
* `Net`, `NetEvent`, `Net.step` : client, server and the packets on their way.
-/

namespace ELuaBrain.Rpc

/-- The transports on which the client has a timeout. -/
inductive RfsTransport where
  | uart
  | udp
  deriving DecidableEq

/-- A packet with the number of the call that it goes back to. Nothing in the code has this number:
neither side looks at it. -/
structure Parcel where
  id : ℕ
  bytes : List UInt8
  deriving DecidableEq

/-- What the client is doing: nothing, or a call whose request is in the buffer, one whose size is
known too, or one whose request was sent. -/
inductive Phase where
  | idle
  | made
  | sized (size : ℕ)
  | waiting
  deriving DecidableEq

/-- The operation of a call. -/
def RfsCall.op : RfsCall → UInt8
  | rfscOpen _ _ _ => rfsOpOpen
  | rfscWrite _ _ => rfsOpWrite
  | rfscRead _ _ => rfsOpRead
  | rfscLseek _ _ _ => rfsOpLseek
  | rfscClose _ => rfsOpClose
  | rfscOpendir _ => rfsOpOpendir
  | rfscReaddir _ => rfsOpReaddir
  | rfscClosedir _ => rfsOpClosedir

/-- The client, the server, and the packets. `calls` has the calls that were made, each with
whether no packet of the same operation was on its way then, `holds` the packet that was put into
the buffer of the client last, `answers` what the server has sent, each with the packet it was sent
for, and `results` what was returned. -/
structure Net (σ : Type) where
  buf : Memory := fun _ => 0
  server : Memory := fun _ => 0
  st : σ
  phase : Phase := .idle
  /-- `rfs_server_ip.ipaddr != 0`. -/
  serverKnown : Bool := false
  /-- `rfs_data_size`. -/
  dataSize : ℕ := 0
  requests : List Parcel := []
  responses : List Parcel := []
  arrived : List Parcel := []
  calls : List (RfsCall × Bool) := []
  holds : Parcel := ⟨0, []⟩
  answers : List (Parcel × Parcel) := []
  results : List (ℕ × RfsResult) := []

/-- What can happen. The last arguments are places in the list of responses. -/
inductive NetEvent where
  | call (call : RfsCall)
  | size
  | discover
  | retry
  | giveUp
  | send
  | serve
  | loseRequest
  | lose (i : ℕ)
  | duplicate (i : ℕ)
  | deliver (i : ℕ)
  | receive
  | timeout

namespace Net

variable {σ : Type} (os : Os σ) (basedir : CString) (c : SysConsts) (n : Fin 16)
  (tr : RfsTransport)

/-- The call that is going on returns. -/
def finish (s : Net σ) (res : RfsResult) : Net σ :=
  { s with phase := .idle, results := s.results ++ [(s.calls.length - 1, res)] }

/-- The call that is going on returns that it has failed. -/
def fail (s : Net σ) : Option (Net σ) :=
  s.calls.getLast?.map fun call => s.finish (call.1.func c n).failed

/-- No packet on its way goes back to a call of the same operation. -/
def alone (s : Net σ) (call : RfsCall) : Bool :=
  (s.requests ++ s.responses).all fun p => s.calls[p.id]?.all fun old => old.1.op ≠ call.op

/-- A function of the client makes its request. -/
def makeRequest (call : RfsCall) (s : Net σ) : Option (Net σ) :=
  (writeIn (2 ^ n.val) s.buf (call.func c n).request).map fun buf =>
    { s with
      buf
      phase := .made
      calls := s.calls ++ [(call, s.alone call)]
      holds := ⟨s.calls.length, buf.slice 0 (call.func c n).request.written⟩ }

/-- `while( rfsc_recv( rfsc_buffer, 1, 0 ) == 1 )`. The last byte that has arrived stays in the
first byte of the buffer. -/
def flush (s : Net σ) : Net σ :=
  match tr with
  | .uart =>
      match s.arrived.getLast? with
      | none => s
      | some p => { s with buf := s.buf.overlay 0 [p.bytes.getLastD 0], arrived := [] }
  | .udp => s

/-- The first part of `rfsch_send_request_read_response`. -/
def sizeRequest (s : Net σ) : Option (Net σ) :=
  let s := flush tr s
  match getPacketSize s.buf with
  | (false, _) => s.fail c n
  | (true, size) => some { s with phase := .sized size.toNat }

/-- `rfs_send` of as many bytes as the request had. -/
def sendRequest (size : ℕ) (s : Net σ) : Option (Net σ) :=
  if 2 ^ n.val < size then none
  else some
    { s with
      phase := .waiting
      requests := s.requests ++ [⟨s.holds.id, s.buf.slice 0 size⟩] }

/-- The loop of the server, for one packet. Where it has no size it is ignored. -/
def serve (s : Net σ) : Option (Net σ) :=
  match s.requests with
  | [] => none
  | p :: requests =>
      if rfsBufferSize < p.bytes.length then none
      else
        let server := s.server.overlay 0 p.bytes
        match getPacketSize server with
        | (false, _) => some { s with server, requests }
        | (true, _) =>
            (serverExecuteRequest os basedir server s.st).bind fun (_, server, st) =>
              match getPacketSize server with
              | (false, _) => some { s with server, st, requests }
              | (true, size) =>
                  if rfsBufferSize < size.toNat then none
                  else
                    let answer : Parcel := ⟨p.id, server.slice 0 size.toNat⟩
                    some
                      { s with
                        server
                        st
                        requests
                        responses := s.responses ++ [answer]
                        answers := s.answers ++ [(p, answer)] }

/-- A packet arrives at the client: in the buffer of the serial line, or in `rfs_recv_cb`. -/
def arrive (p : Parcel) (s : Net σ) : Net σ :=
  match tr with
  | .uart => { s with arrived := s.arrived ++ [p] }
  | .udp =>
      { s with
        buf := s.buf.overlay 0 (p.bytes.take (2 ^ n.val))
        dataSize := min p.bytes.length (2 ^ n.val)
        holds := p }

/-- The function of the client looks at the packet in the buffer. -/
def interpretBuffer (s : Net σ) : Option (Net σ) :=
  match getPacketSize s.buf with
  | (false, _) => s.fail c n
  | (true, _) =>
      s.calls.getLast?.bind fun call =>
        ((call.1.func c n).interpret s.buf).map s.finish

/-- The second part of `rfsch_send_request_read_response`. -/
def receiveResponse (s : Net σ) : Option (Net σ) :=
  match tr with
  | .uart =>
      match s.arrived with
      | [] => none
      | p :: arrived =>
          if 2 ^ n.val < p.bytes.length then none
          else interpretBuffer c n { s with buf := s.buf.overlay 0 p.bytes, holds := p, arrived }
  | .udp =>
      if s.dataSize = 0 then none
      else if s.dataSize < startOffset then fail c n { s with dataSize := 0 }
      else interpretBuffer c n { s with dataSize := 0 }

/-- What happens at an event, if it can happen. -/
def step (s : Net σ) : NetEvent → Option (Net σ)
  | .call call => if s.phase = .idle then makeRequest c n call s else none
  | .size => if s.phase = .made then sizeRequest c n tr s else none
  | .discover =>
      match s.phase with
      | .sized _ =>
          if tr = .udp ∧ s.serverKnown = false then
            some { s with serverKnown := true, dataSize := 0 }
          else none
      | _ => none
  | .retry =>
      match s.phase with
      | .sized _ => if tr = .udp ∧ s.serverKnown = false then some { s with dataSize :=
        0 } else none
      | _ => none
  | .giveUp =>
      match s.phase with
      | .sized _ => if tr = .udp then s.fail c n else none
      | _ => none
  | .send =>
      match s.phase with
      | .sized size =>
          if tr = .uart ∨ s.serverKnown = true then sendRequest n size s else none
      | _ => none
  | .serve => serve os basedir s
  | .loseRequest => some { s with requests := s.requests.tail }
  | .lose i => some { s with responses := s.responses.eraseIdx i }
  | .duplicate i => s.responses[i]?.map fun p => { s with responses := s.responses ++ [p] }
  | .deliver i =>
      s.responses[i]?.map fun p =>
        arrive n tr p { s with responses := s.responses.eraseIdx i }
  | .receive => if s.phase = .waiting then receiveResponse c n tr s else none
  | .timeout =>
      if s.phase = .waiting ∧ s.arrived = [] ∧ s.dataSize = 0 then
        fail c n { s with serverKnown := false }
      else none

end Net

end ELuaBrain.Rpc
