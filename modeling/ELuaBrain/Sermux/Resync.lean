import Mathlib.Data.List.Infix
import ELuaBrain.Sermux.Link
import ELuaBrain.Sermux.RoundTrip

/-!
# Resynchronisation of the multiplexer

The host and the device joined by two byte queues, with each end free to restart. A run is *sound*
when no end aborts, no forced service ID request is delivered as data, and each direction delivers
what was sent, with at most bytes sent before its first retransmission missing.

Each direction of the line is a link, and a step of the system moves each link by one operation or
leaves it as it is. Two careless steps break a run: sending while a request is on its way or about
to be made, and restarting an end while it is owed more than the last byte that its peer
remembers. In a run without these both links stay in order.

## Main definitions

* `Mux`, `Mux.step` : the joined system and its events.
* `Mux.Sound` : the property of a run.
* `Mux.Careful` : the condition on a step.

## Main results

* `Mux.InOrder.step` : a careful step keeps both links in order.
* `Mux.sound_of_careful` : every run of careful steps is sound.
* `Mux.not_sound_of_carelessRestart` : a run with a careless restart in which the host aborts.
-/

namespace ELuaBrain.Sermux

variable {ρ : Type} {cfg : DeviceConfig} {cmd : Command} {server : RfsServer ρ} {r₀ : ρ}

/-! ### The joined system -/

/-- The bytes that an iteration of the host delivers, with the service ID of the port. -/
def hostDelivered (cmd : Command) (o : HostOut) : List (ℕ × UInt8) :=
  o.rfsReads.map (fun c => (sermuxServiceIdFirst, c)) ++
    o.ports.map fun p => ((p.1 + (sermuxServiceIdFirst : ℤ) + (cmd.serviceOffset : ℤ)).toNat, p.2)

/-- An answer to a request repeats the service ID. -/
def isRepeat : List Tx → Bool
  | .serviceId _ :: _ => true
  | _ => false

/-- A service that the host and the device both have. -/
def isLinkService (cfg : DeviceConfig) (cmd : Command) (id : ℕ) : Bool :=
  cfg.isVuart id && id < sermuxServiceIdFirst + cmd.serviceOffset + cmd.vportNum

/-- The host and the device, the bytes on their way, and the history of the run. -/
structure Mux (ρ : Type) where
  host : Host ρ
  device : Device := {}
  toDevice : List UInt8 := []
  toHost : List UInt8 := []
  hostSent : List (ℕ × UInt8) := []
  deviceSent : List (ℕ × UInt8) := []
  hostGot : List (ℕ × UInt8) := []
  deviceGot : List (ℕ × UInt8) := []
  /-- The number of bytes that the host had sent at its first retransmission. -/
  hostRepeat : Option ℕ := none
  /-- The number of bytes that the device had sent at its first retransmission. -/
  deviceRepeat : Option ℕ := none
  aborted : Bool := false
  /-- A forced service ID request was delivered as data. -/
  forceDelivered : Bool := false

/-- What happens next. -/
inductive MuxEvent where
  /-- The host sends the next byte of a pending response of the remote file system. -/
  | hostRespond
  /-- The host takes a byte from a service port, numbered from 0. -/
  | hostSend (port : ℕ) (c : UInt8)
  | hostReceive
  | deviceSend (id : ℕ) (c : UInt8)
  | deviceReceive
  | restartHost
  | restartDevice
  deriving DecidableEq, Repr

namespace Mux

section

variable (cfg : DeviceConfig) (cmd : Command) (server : RfsServer ρ) (r₀ : ρ)

/-- The system after one iteration of the main loop of the host. -/
def hostTurn (sel : Option (ℕ × UInt8)) (m : Mux ρ) : Mux ρ :=
  let o := (mainLoop cmd server sel m.host).2
  { m with
    host := (mainLoop cmd server sel m.host).1
    toDevice := m.toDevice ++ o.transport.map Tx.byte
    hostGot := m.hostGot ++ hostDelivered cmd o
    aborted := o.aborted }

/-- One event. Nothing happens after an abort; bytes are sent on common services only. -/
def step (m : Mux ρ) (e : MuxEvent) : Option (Mux ρ) :=
  if m.aborted then none
  else
    match e with
    | .hostRespond =>
        match m.host.rfsResponse with
        | [] => none
        | c :: _ =>
            if isLinkService cfg cmd (sourceId cmd none) then
              some { m.hostTurn cmd server none with
                hostSent := m.hostSent ++ [(sourceId cmd none, c)] }
            else none
    | .hostSend port c =>
        if m.host.rfsResponse = [] ∧ isLinkService cfg cmd (sourceId cmd (some (port + 1))) then
          some { m.hostTurn cmd server (some (port + 1, c)) with
            hostSent := m.hostSent ++ [(sourceId cmd (some (port + 1)), c)] }
        else none
    | .hostReceive =>
        match m.host.rfsResponse, m.toHost with
        | [], c :: rest =>
            let o := (mainLoop cmd server (some (0, c)) m.host).2
            some { m.hostTurn cmd server (some (0, c)) with
              toHost := rest
              hostRepeat := m.hostRepeat <|>
                if isRepeat o.transport then some m.hostSent.length else none
              forceDelivered := m.forceDelivered ||
                c == sermuxForceSidChar && !(hostDelivered cmd o).isEmpty }
        | _, _ => none
    | .deviceSend id c =>
        if isLinkService cfg cmd id then
          let t := platformUartSend cfg id c m.device
          some { m with
            device := t.1
            toHost := m.toHost ++ t.2.sent.map Tx.byte
            deviceSent := m.deviceSent ++ [(id, c)] }
        else none
    | .deviceReceive =>
        match m.toDevice with
        | [] => none
        | c :: rest =>
            let t := cmnRxHandler cfg cfg.sermuxPhysId c m.device
            some { m with
              device := t.1
              toDevice := rest
              toHost := m.toHost ++ t.2.sent.map Tx.byte
              deviceGot := m.deviceGot ++ t.2.delivered
              deviceRepeat := m.deviceRepeat <|>
                if isRepeat t.2.sent then some m.deviceSent.length else none
              forceDelivered := m.forceDelivered ||
                c == sermuxForceSidChar && !t.2.delivered.isEmpty }
    | .restartHost => some { m with host := { rfs := r₀ } }
    | .restartDevice => some { m with device := {} }

end

/-! ### Soundness -/

/-- What is delivered was sent, in the order sent: with at most bytes sent before the first
retransmission missing, and none delivered twice. -/
def Delivered (sent : List (ℕ × UInt8)) (firstRepeat : Option ℕ) (got : List (ℕ × UInt8)) : Prop :=
  ∃ pre, pre.Sublist (sent.take (firstRepeat.getD sent.length)) ∧
    got <+: pre ++ sent.drop (firstRepeat.getD sent.length)

/-- No abort, no request delivered as data, and both directions deliver what was sent. -/
structure Sound (m : Mux ρ) : Prop where
  aborted_eq : m.aborted = false
  forceDelivered_eq : m.forceDelivered = false
  toDevice_delivered : Delivered m.hostSent m.hostRepeat m.deviceGot
  toHost_delivered : Delivered m.deviceSent m.deviceRepeat m.hostGot

theorem delivered_of_prefix {sent got : List (ℕ × UInt8)} (h : got <+: sent) (n : Option ℕ) :
    Delivered sent n got :=
  ⟨sent.take (n.getD sent.length), List.Sublist.refl _, by rwa [List.take_append_drop]⟩

/-- The direction from the host to the device. -/
def toDeviceLink (m : Mux ρ) : Link where
  idOut := m.host.serviceIdOut
  last := m.host.prevSent
  idIn := m.device.uartServiceIdIn
  gotEsc := m.device.uartGotEsc
  data := m.toDevice.filter (· != sermuxForceSidChar)
  requests := m.toHost.count sermuxForceSidChar
  sent := m.hostSent
  got := m.deviceGot

/-- The direction from the device to the host. -/
def toHostLink (m : Mux ρ) : Link where
  idOut := m.device.uartServiceIdOut
  last := m.device.uartLastSent
  idIn := m.host.serviceIdIn
  gotEsc := m.host.gotEsc
  data := m.toHost.filter (· != sermuxForceSidChar)
  requests := m.toDevice.count sermuxForceSidChar
  sent := m.deviceSent
  got := m.hostGot

/-- A step that needs no more than one byte to be repeated: data is sent on a quiet direction only,
and an end restarts only when its peer loses no byte, or the last one, still remembered. -/
def Careful (m : Mux ρ) : MuxEvent → Prop
  | .hostRespond | .hostSend _ _ => m.toDeviceLink.Quiet
  | .deviceSend _ _ => m.toHostLink.Quiet
  | .restartHost => m.toHostLink.CanLoseReceiver ∧ m.toDeviceLink.Quiet
  | .restartDevice => m.toDeviceLink.CanLoseReceiver ∧ m.toHostLink.Quiet
  | .hostReceive | .deviceReceive => True

/-- The invariant: nothing has gone wrong, and both directions are in order. -/
structure InOrder (cfg : DeviceConfig) (m : Mux ρ) : Prop where
  aborted_eq : m.aborted = false
  forceDelivered_eq : m.forceDelivered = false
  toDevice : m.toDeviceLink.InOrder fun id => cfg.isVuart id = true
  toHost : m.toHostLink.InOrder fun id => cfg.isVuart id = true

variable {m : Mux ρ}

theorem InOrder.sound (h : m.InOrder cfg) : m.Sound :=
  ⟨h.aborted_eq, h.forceDelivered_eq, delivered_of_prefix h.toDevice.got_prefix _,
    delivered_of_prefix h.toHost.got_prefix _⟩

/-! ### Queues -/

/-- The bytes that an end sends for data and for answers. -/
def Plain (bs : List UInt8) : Prop := ∀ b ∈ bs, b ≠ sermuxForceSidChar

theorem Plain.filter_append {bs : List UInt8} (h : Plain bs) (q : List UInt8) :
    (q ++ bs).filter (· != sermuxForceSidChar) = q.filter (· != sermuxForceSidChar) ++ bs := by
  rw [List.filter_append]
  congr 1
  exact List.filter_eq_self.mpr fun b hb => by simpa using h b hb

theorem Plain.count_append {bs : List UInt8} (h : Plain bs) (q : List UInt8) :
    (q ++ bs).count sermuxForceSidChar = q.count sermuxForceSidChar := by
  rw [List.count_append, List.count_eq_zero.mpr fun hb => h _ hb rfl, Nat.add_zero]

theorem plain_lastSentOf (c : UInt8) : Plain ((lastSentOf c).tx.map Tx.byte) := by
  have hb := (isSpecial_eq_false_iff.mp (not_isSpecial_lastSentOf c)).2.1
  have hesc : sermuxEscapeChar ≠ sermuxForceSidChar := by decide
  intro b hmem
  simp only [LastSent.tx] at hmem
  split at hmem
  · obtain rfl | rfl := by simpa using hmem
    · exact hesc
    · exact hb
  · obtain rfl := by simpa using hmem
    exact hb

theorem plain_serviceId {id : ℕ} (hid : cfg.isVuart id = true) :
    UInt8.ofNat id ≠ sermuxForceSidChar :=
  ne_forceSidChar_of_isServiceId
    (isServiceId_ofNat (cfg.isVuart_iff.mp hid).1 (cfg.le_last_of_isVuart hid))

theorem plain_sendTx (idOut : Option ℕ) {id : ℕ} (hid : cfg.isVuart id = true) (c : UInt8) :
    Plain ((sendTx idOut id c).map Tx.byte) := by
  intro b hmem
  simp only [sendTx, List.map_append, List.mem_append] at hmem
  obtain hmem | hmem := hmem
  · split at hmem
    · obtain rfl := by simpa using hmem
      exact plain_serviceId hid
    · simp at hmem
  · exact plain_lastSentOf c b hmem

theorem plain_answer {id : ℕ} (hid : cfg.isVuart id = true) (c : UInt8) :
    Plain ((Tx.serviceId id :: (lastSentOf c).tx).map Tx.byte) := by
  intro b hmem
  obtain rfl | hmem := by simpa only [List.map_cons, List.mem_cons] using hmem
  · exact plain_serviceId hid
  · exact plain_lastSentOf c b hmem

theorem isVuart_range (cfg : DeviceConfig) (id : ℕ) (hid : cfg.isVuart id = true) :
    sermuxServiceIdFirst ≤ id ∧ id ≤ sermuxServiceIdLast :=
  ⟨(cfg.isVuart_iff.mp hid).1, cfg.le_last_of_isVuart hid⟩

/-! ### Sending -/

/-- **The host sends.** A byte of a response or of a port, on a quiet direction. -/
theorem InOrder.hostSends (h : m.InOrder cfg) (hq : m.toDeviceLink.Quiet) {id : ℕ}
    (hid : cfg.isVuart id = true) (c : UInt8) (h' : Host ρ) (hout : h'.serviceIdOut = some id)
    (hprev : h'.prevSent = some (lastSentOf c)) (hin : h'.serviceIdIn = m.host.serviceIdIn)
    (hesc : h'.gotEsc = m.host.gotEsc) :
    InOrder cfg { m with
      host := h'
      toDevice := m.toDevice ++ (sendTx m.host.serviceIdOut id c).map Tx.byte
      hostSent := m.hostSent ++ [(id, c)] } := by
  have hplain := plain_sendTx m.host.serviceIdOut hid c
  refine ⟨h.aborted_eq, h.forceDelivered_eq, ?_, ?_⟩
  · have key := h.toDevice.send hq hid c
    simpa only [toDeviceLink, Link.send, hout, hprev, hplain.filter_append] using key
  · have key := h.toHost
    simpa only [toHostLink, hin, hesc, hplain.count_append] using key

/-- **The device sends.** -/
theorem InOrder.deviceSends (h : m.InOrder cfg) (hq : m.toHostLink.Quiet) {id : ℕ}
    (hid : cfg.isVuart id = true) (c : UInt8) :
    InOrder cfg { m with
      device := (platformUartSend cfg id c m.device).1
      toHost := m.toHost ++ (platformUartSend cfg id c m.device).2.sent.map Tx.byte
      deviceSent := m.deviceSent ++ [(id, c)] } := by
  have hsend : platformUartSend cfg id c m.device =
      ({ m.device with uartServiceIdOut := some id, uartLastSent := some (lastSentOf c) },
        { sent := sendTx m.device.uartServiceIdOut id c }) := by
    simp only [platformUartSend, hid, ↓reduceIte, sendTx]
  have hplain := plain_sendTx m.device.uartServiceIdOut hid c
  rw [hsend]
  refine ⟨h.aborted_eq, h.forceDelivered_eq, ?_, ?_⟩
  · have key := h.toDevice
    simpa only [toDeviceLink, hplain.count_append] using key
  · have key := h.toHost.send hq hid c
    simpa only [toHostLink, Link.send, hplain.filter_append] using key

/-! ### Receiving -/

/-- An end that handles `c` moves its incoming link by `Link.receive`: `idIn` and `gotEsc` become
`idIn'` and `gotEsc'`, `tx` is what it sends, which is a request or nothing, and `got` what it
delivers. -/
structure Received (c : UInt8) (idIn : Option ℕ) (gotEsc : Bool) (idIn' : Option ℕ)
    (gotEsc' : Bool) (tx : List Tx) (got : List (ℕ × UInt8)) : Prop where
  tx_eq : tx = [] ∨ tx = [.forceSid]
  receive_eq : ∀ (k : Link) (rest : List UInt8), k.idIn = idIn → k.gotEsc = gotEsc →
    k.receive c rest = { k with
      data := rest
      idIn := idIn'
      gotEsc := gotEsc'
      requests := k.requests + tx.length
      got := k.got ++ got }

theorem received_escape (idIn : Option ℕ) (e : Bool) :
    Received sermuxEscapeChar idIn e idIn true [] [] := by
  refine ⟨.inl rfl, fun k rest hin he => ?_⟩
  subst hin he
  simp [Link.receive_escape]

theorem received_serviceId {id : ℕ} (hid : cfg.isVuart id = true) (idIn : Option ℕ) (e : Bool) :
    Received (UInt8.ofNat id) idIn e (some id) e [] [] := by
  obtain ⟨hf, hl⟩ := isVuart_range cfg id hid
  refine ⟨.inl rfl, fun k rest hin he => ?_⟩
  subst hin he
  simp [Link.receive_serviceId hf hl]

theorem received_dropped {c : UInt8} (hc : isSpecial c = false) (e : Bool) :
    Received c none e none false [.forceSid] [] := by
  refine ⟨.inr rfl, fun k rest hin he => ?_⟩
  subst he
  simp [Link.receive_data hc, hin]

theorem received_data {c : UInt8} (hc : isSpecial c = false) (id : ℕ) (e : Bool) :
    Received c (some id) e (some id) false []
      [(id, if e then c ^^^ sermuxEscapeXorMask else c)] := by
  refine ⟨.inl rfl, fun k rest hin he => ?_⟩
  subst he
  simp [Link.receive_data hc, hin]

theorem cmnRxHandler_received {c : UInt8} {d : Device}
    (hc : Link.Head (fun id => cfg.isVuart id = true) d.uartGotEsc c) :
    Received c d.uartServiceIdIn d.uartGotEsc
        (cmnRxHandler cfg cfg.sermuxPhysId c d).1.uartServiceIdIn
        (cmnRxHandler cfg cfg.sermuxPhysId c d).1.uartGotEsc
        (cmnRxHandler cfg cfg.sermuxPhysId c d).2.sent
        (cmnRxHandler cfg cfg.sermuxPhysId c d).2.delivered ∧
      (cmnRxHandler cfg cfg.sermuxPhysId c d).1.uartServiceIdOut = d.uartServiceIdOut ∧
      (cmnRxHandler cfg cfg.sermuxPhysId c d).1.uartLastSent = d.uartLastSent := by
  cases hc with
  | escape hc =>
    subst hc
    rw [cmnRxHandler_escape]
    exact ⟨received_escape _ _, rfl, rfl⟩
  | serviceId id hid hc =>
    subst hc
    rw [cmnRxHandler_serviceId hid]
    exact ⟨received_serviceId hid _ _, rfl, rfl⟩
  | data hc _ =>
    rw [cmnRxHandler_data hc]
    cases hin : d.uartServiceIdIn with
    | none => exact ⟨by simpa [hin] using received_dropped hc _, rfl, rfl⟩
    | some id => exact ⟨by simpa [hin] using received_data hc id _, rfl, rfl⟩

theorem eq_first_of_rfsServiceId {id : ℕ} (h : some id = cmd.rfsServiceId) :
    id = sermuxServiceIdFirst := by
  simp only [Command.rfsServiceId] at h
  split at h
  · exact Option.some.inj h
  · cases h

theorem transportByte_received (cmd : Command) (server : RfsServer ρ) {c : UInt8} {h : Host ρ}
    (hc : Link.Head (fun id => cfg.isVuart id = true) h.gotEsc c) :
    Received c h.serviceIdIn h.gotEsc (transportByte cmd server c h).1.serviceIdIn
        (transportByte cmd server c h).1.gotEsc (transportByte cmd server c h).2.transport
        (hostDelivered cmd (transportByte cmd server c h).2) ∧
      (transportByte cmd server c h).1.serviceIdOut = h.serviceIdOut ∧
      (transportByte cmd server c h).1.prevSent = h.prevSent ∧
      (transportByte cmd server c h).2.aborted = false := by
  cases hc with
  | escape hc =>
    subst hc
    rw [transportByte_escape]
    exact ⟨received_escape _ _, rfl, rfl, rfl⟩
  | serviceId id hid hc =>
    subst hc
    rw [transportByte_serviceId (isVuart_range cfg id hid).1 (isVuart_range cfg id hid).2]
    exact ⟨received_serviceId hid _ _, rfl, rfl, rfl⟩
  | data hc hesc =>
    obtain ⟨h₁, h₂, h₃⟩ := isSpecial_eq_false_iff.mp hc
    have key := transportByte_transported cmd server c h
    generalize transportByte cmd server c h = t at key ⊢
    cases key with
    | escape hc' => exact absurd hc' h₁
    | serviceId hc' => exact absurd hc' (by simp [h₃])
    | noLast hc' => exact absurd hc' h₂
    | answer p hc' => exact absurd hc' h₂
    | badEscape _ hesc' => exact absurd hesc hesc'
    | dropped _ _ hin =>
      exact ⟨by simpa [hin, hostDelivered] using received_dropped hc _, rfl, rfl, rfl⟩
    | rfs id r response _ _ hin hrfs =>
      have hid := eq_first_of_rfsServiceId hrfs
      have hdata := received_data hc id h.gotEsc
      exact ⟨by simpa [hin, hid, hostDelivered, dataByte] using hdata, rfl, rfl, rfl⟩
    | port id _ _ hin hrfs =>
      have hport : ((id : ℤ) - sermuxServiceIdFirst - cmd.serviceOffset +
          sermuxServiceIdFirst + cmd.serviceOffset).toNat = id := by omega
      have hdata := received_data hc id h.gotEsc
      exact ⟨by simpa [hin, hostDelivered, hport, dataByte] using hdata, rfl, rfl, rfl⟩

/-- The host handles a byte that is no request. -/
theorem InOrder.hostReceives (cmd : Command) (server : RfsServer ρ) (h : m.InOrder cfg)
    {c : UInt8} {rest : List UInt8} (hc : c ≠ sermuxForceSidChar) (hq : m.toHost = c :: rest)
    (n : Option ℕ) :
    InOrder cfg { m with
      host := (transportByte cmd server c m.host).1
      toDevice := m.toDevice ++ (transportByte cmd server c m.host).2.transport.map Tx.byte
      toHost := rest
      hostGot := m.hostGot ++ hostDelivered cmd (transportByte cmd server c m.host).2
      hostRepeat := n
      aborted := (transportByte cmd server c m.host).2.aborted } := by
  have hd : m.toHostLink.data = c :: rest.filter (· != sermuxForceSidChar) := by
    simp [toHostLink, hq, hc]
  obtain ⟨hrec, hout, hprev, hab⟩ :=
    transportByte_received cmd server (h.toHost.head hd)
  refine ⟨hab, h.forceDelivered_eq, ?_, ?_⟩
  · have key := h.toDevice
    obtain htx | htx := hrec.tx_eq <;>
      simpa [toDeviceLink, hout, hprev, htx, hq, hc] using key
  · have key := h.toHost.receive (isVuart_range cfg) hd
    rw [hrec.receive_eq _ _ rfl rfl] at key
    obtain htx | htx := hrec.tx_eq <;> simpa [toHostLink, htx] using key

/-- The device handles a byte that is no request. -/
theorem InOrder.deviceReceives (h : m.InOrder cfg) {c : UInt8} {rest : List UInt8}
    (hc : c ≠ sermuxForceSidChar) (hq : m.toDevice = c :: rest) (n : Option ℕ) :
    InOrder cfg { m with
      device := (cmnRxHandler cfg cfg.sermuxPhysId c m.device).1
      toDevice := rest
      toHost := m.toHost ++ (cmnRxHandler cfg cfg.sermuxPhysId c m.device).2.sent.map Tx.byte
      deviceGot := m.deviceGot ++ (cmnRxHandler cfg cfg.sermuxPhysId c m.device).2.delivered
      deviceRepeat := n } := by
  have hd : m.toDeviceLink.data = c :: rest.filter (· != sermuxForceSidChar) := by
    simp [toDeviceLink, hq, hc]
  obtain ⟨hrec, hout, hprev⟩ := cmnRxHandler_received (h.toDevice.head hd)
  refine ⟨h.aborted_eq, h.forceDelivered_eq, ?_, ?_⟩
  · have key := h.toDevice.receive (isVuart_range cfg) hd
    rw [hrec.receive_eq _ _ rfl rfl] at key
    obtain htx | htx := hrec.tx_eq <;> simpa [toDeviceLink, htx] using key
  · have key := h.toHost
    obtain htx | htx := hrec.tx_eq <;>
      simpa [toHostLink, hout, hprev, htx, hq, hc] using key

/-! ### Requests -/

/-- **The host answers a request.** It has the byte asked for, and nothing is delivered. -/
theorem InOrder.hostAnswers (cmd : Command) (server : RfsServer ρ) (h : m.InOrder cfg)
    {rest : List UInt8} (hq : m.toHost = sermuxForceSidChar :: rest) (n : Option ℕ) :
    hostDelivered cmd (transportByte cmd server sermuxForceSidChar m.host).2 = [] ∧
      InOrder cfg { m with
        host := (transportByte cmd server sermuxForceSidChar m.host).1
        toDevice := m.toDevice ++
          (transportByte cmd server sermuxForceSidChar m.host).2.transport.map Tx.byte
        toHost := rest
        hostGot := m.hostGot ++
          hostDelivered cmd (transportByte cmd server sermuxForceSidChar m.host).2
        hostRepeat := n
        aborted := (transportByte cmd server sermuxForceSidChar m.host).2.aborted } := by
  have hreq : m.toDeviceLink.requests ≠ 0 := by simp [toDeviceLink, hq]
  obtain ⟨id, c, hid, hout, hlast⟩ := h.toDevice.exists_last hreq
  have hout' : m.host.serviceIdOut = some id := hout
  have hlast' : m.host.prevSent = some (lastSentOf c) := hlast
  have hesc : sermuxForceSidChar ≠ sermuxEscapeChar := by decide
  have hsid : isServiceId sermuxForceSidChar = false := by decide
  have hturn : transportByte cmd server sermuxForceSidChar m.host =
      ({ m.host with prevSent := none },
        { transport := .serviceId id :: (lastSentOf c).tx }) := by
    simp [transportByte, hesc, hsid, hlast', hout']
  have hplain := plain_answer hid c
  rw [hturn]
  refine ⟨rfl, rfl, h.forceDelivered_eq, ?_, ?_⟩
  · have key := h.toDevice.answer hreq hlast
    simpa only [toDeviceLink, Link.answer, hout', Option.getD_some, hq, List.count_cons_self,
      Nat.add_sub_cancel, hplain.filter_append] using key
  · have key := h.toHost
    have hcount := hplain.count_append m.toDevice
    simp only [List.map_cons, tx_byte_serviceId] at hcount
    simpa [toHostLink, hcount, hq, hostDelivered, -List.count_append] using key

/-- **The device answers a request.** -/
theorem InOrder.deviceAnswers (h : m.InOrder cfg) {rest : List UInt8}
    (hq : m.toDevice = sermuxForceSidChar :: rest) (n : Option ℕ) :
    (cmnRxHandler cfg cfg.sermuxPhysId sermuxForceSidChar m.device).2.delivered = [] ∧
      InOrder cfg { m with
        device := (cmnRxHandler cfg cfg.sermuxPhysId sermuxForceSidChar m.device).1
        toDevice := rest
        toHost := m.toHost ++
          (cmnRxHandler cfg cfg.sermuxPhysId sermuxForceSidChar m.device).2.sent.map Tx.byte
        deviceGot := m.deviceGot ++
          (cmnRxHandler cfg cfg.sermuxPhysId sermuxForceSidChar m.device).2.delivered
        deviceRepeat := n } := by
  have hreq : m.toHostLink.requests ≠ 0 := by simp [toHostLink, hq]
  obtain ⟨id, c, hid, hout, hlast⟩ := h.toHost.exists_last hreq
  have hout' : m.device.uartServiceIdOut = some id := hout
  have hlast' : m.device.uartLastSent = some (lastSentOf c) := hlast
  have hesc : sermuxForceSidChar ≠ sermuxEscapeChar := by decide
  have hsid : cfg.isVuart sermuxForceSidChar.toNat = false :=
    cfg.isVuart_eq_false (by decide)
  have hturn : cmnRxHandler cfg cfg.sermuxPhysId sermuxForceSidChar m.device =
      ({ m.device with uartLastSent := none },
        { sent := .serviceId id :: (lastSentOf c).tx }) := by
    simp [cmnRxHandler, hesc, hsid, hlast', hout']
  have hplain := plain_answer hid c
  rw [hturn]
  refine ⟨rfl, h.aborted_eq, h.forceDelivered_eq, ?_, ?_⟩
  · have key := h.toDevice
    have hcount := hplain.count_append m.toHost
    simp only [List.map_cons, tx_byte_serviceId] at hcount
    simpa [toDeviceLink, hcount, hq, -List.count_append] using key
  · have key := h.toHost.answer hreq hlast
    simpa only [toHostLink, Link.answer, hout', Option.getD_some, hq, List.count_cons_self,
      Nat.add_sub_cancel, hplain.filter_append] using key

/-! ### Runs -/

theorem isVuart_of_isLinkService {id : ℕ} (h : isLinkService cfg cmd id = true) :
    cfg.isVuart id = true := by
  simp only [isLinkService, Bool.and_eq_true] at h
  exact h.1

/-- **A careful step keeps both directions in order.** -/
theorem InOrder.step (h : m.InOrder cfg) {e : MuxEvent} (hcare : m.Careful e) {m' : Mux ρ}
    (hs : m.step cfg cmd server r₀ e = some m') : m'.InOrder cfg := by
  have hab : ¬ m.aborted = true := by simp [h.aborted_eq]
  unfold Mux.step at hs
  rw [if_neg hab] at hs
  cases e with
  | hostRespond =>
    cases hr : m.host.rfsResponse with
    | nil => simp [hr] at hs
    | cons c rest =>
      simp only [hr, Option.ite_none_right_eq_some, Option.some.injEq] at hs
      obtain ⟨hid, rfl⟩ := hs
      have key := h.hostSends hcare (isVuart_of_isLinkService hid) c
        (mainLoop cmd server none m.host).1 (by simp [mainLoop, hr, portByte])
        (by simp [mainLoop, hr, portByte]) (by simp [mainLoop, hr, portByte])
        (by simp [mainLoop, hr, portByte])
      simpa [hostTurn, mainLoop, hr, portByte, hostDelivered, sendTx, h.aborted_eq] using key
  | hostSend port c =>
    simp only [Option.ite_none_right_eq_some, Option.some.injEq] at hs
    obtain ⟨⟨hr, hid⟩, rfl⟩ := hs
    have key := h.hostSends hcare (isVuart_of_isLinkService hid) c
      (mainLoop cmd server (some (port + 1, c)) m.host).1 (by simp [mainLoop, hr, portByte])
      (by simp [mainLoop, hr, portByte]) (by simp [mainLoop, hr, portByte])
      (by simp [mainLoop, hr, portByte])
    simpa [hostTurn, mainLoop, hr, portByte, hostDelivered, sendTx, h.aborted_eq] using key
  | hostReceive =>
    cases hr : m.host.rfsResponse with
    | cons c' rest' => simp [hr] at hs
    | nil =>
      cases hq : m.toHost with
      | nil => simp [hr, hq] at hs
      | cons c rest =>
        simp only [hr, hq, Option.some.injEq] at hs
        subst hs
        simp only [hostTurn, mainLoop_transport hr]
        by_cases hc : c = sermuxForceSidChar
        · subst hc
          obtain ⟨hgot, key⟩ := h.hostAnswers cmd server hq (m.hostRepeat.or
            (if isRepeat (transportByte cmd server sermuxForceSidChar m.host).2.transport then
              some m.hostSent.length else none))
          simpa [hgot] using key
        · have hc' : (c == sermuxForceSidChar) = false := beq_eq_false_iff_ne.mpr hc
          simpa only [hc', Bool.false_and, Bool.or_false] using h.hostReceives cmd server hc hq _
  | deviceSend id c =>
    simp only [Option.ite_none_right_eq_some, Option.some.injEq] at hs
    obtain ⟨hid, rfl⟩ := hs
    exact h.deviceSends hcare (isVuart_of_isLinkService hid) c
  | deviceReceive =>
    cases hq : m.toDevice with
    | nil => simp [hq] at hs
    | cons c rest =>
      simp only [hq, Option.some.injEq] at hs
      subst hs
      by_cases hc : c = sermuxForceSidChar
      · subst hc
        obtain ⟨hgot, key⟩ := h.deviceAnswers hq (m.deviceRepeat.or
          (if isRepeat (cmnRxHandler cfg cfg.sermuxPhysId sermuxForceSidChar m.device).2.sent then
            some m.deviceSent.length else none))
        simpa [hgot] using key
      · have hc' : (c == sermuxForceSidChar) = false := beq_eq_false_iff_ne.mpr hc
        simpa only [hc', Bool.false_and, Bool.or_false] using h.deviceReceives hc hq _
  | restartHost =>
    obtain rfl := Option.some.inj hs
    exact ⟨h.aborted_eq, h.forceDelivered_eq, h.toDevice.restartSender hcare.2,
      h.toHost.restartReceiver (isVuart_range cfg) hcare.1⟩
  | restartDevice =>
    obtain rfl := Option.some.inj hs
    exact ⟨h.aborted_eq, h.forceDelivered_eq,
      h.toDevice.restartReceiver (isVuart_range cfg) hcare.1, h.toHost.restartSender hcare.2⟩

theorem inOrder_init (cfg : DeviceConfig) (r₀ : ρ) : InOrder cfg { host := { rfs := r₀ } } :=
  ⟨rfl, rfl, .init rfl, .init rfl⟩

/-- **Resynchronisation.** In every run whose steps are careful, no end aborts, no forced service ID
request is delivered as data, and both directions deliver what was sent. -/
theorem sound_of_careful (cfg : DeviceConfig) (cmd : Command) (server : RfsServer ρ) (r₀ : ρ)
    {m : Mux ρ}
    (h : Reach (Mux.step cfg cmd server r₀) Mux.Careful { host := { rfs := r₀ } } m) : m.Sound :=
  (h.invariant (inOrder_init cfg r₀) fun _ _ _ hm hcare hs => hm.step hcare hs).sound

instance (k : Link) : Decidable k.Quiet := inferInstanceAs (Decidable (_ ∧ _))

instance (k : Link) : Decidable k.CanLoseReceiver := inferInstanceAs (Decidable (_ ∨ _))

instance (m : Mux ρ) (e : MuxEvent) : Decidable (m.Careful e) :=
  match e with
  | .hostRespond | .hostSend _ _ => inferInstanceAs (Decidable m.toDeviceLink.Quiet)
  | .deviceSend _ _ => inferInstanceAs (Decidable m.toHostLink.Quiet)
  | .restartHost => inferInstanceAs (Decidable (_ ∧ _))
  | .restartDevice => inferInstanceAs (Decidable (_ ∧ _))
  | .hostReceive | .deviceReceive => inferInstanceAs (Decidable True)

/-- The step with one virtual UART, in `mux` mode. -/
def oneService : Mux Unit → MuxEvent → Option (Mux Unit) :=
  Mux.step ⟨0, 1, by decide⟩ ⟨false, false, 1⟩ noServer ()

/-- The host restarts with one byte of the device on its way, asks for it and gets it. -/
def carefulRestart : List MuxEvent :=
  [.deviceSend 0xD0 0x61, .hostReceive, .restartHost, .hostReceive, .deviceReceive, .hostReceive,
    .hostReceive]

theorem sound_of_careful_restart :
    ((runAll (guarded oneService Mux.Careful) carefulRestart { host := { rfs := () } }).get
      (by decide +kernel)).hostGot = [(0xD0, 0x61)] ∧
    ((runAll (guarded oneService Mux.Careful) carefulRestart { host := { rfs := () } }).get
      (by decide +kernel)).Sound :=
  ⟨by decide +kernel, sound_of_careful ⟨0, 1, by decide⟩ ⟨false, false, 1⟩ noServer () (reach_get _ _ _ _)⟩

/-- The host restarts with two bytes of the device on their way and asks for both; the device
answers the second request with a request of its own, which the host cannot answer. -/
def carelessRestart : List MuxEvent :=
  [.deviceSend 0xD0 0x61, .hostReceive, .deviceSend 0xD0 0x62, .restartHost, .hostReceive,
    .hostReceive, .deviceReceive, .deviceReceive, .hostReceive, .hostReceive, .hostReceive]

/-- **The host aborts.** Not every run is sound. -/
theorem not_sound_of_carelessRestart :
    ¬ ∀ m, Reach oneService (fun _ _ => True) { host := { rfs := () } } m → m.Sound := by
  intro h
  have hrun : (runAll (guarded oneService fun _ _ => True) carelessRestart
      { host := { rfs := () } }).isSome := by decide +kernel
  have habort : ((runAll (guarded oneService fun _ _ => True) carelessRestart
      { host := { rfs := () } }).get hrun).aborted = true := rfl
  exact absurd (h _ (reach_get _ _ _ hrun)).aborted_eq (by simp [habort])

end Mux

end ELuaBrain.Sermux
