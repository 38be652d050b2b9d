import ELuaBrain.Sermux.Device
import ELuaBrain.Sermux.Host

/-!
# The multiplexer round trip

Both ends of the serial multiplexer start without a service ID. The sender announces the service of
a byte when it differs from that of the byte before and escapes the special bytes; the receiver
undoes both. A sender and a receiver are *in step* when the receiver has the service ID that the
sender announced last and no escape is pending. Each byte sent keeps them in step and delivers
exactly itself, so a whole sequence is delivered as it was sent.

## Main definitions

* `IsService` : a service number that both ends know.
* `InStep` : the receiver's variables agree with the sender's.

## Main results

* `rxAll_tx`, `mainLoopAll_tx` : the two receivers on the bytes of one data byte.
* `mux_roundTrip` : both directions.
-/

namespace ELuaBrain.Sermux

variable {ρ : Type} {cfg : DeviceConfig} {cmd : Command} {server : RfsServer ρ}

/-- The number of a service that has a virtual UART on the device and a port on the host. -/
def IsService (cfg : DeviceConfig) (cmd : Command) (s : ℕ) : Prop :=
  s < cfg.sermuxNumVuart ∧ s < cmd.vportNum

/-- The receiver has the last service ID sent, if any was sent, and no escape is pending. -/
def InStep (idOut idIn : Option ℕ) (gotEsc : Bool) : Prop :=
  (∀ id, idOut = some id → idIn = some id) ∧ gotEsc = false

theorem DeviceConfig.isVuart_iff {id : ℕ} : cfg.isVuart id = true ↔
    sermuxServiceIdFirst ≤ id ∧ id < sermuxServiceIdFirst + cfg.sermuxNumVuart := by
  simp [DeviceConfig.isVuart]

theorem DeviceConfig.le_last_of_isVuart {id : ℕ} (h : cfg.isVuart id = true) :
    id ≤ sermuxServiceIdLast := by
  have h' := (cfg.isVuart_iff.mp h).2
  have hn := cfg.numVuart_le
  have hlast := sermuxServiceIdLast_eq
  omega

/-- A byte that is no service ID addresses no virtual UART. -/
theorem DeviceConfig.isVuart_eq_false {c : UInt8} (h : isServiceId c = false) :
    cfg.isVuart c.toNat = false := by
  by_contra hv
  rw [Bool.not_eq_false] at hv
  have h₁ := (cfg.isVuart_iff.mp hv).1
  have h₂ := cfg.le_last_of_isVuart hv
  simp [isServiceId, h₁, h₂] at h

theorem isVuart_of_isService {s : ℕ} (h : IsService cfg cmd s) :
    cfg.isVuart (sermuxServiceIdFirst + s) = true := by
  rw [DeviceConfig.isVuart_iff]
  have := h.1
  omega

/-! ### The device receives -/

theorem rxAll_append (u : ℕ) (cs cs' : List UInt8) (d : Device) :
    rxAll cfg u (cs ++ cs') d =
      ((rxAll cfg u cs' (rxAll cfg u cs d).1).1,
        ⟨(rxAll cfg u cs d).2.sent ++ (rxAll cfg u cs' (rxAll cfg u cs d).1).2.sent,
          (rxAll cfg u cs d).2.plain ++ (rxAll cfg u cs' (rxAll cfg u cs d).1).2.plain,
          (rxAll cfg u cs d).2.delivered ++
            (rxAll cfg u cs' (rxAll cfg u cs d).1).2.delivered⟩) := by
  induction cs generalizing d with
  | nil => rfl
  | cons c cs ih => simp only [List.cons_append, rxAll, ih, List.append_assoc]

theorem cmnRxHandler_serviceId {id : ℕ} (hid : cfg.isVuart id = true) (d : Device) :
    cmnRxHandler cfg cfg.sermuxPhysId (UInt8.ofNat id) d =
      ({ d with uartServiceIdIn := some id }, {}) := by
  have hlast := cfg.le_last_of_isVuart hid
  have hsid : isServiceId (UInt8.ofNat id) = true :=
    isServiceId_ofNat (cfg.isVuart_iff.mp hid).1 hlast
  simp [cmnRxHandler, ne_escapeChar_of_isServiceId hsid, toNat_ofNat_serviceId hlast, hid]

theorem cmnRxHandler_escape (d : Device) :
    cmnRxHandler cfg cfg.sermuxPhysId sermuxEscapeChar d = ({ d with uartGotEsc := true }, {}) := by
  simp [cmnRxHandler]

/-- A byte that is not special is data, flipped when an escape is pending. -/
theorem cmnRxHandler_data {c : UInt8} (hc : isSpecial c = false) (d : Device) :
    cmnRxHandler cfg cfg.sermuxPhysId c d =
      ({ d with uartGotEsc := false },
        match d.uartServiceIdIn with
        | none => { sent := [.forceSid] }
        | some id =>
            { delivered := [(id, if d.uartGotEsc then c ^^^ sermuxEscapeXorMask else c)] }) := by
  obtain ⟨h₁, h₂, h₃⟩ := isSpecial_eq_false_iff.mp hc
  simp only [cmnRxHandler, h₁, h₂, cfg.isVuart_eq_false h₃, ne_eq, not_false_eq_true, ↓reduceIte,
    Bool.false_eq_true, false_and]
  cases d.uartServiceIdIn <;> rfl

/-- The bytes of one data byte, received under a service ID, deliver that byte. -/
theorem rxAll_tx (cfg : DeviceConfig) {d : Device} {id : ℕ} (hid : d.uartServiceIdIn = some id)
    (hesc : d.uartGotEsc = false) (c : UInt8) :
    rxAll cfg cfg.sermuxPhysId ((lastSentOf c).tx.map Tx.byte) d =
      (d, { delivered := [(id, c)] }) := by
  obtain ⟨idIn, idOut, gotEsc, last⟩ := d
  obtain rfl : idIn = some id := hid
  obtain rfl : gotEsc = false := hesc
  cases hc : isSpecial c with
  | true =>
    have hb := not_isSpecial_xor hc
    simp [lastSentOf, hc, LastSent.tx, rxAll, cmnRxHandler_escape, cmnRxHandler_data hb]
  | false => simp [lastSentOf, hc, LastSent.tx, rxAll, cmnRxHandler_data hc]

/-- **One byte to the device.** In step with the sender, the device delivers the byte on its
service, answers nothing, and stays in step. -/
theorem rxAll_sendTx (cfg : DeviceConfig) {idOut : Option ℕ} {d : Device} {id : ℕ}
    (hs : InStep idOut d.uartServiceIdIn d.uartGotEsc) (hid : cfg.isVuart id = true) (c : UInt8) :
    rxAll cfg cfg.sermuxPhysId ((sendTx idOut id c).map Tx.byte) d =
      ({ d with uartServiceIdIn := some id }, { delivered := [(id, c)] }) := by
  obtain ⟨hin, hesc⟩ := hs
  by_cases h : some id = idOut
  · have hd : d.uartServiceIdIn = some id := hin id h.symm
    have hd' : { d with uartServiceIdIn := some id } = d := by rw [← hd]
    simp only [sendTx, h, ne_eq, not_true_eq_false, ↓reduceIte, List.nil_append]
    rw [rxAll_tx cfg hd hesc, ← h, hd']
  · have key := rxAll_tx cfg (d := { d with uartServiceIdIn := some id }) rfl hesc c
    simp [sendTx, h, rxAll, cmnRxHandler_serviceId hid, key]

/-! ### The host receives -/

/-- The host selects the transport for each of the bytes `cs`. -/
def fromTransport (cs : List UInt8) : List (Option (ℕ × UInt8)) := cs.map fun c => some (0, c)

theorem mainLoop_transport {h : Host ρ} (hr : h.rfsResponse = []) (c : UInt8) :
    mainLoop cmd server (some (0, c)) h = transportByte cmd server c h := by
  simp [mainLoop, hr]

theorem mainLoopAll_append (sels sels' : List (Option (ℕ × UInt8))) (h : Host ρ)
    (ha : (mainLoopAll cmd server sels h).2.aborted = false) :
    mainLoopAll cmd server (sels ++ sels') h =
      ((mainLoopAll cmd server sels' (mainLoopAll cmd server sels h).1).1,
        ⟨(mainLoopAll cmd server sels h).2.transport ++
            (mainLoopAll cmd server sels' (mainLoopAll cmd server sels h).1).2.transport,
          (mainLoopAll cmd server sels h).2.ports ++
            (mainLoopAll cmd server sels' (mainLoopAll cmd server sels h).1).2.ports,
          (mainLoopAll cmd server sels h).2.rfsReads ++
            (mainLoopAll cmd server sels' (mainLoopAll cmd server sels h).1).2.rfsReads,
          (mainLoopAll cmd server sels' (mainLoopAll cmd server sels h).1).2.aborted⟩) := by
  induction sels generalizing h with
  | nil => rfl
  | cons sel sels ih =>
    by_cases h₁ : (mainLoop cmd server sel h).2.aborted = true
    · simp [mainLoopAll, h₁] at ha
    · simp only [mainLoopAll, h₁, Bool.false_eq_true, ↓reduceIte] at ha
      simp only [List.cons_append, mainLoopAll, h₁, Bool.false_eq_true, ↓reduceIte, ih _ ha,
        List.append_assoc]

theorem transportByte_serviceId {id : ℕ} (h₁ : sermuxServiceIdFirst ≤ id)
    (h₂ : id ≤ sermuxServiceIdLast) (h : Host ρ) :
    transportByte cmd server (UInt8.ofNat id) h = ({ h with serviceIdIn := some id }, {}) := by
  have hsid := isServiceId_ofNat h₁ h₂
  simp [transportByte, ne_escapeChar_of_isServiceId hsid, hsid, toNat_ofNat_serviceId h₂]

theorem transportByte_escape (h : Host ρ) :
    transportByte cmd server sermuxEscapeChar h = ({ h with gotEsc := true }, {}) := by
  simp [transportByte]

/-- In `mux` mode a byte that is not special, and escaped only if it has to be, is data. -/
theorem transportByte_data (server : RfsServer ρ) (hmux : cmd.rfsmux = false) {c : UInt8}
    (hc : isSpecial c = false) {h : Host ρ}
    (hesc : h.gotEsc = true → isSpecial (c ^^^ sermuxEscapeXorMask) = true) :
    transportByte cmd server c h =
      ({ h with gotEsc := false },
        match h.serviceIdIn with
        | none => { transport := [.forceSid] }
        | some id => { ports := [((id : ℤ) - sermuxServiceIdFirst,
            if h.gotEsc then c ^^^ sermuxEscapeXorMask else c)] }) := by
  obtain ⟨h₁, h₂, h₃⟩ := isSpecial_eq_false_iff.mp hc
  have hok : (h.gotEsc &&
      !isSpecial (if h.gotEsc = true then c ^^^ sermuxEscapeXorMask else c)) = false := by
    cases he : h.gotEsc with
    | false => rfl
    | true => simp [hesc he]
  simp only [transportByte, h₁, h₂, h₃, ne_eq, not_false_eq_true, ↓reduceIte, Bool.false_eq_true,
    hok, Command.rfsServiceId, Command.serviceOffset, hmux]
  cases h.serviceIdIn <;> simp

/-- The bytes of one data byte, received under a service ID, go to the port of that service. -/
theorem mainLoopAll_tx (server : RfsServer ρ) (hmux : cmd.rfsmux = false) {h : Host ρ} {id : ℕ}
    (hid : h.serviceIdIn = some id) (hesc : h.gotEsc = false) (hr : h.rfsResponse = [])
    (c : UInt8) :
    mainLoopAll cmd server (fromTransport ((lastSentOf c).tx.map Tx.byte)) h =
      (h, { ports := [((id : ℤ) - sermuxServiceIdFirst, c)] }) := by
  obtain ⟨idIn, idOut, prev, gotEsc, response, r⟩ := h
  obtain rfl : idIn = some id := hid
  obtain rfl : gotEsc = false := hesc
  obtain rfl : response = [] := hr
  cases hc : isSpecial c with
  | true =>
    have hc' : isSpecial (c ^^^ sermuxEscapeXorMask ^^^ sermuxEscapeXorMask) = true := by
      rwa [xor_mask_xor_mask]
    have key := transportByte_data server hmux (not_isSpecial_xor hc)
      (h := ⟨some id, idOut, prev, true, [], r⟩) fun _ => hc'
    simp [lastSentOf, hc, fromTransport, LastSent.tx, mainLoopAll, mainLoop_transport,
      transportByte_escape, key]
  | false =>
    have key := transportByte_data server hmux hc
      (h := ⟨some id, idOut, prev, false, [], r⟩) (by simp)
    simp [lastSentOf, hc, fromTransport, LastSent.tx, mainLoopAll, mainLoop_transport, key]

/-- **One byte to the host.** In step with the sender, the host writes the byte to the port of its
service, answers nothing, and stays in step. -/
theorem mainLoopAll_sendTx (server : RfsServer ρ) (hmux : cmd.rfsmux = false) {idOut : Option ℕ}
    {h : Host ρ} {id : ℕ} (hs : InStep idOut h.serviceIdIn h.gotEsc) (hr : h.rfsResponse = [])
    (h₁ : sermuxServiceIdFirst ≤ id) (h₂ : id ≤ sermuxServiceIdLast) (c : UInt8) :
    mainLoopAll cmd server (fromTransport ((sendTx idOut id c).map Tx.byte)) h =
      ({ h with serviceIdIn := some id }, { ports := [((id : ℤ) - sermuxServiceIdFirst, c)] }) := by
  obtain ⟨hin, hesc⟩ := hs
  by_cases hid : some id = idOut
  · have hd : h.serviceIdIn = some id := hin id hid.symm
    have hd' : { h with serviceIdIn := some id } = h := by rw [← hd]
    simp only [sendTx, hid, ne_eq, not_true_eq_false, ↓reduceIte, List.nil_append]
    rw [mainLoopAll_tx server hmux hd hesc hr, ← hid, hd']
  · have key := mainLoopAll_tx server hmux (h := { h with serviceIdIn := some id }) rfl
      hesc hr c
    simp only [sendTx, hid, ne_eq, not_false_eq_true, ↓reduceIte, List.cons_append,
      List.nil_append, List.map_cons, tx_byte_serviceId, fromTransport, mainLoopAll,
      mainLoop_transport hr, transportByte_serviceId h₁ h₂, Bool.false_eq_true] at key ⊢
    rw [key]

/-! ### Whole sequences -/

/-- The host selects, for each message, the port of its service. -/
def fromPorts (msgs : List (ℕ × UInt8)) : List (Option (ℕ × UInt8)) :=
  msgs.map fun m => some (m.1 + 1, m.2)

/-- The messages as the device names them, by the number of the virtual UART. -/
def vuartMessages (msgs : List (ℕ × UInt8)) : List (ℕ × UInt8) :=
  msgs.map fun m => (sermuxServiceIdFirst + m.1, m.2)

theorem mainLoop_port (hmux : cmd.rfsmux = false) {h : Host ρ} (hr : h.rfsResponse = [])
    (s : ℕ) (c : UInt8) :
    mainLoop cmd server (some (s + 1, c)) h =
      ({ h with
          serviceIdOut := some (sermuxServiceIdFirst + s), prevSent := some (lastSentOf c) },
        { transport := sendTx h.serviceIdOut (sermuxServiceIdFirst + s) c }) := by
  have hid : sourceId cmd (some (s + 1)) = sermuxServiceIdFirst + s := by
    simp only [sourceId, Command.serviceOffset, hmux, Bool.false_eq_true, ↓reduceIte]
    omega
  simp only [mainLoop, hr, portByte, hid, sendTx]

/-- **Host to device.** -/
theorem host_to_device (server : RfsServer ρ) (hmux : cmd.rfsmux = false) (msgs : List (ℕ × UInt8))
    (hm : ∀ m ∈ msgs, IsService cfg cmd m.1) (h : Host ρ) (d : Device)
    (hr : h.rfsResponse = []) (hs : InStep h.serviceIdOut d.uartServiceIdIn d.uartGotEsc) :
    (mainLoopAll cmd server (fromPorts msgs) h).2.aborted = false ∧
      (rxAll cfg cfg.sermuxPhysId
        ((mainLoopAll cmd server (fromPorts msgs) h).2.transport.map Tx.byte) d).2 =
        { delivered := vuartMessages msgs } := by
  induction msgs generalizing h d with
  | nil => exact ⟨rfl, rfl⟩
  | cons m msgs ih =>
    have hv := isVuart_of_isService (hm m List.mem_cons_self)
    have hrx := rxAll_sendTx cfg hs hv m.2
    obtain ⟨iha, ihd⟩ := ih (fun m' hm' => hm m' (List.mem_cons_of_mem _ hm'))
      { h with
        serviceIdOut := some (sermuxServiceIdFirst + m.1), prevSent := some (lastSentOf m.2) }
      { d with uartServiceIdIn := some (sermuxServiceIdFirst + m.1) } hr ⟨fun _ h => h, hs.2⟩
    simp only [fromPorts] at iha ihd
    simp only [fromPorts, List.map_cons, mainLoopAll, mainLoop_port hmux hr, Bool.false_eq_true,
      ↓reduceIte, List.map_append, rxAll_append, hrx, ihd]
    exact ⟨iha, by simp [vuartMessages]⟩

/-- **Device to host.** -/
theorem device_to_host (server : RfsServer ρ) (hmux : cmd.rfsmux = false) (msgs : List (ℕ × UInt8))
    (hm : ∀ m ∈ msgs, IsService cfg cmd m.1) (d : Device) (h : Host ρ)
    (hr : h.rfsResponse = []) (hs : InStep d.uartServiceIdOut h.serviceIdIn h.gotEsc) :
    (mainLoopAll cmd server
      (fromTransport ((sendAll cfg (vuartMessages msgs) d).2.map Tx.byte)) h).2 =
      { ports := msgs.map fun m => ((m.1 : ℤ), m.2) } := by
  induction msgs generalizing h d with
  | nil => rfl
  | cons m msgs ih =>
    have hv := isVuart_of_isService (hm m List.mem_cons_self)
    have hsend : platformUartSend cfg (sermuxServiceIdFirst + m.1) m.2 d =
        ({ d with
            uartServiceIdOut := some (sermuxServiceIdFirst + m.1),
            uartLastSent := some (lastSentOf m.2) },
          { sent := sendTx d.uartServiceIdOut (sermuxServiceIdFirst + m.1) m.2 }) := by
      simp only [platformUartSend, hv, ↓reduceIte, sendTx]
    have hrx := mainLoopAll_sendTx server hmux hs hr (cfg.isVuart_iff.mp hv).1
      (cfg.le_last_of_isVuart hv) m.2
    have ih' := ih (fun m' hm' => hm m' (List.mem_cons_of_mem _ hm'))
      { d with
        uartServiceIdOut := some (sermuxServiceIdFirst + m.1),
        uartLastSent := some (lastSentOf m.2) }
      { h with serviceIdIn := some (sermuxServiceIdFirst + m.1) } hr ⟨fun _ h => h, hs.2⟩
    simp only [vuartMessages, fromTransport] at ih' hrx
    simp only [vuartMessages, fromTransport, List.map_cons, sendAll, hsend, List.map_append]
    have hport : ((sermuxServiceIdFirst + m.1 : ℕ) : ℤ) - sermuxServiceIdFirst = m.1 := by omega
    rw [mainLoopAll_append _ _ _ (by rw [hrx]), hrx, ih', hport]
    rfl

/-- **The multiplexer round trip.** Started without a service ID, in `mux` mode, the bytes that
the host sends for a sequence of messages make the device deliver exactly these messages, in order,
on their virtual UARTs, and send nothing; and the bytes that the device sends for a sequence of
messages make the host write exactly these messages, in order, to the ports of their services,
send nothing and report no error. -/
theorem mux_roundTrip (cfg : DeviceConfig) (cmd : Command) (server : RfsServer ρ) (r : ρ)
    (hmux : cmd.rfsmux = false) (msgs msgs' : List (ℕ × UInt8))
    (hm : ∀ m ∈ msgs, IsService cfg cmd m.1) (hm' : ∀ m ∈ msgs', IsService cfg cmd m.1) :
    (rxAll cfg cfg.sermuxPhysId
        ((mainLoopAll cmd server (fromPorts msgs) { rfs := r }).2.transport.map Tx.byte) {}).2 =
        { delivered := vuartMessages msgs } ∧
      (mainLoopAll cmd server (fromPorts msgs) { rfs := r }).2.aborted = false ∧
      (mainLoopAll cmd server
        (fromTransport ((sendAll cfg (vuartMessages msgs') {}).2.map Tx.byte)) { rfs := r }).2 =
        { ports := msgs'.map fun m => ((m.1 : ℤ), m.2) } := by
  have h := host_to_device server hmux msgs hm { rfs := r } {} rfl
    ⟨by simp, rfl⟩
  exact ⟨h.2, h.1, device_to_host server hmux msgs' hm' {} { rfs := r } rfl ⟨by simp, rfl⟩⟩

theorem mux_roundTrip_two_services :
    (rxAll ⟨0, 2, by decide⟩ 0
        ((mainLoopAll ⟨false, false, 2⟩ noServer (fromPorts [(0, 0xC0), (1, 0x41)])
          { rfs := () }).2.transport.map Tx.byte) {}).2 =
        { delivered := vuartMessages [(0, 0xC0), (1, 0x41)] } ∧
      (mainLoopAll ⟨false, false, 2⟩ noServer (fromPorts [(0, 0xC0), (1, 0x41)])
        { rfs := () }).2.aborted = false ∧
      (mainLoopAll ⟨false, false, 2⟩ noServer
        (fromTransport ((sendAll ⟨0, 2, by decide⟩ (vuartMessages [(1, 0xFF)]) {}).2.map Tx.byte))
        { rfs := () }).2 = { ports := [(1, 0xFF)] } :=
  mux_roundTrip ⟨0, 2, by decide⟩ ⟨false, false, 2⟩ noServer () rfl [(0, 0xC0), (1, 0x41)]
    [(1, 0xFF)] (by simp [IsService]) (by simp [IsService])

end ELuaBrain.Sermux
