import ELuaBrain.Sermux.Protocol

/-!
# The device end of the serial multiplexer

The multiplexer code of `src/common_uart.c` when `BUILD_SERMUX` is defined: `cmn_rx_handler`, which
the receive interrupt calls for each byte of the physical UART, and `platform_uart_send`. A call
to `buf_write` is recorded as a delivery to the UART it names.

## Main definitions

* `DeviceConfig` : the build configuration; at most `SERMUX_SERVICE_MAX` virtual UARTs.
* `Device` : the static variables of the file.
* `cmnRxHandler`, `platformUartSend`.
-/

namespace ELuaBrain.Sermux

/-- The macros of the platform configuration. The manual limits the number of virtual UARTs to
the number of service IDs. -/
structure DeviceConfig where
  /-- `SERMUX_PHYS_ID`. -/
  sermuxPhysId : ℕ
  /-- `SERMUX_NUM_VUART`. -/
  sermuxNumVuart : ℕ
  numVuart_le : sermuxNumVuart ≤ sermuxServiceMax

/-- `uart_service_id_in`, `uart_service_id_out`, `uart_got_esc` and `uart_last_sent`; `none` stands
for `-1`. -/
structure Device where
  uartServiceIdIn : Option ℕ := none
  uartServiceIdOut : Option ℕ := none
  uartGotEsc : Bool := false
  uartLastSent : Option LastSent := none
  deriving DecidableEq, Repr

/-- What a call of the device does outside its own variables. -/
structure DeviceOut where
  /-- The bytes for `SERMUX_PHYS_ID` given to `platform_s_uart_send`. -/
  sent : List Tx := []
  /-- The bytes given to `platform_s_uart_send` for a UART that is not multiplexed. -/
  plain : List (ℕ × UInt8) := []
  /-- The bytes given to `buf_write`, with the number of the UART. -/
  delivered : List (ℕ × UInt8) := []
  deriving DecidableEq, Repr

variable (cfg : DeviceConfig)

/-- The number of a virtual UART. -/
def DeviceConfig.isVuart (id : ℕ) : Bool :=
  sermuxServiceIdFirst ≤ id && id < sermuxServiceIdFirst + cfg.sermuxNumVuart

/-- `cmn_rx_handler`. -/
def cmnRxHandler (usartId : ℕ) (data : UInt8) (d : Device) : Device × DeviceOut :=
  if usartId = cfg.sermuxPhysId then
    if data ≠ sermuxEscapeChar then
      if cfg.isVuart data.toNat then
        ({ d with uartServiceIdIn := some data.toNat }, {})
      else if data = sermuxForceSidChar ∧ d.uartLastSent.isSome then
        -- retransmit the service ID and the last char
        ({ d with uartLastSent := none },
          { sent := .serviceId (d.uartServiceIdOut.getD 0xFF) ::
              (d.uartLastSent.map LastSent.tx).getD [] })
      else
        -- also reached by a forced service ID request when nothing was sent
        let data := if d.uartGotEsc then data ^^^ sermuxEscapeXorMask else data
        let d := { d with uartGotEsc := false }
        match d.uartServiceIdIn with
        | none => (d, { sent := [.forceSid] })
        | some id => (d, { delivered := [(id, data)] })
    else ({ d with uartGotEsc := true }, {})
  else (d, { delivered := [(usartId, data)] })

/-- `platform_uart_send`. -/
def platformUartSend (id : ℕ) (data : UInt8) (d : Device) : Device × DeviceOut :=
  if cfg.isVuart id then
    let last := lastSentOf data
    ({ d with uartServiceIdOut := some id, uartLastSent := some last },
      { sent := (if some id ≠ d.uartServiceIdOut then [.serviceId id] else []) ++ last.tx })
  else (d, { plain := [(id, data)] })

/-- The device after a sequence of received bytes, with all it sent and delivered meanwhile. -/
def rxAll (usartId : ℕ) : List UInt8 → Device → Device × DeviceOut
  | [], d => (d, {})
  | c :: cs, d =>
      let (d₁, o₁) := cmnRxHandler cfg usartId c d
      let (d₂, o₂) := rxAll usartId cs d₁
      (d₂, ⟨o₁.sent ++ o₂.sent, o₁.plain ++ o₂.plain, o₁.delivered ++ o₂.delivered⟩)

/-- The device after a sequence of sends `(id, data)`, with the bytes for the physical UART. -/
def sendAll : List (ℕ × UInt8) → Device → Device × List Tx
  | [], d => (d, [])
  | m :: ms, d =>
      let (d₁, o₁) := platformUartSend cfg m.1 m.2 d
      let (d₂, o₂) := sendAll ms d₁
      (d₂, o₁.sent ++ o₂)

end ELuaBrain.Sermux
