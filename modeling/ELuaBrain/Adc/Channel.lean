import ELuaBrain.Device.Buffer

/-!
# The channels of the ADC

The code of `elua_adc.c` for one channel, the part of the interrupt handlers of the platforms that
is about one channel, and `adc.setsmoothing`. Nothing interrupts a function. The bytes of a sample
are in one order in memory, which does not matter.

## Main definitions

* `AdcChState` : the state of a channel.
* `adcUpdateSmoothing`, `adcSmoothData`, `adcGetProcessedSample` : the functions.
* `AdcChState.step` : what may happen.
-/

namespace ELuaBrain.Adc

open Device

/-- `elua_adc_ch_state`, with what `value_ptr` points to, the buffer of the channel, and the samples
that were taken since the last change of the length. -/
structure AdcChState where
  opPending : Bool := false
  freerunning : Bool := false
  smoothReady : Bool := false
  valueFresh : Bool := false
  logsmoothlen : UInt8 := 0
  smoothidx : UInt16 := 0
  smoothsum : UInt32 := 0
  smoothbuf : Option (List UInt16) := none
  reqsamples : UInt16 := 0
  value : UInt16 := 0
  buffer : BufDesc := {}
  taken : List UInt16 := []

/-- What may happen. -/
inductive AdcEvent where
  /-- `adc_init_ch_state`. -/
  | initChannel (mem : Option (ℕ → UInt8))
  /-- `adc_setup_channel`, by `adc.sample`. -/
  | setupChannel (logcount : UInt8) (mem : Option (ℕ → UInt8))
  | setFreerunning (mode : Bool)
  /-- The channel in the interrupt handler. -/
  | interrupt (sample : UInt16)
  /-- `adc.setsmoothing`. -/
  | setsmoothing (length : UInt32) (mem : Option (ℕ → UInt16))
  /-- `adc_get_processed_sample`. -/
  | getProcessedSample

/-- `intlog2`. -/
def intlog2 (v : UInt32) : ℕ := Nat.log2 v.toNat

/-- `ADC_BUF_SIZE`. -/
def adcBufSize : ℕ := 1

/-- The bytes of a sample in memory. -/
def sampleBytes (sample : UInt16) (i : ℕ) : UInt8 :=
  if i = 0 then sample.toUInt8 else (sample >>> 8).toUInt8

/-- A sample with these bytes. -/
def bytesSample (bytes : List UInt8) : UInt16 :=
  (bytes.getD 0 0).toUInt16 ||| (bytes.getD 1 0).toUInt16 <<< 8

namespace AdcChState

variable (bufEnable : Bool) (s : AdcChState)

/-- `SMOOTH_REALSIZE`; a shift of an `int` by 31 or more is undefined. -/
def smoothRealsize : ℕ := 2 ^ s.logsmoothlen.toNat

/-- `platform_adc_stop`. -/
def platformAdcStop : AdcChState := { s with opPending := false }

/-- `adc_samples_available`. -/
def adcSamplesAvailable : UInt16 :=
  let fresh := if s.valueFresh then 1 else 0
  if bufEnable then
    let bufferCount := UInt16.ofNat s.buffer.bufGetCount
    if bufferCount = 0 then fresh else bufferCount
  else fresh

/-- A sample is read from `value_ptr` or the buffer; `sample` has the value `old` before. -/
def readSample (old : Option UInt16) : Option (AdcChState × UInt16) :=
  if bufEnable = false ∨ s.valueFresh then some ({ s with valueFresh := false }, s.value)
  else do
    let (b, bytes) ← s.buffer.bufRead
    let sample ← (bytes.map bytesSample).or old
    return ({ s with buffer := b }, sample)

/-- The index is wrapped. -/
def wrapIdx : AdcChState :=
  if s.smoothidx.toNat = s.smoothRealsize then { s with smoothidx := 0, smoothReady := true } else s

/-- A sample goes into the smoothing buffer. -/
def smooth (sample : UInt16) : Option AdcChState :=
  let s := s.wrapIdx
  match s.smoothbuf with
  | none => none
  | some b =>
      if h : s.smoothidx.toNat < b.length then
        some { s with
          smoothbuf := some (b.set s.smoothidx.toNat sample)
          smoothsum := s.smoothsum - b[s.smoothidx.toNat].toUInt32 + sample.toUInt32
          smoothidx := s.smoothidx + 1
          taken := s.taken ++ [sample] }
      else none

/-- `adc_smooth_data`. -/
def adcSmoothData : Option AdcChState := do
  let (s, sample) ← s.readSample bufEnable none
  s.smooth sample

/-- `adc_get_processed_sample`. -/
def adcGetProcessedSample : Option (AdcChState × UInt16) :=
  if s.adcSamplesAvailable bufEnable > 0 then
    if s.logsmoothlen > 0 ∧ s.smoothReady then do
      let s ← s.adcSmoothData bufEnable
      let s := if s.reqsamples > 0 then { s with reqsamples := s.reqsamples - 1 } else s
      return (s, (s.smoothsum >>> s.logsmoothlen.toUInt32).toUInt16)
    else if s.logsmoothlen = 0 then do
      let (s, sample) ← s.readSample bufEnable (some 0)
      let s := { s with taken := s.taken ++ [sample] }
      return (if s.reqsamples > 0 then { s with reqsamples := s.reqsamples - 1 } else s, sample)
    else some (s, 0)
  else some (s, 0)

/-- `adc_flush_smoothing`; the index of the loop has 16 bits. -/
def adcFlushSmoothing : Option AdcChState :=
  let s := { s with smoothidx := 0, smoothsum := 0, smoothReady := false, taken := [] }
  if s.logsmoothlen > 0 then
    match s.smoothbuf with
    | none => none
    | some b =>
        if s.smoothRealsize ≤ b.length then
          some { s with
            smoothbuf :=
              some ((List.range s.smoothRealsize).foldl (fun b i => b.set (i % 65536) 0) b) }
        else none
  else some s

/-- The smoothing buffer after `realloc`. -/
def reallocSmoothbuf (fresh : ℕ → UInt16) : List UInt16 :=
  (List.range s.smoothRealsize).map fun i => ((s.smoothbuf.getD [])[i]?).getD (fresh i)

/-- The end of `adc_update_smoothing`. -/
def flush : Option (AdcChState × Bool) := do
  let s ← s.adcFlushSmoothing
  return (if bufEnable then { s with buffer := s.buffer.bufFlush } else s, true)

/-- `adc_update_smoothing`; `mem` is `none` if `realloc` returns `NULL`, and else what is in the
memory behind the old contents. False stands for `PLATFORM_ERR`. -/
def adcUpdateSmoothing (loglen : UInt8) (mem : Option (ℕ → UInt16)) :
    Option (AdcChState × Bool) :=
  let s := if s.opPending then s.platformAdcStop else s
  if loglen ≠ s.logsmoothlen then
    if 31 ≤ loglen then none
    else
      let s := { s with logsmoothlen := loglen }
      match mem with
      | some fresh => { s with smoothbuf := some (s.reallocSmoothbuf fresh) }.flush bufEnable
      | none =>
          let s := { s with
            smoothbuf := none
            logsmoothlen := 0
            smoothidx := 0
            smoothReady := false
            smoothsum := 0
            taken := [] }
          if loglen ≠ 0 then some (s, false) else s.flush bufEnable
  else s.flush bufEnable

/-- `adc.setsmoothing`, which refuses a length that is no power of 2. -/
def adcSetsmoothing (length : UInt32) (mem : Option (ℕ → UInt16)) : Option AdcChState :=
  if length &&& (length - 1) = 0 then
    (s.adcUpdateSmoothing bufEnable (UInt8.ofNat (intlog2 length)) mem).map Prod.fst
  else some s

/-- `adc_init_ch_state`. -/
def adcInitChState (mem : Option (ℕ → UInt8)) : Option AdcChState := do
  let s := { s with
    opPending := false
    smoothReady := false
    reqsamples := 0
    freerunning := false
    logsmoothlen := 0
    smoothidx := 0
    smoothsum := 0
    taken := [] }
  if bufEnable then
    let (b, _) ← s.buffer.bufSet adcBufSize .u16 mem
    return { s with buffer := b }
  else return s

/-- `adc_setup_channel`; a shift of an `int` by 31 or more is undefined. -/
def adcSetupChannel (logcount : UInt8) (mem : Option (ℕ → UInt8)) : Option AdcChState :=
  if 31 ≤ logcount then none
  else
    let start (s : AdcChState) : AdcChState :=
      { s with reqsamples := UInt16.ofNat (2 ^ logcount.toNat), opPending := true }
    if bufEnable ∧ 2 ^ logcount.toNat ≠ s.buffer.bufGetSize then do
      let (b, ok) ← s.buffer.bufSet logcount.toNat .u16 mem
      return if ok then start { s with buffer := b.bufFlush } else { s with buffer := b }
    else some (start s)

/-- A new sample fills the smoothing buffer, or goes into the buffer. -/
def storeSample : Option AdcChState :=
  if s.logsmoothlen > 0 ∧ s.smoothReady = false then s.adcSmoothData bufEnable
  else if bufEnable ∧ s.reqsamples > 1 then do
    let (b, _) ← s.buffer.bufWrite (sampleBytes s.value)
    return { s with buffer := b, valueFresh := false }
  else some s

/-- The interrupt handler, for a channel with a new sample. -/
def interrupt (sample : UInt16) : Option AdcChState := do
  let s ← { s with value := sample, valueFresh := true }.storeSample bufEnable
  return if s.adcSamplesAvailable bufEnable ≥ s.reqsamples ∧ s.freerunning = false then
    s.platformAdcStop else s

/-- One event. -/
def step : AdcEvent → Option AdcChState
  | .initChannel mem => s.adcInitChState bufEnable mem
  | .setupChannel logcount mem => s.adcSetupChannel bufEnable logcount mem
  | .setFreerunning mode => some { s with freerunning := mode }
  | .interrupt sample => s.interrupt bufEnable sample
  | .setsmoothing length mem => s.adcSetsmoothing bufEnable length mem
  | .getProcessedSample => (s.adcGetProcessedSample bufEnable).map Prod.fst

end AdcChState

end ELuaBrain.Adc
