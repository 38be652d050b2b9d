import ELuaBrain.Sermux.Host

/-!
# The services of the host multiplexer

The service IDs that the main loop emits and the indices that it uses into `services`, over all
runs after an accepted command line. The argument check counts the service ports alone, so in
`rfsmux` mode, where the service of the remote file system comes first, an eighth port has the ID
after `SERMUX_SERVICE_ID_LAST`; and the service ID that the device selects is never compared
with the number of ports. Both are met by a run as soon as the byte in question arrives, so a run is
sound exactly when none of its steps takes such a byte.

## Main definitions

* `ServiceRun` : the main loop with what it emitted and indexed so far.
* `ServiceRun.Sound` : the bounds on both.
* `Known` : the condition on a byte.

## Main results

* `sourceId_injective` : different sources have different service IDs.
* `services_sound_iff` : a run is sound if and only if it is a run of known bytes.
-/

namespace ELuaBrain.Sermux

variable {ρ : Type} {cmd : Command} {server : RfsServer ρ}

/-- The main loop, the service IDs that it emitted and the indices into `services` that it used. -/
structure ServiceRun (ρ : Type) where
  host : Host ρ
  emitted : List ℕ := []
  indices : List ℤ := []
  aborted : Bool := false

/-- The service IDs among calls of `transport_send_byte`. -/
def serviceIds (ts : List Tx) : List ℕ :=
  ts.filterMap fun
    | .serviceId id => some id
    | _ => none

/-- A source of bytes: one of the ports, or in `rfsmux` mode the remote file system. -/
def IsSource (cmd : Command) : Option ℕ → Prop
  | none => cmd.rfsmux = true
  | some i => 1 ≤ i ∧ i ≤ cmd.vportNum

namespace ServiceRun

/-- One iteration of the main loop; `ser_select_byte` selects one of the transport and the ports. -/
def step (cmd : Command) (server : RfsServer ρ) (s : ServiceRun ρ) (sel : Option (ℕ × UInt8)) :
    Option (ServiceRun ρ) :=
  if s.aborted ∨ ∃ i ∈ sel, cmd.vportNum < i.1 then none
  else
    let t := mainLoop cmd server sel s.host
    some ⟨t.1, s.emitted ++ serviceIds t.2.transport, s.indices ++ t.2.ports.map Prod.fst,
      t.2.aborted⟩

/-- Every service ID emitted is one, different sources have different ones, and every index is that
of a port. -/
structure Sound (cmd : Command) (s : ServiceRun ρ) : Prop where
  sources_ne : ∀ a b, IsSource cmd a → IsSource cmd b → sourceId cmd a = sourceId cmd b → a = b
  emitted_range : ∀ id ∈ s.emitted, sermuxServiceIdFirst ≤ id ∧ id ≤ sermuxServiceIdLast
  indices_range : ∀ i ∈ s.indices, 0 ≤ i ∧ i < cmd.vportNum

end ServiceRun

/-- The condition on the byte that comes next: in `rfsmux` mode it is not from the eighth port, and
a data byte of the transport comes while the selected service is that of the remote file system or
of a port. -/
def Known (cmd : Command) (s : ServiceRun ρ) (sel : Option (ℕ × UInt8)) : Prop :=
  s.host.rfsResponse = [] →
    match sel with
    | none => True
    | some (0, c) =>
        isSpecial c = false → WellEscaped s.host.gotEsc c →
          ∀ id, s.host.serviceIdIn = some id →
            id < sermuxServiceIdFirst + cmd.serviceOffset + cmd.vportNum
    | some (i + 1, _) => cmd.rfsmux = true → i + 1 < sermuxServiceMax

/-! ### Sources -/

/-- **Different sources have different service IDs.** -/
theorem sourceId_injective {a b : Option ℕ} (ha : IsSource cmd a) (hb : IsSource cmd b)
    (h : sourceId cmd a = sourceId cmd b) : a = b := by
  have hoff : cmd.rfsmux = true → cmd.serviceOffset = 1 := by
    intro hr
    simp [Command.serviceOffset, hr]
  match a, b with
  | none, none => rfl
  | some i, none =>
    have hi := ha.1
    have ho := hoff hb
    simp only [sourceId] at h
    omega
  | none, some i =>
    have hi := hb.1
    have ho := hoff ha
    simp only [sourceId] at h
    omega
  | some i, some j =>
    have hi := ha.1
    have hj := hb.1
    simp only [sourceId] at h
    congr 1
    omega

/-! ### One step -/

@[simp] theorem serviceIds_append (ts ts' : List Tx) :
    serviceIds (ts ++ ts') = serviceIds ts ++ serviceIds ts' := by
  simp [serviceIds]

@[simp] theorem serviceIds_tx (p : LastSent) : serviceIds p.tx = [] := by
  simp only [LastSent.tx]
  split <;> rfl

theorem serviceIds_portByte (src : Option ℕ) (c : UInt8) (h : Host ρ) :
    serviceIds (portByte cmd src c h).2.transport =
      if some (sourceId cmd src) ≠ h.serviceIdOut then [sourceId cmd src] else [] := by
  simp only [portByte, serviceIds_append, serviceIds_tx, List.append_nil]
  split <;> rfl

theorem isServiceId_range {c : UInt8} (h : isServiceId c = true) :
    sermuxServiceIdFirst ≤ c.toNat ∧ c.toNat ≤ sermuxServiceIdLast := by
  simpa [isServiceId] using h

namespace ServiceRun

/-- What holds in every run: the selected service ID is one, a remembered byte was sent under a
service ID, and that service ID was emitted. -/
structure Consistent (s : ServiceRun ρ) : Prop where
  serviceIdIn_range : ∀ id, s.host.serviceIdIn = some id →
    sermuxServiceIdFirst ≤ id ∧ id ≤ sermuxServiceIdLast
  prevSent_imp : s.host.prevSent ≠ none → s.host.serviceIdOut ≠ none
  emitted_mem : ∀ id, s.host.serviceIdOut = some id → id ∈ s.emitted

variable {s s' : ServiceRun ρ} {sel : Option (ℕ × UInt8)}

/-- A step changes the logs by what the iteration did. -/
theorem step_eq (h : s.step cmd server sel = some s') :
    (∀ i c, sel = some (i, c) → i ≤ cmd.vportNum) ∧
      s'.host = (mainLoop cmd server sel s.host).1 ∧
      s'.emitted = s.emitted ++ serviceIds (mainLoop cmd server sel s.host).2.transport ∧
      s'.indices = s.indices ++ (mainLoop cmd server sel s.host).2.ports.map Prod.fst := by
  unfold step at h
  split at h
  · cases h
  next hn =>
    obtain rfl := Option.some.inj h
    refine ⟨?_, rfl, rfl, rfl⟩
    rintro i c rfl
    by_contra hi
    exact hn (.inr ⟨(i, c), rfl, by simpa using hi⟩)

theorem consistent_portByte (hs : s.Consistent) {h : Host ρ}
    (hin : h.serviceIdIn = s.host.serviceIdIn) (hout : h.serviceIdOut = s.host.serviceIdOut)
    (src : Option ℕ) (c : UInt8) (is : List ℤ) (a : Bool) :
    Consistent ⟨(portByte cmd src c h).1,
      s.emitted ++ serviceIds (portByte cmd src c h).2.transport, is, a⟩ := by
  refine ⟨by simpa only [portByte, hin] using hs.serviceIdIn_range, by simp [portByte], ?_⟩
  intro id hid
  obtain rfl : sourceId cmd src = id := by simpa [portByte] using hid
  rw [serviceIds_portByte, List.mem_append]
  by_cases hnew : some (sourceId cmd src) = h.serviceIdOut
  · exact .inl (hs.emitted_mem _ (by rw [← hout, hnew]))
  · exact .inr (by simp [hnew])

theorem consistent_transportByte (hs : s.Consistent) (c : UInt8) (is : List ℤ) (a : Bool) :
    Consistent ⟨(transportByte cmd server c s.host).1,
      s.emitted ++ serviceIds (transportByte cmd server c s.host).2.transport, is, a⟩ := by
  have hemit : ∀ (ids : List ℕ) (id : ℕ), s.host.serviceIdOut = some id → id ∈ s.emitted ++ ids :=
    fun ids id hid => List.mem_append_left _ (hs.emitted_mem id hid)
  have key := transportByte_transported cmd server c s.host
  generalize transportByte cmd server c s.host = t at key ⊢
  cases key with
  | serviceId hc =>
    refine ⟨fun id hid => ?_, hs.prevSent_imp, hemit _⟩
    obtain rfl : c.toNat = id := by simpa using hid
    exact isServiceId_range hc
  | answer p hc hp => exact ⟨hs.serviceIdIn_range, by simp, hemit _⟩
  | escape => exact ⟨hs.serviceIdIn_range, hs.prevSent_imp, hemit _⟩
  | noLast => exact ⟨hs.serviceIdIn_range, hs.prevSent_imp, hemit _⟩
  | badEscape => exact ⟨hs.serviceIdIn_range, hs.prevSent_imp, hemit _⟩
  | dropped => exact ⟨hs.serviceIdIn_range, hs.prevSent_imp, hemit _⟩
  | rfs => exact ⟨hs.serviceIdIn_range, hs.prevSent_imp, hemit _⟩
  | port => exact ⟨hs.serviceIdIn_range, hs.prevSent_imp, hemit _⟩

/-- The service IDs `ids` and the indices `is` are in range. -/
def InRange (cmd : Command) (ids : List ℕ) (is : List ℤ) : Prop :=
  (∀ id ∈ ids, sermuxServiceIdFirst ≤ id ∧ id ≤ sermuxServiceIdLast) ∧
    ∀ i ∈ is, 0 ≤ i ∧ i < cmd.vportNum

theorem sound_iff_inRange : s.Sound cmd ↔ InRange cmd s.emitted s.indices :=
  ⟨fun h => ⟨h.2, h.3⟩, fun h => ⟨fun _ _ => sourceId_injective, h.1, h.2⟩⟩

theorem inRange_append {ids ids' : List ℕ} {is is' : List ℤ} :
    InRange cmd (ids ++ ids') (is ++ is') ↔ InRange cmd ids is ∧ InRange cmd ids' is' := by
  simp only [InRange, List.forall_mem_append]
  exact and_and_and_comm

/-- A byte sent from a source is in range when its service ID is, or was emitted before. -/
theorem inRange_portByte (hs : s.Consistent) (hsound : s.Sound cmd) {h : Host ρ}
    (hout : h.serviceIdOut = s.host.serviceIdOut) {src : Option ℕ}
    (hsrc : ∀ i, src = some i → 1 ≤ i) (c : UInt8) :
    InRange cmd (serviceIds (portByte cmd src c h).2.transport)
        ((portByte cmd src c h).2.ports.map Prod.fst) ↔ sourceId cmd src ≤ sermuxServiceIdLast := by
  have hfirst : sermuxServiceIdFirst ≤ sourceId cmd src := by
    match src with
    | none => exact le_rfl
    | some i =>
      have := hsrc i rfl
      simp only [sourceId]
      omega
  rw [serviceIds_portByte]
  by_cases hnew : some (sourceId cmd src) = h.serviceIdOut
  · have hlast := (hsound.emitted_range _ (hs.emitted_mem _ (by rw [← hout, hnew]))).2
    simp [InRange, hnew, portByte, hlast]
  · simp [InRange, hnew, portByte, hfirst]

theorem known_of_isSpecial {c : UInt8} (hc : isSpecial c = true) : Known cmd s (some (0, c)) := by
  intro _ hc'
  simp [hc] at hc'

/-- A byte of the transport is in range when it is known. -/
theorem inRange_transportByte (server : RfsServer ρ) (hs : s.Consistent) (hsound : s.Sound cmd)
    (hr : s.host.rfsResponse = []) (c : UInt8) :
    InRange cmd (serviceIds (transportByte cmd server c s.host).2.transport)
        ((transportByte cmd server c s.host).2.ports.map Prod.fst) ↔ Known cmd s (some (0, c)) := by
  have key := transportByte_transported cmd server c s.host
  generalize transportByte cmd server c s.host = t at key ⊢
  cases key with
  | escape hc =>
    exact iff_of_true (by simp [InRange, serviceIds])
      (known_of_isSpecial (by simp [hc, isSpecial]))
  | serviceId hc =>
    exact iff_of_true (by simp [InRange, serviceIds])
      (known_of_isSpecial (by simp [hc, isSpecial]))
  | noLast hc hp =>
    exact iff_of_true (by simp [InRange, serviceIds])
      (known_of_isSpecial (by simp [hc, isSpecial]))
  | answer p hc hp =>
    -- the repeated service ID was emitted before
    refine iff_of_true ?_ (known_of_isSpecial (by simp [hc, isSpecial]))
    obtain ⟨id, hid⟩ := Option.ne_none_iff_exists'.mp (hs.prevSent_imp (by simp [hp]))
    have hrange := hsound.emitted_range id (hs.emitted_mem id hid)
    have hids : serviceIds (.serviceId (s.host.serviceIdOut.getD 0xFF) :: p.tx) = [id] := by
      rw [hid, ← List.singleton_append, serviceIds_append, serviceIds_tx]
      rfl
    exact ⟨by simpa only [hids, List.forall_mem_singleton] using hrange, by simp⟩
  | badEscape hc hesc =>
    refine iff_of_true (by simp [InRange, serviceIds]) ?_
    exact fun _ _ hesc' => absurd hesc' hesc
  | dropped hc hesc hin =>
    refine iff_of_true (by simp [InRange, serviceIds]) ?_
    intro _ _ _ id hid
    rw [hin] at hid
    cases hid
  | rfs id r response hc hesc hin hrfs =>
    refine iff_of_true (by simp [InRange, serviceIds]) ?_
    intro _ _ _ id' hid'
    obtain rfl : id = id' := by simpa [hin] using hid'
    simp only [Command.rfsServiceId] at hrfs
    split at hrfs
    next hmode =>
      obtain rfl := Option.some.inj hrfs
      simp only [Command.serviceOffset, hmode, ↓reduceIte]
      omega
    · cases hrfs
  | port id hc hesc hin hrfs =>
    have hfirst := (hs.serviceIdIn_range id hin).1
    have hpos : sermuxServiceIdFirst + cmd.serviceOffset ≤ id := by
      cases hmode : cmd.rfsmux with
      | false => simpa [Command.serviceOffset, hmode] using hfirst
      | true =>
        have hne : id ≠ sermuxServiceIdFirst := by
          rintro rfl
          simp [Command.rfsServiceId, hmode] at hrfs
        simp only [Command.serviceOffset, hmode, ↓reduceIte]
        omega
    have hknown : Known cmd s (some (0, c)) ↔
        id < sermuxServiceIdFirst + cmd.serviceOffset + cmd.vportNum := by
      refine ⟨fun h => h hr hc hesc id hin, fun h _ _ _ id' hid' => ?_⟩
      obtain rfl : id = id' := by simpa [hin] using hid'
      exact h
    rw [hknown]
    simp only [InRange, serviceIds, List.filterMap_nil, List.not_mem_nil, IsEmpty.forall_iff,
      implies_true, List.map_cons, List.map_nil, List.forall_mem_singleton, true_and]
    omega

/-! ### Runs -/

/-- **One step.** The logs stay consistent, and in range exactly when the byte is known. -/
theorem step_sound (hn : cmd.vportNum ≤ sermuxServiceMax) (hs : s.Consistent)
    (h : s.step cmd server sel = some s') :
    s'.Consistent ∧ (s'.Sound cmd ↔ s.Sound cmd ∧ Known cmd s sel) := by
  obtain ⟨hsel, hhost, hemit, hind⟩ := step_eq h
  have hiff : (s.Sound cmd → (InRange cmd
        (serviceIds (mainLoop cmd server sel s.host).2.transport)
        ((mainLoop cmd server sel s.host).2.ports.map Prod.fst) ↔ Known cmd s sel)) →
      (s'.Sound cmd ↔ s.Sound cmd ∧ Known cmd s sel) := by
    intro key
    rw [sound_iff_inRange, hemit, hind, inRange_append, ← sound_iff_inRange]
    exact and_congr_right key
  obtain ⟨host', emitted', indices', aborted'⟩ := s'
  obtain rfl := hhost
  obtain rfl := hemit
  obtain rfl := hind
  cases hr : s.host.rfsResponse with
  | cons c rest =>
    have hturn : mainLoop cmd server sel s.host =
        portByte cmd none c { s.host with rfsResponse := rest } := by
      simp only [mainLoop, hr]
    obtain ⟨h₀, hh⟩ : ∃ h₀, h₀ = { s.host with rfsResponse := rest } := ⟨_, rfl⟩
    rw [hturn, ← hh] at hiff ⊢
    refine ⟨consistent_portByte hs (by rw [hh]) (by rw [hh]) none c _ _, hiff fun hsound => ?_⟩
    rw [inRange_portByte hs hsound (by rw [hh]) (by simp) c]
    refine iff_of_true ?_ fun hr' => ?_
    · simp only [sourceId]
      decide
    · simp [hr] at hr'
  | nil =>
    match sel with
    | none =>
      have hturn : mainLoop cmd server none s.host = (s.host, { aborted := true }) := by
        simp only [mainLoop, hr]
      rw [hturn] at hiff ⊢
      refine ⟨⟨hs.serviceIdIn_range, hs.prevSent_imp, fun id hid => ?_⟩, hiff fun _ => ?_⟩
      · exact List.mem_append_left _ (hs.emitted_mem id hid)
      · exact iff_of_true (by simp [InRange, serviceIds]) fun _ => trivial
    | some (0, c) =>
      have hturn : mainLoop cmd server (some (0, c)) s.host =
          transportByte cmd server c s.host := by
        simp only [mainLoop, hr]
      rw [hturn] at hiff ⊢
      exact ⟨consistent_transportByte hs c _ _,
        hiff fun hsound => inRange_transportByte server hs hsound hr c⟩
    | some (i + 1, c) =>
      have hturn : mainLoop cmd server (some (i + 1, c)) s.host =
          portByte cmd (some (i + 1)) c s.host := by
        simp only [mainLoop, hr]
      rw [hturn] at hiff ⊢
      refine ⟨consistent_portByte hs rfl rfl (some (i + 1)) c _ _, hiff fun hsound => ?_⟩
      have hlast := sermuxServiceIdLast_eq
      rw [inRange_portByte hs hsound rfl (by simp) c]
      refine ⟨fun h _ => ?_, fun h => ?_⟩
      · show cmd.rfsmux = true → i + 1 < sermuxServiceMax
        intro hmode
        simp only [sourceId, Command.serviceOffset, hmode, ↓reduceIte] at h
        omega
      · have h' : cmd.rfsmux = true → i + 1 < sermuxServiceMax := h hr
        have hi := hsel (i + 1) c rfl
        simp only [sourceId, Command.serviceOffset]
        split
        next hmode =>
          have := h' hmode
          omega
        · omega

end ServiceRun

/-- The argument check bounds the number of service ports. -/
theorem vportNum_le_of_muxCommand {opens : List (List Char) → Bool} {argv : List (List Char)}
    (h : muxCommand opens argv = some cmd) : cmd.vportNum ≤ sermuxServiceMax := by
  unfold muxCommand at h
  split at h
  · cases h
  split at h
  · cases h
  simp only [gt_iff_lt, Option.ite_none_left_eq_some, Option.ite_none_right_eq_some,
    Option.some.injEq, not_lt] at h
  obtain ⟨hmax, -, rfl⟩ := h
  exact hmax

/-- **The services of the host multiplexer.** After an accepted command line, every service ID
emitted so far is one, different sources have different ones, and every index used so far is that of
a port, if and only if the run took known bytes only. -/
theorem services_sound_iff (opens : List (List Char) → Bool) (argv : List (List Char))
    (hcmd : muxCommand opens argv = some cmd) (server : RfsServer ρ) (r : ρ) {s : ServiceRun ρ}
    (hs : Reach (ServiceRun.step cmd server) (fun _ _ => True) { host := { rfs := r } } s) :
    s.Sound cmd ↔ Reach (ServiceRun.step cmd server) (Known cmd) { host := { rfs := r } } s := by
  have hn := vportNum_le_of_muxCommand hcmd
  have hinit : ServiceRun.Consistent ({ host := { rfs := r } } : ServiceRun ρ) :=
    ⟨by simp, by simp, by simp⟩
  have hinv : ∀ s, Reach (ServiceRun.step cmd server) (fun _ _ => True) { host := { rfs := r } } s →
      s.Consistent := fun s h =>
    h.invariant hinit fun _ _ _ hc _ hstep => (ServiceRun.step_sound hn hc hstep).1
  constructor
  · intro hsound
    induction hs with
    | init => exact .init
    | next h _ hstep ih =>
      obtain ⟨hprev, hknown⟩ := (ServiceRun.step_sound hn (hinv _ h) hstep).2.mp hsound
      exact .next (ih hprev) hknown hstep
  · intro h
    refine (h.invariant (P := fun s => s.Consistent ∧ s.Sound cmd) ⟨hinit, ?_⟩ ?_).2
    · exact ServiceRun.sound_iff_inRange.mpr ⟨by simp, by simp⟩
    · intro s i s' hP hknown hstep
      obtain ⟨hc, hiff⟩ := ServiceRun.step_sound hn hP.1 hstep
      exact ⟨hc, hiff.mpr ⟨hP.2, hknown⟩⟩

/-- A port list of the `mux` program, in the mode `mode`. -/
def commandLine (mode : String) (ports : ℕ) : List (List Char) :=
  "mux".toList :: mode.toList :: "t".toList :: List.replicate ports "p".toList

theorem services_sound_iff_one_port :
    ∃ s : ServiceRun Unit, s.emitted = [0xD0] ∧
      (s.Sound ⟨false, false, 1⟩ ↔
        Reach (ServiceRun.step ⟨false, false, 1⟩ noServer) (Known ⟨false, false, 1⟩)
          { host := { rfs := () } } s) :=
  ⟨(runAll (guarded (ServiceRun.step ⟨false, false, 1⟩ noServer) fun _ _ => True) [some (1, 0x41)]
      { host := { rfs := () } }).get (by decide), by decide,
    services_sound_iff (fun _ => true) (commandLine "mux" 1) (by decide) noServer ()
      (reach_get _ _ _ _)⟩

/-- **The eighth port and the port that is not there.** In `rfsmux` mode the argument check accepts
eight ports, and the eighth has no service ID; in `mux` mode with one port the device can select
the second service, which indexes past the end of `services`. -/
theorem not_sound_eighth_port :
    (muxCommand (fun _ => true) (commandLine "rfsmux:d" 8) = some ⟨true, false, 8⟩ ∧
      ∃ s, Reach (ServiceRun.step ⟨true, false, 8⟩ noServer) (fun _ _ => True)
        { host := { rfs := () } } s ∧ ¬ s.Sound ⟨true, false, 8⟩) ∧
    (muxCommand (fun _ => true) (commandLine "mux" 1) = some ⟨false, false, 1⟩ ∧
      ∃ s, Reach (ServiceRun.step ⟨false, false, 1⟩ noServer) (fun _ _ => True)
        { host := { rfs := () } } s ∧ ¬ s.Sound ⟨false, false, 1⟩) := by
  refine ⟨⟨by decide, _, reach_get _ _ [some (8, 0x41)] (by decide), fun h => ?_⟩,
    by decide, _, reach_get _ _ [some (0, 0xD1), some (0, 0x41)] (by decide), fun h => ?_⟩
  · exact absurd (h.emitted_range 0xD8 (by decide)).2 (by decide)
  · exact absurd (h.indices_range 1 (by decide)).2 (by decide)

end ELuaBrain.Sermux
