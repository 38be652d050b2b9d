import ELuaBrain.Sermux.Protocol

/-!
# The host end of the serial multiplexer

The `mux` program of `mux_src/main.c`: the checks it makes on its command line, and its main loop.
One iteration takes the next byte of a pending response of the remote file system server, or else
waits for a byte from the transport or from one of the service ports. The remote file system
server is a parameter: the main loop gives it the request bytes and takes its response.

## Main definitions

* `Command`, `muxCommand` : what the program keeps of an accepted command line.
* `RfsServer` : the interface of the remote file system server.
* `Host` : the variables of the main loop.
* `transportByte`, `portByte`, `mainLoop`.

## Main results

* `transportByte_transported` : the effects of a byte from the transport, branch by branch.
-/

namespace ELuaBrain.Sermux

/-! ### Command line -/

/-- What an accepted command line sets. -/
structure Command where
  /-- `mux_mode == MODE_RFSMUX`. -/
  rfsmux : Bool
  verbose : Bool
  /-- `vport_num`. -/
  vportNum : ℕ
  deriving DecidableEq, Repr

/-- `rfs_service_id`, with `none` for `-1`. -/
def Command.rfsServiceId (cmd : Command) : Option ℕ :=
  if cmd.rfsmux then some sermuxServiceIdFirst else none

/-- `service_offset`. -/
def Command.serviceOffset (cmd : Command) : ℕ := if cmd.rfsmux then 1 else 0

/-- Lower case of an ASCII letter, as `strcasecmp` compares. -/
def foldCase (c : Char) : Char := if 'A' ≤ c ∧ c ≤ 'Z' then Char.ofNat (c.toNat + 32) else c

/-- The mode argument: `mux`, or `rfsmux:` followed by a directory. -/
def muxMode (arg : List Char) : Option Bool :=
  if arg = "mux".toList then some false
  else if "rfsmux:".toList.isPrefixOf arg then some true
  else none

/-- The argument check of `main`, up to the number of service ports, followed by what it opens:
`opens` says whether the transport, the ports and the remote file system server of the command line
could be set up. The argument `argv[0]` is the program's name. -/
def muxCommand (opens : List (List Char) → Bool) (argv : List (List Char)) : Option Command :=
  if argv.length < 4 then none
  else
    match muxMode (argv.getD 1 []) with
    | none => none
    | some rfsmux =>
        let verbose := (argv.getD (argv.length - 1) []).map foldCase == "-v".toList
        let i := if verbose then argv.length - 2 else argv.length - 1
        -- `vport_num = i - FIRST_SERVICE_IDX + 1` in unsigned arithmetic
        let vportNum := i + 1 - 3
        if vportNum > sermuxServiceMax then none
        else if opens argv then some ⟨rfsmux, verbose, vportNum⟩
        else none

/-! ### Main loop -/

/-- The remote file system server as the main loop uses it: `read` is
`rfs_mem_read_request_packet`, and `respond` is `rfs_mem_has_response` followed, when there is one,
by `rfs_mem_write_response` and `rfs_mem_start_request`. -/
structure RfsServer (ρ : Type) where
  read : UInt8 → ρ → ρ
  respond : ρ → Option (List UInt8 × ρ)

/-- A server that answers nothing, for `mux` mode. -/
def noServer : RfsServer Unit := ⟨fun _ r => r, fun _ => none⟩

/-- The variables of the main loop; `none` stands for `-1`. -/
structure Host (ρ : Type) where
  serviceIdIn : Option ℕ := none
  serviceIdOut : Option ℕ := none
  prevSent : Option LastSent := none
  gotEsc : Bool := false
  /-- The `rfs_size` bytes at `rfs_ptr`. -/
  rfsResponse : List UInt8 := []
  rfs : ρ

/-- What one iteration does outside the variables of the loop. -/
structure HostOut where
  /-- The calls of `transport_send_byte`. -/
  transport : List Tx := []
  /-- The calls of `ser_write_byte`, with the index into `services`. -/
  ports : List (ℤ × UInt8) := []
  /-- The calls of `rfs_mem_read_request_packet`. -/
  rfsReads : List UInt8 := []
  /-- The program ends with an error. -/
  aborted : Bool := false
  deriving DecidableEq, Repr

variable {ρ : Type} (cmd : Command) (server : RfsServer ρ)

/-- A byte from the transport. -/
def transportByte (c : UInt8) (h : Host ρ) : Host ρ × HostOut :=
  if c ≠ sermuxEscapeChar then
    if isServiceId c then ({ h with serviceIdIn := some c.toNat }, {})
    else if c = sermuxForceSidChar then
      match h.prevSent with
      | none => (h, { aborted := true })
      | some p =>
          -- re-transmit the last data and the service ID
          ({ h with prevSent := none },
            { transport := .serviceId (h.serviceIdOut.getD 0xFF) :: p.tx })
    else
      let c' := if h.gotEsc then c ^^^ sermuxEscapeXorMask else c
      if h.gotEsc && !isSpecial c' then (h, { aborted := true })
      else
        let h := { h with gotEsc := false }
        match h.serviceIdIn with
        | none => (h, { transport := [.forceSid] })
        | some id =>
            if some id = cmd.rfsServiceId then
              let r := server.read c' h.rfs
              match server.respond r with
              | none => ({ h with rfs := r }, { rfsReads := [c'] })
              | some (response, r') =>
                  ({ h with rfs := r', rfsResponse := response }, { rfsReads := [c'] })
            else
              (h, { ports := [((id : ℤ) - sermuxServiceIdFirst - cmd.serviceOffset, c')] })
  else ({ h with gotEsc := true }, {})

/-- The service ID of the byte source `selidx`: the ports are numbered from
`HND_FIRST_VOFFSET = 1`, and `none` is `RFS_PSEUDO_SELIDX`. -/
def sourceId : Option ℕ → ℕ
  | none => sermuxServiceIdFirst
  | some selidx => sermuxServiceIdFirst + selidx - 1 + cmd.serviceOffset

/-- A byte to be sent, from a service port or from a response of the remote file system. -/
def portByte (selidx : Option ℕ) (c : UInt8) (h : Host ρ) : Host ρ × HostOut :=
  let temp := sourceId cmd selidx
  let last := lastSentOf c
  ({ h with serviceIdOut := some temp, prevSent := some last },
    { transport := (if some temp ≠ h.serviceIdOut then [.serviceId temp] else []) ++ last.tx })

/-- One iteration of the main loop. `sel` is the answer of `ser_select_byte`, `none` when it fails;
it is not asked for while a response of the remote file system is pending. -/
def mainLoop (sel : Option (ℕ × UInt8)) (h : Host ρ) : Host ρ × HostOut :=
  match h.rfsResponse with
  | c :: rest => portByte cmd none c { h with rfsResponse := rest }
  | [] =>
      match sel with
      | none => (h, { aborted := true })
      | some (0, c) => transportByte cmd server c h
      | some (selidx, c) => portByte cmd (some selidx) c h

/-- The host after a sequence of iterations, with all it did meanwhile; it stops at an error. -/
def mainLoopAll : List (Option (ℕ × UInt8)) → Host ρ → Host ρ × HostOut
  | [], h => (h, {})
  | sel :: sels, h =>
      let (h₁, o₁) := mainLoop cmd server sel h
      if o₁.aborted then (h₁, o₁)
      else
        let (h₂, o₂) := mainLoopAll sels h₁
        (h₂, ⟨o₁.transport ++ o₂.transport, o₁.ports ++ o₂.ports, o₁.rfsReads ++ o₂.rfsReads,
          o₂.aborted⟩)

/-! ### What a byte from the transport does -/

/-- The data byte that `c` stands for. -/
def dataByte (gotEsc : Bool) (c : UInt8) : UInt8 :=
  if gotEsc then c ^^^ sermuxEscapeXorMask else c

/-- The escape sequence that `c` ends, if it ends one, is valid. -/
def WellEscaped (gotEsc : Bool) (c : UInt8) : Prop :=
  gotEsc = true → isSpecial (c ^^^ sermuxEscapeXorMask) = true

/-- The effects of `transportByte`, one constructor for each branch. -/
inductive Transported (cmd : Command) (c : UInt8) (h : Host ρ) : Host ρ × HostOut → Prop
  | escape (hc : c = sermuxEscapeChar) : Transported cmd c h ({ h with gotEsc := true }, {})
  | serviceId (hc : isServiceId c = true) :
      Transported cmd c h ({ h with serviceIdIn := some c.toNat }, {})
  | noLast (hc : c = sermuxForceSidChar) (hp : h.prevSent = none) :
      Transported cmd c h (h, { aborted := true })
  | answer (p : LastSent) (hc : c = sermuxForceSidChar) (hp : h.prevSent = some p) :
      Transported cmd c h ({ h with prevSent := none },
        { transport := .serviceId (h.serviceIdOut.getD 0xFF) :: p.tx })
  | badEscape (hc : isSpecial c = false) (hesc : ¬ WellEscaped h.gotEsc c) :
      Transported cmd c h (h, { aborted := true })
  | dropped (hc : isSpecial c = false) (hesc : WellEscaped h.gotEsc c)
      (hin : h.serviceIdIn = none) :
      Transported cmd c h ({ h with gotEsc := false }, { transport := [.forceSid] })
  | rfs (id : ℕ) (r : ρ) (response : List UInt8) (hc : isSpecial c = false)
      (hesc : WellEscaped h.gotEsc c) (hin : h.serviceIdIn = some id)
      (hrfs : some id = cmd.rfsServiceId) :
      Transported cmd c h ({ h with gotEsc := false, rfs := r, rfsResponse := response },
        { rfsReads := [dataByte h.gotEsc c] })
  | port (id : ℕ) (hc : isSpecial c = false) (hesc : WellEscaped h.gotEsc c)
      (hin : h.serviceIdIn = some id) (hrfs : some id ≠ cmd.rfsServiceId) :
      Transported cmd c h ({ h with gotEsc := false },
        { ports := [((id : ℤ) - sermuxServiceIdFirst - cmd.serviceOffset, dataByte h.gotEsc c)] })

theorem wellEscaped_iff {gotEsc : Bool} {c : UInt8} :
    (gotEsc && !isSpecial (dataByte gotEsc c)) = false ↔ WellEscaped gotEsc c := by
  cases gotEsc <;> simp [WellEscaped, dataByte]

theorem transportByte_transported (cmd : Command) (server : RfsServer ρ) (c : UInt8) (h : Host ρ) :
    Transported cmd c h (transportByte cmd server c h) := by
  unfold transportByte
  by_cases h₁ : c = sermuxEscapeChar
  · rw [if_neg (not_not.mpr h₁)]
    exact .escape h₁
  rw [if_pos h₁]
  by_cases h₃ : isServiceId c = true
  · rw [if_pos h₃]
    exact .serviceId h₃
  rw [if_neg h₃]
  by_cases h₂ : c = sermuxForceSidChar
  · rw [if_pos h₂]
    cases hp : h.prevSent with
    | none => exact .noLast h₂ hp
    | some p => exact .answer p h₂ hp
  rw [if_neg h₂]
  have hc : isSpecial c = false := isSpecial_eq_false_iff.mpr ⟨h₁, h₂, by simpa using h₃⟩
  change Transported cmd c h
    (if (h.gotEsc && !isSpecial (dataByte h.gotEsc c)) = true then _ else _)
  by_cases hesc : WellEscaped h.gotEsc c
  · rw [if_neg (by simp only [wellEscaped_iff.mpr hesc, Bool.false_eq_true, not_false_eq_true])]
    obtain ⟨_ | id, idOut, prev, gotEsc, response, r⟩ := h
    · exact .dropped hc hesc rfl
    · by_cases hrfs : some id = cmd.rfsServiceId
      · simp only [if_pos hrfs]
        split
        · exact .rfs id _ _ hc hesc rfl hrfs
        · exact .rfs id _ _ hc hesc rfl hrfs
      · simp only [if_neg hrfs]
        exact .port id hc hesc rfl hrfs
  · rw [if_pos (by simpa only [Bool.not_eq_false] using mt wellEscaped_iff.mp hesc)]
    exact .badEscape hc hesc

end ELuaBrain.Sermux
