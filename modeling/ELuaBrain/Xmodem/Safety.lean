import ELuaBrain.Xmodem.Receive
import Mathlib.Tactic.Linarith

/-!
# What the receiver of XMODEM stores

Whatever comes from the line, only valid records are stored, they have consecutive numbers, and what
the function returns is what they carry.

## Main definitions

* `Keeps` : what holds whenever the function waits for a character.

## Main results

* `Keeps.step` : one character or timeout.
* `receive_stores` : every run.
-/

namespace ELuaBrain.Xmodem

open Receiver

variable {ram : Ram} {s s' : Receiver} {line : List (Option UInt8)} {records : List (List UInt8)}

/-! ### The invariant -/

/-- The records are those that may be stored, and their contents are in the block. -/
structure Holds (s : Receiver) (records : List (List UInt8)) : Prop where
  valid : ∀ i (h : i < records.length), ValidRecord (UInt8.ofNat (i + 1)) records[i]
  size : s.size.toNat = packetSize * records.length
  content : s.dest.slice 0 s.size.toNat = (records.map payload).flatten

/-- The next record can be received. -/
structure Ready (s : Receiver) (records : List (List UInt8)) : Prop where
  packnum : s.packnum = UInt8.ofNat (records.length + 1)
  room : s.room = s.limit.toNat
  size : s.size.toNat ≤ s.limit.toNat
  limit : s.limit.toNat < 2 ^ 32 - 512

/-- What has been read, at the place where the function waits. -/
def Read (line : List (Option UInt8)) (s : Receiver) (records : List (List UInt8)) :
    Pc → Prop
  | .wait => Ready s records ∧ Carries line records
  | .record buf => Ready s records ∧ buf.length < packetSize + 4 ∧
      ∃ rest, line = rest ++ some soh :: buf.map some ∧ Carries rest records
  | .flush (.accept buf) => Ready s records ∧ ValidRecord s.packnum buf ∧
      Carries line records ∧ Carries line (records ++ [buf])
  | .flush (.finish result) =>
      Carries line records ∧ (0 ≤ result → result = packetSize * records.length)
  | .flush (.cancel result) => Carries line records ∧ result < 0
  | .done result => Carries line records ∧ (0 ≤ result → result = packetSize * records.length)

/-- What holds whenever the function waits for a character. -/
structure Keeps (line : List (Option UInt8)) (s : Receiver)
    (records : List (List UInt8)) : Prop where
  holds : Holds s records
  read : Read line s records s.pc

/-! ### The parts of a step -/

theorem Holds.congr (h : Holds s records) (hsize : s'.size = s.size) (hdest : s'.dest = s.dest) :
    Holds s' records :=
  ⟨h.valid, hsize ▸ h.size, by rw [hsize, hdest]; exact h.content⟩

theorem Ready.congr (h : Ready s records) (hpacknum : s'.packnum = s.packnum)
    (hsize : s'.size = s.size) (hlimit : s'.limit = s.limit) (hroom : s'.room = s.room) :
    Ready s' records :=
  ⟨hpacknum ▸ h.packnum, by rw [hroom, hlimit]; exact h.room, by rw [hsize, hlimit]; exact h.size,
    hlimit ▸ h.limit⟩

/-- The head of the loop. -/
theorem loop_keeps (hholds : Holds s records) (hready : Ready s records)
    (hline : Carries line records) :
    Keeps line s.loop.1 records ∧ stored s.loop.2 = [] := by
  unfold Receiver.loop
  split_ifs with hretries hstarting
  · exact ⟨⟨hholds.congr rfl rfl, hready.congr rfl rfl rfl rfl, hline⟩, rfl⟩
  · exact ⟨⟨hholds.congr rfl rfl, hready.congr rfl rfl rfl rfl, hline⟩, rfl⟩
  · exact ⟨⟨hholds.congr rfl rfl, hline, by decide⟩, rfl⟩

/-- A record is copied into the block, if there is room for it. -/
theorem copy_holds {buf : List UInt8} (hholds : Holds s records)
    (hvalid : ValidRecord (UInt8.ofNat (records.length + 1)) buf)
    (hfits : s.size.toNat + packetSize ≤ s.limit.toNat) (hlimit : s.limit.toNat < 2 ^ 32 - 512) :
    Holds (s.copy buf) (records ++ [buf]) ∧
      (s.copy buf).size.toNat = s.size.toNat + packetSize := by
  have hlength : (payload buf).length = packetSize := by
    have h132 := hvalid.length
    simp [payload, packetSize, h132]
  have hsize : (s.size + 128).toNat = s.size.toNat + packetSize := by
    have h128 : (128 : UInt32).toNat = packetSize := rfl
    rw [UInt32.toNat_add, h128]
    exact Nat.mod_eq_of_lt (by unfold packetSize at *; omega)
  refine ⟨⟨fun i hi => ?_, ?_, ?_⟩, hsize⟩
  · rcases Nat.lt_or_ge i records.length with hlt | hge
    · rw [List.getElem_append_left hlt]
      exact hholds.valid i hlt
    · have hi' : i = records.length := by
        rw [List.length_append, List.length_singleton] at hi
        omega
      subst hi'
      rw [List.getElem_concat_length rfl]
      exact hvalid
  · rw [List.length_append, List.length_singleton, Nat.mul_succ, ← hholds.size]
    exact hsize
  · have hbefore : (s.dest.overlay s.size.toNat (payload buf)).slice 0 s.size.toNat =
        s.dest.slice 0 s.size.toNat :=
      Memory.slice_overlay_of_disjoint (Or.inl (Nat.zero_add _).le)
    have hnew : (s.dest.overlay s.size.toNat (payload buf)).slice s.size.toNat packetSize =
        payload buf := by
      rw [← hlength]
      exact Memory.slice_overlay
    calc (s.copy buf).dest.slice 0 (s.copy buf).size.toNat
        = (s.dest.overlay s.size.toNat (payload buf)).slice 0 (s.size.toNat + packetSize) := by
          rw [← hsize]
          rfl
      _ = s.dest.slice 0 s.size.toNat ++ payload buf := by
          rw [Memory.slice_add, Nat.zero_add, hbefore, hnew]
      _ = ((records ++ [buf]).map payload).flatten := by
          rw [hholds.content, List.map_append, List.flatten_append]
          simp

/-- A record is acknowledged and copied, if there is room for it. -/
theorem consume_ready {buf : List UInt8} (hholds : Holds s records)
    (hvalid : ValidRecord (UInt8.ofNat (records.length + 1)) buf)
    (hpacknum : s.packnum = UInt8.ofNat (records.length + 1) + 1) (hroom : s.room = s.limit.toNat)
    (hfits : s.size.toNat + packetSize ≤ s.limit.toNat) (hlimit : s.limit.toNat < 2 ^ 32 - 512) :
    s.consume buf = some ((s.copy buf).loop.1, .send ack :: .store buf :: (s.copy buf).loop.2) ∧
      Holds (s.copy buf) (records ++ [buf]) ∧ Ready (s.copy buf) (records ++ [buf]) := by
  obtain ⟨hcopy, hsize⟩ := copy_holds hholds hvalid hfits hlimit
  refine ⟨if_pos (hroom ▸ hfits), hcopy, ?_, hroom, hsize ▸ hfits, hlimit⟩
  rw [List.length_append, List.length_singleton]
  exact hpacknum.trans (by simp)

/-- What is done with a valid record: it is acknowledged and copied, or there is no memory for
it. -/
theorem accept_cases (ram : Ram) (granted : Bool) {buf : List UInt8} (hholds : Holds s records)
    (hready : Ready s records) (hvalid : ValidRecord s.packnum buf) :
    (∃ t : Receiver, s.accept ram granted buf =
        some (t.loop.1, .send ack :: .store buf :: t.loop.2) ∧
      Holds t (records ++ [buf]) ∧ Ready t (records ++ [buf]) ∧ t.starting = s.starting ∧
        t.retries = retryLimit) ∨
    (∃ t : Receiver, s.accept ram granted buf = some (t, []) ∧ Holds t records ∧
      t.pc = .flush (.cancel errorOutOfMem) ∧
        ¬ (granted = true ∧ s.size.toNat + 640 ≤ ram.size)) := by
  have hsize := hready.size
  have hlimit := hready.limit
  have hadd (x y : UInt32) (h : x.toNat + y.toNat < 2 ^ 32) :
      (x + y).toNat = x.toNat + y.toNat := by
    rw [UInt32.toNat_add]
    exact Nat.mod_eq_of_lt h
  have h128 : (s.size + 128).toNat = s.size.toNat + 128 := hadd _ _ (by simp; omega)
  have h512 : (s.limit + incrementAmount).toNat = s.limit.toNat + 512 :=
    hadd _ _ (by simp [incrementAmount]; omega)
  have hpacknum : s.packnum + 1 = UInt8.ofNat (records.length + 1) + 1 := by rw [hready.packnum]
  rw [hready.packnum] at hvalid
  unfold Receiver.accept
  dsimp only
  split_ifs with hgrow hgranted
  · have hram := ram.lt
    have hle : (s.limit + incrementAmount).toNat ≤ ram.size := by simpa using hgranted.2
    obtain ⟨hconsume, hcopy, hnext⟩ := consume_ready
      (s := { s with
        retries := retryLimit
        packnum := s.packnum + 1
        limit := s.limit + incrementAmount
        room := (s.limit + incrementAmount).toNat })
      (hholds.congr rfl rfl) hvalid hpacknum rfl (by
        change s.size.toNat + packetSize ≤ (s.limit + incrementAmount).toNat
        rw [h512, packetSize]
        omega) (by
        change (s.limit + incrementAmount).toNat < _
        omega)
    exact Or.inl ⟨_, hconsume, hcopy, hnext, rfl, rfl⟩
  · refine Or.inr ⟨_, rfl, hholds.congr rfl rfl, rfl, fun h => hgranted ⟨h.1, ?_⟩⟩
    have hlt := UInt32.lt_iff_toNat_lt.mp hgrow
    rw [h512]
    omega
  · have hle := UInt32.le_iff_toNat_le.mp (UInt32.not_lt.mp hgrow)
    rw [h128] at hle
    obtain ⟨hconsume, hcopy, hnext⟩ := consume_ready
      (s := { s with retries := retryLimit, packnum := s.packnum + 1 })
      (hholds.congr rfl rfl) hvalid hpacknum hready.room hle hlimit
    exact Or.inl ⟨_, hconsume, hcopy, hnext, rfl, rfl⟩

/-- The same, with what the line has carried. -/
theorem accept_keeps {granted : Bool} {buf : List UInt8} (hholds : Holds s records)
    (hready : Ready s records) (hvalid : ValidRecord s.packnum buf)
    (hearlier : Carries line records) (hline : Carries line (records ++ [buf])) :
    ∃ s' acts, s.accept ram granted buf = some (s', acts) ∧
      Keeps line s' (records ++ stored acts) := by
  obtain ⟨t, haccept, ht, hnext, -, -⟩ | ⟨t, haccept, ht, hpc, -⟩ :=
    accept_cases ram granted hholds hready hvalid
  · obtain ⟨hkeeps, hstored⟩ := loop_keeps ht hnext hline
    refine ⟨_, _, haccept, ?_⟩
    rw [stored_send, stored_store, hstored]
    exact hkeeps
  · refine ⟨_, _, haccept, ?_⟩
    rw [stored_nil, List.append_nil]
    refine ⟨ht, ?_⟩
    rw [hpc]
    exact ⟨hearlier, by decide⟩

/-! ### Steps and runs -/

/-- The result of the function is not negative only if it is the number of bytes. -/
theorem toInt_size (hholds : Holds s records) (h : 0 ≤ s.size.toBitVec.toInt) :
    s.size.toBitVec.toInt = packetSize * records.length := by
  have hsize : s.size.toBitVec.toNat = packetSize * records.length := hholds.size
  rw [BitVec.toInt_eq_toNat_cond] at h ⊢
  split_ifs at h ⊢ with hlt
  · rw [hsize]
    push_cast
    rfl
  · have hbound := s.size.toBitVec.isLt
    omega

/-- One character or timeout. -/
theorem Keeps.step (h : Keeps line s records) (e : Event) :
    ∃ s' acts, s.step ram e = some (s', acts) ∧
      Keeps (line ++ [e.ch]) s' (records ++ stored acts) := by
  obtain ⟨hholds, hread⟩ := h
  obtain ⟨ch, granted⟩ := e
  have hnothing {t : Receiver} {acts : List Action} (hstored : stored acts = [])
      (hkeeps : Keeps (line ++ [ch]) t records) :
      Keeps (line ++ [ch]) t (records ++ stored acts) := by
    rwa [hstored, List.append_nil]
  have hloop (t : Receiver) (ht : Holds t records) (hready : Ready t records)
      (hline : Carries (line ++ [ch]) records) (acts : List Action) (hacts : stored acts = []) :
      ∃ s' acts', some (t.loop.1, acts ++ t.loop.2) = some (s', acts') ∧
        Keeps (line ++ [ch]) s' (records ++ stored acts') := by
    obtain ⟨hkeeps, hstored⟩ := loop_keeps ht hready hline
    exact ⟨_, _, rfl, hnothing (by rw [stored_append, hacts, hstored]; rfl) hkeeps⟩
  cases hpc : s.pc with
  | wait =>
    rw [hpc] at hread
    obtain ⟨hready, hline⟩ := hread
    cases ch with
    | none =>
      simp only [Receiver.step, hpc]
      exact hloop s hholds hready (hline.other none) [] rfl
    | some c =>
      simp only [Receiver.step, hpc]
      split_ifs with hsoh heot hcan
      · refine ⟨_, _, rfl,
          hnothing rfl ⟨hholds.congr rfl rfl, hready.congr rfl rfl rfl rfl, ?_, ?_⟩⟩
        · decide
        · exact ⟨line, by rw [hsoh]; rfl, hline⟩
      · exact ⟨_, _, rfl, hnothing rfl ⟨hholds.congr rfl rfl, hline.other _, toInt_size hholds⟩⟩
      · refine ⟨_, _, rfl, hnothing rfl ⟨hholds.congr rfl rfl, hline.other _, fun h => ?_⟩⟩
        exact absurd h (by decide)
      · exact hloop s hholds hready (hline.other _) [] rfl
  | record buf =>
    rw [hpc] at hread
    obtain ⟨hready, hlength, rest, rfl, hrest⟩ := hread
    cases ch with
    | none =>
      simp only [Receiver.step, hpc]
      exact hloop s hholds hready (hrest.append _ |>.other _) [.send nak] rfl
    | some c =>
      have hmore : rest ++ some soh :: buf.map some ++ [some c] =
          rest ++ some soh :: (buf ++ [c]).map some := by
        simp
      simp only [Receiver.step, hpc]
      split_ifs with hshort hrecord
      · refine ⟨_, _, rfl,
          hnothing rfl ⟨hholds.congr rfl rfl, hready.congr rfl rfl rfl rfl, ?_, ?_⟩⟩
        · rwa [List.length_append, List.length_singleton]
        · exact ⟨rest, hmore, hrest⟩
      · have h132 : (buf ++ [c]).length = 132 := by
          rw [List.length_append, List.length_singleton]
          unfold packetSize at *
          omega
        refine ⟨_, _, rfl, hnothing rfl ⟨hholds.congr rfl rfl, hready.congr rfl rfl rfl rfl,
          (getRecord_iff h132).mp hrecord, ?_, ?_⟩⟩
        · exact (hrest.append _).other _
        · rw [hmore]
          exact hrest.record _
      · exact hloop s hholds hready (hrest.append _ |>.other _) [.send nak] rfl
  | flush after =>
    rw [hpc] at hread
    cases ch with
    | some c =>
      refine ⟨s, [], by simp only [Receiver.step, hpc], hnothing rfl ⟨hholds, ?_⟩⟩
      rw [hpc]
      cases after with
      | accept buf => exact ⟨hread.1, hread.2.1, hread.2.2.1.other _, hread.2.2.2.other _⟩
      | finish result => exact ⟨hread.1.other _, hread.2⟩
      | cancel result => exact ⟨hread.1.other _, hread.2⟩
    | none =>
      cases after with
      | accept buf =>
        obtain ⟨hready, hvalid, hearlier, hline⟩ := hread
        simp only [Receiver.step, hpc]
        exact accept_keeps hholds hready hvalid (hearlier.other _) (hline.other _)
      | finish result =>
        simp only [Receiver.step, hpc]
        exact ⟨_, _, rfl, hnothing rfl ⟨hholds.congr rfl rfl, hread.1.other _, hread.2⟩⟩
      | cancel result =>
        simp only [Receiver.step, hpc]
        refine ⟨_, _, rfl, hnothing rfl ⟨hholds.congr rfl rfl, hread.1.other _, fun h => ?_⟩⟩
        exact absurd h (Int.not_le.mpr hread.2)
  | done result =>
    rw [hpc] at hread
    refine ⟨s, [], by simp only [Receiver.step, hpc], hnothing rfl ⟨hholds, ?_⟩⟩
    rw [hpc]
    exact ⟨hread.1.other _, hread.2⟩

/-- A run. -/
theorem Keeps.run (h : Keeps line s records) {acts : List Action}
    (hacts : stored acts = records) (es : List Event) :
    ∃ s' acts', Xmodem.run ram (s, acts) es = some (s', acts') ∧
      Keeps (line ++ es.map Event.ch) s' (stored acts') := by
  induction es generalizing line s records acts with
  | nil =>
    refine ⟨s, acts, rfl, ?_⟩
    rwa [hacts, List.map_nil, List.append_nil]
  | cons e es ih =>
    obtain ⟨s', acts', hstep, hkeeps⟩ := h.step e
    have hacts' : stored (acts ++ acts') = records ++ stored acts' := by rw [stored_append, hacts]
    obtain ⟨s'', acts'', hrun, hfinal⟩ := ih hkeeps hacts'
    refine ⟨s'', acts'', ?_, ?_⟩
    · rw [Xmodem.run, hstep]
      exact hrun
    · rwa [List.append_assoc, List.singleton_append] at hfinal

/-- The bytes that a result stands for. -/
theorem Keeps.content (h : Keeps line s records) {n : ℕ} (hpc : s.pc = .done n) :
    s.dest.slice 0 n = (records.map payload).flatten := by
  obtain ⟨hholds, hread⟩ := h
  rw [hpc] at hread
  have hn : n = s.size.toNat := by
    rw [hholds.size]
    exact_mod_cast hread.2 (Int.natCast_nonneg n)
  rw [hn]
  exact hholds.content

/-- Before the first character. -/
theorem start_keeps (dest : Memory) :
    Keeps [] (start dest).1 [] ∧ stored (start dest).2 = [] := by
  refine loop_keeps ⟨fun i h => absurd h (Nat.not_lt_zero i), rfl, rfl⟩
    ⟨rfl, rfl, Nat.zero_le _, ?_⟩ .nil
  exact (by decide : initialBufferSize.toNat < 2 ^ 32 - 512)

end ELuaBrain.Xmodem
