import ELuaBrain.Xmodem.Safety
import ELuaBrain.System.Reach
import Mathlib.Data.List.Indexes

/-!
# A transfer with XMODEM

The receiver and a sender that keeps to the protocol. The line loses and changes only what the
receiver sends. The receiver refuses a record that it has already stored, so a transfer is lost with
the first acknowledgement of a record that does not arrive.

## Main definitions

* `Sender` : the sender.
* `Net`, `Net.step` : sender, receiver, and the characters on their way.
* `Careful` : the line leaves the acknowledgements of records alone.

## Main results

* `Progress.step` : one step of a transfer.
* `transfer_completes` : every run.
-/

namespace ELuaBrain.Xmodem

/-! ### The sender -/

/-- What a sender waits for: the start of the transfer, or the acknowledgement of a record or of the
end. -/
inductive Sender where
  | start
  | record (i : ℕ)
  | final
  | done
  deriving DecidableEq

/-- The record number `i`, counted from `0`. -/
def recordOf (i : ℕ) (data : List UInt8) : List UInt8 :=
  [UInt8.ofNat (i + 1), ~~~UInt8.ofNat (i + 1)] ++ data ++
    [(crc16 data >>> 8).toUInt8, (crc16 data).toUInt8]

/-- What is sent while the sender is in a state, for a file that is given by the contents of its
records. -/
def Sender.output (file : List (List UInt8)) : Sender → List UInt8
  | .record i => soh :: recordOf i (file.getD i [])
  | .final => [eot]
  | _ => []

/-- The state for the record `i`, or for the end if there is none. -/
def Sender.at (file : List (List UInt8)) (i : ℕ) : Sender :=
  if i < file.length then .record i else .final

/-- The sender after a character, and what it sends. -/
def Sender.answer (file : List (List UInt8)) (s : Sender) (c : UInt8) : Sender × List UInt8 :=
  match s with
  | .start => if c = charC then (.at file 0, (Sender.at file 0).output file) else (s, [])
  | .record i =>
      if c = ack then (.at file (i + 1), (Sender.at file (i + 1)).output file)
      else if c = nak then (s, s.output file)
      else (s, [])
  | .final => if c = ack then (.done, []) else if c = nak then (s, s.output file) else (s, [])
  | .done => (s, [])

/-! ### The line -/

/-- Sender and receiver with the characters that are on their way, and how many of those of the
receiver the line has lost or changed. -/
structure Net where
  receiver : Receiver
  sender : Sender := .start
  toReceiver : List UInt8 := []
  toSender : List UInt8 := []
  lost : ℕ := 0

/-- What happens next: a character arrives at the receiver, or its time runs out; one arrives at the
sender, or its time runs out; one that is on its way to the sender is lost or changed. -/
inductive NetEvent where
  | arrive
  | quiet
  | answer
  | resend
  | lose
  | change (c : UInt8)

/-- The characters that are sent by some actions. -/
def sent (acts : List Action) : List UInt8 :=
  acts.filterMap fun
    | .send c => some c
    | .store _ => none

namespace Net

variable (ram : Ram) (file : List (List UInt8)) (s : Net)

/-- The receiver goes on. -/
def receive (ch : Option UInt8) : Option Net :=
  (s.receiver.step ram { ch }).map fun (receiver, acts) =>
    { s with receiver, toSender := s.toSender ++ sent acts }

/-- Nothing is on its way. -/
def isQuiet : Bool := s.toReceiver.isEmpty && s.toSender.isEmpty

/-- The receiver waits until the line is quiet, which takes it less time than a sender waits. -/
def flushing : Bool :=
  match s.receiver.pc with
  | .flush _ => true
  | _ => false

/-- One step. Time runs out only if nothing is on its way. -/
def step : NetEvent → Option Net
  | .arrive =>
      match s.toReceiver with
      | c :: rest => { s with toReceiver := rest }.receive ram (some c)
      | [] => none
  | .quiet => if s.isQuiet then s.receive ram none else none
  | .answer =>
      match s.toSender with
      | c :: rest =>
          let (sender, out) := s.sender.answer file c
          some { s with sender, toSender := rest, toReceiver := s.toReceiver ++ out }
      | [] => none
  | .resend =>
      if s.isQuiet ∧ s.flushing = false ∧ s.sender.output file ≠ [] then
        some { s with toReceiver := s.sender.output file }
      else none
  | .lose =>
      match s.toSender with
      | _ :: rest => some { s with toSender := rest, lost := s.lost + 1 }
      | [] => none
  | .change c =>
      match s.toSender with
      | _ :: rest => some { s with toSender := c :: rest, lost := s.lost + 1 }
      | [] => none

/-- The line loses or changes fewer characters than the receiver makes tries. -/
def Below (s : Net) : NetEvent → Prop
  | .lose => s.lost + 1 < retryLimit.toNat
  | .change _ => s.lost + 1 < retryLimit.toNat
  | _ => True

/-- The acknowledgement of a record is the next character for the sender. -/
def acknowledging (s : Net) : Bool :=
  match s.sender, s.toSender with
  | .record _, c :: _ => c = ack
  | _, _ => false

/-- The line does so, and not with the acknowledgement of a record. -/
def Careful (s : Net) : NetEvent → Prop
  | .lose => s.lost + 1 < retryLimit.toNat ∧ s.acknowledging = false
  | .change _ => s.lost + 1 < retryLimit.toNat ∧ s.acknowledging = false
  | _ => True

instance decidableBelow (s : Net) : (e : NetEvent) → Decidable (s.Below e)
  | .lose | .change _ => inferInstanceAs (Decidable (_ < _))
  | .arrive | .quiet | .answer | .resend => inferInstanceAs (Decidable True)

instance decidableCareful (s : Net) : (e : NetEvent) → Decidable (s.Careful e)
  | .lose | .change _ => inferInstanceAs (Decidable (_ ∧ _))
  | .arrive | .quiet | .answer | .resend => inferInstanceAs (Decidable True)

end Net

/-- The start of a transfer: the receiver has asked for the first record. -/
def Net.start (dest : Memory) : Net :=
  { receiver := (Receiver.start dest).1, toSender := sent (Receiver.start dest).2 }

/-! ### The records of a file -/

variable {ram : Ram} {file : List (List UInt8)} {s s' : Net} {k m : ℕ}

/-- The first records of a file. -/
def recordsOf (file : List (List UInt8)) (k : ℕ) : List (List UInt8) :=
  (file.take k).mapIdx recordOf

theorem length_recordsOf (h : k ≤ file.length) : (recordsOf file k).length = k := by
  rw [recordsOf, List.length_mapIdx, List.length_take, Nat.min_eq_left h]

theorem recordsOf_succ (h : k < file.length) :
    recordsOf file (k + 1) = recordsOf file k ++ [recordOf k (file.getD k [])] := by
  have htake : file.take (k + 1) = file.take k ++ [file.getD k []] := by
    rw [List.take_succ_eq_append_getElem h, List.getD_eq_getElem _ _ h]
  rw [recordsOf, htake, List.mapIdx_concat, List.length_take, Nat.min_eq_left h.le, recordsOf]

theorem length_recordOf {i : ℕ} {data : List UInt8} (h : data.length = packetSize) :
    (recordOf i data).length = packetSize + 4 := by
  simp [recordOf, h]

theorem payload_recordOf {i : ℕ} {data : List UInt8} (h : data.length = packetSize) :
    payload (recordOf i data) = data := by
  simp [payload, recordOf, ← h]

/-- The bytes of a word of 16 bits. -/
theorem u16OfBytes_parts (x : UInt16) : u16OfBytes x.toUInt8 (x >>> 8).toUInt8 = x := by
  have hx := x.toNat_lt
  rw [← UInt16.toNat_inj, toNat_u16OfBytes]
  simp [Nat.shiftRight_eq_div_pow]
  omega

theorem validRecord_recordOf {i : ℕ} {data : List UInt8} (h : data.length = packetSize) :
    ValidRecord (UInt8.ofNat (i + 1)) (recordOf i data) := by
  refine ⟨length_recordOf h, rfl, rfl, ?_⟩
  have h130 : (recordOf i data).getD 130 0 = (crc16 data >>> 8).toUInt8 := by
    simp [recordOf, h, packetSize]
  have h131 : (recordOf i data).getD 131 0 = (crc16 data).toUInt8 := by
    simp [recordOf, h, packetSize]
  rw [payload_recordOf h, h130, h131, u16OfBytes_parts]

/-! ### The phases of a transfer -/

/-- The receiver has stored the first `k` records of the file. -/
structure Stores (file : List (List UInt8)) (k : ℕ) (r : Receiver) : Prop where
  holds : Holds r (recordsOf file k)
  ready : Ready r (recordsOf file k)

/-- The receiver has returned the number of bytes of the file, which is in the block. -/
def Completed (file : List (List UInt8)) (s : Net) : Prop :=
  s.receiver.pc = .done (packetSize * file.length : ℕ) ∧
    s.receiver.dest.slice 0 (packetSize * file.length) = file.flatten

/-- The phases of a transfer, each with a bound on the number of steps that are left. -/
inductive Progress (file : List (List UInt8)) : Net → ℕ → Prop
  /-- The receiver asks for the first record. -/
  | asking {s : Net} (hstores : Stores file 0 s.receiver) (hpc : s.receiver.pc = .wait)
      (hstarting : s.receiver.starting = true) (hsender : s.sender = .start)
      (hreceiver : s.toReceiver = []) (hlength : s.toSender.length ≤ 1)
      (hlost : s.lost < retryLimit.toNat)
      (hretries : retryLimit.toNat ≤ s.receiver.retries.toNat + s.lost + s.toSender.count charC) :
      Progress file s (300 * file.length + 200 + 5 * s.receiver.retries.toNat +
        3 * s.toSender.length + (retryLimit.toNat - s.lost))
  /-- A record is on its way. -/
  | sending {s : Net} {k : ℕ} (hstores : Stores file k s.receiver) (hpc : s.receiver.pc = .wait)
      (hk : k < file.length) (hsender : s.sender = .record k)
      (hreceiver : s.toReceiver = soh :: recordOf k (file.getD k [])) (hquiet : s.toSender = [])
      (hlost : s.lost < retryLimit.toNat) :
      Progress file s (300 * (file.length - k) + 150)
  /-- A part of a record has arrived. -/
  | reading {s : Net} {k : ℕ} (buf : List UInt8) (hstores : Stores file k s.receiver)
      (hpc : s.receiver.pc = .record buf) (hstarting : s.receiver.starting = false)
      (hk : k < file.length) (hsender : s.sender = .record k)
      (hreceiver : buf ++ s.toReceiver = recordOf k (file.getD k []))
      (hlength : buf.length < packetSize + 4) (hquiet : s.toSender = [])
      (hlost : s.lost < retryLimit.toNat) :
      Progress file s (300 * (file.length - k) + 10 + s.toReceiver.length)
  /-- A record has arrived, and the receiver waits until the line is quiet. -/
  | accepting {s : Net} {k : ℕ} (hstores : Stores file k s.receiver)
      (hpc : s.receiver.pc = .flush (.accept (recordOf k (file.getD k []))))
      (hstarting : s.receiver.starting = false) (hk : k < file.length)
      (hsender : s.sender = .record k) (hreceiver : s.toReceiver = []) (hquiet : s.toSender = [])
      (hlost : s.lost < retryLimit.toNat) :
      Progress file s (300 * (file.length - k) + 9)
  /-- The acknowledgement of a record is on its way. -/
  | acknowledged {s : Net} {k : ℕ} (hstores : Stores file (k + 1) s.receiver)
      (hpc : s.receiver.pc = .wait) (hk : k < file.length) (hsender : s.sender = .record k)
      (hreceiver : s.toReceiver = []) (hack : s.toSender = [ack])
      (hlost : s.lost < retryLimit.toNat) :
      Progress file s (300 * (file.length - k) + 5)
  /-- The end is on its way. -/
  | ending {s : Net} (hstores : Stores file file.length s.receiver) (hpc : s.receiver.pc = .wait)
      (hsender : s.sender = .final) (hreceiver : s.toReceiver = [eot]) (hquiet : s.toSender = [])
      (hlost : s.lost < retryLimit.toNat) :
      Progress file s 100
  /-- The receiver waits until the line is quiet, to return. -/
  | finishing {s : Net} (hholds : Holds s.receiver (recordsOf file file.length))
      (hpc : s.receiver.pc = .flush (.finish (packetSize * file.length : ℕ)))
      (hsender : s.sender = .final ∨ s.sender = .done) (hlost : s.lost < retryLimit.toNat) :
      Progress file s (2 * s.toSender.length + s.toReceiver.length + (retryLimit.toNat - s.lost))

/-- A file that fits into the memory, in records. -/
structure FileFits (ram : Ram) (file : List (List UInt8)) : Prop where
  data : ∀ data ∈ file, data.length = packetSize
  long : packetSize * file.length < 2 ^ 31
  memory : packetSize * file.length + 512 ≤ ram.size

theorem FileFits.length_getD (h : FileFits ram file) (hk : k < file.length) :
    (file.getD k []).length = packetSize := by
  rw [List.getD_eq_getElem _ _ hk]
  exact h.data _ (List.getElem_mem hk)

theorem Stores.congr {r r' : Receiver} (h : Stores file k r) (hsize : r'.size = r.size)
    (hdest : r'.dest = r.dest) (hpacknum : r'.packnum = r.packnum) (hlimit : r'.limit = r.limit)
    (hroom : r'.room = r.room) : Stores file k r' :=
  ⟨h.holds.congr hsize hdest, h.ready.congr hpacknum hsize hlimit hroom⟩

theorem receive_eq {ch : Option UInt8} {r : Receiver} {acts : List Action}
    (h : s.receiver.step ram { ch } = some (r, acts)) :
    s.receive ram ch = some { s with receiver := r, toSender := s.toSender ++ sent acts } := by
  rw [Net.receive, h]
  rfl

theorem step_arrive {c : UInt8} {rest : List UInt8} {r : Receiver} {acts : List Action}
    (hqueue : s.toReceiver = c :: rest)
    (h : s.receiver.step ram { ch := some c } = some (r, acts)) :
    s.step ram file .arrive = some { s with
      receiver := r
      toReceiver := rest
      toSender := s.toSender ++ sent acts } := by
  simp only [Net.step, hqueue]
  exact receive_eq (s := { s with toReceiver := rest }) h

theorem step_quiet {r : Receiver} {acts : List Action} (hreceiver : s.toReceiver = [])
    (hsender : s.toSender = []) (h : s.receiver.step ram { ch := none } = some (r, acts)) :
    s.step ram file .quiet = some { s with receiver := r, toSender := sent acts } := by
  have hquiet : s.isQuiet = true := by simp [Net.isQuiet, hreceiver, hsender]
  simp only [Net.step, if_pos hquiet]
  rw [receive_eq h, hsender, List.nil_append]

theorem step_answer {c : UInt8} {rest : List UInt8} (h : s.toSender = c :: rest) :
    s.step ram file .answer = some { s with
      sender := (s.sender.answer file c).1
      toSender := rest
      toReceiver := s.toReceiver ++ (s.sender.answer file c).2 } := by
  simp only [Net.step, h]

/-- With a record or the end on its way nothing else can happen than that it arrives. -/
theorem eq_arrive_of_step {c : UInt8} {rest : List UInt8} {e : NetEvent}
    (hreceiver : s.toReceiver = c :: rest) (hsender : s.toSender = [])
    (hstep : s.step ram file e = some s') : e = .arrive := by
  cases e with
  | arrive => rfl
  | quiet => simp [Net.step, Net.isQuiet, hreceiver] at hstep
  | answer => simp [Net.step, hsender] at hstep
  | resend => simp [Net.step, Net.isQuiet, hreceiver] at hstep
  | lose => simp [Net.step, hsender] at hstep
  | change c => simp [Net.step, hsender] at hstep

/-- The sender goes on to the record `k`, or to the end. -/
theorem progress_at {lost : ℕ} {r : Receiver} (hstores : Stores file k r) (hpc : r.pc = .wait)
    (hk : k ≤ file.length) (hlost : lost < retryLimit.toNat) :
    ∃ m' ≤ 300 * (file.length - k) + 150, Progress file ⟨r, .at file k,
      (Sender.at file k).output file, [], lost⟩ m' := by
  unfold Sender.at
  split_ifs with hlt
  · exact ⟨_, Nat.le_refl _, .sending hstores hpc hlt rfl rfl rfl hlost⟩
  · obtain rfl : k = file.length := by omega
    exact ⟨100, by omega, .ending hstores hpc rfl rfl rfl hlost⟩

/-- One step while the receiver asks for the first record. -/
theorem asking_step {e : NetEvent} (hstores : Stores file 0 s.receiver)
    (hpc : s.receiver.pc = .wait) (hstarting : s.receiver.starting = true)
    (hsender : s.sender = .start) (hreceiver : s.toReceiver = [])
    (hlength : s.toSender.length ≤ 1) (hlost : s.lost < retryLimit.toNat)
    (hretries : retryLimit.toNat ≤ s.receiver.retries.toNat + s.lost + s.toSender.count charC)
    (hcareful : s.Careful e) (hstep : s.step ram file e = some s') :
    ∃ m' < 300 * file.length + 200 + 5 * s.receiver.retries.toNat + 3 * s.toSender.length +
      (retryLimit.toNat - s.lost), Progress file s' m' := by
  have hqueues : s.toSender = [] ∨ ∃ c, s.toSender = [c] :=
    (Nat.le_one_iff_eq_zero_or_eq_one.mp hlength).imp List.length_eq_zero_iff.mp
      List.length_eq_one_iff.mp
  cases e with
  | arrive => simp [Net.step, hreceiver] at hstep
  | resend => simp [Net.step, hsender, Sender.output] at hstep
  | quiet =>
    by_cases hquiet : s.toSender = []
    · rw [hquiet, List.count_nil] at hretries
      have hpos : 0 < s.receiver.retries.toNat := by omega
      have hne : s.receiver.retries ≠ 0 := fun h0 => by simp [h0] at hpos
      have hone : (1 : UInt32) ≤ s.receiver.retries := UInt32.le_iff_toNat_le.mpr hpos
      have hsub : (s.receiver.retries - 1).toNat = s.receiver.retries.toNat - 1 :=
        UInt32.toNat_sub_of_le _ _ hone
      let r : Receiver := { s.receiver with retries := s.receiver.retries - 1, pc := .wait }
      have hloop : s.receiver.step ram { ch := none } = some (r, [.send charC]) := by
        simp only [Receiver.step, hpc, Receiver.loop, if_pos hne, if_pos hstarting, r]
      rw [step_quiet hreceiver hquiet hloop] at hstep
      obtain rfl := Option.some.inj hstep
      refine ⟨_, ?_, .asking (hstores.congr rfl rfl rfl rfl rfl) rfl hstarting hsender hreceiver
        (Nat.le_refl 1) hlost ?_⟩
      · simp only [r, hsub, hquiet, sent, List.filterMap, List.length_singleton, List.length_nil]
        omega
      · simp only [r, hsub, sent, List.filterMap, List.count_singleton_self]
        omega
    · simp [Net.step, Net.isQuiet, hquiet] at hstep
  | answer =>
    obtain hqueue | ⟨c, hqueue⟩ := hqueues
    · simp [Net.step, hqueue] at hstep
    · rw [step_answer hqueue, hsender, Sender.answer, hreceiver] at hstep
      by_cases hc : c = charC
      · rw [if_pos hc] at hstep
        obtain rfl := Option.some.inj hstep
        obtain ⟨m', hm', hprogress⟩ := progress_at hstores hpc (Nat.zero_le _) hlost
        exact ⟨m', by omega, hprogress⟩
      · rw [if_neg hc] at hstep
        obtain rfl := Option.some.inj hstep
        rw [hqueue, List.count_singleton, if_neg (by simpa using hc)] at hretries
        refine ⟨_, ?_, .asking hstores hpc hstarting rfl rfl (Nat.zero_le _) hlost ?_⟩
        · simp only [hqueue, List.length_nil, List.length_singleton]
          omega
        · simpa using hretries
  | lose =>
    obtain hqueue | ⟨c, hqueue⟩ := hqueues
    · simp [Net.step, hqueue] at hstep
    · have hbelow : s.lost + 1 < retryLimit.toNat := hcareful.1
      simp only [Net.step, hqueue] at hstep
      obtain rfl := Option.some.inj hstep
      have hcount : s.toSender.count charC ≤ 1 := by
        rw [hqueue]
        exact List.count_le_length
      refine ⟨_, ?_, .asking hstores hpc hstarting hsender hreceiver (Nat.zero_le _) hbelow ?_⟩
      · simp only [hqueue, List.length_nil, List.length_singleton]
        omega
      · simp only [List.count_nil]
        omega
  | change _ =>
    obtain hqueue | ⟨c, hqueue⟩ := hqueues
    · simp [Net.step, hqueue] at hstep
    · have hbelow : s.lost + 1 < retryLimit.toNat := hcareful.1
      simp only [Net.step, hqueue] at hstep
      obtain rfl := Option.some.inj hstep
      have hcount : s.toSender.count charC ≤ 1 := by
        rw [hqueue]
        exact List.count_le_length
      refine ⟨_, ?_, .asking hstores hpc hstarting hsender hreceiver (Nat.le_refl 1) hbelow ?_⟩
      · simp only [hqueue, List.length_singleton]
        omega
      · dsimp only
        omega

/-- One step while a record is on its way: its `SOH` arrives. -/
theorem sending_step {e : NetEvent} (hfits : FileFits ram file) (hstores : Stores file k s.receiver)
    (hpc : s.receiver.pc = .wait) (hk : k < file.length) (hsender : s.sender = .record k)
    (hreceiver : s.toReceiver = soh :: recordOf k (file.getD k [])) (hquiet : s.toSender = [])
    (hlost : s.lost < retryLimit.toNat) (hstep : s.step ram file e = some s') :
    ∃ m' < 300 * (file.length - k) + 150, Progress file s' m' := by
  obtain rfl := eq_arrive_of_step hreceiver hquiet hstep
  have hsoh : s.receiver.step ram { ch := some soh } =
      some ({ s.receiver with starting := false, pc := .record [] }, []) := by
    simp only [Receiver.step, hpc, if_pos]
  rw [step_arrive hreceiver hsoh] at hstep
  obtain rfl := Option.some.inj hstep
  refine ⟨_, ?_, .reading [] (hstores.congr rfl rfl rfl rfl rfl) rfl rfl hk hsender rfl
    (by decide) (by simp [hquiet, sent]) hlost⟩
  rw [length_recordOf (hfits.length_getD hk)]
  unfold packetSize
  omega

/-- One step while a record is read. -/
theorem reading_step {e : NetEvent} {buf : List UInt8} (hfits : FileFits ram file)
    (hstores : Stores file k s.receiver) (hpc : s.receiver.pc = .record buf)
    (hstarting : s.receiver.starting = false) (hk : k < file.length)
    (hsender : s.sender = .record k)
    (hreceiver : buf ++ s.toReceiver = recordOf k (file.getD k []))
    (hlength : buf.length < packetSize + 4) (hquiet : s.toSender = [])
    (hlost : s.lost < retryLimit.toNat) (hstep : s.step ram file e = some s') :
    ∃ m' < 300 * (file.length - k) + 10 + s.toReceiver.length, Progress file s' m' := by
  have hdata := hfits.length_getD hk
  have htotal : (buf ++ s.toReceiver).length = packetSize + 4 := by
    rw [hreceiver, length_recordOf hdata]
  rw [List.length_append] at htotal
  match hqueue : s.toReceiver with
  | [] =>
    rw [hqueue, List.length_nil] at htotal
    omega
  | c :: rest =>
    rw [hqueue, List.length_cons] at htotal
    have hmore : buf ++ [c] ++ rest = recordOf k (file.getD k []) := by
      rw [← hreceiver, hqueue, List.append_assoc, List.singleton_append]
    obtain rfl := eq_arrive_of_step hqueue hquiet hstep
    by_cases hshort : buf.length + 1 < packetSize + 4
    · have hread : s.receiver.step ram { ch := some c } =
          some ({ s.receiver with pc := .record (buf ++ [c]) }, []) := by
        simp only [Receiver.step, hpc, if_pos hshort]
      rw [step_arrive hqueue hread] at hstep
      obtain rfl := Option.some.inj hstep
      refine ⟨_, ?_, .reading (buf ++ [c]) (hstores.congr rfl rfl rfl rfl rfl) rfl hstarting
        hk hsender hmore (by simpa using hshort) (by simp [hquiet, sent]) hlost⟩
      rw [List.length_cons]
      dsimp only
      omega
    · obtain rfl : rest = [] := List.length_eq_zero_iff.mp (by omega)
      rw [List.append_nil] at hmore
      have hpacknum : s.receiver.packnum = UInt8.ofNat (k + 1) := by
        rw [hstores.ready.packnum, length_recordsOf hk.le]
      have hvalid : getRecord s.receiver.packnum (buf ++ [c]) = true := by
        rw [hmore, hpacknum]
        exact (getRecord_iff (length_recordOf hdata)).mpr (validRecord_recordOf hdata)
      have hread : s.receiver.step ram { ch := some c } =
          some ({ s.receiver with pc := .flush (.accept (buf ++ [c])) }, []) := by
        simp only [Receiver.step, hpc, if_neg hshort, if_pos hvalid]
      rw [step_arrive hqueue hread] at hstep
      obtain rfl := Option.some.inj hstep
      refine ⟨_, ?_, .accepting (hstores.congr rfl rfl rfl rfl rfl) (by rw [hmore]) hstarting hk
        hsender rfl (by simp [hquiet, sent]) hlost⟩
      rw [List.length_cons]
      omega

/-- One step once a record has arrived: the line is quiet, and the record is stored and
acknowledged. -/
theorem accepting_step {e : NetEvent} (hfits : FileFits ram file)
    (hstores : Stores file k s.receiver)
    (hpc : s.receiver.pc = .flush (.accept (recordOf k (file.getD k []))))
    (hstarting : s.receiver.starting = false) (hk : k < file.length)
    (hsender : s.sender = .record k) (hreceiver : s.toReceiver = []) (hquiet : s.toSender = [])
    (hlost : s.lost < retryLimit.toNat) (hstep : s.step ram file e = some s') :
    ∃ m' < 300 * (file.length - k) + 9, Progress file s' m' := by
  cases e with
  | arrive => simp [Net.step, hreceiver] at hstep
  | answer => simp [Net.step, hquiet] at hstep
  | resend => simp [Net.step, Net.flushing, hpc] at hstep
  | lose => simp [Net.step, hquiet] at hstep
  | change c => simp [Net.step, hquiet] at hstep
  | quiet =>
    have hlen : (recordsOf file k).length = k := length_recordsOf hk.le
    have hpacknum : s.receiver.packnum = UInt8.ofNat (k + 1) := by
      rw [hstores.ready.packnum, hlen]
    have hvalid : ValidRecord s.receiver.packnum (recordOf k (file.getD k [])) := by
      rw [hpacknum]
      exact validRecord_recordOf (hfits.length_getD hk)
    obtain ⟨t, haccept, ht, hnext, htstarting, htretries⟩ | ⟨t, -, -, -, hmemory⟩ :=
      accept_cases ram true hstores.holds hstores.ready hvalid
    · have hloop : t.loop = ({ t with retries := t.retries - 1, pc := .wait }, []) := by
        have hne : t.retries ≠ 0 := by
          rw [htretries]
          decide
        have hnot : ¬ t.starting = true := by
          rw [htstarting, hstarting]
          decide
        simp only [Receiver.loop, if_pos hne, if_neg hnot]
      have hread : s.receiver.step ram { ch := none } = some (t.loop.1,
          .send ack :: .store (recordOf k (file.getD k [])) :: t.loop.2) := by
        simp only [Receiver.step, hpc]
        exact haccept
      rw [step_quiet hreceiver hquiet hread, hloop] at hstep
      obtain rfl := Option.some.inj hstep
      rw [← recordsOf_succ hk] at ht hnext
      exact ⟨_, by omega, .acknowledged ⟨ht.congr rfl rfl, hnext.congr rfl rfl rfl rfl⟩ rfl hk
        hsender hreceiver rfl hlost⟩
    · -- the file fits into the memory
      refine absurd ⟨rfl, ?_⟩ hmemory
      rw [hstores.holds.size, hlen]
      have hroom := hfits.memory
      unfold packetSize at *
      omega

/-- One step once a record is acknowledged: the sender goes on. -/
theorem acknowledged_step {e : NetEvent} (hstores : Stores file (k + 1) s.receiver)
    (hpc : s.receiver.pc = .wait) (hk : k < file.length) (hsender : s.sender = .record k)
    (hreceiver : s.toReceiver = []) (hack : s.toSender = [ack]) (hlost : s.lost < retryLimit.toNat)
    (hcareful : s.Careful e) (hstep : s.step ram file e = some s') :
    ∃ m' < 300 * (file.length - k) + 5, Progress file s' m' := by
  have hprotected : s.acknowledging = true := by
    simp only [Net.acknowledging, hsender, hack, decide_true]
  cases e with
  | arrive => simp [Net.step, hreceiver] at hstep
  | quiet => simp [Net.step, Net.isQuiet, hack] at hstep
  | resend => simp [Net.step, Net.isQuiet, hack] at hstep
  | lose => exact absurd hcareful.2 (by simp [hprotected])
  | change c => exact absurd hcareful.2 (by simp [hprotected])
  | answer =>
    rw [step_answer hack, hsender, Sender.answer, if_pos rfl, hreceiver] at hstep
    obtain rfl := Option.some.inj hstep
    obtain ⟨m', hm', hprogress⟩ := progress_at hstores hpc hk hlost
    exact ⟨m', by omega, hprogress⟩

/-- The contents of the block once all records are stored. -/
theorem content_eq {r : Receiver} (hfits : FileFits ram file)
    (hholds : Holds r (recordsOf file file.length)) :
    r.size.toNat = packetSize * file.length ∧
      r.dest.slice 0 (packetSize * file.length) = file.flatten := by
  have hsize : r.size.toNat = packetSize * file.length := by
    rw [hholds.size, length_recordsOf (Nat.le_refl _)]
  have hpayload : (recordsOf file file.length).map payload = file := by
    refine List.ext_getElem (by simp [recordsOf]) fun i h₁ h₂ => ?_
    simp [recordsOf, payload_recordOf (hfits.data _ (List.getElem_mem h₂))]
  refine ⟨hsize, ?_⟩
  rw [← hsize, hholds.content, hpayload]

/-- One step once the end is on its way: it arrives. -/
theorem ending_step {e : NetEvent} (hfits : FileFits ram file)
    (hstores : Stores file file.length s.receiver) (hpc : s.receiver.pc = .wait)
    (hsender : s.sender = .final) (hreceiver : s.toReceiver = [eot]) (hquiet : s.toSender = [])
    (hlost : s.lost < retryLimit.toNat) (hstep : s.step ram file e = some s') :
    ∃ m' < 100, Progress file s' m' := by
  obtain rfl := eq_arrive_of_step hreceiver hquiet hstep
  have hsize := (content_eq hfits hstores.holds).1
  have hresult : s.receiver.size.toBitVec.toInt = (packetSize * file.length : ℕ) := by
    rw [← hsize]
    refine BitVec.toInt_eq_toNat_of_lt ?_
    have hlong := hfits.long
    change 2 * s.receiver.size.toNat < 2 ^ 32
    omega
  have hread : s.receiver.step ram { ch := some eot } = some ({ s.receiver with
      pc := .flush (.finish (packetSize * file.length : ℕ)) }, [.send ack]) := by
    rw [← hresult]
    simp only [Receiver.step, hpc]
    rfl
  rw [step_arrive hreceiver hread] at hstep
  obtain rfl := Option.some.inj hstep
  refine ⟨_, ?_, .finishing (hstores.holds.congr rfl rfl) rfl (Or.inl hsender) hlost⟩
  have hretry : retryLimit.toNat = 20 := rfl
  simp only [hquiet, sent, List.filterMap, List.nil_append, List.length_singleton, List.length_nil]
  omega

/-- One step until the line is quiet: then the receiver returns. -/
theorem finishing_step {e : NetEvent} (hfits : FileFits ram file)
    (hholds : Holds s.receiver (recordsOf file file.length))
    (hpc : s.receiver.pc = .flush (.finish (packetSize * file.length : ℕ)))
    (hsender : s.sender = .final ∨ s.sender = .done) (hlost : s.lost < retryLimit.toNat)
    (hcareful : s.Careful e) (hstep : s.step ram file e = some s') :
    Completed file s' ∨ ∃ m' < 2 * s.toSender.length + s.toReceiver.length +
      (retryLimit.toNat - s.lost), Progress file s' m' := by
  cases e with
  | arrive =>
    match hqueue : s.toReceiver with
    | [] => simp [Net.step, hqueue] at hstep
    | c :: rest =>
      have hread : s.receiver.step ram { ch := some c } = some (s.receiver, []) := by
        simp only [Receiver.step, hpc]
      rw [step_arrive hqueue hread] at hstep
      obtain rfl := Option.some.inj hstep
      refine Or.inr ⟨_, ?_, .finishing hholds hpc hsender hlost⟩
      simp only [sent, List.filterMap, List.append_nil, List.length_cons]
      omega
  | quiet =>
    by_cases hquiet : s.isQuiet
    · have hread : s.receiver.step ram { ch := none } = some ({ s.receiver with
          pc := .done (packetSize * file.length : ℕ) }, []) := by
        simp only [Receiver.step, hpc]
      simp only [Net.step, if_pos hquiet] at hstep
      rw [receive_eq hread] at hstep
      obtain rfl := Option.some.inj hstep
      exact Or.inl ⟨rfl, (content_eq hfits hholds).2⟩
    · simp [Net.step, hquiet] at hstep
  | answer =>
    match hqueue : s.toSender with
    | [] => simp [Net.step, hqueue] at hstep
    | c :: rest =>
      have hanswer : ((s.sender.answer file c).1 = .final ∨ (s.sender.answer file c).1 = .done) ∧
          (s.sender.answer file c).2.length ≤ 1 := by
        rcases hsender with h | h <;> rw [h] <;> simp only [Sender.answer]
        · split_ifs <;> simp [Sender.output]
        · simp
      rw [step_answer hqueue] at hstep
      obtain rfl := Option.some.inj hstep
      refine Or.inr ⟨_, ?_, .finishing hholds hpc hanswer.1 hlost⟩
      simp only [List.length_append, List.length_cons]
      omega
  | resend => simp [Net.step, Net.flushing, hpc] at hstep
  | lose =>
    match hqueue : s.toSender with
    | [] => simp [Net.step, hqueue] at hstep
    | _ :: rest =>
      simp only [Net.step, hqueue] at hstep
      obtain rfl := Option.some.inj hstep
      refine Or.inr ⟨_, ?_, .finishing hholds hpc hsender hcareful.1⟩
      simp only [List.length_cons]
      omega
  | change c =>
    match hqueue : s.toSender with
    | [] => simp [Net.step, hqueue] at hstep
    | _ :: rest =>
      simp only [Net.step, hqueue] at hstep
      obtain rfl := Option.some.inj hstep
      refine Or.inr ⟨_, ?_, .finishing hholds hpc hsender hcareful.1⟩
      simp only [List.length_cons]
      omega

/-! ### Whole transfers -/

/-- One step of a transfer. -/
theorem Progress.step {e : NetEvent} (hfits : FileFits ram file) (h : Progress file s m)
    (hcareful : s.Careful e) (hstep : s.step ram file e = some s') :
    Completed file s' ∨ ∃ m' < m, Progress file s' m' := by
  cases h with
  | asking hstores hpc hstarting hsender hreceiver hlength hlost hretries =>
    exact Or.inr (asking_step hstores hpc hstarting hsender hreceiver hlength hlost hretries
      hcareful hstep)
  | sending hstores hpc hk hsender hreceiver hquiet hlost =>
    exact Or.inr (sending_step hfits hstores hpc hk hsender hreceiver hquiet hlost hstep)
  | reading buf hstores hpc hstarting hk hsender hreceiver hlength hquiet hlost =>
    exact Or.inr (reading_step hfits hstores hpc hstarting hk hsender hreceiver hlength hquiet hlost
      hstep)
  | accepting hstores hpc hstarting hk hsender hreceiver hquiet hlost =>
    exact Or.inr (accepting_step hfits hstores hpc hstarting hk hsender hreceiver hquiet hlost
      hstep)
  | acknowledged hstores hpc hk hsender hreceiver hack hlost =>
    exact Or.inr (acknowledged_step hstores hpc hk hsender hreceiver hack hlost hcareful hstep)
  | ending hstores hpc hsender hreceiver hquiet hlost =>
    exact Or.inr (ending_step hfits hstores hpc hsender hreceiver hquiet hlost hstep)
  | finishing hholds hpc hsender hlost =>
    exact finishing_step hfits hholds hpc hsender hlost hcareful hstep

/-- The receiver goes on with whatever it is given, unless it would have to store a record. -/
theorem receiver_step_exists (ram : Ram) {r : Receiver}
    (hpc : ∀ buf, r.pc ≠ .flush (.accept buf)) (e : Event) :
    ∃ r' acts, r.step ram e = some (r', acts) := by
  obtain ⟨ch, granted⟩ := e
  cases h : r.pc with
  | wait =>
    cases ch <;> simp only [Receiver.step, h]
    · exact ⟨_, _, rfl⟩
    · split_ifs <;> exact ⟨_, _, rfl⟩
  | record buf =>
    cases ch <;> simp only [Receiver.step, h]
    · exact ⟨_, _, rfl⟩
    · split_ifs <;> exact ⟨_, _, rfl⟩
  | flush after =>
    cases after with
    | accept buf => exact absurd h (hpc buf)
    | finish result => cases ch <;> simp only [Receiver.step, h] <;> exact ⟨_, _, rfl⟩
    | cancel result => cases ch <;> simp only [Receiver.step, h] <;> exact ⟨_, _, rfl⟩
  | done result => exact ⟨r, [], by simp only [Receiver.step, h]⟩

/-- There is a next step that does no harm. -/
theorem next_exists (file : List (List UInt8))
    (hreceiver : ∀ ch, ∃ r acts, s.receiver.step ram { ch } = some (r, acts)) :
    ∃ s', s.step ram file .arrive = some s' ∨ s.step ram file .quiet = some s' ∨
      s.step ram file .answer = some s' := by
  match hreceive : s.toReceiver, hsend : s.toSender with
  | c :: rest, _ =>
    obtain ⟨r, acts, hstep⟩ := hreceiver (some c)
    exact ⟨_, Or.inl (step_arrive hreceive hstep)⟩
  | [], c :: rest => exact ⟨_, Or.inr (Or.inr (step_answer hsend))⟩
  | [], [] =>
    obtain ⟨r, acts, hstep⟩ := hreceiver none
    exact ⟨_, Or.inr (Or.inl (step_quiet hreceive hsend hstep))⟩

/-- A transfer that is not completed goes on. -/
theorem Progress.next (hfits : FileFits ram file) (h : Progress file s m) :
    ∃ s', s.step ram file .arrive = some s' ∨ s.step ram file .quiet = some s' ∨
      s.step ram file .answer = some s' := by
  have hother {pc : Pc} (hpc : s.receiver.pc = pc) (hne : ∀ buf, pc ≠ .flush (.accept buf)) :=
    next_exists file fun ch =>
      receiver_step_exists ram (fun buf hbuf => hne buf (hpc ▸ hbuf)) { ch }
  cases h with
  | asking _ hpc => exact hother hpc fun _ h => nomatch h
  | sending _ hpc => exact hother hpc fun _ h => nomatch h
  | reading _ _ hpc => exact hother hpc fun _ h => nomatch h
  | acknowledged _ hpc => exact hother hpc fun _ h => nomatch h
  | ending _ hpc => exact hother hpc fun _ h => nomatch h
  | finishing _ hpc => exact hother hpc fun _ h => nomatch h
  | @accepting k hstores hpc _ hk _ hreceiver hquiet _ =>
    have hvalid : ValidRecord s.receiver.packnum (recordOf k (file.getD k [])) := by
      rw [hstores.ready.packnum, length_recordsOf hk.le]
      exact validRecord_recordOf (hfits.length_getD hk)
    have hread : ∃ r acts, s.receiver.step ram { ch := none } = some (r, acts) := by
      simp only [Receiver.step, hpc]
      obtain ⟨t, haccept, -⟩ | ⟨t, haccept, -⟩ :=
        accept_cases ram true hstores.holds hstores.ready hvalid
      · exact ⟨_, _, haccept⟩
      · exact ⟨_, _, haccept⟩
    obtain ⟨r, acts, hstep⟩ := hread
    exact ⟨_, Or.inr (Or.inl (step_quiet hreceiver hquiet hstep))⟩

/-- The receiver has not returned before the transfer is completed. -/
theorem Progress.not_done (h : Progress file s m) (result : ℤ) : s.receiver.pc ≠ .done result := by
  intro hdone
  cases h with
  | asking _ hpc => exact nomatch hpc.symm.trans hdone
  | sending _ hpc => exact nomatch hpc.symm.trans hdone
  | reading _ _ hpc => exact nomatch hpc.symm.trans hdone
  | accepting _ hpc => exact nomatch hpc.symm.trans hdone
  | acknowledged _ hpc => exact nomatch hpc.symm.trans hdone
  | ending _ hpc => exact nomatch hpc.symm.trans hdone
  | finishing _ hpc => exact nomatch hpc.symm.trans hdone

/-- A transfer that is completed stays so. -/
theorem Completed.step {e : NetEvent} (h : Completed file s) (hstep : s.step ram file e = some s') :
    Completed file s' := by
  have hdone (ch : Option UInt8) : s.receiver.step ram { ch } = some (s.receiver, []) := by
    simp only [Receiver.step, h.1]
  have hreceiver : s'.receiver = s.receiver := by
    cases e with
    | arrive =>
      cases hqueue : s.toReceiver with
      | nil => simp [Net.step, hqueue] at hstep
      | cons c rest =>
        rw [step_arrive hqueue (hdone (some c))] at hstep
        obtain rfl := Option.some.inj hstep
        rfl
    | quiet =>
      by_cases hquiet : s.isQuiet
      · simp only [Net.step, if_pos hquiet] at hstep
        rw [receive_eq (hdone none)] at hstep
        obtain rfl := Option.some.inj hstep
        rfl
      · simp [Net.step, hquiet] at hstep
    | answer | resend | lose | change c =>
      simp only [Net.step] at hstep
      split at hstep
      · obtain rfl := Option.some.inj hstep
        rfl
      · cases hstep
  unfold Completed
  rw [hreceiver]
  exact h

/-- A run of a transfer that is completed. -/
theorem Completed.run {es : List NetEvent} (h : Completed file s)
    (hrun : runAll (guarded (Net.step ram file) Net.Careful) es s = some s') :
    Completed file s' := by
  induction es generalizing s with
  | nil =>
    obtain rfl : s = s' := by simpa [runAll] using hrun
    exact h
  | cons e es ih =>
    obtain ⟨t, ht, hrest⟩ := Option.bind_eq_some_iff.mp hrun
    exact ih (h.step (Option.ite_none_right_eq_some.mp ht).2) hrest

/-- A run of a transfer: it is completed, or goes on with fewer steps to make. -/
theorem Progress.run {es : List NetEvent} (hfits : FileFits ram file) (h : Progress file s m)
    (hrun : runAll (guarded (Net.step ram file) Net.Careful) es s = some s') :
    Completed file s' ∨ ∃ m', es.length + m' ≤ m ∧ Progress file s' m' := by
  induction es generalizing s m with
  | nil =>
    obtain rfl : s = s' := by simpa [runAll] using hrun
    exact Or.inr ⟨m, (Nat.zero_add m).le, h⟩
  | cons e es ih =>
    obtain ⟨t, ht, hrest⟩ := Option.bind_eq_some_iff.mp hrun
    obtain ⟨hcareful, ht⟩ := Option.ite_none_right_eq_some.mp ht
    rcases h.step hfits hcareful ht with hcompleted | ⟨m', hm', hprogress⟩
    · exact Or.inl (hcompleted.run hrest)
    · refine (ih hprogress hrest).imp_right ?_
      rintro ⟨m'', hm'', hlast⟩
      refine ⟨m'', ?_, hlast⟩
      rw [List.length_cons]
      omega

/-- Before the first step. -/
theorem progress_start (file : List (List UInt8)) (dest : Memory) :
    Progress file (Net.start dest) (300 * file.length + 318) := by
  have hstart : Receiver.start dest = ({ dest := dest, retries := 19 }, [.send charC]) := by
    have hne : ({ dest := dest } : Receiver).retries ≠ 0 := (by decide : retryLimit ≠ 0)
    have hless : retryLimit - 1 = 19 := by decide
    rw [Receiver.start, Receiver.loop, if_pos hne, if_pos rfl, ← hless]
  have hholds : Holds { dest := dest, retries := 19 } (recordsOf file 0) :=
    ⟨fun i hi => absurd hi (Nat.not_lt_zero i), rfl, rfl⟩
  have hready : Ready { dest := dest, retries := 19 } (recordsOf file 0) :=
    ⟨rfl, rfl, Nat.zero_le _, (by decide : initialBufferSize.toNat < 2 ^ 32 - 512)⟩
  rw [Net.start, hstart]
  exact .asking ⟨hholds, hready⟩ rfl rfl rfl rfl (Nat.le_refl 1) (by decide : 0 < 20)
    (by decide : 20 ≤ 19 + 0 + 1)

/-- A transfer is completed, or the receiver has not returned and there is a next step that does no
harm. -/
def Succeeds (ram : Ram) (file : List (List UInt8)) (s : Net) : Prop :=
  Completed file s ∨ (∀ result, s.receiver.pc ≠ .done result) ∧
    ∃ s', s.step ram file .arrive = some s' ∨ s.step ram file .quiet = some s' ∨
      s.step ram file .answer = some s'

/-- If the line leaves the acknowledgements of records alone, and loses or changes fewer characters
of the receiver than it makes tries, a transfer goes on until it is completed, which is so after a
bounded number of steps. -/
theorem transfer_completes (ram : Ram) (file : List (List UInt8)) (dest : Memory)
    (es : List NetEvent) (s : Net) (hfits : FileFits ram file)
    (hrun : runAll (guarded (Net.step ram file) Net.Careful) es (Net.start dest) = some s) :
    Succeeds ram file s ∧ (300 * file.length + 318 < es.length → Completed file s) := by
  rcases (progress_start file dest).run hfits hrun with hcompleted | ⟨m', hm', hlast⟩
  · exact ⟨Or.inl hcompleted, fun _ => hcompleted⟩
  · exact ⟨Or.inr ⟨hlast.not_done, hlast.next hfits⟩, fun hmany => absurd hmany (by omega)⟩

/-- The characters of a record arrive. -/
def arrival : List NetEvent := List.replicate 133 .arrive

set_option maxRecDepth 100000 in
/-- A file of one record, with the first request and the acknowledgement of the end lost. -/
theorem transfer_completes_zeros :
    ∃ s, runAll (guarded (Net.step ⟨1024, by decide⟩ [List.replicate 128 0]) Net.Careful)
        ([.lose, .quiet, .answer] ++ arrival ++ [.quiet, .answer, .arrive, .lose, .quiet])
        (Net.start fun _ => 0) = some s ∧ Succeeds ⟨1024, by decide⟩ [List.replicate 128 0] s := by
  have hsome : (runAll (guarded (Net.step ⟨1024, by decide⟩ [List.replicate 128 0]) Net.Careful)
      ([.lose, .quiet, .answer] ++ arrival ++ [.quiet, .answer, .arrive, .lose, .quiet])
      (Net.start fun _ => 0)).isSome = true := by
    decide +kernel
  obtain ⟨s, hrun⟩ := Option.isSome_iff_exists.mp hsome
  refine ⟨s, hrun, (transfer_completes ⟨1024, by decide⟩ [List.replicate 128 0] _ _ s
    ⟨?_, ?_, ?_⟩ hrun).1⟩ <;> decide +kernel

set_option maxRecDepth 100000 in
/-- If the acknowledgement of the first record is lost, each further one of its copies is refused,
until the receiver gives up. -/
theorem transfer_fails :
    ¬ ∀ (ram : Ram) (file : List (List UInt8)) (dest : Memory) (es : List NetEvent) (s : Net),
      FileFits ram file →
      runAll (guarded (Net.step ram file) Net.Below) es (Net.start dest) = some s →
        Succeeds ram file s := by
  intro h
  let copies : List NetEvent := (List.replicate 20 (arrival ++ [.answer])).flatten
  have hdone : (runAll (guarded (Net.step ⟨1024, by decide⟩ [List.replicate 128 0]) Net.Below)
      ([.answer] ++ arrival ++ [.quiet, .lose, .resend] ++ copies ++ arrival ++ [.quiet])
      (Net.start fun _ => 0)).map (fun s => s.receiver.pc) = some (.done errorRetryExceed) := by
    decide +kernel
  obtain ⟨s, hrun, hpc⟩ := Option.map_eq_some_iff.mp hdone
  have hfits : FileFits ⟨1024, by decide⟩ [List.replicate 128 0] := by
    refine ⟨?_, ?_, ?_⟩ <;> decide +kernel
  rcases h _ _ _ _ s hfits hrun with hcompleted | ⟨hnot, -⟩
  · have hresult := hpc.symm.trans hcompleted.1
    cases hresult
  · exact hnot _ hpc

end ELuaBrain.Xmodem
