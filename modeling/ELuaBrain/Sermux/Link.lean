import ELuaBrain.Sermux.Protocol

/-!
# One direction of the multiplexer line

A *link* is one direction of the serial line: the sender's service ID and remembered byte, the
receiver's service ID and pending escape, the data bytes in flight, and the service ID requests in
flight the other way. It forgets which end is the host and which is the device. A receiver that
has no service ID drops a data byte and asks for it; the sender answers with its service ID and the
byte it remembers.

A link is *in order* (`Link.InOrder`) in one of three phases:

* `Flowing`: no request is in flight, and every byte in flight reaches the receiver under the
  service ID it was sent for.
* `Dropping`: no request is in flight, and the single byte in flight will be dropped; the sender
  remembers it.
* `Asking`: nothing but one request is in flight, and the sender remembers the byte asked for.

## Main definitions

* `Link`, `Link.send`, `Link.receive`, `Link.answer`, `Link.restartReceiver`,
  `Link.restartSender`.
* `Tok` : a service ID or a data byte in flight, `Wire` : the bytes of a list of them.
* `Link.Quiet`, `Link.CanLoseReceiver` : when sending and restarting are harmless.

## Main results

* `Link.InOrder.send`, `Link.InOrder.receive`, `Link.InOrder.answer`,
  `Link.InOrder.restartReceiver`, `Link.InOrder.restartSender` : each move keeps a link in order.
* `Link.InOrder.got_prefix` : the bytes delivered are a prefix of the bytes sent.
-/

namespace ELuaBrain.Sermux

/-- One direction of the line. -/
structure Link where
  /-- The service ID that the sender announced last. -/
  idOut : Option ℕ
  /-- The byte that the sender remembers. -/
  last : Option LastSent
  /-- The receiver's service ID. -/
  idIn : Option ℕ
  gotEsc : Bool
  /-- The bytes in flight, without the sender's own requests. -/
  data : List UInt8
  /-- The number of requests in flight from the receiver to the sender. -/
  requests : ℕ
  sent : List (ℕ × UInt8)
  got : List (ℕ × UInt8)

namespace Link

/-- The sender sends a byte of the service `id`. -/
def send (id : ℕ) (c : UInt8) (k : Link) : Link :=
  { k with
    idOut := some id
    last := some (lastSentOf c)
    data := k.data ++ (sendTx k.idOut id c).map Tx.byte
    sent := k.sent ++ [(id, c)] }

/-- The receiver handles the first byte in flight. -/
def receive (c : UInt8) (rest : List UInt8) (k : Link) : Link :=
  if c = sermuxEscapeChar then { k with data := rest, gotEsc := true }
  else if isServiceId c then { k with data := rest, idIn := some c.toNat }
  else
    match k.idIn with
    | none => { k with data := rest, gotEsc := false, requests := k.requests + 1 }
    | some id =>
        { k with
          data := rest
          gotEsc := false
          got := k.got ++ [(id, if k.gotEsc then c ^^^ sermuxEscapeXorMask else c)] }

/-- The sender handles a request: it repeats its service ID and the byte `p` it remembers. -/
def answer (p : LastSent) (k : Link) : Link :=
  { k with
    last := none
    requests := k.requests - 1
    data := k.data ++ (Tx.serviceId (k.idOut.getD 0xFF) :: p.tx).map Tx.byte }

/-- The receiver starts again. -/
def restartReceiver (k : Link) : Link := { k with idIn := none, gotEsc := false }

/-- The sender starts again. -/
def restartSender (k : Link) : Link := { k with idOut := none, last := none }

end Link

/-! ### Bytes in flight -/

/-- A service ID or a data byte in flight. -/
inductive Tok where
  | sid (id : ℕ)
  | byte (c : UInt8)

/-- The bytes on the line. -/
def Tok.bytes : Tok → List UInt8
  | sid id => [UInt8.ofNat id]
  | byte c => (lastSentOf c).tx.map Tx.byte

/-- The bytes of a list of tokens on the line. -/
def wire (ts : List Tok) : List UInt8 := ts.flatMap Tok.bytes

/-- The bytes `bs` are what the receiver still has to see of the tokens `ts`: all of them, or all
but the escape character of the first. -/
def Wire (gotEsc : Bool) (bs : List UInt8) (ts : List Tok) : Prop :=
  if gotEsc then
    ∃ c ts', ts = .byte c :: ts' ∧ isSpecial c = true ∧
      bs = (c ^^^ sermuxEscapeXorMask) :: wire ts'
  else bs = wire ts

/-- The bytes that a receiver with service ID `idIn` delivers, or `none` if it drops one. -/
def items : Option ℕ → List Tok → Option (List (ℕ × UInt8))
  | _, [] => some []
  | _, .sid id :: ts => items (some id) ts
  | none, .byte _ :: _ => none
  | some id, .byte c :: ts => (items (some id) ts).map ((id, c) :: ·)

/-- The service ID of a receiver after the tokens. -/
def lastId : Option ℕ → List Tok → Option ℕ
  | idIn, [] => idIn
  | _, .sid id :: ts => lastId (some id) ts
  | idIn, .byte _ :: ts => lastId idIn ts

/-- The data bytes in flight that arrive before any service ID. -/
def orphans (bs : List UInt8) : List UInt8 :=
  (bs.takeWhile fun c => !isServiceId c).filter fun c => c != sermuxEscapeChar

@[simp] theorem wire_nil : wire [] = [] := rfl

@[simp] theorem wire_cons (t : Tok) (ts : List Tok) : wire (t :: ts) = t.bytes ++ wire ts := rfl

@[simp] theorem wire_append (ts ts' : List Tok) : wire (ts ++ ts') = wire ts ++ wire ts' := by
  simp [wire]

theorem wire_false {bs : List UInt8} {ts : List Tok} : Wire false bs ts ↔ bs = wire ts := by
  simp [Wire]

theorem Wire.eq_nil {e : Bool} {bs : List UInt8} (h : Wire e bs []) : e = false ∧ bs = [] := by
  cases e with
  | false => exact ⟨rfl, wire_false.mp h⟩
  | true =>
    obtain ⟨c, ts', hts, -⟩ := by simpa only [Wire, ↓reduceIte] using h
    cases hts

theorem Wire.no_escape_of_sid {e : Bool} {bs : List UInt8} {id : ℕ} {ts : List Tok}
    (h : Wire e bs (.sid id :: ts)) : e = false := by
  cases e with
  | false => rfl
  | true =>
    obtain ⟨c, ts', hts, -⟩ := by simpa only [Wire, ↓reduceIte] using h
    cases hts

theorem Wire.append {e : Bool} {bs : List UInt8} {ts : List Tok} (h : Wire e bs ts)
    (ts' : List Tok) : Wire e (bs ++ wire ts') (ts ++ ts') := by
  cases e with
  | false => simp_all [Wire]
  | true =>
    simp only [Wire, ↓reduceIte] at h ⊢
    obtain ⟨c, ts₁, rfl, hc, rfl⟩ := h
    exact ⟨c, ts₁ ++ ts', rfl, hc, by simp⟩

theorem items_append {idIn : Option ℕ} {ts : List Tok} {l : List (ℕ × UInt8)}
    (h : items idIn ts = some l) (ts' : List Tok) :
    items idIn (ts ++ ts') = (items (lastId idIn ts) ts').map (l ++ ·) := by
  induction ts generalizing idIn l with
  | nil =>
    obtain rfl : l = [] := by simpa [items] using h.symm
    simp [lastId]
  | cons t ts ih =>
    match t, idIn with
    | .sid id, _ => exact ih h
    | .byte c, none => simp [items] at h
    | .byte c, some id =>
      simp only [items, Option.map_eq_some_iff] at h
      obtain ⟨l', hl', rfl⟩ := h
      simp [items, lastId, ih hl', Function.comp_def]

theorem lastId_append (idIn : Option ℕ) (ts ts' : List Tok) :
    lastId idIn (ts ++ ts') = lastId (lastId idIn ts) ts' := by
  induction ts generalizing idIn with
  | nil => rfl
  | cons t ts ih => cases t <;> exact ih _

theorem lastId_ne_none (id : ℕ) (ts : List Tok) : lastId (some id) ts ≠ none := by
  induction ts generalizing id with
  | nil => simp [lastId]
  | cons t ts ih => cases t <;> exact ih _

/-- A receiver that still has no service ID at the end, and dropped nothing, received nothing. -/
theorem eq_nil_of_lastId_eq_none {idIn : Option ℕ} {ts : List Tok} {l : List (ℕ × UInt8)}
    (h : items idIn ts = some l) (h' : lastId idIn ts = none) : idIn = none ∧ ts = [] := by
  match ts, idIn with
  | [], none => exact ⟨rfl, rfl⟩
  | ts, some id => exact absurd h' (lastId_ne_none id ts)
  | .sid id :: ts, none => exact absurd h' (lastId_ne_none id ts)
  | .byte c :: ts, none => simp [items] at h

/-! ### Orphans -/

theorem orphans_cons_data {c : UInt8} (hc : isSpecial c = false) (bs : List UInt8) :
    orphans (c :: bs) = c :: orphans bs := by
  obtain ⟨h₁, -, h₃⟩ := isSpecial_eq_false_iff.mp hc
  simp [orphans, h₃, h₁]

theorem orphans_wire_byte (c : UInt8) (ts : List Tok) :
    orphans (wire (.byte c :: ts)) = (lastSentOf c).byte :: orphans (wire ts) := by
  have hb := not_isSpecial_lastSentOf c
  cases hc : isSpecial c with
  | true =>
    simp only [lastSentOf, hc, ↓reduceIte] at hb ⊢
    rw [← orphans_cons_data hb]
    simp only [wire_cons, Tok.bytes, lastSentOf, hc, ↓reduceIte, LastSent.tx, List.map_cons,
      tx_byte_escape, tx_byte_data, List.map_nil, List.cons_append, List.nil_append]
    have hesc : isServiceId sermuxEscapeChar = false := by decide
    simp [orphans, hesc]
  | false =>
    have key := orphans_cons_data hc (wire ts)
    simpa [Tok.bytes, lastSentOf, hc, LastSent.tx] using key

/-- Without orphans the bytes in flight are none or start with a service ID. -/
theorem orphans_wire_eq_nil {ts : List Tok} (h : orphans (wire ts) = []) :
    ts = [] ∨ ∃ id ts', ts = .sid id :: ts' := by
  match ts with
  | [] => exact .inl rfl
  | .sid id :: ts' => exact .inr ⟨id, ts', rfl⟩
  | .byte c :: ts' =>
    rw [orphans_wire_byte] at h
    cases h

/-- A data token at the head has an orphan. -/
theorem Wire.orphans_byte {e : Bool} {bs : List UInt8} {c : UInt8} {ts : List Tok}
    (h : Wire e bs (.byte c :: ts)) : ∃ b, orphans bs = b :: orphans (wire ts) := by
  cases e with
  | false =>
    rw [wire_false] at h
    exact ⟨_, by rw [h, orphans_wire_byte]⟩
  | true =>
    obtain ⟨c₁, ts', hts, hc, hd⟩ := by simpa only [Wire, ↓reduceIte] using h
    obtain ⟨-, rfl⟩ := List.cons.inj hts
    exact ⟨_, by rw [hd, orphans_cons_data (not_isSpecial_xor hc)]⟩

/-- What the first byte in flight is: a service ID, an escape character, or the last byte of a data
token. -/
inductive Uncons (e : Bool) (c : UInt8) (rest : List UInt8) (ts : List Tok) : Prop
  | sid (id : ℕ) (ts' : List Tok) (he : e = false) (hts : ts = .sid id :: ts')
      (hc : c = UInt8.ofNat id) (hrest : rest = wire ts')
  | escape (c' : UInt8) (ts' : List Tok) (hts : ts = .byte c' :: ts') (hc : c = sermuxEscapeChar)
      (hrest : Wire true rest ts)
  | byte (c' : UInt8) (ts' : List Tok) (hts : ts = .byte c' :: ts') (hc : isSpecial c = false)
      (hc' : c' = if e then c ^^^ sermuxEscapeXorMask else c) (he : e = true → isSpecial c' = true)
      (hrest : rest = wire ts')

theorem Wire.uncons {e : Bool} {c : UInt8} {rest : List UInt8} {ts : List Tok}
    (h : Wire e (c :: rest) ts) : Uncons e c rest ts := by
  cases e with
  | true =>
    obtain ⟨c', ts', hts, hc', hd⟩ := by simpa only [Wire, ↓reduceIte] using h
    obtain ⟨rfl, hrest⟩ := List.cons.inj hd
    exact .byte c' ts' hts (not_isSpecial_xor hc') (by simp) (fun _ => hc') hrest
  | false =>
    rw [wire_false] at h
    match ts, h with
    | .sid id :: ts', h =>
      obtain ⟨hc, hrest⟩ := List.cons.inj h
      exact .sid id ts' rfl rfl hc hrest
    | .byte c' :: ts', h =>
      cases hc' : isSpecial c' with
      | true =>
        simp only [wire_cons, Tok.bytes, lastSentOf, hc', ↓reduceIte, LastSent.tx, List.map_cons,
          tx_byte_escape, tx_byte_data, List.map_nil, List.cons_append, List.nil_append,
          List.cons.injEq] at h
        exact .escape c' ts' rfl h.1 ⟨c', ts', rfl, hc', h.2⟩
      | false =>
        simp only [wire_cons, Tok.bytes, lastSentOf, hc', Bool.false_eq_true, ↓reduceIte,
          LastSent.tx, List.map_cons, tx_byte_data, List.map_nil, List.cons_append,
          List.nil_append, List.cons.injEq] at h
        obtain ⟨rfl, hrest⟩ := h
        exact .byte c ts' rfl hc' rfl (by simp) hrest

/-- A data token at the head of the bytes in flight is the only one left when there is a single
orphan and no service ID. -/
theorem Wire.eq_nil_of_orphans {e : Bool} {bs : List UInt8} {c : UInt8} {ts : List Tok}
    (h : Wire e bs (.byte c :: ts)) (h₁ : (orphans bs).length = 1)
    (hsid : ∀ b ∈ bs, isServiceId b = false)
    (hts : ∀ id, .sid id ∈ ts → sermuxServiceIdFirst ≤ id ∧ id ≤ sermuxServiceIdLast) :
    ts = [] := by
  obtain ⟨b, ho⟩ := h.orphans_byte
  have ho' : orphans (wire ts) = [] := by simpa [ho] using h₁
  obtain rfl | ⟨id, ts', rfl⟩ := orphans_wire_eq_nil ho'
  · rfl
  · -- a service ID in flight
    obtain ⟨hf, hl⟩ := hts id List.mem_cons_self
    have hmem : UInt8.ofNat id ∈ bs := by
      cases e with
      | false =>
        rw [wire_false] at h
        simp [h, Tok.bytes]
      | true =>
        obtain ⟨c₁, ts₁, hts₁, -, hd⟩ := by simpa only [Wire, ↓reduceIte] using h
        obtain ⟨-, rfl⟩ := List.cons.inj hts₁
        simp [hd, Tok.bytes]
    exact absurd (isServiceId_ofNat hf hl) (by simp [hsid _ hmem])

/-- Without the pending escape, the rest of a data byte is a data byte of its own. -/
theorem Wire.forget_escape {e : Bool} {bs : List UInt8} {c : UInt8} (h : Wire e bs [.byte c]) :
    ∃ c', Wire false bs [.byte c'] := by
  cases e with
  | false => exact ⟨c, h⟩
  | true =>
    obtain ⟨c₁, ts', hts, hc, hd⟩ := by simpa only [Wire, ↓reduceIte] using h
    obtain ⟨-, rfl⟩ := List.cons.inj hts
    have hb := not_isSpecial_xor hc
    exact ⟨c₁ ^^^ sermuxEscapeXorMask, by simp [Wire, hd, Tok.bytes, lastSentOf, hb, LastSent.tx]⟩

/-! ### In order -/

namespace Link

/-- Every byte in flight reaches the receiver under the service ID it was sent for. -/
structure Flowing (valid : ℕ → Prop) (k : Link) (ts : List Tok) (l : List (ℕ × UInt8)) :
    Prop where
  requests_eq : k.requests = 0
  data_wire : Wire k.gotEsc k.data ts
  valid_sid : ∀ id, .sid id ∈ ts → valid id
  items_eq : items k.idIn ts = some l
  sent_eq : k.sent = k.got ++ l
  idOut_eq : ∀ id, k.idOut = some id → lastId k.idIn ts = some id ∨ lastId k.idIn ts = none
  last_eq : ∀ p, k.last = some p →
    ∃ id c, valid id ∧ k.idOut = some id ∧ p = lastSentOf c ∧ k.sent.getLast? = some (id, c)

/-- The sender remembers the one byte sent that the receiver does not have. -/
structure Remembers (valid : ℕ → Prop) (k : Link) (id : ℕ) (c : UInt8) : Prop where
  valid_id : valid id
  idIn_eq : k.idIn = none
  idOut_eq : k.idOut = some id
  last_eq : k.last = some (lastSentOf c)
  sent_eq : k.sent = k.got ++ [(id, c)]

/-- The three phases of a link. -/
inductive InOrder (valid : ℕ → Prop) (k : Link) : Prop
  | flowing (ts : List Tok) (l : List (ℕ × UInt8)) (h : k.Flowing valid ts l)
  | dropping (id : ℕ) (c c' : UInt8) (h : k.Remembers valid id c) (hr : k.requests = 0)
      (hw : Wire k.gotEsc k.data [.byte c'])
  | asking (id : ℕ) (c : UInt8) (h : k.Remembers valid id c) (hr : k.requests = 1)
      (he : k.gotEsc = false) (hd : k.data = [])

/-- No request is in flight, and none will be made for the bytes in flight. -/
def Quiet (k : Link) : Prop := k.requests = 0 ∧ (k.idIn ≠ none ∨ orphans k.data = [])

/-- Without its service ID the receiver would drop no byte in flight, or exactly the last one
sent, which the sender still remembers. -/
def CanLoseReceiver (k : Link) : Prop :=
  orphans k.data = [] ∨
    ((orphans k.data).length = 1 ∧ (∀ c ∈ k.data, isServiceId c = false) ∧ k.last.isSome)

variable {valid : ℕ → Prop} {k : Link}

theorem InOrder.init (h : k = ⟨none, none, none, false, [], 0, [], []⟩) :
    k.InOrder valid := by
  subst h
  exact .flowing [] [] ⟨rfl, wire_false.mpr rfl, by simp, rfl, rfl, by simp, by simp⟩

/-- **What is delivered was sent.** In an order link the bytes delivered are a prefix of the bytes
sent. -/
theorem InOrder.got_prefix (h : k.InOrder valid) : k.got <+: k.sent := by
  obtain ⟨ts, l, h⟩ | ⟨id, c, c', h, -, -⟩ | ⟨id, c, h, -, -, -⟩ := h
  · exact ⟨l, h.sent_eq.symm⟩
  · exact ⟨_, h.sent_eq.symm⟩
  · exact ⟨_, h.sent_eq.symm⟩

/-- A link whose byte in flight will be dropped is not quiet. -/
theorem not_quiet_of_dropping {id : ℕ} {c c' : UInt8} (h : k.Remembers valid id c)
    (hw : Wire k.gotEsc k.data [.byte c']) : ¬ k.Quiet := by
  rintro ⟨-, hin | ho⟩
  · exact hin h.idIn_eq
  · obtain ⟨b, ho'⟩ := hw.orphans_byte
    rw [ho'] at ho
    cases ho

/-! ### Sending -/

/-- The tokens of one byte sent. -/
theorem wire_sendTx (idOut : Option ℕ) (id : ℕ) (c : UInt8) :
    (sendTx idOut id c).map Tx.byte =
      wire ((if some id ≠ idOut then [.sid id] else []) ++ [.byte c]) := by
  simp only [sendTx]
  split <;> simp [Tok.bytes]

/-- A byte sent while everything flows, on a service that the receiver will be in. -/
theorem Flowing.send {ts : List Tok} {l : List (ℕ × UInt8)} (h : k.Flowing valid ts l) {id : ℕ}
    (hid : valid id) (c : UInt8) (hlast : k.idOut = some id → lastId k.idIn ts = some id) :
    (k.send id c).Flowing valid
      (ts ++ ((if some id ≠ k.idOut then [.sid id] else []) ++ [.byte c])) (l ++ [(id, c)]) where
  requests_eq := h.requests_eq
  data_wire := by
    simp only [Link.send, wire_sendTx]
    exact h.data_wire.append _
  valid_sid := by
    intro id' hid'
    simp only [List.mem_append, List.mem_ite_nil_right, List.mem_singleton, Tok.sid.injEq,
      reduceCtorEq, or_false] at hid'
    obtain hid' | ⟨-, rfl⟩ := hid'
    · exact h.valid_sid _ hid'
    · exact hid
  items_eq := by
    simp only [Link.send, items_append h.items_eq]
    by_cases hout : some id = k.idOut
    · rw [hlast hout.symm, if_neg (not_not.mpr hout)]
      simp [items]
    · simp [hout, items]
  sent_eq := by simp [Link.send, h.sent_eq]
  idOut_eq := by
    intro id' hid'
    obtain rfl : id = id' := by simpa [Link.send] using hid'
    left
    by_cases hout : some id = k.idOut
    · simp [Link.send, lastId_append, hout, hlast hout.symm, lastId]
    · simp [Link.send, lastId_append, hout, lastId]
  last_eq := by
    intro p hp
    exact ⟨id, c, hid, rfl, by simpa [Link.send] using hp.symm, by simp [Link.send]⟩

/-- **Sending.** A byte sent while the link is quiet keeps it in order. -/
theorem InOrder.send (h : k.InOrder valid) (hq : k.Quiet) {id : ℕ} (hid : valid id) (c : UInt8) :
    (k.send id c).InOrder valid := by
  obtain ⟨ts, l, h⟩ | ⟨id₀, c₀, c', h, -, hw⟩ | ⟨id₀, c₀, h, hr, -, -⟩ := h
  · by_cases hlast : k.idOut = some id → lastId k.idIn ts = some id
    · exact .flowing _ _ (h.send hid c hlast)
    · -- the receiver has lost the service ID that the sender will not repeat
      rw [Classical.not_imp] at hlast
      obtain ⟨hout, hlast⟩ := hlast
      obtain ⟨hin, rfl⟩ :=
        eq_nil_of_lastId_eq_none h.items_eq ((h.idOut_eq id hout).resolve_left hlast)
      have he : k.gotEsc = false ∧ k.data = [] := h.data_wire.eq_nil
      have hl : l = [] := by simpa [items] using h.items_eq.symm
      refine .dropping id c c ⟨hid, hin, rfl, rfl, ?_⟩ h.requests_eq ?_
      · simp [Link.send, h.sent_eq, hl]
      · simp [Link.send, sendTx, he, hout, Wire, Tok.bytes]
  · exact absurd hq (not_quiet_of_dropping h hw)
  · exact absurd hq.1 (by simp [hr])

/-! ### Receiving -/

theorem receive_escape (rest : List UInt8) :
    k.receive sermuxEscapeChar rest = { k with data := rest, gotEsc := true } := by
  simp [Link.receive]

theorem receive_serviceId {id : ℕ} (h₁ : sermuxServiceIdFirst ≤ id)
    (h₂ : id ≤ sermuxServiceIdLast) (rest : List UInt8) :
    k.receive (UInt8.ofNat id) rest = { k with data := rest, idIn := some id } := by
  have hs := isServiceId_ofNat h₁ h₂
  simp [Link.receive, ne_escapeChar_of_isServiceId hs, hs, toNat_ofNat_serviceId h₂]

theorem receive_data {c : UInt8} (hc : isSpecial c = false) (rest : List UInt8) :
    k.receive c rest =
      match k.idIn with
      | none => { k with data := rest, gotEsc := false, requests := k.requests + 1 }
      | some id =>
          { k with
            data := rest
            gotEsc := false
            got := k.got ++ [(id, if k.gotEsc then c ^^^ sermuxEscapeXorMask else c)] } := by
  obtain ⟨h₁, -, h₃⟩ := isSpecial_eq_false_iff.mp hc
  simp [Link.receive, h₁, h₃]

/-- What the first byte in flight can be: the escape character, a service ID, or a byte that is not
special and whose flipped form is special when an escape is pending. -/
inductive Head (valid : ℕ → Prop) (gotEsc : Bool) (c : UInt8) : Prop
  | escape (h : c = sermuxEscapeChar)
  | serviceId (id : ℕ) (hid : valid id) (h : c = UInt8.ofNat id)
  | data (h : isSpecial c = false)
      (hesc : gotEsc = true → isSpecial (c ^^^ sermuxEscapeXorMask) = true)

theorem head_of_wire {e : Bool} {c : UInt8} {rest : List UInt8} {ts : List Tok}
    (h : Wire e (c :: rest) ts) (hsid : ∀ id, .sid id ∈ ts → valid id) : Head valid e c := by
  obtain ⟨id, ts', -, rfl, hc, -⟩ | ⟨c', ts', -, hc, -⟩ | ⟨c', ts', -, hc, hc', he, -⟩ := h.uncons
  · exact .serviceId id (hsid id List.mem_cons_self) hc
  · exact .escape hc
  · refine .data hc fun hesc => ?_
    have := he hesc
    rwa [hc', if_pos hesc] at this

theorem InOrder.head (h : k.InOrder valid) {c : UInt8} {rest : List UInt8}
    (hd : k.data = c :: rest) : Head valid k.gotEsc c := by
  obtain ⟨ts, l, h⟩ | ⟨id, c₀, c', h, -, hw⟩ | ⟨id, c₀, h, -, -, hd'⟩ := h
  · exact head_of_wire (hd ▸ h.data_wire) h.valid_sid
  · exact head_of_wire (hd ▸ hw) (by simp)
  · exact absurd (hd.symm.trans hd') (by simp)

theorem Flowing.receive {ts : List Tok} {l : List (ℕ × UInt8)} (h : k.Flowing valid ts l)
    (hvalid : ∀ id, valid id → sermuxServiceIdFirst ≤ id ∧ id ≤ sermuxServiceIdLast)
    {c : UInt8} {rest : List UInt8} (hd : k.data = c :: rest) :
    ∃ ts' l', (k.receive c rest).Flowing valid ts' l' := by
  obtain ⟨hreq, hwire, hsid, hitems, hsent, hout, hlast⟩ := h
  rw [hd] at hwire
  obtain ⟨id, ts', he, rfl, rfl, hrest⟩ | ⟨c', ts', rfl, rfl, hrest⟩ |
    ⟨c', ts', rfl, hc, hc', -, hrest⟩ := hwire.uncons
  · obtain ⟨hf, hl⟩ := hvalid id (hsid id List.mem_cons_self)
    rw [receive_serviceId hf hl]
    exact ⟨ts', l, hreq, by rw [he, wire_false]; exact hrest,
      fun id hid => hsid id (List.mem_cons_of_mem _ hid), hitems, hsent, hout, hlast⟩
  · rw [receive_escape]
    exact ⟨.byte c' :: ts', l, hreq, hrest, hsid, hitems, hsent, hout, hlast⟩
  · cases hin : k.idIn with
    | none => simp [hin, items] at hitems
    | some id =>
      rw [hin] at hitems hout
      simp only [items, Option.map_eq_some_iff] at hitems
      obtain ⟨l', hl', rfl⟩ := hitems
      rw [receive_data hc, hin]
      refine ⟨ts', l', hreq, wire_false.mpr hrest,
        fun id hid => hsid id (List.mem_cons_of_mem _ hid), ?_, ?_, ?_, hlast⟩
      · exact hl'
      · simp [hsent, hc']
      · simpa only [lastId] using hout

/-- **Receiving.** Handling the first byte in flight keeps a link in order. -/
theorem InOrder.receive (h : k.InOrder valid)
    (hvalid : ∀ id, valid id → sermuxServiceIdFirst ≤ id ∧ id ≤ sermuxServiceIdLast)
    {c : UInt8} {rest : List UInt8} (hd : k.data = c :: rest) :
    (k.receive c rest).InOrder valid := by
  obtain ⟨ts, l, h⟩ | ⟨id, c₀, c', h, hr, hw⟩ | ⟨id, c₀, -, -, -, hd'⟩ := h
  · obtain ⟨ts', l', h'⟩ := h.receive hvalid hd
    exact .flowing ts' l' h'
  · obtain ⟨hid, hin, hout, hlast, hsent⟩ := h
    rw [hd] at hw
    obtain ⟨id', ts', -, hts, -, -⟩ | ⟨c₁, ts', hts, rfl, hrest⟩ |
      ⟨c₁, ts', hts, hc, -, -, hrest⟩ := hw.uncons
    · cases hts
    · rw [receive_escape]
      exact .dropping id c₀ c' ⟨hid, hin, hout, hlast, hsent⟩ hr hrest
    · -- the byte is dropped and asked for
      obtain ⟨-, rfl⟩ := List.cons.inj hts
      have hrec : k.receive c rest =
          { k with data := rest, gotEsc := false, requests := k.requests + 1 } := by
        simp only [receive_data hc, hin]
      rw [hrec]
      exact .asking id c₀ ⟨hid, hin, hout, hlast, hsent⟩ (by simp [hr]) rfl hrest
  · exact absurd (hd.symm.trans hd') (by simp)

/-! ### Requests -/

/-- A request in flight finds the byte it asks for remembered, under a service ID. -/
theorem InOrder.exists_last (h : k.InOrder valid) (hr : k.requests ≠ 0) :
    ∃ id c, valid id ∧ k.idOut = some id ∧ k.last = some (lastSentOf c) := by
  obtain ⟨ts, l, h⟩ | ⟨id, c, c', -, hr', -⟩ | ⟨id, c, h, -, -, -⟩ := h
  · exact absurd h.requests_eq hr
  · exact absurd hr' hr
  · exact ⟨id, c, h.valid_id, h.idOut_eq, h.last_eq⟩

/-- **Answering.** The sender's answer to a request puts a link in order back to flowing. -/
theorem InOrder.answer (h : k.InOrder valid) (hr : k.requests ≠ 0) {p : LastSent}
    (hp : k.last = some p) : (k.answer p).InOrder valid := by
  obtain ⟨ts, l, h⟩ | ⟨id, c, c', -, hr', -⟩ | ⟨id, c, h, hr', he, hd⟩ := h
  · exact absurd h.requests_eq hr
  · exact absurd hr' hr
  · obtain ⟨hid, hin, hout, hlast, hsent⟩ := h
    obtain rfl : p = lastSentOf c := by simpa [hp] using hlast
    refine .flowing [.sid id, .byte c] [(id, c)] ⟨by simp [Link.answer, hr'], ?_,
      by simpa using hid, by simp [items], hsent, ?_, by simp [Link.answer]⟩
    · simp [Link.answer, he, hd, hout, Wire, Tok.bytes]
    · intro id' hid'
      obtain rfl : id = id' := by simpa [Link.answer, hout] using hid'
      simp [lastId]

/-! ### Restarts -/

/-- **The sender restarts.** A quiet link stays in order when its sender starts again. -/
theorem InOrder.restartSender (h : k.InOrder valid) (hq : k.Quiet) :
    k.restartSender.InOrder valid := by
  obtain ⟨ts, l, h⟩ | ⟨id₀, c₀, c', h, -, hw⟩ | ⟨id₀, c₀, h, hr, -, -⟩ := h
  · exact .flowing ts l ⟨h.requests_eq, h.data_wire, h.valid_sid, h.items_eq, h.sent_eq,
      by simp [Link.restartSender], by simp [Link.restartSender]⟩
  · exact absurd hq (not_quiet_of_dropping h hw)
  · exact absurd hq.1 (by simp [hr])

/-- **The receiver restarts.** A link stays in order when its receiver starts again at a moment that
loses no byte, or only the last one, still remembered. -/
theorem InOrder.restartReceiver (h : k.InOrder valid)
    (hvalid : ∀ id, valid id → sermuxServiceIdFirst ≤ id ∧ id ≤ sermuxServiceIdLast)
    (hl : k.CanLoseReceiver) : k.restartReceiver.InOrder valid := by
  obtain ⟨ts, l, h⟩ | ⟨id₀, c₀, c', h, hr, hw⟩ | ⟨id₀, c₀, h, hr, he, hd⟩ := h
  · obtain ⟨hreq, hwire, hsid, hitems, hsent, hout, hlast⟩ := h
    match ts, hwire, hitems, hout, hsid with
    | [], hwire, hitems, hout, hsid =>
      have hd : k.data = [] := (Wire.eq_nil hwire).2
      exact .flowing [] l ⟨hreq, wire_false.mpr hd, hsid, hitems, hsent, fun _ _ => .inr rfl, hlast⟩
    | .sid id :: ts', hwire, hitems, hout, hsid =>
      have he : k.gotEsc = false := Wire.no_escape_of_sid hwire
      rw [he] at hwire
      exact .flowing (.sid id :: ts') l ⟨hreq, hwire, hsid, hitems, hsent, hout, hlast⟩
    | .byte c :: ts', hwire, hitems, hout, hsid =>
      -- the last byte sent is in flight and will be asked for
      obtain ⟨b, ho⟩ := hwire.orphans_byte
      obtain hnil | ⟨hone, hnosid, hsome⟩ := hl
      · exact absurd (ho.symm.trans hnil) (by simp)
      · obtain rfl : ts' = [] := Wire.eq_nil_of_orphans hwire hone hnosid fun id hid =>
          hvalid id (hsid id (List.mem_cons_of_mem _ hid))
        obtain ⟨c', hw⟩ := Wire.forget_escape hwire
        obtain ⟨p, hp⟩ := Option.isSome_iff_exists.mp hsome
        obtain ⟨id, c₁, hid, hidOut, rfl, hget⟩ := hlast p hp
        cases hin : k.idIn with
        | none => simp [hin, items] at hitems
        | some id' =>
          obtain rfl : [(id', c)] = l := by simpa [hin, items] using hitems
          obtain ⟨rfl, rfl⟩ : id' = id ∧ c = c₁ := by simpa [hsent] using hget
          exact .dropping id' c c' ⟨hid, rfl, hidOut, hp, hsent⟩ hreq hw
  · obtain ⟨c₁, hw'⟩ := Wire.forget_escape hw
    exact .dropping id₀ c₀ c₁ ⟨h.valid_id, rfl, h.idOut_eq, h.last_eq, h.sent_eq⟩ hr hw'
  · exact .asking id₀ c₀ ⟨h.valid_id, rfl, h.idOut_eq, h.last_eq, h.sent_eq⟩ hr rfl hd

end Link

end ELuaBrain.Sermux
