import ELuaBrain.Net.Socket
import ELuaBrain.System.Reach

/-!
# Reading from a buffered socket

`elua_net_recv_internal` on a socket with a buffer, for `recv` and `recvfrom`. Segments arrive in
the callback of uIP, which may run between any two parts of a call. The bytes that a call copies
are appended to a Lua buffer or stored one after the other.

## Main definitions

* `Conn`, `Conn.step` : a socket with the call that reads from it.
* `Conn.Streams` : what is received is delivered, in order.
* `Conn.Returns` : a call returns the number of bytes it delivers.
* `Event.Careful` : what a call has to avoid for that.

## Main results

* `Conn.Inv.step` : one event.
* `streams_of_reach` : every run.
-/

namespace ELuaBrain.Net

/-- The places in `elua_net_recv_internal`. -/
inductive Phase where
  | idle
  /-- Waiting for data. -/
  | look (maxsize : ℤ)
  /-- Byte by byte, with the bytes that were copied. -/
  | bytes (readbytes : ℤ) (out : List UInt8)
  /-- Before the first transfer. -/
  | first (readbytes : ℤ)
  /-- Before the second transfer. -/
  | second (readbytes : ℤ) (out : List UInt8)
  /-- Before the bytes are removed from the buffer. -/
  | release (readbytes readsize : ℤ) (out : List UInt8)
  deriving DecidableEq

/-- The bytes that a call has copied. -/
def Phase.out : Phase → List UInt8
  | .bytes _ out => out
  | .second _ out => out
  | .release _ _ out => out
  | _ => []

/-- A socket with the call that reads from it, and what was received and delivered since its buffer
was set up. -/
structure Conn where
  sock : Sock
  phase : Phase := .idle
  received : List UInt8 := []
  delivered : List UInt8 := []
  /-- More was received and not delivered at some time than the buffer has room for. -/
  exceeded : Bool := false

/-- What may happen. -/
inductive Event where
  | segment (data : List UInt8)
  /-- `elua_net_set_split`. -/
  | setSplit (schar : ℤ)
  | recv (maxsize : ℤ)
  /-- The call goes on. -/
  | go
  /-- The call stops to wait, by the time-out or because the connection is closed. -/
  | giveUp

namespace Conn

variable (c : Conn)

/-- `readbytes`, once it is not more than `maxsize`. -/
def readbytes (maxsize : ℤ) : ℤ := if c.sock.crt > maxsize then maxsize else c.sock.crt

/-- What follows the wait for data. -/
def startCopy (maxsize : ℤ) : Phase :=
  if c.readbytes maxsize > 0 then
    if c.sock.split ≠ eluaNetNoSplit then .bytes (c.readbytes maxsize) []
    else .first (c.readbytes maxsize)
  else .release (c.readbytes maxsize) 0 []

/-- The loop that reads byte by byte. -/
def copyByte (readbytes : ℤ) (out : List UInt8) : Option Conn :=
  (c.sock.load c.sock.ridx 1).map fun b =>
    let ridx := netSize (c.sock.ridx + 1)
    let out := out ++ b
    { c with
      sock := { c.sock with ridx := if ridx = c.sock.total then 0 else ridx }
      phase :=
        if (out.length : ℤ) < readbytes ∧ b.map (fun x => (x.toNat : ℤ)) ≠ [c.sock.split] then
          .bytes readbytes out
        else .release readbytes out.length out }

/-- The first transfer. -/
def copyFirst (readbytes : ℤ) : Option Conn :=
  let readsize := min readbytes (c.sock.total - c.sock.ridx)
  (c.sock.load c.sock.ridx readsize).map fun bytes =>
    let ridx := netSize (c.sock.ridx + readsize)
    if ridx = c.sock.total then
      { c with
        sock := { c.sock with ridx := 0 }
        phase := if readsize < readbytes then .second readbytes bytes
          else .release readbytes readbytes bytes }
    else
      { c with
        sock := { c.sock with ridx }
        phase := .release readbytes readbytes bytes }

/-- The second transfer. -/
def copySecond (readbytes : ℤ) (out : List UInt8) : Option Conn :=
  (c.sock.load 0 (readbytes - out.length)).map fun bytes =>
    { c with
      sock := { c.sock with ridx := netSize (c.sock.ridx + (readbytes - out.length)) }
      phase := .release readbytes readbytes (out ++ bytes) }

/-- The next part of the call. -/
def go : Option Conn :=
  match c.phase with
  | .idle => none
  | .look maxsize => if c.sock.crt > 0 then some { c with phase := c.startCopy maxsize } else none
  | .bytes readbytes out => c.copyByte readbytes out
  | .first readbytes => c.copyFirst readbytes
  | .second readbytes out => c.copySecond readbytes out
  | .release readbytes readsize out =>
      some { c with
        sock := { c.sock with
          crt := netSize (c.sock.crt - readsize)
          res := if readbytes > 0 then .ok else .timedOut }
        phase := .idle
        delivered := c.delivered ++ out }

/-- One event. -/
def step : Event → Option Conn
  | .segment data =>
      (c.sock.readToBuffer data).map fun sock =>
        { c with
          sock
          received := c.received ++ data
          exceeded := c.exceeded ||
            c.delivered.length + c.sock.size < (c.received ++ data).length }
  | .setSplit schar =>
      match c.phase with
      | .idle => some { c with sock := { c.sock with split := netSize schar } }
      | _ => none
  | .recv maxsize =>
      match c.phase with
      | .idle => some { c with phase := if netSize maxsize = 0 then .idle else .look (netSize maxsize) }
      | _ => none
  | .go => c.go
  | .giveUp =>
      match c.phase with
      | .look maxsize =>
          if c.sock.crt > 0 then none else some { c with phase := c.startCopy maxsize }
      | _ => none

/-- What is received is delivered in order, and the rest of it is stored. The stored count and the
indexes are in the buffer. -/
structure Streams : Prop where
  stream : c.exceeded = false → ∃ rest : List UInt8, c.received = c.delivered ++ rest ∧
    rest.length = c.sock.crt ∧ c.phase.out <+: rest
  crt_nonneg : 0 ≤ c.sock.crt
  crt_le : c.sock.crt ≤ c.sock.total
  total_eq : c.sock.total = c.sock.size
  ridx_nonneg : 0 ≤ c.sock.ridx
  ridx_lt : c.sock.ridx < c.sock.size
  widx_nonneg : 0 ≤ c.sock.widx
  widx_lt : c.sock.widx < c.sock.size

/-- A call that returns now returns the number of bytes it delivers. -/
def Returns : Prop := ∀ readbytes readsize out, c.phase = .release readbytes readsize out →
  readbytes = out.length

end Conn

/-- The maximum size is not negative, and the split character is not found before the last byte that
is read. -/
def Event.Careful (c : Conn) : Event → Prop
  | .recv maxsize => 0 ≤ netSize maxsize
  | .go => ∀ readbytes out, c.phase = .bytes readbytes out → (out.length : ℤ) + 1 < readbytes →
      ((c.sock.buf c.sock.ridx.toNat).toNat : ℤ) ≠ c.sock.split
  | _ => True

/-- What a place says about the bytes that are read. -/
def Phase.Ok (size r : ℕ) (q : List UInt8) : Phase → Prop
  | .bytes readbytes out => out.length < readbytes ∧ readbytes ≤ q.length
  | .first readbytes => 0 < readbytes ∧ readbytes ≤ q.length
  | .second readbytes out => out.length < readbytes ∧ readbytes ≤ q.length ∧ r + out.length = size
  | .release _ readsize out => readsize = out.length
  | _ => True

/-- The bytes `q` are stored and not delivered, and the call has copied the first of them. -/
structure Conn.Inv (c : Conn) (r : ℕ) (q : List UInt8) : Prop where
  stores : Stores c.sock r q
  ridx_eq : c.sock.ridx = ((r + c.phase.out.length) % c.sock.size : ℕ)
  out_prefix : c.phase.out <+: q
  ok : c.phase.Ok c.sock.size r q
  stream : c.exceeded = false → c.received = c.delivered ++ q

/-- What a place says about the value that is returned. -/
def Conn.Counts (c : Conn) : Prop :=
  match c.phase with
  | .look maxsize => 0 ≤ maxsize
  | .release readbytes _ out => readbytes = out.length
  | _ => True

theorem Phase.Ok.append {size r : ℕ} {q : List UInt8} {p : Phase} (h : p.Ok size r q) (bytes : List UInt8) :
    p.Ok size r (q ++ bytes) := by
  have hlen : q.length ≤ (q ++ bytes).length := by
    rw [List.length_append]
    exact Nat.le_add_right _ _
  cases p with
  | bytes readbytes out => exact ⟨h.1, h.2.trans (Int.ofNat_le.mpr hlen)⟩
  | first readbytes => exact ⟨h.1, h.2.trans (Int.ofNat_le.mpr hlen)⟩
  | second readbytes out => exact ⟨h.1, h.2.1.trans (Int.ofNat_le.mpr hlen), h.2.2⟩
  | idle | look | release => exact h

namespace Conn

variable {c c' : Conn} {r : ℕ} {q : List UInt8}

theorem Inv.streams (h : Inv c r q) : Streams c := by
  have hpos : 0 < c.sock.size := Nat.zero_lt_of_lt h.stores.holds.lt
  have hlen := h.stores.holds.length_le
  refine ⟨fun hex => ⟨q, h.stream hex, h.stores.crt_eq.symm, h.out_prefix⟩, ?_, ?_,
    h.stores.total_eq, ?_, ?_, ?_, ?_⟩
  · rw [h.stores.crt_eq]
    exact Int.natCast_nonneg _
  · rw [h.stores.crt_eq, h.stores.total_eq]
    exact Int.ofNat_le.mpr hlen
  · rw [h.ridx_eq]
    exact Int.natCast_nonneg _
  · rw [h.ridx_eq]
    exact Int.ofNat_lt.mpr (Nat.mod_lt _ hpos)
  · rw [h.stores.widx_eq]
    exact Int.natCast_nonneg _
  · rw [h.stores.widx_eq]
    exact Int.ofNat_lt.mpr (Nat.mod_lt _ hpos)

theorem Counts.returns (h : Counts c) : Returns c := by
  intro readbytes readsize out hphase
  rw [Counts, hphase] at h
  exact h

/-! ### Segments -/

/-- **A segment.** -/
theorem Inv.segment (h : Inv c r q) (data : List UInt8) :
    ∃ c', c.step (.segment data) = some c' ∧ c'.phase = c.phase ∧
      Inv c' r (q ++ data.take (c.sock.size - q.length)) := by
  obtain ⟨sock, hsock, hstores, hsize, hridx, hsplit⟩ := h.stores.readToBuffer data
  rw [step, hsock, Option.map_some]
  refine ⟨_, rfl, rfl, hstores, ?_, h.out_prefix.trans (List.prefix_append _ _), ?_, fun hex => ?_⟩
  · dsimp only
    rw [hridx, hsize]
    exact h.ridx_eq
  · dsimp only
    rw [hsize]
    exact h.ok.append _
  · obtain ⟨hex, hroom⟩ := Bool.or_eq_false_iff.mp hex
    have hrec := h.stream hex
    have hall : data.length ≤ c.sock.size - q.length := by
      have hroom := of_decide_eq_false hroom
      rw [hrec, List.length_append, List.length_append] at hroom
      omega
    dsimp only
    rw [hrec, List.take_of_length_le hall, List.append_assoc]

/-! ### Reading -/

/-- The call has copied the bytes of its new place. -/
theorem Inv.copied (h : Inv c r q) {ridx : ℤ} {p : Phase} {out : List UInt8} (hp : p.out = out)
    (hridx : ridx = ((r + out.length) % c.sock.size : ℕ)) (hout : out <+: q)
    (hok : p.Ok c.sock.size r q) :
    Inv { c with sock := { c.sock with ridx }, phase := p } r q := by
  subst hp
  have hs := h.stores
  exact ⟨⟨hs.size_le, hs.holds, hs.total_eq, hs.crt_eq, hs.widx_eq⟩, hridx, hout, hok, h.stream⟩

/-- The index of the next byte. -/
theorem wrap_eq {size : ℕ} (hpos : 0 < size) (hsize : size ≤ 32767) (k : ℕ) :
    (if netSize ((k % size : ℕ) + 1) = size then 0 else netSize ((k % size : ℕ) + 1)) =
      ((k + 1) % size : ℕ) := by
  have hlt := Nat.mod_lt k hpos
  have hmod : (k + 1) % size = (k % size + 1) % size := (Nat.mod_add_mod _ _ _).symm
  have hle : k % size + 1 ≤ 32767 := by omega
  have hnet : netSize ((k % size : ℕ) + 1) = (k % size + 1 : ℕ) := netSize_natCast hle
  rw [hnet, hmod]
  rcases Nat.eq_or_lt_of_le (Nat.succ_le_of_lt hlt) with heq | hless
  · rw [if_pos (congrArg Nat.cast heq), ← Nat.succ_eq_add_one, heq, Nat.mod_self]
    rfl
  · rw [if_neg (fun heq => hless.ne (Int.ofNat_inj.mp heq)), Nat.mod_eq_of_lt hless]

/-- The copied bytes go on with the next one. -/
theorem Inv.copyByte (h : Inv c r q) {readbytes : ℤ} {out : List UInt8}
    (hphase : c.phase = .bytes readbytes out) :
    ∃ c', c.go = some c' ∧ Inv c' r q ∧ (Event.go.Careful c → Counts c') := by
  have hok := h.ok
  have hprefix := h.out_prefix
  have hridx := h.ridx_eq
  rw [hphase] at hok hprefix hridx
  obtain ⟨hlt, hle⟩ := hok
  change c.sock.ridx = ((r + out.length) % c.sock.size : ℕ) at hridx
  change out <+: q at hprefix
  have hlen : out.length < q.length := by omega
  have hpos : 0 < c.sock.size := Nat.zero_lt_of_lt h.stores.holds.lt
  have hload : c.sock.load ((r + out.length) % c.sock.size : ℕ) 1 = some [q[out.length]] := by
    rw [← Int.natCast_one, h.stores.load (Nat.mod_lt _ hpos) hlen, List.drop_eq_getElem_cons hlen,
      List.take_succ_cons, List.take_zero]
  have hout : out ++ [q[out.length]] <+: q := by
    have htake := List.take_succ_eq_append_getElem hlen
    rw [← List.prefix_iff_eq_take.mp hprefix] at htake
    exact htake ▸ List.take_prefix _ _
  have hlength : (out ++ [q[out.length]]).length = out.length + 1 := List.length_append
  have hnext := wrap_eq hpos h.stores.size_le (r + out.length)
  rw [Nat.add_assoc, ← hlength] at hnext
  have hget := h.stores.holds.get out.length hlen
  rw [go, hphase]
  dsimp only
  rw [Conn.copyByte, hridx, hload, Option.map_some, h.stores.total_eq]
  dsimp only
  rw [hnext]
  by_cases hmore : ((out ++ [q[out.length]]).length : ℤ) < readbytes ∧
      [q[out.length]].map (fun x => (x.toNat : ℤ)) ≠ [c.sock.split]
  · rw [if_pos hmore]
    exact ⟨_, rfl, h.copied rfl rfl hout ⟨hmore.1, hle⟩, fun _ => trivial⟩
  · rw [if_neg hmore]
    refine ⟨_, rfl, h.copied rfl rfl hout rfl, fun hcareful => ?_⟩
    -- it is the last byte, as it would not be the split character otherwise
    change readbytes = (out ++ [q[out.length]]).length
    by_contra hne
    have hless : ((out ++ [q[out.length]]).length : ℤ) < readbytes := by
      rw [hlength] at hne ⊢
      omega
    have hsplit := hcareful readbytes out hphase (by rwa [hlength] at hless)
    rw [hridx, Int.toNat_natCast, hget] at hsplit
    exact hmore ⟨hless, fun heq => hsplit (List.cons.inj heq).1⟩

/-- The first transfer. -/
theorem Inv.copyFirst (h : Inv c r q) {readbytes : ℤ} (hphase : c.phase = .first readbytes) :
    ∃ c', c.go = some c' ∧ Inv c' r q ∧ Counts c' := by
  have hok := h.ok
  have hridx := h.ridx_eq
  rw [hphase] at hok hridx
  obtain ⟨hpos, hle⟩ := hok
  have hr := h.stores.holds.lt
  have hsize := h.stores.size_le
  have hmod : (r + 0) % c.sock.size = r := Nat.mod_eq_of_lt hr
  change c.sock.ridx = ((r + 0) % c.sock.size : ℕ) at hridx
  rw [hmod] at hridx
  obtain ⟨n, hn⟩ : ∃ n : ℕ, min readbytes (c.sock.size - r) = n :=
    Int.eq_ofNat_of_zero_le (by omega)
  have hload := h.stores.load (k := 0) (n := n) (by omega) (by omega)
  rw [hmod, List.drop_zero] at hload
  have hlen : (q.take n).length = n := by
    rw [List.length_take]
    omega
  have hnet : netSize ((r : ℤ) + n) = (r + n : ℕ) := netSize_natCast (by omega)
  rw [go, hphase]
  dsimp only
  rw [Conn.copyFirst, hridx, h.stores.total_eq, hn, hload, Option.map_some]
  dsimp only
  rw [hnet]
  clear hnet
  by_cases hend : r + n = c.sock.size
  · have hzero : (0 : ℤ) = ((r + (q.take n).length) % c.sock.size : ℕ) := by
      rw [hlen, hend, Nat.mod_self]
      rfl
    rw [if_pos (congrArg Nat.cast hend)]
    split_ifs with hmore
    · refine ⟨_, rfl, h.copied rfl hzero (List.take_prefix _ _) ?_, trivial⟩
      rw [Phase.Ok, hlen]
      exact ⟨hmore, hle, hend⟩
    · have heq : readbytes = (q.take n).length := by
        rw [hlen]
        omega
      exact ⟨_, rfl, h.copied rfl hzero (List.take_prefix _ _) heq, heq⟩
  · have heq : readbytes = (q.take n).length := by
      rw [hlen]
      omega
    have hnext : ((r + n : ℕ) : ℤ) = ((r + (q.take n).length) % c.sock.size : ℕ) := by
      rw [hlen, Nat.mod_eq_of_lt (by omega)]
    rw [if_neg (fun hcast => hend (Int.ofNat_inj.mp hcast))]
    exact ⟨_, rfl, h.copied rfl hnext (List.take_prefix _ _) heq, heq⟩

/-- The second transfer. -/
theorem Inv.copySecond (h : Inv c r q) {readbytes : ℤ} {out : List UInt8}
    (hphase : c.phase = .second readbytes out) :
    ∃ c', c.go = some c' ∧ Inv c' r q ∧ Counts c' := by
  have hok := h.ok
  have hprefix := h.out_prefix
  have hridx := h.ridx_eq
  rw [hphase] at hok hprefix hridx
  obtain ⟨hlt, hle, hend⟩ := hok
  change c.sock.ridx = ((r + out.length) % c.sock.size : ℕ) at hridx
  change out <+: q at hprefix
  have hr := h.stores.holds.lt
  have hlen := h.stores.holds.length_le
  have hsize := h.stores.size_le
  have hmod : (r + out.length) % c.sock.size = 0 := by rw [hend, Nat.mod_self]
  obtain ⟨n, hn⟩ : ∃ n : ℕ, readbytes - out.length = n := Int.eq_ofNat_of_zero_le (by omega)
  have hload := h.stores.load (k := out.length) (n := n) (by omega) (by omega)
  rw [hmod] at hload
  have hall : out ++ (q.drop out.length).take n = q.take (out.length + n) := by
    rw [List.take_add, ← List.prefix_iff_eq_take.mp hprefix]
  have hlength : (q.take (out.length + n)).length = out.length + n := by
    rw [List.length_take]
    omega
  have heq : readbytes = (q.take (out.length + n)).length := by
    rw [hlength]
    omega
  have hnext : (n : ℤ) = ((r + (q.take (out.length + n)).length) % c.sock.size : ℕ) := by
    rw [hlength, ← Nat.add_assoc, hend, Nat.add_mod_left, Nat.mod_eq_of_lt (by omega)]
  rw [go, hphase]
  dsimp only
  rw [Conn.copySecond, hridx, hmod, hn, ← Int.natCast_zero, hload, Option.map_some]
  dsimp only
  rw [hall, ← Int.natCast_add, Nat.zero_add, netSize_natCast (by omega)]
  exact ⟨_, rfl, h.copied rfl hnext (List.take_prefix _ _) heq, heq⟩

/-- What follows the wait for data. -/
theorem Inv.startCopy (h : Inv c r q) {maxsize : ℤ} (hphase : c.phase = .look maxsize) :
    Inv { c with phase := c.startCopy maxsize } r q ∧
      (Counts c → Counts { c with phase := c.startCopy maxsize }) := by
  have hridx := h.ridx_eq
  rw [hphase] at hridx
  have hout : (c.startCopy maxsize).out = [] := by
    rw [Conn.startCopy]
    split_ifs <;> rfl
  have hle : c.readbytes maxsize ≤ q.length := by
    rw [readbytes, ← h.stores.crt_eq]
    split_ifs <;> omega
  refine ⟨⟨h.stores, ?_, ?_, ?_, h.stream⟩, fun hcounts => ?_⟩
  · dsimp only
    rw [hout]
    exact hridx
  · dsimp only
    rw [hout]
    exact List.nil_prefix
  · dsimp only
    rw [Conn.startCopy]
    split_ifs with hpos
    · exact ⟨hpos, hle⟩
    · exact ⟨hpos, hle⟩
    · rfl
  · have hcrt := h.stores.crt_eq
    rw [Counts, hphase] at hcounts
    rw [Counts, Conn.startCopy]
    split_ifs with hpos
    · trivial
    · trivial
    · change c.readbytes maxsize = ((0 : ℕ) : ℤ)
      rw [readbytes] at hpos ⊢
      dsimp only at hcounts
      split_ifs at hpos ⊢ <;> omega

/-- The bytes that were copied are delivered. -/
theorem Inv.release (h : Inv c r q) {readbytes readsize : ℤ} {out : List UInt8}
    (hphase : c.phase = .release readbytes readsize out) :
    ∃ c', c.go = some c' ∧ (∃ r' q', Inv c' r' q') ∧ Counts c' := by
  have hok := h.ok
  have hprefix := h.out_prefix
  have hridx := h.ridx_eq
  rw [hphase] at hok hprefix hridx
  change c.sock.ridx = ((r + out.length) % c.sock.size : ℕ) at hridx
  change out <+: q at hprefix
  obtain rfl : readsize = out.length := hok
  rw [go, hphase]
  refine ⟨_, rfl, ⟨_, _, h.stores.release hprefix.length_le _, ?_, List.nil_prefix, trivial,
    fun hex => ?_⟩, trivial⟩
  · exact hridx.trans (congrArg Nat.cast (Nat.mod_mod _ _).symm)
  · have hall : out ++ q.drop out.length = q := by
      obtain ⟨rest, rfl⟩ := hprefix
      rw [List.drop_left]
    dsimp only
    rw [h.stream hex, List.append_assoc, hall]

/-- **One event.** -/
theorem Inv.step (h : Inv c r q) {e : Event} (hs : c.step e = some c') :
    (∃ r' q', Inv c' r' q') ∧ (e.Careful c → Counts c → Counts c') := by
  cases e with
  | segment data =>
    obtain ⟨c₁, hc₁, hphase, hinv⟩ := h.segment data
    obtain rfl := Option.some_inj.mp (hs.symm.trans hc₁)
    refine ⟨⟨r, _, hinv⟩, fun _ hcounts => ?_⟩
    rw [Counts, hphase]
    exact hcounts
  | setSplit schar =>
    rcases hphase : c.phase with _ | _ | _ | _ | _ | _
    case idle =>
      simp only [Conn.step, hphase, Option.some_inj] at hs
      subst hs
      have hst := h.stores
      refine ⟨⟨r, q, ⟨hst.size_le, hst.holds, hst.total_eq, hst.crt_eq, hst.widx_eq⟩, ?_,
        List.nil_prefix, trivial, h.stream⟩, fun _ _ => trivial⟩
      have hridx := h.ridx_eq
      rwa [hphase] at hridx
    all_goals simp only [Conn.step, hphase, reduceCtorEq] at hs
  | recv maxsize =>
    rcases hphase : c.phase with _ | _ | _ | _ | _ | _
    case idle =>
      simp only [Conn.step, hphase, Option.some_inj] at hs
      subst hs
      have hridx := h.ridx_eq
      rw [hphase] at hridx
      split_ifs
      · exact ⟨⟨r, q, h.stores, hridx, List.nil_prefix, trivial, h.stream⟩, fun _ _ => trivial⟩
      · exact ⟨⟨r, q, h.stores, hridx, List.nil_prefix, trivial, h.stream⟩,
          fun hcareful _ => hcareful⟩
    all_goals simp only [Conn.step, hphase, reduceCtorEq] at hs
  | go =>
    change c.go = some c' at hs
    rcases hphase : c.phase with _ | maxsize | ⟨readbytes, out⟩ | readbytes | ⟨readbytes, out⟩ |
      ⟨readbytes, readsize, out⟩
    · simp only [go, hphase, reduceCtorEq] at hs
    · simp only [go, hphase, Option.ite_none_right_eq_some, Option.some_inj] at hs
      obtain ⟨-, rfl⟩ := hs
      obtain ⟨hinv, hcounts⟩ := h.startCopy hphase
      exact ⟨⟨r, q, hinv⟩, fun _ => hcounts⟩
    · obtain ⟨c₁, hc₁, hinv, hcounts⟩ := h.copyByte hphase
      obtain rfl := Option.some_inj.mp (hs.symm.trans hc₁)
      exact ⟨⟨r, q, hinv⟩, fun hcareful _ => hcounts hcareful⟩
    · obtain ⟨c₁, hc₁, hinv, hcounts⟩ := h.copyFirst hphase
      obtain rfl := Option.some_inj.mp (hs.symm.trans hc₁)
      exact ⟨⟨r, q, hinv⟩, fun _ _ => hcounts⟩
    · obtain ⟨c₁, hc₁, hinv, hcounts⟩ := h.copySecond hphase
      obtain rfl := Option.some_inj.mp (hs.symm.trans hc₁)
      exact ⟨⟨r, q, hinv⟩, fun _ _ => hcounts⟩
    · obtain ⟨c₁, hc₁, hinv, hcounts⟩ := h.release hphase
      obtain rfl := Option.some_inj.mp (hs.symm.trans hc₁)
      exact ⟨hinv, fun _ _ => hcounts⟩
  | giveUp =>
    rcases hphase : c.phase with _ | maxsize | _ | _ | _ | _
    case look =>
      simp only [Conn.step, hphase, Option.ite_none_left_eq_some, Option.some_inj] at hs
      obtain ⟨-, rfl⟩ := hs
      obtain ⟨hinv, hcounts⟩ := h.startCopy hphase
      exact ⟨⟨r, q, hinv⟩, fun _ => hcounts⟩
    all_goals simp only [Conn.step, hphase, reduceCtorEq] at hs

/-- The socket after `elua_net_set_buffer`. -/
def afterSetBuffer (s : Sock) (bufsize : ℕ) (buf : ℕ → UInt8) : Conn :=
  { sock := s.setBuffer bufsize buf }

theorem inv_afterSetBuffer (s : Sock) {bufsize : ℕ} (buf : ℕ → UInt8) (hpos : 0 < bufsize)
    (hle : bufsize ≤ 32767) : Inv (afterSetBuffer s bufsize buf) 0 [] := by
  have hzero : (0 : ℤ) = (0 % bufsize : ℕ) := congrArg Nat.cast (Nat.zero_mod _).symm
  rw [afterSetBuffer, Sock.setBuffer, netSize_natCast hle]
  exact ⟨⟨hle, .nil hpos, rfl, rfl, hzero⟩, hzero, List.nil_prefix, trivial, fun _ => rfl⟩

end Conn

/-- **Every run.** After a buffer of at most 32767 bytes was set up, what is received is delivered
in order in every run. In a run whose events are careful, every call returns the number of bytes it
delivers. -/
theorem streams_of_reach (s : Sock) (bufsize : ℕ) (buf : ℕ → UInt8) (hpos : 0 < bufsize)
    (hle : bufsize ≤ 32767) :
    (∀ c, Reach Conn.step (fun _ _ => True) (Conn.afterSetBuffer s bufsize buf) c → c.Streams) ∧
      ∀ c, Reach Conn.step (fun c e => Event.Careful c e) (Conn.afterSetBuffer s bufsize buf) c →
        c.Streams ∧ c.Returns := by
  have hinit := Conn.inv_afterSetBuffer s buf hpos hle
  refine ⟨fun c h => ?_, fun c h => ?_⟩
  · obtain ⟨r, q, hinv⟩ := h.invariant (P := fun c => ∃ r q, Conn.Inv c r q) ⟨0, [], hinit⟩
      fun c e c' ⟨r, q, hc⟩ _ hstep => (hc.step hstep).1
    exact hinv.streams
  · obtain ⟨⟨r, q, hinv⟩, hcounts⟩ := h.invariant
      (P := fun c => (∃ r q, Conn.Inv c r q) ∧ c.Counts) ⟨⟨0, [], hinit⟩, trivial⟩
      fun c e c' ⟨⟨r, q, hc⟩, hcounts⟩ hcareful hstep =>
        ⟨(hc.step hstep).1, (hc.step hstep).2 hcareful hcounts⟩
    exact ⟨hinv.streams, hcounts.returns⟩

/-- A socket with a buffer of four bytes. -/
def fourBytes : Conn := Conn.afterSetBuffer ⟨0, fun _ => 0, -1, 0, 0, 0, 0, .ok⟩ 4 fun _ => 0

/-- The split character is `a`, the bytes `ab` are received, and a call reads until it has found the
`a`. -/
def splitAtOnce : List Event := [.setSplit 0x61, .segment [0x61, 0x62], .recv 2, .go, .go]

/-- The call returns two, and delivers one byte. -/
theorem not_returns_split :
    ¬ ∀ (s : Sock) (bufsize : ℕ) (buf : ℕ → UInt8), 0 < bufsize → bufsize < 2 ^ 32 → ∀ c,
      Reach Conn.step (fun _ _ => True) (Conn.afterSetBuffer s bufsize buf) c →
        c.Streams ∧ c.Returns := by
  intro h
  have hphase : ∀ hrun : (runAll (guarded Conn.step fun _ _ => True) splitAtOnce fourBytes).isSome,
      (Option.get _ hrun).phase = .release 2 1 [0x61] := by decide +kernel
  have hrun : (runAll (guarded Conn.step fun _ _ => True) splitAtOnce fourBytes).isSome := by
    decide +kernel
  obtain ⟨-, hreturns⟩ := h _ 4 _ (by decide) (by decide) _ (reach_get _ _ _ hrun)
  exact absurd (hreturns 2 1 [0x61] (hphase hrun)) (by decide)

/-- The byte `a` is received and delivered. -/
theorem streams_fourBytes :
    ∃ c, runAll (guarded Conn.step fun _ _ => True)
      [.segment [0x61], .recv 4, .go, .go, .go] fourBytes = some c ∧ c.Streams := by
  have hrun : (runAll (guarded Conn.step fun _ _ => True)
      [.segment [0x61], .recv 4, .go, .go, .go] fourBytes).isSome := by decide +kernel
  obtain ⟨hstreams, -⟩ := streams_of_reach ⟨0, fun _ => 0, -1, 0, 0, 0, 0, .ok⟩ 4 (fun _ => 0)
    (by decide) (by decide)
  exact ⟨_, (Option.some_get hrun).symm, hstreams _ (reach_get _ _ _ hrun)⟩

end ELuaBrain.Net
