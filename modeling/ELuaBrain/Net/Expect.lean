import ELuaBrain.Net.Recv
import ELuaBrain.System.Occurs

/-!
# Waiting for a string

`eluah_expect_internal` for `elua_net_expect` and `elua_net_readto`, with the static counter of
`eluah_expect_read_char`, on any number of buffered sockets. One thread calls these functions,
`elua_net_recv` and `elua_net_set_buffer`; segments arrive at any time. Of a segment only what is
stored counts as received.

## Main definitions

* `Sockets`, `Sockets.step` : the sockets and the calls.
* `Result.Right` : what a call that ended should have done.
* `NetEvent.Careful` : what has to be avoided.

## Main results

* `Sockets.Inv.step` : one event.
* `right_of_reach` : every run.
-/

namespace ELuaBrain.Net

variable {κ : Type*}

/-- A call of `eluah_expect_internal`, with the stream of its socket at the start. -/
structure Search (κ : Type*) where
  sock : κ
  str : List UInt8
  /-- `b != NULL`. -/
  readto : Bool
  bidx : ℕ := 0
  backbuf : List UInt8 := []
  /-- What is in the Lua buffer. -/
  b : List UInt8 := []
  start : List UInt8

/-- A call that ended, with the rest of the stream. -/
structure Result where
  str : List UInt8
  readto : Bool
  success : Bool
  b : List UInt8
  start : List UInt8
  rest : List UInt8

/-- What the thread does. -/
inductive Thread (κ : Type*) where
  | idle
  | recv (k : κ)
  | search (c : Search κ)

/-- The sockets, what they receive from now on, `leftbytes`, and the last call that ended. -/
structure Sockets (κ : Type*) where
  conns : κ → Conn
  incoming : κ → List UInt8
  leftbytes : ℤ := 0
  thread : Thread κ := .idle
  last : Option Result := none

/-- What may happen. -/
inductive NetEvent (κ : Type*) where
  | conn (k : κ) (e : Event)
  /-- `elua_net_set_buffer`, for a size that is not zero. The memory is `buf` if it is granted. -/
  | setBuffer (k : κ) (bufsize : ℕ) (buf : Option (ℕ → UInt8))
  /-- `elua_net_expect` or `elua_net_readto`, for a string that is not empty. -/
  | expect (k : κ) (str : List UInt8) (readto granted : Bool)
  /-- The next character is read. -/
  | read
  /-- The time-out, after everything was received. -/
  | timeOut

/-- The bytes that are stored. -/
def Sock.stored (s : Sock) : List UInt8 :=
  (List.range s.crt.toNat).map fun i => s.buf ((s.ridx.toNat + i) % s.size)

/-- The part of a segment that is stored. -/
def Sock.accepted (s : Sock) (data : List UInt8) : List UInt8 := data.take (s.total - s.crt).toNat

/-- The value of a `char`. -/
def charValue (signedChar : Bool) (c : UInt8) : ℤ :=
  if signedChar ∧ 128 ≤ c.toNat then c.toNat - 256 else c.toNat

/-- The end of `eluah_expect_read_char`. -/
def Conn.readChar (c : Conn) : Option (UInt8 × Conn) :=
  (c.sock.load c.sock.ridx 1).bind fun
    | [byte] =>
        let ridx := netSize (c.sock.ridx + 1)
        some (byte, { c with
          sock := { c.sock with
            ridx := if ridx = c.sock.total then 0 else ridx
            crt := netSize (c.sock.crt - 1) }
          delivered := c.delivered ++ [byte] })
    | _ => none

namespace Sockets

variable (net : Sockets κ)

/-- What a socket has not delivered yet. -/
def stream (k : κ) : List UInt8 := (net.conns k).sock.stored ++ net.incoming k

/-- The state of a socket changes. -/
def setConn [DecidableEq κ] (k : κ) (c : Conn) : Sockets κ :=
    { net with conns := Function.update net.conns k c }

/-- An event of a socket. -/
def connStep [DecidableEq κ] (k : κ) (e : Event) : Option (Sockets κ) :=
  match e, net.thread with
  | .segment data, _ =>
      let accepted := (net.conns k).sock.accepted data
      if accepted <+: net.incoming k then
        ((net.conns k).step (.segment data)).map fun c =>
          { net.setConn k c with
            incoming := Function.update net.incoming k ((net.incoming k).drop accepted.length) }
      else none
  | _, .idle =>
      ((net.conns k).step e).map fun c =>
        { net.setConn k c with thread := if c.phase = .idle then .idle else .recv k }
  | _, .recv k' =>
      if k' = k then
        ((net.conns k).step e).map fun c =>
          { net.setConn k c with thread := if c.phase = .idle then .idle else .recv k }
      else none
  | _, .search _ => none

/-- The call ends. -/
def finish (c : Search κ) (success : Bool) : Sockets κ :=
  { net with
    thread := .idle
    last := some ⟨c.str, c.readto, success, c.b, c.start, net.stream c.sock⟩ }

/-- The body of the loop, with the character that was read. -/
def compare (signedChar : Bool) (c : Search κ) (byte : UInt8) : Sockets κ :=
  if charValue signedChar byte = -1 then net.finish c false
  else if charValue signedChar byte = (c.str.getD c.bidx 0).toNat then
    let c := { c with
      backbuf := if c.readto then c.backbuf.take c.bidx ++ [byte] else c.backbuf
      bidx := c.bidx + 1 }
    if c.bidx = c.str.length then net.finish c true else { net with thread := .search c }
  else
    { net with thread := .search { c with
        b := if c.readto then c.b ++ c.backbuf.take c.bidx ++ [byte] else c.b
        bidx := 0 } }

/-- A character is read and compared. -/
def readStep [DecidableEq κ] (signedChar : Bool) (c : Search κ) (leftbytes : ℤ) :
    Option (Sockets κ) :=
  (net.conns c.sock).readChar.map fun r =>
    { net.setConn c.sock r.2 with leftbytes := leftbytes - 1 }.compare signedChar c r.1

/-- One event. -/
def step [DecidableEq κ] (signedChar : Bool) : NetEvent κ → Option (Sockets κ)
  | .conn k e => net.connStep k e
  | .setBuffer k bufsize buf =>
      match net.thread, bufsize with
      | .idle, _ + 1 =>
          some (net.setConn k { sock := match buf with
            | some buf => (net.conns k).sock.setBuffer bufsize buf
            | none => { (net.conns k).sock with crt := 0, ridx := 0, widx := 0 } })
      | _, _ => none
  | .expect k str readto granted =>
      match net.thread, str with
      | .idle, _ :: _ =>
          if readto ∧ ¬ granted then
            some (net.finish { sock := k, str, readto, start := net.stream k } false)
          else some { net with thread := .search { sock := k, str, readto, start := net.stream k } }
      | _, _ => none
  | .read =>
      match net.thread with
      | .search c =>
          if net.leftbytes ≠ 0 then net.readStep signedChar c net.leftbytes
          else if (net.conns c.sock).sock.crt > 0 then
            net.readStep signedChar c (net.conns c.sock).sock.crt
          else none
      | _ => none
  | .timeOut =>
      match net.thread with
      | .search c =>
          if net.leftbytes = 0 ∧ (net.conns c.sock).sock.crt ≤ 0 ∧ net.incoming c.sock = [] then
            if (net.conns c.sock).sock.crt = 0 then some (net.finish c false)
            else net.readStep signedChar c (net.conns c.sock).sock.crt
          else none
      | _ => none

end Sockets

/-! ### What a call should do -/

/-- The call succeeds if and only if the string occurs in the stream. Then it consumes exactly the
bytes to the end of the first occurrence, and returns those before it. -/
structure Result.Right (r : Result) : Prop where
  success_iff : r.success = true ↔ r.str <:+: r.start
  first : r.success = true → ∃ pre, r.start = pre ++ r.str ++ r.rest ∧
    (∀ pre' rest', r.start = pre' ++ r.str ++ rest' → pre.length ≤ pre'.length) ∧
    (r.readto = true → r.b = pre)

/-- What has to be avoided when the next character is read. A counter that was left by another call
does not exceed what is stored. A character that is the end of the input for the code comes only if
the string does not occur any more, and one that the code finds different does not belong to an
occurrence, neither to one that starts in the part that was compared. -/
def Sockets.Reads (signedChar : Bool) (net : Sockets κ) (c : Search κ) : Prop :=
  (net.leftbytes ≠ 0 → 0 < (net.conns c.sock).sock.crt) ∧
    if charValue signedChar ((net.conns c.sock).sock.buf (net.conns c.sock).sock.ridx.toNat) =
      -1 then
      ¬ c.str <:+: c.str.take c.bidx ++ net.stream c.sock
    else
      charValue signedChar ((net.conns c.sock).sock.buf (net.conns c.sock).sock.ridx.toNat) ≠
          (c.str.getD c.bidx 0).toNat →
        NoneBefore c.str (c.str.take c.bidx ++ net.stream c.sock) (c.bidx + 1)

/-- What has to be avoided. A buffer has at most 32767 bytes, and the memory for the compared part
is granted. -/
def NetEvent.Careful (signedChar : Bool) (net : Sockets κ) : NetEvent κ → Prop
  | .setBuffer _ bufsize buf => buf.isSome → bufsize ≤ 32767
  | .expect _ _ readto granted => readto → granted
  | .read => ∀ c, net.thread = .search c → net.Reads signedChar c
  | _ => True

instance (signedChar : Bool) (net : Sockets κ) (c : Search κ) :
    Decidable (net.Reads signedChar c) :=
  inferInstanceAs (Decidable (_ ∧ ite _ _ _))

instance NetEvent.decidableCareful (signedChar : Bool) (net : Sockets κ) (e : NetEvent κ) :
    Decidable (e.Careful signedChar net) :=
  match e, hthread : net.thread with
  | .setBuffer _ bufsize buf, _ => inferInstanceAs (Decidable (buf.isSome → bufsize ≤ 32767))
  | .expect _ _ readto granted, _ => inferInstanceAs (Decidable (readto → granted))
  | .read, .search c => decidable_of_iff (net.Reads signedChar c)
      ⟨fun h _ heq => Thread.search.inj (hthread.symm.trans heq) ▸ h, fun h => h c hthread⟩
  | .read, .idle | .read, .recv _ => isTrue fun _ heq => nomatch hthread.symm.trans heq
  | .conn .., _ | .timeOut, _ => isTrue trivial

/-- The call has left behind the bytes `pre`, in which no occurrence starts, and compared `bidx`
bytes. -/
structure Sockets.Searches (net : Sockets κ) (c : Search κ) (pre : List UInt8) : Prop where
  bidx_lt : c.bidx < c.str.length
  start_eq : c.start = pre ++ (c.str.take c.bidx ++ net.stream c.sock)
  none : NoneBefore c.str c.start pre.length
  b_eq : c.readto = true → c.b = pre ∧ c.backbuf.take c.bidx = c.str.take c.bidx

/-- What holds in every state. -/
structure Sockets.Inv (net : Sockets κ) : Prop where
  conns : ∀ k, ∃ r q, Conn.Inv (net.conns k) r q
  phase : ∀ k, (net.conns k).phase = .idle ∨ net.thread = .recv k
  search : ∀ c, net.thread = .search c → ∃ pre, net.Searches c pre
  last : ∀ r, net.last = some r → r.Right

namespace Sockets

variable {signedChar : Bool} {net net' : Sockets κ} {c : Conn} {r : ℕ} {q : List UInt8}

/-! ### One socket -/

theorem stored_eq (h : c.Inv r q) (hphase : c.phase = .idle) : c.sock.stored = q := by
  have hridx := h.ridx_eq
  rw [hphase] at hridx
  change c.sock.ridx = ((r + 0) % c.sock.size : ℕ) at hridx
  rw [Nat.add_zero, Nat.mod_eq_of_lt h.stores.holds.lt] at hridx
  rw [Sock.stored, hridx, h.stores.crt_eq, Int.toNat_natCast, Int.toNat_natCast]
  refine List.ext_getElem (by rw [List.length_map, List.length_range]) fun i hi hi' => ?_
  rw [List.getElem_map, List.getElem_range]
  exact h.stores.holds.get i hi'

theorem accepted_eq (h : c.Inv r q) (data : List UInt8) :
    c.sock.accepted data = data.take (c.sock.size - q.length) := by
  rw [Sock.accepted, h.stores.total_eq, h.stores.crt_eq]
  congr 1
  omega

/-- The first byte that is stored is read. -/
theorem exists_readChar {byte : UInt8} (h : c.Inv r (byte :: q)) (hphase : c.phase = .idle) :
    ∃ c', c.readChar = some (byte, c') ∧ c.sock.buf c.sock.ridx.toNat = byte ∧
      c'.Inv ((r + 1) % c.sock.size) q ∧ c'.phase = .idle := by
  have hst := h.stores
  have hpos : 0 < c.sock.size := Nat.zero_lt_of_lt hst.holds.lt
  have hmod : (r + 0) % c.sock.size = r := Nat.mod_eq_of_lt hst.holds.lt
  have hridx := h.ridx_eq
  rw [hphase] at hridx
  change c.sock.ridx = ((r + 0) % c.sock.size : ℕ) at hridx
  have hload : c.sock.load ((r + 0) % c.sock.size : ℕ) 1 = some [byte] := by
    rw [← Int.natCast_one, hst.load (Nat.mod_lt _ hpos) (Nat.succ_le_succ (Nat.zero_le _)),
      List.drop_zero, List.take_succ_cons, List.take_zero]
  have hnext := Conn.wrap_eq hpos hst.size_le (r + 0)
  have hbuf : c.sock.buf ((r + 0) % c.sock.size) = byte :=
    hst.holds.get 0 (Nat.zero_lt_succ _)
  have hrelease := hst.release (n := 1) (Nat.succ_le_succ (Nat.zero_le _)) c.sock.res
  rw [Conn.readChar, hridx, hload, Option.bind_some]
  dsimp only
  rw [hst.total_eq, hnext, Int.toNat_natCast]
  refine ⟨_, rfl, hbuf, ⟨⟨hrelease.size_le, hrelease.holds, rfl, hrelease.crt_eq, hrelease.widx_eq⟩,
    ?_, ?_, ?_, fun hex => ?_⟩, hphase⟩
  · dsimp only
    rw [hphase]
    exact congrArg Nat.cast (Nat.mod_mod _ _).symm
  · dsimp only
    rw [hphase]
    exact List.nil_prefix
  · dsimp only
    rw [hphase]
    trivial
  · dsimp only
    rw [h.stream hex, List.append_assoc]
    rfl

/-! ### The search -/

/-- A call ends with an occurrence. -/
theorem Searches.right_true {s : Search κ} {pre : List UInt8}
    (hstart : s.start = pre ++ s.str ++ net.stream s.sock)
    (hnone : NoneBefore s.str s.start pre.length) (hb : s.readto = true → s.b = pre) :
    Result.Right ⟨s.str, s.readto, true, s.b, s.start, net.stream s.sock⟩ := by
  refine ⟨⟨fun _ => ⟨pre, _, hstart.symm⟩, fun _ => rfl⟩, fun _ => ⟨pre, hstart, ?_, hb⟩⟩
  intro pre' rest' heq
  rw [hstart] at hnone
  exact hnone.length_le (hstart.symm.trans heq)

/-- A call ends without an occurrence. -/
theorem Searches.right_false {s : Search κ} {pre : List UInt8} (h : net.Searches s pre)
    (hnot : ¬ s.str <:+: s.str.take s.bidx ++ net.stream s.sock) (rest : List UInt8) :
    Result.Right ⟨s.str, s.readto, false, s.b, s.start, rest⟩ := by
  refine ⟨⟨nofun, fun hin => ?_⟩, nofun⟩
  have hnone := h.none
  have hstart := h.start_eq
  dsimp only at hin
  rw [hstart] at hin hnone
  exact absurd hin (hnone.not_infix hnot)

theorem charValue_eq_natCast {byte x : UInt8} (h : charValue signedChar byte = x.toNat) : byte =
    x := by
  rw [charValue] at h
  have hlt := byte.toNat_lt
  refine UInt8.toNat_inj.mp ?_
  split_ifs at h <;> omega

/-- The sockets while no call reads from them. -/
structure Quiet (net : Sockets κ) : Prop where
  conns : ∀ k, ∃ r q, Conn.Inv (net.conns k) r q
  phase : ∀ k, (net.conns k).phase = .idle
  last : ∀ r, net.last = some r → r.Right

theorem Inv.quiet (h : net.Inv) (hthread : ∀ k, net.thread ≠ .recv k) : net.Quiet :=
  ⟨h.conns, fun k => (h.phase k).resolve_right (hthread k), h.last⟩

theorem Quiet.finish (h : net.Quiet) {s : Search κ} {success : Bool}
    (hright : Result.Right ⟨s.str, s.readto, success, s.b, s.start, net.stream s.sock⟩) :
    (net.finish s success).Inv :=
  ⟨h.conns, fun k => .inl (h.phase k), nofun, fun _ hr => Option.some_inj.mp hr ▸ hright⟩

theorem Quiet.search (h : net.Quiet) {s : Search κ} {pre : List UInt8} (hs : net.Searches s pre) :
    Inv { net with thread := .search s } := by
  refine ⟨h.conns, fun k => .inl (h.phase k), fun s' heq => ?_, h.last⟩
  obtain rfl := Thread.search.inj heq
  exact ⟨pre, hs.bidx_lt, hs.start_eq, hs.none, hs.b_eq⟩

/-- **A character.** It ends the call, belongs to the occurrence that is compared, or is left
behind with what was compared. -/
theorem Searches.compare {s : Search κ} {pre : List UInt8} {byte : UInt8} (h : net.Searches s pre)
    (hquiet : net'.Quiet) (hstream : net.stream s.sock = byte :: net'.stream s.sock)
    (hend : charValue signedChar byte = -1 → ¬ s.str <:+: s.str.take s.bidx ++ net.stream s.sock)
    (hnone : charValue signedChar byte ≠ -1 →
      charValue signedChar byte ≠ (s.str.getD s.bidx 0).toNat →
      NoneBefore s.str (s.str.take s.bidx ++ net.stream s.sock) (s.bidx + 1)) :
    (net'.compare signedChar s byte).Inv := by
  have hlt := h.bidx_lt
  have hstart := h.start_eq
  have hbefore := h.none
  rw [Sockets.compare]
  by_cases heof : charValue signedChar byte = -1
  · rw [if_pos heof]
    exact hquiet.finish (h.right_false (hend heof) _)
  rw [if_neg heof]
  by_cases heq : charValue signedChar byte = (s.str.getD s.bidx 0).toNat
  · have htake : s.str.take (s.bidx + 1) = s.str.take s.bidx ++ [byte] := by
      rw [charValue_eq_natCast heq, List.getD_eq_getElem _ _ hlt]
      exact List.take_succ_eq_append_getElem hlt
    have hstart' : s.start = pre ++ (s.str.take (s.bidx + 1) ++ net'.stream s.sock) := by
      rw [hstart, hstream, htake, List.append_cons]
    rw [if_pos heq]
    dsimp only
    by_cases hlast : s.bidx + 1 = s.str.length
    · -- the occurrence is complete
      rw [if_pos hlast]
      rw [List.take_of_length_le hlast.ge, ← List.append_assoc] at hstart'
      exact hquiet.finish (Searches.right_true hstart' hbefore fun hreadto => (h.b_eq hreadto).1)
    · rw [if_neg hlast]
      refine hquiet.search ⟨by dsimp only; omega, hstart', hbefore, fun hreadto => ?_⟩
      obtain ⟨hb, hback⟩ := h.b_eq hreadto
      change s.readto = true at hreadto
      dsimp only
      rw [if_pos hreadto, hback, ← htake, List.take_take, Nat.min_self]
      exact ⟨hb, rfl⟩
  · -- what was compared is left behind
    have hlen : (pre ++ s.str.take s.bidx ++ [byte]).length = pre.length + (s.bidx + 1) := by
      rw [List.length_append, List.length_append, List.length_take, Nat.min_eq_left hlt.le]
      rfl
    rw [if_neg heq]
    have hsearch : net'.Searches { s with
        b := if s.readto then s.b ++ s.backbuf.take s.bidx ++ [byte] else s.b
        bidx := 0 } (pre ++ s.str.take s.bidx ++ [byte]) := by
      refine ⟨Nat.zero_lt_of_lt hlt, ?_, ?_, fun hreadto => ⟨?_, rfl⟩⟩
      · dsimp only
        rw [hstart, hstream, List.take_zero, List.nil_append, List.append_cons, List.append_assoc,
          List.append_assoc, List.append_assoc]
      · rw [hlen]
        dsimp only
        rw [hstart] at hbefore ⊢
        exact hbefore.append (hnone heof heq)
      · obtain ⟨hb, hback⟩ := h.b_eq hreadto
        change s.readto = true at hreadto
        dsimp only
        rw [if_pos hreadto, hb, hback]
    exact hquiet.search hsearch

/-- A call starts. -/
theorem Inv.expect (h : net.Inv) (hthread : net.thread = .idle) {str : List UInt8} (hstr : str ≠ [])
    (readto : Bool) :
    Inv { net with thread := .search { sock := k, str, readto, start := net.stream k } } := by
  have hquiet := h.quiet fun k hrecv => nomatch hthread.symm.trans hrecv
  have hsearch : net.Searches { sock := k, str, readto, start := net.stream k } [] :=
    ⟨List.length_pos_iff.mpr hstr, rfl, noneBefore_zero _ _, fun _ => ⟨rfl, rfl⟩⟩
  exact hquiet.search hsearch

/-- The time-out ends a call. -/
theorem Inv.timeOut (h : net.Inv) {s : Search κ} (hthread : net.thread = .search s)
    (hcrt : (net.conns s.sock).sock.crt = 0) (hincoming : net.incoming s.sock = []) :
    (net.finish s false).Inv := by
  have hquiet := h.quiet fun k hrecv => nomatch hthread.symm.trans hrecv
  obtain ⟨pre, hsearch⟩ := h.search s hthread
  have hstream : net.stream s.sock = [] := by
    rw [stream, hincoming, Sock.stored, hcrt]
    rfl
  refine hquiet.finish (hsearch.right_false (fun hin => ?_) _)
  -- what was compared is shorter than the string
  have hlen := hin.length_le
  rw [hstream, List.append_nil, List.length_take] at hlen
  have hlt := hsearch.bidx_lt
  omega

/-! ### Events -/

section

variable [DecidableEq κ] {k : κ} {e : Event}

/-- **What an event of a socket does.** It is a segment, or an event of the thread that reads. -/
theorem connStep_cases (hs : net.connStep k e = some net') :
    (∃ data c, e = .segment data ∧ (net.conns k).step e = some c ∧
        (net.conns k).sock.accepted data <+: net.incoming k ∧
        net' = { net.setConn k c with
          incoming := Function.update net.incoming k
            ((net.incoming k).drop ((net.conns k).sock.accepted data).length) }) ∨
      ((net.thread = .idle ∨ net.thread = .recv k) ∧ ∃ c, (net.conns k).step e = some c ∧
        net' = { net.setConn k c with thread := if c.phase = .idle then .idle else .recv k }) := by
  cases e with
  | segment data =>
    obtain ⟨haccepted, hs⟩ := Option.ite_none_right_eq_some.mp hs
    obtain ⟨c, hc, hnet⟩ := Option.map_eq_some_iff.mp hs
    exact .inl ⟨data, c, rfl, hc, haccepted, hnet.symm⟩
  | setSplit | recv | go | giveUp =>
    refine .inr ?_
    rcases hthread : net.thread with _ | k' | s
    · simp only [connStep, hthread] at hs
      obtain ⟨c, hc, hnet⟩ := Option.map_eq_some_iff.mp hs
      exact ⟨.inl rfl, c, hc, hnet.symm⟩
    · simp only [connStep, hthread] at hs
      obtain ⟨rfl, hs⟩ := Option.ite_none_right_eq_some.mp hs
      obtain ⟨c, hc, hnet⟩ := Option.map_eq_some_iff.mp hs
      exact ⟨.inr rfl, c, hc, hnet.symm⟩
    · simp only [connStep, hthread, reduceCtorEq] at hs

theorem conns_setConn_self (net : Sockets κ) (k : κ) (c : Conn) : (net.setConn k c).conns k = c :=
  Function.update_self ..

theorem conns_setConn_of_ne {k' : κ} (hk : k' ≠ k) (net : Sockets κ) (c : Conn) :
    (net.setConn k c).conns k' = net.conns k' := Function.update_of_ne hk ..

theorem exists_inv_setConn (h : ∀ k, ∃ r q, Conn.Inv (net.conns k) r q) (hc : ∃ r q, Conn.Inv c r q)
    (k k' : κ) : ∃ r q, Conn.Inv ((net.setConn k c).conns k') r q := by
  by_cases hk : k' = k
  · subst hk
    rw [conns_setConn_self]
    exact hc
  · rw [conns_setConn_of_ne hk]
    exact h k'

/-- A segment does not change what an idle socket has not delivered yet. -/
theorem Inv.stream_segment (h : net.Inv) {data : List UInt8} (hphase : (net.conns k).phase = .idle)
    (hc : (net.conns k).step (.segment data) = some c)
    (haccepted : (net.conns k).sock.accepted data <+: net.incoming k) (k' : κ) :
    stream { net.setConn k c with
      incoming := Function.update net.incoming k
        ((net.incoming k).drop ((net.conns k).sock.accepted data).length) } k' = net.stream k' := by
  by_cases hk : k' = k
  · subst hk
    obtain ⟨r, q, hinv⟩ := h.conns k'
    obtain ⟨c', hc', hphase', hinv'⟩ := hinv.segment data
    obtain rfl := Option.some_inj.mp (hc.symm.trans hc')
    have hdrop : (net.conns k').sock.accepted data ++
        (net.incoming k').drop ((net.conns k').sock.accepted data).length = net.incoming k' := by
      obtain ⟨rest, hrest⟩ := haccepted
      rw [← hrest, List.drop_left]
    rw [stream, stream]
    dsimp only
    rw [conns_setConn_self, Function.update_self, stored_eq hinv' (hphase'.trans hphase),
      ← accepted_eq hinv, List.append_assoc, hdrop, stored_eq hinv hphase]
  · rw [stream, stream]
    dsimp only
    rw [conns_setConn_of_ne hk, Function.update_of_ne hk]

/-- An event of a socket. -/
theorem Inv.connStep (h : net.Inv) (hs : net.connStep k e = some net') : net'.Inv := by
  obtain ⟨data, c, rfl, hc, haccepted, rfl⟩ | ⟨hthread, c, hc, rfl⟩ := connStep_cases hs
  · have hkeep : ∀ r q, Conn.Inv (net.conns k) r q →
        (∃ r q, Conn.Inv c r q) ∧ c.phase = (net.conns k).phase := fun r q hinv => by
      obtain ⟨c', hc', hphase, hinv'⟩ := hinv.segment data
      obtain rfl := Option.some_inj.mp (hc.symm.trans hc')
      exact ⟨⟨_, _, hinv'⟩, hphase⟩
    obtain ⟨r, q, hinv⟩ := h.conns k
    obtain ⟨hc', hphase⟩ := hkeep r q hinv
    refine ⟨exists_inv_setConn h.conns hc' k, fun k' => ?_, fun s hthread => ?_, h.last⟩
    · by_cases hk : k' = k
      · subst hk
        dsimp only
        rw [conns_setConn_self, hphase]
        exact h.phase k'
      · dsimp only
        rw [conns_setConn_of_ne hk]
        exact h.phase k'
    · obtain ⟨pre, hsearch⟩ := h.search s hthread
      have hidle := (h.phase k).resolve_right fun hrecv => nomatch hthread.symm.trans hrecv
      refine ⟨pre, hsearch.bidx_lt, ?_, hsearch.none, hsearch.b_eq⟩
      rw [h.stream_segment hidle hc haccepted]
      exact hsearch.start_eq
  · obtain ⟨r, q, hinv⟩ := h.conns k
    refine ⟨exists_inv_setConn h.conns (hinv.step hc).1 k, fun k' => ?_, fun s hthread' => ?_,
      h.last⟩
    · dsimp only
      by_cases hk : k' = k
      · subst hk
        rw [conns_setConn_self]
        split_ifs with hidle
        · exact .inl hidle
        · exact .inr rfl
      · rw [conns_setConn_of_ne hk]
        refine .inl ((h.phase k').resolve_right fun hrecv => ?_)
        rcases hthread with hidle | hrecv'
        · exact nomatch hidle.symm.trans hrecv
        · exact hk (Thread.recv.inj (hrecv.symm.trans hrecv'))
    · dsimp only at hthread'
      split_ifs at hthread'

/-- The buffer of a socket is replaced. -/
theorem Inv.setConn (h : net.Inv) (hthread : net.thread = .idle) (hc : ∃ r q, Conn.Inv c r q)
    (hphase : c.phase = .idle) : Inv (net.setConn k c) := by
  refine ⟨exists_inv_setConn h.conns hc k, fun k' => ?_, fun s hsearch => ?_, h.last⟩
  · by_cases hk : k' = k
    · subst hk
      rw [conns_setConn_self]
      exact .inl hphase
    · rw [conns_setConn_of_ne hk]
      exact h.phase k'
  · exact nomatch hthread.symm.trans hsearch

/-- A character is read and compared. -/
theorem Inv.readStep (h : net.Inv) {s : Search κ} (hthread : net.thread = .search s)
    (hreads : net.Reads signedChar s) (hcrt : 0 < (net.conns s.sock).sock.crt) {leftbytes : ℤ}
    (hs : net.readStep signedChar s leftbytes = some net') : net'.Inv := by
  have hquiet := h.quiet fun k hrecv => nomatch hthread.symm.trans hrecv
  obtain ⟨pre, hsearch⟩ := h.search s hthread
  obtain ⟨r, q, hinv⟩ := h.conns s.sock
  have hstored := stored_eq hinv (hquiet.phase s.sock)
  rcases q with _ | ⟨byte, q⟩
  · rw [hinv.stores.crt_eq] at hcrt
    exact absurd hcrt (lt_irrefl 0)
  obtain ⟨c, hc, hbyte, hinv', hidle⟩ := exists_readChar hinv (hquiet.phase s.sock)
  rw [Sockets.readStep, hc, Option.map_some, Option.some_inj] at hs
  obtain ⟨-, hreads⟩ := hreads
  rw [hbyte] at hreads
  rw [← hs]
  refine hsearch.compare ⟨exists_inv_setConn h.conns ⟨_, _, hinv'⟩ s.sock, fun k' => ?_, h.last⟩ ?_
    (fun heof => ?_) fun hne hcv => ?_
  · dsimp only
    by_cases hk : k' = s.sock
    · subst hk
      rw [conns_setConn_self]
      exact hidle
    · rw [conns_setConn_of_ne hk]
      exact hquiet.phase k'
  · rw [stream, stream]
    dsimp only
    rw [conns_setConn_self, hstored, stored_eq hinv' hidle]
    rfl
  · rwa [if_pos heof] at hreads
  · rw [if_neg hne] at hreads
    exact hreads hcv

/-- **One event.** -/
theorem Inv.step (h : net.Inv) {e : NetEvent κ} (hcareful : e.Careful signedChar net)
    (hs : net.step signedChar e = some net') : net'.Inv := by
  cases e with
  | conn k e => exact h.connStep hs
  | setBuffer k bufsize buf =>
    rcases hthread : net.thread with _ | k' | s
    case idle =>
      rcases bufsize with _ | n
      · simp only [Sockets.step, hthread, reduceCtorEq] at hs
      · simp only [Sockets.step, hthread, Option.some_inj] at hs
        rw [← hs]
        refine h.setConn hthread ?_ rfl
        cases buf with
        | some buf => exact ⟨0, [], Conn.inv_afterSetBuffer _ buf n.succ_pos (hcareful rfl)⟩
        | none =>
          obtain ⟨r, q, hinv⟩ := h.conns k
          have hst := hinv.stores
          have hzero : (0 : ℤ) = (0 % (net.conns k).sock.size : ℕ) :=
            congrArg Nat.cast (Nat.zero_mod _).symm
          exact ⟨0, [], ⟨hst.size_le, .nil (Nat.zero_lt_of_lt hst.holds.lt), hst.total_eq, rfl, hzero⟩,
            hzero, List.nil_prefix, trivial, fun _ => rfl⟩
    all_goals simp only [Sockets.step, hthread, reduceCtorEq] at hs
  | expect k str readto granted =>
    rcases hthread : net.thread with _ | k' | s
    case idle =>
      rcases str with _ | ⟨x, str⟩
      · simp only [Sockets.step, hthread, reduceCtorEq] at hs
      · have hgranted : ¬ (readto ∧ ¬ granted) := fun hnot => hnot.2 (hcareful hnot.1)
        simp only [Sockets.step, hthread, if_neg hgranted, Option.some_inj] at hs
        rw [← hs]
        exact h.expect hthread (List.cons_ne_nil x str) readto
    all_goals simp only [Sockets.step, hthread, reduceCtorEq] at hs
  | read =>
    rcases hthread : net.thread with _ | k' | s
    case search =>
      have hreads := hcareful s hthread
      simp only [Sockets.step, hthread] at hs
      split_ifs at hs with hleft hcrt
      · exact h.readStep hthread hreads (hreads.1 hleft) hs
      · exact h.readStep hthread hreads hcrt hs
    all_goals simp only [Sockets.step, hthread, reduceCtorEq] at hs
  | timeOut =>
    rcases hthread : net.thread with _ | k' | s
    case search =>
      obtain ⟨r, q, hinv⟩ := h.conns s.sock
      have hcrt := hinv.stores.crt_eq
      simp only [Sockets.step, hthread] at hs
      split_ifs at hs with htime hzero
      · rw [← Option.some_inj.mp hs]
        exact h.timeOut hthread hzero htime.2.2
      · omega
    all_goals simp only [Sockets.step, hthread, reduceCtorEq] at hs

end

end Sockets

/-- Sockets after `elua_net_set_buffer`, and what they receive from now on. -/
def Sockets.start (s : κ → Sock) (bufsize : κ → ℕ) (buf : κ → ℕ → UInt8)
    (incoming : κ → List UInt8) :
    Sockets κ :=
  { conns := fun k => Conn.afterSetBuffer (s k) (bufsize k) (buf k), incoming }

theorem Sockets.inv_start (s : κ → Sock) {bufsize : κ → ℕ} (buf : κ → ℕ → UInt8)
    (incoming : κ → List UInt8) (hpos : ∀ k, 0 < bufsize k) (hle : ∀ k, bufsize k ≤ 32767) :
    (Sockets.start s bufsize buf incoming).Inv :=
  ⟨fun k => ⟨0, [], Conn.inv_afterSetBuffer (s k) (buf k) (hpos k) (hle k)⟩, fun _ => .inl rfl,
    nofun,
    nofun⟩

/-- **Every run.** In a run whose events are careful, every call of `elua_net_expect` and
`elua_net_readto` does what it should, and no socket delivers what it has not received. -/
theorem right_of_reach [DecidableEq κ] (signedChar : Bool) (s : κ → Sock) (bufsize : κ → ℕ)
    (buf : κ → ℕ → UInt8) (incoming : κ → List UInt8) (hpos : ∀ k, 0 < bufsize k)
    (hle : ∀ k, bufsize k ≤ 32767) (net : Sockets κ)
    (h : Reach (fun net e => net.step signedChar e) (fun net e => NetEvent.Careful signedChar net e)
      (Sockets.start s bufsize buf incoming) net) :
    (∀ r, net.last = some r → r.Right) ∧ ∀ k, (net.conns k).Streams := by
  have hinv : net.Inv := h.invariant (Sockets.inv_start s buf incoming hpos hle)
    fun _ _ _ hnet hcareful hstep => hnet.step hcareful hstep
  refine ⟨hinv.last, fun k => ?_⟩
  obtain ⟨r, q, hk⟩ := hinv.conns k
  exact hk.streams

/-- Two sockets with a buffer of four bytes. The first one receives `aab`. -/
def twoSockets : Sockets Bool :=
  .start (fun _ => ⟨0, fun _ => 0, -1, 0, 0, 0, 0, .ok⟩) (fun _ => 4) (fun _ _ => 0)
    fun k => if k then [] else [0x61, 0x61, 0x62]

/-- The first socket is read to a string, after all of `aab` was received. -/
def readtoInAab (str : List UInt8) : List (NetEvent Bool) :=
  [.conn false (.segment [0x61, 0x61, 0x62]), .expect false str true true, .read, .read, .read]

/-- The search for `ab` in `aab` fails. -/
theorem not_right_aab :
    ¬ ∀ (signedChar : Bool) (s : Bool → Sock) (bufsize : Bool → ℕ) (buf : Bool → ℕ → UInt8)
      (incoming : Bool → List UInt8), (∀ k, 0 < bufsize k) → (∀ k, bufsize k ≤ 32767) →
      ∀ net, Reach (fun net e => Sockets.step net signedChar e) (fun _ _ => True)
        (Sockets.start s bufsize buf incoming) net → ∀ r, net.last = some r → r.Right := by
  intro h
  have hrun : (runAll (guarded (fun net e => Sockets.step net false e) fun _ _ => True)
      (readtoInAab [0x61, 0x62] ++ [.timeOut]) twoSockets).isSome := by
    decide +kernel
  have hlast : ∀ hrun : (runAll (guarded (fun net e => Sockets.step net false e) fun _ _ => True)
      (readtoInAab [0x61, 0x62] ++ [.timeOut]) twoSockets).isSome,
      (Option.get _ hrun).last.map (fun r => (r.str, r.success, r.start)) =
        some ([0x61, 0x62], false, [0x61, 0x61, 0x62]) := by
    decide +kernel
  obtain ⟨r, hr, heq⟩ := Option.map_eq_some_iff.mp (hlast hrun)
  have hright := h false _ _ _ _ (by decide) (by decide) _ (reach_get _ _ _ hrun) r hr
  obtain ⟨hstr, hrest⟩ := Prod.mk.inj heq
  obtain ⟨hsuccess, hstart⟩ := Prod.mk.inj hrest
  have hiff := hright.success_iff
  rw [hstr, hsuccess, hstart] at hiff
  exact absurd hiff (by decide)

/-- The search for `b` in `aab` succeeds. -/
theorem right_aab :
    ∃ net, runAll (guarded (fun net e => Sockets.step net false e) fun net e =>
        NetEvent.Careful false net e) (readtoInAab [0x62]) twoSockets = some net ∧
      (∃ r, net.last = some r ∧ r.success = true ∧ r.b = [0x61, 0x61]) ∧
      ∀ r, net.last = some r → r.Right := by
  have hrun : (runAll (guarded (fun net e => Sockets.step net false e) fun net e =>
      NetEvent.Careful false net e) (readtoInAab [0x62]) twoSockets).isSome := by
    decide +kernel
  have hlast : ∀ hrun : (runAll (guarded (fun net e => Sockets.step net false e) fun net e =>
      NetEvent.Careful false net e) (readtoInAab [0x62]) twoSockets).isSome,
      (Option.get _ hrun).last.map (fun r => (r.success, r.b)) = some (true, [0x61, 0x61]) := by
    decide +kernel
  obtain ⟨r, hr, heq⟩ := Option.map_eq_some_iff.mp (hlast hrun)
  obtain ⟨hright, -⟩ :=
      right_of_reach false _ _ _ _ (by decide) (by decide) _ (reach_get _ _ _ hrun)
  exact ⟨_, (Option.some_get hrun).symm, ⟨r, hr, (Prod.mk.inj heq).1, (Prod.mk.inj heq).2⟩, hright⟩

end ELuaBrain.Net
