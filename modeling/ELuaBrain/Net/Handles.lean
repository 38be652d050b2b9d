import Mathlib.Data.List.Range
import Mathlib.Data.List.Nodup
import ELuaBrain.Net.Uip
import ELuaBrain.System.Reach

/-!
# The connections and their handles

`elua_net_socket`, `elua_net_connect`, `elua_net_accept` and `elua_net_close` on the connection
table of uIP, for stream sockets. The calls that wait are cut where they wait. A handle is open
from the call that returns its number to the call that closes it, which may be `elua_net_connect`
or `elua_net_accept` themselves, or to the loss of the link.

## Main definitions

* `Table`, `Table.step` : the connections, the calls and what happens on the network.
* `Table.InUse` : a connection is in use.
* `Table.Owned` : what the handles can rely on.
* `TableEvent.Careful` : what has to be avoided.

## Main results

* `Table.Inv.step` : one event.
* `owned_of_reach` : every run.
* `not_owned_of_not_careful` : the condition on the runs is needed.
-/

namespace ELuaBrain.Net

/-- The memory blocks. -/
structure Blocks where
  next : ℕ := 0
  live : List ℕ := []
  /-- A block was freed that was not live. -/
  freedTwice : Bool := false

def Blocks.malloc (m : Blocks) : Blocks := { m with next := m.next + 1, live := m.next :: m.live }

def Blocks.free (m : Blocks) (b : ℕ) : Blocks :=
  if b ∈ m.live then { m with live := m.live.erase b } else { m with freedTwice := true }

/-- An open handle, with the receive buffer it got. -/
structure Handle where
  conn : ℕ
  buf : Option ℕ

/-- The call that waits. -/
inductive NetCall where
  | none
  | connect (s : ℕ)
  /-- `elua_net_accept`, before and after `elua_uip_accept_request` is set. -/
  | accept (s : ℕ) (waits : Bool)
  /-- `elua_net_close`, which `elua_net_accept` may have called. -/
  | close (s : ℕ) (accept : Bool)

/-- The connections, the call that waits, the open handles and the memory. -/
structure Table where
  conns : ℕ → UipConn := fun _ => {}
  configured : Bool := true
  request : Bool := false
  call : NetCall := .none
  handles : List Handle := []
  blocks : Blocks := {}
  /-- The number of a connection in use was chosen. -/
  reused : Bool := false

/-- What may happen. -/
inductive TableEvent where
  | socket
  | connect (s mss : ℕ)
  /-- The memory for the buffer is granted or not, if there is to be one. -/
  | accept (buffer : Option Bool)
  | close (s : ℕ)
  /-- The call goes on. -/
  | go
  | timeOut
  /-- A new peer. -/
  | syn (mss : ℕ)
  | input (s : ℕ) (g : Segment) (stale : ℕ → UInt8)
  | periodic (s : ℕ) (p : Periodic) (replaced : Bool) (stale : ℕ → UInt8)
  | linkDown
  | linkUp

/-- The peer of a connection is connected. -/
def TcpState.HasPeer (t : TcpState) : Prop :=
  t = .established ∨ t = .finWait1 ∨ t = .finWait2 ∨ t = .closing ∨ t = .lastAck

instance (t : TcpState) : Decidable t.HasPeer := inferInstanceAs (Decidable (_ ∨ _ ∨ _ ∨ _ ∨ _))

namespace Table

variable (t : Table)

/-- A connection belongs to an open handle or to a peer. -/
def InUse (s : ℕ) : Prop := (∃ h ∈ t.handles, h.conn = s) ∨ (t.conns s).tcp.HasPeer

instance (s : ℕ) : Decidable (t.InUse s) := inferInstanceAs (Decidable (_ ∨ _))

/-- A connection changes. -/
def setConn (s : ℕ) (c : UipConn) : Table := { t with conns := Function.update t.conns s c }

/-- The receive buffer of a connection is freed. -/
def freeBuf (s : ℕ) : Table :=
  match (t.conns s).app.buf with
  | some b =>
      { t.setConn s { t.conns s with app := { (t.conns s).app with buf := none } } with
        blocks := t.blocks.free b }
  | none => t

/-- The loop of `elua_net_socket`. -/
def freeConn (uipConns : ℕ) : Option ℕ :=
  (List.range uipConns).find? fun i => (t.conns i).tcp = .closed ∨ (t.conns i).tcp ≠ .closed

/-- A connection is reserved and its application state is cleared. -/
def reserve (s : ℕ) : Table :=
  { t.setConn s { t.conns s with tcp := .reserved, app := {} } with
    reused := t.reused || decide (t.InUse s) }

/-- `elua_net_socket`. -/
def socket (uipConns : ℕ) : Option (ℕ × Table) :=
  if t.configured then (t.freeConn uipConns).map fun s => (s, t.reserve s) else none

/-- `ELUA_UIP_IS_SOCK_OK`. -/
def SockOk (uipConns s : ℕ) : Prop := t.configured ∧ s < uipConns

instance (uipConns s : ℕ) : Decidable (t.SockOk uipConns s) := inferInstanceAs (Decidable (_ ∧ _))

/-- `elua_net_accept` ends. -/
def endAccept (accept : Bool) : Table := if accept then { t with request := false } else t

/-- `elua_net_close`, until it waits. -/
def close (uipConns s : ℕ) (accept : Bool) : Table :=
  if t.SockOk uipConns s then
    let t := { t with handles := t.handles.filter fun h => h.conn ≠ s }
    if (t.conns s).tcp.Active then
      { t.setConn s { t.conns s with
          app := { (t.conns s).app with data := [], res := .ok, state := .close } } with
        call := .close s accept }
    else { (t.freeBuf s).endAccept accept with call := .none }
  else { t.endAccept accept with call := .none }

/-- The stack is down, as `eluah_check_stack_state` finds. -/
def stackDown (s : ℕ) : Table :=
  t.setConn s { t.conns s with app := { (t.conns s).app with res := .linkDown, state := .idle } }

/-- The call goes on. -/
def go : Option Table :=
  match t.call with
  | .none => none
  | .connect s =>
      if (t.conns s).app.state = .idle then some { t with call := .none }
      else if ¬ t.configured then some { t.stackDown s with call := .none }
      else none
  | .accept s false => some { t with request := true, call := .accept s true }
  | .accept s true =>
      if t.request then none
      else some { t with handles := ⟨s, (t.conns s).app.buf⟩ :: t.handles, call := .none }
  | .close s accept =>
      if ¬ t.configured then some { (t.stackDown s).endAccept accept with call := .none }
      else if (t.conns s).app.state = .idle then
        some { (t.freeBuf s).endAccept accept with call := .none }
      else none

/-- `elua_net_accept`, until it sets `elua_uip_accept_request`. -/
def accept (uipConns : ℕ) (buffer : Option Bool) : Table :=
  match t.socket uipConns, buffer with
  | none, _ => t
  | some (_, t), some false => t
  | some (s, t), some true =>
      { t.setConn s { t.conns s with
          tcp := .waitAccept, app := { (t.conns s).app with buf := some t.blocks.next } } with
        blocks := t.blocks.malloc
        call := .accept s false }
  | some (s, t), none =>
      { t.setConn s { t.conns s with tcp := .waitAccept } with call := .accept s false }

/-- `elua_net_connect`, until it waits. -/
def connect (uipConns s mss : ℕ) : Table :=
  if t.SockOk uipConns s ∧ (t.conns s).tcp = .reserved then
    { t.setConn s { t.conns s with
        tcp := .synSent
        snd := 0
        len := 1
        mss := mss
        initialmss := mss
        app := { (t.conns s).app with data := [], res := .ok, state := .connect } } with
      call := .connect s }
  else t

/-- A connection of uIP has done something. -/
def outcome (s : ℕ) (o : Outcome) : Table := { t.setConn s o.conn with request := o.request }

/-- `eluah_net_forced_close`, with `uip_init`. -/
def forcedClose (s : ℕ) : Table :=
  (t.freeBuf s).setConn s { t.conns s with tcp := .closed, app := {} }

/-- One event. -/
def step (uipConns : ℕ) : TableEvent → Option Table
  | .socket =>
      match t.call with
      | .none =>
          some (match t.socket uipConns with
            | some (s, t) => { t with handles := ⟨s, none⟩ :: t.handles }
            | none => t)
      | _ => none
  | .connect s mss =>
      match t.call with
      | .none => some (t.connect uipConns s mss)
      | _ => none
  | .accept buffer =>
      match t.call with
      | .none => some (t.accept uipConns buffer)
      | _ => none
  | .close s =>
      match t.call with
      | .none => some (t.close uipConns s false)
      | _ => none
  | .go => t.go
  | .timeOut =>
      match t.call with
      | .connect s =>
          if (t.conns s).app.state ≠ .idle ∧
            t.configured then some (t.close uipConns s false) else none
      | .accept s true => if t.request then some (t.close uipConns s true) else none
      | _ => none
  | .syn mss =>
      ((List.range uipConns).find? fun i => (t.conns i).tcp = .waitAccept).map fun s =>
        t.setConn s { t.conns s with tcp := .synRcvd, snd := 0, len := 1, mss := mss, initialmss :=
          mss }
  | .input s g stale =>
      if s < uipConns ∧ (t.conns s).tcp.Active then
        some (t.outcome s ((t.conns s).input t.configured t.request stale g))
      else none
  | .periodic s p replaced stale =>
      if s < uipConns then
        ((t.conns s).periodic t.configured t.request stale p).map fun o =>
          t.outcome s (if replaced then o.replace else o)
      else none
  | .linkDown =>
      some ((List.range uipConns).foldl forcedClose { t with configured := false, handles := [] })
  | .linkUp => some { t with configured := true }

/-- What the handles can rely on. No connection in use was given away, the open handles denote
different connections, the buffer of a handle is still there, and no block was freed twice. -/
structure Owned : Prop where
  not_reused : t.reused = false
  nodup : (t.handles.map Handle.conn).Nodup
  buf : ∀ h ∈ t.handles, ∀ b, h.buf = some b → (t.conns h.conn).app.buf = some b ∧ b ∈ t.blocks.live
  not_freedTwice : t.blocks.freedTwice = false

end Table

/-- The first connection is not in use when a connection is needed. -/
def TableEvent.Careful (t : Table) : TableEvent → Prop
  | .socket => ¬ t.InUse 0
  | .accept _ => ¬ t.InUse 0
  | _ => True

instance TableEvent.decidableCareful (t : Table) (e : TableEvent) : Decidable (e.Careful t) :=
  match e with
  | .socket | .accept _ => inferInstanceAs (Decidable (¬ _))
  | .connect .. | .close _ | .go | .timeOut | .syn _ | .input .. | .periodic
    .. | .linkDown | .linkUp =>
      isTrue trivial

/-! ### The receive buffers -/

/-- The connections have different live blocks. -/
structure Blocks.Holds (m : Blocks) (buf : ℕ → Option ℕ) : Prop where
  live : ∀ {s b}, buf s = some b → b ∈ m.live
  lt_next : ∀ b ∈ m.live, b < m.next
  eq : ∀ {s s' b}, buf s = some b → buf s' = some b → s = s'
  not_freedTwice : m.freedTwice = false

namespace Blocks.Holds

variable {m : Blocks} {buf : ℕ → Option ℕ} {s b : ℕ}

/-- Only some of the blocks are still pointed to. -/
theorem mono (h : m.Holds buf) {buf' : ℕ → Option ℕ}
    (hbuf : ∀ s b, buf' s = some b → buf s = some b) :
    m.Holds buf' :=
  ⟨fun hb => h.live (hbuf _ _ hb), h.lt_next, fun hb hb' => h.eq (hbuf _ _ hb) (hbuf _ _ hb'),
    h.not_freedTwice⟩

theorem clear (h : m.Holds buf) (s : ℕ) : m.Holds (Function.update buf s none) :=
  h.mono fun s' b hb => by
    by_cases hs : s' = s
    · rw [hs, Function.update_self] at hb
      exact nomatch hb
    · rwa [Function.update_of_ne hs] at hb

theorem malloc (h : m.Holds buf) (s : ℕ) :
    m.malloc.Holds (Function.update buf s (some m.next)) := by
  -- no block is the new one
  have hne : ∀ s', buf s' ≠ some m.next := fun s' hb => (h.lt_next _ (h.live hb)).false
  have hold : ∀ s' b, Function.update buf s (some m.next) s' = some b →
      s' = s ∧ b = m.next ∨ s' ≠ s ∧ buf s' = some b := fun s' b hb => by
    by_cases hs : s' = s
    · rw [hs, Function.update_self] at hb
      exact .inl ⟨hs, (Option.some_inj.mp hb).symm⟩
    · rw [Function.update_of_ne hs] at hb
      exact .inr ⟨hs, hb⟩
  refine ⟨fun hb => ?_, fun b hb => ?_, fun hb hb' => ?_, h.not_freedTwice⟩
  · obtain ⟨-, rfl⟩ | ⟨-, hb⟩ := hold _ _ hb
    · exact List.mem_cons_self
    · exact List.mem_cons_of_mem _ (h.live hb)
  · obtain rfl | hb := List.mem_cons.mp hb
    · exact Nat.lt_succ_self _
    · exact (h.lt_next b hb).trans (Nat.lt_succ_self _)
  · rcases hold _ _ hb with ⟨hs, hnew⟩ | ⟨-, hs⟩ <;> rcases hold _ _ hb' with ⟨hs', hnew'⟩ | ⟨-,
      hs'⟩
    · exact hs.trans hs'.symm
    · exact absurd (hs'.trans (congrArg some hnew)) (hne _)
    · exact absurd (hs.trans (congrArg some hnew')) (hne _)
    · exact h.eq hs hs'

/-- The block of a connection is freed. -/
theorem free (h : m.Holds buf) (hb : buf s = some b) :
    (m.free b).Holds (Function.update buf s none) := by
  rw [Blocks.free, if_pos (h.live hb)]
  have hold : ∀ s' b', Function.update buf s none s' = some b' → s' ≠ s ∧ buf s' = some b' :=
    fun s' b' hb' => by
      by_cases hs : s' = s
      · rw [hs, Function.update_self] at hb'
        exact nomatch hb'
      · rw [Function.update_of_ne hs] at hb'
        exact ⟨hs, hb'⟩
  refine ⟨fun hb' => ?_, fun b' hb' => h.lt_next b' (List.mem_of_mem_erase hb'), fun hb₁ hb₂ => ?_,
    h.not_freedTwice⟩
  · obtain ⟨hs, hb'⟩ := hold _ _ hb'
    refine (List.mem_erase_of_ne fun heq => hs ?_).mpr (h.live hb')
    exact h.eq hb' (heq ▸ hb)
  · exact h.eq (hold _ _ hb₁).2 (hold _ _ hb₂).2

end Blocks.Holds

/-- The connection that a call is going to close or to return. -/
def NetCall.Owns : NetCall → ℕ → Prop
  | .accept s _, s' => s = s'
  | .close s _, s' => s = s'
  | _, _ => False

namespace Table

variable {t t' : Table} {s uipConns : ℕ}

/-- The receive buffers. -/
def bufs (t : Table) (s : ℕ) : Option ℕ := (t.conns s).app.buf

/-- What holds in every state. -/
structure Inv (t : Table) : Prop where
  holds : t.blocks.Holds t.bufs
  not_reused : t.reused = false
  nodup : (t.handles.map Handle.conn).Nodup
  buf : ∀ h ∈ t.handles, ∀ b, h.buf = some b → t.bufs h.conn = some b
  call : ∀ s, t.call.Owns s → ∀ h ∈ t.handles, h.conn ≠ s

theorem Inv.owned (h : t.Inv) : t.Owned :=
  ⟨h.not_reused, h.nodup, fun a ha b hb => ⟨h.buf a ha b hb, h.holds.live (h.buf a ha b hb)⟩,
    h.holds.not_freedTwice⟩

theorem bufs_setConn (t : Table) (s : ℕ) (c : UipConn) :
    (t.setConn s c).bufs = Function.update t.bufs s c.app.buf := by
  funext s'
  by_cases hs : s' = s
  · rw [bufs, setConn, hs, Function.update_self]
    dsimp only
    rw [Function.update_self]
  · rw [bufs, setConn, Function.update_of_ne hs]
    dsimp only
    rw [Function.update_of_ne hs]
    rfl

theorem bufs_setConn_of_eq {c : UipConn} (hc : c.app.buf = t.bufs s) : (t.setConn s c).bufs =
    t.bufs := by
  rw [bufs_setConn, hc, Function.update_eq_self]

/-- Only a call or a connection without its buffer changes. -/
theorem Inv.frame (h : t.Inv) (hbufs : t'.bufs = t.bufs) (hblocks : t'.blocks = t.blocks)
    (hhandles : t'.handles = t.handles) (hreused : t'.reused = t.reused)
    (hcall : ∀ s, t'.call.Owns s → ∀ h ∈ t.handles, h.conn ≠ s) : t'.Inv :=
  ⟨hblocks ▸ hbufs ▸ h.holds, hreused ▸ h.not_reused, hhandles ▸ h.nodup, hhandles ▸ hbufs ▸ h.buf,
    hhandles ▸ hcall⟩

/-! ### The calls -/

theorem freeConn_eq (h : t.freeConn uipConns = some s) : s = 0 := by
  cases uipConns with
  | zero => exact nomatch h
  | succ n =>
    have hfind : t.freeConn (n + 1) = some 0 := by
      rw [freeConn, List.range_succ_eq_map]
      exact List.find?_cons_of_pos (decide_eq_true (em _))
    exact (Option.some_inj.mp (hfind.symm.trans h)).symm

theorem socket_eq (h : t.socket uipConns = some (s, t')) : s = 0 ∧ t' = t.reserve 0 := by
  obtain ⟨-, h⟩ := Option.ite_none_right_eq_some.mp h
  obtain ⟨s', hs', heq⟩ := Option.map_eq_some_iff.mp h
  obtain rfl := freeConn_eq hs'
  exact ⟨(Prod.mk.inj heq).1.symm, (Prod.mk.inj heq).2.symm⟩

/-- No open handle has the number of the connection. -/
theorem not_mem_of_not_inUse (h : ¬ t.InUse s) : ∀ a ∈ t.handles, a.conn ≠ s :=
  fun a ha hs => h (.inl ⟨a, ha, hs⟩)

/-- A connection gets another buffer or none. -/
theorem Inv.setBuf (h : t.Inv) (hs : ∀ a ∈ t.handles, a.conn ≠ s)
    (hbufs : t'.bufs = Function.update t.bufs s b)
    (hholds : t'.blocks.Holds t'.bufs) (hhandles : t'.handles = t.handles)
    (hreused : t'.reused = t.reused)
    (hcall : ∀ s, t'.call.Owns s → ∀ a ∈ t.handles, a.conn ≠ s) : t'.Inv := by
  refine ⟨hholds, hreused ▸ h.not_reused, hhandles ▸ h.nodup, fun a ha b' hb' => ?_,
    hhandles ▸ hcall⟩
  rw [hhandles] at ha
  rw [hbufs, Function.update_of_ne (hs a ha)]
  exact h.buf a ha b' hb'

theorem freeBuf_eq (t : Table) (s : ℕ) : (t.freeBuf s).handles = t.handles ∧ (t.freeBuf s).call =
    t.call ∧
    (t.freeBuf s).reused = t.reused := by
  rw [freeBuf]
  split <;> exact ⟨rfl, rfl, rfl⟩

/-- The buffer of a connection without an open handle is freed. -/
theorem Inv.freeBuf (h : t.Inv) (hs : ∀ a ∈ t.handles, a.conn ≠ s) : (t.freeBuf s).Inv := by
  rw [Table.freeBuf]
  split
  · next b hb =>
    have hbufs := bufs_setConn t s { t.conns s with app := { (t.conns s).app with buf := none } }
    exact h.setBuf (b := none) hs hbufs (hbufs ▸ h.holds.free hb) rfl rfl h.call
  · exact h

/-- `elua_net_socket`. -/
theorem Inv.reserve (h : t.Inv) (hs : ¬ t.InUse s) (hcall : t.call = .none) :
    (t.reserve s).Inv := by
  have hbufs := bufs_setConn t s { t.conns s with tcp := .reserved, app := {} }
  refine h.setBuf (b :=
    none) (not_mem_of_not_inUse hs) hbufs (hbufs ▸ h.holds.clear s) rfl ?_ fun s' hown => ?_
  · rw [Table.reserve, decide_eq_false hs, Bool.or_false]
  · change t.call.Owns s' at hown
    rw [hcall] at hown
    exact hown.elim

/-- A handle is opened. -/
theorem Inv.open (h : t.Inv) (hs : ∀ a ∈ t.handles, a.conn ≠ s) {b : Option ℕ}
    (hb : ∀ b', b = some b' → t.bufs s = some b') :
    Inv { t with handles := ⟨s, b⟩ :: t.handles, call := .none } := by
  refine ⟨h.holds, h.not_reused, ?_, fun a ha b' hb' => ?_, fun _ hown => hown.elim⟩
  · rw [List.map_cons]
    refine List.nodup_cons.mpr ⟨fun hmem => ?_, h.nodup⟩
    obtain ⟨a, ha, heq⟩ := List.mem_map.mp hmem
    exact hs a ha heq
  · obtain rfl | ha := List.mem_cons.mp ha
    · exact hb b' hb'
    · exact h.buf a ha b' hb'

theorem Inv.endAccept (h : t.Inv) (accept : Bool) : (t.endAccept accept).Inv := by
  rw [Table.endAccept]
  split_ifs
  · exact h.frame rfl rfl rfl rfl h.call
  · exact h

/-- A call ends. -/
theorem Inv.done (h : t.Inv) : Inv { t with call := .none } :=
  h.frame rfl rfl rfl rfl fun _ hown => hown.elim

/-- `elua_net_close`. -/
theorem Inv.close (h : t.Inv) (uipConns s : ℕ) (accept : Bool) :
    (t.close uipConns s accept).Inv := by
  rw [Table.close]
  split
  · have hs : ∀ a ∈ t.handles.filter fun a => a.conn ≠ s, a.conn ≠ s := fun a ha =>
      of_decide_eq_true (List.mem_filter.mp ha).2
    have hsub : ∀ a ∈ t.handles.filter fun a => a.conn ≠ s, a ∈ t.handles := fun a ha =>
      (List.mem_filter.mp ha).1
    have h' : Inv { t with handles := t.handles.filter fun a => a.conn ≠ s } :=
      ⟨h.holds, h.not_reused, h.nodup.sublist (List.filter_sublist.map _),
        fun a ha => h.buf a (hsub a ha), fun s' hown a ha => h.call s' hown a (hsub a ha)⟩
    dsimp only
    split
    · refine h'.frame (bufs_setConn_of_eq rfl) rfl rfl rfl fun s' hown a ha => ?_
      obtain rfl : s = s' := hown
      exact hs a ha
    · exact ((h'.freeBuf hs).endAccept accept).done
  · exact (h.endAccept accept).done

/-- `elua_net_accept`. -/
theorem Inv.accept (h : t.Inv) (hcareful : ¬ t.InUse 0) (hcall : t.call = .none) (uipConns : ℕ)
    (buffer : Option Bool) : (t.accept uipConns buffer).Inv := by
  unfold Table.accept
  rcases hsocket : t.socket uipConns with _ | ⟨s, t₁⟩
  · exact h
  obtain ⟨rfl, rfl⟩ := socket_eq hsocket
  have h' := h.reserve hcareful hcall
  have hs : ∀ a ∈ t.handles, a.conn ≠ 0 := not_mem_of_not_inUse hcareful
  have hown : ∀ s' waits, (NetCall.accept 0 waits).Owns s' → ∀ a ∈ (t.reserve 0).handles,
      a.conn ≠ s' :=
    fun s' _ hown => by
      obtain rfl : 0 = s' := hown
      exact hs
  rcases buffer with _ | granted
  · exact h'.frame (bufs_setConn_of_eq rfl) rfl rfl rfl fun s' => hown s' false
  · cases granted with
    | false => exact h'
    | true =>
      have hbufs := bufs_setConn (t.reserve 0) 0 { (t.reserve 0).conns 0 with
        tcp := .waitAccept
        app := { ((t.reserve 0).conns 0).app with buf := some (t.reserve 0).blocks.next } }
      exact h'.setBuf hs hbufs (hbufs ▸ h'.holds.malloc 0) rfl rfl fun s' => hown s' false

theorem Inv.stackDown (h : t.Inv) (s : ℕ) : (t.stackDown s).Inv :=
  h.frame (bufs_setConn_of_eq rfl) rfl rfl rfl h.call

/-- The call goes on. -/
theorem Inv.go (h : t.Inv) (hgo : t.go = some t') : t'.Inv := by
  unfold Table.go at hgo
  rcases hcall : t.call with _ | s | ⟨s, waits⟩ | ⟨s, accept⟩
  · rw [hcall] at hgo
    exact nomatch hgo
  · rw [hcall] at hgo
    dsimp only at hgo
    split_ifs at hgo
    · exact Option.some_inj.mp hgo ▸ h.done
    · exact Option.some_inj.mp hgo ▸ (h.stackDown s).done
  · have hs := h.call s (hcall ▸ rfl)
    rw [hcall] at hgo
    cases waits with
    | false =>
      refine Option.some_inj.mp hgo ▸ h.frame rfl rfl rfl rfl fun s' hown => ?_
      obtain rfl : s = s' := hown
      exact hs
    | true =>
      dsimp only at hgo
      split_ifs at hgo
      exact Option.some_inj.mp hgo ▸ h.open hs fun _ hb => hb
  · have hs := h.call s (hcall ▸ rfl)
    rw [hcall] at hgo
    dsimp only at hgo
    split_ifs at hgo
    · exact Option.some_inj.mp hgo ▸ ((h.freeBuf hs).endAccept accept).done
    · exact Option.some_inj.mp hgo ▸ ((h.stackDown s).endAccept accept).done

/-- `elua_net_connect`. -/
theorem Inv.connect (h : t.Inv) (uipConns s mss : ℕ) :
    (t.connect uipConns s mss).Inv := by
  rw [Table.connect]
  split_ifs
  · exact h.frame (bufs_setConn_of_eq rfl) rfl rfl rfl fun _ hown => False.elim hown
  · exact h

/-! ### The network -/

theorem Inv.outcome (h : t.Inv) {o : Outcome} (ho : o.conn.app.buf = t.bufs s) :
    (t.outcome s o).Inv :=
  h.frame (bufs_setConn_of_eq ho) rfl rfl rfl h.call

/-- A connection is closed when the link is lost. -/
theorem Inv.forcedClose (h : t.Inv) (hhandles : t.handles = []) (s : ℕ) :
    (t.forcedClose s).Inv ∧ (t.forcedClose s).handles = [] := by
  obtain ⟨hhandles', -, -⟩ := freeBuf_eq t s
  have hnone : ∀ a ∈ t.handles, a.conn ≠ s := fun a ha => by
    rw [hhandles] at ha
    exact nomatch ha
  have h' := h.freeBuf hnone
  have hbufs := bufs_setConn (t.freeBuf s) s { t.conns s with tcp := .closed, app := {} }
  exact ⟨h'.setBuf (b := none) (hhandles' ▸ hnone) hbufs (hbufs ▸ h'.holds.clear s) rfl rfl h'.call,
    hhandles'.trans hhandles⟩

theorem Inv.forcedCloseAll (ss : List ℕ) (h : t.Inv) (hhandles : t.handles = []) :
    (ss.foldl Table.forcedClose t).Inv := by
  induction ss generalizing t with
  | nil => exact h
  | cons s ss ih =>
    obtain ⟨h', hhandles'⟩ := h.forcedClose hhandles s
    exact ih h' hhandles'

/-- **One event.** -/
theorem Inv.step (h : t.Inv) {e : TableEvent} (hcareful : e.Careful t)
    (hs : t.step uipConns e = some t') : t'.Inv := by
  cases e with
  | socket =>
    rcases hcall : t.call with _ | s | ⟨s, waits⟩ | ⟨s, accept⟩
    case none =>
      simp only [Table.step, hcall, Option.some_inj] at hs
      rw [← hs]
      rcases hsocket : t.socket uipConns with _ | ⟨s, t₁⟩
      · exact h
      · obtain ⟨rfl, rfl⟩ := socket_eq hsocket
        have hs : ∀ a ∈ t.handles, a.conn ≠ 0 := not_mem_of_not_inUse hcareful
        have hopen := (h.reserve hcareful hcall).open hs (b := none) nofun
        exact hopen.frame rfl rfl rfl rfl fun s hown => by
          change t.call.Owns s at hown
          rw [hcall] at hown
          exact hown.elim
    all_goals simp only [Table.step, hcall, reduceCtorEq] at hs
  | connect s mss =>
    rcases hcall : t.call with _ | s' | ⟨s', waits⟩ | ⟨s', accept⟩
    case none =>
      simp only [Table.step, hcall, Option.some_inj] at hs
      exact hs ▸ h.connect uipConns s mss
    all_goals simp only [Table.step, hcall, reduceCtorEq] at hs
  | accept buffer =>
    rcases hcall : t.call with _ | s | ⟨s, waits⟩ | ⟨s, accept⟩
    case none =>
      simp only [Table.step, hcall, Option.some_inj] at hs
      exact hs ▸ h.accept hcareful hcall uipConns buffer
    all_goals simp only [Table.step, hcall, reduceCtorEq] at hs
  | close s =>
    rcases hcall : t.call with _ | s' | ⟨s', waits⟩ | ⟨s', accept⟩
    case none =>
      simp only [Table.step, hcall, Option.some_inj] at hs
      exact hs ▸ h.close uipConns s false
    all_goals simp only [Table.step, hcall, reduceCtorEq] at hs
  | go => exact h.go hs
  | timeOut =>
    rcases hcall : t.call with _ | s | ⟨s, _ | _⟩ | ⟨s, accept⟩
    case connect =>
      simp only [Table.step, hcall, Option.ite_none_right_eq_some, Option.some_inj] at hs
      exact hs.2 ▸ h.close uipConns s false
    case accept.true =>
      simp only [Table.step, hcall, Option.ite_none_right_eq_some, Option.some_inj] at hs
      exact hs.2 ▸ h.close uipConns s true
    all_goals simp only [Table.step, hcall, reduceCtorEq] at hs
  | syn mss =>
    obtain ⟨s, -, hs⟩ := Option.map_eq_some_iff.mp hs
    exact hs ▸ h.frame (bufs_setConn_of_eq rfl) rfl rfl rfl h.call
  | input s g stale =>
    obtain ⟨-, hs⟩ := Option.ite_none_right_eq_some.mp hs
    exact Option.some_inj.mp hs ▸ h.outcome (UipConn.buf_input ..)
  | periodic s p replaced stale =>
    obtain ⟨-, hs⟩ := Option.ite_none_right_eq_some.mp hs
    obtain ⟨o, ho, hs⟩ := Option.map_eq_some_iff.mp hs
    have hbuf := UipConn.buf_periodic _ _ _ _ ho
    refine hs ▸ h.outcome ?_
    split_ifs
    · exact o.buf_replace.trans hbuf
    · exact hbuf
  | linkDown =>
    have h' : Inv { t with configured := false, handles := [] } :=
      ⟨h.holds, h.not_reused, List.nodup_nil, nofun, nofun⟩
    exact Option.some_inj.mp hs ▸ h'.forcedCloseAll _ rfl
  | linkUp => exact Option.some_inj.mp hs ▸ h.frame rfl rfl rfl rfl h.call

end Table

/-- **Every run.** In a run in which a connection is only asked for while the first one is not in
use, the handles keep what they own. -/
theorem owned_of_reach (uipConns : ℕ) (t : Table)
    (h : Reach (fun t e => t.step uipConns e) (fun t e => TableEvent.Careful t e) {} t) :
    t.Owned := by
  have hinit : Table.Inv {} :=
    ⟨⟨nofun, nofun, nofun, rfl⟩, rfl, List.nodup_nil, nofun, fun _ hown => hown.elim⟩
  exact (h.invariant hinit fun _ _ _ ht hcareful hstep => ht.step hcareful hstep).owned

theorem Table.socket_of_pos {uipConns : ℕ} {t : Table} (hpos : 0 < uipConns)
    (hconf : t.configured = true) : t.socket uipConns = some (0, t.reserve 0) := by
  have hfree : t.freeConn uipConns ≠ none := fun hnone =>
    List.find?_eq_none.mp hnone 0 (List.mem_range.mpr hpos) (decide_eq_true (em _))
  obtain ⟨s, hs⟩ := Option.ne_none_iff_exists'.mp hfree
  rw [socket, if_pos hconf, hs, freeConn_eq hs, Option.map_some]

/-- **The condition is needed.** A connection that is asked for while the first one is in use is
given away. -/
theorem not_owned_of_not_careful {uipConns : ℕ} {t t' : Table} {e : TableEvent} (he : ¬ e.Careful t)
    (hpos : 0 < uipConns) (hconf : t.configured = true) (hs : t.step uipConns e = some t') :
    ¬ t'.Owned := by
  have hsocket := Table.socket_of_pos hpos hconf
  have hreused : t.InUse 0 → (t.reserve 0).reused = true := fun hin => by
    rw [Table.reserve, decide_eq_true hin, Bool.or_true]
  suffices h : t'.reused = true from fun howned => Bool.false_ne_true (howned.not_reused ▸ h)
  cases e with
  | socket =>
    rcases hcall : t.call with _ | s | ⟨s, waits⟩ | ⟨s, accept⟩
    case none =>
      simp only [Table.step, hcall, hsocket, Option.some_inj] at hs
      exact hs ▸ hreused (not_not.mp he)
    all_goals simp only [Table.step, hcall, reduceCtorEq] at hs
  | accept buffer =>
    rcases hcall : t.call with _ | s | ⟨s, waits⟩ | ⟨s, accept⟩
    case none =>
      simp only [Table.step, hcall, Table.accept, hsocket, Option.some_inj] at hs
      rcases buffer with _ | _ | _ <;> exact hs ▸ hreused (not_not.mp he)
    all_goals simp only [Table.step, hcall, reduceCtorEq] at hs
  | connect | close | go | timeOut | syn | input | periodic | linkDown | linkUp =>
    exact absurd trivial he

/-- A peer is accepted, which gets a buffer. -/
def acceptPeer : List TableEvent :=
  [.accept (some true), .go, .syn 100, .input 0 { ackno := some 1 } fun _ => 0, .go]

/-- The handle is closed, and a connection is asked for. -/
def closeAndSocket : List TableEvent :=
  [.close 0, .periodic 0 (.poll true) false fun _ => 0,
    .input 0 { ackno := some 2, fin := true } fun _ => 0, .go, .socket]

/-- Two connections are asked for. -/
theorem not_owned_sockets :
    ¬ ∀ (uipConns : ℕ) (t : Table), Reach (fun t e => t.step uipConns e) (fun _ _ => True) {} t →
      t.Owned := by
  intro h
  have hrun : (runAll (guarded (fun t e => Table.step t 2 e) fun _ _ => True)
      [.socket, .socket] {}).isSome := by
    decide +kernel
  have hconns : ∀ hrun : (runAll (guarded (fun t e => Table.step t 2 e) fun _ _ => True)
      [.socket, .socket] {}).isSome, (Option.get _ hrun).handles.map Handle.conn = [0, 0] := by
    decide +kernel
  have hnodup := (h 2 _ (reach_get _ _ _ hrun)).nodup
  rw [hconns hrun] at hnodup
  exact absurd hnodup (by decide)

/-- A peer is accepted, and its connection is used again after it was closed. -/
theorem owned_acceptPeer :
    ∃ t, runAll (guarded (fun t e => Table.step t 2 e) fun t e => TableEvent.Careful t e)
      (acceptPeer ++ closeAndSocket) {} = some t ∧ t.handles.map Handle.conn = [0] ∧ t.Owned := by
  have hrun : (runAll (guarded (fun t e => Table.step t 2 e) fun t e => TableEvent.Careful t e)
      (acceptPeer ++ closeAndSocket) {}).isSome := by
    decide +kernel
  have hconns : ∀ hrun : (runAll (guarded (fun t e => Table.step t 2 e) fun t e =>
      TableEvent.Careful t e) (acceptPeer ++ closeAndSocket) {}).isSome,
      (Option.get _ hrun).handles.map Handle.conn = [0] := by
    decide +kernel
  exact ⟨_, (Option.some_get hrun).symm, hconns hrun, owned_of_reach 2 _ (reach_get _ _ _ hrun)⟩

end ELuaBrain.Net
