import ELuaBrain.System.Reach
import ELuaBrain.System.Ring

/-!
# The queue of Lua interrupts

The code of `elua_int.c` with Lua handlers. `elua_int_add` is called from interrupts, at any point
of the hook; the hook is called by the Lua machine while it is installed, and calls the Lua
handler, which returns or raises an error. An error leaves the hook at once, by a long jump. There
is one Lua state.

A slot of the queue is empty if its identifier is zero.

## Main definitions

* `State`, `Event`, `State.step` : the queue, the hook with its place, and what may happen.
* `Queued` : what is waiting, and how it is stored.
* `Event.Careful` : no error is raised while nothing is waiting.

## Main results

* `Queued.step` : one event.
* `queued_of_reach` : what is waiting in every state, and that the hook removes the first of it.
-/

namespace ELuaBrain.Interrupt

/-- `elua_int_element`. -/
structure Element where
  id : UInt8 := 0
  resnum : UInt16 := 0

/-- What is set by the platform: `PLATFORM_INT_QUEUE_LOG_SIZE` and `INT_ELUA_LAST`. -/
structure Config where
  logSize : ℕ
  last : UInt8

/-- `ELUA_INT_EMPTY_SLOT`. -/
def eluaIntEmptySlot : UInt8 := 0

/-- `ELUA_INT_FIRST_ID`. -/
def eluaIntFirstId : UInt8 := 1

/-- `LUA_INT_MAX_SOURCES`. -/
def luaIntMaxSources : UInt8 := 128

/-- The places in `elua_int_hook`, with `crt`. -/
inductive Place where
  /-- The hook does not run. -/
  | out
  | fetched (crt : Element)
  /-- The slot is empty. -/
  | emptied (crt : Element)
  /-- `elua_int_read_idx` is behind it. -/
  | removed (crt : Element)
  /-- The Lua handler runs. -/
  | handler (crt : Element)
  /-- Before interrupts are disabled. -/
  | tail

/-- The static variables, what they depend on in the Lua state, and since the last `lua_close` the
interrupts that were accepted, those that were removed from the queue and those whose handler was
called. -/
structure State where
  readIdx : UInt8 := 0
  writeIdx : UInt8 := 0
  queue : ℕ → Element := fun _ => {}
  /-- The bits of `elua_int_flags`. -/
  flags : UInt8 → Bool := fun _ => false
  /-- The interrupts that have an entry in the table of handlers. -/
  handlers : UInt8 → Bool := fun _ => false
  /-- `lua_getstate() != NULL`. -/
  luaState : Bool := false
  hook : Bool := false
  place : Place := .out
  accepted : List Element := []
  dequeued : List Element := []
  called : List Element := []

/-- What may happen. -/
inductive Event where
  | add (inttype : UInt8) (resnum : UInt16)
  /-- The hook is called, or goes on. -/
  | hook
  /-- The Lua handler returns. -/
  | ret
  /-- The Lua handler raises an error. -/
  | raise
  | enable (inttype : UInt8)
  | disable (inttype : UInt8)
  /-- `cpu.set_int_handler`. -/
  | setHandler (inttype : UInt8) (isFunction : Bool)
  | luaOpen
  | luaClose

section Functions

variable (c : Config) (s : State)

/-- `( idx + 1 ) & INT_IDX_MASK`, as it is stored. -/
def nextIdx (idx : UInt8) : UInt8 := UInt8.ofNat ((idx.toNat + 1) % 2 ^ c.logSize)

/-- `elua_int_is_enabled`. -/
def eluaIntIsEnabled (inttype : UInt8) : Bool :=
  if inttype < luaIntMaxSources then s.flags inttype else false

/-- `elua_int_enable`. -/
def eluaIntEnable (inttype : UInt8) : State :=
  if inttype < luaIntMaxSources then { s with flags := Function.update s.flags inttype true } else s

/-- `elua_int_disable`. -/
def eluaIntDisable (inttype : UInt8) : State :=
  if inttype < luaIntMaxSources then { s with flags := Function.update s.flags inttype false }
  else s

/-- `elua_int_add`. -/
def eluaIntAdd (inttype : UInt8) (resnum : UInt16) : State :=
  if inttype < eluaIntFirstId ∨ inttype > c.last then s
  else if s.luaState = false ∨ eluaIntIsEnabled s inttype = false then s
  else if (s.queue s.writeIdx.toNat).id ≠ eluaIntEmptySlot then s
  else
    { s with
      queue := Function.update s.queue s.writeIdx.toNat { id := inttype, resnum }
      writeIdx := nextIdx c s.writeIdx
      hook := true
      accepted := s.accepted ++ [{ id := inttype, resnum }] }

/-- The next part of `elua_int_hook`. What is between disabling interrupts and enabling them is one
part. -/
def eluaIntHook : Option State :=
  match s.place with
  | .out => if s.hook then some { s with place := .fetched (s.queue s.readIdx.toNat) } else none
  | .fetched crt =>
      some { s with
        queue := Function.update s.queue s.readIdx.toNat
          { s.queue s.readIdx.toNat with id := eluaIntEmptySlot }
        place := .emptied crt }
  | .emptied crt =>
      some { s with
        readIdx := nextIdx c s.readIdx
        dequeued := s.dequeued ++ [crt]
        place := .removed crt }
  | .removed crt =>
      if eluaIntIsEnabled s crt.id ∧ s.handlers crt.id then
        some { s with place := .handler crt, called := s.called ++ [crt] }
      else some { s with place := .tail }
  | .handler _ => none
  | .tail =>
      some { s with
        hook := if (s.queue s.readIdx.toNat).id = eluaIntEmptySlot then false else s.hook
        place := .out }

/-- `cpu.set_int_handler`. -/
def setIntHandler (inttype : UInt8) (isFunction : Bool) : State :=
  if inttype < eluaIntFirstId ∨ inttype > c.last then s
  else
    let s := if isFunction then eluaIntEnable s inttype else eluaIntDisable s inttype
    { s with handlers := Function.update s.handlers inttype isFunction }

/-- `elua_int_cleanup`. -/
def eluaIntCleanup : State :=
  { s with
    flags := fun _ => false
    readIdx := 0
    writeIdx := 0
    queue := fun _ => {}
    accepted := []
    dequeued := []
    called := [] }

/-- One event, if it can happen. -/
def State.step : Event → Option State
  | .add inttype resnum => some (eluaIntAdd c s inttype resnum)
  | .hook => eluaIntHook c s
  | .ret =>
      match s.place with
      | .handler _ => some { s with place := .tail }
      | _ => none
  | .raise =>
      match s.place with
      | .handler _ => some { s with place := .out }
      | _ => none
  | .enable inttype => some (eluaIntEnable s inttype)
  | .disable inttype => some (eluaIntDisable s inttype)
  | .setHandler inttype isFunction => some (setIntHandler c s inttype isFunction)
  | .luaOpen => if s.luaState then none else some { s with luaState := true }
  | .luaClose =>
      match s.luaState, s.place with
      | true, .out =>
          some (eluaIntCleanup { s with hook := false, luaState := false, handlers := fun _ => false })
      | _, _ => none

end Functions

/-! ### What is waiting -/

/-- The number of slots that are used; the indices have eight bits. -/
def Config.slots (c : Config) : ℕ := 2 ^ min c.logSize 8

/-- The slot of the first element that is waiting. -/
def State.front (c : Config) (s : State) : ℕ :=
  match s.place with
  | .emptied _ => (nextIdx c s.readIdx).toNat
  | _ => s.readIdx.toNat

/-- The element that is in the hook and was not counted as removed yet. -/
def Place.inHand : Place → List Element
  | .emptied crt => [crt]
  | _ => []

/-- The elements of `waiting` are stored in the slots from the first one on, the other slots are
empty, and the writing index is behind them. They are the interrupts that were accepted and not
removed. The hook is installed if there are any, and otherwise only while it runs. What it fetches
is the first of them. -/
structure Queued (c : Config) (s : State) (waiting : List Element) : Prop where
  holds : Ring.Holds c.slots s.queue (s.front c) waiting
  id_ne : ∀ e ∈ waiting, e.id ≠ eluaIntEmptySlot
  empty : ∀ i, waiting.length ≤ i → i < c.slots →
    (s.queue ((s.front c + i) % c.slots)).id = eluaIntEmptySlot
  writeIdx_eq : s.writeIdx.toNat = (s.front c + waiting.length) % c.slots
  accepted_eq : s.accepted = s.dequeued ++ s.place.inHand ++ waiting
  called : s.called.Sublist s.dequeued
  hook : waiting ≠ [] → s.hook = true
  fetched : ∀ crt, s.place = .fetched crt → waiting.head? = some crt
  removed : ∀ crt, s.place = .removed crt → ∃ before, s.dequeued = before ++ [crt] ∧
    s.called.Sublist before
  running : s.place ≠ .out → s.hook = true ∧ s.luaState = true
  stale : s.place = .out → s.hook = true → waiting ≠ []
  closed : s.luaState = false → waiting = []

/-- No error is raised while nothing is waiting. -/
def Event.Careful (s : State) : Event → Prop
  | .raise => (s.queue s.readIdx.toNat).id ≠ eluaIntEmptySlot
  | _ => True

section Runs

variable {c : Config} {s : State} {waiting : List Element}

theorem Config.slots_pos (c : Config) : 0 < c.slots := Nat.two_pow_pos _

theorem toNat_nextIdx (c : Config) (idx : UInt8) :
    (nextIdx c idx).toNat = (idx.toNat + 1) % c.slots := by
  have hdvd : ∀ {m n : ℕ}, m ≤ n → ∀ k, k % 2 ^ n % 2 ^ m = k % 2 ^ m := fun hmn k =>
    Nat.mod_mod_of_dvd k (Nat.pow_dvd_pow 2 hmn)
  rw [nextIdx, UInt8.toNat_ofNat', Config.slots]
  rcases Nat.le_total c.logSize 8 with hle | hge
  · rw [Nat.min_eq_left hle]
    exact Nat.mod_eq_of_lt ((Nat.mod_lt _ (Nat.two_pow_pos _)).trans_le
      (Nat.pow_le_pow_right (by decide) hle))
  · rw [Nat.min_eq_right hge, hdvd hge]

/-- A change of what is enabled, and of the handlers. -/
theorem Queued.setFlags (h : Queued c s waiting) (flags handlers : UInt8 → Bool) :
    Queued c { s with flags, handlers } waiting :=
  ⟨h.holds, h.id_ne, h.empty, h.writeIdx_eq, h.accepted_eq, h.called, h.hook, h.fetched, h.removed,
    h.running, h.stale, h.closed⟩

theorem Queued.eluaIntEnable (h : Queued c s waiting) (inttype : UInt8) :
    Queued c (eluaIntEnable s inttype) waiting := by
  rw [Interrupt.eluaIntEnable]
  split_ifs
  · exact h.setFlags _ _
  · exact h

theorem Queued.eluaIntDisable (h : Queued c s waiting) (inttype : UInt8) :
    Queued c (eluaIntDisable s inttype) waiting := by
  rw [Interrupt.eluaIntDisable]
  split_ifs
  · exact h.setFlags _ _
  · exact h

theorem Queued.setIntHandler (h : Queued c s waiting) (inttype : UInt8) (isFunction : Bool) :
    Queued c (setIntHandler c s inttype isFunction) waiting := by
  rw [Interrupt.setIntHandler]
  split_ifs
  · exact h
  · exact (h.eluaIntEnable inttype).setFlags _ _
  · exact (h.eluaIntDisable inttype).setFlags _ _

/-! ### The queue -/

theorem State.front_eq (hplace : ∀ crt, s.place ≠ .emptied crt) : s.front c = s.readIdx.toNat := by
  rw [State.front]
  split
  · rename_i crt heq
    exact absurd heq (hplace crt)
  · rfl

theorem Place.inHand_eq {place : Place} (hplace : ∀ crt, place ≠ .emptied crt) :
    place.inHand = [] := by
  cases place with
  | emptied crt => exact absurd rfl (hplace crt)
  | out | fetched | removed | handler | tail => rfl

/-- After `lua_close` nothing is waiting. -/
theorem Queued.eluaIntCleanup (hplace : s.place = .out) (hhook : s.hook = false) :
    Queued c (eluaIntCleanup s) [] := by
  have hfront : State.front c (Interrupt.eluaIntCleanup s) = 0 := State.front_eq (hplace ▸ nofun)
  refine ⟨.nil (hfront ▸ c.slots_pos), nofun, fun _ _ _ => rfl, ?_, ?_, .slnil,
    fun h => absurd rfl h, fun crt heq => ?_, fun crt heq => ?_, fun h => absurd hplace h,
    fun _ h => ?_, fun _ => rfl⟩
  · rw [hfront]
    exact (Nat.zero_mod _).symm
  · change [] = [] ++ s.place.inHand ++ []
    rw [hplace]
    rfl
  · exact Place.noConfusion (hplace.symm.trans heq)
  · exact Place.noConfusion (hplace.symm.trans heq)
  · exact absurd (hhook.symm.trans h) nofun

/-- The slot at the writing index is empty if and only if there is room. -/
theorem Queued.length_lt_iff (h : Queued c s waiting) :
    (s.queue s.writeIdx.toNat).id = eluaIntEmptySlot ↔ waiting.length < c.slots := by
  rw [h.writeIdx_eq]
  constructor
  · intro hempty
    refine lt_of_le_of_ne h.holds.length_le fun hfull => ?_
    have hpos : 0 < waiting.length := hfull ▸ c.slots_pos
    have hget := h.holds.get 0 hpos
    rw [hfull, Nat.add_mod_right] at hempty
    rw [Nat.add_zero] at hget
    exact h.id_ne _ (List.getElem_mem hpos) (hget ▸ hempty)
  · exact h.empty _ (Nat.le_refl _)

theorem Queued.eluaIntAdd (h : Queued c s waiting) (inttype : UInt8) (resnum : UInt16) :
    ∃ waiting', Queued c (eluaIntAdd c s inttype resnum) waiting' := by
  rw [Interrupt.eluaIntAdd]
  split_ifs with hrange hstate hfull
  · exact ⟨waiting, h⟩
  · exact ⟨waiting, h⟩
  · exact ⟨waiting, h⟩
  · have hlt := h.length_lt_iff.mp (not_not.mp hfull)
    have hid : inttype ≠ eluaIntEmptySlot := by
      rintro rfl
      exact hrange (.inl (by decide))
    have hopen : s.luaState = true := Bool.not_eq_false _ ▸ fun hf => hstate (.inl hf)
    have hother : ∀ k < c.slots, k ≠ (s.front c + waiting.length) % c.slots →
        Function.update s.queue s.writeIdx.toNat { id := inttype, resnum } k = s.queue k :=
      fun k _ hne => Function.update_of_ne (h.writeIdx_eq ▸ hne) _ _
    refine ⟨waiting ++ [{ id := inttype, resnum }], ?_⟩
    constructor
    · refine h.holds.push hlt ?_ hother
      rw [← h.writeIdx_eq]
      exact Function.update_self ..
    · intro e he
      rcases List.mem_append.mp he with he | he
      · exact h.id_ne e he
      · obtain rfl := List.mem_singleton.mp he
        exact hid
    · intro i hi hi'
      rw [List.length_append, List.length_singleton] at hi
      have hne := (Ring.mod_add_ne (r := s.front c) (Nat.lt_of_succ_le hi) hi').symm
      refine (congrArg Element.id (hother _ (Nat.mod_lt _ c.slots_pos) hne)).trans ?_
      exact h.empty i (Nat.le_of_succ_le hi) hi'
    · change (nextIdx c s.writeIdx).toNat = (s.front c + (waiting ++ [_]).length) % c.slots
      rw [toNat_nextIdx, h.writeIdx_eq, Nat.mod_add_mod, List.length_append, Nat.add_assoc,
        List.length_singleton]
    · change s.accepted ++ _ = _
      rw [h.accepted_eq, List.append_assoc]
    · exact h.called
    · exact fun _ => rfl
    · intro crt hplace
      rw [List.head?_append, h.fetched crt hplace]
      rfl
    · exact h.removed
    · exact fun hplace => ⟨rfl, (h.running hplace).2⟩
    · exact fun _ _ => List.append_ne_nil_of_right_ne_nil _ (List.cons_ne_nil _ _)
    · exact fun hclosed => absurd (hopen.symm.trans hclosed) nofun

/-! ### The hook -/

/-- The hook goes to a place where it has no element in hand. -/
theorem Queued.setPlace (h : Queued c s waiting) (hold : ∀ crt, s.place ≠ .emptied crt)
    {place : Place} {hook : Bool} (hnew : ∀ crt, place ≠ .emptied crt)
    (hremoved : ∀ crt, place ≠ .removed crt) (hhook : waiting ≠ [] → hook = true)
    (hfetched : ∀ crt, place = .fetched crt → waiting.head? = some crt)
    (hrunning : place ≠ .out → hook = true ∧ s.luaState = true)
    (hstale : place = .out → hook = true → waiting ≠ []) :
    Queued c { s with hook, place } waiting := by
  have hfront : State.front c { s with hook, place } = s.front c := by
    rw [State.front_eq hold]
    exact State.front_eq (s := { s with hook, place }) hnew
  refine ⟨?_, h.id_ne, ?_, ?_, ?_, h.called, hhook, hfetched,
    fun crt heq => absurd heq (hremoved crt), hrunning, hstale, h.closed⟩
  · rw [hfront]
    exact h.holds
  · rw [hfront]
    exact h.empty
  · rw [hfront]
    exact h.writeIdx_eq
  · dsimp only
    rw [Place.inHand_eq hnew, ← Place.inHand_eq hold]
    exact h.accepted_eq

theorem Queued.setCalled (h : Queued c s waiting) {called : List Element}
    (hcalled : called.Sublist s.dequeued) (hplace : ∀ crt, s.place ≠ .removed crt) :
    Queued c { s with called } waiting :=
  ⟨h.holds, h.id_ne, h.empty, h.writeIdx_eq, h.accepted_eq, hcalled, h.hook, h.fetched,
    fun crt heq => absurd heq (hplace crt), h.running, h.stale, h.closed⟩

/-- The first slot is emptied. -/
theorem Queued.emptied {crt : Element} (h : Queued c s (crt :: waiting))
    (hplace : s.place = .fetched crt) :
    Queued c { s with
      queue := Function.update s.queue s.readIdx.toNat
        { s.queue s.readIdx.toNat with id := eluaIntEmptySlot }
      place := .emptied crt } waiting := by
  have hfront : s.front c = s.readIdx.toNat := State.front_eq (hplace ▸ nofun)
  have hholds := h.holds
  rw [hfront] at hholds
  have hlen := hholds.length_le
  rw [List.length_cons] at hlen
  have hrunning := h.running (hplace ▸ nofun)
  have hnext : State.front c { s with
      queue := Function.update s.queue s.readIdx.toNat
        { s.queue s.readIdx.toNat with id := eluaIntEmptySlot }
      place := .emptied crt } = (s.readIdx.toNat + 1) % c.slots := toNat_nextIdx c s.readIdx
  constructor
  · rw [hnext]
    exact hholds.drop fun k _ hne => Function.update_of_ne hne _ _
  · exact fun e he => h.id_ne e (List.mem_cons_of_mem _ he)
  · intro i hi hi'
    rw [hnext, Nat.mod_add_mod, Nat.add_assoc, Nat.add_comm 1]
    change (Function.update s.queue s.readIdx.toNat _ _).id = _
    by_cases heq : (s.readIdx.toNat + (i + 1)) % c.slots = s.readIdx.toNat
    · rw [heq, Function.update_self]
    · rw [Function.update_of_ne heq, ← hfront]
      refine h.empty (i + 1) (Nat.succ_le_succ hi) (lt_of_le_of_ne hi' fun hlast => heq ?_)
      rw [hlast, Nat.add_mod_right, Nat.mod_eq_of_lt hholds.lt]
  · rw [hnext, h.writeIdx_eq, hfront, Nat.mod_add_mod, List.length_cons, Nat.add_assoc,
      Nat.add_comm 1]
  · have haccepted := h.accepted_eq
    rw [hplace] at haccepted
    change s.accepted = s.dequeued ++ [crt] ++ waiting
    rw [haccepted, List.append_assoc, List.append_assoc]
    rfl
  · exact h.called
  · exact fun _ => hrunning.1
  · exact nofun
  · exact nofun
  · exact fun _ => hrunning
  · exact nofun
  · exact fun hclosed => absurd (hrunning.2.symm.trans hclosed) nofun

/-- The reading index goes to the next slot. -/
theorem Queued.dequeued {crt : Element} (h : Queued c s waiting) (hplace : s.place = .emptied crt) :
    Queued c { s with
      readIdx := nextIdx c s.readIdx
      dequeued := s.dequeued ++ [crt]
      place := .removed crt } waiting := by
  have hfront : State.front c { s with
      readIdx := nextIdx c s.readIdx
      dequeued := s.dequeued ++ [crt]
      place := .removed crt } = s.front c := by
    rw [State.front, State.front, hplace]
  have haccepted := h.accepted_eq
  rw [hplace] at haccepted
  refine ⟨?_, h.id_ne, ?_, ?_, ?_, h.called.trans (List.sublist_append_left _ _), h.hook, nofun,
    fun crt' heq => ?_, fun _ => h.running (hplace ▸ nofun), nofun, h.closed⟩
  · rw [hfront]
    exact h.holds
  · rw [hfront]
    exact h.empty
  · rw [hfront]
    exact h.writeIdx_eq
  · change s.accepted = s.dequeued ++ [crt] ++ [] ++ waiting
    rw [List.append_nil]
    exact haccepted
  · obtain rfl := Place.removed.inj heq
    exact ⟨s.dequeued, rfl, h.called⟩

/-- Outside of the hook, and when it is called, the reading index is at the first element. -/
theorem Queued.queue_readIdx {e : Element} (h : Queued c s (e :: waiting))
    (hplace : ∀ crt, s.place ≠ .emptied crt) : s.queue s.readIdx.toNat = e := by
  rw [← State.front_eq (c := c) hplace]
  exact h.holds.head

/-- There the slot is empty if and only if nothing is waiting. -/
theorem Queued.id_readIdx_eq_iff (h : Queued c s waiting) (hplace : ∀ crt, s.place ≠ .emptied crt) :
    (s.queue s.readIdx.toNat).id = eluaIntEmptySlot ↔ waiting = [] := by
  constructor
  · intro hempty
    cases waiting with
    | nil => rfl
    | cons e waiting => exact absurd (h.queue_readIdx hplace ▸ hempty) (h.id_ne e List.mem_cons_self)
  · rintro rfl
    have hempty := h.empty 0 (Nat.le_refl _) c.slots_pos
    rwa [Nat.add_zero, Nat.mod_eq_of_lt h.holds.lt, State.front_eq hplace] at hempty

/-- **The next part of the hook.** -/
theorem Queued.eluaIntHook (h : Queued c s waiting) {s' : State} (hs : eluaIntHook c s = some s') :
    ∃ waiting', Queued c s' waiting' := by
  rw [Interrupt.eluaIntHook] at hs
  rcases hplace : s.place with _ | crt | crt | crt | crt | _
  · -- it is called, so that something is waiting
    simp only [hplace, Option.ite_none_right_eq_some, Option.some_inj] at hs
    obtain ⟨hhook, rfl⟩ := hs
    have hne := h.stale hplace hhook
    have hopen : s.luaState = true := by
      by_contra hclosed
      exact hne (h.closed (Bool.eq_false_iff.mpr hclosed))
    have hold : ∀ crt, s.place ≠ .emptied crt := hplace ▸ nofun
    refine ⟨waiting, h.setPlace hold nofun nofun h.hook (fun crt heq => ?_)
      (fun _ => ⟨hhook, hopen⟩) nofun⟩
    obtain ⟨e, waiting, rfl⟩ := List.exists_cons_of_ne_nil hne
    rw [List.head?_cons, ← h.queue_readIdx hold, Place.fetched.inj heq]
  · simp only [hplace, Option.some_inj] at hs
    obtain ⟨waiting, rfl⟩ := List.head?_eq_some_iff.mp (h.fetched crt hplace)
    exact ⟨waiting, hs ▸ h.emptied hplace⟩
  · simp only [hplace, Option.some_inj] at hs
    exact ⟨waiting, hs ▸ h.dequeued hplace⟩
  · simp only [hplace] at hs
    have hold : ∀ crt, s.place ≠ .emptied crt := hplace ▸ nofun
    have hrunning := h.running (hplace ▸ nofun)
    split_ifs at hs with henabled
    · obtain rfl := Option.some_inj.mp hs
      obtain ⟨before, hbefore, hsub⟩ := h.removed crt hplace
      have hhandler : Queued c { s with place := .handler crt } waiting :=
        h.setPlace hold nofun nofun h.hook nofun (fun _ => hrunning) nofun
      refine ⟨waiting, hhandler.setCalled ?_ nofun⟩
      change (s.called ++ [crt]).Sublist s.dequeued
      rw [hbefore]
      exact hsub.append_right [crt]
    · obtain rfl := Option.some_inj.mp hs
      exact ⟨waiting, h.setPlace hold nofun nofun h.hook nofun (fun _ => hrunning) nofun⟩
  · simp only [hplace, reduceCtorEq] at hs
  · -- the hook stays installed if and only if something is waiting
    simp only [hplace, Option.some_inj] at hs
    have hold : ∀ crt, s.place ≠ .emptied crt := hplace ▸ nofun
    refine ⟨waiting, hs ▸ h.setPlace hold nofun nofun (fun hne => ?_) nofun nofun fun _ hhook => ?_⟩
    · rw [if_neg (mt (h.id_readIdx_eq_iff hold).mp hne)]
      exact h.hook hne
    · intro hnil
      rw [if_pos ((h.id_readIdx_eq_iff hold).mpr hnil)] at hhook
      exact Bool.false_ne_true hhook

/-- **One event.** -/
theorem Queued.step (h : Queued c s waiting) {e : Event} (he : e.Careful s) {s' : State}
    (hs : s.step c e = some s') : ∃ waiting', Queued c s' waiting' := by
  cases e with
  | add inttype resnum => exact Option.some_inj.mp hs ▸ h.eluaIntAdd inttype resnum
  | hook => exact h.eluaIntHook hs
  | ret =>
    rcases hplace : s.place with _ | _ | _ | _ | crt | _
    case handler =>
      simp only [State.step, hplace, Option.some_inj] at hs
      have hrunning := h.running (hplace ▸ nofun)
      exact ⟨waiting, hs ▸ h.setPlace (hplace ▸ nofun) nofun nofun h.hook nofun (fun _ => hrunning)
        nofun⟩
    all_goals simp only [State.step, hplace, reduceCtorEq] at hs
  | raise =>
    rcases hplace : s.place with _ | _ | _ | _ | crt | _
    case handler =>
      simp only [State.step, hplace, Option.some_inj] at hs
      have hold : ∀ crt, s.place ≠ .emptied crt := hplace ▸ nofun
      exact ⟨waiting, hs ▸ h.setPlace hold nofun nofun h.hook nofun (fun hout => absurd rfl hout)
        fun _ _ => mt (h.id_readIdx_eq_iff hold).mpr he⟩
    all_goals simp only [State.step, hplace, reduceCtorEq] at hs
  | enable inttype => exact ⟨waiting, Option.some_inj.mp hs ▸ h.eluaIntEnable inttype⟩
  | disable inttype => exact ⟨waiting, Option.some_inj.mp hs ▸ h.eluaIntDisable inttype⟩
  | setHandler inttype isFunction =>
    exact ⟨waiting, Option.some_inj.mp hs ▸ h.setIntHandler inttype isFunction⟩
  | luaOpen =>
    simp only [State.step, Option.ite_none_left_eq_some, Option.some_inj] at hs
    obtain ⟨-, rfl⟩ := hs
    exact ⟨waiting, h.holds, h.id_ne, h.empty, h.writeIdx_eq, h.accepted_eq, h.called, h.hook,
      h.fetched, h.removed, fun hplace => ⟨(h.running hplace).1, rfl⟩, h.stale, nofun⟩
  | luaClose =>
    rcases hopen : s.luaState with _ | _
    · simp only [State.step, hopen, reduceCtorEq] at hs
    rcases hplace : s.place with _ | _ | _ | _ | _ | _
    case out =>
      simp only [State.step, hopen, hplace, Option.some_inj] at hs
      exact ⟨[], hs ▸ Queued.eluaIntCleanup rfl rfl⟩
    all_goals simp only [State.step, hopen, hplace, reduceCtorEq] at hs

/-- The hook takes the first element that is waiting from the queue, and calls its handler if the
interrupt is enabled and has one. -/
theorem Queued.runAll_hook {e : Element} (h : Queued c s (e :: waiting)) (hplace : s.place = .out) :
    ∃ s', runAll (State.step c) [.hook, .hook, .hook, .hook] s = some s' ∧
      s'.accepted = s.accepted ∧ s'.dequeued = s.dequeued ++ [e] ∧
      s'.called = s.called ++ if eluaIntIsEnabled s e.id ∧ s.handlers e.id then [e] else [] := by
  have hhook := h.hook (List.cons_ne_nil e waiting)
  have hread : s.queue s.readIdx.toNat = e := h.queue_readIdx (hplace ▸ nofun)
  simp only [runAll, State.step, Interrupt.eluaIntHook, hplace, hhook, hread, if_true,
    Option.bind_some, eluaIntIsEnabled]
  split_ifs
  all_goals exact ⟨_, rfl, rfl, rfl, by simp⟩

/-- **Every run.** In every run in which no handler raises an error while nothing is waiting, what
is waiting is in the queue, and the next runs of the hook remove it in order. -/
theorem queued_of_reach (c : Config) {s : State}
    (h : Reach (State.step c) (fun s e => Event.Careful s e) {} s) :
    ∃ waiting, Queued c s waiting ∧ (∀ crt, s.place = .fetched crt → crt.id ≠ eluaIntEmptySlot) ∧
      ∀ e ∈ waiting.head?, s.place = .out →
        ∃ s', runAll (State.step c) [.hook, .hook, .hook, .hook] s = some s' ∧
          s'.accepted = s.accepted ∧ s'.dequeued = s.dequeued ++ [e] ∧
          s'.called = s.called ++ if eluaIntIsEnabled s e.id ∧ s.handlers e.id then [e] else [] := by
  have hqueued : ∃ waiting, Queued c s waiting := by
    refine h.invariant (P := fun s => ∃ waiting, Queued c s waiting) ?_ fun s e s' hq he hs => ?_
    · exact ⟨[], Queued.eluaIntCleanup (s := {}) rfl rfl⟩
    · obtain ⟨waiting, hq⟩ := hq
      exact hq.step he hs
  obtain ⟨waiting, hq⟩ := hqueued
  refine ⟨waiting, hq, fun crt hplace => ?_, fun e he hplace => ?_⟩
  · exact hq.id_ne crt (List.mem_of_mem_head? (hq.fetched crt hplace))
  · obtain ⟨rest, rfl⟩ := List.head?_eq_some_iff.mp he
    exact hq.runAll_hook hplace

end Runs

/-- Two slots, and two interrupts. -/
def twoSlots : Config := ⟨1, 2⟩

/-- The interrupt `1` gets a handler, and occurs once. The handler raises an error. -/
def oneError : List Event :=
  [.luaOpen, .setHandler 1 true, .add 1 0, .hook, .hook, .hook, .hook, .raise]

/-- The hook is called again, and what it fetches is an empty slot. -/
theorem not_queued_raise :
    ¬ ∀ (c : Config) (s : State), Reach (State.step c) (fun _ _ => True) {} s →
      ∃ waiting, Queued c s waiting ∧
        ∀ crt, s.place = .fetched crt → crt.id ≠ eluaIntEmptySlot := by
  intro h
  have hsome : (runAll (guarded (State.step twoSlots) fun _ _ => True)
      (oneError ++ [.hook]) {}).isSome := by decide
  obtain ⟨waiting, -, hne⟩ := h twoSlots _ (reach_get _ _ _ hsome)
  exact hne {} rfl rfl

/-- The interrupt `1` is accepted and waits. -/
theorem queued_add :
    ∃ waiting s, Queued twoSlots s waiting ∧ s.hook = true ∧ s.accepted.length = 1 := by
  have hreach : Reach (State.step twoSlots) (fun s e => Event.Careful s e) {} _ :=
    .next (i := .add 1 0) (.next (i := .setHandler 1 true) (.next (i := .luaOpen) .init trivial rfl)
      trivial rfl) trivial rfl
  obtain ⟨waiting, hq, -⟩ := queued_of_reach twoSlots hreach
  exact ⟨waiting, _, hq, rfl, rfl⟩

end ELuaBrain.Interrupt
