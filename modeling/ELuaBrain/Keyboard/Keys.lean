import ELuaBrain.Keyboard.Ps2
import ELuaBrain.System.Reach

/-!
# The keys of a keyboard

A keyboard sends the codes of the keys that are pressed and released. The decoder of `src/ps2.c` has
to know which modifiers are held, and to deliver every key once and in order. Its queue has no test
for being full: one slot has to stay empty.

## Main definitions

* `Keys` : the keys that are held and the keys that were typed, as the codes say.
* `Run` : the decoder, a reader, and the keyboard.
* `Run.Careful` : no key comes while 255 keys wait.

## Main results

* `Mirrors.byte` : the decoder follows the keyboard.
* `keys_delivered` : the keys in every run.
-/

namespace ELuaBrain.Keyboard

/-! ### The keyboard -/

/-- What was sent before the code of a key. -/
inductive Lead where
  | none
  | ext
  | brk
  | extBrk
  deriving DecidableEq

/-- The keys that are held, extended ones with `true`, and the keys that were typed. -/
structure Keys where
  held : Bool × UInt8 → Bool := fun _ => false
  lead : Lead := .none
  /-- The codes of the pause key that are to come. -/
  pause : ℕ := 0
  caps : Bool := false
  typed : List UInt16 := []

namespace Keys

variable (k : Keys) (outOfRange : UInt16 → UInt16) (data : UInt8)

/-- The modifiers that are held. -/
def shift : Bool := k.held (false, ps2LshiftCode) || k.held (false, ps2RshiftCode)
def ctrl : Bool := k.held (false, ps2CtrlCode) || k.held (true, ps2CtrlCode)
def alt : Bool := k.held (false, ps2AltCode) || k.held (true, ps2AltCode)

/-- A code that is no key of its own. -/
def IsLead : Prop := data = ps2Pause1stCode ∨ data = ps2ExtendedCode ∨ data = ps2BreakCode

/-- A modifier. -/
def IsModifier : Prop :=
  data = ps2CtrlCode ∨ data = ps2AltCode ∨ data = ps2LshiftCode ∨ data = ps2RshiftCode

instance IsLead.decidable : Decidable (IsLead data) := inferInstanceAs (Decidable (_ ∨ _))

instance IsModifier.decidable : Decidable (IsModifier data) := inferInstanceAs (Decidable (_ ∨ _))

/-- The key that a code types, with the modifiers that are held. -/
def key : Option UInt16 :=
  let code :=
    if k.pause > 0 then none
    else
      match k.lead with
      | .none =>
          if IsLead data ∨ IsModifier data ∨ Ps2.mapping outOfRange k.shift false data = 0 then none
          else some (Ps2.mapping outOfRange k.shift k.caps data)
      | .ext => ps2ExtMapping.lookup data
      | _ => none
  code.map (baseFlags k.shift k.ctrl k.alt ||| ·)

/-- A key is pressed or released. -/
def set (key : Bool × UInt8) (down : Bool) : Keys :=
  { k with lead := .none, held := Function.update k.held key down }

/-- What is held after a code. -/
def next : Keys :=
  if k.pause > 0 then { k with pause := k.pause - 1 }
  else
    match k.lead with
    | .none =>
        if data = ps2Pause1stCode then { k with pause := 7 }
        else if data = ps2ExtendedCode then { k with lead := .ext }
        else if data = ps2BreakCode then { k with lead := .brk }
        else k.set (false, data) true
    | .ext => if data = ps2BreakCode then { k with lead := .extBrk } else k.set (true, data) true
    | .brk =>
        { k.set (false, data) false with caps := if data = ps2CapsCode then !k.caps else k.caps }
    | .extBrk => k.set (true, data) false

/-- A code. -/
def code : Keys := { k.next data with typed := k.typed ++ (k.key outOfRange data).toList }

end Keys

/-- The flags that a decoder should have. -/
def Keys.flags (k : Keys) : Flags where
  shift := k.shift
  ctrl := k.ctrl
  alt := k.alt
  extended := k.lead = .ext ∨ k.lead = .extBrk
  isBreak := k.lead = .brk ∨ k.lead = .extBrk
  extCtrl := k.held (true, ps2CtrlCode)
  extAlt := k.held (true, ps2AltCode)
  ifCtrl := k.held (false, ps2CtrlCode)
  ifAlt := k.held (false, ps2AltCode)
  lshift := k.held (false, ps2LshiftCode)
  rshift := k.held (false, ps2RshiftCode)
  caps := k.caps

/-! ### The decoder follows the keyboard -/

/-- The decoder knows what is held and what was sent. -/
structure Mirrors (s : Ps2) (k : Keys) : Prop where
  flags : s.flags = k.flags
  pause : s.ignoreCount.toNat = k.pause

/-- The queue. -/
def Ps2.ring (s : Ps2) : (UInt8 → UInt16) × UInt8 × UInt8 := (s.queue, s.rIdx, s.wIdx)

section Decoder

variable {s s' : Ps2} {k : Keys} {outOfRange : UInt16 → UInt16} {data : UInt8}

attribute [local simp] Ps2.setFlags Keys.flags Keys.set Keys.shift Keys.ctrl Keys.alt
  Function.update_apply ps2CtrlCode ps2AltCode ps2LshiftCode ps2RshiftCode ps2CapsCode

theorem eq_data_comm (c : UInt8) : (c = data) = (data = c) := propext eq_comm

/-- A key that is no modifier leaves the modifiers alone. -/
theorem flags_set_of_not_isModifier (hdata : ¬Keys.IsModifier data) (ext down : Bool) :
    (k.set (ext, data) down).flags = { k.flags with extended := false, isBreak := false } := by
  simp only [Keys.IsModifier, not_or, ps2CtrlCode, ps2AltCode, ps2LshiftCode, ps2RshiftCode]
    at hdata
  simp [eq_data_comm 0x14, eq_data_comm 0x11, eq_data_comm 0x12, eq_data_comm 0x59, hdata]

theorem Mirrors.release (h : Mirrors s k) (hlead : k.lead = .brk) :
    Mirrors (s.release data)
      { k.set (false, data) false with
        caps := if data = ps2CapsCode then !k.caps else k.caps } := by
  obtain ⟨hflags, hpause⟩ := h
  by_cases hmod : Keys.IsModifier data
  · obtain rfl | rfl | rfl | rfl := hmod
    all_goals refine ⟨?_, hpause⟩
    all_goals simp +contextual [Ps2.release, hflags, hlead]
  · have hset : (k.set (false, data) false).flags = _ :=
      flags_set_of_not_isModifier hmod false false
    simp only [Keys.IsModifier, not_or] at hmod
    rw [Ps2.release, if_neg hmod.1, if_neg hmod.2.1, if_neg hmod.2.2.1, if_neg hmod.2.2.2]
    by_cases hcaps : data = ps2CapsCode
    · subst hcaps
      refine ⟨?_, by rw [if_pos rfl]; split_ifs <;> exact hpause⟩
      cases hon : k.caps
      all_goals simp [Ps2.send, Ps2.sendCmd, hflags, hlead, hon]
    · rw [if_neg hcaps, if_neg hcaps]
      refine ⟨?_, hpause⟩
      rw [Ps2.setFlags, hflags]
      exact (hset.trans (by simp [hlead])).symm

theorem Mirrors.extRelease (h : Mirrors s k) (hlead : k.lead = .extBrk) :
    Mirrors (s.extRelease data) (k.set (true, data) false) := by
  obtain ⟨hflags, hpause⟩ := h
  refine ⟨?_, by rw [Ps2.extRelease]; split_ifs <;> exact hpause⟩
  by_cases hmod : Keys.IsModifier data
  · obtain rfl | rfl | rfl | rfl := hmod
    all_goals simp +contextual [Ps2.extRelease, hflags, hlead]
  · rw [flags_set_of_not_isModifier hmod]
    simp only [Keys.IsModifier, not_or] at hmod
    rw [Ps2.extRelease, if_neg hmod.1, if_neg hmod.2.1, Ps2.setFlags, hflags]

/-- Releasing a key leaves the queue alone. -/
theorem Ps2.release_ring : (s.release data).ring = s.ring := by
  rw [Ps2.release]
  split_ifs <;> rfl

theorem Ps2.extRelease_ring : (s.extRelease data).ring = s.ring := by
  rw [Ps2.extRelease]
  split_ifs <;> rfl

/-- A key that is pressed after the extended code. -/
theorem Mirrors.extPress (h : Mirrors s k) (hlead : k.lead = .ext) (hpause : k.pause = 0)
    (hs : s.extPress data = some s') :
    Mirrors s' (k.set (true, data) true) ∧
      s'.ring = ((k.key outOfRange data).elim s s.enqueue).ring := by
  obtain ⟨hflags, hcount⟩ := h
  have hkey : k.key outOfRange data =
      (ps2ExtMapping.lookup data).map (baseFlags k.shift k.ctrl k.alt ||| ·) := by
    rw [Keys.key, hlead, if_neg (by omega)]
  rw [hkey]
  by_cases hmod : Keys.IsModifier data
  · have hnone : ps2ExtMapping.lookup data = none := by
      obtain rfl | rfl | rfl | rfl := hmod <;> decide
    rw [hnone]
    obtain rfl | rfl | rfl | rfl := hmod
    all_goals
      simp only [Ps2.extPress, hnone] at hs
      simp at hs
      subst hs
      refine ⟨⟨?_, hcount⟩, rfl⟩
      simp [hflags, hlead]
  · have hset : (k.set (true, data) true).flags = _ := flags_set_of_not_isModifier hmod true true
    have hnext : Mirrors (s.setFlags fun f => { f with extended := false })
        (k.set (true, data) true) :=
      ⟨by rw [hset, Ps2.setFlags, hflags]; simp [hlead], hcount⟩
    simp only [Keys.IsModifier, not_or] at hmod
    rw [Ps2.extPress, if_neg hmod.1, if_neg hmod.2.1] at hs
    cases hcode : ps2ExtMapping.lookup data with
    | none =>
        rw [hcode] at hs
        obtain rfl := Option.some.inj hs
        exact ⟨hnext, rfl⟩
    | some code =>
        rw [hcode] at hs
        simp only at hs
        split_ifs at hs with hreset
        · exact absurd hs nofun
        · obtain rfl := Option.some.inj hs
          rw [hflags]
          exact ⟨⟨hnext.flags, hcount⟩, rfl⟩

/-- A code that is neither extended nor released. -/
theorem Mirrors.press (h : Mirrors s k) (hlead : k.lead = .none) (hpause : k.pause = 0) :
    Mirrors (s.press outOfRange data) (k.next data) ∧
      (s.press outOfRange data).ring = ((k.key outOfRange data).elim s s.enqueue).ring := by
  obtain ⟨hflags, hcount⟩ := h
  have hno : ¬k.pause > 0 := by omega
  have hkey : k.key outOfRange data = if Keys.IsLead data ∨ Keys.IsModifier data ∨
      Ps2.mapping outOfRange k.shift false data = 0 then none
    else some (baseFlags k.shift k.ctrl k.alt ||| Ps2.mapping outOfRange k.shift k.caps data) := by
    rw [Keys.key, if_neg hno, hlead]
    simp only
    split_ifs <;> rfl
  have hnext : k.next data = if data = ps2Pause1stCode then { k with pause := 7 }
      else if data = ps2ExtendedCode then { k with lead := .ext }
      else if data = ps2BreakCode then { k with lead := .brk }
      else k.set (false, data) true := by
    rw [Keys.next, if_neg hno, hlead]
  by_cases hpre : Keys.IsLead data
  · rw [hkey, if_pos (.inl hpre), Option.elim_none, hnext]
    obtain rfl | rfl | rfl := hpre
    · exact ⟨⟨hflags, rfl⟩, rfl⟩
    all_goals exact ⟨⟨by simp [Ps2.press, hflags, hlead, ps2Pause1stCode, ps2ExtendedCode,
      ps2BreakCode], hcount⟩, rfl⟩
  by_cases hmod : Keys.IsModifier data
  · rw [hkey, if_pos (.inr (.inl hmod)), Option.elim_none, hnext]
    obtain rfl | rfl | rfl | rfl := hmod
    all_goals exact ⟨⟨by simp [Ps2.press, hflags, hlead, ps2Pause1stCode, ps2ExtendedCode,
      ps2BreakCode], hcount⟩, rfl⟩
  · have hset : (k.set (false, data) true).flags = _ := flags_set_of_not_isModifier hmod false true
    have hflags' : s.flags = (k.set (false, data) true).flags := by
      rw [hset, hflags]
      simp [hlead]
    have hpress : s.press outOfRange data =
        if Ps2.mapping outOfRange k.shift false data ≠ 0 then
          s.enqueue (baseFlags k.shift k.ctrl k.alt |||
            Ps2.mapping outOfRange k.shift k.caps data) else s := by
      simp only [Keys.IsModifier, Keys.IsLead, not_or] at hmod hpre
      obtain ⟨⟨h1, h2, h3⟩, h4, h5, h6, h7⟩ := And.intro hpre hmod
      rw [Ps2.press, if_neg h1, if_neg h2, if_neg h3, if_neg h4, if_neg h5, if_neg h6, if_neg h7,
        hflags]
      rfl
    have hnext' : k.next data = k.set (false, data) true := by
      simp only [Keys.IsLead, not_or] at hpre
      rw [hnext, if_neg hpre.1, if_neg hpre.2.1, if_neg hpre.2.2]
    rw [hpress, hkey, hnext']
    by_cases hzero : Ps2.mapping outOfRange k.shift false data = 0
    · rw [if_neg (not_not.mpr hzero), if_pos (.inr (.inr hzero))]
      exact ⟨⟨hflags', hcount⟩, rfl⟩
    · rw [if_pos hzero, if_neg (not_or.mpr ⟨hpre, not_or.mpr ⟨hmod, hzero⟩⟩)]
      exact ⟨⟨hflags', hcount⟩, rfl⟩

/-- **A code.** The decoder follows the keyboard, and a key that was typed goes into the queue. -/
theorem Mirrors.byte (h : Mirrors s k) (hack : s.acksToReceive = 0)
    (hs : s.byte outOfRange data = some s') :
    Mirrors s' (k.code outOfRange data) ∧
      s'.ring = ((k.key outOfRange data).elim s s.enqueue).ring := by
  suffices hnext : Mirrors s' (k.next data) ∧
      s'.ring = ((k.key outOfRange data).elim s s.enqueue).ring from
    ⟨⟨hnext.1.flags, hnext.1.pause⟩, hnext.2⟩
  have hext : s.flags.extended = decide (k.lead = .ext ∨ k.lead = .extBrk) :=
    congrArg Flags.extended h.flags
  have hbrk : s.flags.isBreak = decide (k.lead = .brk ∨ k.lead = .extBrk) :=
    congrArg Flags.isBreak h.flags
  have hcount : s.ignoreCount > 0 ↔ k.pause > 0 := by
    rw [← h.pause]
    exact UInt8.lt_iff_toNat_lt
  rw [Ps2.byte, if_neg (by rw [hack]; decide)] at hs
  by_cases hpause : k.pause > 0
  · rw [if_pos (hcount.mpr hpause)] at hs
    obtain rfl := Option.some.inj hs
    rw [Keys.next, if_pos hpause, Keys.key, if_pos hpause]
    refine ⟨⟨h.flags, ?_⟩, rfl⟩
    have hone : (1 : UInt8) ≤ s.ignoreCount := by
      rw [UInt8.le_iff_toNat_le, h.pause]
      exact hpause
    rw [UInt8.toNat_sub_of_le _ _ hone, h.pause]
    rfl
  rw [if_neg (mt hcount.mp hpause), hext, hbrk] at hs
  have hzero : k.pause = 0 := by omega
  have hkey : k.lead ≠ .none → k.lead ≠ .ext → k.key outOfRange data = none := fun h1 h2 => by
    cases hlead : k.lead
    all_goals simp_all [Keys.key]
  have hnext : k.lead ≠ .none → k.next data = match k.lead with
      | .ext => if data = ps2BreakCode then { k with lead := .extBrk } else k.set (true, data) true
      | .brk => { k.set (false, data) false with
          caps := if data = ps2CapsCode then !k.caps else k.caps }
      | _ => k.set (true, data) false := fun h1 => by
    cases hlead : k.lead
    all_goals simp_all [Keys.next]
  cases hlead : k.lead with
  | none =>
      simp only [hlead, reduceCtorEq, or_self, decide_false, Bool.false_eq_true, if_false,
        Option.some.injEq] at hs
      exact hs ▸ h.press hlead hzero
  | ext =>
      simp only [hlead, reduceCtorEq, or_self, or_false, decide_false, decide_true,
        Bool.false_eq_true, if_false, if_true] at hs
      rw [hnext (by rw [hlead]; nofun), hlead]
      by_cases hbreak : data = ps2BreakCode
      · subst hbreak
        rw [if_pos rfl] at hs
        obtain rfl := Option.some.inj hs
        have hnone : k.key outOfRange ps2BreakCode = none := by
          rw [Keys.key, if_neg hpause, hlead]
          rfl
        rw [hnone]
        exact ⟨⟨by simp [h.flags, hlead], h.pause⟩, rfl⟩
      · rw [if_neg hbreak] at hs
        simp only [if_neg hbreak]
        exact h.extPress hlead hzero hs
  | brk =>
      simp only [hlead, reduceCtorEq, or_self, or_false, decide_false, decide_true,
        Bool.false_eq_true, if_false, if_true, Option.some.injEq] at hs
      subst hs
      rw [hkey (by rw [hlead]; nofun) (by rw [hlead]; nofun), hnext (by rw [hlead]; nofun), hlead]
      exact ⟨h.release hlead, Ps2.release_ring⟩
  | extBrk =>
      simp only [hlead, reduceCtorEq, or_true, decide_true, if_true, Option.some.injEq] at hs
      subst hs
      rw [hkey (by rw [hlead]; nofun) (by rw [hlead]; nofun), hnext (by rw [hlead]; nofun), hlead]
      exact ⟨h.extRelease hlead, Ps2.extRelease_ring⟩

end Decoder

/-! ### The queue -/

namespace Ps2

variable {s s' : Ps2} {key : UInt16}

/-- The keys in the queue. -/
def pending (s : Ps2) : List UInt16 :=
  (List.range (s.wIdx - s.rIdx).toNat).map fun i => s.queue (s.rIdx + UInt8.ofNat i)

theorem length_pending : s.pending.length = (s.wIdx - s.rIdx).toNat := by
  rw [pending, List.length_map, List.length_range]

theorem pending_congr (h : s'.ring = s.ring) : s'.pending = s.pending := by
  obtain ⟨hqueue, hr, hw⟩ : s'.queue = s.queue ∧ s'.rIdx = s.rIdx ∧ s'.wIdx = s.wIdx := by
    simpa only [ring, Prod.mk.injEq] using h
  rw [pending, hqueue, hr, hw, pending]

/-- **A key** goes behind the others, unless one slot only is empty. -/
theorem pending_enqueue (h : s.pending.length < 255) :
    (s.enqueue key).pending = s.pending ++ [key] := by
  rw [length_pending] at h
  have hlen : (s.wIdx + 1 - s.rIdx).toNat = (s.wIdx - s.rIdx).toNat + 1 := by
    have hadd : s.wIdx + 1 - s.rIdx = s.wIdx - s.rIdx + 1 := by grind
    rw [hadd, UInt8.toNat_add, UInt8.toNat_one, Nat.mod_eq_of_lt (by omega)]
  rw [pending, enqueue, hlen, List.range_succ, List.map_append, pending]
  congr 1
  · refine List.map_congr_left fun i hi => Function.update_of_ne (fun heq => ?_) _ _
    have hsub : UInt8.ofNat i = s.wIdx - s.rIdx := by rw [← heq]; grind
    rw [← hsub] at hi
    have hmod := Nat.mod_le i 256
    exact absurd (List.mem_range.mp hi) (by rw [UInt8.toNat_ofNat']; omega)
  · rw [List.map_singleton, UInt8.ofNat_toNat]
    have hslot : s.rIdx + (s.wIdx - s.rIdx) = s.wIdx := by grind
    simp only [hslot, Function.update_self]

/-- **The reader** gets the first key. -/
theorem fetch_eq : s.fetch = s.pending.head? := by
  rw [fetch, pending]
  split_ifs with hempty
  · rw [hempty, UInt8.sub_self]
    rfl
  · obtain ⟨n, hn⟩ : ∃ n, (s.wIdx - s.rIdx).toNat = n + 1 := by
      refine Nat.exists_eq_succ_of_ne_zero fun hzero => hempty ?_
      have hsub : s.wIdx - s.rIdx = 0 := UInt8.toNat_inj.mp hzero
      grind
    rw [hn, List.range_succ_eq_map, List.map_cons, List.head?_cons]
    simp

/-- The key that was read leaves the queue. -/
theorem pending_advance (h : s.pending ≠ []) : s.advance.pending = s.pending.tail := by
  obtain ⟨n, hn⟩ : ∃ n, (s.wIdx - s.rIdx).toNat = n + 1 :=
    Nat.exists_eq_succ_of_ne_zero fun hzero =>
      h (List.length_eq_zero_iff.mp (length_pending.trans hzero))
  have hlen : (s.wIdx - (s.rIdx + 1)).toNat = n := by
    have hsub : s.wIdx - (s.rIdx + 1) = s.wIdx - s.rIdx - 1 := by grind
    rw [hsub, UInt8.toNat_sub_of_le _ _ (UInt8.le_iff_toNat_le.mpr (by rw [hn]; simp)), hn]
    rfl
  rw [pending, advance, hlen, pending, hn, List.range_succ_eq_map, List.map_cons, List.tail_cons,
    List.map_map]
  refine List.map_congr_left fun i _ => congrArg s.queue ?_
  simp only [Nat.succ_eq_add_one, UInt8.ofNat_add]
  grind

end Ps2

/-! ### Runs -/

/-- The decoder, the key that the reader has in hand, the keys as the codes say, and the keys that
were delivered. -/
structure Run where
  ps2 : Ps2 := .init
  hand : Option UInt16 := none
  keys : Keys := {}
  delivered : List UInt16 := []

/-- What may happen. -/
inductive Event where
  /-- A scan code. -/
  | code (data : UInt8)
  /-- An acknowledgement. -/
  | ack (data : UInt8)
  | fetch
  | advance

namespace Run

variable (outOfRange : UInt16 → UInt16) (r : Run)

/-- One event, if it can happen. -/
def step : Event → Option Run
  | .code data => do
      return { r with ps2 := ← r.ps2.byte outOfRange data, keys := r.keys.code outOfRange data }
  | .ack data => do return { r with ps2 := ← r.ps2.byte outOfRange data }
  | .fetch => if r.hand = none then some { r with hand := r.ps2.fetch } else none
  | .advance =>
      r.hand.map fun key =>
        { r with ps2 := r.ps2.advance, hand := none, delivered := r.delivered ++ [key] }

/-- The keyboard acknowledges what it is sent before it sends another code. -/
def Attended : Event → Prop
  | .code _ => r.ps2.acksToReceive = 0
  | .ack _ => r.ps2.acksToReceive ≠ 0
  | _ => True

/-- No key comes while 255 keys wait. -/
def Careful : Event → Prop
  | .code data =>
      r.ps2.acksToReceive = 0 ∧
        ((r.keys.key outOfRange data).isSome → r.ps2.pending.length < 255)
  | e => r.Attended e

end Run

/-- What holds in every run: the decoder follows the keyboard, and the keys that were not delivered
are in the queue. -/
structure Run.Kept (r : Run) : Prop where
  mirrors : Mirrors r.ps2 r.keys
  typed : r.keys.typed = r.delivered ++ r.ps2.pending
  hand : ∀ key ∈ r.hand, r.ps2.pending.head? = some key

variable {outOfRange : UInt16 → UInt16} {r r' : Run}

theorem Run.Kept.init : Run.Kept {} :=
  ⟨⟨rfl, rfl⟩, rfl, nofun⟩

/-- An acknowledgement changes neither the flags nor the queue. -/
theorem Ps2.byte_acknowledge {s s' : Ps2} {data : UInt8} (hack : s.acksToReceive ≠ 0)
    (hs : s.byte outOfRange data = some s') :
    s'.flags = s.flags ∧ s'.ignoreCount = s.ignoreCount ∧ s'.ring = s.ring := by
  have hpos : s.acksToReceive > 0 := by grind
  rw [Ps2.byte, if_pos hpos] at hs
  obtain rfl := Option.some.inj hs
  dsimp only [Ps2.acknowledge]
  split_ifs <;> exact ⟨rfl, rfl, rfl⟩

/-- **One event.** -/
theorem Run.Kept.step (h : r.Kept) (e : Event) (hcareful : r.Careful outOfRange e)
    (hs : r.step outOfRange e = some r') : r'.Kept := by
  cases e with
  | code data =>
    obtain ⟨s', hbyte, hs⟩ := Option.bind_eq_some_iff.mp hs
    obtain rfl := Option.some.inj hs
    obtain ⟨hack, hroom⟩ := hcareful
    obtain ⟨hmirrors, hring⟩ := h.mirrors.byte hack hbyte
    cases hkey : r.keys.key outOfRange data with
    | none =>
      rw [hkey] at hring
      have hpending : s'.pending = r.ps2.pending := Ps2.pending_congr hring
      refine ⟨hmirrors, ?_, fun key hhand => hpending ▸ h.hand key hhand⟩
      change r.keys.typed ++ _ = _
      rw [hkey, hpending, h.typed, Option.toList_none, List.append_nil]
    | some key =>
      rw [hkey] at hring hroom
      have hpending : s'.pending = r.ps2.pending ++ [key] :=
        (Ps2.pending_congr hring).trans (Ps2.pending_enqueue (hroom rfl))
      refine ⟨hmirrors, ?_, fun first hhand => ?_⟩
      · change r.keys.typed ++ _ = _
        rw [hkey, hpending, h.typed, Option.toList_some, List.append_assoc]
      · change s'.pending.head? = _
        rw [hpending, List.head?_append, h.hand first hhand, Option.some_or]
  | ack data =>
    obtain ⟨s', hbyte, hs⟩ := Option.bind_eq_some_iff.mp hs
    obtain rfl := Option.some.inj hs
    obtain ⟨hflags, hcount, hring⟩ := Ps2.byte_acknowledge hcareful hbyte
    have hpending : s'.pending = r.ps2.pending := Ps2.pending_congr hring
    exact ⟨⟨hflags.trans h.mirrors.flags, hcount ▸ h.mirrors.pause⟩,
      h.typed.trans (congrArg _ hpending.symm), fun key hhand => hpending ▸ h.hand key hhand⟩
  | fetch =>
    obtain ⟨-, hs⟩ := Option.ite_none_right_eq_some.mp hs
    obtain rfl := Option.some.inj hs
    exact ⟨h.mirrors, h.typed, fun key hhand => Ps2.fetch_eq.symm.trans hhand⟩
  | advance =>
    obtain ⟨key, hhand, rfl⟩ := Option.map_eq_some_iff.mp hs
    have hhead := h.hand key hhand
    have hpending : r.ps2.advance.pending = r.ps2.pending.tail :=
      Ps2.pending_advance fun hnil => by rw [hnil] at hhead; cases hhead
    refine ⟨⟨h.mirrors.flags, h.mirrors.pause⟩, ?_, nofun⟩
    change r.keys.typed = (r.delivered ++ [key]) ++ _
    rw [hpending, h.typed, List.append_assoc, List.singleton_append, List.cons_head?_tail hhead]

/-- **The keys of a keyboard.** In every run in which no key comes while 255 keys wait, the keys
that were typed are those that were delivered and those that wait, the first of which is read next,
and the flags that a key gets say which modifiers are held. -/
theorem keys_delivered (outOfRange : UInt16 → UInt16) {r : Run}
    (h : Reach (Run.step outOfRange) (Run.Careful outOfRange) {} r) :
    r.keys.typed = r.delivered ++ r.ps2.pending ∧ r.ps2.fetch = r.ps2.pending.head? ∧
      (r.ps2.flags.shift = true ↔
        r.keys.held (false, ps2LshiftCode) ∨ r.keys.held (false, ps2RshiftCode)) ∧
      (r.ps2.flags.ctrl = true ↔
        r.keys.held (false, ps2CtrlCode) ∨ r.keys.held (true, ps2CtrlCode)) ∧
      (r.ps2.flags.alt = true ↔
        r.keys.held (false, ps2AltCode) ∨ r.keys.held (true, ps2AltCode)) := by
  have hkept : r.Kept := h.invariant Run.Kept.init fun _ e _ hr hg hs => hr.step e hg hs
  have hflags := hkept.mirrors.flags
  refine ⟨hkept.typed, Ps2.fetch_eq, ?_, ?_, ?_⟩
  all_goals
    rw [hflags]
    exact Bool.or_eq_true_iff

instance Run.Attended.decidable (r : Run) (e : Event) : Decidable (r.Attended e) := by
  cases e <;> unfold Run.Attended <;> infer_instance

instance Run.Careful.decidable (outOfRange : UInt16 → UInt16) (r : Run) (e : Event) :
    Decidable (r.Careful outOfRange e) := by
  cases e <;> unfold Run.Careful <;> infer_instance

/-- The acknowledgements of the commands of `ps2_init`. -/
def acks : List Event := List.replicate 4 (.ack 0xFA)

/-- Typing `A` with the right SHIFT held, which is read. -/
def sampleRun : List Event := acks ++ [.code ps2RshiftCode, .code 0x1C, .fetch, .advance]

theorem keys_delivered_sample :
    ∃ r : Run, r.delivered = [0x2041] ∧ r.keys.typed = r.delivered ++ r.ps2.pending := by
  have hrun : (runAll (guarded (Run.step id) (Run.Careful id)) sampleRun {}).map
      Run.delivered = some [0x2041] := by decide +kernel
  obtain ⟨r, hr, hdelivered⟩ := Option.map_eq_some_iff.mp hrun
  exact ⟨r, hdelivered, (keys_delivered id (reach_of_runAll hr)).1⟩

/-- The handler does not test whether the queue is full: after 256 keys it looks empty. -/
theorem not_keys_delivered :
    ¬∀ (r r' : Run) (data : UInt8), Reach (Run.step id) Run.Attended {} r →
      r.keys.typed.length - r.delivered.length < 256 → r.step id (.code data) = some r' →
      r'.ps2.fetch = none → r'.delivered = r'.keys.typed := by
  intro h
  have hrun : (runAll (guarded (Run.step id) Run.Attended)
      (acks ++ List.replicate 255 (.code 0x1C)) {}).map (fun r =>
        (r.keys.typed.length - r.delivered.length, (r.step id (.code 0x1C)).map fun r' =>
          (r'.ps2.fetch, r'.delivered, r'.keys.typed.length))) =
      some (255, some (none, [], 256)) := by decide +kernel
  obtain ⟨r, hr, hlast⟩ := Option.map_eq_some_iff.mp hrun
  simp only [Prod.mk.injEq, Option.map_eq_some_iff] at hlast
  obtain ⟨hwaiting, r', hs, hfetch, hnil, hlen⟩ := hlast
  have heq := h r r' 0x1C (reach_of_runAll hr) (by omega) hs hfetch
  rw [← heq, hnil] at hlen
  cases hlen

end ELuaBrain.Keyboard
