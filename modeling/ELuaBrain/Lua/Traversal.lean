import ELuaBrain.Lua.TableRuns

/-!
# Traversals

A traversal calls `luaH_next` with the key that the last call returned, until there are no more
elements. Between the calls fields may be assigned to, also nil, and the collector may run: it
leaves dead keys behind, which a traversal may still have to go on from. A dead key is found by the
address of the object that was the key, and there may be a live key with the same address, or an
older dead one.

## Main definitions

* `Tracked`, `Reachable` : what holds of tables that the program makes.
* `Changed` : what happens to a table between two calls.
* `Traversal` : a traversal up to some call.

## Main results

* `Reachable.tracked` : a search that stops at dead keys finds a key first.
* `traversal_complete` : a traversal has no errors, and returns each element once.
-/

namespace ELuaBrain.Lua.Tables

open Function Links

variable {N V : Type} [LuaNumber N] [DecidableEq N] {t t' : Table N V} {k : Key N} {i : ℕ}

/-! ### Dead keys -/

/-- Two keys of nodes are not at the same address. -/
def Distinct (t : Table N V) : Prop :=
  ∀ i j k k' p, t.keys i = some k → t.keys j = some k' → k.gcvalue = some p →
    k'.gcvalue = some p → k = k'

/-- The invariant of a table whose keys are at different addresses. -/
structure Tracked (t : Table N V) : Prop extends Sound t where
  fresh : Fresh t
  distinct : Distinct t

theorem arrayindex_of_gcvalue {p : UInt32} (h : k.gcvalue = some p) : arrayindex k = none := by
  cases k with
  | number n => cases h
  | boolean b => rfl
  | string ts => rfl
  | pointer tag p => rfl

/-- A key with an address is in a node if it is in the table. -/
theorem exists_keys_of_maps {v : V} {p : UInt32} (h : t.Maps k v) (hp : k.gcvalue = some p) :
    ∃ j, t.keys j = some k := by
  obtain ⟨slot, hslot, -⟩ := h
  obtain ⟨m, -, hm, -⟩ | ⟨j, -, hj⟩ := slotOf_iff.mp hslot
  · rw [arrayindex_of_gcvalue hp] at hm
    cases hm
  · exact ⟨j, hj⟩

omit [LuaNumber N] [DecidableEq N] in
theorem shadows_congr (h : ∀ j, (t'.node j).key = (t.node j).key) : t'.Shadows = t.Shadows := by
  funext k j
  rw [Table.Shadows, h, Table.Shadows]

/-- Only the keys matter, and the links. -/
theorem Fresh.congr (h : Fresh t) (hsize : t'.lsizenode = t.lsizenode)
    (hnexts : t'.nexts = t.nexts) (hkey : ∀ j, (t'.node j).key = (t.node j).key) : Fresh t' := by
  have hkeys : t'.keys = t.keys := by
    funext j
    rw [Table.keys, hkey, Table.keys]
  rw [Fresh, hsize, hnexts, hkeys, shadows_congr hkey]
  exact h

/-- There is no other key at the address of the key. -/
def Addressed (t : Table N V) (key : Key N) : Prop :=
  ∀ j k p, t.keys j = some k → k.gcvalue = some p → key.gcvalue = some p → k = key

theorem Located.distinct {key : Key N} {slot : Slot} (h : Located t key t' slot)
    (hdistinct : Distinct t) (hkey : Addressed t key) : Distinct t' := by
  have hold : ∀ j k p, t'.keys j = some k → k.gcvalue = some p →
      k = key ∨ ∃ j', t.keys j' = some k := fun j k p hk hp => by
    obtain heq | hj | ⟨v, hv⟩ := h.keys j k hk
    · exact .inl heq
    · exact .inr hj
    · exact .inr (exists_keys_of_maps hv hp)
  intro i j k k' p hi hj hp hp'
  obtain heq | ⟨i', hi'⟩ := hold i k p hi hp
  · obtain heq' | ⟨j', hj'⟩ := hold j k' p hj hp'
    · exact heq.trans heq'.symm
    · rw [heq] at hp
      exact heq.trans (hkey j' k' p hj' hp' hp).symm
  · obtain heq' | ⟨j', hj'⟩ := hold j k' p hj hp'
    · rw [heq'] at hp'
      exact (hkey i' k p hi' hp hp').trans heq'.symm
    · exact hdistinct i' j' k k' p hi' hj' hp hp'

/-- An assignment to where a key is. -/
theorem Tracked.write (h : Tracked t) {slot : Slot} (hslot : t.SlotOf k slot) (v : Option V) :
    Tracked (t.write slot v) where
  toSound := (h.toSound.write v hslot).1
  fresh := h.fresh.congr (lsizenode_write v) (nexts_write v) (key_write v)
  distinct := by
    rw [Distinct, keys_write]
    exact h.distinct

theorem Tracked.assign (h : Tracked t) {key : Key N} (hkey : Addressed t key)
    {r : Except Fault (Table N V × Slot)} (hassigns : Assigns t key r) {v : Option V}
    (heq : assign v r = .ok t') : Tracked t' := by
  obtain ⟨herror, -⟩ | ⟨t₁, slot, hok, hlocated⟩ := hassigns
  · rw [herror] at heq
    cases heq
  · rw [hok] at heq
    rw [← Except.ok.inj heq]
    have htracked : Tracked t₁ := ⟨hlocated.sound, hlocated.fresh h.fresh,
      hlocated.distinct h.distinct hkey⟩
    exact htracked.write hlocated.slotOf v

/-- A dead key is no shadow of another key. -/
theorem Tracked.removeentry (h : Tracked t) (hval : (t.node i).val = none) :
    Tracked (removeentry t i) := by
  obtain heq | ⟨k, p, hk, hp, heq⟩ := removeentry_cases t i
  · rw [heq]
    exact h
  refine ⟨(h.toSound.removeentry hval).1, ?_, ?_⟩
  · have hnexts : (Tables.removeentry t i).nexts = t.nexts := by
      rw [heq, nexts_setNode]
      exact update_eq_self i t.nexts
    have hkeys : (Tables.removeentry t i).keys = update t.keys i none := by
      rw [heq]
      exact keys_setNode _
    rw [Fresh, hnexts, hkeys, heq]
    refine Unshadowed.forget h.fresh (fun k' j hj hji => ?_) fun j k' hji hj hs => ?_
    · obtain ⟨p', hp', hdead⟩ := hj
      rw [node_setNode_of_ne _ hji] at hdead
      exact ⟨p', hp', hdead⟩
    · obtain ⟨p', hp', hdead⟩ := hs
      rw [node_setNode_self] at hdead
      rw [← NodeKey.dead.inj hdead] at hp'
      have hkk := h.distinct j i k' k p hj hk hp' hp
      rw [hkk] at hj
      exact hji (h.scatter.unique j i k hj hk)
  · rw [heq, Distinct, keys_setNode]
    have hold : ∀ j k, update t.keys i none j = some k → t.keys j = some k := fun j k hj => by
      by_cases hji : j = i
      · rw [hji, update_self] at hj
        cases hj
      · rwa [update_of_ne hji] at hj
    exact fun j j' k k' p hj hj' => h.distinct j j' k k' p (hold j k hj) (hold j' k' hj')

theorem Tracked.traverseNodes (n : ℕ) : ∀ {t : Table N V}, Tracked t →
    Tracked (traverseNodes n t) := by
  induction n with
  | zero => exact id
  | succ n ih =>
    intro t h
    rw [Tables.traverseNodes]
    split_ifs with hval
    · exact ih (h.removeentry (Option.isNone_iff_eq_none.mp hval))
    · exact ih h

theorem Tracked.clearNodes (iswhite : UInt32 → Bool) (iscleared : V → Bool) (n : ℕ) :
    ∀ {t : Table N V}, Tracked t → Tracked (clearNodes iswhite iscleared n t) := by
  induction n with
  | zero => exact id
  | succ n ih =>
    intro t h
    rw [Tables.clearNodes]
    split_ifs with hclear
    · obtain ⟨v, hv, -⟩ := Option.any_eq_true _ _ |>.mp hclear
      obtain ⟨k, hk⟩ := h.value n v hv
      refine ih (((h.write (.node n hk) none)).removeentry ?_)
      rw [Table.write, node_setNode_self]
    · exact ih h

theorem Tracked.cleartable (h : Tracked t) (iswhite : UInt32 → Bool) (iscleared : V → Bool)
    (weakvalue : Bool) : Tracked (cleartable iswhite iscleared weakvalue t) := by
  rw [Tables.cleartable]
  cases weakvalue with
  | true =>
    obtain ⟨hsound, -⟩ := h.toSound.filterArray fun v => !iscleared v
    exact Tracked.clearNodes iswhite iscleared t.sizenode ⟨hsound, h.fresh, h.distinct⟩
  | false => exact h.clearNodes iswhite iscleared t.sizenode

/-- No other key of the table is at the address of the key that is assigned to. -/
def Op.Addressed (t : Table N V) : Op N V → Prop
  | .set (some key) _ => Tables.Addressed t key
  | .setstr ts _ => Tables.Addressed t (.string ts)
  | _ => True

/-- The tables that the program makes. -/
inductive Reachable : Table N V → Prop
  | new {narray nhash : ℕ} {t : Table N V} (hmax : narray ≤ maxasize)
      (hnew : luaHNew narray nhash = .ok t) : Reachable t
  | step {t t' : Table N V} (h : Reachable t) (op : Op N V) (hop : op.Allowed)
      (haddressed : op.Addressed t) (hstep : step t op = .ok t') : Reachable t'

theorem Clean.tracked (h : Clean t') (hsound : Sound t') (hdistinct : Distinct t)
    (hmaps : ∀ k v, t'.Maps k v ↔ t.Maps k v) : Tracked t' := by
  refine ⟨hsound, h.fresh, fun i j k k' p hi hj hp hp' => ?_⟩
  obtain ⟨v, hv⟩ := h.maps i k hi
  obtain ⟨v', hv'⟩ := h.maps j k' hj
  obtain ⟨i', hi'⟩ := exists_keys_of_maps ((hmaps k v).mp hv) hp
  obtain ⟨j', hj'⟩ := exists_keys_of_maps ((hmaps k' v').mp hv') hp'
  exact hdistinct i' j' k k' p hi' hj' hp hp'

theorem Tracked.step (h : Tracked t) (op : Op N V) (hop : op.Allowed)
    (haddressed : op.Addressed t) (hstep : step t op = .ok t') : Tracked t' := by
  cases op with
  | set key v =>
    cases key with
    | none => cases hstep
    | some key =>
      cases hnan : key.isNaN with
      | true =>
        obtain ⟨slot, hget, hslot⟩ | ⟨hget, hnone⟩ := luaHGet_spec h.toHashed key
        · have hset : luaHSet t (some key) = .ok (t, slot) := by
            unfold luaHSet luaHSetWith
            rw [hget]
            rfl
          rw [Tables.step, hset] at hstep
          rw [← Except.ok.inj hstep]
          exact h.write hslot v
        · rw [Tables.step, (luaHSet_error h.toSound).2 key hnan hnone] at hstep
          cases hstep
      | false => exact h.assign haddressed (luaHSet_spec h.toSound hnan) hstep
  | setnum key v =>
    exact h.assign (fun _ _ _ _ _ hp => by cases hp)
      (luaHSetnum_spec h.toSound key.le_toInt key.toInt_lt) hstep
  | setstr ts v => exact h.assign haddressed (luaHSetstr_spec h.toSound ts) hstep
  | resizearray last =>
    rw [Tables.step] at hstep
    split_ifs at hstep with hlt
    · obtain ⟨t₁, heq, hres⟩ := luaHResizearray_spec h.toSound hlt hop
      rw [heq] at hstep
      rw [← Except.ok.inj hstep]
      exact hres.clean.tracked hres.sound h.distinct hres.maps
    · rw [← Except.ok.inj hstep]
      exact h
  | traverse =>
    rw [← Except.ok.inj hstep]
    exact h.traverseNodes t.sizenode
  | clear iswhite iscleared weakvalue =>
    rw [← Except.ok.inj hstep]
    exact h.cleartable iswhite iscleared weakvalue

/-- A new table has no keys. -/
theorem tracked_new {narray nhash : ℕ} (hmax : narray ≤ maxasize)
    (hnew : luaHNew narray nhash = .ok t) : Tracked t := by
  obtain ⟨hsound, hm⟩ := refines_new hmax hnew
  have hkey : ∀ j, (t.node j).key = .nil := fun j => by
    rw [luaHNew, resizenodevector] at hnew
    split_ifs at hnew
    · rw [← Except.ok.inj hnew]
    · rw [← Except.ok.inj hnew]
      dsimp only
      split_ifs <;> rfl
    · rw [← Except.ok.inj hnew]
      dsimp only
      split_ifs <;> rfl
  have hnone : ∀ j k, t.keys j ≠ some k := fun j k hk => by
    rw [keys_eq_some, hkey] at hk
    cases hk
  have hclean : Clean t :=
    { dead := fun j p hp => by
        rw [hkey] at hp
        cases hp
      maps := fun j k hk => absurd hk (hnone j k) }
  exact ⟨hsound, hclean.fresh, fun i _ k _ _ hi => absurd hi (hnone i k)⟩

theorem Reachable.tracked (h : Reachable t) : Tracked t := by
  induction h with
  | new hmax hnew => exact tracked_new hmax hnew
  | step _ op hop haddressed hstep ih => exact ih.step op hop haddressed hstep

/-! ### Between two calls -/

/-- The elements stay where they are; a key may be dead. -/
structure Changed (t t' : Table N V) : Prop where
  array : t'.array.length = t.array.length
  lsizenode : t'.lsizenode = t.lsizenode
  nexts : t'.nexts = t.nexts
  key : ∀ j, (t'.node j).key = (t.node j).key ∨
    ∃ k p, t.keys j = some k ∧ k.gcvalue = some p ∧ (t'.node j).key = .dead p

namespace Changed

omit [LuaNumber N] [DecidableEq N]

theorem refl (t : Table N V) : Changed t t := ⟨rfl, rfl, rfl, fun _ => .inl rfl⟩

/-- A key that is there was there. -/
theorem keys (h : Changed t t') (hk : t'.keys i = some k) : t.keys i = some k := by
  obtain heq | ⟨_, p, -, -, hdead⟩ := h.key i
  · rwa [keys_eq_some, ← heq, ← keys_eq_some]
  · rw [keys_eq_some, hdead] at hk
    cases hk

theorem trans {t'' : Table N V} (h : Changed t t') (h' : Changed t' t'') : Changed t t'' where
  array := h'.array.trans h.array
  lsizenode := h'.lsizenode.trans h.lsizenode
  nexts := h'.nexts.trans h.nexts
  key j := by
    obtain heq' | ⟨k, p, hk, hp, hdead⟩ := h'.key j
    · rw [heq']
      exact h.key j
    · exact .inr ⟨k, p, h.keys hk, hp, hdead⟩

theorem write (slot : Slot) (v : Option V) : Changed t (t.write slot v) :=
  ⟨length_array_write v, lsizenode_write v, nexts_write v, fun j => .inl (key_write v j)⟩

theorem removeentry (t : Table N V) (i : ℕ) : Changed t (removeentry t i) := by
  obtain heq | ⟨k, p, hk, hp, heq⟩ := removeentry_cases t i
  · rw [heq]
    exact refl t
  · rw [heq]
    refine ⟨rfl, rfl, ?_, fun j => ?_⟩
    · rw [nexts_setNode]
      exact update_eq_self i t.nexts
    · by_cases hj : j = i
      · rw [hj, node_setNode_self]
        exact .inr ⟨k, p, hk, hp, rfl⟩
      · rw [node_setNode_of_ne _ hj]
        exact .inl rfl

theorem traverseNodes (n : ℕ) : ∀ t : Table N V, Changed t (traverseNodes n t) := by
  induction n with
  | zero => exact refl
  | succ n ih =>
    intro t
    rw [Tables.traverseNodes]
    split_ifs
    · exact (removeentry t n).trans (ih _)
    · exact ih t

theorem clearNodes (iswhite : UInt32 → Bool) (iscleared : V → Bool) (n : ℕ) :
    ∀ t : Table N V, Changed t (clearNodes iswhite iscleared n t) := by
  induction n with
  | zero => exact refl
  | succ n ih =>
    intro t
    rw [Tables.clearNodes]
    split_ifs
    · exact ((write (.node n) none).trans (removeentry _ n)).trans (ih _)
    · exact ih t

theorem cleartable (iswhite : UInt32 → Bool) (iscleared : V → Bool) (weakvalue : Bool)
    (t : Table N V) : Changed t (cleartable iswhite iscleared weakvalue t) := by
  rw [Tables.cleartable]
  cases weakvalue with
  | true =>
    rw [if_pos rfl]
    refine trans ?_ (clearNodes iswhite iscleared t.sizenode _)
    exact ⟨List.length_map _, rfl, rfl, fun _ => .inl rfl⟩
  | false => exact clearNodes iswhite iscleared t.sizenode t

end Changed

/-- A field that exists is assigned to, or the collector runs. -/
def Op.Existing (t : Table N V) : Op N V → Prop
  | .set (some key) _ => ∃ slot, t.SlotOf key slot
  | .setnum key _ => ∃ slot, t.SlotOf (.number (ofInt key.toInt)) slot
  | .setstr ts _ => ∃ slot, t.SlotOf (.string ts) slot
  | .traverse | .clear .. => True
  | .set none _ | .resizearray _ => False

theorem Finds.of_slotOf {found : Except Fault (Option Slot)} (h : Finds t k found)
    (hex : ∃ slot, t.SlotOf k slot) : ∃ slot, found = .ok (some slot) ∧ t.SlotOf k slot := by
  obtain hsome | ⟨-, hnone⟩ := h
  · exact hsome
  · obtain ⟨slot, hslot⟩ := hex
    exact absurd hslot (hnone slot)

/-- A step that inserts no key. -/
theorem Tracked.changed (h : Tracked t) (op : Op N V) (hop : op.Allowed) (hex : op.Existing t)
    (hstep : Tables.step t op = .ok t') : Tracked t' ∧ Changed t t' := by
  have hwrite : ∀ {key slot} (v : Option V), t.SlotOf key slot →
      (Except.ok (t.write slot v) : Except Fault (Table N V)) = .ok t' →
      Tracked t' ∧ Changed t t' := fun v hslot heq => by
    rw [← Except.ok.inj heq]
    exact ⟨h.write hslot v, .write _ v⟩
  cases op with
  | set key v =>
    cases key with
    | none => exact hex.elim
    | some key =>
      obtain ⟨slot, hget, hslot⟩ := (luaHGet_spec h.toHashed key).of_slotOf hex
      refine hwrite v hslot ?_
      rw [← hstep, Tables.step, luaHSet]
      unfold luaHSetWith
      rw [hget]
      rfl
  | setnum key v =>
    obtain ⟨slot, hget, hslot⟩ := (luaHGetnum_spec h.toHashed
      (intOf_ofInt key.le_toInt key.toInt_lt)).of_slotOf hex
    refine hwrite v hslot ?_
    rw [← hstep, Tables.step, luaHSetnum, luaHSetnumWith, hget]
    rfl
  | setstr ts v =>
    obtain ⟨slot, hget, hslot⟩ := (luaHGet_spec h.toHashed (.string ts)).of_slotOf hex
    refine hwrite v hslot ?_
    rw [luaHGet] at hget
    rw [← hstep, Tables.step, luaHSetstr, luaHSetstrWith, hget]
    rfl
  | resizearray last => exact hex.elim
  | traverse =>
    rw [← Except.ok.inj hstep]
    exact ⟨h.traverseNodes t.sizenode, .traverseNodes t.sizenode t⟩
  | clear iswhite iscleared weakvalue =>
    rw [← Except.ok.inj hstep]
    exact ⟨h.cleartable iswhite iscleared weakvalue, .cleartable iswhite iscleared weakvalue t⟩


/-! ### A call -/

/-- The place of an element in the order of a traversal: first the array part, then the nodes. -/
def Table.place (t : Table N V) (q : ℕ) : Slot :=
  if q < t.array.length then .array q else .node (q - t.array.length)

omit [LuaNumber N] [DecidableEq N] in
theorem place_injective {q q' : ℕ} (h : t.place q = t.place q') : q = q' := by
  rw [Table.place, Table.place] at h
  split_ifs at h with hq hq'
  · exact Slot.array.inj h
  · have := Slot.node.inj h
    omega

/-- What `luaH_next` returns from a place on: the first element that is not nil, if there is one. -/
def Next (t : Table N V) (s : ℕ) : Option (Key N × V) → Prop
  | some (k, v) => ∃ q, s ≤ q ∧ t.SlotOf k (t.place q) ∧ t.at (t.place q) = some v ∧
      ∀ q', s ≤ q' → q' < q → ∀ k', t.SlotOf k' (t.place q') → t.at (t.place q') = none
  | none => ∀ q, s ≤ q → ∀ k, t.SlotOf k (t.place q) → t.at (t.place q) = none

theorem findSome?_range' {α : Type} (f : ℕ → Option α) (s n : ℕ) :
    (∃ q a, (List.range' s n).findSome? f = some a ∧ s ≤ q ∧ q < s + n ∧ f q = some a ∧
      ∀ q', s ≤ q' → q' < q → f q' = none) ∨
    (List.range' s n).findSome? f = none ∧ ∀ q, s ≤ q → q < s + n → f q = none := by
  induction n generalizing s with
  | zero => exact .inr ⟨rfl, fun q hle hlt => by omega⟩
  | succ n ih =>
    rw [List.range'_succ, List.findSome?_cons]
    cases hs : f s with
    | some a => exact .inl ⟨s, a, rfl, le_rfl, by omega, hs, fun q' hle hlt => by omega⟩
    | none =>
      dsimp only
      have hfirst : ∀ q', s ≤ q' → (s + 1 ≤ q' → f q' = none) → f q' = none := fun q' hle hq => by
        rcases Nat.eq_or_lt_of_le hle with rfl | hlt
        · exact hs
        · exact hq hlt
      obtain ⟨q, a, heq, hle, hlt, hq, hall⟩ | ⟨heq, hall⟩ := ih (s + 1)
      · exact .inl ⟨q, a, heq, by omega, by omega, hq,
          fun q' hle' hlt' => hfirst q' hle' fun hle'' => hall q' hle'' hlt'⟩
      · exact .inr ⟨heq, fun q hle hlt => hfirst q hle fun hle' => hall q hle' (by omega)⟩

omit [LuaNumber N] [DecidableEq N] in
theorem place_of_lt {q : ℕ} (h : q < t.array.length) : t.place q = .array q := if_pos h

omit [LuaNumber N] [DecidableEq N] in
theorem place_of_le {q : ℕ} (h : t.array.length ≤ q) : t.place q = .node (q - t.array.length) :=
  if_neg (Nat.not_lt.mpr h)

/-- The first element of the array part, or of the hash part. -/
theorem Sound.next_spec (h : Sound t) (s : ℕ) :
    Next t s ((nextElement t s).or (nextNode t (s - t.array.length))) := by
  have hasize : maxasize = 2 ^ 26 := rfl
  have hlen := h.array_le
  rw [nextElement, nextNode]
  obtain ⟨q, a, heq, hle, hlt, hq, hall⟩ | ⟨heq, hall⟩ := findSome?_range'
    (fun i => (t.array.getD i none).map fun v => (Key.number (ofInt ((i : ℤ) + 1) : N), v)) s
    (t.array.length - s)
  · rw [heq, Option.some_or]
    obtain ⟨v, hv, rfl⟩ := Option.map_eq_some_iff.mp hq
    have hqlen : q < t.array.length := by omega
    refine ⟨q, hle, ?_, ?_, fun q' hle' hlt' k' _ => ?_⟩
    · rw [place_of_lt hqlen]
      have hindex : arrayindex (Key.number (ofInt ((q : ℤ) + 1) : N)) = some ((q : ℤ) + 1) :=
        intOf_ofInt (by omega) (by omega)
      have hslot := Table.SlotOf.array (t := t) _ hindex (by omega) (by omega)
      rwa [show ((q : ℤ) + 1 - 1).toNat = q by omega] at hslot
    · rw [place_of_lt hqlen]
      exact hv
    · rw [place_of_lt (hlt'.trans hqlen)]
      exact Option.map_eq_none_iff.mp (hall q' hle' hlt')
  rw [heq, Option.none_or]
  have harray : ∀ q', s ≤ q' → q' < t.array.length → t.at (t.place q') = none :=
    fun q' hle' hlt' => by
      rw [place_of_lt hlt']
      exact Option.map_eq_none_iff.mp (hall q' hle' (by omega))
  have hlive : ∀ {j k}, t.keys j = some k → (t.node j).entry = (t.node j).val.map fun v => (k, v) :=
    fun {j k} hk => by rw [Node.entry, keys_eq_some.mp hk]
  have hnode : ∀ q' k, t.array.length ≤ q' → t.SlotOf k (t.place q') →
      t.keys (q' - t.array.length) = some k := fun q' k hle' hslot => by
    rw [place_of_le hle'] at hslot
    obtain ⟨_, hplace, -⟩ | ⟨j, hplace, hj⟩ := slotOf_iff.mp hslot
    · cases hplace
    · rwa [Slot.node.inj hplace]
  obtain ⟨q, a, heq, hle, hlt, hq, hall'⟩ | ⟨heq, hall'⟩ := findSome?_range'
    (fun i => (t.node i).entry) (s - t.array.length) (t.sizenode - (s - t.array.length))
  · rw [heq]
    cases hkey : (t.node q).key with
    | nil =>
      rw [Node.entry, hkey] at hq
      cases hq
    | dead p =>
      rw [Node.entry, hkey] at hq
      cases hq
    | live k =>
      rw [hlive (keys_eq_some.mpr hkey)] at hq
      obtain ⟨v, hv, rfl⟩ := Option.map_eq_some_iff.mp hq
      have hplace : t.place (q + t.array.length) = .node q := by
        rw [place_of_le (Nat.le_add_left ..), Nat.add_sub_cancel]
      refine ⟨q + t.array.length, by omega, ?_, ?_, fun q' hle' hlt' k' hslot => ?_⟩
      · rw [hplace]
        exact .node q (keys_eq_some.mpr hkey)
      · rw [hplace]
        exact hv
      · rcases Nat.lt_or_ge q' t.array.length with hlt'' | hge
        · exact harray q' hle' hlt''
        · have hnone := hall' (q' - t.array.length) (by omega) (by omega)
          rw [hlive (hnode q' k' hge hslot)] at hnone
          rw [place_of_le hge]
          exact Option.map_eq_none_iff.mp hnone
  · rw [heq]
    intro q' hle' k' hslot
    rcases Nat.lt_or_ge q' t.array.length with hlt'' | hge
    · exact harray q' hle' hlt''
    · have hk := hnode q' k' hge hslot
      have hlt := h.keys_lt hk
      have hnone := hall' (q' - t.array.length) (by omega) (by omega)
      rw [hlive hk] at hnone
      rw [place_of_le hge]
      exact Option.map_eq_none_iff.mp hnone

/-! ### The key of the last call -/

/-- The key is at a place of the table, or its dead key is. -/
inductive Cursor (t : Table N V) (k : Key N) : ℕ → Prop
  | array (m : ℤ) (hm : arrayindex k = some m) (hpos : 1 ≤ m) (hle : m ≤ t.array.length) :
      Cursor t k (m - 1).toNat
  | node (i : ℕ) (hout : ¬t.InArray k) (hi : (t.node i).key.isFor k = true)
      (hreach : Reaches t.nexts (mainposition t.lsizenode k) i)
      (hfirst : ∀ j, Reaches t.nexts (mainposition t.lsizenode k) j → Reaches t.nexts j i → j ≠ i →
        (t.node j).key.isFor k = false)
      (halone : ∀ j k' p, t.keys j = some k' → k'.gcvalue = some p → k.gcvalue = some p →
        k' = k) : Cursor t k (i + t.array.length)

theorem findindex_spec (h : Sound t) {q : ℕ} (hcursor : Cursor t k q) :
    findindex t (some k) = .ok (q : ℤ) := by
  rw [findindex]
  cases hcursor with
  | array m hm hpos hle =>
    rw [hm, Option.getD_some]
    rw [if_pos (show 0 < m ∧ m ≤ t.array.length by omega)]
    congr 1
    omega
  | node i hout hi hreach hfirst halone =>
    have hnot : ¬(0 < (arrayindex k).getD (-1) ∧ (arrayindex k).getD (-1) ≤ t.array.length) := by
      cases hindex : arrayindex k with
      | none =>
        rw [Option.getD_none]
        omega
      | some m =>
        rw [Option.getD_some]
        exact fun hand => hout ⟨m, hindex, hand.1, hand.2⟩
    rw [if_neg hnot, h.along_eq (mainposition_lt t.lsizenode k) _ hi hreach hfirst]
    change Except.ok ((i : ℤ) + t.array.length) = _
    push_cast
    rfl

/-- A key that was just returned. -/
theorem Tracked.cursor (h : Tracked t) {q : ℕ} (hslot : t.SlotOf k (t.place q)) :
    Cursor t k q := by
  obtain ⟨m, hplace, hm, hpos, hle⟩ | ⟨i, hplace, hi⟩ := slotOf_iff.mp hslot
  · have hq : q = (m - 1).toNat := by
      refine place_injective (t := t) ?_
      rw [hplace, place_of_lt (by omega)]
    rw [hq]
    exact .array m hm hpos hle
  · have hq : q = i + t.array.length := by
      refine place_injective (t := t) ?_
      rw [hplace, place_of_le (Nat.le_add_left ..), Nat.add_sub_cancel]
    rw [hq]
    have hlive := keys_eq_some.mp hi
    refine .node i (h.apart i k hi) ?_ (h.scatter.reach i k hi (Finset.notMem_empty i))
      (fun j hj hji hne => ?_) fun j k' p hj hp hp' => ?_
    · rw [hlive]
      exact decide_eq_true rfl
    · cases hkey : (t.node j).key with
      | nil => rfl
      | live k' =>
        refine decide_eq_false fun heq => hne ?_
        rw [heq] at hkey
        exact h.scatter.unique j i k (keys_eq_some.mpr hkey) hi
      | dead p => exact decide_eq_false fun hp => h.fresh i k j hi ⟨p, hp, hkey⟩ hj hji
    · exact h.distinct j i k' k p hj hi hp hp'

/-- The key stays where it is. -/
theorem Changed.cursor (h : Changed t t') {q : ℕ} (hcursor : Cursor t k q) : Cursor t' k q := by
  have hin : t'.InArray k ↔ t.InArray k := by rw [Table.InArray, h.array, Table.InArray]
  cases hcursor with
  | array m hm hpos hle => exact .array m hm hpos (by rwa [h.array])
  | node i hout hi hreach hfirst halone =>
    rw [← h.array]
    refine .node i (by rwa [hin]) ?_ (by rwa [h.nexts, h.lsizenode]) (fun j hj hji hne => ?_)
      fun j k' p hj hp hp' => halone j k' p (h.keys hj) hp hp'
    · obtain heq | ⟨k', p, hk', hp, hdead⟩ := h.key i
      · rwa [heq]
      · rw [keys_eq_some.mp hk'] at hi
        rw [of_decide_eq_true hi] at hp
        rw [hdead]
        exact decide_eq_true hp
    · rw [h.nexts, h.lsizenode] at hj
      rw [h.nexts] at hji
      have hold := hfirst j hj hji hne
      obtain heq | ⟨k', p, hk', hp, hdead⟩ := h.key j
      · rwa [heq]
      · rw [hdead]
        refine decide_eq_false fun hp' => ?_
        rw [keys_eq_some.mp hk'] at hold
        exact of_decide_eq_false hold (halone j k' p hk' hp hp')

/-! ### A traversal -/

/-- A traversal up to some call, with the key it returned, all elements that were returned, and the
keys that were never mapped to nil. -/
inductive Traversal (t₀ : Table N V) :
    Option (Key N) → List (Key N × V) → (Key N → Prop) → Table N V → Prop
  | start : Traversal t₀ none [] (fun k => ∃ v, t₀.Maps k v) t₀
  | change {cursor seen kept t t'} (h : Traversal t₀ cursor seen kept t) (op : Op N V)
      (hop : op.Allowed) (hex : op.Existing t) (hstep : step t op = .ok t') :
      Traversal t₀ cursor seen (fun k => kept k ∧ ∃ v, t'.Maps k v) t'
  | next {cursor seen kept t k v} (h : Traversal t₀ cursor seen kept t)
      (hnext : luaHNext t cursor = .ok (some (k, v))) :
      Traversal t₀ (some k) (seen ++ [(k, v)]) kept t

/-- The next call goes on from place `s`. -/
structure Visiting (t : Table N V) (cursor : Option (Key N)) (seen : List (Key N × V))
    (kept : Key N → Prop) (s : ℕ) : Prop where
  tracked : Tracked t
  cursor : cursor = none ∧ s = 0 ∨ ∃ k q, cursor = some k ∧ s = q + 1 ∧ Cursor t k q
  seen_lt : ∀ k ∈ seen.map Prod.fst, ∀ q, t.SlotOf k (t.place q) → q < s
  nodup : (seen.map Prod.fst).Nodup
  length_le : seen.length ≤ s
  le_size : s ≤ t.array.length + t.sizenode
  maps : ∀ k, kept k → ∃ v, t.Maps k v
  kept : ∀ k, kept k → k ∈ seen.map Prod.fst ∨ ∀ q, t.SlotOf k (t.place q) → s ≤ q

section Visiting

variable {cursor : Option (Key N)} {seen : List (Key N × V)} {kept : Key N → Prop} {s : ℕ}

/-- The call returns what comes next. -/
theorem Visiting.luaHNext (h : Visiting t cursor seen kept s) :
    ∃ r, luaHNext t cursor = .ok r ∧ Next t s r := by
  refine ⟨_, ?_, h.tracked.next_spec s⟩
  rw [Tables.luaHNext]
  obtain ⟨rfl, rfl⟩ | ⟨k, q, rfl, rfl, hcursor⟩ := h.cursor
  · rfl
  · rw [findindex_spec h.tracked.toSound hcursor]
    rfl

omit [LuaNumber N] [DecidableEq N] in
theorem place_congr (h : t'.array.length = t.array.length) (q : ℕ) : t'.place q = t.place q := by
  rw [Table.place, h, Table.place]

/-- A key that is somewhere was there. -/
theorem Changed.slotOf (h : Changed t t') {slot : Slot} (hslot : t'.SlotOf k slot) :
    t.SlotOf k slot := by
  cases hslot with
  | array m hm hpos hle => exact .array m hm hpos (by rwa [← h.array])
  | node i hi => exact .node i (h.keys hi)

theorem Visiting.change (h : Visiting t cursor seen kept s) (htracked : Tracked t')
    (hchanged : Changed t t') :
    Visiting t' cursor seen (fun k => kept k ∧ ∃ v, t'.Maps k v) s where
  tracked := htracked
  cursor := h.cursor.imp_right fun ⟨k, q, hk, hs, hcursor⟩ =>
    ⟨k, q, hk, hs, hchanged.cursor hcursor⟩
  seen_lt k hk q hslot := by
    rw [place_congr hchanged.array] at hslot
    exact h.seen_lt k hk q (hchanged.slotOf hslot)
  nodup := h.nodup
  length_le := h.length_le
  le_size := by
    rw [hchanged.array, Table.sizenode, hchanged.lsizenode]
    exact h.le_size
  maps _ hk := hk.2
  kept k hk := (h.kept k hk.1).imp_right fun hall q hslot => by
    rw [place_congr hchanged.array] at hslot
    exact hall q (hchanged.slotOf hslot)

/-- A place that holds a key is within the table. -/
theorem Sound.place_lt (h : Sound t) {q : ℕ} (hslot : t.SlotOf k (t.place q)) :
    q < t.array.length + t.sizenode := by
  rcases Nat.lt_or_ge q t.array.length with hlt | hge
  · omega
  · rw [place_of_le hge] at hslot
    obtain ⟨_, hplace, -⟩ | ⟨i, hplace, hi⟩ := slotOf_iff.mp hslot
    · cases hplace
    · have := h.keys_lt hi
      have := Slot.node.inj hplace
      omega

/-- A key that is mapped to something has a place. -/
theorem exists_place {v : V} (h : t.Maps k v) :
    ∃ q, t.SlotOf k (t.place q) ∧ t.at (t.place q) = some v := by
  obtain ⟨slot, hslot, hat⟩ := h
  obtain ⟨m, rfl, -, hpos, hle⟩ | ⟨i, rfl, -⟩ := slotOf_iff.mp hslot
  · refine ⟨(m - 1).toNat, ?_⟩
    rw [place_of_lt (by omega)]
    exact ⟨hslot, hat⟩
  · refine ⟨i + t.array.length, ?_⟩
    rw [place_of_le (Nat.le_add_left ..), Nat.add_sub_cancel]
    exact ⟨hslot, hat⟩

/-- A key that was never mapped to nil comes at the next place or later. -/
theorem Visiting.not_before (h : Visiting t cursor seen kept s) (hk : kept k)
    (hseen : k ∉ seen.map Prod.fst) : ∃ q v, s ≤ q ∧ t.SlotOf k (t.place q) ∧
      t.at (t.place q) = some v := by
  obtain ⟨v, hv⟩ := h.maps k hk
  obtain ⟨q, hslot, hat⟩ := exists_place hv
  exact ⟨q, v, (h.kept k hk).resolve_left hseen q hslot, hslot, hat⟩

theorem Visiting.next (h : Visiting t cursor seen kept s) {v : V} (hnext : Next t s (some (k, v))) :
    ∃ q, Visiting t (some k) (seen ++ [(k, v)]) kept (q + 1) := by
  obtain ⟨q, hle, hslot, hat, hbefore⟩ := hnext
  have hnew : k ∉ seen.map Prod.fst := fun hk =>
    absurd (h.seen_lt k hk q hslot) (Nat.not_lt.mpr hle)
  have hmem : ∀ k', k' ∈ (seen ++ [(k, v)]).map Prod.fst ↔ k' ∈ seen.map Prod.fst ∨ k' = k :=
    fun k' => by rw [List.map_append, List.mem_append, List.map_singleton, List.mem_singleton]
  refine ⟨q, h.tracked, .inr ⟨k, q, rfl, rfl, h.tracked.cursor hslot⟩, fun k' hk' q' hslot' => ?_,
    ?_, ?_, h.tracked.place_lt hslot, h.maps, fun k' hk' => ?_⟩
  · obtain hold | rfl := (hmem k').mp hk'
    · have := h.seen_lt k' hold q' hslot'
      omega
    · have := place_injective (h.tracked.slotOf_unique hslot' hslot)
      omega
  · rw [List.map_append, List.map_singleton, List.nodup_append]
    refine ⟨h.nodup, List.nodup_singleton k, fun a ha b hb heq => ?_⟩
    rw [List.mem_singleton] at hb
    rw [heq, hb] at ha
    exact hnew ha
  · rw [List.length_append, List.length_singleton]
    have := h.length_le
    omega
  · rw [hmem]
    by_cases hseen : k' ∈ seen.map Prod.fst
    · exact .inl (.inl hseen)
    by_cases heq : k' = k
    · exact .inl (.inr heq)
    right
    obtain ⟨q', v', hle', hslot', hat'⟩ := h.not_before hk' hseen
    intro q'' hslot''
    rw [place_injective (h.tracked.slotOf_unique hslot'' hslot')]
    -- it is not before the element that was returned, which is another one
    by_contra hlt
    rcases Nat.lt_or_eq_of_le (Nat.le_of_lt_succ (Nat.not_le.mp hlt)) with hlt' | rfl
    · rw [hbefore q' hle' hlt' k' hslot'] at hat'
      cases hat'
    · exact heq (slotOf_inj hslot' hslot)

theorem Traversal.visiting {t₀ : Table N V} (h₀ : Tracked t₀)
    (h : Traversal t₀ cursor seen kept t) : ∃ s, Visiting t cursor seen kept s := by
  induction h with
  | start =>
    exact ⟨0, h₀, .inl ⟨rfl, rfl⟩, fun k hk => absurd hk (by simp), List.nodup_nil, le_rfl,
      Nat.zero_le _, fun _ hk => hk, fun _ _ => .inr fun q _ => Nat.zero_le q⟩
  | change _ op hop hex hstep ih =>
    obtain ⟨s, hs⟩ := ih
    obtain ⟨htracked, hchanged⟩ := hs.tracked.changed op hop hex hstep
    exact ⟨s, hs.change htracked hchanged⟩
  | next _ hnext ih =>
    obtain ⟨s, hs⟩ := ih
    obtain ⟨r, hr, hspec⟩ := hs.luaHNext
    rw [hnext] at hr
    rw [← Except.ok.inj hr] at hspec
    obtain ⟨q, hq⟩ := hs.next hspec
    exact ⟨q + 1, hq⟩

/-- **Traversals.** A traversal of a table with `luaH_next`, during which fields are assigned to and
the collector runs: no call has an error; what a call returns is an element of the table; no key is
returned twice; there are no more calls than places; and at the end all keys were returned that were
never mapped to nil, whether or not the keys before them are dead. -/
theorem traversal_complete {t₀ : Table N V} (h₀ : Reachable t₀)
    (h : Traversal t₀ cursor seen kept t) :
    (∃ r, luaHNext t cursor = .ok r ∧ (∀ k v, r = some (k, v) → t.Maps k v) ∧
      (r = none → ∀ k, kept k → k ∈ seen.map Prod.fst)) ∧
    (seen.map Prod.fst).Nodup ∧ seen.length ≤ t.array.length + t.sizenode := by
  obtain ⟨s, hs⟩ := h.visiting h₀.tracked
  obtain ⟨r, heq, hnext⟩ := hs.luaHNext
  refine ⟨⟨r, heq, fun k v hr => ?_, fun hr k hk => ?_⟩, hs.nodup, hs.length_le.trans hs.le_size⟩
  · rw [hr] at hnext
    obtain ⟨q, -, hslot, hat, -⟩ := hnext
    exact ⟨t.place q, hslot, hat⟩
  · by_contra hseen
    obtain ⟨q, v, hle, hslot, hat⟩ := hs.not_before hk hseen
    rw [hr] at hnext
    rw [hnext q hle k hslot] at hat
    cases hat

/-- A traversal that clears the field it has just come to. -/
theorem traversal_complete_one : ∃ (t₀ t : Table Int32 ℕ) (kept : Key Int32 → Prop),
    Traversal t₀ (some (.number 1)) [(.number 1, 5)] kept t ∧
    (∃ r, luaHNext t (some (.number 1)) = .ok r ∧ (∀ k v, r = some (k, v) → t.Maps k v) ∧
      (r = none → ∀ k, kept k → k ∈ [((.number 1 : Key Int32), 5)].map Prod.fst)) ∧
    ([((.number 1 : Key Int32), 5)].map Prod.fst).Nodup ∧
      [((.number 1 : Key Int32), 5)].length ≤ t.array.length + t.sizenode := by
  have hnew : Reachable (Table.mk [none] (fun _ => {}) 0 0 true : Table Int32 ℕ) :=
    .new (show 1 ≤ maxasize by decide) (show luaHNew 1 0 = _ from rfl)
  have hset : Reachable (Table.mk [some 5] (fun _ => {}) 0 0 true : Table Int32 ℕ) :=
    hnew.step (.setnum 1 (some 5)) trivial trivial rfl
  have hfirst : Traversal (Table.mk [some 5] (fun _ => {}) 0 0 true : Table Int32 ℕ)
      (some (.number 1)) [(.number 1, 5)] _ _ := .next .start rfl
  have hslot : ∃ slot, Table.SlotOf (Table.mk [some 5] (fun _ => {}) 0 0 true : Table Int32 ℕ)
      (.number (ofInt (1 : Int32).toInt)) slot :=
    ⟨_, .array 1 rfl le_rfl le_rfl⟩
  have hcleared := hfirst.change (.setnum 1 none) trivial hslot rfl
  exact ⟨_, _, _, hcleared, traversal_complete hset hcleared⟩

end Visiting

end ELuaBrain.Lua.Tables
