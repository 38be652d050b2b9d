import ELuaBrain.Lua.Rehash

/-!
# Runs on a table

A table under any sequence of assignments, resizes and collections. It keeps its invariant, and
what a lookup finds is what was assigned last; a run ends early only with one of the errors of
`luaH_set`.

## Main definitions

* `Op`, `step`, `run` : what is done to a table.
* `Op.assoc` : the same for an association of keys and values.

## Main results

* `Sound.removeentry`, `Sound.cleartable` : the collector keeps the invariant.
* `step_spec`, `run_spec` : a step and a run refine those on the association.
* `luaHGet_run` : what a lookup after a run finds.
-/

namespace ELuaBrain.Lua.Tables

open Function Links

variable {N V : Type} [LuaNumber N] [DecidableEq N] {t : Table N V} {k : Key N} {i : ℕ}

/-! ### The collector -/

omit [LuaNumber N] [DecidableEq N] in
theorem removeentry_cases (t : Table N V) (i : ℕ) :
    removeentry t i = t ∨ ∃ k p, t.keys i = some k ∧ k.gcvalue = some p ∧
      removeentry t i = t.setNode i { t.node i with key := .dead p } := by
  rw [Tables.removeentry]
  cases hkey : (t.node i).key with
  | nil => exact .inl rfl
  | dead p => exact .inl rfl
  | live k =>
    cases hgc : k.gcvalue with
    | none =>
      left
      dsimp only
      rw [hgc]
    | some p =>
      refine .inr ⟨k, p, keys_eq_some.mpr hkey, hgc, ?_⟩
      dsimp only
      rw [hgc]

/-- A dead key belongs to no chain any more. -/
theorem Sound.removeentry (h : Sound t) (hval : (t.node i).val = none) :
    Sound (removeentry t i) ∧ (∀ k v, (removeentry t i).Maps k v ↔ t.Maps k v) ∧
      ∀ j, j ≠ i → (removeentry t i).node j = t.node j := by
  obtain heq | ⟨k, p, hlive, -, heq⟩ := removeentry_cases t i
  · rw [heq]
    exact ⟨h, fun _ _ => Iff.rfl, fun _ _ => rfl⟩
  · rw [heq]
    set n : Node N V := { t.node i with key := .dead p }
    have hkeys : (t.setNode i n).keys = update t.keys i none := keys_setNode n
    have hnexts : (t.setNode i n).nexts = t.nexts := by
      rw [nexts_setNode]
      exact update_eq_self i t.nexts
    have hfree : (t.setNode i n).Free = t.Free := by
      funext j
      by_cases hj : j = i
      · rw [hj, Table.Free, node_setNode_self, Table.Free, keys_eq_some.mp hlive]
        exact propext (iff_of_false (by rintro ⟨⟩) (by rintro ⟨⟩))
      · rw [Table.Free, node_setNode_of_ne _ hj, Table.Free]
    have hne : ∀ j k', update t.keys i none j = some k' → j ≠ i ∧ t.keys j = some k' :=
      fun j k' hj => by
        have hji : j ≠ i := fun heq => by
          rw [heq, update_self] at hj
          cases hj
        exact ⟨hji, by rwa [update_of_ne hji] at hj⟩
    have hsome : ∀ j v, ((t.setNode i n).node j).val = some v → j ≠ i := fun j v hv heq => by
      rw [heq, node_setNode_self, show n.val = none from hval] at hv
      cases hv
    refine ⟨⟨⟨?_, fun j hj => ?_, fun j v hv => ?_, fun j k' hj => ?_⟩, ?_, h.lastfree_le,
      fun hd => ?_, h.array_le, h.lsizenode_le⟩, ?_, fun j hj => node_setNode_of_ne n hj⟩
    · rw [hnexts, hkeys, hfree]
      exact h.scatter.forget (Finset.notMem_empty i)
    · have hji : j ≠ i := fun heq => Nat.not_lt.mpr hj (by rw [heq]; exact h.keys_lt hlive)
      rw [node_setNode_of_ne _ hji]
      exact h.blank j hj
    · have hji := hsome j v hv
      rw [node_setNode_of_ne _ hji] at hv
      rw [hkeys, update_of_ne hji]
      exact h.value j v hv
    · rw [hkeys] at hj
      rw [inArray_congr (array_setNode n)]
      exact h.apart j k' (hne j k' hj).2
    · rw [hfree]
      exact h.free_lt
    · obtain ⟨hsize, -, hnode⟩ := h.of_dummy hd
      have hlt := h.keys_lt hlive
      rw [Table.sizenode, hsize, pow_zero, Nat.lt_one_iff] at hlt
      rw [hlt, keys_of_free (free_of_blank hnode)] at hlive
      cases hlive
    · refine maps_congr (array_setNode n) fun k' v => ?_
      constructor
      · rintro ⟨j, hj, hv⟩
        rw [hkeys] at hj
        obtain ⟨hji, hj⟩ := hne j k' hj
        rw [node_setNode_of_ne _ hji] at hv
        exact ⟨j, hj, hv⟩
      · rintro ⟨j, hj, hv⟩
        have hji : j ≠ i := fun heq => by
          rw [heq, hval] at hv
          cases hv
        refine ⟨j, ?_, ?_⟩
        · rwa [hkeys, update_of_ne hji]
        · rwa [node_setNode_of_ne _ hji]

/-- `traversetable` changes nothing that a lookup finds. -/
theorem Sound.traverseNodes (n : ℕ) : ∀ {t : Table N V}, Sound t →
    Sound (traverseNodes n t) ∧ ∀ k v, (Tables.traverseNodes n t).Maps k v ↔ t.Maps k v := by
  induction n with
  | zero => exact fun h => ⟨h, fun _ _ => Iff.rfl⟩
  | succ n ih =>
    intro t h
    rw [Tables.traverseNodes]
    split_ifs with hval
    · obtain ⟨hsound, hmaps, -⟩ := h.removeentry (Option.isNone_iff_eq_none.mp hval)
      exact ⟨(ih hsound).1, fun k v => ((ih hsound).2 k v).trans (hmaps k v)⟩
    · exact ih h

/-- The elements of the array part are filtered. -/
theorem Sound.filterArray (h : Sound t) (p : V → Bool) :
    Sound { t with array := t.array.map fun o => o.filter p } ∧
      ∀ k v, Table.Maps { t with array := t.array.map fun o => o.filter p } k v ↔
        t.Maps k v ∧ (t.InArray k → p v = true) := by
  have hlen : (t.array.map fun o => o.filter p).length = t.array.length := List.length_map _
  have hin : ∀ k : Key N, Table.InArray { t with array := t.array.map fun o => o.filter p } k ↔
      t.InArray k := fun k => by
    rw [Table.InArray, Table.InArray]
    dsimp only
    rw [hlen]
  refine ⟨⟨⟨h.scatter, h.blank, h.value, fun i k hk => ?_⟩, h.free_lt, h.lastfree_le, h.of_dummy,
    ?_, h.lsizenode_le⟩, fun k v => ?_⟩
  · rw [hin]
    exact h.apart i k hk
  · dsimp only
    rw [hlen]
    exact h.array_le
  · have hget : ∀ i, (t.array.map fun o => o.filter p).getD i none =
        (t.array.getD i none).filter p := fun i => by
      rw [List.getD_eq_getElem?_getD, List.getElem?_map, List.getD_eq_getElem?_getD]
      cases t.array[i]? <;> rfl
    rw [maps_iff, maps_iff, Table.ArrayMaps, Table.ArrayMaps]
    dsimp only
    simp only [hlen, hget, Option.filter_eq_some_iff]
    constructor
    · rintro (⟨m, hm, hand, hv, hp⟩ | ⟨j, hj, hv⟩)
      · exact ⟨.inl ⟨m, hm, hand, hv⟩, fun _ => hp⟩
      · exact ⟨.inr ⟨j, hj, hv⟩, fun hin' => absurd hin' (h.apart j k hj)⟩
    · rintro ⟨⟨m, hm, hand, hv⟩ | ⟨j, hj, hv⟩, hp⟩
      · exact .inl ⟨m, hm, hand, hv, hp ⟨m, hm, hand⟩⟩
      · exact .inr ⟨j, hj, hv⟩

section Clear

variable (iswhite : UInt32 → Bool) (iscleared : V → Bool)

/-- The entry is collected. -/
def Key.collects (k : Key N) (v : V) : Bool := k.iscleared iswhite || iscleared v

/-- The nodes below `n` are cleared. -/
theorem Sound.clearNodes (n : ℕ) : ∀ {t : Table N V}, Sound t →
    Sound (clearNodes iswhite iscleared n t) ∧
      ∀ k v, (Tables.clearNodes iswhite iscleared n t).Maps k v ↔ t.Maps k v ∧
        ∀ j, j < n → t.keys j = some k → k.collects iswhite iscleared v = false := by
  induction n with
  | zero =>
    exact fun h => ⟨h, fun _ _ => (and_iff_left fun j hj => absurd hj (Nat.not_lt_zero j)).symm⟩
  | succ n ih =>
    intro t h
    rw [Tables.clearNodes]
    have hlt : ∀ k v, (∀ j, j < n + 1 → t.keys j = some k →
        k.collects iswhite iscleared v = false) ↔
        (∀ j, j < n → t.keys j = some k → k.collects iswhite iscleared v = false) ∧
          (t.keys n = some k → k.collects iswhite iscleared v = false) := fun k v => by
      constructor
      · exact fun hall => ⟨fun j hj => hall j (by omega), hall n (Nat.lt_succ_self n)⟩
      · rintro ⟨hall, hn⟩ j hj
        rcases Nat.lt_succ_iff_lt_or_eq.mp hj with hj | rfl
        · exact hall j hj
        · exact hn
    split_ifs with hclear
    · obtain ⟨v, hv, hcleared⟩ := Option.any_eq_true _ _ |>.mp hclear
      obtain ⟨k, hk⟩ := h.value n v hv
      have hlive := keys_eq_some.mp hk
      rw [hlive] at hcleared
      obtain ⟨hwrite, hmaps⟩ := h.write none (.node n hk)
      obtain ⟨hsound, hmaps', hnode⟩ := hwrite.removeentry (i := n)
        (by rw [Table.write, node_setNode_self])
      obtain ⟨hsound', hmaps''⟩ := ih hsound
      refine ⟨hsound', fun k' v' => ?_⟩
      have hkeys : ∀ j, j < n → (Tables.removeentry (t.write (.node n) none) n).keys j =
          t.keys j := fun j hj => by
        rw [Table.keys, hnode j hj.ne, Table.write, node_setNode_of_ne _ hj.ne]
        rfl
      have hbelow : (∀ j, j < n → (Tables.removeentry (t.write (.node n) none) n).keys j =
          some k' → k'.collects iswhite iscleared v' = false) ↔
          ∀ j, j < n → t.keys j = some k' → k'.collects iswhite iscleared v' = false :=
        forall₂_congr fun j hj => by rw [hkeys j hj]
      rw [show t.setNode n { t.node n with val := none } = t.write (.node n) none from rfl,
        hmaps'' k' v', hmaps' k' v', hmaps k' v', hbelow, hlt k' v']
      split_ifs with hkk
      · -- the entry of this node is the one that is gone
        refine iff_of_false (by rintro ⟨⟨⟩, -⟩) ?_
        rintro ⟨⟨slot, hslot, hat⟩, -, hnot⟩
        rw [hkk] at hslot hnot
        rw [h.slotOf_unique hslot (.node n hk), Table.at, hv] at hat
        rw [← Option.some_inj.mp hat] at hnot
        rw [Key.collects, show (k.iscleared iswhite || iscleared v) = true from hcleared] at hnot
        cases hnot hk
      · have hout : t.keys n ≠ some k' := fun hn =>
          hkk (Option.some_inj.mp (hn.symm.trans hk))
        rw [← and_assoc, and_iff_left fun hn => absurd hn hout]
    · obtain ⟨hsound, hmaps⟩ := ih h
      refine ⟨hsound, fun k v => ?_⟩
      rw [hmaps k v, hlt k v, ← and_assoc]
      refine (and_iff_left_of_imp ?_).symm
      rintro ⟨⟨slot, hslot, hat⟩, -⟩ hk
      rw [h.slotOf_unique hslot (.node n hk), Table.at] at hat
      rw [hat, keys_eq_some.mp hk, Option.any_some, Bool.not_eq_true] at hclear
      exact hclear

theorem Key.iscleared_of_arrayindex {m : ℤ} (h : arrayindex k = some m) :
    k.iscleared iswhite = false := by
  cases k with
  | number n => rfl
  | boolean b => cases h
  | string ts => cases h
  | pointer tag p => cases h

/-- **`cleartable`** removes the entries that are collected, and no others. -/
theorem Sound.cleartable (h : Sound t) (weakvalue : Bool)
    (hstrong : weakvalue = false → ∀ v, iscleared v = false) :
    Sound (cleartable iswhite iscleared weakvalue t) ∧
      ∀ k v, (Tables.cleartable iswhite iscleared weakvalue t).Maps k v ↔
        t.Maps k v ∧ k.collects iswhite iscleared v = false := by
  have harray : ∀ k v, t.InArray k → (k.collects iswhite iscleared v = false ↔
      iscleared v = false) := fun k v ⟨m, hm, _⟩ => by
    rw [Key.collects, Key.iscleared_of_arrayindex iswhite hm, Bool.false_or]
  have hnodes : ∀ k v, t.Maps k v → ((∀ j, j < t.sizenode → t.keys j = some k →
      k.collects iswhite iscleared v = false) ↔
      (¬t.InArray k → k.collects iswhite iscleared v = false)) := fun k v ⟨slot, hslot, _⟩ => by
    constructor
    · intro hall hout
      obtain ⟨j, -, hj⟩ := (Hashed.slotOf_iff_of_not_inArray hout).mp hslot
      exact hall j (h.keys_lt hj) hj
    · exact fun hout j _ hj => hout (h.apart j k hj)
  rw [Tables.cleartable]
  cases weakvalue with
  | true =>
    obtain ⟨hsound, hmaps⟩ := h.filterArray fun v => !iscleared v
    obtain ⟨hsound', hmaps'⟩ := hsound.clearNodes iswhite iscleared t.sizenode
    refine ⟨hsound', fun k v => ?_⟩
    rw [if_pos rfl, hmaps' k v, hmaps k v, and_assoc, and_congr_right_iff]
    intro hk
    refine (and_congr_right' (hnodes k v hk)).trans ?_
    rw [Bool.not_eq_true']
    constructor
    · rintro ⟨hin, hout⟩
      by_cases hk' : t.InArray k
      · exact (harray k v hk').mpr (hin hk')
      · exact hout hk'
    · exact fun hnot => ⟨fun hin => (harray k v hin).mp hnot, fun _ => hnot⟩
  | false =>
    obtain ⟨hsound', hmaps'⟩ := h.clearNodes iswhite iscleared t.sizenode
    refine ⟨hsound', fun k v => ?_⟩
    rw [if_neg Bool.false_ne_true, hmaps' k v, and_congr_right_iff]
    intro hk
    rw [hnodes k v hk]
    refine ⟨fun hout => ?_, fun hnot _ => hnot⟩
    by_cases hin : t.InArray k
    · exact (harray k v hin).mpr (hstrong rfl v)
    · exact hout hin

end Clear

/-! ### A new table -/

/-- **`luaH_new`** makes an empty table. -/
theorem luaHNew_spec {narray : ℕ} (hmax : narray ≤ maxasize) (nhash : ℕ) :
    (luaHNew narray nhash : Except Fault (Table N V)) = .error .tableOverflow ∧
        2 ^ maxbits < nhash ∨
      ∃ t : Table N V, luaHNew narray nhash = .ok t ∧ Sound t ∧ ∀ k v, ¬t.Maps k v := by
  have hget : ∀ i, (List.replicate narray (none : Option V)).getD i none = none := fun i => by
    rw [List.getD_eq_getElem?_getD, List.getElem?_replicate]
    split_ifs <;> rfl
  have hscatter : ∀ l, Scatter (mainposition l : Key N → ℕ) (fun _ : ℕ => none) (fun _ => none)
      (fun _ => True) ∅ := fun l =>
    Scatter.unlinked (fun _ _ => rfl)
      (fun i => iff_of_false (Finset.notMem_empty i) fun ⟨_, hk, _⟩ => by cases hk)
      fun _ _ _ hk => by cases hk
  have hsound : ∀ (l last : ℕ) (dummy : Bool), last ≤ 2 ^ l → (dummy = false → last = 2 ^ l) →
      (dummy = true → l = 0 ∧ last = 0) → l ≤ maxbits →
      Sound (Table.mk (List.replicate narray none) (fun _ => ({} : Node N V)) l last dummy) ∧
        ∀ k v, ¬Table.Maps (Table.mk (List.replicate narray none) (fun _ => ({} : Node N V)) l last
          dummy) k v := fun l last dummy hle hlast hdummy hl => by
    refine ⟨⟨⟨?_, fun _ _ => rfl, fun _ _ hv => ?_, fun _ _ hk => ?_⟩, fun hd i hi _ => ?_, hle,
      fun hd => ⟨(hdummy hd).1, (hdummy hd).2, rfl⟩, ?_, hl⟩, ?_⟩
    · have hfree : (Table.mk (List.replicate narray none) (fun _ => ({} : Node N V)) l last
          dummy).Free = fun _ => True := by
        funext i
        exact eq_true rfl
      rw [hfree]
      exact hscatter l
    · cases hv
    · cases hk
    · exact lt_of_lt_of_eq hi (hlast hd).symm
    · exact (List.length_replicate ..).trans_le hmax
    · rintro k v ⟨slot, hslot, hat⟩
      cases hslot with
      | array j hj hpos hle =>
        rw [Table.at, hget] at hat
        cases hat
      | node i hi => cases hi
  have harray : (setarrayvector (Table.mk [] (fun _ => ({} : Node N V)) 0 0 true) narray).array =
      List.replicate narray none := by
    rw [setarrayvector, List.take_nil, List.nil_append, List.length_nil, Nat.sub_zero]
  rw [luaHNew, resizenodevector, harray]
  by_cases hzero : nhash = 0
  · obtain ⟨h, hmaps⟩ := hsound 0 0 true (Nat.zero_le _) (by rintro ⟨⟩) (fun _ => ⟨rfl, rfl⟩)
      (Nat.zero_le _)
    rw [if_pos hzero]
    exact .inr ⟨_, rfl, h, hmaps⟩
  rw [if_neg hzero]
  by_cases hover : maxbits < ceillog2 nhash
  · refine .inl ⟨if_pos hover, ?_⟩
    by_contra hge
    exact absurd (ceillog2_le (Nat.le_of_not_lt hge)) (Nat.not_le.mpr hover)
  · obtain ⟨h, hmaps⟩ := hsound (ceillog2 nhash) (2 ^ ceillog2 nhash) false le_rfl (fun _ => rfl)
      (by rintro ⟨⟩) (Nat.le_of_not_lt hover)
    rw [if_neg hover]
    refine .inr ⟨_, ?_, h, hmaps⟩
    congr 2

/-! ### Steps -/

/-- What is done to a table. -/
inductive Op (N V : Type) where
  /-- `luaH_set` and an assignment. -/
  | set (key : Option (Key N)) (v : Option V)
  /-- `luaH_setnum` and an assignment. -/
  | setnum (key : Int32) (v : Option V)
  /-- `luaH_setstr` and an assignment. -/
  | setstr (ts : TString) (v : Option V)
  /-- What `OP_SETLIST` does before the assignments. -/
  | resizearray (last : ℕ)
  | traverse
  | clear (iswhite : UInt32 → Bool) (iscleared : V → Bool) (weakvalue : Bool)

/-- An assignment to where a key is. -/
def assign (v : Option V) (r : Except Fault (Table N V × Slot)) : Except Fault (Table N V) := do
  let (t, slot) ← r
  pure (t.write slot v)

def step (t : Table N V) : Op N V → Except Fault (Table N V)
  | .set key v => assign v (luaHSet t key)
  | .setnum key v => assign v (luaHSetnum t key.toInt)
  | .setstr ts v => assign v (luaHSetstr t ts)
  | .resizearray last => if t.array.length < last then luaHResizearray t last else .ok t
  | .traverse => .ok (traversetable t)
  | .clear iswhite iscleared weakvalue => .ok (cleartable iswhite iscleared weakvalue t)

def run (t : Table N V) (ops : List (Op N V)) : Except Fault (Table N V) := ops.foldlM step t

/-- The array part has no more than so many elements, and strong values are not cleared. -/
def Op.Allowed : Op N V → Prop
  | .resizearray last => last ≤ maxasize
  | .clear _ iscleared weakvalue => weakvalue = false → ∀ v, iscleared v = false
  | _ => True

/-- What is done to an association of keys and values. -/
def Op.assoc (m : Key N → Option V) : Op N V → Key N → Option V
  | .set (some key) v => update m key v
  | .set none _ => m
  | .setnum key v => update m (.number (ofInt key.toInt)) v
  | .setstr ts v => update m (.string ts) v
  | .resizearray _ => m
  | .traverse => m
  | .clear iswhite iscleared _ => fun k => (m k).filter fun v => !k.collects iswhite iscleared v

/-- The errors that stop a table operation. -/
def Op.Fails (op : Op N V) (t : Table N V) (e : Fault) : Prop :=
  (∃ v, op = .set none v) ∧ e = .indexIsNil ∨
    (∃ key v, op = .set (some key) v ∧ key.isNaN = true) ∧ e = .indexIsNaN ∨
    e = .tableOverflow ∧ 2 ^ maxbits ≤ t.entries

/-- The table maps the keys as the association does. -/
def Table.Refines (t : Table N V) (m : Key N → Option V) : Prop :=
  ∀ k v, t.Maps k v ↔ m k = some v

theorem Assigns.step {m : Key N → Option V} {key : Key N}
    {r : Except Fault (Table N V × Slot)} (h : Assigns t key r) (hm : t.Refines m)
    (v : Option V) :
    (∃ t', assign v r = .ok t' ∧ Sound t' ∧ t'.Refines (update m key v)) ∨
      assign v r = .error .tableOverflow ∧ 2 ^ maxbits ≤ t.entries := by
  obtain ⟨heq, hover⟩ | ⟨t', slot, heq, hlocated⟩ := h
  · rw [heq]
    exact .inr ⟨rfl, hover⟩
  · obtain ⟨hsound, hmaps⟩ := hlocated.sound.write v hlocated.slotOf
    rw [heq]
    refine .inl ⟨_, rfl, hsound, fun k v' => ?_⟩
    rw [hmaps k v', update_apply]
    split_ifs with hk
    · rfl
    · rw [hlocated.maps k v', hm k v']

/-- **A step.** It does to the table what it does to the association, or fails. -/
theorem step_spec (h : Sound t) {m : Key N → Option V} (hm : t.Refines m) (op : Op N V)
    (hop : op.Allowed) :
    (∃ t', step t op = .ok t' ∧ Sound t' ∧ t'.Refines (op.assoc m)) ∨
      ∃ e, step t op = .error e ∧ op.Fails t e := by
  cases op with
  | set key v =>
    cases key with
    | none => exact .inr ⟨_, rfl, .inl ⟨⟨v, rfl⟩, rfl⟩⟩
    | some key =>
      cases hnan : key.isNaN with
      | true =>
        obtain ⟨slot, hget, hslot⟩ | ⟨hget, hnone⟩ := luaHGet_spec h.toHashed key
        · -- there is no such key in a table that was made by assignments, but it does no harm
          have hset : luaHSet t (some key) = .ok (t, slot) := by
            unfold luaHSet luaHSetWith
            rw [hget]
            rfl
          have hassigns : Assigns t key (luaHSet t (some key)) :=
            .inr ⟨t, slot, hset, h, hslot, fun _ _ => Iff.rfl,
              fun j _ hk => .inr (.inl ⟨j, hk⟩), id⟩
          exact (hassigns.step hm v).imp_right fun ⟨heq, hover⟩ =>
            ⟨_, heq, .inr (.inr ⟨rfl, hover⟩)⟩
        · refine .inr ⟨.indexIsNaN, ?_, .inr (.inl ⟨⟨key, v, rfl, hnan⟩, rfl⟩)⟩
          rw [step, (luaHSet_error h).2 key hnan hnone]
          rfl
      | false =>
        exact ((luaHSet_spec h hnan).step hm v).imp_right fun ⟨heq, hover⟩ =>
          ⟨_, heq, .inr (.inr ⟨rfl, hover⟩)⟩
  | setnum key v =>
    exact ((luaHSetnum_spec h key.le_toInt key.toInt_lt).step hm v).imp_right fun ⟨heq, hover⟩ =>
      ⟨_, heq, .inr (.inr ⟨rfl, hover⟩)⟩
  | setstr ts v =>
    exact ((luaHSetstr_spec h ts).step hm v).imp_right fun ⟨heq, hover⟩ =>
      ⟨_, heq, .inr (.inr ⟨rfl, hover⟩)⟩
  | resizearray last =>
    rw [step]
    split_ifs with hlt
    · obtain ⟨t', heq, hres⟩ := luaHResizearray_spec h hlt hop
      exact .inl ⟨t', heq, hres.sound, fun k v => (hres.maps k v).trans (hm k v)⟩
    · exact .inl ⟨t, rfl, h, hm⟩
  | traverse =>
    obtain ⟨hsound, hmaps⟩ := h.traverseNodes t.sizenode
    exact .inl ⟨_, rfl, hsound, fun k v => (hmaps k v).trans (hm k v)⟩
  | clear iswhite iscleared weakvalue =>
    obtain ⟨hsound, hmaps⟩ := h.cleartable iswhite iscleared weakvalue hop
    refine .inl ⟨_, rfl, hsound, fun k v => ?_⟩
    rw [hmaps k v, hm k v, Op.assoc, Option.filter_eq_some_iff, Bool.not_eq_true']

/-! ### Runs -/

/-- The run stops at an operation that fails. -/
def Stops (t : Table N V) (ops : List (Op N V)) : Prop :=
  ∃ before op after t₁ e, ops = before ++ op :: after ∧ run t before = .ok t₁ ∧
    run t ops = .error e ∧ op.Fails t₁ e

theorem run_cons (op : Op N V) (ops : List (Op N V)) :
    run t (op :: ops) = step t op >>= fun t' => run t' ops := List.foldlM_cons ..

/-- **A run** does to the table what it does to the association, or stops. -/
theorem run_spec (ops : List (Op N V)) : ∀ {t : Table N V} {m : Key N → Option V}, Sound t →
    t.Refines m → (∀ op ∈ ops, op.Allowed) →
    (∃ t', run t ops = .ok t' ∧ Sound t' ∧ t'.Refines (ops.foldl Op.assoc m)) ∨ Stops t ops := by
  induction ops with
  | nil => exact fun {t} _ h hm _ => .inl ⟨t, rfl, h, hm⟩
  | cons op ops ih =>
    intro t m h hm hops
    obtain ⟨t₁, heq, h₁, hm₁⟩ | ⟨e, heq, hfails⟩ := step_spec h hm op (hops op List.mem_cons_self)
    · have hrun : run t (op :: ops) = run t₁ ops := by rw [run_cons, heq]; rfl
      obtain ⟨t', hok, h', hm'⟩ | ⟨before, op', after, t₂, e, hsplit, hbefore, herror, hfails⟩ :=
        ih h₁ hm₁ fun op' hop' => hops op' (List.mem_cons_of_mem _ hop')
      · exact .inl ⟨t', hrun.trans hok, h', hm'⟩
      · refine .inr ⟨op :: before, op', after, t₂, e, by rw [hsplit]; rfl, ?_,
          hrun.trans herror, hfails⟩
        rw [run_cons, heq]
        exact hbefore
    · refine .inr ⟨[], op, ops, t, e, rfl, rfl, ?_, hfails⟩
      rw [run_cons, heq]
      rfl

/-- What `luaH_get` finds in a table that refines an association. -/
theorem Table.Refines.luaHGet {m : Key N → Option V} (h : Sound t) (hm : t.Refines m)
    (k : Key N) : ∃ slot, luaHGet t (some k) = .ok slot ∧ slot.bind t.at = m k := by
  obtain ⟨slot, heq, hslot⟩ | ⟨heq, hnone⟩ := luaHGet_spec h.toHashed k
  · refine ⟨some slot, heq, Option.ext fun v => ?_⟩
    rw [← hm k v, Option.bind_some]
    constructor
    · exact fun hat => ⟨slot, hslot, hat⟩
    · rintro ⟨slot', hslot', hat⟩
      rwa [h.slotOf_unique hslot' hslot] at hat
  · refine ⟨none, heq, Option.ext fun v => ?_⟩
    rw [← hm k v, Option.bind_none]
    exact iff_of_false (Option.some_ne_none v).symm fun ⟨slot, hslot, _⟩ => hnone slot hslot

section New

variable {narray nhash : ℕ}

theorem refines_new (hmax : narray ≤ maxasize) (hnew : luaHNew narray nhash = .ok t) :
    Sound t ∧ t.Refines fun _ => none := by
  obtain ⟨herror, -⟩ | ⟨t', heq, h, hmaps⟩ := luaHNew_spec (N := N) (V := V) hmax nhash
  · rw [hnew] at herror
    cases herror
  · rw [hnew] at heq
    rw [Except.ok.inj heq]
    exact ⟨h, fun k v => iff_of_false (hmaps k v) (Option.some_ne_none v).symm⟩

/-- The table after a run from a new one. -/
theorem run_ok (hmax : narray ≤ maxasize) (hnew : luaHNew narray nhash = .ok t)
    (ops : List (Op N V)) (hops : ∀ op ∈ ops, op.Allowed) {t' : Table N V}
    (hrun : run t ops = .ok t') :
    Sound t' ∧ t'.Refines (ops.foldl Op.assoc fun _ => none) := by
  obtain ⟨h, hm⟩ := refines_new hmax hnew
  obtain ⟨t₁, hok, h', hm'⟩ | ⟨_, _, _, _, e, _, _, herror, -⟩ := run_spec ops h hm hops
  · rw [hrun] at hok
    rw [Except.ok.inj hok]
    exact ⟨h', hm'⟩
  · rw [hrun] at herror
    cases herror

/-- **Lookups after a run.** A table is what was assigned to it: whatever is assigned to it, in
whatever order, however its keys collide, and however often it is rehashed, resized and collected,
a lookup of a key ends and finds what was assigned to it last. A run stops only for a key that is
nil or NaN, or for a table with too many elements. -/
theorem luaHGet_run (hmax : narray ≤ maxasize) (hnew : luaHNew narray nhash = .ok t)
    (ops : List (Op N V)) (hops : ∀ op ∈ ops, op.Allowed) :
    (∃ t', run t ops = .ok t' ∧ ∀ k, ∃ slot, luaHGet t' (some k) = .ok slot ∧
      slot.bind t'.at = ops.foldl Op.assoc (fun _ => none) k) ∨ Stops t ops := by
  obtain ⟨h, hm⟩ := refines_new hmax hnew
  obtain ⟨t', hrun, h', hm'⟩ | hstops := run_spec ops h hm hops
  · exact .inl ⟨t', hrun, fun k => hm'.luaHGet h' k⟩
  · exact .inr hstops

/-- The lookups after an assignment and its removal. -/
theorem luaHGet_run_pair : ∃ t : Table Int32 ℕ, luaHNew 1 0 = .ok t ∧
    ((∃ t', run t [.setnum 1 (some 5), .set (some (.boolean true)) none] = .ok t' ∧
      ∀ k, ∃ slot, luaHGet t' (some k) = .ok slot ∧ slot.bind t'.at =
        [.setnum 1 (some 5), .set (some (.boolean true)) none].foldl Op.assoc
          (fun _ => none) k) ∨
      Stops t [.setnum 1 (some 5), .set (some (.boolean true)) none]) :=
  ⟨_, rfl, luaHGet_run (show 1 ≤ maxasize by decide) (show luaHNew 1 0 = _ from rfl) _
    (by simp [Op.Allowed])⟩

/-- **The chains after a run.** Every key of a node is on the chain that starts at its main
position, and the key there is in its own main position; no chain has a cycle, no node is behind two
nodes, and no key is in two nodes, or in a node and in the array part. -/
theorem chains_run (hmax : narray ≤ maxasize) (hnew : luaHNew narray nhash = .ok t)
    (ops : List (Op N V)) (hops : ∀ op ∈ ops, op.Allowed) {t' : Table N V}
    (hrun : run t ops = .ok t') :
    (∀ i k, (t'.node i).key = .live k → i < t'.sizenode ∧
      Reaches t'.nexts (mainposition t'.lsizenode k) i ∧ ¬t'.InArray k ∧
      ∀ k', (t'.node (mainposition t'.lsizenode k)).key = .live k' →
        mainposition t'.lsizenode k' = mainposition t'.lsizenode k) ∧
    (∀ i, ¬Relation.TransGen (fun p q => t'.nexts p = some q) i i) ∧
    (∀ i j n, t'.nexts i = some n → t'.nexts j = some n → i = j) ∧
    ∀ i j k, (t'.node i).key = .live k → (t'.node j).key = .live k → i = j := by
  obtain ⟨h', -⟩ := run_ok hmax hnew ops hops hrun
  refine ⟨fun i k hk => ?_, h'.scatter.ranked.acyclic, h'.scatter.linked, fun i j k hi hj => ?_⟩
  · have hkey := keys_eq_some.mpr hk
    exact ⟨h'.keys_lt hkey, h'.scatter.reach i k hkey (Finset.notMem_empty i), h'.apart i k hkey,
      fun k' hk' => (h'.scatter.home i k hkey (Finset.notMem_empty i)).2 k' (keys_eq_some.mpr hk')⟩
  · exact h'.scatter.unique i j k (keys_eq_some.mpr hi) (keys_eq_some.mpr hj)

/-- The chains of a table with two nodes. -/
theorem chains_run_one : ∃ t t' : Table Int32 ℕ, luaHNew 0 2 = .ok t ∧
    run t [.set (some (.boolean true)) (some 7)] = .ok t' ∧
    (∀ i k, (t'.node i).key = .live k → i < t'.sizenode ∧
      Reaches t'.nexts (mainposition t'.lsizenode k) i ∧ ¬t'.InArray k ∧
      ∀ k', (t'.node (mainposition t'.lsizenode k)).key = .live k' →
        mainposition t'.lsizenode k' = mainposition t'.lsizenode k) ∧
    (∀ i, ¬Relation.TransGen (fun p q => t'.nexts p = some q) i i) ∧
    (∀ i j n, t'.nexts i = some n → t'.nexts j = some n → i = j) ∧
    ∀ i j k, (t'.node i).key = .live k → (t'.node j).key = .live k → i = j :=
  ⟨_, _, rfl, rfl, chains_run (show 0 ≤ maxasize by decide)
    (show luaHNew 0 2 = _ from rfl) [.set (some (.boolean true)) (some 7)]
    (by simp [Op.Allowed]) rfl⟩

end New

end ELuaBrain.Lua.Tables
