import ELuaBrain.Lua.Table
import ELuaBrain.System.Scatter

/-!
# The chains of a table

The invariant of a table: its hash part is a chained scatter table, and no key is in both parts.

## Main definitions

* `Hashed`, `Sound` : the invariant of the hash part, and of a table.
* `SlotOf`, `Maps` : where a key is, and what it is mapped to.

## Main results

* `luaHGet_spec` : what `luaH_get` finds.
* `newkeyWith_spec` : what `newkey` does.
-/

namespace ELuaBrain.Lua.Tables

open Function Links

/-! ### Nodes -/

section Nodes

variable {N V : Type} {t : Table N V} {k : Key N} {i j : ℕ}

/-- The key of a node that is not nil and not dead. -/
def NodeKey.get? : NodeKey N → Option (Key N)
  | .live k => some k
  | _ => none

/-- The keys of the nodes. -/
def Table.keys (t : Table N V) (i : ℕ) : Option (Key N) := (t.node i).key.get?

/-- The nodes without a key. -/
def Table.Free (t : Table N V) (i : ℕ) : Prop := (t.node i).key = .nil

theorem NodeKey.get?_eq_some {nk : NodeKey N} : nk.get? = some k ↔ nk = .live k := by
  cases nk with
  | nil => exact iff_of_false (Option.some_ne_none k).symm (by rintro ⟨⟩)
  | dead p => exact iff_of_false (Option.some_ne_none k).symm (by rintro ⟨⟩)
  | live k' =>
    rw [NodeKey.get?, NodeKey.live.injEq]
    exact Option.some_inj

theorem keys_eq_some : t.keys i = some k ↔ (t.node i).key = .live k := NodeKey.get?_eq_some

theorem keys_of_free (h : t.Free i) : t.keys i = none := by
  rw [Table.keys, show (t.node i).key = .nil from h]
  rfl

theorem free_of_blank (h : t.node i = {}) : t.Free i := by
  rw [Table.Free, h]

@[simp]
theorem nexts_setNode (n : Node N V) : (t.setNode i n).nexts = update t.nexts i n.next := by
  funext j
  by_cases h : j = i
  · subst h
    simp [Table.nexts, Table.setNode]
  · simp [Table.nexts, Table.setNode, h]

@[simp]
theorem keys_setNode (n : Node N V) : (t.setNode i n).keys = update t.keys i n.key.get? := by
  funext j
  by_cases h : j = i
  · subst h
    simp [Table.keys, Table.setNode]
  · simp [Table.keys, Table.setNode, h]

@[simp]
theorem node_setNode_self (n : Node N V) : (t.setNode i n).node i = n := update_self ..

theorem node_setNode_of_ne (n : Node N V) (h : j ≠ i) : (t.setNode i n).node j = t.node j :=
  update_of_ne h ..

theorem setNode_idem (n n' : Node N V) : (t.setNode i n).setNode i n' = t.setNode i n' := by
  rw [Table.setNode, Table.setNode, Table.setNode]
  dsimp only
  rw [update_idem]

@[simp]
theorem lsizenode_setNode (n : Node N V) : (t.setNode i n).lsizenode = t.lsizenode := rfl

@[simp]
theorem sizenode_setNode (n : Node N V) : (t.setNode i n).sizenode = t.sizenode := rfl

@[simp]
theorem array_setNode (n : Node N V) : (t.setNode i n).array = t.array := rfl

@[simp]
theorem lastfree_setNode (n : Node N V) : (t.setNode i n).lastfree = t.lastfree := rfl

@[simp]
theorem dummy_setNode (n : Node N V) : (t.setNode i n).dummy = t.dummy := rfl

/-! ### Assigning -/

variable {slot : Slot} (v : Option V)

@[simp]
theorem lsizenode_write : (t.write slot v).lsizenode = t.lsizenode := by
  cases slot <;> rfl

@[simp]
theorem dummy_write : (t.write slot v).dummy = t.dummy := by
  cases slot <;> rfl

@[simp]
theorem lastfree_write : (t.write slot v).lastfree = t.lastfree := by
  cases slot <;> rfl

@[simp]
theorem length_array_write : (t.write slot v).array.length = t.array.length := by
  cases slot with
  | array i => exact List.length_set
  | node i => rfl

@[simp]
theorem key_write (j : ℕ) : ((t.write slot v).node j).key = (t.node j).key := by
  cases slot with
  | array i => rfl
  | node i =>
    by_cases hj : j = i
    · rw [hj, Table.write, node_setNode_self]
    · rw [Table.write, node_setNode_of_ne _ hj]

@[simp]
theorem keys_write : (t.write slot v).keys = t.keys := by
  funext j
  rw [Table.keys, key_write, Table.keys]

@[simp]
theorem nexts_write : (t.write slot v).nexts = t.nexts := by
  cases slot with
  | array i => rfl
  | node i =>
    rw [Table.write, nexts_setNode]
    exact update_eq_self i t.nexts

@[simp]
theorem free_write : (t.write slot v).Free = t.Free := by
  cases slot with
  | array i => rfl
  | node i =>
    funext j
    by_cases hj : j = i
    · rw [hj, Table.Free, Table.write, node_setNode_self, Table.Free]
    · rw [Table.Free, Table.write, node_setNode_of_ne _ hj, Table.Free]

/-- Another slot keeps what it holds. -/
theorem at_write_of_ne {slot' : Slot} (hne : slot' ≠ slot) :
    (t.write slot v).at slot' = t.at slot' := by
  cases slot with
  | array i =>
    cases slot' with
    | array i' =>
      have hi : i ≠ i' := fun heq => hne (by rw [heq])
      rw [Table.at, Table.write, Table.at, List.getD_eq_getElem?_getD,
        List.getElem?_set_ne hi, List.getD_eq_getElem?_getD]
    | node i' => rfl
  | node i =>
    cases slot' with
    | array i' => rfl
    | node i' =>
      have hi : i' ≠ i := fun heq => hne (by rw [heq])
      rw [Table.at, Table.write, node_setNode_of_ne _ hi, Table.at]

end Nodes

variable {N V : Type} [LuaNumber N] [DecidableEq N] {t : Table N V} {k : Key N} {i j : ℕ}
  {pending : Finset ℕ}

/-! ### The invariant -/

/-- The key belongs to the array part. -/
def Table.InArray (t : Table N V) (k : Key N) : Prop :=
  ∃ j, arrayindex k = some j ∧ 1 ≤ j ∧ j ≤ t.array.length

/-- The invariant of the hash part, where some keys may be on no chain yet. -/
structure Hashed (t : Table N V) (pending : Finset ℕ) : Prop where
  scatter : Scatter (mainposition t.lsizenode) t.nexts t.keys t.Free pending
  blank : ∀ i, t.sizenode ≤ i → t.node i = {}
  value : ∀ i v, (t.node i).val = some v → ∃ k, t.keys i = some k
  apart : ∀ i k, t.keys i = some k → ¬t.InArray k

/-- The invariant of a table. -/
structure Sound (t : Table N V) : Prop extends Hashed t ∅ where
  free_lt : t.dummy = false → ∀ i, i < t.sizenode → t.Free i → i < t.lastfree
  lastfree_le : t.lastfree ≤ t.sizenode
  of_dummy : t.dummy = true → t.lsizenode = 0 ∧ t.lastfree = 0 ∧ t.node 0 = {}
  array_le : t.array.length ≤ maxasize
  lsizenode_le : t.lsizenode ≤ maxbits

/-- A node may be mistaken for that of a key: it has a dead key with the same address. -/
def Table.Shadows (t : Table N V) (k : Key N) (i : ℕ) : Prop :=
  ∃ p, k.gcvalue = some p ∧ (t.node i).key = .dead p

/-- A search that stops at dead keys finds a key first. -/
def Fresh (t : Table N V) : Prop :=
  Unshadowed (mainposition t.lsizenode) t.nexts t.keys t.Shadows

/-- Where a key is. -/
inductive Table.SlotOf (t : Table N V) (k : Key N) : Slot → Prop
  | array (j : ℤ) (hj : arrayindex k = some j) (hpos : 1 ≤ j) (hle : j ≤ t.array.length) :
      t.SlotOf k (.array (j - 1).toNat)
  | node (i : ℕ) (hi : t.keys i = some k) : t.SlotOf k (.node i)

/-- What a key is mapped to, if it is not nil. -/
def Table.Maps (t : Table N V) (k : Key N) (v : V) : Prop :=
  ∃ slot, t.SlotOf k slot ∧ t.at slot = some v

/-! ### Main positions -/

omit [LuaNumber N] [DecidableEq N] in
theorem hashmod_lt (l : ℕ) (n : UInt32) : hashmod l n < 2 ^ l := by
  have hpos : 0 < (2 ^ l - 1) ||| 1 := Nat.lt_of_lt_of_le Nat.one_pos Nat.right_le_or
  have hlt : n.toNat % ((2 ^ l - 1) ||| 1) < (2 ^ l - 1) ||| 1 := Nat.mod_lt _ hpos
  rw [hashmod]
  cases l with
  | zero => exact hlt
  | succ l =>
    refine hlt.trans (Nat.or_lt_two_pow (Nat.sub_lt (Nat.two_pow_pos _) Nat.one_pos) ?_)
    exact Nat.one_lt_two_pow (Nat.succ_ne_zero l)

theorem mainposition_lt (l : ℕ) (k : Key N) : mainposition l k < 2 ^ l := by
  have hpos : 0 < 2 ^ l := Nat.two_pow_pos l
  cases k with
  | number n =>
    rw [mainposition, hashnum]
    split_ifs
    · exact hpos
    · exact hashmod_lt l _
  | string ts => exact Nat.mod_lt _ hpos
  | boolean b => exact Nat.mod_lt _ hpos
  | pointer tag p => exact hashmod_lt l p

omit [LuaNumber N] [DecidableEq N] in
/-- The node of a key, or of none, is no shadow. -/
theorem not_shadows (h : ∀ p, (t.node i).key ≠ .dead p) (k : Key N) : ¬t.Shadows k i :=
  fun ⟨p, _, hp⟩ => h p hp

theorem mainposition_live (l : ℕ) (k : Key N) :
    (NodeKey.live k).mainposition l = mainposition l k := rfl

theorem mainposition_of_keys (h : t.keys i = some k) :
    (t.node i).key.mainposition t.lsizenode = mainposition t.lsizenode k := by
  rw [keys_eq_some.mp h, mainposition_live]

/-! ### Along a chain -/

namespace Hashed

theorem reach_lt (h : Hashed t pending) {p q : ℕ} (hp : p < t.sizenode)
    (hreach : Reaches t.nexts p q) : q < t.sizenode := by
  induction hreach with
  | refl => exact hp
  | @tail r s _ hlink _ =>
    by_contra hge
    have hfree := free_of_blank (h.blank s (Nat.le_of_not_lt hge))
    exact (h.scatter.free_isolated s hfree).first r hlink

/-- A loop along a chain ends. -/
theorem along_spec (h : Hashed t pending) {p : ℕ} (hp : p < t.sizenode) (stop : ℕ → Bool) :
    (∃ i, t.along stop p = .ok (some i) ∧ stop i ∧ Reaches t.nexts p i) ∨
      t.along stop p = .ok none ∧ ∀ i, Reaches t.nexts p i → stop i = false := by
  have hs : ∀ q, Reaches t.nexts p q → q ∈ Finset.range t.sizenode := fun q hq =>
    Finset.mem_range.mpr (h.reach_lt hp hq)
  rw [Table.along]
  obtain ⟨i, heq, hstop, hreach⟩ | ⟨heq, hall⟩ :=
    search_spec stop h.scatter.ranked t.sizenode p _ hs (Finset.card_range _).le
  · rw [heq]
    exact .inl ⟨i, rfl, hstop, hreach⟩
  · rw [heq]
    exact .inr ⟨rfl, hall⟩

/-- A loop along a chain ends at the first node that passes the test. -/
theorem along_eq (h : Hashed t pending) {p : ℕ} (hp : p < t.sizenode) (stop : ℕ → Bool)
    (hi : stop i = true) (hreach : Reaches t.nexts p i)
    (hfirst : ∀ j, Reaches t.nexts p j → Reaches t.nexts j i → j ≠ i → stop j = false) :
    t.along stop p = .ok (some i) := by
  obtain ⟨j, heq, hj, hpj⟩ | ⟨-, hall⟩ := h.along_spec hp stop
  · rw [heq]
    have hsearch : search t.nexts stop t.sizenode (some p) = some (some j) := by
      rw [Table.along] at heq
      cases hs : search t.nexts stop t.sizenode (some p) with
      | none =>
        rw [hs] at heq
        cases heq
      | some r =>
        rw [hs] at heq
        rw [Except.ok.inj heq]
    by_contra hne
    have hji : j ≠ i := fun hji => hne (by rw [hji])
    obtain hto | hto := Relation.ReflTransGen.total_of_right_unique
      (fun _ _ _ hb hc => Option.some_inj.mp (hb.symm.trans hc)) hpj hreach
    · rw [hfirst j hpj hto hji] at hj
      cases hj
    · rw [search_first stop h.scatter.ranked _ p j hsearch i hreach hto hji.symm] at hi
      cases hi
  · rw [hall i hreach] at hi
    cases hi

theorem keys_lt (h : Hashed t pending) (hk : t.keys i = some k) : i < t.sizenode := by
  by_contra hge
  rw [keys_of_free (free_of_blank (h.blank i (Nat.le_of_not_lt hge)))] at hk
  cases hk

end Hashed

/-! ### Looking up -/

theorem arrayindex_number {n : N} : arrayindex (.number n) = intOf n := rfl

theorem intOf_eq_some {n : N} {k : ℤ} (h : intOf n = some k) : ofInt k = n := by
  rw [intOf] at h
  split_ifs at h with heq
  rw [← Option.some_inj.mp h, heq]

theorem eq_of_arrayindex {k' : Key N} {m : ℤ} (h : arrayindex k = some m)
    (h' : arrayindex k' = some m) : k = k' := by
  cases k with
  | number n =>
    cases k' with
    | number n' => rw [← intOf_eq_some h, ← intOf_eq_some h']
    | boolean b => cases h'
    | string ts => cases h'
    | pointer tag p => cases h'
  | boolean b => cases h
  | string ts => cases h
  | pointer tag p => cases h

theorem intOf_ofInt {k : ℤ} (hlo : -2 ^ 31 ≤ k) (hhi : k < 2 ^ 31) :
    intOf (ofInt k : N) = some k := by
  rw [intOf, LuaNumber.toInt_ofInt k hlo hhi, if_pos rfl]

namespace Sound

/-- A search finds the node of a key. -/
theorem search_spec (h : Hashed t ∅) (k : Key N) :
    (∃ i, t.search k (mainposition t.lsizenode k) = .ok (some (.node i)) ∧ t.keys i = some k) ∨
      t.search k (mainposition t.lsizenode k) = .ok none ∧ ∀ i, t.keys i ≠ some k := by
  rw [Table.search]
  obtain ⟨i, heq, hstop, -⟩ | ⟨heq, hall⟩ := h.along_spec (mainposition_lt t.lsizenode k)
    fun i => decide ((t.node i).key = .live k)
  · rw [heq]
    exact .inl ⟨i, rfl, keys_eq_some.mpr (of_decide_eq_true hstop)⟩
  · rw [heq]
    refine .inr ⟨rfl, fun i hi => ?_⟩
    have hfalse := hall i (h.scatter.reach i k hi (Finset.notMem_empty i))
    exact of_decide_eq_false hfalse (keys_eq_some.mp hi)

end Sound

namespace Hashed

/-- Where a key is, if it is not in the array part. -/
theorem slotOf_iff_of_not_inArray (h : ¬t.InArray k) {slot : Slot} :
    t.SlotOf k slot ↔ ∃ i, slot = .node i ∧ t.keys i = some k := by
  constructor
  · intro hs
    cases hs with
    | array j hj hpos hle => exact absurd ⟨j, hj, hpos, hle⟩ h
    | node i hi => exact ⟨i, rfl, hi⟩
  · rintro ⟨i, rfl, hi⟩
    exact .node i hi

/-- A key is in one place. -/
theorem slotOf_unique (h : Hashed t pending) {s s' : Slot} (hs : t.SlotOf k s)
    (hs' : t.SlotOf k s') : s = s' := by
  cases hs with
  | array j hj hpos hle =>
    cases hs' with
    | array j' hj' _ _ =>
      rw [hj] at hj'
      rw [Option.some_inj.mp hj']
    | node i hi => exact absurd ⟨j, hj, hpos, hle⟩ (h.apart i k hi)
  | node i hi =>
    cases hs' with
    | array j hj hpos hle => exact absurd ⟨j, hj, hpos, hle⟩ (h.apart i k hi)
    | node i' hi' => rw [h.scatter.unique i i' k hi hi']

end Hashed

theorem slotOf_iff {slot : Slot} : t.SlotOf k slot ↔
    (∃ j, slot = .array (j - 1).toNat ∧ arrayindex k = some j ∧ 1 ≤ j ∧ j ≤ t.array.length) ∨
      ∃ i, slot = .node i ∧ t.keys i = some k := by
  constructor
  · intro h
    cases h with
    | array j hj hpos hle => exact .inl ⟨j, rfl, hj, hpos, hle⟩
    | node i hi => exact .inr ⟨i, rfl, hi⟩
  · rintro (⟨j, rfl, hj, hpos, hle⟩ | ⟨i, rfl, hi⟩)
    · exact .array j hj hpos hle
    · exact .node i hi

/-- Two keys are in two places. -/
theorem slotOf_inj {k' : Key N} {slot : Slot} (h : t.SlotOf k slot) (h' : t.SlotOf k' slot) :
    k = k' := by
  obtain ⟨j, rfl, hj, hpos, -⟩ | ⟨i, rfl, hi⟩ := slotOf_iff.mp h
  · obtain ⟨j', heq, hj', hpos', -⟩ | ⟨i, heq, -⟩ := slotOf_iff.mp h'
    · rw [Slot.array.injEq] at heq
      have : j = j' := by omega
      exact eq_of_arrayindex hj (this ▸ hj')
    · cases heq
  · obtain ⟨j', heq, -⟩ | ⟨i', heq, hi'⟩ := slotOf_iff.mp h'
    · cases heq
    · rw [Slot.node.injEq] at heq
      rw [← heq, hi] at hi'
      exact Option.some_inj.mp hi'

/-- What a lookup of a key may find. -/
def Finds (t : Table N V) (k : Key N) (r : Except Fault (Option Slot)) : Prop :=
  (∃ slot, r = .ok (some slot) ∧ t.SlotOf k slot) ∨ r = .ok none ∧ ∀ slot, ¬t.SlotOf k slot

theorem finds_search (h : Hashed t ∅) (hk : ¬t.InArray k) :
    Finds t k (t.search k (mainposition t.lsizenode k)) := by
  obtain ⟨i, heq, hi⟩ | ⟨heq, hall⟩ := Sound.search_spec h k
  · exact .inl ⟨_, heq, .node i hi⟩
  · refine .inr ⟨heq, fun slot hs => ?_⟩
    obtain ⟨i, -, hi⟩ := (Hashed.slotOf_iff_of_not_inArray hk).mp hs
    exact hall i hi

/-- `luaH_getnum` finds an integer key. -/
theorem luaHGetnum_spec (h : Hashed t ∅) {m : ℤ} (hm : intOf (ofInt m : N) = some m) :
    Finds t (.number (ofInt m)) (luaHGetnum t m) := by
  rw [luaHGetnum]
  split_ifs with hin
  · exact .inl ⟨_, rfl, .array m hm hin.1 hin.2⟩
  · refine finds_search h ?_
    rintro ⟨j, hj, hpos, hle⟩
    rw [arrayindex_number, hm] at hj
    rw [← Option.some_inj.mp hj] at hpos hle
    exact hin ⟨hpos, hle⟩

/-- **Looking up.** `luaH_get` finds a key if it is in the table. -/
theorem luaHGet_spec (h : Hashed t ∅) (k : Key N) : Finds t k (luaHGet t (some k)) := by
  have hout : arrayindex k = none → Finds t k (t.search k (mainposition t.lsizenode k)) :=
    fun hnone => finds_search h fun ⟨j, hj, _⟩ => by
      rw [hnone] at hj
      cases hj
  cases k with
  | boolean b => exact hout rfl
  | string ts => exact hout rfl
  | pointer tag p => exact hout rfl
  | number n =>
    rw [luaHGet]
    cases hn : intOf n with
    | none => exact hout hn
    | some m =>
      have heq : ofInt m = n := intOf_eq_some hn
      rw [← heq] at hn ⊢
      exact luaHGetnum_spec h hn

/-! ### A free node -/

omit [LuaNumber N] in
/-- The last free node. -/
theorem freepos_spec (node : ℕ → Node N V) (b : ℕ) :
    (∃ n, freepos node b = (n, some n) ∧ n < b ∧ (node n).key = .nil ∧
      ∀ j, n < j → j < b → (node j).key ≠ .nil) ∨
    freepos node b = (0, none) ∧ ∀ j, j < b → (node j).key ≠ .nil := by
  induction b with
  | zero => exact .inr ⟨rfl, fun j hj => absurd hj (Nat.not_lt_zero j)⟩
  | succ b ih =>
    rw [freepos]
    split_ifs with hb
    · exact .inl ⟨b, rfl, Nat.lt_succ_self b, hb, fun j hj hj' => by omega⟩
    · obtain ⟨n, heq, hn, hfree, hall⟩ | ⟨heq, hall⟩ := ih
      · refine .inl ⟨n, heq, by omega, hfree, fun j hj hj' => ?_⟩
        rcases Nat.lt_succ_iff_lt_or_eq.mp hj' with hlt | rfl
        · exact hall j hj hlt
        · exact hb
      · refine .inr ⟨heq, fun j hj => ?_⟩
        rcases Nat.lt_succ_iff_lt_or_eq.mp hj with hlt | rfl
        · exact hall j hlt
        · exact hb

/-! ### Inserting -/

/-- A key was inserted, with nil for its value. -/
structure Inserted (t : Table N V) (key : Key N) (t' : Table N V) (slot : Slot) : Prop where
  sound : Sound t'
  slotOf : t'.SlotOf key slot
  at_eq : t'.at slot = none
  maps : ∀ k v, t'.Maps k v ↔ t.Maps k v
  array : t'.array = t.array
  lsizenode : t'.lsizenode = t.lsizenode
  dummy : t'.dummy = false
  keys : ∀ j k, t'.keys j = some k → k = key ∨ ∃ j', t.keys j' = some k
  free : ∃ n, ∀ j, t.Free j → j ≠ n → t'.Free j
  dead : ∀ j p, (t'.node j).key = .dead p → (t.node j).key = .dead p
  fresh : Fresh t → Fresh t'

omit [LuaNumber N] [DecidableEq N] in
theorem shadows_mono {t' : Table N V}
    (hdead : ∀ j p, (t'.node j).key = .dead p → (t.node j).key = .dead p) (k : Key N) (j : ℕ)
    (h : t'.Shadows k j) : t.Shadows k j := by
  obtain ⟨p, hgc, hp⟩ := h
  exact ⟨p, hgc, hdead j p hp⟩

omit [LuaNumber N] [DecidableEq N] in
theorem not_shadows_of_live (h : (t.node i).key = .live k) (k' : Key N) : ¬t.Shadows k' i :=
  not_shadows (fun p hp => by rw [h] at hp; cases hp) k'

/-- What the array part holds. -/
def Table.ArrayMaps (t : Table N V) (k : Key N) (v : V) : Prop :=
  ∃ j, arrayindex k = some j ∧ (1 ≤ j ∧ j ≤ t.array.length) ∧
    t.array.getD (j - 1).toNat none = some v

/-- What the nodes hold. -/
def Table.Stores (t : Table N V) (k : Key N) (v : V) : Prop :=
  ∃ i, t.keys i = some k ∧ (t.node i).val = some v

theorem maps_iff {v : V} : t.Maps k v ↔ t.ArrayMaps k v ∨ t.Stores k v := by
  constructor
  · rintro ⟨slot, hslot, hat⟩
    cases hslot with
    | array j hj hpos hle => exact .inl ⟨j, hj, ⟨hpos, hle⟩, hat⟩
    | node i hi => exact .inr ⟨i, hi, hat⟩
  · rintro (⟨j, hj, ⟨hpos, hle⟩, hat⟩ | ⟨i, hi, hat⟩)
    · exact ⟨_, .array j hj hpos hle, hat⟩
    · exact ⟨_, .node i hi, hat⟩

/-- Tables with the same array part hold the same if their nodes do. -/
theorem maps_congr {t' : Table N V} (harray : t'.array = t.array)
    (hstores : ∀ k v, t'.Stores k v ↔ t.Stores k v) (k : Key N) (v : V) :
    t'.Maps k v ↔ t.Maps k v := by
  rw [maps_iff, maps_iff, Table.ArrayMaps, Table.ArrayMaps, harray, hstores]

theorem inArray_congr {t' : Table N V} (harray : t'.array = t.array) :
    t'.InArray k ↔ t.InArray k := by
  rw [Table.InArray, Table.InArray, harray]

variable {key : Key N}

namespace Sound

theorem blank_of_ge (h : Sound t) (hi : t.sizenode ≤ i) : t.node i = {} := h.blank i hi

theorem mp_lt (t : Table N V) (k : Key N) : mainposition t.lsizenode k < t.sizenode :=
  mainposition_lt t.lsizenode k

/-- A key that comes to its main position. -/
theorem fill (h : Sound t) (hkey : ∀ slot, ¬t.SlotOf key slot) (hdummy : t.dummy = false)
    (hval : (t.node (mainposition t.lsizenode key)).val = none) :
    Inserted t key
      (t.setNode (mainposition t.lsizenode key)
        { t.node (mainposition t.lsizenode key) with key := .live key })
      (.node (mainposition t.lsizenode key)) := by
  set m := mainposition t.lsizenode key with hm
  have hfresh : ∀ i, t.keys i ≠ some key := fun i hi => hkey _ (.node i hi)
  have hnexts : (t.setNode m { t.node m with key := .live key }).nexts = t.nexts := by
    rw [nexts_setNode]
    exact update_eq_self m t.nexts
  have hkeys : (t.setNode m { t.node m with key := .live key }).keys =
      update t.keys m (some key) := keys_setNode _
  have hfree : (t.setNode m { t.node m with key := .live key }).Free =
      fun j => t.Free j ∧ j ≠ m := by
    funext j
    by_cases hj : j = m
    · subst hj
      rw [Table.Free, node_setNode_self]
      simp
    · rw [Table.Free, node_setNode_of_ne _ hj]
      simp [Table.Free, hj]
  have hscatter := h.scatter.fill (Finset.notMem_empty m) (fun i _ => hfresh i) hm.symm
  have hdead : ∀ j p, ((t.setNode m { t.node m with key := .live key }).node j).key = .dead p →
      (t.node j).key = .dead p := fun j p hp => by
    by_cases hj : j = m
    · rw [hj, node_setNode_self] at hp
      cases hp
    · rwa [node_setNode_of_ne _ hj] at hp
  refine ⟨⟨⟨?_, fun i hi => ?_, fun i v hv => ?_, fun i k hk => ?_⟩, fun hd i hi hf => ?_,
    h.lastfree_le, fun hd => ?_, h.array_le, h.lsizenode_le⟩, .node m ?_, ?_, ?_, rfl, rfl, hdummy,
    fun j k hk => ?_, ⟨m, fun j hj hne => ?_⟩, hdead, fun hf => ?_⟩
  · rw [hnexts, hkeys, hfree]
    exact hscatter
  · have hne : i ≠ m := fun heq => by
      have hlt := mp_lt t key
      rw [← hm, ← heq] at hlt
      exact absurd hlt (Nat.not_lt.mpr hi)
    rw [node_setNode_of_ne _ hne]
    exact h.blank i hi
  · by_cases heq : i = m
    · rw [heq, node_setNode_self] at hv
      rw [show (t.node m).val = none from hval] at hv
      cases hv
    · rw [node_setNode_of_ne _ heq] at hv
      rw [hkeys, update_of_ne heq]
      exact h.value i v hv
  · rw [inArray_congr (array_setNode _)]
    rw [hkeys] at hk
    by_cases heq : i = m
    · rw [heq, update_self] at hk
      rw [← Option.some_inj.mp hk]
      rintro ⟨j, hj, hpos, hle⟩
      exact hkey _ (.array j hj hpos hle)
    · rw [update_of_ne heq] at hk
      exact h.apart i k hk
  · rw [hfree] at hf
    exact h.free_lt hdummy i hi hf.1
  · exact absurd hd (by rw [dummy_setNode, hdummy]; exact Bool.false_ne_true)
  · rw [hkeys, update_self]
  · rw [Table.at, node_setNode_self]
    exact hval
  · refine maps_congr (array_setNode _) fun k v => ?_
    constructor
    · rintro ⟨i, hi, hv⟩
      have hne : i ≠ m := fun heq => by
        rw [heq, node_setNode_self] at hv
        rw [show (t.node m).val = none from hval] at hv
        cases hv
      rw [hkeys, update_of_ne hne] at hi
      rw [node_setNode_of_ne _ hne] at hv
      exact ⟨i, hi, hv⟩
    · rintro ⟨i, hi, hv⟩
      have hne : i ≠ m := fun heq => by
        rw [heq, hval] at hv
        cases hv
      refine ⟨i, ?_, ?_⟩
      · rwa [hkeys, update_of_ne hne]
      · rwa [node_setNode_of_ne _ hne]
  · rw [hkeys] at hk
    by_cases heq : j = m
    · rw [heq, update_self] at hk
      exact .inl (Option.some_inj.mp hk).symm
    · rw [update_of_ne heq] at hk
      exact .inr ⟨j, hk⟩
  · rw [hfree]
    exact ⟨hj, hne⟩
  · rw [Fresh, hnexts, hkeys]
    exact (hf.mono (shadows_mono hdead)).fill h.scatter.ranked hm.symm
      (not_shadows_of_live (by rw [node_setNode_self]))

theorem val_of_free (h : Hashed t pending) (hi : t.Free i) : (t.node i).val = none := by
  by_contra hne
  obtain ⟨v, hv⟩ := Option.ne_none_iff_exists'.mp hne
  obtain ⟨k, hk⟩ := h.value i v hv
  rw [keys_of_free hi] at hk
  cases hk

variable {n : ℕ}

/-- A key that was inserted with the help of a free node. -/
theorem inserted_of_free (h : Sound t) (hkey : ∀ slot, ¬t.SlotOf key slot)
    (hdummy : t.dummy = false) (hn : n < t.lastfree)
    (hlast : ∀ j, n < j → j < t.lastfree → ¬t.Free j) {t' : Table N V}
    (harray : t'.array = t.array) (hsize : t'.lsizenode = t.lsizenode)
    (hdummy' : t'.dummy = t.dummy) (hlastfree : t'.lastfree = n)
    (hscatter : Scatter (mainposition t.lsizenode) t'.nexts t'.keys t'.Free ∅)
    (hfree : ∀ j, t'.Free j ↔ t.Free j ∧ j ≠ n)
    (hblank : ∀ j, t.sizenode ≤ j → t'.node j = t.node j)
    (hvalue : ∀ j v, (t'.node j).val = some v → ∃ k, t'.keys j = some k)
    (hkeys : ∀ j k, t'.keys j = some k → k = key ∨ ∃ j', t.keys j' = some k)
    (hslot : t'.keys i = some key) (hval : (t'.node i).val = none)
    (hstores : ∀ k v, t'.Stores k v ↔ t.Stores k v)
    (hdead : ∀ j p, (t'.node j).key = .dead p → (t.node j).key = .dead p)
    (hfresh : Fresh t → Unshadowed (mainposition t.lsizenode) t'.nexts t'.keys t'.Shadows) :
    Inserted t key t' (.node i) where
  sound :=
    { scatter := by rwa [hsize]
      blank := fun j hj => by
        have hj' : t.sizenode ≤ j := by rwa [Table.sizenode, hsize] at hj
        rw [hblank j hj', h.blank j hj']
      value := hvalue
      apart := fun j k hk => by
        rw [inArray_congr harray]
        obtain rfl | ⟨j', hj'⟩ := hkeys j k hk
        · rintro ⟨m, hm, hpos, hle⟩
          exact hkey _ (.array m hm hpos hle)
        · exact h.apart j' k hj'
      free_lt := fun _ j hj hf => by
        obtain ⟨hf, hne⟩ := (hfree j).mp hf
        have hj' : j < t.sizenode := by rwa [Table.sizenode, hsize] at hj
        have hlt := h.free_lt hdummy j hj' hf
        rw [hlastfree]
        by_contra hge
        exact hlast j (by omega) hlt hf
      lastfree_le := by
        rw [hlastfree, Table.sizenode, hsize]
        exact (hn.trans_le h.lastfree_le).le
      of_dummy := fun hd => by
        rw [hdummy', hdummy] at hd
        cases hd
      array_le := by
        rw [harray]
        exact h.array_le
      lsizenode_le := by
        rw [hsize]
        exact h.lsizenode_le }
  slotOf := .node i hslot
  at_eq := hval
  maps := maps_congr harray hstores
  array := harray
  lsizenode := hsize
  dummy := hdummy'.trans hdummy
  keys := hkeys
  free := ⟨n, fun j hj hne => (hfree j).mpr ⟨hj, hne⟩⟩
  dead := hdead
  fresh h' := by
    rw [Fresh, hsize]
    exact hfresh h'

/-- A key that is linked in behind its main position. -/
theorem link (h : Sound t) (hkey : ∀ slot, ¬t.SlotOf key slot) (hdummy : t.dummy = false)
    (hn : n < t.lastfree) (hfree : t.Free n) (hlast : ∀ j, n < j → j < t.lastfree → ¬t.Free j)
    {k' : Key N} (hk' : t.keys (mainposition t.lsizenode key) = some k')
    (hhome : mainposition t.lsizenode k' = mainposition t.lsizenode key) {t₀ t₁ t₂ t₃ : Table N V}
    (h₀ : t₀ = { t with lastfree := n })
    (h₁ : t₁ = t₀.setNode n
      { t₀.node n with next := t₀.nexts (mainposition t.lsizenode key) })
    (h₂ : t₂ = t₁.setNode (mainposition t.lsizenode key)
      { t₁.node (mainposition t.lsizenode key) with next := some n })
    (h₃ : t₃ = t₂.setNode n { t₂.node n with key := .live key }) :
    Inserted t key t₃ (.node n) := by
  subst h₀
  set m := mainposition t.lsizenode key with hm
  have hfresh : ∀ i, t.keys i ≠ some key := fun i hi => hkey _ (.node i hi)
  have hne : n ≠ m := fun heq => by
    rw [← heq, keys_of_free hfree] at hk'
    cases hk'
  have hval : (t.node n).val = none := val_of_free h.toHashed hfree
  -- the nodes after the insertion
  have hnode : ∀ j, t₃.node j =
      if j = n then { t.node n with next := t.nexts m, key := .live key }
      else if j = m then { t.node m with next := some n } else t.node j := fun j => by
    subst h₃ h₂ h₁
    by_cases hjn : j = n
    · subst hjn
      rw [node_setNode_self, node_setNode_of_ne _ hne, node_setNode_self, if_pos rfl]
      rfl
    · rw [node_setNode_of_ne _ hjn, if_neg hjn]
      by_cases hjm : j = m
      · subst hjm
        rw [node_setNode_self, node_setNode_of_ne _ hne.symm, if_pos rfl]
      · rw [node_setNode_of_ne _ hjm, node_setNode_of_ne _ hjn, if_neg hjm]
  have hnexts : t₃.nexts = insertAfter t.nexts m n := by
    funext j
    rw [Table.nexts, hnode]
    split_ifs with hjn hjm
    · rw [hjn, insertAfter_new hne]
    · rw [hjm, insertAfter_self]
    · rw [insertAfter_of_ne hjm hjn]
      rfl
  have hkeys : t₃.keys = update t.keys n (some key) := by
    funext j
    rw [Table.keys, hnode]
    split_ifs with hjn hjm
    · rw [hjn, update_self]
      rfl
    · rw [hjm, update_of_ne hne.symm]
      rfl
    · rw [update_of_ne hjn]
      rfl
  have hfree' : t₃.Free = fun j => t.Free j ∧ j ≠ n := by
    funext j
    rw [Table.Free, hnode]
    split_ifs with hjn hjm
    · simp [hjn]
    · simp [hjm, hne.symm, Table.Free]
    · simp [hjn, Table.Free]
  have hpark := h.scatter.park hfree hfresh (hm ▸ hne.symm)
  have hlink := hpark.link (k := key) (Finset.mem_insert_self n ∅) (update_self ..) (hm ▸ hne)
    (by rw [← hm, update_of_ne hne.symm, hk']) hhome
  rw [← hm, Finset.erase_insert (Finset.notMem_empty n)] at hlink
  have hmlt := mp_lt t key
  rw [← hm] at hmlt
  have hnlt : n < t.sizenode := hn.trans_le h.lastfree_le
  have hdead : ∀ j p, (t₃.node j).key = .dead p → (t.node j).key = .dead p := fun j p hp => by
    rw [hnode] at hp
    split_ifs at hp with hjn hjm
    · rw [hjm]
      exact hp
    · exact hp
  refine inserted_of_free h hkey hdummy hn hlast (by rw [h₃, h₂, h₁]; rfl)
    (by rw [h₃, h₂, h₁]; rfl) (by rw [h₃, h₂, h₁]; rfl) (by rw [h₃, h₂, h₁]; rfl)
    (by rwa [hnexts, hkeys, hfree']) (fun j => by rw [hfree']) (fun j hj => ?_) (fun j v hv => ?_)
    (fun j k hk => ?_) (by rw [hkeys, update_self]) (by rw [hnode, if_pos rfl]; exact hval)
    (fun k v => ⟨fun hs => ?_, fun hs => ?_⟩) hdead fun hf => ?_
  · rw [hnode, if_neg (by omega), if_neg (by omega)]
  · rw [hnode] at hv
    rw [hkeys]
    split_ifs at hv with hjn hjm
    · rw [hjn, update_self]
      exact ⟨key, rfl⟩
    · rw [update_of_ne hjn, hjm]
      exact ⟨k', hk'⟩
    · rw [update_of_ne hjn]
      exact h.value j v hv
  · rw [hkeys] at hk
    by_cases hjn : j = n
    · rw [hjn, update_self] at hk
      exact .inl (Option.some_inj.mp hk).symm
    · rw [update_of_ne hjn] at hk
      exact .inr ⟨j, hk⟩
  · obtain ⟨j, hj, hv⟩ := hs
    rw [hnode] at hv
    rw [hkeys] at hj
    split_ifs at hv with hjn hjm
    · rw [show (t.node n).val = none from hval] at hv
      cases hv
    · rw [update_of_ne hjn] at hj
      exact ⟨j, hj, by rwa [hjm]⟩
    · rw [update_of_ne hjn] at hj
      exact ⟨j, hj, hv⟩
  · obtain ⟨j, hj, hv⟩ := hs
    have hjn : j ≠ n := fun heq => by
      rw [heq, hval] at hv
      cases hv
    refine ⟨j, by rwa [hkeys, update_of_ne hjn], ?_⟩
    rw [hnode, if_neg hjn]
    split_ifs with hjm
    · rwa [hjm] at hv
    · exact hv
  · rw [hnexts, hkeys]
    have hm' : t₃.keys m = some k' := by rw [hkeys, update_of_ne hne.symm, hk']
    have hn' : t₃.keys n = some key := by rw [hkeys, update_self]
    exact (hf.mono (shadows_mono hdead)).link h.scatter hfree hne hm.symm
      (not_shadows_of_live (keys_eq_some.mp hm')) (not_shadows_of_live (keys_eq_some.mp hn'))

/-- A key whose main position is left by another one. -/
theorem displace (h : Sound t) (hkey : ∀ slot, ¬t.SlotOf key slot) (hdummy : t.dummy = false)
    (hn : n < t.lastfree) (hfree : t.Free n) (hlast : ∀ j, n < j → j < t.lastfree → ¬t.Free j)
    {k' : Key N} (hk' : t.keys (mainposition t.lsizenode key) = some k')
    (haway : mainposition t.lsizenode k' ≠ mainposition t.lsizenode key) {prev : ℕ}
    (hprev : t.nexts prev = some (mainposition t.lsizenode key)) {t₀ t₁ t₂ t₃ : Table N V}
    (h₀ : t₀ = { t with lastfree := n })
    (h₁ : t₁ = t₀.setNode prev { t₀.node prev with next := some n })
    (h₂ : t₂ = t₁.setNode n (t₁.node (mainposition t.lsizenode key)))
    (h₃ : t₃ = t₂.setNode (mainposition t.lsizenode key) { key := .live key }) :
    Inserted t key t₃ (.node (mainposition t.lsizenode key)) := by
  subst h₀
  set m := mainposition t.lsizenode key with hm
  have hfresh : ∀ i, t.keys i ≠ some key := fun i hi => hkey _ (.node i hi)
  have hne : n ≠ m := fun heq => by
    rw [← heq, keys_of_free hfree] at hk'
    cases hk'
  have hpn : prev ≠ n := fun heq => by
    rw [heq, (h.scatter.free_isolated n hfree).last] at hprev
    cases hprev
  have hpm : prev ≠ m := h.scatter.ranked.ne hprev
  have hval : (t.node n).val = none := val_of_free h.toHashed hfree
  -- the nodes after the insertion
  have hnode : ∀ j, t₃.node j =
      if j = m then { key := .live key } else if j = n then t.node m
      else if j = prev then { t.node prev with next := some n } else t.node j := fun j => by
    subst h₃ h₂ h₁
    by_cases hjm : j = m
    · subst hjm
      rw [node_setNode_self, if_pos rfl]
    · rw [node_setNode_of_ne _ hjm, if_neg hjm]
      by_cases hjn : j = n
      · subst hjn
        rw [node_setNode_self, node_setNode_of_ne _ hpm.symm, if_pos rfl]
      · rw [node_setNode_of_ne _ hjn, if_neg hjn]
        by_cases hjp : j = prev
        · subst hjp
          rw [node_setNode_self, if_pos rfl]
        · rw [node_setNode_of_ne _ hjp, if_neg hjp]
  have hnexts : t₃.nexts = replace t.nexts prev m n := by
    funext j
    rw [Table.nexts, hnode]
    split_ifs with hjm hjn hjp
    · rw [hjm, replace_old]
    · rw [hjn, replace_new hne]
      rfl
    · rw [hjp, replace_prev hpm hpn]
    · rw [replace_of_ne hjm hjn hjp]
      rfl
  have hkeys : t₃.keys =
      update (update (update t.keys n (some k')) m none) m (some key) := by
    rw [update_idem]
    funext j
    rw [Table.keys, hnode]
    split_ifs with hjm hjn hjp
    · rw [hjm, update_self]
      rfl
    · rw [hjn, update_of_ne hne, update_self]
      exact hk'
    · rw [update_of_ne hjm, update_of_ne hjn, hjp]
      rfl
    · rw [update_of_ne hjm, update_of_ne hjn]
      rfl
  have hmfree : ¬t.Free m := fun hf => by
    rw [keys_of_free hf] at hk'
    cases hk'
  have hfree' : t₃.Free = fun j => (t.Free j ∧ j ≠ n ∨ j = m) ∧ j ≠ m := by
    funext j
    rw [Table.Free, hnode]
    split_ifs with hjm hjn hjp
    · simp [hjm]
    · simp [hjn, hne, show (t.node m).key ≠ .nil from hmfree]
    · simp [hjp, hpm, hpn, Table.Free]
    · simp [hjm, hjn, Table.Free]
  have hdisplaced := h.scatter.displace (Finset.notMem_empty m) hk' haway hfree hprev
  have hfilled := hdisplaced.fill (k := key) (Finset.notMem_empty m) (fun i hi hk => by
    rw [update_of_ne hi] at hk
    by_cases hin : i = n
    · rw [hin, update_self] at hk
      rw [hk] at hk'
      exact hfresh m hk'
    · rw [update_of_ne hin] at hk
      exact hfresh i hk) hm.symm
  have hmlt := mp_lt t key
  rw [← hm] at hmlt
  have hnlt : n < t.sizenode := hn.trans_le h.lastfree_le
  have hplt : prev < t.sizenode := by
    by_contra hge
    have := (h.scatter.free_isolated prev (free_of_blank (h.blank prev (by omega)))).last
    rw [hprev] at this
    cases this
  have hlive : (t.node m).key = .live k' := keys_eq_some.mp hk'
  have hdead : ∀ j p, (t₃.node j).key = .dead p → (t.node j).key = .dead p := fun j p hp => by
    rw [hnode] at hp
    split_ifs at hp with hjm hjn hjp
    · rw [hlive] at hp
      cases hp
    · rw [hjp]
      exact hp
    · exact hp
  refine inserted_of_free h hkey hdummy hn hlast (by rw [h₃, h₂, h₁]; rfl)
    (by rw [h₃, h₂, h₁]; rfl) (by rw [h₃, h₂, h₁]; rfl) (by rw [h₃, h₂, h₁]; rfl)
    (by rwa [hnexts, hkeys, hfree']) (fun j => ?_) (fun j hj => ?_) (fun j v hv => ?_)
    (fun j k hk => ?_) (by rw [hkeys, update_self]) (by rw [hnode, if_pos rfl])
    (fun k v => ⟨fun hs => ?_, fun hs => ?_⟩) hdead fun hf => ?_
  · rw [hfree']
    constructor
    · rintro ⟨hand | heq, hjm⟩
      · exact hand
      · exact absurd heq hjm
    · rintro ⟨hf, hjn⟩
      exact ⟨.inl ⟨hf, hjn⟩, fun heq => hmfree (heq ▸ hf)⟩
  · rw [hnode, if_neg (by omega), if_neg (by omega), if_neg (by omega)]
  · rw [hnode] at hv
    rw [hkeys, update_idem]
    split_ifs at hv with hjm hjn hjp
    · rw [update_of_ne hjm, hjn, update_self]
      exact ⟨k', rfl⟩
    · rw [update_of_ne hjm, update_of_ne hjn, hjp]
      exact h.value prev v hv
    · rw [update_of_ne hjm, update_of_ne hjn]
      exact h.value j v hv
  · rw [hkeys, update_idem] at hk
    by_cases hjm : j = m
    · rw [hjm, update_self] at hk
      exact .inl (Option.some_inj.mp hk).symm
    · rw [update_of_ne hjm] at hk
      by_cases hjn : j = n
      · rw [hjn, update_self] at hk
        exact .inr ⟨m, hk'.trans hk⟩
      · rw [update_of_ne hjn] at hk
        exact .inr ⟨j, hk⟩
  · obtain ⟨j, hj, hv⟩ := hs
    rw [hnode] at hv
    rw [hkeys, update_idem] at hj
    split_ifs at hv with hjm hjn hjp
    · rw [update_of_ne hjm, hjn, update_self] at hj
      exact ⟨m, hk'.trans hj, hv⟩
    · rw [update_of_ne hjm, update_of_ne hjn] at hj
      exact ⟨j, hj, by rwa [hjp]⟩
    · rw [update_of_ne hjm, update_of_ne hjn] at hj
      exact ⟨j, hj, hv⟩
  · obtain ⟨j, hj, hv⟩ := hs
    have hjn : j ≠ n := fun heq => by
      rw [heq, hval] at hv
      cases hv
    by_cases hjm : j = m
    · refine ⟨n, ?_, by rwa [hnode, if_neg hne, if_pos rfl, ← hjm]⟩
      rw [hkeys, update_idem, update_of_ne hne, update_self, ← hj, hjm, hk']
    · refine ⟨j, by rwa [hkeys, update_idem, update_of_ne hjm, update_of_ne hjn], ?_⟩
      rw [hnode, if_neg hjm, if_neg hjn]
      split_ifs with hjp
      · rwa [hjp] at hv
      · exact hv
  · rw [hnexts, hkeys]
    have hm' : ∀ k, ¬t₃.Shadows k m := not_shadows_of_live (by rw [hnode, if_pos rfl])
    have hn' : ∀ k, ¬t₃.Shadows k n := not_shadows_of_live (by
      rw [hnode, if_neg hne, if_pos rfl, hlive])
    exact ((hf.mono (shadows_mono hdead)).displace h.scatter hk' haway hfree hprev hm' hn').fill
      hdisplaced.ranked hm.symm hm'

/-- All nodes are taken, or there is no hash part. -/
def Full (t : Table N V) : Prop := t.dummy = true ∨ ∀ i, i < t.sizenode → ¬t.Free i

theorem exhausted (h : Sound t) (hfull : Full t) : Sound { t with lastfree := 0 } where
  scatter := h.scatter
  blank := h.blank
  value := h.value
  apart := h.apart
  free_lt hd i hi hf := by
    obtain hdummy | hall := hfull
    · rw [show t.dummy = false from hd] at hdummy
      cases hdummy
    · exact absurd hf (hall i hi)
  lastfree_le := Nat.zero_le _
  of_dummy hd := ⟨(h.of_dummy hd).1, rfl, (h.of_dummy hd).2.2⟩
  array_le := h.array_le
  lsizenode_le := h.lsizenode_le

/-- There is no free node. -/
theorem getfreepos_none (h : Sound t) {t₁ : Table N V} (hnone : getfreepos t = (t₁, none)) :
    t₁ = { t with lastfree := 0 } ∧ Sound { t with lastfree := 0 } := by
  rw [getfreepos] at hnone
  obtain ⟨n, heq, -⟩ | ⟨heq, hall⟩ := freepos_spec t.node t.lastfree
  · rw [heq] at hnone
    cases hnone
  · rw [heq] at hnone
    refine ⟨(Prod.mk.inj hnone).1.symm, h.exhausted ?_⟩
    cases hd : t.dummy with
    | true => exact .inl hd
    | false => exact .inr fun j hj hf => hall j (h.free_lt hd j hj hf) hf

/-- **`newkey`.** The key is inserted, or there is no free node. -/
theorem newkeyWith_spec (h : Sound t) (hkey : ∀ slot, ¬t.SlotOf key slot)
    (again : Table N V → Key N → Except Fault (Table N V × Slot)) :
    (∃ t' slot, newkeyWith again t key = .ok (t', slot) ∧ Inserted t key t' slot) ∨
      newkeyWith again t key = again { t with lastfree := 0 } key ∧ Full t := by
  rw [newkeyWith]
  dsimp only
  split_ifs with hoccupied
  · rw [getfreepos]
    obtain ⟨n, heq, hn, hfree, hlast⟩ | ⟨heq, hnone⟩ := freepos_spec t.node t.lastfree
    · have hdummy : t.dummy = false := by
        by_contra hd
        have hzero := (h.of_dummy (by simpa using hd)).2.1
        omega
      have hval : (t.node (mainposition t.lsizenode key)).val.isSome := by
        rw [hdummy] at hoccupied
        simpa using hoccupied
      obtain ⟨v, hv⟩ := Option.isSome_iff_exists.mp hval
      obtain ⟨k', hk'⟩ := h.value _ v hv
      rw [heq]
      dsimp only
      rw [mainposition_of_keys hk']
      split_ifs with haway
      · left
        have hreach := h.scatter.reach _ k' hk' (Finset.notMem_empty _)
        obtain ⟨r, hr, hrm⟩ := hreach.exists_prev haway
        obtain ⟨prev, halong, hstop, -⟩ | ⟨-, hall⟩ := h.toHashed.along_spec
          (mp_lt t k') (fun prev => decide (t.nexts prev = some (mainposition t.lsizenode key)))
        · rw [show Table.along { t with lastfree := n }
            (fun prev => decide (Table.nexts { t with lastfree := n } prev =
              some (mainposition t.lsizenode key))) (mainposition t.lsizenode k') =
              .ok (some prev) from halong]
          exact ⟨_, _, rfl, h.displace hkey hdummy hn hfree hlast hk' haway
            (of_decide_eq_true hstop) rfl rfl rfl rfl⟩
        · exact absurd hrm (of_decide_eq_false (hall r hr))
      · left
        exact ⟨_, _, rfl, h.link hkey hdummy hn hfree hlast hk' (not_not.mp haway)
          rfl rfl rfl rfl⟩
    · rw [heq]
      refine .inr ⟨rfl, ?_⟩
      rcases Bool.eq_false_or_eq_true t.dummy with hd | hd
      · exact .inl hd
      · exact .inr fun i hi hf => hnone i (h.free_lt hd i hi hf) hf
  · rw [not_or, Bool.not_eq_true, Option.isSome_eq_false_iff, Option.isNone_iff_eq_none,
      Bool.not_eq_true] at hoccupied
    exact .inl ⟨_, _, rfl, h.fill hkey hoccupied.2 hoccupied.1⟩

end Sound

/-! ### Assigning -/

variable {slot : Slot} (v : Option V)

theorem slotOf_write {slot' : Slot} : (t.write slot v).SlotOf k slot' ↔ t.SlotOf k slot' := by
  constructor
  · intro h
    cases h with
    | array j hj hpos hle => exact .array j hj hpos (by rwa [length_array_write] at hle)
    | node i hi => exact .node i (by rwa [keys_write] at hi)
  · intro h
    cases h with
    | array j hj hpos hle => exact .array j hj hpos (by rwa [length_array_write])
    | node i hi => exact .node i (by rwa [keys_write])

theorem at_write_self (h : t.SlotOf k slot) : (t.write slot v).at slot = v := by
  cases h with
  | array j _ hpos hle =>
    have hlt : (j - 1).toNat < t.array.length := by omega
    rw [Table.at, Table.write, List.getD_eq_getElem?_getD, List.getElem?_set_self hlt]
    rfl
  | node i hi => rw [Table.at, Table.write, node_setNode_self]

/-- **Assigning.** Only the key whose slot is written is mapped to something else. -/
theorem Sound.write (h : Sound t) (hslot : t.SlotOf k slot) :
    Sound (t.write slot v) ∧ ∀ k' v', (t.write slot v).Maps k' v' ↔
      if k' = k then v = some v' else t.Maps k' v' := by
  refine ⟨⟨⟨?_, fun i hi => ?_, fun i v' hv' => ?_, fun i k' hk' => ?_⟩, ?_, ?_, fun hd => ?_, ?_,
    ?_⟩, fun k' v' => ?_⟩
  · rw [lsizenode_write, nexts_write, keys_write, free_write]
    exact h.scatter
  · cases hslot with
    | array => exact h.blank i hi
    | node j hj =>
      have hne : i ≠ j := fun heq => absurd (h.keys_lt hj) (by
        rw [← heq]
        exact Nat.not_lt.mpr hi)
      rw [Table.write, node_setNode_of_ne _ hne]
      exact h.blank i hi
  · rw [keys_write]
    cases hslot with
    | array => exact h.value i v' hv'
    | node j hj =>
      by_cases heq : i = j
      · rw [heq]
        exact ⟨k, hj⟩
      · rw [Table.write, node_setNode_of_ne _ heq] at hv'
        exact h.value i v' hv'
  · rw [keys_write] at hk'
    rw [Table.InArray, length_array_write]
    exact h.apart i k' hk'
  · rw [dummy_write, Table.sizenode, lsizenode_write, free_write, lastfree_write]
    exact h.free_lt
  · rw [lastfree_write, Table.sizenode, lsizenode_write]
    exact h.lastfree_le
  · rw [dummy_write] at hd
    obtain ⟨hsize, hlast, hnode⟩ := h.of_dummy hd
    refine ⟨by rw [lsizenode_write, hsize], by rw [lastfree_write, hlast], ?_⟩
    cases hslot with
    | array => exact hnode
    | node j hj =>
      have hlt := h.keys_lt hj
      rw [Table.sizenode, hsize, pow_zero, Nat.lt_one_iff] at hlt
      rw [hlt, keys_of_free (free_of_blank hnode)] at hj
      cases hj
  · rw [length_array_write]
    exact h.array_le
  · rw [lsizenode_write]
    exact h.lsizenode_le
  · constructor
    · rintro ⟨slot', hs, hat⟩
      rw [slotOf_write] at hs
      split_ifs with heq
      · rw [heq] at hs
        rwa [h.slotOf_unique hs hslot, at_write_self v hslot] at hat
      · refine ⟨slot', hs, ?_⟩
        have hne : slot' ≠ slot := fun hslots => heq (slotOf_inj (hslots ▸ hs) hslot)
        rwa [at_write_of_ne v hne] at hat
    · split_ifs with heq
      · rintro rfl
        rw [heq]
        exact ⟨slot, (slotOf_write _).mpr hslot, at_write_self _ hslot⟩
      · rintro ⟨slot', hs, hat⟩
        have hne : slot' ≠ slot := fun hslots => heq (slotOf_inj (hslots ▸ hs) hslot)
        exact ⟨slot', (slotOf_write v).mpr hs, by rwa [at_write_of_ne v hne]⟩

end ELuaBrain.Lua.Tables
