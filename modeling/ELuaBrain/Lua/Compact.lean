import ELuaBrain.Lua.Chains

/-!
# Breaking the chains

The first loop of `resize_hashpart`. It breaks the chains, gives the integer keys to the array part,
and compacts the other ones below the new size, all in the one vector of nodes.

## Main definitions

* `Loose` : a table whose array part has grown.
* `Stays` : so many nodes stay in the hash part at most.
* `Compacting` : the nodes between two rounds of the loop.

## Main results

* `Compacting.step`, `Compacting.run` : a round, and the loop.
-/

namespace ELuaBrain.Lua.Tables

open Function Links

variable {N V : Type} [LuaNumber N] [DecidableEq N] {t t₀ : Table N V} {k : Key N} {i j : ℕ}
  {pending : Finset ℕ}

/-! ### Sizes -/

omit [LuaNumber N] [DecidableEq N] in
theorem le_two_pow_ceillog2 (x : ℕ) : x ≤ 2 ^ ceillog2 x := by
  rw [ceillog2]
  split_ifs with hx
  · rw [pow_zero]
    omega
  · have := Nat.lt_log2_self (n := x - 1)
    omega

omit [LuaNumber N] [DecidableEq N] in
theorem ceillog2_le {x l : ℕ} (h : x ≤ 2 ^ l) : ceillog2 x ≤ l := by
  rw [ceillog2]
  split_ifs with hx
  · exact Nat.zero_le l
  · have hpos : 0 < 2 ^ l := Nat.two_pow_pos l
    exact (Nat.log2_lt hx).mpr (by omega)

theorem ceillog2_two_pow (l : ℕ) : ceillog2 (2 ^ l) = l := by
  rw [ceillog2]
  cases l with
  | zero => rfl
  | succ l =>
    have hpos : 0 < 2 ^ l := Nat.two_pow_pos l
    have hne : 2 ^ (l + 1) - 1 ≠ 0 := by
      rw [pow_succ]
      omega
    have hlog : (2 ^ (l + 1) - 1).log2 = l := by
      refine (Nat.log2_eq_iff hne).mpr ⟨?_, by omega⟩
      rw [pow_succ]
      omega
    rw [if_neg hne, hlog]

/-! ### The table before -/

/-- The invariant of a table whose array part has grown. -/
structure Loose (t : Table N V) : Prop where
  blank : ∀ i, t.sizenode ≤ i → t.node i = {}
  value : ∀ i v, (t.node i).val = some v → ∃ k, t.keys i = some k
  unique : ∀ i j k, t.keys i = some k → t.keys j = some k → i = j
  apart : ∀ i k m, t.keys i = some k → arrayindex k = some m → 1 ≤ m → m ≤ t.array.length →
    t.array.getD (m - 1).toNat none = none

/-- The nodes that stay in the hash part are not more than that. -/
def Stays (t : Table N V) (r : ℕ) : Prop :=
  ∃ s : Finset ℕ, s.card ≤ r ∧
    ∀ j, (t.node j).val.isSome → (∀ k, t.keys j = some k → ¬t.InArray k) → j ∈ s

/-! ### The first loop -/

/-- The nodes after `i` rounds of the first loop. -/
structure Compacting (t₀ : Table N V) (oldhsize nhsize r i : ℕ) (t : Table N V) : Prop where
  size : t.sizenode = nhsize
  array : t.array.length = t₀.array.length
  dummy : t.dummy = false
  done : ∀ j, j < i → j < nhsize → (t.node j).next = none ∧
    ((t.node j).val = none → t.Free j) ∧ ∀ k, t.keys j = some k → ¬t.InArray k
  blank : ∀ j, oldhsize ≤ j → t.node j = {}
  value : ∀ j v, (t.node j).val = some v → ∃ k, t.keys j = some k
  unique : ∀ j j' k, (j < nhsize ∨ i ≤ j) → (j' < nhsize ∨ i ≤ j') → t.keys j = some k →
    t.keys j' = some k → j = j'
  apart : ∀ j k m, (j < nhsize ∨ i ≤ j) → t.keys j = some k → arrayindex k = some m → 1 ≤ m →
    m ≤ t.array.length → t.array.getD (m - 1).toNat none = none
  maps : ∀ k v, t₀.Maps k v ↔ t.ArrayMaps k v ∨
    ∃ j, (j < nhsize ∨ i ≤ j) ∧ t.keys j = some k ∧ (t.node j).val = some v
  lastfree_le : t.lastfree ≤ nhsize
  lastfree : i ≤ nhsize → t.lastfree = nhsize
  free_lt : ∀ j, j < i → j < nhsize → t.Free j → j < t.lastfree
  stays : ∃ s : Finset ℕ, s.card ≤ r ∧ ∀ j, (j < nhsize ∨ i ≤ j) → (t.node j).val.isSome →
    (∀ k, t.keys j = some k → ¬t.InArray k) → j ∈ s

/-- What `move_number` does. -/
theorem tryMoveNumber_spec (hk : t.keys i = some k) :
    (tryMoveNumber t i = none ∧ ¬t.InArray k) ∨
      ∃ m, arrayindex k = some m ∧ 1 ≤ m ∧ m ≤ t.array.length ∧
        tryMoveNumber t i =
          some (Table.setNode { t with array := t.array.set (m - 1).toNat (t.node i).val } i
            { t.node i with key := .nil, val := none }) := by
  have hout : arrayindex k = none → ¬t.InArray k := fun hnone ⟨m, hm, _⟩ => by
    rw [hnone] at hm
    cases hm
  rw [tryMoveNumber, keys_eq_some.mp hk]
  cases k with
  | boolean b => exact .inl ⟨rfl, hout rfl⟩
  | string ts => exact .inl ⟨rfl, hout rfl⟩
  | pointer tag p => exact .inl ⟨rfl, hout rfl⟩
  | number n =>
    dsimp only
    rw [moveNumber]
    cases hn : intOf n with
    | none => exact .inl ⟨rfl, hout hn⟩
    | some m =>
      dsimp only
      split_ifs with hin
      · exact .inr ⟨m, hn, hin.1, hin.2, rfl⟩
      · refine .inl ⟨rfl, fun ⟨m', hm', hpos, hle⟩ => hin ?_⟩
        rw [arrayindex_number, hn] at hm'
        rw [← Option.some_inj.mp hm'] at hpos hle
        exact ⟨hpos, hle⟩

omit [LuaNumber N] [DecidableEq N] in
theorem keys_eq (t : Table N V) (i : ℕ) : t.keys i = (t.node i).key.get? := rfl

namespace Compacting

variable {oldhsize nhsize r : ℕ}

/-- A node is emptied, and the array part may hold what it held. -/
theorem emptied (h : Compacting t₀ oldhsize nhsize r i t) {t' : Table N V}
    (hself : t'.node i = {}) (hother : ∀ j, j ≠ i → t'.node j = t.node j)
    (hsize : t'.lsizenode = t.lsizenode) (hdummy : t'.dummy = t.dummy)
    (hlast : t'.lastfree = t.lastfree) (hlen : t'.array.length = t.array.length)
    (hapart : ∀ j k m, (j < nhsize ∨ i + 1 ≤ j) → j ≠ i → t.keys j = some k →
      arrayindex k = some m → 1 ≤ m → m ≤ t.array.length →
      t'.array.getD (m - 1).toNat none = t.array.getD (m - 1).toNat none)
    (hmaps : ∀ k v, t'.ArrayMaps k v ↔
      t.ArrayMaps k v ∨ t.keys i = some k ∧ (t.node i).val = some v) :
    Compacting t₀ oldhsize nhsize r (i + 1) t' := by
  have hkeys : ∀ j k, t'.keys j = some k → j ≠ i ∧ t.keys j = some k := fun j k hk => by
    have hne : j ≠ i := fun heq => by
      rw [heq, keys_of_free (free_of_blank hself)] at hk
      cases hk
    rw [keys_eq, hother j hne] at hk
    exact ⟨hne, hk⟩
  have hvals : ∀ j v, (t'.node j).val = some v → j ≠ i ∧ (t.node j).val = some v :=
    fun j v hv => by
      have hne : j ≠ i := fun heq => by
        rw [heq, hself] at hv
        cases hv
      rw [hother j hne] at hv
      exact ⟨hne, hv⟩
  have hin : ∀ k', t'.InArray k' ↔ t.InArray k' := fun k' => by
    rw [Table.InArray, Table.InArray, hlen]
  have hrel : ∀ j, (j < nhsize ∨ i + 1 ≤ j) → j < nhsize ∨ i ≤ j := fun j hj =>
    hj.imp_right (Nat.le_of_succ_le ·)
  exact
    { size := by rw [Table.sizenode, hsize, ← h.size, Table.sizenode]
      array := by rw [hlen, h.array]
      dummy := by rw [hdummy, h.dummy]
      done := fun j hj hlt => by
        by_cases heq : j = i
        · rw [heq, hself]
          exact ⟨rfl, fun _ => free_of_blank hself, fun k hk => absurd rfl (hkeys i k hk).1⟩
        · have hdone := h.done j (by omega) hlt
          rw [hother j heq]
          refine ⟨hdone.1, fun hv => ?_, fun k hk => ?_⟩
          · rw [Table.Free, hother j heq]
            exact hdone.2.1 hv
          · rw [hin]
            exact hdone.2.2 k (hkeys j k hk).2
      blank := fun j hj => by
        by_cases heq : j = i
        · rw [heq, hself]
        · rw [hother j heq, h.blank j hj]
      value := fun j v hv => by
        obtain ⟨hne, hv⟩ := hvals j v hv
        rw [keys_eq, hother j hne]
        exact h.value j v hv
      unique := fun j j' k hj hj' hk hk' =>
        h.unique j j' k (hrel j hj) (hrel j' hj') (hkeys j k hk).2 (hkeys j' k hk').2
      apart := fun j k m hj hk hm hpos hle => by
        obtain ⟨hne, hkj⟩ := hkeys j k hk
        rw [hlen] at hle
        rw [hapart j k m hj hne hkj hm hpos hle]
        exact h.apart j k m (hrel j hj) hkj hm hpos hle
      maps := fun k v => by
        rw [h.maps k v, hmaps k v, or_assoc]
        refine or_congr_right ⟨?_, ?_⟩
        · rintro ⟨j, hj, hk, hv⟩
          by_cases heq : j = i
          · rw [heq] at hk hv
            exact .inl ⟨hk, hv⟩
          · refine .inr ⟨j, by omega, ?_, ?_⟩
            · rwa [keys_eq, hother j heq]
            · rwa [hother j heq]
        · rintro (⟨hk, hv⟩ | ⟨j, hj, hk, hv⟩)
          · exact ⟨i, .inr le_rfl, hk, hv⟩
          · exact ⟨j, hrel j hj, (hkeys j k hk).2, (hvals j v hv).2⟩
      lastfree_le := by
        rw [hlast]
        exact h.lastfree_le
      lastfree := fun hi => by
        rw [hlast]
        exact h.lastfree (by omega)
      free_lt := fun j hj hlt hf => by
        rw [hlast]
        by_cases heq : j = i
        · rw [h.lastfree (by omega)]
          exact hlt
        · rw [Table.Free, hother j heq] at hf
          exact h.free_lt j (by omega) hlt hf
      stays := by
        obtain ⟨s, hcard, hs⟩ := h.stays
        refine ⟨s, hcard, fun j hj hv hk => ?_⟩
        obtain ⟨v, hv⟩ := Option.isSome_iff_exists.mp hv
        obtain ⟨hne, hv⟩ := hvals j v hv
        refine hs j (hrel j hj) (Option.isSome_iff_exists.mpr ⟨v, hv⟩) fun k hkey => ?_
        rw [← hin]
        refine hk k ?_
        rwa [keys_eq, hother j hne] }

/-- A node without a value is cleared. -/
theorem clear (h : Compacting t₀ oldhsize nhsize r i t) (hval : (t.node i).val = none) :
    Compacting t₀ oldhsize nhsize r (i + 1) (t.setNode i {}) := by
  refine h.emptied (node_setNode_self _) (fun j hj => node_setNode_of_ne _ hj) rfl rfl rfl rfl
    (fun _ _ _ _ _ _ _ _ _ => rfl) fun k v => ?_
  rw [hval, or_iff_left fun hand => Option.some_ne_none v hand.2.symm]
  rfl

/-- A node with an integer key goes to the array part. -/
theorem toArray (h : Compacting t₀ oldhsize nhsize r i t) (hk : t.keys i = some k) {v : V}
    (hv : (t.node i).val = some v) {m : ℤ} (hm : arrayindex k = some m) (hpos : 1 ≤ m)
    (hle : m ≤ t.array.length) :
    Compacting t₀ oldhsize nhsize r (i + 1)
      (Table.setNode { t with array := t.array.set (m - 1).toNat (some v) } i {}) := by
  have hlt : (m - 1).toNat < t.array.length := by omega
  have hset : ∀ m' : ℤ, 1 ≤ m' → (t.array.set (m - 1).toNat (some v)).getD (m' - 1).toNat none =
      if m' = m then some v else t.array.getD (m' - 1).toNat none := fun m' hpos' => by
    rw [List.getD_eq_getElem?_getD, List.getElem?_set]
    by_cases heq : m' = m
    · rw [if_pos (by rw [heq]), if_pos hlt, if_pos heq]
      rfl
    · rw [if_neg (by omega), if_neg heq, List.getD_eq_getElem?_getD]
  have hempty := h.apart i k m (.inr le_rfl) hk hm hpos hle
  refine h.emptied (node_setNode_self _) (fun j hj => node_setNode_of_ne _ hj) rfl rfl rfl
    List.length_set (fun j k' m' hj hne hk' hm' hpos' _ => ?_) fun k' v' => ⟨?_, ?_⟩
  · have hmne : m' ≠ m := fun heq => by
      rw [heq] at hm'
      rw [← eq_of_arrayindex hm hm'] at hk'
      exact hne (h.unique j i k (by omega) (.inr le_rfl) hk' hk)
    exact (hset m' hpos').trans (if_neg hmne)
  · rintro ⟨m', hm', ⟨hpos', hle'⟩, hget⟩
    rw [array_setNode] at hget hle'
    rw [List.length_set] at hle'
    rw [hset m' hpos'] at hget
    split_ifs at hget with heq
    · rw [heq] at hm'
      exact .inr ⟨by rw [hk, eq_of_arrayindex hm hm'], hv.trans hget⟩
    · exact .inl ⟨m', hm', ⟨hpos', hle'⟩, hget⟩
  · rintro (⟨m', hm', ⟨hpos', hle'⟩, hget⟩ | ⟨hk', hv'⟩)
    · refine ⟨m', hm', ⟨hpos', by rwa [array_setNode, List.length_set]⟩, ?_⟩
      rw [array_setNode, hset m' hpos']
      split_ifs with heq
      · rw [heq, hempty] at hget
        cases hget
      · exact hget
    · rw [hk] at hk'
      rw [hv] at hv'
      refine ⟨m, by rw [← Option.some_inj.mp hk', hm],
        ⟨hpos, by rwa [array_setNode, List.length_set]⟩, ?_⟩
      rw [array_setNode, hset m hpos, if_pos rfl, hv']

/-- A node that stays where it is. -/
theorem stay (h : Compacting t₀ oldhsize nhsize r i t) (hk : t.keys i = some k)
    (hval : (t.node i).val.isSome) (hin : ¬t.InArray k) (hi : i < nhsize) :
    Compacting t₀ oldhsize nhsize r (i + 1)
      (t.setNode i { t.node i with next := none }) := by
  set t' := t.setNode i { t.node i with next := none } with ht
  have hkeys : t'.keys = t.keys := by
    rw [ht, keys_setNode]
    exact update_eq_self i t.keys
  have hvals : ∀ j, (t'.node j).val = (t.node j).val := fun j => by
    by_cases heq : j = i
    · rw [heq, ht, node_setNode_self]
    · rw [ht, node_setNode_of_ne _ heq]
  have hfree : ∀ j, t'.Free j ↔ t.Free j := fun j => by
    by_cases heq : j = i
    · rw [heq, Table.Free, ht, node_setNode_self, Table.Free]
    · rw [Table.Free, ht, node_setNode_of_ne _ heq, Table.Free]
  have hrel : ∀ j, (j < nhsize ∨ i + 1 ≤ j) ↔ j < nhsize ∨ i ≤ j := fun j => by omega
  exact
    { size := h.size
      array := h.array
      dummy := h.dummy
      done := fun j hj hlt => by
        by_cases heq : j = i
        · rw [heq]
          refine ⟨by rw [ht, node_setNode_self], fun hv => ?_, fun k' hk' => ?_⟩
          · rw [hvals] at hv
            rw [hv] at hval
            cases hval
          · rw [hkeys, hk] at hk'
            rw [← Option.some_inj.mp hk']
            exact hin
        · have hdone := h.done j (by omega) hlt
          rw [hvals, hfree, hkeys, ht, node_setNode_of_ne _ heq]
          exact hdone
      blank := fun j hj => by
        have hne : j ≠ i := fun heq => by
          rw [← heq, h.blank j hj] at hval
          cases hval
        rw [ht, node_setNode_of_ne _ hne, h.blank j hj]
      value := fun j v hv => by
        rw [hvals] at hv
        rw [hkeys]
        exact h.value j v hv
      unique := fun j j' k hj hj' hk hk' => by
        rw [hkeys] at hk hk'
        exact h.unique j j' k ((hrel j).mp hj) ((hrel j').mp hj') hk hk'
      apart := fun j k m hj hk => by
        rw [hkeys] at hk
        exact h.apart j k m ((hrel j).mp hj) hk
      maps := fun k v => by
        rw [h.maps k v, hkeys]
        refine or_congr_right (exists_congr fun j => ?_)
        rw [hrel, hvals]
      lastfree_le := h.lastfree_le
      lastfree := fun _ => h.lastfree (by omega)
      free_lt := fun j hj hlt hf => by
        rw [show t'.lastfree = nhsize from h.lastfree hi.le]
        exact hlt
      stays := by
        obtain ⟨s, hcard, hs⟩ := h.stays
        refine ⟨s, hcard, fun j hj hv hk => ?_⟩
        rw [hvals] at hv
        rw [hkeys] at hk
        exact hs j ((hrel j).mp hj) hv hk }

/-- A free node for a key that is beyond the new size. -/
theorem exists_free (h : Compacting t₀ oldhsize nhsize r i t) (hk : t.keys i = some k)
    (hval : (t.node i).val.isSome) (hin : ¬t.InArray k) (hi : nhsize ≤ i) (hr : r ≤ nhsize) :
    ∃ j, j < nhsize ∧ t.Free j := by
  by_contra hnone
  obtain ⟨s, hcard, hs⟩ := h.stays
  have hall : ∀ j, j < nhsize → j ∈ s := fun j hj => by
    have hdone := h.done j (by omega) hj
    refine hs j (.inl hj) ?_ hdone.2.2
    by_contra hv
    rw [Option.not_isSome_iff_eq_none] at hv
    exact hnone ⟨j, hj, hdone.2.1 hv⟩
  have hmem : i ∈ s := hs i (.inr le_rfl) hval fun k' hk' => by
    rw [hk] at hk'
    rw [← Option.some_inj.mp hk']
    exact hin
  have hsub : insert i (Finset.range nhsize) ⊆ s := fun j hj => by
    obtain rfl | hj := Finset.mem_insert.mp hj
    · exact hmem
    · exact hall j (Finset.mem_range.mp hj)
  have hlarge := Finset.card_le_card hsub
  rw [Finset.card_insert_of_notMem (fun hmem => by
    have := Finset.mem_range.mp hmem
    omega), Finset.card_range] at hlarge
  omega

/-- A node beyond the new size goes to a free one. -/
theorem move (h : Compacting t₀ oldhsize nhsize r i t) (hk : t.keys i = some k)
    (hval : (t.node i).val.isSome) (hin : ¬t.InArray k) (hi : nhsize ≤ i) {n : ℕ}
    (hn : n < t.lastfree) (hfree : t.Free n)
    (hlast : ∀ j, n < j → j < t.lastfree → ¬t.Free j) {t' : Table N V}
    (ht : t' = Table.setNode { t.setNode i { t.node i with next := none } with lastfree := n } n
      { t.node i with next := none }) :
    Compacting t₀ oldhsize nhsize r (i + 1) t' := by
  have hnlt : n < nhsize := hn.trans_le h.lastfree_le
  have hni : n ≠ i := by omega
  have hself : t'.node n = { t.node i with next := none } := by rw [ht, node_setNode_self]
  have hold : t'.node i = { t.node i with next := none } := by
    rw [ht, node_setNode_of_ne _ hni.symm]
    exact node_setNode_self _
  have hother : ∀ j, j ≠ n → j ≠ i → t'.node j = t.node j := fun j hjn hji => by
    rw [ht, node_setNode_of_ne _ hjn]
    exact node_setNode_of_ne _ hji
  have hkeyn : t'.keys n = some k := by
    rw [keys_eq, hself]
    exact hk
  have harray : t'.array = t.array := by rw [ht]; rfl
  have hrel : ∀ j, (j < nhsize ∨ i + 1 ≤ j) → j ≠ i := fun j hj => by omega
  -- the node that holds what the node j held
  have hfrom : ∀ j, (j < nhsize ∨ i + 1 ≤ j) → j ≠ n →
      t'.keys j = t.keys j ∧ (t'.node j).val = (t.node j).val := fun j hj hjn => by
    rw [keys_eq, hother j hjn (hrel j hj), keys_eq]
    exact ⟨rfl, rfl⟩
  exact
    { size := by rw [ht]; exact h.size
      array := by rw [harray, h.array]
      dummy := by rw [ht]; exact h.dummy
      done := fun j hj hlt => by
        by_cases heq : j = n
        · rw [heq]
          refine ⟨by rw [hself], fun hv => ?_, fun k' hk' => ?_⟩
          · rw [hself] at hv
            rw [show (t.node i).val = none from hv] at hval
            cases hval
          · rw [hkeyn] at hk'
            rw [inArray_congr harray, ← Option.some_inj.mp hk']
            exact hin
        · have hne : j ≠ i := by omega
          have hdone := h.done j (by omega) hlt
          rw [hother j heq hne, Table.Free, hother j heq hne, keys_eq, hother j heq hne]
          refine ⟨hdone.1, hdone.2.1, fun k hk => ?_⟩
          rw [inArray_congr harray]
          exact hdone.2.2 k hk
      blank := fun j hj => by
        have hlt : i < oldhsize := by
          by_contra hge
          rw [h.blank i (Nat.le_of_not_lt hge)] at hval
          cases hval
        rw [hother j (by omega) (by omega), h.blank j hj]
      value := fun j v hv => by
        by_cases hjn : j = n
        · rw [hjn]
          exact ⟨k, hkeyn⟩
        · by_cases hji : j = i
          · rw [hji, keys_eq, hold]
            exact ⟨k, hk⟩
          · rw [hother j hjn hji] at hv
            rw [keys_eq, hother j hjn hji]
            exact h.value j v hv
      unique := fun j j' k' hj hj' hk₁ hk₂ => by
        by_cases hjn : j = n
        · by_cases hjn' : j' = n
          · exact hjn.trans hjn'.symm
          · rw [hjn, hkeyn] at hk₁
            rw [(hfrom j' hj' hjn').1, ← Option.some_inj.mp hk₁] at hk₂
            exact absurd (h.unique j' i k (by omega) (.inr le_rfl) hk₂ hk) (hrel j' hj')
        · rw [(hfrom j hj hjn).1] at hk₁
          by_cases hjn' : j' = n
          · rw [hjn', hkeyn] at hk₂
            rw [← Option.some_inj.mp hk₂] at hk₁
            exact absurd (h.unique j i k (by omega) (.inr le_rfl) hk₁ hk) (hrel j hj)
          · rw [(hfrom j' hj' hjn').1] at hk₂
            exact h.unique j j' k' (by omega) (by omega) hk₁ hk₂
      apart := fun j k' m hj hk' => by
        rw [harray]
        by_cases hjn : j = n
        · rw [hjn, hkeyn] at hk'
          rw [← Option.some_inj.mp hk']
          exact h.apart i k m (.inr le_rfl) hk
        · rw [(hfrom j hj hjn).1] at hk'
          exact h.apart j k' m (by omega) hk'
      maps := fun k' v => by
        rw [h.maps k' v, Table.ArrayMaps, Table.ArrayMaps, harray]
        refine or_congr_right ⟨?_, ?_⟩
        · rintro ⟨j, hj, hkj, hv⟩
          by_cases hji : j = i
          · rw [hji] at hkj hv
            refine ⟨n, .inl hnlt, ?_, by rwa [hself]⟩
            rw [hkeyn, ← hkj, hk]
          · have hjn : j ≠ n := fun heq => by
              rw [heq, keys_of_free hfree] at hkj
              cases hkj
            refine ⟨j, by omega, ?_, ?_⟩
            · rwa [(hfrom j (by omega) hjn).1]
            · rwa [(hfrom j (by omega) hjn).2]
        · rintro ⟨j, hj, hkj, hv⟩
          by_cases hjn : j = n
          · rw [hjn] at hkj hv
            rw [hkeyn] at hkj
            rw [hself] at hv
            exact ⟨i, .inr le_rfl, by rw [hk, hkj], hv⟩
          · rw [(hfrom j hj hjn).1] at hkj
            rw [(hfrom j hj hjn).2] at hv
            exact ⟨j, by omega, hkj, hv⟩
      lastfree_le := by rw [ht]; exact hnlt.le
      lastfree := fun hle => absurd hle (by omega)
      free_lt := fun j hj hlt hf => by
        have hjn : j ≠ n := fun heq => by
          rw [heq, Table.Free, hself] at hf
          rw [keys_eq, show (t.node i).key = .nil from hf] at hk
          cases hk
        rw [Table.Free, hother j hjn (by omega)] at hf
        have hold := h.free_lt j (by omega) hlt hf
        rw [ht]
        change j < n
        by_contra hge
        exact hlast j (by omega) hold hf
      stays := by
        obtain ⟨s, hcard, hs⟩ := h.stays
        have hmem : i ∈ s := hs i (.inr le_rfl) hval fun k' hk' => by
          rw [hk] at hk'
          rw [← Option.some_inj.mp hk']
          exact hin
        refine ⟨insert n (s.erase i), ?_, fun j hj hv hkj => ?_⟩
        · have hle := Finset.card_insert_le n (s.erase i)
          rw [Finset.card_erase_of_mem hmem] at hle
          have hpos := Finset.card_pos.mpr ⟨i, hmem⟩
          omega
        · by_cases hjn : j = n
          · rw [hjn]
            exact Finset.mem_insert_self ..
          · rw [(hfrom j hj hjn).2] at hv
            rw [(hfrom j hj hjn).1] at hkj
            refine Finset.mem_insert_of_mem (Finset.mem_erase.mpr ⟨hrel j hj, ?_⟩)
            refine hs j (by omega) hv fun k hk => ?_
            rw [← inArray_congr harray]
            exact hkj k hk }

/-- A round of the first loop. -/
theorem step (h : Compacting t₀ oldhsize nhsize r i t) (hr : r ≤ nhsize) :
    ∃ t', compactNode nhsize t i = .ok t' ∧ Compacting t₀ oldhsize nhsize r (i + 1) t' := by
  rw [compactNode]
  dsimp only
  rw [node_setNode_self]
  dsimp only
  cases hv : (t.node i).val with
  | none =>
    refine ⟨_, if_pos rfl, ?_⟩
    rw [setNode_idem]
    exact h.clear hv
  | some v =>
    rw [if_neg (by rw [Option.isNone_some]; exact Bool.false_ne_true), ← hv]
    obtain ⟨k, hk⟩ := h.value i v hv
    have hval : (t.node i).val.isSome := by rw [hv, Option.isSome_some]
    set t₁ := t.setNode i { t.node i with next := none } with ht₁
    have hk₁ : t₁.keys i = some k := by
      rw [ht₁, keys_setNode, update_self]
      exact hk
    obtain ⟨heq, hin⟩ | ⟨m, hm, hpos, hle, heq⟩ := tryMoveNumber_spec hk₁
    · rw [heq]
      dsimp only
      split_ifs with hi
      · have hother : ∀ j, j ≠ i → t₁.node j = t.node j := fun j hj => node_setNode_of_ne _ hj
        obtain ⟨n, hfound, hn, hfree, hlast⟩ | ⟨-, hnone⟩ := freepos_spec t₁.node t.lastfree
        · have hni : n ≠ i := fun heq => by
            rw [heq, ht₁, node_setNode_self] at hfree
            rw [keys_eq, show (t.node i).key = .nil from hfree] at hk
            cases hk
          rw [getfreepos, ht₁, lastfree_setNode, ← ht₁, hfound]
          refine ⟨_, rfl, h.move hk hval hin hi hn ?_ (fun j hj hj' => ?_) ?_⟩
          · rwa [hother n hni] at hfree
          · have hji : j ≠ i := by
              have := h.lastfree_le
              omega
            have := hlast j hj hj'
            rwa [hother j hji] at this
          · rw [show Table.node { t₁ with lastfree := n } i = { t.node i with next := none } from
              node_setNode_self _]
        · obtain ⟨j, hj, hfree⟩ := h.exists_free hk hval hin hi hr
          have hji : j ≠ i := by omega
          have := hnone j (h.free_lt j (by omega) hj hfree)
          rw [hother j hji] at this
          exact absurd hfree this
      · exact ⟨_, rfl, h.stay hk hval hin (Nat.lt_of_not_le hi)⟩
    · rw [heq]
      refine ⟨_, rfl, ?_⟩
      rw [ht₁, node_setNode_self, array_setNode, hv]
      have hidem := setNode_idem (t := { t with array := t.array.set (m - 1).toNat (some v) })
        (i := i) { t.node i with next := none } {}
      exact hidem ▸ h.toArray hk hv hm hpos hle

/-- The first loop. -/
theorem run (hr : r ≤ nhsize) (n : ℕ) (h : Compacting t₀ oldhsize nhsize r 0 t) :
    ∃ t', (List.range n).foldlM (compactNode nhsize) t = .ok t' ∧
      Compacting t₀ oldhsize nhsize r n t' := by
  induction n with
  | zero => exact ⟨t, rfl, h⟩
  | succ n ih =>
    obtain ⟨t', heq, h'⟩ := ih
    obtain ⟨t'', heq', h''⟩ := h'.step hr
    refine ⟨t'', ?_, h''⟩
    rw [List.range_succ, List.foldlM_append, heq]
    exact (bind_pure _).trans heq'

end Compacting

end ELuaBrain.Lua.Tables
