import ELuaBrain.Lua.Compact

/-!
# Making the chains again

The second loop of `resize_hashpart`. It calls `move_node` for each node until the node is on the
chain of its main position.

## Main definitions

* `Room` : so many nodes are taken at most.
* `Chaining` : the nodes between two moves.
* `Moved` : what a move changes.

## Main results

* `moveNode_spec` : what `move_node` does.
* `chainNodes_spec` : the loop.
-/

namespace ELuaBrain.Lua.Tables

open Function Links

variable {N V : Type} [LuaNumber N] [DecidableEq N] {t : Table N V} {k k' : Key N} {i j m : ℕ}
  {pending : Finset ℕ}

/-- The nodes that are taken are not more than that. -/
def Room (t : Table N V) (r : ℕ) : Prop :=
  ∃ s : Finset ℕ, s.card ≤ r ∧ ∀ j, ¬t.Free j → j ∈ s

/-- The nodes between two moves. A node without a value has no key. -/
structure Chaining (t : Table N V) (pending : Finset ℕ) : Prop extends Hashed t pending where
  cleared : ∀ j, (t.node j).val = none → t.Free j

/-- What a move changes. -/
structure Moved (t t' : Table N V) : Prop where
  array : t'.array = t.array
  lsizenode : t'.lsizenode = t.lsizenode
  lastfree : t'.lastfree = t.lastfree
  dummy : t'.dummy = t.dummy
  stores : ∀ k v, t'.Stores k v ↔ t.Stores k v
  room : ∀ r, Room t r → Room t' r

omit [LuaNumber N] [DecidableEq N] in
theorem Moved.refl (t : Table N V) : Moved t t :=
  ⟨rfl, rfl, rfl, rfl, fun _ _ => Iff.rfl, fun _ h => h⟩

omit [LuaNumber N] [DecidableEq N] in
theorem Moved.trans {t₁ t₂ t₃ : Table N V} (h : Moved t₁ t₂) (h' : Moved t₂ t₃) : Moved t₁ t₃ where
  array := h'.array.trans h.array
  lsizenode := h'.lsizenode.trans h.lsizenode
  lastfree := h'.lastfree.trans h.lastfree
  dummy := h'.dummy.trans h.dummy
  stores k v := (h'.stores k v).trans (h.stores k v)
  room r hr := h'.room r (h.room r hr)

omit [LuaNumber N] [DecidableEq N] in
theorem room_of_free {t' : Table N V} (h : ∀ j, t'.Free j ↔ t.Free j) (r : ℕ) (hr : Room t r) :
    Room t' r := by
  obtain ⟨s, hcard, hs⟩ := hr
  exact ⟨s, hcard, fun j hj => hs j fun hf => hj ((h j).mpr hf)⟩

namespace Chaining

theorem val_isSome (h : Chaining t pending) (hk : t.keys i = some k) :
    (t.node i).val.isSome := by
  by_contra hv
  rw [Option.not_isSome_iff_eq_none] at hv
  rw [keys_of_free (h.cleared i hv)] at hk
  cases hk

/-- The nodes exchange what they hold, up to the links. -/
theorem exchange (h : Chaining t pending) (hk : t.keys i = some k) (hk' : t.keys m = some k')
    (hne : i ≠ m) {t' : Table N V} {pending' : Finset ℕ} (harray : t'.array = t.array)
    (hsize : t'.lsizenode = t.lsizenode) (hlast : t'.lastfree = t.lastfree)
    (hdummy : t'.dummy = t.dummy)
    (hi : (t'.node i).key = (t.node m).key ∧ (t'.node i).val = (t.node m).val)
    (hm : (t'.node m).key = (t.node i).key ∧ (t'.node m).val = (t.node i).val)
    (hother : ∀ j, j ≠ i → j ≠ m →
      (t'.node j).key = (t.node j).key ∧ (t'.node j).val = (t.node j).val)
    (hblank : ∀ j, t.sizenode ≤ j → t'.node j = t.node j)
    (hscatter : Scatter (mainposition t.lsizenode) t'.nexts
      (update (update t.keys i (some k')) m (some k)) t.Free pending') :
    Chaining t' pending' ∧ Moved t t' := by
  have hkeys : t'.keys = update (update t.keys i (some k')) m (some k) := by
    funext j
    by_cases hjm : j = m
    · rw [hjm, update_self, keys_eq, hm.1]
      exact hk
    · rw [update_of_ne hjm]
      by_cases hji : j = i
      · rw [hji, update_self, keys_eq, hi.1]
        exact hk'
      · rw [update_of_ne hji, keys_eq, (hother j hji hjm).1, keys_eq]
  have hfree : t'.Free = t.Free := by
    have hif : ¬t.Free i := fun hf => by
      rw [keys_of_free hf] at hk
      cases hk
    have hmf : ¬t.Free m := fun hf => by
      rw [keys_of_free hf] at hk'
      cases hk'
    funext j
    by_cases hjm : j = m
    · rw [hjm, Table.Free, hm.1]
      exact propext (iff_of_false hif hmf)
    · by_cases hji : j = i
      · rw [hji, Table.Free, hi.1]
        exact propext (iff_of_false hmf hif)
      · rw [Table.Free, (hother j hji hjm).1, Table.Free]
  refine ⟨⟨⟨?_, fun j hj => ?_, fun j v hv => ?_, fun j k₁ hk₁ => ?_⟩, fun j hv => ?_⟩,
    harray, hsize, hlast, hdummy, fun k₁ v => ⟨?_, ?_⟩, room_of_free fun j => by rw [hfree]⟩
  · rwa [hsize, hkeys, hfree]
  · have hj' : t.sizenode ≤ j := by rwa [Table.sizenode, hsize] at hj
    rw [hblank j hj', h.blank j hj']
  · rw [hkeys]
    by_cases hjm : j = m
    · rw [hjm, update_self]
      exact ⟨k, rfl⟩
    · rw [update_of_ne hjm]
      by_cases hji : j = i
      · rw [hji, update_self]
        exact ⟨k', rfl⟩
      · rw [update_of_ne hji]
        rw [(hother j hji hjm).2] at hv
        exact h.value j v hv
  · rw [inArray_congr harray]
    rw [hkeys] at hk₁
    by_cases hjm : j = m
    · rw [hjm, update_self] at hk₁
      exact h.apart i k₁ (hk.trans hk₁)
    · rw [update_of_ne hjm] at hk₁
      by_cases hji : j = i
      · rw [hji, update_self] at hk₁
        exact h.apart m k₁ (hk'.trans hk₁)
      · rw [update_of_ne hji] at hk₁
        exact h.apart j k₁ hk₁
  · rw [hfree]
    by_cases hjm : j = m
    · rw [hjm, hm.2] at hv
      have := h.val_isSome hk
      rw [hv] at this
      cases this
    · by_cases hji : j = i
      · rw [hji, hi.2] at hv
        have := h.val_isSome hk'
        rw [hv] at this
        cases this
      · rw [(hother j hji hjm).2] at hv
        exact h.cleared j hv
  · rintro ⟨j, hj, hv⟩
    rw [hkeys] at hj
    by_cases hjm : j = m
    · rw [hjm, update_self] at hj
      rw [hjm, hm.2] at hv
      exact ⟨i, hk.trans hj, hv⟩
    · rw [update_of_ne hjm] at hj
      by_cases hji : j = i
      · rw [hji, update_self] at hj
        rw [hji, hi.2] at hv
        exact ⟨m, hk'.trans hj, hv⟩
      · rw [update_of_ne hji] at hj
        rw [(hother j hji hjm).2] at hv
        exact ⟨j, hj, hv⟩
  · rintro ⟨j, hj, hv⟩
    by_cases hjm : j = m
    · rw [hjm] at hj hv
      refine ⟨i, ?_, by rwa [hi.2]⟩
      rw [hkeys, update_of_ne hne, update_self, ← hj, hk']
    · by_cases hji : j = i
      · rw [hji] at hj hv
        refine ⟨m, ?_, by rwa [hm.2]⟩
        rw [hkeys, update_self, ← hj, hk]
      · refine ⟨j, ?_, by rwa [(hother j hji hjm).2]⟩
        rwa [hkeys, update_of_ne hjm, update_of_ne hji]

/-- A node goes to its main position, and the one that was there takes its place, on no chain. -/
theorem swap (h : Chaining t pending) (hi : i ∈ pending) (hk : t.keys i = some k)
    (hmp : mainposition t.lsizenode k = m) (hm : m ∈ pending) (hne : i ≠ m) {t' : Table N V}
    (ht : t' = (t.setNode i (t.node m)).setNode m (t.node i)) :
    ∃ pending', Chaining t' pending' ∧ Moved t t' ∧ pending' ⊆ pending.erase m := by
  obtain ⟨k', hk', haway⟩ := h.scatter.pending_away m hm
  have hself : t'.node m = t.node i := by rw [ht, node_setNode_self]
  have hother : t'.node i = t.node m := by
    rw [ht, node_setNode_of_ne _ hne, node_setNode_self]
  have hrest : ∀ j, j ≠ i → j ≠ m → t'.node j = t.node j := fun j hji hjm => by
    rw [ht, node_setNode_of_ne _ hjm, node_setNode_of_ne _ hji]
  have hlast := (h.scatter.pending_isolated i hi).last
  have hlast' := (h.scatter.pending_isolated m hm).last
  have hnexts : t'.nexts = t.nexts := by
    funext j
    by_cases hjm : j = m
    · rw [hjm, hlast', Table.nexts, hself]
      exact hlast
    · by_cases hji : j = i
      · rw [hji, hlast, Table.nexts, hother]
        exact hlast'
      · rw [Table.nexts, hrest j hji hjm, Table.nexts]
  have hlt : i < t.sizenode := h.keys_lt hk
  have hlt' : m < t.sizenode := h.keys_lt hk'
  have hcleared := (h.scatter.clear hi).clear (Finset.mem_erase.mpr ⟨hne.symm, hm⟩)
  have hother' : ∀ j, j ≠ m → update (update t.keys i none) m none j ≠ some k := fun j hjm hj => by
    rw [update_of_ne hjm] at hj
    by_cases hji : j = i
    · rw [hji, update_self] at hj
      cases hj
    · rw [update_of_ne hji] at hj
      exact hji (h.scatter.unique j i k hj hk)
  have hfilled := hcleared.fill (k := k) (Finset.notMem_erase m _) hother' hmp
  rw [update_idem] at hfilled
  have hfresh : ∀ j, update (update t.keys i none) m (some k) j ≠ some k' := fun j hj => by
    by_cases hjm : j = m
    · rw [hjm, update_self] at hj
      rw [← hj] at hk'
      exact hne (h.scatter.unique i m k hk hk')
    · rw [update_of_ne hjm] at hj
      by_cases hji : j = i
      · rw [hji, update_self] at hj
        cases hj
      · rw [update_of_ne hji] at hj
        exact hjm (h.scatter.unique j m k' hj hk')
  have hkeys : update (update (update t.keys i none) m (some k)) i (some k') =
      update (update t.keys i (some k')) m (some k) := by
    rw [update_comm hne.symm, update_idem]
  have hfree : (fun j => (((t.Free j ∨ j = i) ∨ j = m) ∧ j ≠ m) ∧ j ≠ i) = t.Free := by
    funext j
    refine propext ⟨fun hj => ?_, fun hj => ⟨⟨.inl (.inl hj), ?_⟩, ?_⟩⟩
    · exact (hj.1.1.resolve_right hj.1.2).resolve_right hj.2
    · exact fun heq => h.scatter.not_free_of_pending hm (heq ▸ hj)
    · exact fun heq => h.scatter.not_free_of_pending hi (heq ▸ hj)
  have hfinish : ∀ pending', Scatter (mainposition t.lsizenode) t.nexts
      (update (update t.keys i (some k')) m (some k)) t.Free pending' →
      Chaining t' pending' ∧ Moved t t' := fun pending' hscatter =>
    h.exchange hk hk' hne (by rw [ht]; rfl) (by rw [ht]; rfl) (by rw [ht]; rfl) (by rw [ht]; rfl)
      (by rw [hother]; exact ⟨rfl, rfl⟩) (by rw [hself]; exact ⟨rfl, rfl⟩)
      (fun j hji hjm => by rw [hrest j hji hjm]; exact ⟨rfl, rfl⟩)
      (fun j hj => hrest j (by omega) (by omega)) (by rwa [hnexts])
  by_cases hhome : mainposition t.lsizenode k' = i
  · have hscatter := hfilled.fill (k := k') (m := i)
      (fun hmem => Finset.notMem_erase i pending (Finset.mem_of_mem_erase hmem))
      (fun j _ => hfresh j) hhome
    rw [hkeys, hfree] at hscatter
    obtain ⟨hchain, hmoved⟩ := hfinish _ hscatter
    refine ⟨_, hchain, hmoved, fun j hj => ?_⟩
    have hj' := Finset.mem_of_mem_erase hj
    exact Finset.mem_erase.mpr ⟨Finset.ne_of_mem_erase hj, Finset.mem_of_mem_erase hj'⟩
  · have hscatter := hfilled.park (k := k') (n := i)
      ⟨.inl (.inr rfl), hne⟩ hfresh hhome
    rw [hkeys, hfree] at hscatter
    obtain ⟨hchain, hmoved⟩ := hfinish _ hscatter
    refine ⟨_, hchain, hmoved, fun j hj => ?_⟩
    obtain rfl | hj := Finset.mem_insert.mp hj
    · exact Finset.mem_erase.mpr ⟨hne, hi⟩
    · have hj' := Finset.mem_of_mem_erase hj
      exact Finset.mem_erase.mpr ⟨Finset.ne_of_mem_erase hj, Finset.mem_of_mem_erase hj'⟩

/-- A node goes to its main position, and the one that was there takes its place in its chain. -/
theorem displace (h : Chaining t pending) (hi : i ∈ pending) (hk : t.keys i = some k)
    (hmp : mainposition t.lsizenode k = m) (hk' : t.keys m = some k')
    (haway : mainposition t.lsizenode k' ≠ m) {prev : ℕ} (hprev : t.nexts prev = some m)
    {t₁ t' : Table N V} (h₁ : t₁ = t.setNode prev { t.node prev with next := some i })
    (ht : t' = (t₁.setNode i (t₁.node m)).setNode m (t.node i)) :
    Chaining t' (pending.erase i) ∧ Moved t t' := by
  have hne : i ≠ m := fun heq => by
    obtain ⟨k₁, hk₁, haway₁⟩ := h.scatter.pending_away i hi
    rw [hk] at hk₁
    rw [← Option.some_inj.mp hk₁, hmp] at haway₁
    exact haway₁ heq.symm
  have hisolated := h.scatter.pending_isolated i hi
  have hpi : prev ≠ i := fun heq => by
    rw [heq, hisolated.last] at hprev
    cases hprev
  have hpm : prev ≠ m := h.scatter.ranked.ne hprev
  have hm : m ∉ pending := fun hmem => (h.scatter.pending_isolated m hmem).first prev hprev
  have hself : t'.node m = t.node i := by rw [ht, node_setNode_self]
  have hother : t'.node i = t.node m := by
    rw [ht, node_setNode_of_ne _ hne, node_setNode_self, h₁, node_setNode_of_ne _ hpm.symm]
  have hp : t'.node prev = { t.node prev with next := some i } := by
    rw [ht, node_setNode_of_ne _ hpm, node_setNode_of_ne _ hpi, h₁, node_setNode_self]
  have hrest : ∀ j, j ≠ i → j ≠ m → j ≠ prev → t'.node j = t.node j := fun j hji hjm hjp => by
    rw [ht, node_setNode_of_ne _ hjm, node_setNode_of_ne _ hji, h₁, node_setNode_of_ne _ hjp]
  have hnexts : t'.nexts = replace t.nexts prev m i := by
    funext j
    by_cases hjm : j = m
    · rw [hjm, replace_old, Table.nexts, hself]
      exact hisolated.last
    · by_cases hji : j = i
      · rw [hji, replace_new hne, Table.nexts, hother]
        rfl
      · by_cases hjp : j = prev
        · rw [hjp, replace_prev hpm hpi, Table.nexts, hp]
        · rw [replace_of_ne hjm hji hjp, Table.nexts, hrest j hji hjm hjp]
          rfl
  have hlt : i < t.sizenode := h.keys_lt hk
  have hlt' : m < t.sizenode := h.keys_lt hk'
  have hplt : prev < t.sizenode := by
    by_contra hge
    have := (h.scatter.free_isolated prev (free_of_blank (h.blank prev (by omega)))).last
    rw [hprev] at this
    cases this
  have hcleared := h.scatter.clear hi
  have hdisplaced := hcleared.displace (k := k') (fun hmem => hm (Finset.mem_of_mem_erase hmem))
    (by rw [update_of_ne hne.symm, hk']) haway (n := i) (.inr rfl) hprev
  have hfilled := hdisplaced.fill (k := k) (fun hmem => hm (Finset.mem_of_mem_erase hmem))
    (fun j hjm hj => by
      rw [update_of_ne hjm] at hj
      by_cases hji : j = i
      · rw [hji, update_self] at hj
        rw [hj] at hk'
        exact hne (h.scatter.unique i m k hk hk')
      · rw [update_of_ne hji, update_of_ne hji] at hj
        exact hji (h.scatter.unique j i k hj hk)) hmp
  rw [update_idem, update_idem] at hfilled
  have hmf : ¬t.Free m := fun hf => by
    rw [keys_of_free hf] at hk'
    cases hk'
  have hfree : (fun j => ((t.Free j ∨ j = i) ∧ j ≠ i ∨ j = m) ∧ j ≠ m) = t.Free := by
    funext j
    refine propext ⟨fun hj => ?_, fun hj => ⟨.inl ⟨.inl hj, ?_⟩, ?_⟩⟩
    · obtain ⟨hj', hji⟩ := hj.1.resolve_right hj.2
      exact hj'.resolve_right hji
    · exact fun heq => h.scatter.not_free_of_pending hi (heq ▸ hj)
    · exact fun heq => hmf (heq ▸ hj)
  rw [hfree] at hfilled
  refine h.exchange hk hk' hne (by rw [ht, h₁]; rfl) (by rw [ht, h₁]; rfl) (by rw [ht, h₁]; rfl)
    (by rw [ht, h₁]; rfl) (by rw [hother]; exact ⟨rfl, rfl⟩) (by rw [hself]; exact ⟨rfl, rfl⟩)
    (fun j hji hjm => ?_) (fun j hj => hrest j (by omega) (by omega) (by omega))
    (by rwa [hnexts])
  by_cases hjp : j = prev
  · rw [hjp, hp]
    exact ⟨rfl, rfl⟩
  · rw [hrest j hji hjm hjp]
    exact ⟨rfl, rfl⟩

/-- A node is linked in behind its main position. -/
theorem link (h : Chaining t pending) (hi : i ∈ pending) (hk : t.keys i = some k)
    (hmp : mainposition t.lsizenode k = m) (hk' : t.keys m = some k')
    (hhome : mainposition t.lsizenode k' = m) {t₁ t' : Table N V}
    (h₁ : t₁ = t.setNode i { t.node i with next := t.nexts m })
    (ht : t' = t₁.setNode m { t₁.node m with next := some i }) :
    Chaining t' (pending.erase i) ∧ Moved t t' := by
  have hne : i ≠ m := fun heq => by
    obtain ⟨k₁, hk₁, haway₁⟩ := h.scatter.pending_away i hi
    rw [hk] at hk₁
    rw [← Option.some_inj.mp hk₁, hmp] at haway₁
    exact haway₁ heq.symm
  have hnode : ∀ j, t'.node j =
      { t.node j with next := insertAfter t.nexts m i j } := fun j => by
    by_cases hjm : j = m
    · rw [hjm, insertAfter_self, ht, node_setNode_self, h₁, node_setNode_of_ne _ hne.symm]
    · rw [ht, node_setNode_of_ne _ hjm]
      by_cases hji : j = i
      · rw [hji, insertAfter_new hne, h₁, node_setNode_self]
      · rw [insertAfter_of_ne hjm hji, h₁, node_setNode_of_ne _ hji]
        rfl
  have hnexts : t'.nexts = insertAfter t.nexts m i := by
    funext j
    rw [Table.nexts, hnode]
  have hkeys : t'.keys = t.keys := by
    funext j
    rw [keys_eq, hnode, keys_eq]
  have hfree : t'.Free = t.Free := by
    funext j
    rw [Table.Free, hnode, Table.Free]
  have harray : t'.array = t.array := by rw [ht, h₁]; rfl
  have hsize : t'.lsizenode = t.lsizenode := by rw [ht, h₁]; rfl
  have hlink := h.scatter.link hi hk (hmp ▸ hne) (by rw [hmp, hk']) (by rw [hmp, hhome])
  rw [hmp] at hlink
  have hlt : i < t.sizenode := h.keys_lt hk
  have hlt' : m < t.sizenode := h.keys_lt hk'
  refine ⟨⟨⟨?_, fun j hj => ?_, fun j v hv => ?_, fun j k₁ hk₁ => ?_⟩, fun j hv => ?_⟩,
    harray, hsize, by rw [ht, h₁]; rfl, by rw [ht, h₁]; rfl, fun k₁ v => ?_,
    room_of_free fun j => by rw [hfree]⟩
  · rwa [hsize, hnexts, hkeys, hfree]
  · have hj' : t.sizenode ≤ j := by rwa [Table.sizenode, hsize] at hj
    have hjm : j ≠ m := by omega
    have hji : j ≠ i := by omega
    rw [ht, node_setNode_of_ne _ hjm, h₁, node_setNode_of_ne _ hji, h.blank j hj']
  · rw [hnode] at hv
    rw [hkeys]
    exact h.value j v hv
  · rw [inArray_congr harray]
    rw [hkeys] at hk₁
    exact h.apart j k₁ hk₁
  · rw [hnode] at hv
    rw [hfree]
    exact h.cleared j hv
  · refine exists_congr fun j => ?_
    rw [hkeys, hnode]

/-- A node goes to its main position, which is free. -/
theorem free (h : Chaining t pending) (hi : i ∈ pending) (hk : t.keys i = some k)
    (hmp : mainposition t.lsizenode k = m) (hm : t.Free m) {t' : Table N V}
    (ht : t' = (t.setNode m (t.node i)).setNode i {}) :
    Chaining t' (pending.erase i) ∧ Moved t t' := by
  have hif : ¬t.Free i := h.scatter.not_free_of_pending hi
  have hne : i ≠ m := fun heq => hif (heq ▸ hm)
  have hmv : (t.node m).val = none := Sound.val_of_free h.toHashed hm
  have hself : t'.node i = {} := by rw [ht, node_setNode_self]
  have hother : t'.node m = t.node i := by
    rw [ht, node_setNode_of_ne _ hne.symm, node_setNode_self]
  have hrest : ∀ j, j ≠ i → j ≠ m → t'.node j = t.node j := fun j hji hjm => by
    rw [ht, node_setNode_of_ne _ hji, node_setNode_of_ne _ hjm]
  have hmlast := (h.scatter.free_isolated m hm).last
  have hilast := (h.scatter.pending_isolated i hi).last
  have hnexts : t'.nexts = t.nexts := by
    funext j
    by_cases hji : j = i
    · rw [hji, hilast, Table.nexts, hself]
    · by_cases hjm : j = m
      · rw [hjm, hmlast, Table.nexts, hother]
        exact hilast
      · rw [Table.nexts, hrest j hji hjm, Table.nexts]
  have hkeys : t'.keys = update (update t.keys i none) m (some k) := by
    funext j
    by_cases hjm : j = m
    · rw [hjm, update_self, keys_eq, hother]
      exact hk
    · rw [update_of_ne hjm]
      by_cases hji : j = i
      · rw [hji, update_self]
        exact keys_of_free (free_of_blank hself)
      · rw [update_of_ne hji, keys_eq, hrest j hji hjm, keys_eq]
  have hfree : ∀ j, t'.Free j ↔ (t.Free j ∨ j = i) ∧ j ≠ m := fun j => by
    by_cases hjm : j = m
    · rw [hjm, Table.Free, hother]
      exact iff_of_false hif fun hand => hand.2 rfl
    · by_cases hji : j = i
      · rw [hji]
        exact iff_of_true (free_of_blank hself) ⟨.inr rfl, hne⟩
      · rw [Table.Free, hrest j hji hjm]
        exact ⟨fun hf => ⟨.inl hf, hjm⟩, fun hand => hand.1.resolve_right hji⟩
  have hcleared := (h.scatter.clear hi).fill (k := k) (m := m) (fun hmem =>
      h.scatter.not_free_of_pending (Finset.mem_of_mem_erase hmem) hm)
    (fun j _ hj => by
      by_cases hji : j = i
      · rw [hji, update_self] at hj
        cases hj
      · rw [update_of_ne hji] at hj
        exact hji (h.scatter.unique j i k hj hk)) hmp
  have harray : t'.array = t.array := by rw [ht]; rfl
  have hsize : t'.lsizenode = t.lsizenode := by rw [ht]; rfl
  have hlt : i < t.sizenode := h.keys_lt hk
  have hmlt : m < t.sizenode := hmp ▸ Sound.mp_lt t k
  refine ⟨⟨⟨?_, fun j hj => ?_, fun j v hv => ?_, fun j k₁ hk₁ => ?_⟩, fun j hv => ?_⟩,
    harray, hsize, by rw [ht]; rfl, by rw [ht]; rfl, fun k₁ v => ⟨?_, ?_⟩, ?_⟩
  · rw [hsize, hnexts, hkeys, show t'.Free = _ from funext fun j => propext (hfree j)]
    exact hcleared
  · have hj' : t.sizenode ≤ j := by rwa [Table.sizenode, hsize] at hj
    rw [hrest j (by omega) (by omega), h.blank j hj']
  · rw [hkeys]
    by_cases hjm : j = m
    · rw [hjm, update_self]
      exact ⟨k, rfl⟩
    · have hji : j ≠ i := fun heq => by
        rw [heq, hself] at hv
        cases hv
      rw [hrest j hji hjm] at hv
      rw [update_of_ne hjm, update_of_ne hji]
      exact h.value j v hv
  · rw [inArray_congr harray]
    rw [hkeys] at hk₁
    by_cases hjm : j = m
    · rw [hjm, update_self] at hk₁
      exact h.apart i k₁ (hk.trans hk₁)
    · rw [update_of_ne hjm] at hk₁
      by_cases hji : j = i
      · rw [hji, update_self] at hk₁
        cases hk₁
      · rw [update_of_ne hji] at hk₁
        exact h.apart j k₁ hk₁
  · rw [hfree]
    by_cases hjm : j = m
    · rw [hjm, hother] at hv
      have := h.val_isSome hk
      rw [hv] at this
      cases this
    · by_cases hji : j = i
      · exact ⟨.inr hji, hjm⟩
      · rw [hrest j hji hjm] at hv
        exact ⟨.inl (h.cleared j hv), hjm⟩
  · rintro ⟨j, hj, hv⟩
    rw [hkeys] at hj
    by_cases hjm : j = m
    · rw [hjm, update_self] at hj
      rw [hjm, hother] at hv
      exact ⟨i, hk.trans hj, hv⟩
    · have hji : j ≠ i := fun heq => by
        rw [heq, hself] at hv
        cases hv
      rw [update_of_ne hjm, update_of_ne hji] at hj
      rw [hrest j hji hjm] at hv
      exact ⟨j, hj, hv⟩
  · rintro ⟨j, hj, hv⟩
    have hjm : j ≠ m := fun heq => by
      rw [heq, hmv] at hv
      cases hv
    by_cases hji : j = i
    · rw [hji] at hj hv
      refine ⟨m, ?_, by rwa [hother]⟩
      rw [hkeys, update_self, ← hj, hk]
    · refine ⟨j, ?_, by rwa [hrest j hji hjm]⟩
      rwa [hkeys, update_of_ne hjm, update_of_ne hji]
  · rintro r ⟨s, hcard, hs⟩
    refine ⟨insert m (s.erase i), ?_, fun j hj => ?_⟩
    · have hle := Finset.card_insert_le m (s.erase i)
      have hmem := hs i hif
      have hpos := Finset.card_pos.mpr ⟨i, hmem⟩
      rw [Finset.card_erase_of_mem hmem] at hle
      omega
    · rw [hfree] at hj
      by_cases hjm : j = m
      · rw [hjm]
        exact Finset.mem_insert_self ..
      · have hji : j ≠ i := fun heq => hj ⟨.inr heq, hjm⟩
        refine Finset.mem_insert_of_mem (Finset.mem_erase.mpr ⟨hji, hs j fun hf => ?_⟩)
        exact hj ⟨.inl hf, hjm⟩

/-- A node is on the chain of its main position if a search for the one before it finds one. -/
theorem found_iff (h : Chaining t pending) (hk : t.keys i = some k)
    (hne : mainposition t.lsizenode k ≠ i) :
    (∃ p, findPrevNode t (mainposition t.lsizenode k) i = .ok (some p) ∧ t.nexts p = some i ∧
      i ∉ pending) ∨
    findPrevNode t (mainposition t.lsizenode k) i = .ok none ∧ i ∈ pending := by
  obtain ⟨p, heq, hstop, -⟩ | ⟨heq, hall⟩ := h.along_spec (Sound.mp_lt t k)
    fun prev => decide (t.nexts prev = some i)
  · have hlink := of_decide_eq_true hstop
    exact .inl ⟨p, heq, hlink, fun hmem => (h.scatter.pending_isolated i hmem).first p hlink⟩
  · refine .inr ⟨heq, ?_⟩
    by_contra hmem
    obtain ⟨p, hp, hlink⟩ := (h.scatter.reach i k hk hmem).exists_prev hne
    exact absurd hlink (of_decide_eq_false (hall p hp))

end Chaining

/-- **`move_node`.** The node is on its chain, or another one took its place and one node less is
on no chain. -/
theorem moveNode_spec (h : Chaining t pending) (hdummy : t.dummy = false)
    (hval : (t.node i).val.isSome) :
    ∃ t' done pending', moveNode t i = .ok (t', done) ∧ Chaining t' pending' ∧ Moved t t' ∧
      pending' ⊆ pending ∧ (done = true → i ∉ pending') ∧
      (done = false → (t'.node i).val.isSome ∧ pending'.card < pending.card) := by
  obtain ⟨v, hv⟩ := Option.isSome_iff_exists.mp hval
  obtain ⟨k, hk⟩ := h.value i v hv
  rw [moveNode, mainposition_of_keys hk]
  dsimp only
  by_cases hmp : mainposition t.lsizenode k = i
  · refine ⟨t, true, pending, if_pos hmp, h, Moved.refl t, subset_rfl, fun _ hmem => ?_,
      fun hd => ?_⟩
    · obtain ⟨k', hk', haway⟩ := h.scatter.pending_away i hmem
      rw [hk] at hk'
      exact haway (Option.some_inj.mp hk' ▸ hmp)
    · cases hd
  · rw [if_neg hmp]
    obtain ⟨p, heq, -, hmem⟩ | ⟨heq, hmem⟩ := h.found_iff hk hmp
    · rw [heq]
      refine ⟨t, true, pending, rfl, h, Moved.refl t, subset_rfl, fun _ => hmem, fun hd => ?_⟩
      cases hd
    · rw [heq]
      set m := mainposition t.lsizenode k with hm
      dsimp only [bind, Except.bind, Option.isSome_none]
      rw [if_neg Bool.false_ne_true]
      by_cases hmv : (t.node m).val.isSome
      · rw [if_pos (Or.inl hmv)]
        obtain ⟨v', hv'⟩ := Option.isSome_iff_exists.mp hmv
        obtain ⟨k', hk'⟩ := h.value m v' hv'
        rw [mainposition_of_keys hk']
        split_ifs with haway
        · obtain ⟨prev, hfound, hprev, -⟩ | ⟨hfound, hmem'⟩ := h.found_iff hk' haway
          · rw [hfound]
            obtain ⟨hchain, hmoved⟩ := h.displace hmem hk hm.symm hk' haway hprev rfl rfl
            refine ⟨_, _, _, rfl, hchain, hmoved, Finset.erase_subset .., fun _ =>
              Finset.notMem_erase i pending, fun hd => ?_⟩
            cases hd
          · rw [hfound]
            have hne : i ≠ m := fun heq => hmp heq.symm
            obtain ⟨pending', hchain, hmoved, hsub⟩ := h.swap hmem hk hm.symm hmem' hne rfl
            refine ⟨_, _, pending', rfl, hchain, hmoved,
              hsub.trans (Finset.erase_subset ..), fun hd => ?_, fun _ => ⟨?_, ?_⟩⟩
            · cases hd
            · rw [node_setNode_of_ne _ hne, node_setNode_self]
              exact hmv
            · exact (Finset.card_le_card hsub).trans_lt (Finset.card_erase_lt_of_mem hmem')
        · obtain ⟨hchain, hmoved⟩ := h.link hmem hk hm.symm hk' (not_not.mp haway) rfl rfl
          refine ⟨_, _, _, rfl, hchain, hmoved, Finset.erase_subset .., fun _ =>
            Finset.notMem_erase i pending, fun hd => ?_⟩
          cases hd
      · rw [if_neg (by rw [hdummy]; simpa using hmv)]
        rw [Option.not_isSome_iff_eq_none] at hmv
        obtain ⟨hchain, hmoved⟩ := h.free hmem hk hm.symm (h.cleared m hmv) rfl
        refine ⟨_, _, _, rfl, hchain, hmoved, Finset.erase_subset .., fun _ =>
          Finset.notMem_erase i pending, fun hd => ?_⟩
        cases hd

/-- The calls of `move_node` for one node end. -/
theorem moveNodes_spec (fuel : ℕ) : ∀ {t : Table N V} {pending : Finset ℕ},
    Chaining t pending → t.dummy = false → (t.node i).val.isSome → pending.card < fuel →
    ∃ t' pending', moveNodes fuel t i = .ok t' ∧ Chaining t' pending' ∧ Moved t t' ∧
      pending' ⊆ pending ∧ i ∉ pending' := by
  induction fuel with
  | zero => exact fun _ _ _ hcard => absurd hcard (Nat.not_lt_zero _)
  | succ fuel ih =>
    intro t pending h hdummy hval hcard
    obtain ⟨t₁, done, pending₁, heq, h₁, hmoved, hsub, hdone, hmore⟩ := moveNode_spec h hdummy hval
    rw [moveNodes, heq]
    cases done with
    | true => exact ⟨t₁, pending₁, rfl, h₁, hmoved, hsub, hdone rfl⟩
    | false =>
      obtain ⟨hval₁, hless⟩ := hmore rfl
      obtain ⟨t', pending', heq', h', hmoved', hsub', hmem⟩ :=
        ih h₁ (hmoved.dummy.trans hdummy) hval₁ (by omega)
      exact ⟨t', pending', heq', h', hmoved.trans hmoved', hsub'.trans hsub, hmem⟩

/-- **The second loop** puts every node on the chain of its main position. -/
theorem chainNodes_spec (h : Chaining t pending) (hdummy : t.dummy = false) (n : ℕ) :
    ∃ t' pending', (List.range n).foldlM chainNode t = .ok t' ∧ Chaining t' pending' ∧
      Moved t t' ∧ pending' ⊆ pending ∧ ∀ j, j < n → j ∉ pending' := by
  induction n with
  | zero => exact ⟨t, pending, rfl, h, Moved.refl t, subset_rfl, fun j hj => by omega⟩
  | succ n ih =>
    obtain ⟨t₁, pending₁, heq, h₁, hmoved, hsub, hnot⟩ := ih
    rw [List.range_succ, List.foldlM_append, heq]
    change ∃ t' pending', (chainNode t₁ n >>= pure) = .ok t' ∧ _
    rw [bind_pure, chainNode]
    split_ifs with hval
    · have hcard : pending₁.card < t₁.sizenode + 1 := by
        have hsub' : pending₁ ⊆ Finset.range t₁.sizenode := fun j hj => by
          obtain ⟨k, hk, -⟩ := h₁.scatter.pending_away j hj
          exact Finset.mem_range.mpr (h₁.keys_lt hk)
        have := Finset.card_le_card hsub'
        rw [Finset.card_range] at this
        omega
      obtain ⟨t₂, pending₂, heq₂, h₂, hmoved₂, hsub₂, hmem⟩ :=
        moveNodes_spec _ h₁ (hmoved.dummy.trans hdummy) hval hcard
      refine ⟨t₂, pending₂, heq₂, h₂, hmoved.trans hmoved₂, hsub₂.trans hsub, fun j hj hj' => ?_⟩
      rcases Nat.lt_succ_iff_lt_or_eq.mp hj with hlt | rfl
      · exact hnot j hlt (hsub₂ hj')
      · exact hmem hj'
    · refine ⟨t₁, pending₁, rfl, h₁, hmoved, hsub, fun j hj hj' => ?_⟩
      rcases Nat.lt_succ_iff_lt_or_eq.mp hj with hlt | rfl
      · exact hnot j hlt hj'
      · obtain ⟨k, hk, -⟩ := h₁.scatter.pending_away _ hj'
        exact hval (h₁.val_isSome hk)

end ELuaBrain.Lua.Tables
