import ELuaBrain.System.Links

/-!
# Chained scatter tables

Cells with a key and a link each. A key has a main position among the cells, and is on the chain
that starts there; a cell at a main position holds a key that belongs there. Some keys may still
be pending: they are in a cell of their own and on no chain.

## Main definitions

* `Scatter` : the invariant.
* `Unshadowed` : a search for a key finds its cell before any cell that may be mistaken for it.

## Main results

* `Scatter.clear`, `Scatter.park` : a pending key leaves its cell, or comes to a free one.
* `Scatter.link` : a pending key is linked in behind its main position.
* `Scatter.displace`, `Scatter.fill` : a key leaves the main position of another one, which goes
  there.
-/

namespace ELuaBrain.Links

variable {ι κ : Type*}

/-- The keys that are not pending are found from their main positions. -/
structure Scatter (mp : κ → ι) (next : ι → Option ι) (key : ι → Option κ) (free : ι → Prop)
    (pending : Finset ι) : Prop where
  ranked : Ranked next
  linked : Linked next
  free_isolated : ∀ i, free i → Isolated next i
  free_key : ∀ i, free i → key i = none
  pending_isolated : ∀ i ∈ pending, Isolated next i
  pending_away : ∀ i ∈ pending, ∃ k, key i = some k ∧ mp k ≠ i
  reach : ∀ i k, key i = some k → i ∉ pending → Reaches next (mp k) i
  home : ∀ i k, key i = some k → i ∉ pending →
    ¬free (mp k) ∧ ∀ k', key (mp k) = some k' → mp k' = mp k
  unique : ∀ i j k, key i = some k → key j = some k → i = j

variable {mp : κ → ι} {next : ι → Option ι} {key : ι → Option κ}
  {free : ι → Prop} {pending : Finset ι} {i j m n : ι} {k : κ}

namespace Scatter

/-- A key that is not pending is not behind an isolated cell. -/
theorem mp_ne (h : Scatter mp next key free pending) (hi : Isolated next i)
    (hj : key j = some k) (hp : j ∉ pending) (hne : j ≠ i) : mp k ≠ i := fun heq =>
  hne ((heq ▸ h.reach j k hj hp).eq_of_last hi.last).symm

theorem not_free_of_pending (h : Scatter mp next key free pending) (hi : i ∈ pending) : ¬free i :=
  fun hfree => by
    obtain ⟨k, hk, -⟩ := h.pending_away i hi
    rw [h.free_key i hfree] at hk
    cases hk

variable [DecidableEq ι]

/-- A pending key leaves its cell. -/
theorem clear (h : Scatter mp next key free pending) (hi : i ∈ pending) :
    Scatter mp next (Function.update key i none) (fun j => free j ∨ j = i) (pending.erase i) where
  ranked := h.ranked
  linked := h.linked
  free_isolated j hj := hj.elim (h.free_isolated j) fun heq => heq ▸ h.pending_isolated i hi
  free_key j hj := by
    by_cases heq : j = i
    · rw [heq, Function.update_self]
    · rw [Function.update_of_ne heq]
      exact h.free_key j (hj.resolve_right heq)
  pending_isolated j hj := h.pending_isolated j (Finset.mem_of_mem_erase hj)
  pending_away j hj := by
    rw [Function.update_of_ne (Finset.ne_of_mem_erase hj)]
    exact h.pending_away j (Finset.mem_of_mem_erase hj)
  reach j k hj hp := by
    have hne : j ≠ i := fun heq => by
      rw [heq, Function.update_self] at hj
      cases hj
    rw [Function.update_of_ne hne] at hj
    exact h.reach j k hj fun hmem => hp (Finset.mem_erase.mpr ⟨hne, hmem⟩)
  home j k hj hp := by
    have hne : j ≠ i := fun heq => by
      rw [heq, Function.update_self] at hj
      cases hj
    rw [Function.update_of_ne hne] at hj
    have hp' : j ∉ pending := fun hmem => hp (Finset.mem_erase.mpr ⟨hne, hmem⟩)
    have hmp : mp k ≠ i := h.mp_ne (h.pending_isolated i hi) hj hp' hne
    obtain ⟨hfree, hhome⟩ := h.home j k hj hp'
    refine ⟨fun hor => hor.elim hfree hmp, fun k' hk' => hhome k' ?_⟩
    rwa [Function.update_of_ne hmp] at hk'
  unique j j' k hj hj' := by
    have hne : j ≠ i := fun heq => by
      rw [heq, Function.update_self] at hj
      cases hj
    have hne' : j' ≠ i := fun heq => by
      rw [heq, Function.update_self] at hj'
      cases hj'
    rw [Function.update_of_ne hne] at hj
    rw [Function.update_of_ne hne'] at hj'
    exact h.unique j j' k hj hj'

/-- A key comes to a free cell. -/
theorem park (h : Scatter mp next key free pending) (hn : free n) (hk : ∀ i, key i ≠ some k)
    (hmp : mp k ≠ n) : Scatter mp next (Function.update key n (some k))
      (fun j => free j ∧ j ≠ n) (insert n pending) where
  ranked := h.ranked
  linked := h.linked
  free_isolated j hj := h.free_isolated j hj.1
  free_key j hj := by
    rw [Function.update_of_ne hj.2]
    exact h.free_key j hj.1
  pending_isolated j hj := by
    obtain rfl | hj := Finset.mem_insert.mp hj
    · exact h.free_isolated j hn
    · exact h.pending_isolated j hj
  pending_away j hj := by
    by_cases heq : j = n
    · rw [heq, Function.update_self]
      exact ⟨k, rfl, hmp⟩
    · rw [Function.update_of_ne heq]
      exact h.pending_away j ((Finset.mem_insert.mp hj).resolve_left heq)
  reach j k' hj hp := by
    have hne : j ≠ n := fun heq => hp (heq ▸ Finset.mem_insert_self ..)
    rw [Function.update_of_ne hne] at hj
    exact h.reach j k' hj fun hmem => hp (Finset.mem_insert_of_mem hmem)
  home j k' hj hp := by
    have hne : j ≠ n := fun heq => hp (heq ▸ Finset.mem_insert_self ..)
    rw [Function.update_of_ne hne] at hj
    obtain ⟨hfree, hhome⟩ := h.home j k' hj fun hmem => hp (Finset.mem_insert_of_mem hmem)
    refine ⟨fun hand => hfree hand.1, fun k'' hk'' => hhome k'' ?_⟩
    have hn' : mp k' ≠ n := fun heq => hfree (by rwa [heq])
    rwa [Function.update_of_ne hn'] at hk''
  unique j j' k' hj hj' := by
    by_cases hjn : j = n
    · by_cases hjn' : j' = n
      · exact hjn.trans hjn'.symm
      · rw [hjn, Function.update_self] at hj
        rw [Function.update_of_ne hjn', ← hj] at hj'
        exact absurd hj' (hk j')
    · rw [Function.update_of_ne hjn] at hj
      by_cases hjn' : j' = n
      · rw [hjn', Function.update_self] at hj'
        rw [← hj'] at hj
        exact absurd hj (hk j)
      · rw [Function.update_of_ne hjn'] at hj'
        exact h.unique j j' k' hj hj'

/-- A pending key is linked in behind its main position. -/
theorem link (h : Scatter mp next key free pending) (hi : i ∈ pending) (hk : key i = some k)
    (hne : i ≠ mp k) {k' : κ} (hmp : key (mp k) = some k') (hhome : mp k' = mp k) :
    Scatter mp (insertAfter next (mp k) i) key free (pending.erase i) where
  ranked := insertAfter_ranked h.ranked (h.pending_isolated i hi) hne
  linked := insertAfter_linked h.linked (h.pending_isolated i hi) hne
  free_isolated j hj := by
    have hnone := h.free_key j hj
    have hji : j ≠ i := fun heq => h.not_free_of_pending hi (heq ▸ hj)
    have hjm : j ≠ mp k := fun heq => by
      rw [heq, hmp] at hnone
      cases hnone
    exact (h.free_isolated j hj).insertAfter hji hjm hne
  free_key := h.free_key
  pending_isolated j hj := by
    have hj' := Finset.mem_of_mem_erase hj
    have hjm : j ≠ mp k := fun heq => by
      obtain ⟨k₂, hk₂, haway⟩ := h.pending_away j hj'
      rw [heq, hmp] at hk₂
      rw [heq, ← Option.some_inj.mp hk₂] at haway
      exact haway hhome
    exact (h.pending_isolated j hj').insertAfter (Finset.ne_of_mem_erase hj) hjm hne
  pending_away j hj := h.pending_away j (Finset.mem_of_mem_erase hj)
  reach j k'' hj hp := by
    by_cases heq : j = i
    · rw [heq, hk] at hj
      rw [heq, ← Option.some_inj.mp hj]
      exact Reaches.single (insertAfter_self ..)
    · exact reach_insertAfter (h.pending_isolated i hi) hne
        (h.reach j k'' hj fun hmem => hp (Finset.mem_erase.mpr ⟨heq, hmem⟩))
  home j k'' hj hp := by
    by_cases heq : j = i
    · rw [heq, hk] at hj
      rw [← Option.some_inj.mp hj]
      refine ⟨fun hfree => ?_, fun k₂ hk₂ => ?_⟩
      · rw [h.free_key _ hfree] at hmp
        cases hmp
      · rw [hmp] at hk₂
        rw [← Option.some_inj.mp hk₂, hhome]
    · exact h.home j k'' hj fun hmem => hp (Finset.mem_erase.mpr ⟨heq, hmem⟩)
  unique := h.unique

/-- A key that is not at home leaves for a free cell, which takes its place in its chain. -/
theorem displace (h : Scatter mp next key free pending) (hm : m ∉ pending) (hk : key m = some k)
    (hmp : mp k ≠ m) (hn : free n) {prev : ι} (hprev : next prev = some m) :
    Scatter mp (replace next prev m n) (Function.update (Function.update key n (some k)) m none)
      (fun j => free j ∧ j ≠ n ∨ j = m) pending := by
  have hnone := h.free_key n hn
  have hne : n ≠ m := fun heq => by
    rw [heq, hk] at hnone
    cases hnone
  have hisolated := h.free_isolated n hn
  have hold : ∀ j, j ≠ m → j ≠ n →
      Function.update (Function.update key n (some k)) m none j = key j := fun j hjm hjn => by
    rw [Function.update_of_ne hjm, Function.update_of_ne hjn]
  have hnew : Function.update (Function.update key n (some k)) m none n = some k := by
    rw [Function.update_of_ne hne, Function.update_self]
  have hgone : Function.update (Function.update key n (some k)) m none m = none :=
    Function.update_self ..
  have hpm : ∀ j ∈ pending, j ≠ m := fun j hj heq => hm (heq ▸ hj)
  have hpn : ∀ j ∈ pending, j ≠ n := fun j hj heq => h.not_free_of_pending hj (heq ▸ hn)
  -- the key that came from m is among the others: it keeps its main position
  have hfrom : ∀ j k', Function.update (Function.update key n (some k)) m none j = some k' →
      j ≠ m ∧ key (if j = n then m else j) = some k' := fun j k' hj => by
    have hjm : j ≠ m := fun heq => by
      rw [heq, hgone] at hj
      cases hj
    refine ⟨hjm, ?_⟩
    split_ifs with hjn
    · rw [hjn, hnew] at hj
      rw [hk, hj]
    · rwa [hold j hjm hjn] at hj
  exact
    { ranked := replace_ranked h.ranked hisolated hne hprev
      linked := replace_linked h.linked hisolated hne
      free_isolated := fun j hj => by
        obtain ⟨hj, hjn⟩ | rfl := hj
        · have hjm : j ≠ m := fun heq => by
            rw [heq] at hj
            rw [h.free_key m hj] at hk
            cases hk
          exact (h.free_isolated j hj).replace hjn hjm hne hprev
        · exact replace_isolated h.ranked h.linked hne hprev
      free_key := fun j hj => by
        obtain ⟨hj, hjn⟩ | rfl := hj
        · by_cases hjm : j = m
          · rw [hjm, hgone]
          · rw [hold j hjm hjn]
            exact h.free_key j hj
        · exact hgone
      pending_isolated := fun j hj =>
        (h.pending_isolated j hj).replace (hpn j hj) (hpm j hj) hne hprev
      pending_away := fun j hj => by
        rw [hold j (hpm j hj) (hpn j hj)]
        exact h.pending_away j hj
      reach := fun j k' hj hp => by
        obtain ⟨hjm, hkey⟩ := hfrom j k' hj
        have hp' : (if j = n then m else j) ∉ pending := by
          split_ifs
          · exact hm
          · exact hp
        have hmain : mp k' ≠ m := fun heq => by
          have hhome := (h.home _ k' hkey hp').2 k (by rwa [heq])
          exact hmp (hhome.trans heq)
        have hreach := reach_replace h.ranked h.linked hisolated hne hprev hmain
          (h.reach _ k' hkey hp')
        have hto : (if (if j = n then m else j) = m then n else if j = n then m else j) = j := by
          by_cases hjn : j = n
          · rw [if_pos hjn, if_pos rfl, hjn]
          · rw [if_neg hjn, if_neg hjm]
        rwa [hto] at hreach
      home := fun j k' hj hp => by
        obtain ⟨hjm, hkey⟩ := hfrom j k' hj
        have hp' : (if j = n then m else j) ∉ pending := by
          split_ifs
          · exact hm
          · exact hp
        obtain ⟨hfree, hhome⟩ := h.home _ k' hkey hp'
        have hmain : mp k' ≠ m := fun heq => hmp ((hhome k (by rwa [heq])).trans heq)
        have hmain' : mp k' ≠ n := fun heq => hfree (by rwa [heq])
        refine ⟨fun hor => hor.elim (fun hand => hfree hand.1) hmain, fun k'' hk'' => ?_⟩
        rw [hold _ hmain hmain'] at hk''
        exact hhome k'' hk''
      unique := fun j j' k' hj hj' => by
        obtain ⟨hjm, hkey⟩ := hfrom j k' hj
        obtain ⟨hjm', hkey'⟩ := hfrom j' k' hj'
        have heq := h.unique _ _ k' hkey hkey'
        by_cases hjn : j = n
        · by_cases hjn' : j' = n
          · exact hjn.trans hjn'.symm
          · rw [if_pos hjn, if_neg hjn'] at heq
            exact absurd heq.symm hjm'
        · by_cases hjn' : j' = n
          · rw [if_neg hjn, if_pos hjn'] at heq
            exact absurd heq hjm
          · rwa [if_neg hjn, if_neg hjn'] at heq }

/-- A key comes to its main position. -/
theorem fill (h : Scatter mp next key free pending) (hm : m ∉ pending)
    (hk : ∀ i, i ≠ m → key i ≠ some k) (hmp : mp k = m) :
    Scatter mp next (Function.update key m (some k)) (fun j => free j ∧ j ≠ m) pending where
  ranked := h.ranked
  linked := h.linked
  free_isolated j hj := h.free_isolated j hj.1
  free_key j hj := by
    rw [Function.update_of_ne hj.2]
    exact h.free_key j hj.1
  pending_isolated := h.pending_isolated
  pending_away j hj := by
    have hne : j ≠ m := fun heq => hm (heq ▸ hj)
    rw [Function.update_of_ne hne]
    exact h.pending_away j hj
  reach j k' hj hp := by
    by_cases heq : j = m
    · rw [heq, Function.update_self] at hj
      rw [heq, ← Option.some_inj.mp hj, hmp]
      exact Reaches.refl
    · rw [Function.update_of_ne heq] at hj
      exact h.reach j k' hj hp
  home j k' hj hp := by
    by_cases hmain : mp k' = m
    · refine ⟨fun hand => hand.2 hmain, fun k'' hk'' => ?_⟩
      rw [hmain, Function.update_self] at hk''
      rw [← Option.some_inj.mp hk'', hmp, hmain]
    · have heq : j ≠ m := fun heq => by
        rw [heq, Function.update_self] at hj
        rw [← Option.some_inj.mp hj] at hmain
        exact hmain hmp
      rw [Function.update_of_ne heq] at hj
      obtain ⟨hfree, hhome⟩ := h.home j k' hj hp
      refine ⟨fun hand => hfree hand.1, fun k'' hk'' => hhome k'' ?_⟩
      rwa [Function.update_of_ne hmain] at hk''
  unique j j' k' hj hj' := by
    by_cases hjm : j = m
    · by_cases hjm' : j' = m
      · exact hjm.trans hjm'.symm
      · rw [hjm, Function.update_self] at hj
        rw [Function.update_of_ne hjm', ← hj] at hj'
        exact absurd hj' (hk j' hjm')
    · rw [Function.update_of_ne hjm] at hj
      by_cases hjm' : j' = m
      · rw [hjm', Function.update_self] at hj'
        rw [← hj'] at hj
        exact absurd hj (hk j hjm)
      · rw [Function.update_of_ne hjm'] at hj'
        exact h.unique j j' k' hj hj'

/-- A key is forgotten, and its cell is not free. -/
theorem forget (h : Scatter mp next key free pending) (hi : i ∉ pending) :
    Scatter mp next (Function.update key i none) free pending where
  ranked := h.ranked
  linked := h.linked
  free_isolated := h.free_isolated
  free_key j hj := by
    by_cases heq : j = i
    · rw [heq, Function.update_self]
    · rw [Function.update_of_ne heq]
      exact h.free_key j hj
  pending_isolated := h.pending_isolated
  pending_away j hj := by
    have hne : j ≠ i := fun heq => hi (heq ▸ hj)
    rw [Function.update_of_ne hne]
    exact h.pending_away j hj
  reach j k hj hp := by
    by_cases heq : j = i
    · rw [heq, Function.update_self] at hj
      cases hj
    · rw [Function.update_of_ne heq] at hj
      exact h.reach j k hj hp
  home j k hj hp := by
    by_cases heq : j = i
    · rw [heq, Function.update_self] at hj
      cases hj
    · rw [Function.update_of_ne heq] at hj
      obtain ⟨hfree, hhome⟩ := h.home j k hj hp
      refine ⟨hfree, fun k' hk' => hhome k' ?_⟩
      by_cases hmain : mp k = i
      · rw [hmain, Function.update_self] at hk'
        cases hk'
      · rwa [Function.update_of_ne hmain] at hk'
  unique j j' k hj hj' := by
    by_cases heq : j = i
    · rw [heq, Function.update_self] at hj
      cases hj
    · by_cases heq' : j' = i
      · rw [heq', Function.update_self] at hj'
        cases hj'
      · rw [Function.update_of_ne heq] at hj
        rw [Function.update_of_ne heq'] at hj'
        exact h.unique j j' k hj hj'

omit [DecidableEq ι] in
/-- Without any links, the keys that are not at home are pending. -/
theorem unlinked (hfree : ∀ i, free i → key i = none)
    (hpending : ∀ i, i ∈ pending ↔ ∃ k, key i = some k ∧ mp k ≠ i)
    (hunique : ∀ i j k, key i = some k → key j = some k → i = j) :
    Scatter mp (fun _ => none) key free pending where
  ranked := ⟨fun _ => 0, fun _ _ hlink => by cases hlink⟩
  linked _ _ _ hlink := by cases hlink
  free_isolated _ _ := ⟨rfl, fun _ hlink => by cases hlink⟩
  free_key := hfree
  pending_isolated _ _ := ⟨rfl, fun _ hlink => by cases hlink⟩
  pending_away i hi := (hpending i).mp hi
  reach i k hk hp := by
    rw [not_not.mp fun hne => hp ((hpending i).mpr ⟨k, hk, hne⟩)]
    exact Reaches.refl
  home i k hk hp := by
    rw [not_not.mp fun hne => hp ((hpending i).mpr ⟨k, hk, hne⟩)]
    refine ⟨fun hf => ?_, fun k' hk' => ?_⟩
    · rw [hfree i hf] at hk
      cases hk
    · rw [hk] at hk'
      rw [← Option.some_inj.mp hk']
      exact not_not.mp fun hne => hp ((hpending i).mpr ⟨k, hk, hne⟩)
  unique := hunique

end Scatter

/-! ### Shadows -/

/-- No cell that is a shadow of a key is on its chain before its cell. -/
def Unshadowed (mp : κ → ι) (next : ι → Option ι) (key : ι → Option κ)
    (shadow : κ → ι → Prop) : Prop :=
  ∀ i k j, key i = some k → shadow k j → Reaches next (mp k) j → ¬Reaches next j i

namespace Unshadowed

variable {shadow shadow' : κ → ι → Prop}

theorem mono (h : Unshadowed mp next key shadow) (hsub : ∀ k j, shadow' k j → shadow k j) :
    Unshadowed mp next key shadow' := fun i k j hi hj => h i k j hi (hsub k j hj)

/-- Two cells of a chain are not before each other. -/
theorem antisymm_of_ranked (h : Ranked next) (hij : Reaches next i j) (hji : Reaches next j i) :
    i = j := by
  obtain heq | ⟨r, hr, hreach⟩ := hij.cases_head
  · exact heq
  · exact absurd (hreach.trans hji) (h.not_reach hr)

variable [DecidableEq ι]

/-- A key comes to its main position. -/
theorem fill (h : Unshadowed mp next key shadow) (hranked : Ranked next) (hmp : mp k = m)
    (hshadow : ∀ k', ¬shadow k' m) :
    Unshadowed mp next (Function.update key m (some k)) shadow := by
  intro i k' j hi hj hreach hreach'
  by_cases heq : i = m
  · rw [heq, Function.update_self] at hi
    rw [← Option.some_inj.mp hi, hmp] at hreach
    rw [heq] at hreach'
    exact hshadow k' (antisymm_of_ranked hranked hreach hreach' ▸ hj)
  · rw [Function.update_of_ne heq] at hi
    exact h i k' j hi hj hreach hreach'

/-- A key is linked in behind its main position. -/
theorem link (h : Unshadowed mp next key shadow) (hscatter : Scatter mp next key free ∅)
    (hn : free n) (hne : n ≠ m) (hmp : mp k = m) (hshadow : ∀ k', ¬shadow k' m)
    (hshadow' : ∀ k', ¬shadow k' n) :
    Unshadowed mp (insertAfter next m n) (Function.update key n (some k)) shadow := by
  have hisolated := hscatter.free_isolated n hn
  have hranked := insertAfter_ranked hscatter.ranked hisolated hne
  intro i k' j hi hj hreach hreach'
  have hjn : j ≠ n := fun heq => hshadow' k' (heq ▸ hj)
  by_cases heq : i = n
  · rw [heq, Function.update_self] at hi
    rw [← Option.some_inj.mp hi, hmp] at hreach
    rw [heq] at hreach'
    -- the cell before the new one is the main position
    obtain ⟨r, hr, hlink⟩ := hreach'.exists_prev hjn
    obtain ⟨hrm, -⟩ | ⟨-, hnext⟩ | ⟨-, -, hnext⟩ := insertAfter_cases hne hlink
    · rw [hrm] at hr
      exact hshadow k' (antisymm_of_ranked hranked hreach hr ▸ hj)
    · exact hisolated.first m hnext
    · exact hisolated.first r hnext
  · rw [Function.update_of_ne heq] at hi
    have hmain : mp k' ≠ n := fun hmn =>
      (hscatter.home i k' hi (Finset.notMem_empty i)).1 (hmn ▸ hn)
    have hold := reach_of_insertAfter hisolated hne hjn hreach
    have hold' := reach_of_insertAfter hisolated hne heq hreach'
    rw [if_neg hmain] at hold
    rw [if_neg hjn] at hold'
    exact h i k' j hi hj hold hold'

/-- A key that is not at home leaves for a free cell. -/
theorem displace (h : Unshadowed mp next key shadow) (hscatter : Scatter mp next key free ∅)
    (hk : key m = some k) (hmp : mp k ≠ m) (hn : free n) {prev : ι} (hprev : next prev = some m)
    (hshadow : ∀ k', ¬shadow k' m) (hshadow' : ∀ k', ¬shadow k' n) :
    Unshadowed mp (replace next prev m n) (Function.update (Function.update key n (some k)) m none)
      shadow := by
  have hisolated := hscatter.free_isolated n hn
  have hne : n ≠ m := fun heq => by
    rw [← heq, hscatter.free_key n hn] at hk
    cases hk
  intro i k' j hi hj hreach hreach'
  have him : i ≠ m := fun heq => by
    rw [heq, Function.update_self] at hi
    cases hi
  have hkey : key (if i = n then m else i) = some k' := by
    rw [Function.update_of_ne him] at hi
    split_ifs with hin
    · rw [hin, Function.update_self] at hi
      rw [hk, hi]
    · rwa [Function.update_of_ne hin] at hi
  obtain ⟨hfree, hhome⟩ := hscatter.home _ k' hkey (Finset.notMem_empty _)
  have hmain : mp k' ≠ m := fun heq => hmp ((hhome k (by rwa [heq])).trans heq)
  have hmain' : mp k' ≠ n := fun heq => hfree (by rwa [heq])
  have hjm : j ≠ m := fun heq => hshadow k' (heq ▸ hj)
  have hjn : j ≠ n := fun heq => hshadow' k' (heq ▸ hj)
  have hold := reach_of_replace hscatter.ranked hscatter.linked hisolated hne hprev hmain hreach
  have hold' := reach_of_replace hscatter.ranked hscatter.linked hisolated hne hprev hjm hreach'
  rw [if_neg hmain', if_neg hjn] at hold
  rw [if_neg hjn] at hold'
  exact h _ k' j hkey hj hold hold'

/-- A key is forgotten, and its cell is a shadow of no other key. -/
theorem forget (h : Unshadowed mp next key shadow)
    (hsub : ∀ k' j, shadow' k' j → j ≠ i → shadow k' j)
    (hshadow : ∀ j k', j ≠ i → key j = some k' → ¬shadow' k' i) :
    Unshadowed mp next (Function.update key i none) shadow' := by
  intro j k' s hj hs hreach hreach'
  have hji : j ≠ i := fun heq => by
    rw [heq, Function.update_self] at hj
    cases hj
  rw [Function.update_of_ne hji] at hj
  have hsi : s ≠ i := fun heq => hshadow j k' hji hj (heq ▸ hs)
  exact h j k' s hj (hsub k' s hs hsi) hreach hreach'

end Unshadowed

end ELuaBrain.Links
