import ELuaBrain.Lua.Counting
import ELuaBrain.Lua.Relink
import Mathlib.Data.List.GetD

/-!
# Resizing

A resize of the hash part keeps what the table maps, and leaves room for the keys that come after
it. A rehash counts the keys, so that there is room for those of the vanishing slice of the array
part and for the new one.

## Main results

* `resizeHashpart_spec` : the table after a resize of its hash part.
* `resize_spec`, `rehash_spec` : the table after a resize, and after a rehash.
* `luaHSet_spec` : the table after `luaH_set`.
-/

namespace ELuaBrain.Lua.Tables

open Function Links

variable {N V : Type} [LuaNumber N] [DecidableEq N] {t : Table N V} {k : Key N} {i j r : ℕ}

/-! ### The hash part -/

/-- The nodes that are not there are blank. -/
theorem Loose.blank_of_hsize (h : Loose t) (hdummy : t.dummy = true → t.lsizenode = 0 ∧
    t.node 0 = {}) (hj : t.hsize ≤ j) : t.node j = {} := by
  rw [Table.hsize] at hj
  split_ifs at hj with hd
  · obtain ⟨hsize, hzero⟩ := hdummy hd
    cases j with
    | zero => exact hzero
    | succ j =>
      refine h.blank _ ?_
      rw [Table.sizenode, hsize, pow_zero]
      omega
  · exact h.blank j hj

/-- Before the first loop. -/
theorem Loose.compacting (h : Loose t) (hdummy : t.dummy = true → t.lsizenode = 0 ∧
    t.node 0 = {}) (hstays : Stays t r) (lsize : ℕ) :
    Compacting t t.hsize (2 ^ lsize) r 0
      { t with lsizenode := lsize, lastfree := 2 ^ lsize, dummy := false } where
  size := rfl
  array := rfl
  dummy := rfl
  done j hj := absurd hj (Nat.not_lt_zero j)
  blank j hj := h.blank_of_hsize hdummy hj
  value := h.value
  unique j j' k _ _ := h.unique j j' k
  apart j k m _ := h.apart j k m
  maps k v := by
    rw [maps_iff]
    exact or_congr_right ⟨fun ⟨j, hk, hv⟩ => ⟨j, .inr (Nat.zero_le j), hk, hv⟩,
      fun ⟨j, _, hk, hv⟩ => ⟨j, hk, hv⟩⟩
  lastfree_le := le_rfl
  lastfree _ := rfl
  free_lt j hj := absurd hj (Nat.not_lt_zero j)
  stays := by
    obtain ⟨s, hcard, hs⟩ := hstays
    exact ⟨s, hcard, fun j _ => hs j⟩

/-- The table between the two loops. -/
theorem Compacting.chaining {t₀ t₂ t₃ : Table N V} {oldhsize lsize : ℕ}
    (h : Compacting t₀ oldhsize (2 ^ lsize) r oldhsize t₂) (hsize : t₃.lsizenode = lsize)
    (harray : t₃.array = t₂.array) (hnode : ∀ j, j < 2 ^ lsize → t₃.node j = t₂.node j)
    (hblank : ∀ j, 2 ^ lsize ≤ j → t₃.node j = {}) :
    (∃ pending, Chaining t₃ pending ∧ ∀ j ∈ pending, j < 2 ^ lsize) ∧ Room t₃ r ∧
      ∀ k v, t₃.Maps k v ↔ t₀.Maps k v := by
  classical
  have hkey : ∀ j k, t₃.keys j = some k → j < 2 ^ lsize ∧ t₂.keys j = some k := fun j k hk => by
    by_cases hj : j < 2 ^ lsize
    · rw [keys_eq, hnode j hj] at hk
      exact ⟨hj, hk⟩
    · rw [keys_of_free (free_of_blank (hblank j (Nat.le_of_not_lt hj)))] at hk
      cases hk
  have hkey' : ∀ j k, j < 2 ^ lsize → t₂.keys j = some k → t₃.keys j = some k :=
    fun j k hj hk => by rwa [keys_eq, hnode j hj]
  -- the nodes that the first loop did not come to are blank
  have hdone : ∀ j, j < 2 ^ lsize → (t₂.node j).next = none ∧
      ((t₂.node j).val = none → t₂.Free j) ∧ ∀ k, t₂.keys j = some k → ¬t₂.InArray k :=
    fun j hj => by
      by_cases hlt : j < oldhsize
      · exact h.done j hlt hj
      · have hb := h.blank j (Nat.le_of_not_lt hlt)
        rw [hb]
        refine ⟨rfl, fun _ => free_of_blank hb, fun k hk => ?_⟩
        rw [keys_of_free (free_of_blank hb)] at hk
        cases hk
  have hcleared : ∀ j, (t₃.node j).val = none → t₃.Free j := fun j hv => by
    by_cases hj : j < 2 ^ lsize
    · rw [hnode j hj] at hv
      rw [Table.Free, hnode j hj]
      exact (hdone j hj).2.1 hv
    · exact free_of_blank (hblank j (Nat.le_of_not_lt hj))
  have hnexts : t₃.nexts = fun _ => none := by
    funext j
    by_cases hj : j < 2 ^ lsize
    · rw [Table.nexts, hnode j hj]
      exact (hdone j hj).1
    · rw [Table.nexts, hblank j (Nat.le_of_not_lt hj)]
  refine ⟨⟨(Finset.range (2 ^ lsize)).filter fun j =>
    ∃ k, t₃.keys j = some k ∧ mainposition t₃.lsizenode k ≠ j, ⟨⟨?_, fun j hj => ?_,
      fun j v hv => ?_, fun j k hk => ?_⟩, hcleared⟩, fun j hj =>
        Finset.mem_range.mp (Finset.mem_filter.mp hj).1⟩, ?_, fun k v => ?_⟩
  · rw [hnexts]
    refine Scatter.unlinked (fun j hf => keys_of_free hf) (fun j => ?_) fun j j' k hk hk' => ?_
    · rw [Finset.mem_filter, and_iff_right_of_imp]
      rintro ⟨k, hk, -⟩
      exact Finset.mem_range.mpr (hkey j k hk).1
    · obtain ⟨hj, hk⟩ := hkey j k hk
      obtain ⟨hj', hk'⟩ := hkey j' k hk'
      exact h.unique j j' k (.inl hj) (.inl hj') hk hk'
  · rw [Table.sizenode, hsize] at hj
    exact hblank j hj
  · have hj : j < 2 ^ lsize := by
      by_contra hge
      rw [hblank j (Nat.le_of_not_lt hge)] at hv
      cases hv
    rw [hnode j hj] at hv
    obtain ⟨k, hk⟩ := h.value j v hv
    exact ⟨k, hkey' j k hj hk⟩
  · obtain ⟨hj, hk⟩ := hkey j k hk
    rw [inArray_congr harray]
    exact (hdone j hj).2.2 k hk
  · obtain ⟨s, hcard, hs⟩ := h.stays
    refine ⟨s, hcard, fun j hf => ?_⟩
    have hj : j < 2 ^ lsize := by
      by_contra hge
      exact hf (free_of_blank (hblank j (Nat.le_of_not_lt hge)))
    refine hs j (.inl hj) ?_ (hdone j hj).2.2
    by_contra hv
    rw [Option.not_isSome_iff_eq_none, ← hnode j hj] at hv
    exact hf (hcleared j hv)
  · rw [h.maps k v, maps_iff, Table.ArrayMaps, harray]
    refine or_congr_right ⟨?_, ?_⟩
    · rintro ⟨j, hk, hv⟩
      obtain ⟨hj, hk⟩ := hkey j k hk
      rw [hnode j hj] at hv
      exact ⟨j, .inl hj, hk, hv⟩
    · rintro ⟨j, hj, hk, hv⟩
      have hlt : j < 2 ^ lsize := by
        by_contra hge
        have hold : oldhsize ≤ j := hj.resolve_left hge
        rw [h.blank j hold] at hv
        cases hv
      exact ⟨j, hkey' j k hlt hk, by rwa [hnode j hlt]⟩

/-- The size is changed, and no node. -/
theorem Loose.growHashpart (h : Loose t) (hdummy : t.dummy = true → t.lsizenode = 0 ∧
    t.node 0 = {}) {l : ℕ} (hover : ¬maxbits < l) :
    growHashpart t l =
      .ok { t with lsizenode := l, lastfree := 2 ^ l, dummy := false } := by
  have hpos : 0 < 2 ^ l := Nat.two_pow_pos l
  have hlog : ceillog2 (2 ^ l) = l := ceillog2_two_pow l
  rw [Tables.growHashpart]
  split_ifs with hgrow
  · have hold : (if t.dummy then 0 else t.hsize) = t.hsize := by
      rw [Table.hsize]
      split_ifs <;> rfl
    have hnode : (fun i => if i < t.hsize ∧ i < 2 ^ l then t.node i else {}) = t.node := by
      funext i
      split_ifs with hi
      · rfl
      · exact (h.blank_of_hsize hdummy (by omega)).symm
    rw [resizenodevector, if_neg hpos.ne', hlog, if_neg hover, hold, hnode]
  · have hd : t.dummy = false := by
      rw [Table.hsize] at hgrow
      split_ifs at hgrow with hd
      · exact absurd hpos hgrow
      · exact Bool.not_eq_true _ ▸ hd
    rw [← hd]

/-- The nodes beyond the new size are dropped. -/
theorem Compacting.shrinkHashpart {t₀ t₂ : Table N V} {oldhsize l : ℕ}
    (h : Compacting t₀ oldhsize (2 ^ l) r oldhsize t₂) (hover : ¬maxbits < l) :
    ∃ t₃, shrinkHashpart t₂ oldhsize (2 ^ l) = .ok t₃ ∧ t₃.lsizenode = l ∧
      t₃.array = t₂.array ∧ t₃.dummy = false ∧ t₃.lastfree = 2 ^ l ∧
      (∀ j, j < 2 ^ l → t₃.node j = t₂.node j) ∧ ∀ j, 2 ^ l ≤ j → t₃.node j = {} := by
  have hpos : 0 < 2 ^ l := Nat.two_pow_pos l
  have hlog : ceillog2 (2 ^ l) = l := ceillog2_two_pow l
  rw [Tables.shrinkHashpart]
  split_ifs with hshrink
  · rw [resizenodevector, if_neg hpos.ne', hlog, if_neg hover, h.dummy]
    refine ⟨_, rfl, rfl, rfl, rfl, rfl, fun j hj => ?_, fun j hj => ?_⟩
    · exact if_pos ⟨hj.trans hshrink, hj⟩
    · exact if_neg fun hand => absurd hand.2 (Nat.not_lt.mpr hj)
  · have hle : oldhsize ≤ 2 ^ l := Nat.le_of_not_lt hshrink
    refine ⟨t₂, rfl, ?_, rfl, h.dummy, h.lastfree hle, fun j _ => rfl, fun j hj => ?_⟩
    · exact Nat.pow_right_injective le_rfl h.size
    · exact h.blank j (hle.trans hj)

/-- No key is dead, or mapped to nil. -/
structure Clean (t : Table N V) : Prop where
  dead : ∀ j p, (t.node j).key ≠ .dead p
  maps : ∀ j k, t.keys j = some k → ∃ v, t.Maps k v

/-- After all chains are made, a node without a value has no key. -/
theorem Chaining.clean (h : Chaining t ∅) : Clean t where
  dead j p hp := by
    cases hv : (t.node j).val with
    | none =>
      rw [show (t.node j).key = .nil from h.cleared j hv] at hp
      cases hp
    | some v =>
      obtain ⟨k, hk⟩ := h.value j v hv
      rw [keys_eq_some.mp hk] at hp
      cases hp
  maps j k hk := by
    cases hv : (t.node j).val with
    | none =>
      rw [keys_of_free (h.cleared j hv)] at hk
      cases hk
    | some v => exact ⟨v, .node j, .node j hk, hv⟩

/-- What a table is after its hash part was resized. -/
structure Resized (t t' : Table N V) (nhsize r : ℕ) : Prop where
  sound : Sound t'
  dummy : t'.dummy = false
  array : t'.array.length = t.array.length
  maps : ∀ k v, t'.Maps k v ↔ t.Maps k v
  room : Room t' r
  size : nhsize ≤ t'.sizenode
  clean : Clean t'

/-- **`resize_hashpart`** keeps what the table maps. -/
theorem resizeHashpart_spec (h : Loose t) (hdummy : t.dummy = true → t.lsizenode = 0 ∧
    t.node 0 = {}) (harray : t.array.length ≤ maxasize) (hstays : Stays t r) {nhsize : ℕ}
    (hr : r ≤ 2 ^ ceillog2 nhsize) :
    (resizeHashpart t nhsize = .error .tableOverflow ∧ 2 ^ maxbits < nhsize) ∨
      ∃ t', resizeHashpart t nhsize = .ok t' ∧ Resized t t' nhsize r := by
  rw [resizeHashpart]
  have hlsize : (if 0 < nhsize then ceillog2 nhsize else 0) = ceillog2 nhsize := by
    split_ifs with hpos
    · rfl
    · rw [Nat.eq_zero_of_not_pos hpos]
      rfl
  rw [hlsize]
  set l := ceillog2 nhsize with hl
  have hle : nhsize ≤ 2 ^ l := le_two_pow_ceillog2 nhsize
  by_cases hover : maxbits < l
  · refine .inl ⟨if_pos hover, ?_⟩
    by_contra hge
    exact absurd (ceillog2_le (Nat.le_of_not_lt hge)) (Nat.not_le.mpr hover)
  · right
    rw [if_neg hover, h.growHashpart hdummy hover]
    obtain ⟨t₂, heq₂, hcompacted⟩ := (h.compacting hdummy hstays l).run hr t.hsize
    obtain ⟨t₃, heq₃, hsize, harray₃, hdummy₃, hlast, hnode, hblank⟩ :=
      hcompacted.shrinkHashpart hover
    obtain ⟨⟨pending, hchaining, hlt⟩, hroom, hmaps⟩ :=
      hcompacted.chaining hsize harray₃ hnode hblank
    obtain ⟨t', pending', heq', hchained, hmoved, hsub, hnot⟩ :=
      chainNodes_spec hchaining hdummy₃ (2 ^ l)
    have hempty : pending' = ∅ :=
      Finset.eq_empty_of_forall_notMem fun j hj => hnot j (hlt j (hsub hj)) hj
    rw [hempty] at hchained
    have hsize' : t'.sizenode = 2 ^ l := by rw [Table.sizenode, hmoved.lsizenode, hsize]
    have hlast' : t'.lastfree = 2 ^ l := hmoved.lastfree.trans hlast
    have hlen : t'.array.length = t.array.length := by
      rw [hmoved.array, harray₃, hcompacted.array]
    refine ⟨t', ?_, ⟨hchained.toHashed, fun _ j hj _ => ?_, ?_, fun hd => ?_, ?_, ?_⟩,
      hmoved.dummy.trans hdummy₃, hlen, fun k v => ?_, hmoved.room r hroom, ?_, hchained.clean⟩
    · change ((List.range t.hsize).foldlM (compactNode (2 ^ l)) _ >>= fun t₂ =>
        Tables.shrinkHashpart t₂ t.hsize (2 ^ l) >>= fun t₃ =>
        (List.range (2 ^ l)).foldlM chainNode t₃) = _
      rw [heq₂]
      change (Tables.shrinkHashpart t₂ t.hsize (2 ^ l) >>= fun t₃ =>
        (List.range (2 ^ l)).foldlM chainNode t₃) = _
      rw [heq₃]
      exact heq'
    · rwa [hlast', ← hsize']
    · rw [hlast', hsize']
    · rw [hmoved.dummy, hdummy₃] at hd
      cases hd
    · rw [hlen]
      exact harray
    · rw [hmoved.lsizenode, hsize]
      exact Nat.le_of_not_lt hover
    · rw [maps_congr hmoved.array hmoved.stores, hmaps]
    · rw [hsize']
      exact hle

/-! ### The vanishing slice -/

section Room

variable {key : Key N}

omit [LuaNumber N] [DecidableEq N] in
/-- A table with room for one more key is not full. -/
theorem not_full (hroom : Room t r) (hlt : r < t.sizenode) (hdummy : t.dummy = false) :
    ¬Sound.Full t := by
  rintro (hd | hall)
  · rw [hdummy] at hd
    cases hd
  · obtain ⟨s, hcard, hs⟩ := hroom
    have hsub : Finset.range t.sizenode ⊆ s := fun j hj =>
      hs j (hall j (Finset.mem_range.mp hj))
    have := Finset.card_le_card hsub
    rw [Finset.card_range] at this
    omega

theorem Inserted.room {t' : Table N V} {slot : Slot} (h : Inserted t key t' slot)
    (hroom : Room t r) : Room t' (r + 1) := by
  obtain ⟨s, hcard, hs⟩ := hroom
  obtain ⟨n, hn⟩ := h.free
  refine ⟨insert n s, (Finset.card_insert_le n s).trans (by omega), fun j hj => ?_⟩
  by_cases heq : j = n
  · rw [heq]
    exact Finset.mem_insert_self ..
  · exact Finset.mem_insert_of_mem (hs j fun hf => hj (hn j hf heq))

/-- The function inserts a key if there is room. -/
def Inserts (newkey : Table N V → Key N → Except Fault (Table N V × Slot)) : Prop :=
  ∀ t key r, Sound t → (∀ slot, ¬t.SlotOf key slot) → Room t r → r < t.sizenode →
    t.dummy = false → ∃ t' slot, newkey t key = .ok (t', slot) ∧ Inserted t key t' slot

theorem inserts_newkey (depth : ℕ) : Inserts (newkey (N := N) (V := V) (depth + 1)) :=
  fun _ _ _ h hkey hroom hlt hdummy =>
    (h.newkeyWith_spec hkey _).resolve_right fun hand => not_full hroom hlt hdummy hand.2

end Room

omit [LuaNumber N] [DecidableEq N] in
theorem room_write {slot : Slot} (v : Option V) (h : Room t r) : Room (t.write slot v) r :=
  room_of_free (fun j => by rw [free_write]) r h

/-- The table when the vanishing slice is inserted up to `i`. -/
structure Vanishing (t : Table N V) (nasize r i : ℕ) (t' : Table N V) : Prop where
  sound : Sound t'
  dummy : t'.dummy = false
  array : t'.array = t.array.take nasize
  size : t'.sizenode = t.sizenode
  room : Room t' (r + slice t.array nasize i)
  fresh : ∀ j k m, t'.keys j = some k → arrayindex k = some m → ¬(i < m ∧ m ≤ t.array.length)
  clean : Clean t'
  maps : ∀ k v, t.Maps k v ↔ t'.Maps k v ∨
    ∃ m : ℤ, arrayindex k = some m ∧ (i < m ∧ m ≤ t.array.length) ∧
      t.array.getD (m - 1).toNat none = some v

omit [LuaNumber N] [DecidableEq N] in
theorem slice_succ (array : List (Option V)) {a i : ℕ} (ha : a ≤ i) (hi : i < array.length) :
    slice array a (i + 1) = slice array a i + (array.getD i none).isSome.toNat := by
  rw [slice, slice, List.take_add_one, List.drop_append_of_le_length, List.countP_append]
  · rw [List.getElem?_eq_getElem hi, List.getD_eq_getElem?_getD, List.getElem?_eq_getElem hi]
    cases array[i] <;> rfl
  · rw [List.length_take]
    omega

/-- Before the vanishing slice is inserted. -/
theorem Sound.vanishing (h : Sound t) (hdummy : t.dummy = false) (hroom : Room t r)
    (hclean : Clean t) {nasize : ℕ} (hle : nasize ≤ t.array.length) :
    Vanishing t nasize r nasize { t with array := t.array.take nasize } where
  sound :=
    { scatter := h.scatter
      blank := h.blank
      value := h.value
      apart := fun i k hk ⟨m, hm, hpos, hle'⟩ => by
        rw [List.length_take] at hle'
        exact h.apart i k hk ⟨m, hm, hpos, by omega⟩
      free_lt := h.free_lt
      lastfree_le := h.lastfree_le
      of_dummy := h.of_dummy
      array_le := by
        have := h.array_le
        rw [List.length_take]
        omega
      lsizenode_le := h.lsizenode_le }
  dummy := hdummy
  array := rfl
  size := rfl
  room := by
    have : slice t.array nasize nasize = 0 := by
      rw [slice, List.drop_of_length_le (List.length_take_le ..), List.countP_nil]
    rw [this]
    exact hroom
  fresh j k m hk hm hand := h.apart j k hk ⟨m, hm, by omega, hand.2⟩
  clean :=
    { dead := hclean.dead
      maps := fun j k hk => by
        obtain ⟨v, slot, hslot, hat⟩ := hclean.maps j k hk
        rw [h.slotOf_unique hslot (.node j hk)] at hat
        exact ⟨v, .node j, .node j hk, hat⟩ }
  maps k v := by
    have hget : ∀ m : ℤ, 1 ≤ m → m ≤ nasize →
        (t.array.take nasize).getD (m - 1).toNat none = t.array.getD (m - 1).toNat none :=
      fun m hpos hm => by
        rw [List.getD_eq_getElem?_getD, List.getElem?_take_of_lt (by omega),
          List.getD_eq_getElem?_getD]
    rw [maps_iff, maps_iff]
    constructor
    · rintro (⟨m, hm, ⟨hpos, hle'⟩, hv⟩ | hs)
      · by_cases hlt : m ≤ nasize
        · refine .inl (.inl ⟨m, hm, ⟨hpos, ?_⟩, ?_⟩)
          · dsimp only
            rw [List.length_take]
            omega
          · exact (hget m hpos hlt).trans hv
        · exact .inr ⟨m, hm, ⟨by omega, hle'⟩, hv⟩
      · exact .inl (.inr hs)
    · rintro ((⟨m, hm, ⟨hpos, hle'⟩, hv⟩ | hs) | ⟨m, hm, ⟨hlt, hle'⟩, hv⟩)
      · dsimp only at hle' hv
        rw [List.length_take] at hle'
        rw [hget m hpos (by omega)] at hv
        exact .inl ⟨m, hm, ⟨hpos, by omega⟩, hv⟩
      · exact .inr hs
      · exact .inl ⟨m, hm, ⟨by omega, hle'⟩, hv⟩

/-- An element of the vanishing slice is inserted. -/
theorem Vanishing.step {nasize i : ℕ} {t' : Table N V}
    {newk : Table N V → Key N → Except Fault (Table N V × Slot)} (hnew : Inserts newk)
    (h : Vanishing t nasize r i t') (hlen : t.array.length ≤ maxasize) (hn : nasize ≤ i)
    (hi : i < t.array.length) (hroom : r + slice t.array nasize t.array.length ≤ t.sizenode) :
    ∃ t'', reinsert newk t.array t' i = .ok t'' ∧ Vanishing t nasize r (i + 1) t'' := by
  have hslice := slice_succ t.array hn hi
  rw [reinsert]
  cases hv : t.array.getD i none with
  | none =>
    rw [hv] at hslice
    refine ⟨t', rfl, h.sound, h.dummy, h.array, h.size, by rw [hslice]; exact h.room,
      fun j k m hk hm hand => h.fresh j k m hk hm ⟨by omega, hand.2⟩, h.clean, fun k v => ?_⟩
    rw [h.maps k v]
    refine or_congr_right (exists_congr fun m => and_congr_right fun hm =>
      ⟨fun ⟨hand, hget⟩ => ⟨⟨?_, hand.2⟩, hget⟩, fun ⟨hand, hget⟩ => ⟨⟨by omega, hand.2⟩, hget⟩⟩)
    have hne : m ≠ i + 1 := fun heq => by
      rw [heq, show ((i : ℤ) + 1 - 1).toNat = i by omega, hv] at hget
      cases hget
    omega
  | some v =>
    rw [hv] at hslice
    have hmax : maxasize = 2 ^ 26 := rfl
    have hint : intOf (ofInt ((i : ℤ) + 1) : N) = some ((i : ℤ) + 1) :=
      intOf_ofInt (by omega) (by omega)
    have hlen' : t'.array.length = nasize := by
      rw [h.array, List.length_take]
      omega
    have hindex : arrayindex (Key.number (ofInt ((i : ℤ) + 1) : N)) = some ((i : ℤ) + 1) := hint
    have hkey : ∀ slot, ¬t'.SlotOf (.number (ofInt ((i : ℤ) + 1))) slot := fun slot hslot => by
      cases hslot with
      | array m hm hpos hle =>
        rw [hindex] at hm
        have := Option.some_inj.mp hm
        omega
      | node j hj => exact h.fresh j _ _ hj hindex ⟨by omega, by omega⟩
    have hlt : r + slice t.array nasize i < t'.sizenode := by
      have hmono : slice t.array nasize (i + 1) ≤ slice t.array nasize t.array.length := by
        have hlo := arrayCount_add_slice t.array (show nasize ≤ i + 1 by omega)
        have hhi := arrayCount_add_slice t.array (show nasize ≤ t.array.length by omega)
        have hsum := arrayCount_add_slice t.array (show i + 1 ≤ t.array.length by omega)
        omega
      rw [h.size]
      rw [Option.isSome_some, Bool.toNat_true] at hslice
      omega
    obtain ⟨t₁, slot, heq, hins⟩ := hnew t' _ _ h.sound hkey h.room hlt h.dummy
    have hget : luaHSetnumWith newk t' ((i : ℤ) + 1) = .ok (t₁, slot) := by
      rw [luaHSetnumWith]
      obtain ⟨slot', -, hslot'⟩ | ⟨hnone, -⟩ := luaHGetnum_spec h.sound.toHashed hint
      · exact absurd hslot' (hkey slot')
      · rw [hnone]
        exact heq
    obtain ⟨hsound, hmaps⟩ := hins.sound.write (some v) hins.slotOf
    refine ⟨t₁.write slot (some v), ?_, hsound, ?_, ?_, ?_, ?_, fun j k m hk hm hand => ?_,
      ⟨fun j p hp => ?_, fun j k hk => ?_⟩, fun k v' => ?_⟩
    · dsimp only
      rw [hget]
      rfl
    · rw [dummy_write, hins.dummy]
    · have hnode : (t₁.write slot (some v)).array = t₁.array := by
        obtain ⟨m, -, hm, hpos, hle⟩ | ⟨j, rfl, -⟩ := slotOf_iff.mp hins.slotOf
        · rw [hindex] at hm
          rw [hins.array, hlen', ← Option.some_inj.mp hm] at hle
          omega
        · rfl
      rw [hnode, hins.array, h.array]
    · rw [Table.sizenode, lsizenode_write, hins.lsizenode]
      exact h.size
    · rw [hslice, Option.isSome_some, Bool.toNat_true, ← Nat.add_assoc]
      exact room_write _ (hins.room h.room)
    · rw [keys_write] at hk
      obtain rfl | ⟨j', hj'⟩ := hins.keys j k hk
      · rw [hindex] at hm
        have := Option.some_inj.mp hm
        omega
      · exact h.fresh j' k m hj' hm ⟨by omega, hand.2⟩
    · rw [key_write] at hp
      exact h.clean.dead j p (hins.dead j p hp)
    · by_cases heq' : k = .number (ofInt ((i : ℤ) + 1))
      · exact ⟨v, (hmaps k v).mpr (by rw [if_pos heq'])⟩
      · rw [keys_write] at hk
        obtain ⟨j', hj'⟩ := (hins.keys j k hk).resolve_left heq'
        obtain ⟨v', hv'⟩ := h.clean.maps j' k hj'
        exact ⟨v', (hmaps k v').mpr (by rw [if_neg heq']; exact (hins.maps k v').mpr hv')⟩
    · rw [h.maps k v', hmaps k v']
      by_cases hk : k = .number (ofInt ((i : ℤ) + 1))
      · rw [if_pos hk, hk, hindex]
        constructor
        · rintro (⟨slot', hslot', -⟩ | ⟨m, hm, -, hget'⟩)
          · exact absurd hslot' (hkey slot')
          · rw [← Option.some_inj.mp hm, show ((i : ℤ) + 1 - 1).toNat = i by omega, hv] at hget'
            exact .inl hget'
        · rintro (heq' | ⟨m, hm, hand, -⟩)
          · refine .inr ⟨_, rfl, ⟨by omega, by omega⟩, ?_⟩
            rw [show ((i : ℤ) + 1 - 1).toNat = i by omega, hv, heq']
          · have := Option.some_inj.mp hm
            omega
      · rw [if_neg hk, hins.maps k v']
        refine or_congr_right (exists_congr fun m => and_congr_right fun hm =>
          ⟨fun ⟨hand, hget'⟩ => ⟨⟨?_, hand.2⟩, hget'⟩,
            fun ⟨hand, hget'⟩ => ⟨⟨by omega, hand.2⟩, hget'⟩⟩)
        have hne : m ≠ (i : ℤ) + 1 := fun heq' => hk (eq_of_arrayindex (heq' ▸ hm) hindex)
        omega

/-- The vanishing slice is inserted. -/
theorem Vanishing.run {nasize : ℕ} {t' : Table N V}
    {newk : Table N V → Key N → Except Fault (Table N V × Slot)} (hnew : Inserts newk)
    (h : Vanishing t nasize r nasize t') (hlen : t.array.length ≤ maxasize)
    (hroom : r + slice t.array nasize t.array.length ≤ t.sizenode) (n : ℕ)
    (hn : nasize + n ≤ t.array.length) :
    ∃ t'', (List.range' nasize n).foldlM (reinsert newk t.array) t' = .ok t'' ∧
      Vanishing t nasize r (nasize + n) t'' := by
  induction n with
  | zero => exact ⟨t', rfl, h⟩
  | succ n ih =>
    obtain ⟨t₁, heq, h₁⟩ := ih (by omega)
    obtain ⟨t₂, heq₂, h₂⟩ := h₁.step hnew hlen (by omega) (by omega) hroom
    refine ⟨t₂, ?_, h₂⟩
    rw [List.range'_1_concat, List.foldlM_append, heq]
    exact (bind_pure _).trans heq₂

/-! ### The array part -/

theorem Sound.loose (h : Sound t) : Loose t where
  blank := h.blank
  value := h.value
  unique := h.scatter.unique
  apart i k m hk hm hpos hle := absurd ⟨m, hm, hpos, hle⟩ (h.apart i k hk)

omit [LuaNumber N] [DecidableEq N] in
/-- What is beyond an array is nil. -/
theorem getD_append_replicate (array : List (Option V)) (n : ℕ) {i : ℕ} :
    (array ++ List.replicate n none).getD i none = array.getD i none := by
  rw [List.getD_eq_getElem?_getD, List.getD_eq_getElem?_getD]
  rcases Nat.lt_or_ge i array.length with hlt | hge
  · rw [List.getElem?_append_left hlt]
  · rw [List.getElem?_append_right hge, List.getElem?_eq_none hge, List.getElem?_replicate]
    split_ifs <;> rfl

/-- The array part grows. -/
theorem Sound.grown (h : Sound t) {size : ℕ} (hlt : t.array.length < size) :
    Loose (setarrayvector t size) ∧ (setarrayvector t size).array.length = size ∧
      ∀ k v, (setarrayvector t size).Maps k v ↔ t.Maps k v := by
  have harray : (setarrayvector t size).array =
      t.array ++ List.replicate (size - t.array.length) none := by
    rw [setarrayvector, List.take_of_length_le hlt.le]
  have hlen : (setarrayvector t size).array.length = size := by
    rw [harray, List.length_append, List.length_replicate]
    omega
  have hget : ∀ i, (setarrayvector t size).array.getD i none = t.array.getD i none := fun i => by
    rw [harray, getD_append_replicate]
  have hout : ∀ m : ℤ, t.array.length < m → t.array.getD (m - 1).toNat none = none :=
    fun m hm => by
      rw [List.getD_eq_getElem?_getD, List.getElem?_eq_none (by omega)]
      rfl
  refine ⟨⟨h.blank, h.value, h.scatter.unique, fun i k m hk hm hpos _ => ?_⟩, hlen, fun k v => ?_⟩
  · rw [hget]
    exact hout m (Int.not_le.mp fun hle => h.apart i k hk ⟨m, hm, hpos, hle⟩)
  · rw [maps_iff, maps_iff]
    refine or_congr_left ⟨?_, ?_⟩
    · rintro ⟨m, hm, ⟨hpos, hle⟩, hv⟩
      rw [hget] at hv
      refine ⟨m, hm, ⟨hpos, Int.not_lt.mp fun hlt' => ?_⟩, hv⟩
      rw [hout m hlt'] at hv
      cases hv
    · rintro ⟨m, hm, ⟨hpos, hle⟩, hv⟩
      exact ⟨m, hm, ⟨hpos, by omega⟩, (hget _).trans hv⟩

/-- An element of the array part is what its index is mapped to. -/
theorem Sound.getD_array (h : Sound t) {i : ℕ} (hi : i < t.array.length) {v : V} :
    t.array.getD i none = some v ↔ t.Maps (.number (ofInt ((i : ℤ) + 1))) v := by
  have hmax : maxasize = 2 ^ 26 := rfl
  have hle := h.array_le
  have hint : arrayindex (Key.number (ofInt ((i : ℤ) + 1) : N)) = some ((i : ℤ) + 1) :=
    intOf_ofInt (by omega) (by omega)
  have hslot : t.SlotOf (.number (ofInt ((i : ℤ) + 1))) (.array i) := by
    have := Table.SlotOf.array (t := t) _ hint (by omega) (by omega)
    rwa [show ((i : ℤ) + 1 - 1).toNat = i by omega] at this
  constructor
  · exact fun hv => ⟨_, hslot, hv⟩
  · rintro ⟨slot, hs, hat⟩
    rwa [h.slotOf_unique hs hslot] at hat

/-- Tables that map the same have the same array part, if it has the same size. -/
theorem Sound.array_eq {t' : Table N V} (h : Sound t) (h' : Sound t')
    (hlen : t'.array.length = t.array.length) (hmaps : ∀ k v, t'.Maps k v ↔ t.Maps k v) :
    t'.array = t.array := by
  refine List.ext_getElem hlen fun i hi hi' => ?_
  have hget : ∀ v, t'.array.getD i none = some v ↔ t.array.getD i none = some v := fun v => by
    rw [h'.getD_array hi, h.getD_array hi', hmaps]
  have heq : t'.array.getD i none = t.array.getD i none := Option.ext hget
  rwa [List.getD_eq_getElem _ _ hi, List.getD_eq_getElem _ _ hi'] at heq

/-! ### A resize -/

/-- What a table is after a resize. -/
structure ResizedTo (t t' : Table N V) (nasize nhsize r : ℕ) : Prop where
  sound : Sound t'
  dummy : t'.dummy = false
  array : t'.array.length = nasize
  maps : ∀ k v, t'.Maps k v ↔ t.Maps k v
  room : Room t' r
  size : nhsize ≤ t'.sizenode
  clean : Clean t'

/-- **`resize`** keeps what the table maps, if there is room for what leaves the array part. -/
theorem resize_spec (h : Sound t)
    {newk : Table N V → Key N → Except Fault (Table N V × Slot)} (hnew : Inserts newk)
    {nasize nhsize : ℕ} (hmax : nasize ≤ maxasize)
    (hstays : ∃ s : Finset ℕ, s.card ≤ r ∧ ∀ j, (t.node j).val.isSome →
      (∀ k, t.keys j = some k → k.upTo nasize = false) → j ∈ s)
    (hroom : r + slice t.array nasize t.array.length ≤ nhsize) :
    (resize newk t nasize nhsize = .error .tableOverflow ∧ 2 ^ maxbits < nhsize) ∨
      ∃ t', resize newk t nasize nhsize = .ok t' ∧
        ResizedTo t t' nasize nhsize (r + slice t.array nasize t.array.length) := by
  have hdummy : t.dummy = true → t.lsizenode = 0 ∧ t.node 0 = {} := fun hd =>
    ⟨(h.of_dummy hd).1, (h.of_dummy hd).2.2⟩
  have hr : r ≤ 2 ^ ceillog2 nhsize := by
    have := le_two_pow_ceillog2 nhsize
    omega
  obtain ⟨s, hcard, hs⟩ := hstays
  rw [resize]
  dsimp only
  by_cases hgrow : t.array.length < nasize
  · obtain ⟨hloose, hlen, hmaps⟩ := h.grown hgrow
    have hslice : slice t.array nasize t.array.length = 0 := by
      rw [slice, List.drop_of_length_le, List.countP_nil]
      exact (List.length_take_le ..).trans hgrow.le
    have hstays' : Stays (setarrayvector t nasize) r := by
      refine ⟨s, hcard, fun j hv hk => hs j hv fun k hkey => ?_⟩
      have := hk k hkey
      rwa [inArray_iff, hlen, Bool.not_eq_true] at this
    rw [if_pos hgrow, hslice, Nat.add_zero]
    obtain ⟨herror, hover⟩ | ⟨t', heq, hres⟩ :=
      resizeHashpart_spec hloose hdummy (by rwa [hlen]) hstays' hr
    · exact .inl ⟨by rw [herror]; rfl, hover⟩
    · refine .inr ⟨t', by rw [heq]; exact if_neg (by omega), hres.sound, hres.dummy,
        hres.array.trans hlen,
        fun k v => (hres.maps k v).trans (hmaps k v), hres.room, hres.size, hres.clean⟩
  · rw [if_neg hgrow]
    have hstays' : Stays t r := by
      refine ⟨s, hcard, fun j hv hk => hs j hv fun k hkey => ?_⟩
      have hnot := hk k hkey
      rw [inArray_iff, Bool.not_eq_true] at hnot
      by_contra htrue
      rw [Bool.not_eq_false, upTo_iff] at htrue
      obtain ⟨m, hm, hpos, hle⟩ := htrue
      rw [upTo_of_arrayindex hm, decide_eq_false_iff_not] at hnot
      exact hnot ⟨hpos, by omega⟩
    obtain ⟨herror, hover⟩ | ⟨t₁, heq, hres⟩ :=
      resizeHashpart_spec h.loose hdummy h.array_le hstays' hr
    · exact .inl ⟨by rw [herror]; rfl, hover⟩
    · have harray := h.array_eq hres.sound hres.array hres.maps
      right
      rw [heq]
      by_cases hshrink : nasize < t.array.length
      · have hvanish := hres.sound.vanishing hres.dummy hres.room hres.clean
          (show nasize ≤ t₁.array.length by rw [harray]; exact hshrink.le)
        have hroom' : r + slice t₁.array nasize t₁.array.length ≤ t₁.sizenode := by
          rw [harray]
          exact hroom.trans hres.size
        obtain ⟨t₂, heq₂, h₂⟩ := hvanish.run hnew
          (by rw [harray]; exact h.array_le) hroom' (t.array.length - nasize)
          (by rw [harray]; omega)
        have hend : nasize + (t.array.length - nasize) = t.array.length := by omega
        rw [hend] at h₂
        refine ⟨t₂, ?_, h₂.sound, h₂.dummy, ?_, fun k v => ?_, ?_, ?_, h₂.clean⟩
        · change (if nasize < t.array.length then _ else _) = _
          rw [if_pos hshrink]
          exact heq₂
        · rw [h₂.array, List.length_take, harray]
          omega
        · rw [← hres.maps k v, h₂.maps k v, harray]
          refine (or_iff_left ?_).symm
          rintro ⟨m, -, hand, -⟩
          omega
        · have := h₂.room
          rwa [harray] at this
        · rw [h₂.size]
          exact hres.size
      · have hlen : nasize = t.array.length := by omega
        refine ⟨t₁, if_neg hshrink, hres.sound, hres.dummy, hres.array.trans hlen.symm, hres.maps,
          ?_, hres.size, hres.clean⟩
        obtain ⟨s', hcard', hs'⟩ := hres.room
        exact ⟨s', by omega, hs'⟩

theorem Sound.hsize_le (h : Sound t) : t.hsize ≤ 2 ^ maxbits := by
  rw [Table.hsize]
  split_ifs
  · exact Nat.zero_le _
  · exact Nat.pow_le_pow_right (by omega) h.lsizenode_le

/-- **`luaH_resizearray`**, when the array part grows. -/
theorem luaHResizearray_spec (h : Sound t) {nasize : ℕ} (hlt : t.array.length < nasize)
    (hmax : nasize ≤ maxasize) :
    ∃ t', luaHResizearray t nasize = .ok t' ∧ ResizedTo t t' nasize t.hsize t.hsize := by
  have hslice : slice t.array nasize t.array.length = 0 := by
    rw [slice, List.drop_of_length_le ((List.length_take_le ..).trans hlt.le), List.countP_nil]
  have hstays : ∃ s : Finset ℕ, s.card ≤ t.hsize ∧ ∀ j, (t.node j).val.isSome →
      (∀ k, t.keys j = some k → k.upTo nasize = false) → j ∈ s := by
    refine ⟨Finset.range t.hsize, (Finset.card_range _).le, fun j hv _ => Finset.mem_range.mpr ?_⟩
    by_contra hge
    have hdummy : t.dummy = true → t.lsizenode = 0 ∧ t.node 0 = {} := fun hd =>
      ⟨(h.of_dummy hd).1, (h.of_dummy hd).2.2⟩
    rw [h.loose.blank_of_hsize hdummy (Nat.le_of_not_lt hge)] at hv
    cases hv
  obtain ⟨-, hover⟩ | ⟨t', heq, hres⟩ := resize_spec h (inserts_newkey 1) hmax hstays
    (show t.hsize + slice t.array nasize t.array.length ≤ t.hsize by rw [hslice, Nat.add_zero])
  · exact absurd hover (Nat.not_lt.mpr h.hsize_le)
  · rw [hslice, Nat.add_zero] at hres
    exact ⟨t', heq, hres⟩

/-! ### A rehash -/

/-- The number of keys that are not mapped to nil. -/
def Table.entries (t : Table N V) : ℕ :=
  arrayCount t.array t.array.length + hashCount t.node (fun _ => true) t.sizenode

omit [LuaNumber N] [DecidableEq N] in
theorem hashCount_split (node : ℕ → Node N V) (p : Key N → Bool) (n : ℕ) :
    hashCount node p n + hashCount node (fun k => !p k) n = hashCount node (fun _ => true) n := by
  induction n with
  | zero => rfl
  | succ n ih =>
    rw [hashCount_succ, hashCount_succ, hashCount_succ, ← ih]
    have hone : ((node n).holds p).toNat + ((node n).holds fun k => !p k).toNat =
        ((node n).holds fun _ => true).toNat := by
      rw [Node.holds, Node.holds, Node.holds]
      cases (node n).val.isSome <;> cases (node n).key.get? with
      | none => rfl
      | some k => cases h : p k <;> simp [h]
    omega

omit [LuaNumber N] [DecidableEq N] in
theorem hashCount_eq_zero (node : ℕ → Node N V) (p : Key N → Bool) (n : ℕ)
    (hp : ∀ k, p k = false) : hashCount node p n = 0 := by
  induction n with
  | zero => rfl
  | succ n ih =>
    have hholds : (node n).holds p = false := by
      rw [Node.holds, Bool.and_eq_false_iff]
      refine .inr ?_
      cases (node n).key.get? with
      | none => rfl
      | some k => exact hp k
    rw [hashCount_succ, ih, hholds]
    rfl

omit [LuaNumber N] [DecidableEq N] in
/-- What is beyond a bound leaves the array part. -/
theorem arrayCount_length (array : List (Option V)) (x : ℕ) :
    arrayCount array array.length = arrayCount array x + slice array x array.length := by
  rcases Nat.le_total x array.length with hle | hge
  · exact (arrayCount_add_slice array hle).symm
  · rw [slice, List.drop_of_length_le ((List.length_take_le ..).trans hge), List.countP_nil,
      Nat.add_zero]
    exact arrayCount_eq_of_le le_rfl hge

theorem upTo_zero (k : Key N) : k.upTo 0 = false := by
  rw [← Bool.not_eq_true, upTo_iff]
  rintro ⟨m, -, hpos, hle⟩
  omega

/-- The number of integer keys up to `x`, with the one that comes. -/
def Table.count (t : Table N V) (ek : Key N) (x : ℕ) : ℕ :=
  arrayCount t.array x + hashCount t.node (Key.upTo · x) t.sizenode + (ek.upTo x).toNat

/-- **`rehash`** keeps what the table maps, there is room for the key, and the array part has the
best size. -/
theorem rehash_spec (h : Sound t) {newk : Table N V → Key N → Except Fault (Table N V × Slot)}
    (hnew : Inserts newk) (ek : Key N) :
    (rehash newk t ek = .error .tableOverflow ∧ 2 ^ maxbits ≤ t.entries) ∨
      ∃ t', rehash newk t ek = .ok t' ∧ Sound t' ∧ t'.dummy = false ∧
        (∀ k v, t'.Maps k v ↔ t.Maps k v) ∧ Clean t' ∧
        (t'.InArray ek ∨ ∃ r, Room t' r ∧ r < t'.sizenode) ∧
        ((∀ b, b ≤ maxbits → t.count ek (2 ^ b) ≤ 2 ^ b) →
          Optimal (t.count ek) t'.array.length) := by
  obtain ⟨harray, hause⟩ := numusearray_spec t fun _ => 0
  obtain ⟨hhash, htotal, hints⟩ := numusehashLoop_spec h.value t.sizenode
    (numusearray t fun _ => 0).1 0 0
  obtain ⟨hextra, hone⟩ := countint_spec ek (numusehash t (numusearray t fun _ => 0).1).1
  have hzero : ∀ b, upto (fun _ => 0) b = 0 := fun b => Finset.sum_const_zero
  have hupto : ∀ b, b ≤ maxbits →
      upto (countint ek (numusehash t (numusearray t fun _ => 0).1).1).1 b =
        t.count ek (2 ^ b) := fun b hb => by
    rw [hextra b hb, numusehash, hhash b hb, harray b hb, hzero, Nat.zero_add, Table.count]
  have hsized := computesizes_spec (by
    rw [hupto maxbits le_rfl] : upto (countint ek (numusehash t
      (numusearray t fun _ => 0).1).1).1 maxbits = _)
  have hnarray : (numusearray t fun _ => 0).2 + (numusehash t (numusearray t fun _ => 0).1).2.2 +
      (countint ek (numusehash t (numusearray t fun _ => 0).1).1).2 =
      t.count ek (2 ^ maxbits) := by
    rw [hause, hone, numusehash, hints, Nat.zero_add]
    rfl
  have hoptimal := computesizes_optimal hupto
  rw [hupto maxbits le_rfl] at hoptimal
  rw [rehash, hnarray]
  rw [numusehash, htotal, hause, Nat.zero_add, ← numusehash,
    arrayCount_eq_of_le h.array_le le_rfl]
  set sizes := computesizes (countint ek (numusehash t (numusearray t fun _ => 0).1).1).1
    (t.count ek (2 ^ maxbits))
  -- what goes to the array part are the integer keys up to its size
  have hna : sizes.1 = arrayCount t.array sizes.2 +
      hashCount t.node (Key.upTo · sizes.2) t.sizenode + (ek.upTo sizes.2).toNat ∧
      sizes.2 ≤ maxasize := by
    obtain heq | ⟨b, hb, heq⟩ := hsized
    · rw [heq, hashCount_eq_zero _ _ _ upTo_zero, upTo_zero, arrayCount, List.take_zero]
      exact ⟨rfl, Nat.zero_le _⟩
    · rw [heq]
      exact ⟨hupto b hb, Nat.pow_le_pow_right (by omega) hb⟩
  have hsplit := hashCount_split t.node (Key.upTo · sizes.2) t.sizenode
  have hlen := arrayCount_length t.array sizes.2
  have hle : (ek.upTo sizes.2).toNat ≤ 1 := Bool.toNat_le _
  have hentries : t.entries = arrayCount t.array t.array.length +
      hashCount t.node (fun _ => true) t.sizenode := rfl
  have hstays : ∃ s : Finset ℕ, s.card ≤ hashCount t.node (fun k => !k.upTo sizes.2) t.sizenode ∧
      ∀ j, (t.node j).val.isSome → (∀ k, t.keys j = some k → k.upTo sizes.2 = false) → j ∈ s := by
    refine ⟨_, le_rfl, fun j hv hk => ?_⟩
    obtain ⟨v, hv'⟩ := Option.isSome_iff_exists.mp hv
    obtain ⟨k, hkey⟩ := h.value j v hv'
    refine Finset.mem_filter.mpr ⟨Finset.mem_range.mpr (h.keys_lt hkey), ?_⟩
    rw [Node.holds, hv, show (t.node j).key.get? = some k from hkey, Option.any_some, hk k hkey]
    rfl
  have hroom : hashCount t.node (fun k => !k.upTo sizes.2) t.sizenode +
      slice t.array sizes.2 t.array.length ≤
      arrayCount t.array t.array.length + hashCount t.node (fun _ => true) t.sizenode + 1 -
        sizes.1 := by omega
  obtain ⟨herror, hover⟩ | ⟨t', heq, hres⟩ := resize_spec h hnew hna.2 hstays hroom
  · exact .inl ⟨herror, by omega⟩
  · refine .inr ⟨t', heq, hres.sound, hres.dummy, hres.maps, hres.clean, ?_, fun hle => ?_⟩
    swap
    · rw [hres.array]
      exact hoptimal hle
    cases hek : ek.upTo sizes.2 with
    | true =>
      rw [inArray_iff, hres.array]
      exact .inl hek
    | false =>
      rw [hek, Bool.toNat_false] at hna
      exact .inr ⟨_, hres.room, lt_of_lt_of_le (by omega) hres.size⟩

/-! ### Assigning to a key -/

/-- There is a place for a key, and nothing else has changed. -/
structure Located (t : Table N V) (key : Key N) (t' : Table N V) (slot : Slot) : Prop where
  sound : Sound t'
  slotOf : t'.SlotOf key slot
  maps : ∀ k v, t'.Maps k v ↔ t.Maps k v
  keys : ∀ j k, t'.keys j = some k → k = key ∨ (∃ j', t.keys j' = some k) ∨ ∃ v, t.Maps k v
  fresh : Fresh t → Fresh t'

theorem Inserted.located {key : Key N} {t' : Table N V} {slot : Slot}
    (h : Inserted t key t' slot) : Located t key t' slot :=
  ⟨h.sound, h.slotOf, h.maps, fun j k hk => (h.keys j k hk).imp_right .inl, h.fresh⟩

/-- Without dead keys, there is nothing that a key may be mistaken for. -/
theorem Clean.fresh (h : Clean t) : Fresh t := fun _ _ j _ ⟨p, _, hp⟩ => absurd hp (h.dead j p)

/-- The key is a number that is not equal to itself. -/
def Key.isNaN : Key N → Bool
  | .number n => LuaNumber.isNaN n
  | _ => false

theorem luaHSetWith_of_none {newk : Table N V → Key N → Except Fault (Table N V × Slot)}
    {key : Key N} (hnone : luaHGet t (some key) = .ok none) (hnan : key.isNaN = false) :
    luaHSetWith newk t (some key) = newk t key := by
  unfold luaHSetWith
  rw [hnone]
  cases key with
  | number n =>
    have hnan' : ¬LuaNumber.isNaN n = true := Bool.eq_false_iff.mp hnan
    exact if_neg hnan'
  | boolean b => rfl
  | string ts => rfl
  | pointer tag p => rfl

/-- **`newkey`** finds a place for a key, if need be after a rehash, which is made only once. -/
theorem newkey_spec (h : Sound t) {key : Key N} (hkey : ∀ slot, ¬t.SlotOf key slot)
    (hnan : key.isNaN = false) :
    (newkey 2 t key = .error .tableOverflow ∧ 2 ^ maxbits ≤ t.entries) ∨
      ∃ t' slot, newkey 2 t key = .ok (t', slot) ∧ Located t key t' slot := by
  rw [newkey]
  obtain ⟨t', slot, heq, hins⟩ | ⟨heq, hfull⟩ := h.newkeyWith_spec hkey
    fun t key => do
      let t₁ ← rehash (newkey 1) t key
      luaHSetWith (newkey 1) t₁ (some key)
  · exact .inr ⟨t', slot, heq, hins.located⟩
  · rw [heq]
    obtain ⟨herror, hover⟩ | ⟨t₁, hok, hsound, hdummy, hmaps, hclean, hplace, -⟩ :=
      rehash_spec (h.exhausted hfull) (inserts_newkey 0) key
    · exact .inl ⟨by rw [herror]; rfl, hover⟩
    · have hsame : ∀ k v, Table.Maps { t with lastfree := 0 } k v ↔ t.Maps k v :=
        maps_congr rfl fun _ _ => Iff.rfl
      have hmaps' : ∀ k v, t₁.Maps k v ↔ t.Maps k v := fun k v => (hmaps k v).trans (hsame k v)
      right
      rw [hok]
      change ∃ t' slot, luaHSetWith (newkey 1) t₁ (some key) = .ok (t', slot) ∧ _
      obtain ⟨slot, hget, hslot⟩ | ⟨hget, hnone⟩ := luaHGet_spec hsound.toHashed key
      · -- the key went to the array part
        refine ⟨t₁, slot, ?_, hsound, hslot, hmaps', fun j k hk => ?_, fun _ => hclean.fresh⟩
        · unfold luaHSetWith
          rw [hget]
          rfl
        · obtain ⟨v, hv⟩ := hclean.maps j k hk
          exact .inr (.inr ⟨v, (hmaps' k v).mp hv⟩)
      · rw [luaHSetWith_of_none hget hnan]
        obtain hin | ⟨r, hroom, hlt⟩ := hplace
        · obtain ⟨m, hm, hpos, hle⟩ := hin
          exact absurd (.array m hm hpos hle) (hnone _)
        · obtain ⟨t', slot, hnew, hins⟩ :=
            inserts_newkey 0 t₁ key r hsound hnone hroom hlt hdummy
          refine ⟨t', slot, hnew, hins.sound, hins.slotOf,
            fun k v => (hins.maps k v).trans (hmaps' k v), fun j k hk => ?_,
            fun _ => hins.fresh hclean.fresh⟩
          obtain heq' | ⟨j', hj'⟩ := hins.keys j k hk
          · exact .inl heq'
          · obtain ⟨v, hv⟩ := hclean.maps j' k hj'
            exact .inr (.inr ⟨v, (hmaps' k v).mp hv⟩)

/-- What a function that assigns to a key does. -/
def Assigns (t : Table N V) (key : Key N) (r : Except Fault (Table N V × Slot)) : Prop :=
  (r = .error .tableOverflow ∧ 2 ^ maxbits ≤ t.entries) ∨
    ∃ t' slot, r = .ok (t', slot) ∧ Located t key t' slot

theorem Finds.assigns (h : Sound t) {key : Key N} {found : Except Fault (Option Slot)}
    (hfinds : Finds t key found) (hnan : key.isNaN = false)
    {r : Except Fault (Table N V × Slot)}
    (hsome : ∀ slot, found = .ok (some slot) → r = .ok (t, slot))
    (hnone : found = .ok none → r = newkey 2 t key) : Assigns t key r := by
  obtain ⟨slot, heq, hslot⟩ | ⟨heq, hall⟩ := hfinds
  · rw [hsome slot heq]
    exact .inr ⟨t, slot, rfl, h, hslot, fun _ _ => Iff.rfl, fun j _ hk => .inr (.inl ⟨j, hk⟩), id⟩
  · rw [hnone heq]
    exact newkey_spec h hall hnan

/-- **`luaH_set`** -/
theorem luaHSet_spec (h : Sound t) {key : Key N} (hnan : key.isNaN = false) :
    Assigns t key (luaHSet t (some key)) := by
  refine (luaHGet_spec h.toHashed key).assigns h hnan (fun slot heq => ?_) fun heq => ?_
  · unfold luaHSet luaHSetWith
    rw [heq]
    rfl
  · rw [luaHSet, luaHSetWith_of_none heq hnan]

/-- **`luaH_setnum`** -/
theorem luaHSetnum_spec (h : Sound t) {m : ℤ} (hlo : -2 ^ 31 ≤ m) (hhi : m < 2 ^ 31) :
    Assigns t (.number (ofInt m)) (luaHSetnum t m) := by
  refine (luaHGetnum_spec h.toHashed (intOf_ofInt hlo hhi)).assigns h (LuaNumber.isNaN_ofInt m)
    (fun slot heq => ?_) fun heq => ?_ <;> rw [luaHSetnum, luaHSetnumWith, heq] <;> rfl

/-- **`luaH_setstr`** -/
theorem luaHSetstr_spec (h : Sound t) (ts : TString) :
    Assigns t (.string ts) (luaHSetstr t ts) := by
  refine (luaHGet_spec h.toHashed (.string ts)).assigns h rfl (fun slot heq => ?_) fun heq => ?_
  all_goals
    rw [luaHGet] at heq
    rw [luaHSetstr, luaHSetstrWith, heq]
    rfl

/-- The errors of `luaH_set` for a key that is nil or NaN. -/
theorem luaHSet_error (h : Sound t) :
    luaHSet t none = .error .indexIsNil ∧
      ∀ key : Key N, key.isNaN = true → (∀ slot, ¬t.SlotOf key slot) →
        luaHSet t (some key) = .error .indexIsNaN := by
  refine ⟨rfl, fun key hnan hall => ?_⟩
  obtain ⟨slot, -, hslot⟩ | ⟨hget, -⟩ := luaHGet_spec h.toHashed key
  · exact absurd hslot (hall slot)
  · unfold luaHSet luaHSetWith
    rw [hget]
    cases key with
    | number n =>
      have hnan' : LuaNumber.isNaN n = true := hnan
      exact if_pos hnan'
    | boolean b => cases hnan
    | string ts => cases hnan
    | pointer tag p => cases hnan

end ELuaBrain.Lua.Tables
