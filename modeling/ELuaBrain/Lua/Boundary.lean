import ELuaBrain.Lua.TableRuns

/-!
# Boundaries

A boundary of a table is an index that is present, or zero, such that the next one is not present.
`luaH_getn` finds one in every table: by binary search in the array part, or by doubling and binary
search, or in the worst case by linear search.

## Main definitions

* `Table.Present`, `Boundary` : the indices that are present, and boundaries.

## Main results

* `bisect_spec`, `doubling_spec`, `linear_spec` : the searches.
* `luaHGetn_run` : the boundary of a table after any run.
-/

namespace ELuaBrain.Lua.Tables

open Function Links

/-! ### Searches -/

/-- An index that is present, or zero, such that the next one is not present. -/
def Boundary (p : ℕ → Prop) (n : ℕ) : Prop := (n = 0 ∨ p n) ∧ ¬p (n + 1)

section Searches

variable {p : ℕ → Prop} {isnil : ℕ → Except Fault Bool}

/-- The test says whether an index is not present. -/
def Tests (isnil : ℕ → Except Fault Bool) (p : ℕ → Prop) (m : ℕ) : Prop :=
  isnil m = .ok false ∧ p m ∨ isnil m = .ok true ∧ ¬p m

/-- **Binary search.** There is a boundary between an index that is present and one that is not. -/
theorem bisect_spec (i j : ℕ) (hij : i < j) (htests : ∀ m, i < m → m < j → Tests isnil p m)
    (hi : i = 0 ∨ p i) (hj : ¬p j) : ∃ n, bisect isnil i j = .ok n ∧ Boundary p n := by
  induction i, j using bisect.induct with
  | case1 i j hmore ihleft ihright =>
    rw [bisect, dif_pos hmore]
    obtain ⟨heq, hp⟩ | ⟨heq, hp⟩ := htests ((i + j) / 2) (by omega) (by omega)
    · rw [heq]
      exact ihright (by omega) (fun m hm hm' => htests m (by omega) hm') (.inr hp) hj
    · rw [heq]
      exact ihleft (by omega) (fun m hm hm' => htests m hm (by omega)) hi hp
  | case2 i j hdone =>
    rw [bisect, dif_neg hdone]
    have hnext : i + 1 = j := by omega
    exact ⟨i, rfl, hi, by rwa [hnext]⟩

/-- The doubling ends in a place for a binary search, unless there is an overflow. -/
theorem doubling_spec (rounds : ℕ) : ∀ i j, i < j → j ≤ maxInt → maxInt < j * 2 ^ rounds →
    (∀ m, 0 < m → m ≤ maxInt → Tests isnil p m) → (i = 0 ∨ p i) →
    (∃ i' j', doubling isnil rounds i j = .ok (some (i', j')) ∧ i' < j' ∧ j' ≤ maxInt ∧
      (i' = 0 ∨ p i') ∧ ¬p j') ∨ doubling isnil rounds i j = .ok none := by
  induction rounds with
  | zero =>
    intro i j _ hle hlt
    rw [pow_zero, Nat.mul_one] at hlt
    omega
  | succ rounds ih =>
    intro i j hij hle hlt htests hi
    rw [doubling]
    obtain ⟨heq, hp⟩ | ⟨heq, hp⟩ := htests j (by omega) hle
    · rw [heq]
      by_cases hover : maxInt < j * 2
      · exact .inr (if_pos hover)
      · have hnext : doubling isnil rounds j (j * 2) =
            if maxInt < j * 2 then pure none else doubling isnil rounds j (j * 2) :=
          (if_neg hover).symm
        have := ih j (j * 2) (by omega) (Nat.le_of_not_lt hover)
          (by rwa [Nat.mul_assoc, ← Nat.pow_succ']) htests (.inr hp)
        rw [hnext] at this
        exact this
    · rw [heq]
      exact .inl ⟨i, j, rfl, hij, hle, hi, hp⟩

/-- **Linear search.** It ends if not all of so many indices are present. -/
theorem linear_spec (rounds : ℕ) : ∀ i, 0 < i → (∀ m, i ≤ m → m < i + rounds → Tests isnil p m) →
    (i = 1 ∨ p (i - 1)) → (∃ m, i ≤ m ∧ m < i + rounds ∧ ¬p m) →
    ∃ n, linear isnil rounds i = .ok n ∧ Boundary p n := by
  induction rounds with
  | zero =>
    rintro i - - - ⟨m, hle, hlt, -⟩
    omega
  | succ rounds ih =>
    intro i hpos htests hi hex
    rw [linear]
    obtain ⟨heq, hp⟩ | ⟨heq, hp⟩ := htests i le_rfl (by omega)
    · rw [heq]
      obtain ⟨m, hle, hlt, hm⟩ := hex
      have hne : m ≠ i := fun hmi => hm (hmi ▸ hp)
      refine ih (i + 1) (Nat.succ_pos i) (fun m hm hm' => htests m (by omega) (by omega))
        (.inr hp) ⟨m, by omega, by omega, hm⟩
    · rw [heq]
      have hpred : i - 1 + 1 = i := by omega
      refine ⟨i - 1, rfl, hi.imp (fun hone => by omega) id, ?_⟩
      rwa [hpred]

end Searches

variable {N V : Type} [LuaNumber N] [DecidableEq N] {t : Table N V}

/-- The value at an integer key is not nil. -/
def Table.Present (t : Table N V) (m : ℕ) : Prop := ∃ v, t.Maps (.number (ofInt m)) v

theorem arrayindex_ofInt {m : ℕ} (hm : m ≤ maxInt) :
    arrayindex (Key.number (ofInt (m : ℤ) : N)) = some (m : ℤ) := by
  have hmax : maxInt < 2 ^ 31 := by decide
  exact intOf_ofInt (by omega) (by omega)

theorem Sound.tests_isnilAt (h : Sound t) {m : ℕ} (hm : m ≤ maxInt) :
    Tests (isnilAt t) t.Present m := by
  have hind : Tables.intOf (ofInt (m : ℤ) : N) = some (m : ℤ) := arrayindex_ofInt hm
  rw [Tests, isnilAt]
  obtain ⟨slot, heq, hslot⟩ | ⟨heq, hnone⟩ := luaHGetnum_spec h.toHashed hind
  · rw [heq]
    cases hat : t.at slot with
    | some v =>
      refine .inl ⟨?_, v, slot, hslot, hat⟩
      change Except.ok ((some slot).bind t.at).isNone = _
      rw [Option.bind_some, hat]
      rfl
    | none =>
      refine .inr ⟨?_, ?_⟩
      · change Except.ok ((some slot).bind t.at).isNone = _
        rw [Option.bind_some, hat]
        rfl
      · rintro ⟨v, slot', hslot', hat'⟩
        rw [h.slotOf_unique hslot' hslot, hat] at hat'
        cases hat'
  · rw [heq]
    exact .inr ⟨rfl, fun ⟨v, slot, hslot, _⟩ => hnone slot hslot⟩

/-- The array part holds the indices up to its size. -/
theorem Sound.present_iff (h : Sound t) {m : ℕ} (hpos : 0 < m) (hle : m ≤ t.array.length) :
    t.Present m ↔ (t.array.getD (m - 1) none).isSome := by
  have hmax : maxasize ≤ maxInt := by decide
  have hindex : ((m - 1 : ℕ) : ℤ) + 1 = (m : ℤ) := by omega
  have hlt : m - 1 < t.array.length := by omega
  rw [Option.isSome_iff_exists]
  refine exists_congr fun v => ?_
  rw [h.getD_array hlt, hindex]

/-- There are no more indices present than there are places. -/
theorem Sound.exists_not_present (h : Sound t) :
    ∃ m, 1 ≤ m ∧ m < 1 + (t.array.length + t.sizenode + 2) ∧ ¬t.Present m := by
  classical
  by_contra! hall
  have hasize : maxasize = 2 ^ 26 := rfl
  have hbits : 2 ^ maxbits = 2 ^ 26 := rfl
  have hint : maxInt = 2 ^ 31 - 3 := rfl
  have hlen := h.array_le
  have hnodes : t.sizenode ≤ 2 ^ maxbits := Nat.pow_le_pow_right (by omega) h.lsizenode_le
  set n := t.array.length + t.sizenode + 1 with hn
  have hslot : ∀ i, i < n → ∃ slot, t.SlotOf (.number (ofInt ((i + 1 : ℕ) : ℤ))) slot :=
    fun i hi => by
      obtain ⟨v, slot, hs, -⟩ := hall (i + 1) (by omega) (by omega)
      exact ⟨slot, hs⟩
  have hchoice : ∀ i, ∃ slot, i < n → t.SlotOf (.number (ofInt ((i + 1 : ℕ) : ℤ))) slot :=
    fun i => by
      by_cases hi : i < n
      · obtain ⟨slot, hs⟩ := hslot i hi
        exact ⟨slot, fun _ => hs⟩
      · exact ⟨.array 0, fun hlt => absurd hlt hi⟩
  choose place hplace using hchoice
  have hinj : Set.InjOn place (Finset.range n) := fun i hi j hj heq => by
    have hi' := hplace i (Finset.mem_range.mp hi)
    have hj' := hplace j (Finset.mem_range.mp hj)
    rw [heq] at hi'
    have hkey := slotOf_inj hi' hj'
    have hindex : arrayindex (Key.number (ofInt ((i + 1 : ℕ) : ℤ) : N)) =
        arrayindex (Key.number (ofInt ((j + 1 : ℕ) : ℤ))) := congrArg arrayindex hkey
    have hi'' := Finset.mem_range.mp hi
    have hj'' := Finset.mem_range.mp hj
    rw [arrayindex_ofInt (by omega), arrayindex_ofInt (by omega), Option.some_inj] at hindex
    omega
  have hsub : (Finset.range n).image place ⊆
      (Finset.range t.array.length).image Slot.array ∪
        (Finset.range t.sizenode).image Slot.node := fun slot hmem => by
    obtain ⟨i, hi, rfl⟩ := Finset.mem_image.mp hmem
    obtain ⟨j, heq, -, hpos, hle⟩ | ⟨j, heq, hj⟩ :=
      slotOf_iff.mp (hplace i (Finset.mem_range.mp hi))
    · rw [heq]
      exact Finset.mem_union_left _ (Finset.mem_image_of_mem _ (Finset.mem_range.mpr (by omega)))
    · rw [heq]
      exact Finset.mem_union_right _ (Finset.mem_image_of_mem _
        (Finset.mem_range.mpr (h.keys_lt hj)))
  have hcard := Finset.card_le_card hsub
  rw [Finset.card_image_of_injOn hinj, Finset.card_range] at hcard
  have hunion := (hcard.trans (Finset.card_union_le _ _)).trans
    (Nat.add_le_add Finset.card_image_le Finset.card_image_le)
  rw [Finset.card_range, Finset.card_range] at hunion
  omega

/-- **`unbound_search`** finds a boundary from an index that is present, or zero. -/
theorem Sound.unboundSearch (h : Sound t) (hj : t.array.length = 0 ∨ t.Present t.array.length) :
    ∃ n, unboundSearch t t.array.length = .ok n ∧ Boundary t.Present n := by
  have hasize : maxasize = 2 ^ 26 := rfl
  have hbits : 2 ^ maxbits = 2 ^ 26 := rfl
  have hint : maxInt = 2 ^ 31 - 3 := rfl
  have hlen := h.array_le
  have hnodes : t.sizenode ≤ 2 ^ maxbits := Nat.pow_le_pow_right (by omega) h.lsizenode_le
  rw [Tables.unboundSearch]
  obtain ⟨i, j, heq, hij, hle, hi, hp⟩ | heq := doubling_spec 32 t.array.length
    (t.array.length + 1) (Nat.lt_succ_self _) (by omega) (by omega)
    (fun m _ hm => h.tests_isnilAt hm) hj
  · rw [heq]
    exact bisect_spec i j hij (fun m _ hm => h.tests_isnilAt (by omega)) hi hp
  · rw [heq]
    exact linear_spec _ 1 Nat.one_pos (fun m _ hm => h.tests_isnilAt (by omega)) (.inl rfl)
      h.exists_not_present

/-- **`luaH_getn`** finds a boundary. -/
theorem Sound.luaHGetn (h : Sound t) : ∃ n, luaHGetn t = .ok n ∧ Boundary t.Present n := by
  rw [Tables.luaHGetn]
  by_cases hnil : 0 < t.array.length ∧ (t.array.getD (t.array.length - 1) none).isNone
  · rw [if_pos hnil]
    refine bisect_spec 0 t.array.length hnil.1 (fun m hpos hlt => ?_) (.inl rfl) ?_
    · rw [Tests, h.present_iff hpos hlt.le]
      cases (t.array.getD (m - 1) none) with
      | none => exact .inr ⟨rfl, Bool.false_ne_true⟩
      | some v => exact .inl ⟨rfl, rfl⟩
    · rw [h.present_iff hnil.1 le_rfl, Option.isSome_iff_ne_none, not_not]
      exact Option.isNone_iff_eq_none.mp hnil.2
  · rw [if_neg hnil]
    have hlast : t.array.length = 0 ∨ t.Present t.array.length := by
      rcases Nat.eq_zero_or_pos t.array.length with hzero | hpos
      · exact .inl hzero
      · rw [h.present_iff hpos le_rfl, ← Option.not_isNone]
        exact .inr (Bool.not_eq_true' _ ▸ Bool.eq_false_iff.mpr fun hnone => hnil ⟨hpos, hnone⟩)
    cases hd : t.dummy with
    | false => exact h.unboundSearch hlast
    | true =>
      -- the hash part is empty
      obtain ⟨hsize, -, hnode⟩ := h.of_dummy hd
      refine ⟨t.array.length, rfl, hlast, ?_⟩
      rintro ⟨v, slot, hslot, -⟩
      have hasize : maxasize = 2 ^ 26 := rfl
      have hint : maxInt = 2 ^ 31 - 3 := rfl
      have hlen := h.array_le
      obtain ⟨j, -, hj, -, hle⟩ | ⟨i, -, hi⟩ := slotOf_iff.mp hslot
      · rw [arrayindex_ofInt (by omega)] at hj
        have := Option.some_inj.mp hj
        omega
      · have hlt := h.keys_lt hi
        rw [Table.sizenode, hsize, pow_zero, Nat.lt_one_iff] at hlt
        rw [hlt, keys_of_free (free_of_blank hnode)] at hi
        cases hi

/-- **The length operator.** Whatever is assigned to a table, `luaH_getn` ends and finds an index
whose value is not nil, or zero, such that the value at the next one is nil. -/
theorem luaHGetn_run {narray nhash : ℕ} (hmax : narray ≤ maxasize)
    (hnew : luaHNew narray nhash = .ok t) (ops : List (Op N V)) (hops : ∀ op ∈ ops, op.Allowed)
    {t' : Table N V} (hrun : run t ops = .ok t') :
    ∃ n : ℕ, luaHGetn t' = .ok n ∧
      (n = 0 ∨ ops.foldl Op.assoc (fun _ => none) (.number (ofInt (n : ℤ))) ≠ none) ∧
      ops.foldl Op.assoc (fun _ => none) (.number (ofInt ((n + 1 : ℕ) : ℤ))) = none := by
  obtain ⟨h', hm'⟩ := run_ok hmax hnew ops hops hrun
  obtain ⟨n, heq, hfirst, hnext⟩ := h'.luaHGetn
  have hpresent : ∀ m : ℕ, t'.Present m ↔
      ops.foldl Op.assoc (fun _ => none) (.number (ofInt (m : ℤ))) ≠ none := fun m => by
    rw [Option.ne_none_iff_exists']
    exact exists_congr fun v => hm' _ v
  exact ⟨n, heq, hfirst.imp_right (hpresent n).mp,
    not_not.mp fun hne => hnext ((hpresent _).mpr hne)⟩

/-- The length of a table with a hole. -/
theorem luaHGetn_run_three : ∃ t t' : Table Int32 ℕ, luaHNew 4 0 = .ok t ∧
    run t [.setnum 1 (some 5), .setnum 3 (some 5)] = .ok t' ∧
    ∃ n : ℕ, luaHGetn t' = .ok n ∧
      (n = 0 ∨ ([.setnum 1 (some 5), .setnum 3 (some 5)] : List (Op Int32 ℕ)).foldl Op.assoc
        (fun _ => none) (.number (ofInt (n : ℤ))) ≠ none) ∧
      ([.setnum 1 (some 5), .setnum 3 (some 5)] : List (Op Int32 ℕ)).foldl Op.assoc
        (fun _ => none) (.number (ofInt ((n + 1 : ℕ) : ℤ))) = none :=
  ⟨_, _, rfl, rfl, luaHGetn_run (show 4 ≤ maxasize by decide) (show luaHNew 4 0 = _ from rfl)
    [.setnum 1 (some 5), .setnum 3 (some 5)] (by simp [Op.Allowed]) rfl⟩

end ELuaBrain.Lua.Tables
