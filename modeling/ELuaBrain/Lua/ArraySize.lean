import ELuaBrain.Lua.Boundary
import ELuaBrain.Lua.Traversal
import Mathlib.Data.Set.Card

/-!
# The size of the array part

After a rehash the size of the array part is the largest power of 2 such that more than half of the
slots up to it are in use, with the key that is about to come.

## Main results

* `Sound.count_eq_used` : what is counted before a rehash are the indices that are in use.
* `rehash_array` : the size of the array part after a rehash.
-/

namespace ELuaBrain.Lua.Tables

open Function Links

variable {N V : Type} [LuaNumber N] [DecidableEq N] {t : Table N V} {ek : Key N}

/-- The index is in use, or comes. -/
def Table.Used (t : Table N V) (ek : Key N) (m : ℕ) : Prop :=
  t.Present m ∨ ek = .number (ofInt (m : ℤ))

/-- The number of indices up to `x` that are in use. -/
noncomputable def Table.used (t : Table N V) (ek : Key N) (x : ℕ) : ℕ :=
  {m : ℕ | 1 ≤ m ∧ m ≤ x ∧ t.Used ek m}.ncard

theorem used_zero (t : Table N V) (ek : Key N) : t.used ek 0 = 0 := by
  rw [Table.used, Set.ncard_eq_zero (Set.Finite.subset (Set.finite_le_nat 0) fun _ h => h.2.1)]
  ext m
  exact iff_of_false (fun h => by have := h.1; have := h.2.1; omega) (Set.notMem_empty m)

theorem finite_used (t : Table N V) (ek : Key N) (x : ℕ) :
    {m : ℕ | 1 ≤ m ∧ m ≤ x ∧ t.Used ek m}.Finite :=
  (Set.finite_le_nat x).subset fun _ h => h.2.1

open Classical in
theorem used_succ (t : Table N V) (ek : Key N) (x : ℕ) :
    t.used ek (x + 1) = t.used ek x + if t.Used ek (x + 1) then 1 else 0 := by
  rw [Table.used, Table.used]
  split_ifs with hx
  · have hset : {m : ℕ | 1 ≤ m ∧ m ≤ x + 1 ∧ t.Used ek m} =
        insert (x + 1) {m : ℕ | 1 ≤ m ∧ m ≤ x ∧ t.Used ek m} := by
      ext m
      constructor
      · rintro ⟨hpos, hle, hm⟩
        rcases Nat.eq_or_lt_of_le hle with rfl | hlt
        · exact Set.mem_insert _ _
        · exact Set.mem_insert_of_mem _ ⟨hpos, by omega, hm⟩
      · rintro (rfl | ⟨hpos, hle, hm⟩)
        · exact ⟨by omega, le_rfl, hx⟩
        · exact ⟨hpos, by omega, hm⟩
    rw [hset, Set.ncard_insert_of_notMem (fun h => by have := h.2.1; omega) (finite_used t ek x)]
  · rw [Nat.add_zero]
    congr 1
    ext m
    refine and_congr_right fun _ => ⟨?_, fun ⟨hle, hm⟩ => ⟨by omega, hm⟩⟩
    rintro ⟨hle, hm⟩
    have hne : m ≠ x + 1 := fun heq => hx (heq ▸ hm)
    exact ⟨by omega, hm⟩

theorem used_le (t : Table N V) (ek : Key N) (x : ℕ) : t.used ek x ≤ x := by
  classical
  induction x with
  | zero => rw [used_zero]
  | succ x ih =>
    rw [used_succ]
    split_ifs <;> omega

/-! ### Counting -/

omit [LuaNumber N] [DecidableEq N] in
theorem arrayCount_succ (array : List (Option V)) (x : ℕ) :
    arrayCount array (x + 1) = arrayCount array x + (array.getD x none).isSome.toNat := by
  rcases Nat.lt_or_ge x array.length with hlt | hge
  · have hslice := slice_succ array (Nat.zero_le x) hlt
    rw [slice, List.drop_zero, slice, List.drop_zero] at hslice
    exact hslice
  · rw [arrayCount_eq_of_le (Nat.le_succ_of_le hge) hge, List.getD_eq_getElem?_getD,
      List.getElem?_eq_none hge]
    rfl

omit [LuaNumber N] [DecidableEq N] in
theorem hashCount_add (node : ℕ → Node N V) (p q : Key N → Bool)
    (hpq : ∀ k, p k = true → q k = false) (n : ℕ) :
    hashCount node p n + hashCount node q n = hashCount node (fun k => p k || q k) n := by
  induction n with
  | zero => rfl
  | succ n ih =>
    rw [hashCount_succ, hashCount_succ, hashCount_succ, ← ih]
    have hone : ((node n).holds p).toNat + ((node n).holds q).toNat =
        ((node n).holds fun k => p k || q k).toNat := by
      rw [Node.holds, Node.holds, Node.holds]
      cases (node n).val.isSome <;> cases (node n).key.get? with
      | none => rfl
      | some k =>
        cases hp : p k with
        | true => simp [hp, hpq k hp]
        | false => simp [hp]
    omega

/-- A key is counted once. -/
theorem Sound.hashCount_index (h : Sound t) (m : ℤ) :
    hashCount t.node (fun k => decide (arrayindex k = some m)) t.sizenode ≤ 1 ∧
      (0 < hashCount t.node (fun k => decide (arrayindex k = some m)) t.sizenode ↔
        ∃ k v, arrayindex k = some m ∧ t.Stores k v) := by
  have hholds : ∀ j, (t.node j).holds (fun k => decide (arrayindex k = some m)) = true ↔
      ∃ k v, t.keys j = some k ∧ (t.node j).val = some v ∧ arrayindex k = some m := fun j => by
    rw [Node.holds, Bool.and_eq_true, Option.isSome_iff_exists, Option.any_eq_true]
    constructor
    · rintro ⟨⟨v, hv⟩, k, hk, hindex⟩
      exact ⟨k, v, hk, hv, of_decide_eq_true hindex⟩
    · rintro ⟨k, v, hk, hv, hindex⟩
      exact ⟨⟨v, hv⟩, k, hk, decide_eq_true hindex⟩
  rw [hashCount]
  constructor
  · refine Finset.card_le_one.mpr fun i hi j hj => ?_
    obtain ⟨k, -, hk, -, hindex⟩ := (hholds i).mp (Finset.mem_filter.mp hi).2
    obtain ⟨k', -, hk', -, hindex'⟩ := (hholds j).mp (Finset.mem_filter.mp hj).2
    rw [← eq_of_arrayindex hindex hindex'] at hk'
    exact h.scatter.unique i j k hk hk'
  · rw [Finset.card_pos]
    constructor
    · rintro ⟨j, hj⟩
      obtain ⟨k, v, hk, hv, hindex⟩ := (hholds j).mp (Finset.mem_filter.mp hj).2
      exact ⟨k, v, hindex, j, hk, hv⟩
    · rintro ⟨k, v, hindex, j, hk, hv⟩
      exact ⟨j, Finset.mem_filter.mpr ⟨Finset.mem_range.mpr (h.keys_lt hk),
        (hholds j).mpr ⟨k, v, hk, hv, hindex⟩⟩⟩

theorem upTo_succ (k : Key N) (x : ℕ) :
    k.upTo (x + 1) = (k.upTo x || decide (arrayindex k = some ((x + 1 : ℕ) : ℤ))) := by
  cases hk : arrayindex k with
  | none =>
    rw [upTo_of_none hk, upTo_of_none hk]
    rfl
  | some m =>
    rw [upTo_of_arrayindex hk, upTo_of_arrayindex hk, Bool.eq_iff_iff, Bool.or_eq_true,
      decide_eq_true_iff, decide_eq_true_iff, decide_eq_true_iff, Option.some_inj]
    omega

/-- **What is counted** before a rehash are the indices that are in use. -/
theorem Sound.count_eq_used (h : Sound t) (hek : ∀ slot, ¬t.SlotOf ek slot) (x : ℕ)
    (hx : x ≤ maxInt) : t.count ek x = t.used ek x := by
  classical
  induction x with
  | zero =>
    rw [used_zero, Table.count, hashCount_eq_zero _ _ _ upTo_zero, upTo_zero]
    rfl
  | succ x ih =>
    have hcast : ((x : ℕ) : ℤ) + 1 = ((x + 1 : ℕ) : ℤ) := by push_cast; rfl
    have hindex : arrayindex (Key.number (ofInt ((x + 1 : ℕ) : ℤ) : N)) =
        some ((x + 1 : ℕ) : ℤ) := arrayindex_ofInt hx
    have hdisjoint : ∀ k : Key N, k.upTo x = true →
        decide (arrayindex k = some ((x + 1 : ℕ) : ℤ)) = false := fun k hk => by
      obtain ⟨m, hm, -, hle⟩ := upTo_iff.mp hk
      refine decide_eq_false fun heq => ?_
      rw [hm] at heq
      have := Option.some_inj.mp heq
      omega
    have hhash : hashCount t.node (Key.upTo · (x + 1)) t.sizenode =
        hashCount t.node (Key.upTo · x) t.sizenode +
          hashCount t.node (fun k => decide (arrayindex k = some ((x + 1 : ℕ) : ℤ)))
            t.sizenode := by
      rw [hashCount_add _ _ _ hdisjoint]
      simp only [upTo_succ]
    have hkey : (ek.upTo (x + 1)).toNat = (ek.upTo x).toNat +
        (decide (arrayindex ek = some ((x + 1 : ℕ) : ℤ))).toNat := by
      rw [upTo_succ]
      cases hup : ek.upTo x with
      | true => rw [hdisjoint ek hup]; rfl
      | false => rw [Bool.false_or, Bool.toNat_false, Nat.zero_add]
    have hsome : ek = .number (ofInt ((x + 1 : ℕ) : ℤ)) ↔
        arrayindex ek = some ((x + 1 : ℕ) : ℤ) :=
      ⟨fun heq => heq ▸ hindex, fun heq => eq_of_arrayindex heq hindex⟩
    -- the index is in one of the two parts, or it is the one that comes
    have hpresent : t.Present (x + 1) ↔ (t.array.getD x none).isSome = true ∨
        0 < hashCount t.node (fun k => decide (arrayindex k = some ((x + 1 : ℕ) : ℤ)))
          t.sizenode := by
      rw [(h.hashCount_index _).2]
      constructor
      · rintro ⟨v, slot, hslot, hat⟩
        obtain ⟨m, rfl, hm, hpos, hle⟩ | ⟨j, rfl, hj⟩ := slotOf_iff.mp hslot
        · rw [hindex] at hm
          rw [← Option.some_inj.mp hm, Table.at, show (((x + 1 : ℕ) : ℤ) - 1).toNat = x by omega]
            at hat
          exact .inl (Option.isSome_iff_exists.mpr ⟨v, hat⟩)
        · exact .inr ⟨_, v, hindex, j, hj, hat⟩
      · rintro (harray | ⟨k, v, hk, j, hj, hv⟩)
        · have hlt : x < t.array.length := by
            by_contra hge
            rw [List.getD_eq_getElem?_getD, List.getElem?_eq_none (Nat.le_of_not_lt hge)] at harray
            cases harray
          exact (h.present_iff (Nat.succ_pos x) hlt).mpr harray
        · rw [eq_of_arrayindex hk hindex] at hj
          exact ⟨v, .node j, .node j hj, hv⟩
    have hnot : t.Present (x + 1) → arrayindex ek ≠ some ((x + 1 : ℕ) : ℤ) := by
      rintro ⟨v, slot, hslot, -⟩ heq
      rw [← hsome.mpr heq] at hslot
      exact hek slot hslot
    have hapart : (t.array.getD x none).isSome = true → ¬0 < hashCount t.node
        (fun k => decide (arrayindex k = some ((x + 1 : ℕ) : ℤ))) t.sizenode := by
      rw [(h.hashCount_index _).2]
      rintro harray ⟨k, v, hk, j, hj, -⟩
      have hlt : x < t.array.length := by
        by_contra hge
        rw [List.getD_eq_getElem?_getD, List.getElem?_eq_none (Nat.le_of_not_lt hge)] at harray
        cases harray
      exact h.apart j k hj ⟨_, hk, by omega, by omega⟩
    have hone := (h.hashCount_index ((x + 1 : ℕ) : ℤ)).1
    have hprev := ih (by omega)
    rw [Table.count] at hprev ⊢
    rw [used_succ, arrayCount_succ, hhash, hkey, ← hprev]
    rw [Table.Used, hpresent, hsome]
    rw [hpresent] at hnot
    by_cases harray : (t.array.getD x none).isSome = true
    · have hhash' := hapart harray
      rw [if_pos (.inl (.inl harray)), decide_eq_false (hnot (.inl harray)), harray]
      simp only [Bool.toNat_true, Bool.toNat_false]
      omega
    · have harray' : (t.array.getD x none).isSome = false := Bool.not_eq_true _ ▸ harray
      rw [harray', Bool.toNat_false]
      by_cases hin : 0 < hashCount t.node
          (fun k => decide (arrayindex k = some ((x + 1 : ℕ) : ℤ))) t.sizenode
      · rw [if_pos (.inl (.inr hin)), decide_eq_false (hnot (.inr hin)), Bool.toNat_false]
        omega
      · by_cases hcome : arrayindex ek = some ((x + 1 : ℕ) : ℤ)
        · rw [if_pos (.inr hcome), decide_eq_true hcome, Bool.toNat_true]
          omega
        · rw [if_neg fun hor => hor.elim (fun hor' => hor'.elim Bool.false_ne_true hin) hcome,
            decide_eq_false hcome, Bool.toNat_false]
          omega

theorem used_congr {t' : Table N V} (hmaps : ∀ k v, t'.Maps k v ↔ t.Maps k v) (ek : Key N) :
    t'.used ek = t.used ek := by
  funext x
  rw [Table.used, Table.used]
  congr 1
  ext m
  exact and_congr_right' (and_congr_right' (or_congr_left (exists_congr fun v => hmaps _ v)))

/-- **The size of the array part.** A key is not found, and there is no free node for it. After the
rehash the size of the array part is the largest power of 2 such that more than half of the slots up
to it are in use, the one of the key included; or it is zero, if there is no such power of 2. -/
theorem rehash_array (h : Reachable t) (hek : luaHGet t (some ek) = .ok none)
    {t₁ t' : Table N V} (hfull : getfreepos t = (t₁, none))
    (hrehash : rehash (newkey 1) t₁ ek = .ok t') : Optimal (t.used ek) t'.array.length := by
  have hsound := h.tracked.toSound
  have hnone : ∀ slot, ¬t.SlotOf ek slot := by
    obtain ⟨slot, heq, -⟩ | ⟨-, hnone⟩ := luaHGet_spec hsound.toHashed ek
    · rw [hek] at heq
      cases heq
    · exact hnone
  obtain ⟨rfl, hsound₁⟩ := hsound.getfreepos_none hfull
  have hnone₁ : ∀ slot, ¬Table.SlotOf { t with lastfree := 0 } ek slot := fun slot hslot => by
    rw [slotOf_iff] at hslot
    exact hnone slot (slotOf_iff.mpr hslot)
  have hmaps : ∀ k v, Table.Maps { t with lastfree := 0 } k v ↔ t.Maps k v :=
    maps_congr rfl fun _ _ => Iff.rfl
  have hcount : ∀ b, b ≤ maxbits →
      Table.count { t with lastfree := 0 } ek (2 ^ b) = t.used ek (2 ^ b) := fun b hb => by
    have hpow : 2 ^ b ≤ 2 ^ maxbits := Nat.pow_le_pow_right (by omega) hb
    have hbits : 2 ^ maxbits ≤ maxInt := by decide
    rw [hsound₁.count_eq_used hnone₁ _ (hpow.trans hbits), used_congr hmaps]
  obtain ⟨herror, -⟩ | ⟨t₂, heq, -, -, -, -, -, hoptimal⟩ :=
    rehash_spec hsound₁ (inserts_newkey 0) ek
  · rw [hrehash] at herror
    cases herror
  · rw [hrehash] at heq
    rw [Except.ok.inj heq]
    obtain ⟨hhalf, hlargest⟩ := hoptimal fun b hb => (hcount b hb).trans_le (used_le t ek _)
    refine ⟨?_, fun b hb hlt => ?_⟩
    · obtain hzero | ⟨b, hb, hn, hlt⟩ := hhalf
      · exact .inl hzero
      · rw [hcount b hb] at hlt
        exact .inr ⟨b, hb, hn, hlt⟩
    · have hle := hlargest b hb hlt
      rwa [hcount b hb] at hle

/-- The first element of an empty table. -/
theorem rehash_array_one : ∃ t t₁ t' : Table Int32 ℕ,
    luaHNew 0 0 = .ok t ∧ rehash (newkey 1) t₁ (.number 1) = .ok t' ∧
    Optimal (t.used (.number 1)) t'.array.length := by
  have hnew : Reachable (Table.mk [] (fun _ => {}) 0 0 true : Table Int32 ℕ) :=
    .new (show 0 ≤ maxasize by decide) (show luaHNew 0 0 = _ from rfl)
  obtain ⟨-, hover⟩ | ⟨t', heq, -⟩ :=
    rehash_spec hnew.tracked.toSound (inserts_newkey 0) (.number 1)
  · exact absurd hover (by decide)
  · exact ⟨_, _, t', rfl, heq, rehash_array hnew rfl rfl heq⟩

end ELuaBrain.Lua.Tables
