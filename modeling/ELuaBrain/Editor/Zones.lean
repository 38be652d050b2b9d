import ELuaBrain.System.Extents
import ELuaBrain.System.NextFit
import Mathlib.Data.Nat.Bitwise

/-!
# The zone allocator of the editor

An area of `edalloc_zones.c`: the bitmap of its zones, and the search of free zones in a row with
`edalloc_alloc`. The search begins where the last allocation ended.

## Main definitions

* `Area`, `edallocBmpGet`, `edallocBmpSet` : an area and its bitmap.
* `edallocBmpFill` : the loop that marks the zones of a line.
* `edallocAlloc` : the search, and what it does with the zones that it finds.

## Main results

* `edallocBmpGet_set`, `edallocBmpFill_spec` : what is read from the bitmap after a write.
* `edallocAlloc_soon` : a search that returns does so within `searchSteps` steps.
* `edallocAlloc_right_iff` : exactly when the search returns, and with the right answer.
-/

namespace ELuaBrain.Zones

/-- `LINE_ALLOCATOR_ZONES`. -/
def lineAllocatorZones : ℕ := 500

/-- `LINE_ALLOCATOR_ZONE_SIZE`, in bytes. -/
def lineAllocatorZoneSize : ℕ := 24

/-- `EDALLOC_LINE_AREA`. The chain of areas is a list, so there is no field `next`; the block of
data is a function of the offset in it. -/
structure Area where
  availableZones : UInt16
  currentFreeZone : UInt16
  zoneUsedMap : Fin 63 → UInt8
  data : ℕ → UInt8

/-! ### Bitmap operations -/

def bmask (idx : ℕ) : UInt8 := 1 <<< UInt8.ofNat (idx &&& 0x07)

/-- `edalloc_bmp_get`. There is no byte behind the map. -/
def edallocBmpGet (area : Area) (idx : ℕ) : Option Bool :=
  if h : idx >>> 3 < 63 then some (area.zoneUsedMap ⟨idx >>> 3, h⟩ &&& bmask idx != 0) else none

/-- `edalloc_bmp_set`. -/
def edallocBmpSet (area : Area) (idx : ℕ) (value : Bool) : Option Area :=
  if h : idx >>> 3 < 63 then
    let old := area.zoneUsedMap ⟨idx >>> 3, h⟩
    some { area with
      zoneUsedMap := Function.update area.zoneUsedMap ⟨idx >>> 3, h⟩
        (if value then old ||| bmask idx else old &&& ~~~bmask idx) }
  else none

/-- The zone is marked as used. -/
def Area.used (area : Area) (z : ℕ) : Bool := (edallocBmpGet area z).getD false

/-- The loop `for( j = 0; j < count; j ++ ) edalloc_bmp_set( area, first + j, value )`. -/
def edallocBmpFill (value : Bool) : ℕ → ℕ → Area → Option Area
  | _, 0, area => some area
  | first, count + 1, area =>
    (edallocBmpSet area first value).bind (edallocBmpFill value (first + 1) count)

/-! ### The allocation -/

/-- The steps after which no search goes on that will ever return. -/
def searchSteps : ℕ := 4 * lineAllocatorZones + 2

/-- `edalloc_alloc`, with the number of steps that its loops may take and `edalloc_extra_space`. It
returns the offset of the zones in the data of the area. `size` is a number of zones: its caller
has compared it with the `u16` `available_zones`, so that `i + size` does not overflow. -/
def edallocAlloc (steps : ℕ) (edallocExtraSpace : UInt16) (area : Area) (size : ℕ) :
    Option (Option ℕ × Area) :=
  match (NextFit.step area.used lineAllocatorZones area.currentFreeZone.toNat size)^[steps]
      (NextFit.start area.currentFreeZone.toNat) with
  | .done none => some (none, area)
  | .done (some i) => (edallocBmpFill true i size area).map fun area =>
      let currentFreeZone := UInt16.ofNat (i + size + edallocExtraSpace.toNat)
      (some (i * lineAllocatorZoneSize), { area with
        availableZones := area.availableZones - UInt16.ofNat size
        currentFreeZone :=
          if lineAllocatorZones ≤ currentFreeZone.toNat then 0 else currentFreeZone })
  | _ => none

/-- A run of `size` free zones of the area. -/
def FreeRun (area : Area) (size z : ℕ) : Prop :=
  NextFit.IsRun area.used lineAllocatorZones size z

/-- A free zone of the area behind a used one, or the zone `0`. -/
def StretchStart (area : Area) (f : ℕ) : Prop :=
  f < lineAllocatorZones ∧ NextFit.IsStart area.used f

/-! ### What is read from the bitmap -/

variable {area area' : Area} {idx idx' first count size : ℕ} {value : Bool}

theorem toNat_bmask (idx : ℕ) : (bmask idx).toNat = 2 ^ (idx % 8) := by
  have hall : ∀ k : Fin 8, ((1 : UInt8) <<< UInt8.ofNat k).toNat = 2 ^ k.val := by decide
  have hmod : idx &&& 0x07 = idx % 8 := Nat.and_two_pow_sub_one_eq_mod idx 3
  rw [bmask, hmod]
  exact hall ⟨idx % 8, Nat.mod_lt idx (by decide)⟩

/-- The mask picks one bit. -/
theorem and_bmask_ne_zero (b : UInt8) (idx : ℕ) :
    (b &&& bmask idx != 0) = b.toNat.testBit (idx % 8) := by
  have hnat : (b &&& bmask idx).toNat = (b.toNat.testBit (idx % 8)).toNat * 2 ^ (idx % 8) := by
    rw [UInt8.toNat_and, toNat_bmask, Nat.and_two_pow]
  have hpos : 0 < 2 ^ (idx % 8) := Nat.two_pow_pos _
  cases hb : b.toNat.testBit (idx % 8)
  · rw [hb, Bool.toNat_false, Nat.zero_mul] at hnat
    rw [bne_eq_false_iff_eq]
    exact UInt8.toNat_inj.mp hnat
  · rw [hb, Bool.toNat_true, Nat.one_mul] at hnat
    rw [bne_iff_ne]
    intro h
    rw [h] at hnat
    exact hpos.ne hnat

/-- One bit of a byte that another bit was set or cleared in. -/
theorem testBit_setBit (b : UInt8) (idx k : ℕ) (hk : k < 8) (value : Bool) :
    (if value then b ||| bmask idx else b &&& ~~~bmask idx).toNat.testBit k =
      if k = idx % 8 then value else b.toNat.testBit k := by
  have hnot : (~~~bmask idx).toNat.testBit k = !decide (idx % 8 = k) := by
    have hlt : 2 ^ (idx % 8) < 2 ^ 8 :=
      Nat.pow_lt_pow_right (by decide) (Nat.mod_lt idx (by decide))
    have hval : (~~~bmask idx).toNat = 2 ^ 8 - (2 ^ (idx % 8) + 1) := by
      have hsize : UInt8.size = 2 ^ 8 := rfl
      rw [UInt8.toNat_not, toNat_bmask, hsize]
      omega
    rw [hval, Nat.testBit_two_pow_sub_succ hlt, decide_eq_true hk, Bool.true_and,
      Nat.testBit_two_pow]
  cases value
  · rw [if_neg Bool.false_ne_true, UInt8.toNat_and, Nat.testBit_and, hnot]
    split_ifs with h
    · rw [decide_eq_true h.symm, Bool.not_true, Bool.and_false]
    · rw [decide_eq_false (Ne.symm h), Bool.not_false, Bool.and_true]
  · rw [if_pos rfl, UInt8.toNat_or, Nat.testBit_or, toNat_bmask, Nat.testBit_two_pow]
    split_ifs with h
    · rw [decide_eq_true h.symm, Bool.or_true]
    · rw [decide_eq_false (Ne.symm h), Bool.or_false]

theorem used_eq_testBit (h : idx >>> 3 < 63) :
    area.used idx = (area.zoneUsedMap ⟨idx >>> 3, h⟩).toNat.testBit (idx % 8) := by
  rw [Area.used, edallocBmpGet, dif_pos h, Option.getD_some, and_bmask_ne_zero]

/-- What a write to the bitmap changes. -/
theorem edallocBmpSet_spec (area : Area) (value : Bool) (h : idx >>> 3 < 63) :
    ∃ map, edallocBmpSet area idx value = some { area with zoneUsedMap := map } ∧
      ∀ z, ({ area with zoneUsedMap := map } : Area).used z =
        if z = idx then value else area.used z := by
  refine ⟨_, dif_pos h, fun z => ?_⟩
  by_cases hz : z >>> 3 < 63
  · rw [used_eq_testBit hz, used_eq_testBit hz]
    by_cases hbyte : z >>> 3 = idx >>> 3
    · have heq : (⟨z >>> 3, hz⟩ : Fin 63) = ⟨idx >>> 3, h⟩ := Fin.ext hbyte
      have hiff : z % 8 = idx % 8 ↔ z = idx := by
        rw [Nat.shiftRight_eq_div_pow, Nat.shiftRight_eq_div_pow] at hbyte
        omega
      dsimp only
      rw [heq, Function.update_self, testBit_setBit _ _ _ (Nat.mod_lt z (by decide))]
      simp only [hiff]
    · have hne : (⟨z >>> 3, hz⟩ : Fin 63) ≠ ⟨idx >>> 3, h⟩ := fun heq => hbyte (Fin.ext_iff.mp heq)
      dsimp only
      rw [Function.update_of_ne hne, if_neg fun heq => hbyte (congrArg (· >>> 3) heq)]
  · have hne : z ≠ idx := fun heq => hz (heq ▸ h)
    rw [if_neg hne, Area.used, Area.used, edallocBmpGet, edallocBmpGet, dif_neg hz, dif_neg hz]

/-- What the loop of writes changes, within the map. -/
theorem edallocBmpFill_spec (area : Area) (value : Bool) (h : first + count ≤ 504) :
    ∃ map, edallocBmpFill value first count area = some { area with zoneUsedMap := map } ∧
      ∀ z, ({ area with zoneUsedMap := map } : Area).used z =
        if first ≤ z ∧ z < first + count then value else area.used z := by
  induction count generalizing first area with
  | zero => exact ⟨area.zoneUsedMap, rfl, fun z => (if_neg (by omega)).symm⟩
  | succ count ih =>
    have hidx : first >>> 3 < 63 := by
      rw [Nat.shiftRight_eq_div_pow]
      omega
    obtain ⟨map, hset, hused⟩ := edallocBmpSet_spec area value hidx
    have hrest : first + 1 + count ≤ 504 := by omega
    obtain ⟨map', hfill, hused'⟩ := ih { area with zoneUsedMap := map } hrest
    refine ⟨map', ?_, fun z => ?_⟩
    · rw [edallocBmpFill, hset, Option.bind_some, hfill]
    · rw [hused', hused]
      split_ifs <;> first | rfl | omega

/-! ### The search -/

/-- A search that returns says so within `searchSteps` steps. -/
theorem edallocAlloc_soon {steps : ℕ} {extra : UInt16} {r : Option ℕ × Area} (hsize : 0 < size)
    (h : edallocAlloc steps extra area size = some r) :
    edallocAlloc searchSteps extra area size = some r := by
  unfold edallocAlloc at h ⊢
  cases hc : (NextFit.step area.used lineAllocatorZones area.currentFreeZone.toNat size)^[steps]
      (NextFit.start area.currentFreeZone.toNat) with
  | head i ov => simp only [hc, reduceCtorEq] at h
  | probe i ov => simp only [hc, reduceCtorEq] at h
  | done p =>
    have hends : NextFit.Ends area.used lineAllocatorZones area.currentFreeZone.toNat size p :=
      ⟨steps, hc⟩
    have hsoon := hends.soon (by decide) hsize
    rw [hc] at h
    rw [searchSteps, hsoon]
    exact h

/-- What a search that returns has found. -/
theorem edallocAlloc_cases {steps : ℕ} {extra : UInt16} {p : Option ℕ} (hsize : 0 < size)
    (h : edallocAlloc steps extra area size = some (p, area')) :
    (p = none ∧ area' = area ∧ ¬ ∃ z, FreeRun area size z) ∨
    ∃ z, FreeRun area size z ∧ p = some (z * lineAllocatorZoneSize) ∧
      area'.availableZones = area.availableZones - UInt16.ofNat size ∧ area'.data = area.data ∧
      ∀ k, area'.used k = if z ≤ k ∧ k < z + size then true else area.used k := by
  unfold edallocAlloc at h
  cases hc : (NextFit.step area.used lineAllocatorZones area.currentFreeZone.toNat size)^[steps]
      (NextFit.start area.currentFreeZone.toNat) with
  | head i ov => simp only [hc, reduceCtorEq] at h
  | probe i ov => simp only [hc, reduceCtorEq] at h
  | done r =>
    have hright := NextFit.Ends.right hsize ⟨steps, hc⟩
    rw [hc] at h
    cases r with
    | none =>
      obtain ⟨rfl, rfl⟩ := Prod.mk.inj (Option.some.inj h)
      exact .inl ⟨rfl, rfl, fun ⟨z, hz⟩ => hright z hz⟩
    | some z =>
      have hin : z + size ≤ lineAllocatorZones := hright.1
      obtain ⟨map, hfill, hused⟩ := edallocBmpFill_spec area true (hin.trans (by decide))
      simp only [hfill, Option.map_some, Option.some.injEq, Prod.mk.injEq] at h
      obtain ⟨rfl, rfl⟩ := h
      exact .inr ⟨z, hright, rfl, rfl, rfl, hused⟩

/-- A search that returns is one that ends. -/
theorem ends_of_edallocAlloc {steps : ℕ} {extra : UInt16} {p : Option ℕ}
    (h : edallocAlloc steps extra area size = some (p, area')) :
    ∃ r, NextFit.Ends area.used lineAllocatorZones area.currentFreeZone.toNat size r ∧
      (r = none → p = none) := by
  unfold edallocAlloc at h
  cases hc : (NextFit.step area.used lineAllocatorZones area.currentFreeZone.toNat size)^[steps]
      (NextFit.start area.currentFreeZone.toNat) with
  | head i ov => simp only [hc, reduceCtorEq] at h
  | probe i ov => simp only [hc, reduceCtorEq] at h
  | done r =>
    refine ⟨r, ⟨steps, hc⟩, ?_⟩
    rintro rfl
    rw [hc] at h
    exact (Prod.mk.inj (Option.some.inj h)).1.symm

/-- A search that ends is one that returns. -/
theorem exists_edallocAlloc_of_ends (extra : UInt16) {r : Option ℕ} (hsize : 0 < size)
    (h : NextFit.Ends area.used lineAllocatorZones area.currentFreeZone.toNat size r) :
    ∃ steps area', edallocAlloc steps extra area size =
      some (r.map (· * lineAllocatorZoneSize), area') := by
  have hright := h.right hsize
  obtain ⟨steps, hc⟩ := h
  refine ⟨steps, ?_⟩
  unfold edallocAlloc
  rw [hc]
  cases r with
  | none => exact ⟨area, rfl⟩
  | some z =>
    have hin : z + size ≤ lineAllocatorZones := hright.1
    obtain ⟨map, hfill, -⟩ := edallocBmpFill_spec area true (hin.trans (by decide))
    exact ⟨_, congrArg (Option.map _) hfill⟩

/-- **Exactly when `edalloc_alloc` returns, and `NULL` only when no run is free.** At least one zone
is requested, and there is a run, or a free stretch begins at or behind `current_free_zone` and
every stretch that begins before it has `size` zones from its begin up to the last zone. -/
theorem edallocAlloc_right_iff (extra : UInt16) (area : Area) (size : ℕ) :
    (∃ steps p area', edallocAlloc steps extra area size = some (p, area') ∧
        (p = none → ¬ ∃ z, FreeRun area size z)) ↔
      0 < size ∧ ((∃ z, FreeRun area size z) ∨
        ((∃ f, area.currentFreeZone.toNat ≤ f ∧ StretchStart area f) ∧
          ∀ f < area.currentFreeZone.toNat, StretchStart area f →
            f + size ≤ lineAllocatorZones)) := by
  have hiff : (∃ r, NextFit.Ends area.used lineAllocatorZones area.currentFreeZone.toNat size r ∧
      (r = none → ¬ ∃ z, FreeRun area size z)) ↔ _ := NextFit.ends_right_iff (by decide)
  constructor
  · rintro ⟨steps, p, area', h, hnone⟩
    obtain ⟨r, hends, hr⟩ := ends_of_edallocAlloc h
    obtain ⟨hsize, hrun | ⟨⟨f, hf, hcur, hstart⟩, hroom⟩⟩ :=
      hiff.mp ⟨r, hends, fun heq => hnone (hr heq)⟩
    · exact ⟨hsize, .inl hrun⟩
    · exact ⟨hsize, .inr ⟨⟨f, hcur, hf, hstart⟩, fun g hg hg' => hroom g hg'.1 hg hg'.2⟩⟩
  · rintro ⟨hsize, hcond⟩
    have hends : ∃ r, NextFit.Ends area.used lineAllocatorZones area.currentFreeZone.toNat size r ∧
        (r = none → ¬ ∃ z, FreeRun area size z) := by
      refine hiff.mpr ⟨hsize, hcond.imp_right ?_⟩
      rintro ⟨⟨f, hcur, hf, hstart⟩, hroom⟩
      exact ⟨⟨f, hf, hcur, hstart⟩, fun g hg hcur hg' => hroom g hcur ⟨hg, hg'⟩⟩
    obtain ⟨r, hr, hnone⟩ := hends
    obtain ⟨steps, area', h⟩ := exists_edallocAlloc_of_ends extra hsize hr
    exact ⟨steps, _, area', h, fun heq => hnone (Option.map_eq_none_iff.mp heq)⟩

/-- The zones `0` to `4` and `10` to `14` are free, and the last line ended before zone `400`. -/
def fragmented : Area where
  availableZones := 10
  currentFreeZone := 400
  zoneUsedMap i := if i = 0 then 0xE0 else if i = 1 then 0x83 else 0xFF
  data _ := 0

/-- Ten zones are free, but no ten in a row: the search goes round for ever. -/
theorem not_edallocAlloc_right :
    ¬ ∀ (extra : UInt16) (area : Area) (size : ℕ), ∃ steps p area',
      edallocAlloc steps extra area size = some (p, area') ∧
        (p = none → ¬ ∃ z, FreeRun area size z) := by
  intro h
  obtain ⟨steps, p, area', hret, -⟩ := h 0 fragmented 10
  obtain ⟨r, hends, -⟩ := ends_of_edallocAlloc hret
  have hfree : ∀ z < 500, fragmented.used z = false → z < 5 ∨ 10 ≤ z ∧ z < 15 := by decide +kernel
  obtain ⟨z, hin, hrun⟩ | ⟨⟨f, hf, hcur, hstart⟩, -⟩ := hends.condition (by decide) (by decide)
  · have hin' : z + 10 ≤ 500 := hin
    have h0 := hfree z (by omega) (hrun 0 (by decide))
    have h9 := hfree (z + 9) (by omega) (hrun 9 (by decide))
    have h5 := hfree (z + 5) (by omega) (hrun 5 (by decide))
    omega
  · have hcur' : 400 ≤ f := hcur
    have := hfree f hf hstart.1
    omega

end ELuaBrain.Zones
