import ELuaBrain.Editor.Zones
import ELuaBrain.System.Reach

/-!
# Lines in the zones of the editor

The chain of areas of `edalloc_zones.c` and the lines in it. A line does not know how many zones it
has: `edalloc_free` and `edalloc_realloc` work that out from the length of its text. The lines that
the program holds, with the zones that they were given, are recorded beside the areas.

## Main definitions

* `edallocLineMalloc`, `edallocLineFree`, `edallocLineRealloc` : the interface of the allocator.
* `State`, `Event`, `step` : the areas and the lines, and the calls of the program.
* `Sound` : the used zones are those of the lines, which do not overlap.
* `Faithful` : the calls that keep it so.
* `LinesRight` : what is wanted of a state.

## Main results

* `step_sound` : what a faithful call keeps.
* `lines_right` : in runs of faithful calls the lines are disjoint and in their areas, the number
  of available zones is that of the free ones, and without lines every zone is free.
-/

namespace ELuaBrain.Zones

/-! ### Text and sizes -/

/-- A pointer into the data of an area, and its offset there. -/
structure Ptr where
  area : ℕ
  offset : ℕ
  deriving DecidableEq, Repr

/-- The bytes of the data of an area. -/
def dataSize : ℕ := lineAllocatorZoneSize * lineAllocatorZones

/-- `strlen`, in the `count` bytes from `offset` on. -/
def strlenIn (data : ℕ → UInt8) : ℕ → ℕ → Option ℕ
  | _, 0 => none
  | offset, count + 1 =>
    if data offset = 0 then some 0 else (strlenIn data (offset + 1) count).map (· + 1)

/-- `strlen` of a text in the data of an area. -/
def strlen (area : Area) (offset : ℕ) : Option ℕ :=
  strlenIn area.data offset (dataSize - offset)

/-- `edalloc_round_size`. -/
def edallocRoundSize (size : UInt32) : UInt32 := (size + 24 - 1) / 24

/-- `edalloc_round_size( strlen( ptr ) + 1 )`. -/
def textZones (area : Area) (offset : ℕ) : Option ℕ :=
  (strlen area offset).map fun len => (edallocRoundSize (UInt32.ofNat (len + 1))).toNat

/-! ### One area -/

/-- `edalloc_alloc_area`, with the contents of the memory that it gets. -/
def edallocAllocArea (data : ℕ → UInt8) : Area where
  availableZones := UInt16.ofNat lineAllocatorZones
  currentFreeZone := 0
  zoneUsedMap _ := 0
  data := data

/-- `edalloc_free`. -/
def edallocFree (area : Area) (offset : ℕ) : Option Area :=
  (textZones area offset).bind fun size =>
    (edallocBmpFill false (offset / lineAllocatorZoneSize) size area).map fun area =>
      { area with availableZones := area.availableZones + UInt16.ofNat size }

/-- The loop that looks for `count` free zones from `first` on. -/
def edallocBmpFree (area : Area) : ℕ → ℕ → Option Bool
  | _, 0 => some true
  | first, count + 1 => (edallocBmpGet area first).bind fun used =>
    if used then some false else edallocBmpFree area (first + 1) count

/-- `edalloc_realloc`. The flag tells whether it returns `p`, or else `NULL`. -/
def edallocRealloc (area : Area) (offset : ℕ) (newsize : UInt32) : Option (Bool × Area) :=
  (textZones area offset).bind fun size =>
    let newsize := (edallocRoundSize newsize).toNat
    let i := offset / lineAllocatorZoneSize
    if newsize = size then some (true, area)
    else if newsize < size then
      -- the bound `i + newsize - 1` of the loop is unsigned: it wraps for `0`, and nothing is freed
      (if i + newsize = 0 then some area
        else edallocBmpFill false (i + newsize) (size - newsize) area).map fun area =>
          (true, { area with
            availableZones := area.availableZones + UInt16.ofNat (size - newsize) })
    else (edallocBmpFree area (i + size) (newsize - size)).bind fun free =>
      if free then
        (edallocBmpFill true (i + size) (newsize - size) area).map fun area =>
          (true, { area with
            availableZones := area.availableZones - UInt16.ofNat (newsize - size) })
      else some (false, area)

/-! ### The chain of areas -/

section Chain

variable (edallocExtraSpace : UInt16)

/-- One round of the loop in `edalloc_line_malloc`, at the area `k`. `next` is what the rounds at
the areas behind it return, with these areas. -/
def tryArea (size k : ℕ) (area : Area) (rest : List Area) (next : Option (Option Ptr × List Area)) :
    Option (Option Ptr × List Area) :=
  if size ≤ area.availableZones.toNat then
    (edallocAlloc searchSteps edallocExtraSpace area size).bind fun r =>
      match r.1 with
      | some offset => some (some ⟨k, offset⟩, r.2 :: rest)
      | none => next.map fun q => (q.1, area :: q.2)
  else next.map fun q => (q.1, area :: q.2)

/-- The loop in areas that are new. `grants` are the blocks of memory that the system gives. -/
def mallocNew (size : ℕ) : ℕ → List (ℕ → UInt8) → Option (Option Ptr × List Area)
  | _, [] => some (none, [])
  | k, data :: grants =>
    tryArea edallocExtraSpace size k (edallocAllocArea data) [] (mallocNew size (k + 1) grants)

/-- The loop in the areas of the chain, and then in areas that are new. -/
def mallocIn (grants : List (ℕ → UInt8)) (size : ℕ) :
    ℕ → List Area → Option (Option Ptr × List Area)
  | k, [] => mallocNew edallocExtraSpace size k grants
  | k, area :: rest =>
    tryArea edallocExtraSpace size k area rest (mallocIn grants size (k + 1) rest)

/-- `edalloc_line_malloc`. -/
def edallocLineMalloc (grants : List (ℕ → UInt8)) (areas : List Area) (size : UInt32) :
    Option (Option Ptr × List Area) :=
  if edallocRoundSize size = 0 then some (none, areas)
  else mallocIn edallocExtraSpace grants (edallocRoundSize size).toNat 0 areas

/-- `edalloc_line_free`. The walk along the chain ends at the area of the pointer. -/
def edallocLineFree (areas : List Area) (ptr : Ptr) : Option (List Area) :=
  match areas[ptr.area]? with
  | none => some areas
  | some area => (edallocFree area ptr.offset).map fun area => areas.set ptr.area area

/-- Bytes that are written to the data of an area. -/
def Area.write (area : Area) (offset count : ℕ) (bytes : ℕ → UInt8) : Area :=
  { area with
    data := fun k => if offset ≤ k ∧ k < offset + count then bytes (k - offset) else area.data k }

/-- `strcpy`. -/
def strcpy (areas : List Area) (dst src : Ptr) : Option (List Area) :=
  (areas[src.area]?).bind fun srcArea => (strlen srcArea src.offset).bind fun len =>
    (areas[dst.area]?).bind fun dstArea =>
      if dst.offset + (len + 1) ≤ dataSize then
        some (areas.set dst.area
          (dstArea.write dst.offset (len + 1) fun k => srcArea.data (src.offset + k)))
      else none

/-- `edalloc_line_realloc`. -/
def edallocLineRealloc (grants : List (ℕ → UInt8)) (areas : List Area) (ptr : Option Ptr)
    (size : UInt32) : Option (Option Ptr × List Area) :=
  match ptr with
  | none => edallocLineMalloc edallocExtraSpace grants areas size
  | some ptr =>
    if size = 0 then (edallocLineFree areas ptr).map fun areas => (some ptr, areas)
    else match areas[ptr.area]? with
      | none => some (none, areas)
      | some area => (edallocRealloc area ptr.offset size).bind fun r =>
        if r.1 then some (some ptr, areas.set ptr.area r.2)
        else (edallocLineMalloc edallocExtraSpace grants areas size).bind fun m =>
          match m.1 with
          | none => some (none, m.2)
          | some p => (strcpy m.2 p ptr).bind fun areas =>
            (edallocLineFree areas ptr).map fun areas => (some p, areas)

end Chain

/-! ### The program -/

/-- The areas, the extra space, and the lines that the program holds. -/
structure State where
  areas : List Area
  edallocExtraSpace : UInt16
  lines : List (Extent ℕ)

/-- After `edalloc_init`. -/
def boot (data : ℕ → UInt8) : State where
  areas := [edallocAllocArea data]
  edallocExtraSpace := 0
  lines := []

/-- The pointer that the program has for a line. -/
def linePtr (l : Extent ℕ) : Ptr := ⟨l.key, l.first * lineAllocatorZoneSize⟩

/-- The line at a pointer that was returned for a request. -/
def lineAt (p : Ptr) (size : UInt32) : Extent ℕ :=
  ⟨p.area, p.offset / lineAllocatorZoneSize, (edallocRoundSize size).toNat⟩

/-- The calls of the program, and a new text in a line. -/
inductive Event where
  | malloc (size : UInt32) (grants : List (ℕ → UInt8))
  | realloc (line : Option (Extent ℕ)) (size : UInt32) (grants : List (ℕ → UInt8))
  | free (line : Extent ℕ)
  | edit (line : Extent ℕ) (text : List UInt8)
  | setExtraSpace (size : UInt32)

/-- What a call does. The program uses the lines that it holds only, and its texts have room. -/
def step (s : State) : Event → Option State
  | .malloc size grants | .realloc none size grants =>
    (edallocLineMalloc s.edallocExtraSpace grants s.areas size).map fun r =>
      { s with areas := r.2, lines := (r.1.map (lineAt · size)).toList ++ s.lines }
  | .realloc (some l) size grants =>
    if l ∈ s.lines then
      (edallocLineRealloc s.edallocExtraSpace grants s.areas (some (linePtr l)) size).map fun r =>
        { s with
          areas := r.2
          lines :=
            if size = 0 then s.lines.erase l
            else r.1.elim s.lines fun p => lineAt p size :: s.lines.erase l }
    else none
  | .free l =>
    if l ∈ s.lines then
      (edallocLineFree s.areas (linePtr l)).map fun areas =>
        { s with areas := areas, lines := s.lines.erase l }
    else none
  | .edit l text =>
    if l ∈ s.lines ∧ 0 ∉ text ∧ text.length < l.count * lineAllocatorZoneSize then
      (s.areas[l.key]?).map fun area =>
        { s with
          areas := s.areas.set l.key
            (area.write (linePtr l).offset (text.length + 1) fun k => text.getD k 0) }
    else none
  | .setExtraSpace size => some { s with edallocExtraSpace := (edallocRoundSize size).toUInt16 }

/-- The used zones of all areas. -/
def usedMap (areas : List Area) : ℕ → ℕ → Bool := fun k z => (areas[k]?).elim false (·.used z)

/-- The text of a line fills the zones that the line was given. -/
def FillsZones (areas : List Area) (l : Extent ℕ) : Prop :=
  (areas[l.key]?).bind (textZones · (linePtr l).offset) = some l.count

/-- The growth of a line to `count` zones does not go over the last zone of its area. -/
def GrowthInside (areas : List Area) (l : Extent ℕ) (count : ℕ) : Prop :=
  count ≤ l.count ∨ l.first + count ≤ lineAllocatorZones ∨
    ∃ z < lineAllocatorZones, l.first + l.count ≤ z ∧ usedMap areas l.key z = true

/-- The calls that find the zones of a line again. -/
def Faithful (s : State) : Event → Prop
  | .free l => FillsZones s.areas l
  | .realloc (some l) size _ => FillsZones s.areas l ∧
      (size = 0 ∨ edallocRoundSize size ≠ 0 ∧
        GrowthInside s.areas l (edallocRoundSize size).toNat)
  | _ => True

/-! ### Sizes of texts -/

variable {areas areas' : List Area} {area area' : Area} {lines : List (Extent ℕ)} {l : Extent ℕ}
  {k first count size c : ℕ} {value : Bool}

theorem strlenIn_lt {data : ℕ → UInt8} {offset len : ℕ}
    (h : strlenIn data offset count = some len) : len < count := by
  induction count generalizing offset len with
  | zero => exact absurd h nofun
  | succ count ih =>
    rw [strlenIn] at h
    split_ifs at h with h0
    · obtain rfl := Option.some.inj h
      exact Nat.succ_pos count
    · obtain ⟨len', hlen', rfl⟩ := Option.map_eq_some_iff.mp h
      exact Nat.succ_lt_succ (ih hlen')

/-- The length of a text depends on its bytes only. -/
theorem strlenIn_congr {data data' : ℕ → UInt8} {offset len : ℕ}
    (h : strlenIn data offset count = some len)
    (heq : ∀ j, offset ≤ j → j ≤ offset + len → data' j = data j) :
    strlenIn data' offset count = some len := by
  induction count generalizing offset len with
  | zero => exact absurd h nofun
  | succ count ih =>
    rw [strlenIn] at h ⊢
    rw [heq offset le_rfl (Nat.le_add_right offset len)]
    split_ifs at h ⊢ with h0
    · exact h
    · obtain ⟨len', hlen', rfl⟩ := Option.map_eq_some_iff.mp h
      have hrest : strlenIn data' (offset + 1) count = some len' :=
        ih hlen' fun j hj hj' => heq j (by omega) (by omega)
      rw [hrest]
      rfl

theorem toNat_edallocRoundSize (h : size ≤ dataSize) :
    (edallocRoundSize (UInt32.ofNat size)).toNat = (size + 23) / 24 := by
  have hle : size ≤ 12000 := h
  have hsize : (UInt32.ofNat size).toNat = size :=
    UInt32.toNat_ofNat_of_lt' (hle.trans_lt (by decide))
  have hsum : (UInt32.ofNat size + 24 - 1).toNat = size + 23 := by
    rw [UInt32.toNat_sub, UInt32.toNat_add, hsize]
    change (4294967296 - 1 + (size + 24) % 4294967296) % 4294967296 = size + 23
    omega
  rw [edallocRoundSize, UInt32.toNat_div, hsum]
  rfl

/-- A text ends within the zones that are worked out from it. -/
theorem textZones_cases {offset : ℕ} (h : textZones area offset = some count) :
    ∃ len, strlen area offset = some len ∧ len + 1 ≤ count * lineAllocatorZoneSize := by
  obtain ⟨len, hlen, rfl⟩ := Option.map_eq_some_iff.mp h
  have hlt : len < dataSize - offset := strlenIn_lt hlen
  refine ⟨len, hlen, ?_⟩
  rw [toNat_edallocRoundSize (by omega)]
  change len + 1 ≤ (len + 1 + 23) / 24 * 24
  omega

/-! ### Marks -/

/-- Zones in a row are marked. -/
def Marks (value : Bool) (first count : ℕ) (area area' : Area) : Prop :=
  ∀ z, area'.used z = if first ≤ z ∧ z < first + count then value else area.used z

theorem Marks.refl (h : ∀ z, area'.used z = area.used z) : Marks value 0 0 area area' :=
  fun z => (h z).trans (if_neg (by omega)).symm

theorem usedMap_of_getElem? (h : areas[k]? = some area) : usedMap areas k = area.used := by
  funext z
  rw [usedMap, h, Option.elim_some]

/-- The maps after zones of an area were marked. -/
theorem usedMap_set (ha : areas[k]? = some area) (hm : Marks value first count area area') :
    usedMap (areas.set k area') = mark (usedMap areas) ⟨k, first, count⟩ value := by
  obtain ⟨hlt, -⟩ := List.getElem?_eq_some_iff.mp ha
  funext j z
  obtain rfl | hne := eq_or_ne j k
  · have hset : (areas.set j area')[j]? = some area' := by
      rw [List.getElem?_set_self hlt]
    rw [usedMap_of_getElem? hset, hm, mark, usedMap_of_getElem? ha]
    exact if_congr (and_iff_right rfl).symm rfl rfl
  · rw [mark_of_ne hne, usedMap, usedMap, List.getElem?_set_ne (Ne.symm hne)]

theorem used_eq_mark (hm : Marks value first count area area') :
    area'.used = mark (fun _ => area.used) ⟨(), first, count⟩ value () := by
  funext z
  rw [hm, mark]
  exact if_congr (and_iff_right rfl).symm rfl rfl

/-! ### The count of available zones -/

/-- The field `available_zones` counts the free zones. -/
def Counts (area : Area) : Prop :=
  area.availableZones.toNat = freeCount lineAllocatorZones area.used

theorem Counts.take (h : Counts area) (hm : Marks true first count area area')
    (hin : first + count ≤ lineAllocatorZones)
    (hfree : ∀ z, first ≤ z → z < first + count → area.used z = false)
    (hav : area'.availableZones = area.availableZones - UInt16.ofNat count) : Counts area' := by
  have hadd : freeCount lineAllocatorZones area'.used + count =
      freeCount lineAllocatorZones area.used := by
    rw [used_eq_mark hm]
    exact freeCount_mark_true hin fun z hz => hfree z hz.2.1 hz.2.2
  have hle : freeCount lineAllocatorZones area.used ≤ 500 := freeCount_le _ _
  rw [Counts] at h ⊢
  have hcount : (UInt16.ofNat count).toNat = count := UInt16.toNat_ofNat_of_lt' (by
    rw [UInt16.size]
    omega)
  have hle' : UInt16.ofNat count ≤ area.availableZones := by
    rw [UInt16.le_iff_toNat_le]
    omega
  rw [hav, UInt16.toNat_sub_of_le _ _ hle', hcount]
  omega

theorem Counts.giveBack (h : Counts area) (hm : Marks false first count area area')
    (hin : first + count ≤ lineAllocatorZones)
    (hused : ∀ z, first ≤ z → z < first + count → area.used z = true)
    (hav : area'.availableZones = area.availableZones + UInt16.ofNat count) : Counts area' := by
  have hadd : freeCount lineAllocatorZones area'.used =
      freeCount lineAllocatorZones area.used + count := by
    rw [used_eq_mark hm]
    exact freeCount_mark_false hin fun z hz => hused z hz.2.1 hz.2.2
  have hle : freeCount lineAllocatorZones area'.used ≤ 500 := freeCount_le _ _
  rw [Counts] at h ⊢
  have hcount : (UInt16.ofNat count).toNat = count := UInt16.toNat_ofNat_of_lt' (by
    rw [UInt16.size]
    omega)
  rw [hav, UInt16.toNat_add, hcount, Nat.mod_eq_of_lt (by omega)]
  omega

/-! ### The invariant -/

/-- The used zones of the areas are those of the lines, which do not overlap, and the areas count
their free zones. -/
structure Sound (areas : List Area) (lines : List (Extent ℕ)) : Prop where
  owned : Owned lineAllocatorZones (usedMap areas) lines
  inChain : ∀ l ∈ lines, l.key < areas.length
  counts : ∀ area ∈ areas, Counts area

theorem Sound.perm {lines' : List (Extent ℕ)} (h : Sound areas lines) (hperm : lines.Perm lines') :
    Sound areas lines' :=
  ⟨h.owned.perm hperm, fun l hl => h.inChain l (hperm.mem_iff.mpr hl), h.counts⟩

/-- One area is replaced by another one that counts its free zones. -/
theorem Sound.replace {lines' : List (Extent ℕ)} (h : Sound areas lines)
    (howned : Owned lineAllocatorZones (usedMap (areas.set k area')) lines')
    (hkeys : ∀ l ∈ lines', l.key = k ∨ l ∈ lines) (hk : k < areas.length) (hc : Counts area') :
    Sound (areas.set k area') lines' := by
  refine ⟨howned, fun l hl => ?_, fun a ha => ?_⟩
  · rw [List.length_set]
    obtain rfl | hl := hkeys l hl
    · exact hk
    · exact h.inChain l hl
  · obtain ha | rfl := List.mem_or_eq_of_mem_set ha
    · exact h.counts a ha
    · exact hc

theorem FreeRun.eq_false (h : FreeRun area size first) :
    ∀ z, first ≤ z → z < first + size → area.used z = false := by
  intro z hz hlt
  have hfree := h.2 (z - first) (by omega)
  rwa [Nat.add_sub_cancel' hz] at hfree

/-- **A run of free zones is given to a new line.** -/
theorem Sound.take (h : Sound areas lines) (ha : areas[k]? = some area)
    (hm : Marks true first count area area') (hpos : 0 < count)
    (hin : first + count ≤ lineAllocatorZones)
    (hfree : ∀ z, first ≤ z → z < first + count → area.used z = false)
    (hav : area'.availableZones = area.availableZones - UInt16.ofNat count) :
    Sound (areas.set k area') (⟨k, first, count⟩ :: lines) := by
  obtain ⟨hk, -⟩ := List.getElem?_eq_some_iff.mp ha
  have hcounts : Counts area' :=
    (h.counts area (List.mem_of_getElem? ha)).take hm hin hfree hav
  refine h.replace ?_ (fun l hl => ?_) hk hcounts
  · rw [usedMap_set ha hm]
    refine h.owned.cons hpos hin fun z hz => ?_
    rw [usedMap_of_getElem? ha]
    exact hfree z hz.2.1 hz.2.2
  · obtain rfl | hl := List.mem_cons.mp hl
    · exact .inl rfl
    · exact .inr hl

theorem Sound.used_of_le (h : Sound areas lines) (hl : l ∈ lines) (ha : areas[l.key]? = some area)
    {z : ℕ} (hz : l.first ≤ z) (hlt : z < l.first + l.count) : area.used z = true := by
  rw [← usedMap_of_getElem? ha]
  exact h.owned.used_of_covers hl ⟨rfl, hz, hlt⟩

/-- **The zones of a line are given back.** -/
theorem Sound.giveBack (h : Sound areas (l :: lines)) (ha : areas[l.key]? = some area)
    (hm : Marks false l.first l.count area area')
    (hav : area'.availableZones = area.availableZones + UInt16.ofNat l.count) :
    Sound (areas.set l.key area') lines := by
  have hmem : l ∈ l :: lines := List.mem_cons_self
  have hcounts : Counts area' := (h.counts area (List.mem_of_getElem? ha)).giveBack hm
    (h.owned.inside l hmem).2 (fun z hz hlt => h.used_of_le hmem ha hz hlt) hav
  refine h.replace ?_ (fun d hd => .inr (List.mem_cons_of_mem l hd)) (h.inChain l hmem) hcounts
  rw [usedMap_set ha hm]
  exact h.owned.tail

/-- The line at the head gets another number of zones. -/
theorem Sound.resize (h : Sound areas (l :: lines)) (ha : areas[l.key]? = some area)
    (hm : Marks value first count area area') (hpos : 0 < c)
    (hin : l.first + c ≤ lineAllocatorZones)
    (hfree : ∀ z, l.first + l.count ≤ z → z < l.first + c → area.used z = false)
    (hmark : ∀ z, (if first ≤ z ∧ z < first + count then value else area.used z) =
      if l.first ≤ z ∧ z < l.first + c then true
        else if l.first ≤ z ∧ z < l.first + l.count then false else area.used z)
    (hc : Counts area') : Sound (areas.set l.key area') ({ l with count := c } :: lines) := by
  refine h.replace ?_ (fun d hd => ?_) (h.inChain l List.mem_cons_self) hc
  · refine (h.owned.resize hpos hin fun z hz hlt => ?_).congr fun k z _ => ?_
    · rw [usedMap_of_getElem? ha]
      exact hfree z hz hlt
    · rw [usedMap_set ha hm]
      obtain rfl | hne := eq_or_ne l.key k
      · rw [mark, mark, mark, usedMap_of_getElem? ha]
        have hcovers : ∀ a b : ℕ, (⟨l.key, a, b⟩ : Extent ℕ).Covers l.key z ↔ a ≤ z ∧ z < a + b :=
          fun a b => and_iff_right rfl
        simp only [hcovers]
        exact hmark z
      · have hnew : mark (usedMap areas) ⟨l.key, first, count⟩ value k = usedMap areas k :=
          mark_of_ne (e := ⟨l.key, first, count⟩) hne.symm value
        have hback : mark (usedMap areas) l false k = usedMap areas k := mark_of_ne hne.symm false
        have hagain : mark (mark (usedMap areas) l false) { l with count := c } true k =
            mark (usedMap areas) l false k := mark_of_ne (e := { l with count := c }) hne.symm true
        rw [hnew, hagain, hback]
  · obtain rfl | hd := List.mem_cons.mp hd
    · exact .inl rfl
    · exact .inr (List.mem_cons_of_mem l hd)

/-- **A line gives back its last zones.** -/
theorem Sound.shrink (h : Sound areas (l :: lines)) (ha : areas[l.key]? = some area) (hpos : 0 < c)
    (hlt : c < l.count) (hm : Marks false (l.first + c) (l.count - c) area area')
    (hav : area'.availableZones = area.availableZones + UInt16.ofNat (l.count - c)) :
    Sound (areas.set l.key area') ({ l with count := c } :: lines) := by
  have hin := (h.owned.inside l List.mem_cons_self).2
  have hused : ∀ z, l.first ≤ z → z < l.first + l.count → area.used z = true :=
    fun z hz hlt => h.used_of_le List.mem_cons_self ha hz hlt
  refine h.resize ha hm hpos (by omega) (fun z hz hz' => absurd hz' (by omega)) (fun z => ?_) ?_
  · by_cases hz : l.first ≤ z ∧ z < l.first + c
    · rw [if_pos hz, if_neg (by omega), hused z hz.1 (by omega)]
    · rw [if_neg hz]
      exact if_congr (by omega) rfl rfl
  · exact (h.counts area (List.mem_of_getElem? ha)).giveBack hm (by omega)
      (fun z hz hz' => hused z (by omega) (by omega)) hav

/-- **A line gets the free zones behind it.** -/
theorem Sound.grow (h : Sound areas (l :: lines)) (ha : areas[l.key]? = some area)
    (hlt : l.count < c) (hin : l.first + c ≤ lineAllocatorZones)
    (hm : Marks true (l.first + l.count) (c - l.count) area area')
    (hfree : ∀ z, l.first + l.count ≤ z → z < l.first + c → area.used z = false)
    (hav : area'.availableZones = area.availableZones - UInt16.ofNat (c - l.count)) :
    Sound (areas.set l.key area') ({ l with count := c } :: lines) := by
  have hused : ∀ z, l.first ≤ z → z < l.first + l.count → area.used z = true :=
    fun z hz hlt => h.used_of_le List.mem_cons_self ha hz hlt
  refine h.resize ha hm (by omega) hin hfree (fun z => ?_) ?_
  · by_cases hold : l.first ≤ z ∧ z < l.first + l.count
    · rw [if_neg (by omega), if_pos (by omega), hused z hold.1 hold.2]
    · rw [if_neg hold]
      exact if_congr (by omega) rfl rfl
  · exact (h.counts area (List.mem_of_getElem? ha)).take hm (by omega)
      (fun z hz hz' => hfree z hz (by omega)) hav

/-- Only the data of an area changes. -/
theorem Sound.write (h : Sound areas lines) (ha : areas[k]? = some area) (offset count : ℕ)
    (bytes : ℕ → UInt8) : Sound (areas.set k (area.write offset count bytes)) lines := by
  obtain ⟨hk, -⟩ := List.getElem?_eq_some_iff.mp ha
  have hm : Marks false 0 0 area (area.write offset count bytes) := .refl fun z => rfl
  refine h.replace (h.owned.congr fun j z _ => ?_) (fun l hl => .inr hl) hk
    (h.counts area (List.mem_of_getElem? ha))
  rw [usedMap_set ha hm, mark]
  exact if_neg fun hc => absurd hc.2.2 (Nat.not_lt_zero z)

theorem edallocAllocArea_used (data : ℕ → UInt8) (z : ℕ) :
    (edallocAllocArea data).used z = false := by
  rw [Area.used, edallocBmpGet]
  split_ifs with h
  · rw [Option.getD_some, and_bmask_ne_zero]
    exact Nat.zero_testBit _
  · rfl

theorem edallocAllocArea_counts (data : ℕ → UInt8) : Counts (edallocAllocArea data) :=
  (freeCount_eq_of_forall fun z _ => edallocAllocArea_used data z).symm

/-- Areas that are new. -/
theorem Sound.append (h : Sound areas lines) (datas : List (ℕ → UInt8)) :
    Sound (areas ++ datas.map edallocAllocArea) lines := by
  refine ⟨h.owned.congr fun k z _ => ?_, fun l hl => ?_, fun area ha => ?_⟩
  · obtain hlt | hle := Nat.lt_or_ge k areas.length
    · rw [usedMap, usedMap, List.getElem?_append_left hlt]
    · rw [usedMap, usedMap, List.getElem?_append_right hle, List.getElem?_map,
        List.getElem?_eq_none hle]
      cases datas[k - areas.length]? with
      | none => rfl
      | some data => exact edallocAllocArea_used data z
  · rw [List.length_append]
    exact Nat.lt_add_right _ (h.inChain l hl)
  · obtain ha | ha := List.mem_append.mp ha
    · exact h.counts area ha
    · obtain ⟨data, -, rfl⟩ := List.mem_map.mp ha
      exact edallocAllocArea_counts data

/-! ### `edalloc_line_malloc` -/

/-- What an area becomes that a run of its zones was taken from. -/
structure Taken (size first : ℕ) (area area' : Area) : Prop where
  run : FreeRun area size first
  marks : Marks true first size area area'
  available : area'.availableZones = area.availableZones - UInt16.ofNat size
  data : area'.data = area.data

/-- What the loop over the areas from the one with number `k` on returns. -/
def Served (size k : ℕ) (base : List Area) (p : Option Ptr) (areas' : List Area) : Prop :=
  (p = none ∧ areas' = base) ∨ ∃ j area area' first, base[j]? = some area ∧
    Taken size first area area' ∧ p = some ⟨k + j, first * lineAllocatorZoneSize⟩ ∧
    areas' = base.set j area'

theorem Served.cons {base : List Area} {p : Option Ptr} (h : Served size (k + 1) base p areas') :
    Served size k (area :: base) p (area :: areas') := by
  obtain ⟨rfl, rfl⟩ | ⟨j, a, a', first, ha, ht, rfl, rfl⟩ := h
  · exact .inl ⟨rfl, rfl⟩
  · refine .inr ⟨j + 1, a, a', first, ha, ht, ?_, rfl⟩
    rw [Nat.add_right_comm, Nat.add_assoc]

theorem Taken.served {rest : List Area} (h : Taken size first area area') :
    Served size k (area :: rest) (some ⟨k, first * lineAllocatorZoneSize⟩) (area' :: rest) :=
  .inr ⟨0, area, area', first, rfl, h, rfl, rfl⟩

theorem tryArea_cases {extra : UInt16} {rest : List Area} {next : Option (Option Ptr × List Area)}
    {p : Option Ptr} (hsize : 0 < size)
    (h : tryArea extra size k area rest next = some (p, areas')) :
    (∃ first area', Taken size first area area' ∧
      p = some ⟨k, first * lineAllocatorZoneSize⟩ ∧ areas' = area' :: rest) ∨
    ∃ behind, next = some (p, behind) ∧ areas' = area :: behind := by
  have hnext : (next.map fun q => (q.1, area :: q.2)) = some (p, areas') →
      ∃ behind, next = some (p, behind) ∧ areas' = area :: behind := by
    intro h
    obtain ⟨q, hq, heq⟩ := Option.map_eq_some_iff.mp h
    obtain ⟨rfl, rfl⟩ := Prod.mk.inj heq
    exact ⟨q.2, hq, rfl⟩
  unfold tryArea at h
  split_ifs at h with hle
  · obtain ⟨⟨r, a'⟩, hr, h⟩ := Option.bind_eq_some_iff.mp h
    obtain ⟨rfl, rfl, -⟩ | ⟨first, hrun, rfl, hav, hdata, hused⟩ := edallocAlloc_cases hsize hr
    · exact .inr (hnext h)
    · obtain ⟨rfl, rfl⟩ := Prod.mk.inj (Option.some.inj h)
      exact .inl ⟨first, a', ⟨hrun, hused, hav, hdata⟩, rfl, rfl⟩
  · exact .inr (hnext h)

theorem mallocNew_served {extra : UInt16} {grants : List (ℕ → UInt8)} {p : Option Ptr}
    (hsize : 0 < size) (h : mallocNew extra size k grants = some (p, areas')) :
    ∃ datas : List (ℕ → UInt8), Served size k (datas.map edallocAllocArea) p areas' := by
  induction grants generalizing k areas' with
  | nil =>
    obtain ⟨rfl, rfl⟩ := Prod.mk.inj (Option.some.inj h)
    exact ⟨[], .inl ⟨rfl, rfl⟩⟩
  | cons data grants ih =>
    obtain ⟨first, a', ht, rfl, rfl⟩ | ⟨behind, hnext, rfl⟩ := tryArea_cases hsize h
    · exact ⟨[data], ht.served⟩
    · obtain ⟨datas, hserved⟩ := ih hnext
      exact ⟨data :: datas, hserved.cons⟩

theorem mallocIn_served {extra : UInt16} {grants : List (ℕ → UInt8)} {p : Option Ptr}
    (hsize : 0 < size) (h : mallocIn extra grants size k areas = some (p, areas')) :
    ∃ datas : List (ℕ → UInt8), Served size k (areas ++ datas.map edallocAllocArea) p areas' := by
  induction areas generalizing k areas' with
  | nil => exact mallocNew_served hsize h
  | cons area rest ih =>
    obtain ⟨first, a', ht, rfl, rfl⟩ | ⟨behind, hnext, rfl⟩ := tryArea_cases hsize h
    · refine ⟨[], ?_⟩
      rw [List.map_nil, List.append_nil]
      exact ht.served
    · obtain ⟨datas, hserved⟩ := ih hnext
      exact ⟨datas, hserved.cons⟩

/-- **What `edalloc_line_malloc` returns.** -/
theorem edallocLineMalloc_cases {extra : UInt16} {grants : List (ℕ → UInt8)} {size : UInt32}
    {p : Option Ptr} (h : edallocLineMalloc extra grants areas size = some (p, areas')) :
    ∃ datas : List (ℕ → UInt8), (p = none ∧ areas' = areas ++ datas.map edallocAllocArea) ∨
      0 < (edallocRoundSize size).toNat ∧ ∃ k area area' first,
        (areas ++ datas.map edallocAllocArea)[k]? = some area ∧
        Taken (edallocRoundSize size).toNat first area area' ∧
        p = some ⟨k, first * lineAllocatorZoneSize⟩ ∧
        areas' = (areas ++ datas.map edallocAllocArea).set k area' := by
  unfold edallocLineMalloc at h
  split_ifs at h with h0
  · obtain ⟨rfl, rfl⟩ := Prod.mk.inj (Option.some.inj h)
    refine ⟨[], .inl ⟨rfl, ?_⟩⟩
    rw [List.map_nil, List.append_nil]
  · have hsize : 0 < (edallocRoundSize size).toNat :=
      Nat.pos_of_ne_zero fun h => h0 (UInt32.toNat_inj.mp h)
    obtain ⟨datas, hnone | ⟨k, a, a', first, ha, ht, rfl, rfl⟩⟩ := mallocIn_served hsize h
    · exact ⟨datas, .inl hnone⟩
    · refine ⟨datas, .inr ⟨hsize, k, a, a', first, ha, ht, ?_, rfl⟩⟩
      rw [Nat.zero_add]

theorem div_zoneSize (first : ℕ) : first * lineAllocatorZoneSize / lineAllocatorZoneSize = first :=
  Nat.mul_div_cancel first (by decide)

/-- **`edalloc_line_malloc` keeps the invariant.** A line that it returns is new. -/
theorem edallocLineMalloc_sound {extra : UInt16} {grants : List (ℕ → UInt8)} {size : UInt32}
    {p : Option Ptr} (h : Sound areas lines)
    (hm : edallocLineMalloc extra grants areas size = some (p, areas')) :
    Sound areas' ((p.map (lineAt · size)).toList ++ lines) := by
  obtain ⟨datas, ⟨rfl, rfl⟩ | ⟨hpos, k, a, a', first, ha, ht, rfl, rfl⟩⟩ :=
    edallocLineMalloc_cases hm
  · exact h.append datas
  · have hline : lineAt ⟨k, first * lineAllocatorZoneSize⟩ size =
        ⟨k, first, (edallocRoundSize size).toNat⟩ := by
      rw [lineAt, div_zoneSize]
    rw [Option.map_some, hline]
    exact (h.append datas).take ha ht.marks hpos ht.run.1 ht.run.eq_false ht.available

/-- The data of the areas stays. -/
theorem edallocLineMalloc_data {extra : UInt16} {grants : List (ℕ → UInt8)} {size : UInt32}
    {p : Option Ptr} (hm : edallocLineMalloc extra grants areas size = some (p, areas'))
    (ha : areas[k]? = some area) : ∃ a, areas'[k]? = some a ∧ a.data = area.data := by
  obtain ⟨hk, -⟩ := List.getElem?_eq_some_iff.mp ha
  have hbase : ∀ datas : List (ℕ → UInt8),
      (areas ++ datas.map edallocAllocArea)[k]? = some area := by
    intro datas
    rw [List.getElem?_append_left hk, ha]
  obtain ⟨datas, ⟨-, rfl⟩ | ⟨-, j, a, a', first, hj, ht, -, rfl⟩⟩ := edallocLineMalloc_cases hm
  · exact ⟨area, hbase datas, rfl⟩
  · obtain rfl | hne := eq_or_ne j k
    · obtain rfl := Option.some.inj (hj.symm.trans (hbase datas))
      obtain ⟨hlt, -⟩ := List.getElem?_eq_some_iff.mp hj
      exact ⟨a', List.getElem?_set_self hlt, ht.data⟩
    · exact ⟨area, (List.getElem?_set_ne hne).trans (hbase datas), rfl⟩

/-! ### `edalloc_line_free` -/

theorem exists_edallocBmpFill (area : Area) (value : Bool) (h : first + count ≤ 504) :
    ∃ area', edallocBmpFill value first count area = some area' ∧
      area'.availableZones = area.availableZones ∧ Marks value first count area area' := by
  obtain ⟨map, hfill, hused⟩ := edallocBmpFill_spec area value h
  exact ⟨_, hfill, rfl, hused⟩

/-- **`edalloc_line_free` gives the line back** if its text fills its zones. -/
theorem edallocLineFree_sound (h : Sound areas (l :: lines)) (hfill : FillsZones areas l)
    (hf : edallocLineFree areas (linePtr l) = some areas') : Sound areas' lines := by
  have hin := (h.owned.inside l List.mem_cons_self).2
  have hin' : l.first + l.count ≤ 504 := hin.trans (by decide)
  obtain ⟨area, ha, htext⟩ := Option.bind_eq_some_iff.mp hfill
  unfold edallocLineFree at hf
  simp only [linePtr, ha] at hf
  obtain ⟨a', hfree, rfl⟩ := Option.map_eq_some_iff.mp hf
  obtain ⟨a₁, hbmp, hav, hm⟩ := exists_edallocBmpFill area false hin'
  have hsize : textZones area (l.first * lineAllocatorZoneSize) = some l.count := htext
  rw [edallocFree, hsize, Option.bind_some, div_zoneSize, hbmp, Option.map_some] at hfree
  obtain rfl := Option.some.inj hfree
  refine h.giveBack ha hm ?_
  rw [← hav]

/-! ### `edalloc_line_realloc` -/

theorem eq_false_of_edallocBmpFree (h : edallocBmpFree area first count = some true) :
    ∀ z, first ≤ z → z < first + count → area.used z = false := by
  induction count generalizing first with
  | zero => exact fun z hz hlt => absurd hlt (by omega)
  | succ count ih =>
    intro z hz hlt
    obtain ⟨used, hget, h⟩ := Option.bind_eq_some_iff.mp h
    cases used with
    | true =>
      rw [if_pos rfl] at h
      exact absurd (Option.some.inj h) Bool.false_ne_true
    | false =>
      obtain rfl | hne := eq_or_ne first z
      · rw [Area.used, hget, Option.getD_some]
      · exact ih h z (by omega) (by omega)

/-- **`edalloc_realloc` in place.** A line whose text fills its zones gets the new number of zones,
or a greater number of zones was asked for. -/
theorem edallocRealloc_cases {newsize : UInt32} {ok : Bool} (h : Sound areas (l :: lines))
    (ha : areas[l.key]? = some area) (htext : textZones area (linePtr l).offset = some l.count)
    (hpos : 0 < (edallocRoundSize newsize).toNat)
    (hinside : GrowthInside areas l (edallocRoundSize newsize).toNat)
    (hr : edallocRealloc area (linePtr l).offset newsize = some (ok, area')) :
    (ok = true ∧ Sound (areas.set l.key area')
      ({ l with count := (edallocRoundSize newsize).toNat } :: lines)) ∨
    (ok = false ∧ l.count < (edallocRoundSize newsize).toNat) := by
  have hin : l.first + l.count ≤ 500 := (h.owned.inside l List.mem_cons_self).2
  have hi : (linePtr l).offset / lineAllocatorZoneSize = l.first := div_zoneSize l.first
  unfold edallocRealloc at hr
  rw [htext, Option.bind_some, hi] at hr
  generalize (edallocRoundSize newsize).toNat = c at hpos hinside hr ⊢
  dsimp only at hr
  split_ifs at hr with heq hlt hzero
  · obtain ⟨rfl, rfl⟩ := Prod.mk.inj (Option.some.inj hr)
    obtain ⟨hk, hget⟩ := List.getElem?_eq_some_iff.mp ha
    refine .inl ⟨rfl, ?_⟩
    rw [← hget, List.set_getElem_self, heq]
    exact h
  · omega
  · have hfit : l.first + c + (l.count - c) ≤ 504 := by omega
    obtain ⟨a₁, hbmp, hav, hm⟩ := exists_edallocBmpFill area false hfit
    rw [hbmp, Option.map_some] at hr
    obtain ⟨rfl, rfl⟩ := Prod.mk.inj (Option.some.inj hr)
    refine .inl ⟨rfl, h.shrink ha hpos hlt hm ?_⟩
    rw [← hav]
  · have hgt : l.count < c := by omega
    obtain ⟨free, hfree, hr⟩ := Option.bind_eq_some_iff.mp hr
    cases free with
    | false =>
      obtain ⟨rfl, -⟩ := Prod.mk.inj (Option.some.inj hr)
      exact .inr ⟨rfl, hgt⟩
    | true =>
      have hall := eq_false_of_edallocBmpFree hfree
      have hroom : l.first + c ≤ lineAllocatorZones := by
        obtain hle | hle | ⟨z, hz, hle, hused⟩ := hinside
        · omega
        · exact hle
        · by_contra hover
          rw [usedMap_of_getElem? ha, hall z hle (by omega)] at hused
          exact Bool.noConfusion hused
      have hroom' : l.first + c ≤ 500 := hroom
      have hfit : l.first + l.count + (c - l.count) ≤ 504 := by omega
      obtain ⟨a₁, hbmp, hav, hm⟩ := exists_edallocBmpFill area true hfit
      rw [if_pos rfl, hbmp, Option.map_some] at hr
      obtain ⟨rfl, rfl⟩ := Prod.mk.inj (Option.some.inj hr)
      refine .inl ⟨rfl, h.grow ha hgt hroom hm (fun z hz hz' => hall z hz (by omega)) ?_⟩
      rw [← hav]

theorem textZones_congr {offset : ℕ} (h : area'.data = area.data) :
    textZones area' offset = textZones area offset := by
  rw [textZones, textZones, strlen, strlen, h]

/-- The copy leaves the text that it was made from alone. -/
theorem strcpy_sound {d : Extent ℕ} (h : Sound areas (d :: l :: lines))
    (hfill : FillsZones areas l) (hcount : l.count ≤ d.count)
    (hc : strcpy areas (linePtr d) (linePtr l) = some areas') :
    Sound areas' (d :: l :: lines) ∧ FillsZones areas' l := by
  obtain ⟨area, ha, htext⟩ := Option.bind_eq_some_iff.mp hfill
  obtain ⟨len, hlen, hle⟩ := textZones_cases htext
  unfold strcpy at hc
  have ha' : areas[(linePtr l).area]? = some area := ha
  rw [ha', Option.bind_some, hlen, Option.bind_some] at hc
  obtain ⟨dstArea, hd, hc⟩ := Option.bind_eq_some_iff.mp hc
  obtain ⟨-, hc⟩ := Option.ite_none_right_eq_some.mp hc
  obtain rfl := Option.some.inj hc
  -- which bytes are copied does not matter, but where they are written
  generalize (fun k => area.data ((linePtr l).offset + k)) = bytes
  refine ⟨h.write hd _ _ _, ?_⟩
  have hd' : areas[d.key]? = some dstArea := hd
  unfold FillsZones
  obtain heq | hne := eq_or_ne d.key l.key
  · obtain rfl : area = dstArea := Option.some.inj (ha.symm.trans (heq ▸ hd'))
    obtain ⟨hk, -⟩ := List.getElem?_eq_some_iff.mp ha
    have hset : (areas.set (linePtr d).area
          (area.write (linePtr d).offset (len + 1) bytes))[l.key]? =
        some (area.write (linePtr d).offset (len + 1) bytes) := by
      rw [← heq] at hk ⊢
      exact List.getElem?_set_self hk
    have hmem : l ∈ d :: l :: lines := List.mem_cons_of_mem d List.mem_cons_self
    have horder := ((List.pairwise_cons.mp h.owned.apart).1 l List.mem_cons_self).order heq
      (h.owned.inside d List.mem_cons_self).1 (h.owned.inside l hmem).1
    have hsame : strlen (area.write (linePtr d).offset (len + 1) bytes) (linePtr l).offset =
        some len := by
      refine strlenIn_congr hlen fun j hj hj' => if_neg ?_
      simp only [linePtr, lineAllocatorZoneSize] at hj hj' hle ⊢
      omega
    rw [hset, Option.bind_some, textZones, hsame]
    rw [textZones, hlen] at htext
    exact htext
  · have hset : ∀ a, (areas.set (linePtr d).area a)[l.key]? = areas[l.key]? :=
      fun a => List.getElem?_set_ne hne
    rw [hset]
    exact hfill

/-- **`edalloc_line_realloc` keeps the invariant** for a line whose text fills its zones. -/
theorem edallocLineRealloc_sound {extra : UInt16} {grants : List (ℕ → UInt8)} {size : UInt32}
    {p : Option Ptr} (h : Sound areas (l :: lines)) (hfill : FillsZones areas l) (h0 : size ≠ 0)
    (hround : edallocRoundSize size ≠ 0)
    (hinside : GrowthInside areas l (edallocRoundSize size).toNat)
    (hr : edallocLineRealloc extra grants areas (some (linePtr l)) size = some (p, areas')) :
    Sound areas' (p.elim (l :: lines) fun p => lineAt p size :: lines) := by
  obtain ⟨area, ha, htext⟩ := Option.bind_eq_some_iff.mp hfill
  have ha' : areas[(linePtr l).area]? = some area := ha
  have hpos : 0 < (edallocRoundSize size).toNat :=
    Nat.pos_of_ne_zero fun h => hround (UInt32.toNat_inj.mp h)
  unfold edallocLineRealloc at hr
  simp only [if_neg h0, ha'] at hr
  obtain ⟨⟨ok, a'⟩, hra, hr⟩ := Option.bind_eq_some_iff.mp hr
  obtain ⟨rfl, hsound⟩ | ⟨rfl, hgt⟩ := edallocRealloc_cases h ha htext hpos hinside hra
  · rw [if_pos rfl] at hr
    obtain ⟨rfl, rfl⟩ := Prod.mk.inj (Option.some.inj hr)
    have hline : lineAt (linePtr l) size = { l with count := (edallocRoundSize size).toNat } := by
      rw [lineAt, linePtr, div_zoneSize]
    rw [Option.elim_some, hline]
    exact hsound
  · rw [if_neg Bool.false_ne_true] at hr
    obtain ⟨⟨q, areas₁⟩, hmalloc, hr⟩ := Option.bind_eq_some_iff.mp hr
    have hsound := edallocLineMalloc_sound h hmalloc
    obtain ⟨a₁, ha₁, hdata⟩ := edallocLineMalloc_data hmalloc ha
    have hfill₁ : FillsZones areas₁ l := by
      rw [FillsZones, ha₁, Option.bind_some, textZones_congr hdata]
      exact htext
    cases q with
    | none =>
      obtain ⟨rfl, rfl⟩ := Prod.mk.inj (Option.some.inj hr)
      exact hsound
    | some q =>
      obtain ⟨areas₂, hcpy, hr⟩ := Option.bind_eq_some_iff.mp hr
      obtain ⟨areas₃, hfree, heq⟩ := Option.map_eq_some_iff.mp hr
      obtain ⟨rfl, rfl⟩ := Prod.mk.inj heq
      have hptr : linePtr (lineAt q size) = q := by
        obtain ⟨-, ⟨hq, -⟩ | ⟨-, k, -, -, first, -, -, hq, -⟩⟩ := edallocLineMalloc_cases hmalloc
        · exact absurd hq nofun
        · obtain rfl := Option.some.inj hq
          rw [lineAt, linePtr, div_zoneSize]
      rw [← hptr] at hcpy
      obtain ⟨hsound₂, hfill₂⟩ := strcpy_sound hsound hfill₁ hgt.le hcpy
      exact edallocLineFree_sound (hsound₂.perm (List.Perm.swap l _ lines)) hfill₂ hfree

/-! ### Runs -/

/-- **A faithful call keeps the invariant.** -/
theorem step_sound {s s' : State} {e : Event} (h : Sound s.areas s.lines) (hgood : Faithful s e)
    (hs : step s e = some s') : Sound s'.areas s'.lines := by
  have hmalloc : ∀ (size : UInt32) (grants : List (ℕ → UInt8)),
      (edallocLineMalloc s.edallocExtraSpace grants s.areas size).map (fun r =>
        { s with areas := r.2, lines := (r.1.map (lineAt · size)).toList ++ s.lines }) = some s' →
      Sound s'.areas s'.lines := by
    intro size grants hs
    obtain ⟨⟨p, areas⟩, hm, rfl⟩ := Option.map_eq_some_iff.mp hs
    exact edallocLineMalloc_sound h hm
  cases e with
  | malloc size grants => exact hmalloc size grants hs
  | free l =>
    obtain ⟨hl, hs⟩ := Option.ite_none_right_eq_some.mp hs
    obtain ⟨areas, hf, rfl⟩ := Option.map_eq_some_iff.mp hs
    exact edallocLineFree_sound (h.perm (List.perm_cons_erase hl)) hgood hf
  | edit l text =>
    obtain ⟨-, hs⟩ := Option.ite_none_right_eq_some.mp hs
    obtain ⟨area, ha, rfl⟩ := Option.map_eq_some_iff.mp hs
    exact h.write ha _ _ _
  | setExtraSpace size =>
    obtain rfl := Option.some.inj hs
    exact h
  | realloc line size grants =>
    cases line with
    | none => exact hmalloc size grants hs
    | some l =>
      obtain ⟨hl, hs⟩ := Option.ite_none_right_eq_some.mp hs
      obtain ⟨⟨p, areas⟩, hr, rfl⟩ := Option.map_eq_some_iff.mp hs
      have hhead := h.perm (List.perm_cons_erase hl)
      obtain ⟨hfill, hsize⟩ := hgood
      by_cases h0 : size = 0
      · unfold edallocLineRealloc at hr
        simp only [if_pos h0] at hr
        obtain ⟨areas, hf, heq⟩ := Option.map_eq_some_iff.mp hr
        obtain ⟨-, rfl⟩ := Prod.mk.inj heq
        dsimp only
        rw [if_pos h0]
        exact edallocLineFree_sound hhead hfill hf
      · obtain ⟨hround, hinside⟩ := hsize.resolve_left h0
        have hsound := edallocLineRealloc_sound hhead hfill h0 hround hinside hr
        dsimp only
        rw [if_neg h0]
        cases p with
        | none => exact hsound.perm (List.perm_cons_erase hl).symm
        | some p => exact hsound

theorem boot_sound (data : ℕ → UInt8) : Sound (boot data).areas (boot data).lines := by
  have hnone : Sound [] [] :=
    ⟨.nil fun _ _ _ => rfl, List.forall_mem_nil _, List.forall_mem_nil _⟩
  exact hnone.append [data]

/-- The lines are disjoint and in the data of their areas, every area counts its free zones, and
without lines every zone is free. -/
def LinesRight (s : State) : Prop :=
  (∀ l ∈ s.lines, l.key < s.areas.length ∧ 0 < l.count ∧
    l.first + l.count ≤ lineAllocatorZones) ∧
  s.lines.Pairwise Extent.Apart ∧
  (∀ area ∈ s.areas, area.availableZones.toNat = freeCount lineAllocatorZones area.used) ∧
  (s.lines = [] → ∀ area ∈ s.areas, ∀ z < lineAllocatorZones, area.used z = false)

/-- **The lines of the editor** are right in every state of a run of faithful calls. -/
theorem lines_right (data : ℕ → UInt8) {s : State} (h : Reach step Faithful (boot data) s) :
    LinesRight s := by
  have hsound : Sound s.areas s.lines :=
    Reach.invariant (P := fun s => Sound s.areas s.lines) (boot_sound data)
      (fun s e s' hs hgood hstep => step_sound hs hgood hstep) h
  refine ⟨fun l hl => ⟨hsound.inChain l hl, hsound.owned.inside l hl⟩, hsound.owned.apart,
    hsound.counts, fun hnil area ha z hz => ?_⟩
  obtain ⟨k, hk⟩ := List.mem_iff_getElem?.mp ha
  rw [← usedMap_of_getElem? hk]
  exact (hnil ▸ hsound.owned).eq_false_of_nil k hz

instance (areas : List Area) (l : Extent ℕ) : Decidable (FillsZones areas l) :=
  inferInstanceAs (Decidable (_ = _))

instance (areas : List Area) (l : Extent ℕ) (count : ℕ) : Decidable (GrowthInside areas l count) :=
  inferInstanceAs (Decidable (_ ∨ _ ∨ _))

instance : ∀ (s : State) (e : Event), Decidable (Faithful s e)
  | _, .free _ => inferInstanceAs (Decidable (FillsZones _ _))
  | _, .realloc (some _) _ _ => inferInstanceAs (Decidable (_ ∧ (_ ∨ _ ∧ _)))
  | _, .realloc none _ _ | _, .malloc _ _ | _, .edit _ _ | _, .setExtraSpace _ => .isTrue trivial

/-- Two lines; the first one grows, and has to move to do that. -/
def editing : List Event :=
  [.malloc 10 [], .edit ⟨0, 0, 1⟩ [0x61, 0x62], .malloc 30 [],
    .edit ⟨0, 1, 2⟩ (List.replicate 24 0x63), .realloc (some ⟨0, 0, 1⟩) 40 [],
    .edit ⟨0, 3, 2⟩ (List.replicate 30 0x64), .free ⟨0, 1, 2⟩, .free ⟨0, 3, 2⟩]

theorem editing_run : (runAll (guarded step Faithful) editing (boot fun _ => 0xA5)).isSome := by
  decide +kernel

theorem lines_right_editing : ∃ s, Reach step Faithful (boot fun _ => 0xA5) s ∧ s.lines = [] ∧
    LinesRight s := by
  have hreach := reach_get step Faithful editing editing_run
  have hnil : ((runAll (guarded step Faithful) editing (boot fun _ => 0xA5)).get
      editing_run).lines = [] := by
    decide +kernel
  exact ⟨_, hreach, hnil, lines_right _ hreach⟩

/-- A line of 48 bytes with an empty text that is freed. -/
def emptied : List Event := [.malloc 48 [], .edit ⟨0, 0, 2⟩ [], .free ⟨0, 0, 2⟩]

/-- One of the two zones of the line stays used. -/
theorem not_lines_right : ¬ ∀ (data : ℕ → UInt8) (s : State),
    Reach step (fun _ _ => True) (boot data) s → LinesRight s := by
  intro hall
  have hrun : ((runAll (guarded step fun _ _ => True) emptied (boot fun _ => 0xA5)).map fun s =>
      decide (s.lines = [] ∧ ∃ area ∈ s.areas, area.used 1 = true)) = some true := by
    decide +kernel
  obtain ⟨s, hs, hbad⟩ := Option.map_eq_some_iff.mp hrun
  obtain ⟨hnil, area, ha, hused⟩ := of_decide_eq_true hbad
  have hfree := (hall _ s (reach_of_runAll hs)).2.2.2 hnil area ha 1 (by decide)
  rw [hused] at hfree
  exact Bool.noConfusion hfree

end ELuaBrain.Zones
