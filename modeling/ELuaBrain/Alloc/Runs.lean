import ELuaBrain.Alloc.Regions
import ELuaBrain.System.Reach

/-!
# Runs of the simple allocator

A program allocates, frees and resizes blocks and writes to them. Sizes are rounded up with 32
bits: the number of bytes that is asked for, with the header and rounded up, becomes 0 or 8 if it
does not fit, and the product in `scalloc` loses its upper bits. A block that is then returned is
smaller than was asked for. Otherwise the lists of blocks are in order after every call.

## Main definitions

* `Good` : lists in order, and blocks of the program that have room and do not overlap.
* `Call.Allowed`, `Call.Fits` : what a program may do, and sizes that do not wrap.

## Main results

* `good_of_reach` : every run.
-/

namespace ELuaBrain.Salloc

open Blocks

/-! ### All regions -/

/-- The blocks of all regions. -/
def LaidAll (ram : Ram) (m : Memory) (L : Region → List Cell) : Prop :=
  ∀ r ∈ ram.regions, Laid m r (L r)

/-- There is a taken block for a pointer, with room for a number of bytes. -/
def Holds (ram : Ram) (L : Region → List Cell) (x : UInt32 × ℕ) : Prop :=
  ∃ r ∈ ram.regions, ∃ u n, At (r.base + 1) (L r) u ⟨n, false⟩ ∧ x.1 = addr (u + 1) ∧
    x.2 + 8 ≤ 8 * n

/-- All taken blocks but that of a pointer stay, with what is in them. -/
def Keeps (ram : Ram) (m m' : Memory) (L L' : Region → List Cell) (ptr : UInt32) : Prop :=
  ∀ r ∈ ram.regions, ∀ u n, At (r.base + 1) (L r) u ⟨n, false⟩ → addr (u + 1) ≠ ptr →
    At (r.base + 1) (L' r) u ⟨n, false⟩ ∧
      ∀ x, 8 * (u + 1) ≤ x → x < 8 * (u + n) → m' x = m x

section Regions

variable {ram : Ram} {m m' m'' : Memory} {L L' L'' : Region → List Cell} {r r' : Region}
  {ptr ptr' : UInt32} {x : UInt32 × ℕ} {cells : List Cell} {u u' n n' : ℕ}

/-- Regions do not overlap. -/
theorem Ram.apart (hr : r ∈ ram.regions) (hr' : r' ∈ ram.regions) (hne : r ≠ r') :
    r.guard < r'.base ∨ r'.guard < r.base := by
  have hsymm : Std.Symm fun r r' : Region => r.last ≤ r'.first ∨ r'.last ≤ r.first :=
    ⟨fun _ _ h => h.symm⟩
  have hroom := r.room
  have hroom' := r'.room
  simp only [Region.guard, Region.base]
  rcases ram.disjoint.forall hr hr' hne with h | h
  · have hle := UInt32.le_iff_toNat_le.mp h
    omega
  · have hle := UInt32.le_iff_toNat_le.mp h
    omega

/-- Nothing in another region changes. -/
theorem Laid.of_apart (h : Laid m r' cells)
    (htouch : Touches (fun v => r.base ≤ v ∧ v ≤ r.guard) m m')
    (hapart : r.guard < r'.base ∨ r'.guard < r.base) : Laid m' r' cells := by
  refine h.of_touches htouch fun v hv hblock => ?_
  have hle := h.blockAt_le hblock
  omega

theorem Change.touches_region (h : Change m m' r cells (L' r)) (hm : Laid m r cells) :
    Touches (fun v => r.base ≤ v ∧ v ≤ r.guard) m m' :=
  h.touches.mono fun _ hv => hv.elim hm.blockAt_le h.laid.blockAt_le

/-- The region whose blocks change, with the others. -/
theorem LaidAll.change (hL : LaidAll ram m L) (hr : r ∈ ram.regions)
    (hc : Change m m' r (L r) (L' r)) (hother : ∀ r', r' ≠ r → L' r' = L r') :
    LaidAll ram m' L' := by
  intro r' hr'
  by_cases heq : r' = r
  · rw [heq]
    exact hc.laid
  · rw [hother r' heq]
    exact (hL r' hr').of_apart (hc.touches_region (hL r hr)) (Ram.apart hr hr' (Ne.symm heq))

/-- What is in a block that stays, in any region. -/
theorem Change.bytes (hc : Change m m' r (L r) (L' r)) (hL : LaidAll ram m L)
    (hr : r ∈ ram.regions) (hr' : r' ∈ ram.regions)
    (hat : At (r'.base + 1) (L r') u ⟨n, false⟩)
    (hat' : r' = r → At (r.base + 1) (L' r) u ⟨n', false⟩) (hle : n' ≤ n) {b : ℕ}
    (hb : 8 * (u + 1) ≤ b) (hlt : b < 8 * (u + n')) : m' b = m b := by
  by_cases heq : r' = r
  · subst heq
    exact hc.payload (hL r' hr) hat (hat' rfl) hle hb hlt
  · refine hc.outside (hL r hr) ?_
    have hin := (hL r' hr').at_le hat
    change r'.base + 1 ≤ u ∧ u + n ≤ r'.guard at hin
    have hapart := Ram.apart hr hr' (Ne.symm heq)
    omega

theorem keeps_of_change (hc : Change m m' r (L r) (L' r)) (hL : LaidAll ram m L)
    (hr : r ∈ ram.regions) (hother : ∀ r', r' ≠ r → L' r' = L r')
    (hkeep : ∀ u n, At (r.base + 1) (L r) u ⟨n, false⟩ → addr (u + 1) ≠ ptr →
      At (r.base + 1) (L' r) u ⟨n, false⟩) : Keeps ram m m' L L' ptr := by
  intro r' hr' u n hat hne
  refine ⟨?_, fun b hb hlt => hc.bytes hL hr hr' hat (fun heq => ?_) (Nat.le_refl _) hb hlt⟩
  · by_cases heq : r' = r
    · subst heq
      exact hkeep u n hat hne
    · rwa [hother r' heq]
  · subst heq
    exact hkeep u n hat hne

/-- The blocks of the program that stay. -/
theorem Keeps.holds (h : Keeps ram m m' L L' ptr) (hx : Holds ram L x) (hne : x.1 ≠ ptr) :
    Holds ram L' x := by
  obtain ⟨r, hr, u, n, hat, hptr, hle⟩ := hx
  exact ⟨r, hr, u, n, (h r hr u n hat (hptr ▸ hne)).1, hptr, hle⟩

/-- What a program writes to one of its blocks. -/
theorem LaidAll.write (hL : LaidAll ram m L) (hr : r ∈ ram.regions)
    (hat : At (r.base + 1) (L r) u ⟨n, false⟩) {a : ℕ} {bs : List UInt8} (ha : 8 * (u + 1) ≤ a)
    (hend : a + bs.length ≤ 8 * (u + n)) :
    LaidAll ram (m.overlay a bs) L ∧ Keeps ram m (m.overlay a bs) L L (addr (u + 1)) := by
  have htouch : Touches (fun v => u < v ∧ v < u + n) m (m.overlay a bs) :=
    touches_overlay fun x hx hlt => by omega
  have hin := (hL r hr).at_le hat
  change r.base + 1 ≤ u ∧ u + n ≤ r.guard at hin
  constructor
  · intro r' hr'
    by_cases heq : r' = r
    · rw [heq]
      exact (hL r hr).of_touches htouch fun v hv => (hL r hr).not_blockAt hat hv.1 hv.2
    · exact (hL r' hr').of_apart (htouch.mono fun v hv => by omega)
        (Ram.apart hr hr' (Ne.symm heq))
  · intro r' hr' u' n' hat' hne
    refine ⟨hat', fun b hb hlt => ?_⟩
    by_contra hchange
    have hv := htouch b hchange
    by_cases heq : r' = r
    · subst heq
      rcases hat.disjoint hat' with ⟨hu, -⟩ | hbefore | hbehind
      · exact hne (hu ▸ rfl)
      · change u + n ≤ u' at hbefore
        omega
      · change u' + n' ≤ u at hbehind
        omega
    · have hin' := (hL r' hr').at_le hat'
      change r'.base + 1 ≤ u' ∧ u' + n' ≤ r'.guard at hin'
      have hapart := Ram.apart hr hr' (Ne.symm heq)
      omega

end Regions

/-! ### Allocating and freeing -/

/-- The blocks `L` with others in the region `r`. -/
theorem exists_update (L : Region → List Cell) (r : Region) (cells : List Cell) :
    ∃ L' : Region → List Cell, L' r = cells ∧ ∀ r', r' ≠ r → L' r' = L r' := by
  classical
  exact ⟨Function.update L r cells, Function.update_self _ _ _, fun r' hne =>
    Function.update_of_ne hne _ _⟩

/-- A new block for a program: it has room, and the blocks that were there stay and are others. -/
structure Allocated (ram : Ram) (m m' : Memory) (L L' : Region → List Cell) (ptr size : UInt32) :
    Prop where
  ptr_ne : ptr ≠ 0
  size_ne : size ≠ 0
  laid : LaidAll ram m' L'
  holds : Holds ram L' (ptr, size.toNat)
  keeps : Keeps ram m m' L L' ptr
  fresh : ∀ x, Holds ram L x → x.1 ≠ ptr

section Calls

variable {ram : Ram} {m m' : Memory} {L L' : Region → List Cell} {r r' : Region}
  {ptr size : UInt32} {x : UInt32 × ℕ} {u u' n n' : ℕ}

/-- Different blocks have different pointers. -/
theorem unit_eq (hL : LaidAll ram m L) (hr : r ∈ ram.regions) (hr' : r' ∈ ram.regions) {c d : Cell}
    (hat : At (r.base + 1) (L r) u c) (hat' : At (r'.base + 1) (L r') u' d)
    (h : addr (u + 1) = addr (u' + 1)) : r = r' ∧ u = u' ∧ c = d := by
  have hle := (hL r hr).at_le hat
  have hle' := (hL r' hr').at_le hat'
  have hlim := r.guard_lt
  have hlim' := r'.guard_lt
  have hpos := (hL r hr).size_pos hat
  have hpos' := (hL r' hr').size_pos hat'
  rw [addr_inj (by omega) (by omega)] at h
  obtain rfl : u = u' := by omega
  by_cases heq : r = r'
  · subst heq
    rcases hat.disjoint hat' with ⟨-, hcd⟩ | hlt | hlt
    · exact ⟨rfl, rfl, hcd⟩
    · omega
    · omega
  · have hapart := Ram.apart hr hr' heq
    omega

theorem smallocLoop_eq (hL : LaidAll ram m L) (hsize : size.toNat + 16 ≤ 2 ^ 32)
    {rs : List Region} (hrs : ∀ r ∈ rs, r ∈ ram.regions) :
    ∃ ptr m', smallocLoop m size rs = some (ptr, m') ∧
      (ptr = 0 ∧ m' = m ∨ ∃ L', Allocated ram m m' L L' ptr size) := by
  induction rs with
  | nil => exact ⟨0, m, rfl, .inl ⟨rfl, rfl⟩⟩
  | cons r rs ih =>
    obtain ⟨hr, hrs⟩ := List.forall_mem_cons.mp hrs
    obtain ⟨ptr, m', hget, h⟩ := sGetFreeBlock_eq (hL r hr) hsize
    rw [smallocLoop]
    simp only [Option.bind_eq_bind, hget, Option.bind_some]
    rcases h with ⟨rfl, rfl⟩ | ⟨hne, u, n, cells', rfl, hchange, hat, hle, ⟨k, hfree⟩, hkeep⟩
    · rw [if_neg (not_not.mpr rfl)]
      exact ih hrs
    · have hlim := r.guard_lt
      have hin := hchange.laid.at_le hat
      have hpos := hchange.laid.size_pos hat
      have hptr : addr (u + 1) ≠ 0 := fun hzero => by
        rw [addr_eq_zero (by omega)] at hzero
        omega
      obtain ⟨L', rfl, hother⟩ := exists_update L r cells'
      rw [if_pos hptr]
      exact ⟨_, m', rfl, .inr ⟨L',
        { ptr_ne := hptr
          size_ne := hne
          laid := hL.change hr hchange hother
          holds := ⟨r, hr, u, n, hat, rfl, hle⟩
          keeps := keeps_of_change hchange hL hr hother fun u n hat _ => hkeep u n hat
          fresh := by
            rintro x ⟨r', hr', u', n', hat', hx, -⟩ heq
            obtain ⟨rfl, rfl, hcell⟩ := unit_eq hL hr' hr hat' hfree (hx.symm.trans heq)
            cases hcell }⟩⟩

/-- A block is freed. -/
theorem exists_free (hL : LaidAll ram m L) (hx : Holds ram L x) :
    ∃ m' L', sFreeBlock m x.1 = some m' ∧ LaidAll ram m' L' ∧ Keeps ram m m' L L' x.1 := by
  obtain ⟨r, hr, u, n, hat, hptr, -⟩ := hx
  obtain ⟨m', cells', hfree, hchange, hkeep⟩ := sFreeBlock_eq (hL r hr) hat
  obtain ⟨L', rfl, hother⟩ := exists_update L r cells'
  rw [hptr]
  refine ⟨m', L', hfree, hL.change hr hchange hother,
    keeps_of_change hchange hL hr hother fun u' n' hat' hne => hkeep u' n' hat' ?_⟩
  rintro rfl
  exact hne rfl

/-- A block is made smaller. -/
theorem exists_shrink (hL : LaidAll ram m L) (hx : Holds ram L x)
    (hlt : size < sGetActualBlockSize m x.1) :
    ∃ m' L', sShrinkBlock m x.1 size = some m' ∧ LaidAll ram m' L' ∧
      Holds ram L' (x.1, size.toNat) ∧ Keeps ram m m' L L' x.1 ∧
      ∀ i < size.toNat, m' (x.1.toNat + i) = m (x.1.toNat + i) := by
  obtain ⟨r, hr, u, n, hat, hptr, -⟩ := hx
  rw [hptr] at hlt ⊢
  rw [UInt32.lt_iff_toNat_lt, (hL r hr).sGetActualBlockSize hat] at hlt
  change size.toNat < 8 * n - 8 at hlt
  obtain ⟨m', cells', n', hshrink, hchange, hat', hle, hn', hkeep⟩ :=
    sShrinkBlock_eq (hL r hr) hat (show size.toNat + 8 < 8 * n by omega)
  obtain ⟨L', rfl, hother⟩ := exists_update L r cells'
  have hin := (hL r hr).at_le hat
  have hlim := r.guard_lt
  change r.base + 1 ≤ u ∧ u + n ≤ r.guard at hin
  refine ⟨m', L', hshrink, hL.change hr hchange hother, ⟨r, hr, u, n', hat', rfl, hle⟩,
    keeps_of_change hchange hL hr hother fun u' n' hat' hne => hkeep u' n' hat' ?_,
    fun i hi => ?_⟩
  · rintro rfl
    exact hne rfl
  · rw [toNat_addr (by omega)]
    exact hchange.bytes hL hr hr hat (fun _ => hat') hn' (by omega) (by omega)

/-- The blocks of a program have room. -/
theorem Holds.le (hL : LaidAll ram m L) (hx : Holds ram L x) :
    x.2 ≤ (sGetActualBlockSize m x.1).toNat := by
  obtain ⟨r, hr, u, n, hat, hptr, hle⟩ := hx
  rw [hptr, (hL r hr).sGetActualBlockSize hat]
  exact Nat.le_sub_of_add_le hle

/-- The blocks of a program do not overlap. -/
theorem Holds.disjoint {y : UInt32 × ℕ} (hL : LaidAll ram m L) (hx : Holds ram L x)
    (hy : Holds ram L y) (hne : x.1 ≠ y.1) :
    x.1.toNat + (sGetActualBlockSize m x.1).toNat ≤ y.1.toNat ∨
      y.1.toNat + (sGetActualBlockSize m y.1).toNat ≤ x.1.toNat := by
  obtain ⟨r, hr, u, n, hat, hptr, -⟩ := hx
  obtain ⟨r', hr', u', n', hat', hptr', -⟩ := hy
  rw [hptr, hptr'] at hne ⊢
  have hin := (hL r hr).at_le hat
  have hin' := (hL r' hr').at_le hat'
  change r.base + 1 ≤ u ∧ u + n ≤ r.guard at hin
  change r'.base + 1 ≤ u' ∧ u' + n' ≤ r'.guard at hin'
  have hlim := r.guard_lt
  have hlim' := r'.guard_lt
  rw [(hL r hr).sGetActualBlockSize hat, (hL r' hr').sGetActualBlockSize hat',
    toNat_addr (by omega), toNat_addr (by omega)]
  change 8 * (u + 1) + (8 * n - 8) ≤ 8 * (u' + 1) ∨ 8 * (u' + 1) + (8 * n' - 8) ≤ 8 * (u + 1)
  have hpos := (hL r hr).size_pos hat
  have hpos' := (hL r' hr').size_pos hat'
  change 0 < n at hpos
  change 0 < n' at hpos'
  by_cases heq : r = r'
  · subst heq
    rcases hat.disjoint hat' with ⟨hu, -⟩ | hlt | hlt
    · exact absurd (hu ▸ rfl) hne
    · change u + n ≤ u' at hlt
      omega
    · change u' + n' ≤ u at hlt
      omega
  · have hapart := Ram.apart hr hr' heq
    omega

/-- The blocks after the start. -/
theorem laidAll_init (ram : Ram) (m : Memory) :
    ∃ L, LaidAll ram (ram.regions.foldl initRegion m) L := by
  refine ⟨fun r => [⟨r.guard - (r.base + 1), true⟩], ?_⟩
  suffices h : ∀ (rs done : List Region) (m : Memory),
      (∀ r ∈ done ++ rs, r ∈ ram.regions) →
      (∀ r ∈ done, Laid m r [⟨r.guard - (r.base + 1), true⟩]) →
      ∀ r ∈ done ++ rs, Laid (rs.foldl initRegion m) r [⟨r.guard - (r.base + 1), true⟩] from
    h ram.regions [] m (fun r hr => hr) (List.forall_mem_nil _)
  intro rs
  induction rs with
  | nil =>
    intro done m _ hdone
    rwa [List.append_nil]
  | cons r rs ih =>
    intro done m hmem hdone
    obtain ⟨hlaid, htouch⟩ := laid_initRegion m r
    rw [List.append_cons] at hmem ⊢
    refine ih (done ++ [r]) (initRegion m r) hmem fun r' hr' => ?_
    by_cases heq : r' = r
    · rwa [heq]
    · have hold : r' ∈ done := by
        rcases List.mem_append.mp hr' with hr' | hr'
        · exact hr'
        · exact absurd (List.mem_singleton.mp hr') heq
      have hr : r ∈ ram.regions :=
        hmem r (List.mem_append_left _ (List.mem_append_right _ List.mem_cons_self))
      exact (hdone r' hold).of_apart htouch
        (Ram.apart hr (hmem r' (List.mem_append_left _ hr')) (Ne.symm heq))

/-- Changes one after the other. -/
theorem Keeps.trans {m'' : Memory} {L'' : Region → List Cell} {p q t : UInt32}
    (h : Keeps ram m m' L L' p) (h' : Keeps ram m' m'' L' L'' q)
    (hne : ∀ r ∈ ram.regions, ∀ u n, At (r.base + 1) (L r) u ⟨n, false⟩ → addr (u + 1) ≠ t →
      addr (u + 1) ≠ p ∧ addr (u + 1) ≠ q) : Keeps ram m m'' L L'' t := by
  intro r hr u n hat ht
  obtain ⟨hp, hq⟩ := hne r hr u n hat ht
  obtain ⟨hat', hbytes⟩ := h r hr u n hat hp
  obtain ⟨hat'', hbytes'⟩ := h' r hr u n hat' hq
  exact ⟨hat'', fun x hx hlt => (hbytes' x hx hlt).trans (hbytes x hx hlt)⟩

/-- A block that stays has its size and what is in it. -/
theorem Keeps.payload (h : Keeps ram m m' L L' ptr) (hL : LaidAll ram m L)
    (hL' : LaidAll ram m' L') (hx : Holds ram L x) (hne : x.1 ≠ ptr) :
    sGetActualBlockSize m' x.1 = sGetActualBlockSize m x.1 ∧
      ∀ i < (sGetActualBlockSize m x.1).toNat, m' (x.1.toNat + i) = m (x.1.toNat + i) := by
  obtain ⟨r, hr, u, n, hat, hptr, -⟩ := hx
  obtain ⟨hat', hbytes⟩ := h r hr u n hat (hptr ▸ hne)
  have hin := (hL r hr).at_le hat
  change r.base + 1 ≤ u ∧ u + n ≤ r.guard at hin
  have hlim := r.guard_lt
  rw [hptr, ← UInt32.toNat_inj, (hL r hr).sGetActualBlockSize hat,
    (hL' r hr).sGetActualBlockSize hat', toNat_addr (by omega)]
  refine ⟨rfl, fun i hi => hbytes _ (by omega) ?_⟩
  change i < 8 * n - 8 at hi
  omega

/-- Writing to a block of the program. -/
theorem LaidAll.write_holds (hL : LaidAll ram m L) (hx : Holds ram L x) {i : ℕ} {bs : List UInt8}
    (hle : i + bs.length ≤ x.2) :
    LaidAll ram (m.overlay (x.1.toNat + i) bs) L ∧
      Keeps ram m (m.overlay (x.1.toNat + i) bs) L L x.1 := by
  obtain ⟨r, hr, u, n, hat, hptr, hroom⟩ := hx
  have hin := (hL r hr).at_le hat
  change r.base + 1 ≤ u ∧ u + n ≤ r.guard at hin
  have hlim := r.guard_lt
  have haddr : x.1.toNat = 8 * (u + 1) := by rw [hptr, toNat_addr (by omega)]
  rw [haddr, hptr]
  exact hL.write hr hat (by omega) (by omega)

/-- Writing to a block that is new. -/
theorem Allocated.write (h : Allocated ram m m' L L' ptr size) {bs : List UInt8}
    (hle : bs.length ≤ size.toNat) : Allocated ram m (m'.overlay ptr.toNat bs) L L' ptr size := by
  obtain ⟨hlaid, hkeeps⟩ := h.laid.write_holds h.holds (i := 0) (by rwa [Nat.zero_add])
  exact
    { h with
      laid := hlaid
      keeps := h.keeps.trans hkeeps fun r hr u n _ hne => ⟨hne, hne⟩ }

end Calls

/-! ### The functions of the allocator -/

section Functions

variable {ram : Ram} {s : State} {m : Memory} {L : Region → List Cell} {ptr size : UInt32}

theorem smalloc_eq (size : UInt32) (hL : LaidAll ram (sInit ram s) L)
    (hsize : size.toNat + 16 ≤ 2 ^ 32) :
    ∃ ptr m, smalloc ram s size = some (ptr, { mem := m, sInitialized := true }) ∧
      (ptr = 0 ∧ m = sInit ram s ∨ ∃ L', Allocated ram (sInit ram s) m L L' ptr size) := by
  obtain ⟨ptr, m, hloop, h⟩ := smallocLoop_eq hL hsize fun r hr => hr
  refine ⟨ptr, m, ?_, h⟩
  rw [smalloc, hloop]
  rfl

theorem scalloc_eq (nmemb size : UInt32) (hL : LaidAll ram (sInit ram s) L)
    (hsize : (nmemb * size).toNat + 16 ≤ 2 ^ 32) :
    ∃ ptr m, scalloc ram s nmemb size = some (ptr, { mem := m, sInitialized := true }) ∧
      (ptr = 0 ∧ m = sInit ram s ∨
        ∃ L', Allocated ram (sInit ram s) m L L' ptr (nmemb * size)) := by
  obtain ⟨ptr, m, hmalloc, h⟩ := smalloc_eq _ hL hsize
  rw [scalloc, hmalloc]
  rcases h with ⟨rfl, rfl⟩ | ⟨L', h⟩
  · exact ⟨0, _, rfl, .inl ⟨rfl, rfl⟩⟩
  · refine ⟨ptr, _, congrArg some (if_pos h.ptr_ne), .inr ⟨L', h.write ?_⟩⟩
    exact (List.length_replicate).le

/-- What `srealloc` makes of a block, if it returns one. -/
structure Resized (ram : Ram) (m m' : Memory) (L L' : Region → List Cell)
    (ptr newptr size : UInt32) : Prop where
  ptr_ne : newptr ≠ 0
  laid : LaidAll ram m' L'
  holds : Holds ram L' (newptr, size.toNat)
  keeps : Keeps ram m m' L L' ptr
  fresh : ∀ x, Holds ram L x → x.1 ≠ ptr → x.1 ≠ newptr
  bytes : ∀ i < min (sGetActualBlockSize m ptr).toNat size.toNat,
    m' (newptr.toNat + i) = m (ptr.toNat + i)

/-- Another block is allocated, what is in the old one is moved, and the old one is freed. -/
theorem exists_move {m₁ : Memory} {L₁ : Region → List Cell} {newptr : UInt32} {old : ℕ}
    (hL : LaidAll ram m L) (hx : Holds ram L (ptr, old))
    (h : Allocated ram m m₁ L L₁ newptr size)
    (hlt : (sGetActualBlockSize m ptr).toNat ≤ size.toNat) :
    ∃ m' L', sFreeBlock (m₁.overlay newptr.toNat
        (m₁.slice ptr.toNat (sGetActualBlockSize m₁ ptr).toNat)) ptr = some m' ∧
      Resized ram m m' L L' ptr newptr size := by
  have hne : ptr ≠ newptr := h.fresh _ hx
  have hpay := h.keeps.payload hL h.laid hx hne
  dsimp only at hpay
  obtain ⟨hsize, hbytes⟩ := hpay
  obtain ⟨bs, hbs⟩ : ∃ bs, m₁.slice ptr.toNat (sGetActualBlockSize m₁ ptr).toNat = bs := ⟨_, rfl⟩
  have hlen : bs.length = (sGetActualBlockSize m ptr).toNat := by
    rw [← hbs, Memory.length_slice, hsize]
  rw [hbs]
  have hmove := h.write (hlen.trans_le hlt)
  have hold : Holds ram L₁ (ptr, old) := hmove.keeps.holds hx hne
  obtain ⟨m', L', hfree, hlaid, hkeeps⟩ := exists_free hmove.laid hold
  obtain ⟨-, hnew⟩ := hkeeps.payload hmove.laid hlaid hmove.holds hne.symm
  have hroom := hmove.holds.le hmove.laid
  refine ⟨m', L', hfree,
    { ptr_ne := h.ptr_ne
      laid := hlaid
      holds := hkeeps.holds hmove.holds hne.symm
      keeps := hmove.keeps.trans hkeeps fun r hr u n hat hptr => ⟨?_, hptr⟩
      fresh := fun x hx _ => h.fresh x hx
      bytes := fun i hi => ?_ }⟩
  · have hpos := (hL r hr).size_pos hat
    change 0 < n at hpos
    exact h.fresh (addr (u + 1), 0) ⟨r, hr, u, n, hat, rfl, show 0 + 8 ≤ 8 * n by omega⟩
  · obtain ⟨hi₁, hi₂⟩ := lt_min_iff.mp hi
    have hi' : i < bs.length := hi₁.trans_eq hlen.symm
    have hget := Memory.getElem?_slice (m := m₁) (p := ptr.toNat)
      (hi₁.trans_eq (congrArg UInt32.toNat hsize.symm))
    rw [hbs, List.getElem?_eq_getElem hi'] at hget
    exact (hnew i (hi₂.trans_le hroom)).trans ((Memory.overlay_add hi').trans
      ((Option.some.inj hget).trans (hbytes i hi₁)))

/-- `srealloc` of a block of the program. -/
theorem srealloc_eq {old : ℕ} (hinit : s.sInitialized = true) (hL : LaidAll ram s.mem L)
    (hx : Holds ram L (ptr, old)) (hptr : ptr ≠ 0) (hne : size ≠ 0)
    (hsize : size.toNat + 16 ≤ 2 ^ 32) :
    ∃ newptr m, srealloc ram s ptr size = some (newptr, { mem := m, sInitialized := true }) ∧
      (newptr = 0 ∧ m = s.mem ∨ ∃ L', Resized ram s.mem m L L' ptr newptr size) := by
  have hmem : sInit ram s = s.mem := if_pos hinit
  rw [srealloc, hmem]
  dsimp only
  rw [if_neg hptr, if_neg hne]
  split_ifs with heq hlt
  · refine ⟨ptr, s.mem, rfl, .inr ⟨L,
      { ptr_ne := hptr
        laid := hL
        holds := ?_
        keeps := fun r hr u n hat _ => ⟨hat, fun _ _ _ => rfl⟩
        fresh := fun x _ hne => hne
        bytes := fun _ _ => rfl }⟩⟩
    obtain ⟨r, hr, u, n, hat, hp, -⟩ := hx
    refine ⟨r, hr, u, n, hat, hp, ?_⟩
    have hpos := (hL r hr).size_pos hat
    change ptr = _ at hp
    change 0 < n at hpos
    rw [← heq, hp, (hL r hr).sGetActualBlockSize hat]
    change 8 * n - 8 + 8 ≤ 8 * n
    omega
  · obtain ⟨m', L', hshrink, hlaid, hholds, hkeeps, hbytes⟩ := exists_shrink hL hx hlt
    refine ⟨ptr, m', by rw [hshrink]; rfl, .inr ⟨L',
      { ptr_ne := hptr
        laid := hlaid
        holds := hholds
        keeps := hkeeps
        fresh := fun x _ hne => hne
        bytes := fun i hi => hbytes i (by omega) }⟩⟩
  · have hle : (sGetActualBlockSize s.mem ptr).toNat ≤ size.toNat :=
      UInt32.le_iff_toNat_le.mp (UInt32.not_lt.mp hlt)
    have hL' : LaidAll ram (sInit ram { mem := s.mem, sInitialized := true }) L := hL
    obtain ⟨newptr, m₁, hmalloc, h⟩ := smalloc_eq _ hL' hsize
    simp only [Option.bind_eq_bind, hmalloc, Option.bind_some]
    rcases h with ⟨rfl, rfl⟩ | ⟨L₁, h⟩
    · exact ⟨0, s.mem, rfl, .inl ⟨rfl, rfl⟩⟩
    · obtain ⟨m', L', hfree, hresized⟩ := exists_move hL hx h hle
      refine ⟨newptr, m', ?_, .inr ⟨L', hresized⟩⟩
      rw [if_neg h.ptr_ne, sfree]
      simp only [hptr, Bool.true_eq_false, or_self, if_false, hfree, Option.map_some,
        Option.bind_some]

end Functions

/-! ### Runs -/

/-- What a program may do: it frees, resizes and writes to blocks that it has. -/
def Call.Allowed (k : Client) : Call → Prop
  | .sfree ptr | .srealloc ptr _ => ptr = 0 ∨ ptr ∈ k.live.map Prod.fst
  | .write ptr offset bytes => ∃ size, (ptr, size) ∈ k.live ∧ offset + bytes.length ≤ size
  | _ => True

/-- The number of bytes can be rounded up with the header, or is nothing in 32 bits. -/
def Call.Fits (call : Call) : Prop := call.request + 16 ≤ 2 ^ 32 ∨ call.request % 2 ^ 32 = 0

/-- A block that is resized keeps what is in it, as far as it goes. -/
def Call.Preserves (k k' : Client) (res : UInt32) : Call → Prop
  | .srealloc ptr size => ptr ≠ 0 → res ≠ 0 →
      ∀ i < min (sGetActualBlockSize k.state.mem ptr).toNat size.toNat,
        k'.state.mem (res.toNat + i) = k.state.mem (ptr.toNat + i)
  | _ => True

/-- The lists of blocks are in order, the blocks of the program are in them, have room for what was
asked for, and do not overlap. -/
structure Good (ram : Ram) (k : Client) : Prop where
  blocks : k.state.sInitialized = true →
    ∃ L, LaidAll ram k.state.mem L ∧ ∀ x ∈ k.live, Holds ram L x
  usable : ∀ x ∈ k.live, x.2 ≤ (sGetActualBlockSize k.state.mem x.1).toNat
  disjoint : k.live.Pairwise fun x y =>
    x.1.toNat + (sGetActualBlockSize k.state.mem x.1).toNat ≤ y.1.toNat ∨
      y.1.toNat + (sGetActualBlockSize k.state.mem y.1).toNat ≤ x.1.toNat

/-- The invariant: the lists are in order, or they will be after the start. -/
structure Inv (ram : Ram) (k : Client) : Prop where
  live_nil : k.state.sInitialized = false → k.live = []
  blocks : ∃ L, LaidAll ram (sInit ram k.state) L ∧ ∀ x ∈ k.live, Holds ram L x
  nodup : (k.live.map Prod.fst).Nodup

section Runs

variable {ram : Ram} {k : Client} {ptr size : UInt32} {x : UInt32 × ℕ}

theorem inv_start (ram : Ram) (mem : Memory) : Inv ram { state := { mem } } where
  live_nil := fun _ => rfl
  blocks := by
    obtain ⟨L, hL⟩ := laidAll_init ram mem
    exact ⟨L, hL, List.forall_mem_nil _⟩
  nodup := .nil

theorem Inv.good (h : Inv ram k) : Good ram k := by
  by_cases hinit : k.state.sInitialized = true
  · obtain ⟨L, hL, hlive⟩ := h.blocks
    rw [sInit, if_pos hinit] at hL
    refine ⟨fun _ => ⟨L, hL, hlive⟩, fun x hx => (hlive x hx).le hL, ?_⟩
    exact (List.pairwise_map.mp h.nodup).imp_of_mem fun hx hy hne =>
      (hlive _ hx).disjoint hL (hlive _ hy) hne
  · have hnil := h.live_nil (Bool.eq_false_iff.mpr hinit)
    refine ⟨fun htrue => absurd htrue hinit, ?_, ?_⟩
    · rw [hnil]
      exact List.forall_mem_nil _
    · rw [hnil]
      exact .nil

/-- A block of the program, which it has only after the start. -/
theorem Inv.live (h : Inv ram k) (hptr : ptr ∈ k.live.map Prod.fst) :
    k.state.sInitialized = true ∧ ∃ L old, LaidAll ram k.state.mem L ∧
      (∀ x ∈ k.live, Holds ram L x) ∧ Holds ram L (ptr, old) := by
  obtain ⟨⟨ptr', old⟩, hmem, rfl⟩ := List.mem_map.mp hptr
  have hinit : k.state.sInitialized = true := by
    by_contra hfalse
    rw [h.live_nil (Bool.eq_false_iff.mpr hfalse)] at hmem
    cases hmem
  obtain ⟨L, hL, hlive⟩ := h.blocks
  rw [sInit, if_pos hinit] at hL
  exact ⟨hinit, L, old, hL, hlive, hlive _ hmem⟩

theorem inv_of_blocks {m : Memory} {L : Region → List Cell} {live : List (UInt32 × ℕ)}
    (hL : LaidAll ram m L) (hlive : ∀ x ∈ live, Holds ram L x)
    (hnodup : (live.map Prod.fst).Nodup) :
    Inv ram { state := { mem := m, sInitialized := true }, live } where
  live_nil := nofun
  blocks := ⟨L, hL, hlive⟩
  nodup := hnodup

theorem mem_drop {live : List (UInt32 × ℕ)} :
    x ∈ Client.drop live ptr ↔ x ∈ live ∧ x.1 ≠ ptr := by
  rw [Client.drop, List.mem_filter, decide_eq_true_iff]

theorem nodup_drop {live : List (UInt32 × ℕ)} (h : (live.map Prod.fst).Nodup) (ptr : UInt32) :
    ((Client.drop live ptr).map Prod.fst).Nodup :=
  h.sublist (List.filter_sublist.map _)

/-- The program gets a block. -/
theorem inv_take {m : Memory} {L : Region → List Cell} {live : List (UInt32 × ℕ)} {n : ℕ}
    (hL : LaidAll ram m L) (hlive : ∀ x ∈ live, Holds ram L x) (hnodup : (live.map Prod.fst).Nodup)
    (hnew : ptr ≠ 0 → Holds ram L (ptr, n) ∧ ∀ x ∈ live, x.1 ≠ ptr) :
    Inv ram { state := { mem := m, sInitialized := true }, live := Client.take live ptr n } := by
  rw [Client.take]
  split_ifs with hzero
  · exact inv_of_blocks hL hlive hnodup
  · obtain ⟨hholds, hfresh⟩ := hnew hzero
    refine inv_of_blocks hL (List.forall_mem_cons.mpr ⟨hholds, hlive⟩) ?_
    refine List.nodup_cons.mpr ⟨fun hmem => ?_, hnodup⟩
    obtain ⟨x, hx, heq⟩ := List.mem_map.mp hmem
    exact hfresh x hx heq

/-- The program gets a block from `smalloc`, or nothing. -/
theorem inv_allocated {m : Memory} {L : Region → List Cell} {live : List (UInt32 × ℕ)} {n : ℕ}
    (hL : LaidAll ram (sInit ram k.state) L) (hlive : ∀ x ∈ live, Holds ram L x)
    (hnodup : (live.map Prod.fst).Nodup)
    (h : ptr = 0 ∧ m = sInit ram k.state ∨
      ∃ L', Allocated ram (sInit ram k.state) m L L' ptr size)
    (hn : size ≠ 0 → n = size.toNat) :
    Inv ram { state := { mem := m, sInitialized := true }, live := Client.take live ptr n } := by
  rcases h with ⟨rfl, rfl⟩ | ⟨L', h⟩
  · exact inv_take hL hlive hnodup fun hne => absurd rfl hne
  · refine inv_take h.laid (fun x hx => h.keeps.holds (hlive x hx) (h.fresh x (hlive x hx)))
      hnodup fun _ => ⟨?_, fun x hx => h.fresh x (hlive x hx)⟩
    rw [hn h.size_ne]
    exact h.holds

/-- The program has other blocks than before. -/
theorem Inv.drop (h : Inv ram k) (ptr : UInt32) :
    Inv ram { k with live := Client.drop k.live ptr } where
  live_nil hinit := by
    rw [h.live_nil hinit]
    rfl
  blocks := by
    obtain ⟨L, hL, hlive⟩ := h.blocks
    exact ⟨L, hL, fun x hx => hlive x (mem_drop.mp hx).1⟩
  nodup := nodup_drop h.nodup ptr

/-- A block of the program is freed. -/
theorem Inv.free (h : Inv ram k) (hmem : ptr ∈ k.live.map Prod.fst) :
    ∃ state, (ptr ≠ 0 → sfree k.state ptr = some state) ∧
      Inv ram { state, live := Client.drop k.live ptr } := by
  obtain ⟨hinit, L, old, hL, hlive, hx⟩ := h.live hmem
  obtain ⟨m, L', hfree, hL', hkeeps⟩ := exists_free hL hx
  refine ⟨{ mem := m, sInitialized := true }, fun hne => ?_,
    inv_of_blocks hL' (fun x hx => ?_) (nodup_drop h.nodup ptr)⟩
  · rw [sfree, if_neg (by rw [hinit]; simpa using hne), show sFreeBlock _ ptr = some m from hfree,
      hinit]
    rfl
  · obtain ⟨hx, hne⟩ := mem_drop.mp hx
    exact hkeeps.holds (hlive x hx) hne

/-- What a call does is in order. -/
def Ok (ram : Ram) (k : Client) (call : Call) : Prop :=
  ∃ res k', k.run ram call = some (res, k') ∧ Inv ram k' ∧ call.Preserves k k' res

theorem ok_smalloc (h : Inv ram k) (hfits : (Call.smalloc size).Fits) :
    Ok ram k (.smalloc size) := by
  obtain ⟨L, hL, hlive⟩ := h.blocks
  have hlt := size.toNat_lt
  obtain ⟨ptr, m, hmalloc, hres⟩ := smalloc_eq size hL (by
    rcases hfits with hle | hmod
    · exact hle
    · change size.toNat % 2 ^ 32 = 0 at hmod
      omega)
  refine ⟨ptr, _, ?_, inv_allocated hL hlive h.nodup hres fun _ => rfl, trivial⟩
  rw [Client.run, hmalloc]
  rfl

theorem ok_scalloc {nmemb : UInt32} (h : Inv ram k) (hfits : (Call.scalloc nmemb size).Fits) :
    Ok ram k (.scalloc nmemb size) := by
  obtain ⟨L, hL, hlive⟩ := h.blocks
  have hmul : (nmemb * size).toNat = nmemb.toNat * size.toNat % 2 ^ 32 := UInt32.toNat_mul _ _
  have hcase : nmemb.toNat * size.toNat + 16 ≤ 2 ^ 32 ∨ (nmemb * size).toNat = 0 :=
    hfits.imp_right hmul.trans
  obtain ⟨ptr, m, hcalloc, hres⟩ := scalloc_eq nmemb size hL (by
    rcases hcase with hle | hzero
    · rw [hmul, Nat.mod_eq_of_lt (by omega)]
      exact hle
    · omega)
  have hinv := inv_allocated (n := nmemb.toNat * size.toNat) hL hlive h.nodup hres fun hne => by
    rcases hcase with hle | hzero
    · rw [hmul, Nat.mod_eq_of_lt (by omega)]
    · exact absurd (UInt32.toNat_inj.mp hzero) hne
  refine ⟨ptr, _, ?_, hinv, trivial⟩
  rw [Client.run, hcalloc]
  rfl

theorem ok_sfree (h : Inv ram k) (hallowed : (Call.sfree ptr).Allowed k) :
    Ok ram k (.sfree ptr) := by
  by_cases hptr : ptr = 0
  · refine ⟨0, _, ?_, h.drop ptr, trivial⟩
    rw [Client.run, sfree, if_pos (.inl hptr)]
    rfl
  · obtain ⟨state, hfree, hinv⟩ := h.free (hallowed.resolve_left hptr)
    refine ⟨0, _, ?_, hinv, trivial⟩
    rw [Client.run, hfree hptr]
    rfl

theorem ok_write {offset : ℕ} {bytes : List UInt8}
    (h : Inv ram k) (hallowed : (Call.write ptr offset bytes).Allowed k) :
    Ok ram k (.write ptr offset bytes) := by
  obtain ⟨old, hmem, hle⟩ := hallowed
  obtain ⟨hinit, L, -, hL, hlive, -⟩ := h.live (List.mem_map_of_mem hmem)
  obtain ⟨hL', -⟩ := hL.write_holds (hlive _ hmem) hle
  refine ⟨0, _, rfl, ⟨fun hfalse => ?_, ⟨L, ?_, hlive⟩, h.nodup⟩, trivial⟩
  · exact absurd (hinit.symm.trans hfalse) nofun
  · rw [sInit]
    exact (if_pos hinit : (if k.state.sInitialized = true then _ else _) = _) ▸ hL'

theorem ok_srealloc (h : Inv ram k) (hallowed : (Call.srealloc ptr size).Allowed k)
    (hfits : (Call.srealloc ptr size).Fits) : Ok ram k (.srealloc ptr size) := by
  have hlt := size.toNat_lt
  have hsize : size.toNat + 16 ≤ 2 ^ 32 := by
    rcases hfits with hle | hmod
    · exact hle
    · change size.toNat % 2 ^ 32 = 0 at hmod
      omega
  by_cases hptr : ptr = 0
  · -- as `smalloc`
    obtain ⟨L, hL, hlive⟩ := (h.drop ptr).blocks
    obtain ⟨newptr, m, hmalloc, hres⟩ := smalloc_eq size
      (s := { mem := sInit ram k.state, sInitialized := true }) hL hsize
    have hrun : srealloc ram k.state ptr size = some (newptr, { mem := m, sInitialized :=
        true }) := by
      rw [srealloc]
      exact (if_pos hptr).trans hmalloc
    refine ⟨newptr, _, by rw [Client.run, hrun]; rfl, ?_, fun hne => absurd hptr hne⟩
    split_ifs with hfail
    · rcases hres with ⟨-, rfl⟩ | ⟨L', hnew⟩
      · obtain ⟨L, hL, hlive⟩ := h.blocks
        exact inv_of_blocks hL hlive h.nodup
      · exact absurd hfail.1 hnew.ptr_ne
    · exact inv_allocated (k := { state := { mem := sInit ram k.state, sInitialized := true } }) hL
        hlive (nodup_drop h.nodup ptr) hres fun _ => rfl
  · have hmem := hallowed.resolve_left hptr
    by_cases hzero : size = 0
    · -- as `sfree`
      obtain ⟨hinit, -⟩ := h.live hmem
      obtain ⟨state, hfree, hinv⟩ := h.free hmem
      have hstate : ({ mem := sInit ram k.state, sInitialized := true } : State) = k.state := by
        rw [sInit, if_pos hinit, ← hinit]
      refine ⟨0, { state, live := Client.drop k.live ptr }, ?_, hinv,
        fun _ hne => absurd rfl hne⟩
      rw [Client.run, srealloc, hstate]
      simp only [hptr, hzero, if_false, if_true, hfree hptr, Option.map_some, ne_eq,
        not_true_eq_false, and_false, Client.take]
    · obtain ⟨hinit, L, old, hL, hlive, hx⟩ := h.live hmem
      obtain ⟨newptr, m, hrealloc, hres⟩ := srealloc_eq hinit hL hx hptr hzero hsize
      refine ⟨newptr, _, by rw [Client.run, hrealloc]; rfl, ?_, fun _ hne => ?_⟩
      · rcases hres with ⟨rfl, rfl⟩ | ⟨L', hnew⟩
        · rw [if_pos ⟨rfl, hzero⟩]
          exact inv_of_blocks hL hlive h.nodup
        · rw [if_neg fun hfail => hnew.ptr_ne hfail.1]
          refine inv_take hnew.laid (fun x hx => ?_) (nodup_drop h.nodup ptr) fun _ =>
            ⟨hnew.holds, fun x hx => ?_⟩
          · obtain ⟨hx, hne⟩ := mem_drop.mp hx
            exact hnew.keeps.holds (hlive x hx) hne
          · obtain ⟨hx, hne⟩ := mem_drop.mp hx
            exact hnew.fresh x (hlive x hx) hne
      · rcases hres with ⟨rfl, -⟩ | ⟨L', hnew⟩
        · exact absurd rfl hne
        · exact hnew.bytes

/-- **One call.** -/
theorem Inv.run (h : Inv ram k) (call : Call) (hallowed : call.Allowed k) (hfits : call.Fits) :
    Ok ram k call := by
  cases call with
  | smalloc size => exact ok_smalloc h hfits
  | sfree ptr => exact ok_sfree h hallowed
  | scalloc nmemb size => exact ok_scalloc h hfits
  | srealloc ptr size => exact ok_srealloc h hallowed hfits
  | write ptr offset bytes => exact ok_write h hallowed

end Runs

/-- **The simple allocator.** In every run in which a program frees, resizes and writes to its own
blocks only, and asks for no more bytes than can be rounded up, the lists of blocks are in order,
the blocks of the program have room and do not overlap, and every call returns and keeps what is in
a block that is resized. -/
theorem good_of_reach (ram : Ram) (mem : Memory) {k : Client}
    (h : Reach (Client.step ram) (fun k call => call.Allowed k ∧ call.Fits) { state :=
    { mem } } k) :
    Good ram k ∧ ∀ call : Call, call.Allowed k → call.Fits →
      ∃ res k', k.run ram call = some (res, k') ∧ call.Preserves k k' res := by
  have hinv : Inv ram k := h.invariant (inv_start ram mem) fun k call k' hk hcall hstep => by
    obtain ⟨res, k'', hrun, hinv, -⟩ := hk.run call hcall.1 hcall.2
    rw [Client.step, hrun] at hstep
    exact Option.some.inj hstep ▸ hinv
  refine ⟨hinv.good, fun call hallowed hfits => ?_⟩
  obtain ⟨res, k', hrun, -, hkeep⟩ := hinv.run call hallowed hfits
  exact ⟨res, k', hrun, hkeep⟩

/-- A region of 48 bytes. -/
def smallRam : Ram where
  regions := [⟨8, 56, by decide, by decide, by decide, by decide⟩]
  disjoint := List.pairwise_singleton _ _

theorem smallRam_eq :
    ((Client.step smallRam { state := { mem := fun _ => 0 } } (.smalloc 0xFFFFFFFF)).map fun k =>
      k.live.map fun x => (x.2, (sGetActualBlockSize k.state.mem x.1).toNat)) =
      some [(4294967295, 0)] := by
  decide +kernel

/-- A program asks for 4294967295 bytes and gets a block with none. -/
theorem not_good_smallRam :
    ¬ ∀ (ram : Ram) (mem : Memory) (k : Client),
      Reach (Client.step ram) (fun k call => call.Allowed k) { state := { mem } } k →
        Good ram k ∧ ∀ call : Call, call.Allowed k →
          ∃ res k', k.run ram call = some (res, k') ∧ call.Preserves k k' res := by
  intro h
  obtain ⟨k, hstep, heq⟩ := Option.map_eq_some_iff.mp smallRam_eq
  have hgood := (h smallRam _ k
    (.next .init (show Call.Allowed _ (.smalloc 0xFFFFFFFF) from trivial) hstep)).1
  have hroom : ∀ y ∈ k.live.map fun x => (x.2, (sGetActualBlockSize k.state.mem x.1).toNat),
      y.1 ≤ y.2 := by
    intro y hy
    obtain ⟨x, hx, rfl⟩ := List.mem_map.mp hy
    exact hgood.usable x hx
  rw [heq] at hroom
  exact absurd (hroom _ List.mem_cons_self) (by decide)

/-- A program asks for ten bytes there. -/
theorem good_smallRam :
    ∃ k, Client.step smallRam { state := { mem := fun _ => 0 } } (.smalloc 10) = some k ∧
      Good smallRam k := by
  obtain ⟨k, hstep⟩ := Option.isSome_iff_exists.mp (show (Client.step smallRam
    { state := { mem := fun _ => 0 } } (.smalloc 10)).isSome from by decide +kernel)
  have hcall : Call.Allowed { state := { mem := fun _ => 0 } } (.smalloc 10) ∧
      Call.Fits (.smalloc 10) := ⟨trivial, .inl (by decide)⟩
  exact ⟨k, hstep, (good_of_reach smallRam _ (.next .init hcall hstep)).1⟩

end ELuaBrain.Salloc
