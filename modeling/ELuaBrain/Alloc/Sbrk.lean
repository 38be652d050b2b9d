import ELuaBrain.System.Reach
import ELuaBrain.System.Rooms
import Mathlib.Algebra.Order.Ring.Nat
import Mathlib.Data.List.Basic

/-!
# Growing the heap

The code of `elua_sbrk` (`_sbrk_r` with other allocators). It goes through the memory spaces that
the platform reports, and compares a pointer sum that is taken modulo 2³² with the end of a space.
What it has passed it never comes back to.

## Main definitions

* `Ram` : what `MEM_START_ADDRESS` and `MEM_END_ADDRESS` say.
* `eluaSbrk`, `State.step` : the function, and one call.
* `rooms` : what is left, as a list of rooms.
* `State.Careful`, `Exhausted` : no sum is too large, and nothing is left.

## Main results

* `eluaSbrk_spec` : one call takes a block from a room, or gives up all of them.
* `eluaSbrk_blocks` : every run, and the calls that fail.
-/

namespace ELuaBrain.Sbrk

/-! ### The code -/

/-- The arrays of the platform. -/
structure Ram where
  memStartAddress : List UInt32
  memEndAddress : List UInt32

section Platform

variable (ram : Ram) (id : ℕ)

/-- `platform_get_first_free_ram`, which is `NULL` behind the last memory space. -/
def platformGetFirstFreeRam : UInt32 :=
  match ram.memStartAddress[id]? with
  | none => 0
  | some p => if p &&& 7 ≠ 0 then ((p >>> 3) + 1) <<< 3 else p

/-- `platform_get_last_free_ram`. -/
def platformGetLastFreeRam : UInt32 :=
  match ram.memEndAddress[id]? with
  | none => 0
  | some p => if p &&& 7 ≠ 0 then ((p >>> 3) - 1) <<< 3 else p

end Platform

/-- `heap_ptr` and `mem_index`, with the blocks that were returned. -/
structure State where
  heapPtr : UInt32 := 0
  memIndex : ℕ := 0
  blocks : List (Room ℕ) := []

/-- The loop of `elua_sbrk`; the result is `none` for `(void *)-1`. -/
def eluaSbrkLoop (ram : Ram) (incr : UInt32) : ℕ → State → Option (Option UInt32 × State)
  | 0, _ => none
  | fuel + 1, s =>
      let heapPtr := if s.heapPtr = 0 then platformGetFirstFreeRam ram s.memIndex else s.heapPtr
      if heapPtr = 0 then some (none, s)
      else if heapPtr + incr > platformGetLastFreeRam ram s.memIndex then
        eluaSbrkLoop ram incr fuel { s with heapPtr := 0, memIndex := s.memIndex + 1 }
      else some (some heapPtr, { s with heapPtr := heapPtr + incr })

/-- `elua_sbrk`. -/
def eluaSbrk (ram : Ram) (s : State) (incr : Int32) : Option (Option UInt32 × State) :=
  if incr < 0 then some (none, s)
  else eluaSbrkLoop ram incr.toUInt32 (ram.memStartAddress.length + 2) s

/-- One call. -/
def State.step (ram : Ram) (s : State) (incr : Int32) : Option State :=
  (eluaSbrk ram s incr).map fun r =>
    match r.1 with
    | none => r.2
    | some ptr =>
        { r.2 with blocks := ⟨ptr.toNat, ptr.toNat + incr.toUInt32.toNat⟩ :: s.blocks }

/-! ### What is left -/

/-- A memory space as it is reported. -/
def region (ram : Ram) (id : ℕ) : Room ℕ :=
  ⟨(platformGetFirstFreeRam ram id).toNat, (platformGetLastFreeRam ram id).toNat⟩

/-- The memory spaces from one on, up to the first that starts at `NULL`. -/
def regionsFrom (ram : Ram) (id : ℕ) : List (Room ℕ) :=
  ((List.range' id (ram.memStartAddress.length - id)).map (region ram)).takeWhile (·.start ≠ 0)

/-- The memory spaces. -/
def regions (ram : Ram) : List (Room ℕ) := regionsFrom ram 0

/-- What is left of the memory spaces. -/
def rooms (ram : Ram) (s : State) : List (Room ℕ) :=
  if s.heapPtr = 0 then regionsFrom ram s.memIndex
  else ⟨s.heapPtr.toNat, (platformGetLastFreeRam ram s.memIndex).toNat⟩ ::
    regionsFrom ram (s.memIndex + 1)

/-- A room looks as if there were place for `n` bytes. -/
def Takes (n : ℕ) (r : Room ℕ) : Prop := (r.start + n) % 2 ^ 32 ≤ r.last

instance Takes.decidable (n : ℕ) (r : Room ℕ) : Decidable (Takes n r) :=
  inferInstanceAs (Decidable (_ ≤ _))

/-- In the first room that looks as if there were place, the pointer sum is below 2³². -/
def State.Careful (ram : Ram) (s : State) (incr : Int32) : Prop :=
  ∀ r ∈ (rooms ram s).find? (Takes incr.toUInt32.toNat), r.start + incr.toUInt32.toNat < 2 ^ 32

instance State.Careful.decidable (ram : Ram) (s : State) (incr : Int32) :
    Decidable (s.Careful ram incr) :=
  inferInstanceAs (Decidable (∀ r ∈ (rooms ram s).find? _, _ < _))

/-- In no room that is left there looks as if there were place for anything. -/
def Exhausted (ram : Ram) (s : State) : Prop :=
  ∀ r ∈ rooms ram s, ∀ n < 2 ^ 31, ¬Takes n r

section Rooms

variable {ram : Ram} {s s' : State} {incr : Int32}

theorem regionsFrom_eq (id : ℕ) :
    regionsFrom ram id =
      if platformGetFirstFreeRam ram id = 0 then []
      else region ram id :: regionsFrom ram (id + 1) := by
  by_cases hid : id < ram.memStartAddress.length
  · have hlength : ram.memStartAddress.length - id =
        (ram.memStartAddress.length - (id + 1)) + 1 := by omega
    rw [regionsFrom, hlength, List.range'_succ, List.map_cons]
    by_cases hzero : platformGetFirstFreeRam ram id = 0
    · have hstart : (region ram id).start = 0 := congrArg UInt32.toNat hzero
      rw [if_pos hzero, List.takeWhile_cons_of_neg]
      exact fun h => of_decide_eq_true h hstart
    · have hstart : (region ram id).start ≠ 0 := fun h => hzero (UInt32.toNat_inj.mp h)
      rw [if_neg hzero, List.takeWhile_cons_of_pos]
      · rfl
      · exact decide_eq_true hstart
  · have hzero : platformGetFirstFreeRam ram id = 0 := by
      rw [platformGetFirstFreeRam, List.getElem?_eq_none (Nat.le_of_not_lt hid)]
    rw [if_pos hzero, regionsFrom, Nat.sub_eq_zero_of_le (Nat.le_of_not_lt hid)]
    rfl

theorem length_regionsFrom (ram : Ram) (id : ℕ) :
    (regionsFrom ram id).length ≤ ram.memStartAddress.length - id := by
  refine (List.takeWhile_sublist _).length_le.trans ?_
  rw [List.length_map, List.length_range']

theorem length_rooms : (rooms ram s).length ≤ ram.memStartAddress.length + 1 := by
  rw [rooms]
  split_ifs
  · have := length_regionsFrom ram s.memIndex
    omega
  · have := length_regionsFrom ram (s.memIndex + 1)
    rw [List.length_cons]
    omega

/-- The first room, if there is one, starts where the next block would. -/
theorem rooms_eq (ram : Ram) (s : State) : rooms ram s =
    let heapPtr := if s.heapPtr = 0 then platformGetFirstFreeRam ram s.memIndex else s.heapPtr
    if heapPtr = 0 then []
    else ⟨heapPtr.toNat, (platformGetLastFreeRam ram s.memIndex).toNat⟩ ::
      regionsFrom ram (s.memIndex + 1) := by
  dsimp only
  rw [rooms]
  by_cases hheap : s.heapPtr = 0
  · rw [if_pos hheap, if_pos hheap, regionsFrom_eq]
    rfl
  · rw [if_neg hheap, if_neg hheap, if_neg hheap]

/-- What one call does if its increment is not negative. -/
def Outcome (ram : Ram) (s : State) (incr : UInt32) (res : Option UInt32) (s' : State) : Prop :=
  s'.blocks = s.blocks ∧
    ((res = none ∧ (∀ r ∈ rooms ram s, ¬Takes incr.toNat r) ∧ rooms ram s' = []) ∨
      ∃ before ptr last after,
        rooms ram s = before ++ ⟨UInt32.toNat ptr, last⟩ :: after ∧
        (∀ r ∈ before, ¬Takes incr.toNat r) ∧ Takes incr.toNat ⟨ptr.toNat, last⟩ ∧
        res = some ptr ∧ (ptr.toNat + incr.toNat < 2 ^ 32 →
          rooms ram s' = ⟨ptr.toNat + incr.toNat, last⟩ :: after))

/-- **The loop** goes through the rooms that are left. -/
theorem eluaSbrkLoop_spec {n : UInt32} {fuel : ℕ} (hfuel : (rooms ram s).length < fuel) :
    ∃ res s', eluaSbrkLoop ram n fuel s = some (res, s') ∧ Outcome ram s n res s' := by
  induction fuel generalizing s with
  | zero => exact absurd hfuel (Nat.not_lt_zero _)
  | succ fuel ih =>
    rw [eluaSbrkLoop]
    have hrooms := rooms_eq ram s
    dsimp only at hrooms ⊢
    generalize (if s.heapPtr = 0 then platformGetFirstFreeRam ram s.memIndex else s.heapPtr) =
      heapPtr at hrooms ⊢
    by_cases hzero : heapPtr = 0
    · rw [if_pos hzero] at hrooms ⊢
      refine ⟨_, _, rfl, rfl, .inl ⟨rfl, fun r hr => ?_, hrooms⟩⟩
      rw [hrooms] at hr
      cases hr
    rw [if_neg hzero] at hrooms ⊢
    have htakes : Takes n.toNat
        ⟨heapPtr.toNat, (platformGetLastFreeRam ram s.memIndex).toNat⟩ ↔
          ¬heapPtr + n > platformGetLastFreeRam ram s.memIndex := by
      rw [Takes, gt_iff_lt, UInt32.not_lt, UInt32.le_iff_toNat_le, UInt32.toNat_add]
    by_cases hfull : heapPtr + n > platformGetLastFreeRam ram s.memIndex
    · rw [if_pos hfull]
      -- The next memory space.
      have hnext : rooms ram { s with heapPtr := 0, memIndex := s.memIndex + 1 } =
          regionsFrom ram (s.memIndex + 1) := if_pos rfl
      rw [hrooms, List.length_cons] at hfuel
      obtain ⟨res, s', hloop, hblocks, hout⟩ := ih (s := { s with
        heapPtr := 0
        memIndex := s.memIndex + 1 }) (by rw [hnext]; omega)
      refine ⟨res, s', hloop, hblocks, ?_⟩
      have hfirst : ∀ {l : List (Room ℕ)}, (∀ r ∈ l, ¬Takes n.toNat r) → ∀ r ∈
          ⟨heapPtr.toNat, (platformGetLastFreeRam ram s.memIndex).toNat⟩ :: l,
            ¬Takes n.toNat r := fun h r hr => by
        obtain rfl | hr := List.mem_cons.mp hr
        · exact fun ht => htakes.mp ht hfull
        · exact h r hr
      rw [hnext] at hout
      obtain ⟨hres, hnone, hgone⟩ | ⟨before, ptr, last, after, hsplit, hnone, hout⟩ := hout
      · exact .inl ⟨hres, hrooms ▸ hfirst hnone, hgone⟩
      · refine .inr ⟨_ :: before, ptr, last, after, ?_, hfirst hnone, hout⟩
        rw [hrooms, hsplit, List.cons_append]
    · rw [if_neg hfull]
      refine ⟨_, _, rfl, rfl, .inr ⟨[], heapPtr, _, _, hrooms, nofun, htakes.mpr hfull, rfl,
        fun hlt => ?_⟩⟩
      have hsum : (heapPtr + n).toNat = heapPtr.toNat + n.toNat := by
        rw [UInt32.toNat_add, Nat.mod_eq_of_lt hlt]
      have hne : heapPtr + n ≠ 0 := fun h => hzero <| UInt32.toNat_inj.mp <| by
        rw [h] at hsum
        exact (Nat.eq_zero_of_add_eq_zero_right hsum.symm)
      rw [rooms, if_neg hne, hsum]

/-- **One call.** -/
theorem eluaSbrk_spec (ram : Ram) (s : State) (hincr : ¬incr < 0) :
    ∃ res s', eluaSbrk ram s incr = some (res, s') ∧ Outcome ram s incr.toUInt32 res s' := by
  rw [eluaSbrk, if_neg hincr]
  exact eluaSbrkLoop_spec (Nat.lt_succ_of_le length_rooms)

end Rooms

/-! ### Runs -/

/-- The blocks that were returned and what is left are apart, and in the memory spaces. -/
def Kept (ram : Ram) (s : State) : Prop := Packed (regions ram) s.blocks (rooms ram s)

/-- A call returns a block. -/
def Succeeds (ram : Ram) (s : State) (incr : Int32) : Prop :=
  ∃ ptr s', eluaSbrk ram s incr = some (some ptr, s')

section Runs

variable {ram : Ram} {s s' : State} {incr : Int32}

/-- **One step.** -/
theorem Kept.step (h : Kept ram s) (hcareful : s.Careful ram incr)
    (hs : s.step ram incr = some s') : Kept ram s' := by
  obtain ⟨⟨res, s₁⟩, hcall, rfl⟩ := Option.map_eq_some_iff.mp hs
  by_cases hincr : incr < 0
  · rw [eluaSbrk, if_pos hincr] at hcall
    obtain ⟨rfl, rfl⟩ := Prod.mk.inj (Option.some.inj hcall)
    exact h
  obtain ⟨res', s₂, hcall', hblocks, hout⟩ := eluaSbrk_spec ram s hincr
  obtain ⟨rfl, rfl⟩ := Prod.mk.inj (Option.some.inj (hcall'.symm.trans hcall))
  obtain ⟨rfl, -, hgone⟩ | ⟨before, ptr, last, after, hsplit, hnone, htakes, rfl, hrest⟩ := hout
  · rw [Kept, hgone, hblocks]
    exact h.drop
  · have hfind : (rooms ram s).find? (Takes incr.toUInt32.toNat) = some ⟨ptr.toNat, last⟩ := by
      refine List.find?_eq_some_iff_append.mpr ⟨decide_eq_true htakes, before, after, hsplit,
        fun r hr => ?_⟩
      rw [decide_eq_false (hnone r hr), Bool.not_false]
    have hlt : ptr.toNat + incr.toUInt32.toNat < 2 ^ 32 := hcareful _ hfind
    have hlast : ptr.toNat + incr.toUInt32.toNat ≤ last := by
      rwa [Takes, Nat.mod_eq_of_lt hlt] at htakes
    rw [Kept, hsplit] at h
    have htaken := h.take (Nat.le_add_right _ incr.toUInt32.toNat) hlast
    rw [← hrest hlt] at htaken
    exact htaken

theorem not_lt_zero_iff : ¬incr < 0 ↔ incr.toUInt32.toNat < 2 ^ 31 := by
  have hcond := BitVec.toInt_eq_toNat_cond incr.toBitVec
  have hlt := incr.toUInt32.toNat_lt
  rw [Int32.toNat_toBitVec] at hcond
  rw [Int32.lt_iff_toInt_lt, Int.not_lt]
  change 0 ≤ incr.toBitVec.toInt ↔ _
  rw [hcond]
  split_ifs <;> omega

/-- A call succeeds if and only if some room looks as if there were place. -/
theorem succeeds_iff (hincr : ¬incr < 0) :
    Succeeds ram s incr ↔ ∃ r ∈ rooms ram s, Takes incr.toUInt32.toNat r := by
  obtain ⟨res, s₁, hcall, -, hout⟩ := eluaSbrk_spec ram s hincr
  rw [Succeeds, hcall]
  obtain ⟨rfl, hnone, -⟩ | ⟨before, ptr, last, after, hsplit, -, htakes, rfl, -⟩ := hout
  · exact iff_of_false (fun ⟨ptr, s', h⟩ => nomatch h) fun ⟨r, hr, ht⟩ => hnone r hr ht
  · refine iff_of_true ⟨ptr, s₁, rfl⟩ ⟨_, ?_, htakes⟩
    rw [hsplit]
    exact List.mem_append_right _ List.mem_cons_self

theorem not_succeeds_of_neg (hincr : incr < 0) : ¬Succeeds ram s incr := by
  rintro ⟨ptr, s', h⟩
  rw [eluaSbrk, if_pos hincr] at h
  cases h

/-- Nothing succeeds any more if and only if nothing is left. -/
theorem exhausted_iff : Exhausted ram s ↔ ∀ incr, ¬Succeeds ram s incr := by
  constructor
  · intro h incr hsucc
    by_cases hincr : incr < 0
    · exact not_succeeds_of_neg hincr hsucc
    · obtain ⟨r, hr, ht⟩ := (succeeds_iff hincr).mp hsucc
      exact h r hr _ (not_lt_zero_iff.mp hincr) ht
  · intro h r hr n hn ht
    have hnat : (UInt32.ofNat n).toInt32.toUInt32.toNat = n :=
      (UInt32.toNat_ofNat').trans (Nat.mod_eq_of_lt (by omega))
    refine h (UInt32.ofNat n).toInt32 ((succeeds_iff ?_).mpr ⟨r, hr, ?_⟩)
    · rw [not_lt_zero_iff, hnat]
      exact hn
    · rwa [hnat]

/-- After a call that failed. -/
theorem fails_cases (h : eluaSbrk ram s incr = some (none, s')) :
    (incr < 0 ∧ s' = s) ∨ (¬incr < 0 ∧ rooms ram s' = []) := by
  by_cases hincr : incr < 0
  · rw [eluaSbrk, if_pos hincr] at h
    exact .inl ⟨hincr, (Prod.mk.inj (Option.some.inj h)).2.symm⟩
  · obtain ⟨res, s₁, hcall, -, hout⟩ := eluaSbrk_spec ram s hincr
    obtain ⟨rfl, rfl⟩ := Prod.mk.inj (Option.some.inj (hcall.symm.trans h))
    obtain ⟨-, -, hgone⟩ | ⟨_, _, _, _, _, _, _, hres, _⟩ := hout
    · exact .inr ⟨hincr, hgone⟩
    · cases hres

theorem exhausted_of_rooms (h : rooms ram s = []) : Exhausted ram s := fun r hr => by
  rw [h] at hr
  cases hr

theorem Exhausted.step (h : Exhausted ram s) (hs : s.step ram incr = some s') :
    Exhausted ram s' := by
  obtain ⟨⟨res, s₁⟩, hcall, rfl⟩ := Option.map_eq_some_iff.mp hs
  cases res with
  | some ptr => exact absurd ⟨ptr, s₁, hcall⟩ (exhausted_iff.mp h incr)
  | none =>
    obtain ⟨-, rfl⟩ | ⟨-, hgone⟩ := fails_cases hcall
    · exact h
    · exact exhausted_of_rooms hgone

theorem Exhausted.runAll (h : Exhausted ram s) {incrs : List Int32}
    (hs : runAll (State.step ram) incrs s = some s') : Exhausted ram s' := by
  induction incrs generalizing s with
  | nil =>
    obtain rfl := Option.some.inj hs
    exact h
  | cons incr incrs ih =>
    obtain ⟨s₁, hstep, hrest⟩ := Option.bind_eq_some_iff.mp hs
    exact ih (h.step hstep) hrest

end Runs

/-- **Growing the heap.** Every call returns. If the memory spaces do not overlap, the blocks that
were returned in a run of careful calls are apart, and each of them lies in one memory space. After
a call that failed, every later one succeeds that would have succeeded without it, if and only if
the increment was negative or nothing was left. -/
theorem eluaSbrk_blocks (ram : Ram) :
    (∀ s incr, eluaSbrk ram s incr ≠ none) ∧
    ((regions ram).Pairwise Room.Apart → ∀ s,
      Reach (State.step ram) (State.Careful ram) {} s →
        s.blocks.Pairwise Room.Apart ∧ ∀ b ∈ s.blocks, ∃ r ∈ regions ram, b.Inside r) ∧
    ∀ s incr s', eluaSbrk ram s incr = some (none, s') →
      ((∀ incrs t t', runAll (State.step ram) incrs s = some t →
          runAll (State.step ram) incrs s' = some t' →
            ∀ later, Succeeds ram t later → Succeeds ram t' later) ↔
        incr < 0 ∨ Exhausted ram s) := by
  refine ⟨fun s incr => ?_, fun hapart s hreach => ?_, fun s incr s' hfail => ⟨fun h => ?_, ?_⟩⟩
  · by_cases hincr : incr < 0
    · rw [eluaSbrk, if_pos hincr]
      nofun
    · obtain ⟨res, s', hcall, -⟩ := eluaSbrk_spec ram s hincr
      rw [hcall]
      nofun
  · have hinit : Kept ram {} := Packed.init hapart
    have hkept : Kept ram s := hreach.invariant hinit fun _ _ _ h hg hs => h.step hg hs
    exact ⟨hkept.blocksApart, hkept.blockInside⟩
  · refine (fails_cases hfail).imp And.left fun hgone => ?_
    have hnone := exhausted_iff.mp (exhausted_of_rooms hgone.2)
    exact exhausted_iff.mpr fun later hlater => hnone later (h [] s s' rfl rfl later hlater)
  · rintro (hneg | hgone) incrs t t' ht ht' later hlater
    · obtain ⟨-, rfl⟩ | ⟨hnonneg, -⟩ := fails_cases hfail
      · obtain rfl := Option.some.inj (ht.symm.trans ht')
        exact hlater
      · exact absurd hneg hnonneg
    · exact absurd hlater (exhausted_iff.mp (hgone.runAll ht) later)

/-- Two memory spaces, the first of which starts at an odd address. -/
def sampleRam : Ram := ⟨[0x1001, 0x3000], [0x1100, 0x3100]⟩

theorem eluaSbrk_blocks_sample :
    ∃ s : State, s.blocks = [⟨0x3000, 0x3090⟩, ⟨0x1008, 0x1088⟩] ∧
      s.blocks.Pairwise Room.Apart ∧ ∀ b ∈ s.blocks, ∃ r ∈ regions sampleRam, b.Inside r := by
  have hrun : (runAll (guarded (State.step sampleRam) (State.Careful sampleRam))
      [0x80, 0x90] {}).map State.blocks = some [⟨0x3000, 0x3090⟩, ⟨0x1008, 0x1088⟩] := by
    decide +kernel
  have hregions : regions sampleRam = [⟨0x1008, 0x1100⟩, ⟨0x3000, 0x3100⟩] := by decide +kernel
  have hapart : (regions sampleRam).Pairwise Room.Apart := by
    rw [hregions, List.pairwise_pair]
    exact Set.Ico_disjoint_Ico.mpr (by decide)
  obtain ⟨s, hs, hblocks⟩ := Option.map_eq_some_iff.mp hrun
  exact ⟨s, hblocks, (eluaSbrk_blocks sampleRam).2.1 hapart s (reach_of_runAll hs)⟩

/-- A pointer sum is taken modulo 2³², and a request that is too large uses up everything. -/
theorem not_eluaSbrk_blocks :
    (¬∀ ram, (regions ram).Pairwise Room.Apart → ∀ s,
      Reach (State.step ram) (fun _ _ => True) {} s →
        ∀ b ∈ s.blocks, ∃ r ∈ regions ram, b.Inside r) ∧
    ¬∀ ram s incr s', eluaSbrk ram s incr = some (none, s') → ∀ later,
      Succeeds ram s later → Succeeds ram s' later := by
  refine ⟨fun h => ?_, fun h => ?_⟩
  · let ram : Ram := ⟨[0xD0000000], [0xD2000000]⟩
    have hrun : (runAll (guarded (State.step ram) fun _ _ => True) [0x30000010] {}).map
        State.blocks = some [⟨0xD0000000, 0x100000010⟩] := by decide +kernel
    have hregions : regions ram = [⟨0xD0000000, 0xD2000000⟩] := by decide +kernel
    obtain ⟨s, hs, hblocks⟩ := Option.map_eq_some_iff.mp hrun
    obtain ⟨r, hr, hinside⟩ := h ram (hregions ▸ List.pairwise_singleton ..) s
      (reach_of_runAll hs) _ (hblocks ▸ List.mem_singleton_self _)
    rw [hregions, List.mem_singleton] at hr
    subst hr
    exact absurd hinside.2 (by decide)
  · let ram : Ram := ⟨[0x1000], [0x2000]⟩
    have hfail : (eluaSbrk ram {} 0x5000).map (fun r => (r.1, (eluaSbrk ram r.2 8).map Prod.fst)) =
        some (none, some none) := by decide +kernel
    have hbefore : (eluaSbrk ram {} 8).map Prod.fst = some (some 0x1000) := by decide +kernel
    obtain ⟨⟨res, s'⟩, hcall, hlast⟩ := Option.map_eq_some_iff.mp hfail
    obtain ⟨rfl, hafter⟩ := Prod.mk.inj hlast
    obtain ⟨⟨res, t⟩, hres, rfl⟩ := Option.map_eq_some_iff.mp hbefore
    obtain ⟨ptr, u, hptr⟩ := h ram {} 0x5000 s' hcall 8 ⟨_, t, hres⟩
    rw [hptr] at hafter
    cases hafter

end ELuaBrain.Sbrk
