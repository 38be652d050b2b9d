import Mathlib.Order.CompletePartialOrder
import Mathlib.Order.Interval.Set.Disjoint

/-!
# Blocks taken from rooms

A room is an interval. An allocator that only goes forward takes blocks from the start of a room,
and leaves the rooms before it alone for ever.

## Main definitions

* `Room`, `Room.Inside`, `Room.Apart` : rooms.
* `Packed` : blocks and rooms that do not overlap, in regions.

## Main results

* `Packed.init`, `Packed.take`, `Packed.drop` : the steps of such an allocator.
-/

namespace ELuaBrain

variable {α : Type*}

/-- The interval from `start` to `last`, without the latter. -/
structure Room (α : Type*) where
  start : α
  last : α
  deriving DecidableEq

namespace Room

variable [LinearOrder α] {r r' q q' : Room α}

/-- What is in a room. -/
def cells (r : Room α) : Set α := Set.Ico r.start r.last

/-- A room lies in another one. -/
def Inside (r q : Room α) : Prop := q.start ≤ r.start ∧ r.last ≤ q.last

/-- Two rooms have nothing in common. -/
def Apart (r q : Room α) : Prop := Disjoint r.cells q.cells

theorem Inside.trans (h : r.Inside q) (h' : q.Inside q') : r.Inside q' :=
  ⟨h'.1.trans h.1, h.2.trans h'.2⟩

theorem Inside.cells_subset (h : r.Inside q) : r.cells ⊆ q.cells := Set.Ico_subset_Ico h.1 h.2

theorem Apart.symm (h : r.Apart q) : q.Apart r := Disjoint.symm h

theorem Apart.mono_left (h : q.Apart r) (hr : q'.Inside q) : q'.Apart r :=
  Disjoint.mono_left hr.cells_subset h

theorem Apart.mono_right (h : q.Apart r) (hr : r'.Inside r) : q.Apart r' :=
  Disjoint.mono_right hr.cells_subset h

/-- The two parts of a room. -/
theorem apart_split (a b c : α) : Apart ⟨a, b⟩ ⟨b, c⟩ := Set.Ico_disjoint_Ico_same

end Room

variable [LinearOrder α]

/-- The blocks that were taken and the rooms that are left, in regions. -/
structure Packed (regions blocks rooms : List (Room α)) : Prop where
  blocksApart : blocks.Pairwise Room.Apart
  roomsApart : rooms.Pairwise Room.Apart
  apart : ∀ b ∈ blocks, ∀ r ∈ rooms, b.Apart r
  blockInside : ∀ b ∈ blocks, ∃ q ∈ regions, b.Inside q
  roomInside : ∀ r ∈ rooms, ∃ q ∈ regions, r.Inside q

namespace Packed

variable {regions blocks before after rooms : List (Room α)} {r : Room α} {m : α}

/-- At first all regions are rooms. -/
theorem init (h : regions.Pairwise Room.Apart) : Packed regions [] regions :=
  ⟨.nil, h, nofun, nofun, fun r hr => ⟨r, hr, le_rfl, le_rfl⟩⟩

/-- The rooms are given up. -/
theorem drop (h : Packed regions blocks rooms) : Packed regions blocks [] :=
  ⟨h.blocksApart, .nil, fun _ _ => nofun, h.blockInside, nofun⟩

/-- **A block is taken** from the start of a room, and the rooms before it are given up. -/
theorem take (h : Packed regions blocks (before ++ r :: after)) (hstart : r.start ≤ m)
    (hlast : m ≤ r.last) :
    Packed regions (⟨r.start, m⟩ :: blocks) (⟨m, r.last⟩ :: after) := by
  have hr : r ∈ before ++ r :: after := List.mem_append_right _ List.mem_cons_self
  have hafter : ∀ q ∈ after, q ∈ before ++ r :: after := fun q hq =>
    List.mem_append_right _ (List.mem_cons_of_mem _ hq)
  have hblock : Room.Inside ⟨r.start, m⟩ r := ⟨le_rfl, hlast⟩
  have hrest : Room.Inside ⟨m, r.last⟩ r := ⟨hstart, le_rfl⟩
  obtain ⟨hrAfter, hpair⟩ := List.pairwise_cons.mp (List.pairwise_append.mp h.roomsApart).2.1
  obtain ⟨q, hq, hinside⟩ := h.roomInside r hr
  refine ⟨?_, ?_, ?_, ?_, ?_⟩
  · exact List.pairwise_cons.mpr
      ⟨fun b hb => ((h.apart b hb r hr).mono_right hblock).symm, h.blocksApart⟩
  · exact List.pairwise_cons.mpr ⟨fun q hq => (hrAfter q hq).mono_left hrest, hpair⟩
  · intro b hb q hq
    obtain rfl | hb := List.mem_cons.mp hb
    · obtain rfl | hq := List.mem_cons.mp hq
      · exact Room.apart_split ..
      · exact (hrAfter q hq).mono_left hblock
    · obtain rfl | hq := List.mem_cons.mp hq
      · exact (h.apart b hb r hr).mono_right hrest
      · exact h.apart b hb q (hafter q hq)
  · intro b hb
    obtain rfl | hb := List.mem_cons.mp hb
    · exact ⟨q, hq, hblock.trans hinside⟩
    · exact h.blockInside b hb
  · intro p hp
    obtain rfl | hp := List.mem_cons.mp hp
    · exact ⟨q, hq, hrest.trans hinside⟩
    · exact h.roomInside p (hafter p hp)

end Packed

end ELuaBrain
