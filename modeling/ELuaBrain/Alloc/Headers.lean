import ELuaBrain.Alloc.Simple
import ELuaBrain.System.Blocks

/-!
# The headers of the simple allocator

What the functions that read and write headers do, by addresses in units of eight bytes. A word
that is written keeps its first bit, whatever was there before; the first bit of the second word is
not looked at.

## Main definitions

* `addr`, `header` : the address of a unit, and the header there.
* `Touches` : the memory changes in some units only.

## Main results

* `header_sSetNextBlock` and others : what is written can be read.
-/

namespace ELuaBrain.Salloc

open Blocks

/-- The address of a unit. -/
def addr (u : ℕ) : UInt32 := UInt32.ofNat (8 * u)

/-- The header that is in a unit. -/
def header (m : Memory) (u : ℕ) : Header where
  next := (load m (8 * u)).toNat % 2 ^ 29
  prev := (load m (8 * u + 4)).toNat % 2 ^ 29
  free := !(load m (8 * u)).toNat.testBit 31

/-- The memory changes in the units of `P` only. -/
def Touches (P : ℕ → Prop) (m m' : Memory) : Prop := ∀ x, m' x ≠ m x → P (x / 8)

section Addr

variable {u v n : ℕ}

theorem toNat_addr (hu : u < 2 ^ 29) : (addr u).toNat = 8 * u :=
  UInt32.toNat_ofNat_of_lt' (show 8 * u < 2 ^ 32 by omega)

theorem addr_inj (hu : u < 2 ^ 29) (hv : v < 2 ^ 29) : addr u = addr v ↔ u = v := by
  rw [← UInt32.toNat_inj, toNat_addr hu, toNat_addr hv]
  omega

theorem addr_eq_zero (hu : u < 2 ^ 29) : addr u = 0 ↔ u = 0 :=
  addr_inj hu (show 0 < 2 ^ 29 by decide)

theorem addr_add : addr u + addr v = addr (u + v) := by
  rw [addr, addr, addr, ← UInt32.ofNat_add, Nat.mul_add]

theorem addr_sub : addr (u + v) - addr u = addr v := by
  rw [← addr_add, UInt32.add_comm]
  exact UInt32.add_sub_cancel _ _

theorem addr_le (hu : u < 2 ^ 29) (hv : v < 2 ^ 29) : addr u ≤ addr v ↔ u ≤ v := by
  rw [UInt32.le_iff_toNat_le, toNat_addr hu, toNat_addr hv]
  omega

theorem addr_lt (hu : u < 2 ^ 29) (hv : v < 2 ^ 29) : addr u < addr v ↔ u < v := by
  rw [UInt32.lt_iff_toNat_lt, toNat_addr hu, toNat_addr hv]
  omega

end Addr

/-! ### Words -/

section Words

variable {m m' m'' : Memory} {a b u v : ℕ} {x : UInt32} {P Q : ℕ → Prop}

theorem load_eq_iff : load m a = x ↔ m.slice a 4 = u32Bytes x := u32OfBytes_eq_iff

theorem load_store : load (store m a x) a = x := load_eq_iff.mpr Memory.slice_overlay

theorem load_store_of_disjoint (h : b + 4 ≤ a ∨ a + 4 ≤ b) : load (store m a x) b = load m b :=
  load_eq_iff.mpr ((Memory.slice_overlay_of_disjoint h).trans (load_eq_iff.mp rfl))

theorem Touches.mono (h : Touches P m m') (hPQ : ∀ v, P v → Q v) : Touches Q m m' :=
  fun x hx => hPQ _ (h x hx)

theorem Touches.trans (h : Touches P m m') (h' : Touches P m' m'') : Touches P m m'' := by
  intro x hx
  by_cases hm : m' x = m x
  · exact h' x (hm ▸ hx)
  · exact h x hm

theorem Touches.refl (P : ℕ → Prop) (m : Memory) : Touches P m m := fun _ hx => absurd rfl hx

/-- Writing bytes. -/
theorem touches_overlay {bs : List UInt8} (h : ∀ x, a ≤ x → x < a + bs.length → P (x / 8)) :
    Touches P m (m.overlay a bs) := by
  intro x hx
  rcases Nat.lt_or_ge x a with hlt | hge
  · exact absurd (Memory.overlay_of_lt hlt) hx
  · rcases Nat.lt_or_ge x (a + bs.length) with hin | hout
    · exact h x hge hin
    · exact absurd (Memory.overlay_of_le hout) hx

theorem touches_store (ha : a = 8 * u ∨ a = 8 * u + 4) : Touches (· = u) m (store m a x) := by
  refine touches_overlay fun y hy hlt => ?_
  rw [length_u32Bytes] at hlt
  omega

theorem Touches.load_eq (h : Touches P m m') (hu : ¬ P u) (ha : a = 8 * u ∨ a = 8 * u + 4) :
    load m' a = load m a := by
  have hbyte : ∀ k < 4, m' (a + k) = m (a + k) := by
    intro k hk
    by_contra hne
    have hdiv : (a + k) / 8 = u := by omega
    exact hu (hdiv ▸ h _ hne)
  refine load_eq_iff.mpr (Eq.trans ?_ (load_eq_iff.mp rfl))
  exact Memory.slice_congr hbyte

/-- Headers elsewhere do not change. -/
theorem Touches.header_eq (h : Touches P m m') (hu : ¬ P u) : header m' u = header m u := by
  rw [header, header, h.load_eq hu (.inl rfl), h.load_eq hu (.inr rfl)]

theorem header_store_next : header (store m (8 * u) x) u =
    { header m u with next := x.toNat % 2 ^ 29, free := !x.toNat.testBit 31 } := by
  rw [header, load_store, load_store_of_disjoint (.inr (Nat.le_refl _))]
  rfl

theorem header_store_prev : header (store m (8 * u + 4) x) u =
    { header m u with prev := x.toNat % 2 ^ 29 } := by
  rw [header, load_store, load_store_of_disjoint (.inl (Nat.le_refl _))]
  rfl

end Words

/-! ### Reading and writing headers -/

section Headers

variable {m : Memory} {u v w : ℕ}

theorem toNat_and_next (x : UInt32) : (x &&& 0x7FFFFFFF).toNat = x.toNat % 2 ^ 31 := by
  rw [UInt32.toNat_and]
  exact Nat.and_two_pow_sub_one_eq_mod x.toNat 31

theorem toNat_shift (x : UInt32) :
    ((x &&& 0x7FFFFFFF) <<< dynSizeMultShift).toNat = 8 * (x.toNat % 2 ^ 29) := by
  rw [UInt32.toNat_shiftLeft, toNat_and_next, Nat.shiftLeft_eq]
  have h3 : dynSizeMultShift.toNat % 32 = 3 := rfl
  rw [h3]
  omega

theorem toNat_addr_shift (hv : v < 2 ^ 29) : (addr v >>> dynSizeMultShift).toNat = v := by
  have h3 : dynSizeMultShift.toNat % 32 = 3 := rfl
  rw [UInt32.toNat_shiftRight, toNat_addr hv, h3, Nat.shiftRight_eq_div_pow]
  omega

theorem header_next_lt : (header m u).next < 2 ^ 29 := Nat.mod_lt _ (by decide)

theorem header_prev_lt : (header m u).prev < 2 ^ 29 := Nat.mod_lt _ (by decide)

theorem sGetNextBlock_addr (hu : u < 2 ^ 29) :
    sGetNextBlock m (addr u) = addr (header m u).next := by
  rw [← UInt32.toNat_inj, sGetNextBlock, toNat_addr hu, toNat_shift, toNat_addr header_next_lt]
  rfl

theorem sGetPrevBlock_addr (hu : u < 2 ^ 29) :
    sGetPrevBlock m (addr u) = addr (header m u).prev := by
  rw [← UInt32.toNat_inj, sGetPrevBlock, toNat_addr hu, toNat_shift, toNat_addr header_prev_lt]
  rfl

/-- The first bit alone. -/
theorem and_mask_eq_zero (x : UInt32) : x &&& 0x80000000 = 0 ↔ x.toNat.testBit 31 = false := by
  rw [← UInt32.toNat_inj, UInt32.toNat_and]
  change x.toNat &&& 2 ^ 31 = 0 ↔ _
  rw [Nat.and_two_pow]
  cases x.toNat.testBit 31 <;> simp

theorem sIsBlockFree_addr (hu : u < 2 ^ 29) :
    sIsBlockFree m (addr u) = (header m u).free := by
  rw [sIsBlockFree, toNat_addr hu, header, Bool.eq_iff_iff, decide_eq_true_iff, and_mask_eq_zero,
    Bool.not_eq_true']

/-- A word that is written keeps the first bit. -/
theorem keep_mask (x : UInt32) (hv : v < 2 ^ 29) :
    ((x &&& 0x80000000) ||| (addr v >>> dynSizeMultShift)).toNat % 2 ^ 29 = v ∧
      ((x &&& 0x80000000) ||| (addr v >>> dynSizeMultShift)).toNat.testBit 31 =
        x.toNat.testBit 31 := by
  have hmask : UInt32.toNat 0x80000000 = 2 ^ 31 := rfl
  rw [UInt32.toNat_or, UInt32.toNat_and, toNat_addr_shift hv, hmask]
  constructor
  · rw [Nat.or_mod_two_pow, Nat.and_mod_two_pow, Nat.mod_eq_of_lt hv]
    have hzero : 2 ^ 31 % 2 ^ 29 = 0 := rfl
    rw [hzero, Nat.and_zero, Nat.zero_or]
  · have hlow : v.testBit 31 = false := Nat.testBit_lt_two_pow (hv.trans (by decide))
    rw [Nat.testBit_or, Nat.testBit_and, hlow, Nat.testBit_two_pow_self, Bool.and_true,
      Bool.or_false]

theorem header_sSetNextBlock (hu : u < 2 ^ 29) (hv : v < 2 ^ 29) :
    header (sSetNextBlock m (addr u) (addr v)) u = { header m u with next := v } := by
  obtain ⟨hnext, hfree⟩ := keep_mask (load m (8 * u)) hv
  rw [sSetNextBlock, toNat_addr hu, header_store_next, hnext, hfree]
  rfl

theorem header_sSetPrevBlock (hu : u < 2 ^ 29) (hv : v < 2 ^ 29) :
    header (sSetPrevBlock m (addr u) (addr v)) u = { header m u with prev := v } := by
  rw [sSetPrevBlock, toNat_addr hu, header_store_prev, (keep_mask _ hv).1]

theorem header_sMarkBlockTaken (hu : u < 2 ^ 29) :
    header (sMarkBlockTaken m (addr u)) u = { header m u with free := false } := by
  have hmask : UInt32.toNat 0x80000000 = 2 ^ 31 := rfl
  have hzero : 2 ^ 31 % 2 ^ 29 = 0 := rfl
  rw [sMarkBlockTaken, toNat_addr hu, header_store_next, UInt32.toNat_or, hmask,
    Nat.or_mod_two_pow, hzero, Nat.or_zero, Nat.testBit_or, Nat.testBit_two_pow_self,
    Bool.or_true]
  rfl

theorem header_sMarkBlockFree (hu : u < 2 ^ 29) :
    header (sMarkBlockFree m (addr u)) u = { header m u with free := true } := by
  have hlow : (load m (8 * u) &&& 0x7FFFFFFF).toNat.testBit 31 = false := by
    rw [toNat_and_next]
    exact Nat.testBit_lt_two_pow (Nat.mod_lt _ (by decide))
  have hnext : (load m (8 * u) &&& 0x7FFFFFFF).toNat % 2 ^ 29 = (header m u).next := by
    rw [toNat_and_next]
    exact Nat.mod_mod_of_dvd _ (Nat.pow_dvd_pow 2 (by decide))
  rw [sMarkBlockFree, toNat_addr hu, header_store_next, hlow, hnext]
  rfl

theorem header_sCreateNewBlock (hu : u < 2 ^ 29) (hv : v < 2 ^ 29) (hw : w < 2 ^ 29) :
    header (sCreateNewBlock m (addr u) (addr v) (addr w)) u = ⟨v, w, true⟩ := by
  have hlow : v.testBit 31 = false := Nat.testBit_lt_two_pow (hv.trans (by decide))
  rw [sCreateNewBlock, toNat_addr hu, header_store_prev, header_store_next, toNat_addr_shift hv,
    toNat_addr_shift hw, hlow, Nat.mod_eq_of_lt hv, Nat.mod_eq_of_lt hw]
  rfl

/-- The size of a block that is not the last one. -/
theorem sGetBlockSize_addr {n : ℕ} (hu : u < 2 ^ 29) (h : (header m u).next = u + n)
    (hlt : u + n < 2 ^ 29) (hpos : 0 < n) : sGetBlockSize m (addr u) = addr n := by
  have hne : addr (u + n) ≠ 0 := fun hzero => by
    rw [addr_eq_zero hlt] at hzero
    omega
  rw [sGetBlockSize, sGetNextBlock_addr hu, h]
  exact (if_pos hne).trans addr_sub

theorem touches_sSetNextBlock (x : UInt32) (hu : u < 2 ^ 29) :
    Touches (· = u) m (sSetNextBlock m (addr u) x) := by
  rw [sSetNextBlock, toNat_addr hu]
  exact touches_store (.inl rfl)

theorem touches_sSetPrevBlock (x : UInt32) (hu : u < 2 ^ 29) :
    Touches (· = u) m (sSetPrevBlock m (addr u) x) := by
  rw [sSetPrevBlock, toNat_addr hu]
  exact touches_store (.inr rfl)

theorem touches_sMarkBlockTaken (hu : u < 2 ^ 29) :
    Touches (· = u) m (sMarkBlockTaken m (addr u)) := by
  rw [sMarkBlockTaken, toNat_addr hu]
  exact touches_store (.inl rfl)

theorem touches_sMarkBlockFree (hu : u < 2 ^ 29) :
    Touches (· = u) m (sMarkBlockFree m (addr u)) := by
  rw [sMarkBlockFree, toNat_addr hu]
  exact touches_store (.inl rfl)

theorem touches_sCreateNewBlock (x y : UInt32) (hu : u < 2 ^ 29) :
    Touches (· = u) m (sCreateNewBlock m (addr u) x y) := by
  rw [sCreateNewBlock, toNat_addr hu]
  exact (touches_store (.inl rfl)).trans (touches_store (.inr rfl))

end Headers

end ELuaBrain.Salloc
