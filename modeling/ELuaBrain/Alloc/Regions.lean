import ELuaBrain.Alloc.Lists

/-!
# The simple allocator in one region

A region is divided into blocks between its guards, no two of them free next to each other.
Allocating, freeing and shrinking a block change the blocks, and in memory only the headers of
blocks that were there before or are there after.

## Main definitions

* `Laid` : the blocks of a region.
* `Change` : a change from blocks to other blocks.

## Main results

* `sGetFreeBlock_eq`, `sFreeBlock_eq`, `sShrinkBlock_eq`, `laid_initRegion` : what the functions do.
-/

namespace ELuaBrain.Salloc

open Blocks

/-- The unit of the first guard. -/
def Region.base (r : Region) : ℕ := r.first.toNat / 8

/-- The unit of the last guard. -/
def Region.guard (r : Region) : ℕ := r.last.toNat / 8 - 1

/-- The blocks of a region. The list of the blocks goes from the first guard, which has no block
before it, to the last guard, and the two links of neighbours belong together. -/
structure Laid (m : Memory) (r : Region) (cells : List Cell) : Prop where
  chain : Chain (header m) 0 r.base (⟨1, false⟩ :: cells) r.guard
  noAdjacent : NoAdjacent cells

/-- A unit with a header. -/
def BlockAt (r : Region) (cells : List Cell) (v : ℕ) : Prop :=
  v = r.base ∨ v = r.guard ∨ ∃ d, At (r.base + 1) cells v d

/-- The blocks become others. -/
structure Change (m m' : Memory) (r : Region) (cells cells' : List Cell) : Prop where
  laid : Laid m' r cells'
  touches : Touches (fun v => BlockAt r cells v ∨ BlockAt r cells' v) m m'

section Region

variable (r : Region)

theorem Region.first_eq : r.first = addr r.base := by
  have hmod := r.first_mod
  have hlt := r.first.toNat_lt
  rw [← UInt32.toNat_inj, Region.base, toNat_addr (by omega)]
  omega

theorem Region.last_eq : r.last = addr (r.guard + 1) := by
  have hmod := r.last_mod
  have hlt := r.last.toNat_lt
  have hroom := r.room
  rw [← UInt32.toNat_inj, Region.guard, toNat_addr (by omega)]
  omega

theorem Region.guard_lt : r.guard + 1 < 2 ^ 29 := by
  have hlt := r.last.toNat_lt
  have hroom := r.room
  rw [Region.guard]
  omega

theorem Region.base_add_lt : r.base + 1 < r.guard := by
  have hroom := r.room
  rw [Region.base, Region.guard]
  omega

end Region

section Laid

variable {m m' : Memory} {r : Region} {cells cells' l rs cs : List Cell} {c : Cell}
  {u v n n' p x : ℕ} {P : ℕ → Prop}

theorem Laid.guard_eq (h : Laid m r cells) : r.guard = r.base + 1 + total cells :=
  h.chain.2.2.end_eq

/-- Blocks are between the guards. -/
theorem Laid.at_le (h : Laid m r cells) (hat : At (r.base + 1) cells u c) :
    r.base + 1 ≤ u ∧ u + c.size ≤ r.guard :=
  h.guard_eq ▸ hat.le

/-- The place of a block in the list of the region. -/
theorem Laid.split (h : Laid m r (l ++ rs)) :
    ∃ p, Seg (header m) 0 r.base (⟨1, false⟩ :: l) p (r.base + 1 + total l) ∧
      Chain (header m) p (r.base + 1 + total l) rs r.guard := by
  obtain ⟨p, u, hl, hrs⟩ := chain_append.mp (show Chain (header m) 0 r.base
    ((⟨1, false⟩ :: l) ++ rs) r.guard from h.chain)
  have hend := hl.end_eq
  rw [total, ← Nat.add_assoc] at hend
  change u = r.base + 1 + total l at hend
  rw [hend] at hl hrs
  exact ⟨p, hl, hrs⟩

/-- The blocks up to one stay, and those from there on are others. -/
theorem laid_of_seg (hl : Seg (header m) 0 r.base (⟨1, false⟩ :: l) p v)
    (hcs : Chain (header m') p v cs r.guard) (htouch : Touches P m m') (hP : ∀ x, P x → v ≤ x)
    (hadj : NoAdjacent (l ++ cs)) : Laid m' r (l ++ cs) where
  chain := by
    have hl' : Seg (header m') 0 r.base (⟨1, false⟩ :: l) p v :=
      hl.congr fun x _ hx => htouch.header_eq fun hPx => absurd (hP x hPx) (by omega)
    have hchain := chain_append.mpr ⟨p, v, hl', hcs⟩
    exact hchain
  noAdjacent := hadj

theorem Laid.size_pos (h : Laid m r cells) (hat : At (r.base + 1) cells u c) : 0 < c.size := by
  obtain ⟨l, rs, rfl, -⟩ := hat.exists_append
  obtain ⟨p, -, hchain⟩ := h.split
  exact hchain.1

/-- The header of a block. -/
theorem Laid.header_eq (h : Laid m r cells) (hat : At (r.base + 1) cells u c) :
    ∃ p, header m u = ⟨u + c.size, p, c.free⟩ := by
  obtain ⟨l, rs, rfl, rfl⟩ := hat.exists_append
  obtain ⟨p, -, hchain⟩ := h.split
  exact ⟨p, hchain.2.1⟩

/-- `s_get_block_size` of a block. -/
theorem Laid.sGetBlockSize (h : Laid m r cells) (hat : At (r.base + 1) cells u c) :
    sGetBlockSize m (addr u) = addr c.size := by
  obtain ⟨p, hheader⟩ := h.header_eq hat
  have hle := h.at_le hat
  have hlim := r.guard_lt
  exact sGetBlockSize_addr (by omega) (by rw [hheader]) (by omega) (h.size_pos hat)

theorem addr_succ_sub (u : ℕ) : addr (u + 1) - dynHeaderSize = addr u := by
  rw [Nat.add_comm]
  exact addr_sub

/-- The number of bytes that a program can use. -/
theorem Laid.sGetActualBlockSize (h : Laid m r cells) (hat : At (r.base + 1) cells u c) :
    (sGetActualBlockSize m (addr (u + 1))).toNat = 8 * c.size - 8 := by
  have hpos := h.size_pos hat
  have hle := h.at_le hat
  have hlim := r.guard_lt
  obtain ⟨k, hk⟩ := Nat.exists_eq_add_of_le' hpos
  rw [Salloc.sGetActualBlockSize, addr_succ_sub, h.sGetBlockSize hat, hk, addr_succ_sub,
    toNat_addr (by omega)]
  omega

/-- The start of the rest of a list is a header. -/
theorem Laid.blockAt (h : Laid m r cells) (l cs : List Cell) (hcells : cells = l ++ cs)
    (hv : v = r.base + 1 + total l) : BlockAt r cells v := by
  subst hcells hv
  cases cs with
  | nil => exact .inr (.inl (by rw [h.guard_eq, List.append_nil]))
  | cons c cs => exact .inr (.inr ⟨c, at_append.mpr (.inr (.inl ⟨rfl, rfl⟩))⟩)

theorem Laid.blockAt_le (h : Laid m r cells) (hv : BlockAt r cells v) :
    r.base ≤ v ∧ v ≤ r.guard := by
  have hroom := r.base_add_lt
  rcases hv with rfl | rfl | ⟨d, hat⟩
  · omega
  · omega
  · have hle := h.at_le hat
    omega

/-- Headers do not change if other units do. -/
theorem Laid.of_touches (h : Laid m r cells) (htouch : Touches P m m')
    (hP : ∀ v, P v → ¬ BlockAt r cells v) : Laid m' r cells where
  chain := by
    have hsame : ∀ v, BlockAt r cells v → header m' v = header m v := fun v hv =>
      htouch.header_eq fun hPv => hP v hPv hv
    refine h.chain.congr_at (fun x d hx => ?_) (hsame _ (.inr (.inl rfl)))
    rcases hx with ⟨rfl, -⟩ | hx
    · exact hsame _ (.inl rfl)
    · exact hsame x (.inr (.inr ⟨d, hx⟩))
  noAdjacent := h.noAdjacent

/-- There is no header inside a block. -/
theorem Laid.not_blockAt (h : Laid m r cells) (hat : At (r.base + 1) cells u c) (hlt : u < v)
    (hend : v < u + c.size) : ¬ BlockAt r cells v := by
  have hle := h.at_le hat
  rintro (hbase | hguard | ⟨d, hd⟩)
  · omega
  · omega
  · rcases hat.disjoint hd with ⟨heq, -⟩ | hbefore | hbehind
    · omega
    · omega
    · have hpos := h.size_pos hd
      omega

/-- Nothing outside the region changes. -/
theorem Change.outside (h : Change m m' r cells cells') (hm : Laid m r cells)
    (hx : x / 8 < r.base ∨ r.guard < x / 8) : m' x = m x := by
  by_contra hne
  rcases h.touches x hne with hv | hv
  · have hle := hm.blockAt_le hv
    omega
  · have hle := h.laid.blockAt_le hv
    omega

/-- What a program has in a block that stays, or that gets smaller, does not change. -/
theorem Change.payload (h : Change m m' r cells cells') (hm : Laid m r cells)
    (hat : At (r.base + 1) cells u ⟨n, false⟩) (hat' : At (r.base + 1) cells' u ⟨n', false⟩)
    (hle : n' ≤ n) (hx : 8 * (u + 1) ≤ x) (hlt : x < 8 * (u + n')) : m' x = m x := by
  have hv : u < x / 8 ∧ x / 8 < u + n' := by omega
  by_contra hne
  rcases h.touches x hne with hblock | hblock
  · exact hm.not_blockAt hat hv.1 (show x / 8 < u + n by omega) hblock
  · exact h.laid.not_blockAt hat' hv.1 hv.2 hblock

end Laid

/-! ### Allocating, freeing and shrinking -/

section Functions

variable {m : Memory} {r : Region} {cells : List Cell} {size : UInt32} {u n : ℕ}

/-- The size of a block for a number of bytes that is not too large. -/
theorem sActSize_add (h : size.toNat + 16 ≤ 2 ^ 32) :
    sActSize (size + dynHeaderSize) = addr ((size.toNat + 15) / 8) := by
  have hadd : (size + dynHeaderSize).toNat = size.toNat + 8 := by
    rw [UInt32.toNat_add]
    exact Nat.mod_eq_of_lt (show size.toNat + 8 < 2 ^ 32 by omega)
  have hand : ((size + dynHeaderSize) &&& (dynSizeMult - 1)).toNat = (size.toNat + 8) % 8 := by
    rw [UInt32.toNat_and, hadd]
    exact Nat.and_two_pow_sub_one_eq_mod _ 3
  have hif : (size + dynHeaderSize) &&& (dynSizeMult - 1) ≠ 0 ↔ (size.toNat + 8) % 8 ≠ 0 := by
    rw [← hand, Ne, ← UInt32.toNat_inj]
    rfl
  have h3 : dynSizeMultShift.toNat % 32 = 3 := rfl
  have h1 : UInt32.toNat 1 = 1 := rfl
  rw [sActSize, ← UInt32.toNat_inj, toNat_addr (by omega)]
  split_ifs with hround
  · rw [hif] at hround
    rw [UInt32.toNat_shiftLeft, UInt32.toNat_add, UInt32.toNat_shiftRight, hadd, h3, h1,
      Nat.shiftLeft_eq, Nat.shiftRight_eq_div_pow]
    omega
  · rw [hif, not_not] at hround
    rw [hadd]
    omega

/-- **Freeing.** The block becomes free, one with the free blocks around it. -/
theorem sFreeBlock_eq (h : Laid m r cells) (hat : At (r.base + 1) cells u ⟨n, false⟩) :
    ∃ m' cells', sFreeBlock m (addr (u + 1)) = some m' ∧ Change m m' r cells cells' ∧
      ∀ x k, At (r.base + 1) cells x ⟨k, false⟩ → x ≠ u → At (r.base + 1) cells' x ⟨k, false⟩ := by
  obtain ⟨l, rs, rfl, rfl⟩ := hat.exists_append
  obtain ⟨l₀, xs, rfl, hxs, hl₀⟩ := exists_append_free l
  obtain ⟨ys, r₀, rfl, hys, hr₀⟩ := exists_free_append rs
  obtain ⟨hadjl, hadjr, -⟩ := noAdjacent_append_cons.mp h.noAdjacent
  obtain ⟨q, hleft, hright⟩ := h.split
  obtain ⟨p₀, v, hseg, hxseg⟩ := seg_append.mp
    (show Seg (header m) 0 r.base ((⟨1, false⟩ :: l₀) ++ xs) q _ from hleft)
  obtain ⟨hnext, hfree, hlt⟩ := hseg.last_taken (List.cons_ne_nil _ _) fun c hc => by
    cases l₀ with
    | nil =>
      rw [List.getLast?_singleton, Option.mem_some_iff] at hc
      rw [← hc]
    | cons d l₀ =>
      rw [List.getLast?_cons_cons] at hc
      exact hl₀ c hc
  obtain ⟨q', hrest⟩ : ∃ q', Chain (header m) q'
      (r.base + 1 + total (l₀ ++ xs) + n + total ys) r₀ r.guard := by
    obtain ⟨q', w, hyseg, hr⟩ := chain_append.mp hright.2.2
    rw [hyseg.end_eq] at hr
    exact ⟨q', hr⟩
  have hv : v = r.base + 1 + total l₀ := by
    rw [hseg.end_eq, total, Nat.add_assoc]
  obtain ⟨m', hcompact, hchain, htouch⟩ := sCompactFree_eq hfree hnext hlt hxseg hxs hright hys
    (hrest.free_head hr₀) (Nat.lt_of_succ_lt r.guard_lt)
  have hlaid : Laid m' r (l₀ ++ ⟨total xs + (n + total ys), true⟩ :: r₀) := by
    refine laid_of_seg hseg hchain htouch (fun x hx => ?_) ?_
    · rw [total_append] at hx
      omega
    · exact noAdjacent_append_cons.mpr
        ⟨hadjl.left_of_append, hadjr.right_of_append, fun _ => ⟨hl₀, hr₀⟩⟩
  refine ⟨m', _, ?_, ⟨hlaid, htouch.mono fun x hx => ?_⟩, fun x k hx hne => ?_⟩
  · rw [sFreeBlock, addr_succ_sub]
    exact hcompact
  · rcases hx with rfl | rfl | rfl
    · exact .inl (h.blockAt (l₀ ++ xs) _ rfl rfl)
    · exact .inr (hlaid.blockAt l₀ _ rfl hv)
    · refine .inl (h.blockAt ((l₀ ++ xs) ++ ⟨n, false⟩ :: ys) r₀ (by simp) ?_)
      have hcons : total (⟨n, false⟩ :: ys) = n + total ys := rfl
      rw [total_append (l := l₀ ++ xs), hcons]
      omega
  · exact hx.merge hxs hys rfl hne

/-- **Shrinking.** The block becomes smaller, if what is left over is large enough. -/
theorem sShrinkBlock_eq (h : Laid m r cells) (hat : At (r.base + 1) cells u ⟨n, false⟩)
    (hlt : size.toNat + 8 < 8 * n) :
    ∃ m' cells' n', sShrinkBlock m (addr (u + 1)) size = some m' ∧ Change m m' r cells cells' ∧
      At (r.base + 1) cells' u ⟨n', false⟩ ∧ size.toNat + 8 ≤ 8 * n' ∧ n' ≤ n ∧
      ∀ x k, At (r.base + 1) cells x ⟨k, false⟩ → x ≠ u → At (r.base + 1) cells' x ⟨k, false⟩ := by
  have hle := h.at_le hat
  change _ ∧ u + n ≤ r.guard at hle
  have hlim := r.guard_lt
  have hsize : sGetBlockSize m (addr u) = addr n := h.sGetBlockSize hat
  have hact := sActSize_add (show size.toNat + 16 ≤ 2 ^ 32 by omega)
  set s := (size.toNat + 15) / 8 with hs
  have hsn : s ≤ n := by omega
  obtain ⟨t, rfl⟩ := Nat.exists_eq_add_of_le hsn
  have hsmall : addr (s + t) ≤ addr s ∨ addr (s + t) - addr s < dynMinSplitSize ↔ t < 2 := by
    have hdiff : addr (s + t) - addr s = addr t := addr_sub
    have hmin : dynMinSplitSize = addr 2 := rfl
    rw [addr_le (by omega) (by omega), hdiff, hmin, addr_lt (by omega) (by decide)]
    omega
  rw [sShrinkBlock, addr_succ_sub, hact, hsize]
  by_cases hif : t < 2
  · exact ⟨m, cells, s + t, if_pos (hsmall.mpr hif), ⟨h, Touches.refl _ _⟩, hat, by omega,
      Nat.le_refl _, fun x k hx _ => hx⟩
  · rw [if_neg fun hle => hif (hsmall.mp hle)]
    obtain ⟨l, rs, rfl, rfl⟩ := hat.exists_append
    obtain ⟨ys, r₀, rfl, hys, hr₀⟩ := exists_free_append rs
    obtain ⟨hadjl, hadjr, -⟩ := noAdjacent_append_cons.mp h.noAdjacent
    obtain ⟨q, hleft, hright⟩ := h.split
    obtain ⟨q', hrest⟩ : ∃ q', Chain (header m) q'
        (r.base + 1 + total l + (s + t) + total ys) r₀ r.guard := by
      obtain ⟨q', w, hyseg, hr⟩ := chain_append.mp hright.2.2
      rw [hyseg.end_eq] at hr
      exact ⟨q', hr⟩
    obtain ⟨m', hsplit, hchain, htouch⟩ := splitBlock_eq hright (by omega) (by omega) hys
      (hrest.free_head hr₀) (by omega)
    have hadj : NoAdjacent (l ++ ⟨s, false⟩ :: ⟨t + total ys, true⟩ :: r₀) :=
      noAdjacent_append_cons.mpr ⟨hadjl, noAdjacent_append_cons (l := []).mpr
        ⟨.nil, hadjr.right_of_append, fun _ => ⟨(fun _ h => nomatch h), hr₀⟩⟩, nofun⟩
    have hlaid := laid_of_seg hleft hchain htouch (fun x hx => by omega) hadj
    refine ⟨m', _, s, hsplit, ⟨hlaid, htouch.mono fun x hx => ?_⟩, ?_, by omega, by omega,
      fun x k hx hne => ?_⟩
    · have hcons : total (⟨s + t, false⟩ :: ys) = s + t + total ys := rfl
      have hone : ∀ {k f}, total [⟨k, f⟩] = k := Nat.add_zero _
      rcases hx with rfl | rfl | rfl | rfl
      · exact .inl (h.blockAt l _ rfl rfl)
      · exact .inr (hlaid.blockAt (l ++ [⟨s, false⟩]) _ (List.append_cons _ _ _)
          (by rw [total_append, hone]; omega))
      · exact .inl (h.blockAt (l ++ [⟨s + t, false⟩]) _ (List.append_cons _ _ _)
          (by rw [total_append, hone]; omega))
      · exact .inl (h.blockAt (l ++ ⟨s + t, false⟩ :: ys) r₀ (by simp)
          (by rw [total_append, hcons]; omega))
    · exact at_append.mpr (.inr (.inl ⟨rfl, rfl⟩))
    · have hx' : At (r.base + 1) ((l ++ []) ++ ⟨s + t, false⟩ :: (ys ++ r₀)) x ⟨k, false⟩ := by
        rwa [List.append_nil]
      have hmerge :=
          hx'.merge (f := false) (List.forall_mem_nil _) hys rfl (by rwa [List.append_nil])
      refine hmerge.replace [⟨s, false⟩, ⟨t + total ys, true⟩] hne ?_
      simp only [total]
      omega

/-- A free block that is found is taken, and divided if what is left over is large enough. -/
theorem exists_take {s : ℕ} (h : Laid m r cells) (hat : At (r.base + 1) cells u ⟨n, true⟩)
    (hs : 0 < s) (hsn : s ≤ n) :
    ∃ m' cells' n',
      (if addr s < addr n ∧ dynMinSplitSize ≤ addr n - addr s then
        splitBlock (sMarkBlockTaken m (addr u)) (addr u) (addr s)
      else some (sMarkBlockTaken m (addr u))) = some m' ∧
      Change m m' r cells cells' ∧ At (r.base + 1) cells' u ⟨n', false⟩ ∧ s ≤ n' ∧
      ∀ x k, At (r.base + 1) cells x ⟨k, false⟩ → At (r.base + 1) cells' x ⟨k, false⟩ := by
  have hle := h.at_le hat
  change _ ∧ u + n ≤ r.guard at hle
  have hlim := r.guard_lt
  have hulim : u < 2 ^ 29 := by omega
  obtain ⟨t, rfl⟩ := Nat.exists_eq_add_of_le hsn
  have hlarge : addr s < addr (s + t) ∧ dynMinSplitSize ≤ addr (s + t) - addr s ↔ 2 ≤ t := by
    have hdiff : addr (s + t) - addr s = addr t := addr_sub
    have hmin : dynMinSplitSize = addr 2 := rfl
    rw [addr_lt (by omega) (by omega), hdiff, hmin, addr_le (by decide) (by omega)]
    omega
  have hkeep : ∀ {x k}, At (r.base + 1) cells x ⟨k, false⟩ → x ≠ u := by
    rintro x k hx rfl
    rcases hat.disjoint hx with ⟨-, heq⟩ | hlt | hlt
    · cases heq
    · have hpos := h.size_pos hat
      omega
    · have hpos := h.size_pos hx
      omega
  obtain ⟨l, rs, rfl, rfl⟩ := hat.exists_append
  obtain ⟨hadjl, hadjr, htaken⟩ := noAdjacent_append_cons.mp h.noAdjacent
  obtain ⟨q, hleft, hpos, hcell, hrest⟩ := h.split
  change 0 < s + t at hpos
  set u := r.base + 1 + total l with hu
  set m₁ := sMarkBlockTaken m (addr u) with hm₁
  have htouch := touches_sMarkBlockTaken (m := m) hulim
  have hother : ∀ x, x ≠ u → header m₁ x = header m x := fun x hx => htouch.header_eq hx
  have hchain₁ : Chain (header m₁) q u (⟨s + t, false⟩ :: rs) r.guard := by
    refine ⟨hpos, ?_, Chain.congr hrest fun x hx _ => hother x ?_⟩
    · rw [hm₁, header_sMarkBlockTaken hulim, hcell]
    · change u + (s + t) ≤ x at hx
      omega
  have hhead : (header m₁ (u + (s + t))).free = false := by
    rw [hother _ (by omega)]
    exact Chain.free_head hrest (htaken rfl).2
  by_cases hif : 2 ≤ t
  · rw [if_pos (hlarge.mpr hif)]
    obtain ⟨m', hsplit, hchain, htouch'⟩ := splitBlock_eq
      (show Chain (header m₁) q u (⟨s + t, false⟩ :: ([] ++ rs)) r.guard from hchain₁) hs
      (by omega) (List.forall_mem_nil _) hhead (by omega)
    have hadj : NoAdjacent (l ++ ⟨s, false⟩ :: ⟨t + total [], true⟩ :: rs) :=
      noAdjacent_append_cons.mpr ⟨hadjl, noAdjacent_append_cons (l := []).mpr
        ⟨.nil, hadjr, fun _ => ⟨by rintro _ ⟨⟩, (htaken rfl).2⟩⟩, by rintro ⟨⟩⟩
    have htouches : Touches (fun x => x = u ∨ x = u + s ∨ x = u + (s + t)) m m' :=
      (htouch.mono fun x hx => .inl hx).trans (htouch'.mono fun x hx => by
        simp only [total, Nat.add_zero, or_self] at hx
        exact hx)
    have hlaid := laid_of_seg hleft hchain htouches (fun x hx => by omega) hadj
    refine ⟨m', _, s, hsplit, ⟨hlaid, htouches.mono fun x hx => ?_⟩, ?_, Nat.le_refl _,
      fun x k hx => ?_⟩
    · have hone : ∀ {k f}, total [⟨k, f⟩] = k := Nat.add_zero _
      rcases hx with rfl | rfl | rfl
      · exact .inl (h.blockAt l _ rfl rfl)
      · exact .inr (hlaid.blockAt (l ++ [⟨s, false⟩]) _ (List.append_cons _ _ _)
          (by rw [total_append, hone]; omega))
      · exact .inl (h.blockAt (l ++ [⟨s + t, true⟩]) _ (List.append_cons _ _ _)
          (by rw [total_append, hone]; omega))
    · exact at_append.mpr (.inr (.inl ⟨rfl, rfl⟩))
    · refine At.replace hx [⟨s, false⟩, ⟨t + total [], true⟩] (hkeep hx) ?_
      simp only [total, Nat.add_zero]
  · rw [if_neg fun hlt => hif (hlarge.mp hlt)]
    have hlaid := laid_of_seg hleft hchain₁ htouch (fun x hx => by omega)
      (noAdjacent_append_cons.mpr ⟨hadjl, hadjr, by rintro ⟨⟩⟩)
    refine ⟨m₁, _, s + t, rfl, ⟨hlaid, htouch.mono fun x hx => ?_⟩, ?_, by omega, fun x k hx => ?_⟩
    · exact .inl (h.blockAt l _ rfl hx)
    · exact at_append.mpr (.inr (.inl ⟨rfl, rfl⟩))
    · exact At.replace hx [⟨s + t, false⟩] (hkeep hx) (Nat.add_zero _)

/-- **Allocating.** A block that is returned was free, and has room for what was asked for. -/
theorem sGetFreeBlock_eq (h : Laid m r cells) (hsize : size.toNat + 16 ≤ 2 ^ 32) :
    ∃ ptr m', sGetFreeBlock m size r.first = some (ptr, m') ∧ (ptr = 0 ∧ m' = m ∨
      size ≠ 0 ∧ ∃ u n cells', ptr = addr (u + 1) ∧ Change m m' r cells cells' ∧
        At (r.base + 1) cells' u ⟨n, false⟩ ∧ size.toNat + 8 ≤ 8 * n ∧
        (∃ k, At (r.base + 1) cells u ⟨k, true⟩) ∧
        ∀ x k, At (r.base + 1) cells x ⟨k, false⟩ → At (r.base + 1) cells' x ⟨k, false⟩) := by
  have hlim := r.guard_lt
  have hbase := r.base_add_lt
  rw [sGetFreeBlock]
  by_cases hzero : size = 0
  · exact ⟨0, m, if_pos hzero, .inl ⟨rfl, rfl⟩⟩
  · rw [if_neg hzero]
    have hpos : 0 < size.toNat := Nat.pos_of_ne_zero fun hn => hzero (UInt32.toNat_inj.mp hn)
    obtain ⟨-, hguard, hchain⟩ := h.chain
    change header m r.base = ⟨r.base + 1, 0, false⟩ at hguard
    change Chain (header m) r.base (r.base + 1 + total []) cells r.guard at hchain
    have hstart : sGetNextBlock m r.first = addr (r.base + 1 + total []) := by
      rw [r.first_eq, sGetNextBlock_addr (by omega), hguard]
      rfl
    have hlen := Chain.length_le hchain
    have hend := h.guard_eq
    have hact := sActSize_add hsize
    set s := (size.toNat + 15) / 8 with hs
    obtain ⟨pblock, minsize, hfit, hfound⟩ := bestFit_eq hchain (Nat.succ_pos _)
      (show r.guard < 2 ^ 29 by omega)
        (show cells.length + 2 ≤ blockLimit by rw [blockLimit]; omega)
      (show Found _ [] (addr s) 0 0xFFFFFFFF from .inl rfl)
    simp only [Option.bind_eq_bind, hact, hstart, hfit, Option.bind_some]
    rcases hfound with rfl | ⟨u, n, hat, rfl, rfl, hle⟩
    · exact ⟨0, m, rfl, .inl ⟨rfl, rfl⟩⟩
    · have hulim := h.at_le hat
      change r.base + 1 ≤ u ∧ u + n ≤ r.guard at hulim
      rw [addr_le (by omega) (by omega)] at hle
      have hne : addr u ≠ 0 := fun hu => by
        rw [addr_eq_zero (by omega)] at hu
        omega
      obtain ⟨m', cells', n', htake, hchange, hat', hsn, hkeep⟩ :=
        exists_take h hat (show 0 < s by omega) hle
      refine ⟨addr (u + 1), m', ?_,
        .inr ⟨hzero, u, n', cells', rfl, hchange, hat', by omega, ⟨n, hat⟩, hkeep⟩⟩
      have hptr : addr u + dynHeaderSize = addr (u + 1) := addr_add (v := 1)
      rw [if_neg hne, hptr]
      split_ifs at htake with hif
      · rw [if_pos hif, htake]
        rfl
      · rw [if_neg hif, Option.some.inj htake]

/-- **The start.** A region has one free block. -/
theorem laid_initRegion (m : Memory) (r : Region) :
    Laid (initRegion m r) r [⟨r.guard - (r.base + 1), true⟩] ∧
      Touches (fun v => r.base ≤ v ∧ v ≤ r.guard) m (initRegion m r) := by
  have hlim := r.guard_lt
  have hroom := r.base_add_lt
  have hblim : r.base < 2 ^ 29 := by omega
  have hclim : r.base + 1 < 2 ^ 29 := by omega
  have hglim : r.guard < 2 ^ 29 := by omega
  have hcrt : r.first + dynSizeMult = addr (r.base + 1) := by
    rw [r.first_eq]
    exact addr_add (v := 1)
  have hg2 : r.first + (r.last - r.first) - dynSizeMult = addr r.guard := by
    have hlast : r.first + (r.last - r.first) = r.last := by
      rw [UInt32.add_comm]
      exact UInt32.sub_add_cancel _ _
    rw [hlast, r.last_eq]
    exact addr_succ_sub _
  rw [initRegion, hcrt, hg2, r.first_eq]
  set m₁ := sCreateNewBlock m (addr r.base) (addr (r.base + 1)) 0 with hm₁
  set m₂ := sCreateNewBlock m₁ (addr (r.base + 1)) (addr r.guard) (addr r.base) with hm₂
  set m₃ := sCreateNewBlock m₂ (addr r.guard) 0 (addr (r.base + 1)) with hm₃
  set m₄ := sMarkBlockTaken m₃ (addr r.base) with hm₄
  set m₅ := sMarkBlockTaken m₄ (addr r.guard) with hm₅
  set m₆ := sMarkBlockFree m₅ (addr (r.base + 1)) with hm₆
  have ht₁ := touches_sCreateNewBlock (m := m) (addr (r.base + 1)) 0 hblim
  have ht₂ := touches_sCreateNewBlock (m := m₁) (addr r.guard) (addr r.base) hclim
  have ht₃ := touches_sCreateNewBlock (m := m₂) 0 (addr (r.base + 1)) hglim
  have ht₄ := touches_sMarkBlockTaken (m := m₃) hblim
  have ht₅ := touches_sMarkBlockTaken (m := m₄) hglim
  have ht₆ := touches_sMarkBlockFree (m := m₅) hclim
  have hbase : header m₆ r.base = ⟨r.base + 1, 0, false⟩ := by
    rw [hm₆, ht₆.header_eq (by omega), hm₅, ht₅.header_eq (by omega), hm₄,
      header_sMarkBlockTaken hblim, hm₃, ht₃.header_eq (by omega), hm₂, ht₂.header_eq (by omega),
      hm₁]
    exact congrArg (fun y => { y with free := false })
      (header_sCreateNewBlock (w := 0) hblim hclim (by decide))
  have hcrt : header m₆ (r.base + 1) = ⟨r.guard, r.base, true⟩ := by
    rw [hm₆, header_sMarkBlockFree hclim, hm₅, ht₅.header_eq (by omega), hm₄,
      ht₄.header_eq (by omega), hm₃, ht₃.header_eq (by omega), hm₂,
      header_sCreateNewBlock hclim hglim hblim]
  have hguard : header m₆ r.guard = ⟨0, r.base + 1, false⟩ := by
    rw [hm₆, ht₆.header_eq (by omega), hm₅, header_sMarkBlockTaken hglim, hm₄,
      ht₄.header_eq (by omega), hm₃]
    exact congrArg (fun y => { y with free := false })
      (header_sCreateNewBlock (v := 0) hglim (by decide) hclim)
  have hend : r.base + 1 + (r.guard - (r.base + 1)) = r.guard := by omega
  refine ⟨⟨⟨Nat.one_pos, hbase, ?_, ?_, ?_, ?_⟩, .singleton _⟩, ?_⟩
  · change 0 < r.guard - (r.base + 1)
    omega
  · rw [hcrt, Header.mk.injEq]
    exact ⟨hend.symm, rfl, rfl⟩
  · exact hend
  · exact hguard
  · have hin : ∀ {a}, r.base ≤ a → a ≤ r.guard → ∀ v, v = a → r.base ≤ v ∧ v ≤ r.guard := by
      rintro a h₁ h₂ v rfl
      exact ⟨h₁, h₂⟩
    exact (((((ht₁.mono (hin (by omega) (by omega))).trans (ht₂.mono (hin (by omega) (by omega)))).trans
      (ht₃.mono (hin (by omega) (by omega)))).trans (ht₄.mono (hin (by omega) (by omega)))).trans
      (ht₅.mono (hin (by omega) (by omega)))).trans (ht₆.mono (hin (by omega) (by omega)))

end Functions

end ELuaBrain.Salloc
