import ELuaBrain.Alloc.Headers

/-!
# The lists of the simple allocator

What the functions of the allocator do with the list of blocks of one region. Neither the length of
the list nor the number of free blocks that are made one is bounded by more than the memory.

## Main results

* `sCompactFree_eq`, `splitBlock_eq` : making one block of free blocks, and dividing a block.
* `bestFit_eq` : what is found by the search for a free block.
-/

namespace ELuaBrain.Salloc

open Blocks

variable {m : Memory} {l r xs ys : List Cell} {p p₀ q a b e u v w n s t k : ℕ}

/-! ### Free blocks around a block -/

/-- Going back over free blocks. -/
theorem skipFreeBack_seg (h : Seg (header m) p a xs q b) (hfree : ∀ c ∈ xs, c.free = true)
    (hb : b < 2 ^ 29) :
    skipFreeBack m (k + xs.length) (addr q) = skipFreeBack m k (addr p) := by
  induction xs generalizing p a k with
  | nil =>
    obtain ⟨rfl, -⟩ := h
    rfl
  | cons c xs ih =>
    obtain ⟨hpos, hc, h⟩ := h
    have hend := h.end_eq
    have ha : a < 2 ^ 29 := by omega
    rw [List.length_cons, Nat.add_comm xs.length, ← Nat.add_assoc,
      ih h fun d hd => hfree d (List.mem_cons_of_mem _ hd)]
    rw [skipFreeBack, sIsBlockFree_addr ha, hc, hfree c List.mem_cons_self, if_pos rfl,
      sGetPrevBlock_addr ha, hc]

/-- Going on over free blocks. -/
theorem skipFree_seg (h : Seg (header m) p a xs q b) (hfree : ∀ c ∈ xs, c.free = true)
    (hb : b < 2 ^ 29) :
    skipFree m (k + xs.length) (addr a) = skipFree m k (addr b) := by
  induction xs generalizing p a with
  | nil =>
    obtain ⟨-, rfl⟩ := h
    rfl
  | cons c xs ih =>
    obtain ⟨hpos, hc, h⟩ := h
    have hend := h.end_eq
    have ha : a < 2 ^ 29 := by omega
    rw [List.length_cons, ← Nat.add_assoc, skipFree, sIsBlockFree_addr ha, hc,
      hfree c List.mem_cons_self, if_pos rfl, sGetNextBlock_addr ha, hc]
    exact ih h fun d hd => hfree d (List.mem_cons_of_mem _ hd)

/-- The loops end at the taken blocks around the free ones. -/
theorem skipFreeBack_eq (h : Seg (header m) p a xs q b) (hfree : ∀ c ∈ xs, c.free = true)
    (hpa : p < a) (hb : b < 2 ^ 29) (hp : (header m p).free = false) :
    skipFreeBack m blockLimit (addr q) = some (addr p) := by
  have hend := h.end_eq
  have hlen := h.length_le
  have hfuel : blockLimit = blockLimit - 1 - xs.length + 1 + xs.length := by
    rw [blockLimit]
    omega
  rw [hfuel, skipFreeBack_seg h hfree hb, skipFreeBack, sIsBlockFree_addr (by omega), hp]
  rfl

theorem skipFree_eq (h : Seg (header m) p a xs q b) (hfree : ∀ c ∈ xs, c.free = true)
    (hb : b < 2 ^ 29) (hstop : (header m b).free = false) :
    skipFree m blockLimit (addr a) = some (addr b) := by
  have hend := h.end_eq
  have hlen := h.length_le
  have hfuel : blockLimit = blockLimit - 1 - xs.length + 1 + xs.length := by
    rw [blockLimit]
    omega
  rw [hfuel, skipFree_seg h hfree hb, skipFree, sIsBlockFree_addr hb, hstop]
  rfl

/-- **Making one block.** The block at `u` becomes free, and one with the free blocks before and
behind it. -/
theorem sCompactFree_eq {f : Bool} (hp : (header m p₀).free = false)
    (hnext : (header m p₀).next = v) (hlt : p₀ < v) (hxs : Seg (header m) p₀ v xs q u)
    (hxsfree : ∀ c ∈ xs, c.free = true) (hu : Chain (header m) q u (⟨n, f⟩ :: (ys ++ r)) e)
    (hysfree : ∀ c ∈ ys, c.free = true)
    (hw : (header m (u + n + total ys)).free = false) (he : e < 2 ^ 29) :
    ∃ m', sCompactFree m (addr u) = some m' ∧
      Chain (header m') p₀ v (⟨total xs + (n + total ys), true⟩ :: r) e ∧
      Touches (fun x => x = u ∨ x = v ∨ x = u + n + total ys) m m' := by
  obtain ⟨hpos, hcell, hrest⟩ := hu
  change 0 < n at hpos
  change Chain (header m) u (u + n) (ys ++ r) e at hrest
  obtain ⟨q', w, hys, hr⟩ := chain_append.mp hrest
  have hwe := hr.end_eq
  obtain rfl := hys.end_eq
  have hue := hxs.end_eq
  have hulim : u < 2 ^ 29 := by omega
  have hplim : p₀ < 2 ^ 29 := by omega
  set w := u + n + total ys with hwdef
  have hwlim : w < 2 ^ 29 := by omega
  -- the block is marked as free, and nothing else changes
  set m₁ := sMarkBlockFree m (addr u) with hm₁
  have htouch := touches_sMarkBlockFree (m := m) hulim
  have hother : ∀ x, x ≠ u → header m₁ x = header m x := fun x hx => htouch.header_eq hx
  have hcell₁ : header m₁ u = ⟨u + n, q, true⟩ := by
    rw [hm₁, header_sMarkBlockFree hulim, hcell]
  have hxs₁ : Seg (header m₁) p₀ v xs q u := hxs.congr fun x _ hx => hother x (by omega)
  have hys₁ : Seg (header m₁) u (u + n) ys q' w := hys.congr fun x hx _ => hother x (by omega)
  have hr₁ : Chain (header m₁) q' w r e := hr.congr fun x hx _ => hother x (by omega)
  have hback : Seg (header m₁) p₀ v (xs ++ [⟨n, true⟩]) u (u + n) :=
    seg_append.mpr ⟨q, u, hxs₁, hpos, hcell₁, rfl, rfl⟩
  have hon : Seg (header m₁) q u (⟨n, true⟩ :: ys) q' w := ⟨hpos, hcell₁, hys₁⟩
  have hms : Seg (header m₁) p₀ v (xs ++ ⟨n, true⟩ :: ys) q' w :=
    seg_append.mpr ⟨q, u, hxs₁, hon⟩
  have hmsfree : ∀ c ∈ xs ++ ⟨n, true⟩ :: ys, c.free = true := by
    intro c hc
    rcases List.mem_append.mp hc with hc | hc
    · exact hxsfree c hc
    · rcases List.mem_cons.mp hc with rfl | hc
      · rfl
      · exact hysfree c hc
  have htotal : total (xs ++ ⟨n, true⟩ :: ys) = total xs + (n + total ys) := by
    rw [total_append, total]
  -- the two loops
  have htemp1 : skipFreeBack m₁ blockLimit (addr u) = some (addr p₀) := by
    refine skipFreeBack_eq hback (fun c hc => ?_) hlt (by omega) ?_
    · rcases List.mem_append.mp hc with hc | hc
      · exact hxsfree c hc
      · rw [List.mem_singleton.mp hc]
    · rw [hother p₀ (by omega), hp]
  have htemp2 : skipFree m₁ blockLimit (addr u) = some (addr w) :=
    skipFree_eq hon (fun c hc => hmsfree c (List.mem_append_right _ hc)) hwlim
      (by rw [hother w (by omega), hw])
  have hv : sGetNextBlock m₁ (addr p₀) = addr v := by
    rw [sGetNextBlock_addr hplim, hother p₀ (by omega), hnext]
  have hvlim : v < 2 ^ 29 := by omega
  obtain ⟨x, hhead⟩ := hms.head_free (by simp) hmsfree
  rw [sCompactFree]
  simp only [Option.bind_eq_bind, ← hm₁, htemp1, htemp2, Option.bind_some, hv]
  rw [← htotal]
  by_cases hif : addr v ≠ addr u ∨ sGetPrevBlock m₁ (addr w) ≠ addr u
  · rw [if_pos hif]
    have hvw : v ≠ w := by omega
    have htouch₂ := touches_sSetNextBlock (m := m₁) (addr w) hvlim
    have htouch₃ := touches_sSetPrevBlock (m := sSetNextBlock m₁ (addr v) (addr w)) (addr v) hwlim
    refine ⟨_, rfl, Chain.merge hms hr₁ (by omega) ?_ ?_ fun x hx => ?_, ?_⟩
    · rw [htouch₃.header_eq hvw, header_sSetNextBlock hvlim hwlim, hhead]
    · rw [header_sSetPrevBlock hwlim hvlim, htouch₂.header_eq hvw.symm]
    · rw [htouch₃.header_eq (by omega), htouch₂.header_eq (by omega)]
    · refine ((htouch.mono fun x hx => .inl hx).trans
        (htouch₂.mono fun x hx => .inr (.inl hx))).trans (htouch₃.mono fun x hx => .inr (.inr hx))
  · rw [if_neg hif]
    obtain ⟨hvu, hprev⟩ := not_or.mp hif
    have hvu := (addr_inj hvlim hulim).mp (not_not.mp hvu)
    -- there are no free blocks around this one
    have hq' : q' = u := by
      have hprev := not_not.mp hprev
      rw [sGetPrevBlock_addr hwlim, hr₁.head] at hprev
      rcases hys₁.last with ⟨-, hq⟩ | ⟨hle, hlt⟩
      · exact hq
      · rw [addr_inj (by omega) hulim] at hprev
        exact hprev
    have hysnil : ys = [] := by
      rcases hys₁.last with ⟨hnil, -⟩ | ⟨hle, -⟩
      · exact hnil
      · omega
    refine ⟨m₁, rfl, Chain.merge hms hr₁ (by omega) ?_ ?_ fun x _ => rfl,
      htouch.mono fun x hx => .inl hx⟩
    · have hx : x = w := by
        have hcell := hcell₁
        rw [← hvu, hhead] at hcell
        rw [hwdef, hysnil, total, Nat.add_zero]
        exact hvu ▸ congrArg Header.next hcell
      rw [hhead, hx]
    · rw [hvu]
      exact (congrArg (fun y => { header m₁ w with prev := y }) (hr₁.head.trans hq')).symm ▸ rfl

/-! ### Dividing a block -/

/-- **Dividing a block.** The end of the block at `a` becomes free, and one with the free blocks
behind it. -/
theorem splitBlock_eq (ha : Chain (header m) p a (⟨s + t, false⟩ :: (ys ++ r)) e) (hs : 0 < s)
    (ht : 0 < t) (hysfree : ∀ c ∈ ys, c.free = true)
    (hw : (header m (a + (s + t) + total ys)).free = false) (he : e < 2 ^ 29) :
    ∃ m', splitBlock m (addr a) (addr s) = some m' ∧
      Chain (header m') p a (⟨s, false⟩ :: ⟨t + total ys, true⟩ :: r) e ∧
      Touches (fun x => x = a ∨ x = a + s ∨ x = a + (s + t) ∨ x = a + (s + t) + total ys) m m' := by
  have hend := ha.end_eq
  rw [total, total_append] at hend
  change e = a + (s + t + _) at hend
  have halim : a < 2 ^ 29 := by omega
  have htlim : a + s < 2 ^ 29 := by omega
  have hnlim : a + (s + t) < 2 ^ 29 := by omega
  have hcell : header m a = ⟨a + (s + t), p, false⟩ := ha.2.1
  set m₁ := sSetPrevBlock m (addr (a + s)) (addr a) with hm₁
  set m₂ := sSetNextBlock m₁ (addr (a + s)) (addr (a + (s + t))) with hm₂
  set m₃ := sSetPrevBlock m₂ (addr (a + (s + t))) (addr (a + s)) with hm₃
  set m₄ := sSetNextBlock m₃ (addr a) (addr (a + s)) with hm₄
  have htouch₁ := touches_sSetPrevBlock (m := m) (addr a) htlim
  have htouch₂ := touches_sSetNextBlock (m := m₁) (addr (a + (s + t))) htlim
  have htouch₃ := touches_sSetPrevBlock (m := m₂) (addr (a + s)) hnlim
  have htouch₄ := touches_sSetNextBlock (m := m₃) (addr (a + s)) halim
  have hother : ∀ x, x ≠ a + s → header m₂ x = header m x := fun x hx => by
    rw [hm₂, htouch₂.header_eq hx, hm₁, htouch₁.header_eq hx]
  -- the end keeps the bit that was there before
  have h₂ : header m₂ (a + s) = ⟨a + (s + t), a, (header m (a + s)).free⟩ := by
    rw [hm₂, header_sSetNextBlock htlim hnlim, hm₁, header_sSetPrevBlock htlim halim]
  have hchain : Chain (header m₄) p a
      (⟨s, false⟩ :: ⟨t, (header m (a + s)).free⟩ :: (ys ++ r)) e := by
    refine ha.split hs ht ?_ ?_ ?_ fun x hx => ?_
    · rw [hm₄, header_sSetNextBlock halim htlim, hm₃, htouch₃.header_eq (by omega),
        hother a (by omega), hcell]
    · rw [hm₄, htouch₄.header_eq (by omega), hm₃, htouch₃.header_eq (by omega), h₂]
    · rw [hm₄, htouch₄.header_eq (by omega), hm₃, header_sSetPrevBlock hnlim htlim,
        hother _ (by omega)]
    · rw [hm₄, htouch₄.header_eq (by omega), hm₃, htouch₃.header_eq (by omega),
        hother x (by omega)]
  obtain ⟨-, hfirst, hrest⟩ := hchain
  change header m₄ a = ⟨a + s, p, false⟩ at hfirst
  have hnext : (header m₄ a).next = a + s := congrArg Header.next hfirst
  have hnil : Seg (header m₄) a (a + s) [] a (a + s) := ⟨rfl, rfl⟩
  have hwfree : (header m₄ (a + s + t + total ys)).free = false := by
    rw [Nat.add_assoc a s t, hm₄, htouch₄.header_eq (by omega), hm₃]
    by_cases hx : a + (s + t) + total ys = a + (s + t)
    · rw [hx, header_sSetPrevBlock hnlim htlim, hother _ (by omega), ← hx, hw]
    · rw [htouch₃.header_eq hx, hother _ (by omega), hw]
  obtain ⟨m', hcompact, hcells, htouch⟩ := sCompactFree_eq (congrArg Header.free hfirst)
    hnext (Nat.lt_add_of_pos_right hs) hnil (by rintro _ ⟨⟩) hrest hysfree hwfree he
  rw [total, Nat.zero_add] at hcells
  refine ⟨m', ?_, ⟨hs, ?_, hcells⟩, ?_⟩
  · rw [splitBlock, sGetNextBlock_addr halim, hcell]
    dsimp only
    rw [addr_add]
    exact hcompact
  · rw [htouch.header_eq (by omega), hfirst]
  · have hpre : Touches (fun x => x = a ∨ x = a + s ∨ x = a + (s + t)) m m₄ :=
      (((htouch₁.mono fun x hx => .inr (.inl hx)).trans
        (htouch₂.mono fun x hx => .inr (.inl hx))).trans
        (htouch₃.mono fun x hx => .inr (.inr hx))).trans (htouch₄.mono fun x hx => .inl hx)
    refine (hpre.mono fun x hx => ?_).trans (htouch.mono fun x hx => ?_)
    · exact hx.imp_right fun hx => hx.imp_right .inl
    · rw [Nat.add_assoc a s t] at hx
      omega

/-! ### Looking for a free block -/

/-- What the search has found among some blocks: nothing, or a free block that is large enough. -/
def Found (a : ℕ) (cs : List Cell) (size pblock minsize : UInt32) : Prop :=
  pblock = 0 ∨ ∃ u n, At a cs u ⟨n, true⟩ ∧ pblock = addr u ∧ minsize = addr n ∧ size ≤ minsize

/-- **The search.** It goes over all blocks of the list. -/
theorem bestFit_eq {size pblock minsize : UInt32} (h : Chain (header m) p (a + total l) r e)
    (hpos : 0 < a) (he : e < 2 ^ 29) (hk : r.length + 2 ≤ k)
    (hfound : Found a l size pblock minsize) :
    ∃ pblock' minsize', bestFit m size k (addr (a + total l)) pblock minsize =
        some (pblock', minsize') ∧ Found a (l ++ r) size pblock' minsize' := by
  induction r generalizing p l k pblock minsize with
  | nil =>
    obtain ⟨hend, hguard⟩ := h
    rw [hend]
    obtain ⟨k, rfl⟩ := Nat.exists_eq_add_of_le' hk
    have hne : addr e ≠ 0 := fun hzero => by
      rw [addr_eq_zero he] at hzero
      omega
    have hnext : sGetNextBlock m (addr e) = 0 := by
      rw [sGetNextBlock_addr he, hguard]
      rfl
    refine ⟨pblock, minsize, ?_, by rwa [List.append_nil]⟩
    change bestFit m size (k + 1 + 1) _ _ _ = _
    rw [bestFit, if_pos hne, sIsBlockFree_addr he, hguard, hnext, bestFit]
    simp
  | cons c r ih =>
    obtain ⟨hsize, hcell, hrest⟩ := h
    have hend := hrest.end_eq
    obtain ⟨k, rfl⟩ := Nat.exists_eq_add_of_le' (show 1 ≤ k by omega)
    have hlim : a + total l < 2 ^ 29 := by omega
    have hne : addr (a + total l) ≠ 0 := fun hzero => by
      rw [addr_eq_zero hlim] at hzero
      omega
    have hbsize : sGetBlockSize m (addr (a + total l)) = addr c.size :=
      sGetBlockSize_addr hlim (by rw [hcell]) (by omega) hsize
    have htotal : a + total l + c.size = a + total (l ++ [c]) := by
      rw [total_append, total, total, Nat.add_zero, Nat.add_assoc]
    have hnext : sGetNextBlock m (addr (a + total l)) = addr (a + total (l ++ [c])) := by
      rw [sGetNextBlock_addr hlim, hcell, htotal]
    rw [htotal] at hrest
    have hk' : r.length + 2 ≤ k := by
      rw [List.length_cons] at hk
      omega
    have hcons : l ++ c :: r = l ++ [c] ++ r := by
      rw [List.append_assoc, List.singleton_append]
    rw [bestFit, if_pos hne, hbsize, hnext, sIsBlockFree_addr hlim, hcell, hcons]
    dsimp only
    split_ifs with hif
    · refine ih hrest hk' (.inr ⟨a + total l, c.size, ?_, rfl, rfl, hif.2.1⟩)
      exact at_append.mpr (.inr (.inl ⟨rfl, by rw [← hif.1]⟩))
    · refine ih hrest hk' (hfound.imp_right ?_)
      rintro ⟨u, n, hat, hrest⟩
      exact ⟨u, n, at_append.mpr (.inl hat), hrest⟩

end ELuaBrain.Salloc
