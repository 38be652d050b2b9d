import Mathlib.Data.List.Chain
import Mathlib.Data.List.Basic

/-!
# Linked blocks

A part of a memory is divided into blocks, one behind the other. The header at the start of each
block has the address of the next and of the previous block and says if the block is free. Behind
the last block is a guard, whose header has no next block. Headers are given by their addresses,
and the size of a block is the distance to the next one.

## Main definitions

* `Seg`, `Chain` : blocks from one address to another, and blocks up to the guard.
* `At` : the blocks with their addresses.

## Main results

* `Chain.split`, `Chain.merge` : dividing a block in two, and making one of several.
-/

namespace ELuaBrain.Blocks

/-- The header of a block. -/
structure Header where
  next : ℕ
  prev : ℕ
  free : Bool

/-- A block: its size, and if it is free. -/
structure Cell where
  size : ℕ
  free : Bool

/-- The size of blocks together. -/
def total : List Cell → ℕ
  | [] => 0
  | c :: cs => c.size + total cs

/-- The block `d` is at the address `b`, if the first block is at `a`. -/
def At : ℕ → List Cell → ℕ → Cell → Prop
  | _, [], _, _ => False
  | a, c :: cs, b, d => b = a ∧ d = c ∨ At (a + c.size) cs b d

/-- Blocks from `a` to `b`. The block before `a` is at `p` and that before `b` at `q`. -/
def Seg (H : ℕ → Header) : ℕ → ℕ → List Cell → ℕ → ℕ → Prop
  | p, a, [], q, b => p = q ∧ a = b
  | p, a, c :: cs, q, b =>
      0 < c.size ∧ H a = ⟨a + c.size, p, c.free⟩ ∧ Seg H a (a + c.size) cs q b

/-- Blocks from `a` to the guard at `e`. -/
def Chain (H : ℕ → Header) : ℕ → ℕ → List Cell → ℕ → Prop
  | p, a, [], e => a = e ∧ H e = ⟨0, p, false⟩
  | p, a, c :: cs, e =>
      0 < c.size ∧ H a = ⟨a + c.size, p, c.free⟩ ∧ Chain H a (a + c.size) cs e

/-- No two blocks next to each other are free. -/
def NoAdjacent (cs : List Cell) : Prop := cs.IsChain fun c d => ¬ (c.free = true ∧ d.free = true)

section Total

variable {cs l r : List Cell} {c d : Cell} {a b : ℕ}

@[simp] theorem total_append : total (l ++ r) = total l + total r := by
  induction l with
  | nil => exact (Nat.zero_add _).symm
  | cons c l ih => rw [List.cons_append, total, total, ih, Nat.add_assoc]

theorem at_append : At a (l ++ r) b d ↔ At a l b d ∨ At (a + total l) r b d := by
  induction l generalizing a with
  | nil => exact (or_iff_right id).symm
  | cons c l ih => rw [List.cons_append, At, At, ih, total, or_assoc, Nat.add_assoc]

/-- The place of a block in the list. -/
theorem At.exists_append (h : At a cs b d) : ∃ l r, cs = l ++ d :: r ∧ b = a + total l := by
  induction cs generalizing a with
  | nil => exact h.elim
  | cons c cs ih =>
    rcases h with ⟨rfl, rfl⟩ | h
    · exact ⟨[], cs, rfl, rfl⟩
    · obtain ⟨l, r, rfl, rfl⟩ := ih h
      exact ⟨c :: l, r, rfl, by rw [total, Nat.add_assoc]⟩

theorem At.mem (h : At a cs b d) : d ∈ cs := by
  obtain ⟨l, r, rfl, -⟩ := h.exists_append
  exact List.mem_append_right _ List.mem_cons_self

theorem At.le (h : At a cs b d) : a ≤ b ∧ b + d.size ≤ a + total cs := by
  obtain ⟨l, r, rfl, rfl⟩ := h.exists_append
  rw [total_append, total]
  omega

/-- Different blocks do not overlap. -/
theorem At.disjoint {b' : ℕ} {d' : Cell} (h : At a cs b d) (h' : At a cs b' d') :
    b = b' ∧ d = d' ∨ b + d.size ≤ b' ∨ b' + d'.size ≤ b := by
  induction cs generalizing a with
  | nil => exact h.elim
  | cons c cs ih =>
    rcases h with ⟨rfl, rfl⟩ | h <;> rcases h' with ⟨rfl, rfl⟩ | h'
    · exact .inl ⟨rfl, rfl⟩
    · exact .inr (.inl h'.le.1)
    · exact .inr (.inr h.le.1)
    · exact ih h h'

/-- The other blocks, if one is divided. -/
theorem At.replace (h : At a (l ++ c :: r) b d) (cs : List Cell) (hb : b ≠ a + total l)
    (ht : total cs = c.size) : At a (l ++ (cs ++ r)) b d := by
  rcases at_append.mp h with h | ⟨hb', -⟩ | h
  · exact at_append.mpr (.inl h)
  · exact absurd hb' hb
  · exact at_append.mpr (.inr (at_append.mpr (.inr (ht ▸ h))))

/-- The taken blocks that are not among those that become one. -/
theorem At.merge {xs ys : List Cell} (h : At a ((l ++ xs) ++ c :: (ys ++ r)) b d)
    (hxs : ∀ x ∈ xs, x.free = true) (hys : ∀ y ∈ ys, y.free = true) (hd : d.free = false)
    (hb : b ≠ a + total (l ++ xs)) {f : Bool} :
    At a (l ++ ⟨total xs + (c.size + total ys), f⟩ :: r) b d := by
  have hnot : ∀ {a zs}, (∀ z ∈ zs, z.free = true) → ¬ At a zs b d := by
    intro a zs hzs hat
    rw [hzs d hat.mem] at hd
    cases hd
  rw [at_append, at_append] at h
  rcases h with (h | h) | ⟨hb', -⟩ | h
  · exact at_append.mpr (.inl h)
  · exact absurd h (hnot hxs)
  · exact absurd hb' hb
  · rcases at_append.mp h with h | h
    · exact absurd h (hnot hys)
    · refine at_append.mpr (.inr (.inr ?_))
      rw [total_append] at h
      change At (a + total l + (total xs + (c.size + total ys))) r b d
      have haddr : a + total l + (total xs + (c.size + total ys)) =
          a + (total l + total xs) + c.size + total ys := by omega
      rwa [haddr]

end Total

section Seg

variable {H H' : ℕ → Header} {cs l r ms : List Cell} {c : Cell} {p q a b e v : ℕ}

theorem Seg.end_eq (h : Seg H p a cs q b) : b = a + total cs := by
  induction cs generalizing p a with
  | nil => exact h.2.symm
  | cons c cs ih => rw [ih h.2.2, total, Nat.add_assoc]

theorem Chain.end_eq (h : Chain H p a cs e) : e = a + total cs := by
  induction cs generalizing p a with
  | nil => exact h.1.symm
  | cons c cs ih => rw [ih h.2.2, total, Nat.add_assoc]

theorem Seg.length_le (h : Seg H p a cs q b) : cs.length ≤ total cs := by
  induction cs generalizing p a with
  | nil => exact Nat.le_refl _
  | cons c cs ih =>
    have hpos := h.1
    have hle := ih h.2.2
    rw [List.length_cons, total]
    omega

theorem Chain.length_le (h : Chain H p a cs e) : cs.length ≤ total cs := by
  induction cs generalizing p a with
  | nil => exact Nat.le_refl _
  | cons c cs ih =>
    have hpos := h.1
    have hle := ih h.2.2
    rw [List.length_cons, total]
    omega

theorem seg_append : Seg H p a (l ++ r) q b ↔ ∃ p' a', Seg H p a l p' a' ∧ Seg H p' a' r q b := by
  induction l generalizing p a with
  | nil => exact ⟨fun h => ⟨p, a, ⟨rfl, rfl⟩, h⟩, fun ⟨_, _, ⟨hp, ha⟩, h⟩ => hp ▸ ha ▸ h⟩
  | cons c l ih =>
    constructor
    · rintro ⟨hpos, hH, h⟩
      obtain ⟨p', a', hl, hr⟩ := ih.mp h
      exact ⟨p', a', ⟨hpos, hH, hl⟩, hr⟩
    · rintro ⟨p', a', ⟨hpos, hH, hl⟩, hr⟩
      exact ⟨hpos, hH, ih.mpr ⟨p', a', hl, hr⟩⟩

theorem chain_append : Chain H p a (l ++ r) e ↔ ∃ p' a', Seg H p a l p' a' ∧ Chain H p' a' r e := by
  induction l generalizing p a with
  | nil => exact ⟨fun h => ⟨p, a, ⟨rfl, rfl⟩, h⟩, fun ⟨_, _, ⟨hp, ha⟩, h⟩ => hp ▸ ha ▸ h⟩
  | cons c l ih =>
    constructor
    · rintro ⟨hpos, hH, h⟩
      obtain ⟨p', a', hl, hr⟩ := ih.mp h
      exact ⟨p', a', ⟨hpos, hH, hl⟩, hr⟩
    · rintro ⟨p', a', ⟨hpos, hH, hl⟩, hr⟩
      exact ⟨hpos, hH, ih.mpr ⟨p', a', hl, hr⟩⟩

/-- Headers outside the blocks do not matter. -/
theorem Seg.congr (h : Seg H p a cs q b) (hH : ∀ x, a ≤ x → x < b → H' x = H x) :
    Seg H' p a cs q b := by
  induction cs generalizing p a with
  | nil => exact h
  | cons c cs ih =>
    obtain ⟨hpos, hc, h⟩ := h
    have hend := h.end_eq
    refine ⟨hpos, ?_, ih h fun x hx hxb => hH x (by omega) hxb⟩
    rw [hH a (Nat.le_refl _) (by omega), hc]

/-- Only the headers of the blocks and that of the guard matter. -/
theorem Chain.congr_at (h : Chain H p a cs e) (hH : ∀ x d, At a cs x d → H' x = H x)
    (he : H' e = H e) : Chain H' p a cs e := by
  induction cs generalizing p a with
  | nil => exact ⟨h.1, he.trans h.2⟩
  | cons c cs ih =>
    obtain ⟨hpos, hc, h⟩ := h
    refine ⟨hpos, ?_, ih h fun x d hx => hH x d (.inr hx)⟩
    rw [hH a c (.inl ⟨rfl, rfl⟩), hc]

theorem Chain.congr (h : Chain H p a cs e) (hH : ∀ x, a ≤ x → x ≤ e → H' x = H x) :
    Chain H' p a cs e := by
  have hend := h.end_eq
  refine h.congr_at (fun x d hx => hH x hx.le.1 ?_) (hH e (by omega) (Nat.le_refl _))
  have hle := hx.le
  omega

/-- The first of several free blocks. -/
theorem Seg.head_free (h : Seg H p a cs q b) (hne : cs ≠ []) (hfree : ∀ c ∈ cs, c.free = true) :
    ∃ x, H a = ⟨x, p, true⟩ := by
  cases cs with
  | nil => exact absurd rfl hne
  | cons c cs => exact ⟨_, by rw [h.2.1, hfree c List.mem_cons_self]⟩

/-- The last of some blocks is one of them. -/
theorem Seg.last (h : Seg H p a cs q b) : cs = [] ∧ q = p ∨ a ≤ q ∧ q < b := by
  induction cs generalizing p a with
  | nil => exact .inl ⟨rfl, h.1.symm⟩
  | cons c cs ih =>
    obtain ⟨hpos, -, h⟩ := h
    have hend := h.end_eq
    rcases ih h with ⟨-, hq⟩ | ⟨hle, hlt⟩
    · exact .inr ⟨hq ▸ Nat.le_refl _, by omega⟩
    · exact .inr ⟨by omega, hlt⟩

/-- The header of the first block, or of the guard. -/
theorem Chain.head (h : Chain H p a cs e) : (H a).prev = p := by
  cases cs with
  | nil => rw [h.1, h.2]
  | cons c cs => rw [h.2.1]

/-- What is before the first block changes. -/
theorem Chain.set_prev (h : Chain H p a cs e) (ha : H' a = { H a with prev := v })
    (hH : ∀ x, a < x → H' x = H x) : Chain H' v a cs e := by
  cases cs with
  | nil =>
    obtain ⟨rfl, h⟩ := h
    exact ⟨rfl, by rw [ha, h]⟩
  | cons c cs =>
    obtain ⟨hpos, hc, h⟩ := h
    exact ⟨hpos, by rw [ha, hc], h.congr fun x hx _ => hH x (by omega)⟩

/-- **Dividing a block.** The block at `a` keeps `s` of its size, and the rest is a block of its
own. -/
theorem Chain.split {s t : ℕ} {f g g' : Bool} (h : Chain H p a (⟨s + t, f⟩ :: cs) e) (hs : 0 < s)
    (ht : 0 < t) (h₁ : H' a = ⟨a + s, p, g⟩) (h₂ : H' (a + s) = ⟨a + (s + t), a, g'⟩)
    (h₃ : H' (a + (s + t)) = { H (a + (s + t)) with prev := a + s })
    (hH : ∀ x, a + (s + t) < x → H' x = H x) :
    Chain H' p a (⟨s, g⟩ :: ⟨t, g'⟩ :: cs) e := by
  obtain ⟨-, -, h⟩ := h
  have hcs := Chain.set_prev h h₃ hH
  refine ⟨hs, h₁, ht, ?_, ?_⟩
  · rw [h₂, Nat.add_assoc]
  · rwa [← Nat.add_assoc] at hcs

/-- **Making one block.** The blocks from `v` to `a` become one. -/
theorem Chain.merge {f : Bool} (hm : Seg H p v ms q a) (h : Chain H q a cs e) (hpos : 0 < total ms)
    (h₁ : H' v = ⟨a, p, f⟩) (h₂ : H' a = { H a with prev := v })
    (hH : ∀ x, a < x → H' x = H x) : Chain H' p v (⟨total ms, f⟩ :: cs) e := by
  have hend := hm.end_eq
  refine ⟨hpos, by rw [h₁, hend], ?_⟩
  change Chain H' v (v + total ms) cs e
  rw [← hend]
  exact h.set_prev h₂ hH

end Seg

/-! ### Free blocks next to each other -/

/-- The first block is taken, if there is one. -/
def StartsTaken (cs : List Cell) : Prop := ∀ c ∈ cs.head?, c.free = false

/-- The last block is taken, if there is one. -/
def EndsTaken (cs : List Cell) : Prop := ∀ c ∈ cs.getLast?, c.free = false

section Free

variable {H : ℕ → Header} {cs l r : List Cell} {c : Cell} {p q a b e : ℕ}

theorem noAdjacent_append_cons :
    NoAdjacent (l ++ c :: r) ↔
      NoAdjacent l ∧ NoAdjacent r ∧ (c.free = true → EndsTaken l ∧ StartsTaken r) := by
  simp only [NoAdjacent, List.isChain_append, List.isChain_cons, List.head?_cons,
    Option.mem_some_iff, forall_eq', EndsTaken, StartsTaken, not_and, Bool.not_eq_true]
  constructor
  · rintro ⟨hl, ⟨hcr, hr⟩, hlc⟩
    refine ⟨hl, hr, fun hc => ⟨fun d hd => ?_, fun d hd => hcr d hd hc⟩⟩
    by_contra hfree
    rw [hlc d hd (Bool.of_not_eq_false hfree)] at hc
    cases hc
  · rintro ⟨hl, hr, hc⟩
    refine ⟨hl, ⟨fun d hd hfree => (hc hfree).2 d hd, hr⟩, fun d hd hfree => ?_⟩
    by_contra hcfree
    have hd' := (hc (Bool.of_not_eq_false hcfree)).1 d hd
    rw [hfree] at hd'
    cases hd'

/-- The free blocks at the end. -/
theorem exists_append_free (cs : List Cell) :
    ∃ l xs, cs = l ++ xs ∧ (∀ c ∈ xs, c.free = true) ∧ EndsTaken l := by
  induction cs using List.reverseRecOn with
  | nil => exact ⟨[], [], rfl, List.forall_mem_nil _, fun _ h => nomatch h⟩
  | append_singleton cs c ih =>
    by_cases hc : c.free = true
    · obtain ⟨l, xs, rfl, hxs, hl⟩ := ih
      refine ⟨l, xs ++ [c], List.append_assoc _ _ _, fun d hd => ?_, hl⟩
      rcases List.mem_append.mp hd with hd | hd
      · exact hxs d hd
      · rwa [List.mem_singleton.mp hd]
    · refine ⟨cs ++ [c], [], (List.append_nil _).symm, List.forall_mem_nil _, fun d hd => ?_⟩
      rw [List.getLast?_concat, Option.mem_some_iff] at hd
      rw [← hd, Bool.eq_false_iff]
      exact hc

/-- The free blocks at the start. -/
theorem exists_free_append (cs : List Cell) :
    ∃ ys r, cs = ys ++ r ∧ (∀ c ∈ ys, c.free = true) ∧ StartsTaken r := by
  induction cs with
  | nil => exact ⟨[], [], rfl, List.forall_mem_nil _, fun _ h => nomatch h⟩
  | cons c cs ih =>
    by_cases hc : c.free = true
    · obtain ⟨ys, r, rfl, hys, hr⟩ := ih
      exact ⟨c :: ys, r, rfl, List.forall_mem_cons.mpr ⟨hc, hys⟩, hr⟩
    · refine ⟨[], c :: cs, rfl, List.forall_mem_nil _, fun d hd => ?_⟩
      rw [List.head?_cons, Option.mem_some_iff] at hd
      rw [← hd, Bool.eq_false_iff]
      exact hc

theorem Chain.free_head (h : Chain H p a cs e) (hcs : StartsTaken cs) : (H a).free = false := by
  cases cs with
  | nil => rw [h.1, h.2]
  | cons c cs => rw [h.2.1, hcs c rfl]

/-- The header of the last of some blocks. -/
theorem Seg.last_taken (h : Seg H p a cs q b) (hne : cs ≠ []) (hcs : EndsTaken cs) :
    (H q).next = b ∧ (H q).free = false ∧ q < b := by
  induction cs generalizing p a with
  | nil => exact absurd rfl hne
  | cons c cs ih =>
    obtain ⟨hpos, hc, h⟩ := h
    cases cs with
    | nil =>
      obtain ⟨rfl, rfl⟩ := h
      rw [hc]
      exact ⟨rfl, hcs c rfl, Nat.lt_add_of_pos_right hpos⟩
    | cons d cs => exact ih h (List.cons_ne_nil _ _) fun x hx => hcs x (by
        rw [List.getLast?_cons_cons]
        exact hx)

end Free

end ELuaBrain.Blocks
