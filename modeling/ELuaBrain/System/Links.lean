import Mathlib.Data.Finset.Card
import Mathlib.Logic.Function.Basic
import Mathlib.Logic.Relation

/-!
# Chains of links

Cells with a link each to a next cell. Chains end, and a search along a chain needs no more steps
than there are cells. A cell may be linked in behind another one, or take the place of another one
in its chain.

## Main definitions

* `Reaches` : a cell is on the chain that starts at another one.
* `Ranked`, `Linked` : no chain has a cycle, and no two chains meet.
* `search` : the first cell on a chain that passes a test.
* `insertAfter`, `replace` : a cell behind another one, and in the place of another one.

## Main results

* `search_spec` : the search ends, with a cell on the chain that passes the test if there is one.
* `insertAfter_ranked`, `reach_insertAfter` : linking in a cell.
* `replace_ranked`, `reach_replace` : replacing a cell.
-/

namespace ELuaBrain.Links

variable {α : Type*} {next : α → Option α} {p q : α}

/-- The cell `q` is on the chain that starts at `p`. -/
def Reaches (next : α → Option α) : α → α → Prop :=
  Relation.ReflTransGen fun p q => next p = some q

/-- Chains lead downwards, so that none has a cycle. -/
def Ranked (next : α → Option α) : Prop :=
  ∃ rank : α → ℕ, ∀ p q, next p = some q → rank q < rank p

/-- No cell is linked from two cells. -/
def Linked (next : α → Option α) : Prop := ∀ p p' q, next p = some q → next p' = some q → p = p'

/-- A cell that is in no chain but its own. -/
structure Isolated (next : α → Option α) (n : α) : Prop where
  last : next n = none
  first : ∀ p, next p ≠ some n

theorem Reaches.refl : Reaches next p p := Relation.ReflTransGen.refl

theorem Reaches.tail {r : α} (h : Reaches next p q) (hnext : next q = some r) : Reaches next p r :=
  Relation.ReflTransGen.tail h hnext

theorem Reaches.single (hnext : next p = some q) : Reaches next p q :=
  Relation.ReflTransGen.single hnext

/-- The start of a chain, or the first link. -/
theorem Reaches.cases_head (h : Reaches next p q) : p = q ∨ ∃ r, next p = some r ∧ Reaches next r q :=
  Relation.ReflTransGen.cases_head h

/-- The last link of a chain to a cell that is not its start. -/
theorem Reaches.exists_prev (h : Reaches next p q) (hne : p ≠ q) :
    ∃ r, Reaches next p r ∧ next r = some q :=
  (Relation.ReflTransGen.cases_tail h).resolve_left fun heq => hne heq.symm

theorem Reaches.eq_of_last (h : Reaches next p q) (hlast : next p = none) : p = q := by
  obtain heq | ⟨r, hr, -⟩ := h.cases_head
  · exact heq
  · rw [hlast] at hr
    cases hr

/-- No chain leads back to the cell before its start. -/
theorem Ranked.not_reach (h : Ranked next) (hnext : next p = some q) : ¬Reaches next q p := by
  obtain ⟨rank, hrank⟩ := h
  intro hreach
  have hle : ∀ r, Reaches next q r → rank r ≤ rank q := fun r hr => by
    induction hr with
    | refl => exact le_rfl
    | tail _ hlink ih => exact (hrank _ _ hlink).le.trans ih
  exact absurd (hle p hreach) (not_le.mpr (hrank p q hnext))

theorem Ranked.ne (h : Ranked next) (hnext : next p = some q) : p ≠ q := fun heq =>
  h.not_reach hnext (heq ▸ Reaches.refl)

/-- **No cycles.** No cell is on the chain behind itself. -/
theorem Ranked.acyclic (h : Ranked next) (p : α) :
    ¬Relation.TransGen (fun p q => next p = some q) p p := fun hcycle => by
  obtain ⟨q, hnext, hreach⟩ := Relation.TransGen.head'_iff.mp hcycle
  exact h.not_reach hnext hreach

/-! ### Searching -/

/-- The first cell that passes the test, if the search ends in so many steps. -/
def search (next : α → Option α) (stop : α → Bool) : ℕ → Option α → Option (Option α)
  | _, none => some none
  | 0, some _ => none
  | n + 1, some p => if stop p then some (some p) else search next stop n (next p)

/-- A search ends with the first cell that passes the test. -/
theorem search_first (stop : α → Bool) (h : Ranked next) : ∀ (n : ℕ) (p q : α),
    search next stop n (some p) = some (some q) →
    ∀ r, Reaches next p r → Reaches next r q → r ≠ q → stop r = false := by
  intro n
  induction n with
  | zero =>
    intro p q hs
    cases hs
  | succ n ih =>
    intro p q hs r hpr hrq hne
    rw [search] at hs
    split_ifs at hs with hstop
    · -- the search ended where it began, and there is no way back
      have hpq : p = q := Option.some_inj.mp (Option.some_inj.mp hs)
      rw [← hpq] at hrq hne
      obtain heq | ⟨p', hp', hreach⟩ := hpr.cases_head
      · exact absurd heq.symm hne
      · exact absurd (hreach.trans hrq) (h.not_reach hp')
    · cases hp : next p with
      | none =>
        rw [hp, search] at hs
        cases hs
      | some p' =>
        rw [hp] at hs
        obtain heq | ⟨r', hr', hreach⟩ := hpr.cases_head
        · rw [← heq]
          exact Bool.not_eq_true _ ▸ hstop
        · rw [hp] at hr'
          rw [← Option.some_inj.mp hr'] at hreach
          exact ih p' q hs r hreach hrq hne

/-- **Search.** A search along a chain ends, in no more steps than there are cells on the chain. -/
theorem search_spec [DecidableEq α] (stop : α → Bool) (h : Ranked next) :
    ∀ (n : ℕ) (p : α) (s : Finset α),
    (∀ q, Reaches next p q → q ∈ s) → s.card ≤ n →
    (∃ q, search next stop n (some p) = some (some q) ∧ stop q ∧ Reaches next p q) ∨
      search next stop n (some p) = some none ∧ ∀ q, Reaches next p q → stop q = false := by
  intro n
  induction n with
  | zero =>
    intro p s hs hcard
    rw [Finset.card_eq_zero.mp (Nat.le_zero.mp hcard)] at hs
    exact absurd (hs p Reaches.refl) (Finset.notMem_empty p)
  | succ n ih =>
    intro p s hs hcard
    rw [search]
    by_cases hstop : stop p
    · exact .inl ⟨p, if_pos hstop, hstop, Reaches.refl⟩
    · rw [if_neg hstop]
      have hfalse : stop p = false := Bool.not_eq_true _ ▸ hstop
      cases hnext : next p with
      | none =>
        refine .inr ⟨by rw [search], fun q hq => ?_⟩
        rw [← hq.eq_of_last hnext]
        exact hfalse
      | some q =>
        have herase : ∀ r, Reaches next q r → r ∈ s.erase p := fun r hr => by
          refine Finset.mem_erase.mpr ⟨fun heq => h.not_reach hnext (heq ▸ hr), ?_⟩
          exact hs r (Relation.ReflTransGen.head hnext hr)
        have hcard' : (s.erase p).card ≤ n := by
          rw [Finset.card_erase_of_mem (hs p Reaches.refl)]
          omega
        obtain ⟨r, hr, hstop', hreach⟩ | ⟨hnone, hall⟩ := ih q (s.erase p) herase hcard'
        · exact .inl ⟨r, hr, hstop', Relation.ReflTransGen.head hnext hreach⟩
        · refine .inr ⟨hnone, fun r hr => ?_⟩
          obtain heq | ⟨q', hq', hreach⟩ := hr.cases_head
          · rw [← heq]
            exact hfalse
          · rw [hnext] at hq'
            rw [Option.some_inj.mp hq'] at hall
            exact hall r hreach

/-! ### A cell behind another one -/

section Update

variable [DecidableEq α] {m n prev : α}

/-- The cell `n` is linked in behind `m`. -/
def insertAfter (next : α → Option α) (m n : α) : α → Option α :=
  Function.update (Function.update next n (next m)) m (some n)

theorem insertAfter_self (next : α → Option α) (m n : α) : insertAfter next m n m = some n :=
  Function.update_self ..

theorem insertAfter_new (hne : n ≠ m) : insertAfter next m n n = next m := by
  rw [insertAfter, Function.update_of_ne hne, Function.update_self]

theorem insertAfter_of_ne (hm : p ≠ m) (hn : p ≠ n) : insertAfter next m n p = next p := by
  rw [insertAfter, Function.update_of_ne hm, Function.update_of_ne hn]

/-- The links after a cell was linked in. -/
theorem insertAfter_cases (hne : n ≠ m) (h : insertAfter next m n p = some q) :
    p = m ∧ q = n ∨ p = n ∧ next m = some q ∨ p ≠ m ∧ p ≠ n ∧ next p = some q := by
  by_cases hm : p = m
  · rw [hm, insertAfter_self] at h
    exact .inl ⟨hm, (Option.some_inj.mp h).symm⟩
  · by_cases hn : p = n
    · rw [hn, insertAfter_new hne] at h
      exact .inr (.inl ⟨hn, h⟩)
    · rw [insertAfter_of_ne hm hn] at h
      exact .inr (.inr ⟨hm, hn, h⟩)

theorem insertAfter_ranked (h : Ranked next) (hn : Isolated next n) (hne : n ≠ m) :
    Ranked (insertAfter next m n) := by
  obtain ⟨rank, hrank⟩ := h
  refine ⟨fun p => if p = n then 2 * rank m + 1 else 2 * rank p + 2, fun p q hlink => ?_⟩
  obtain ⟨rfl, rfl⟩ | ⟨rfl, hnext⟩ | ⟨-, hpn, hnext⟩ := insertAfter_cases hne hlink
  · simp only [if_pos, if_neg hne.symm]
    omega
  · have hq : q ≠ p := fun heq => hn.first m (heq ▸ hnext)
    have := hrank m q hnext
    simp only [if_pos, if_neg hq]
    omega
  · have hq : q ≠ n := fun heq => hn.first p (heq ▸ hnext)
    have := hrank p q hnext
    simp only [if_neg hpn, if_neg hq]
    omega

theorem insertAfter_linked (h : Linked next) (hn : Isolated next n) (hne : n ≠ m) :
    Linked (insertAfter next m n) := by
  intro p p' q hp hp'
  obtain ⟨hpm, hq⟩ | ⟨hpn, hlink⟩ | ⟨hpm, hpn, hlink⟩ := insertAfter_cases hne hp <;>
    obtain ⟨hpm', hq'⟩ | ⟨hpn', hlink'⟩ | ⟨hpm', hpn', hlink'⟩ := insertAfter_cases hne hp'
  · exact hpm.trans hpm'.symm
  · exact absurd (hq ▸ hlink') (hn.first m)
  · exact absurd (hq ▸ hlink') (hn.first p')
  · exact absurd (hq' ▸ hlink) (hn.first m)
  · exact hpn.trans hpn'.symm
  · exact absurd (h _ _ _ hlink hlink').symm hpm'
  · exact absurd (hq' ▸ hlink) (hn.first p)
  · exact absurd (h _ _ _ hlink hlink') hpm
  · exact h _ _ _ hlink hlink'

theorem Isolated.insertAfter {j : α} (h : Isolated next j) (hn : j ≠ n) (hm : j ≠ m) (hne : n ≠ m) :
    Isolated (insertAfter next m n) j where
  last := (insertAfter_of_ne hm hn).trans h.last
  first p hlink := by
    obtain ⟨-, hq⟩ | ⟨-, hlink⟩ | ⟨-, -, hlink⟩ := insertAfter_cases hne hlink
    · exact hn hq
    · exact h.first _ hlink
    · exact h.first _ hlink

/-- Chains lose no cell. -/
theorem reach_insertAfter (hn : Isolated next n) (hne : n ≠ m) (h : Reaches next p q) :
    Reaches (insertAfter next m n) p q := by
  induction h with
  | refl => exact Reaches.refl
  | @tail r s _ hlink ih =>
    by_cases hm : r = m
    · rw [hm] at hlink ih
      exact (ih.tail (insertAfter_self ..)).tail ((insertAfter_new hne).trans hlink)
    · have hrn : r ≠ n := fun heq => by
        rw [heq, hn.last] at hlink
        cases hlink
      exact ih.tail ((insertAfter_of_ne hm hrn).trans hlink)

/-- Chains gain no cell but the one that is linked in. -/
theorem reach_of_insertAfter (hn : Isolated next n) (hne : n ≠ m) (hq : q ≠ n)
    (h : Reaches (insertAfter next m n) p q) : Reaches next (if p = n then m else p) q := by
  induction h using Relation.ReflTransGen.head_induction_on with
  | refl =>
    rw [if_neg hq]
    exact Reaches.refl
  | @head r s hlink _ ih =>
    obtain ⟨rfl, rfl⟩ | ⟨rfl, hnext⟩ | ⟨-, hrn, hnext⟩ := insertAfter_cases hne hlink
    · rw [if_pos rfl] at ih
      rwa [if_neg hne.symm]
    · have hsn : s ≠ r := fun heq => hn.first m (heq ▸ hnext)
      rw [if_neg hsn] at ih
      rw [if_pos rfl]
      exact Relation.ReflTransGen.head hnext ih
    · have hsn : s ≠ n := fun heq => hn.first r (heq ▸ hnext)
      rw [if_neg hsn] at ih
      rw [if_neg hrn]
      exact Relation.ReflTransGen.head hnext ih

/-! ### A cell in the place of another one -/

/-- The cell `n` takes the place of `m` behind `prev`. -/
def replace (next : α → Option α) (prev m n : α) : α → Option α :=
  Function.update (Function.update (Function.update next prev (some n)) n (next m)) m none

theorem replace_old (next : α → Option α) (prev m n : α) : replace next prev m n m = none :=
  Function.update_self ..

theorem replace_new (hne : n ≠ m) : replace next prev m n n = next m := by
  rw [replace, Function.update_of_ne hne, Function.update_self]

theorem replace_prev (hm : prev ≠ m) (hn : prev ≠ n) : replace next prev m n prev = some n := by
  rw [replace, Function.update_of_ne hm, Function.update_of_ne hn, Function.update_self]

theorem replace_of_ne (hm : p ≠ m) (hn : p ≠ n) (hprev : p ≠ prev) :
    replace next prev m n p = next p := by
  rw [replace, Function.update_of_ne hm, Function.update_of_ne hn, Function.update_of_ne hprev]

/-- The links after a cell was replaced. -/
theorem replace_cases (hne : n ≠ m) (h : replace next prev m n p = some q) :
    p ≠ m ∧ (p = prev ∧ q = n ∨ p = n ∧ next m = some q ∨
      p ≠ prev ∧ p ≠ n ∧ next p = some q) := by
  by_cases hm : p = m
  · rw [hm, replace_old] at h
    cases h
  · refine ⟨hm, ?_⟩
    by_cases hn : p = n
    · rw [hn, replace_new hne] at h
      exact .inr (.inl ⟨hn, h⟩)
    · by_cases hprev : p = prev
      · rw [hprev, replace_prev (hprev ▸ hm) (hprev ▸ hn)] at h
        exact .inl ⟨hprev, (Option.some_inj.mp h).symm⟩
      · rw [replace_of_ne hm hn hprev] at h
        exact .inr (.inr ⟨hprev, hn, h⟩)

theorem replace_ranked (h : Ranked next) (hn : Isolated next n) (hne : n ≠ m)
    (hprev : next prev = some m) : Ranked (replace next prev m n) := by
  obtain ⟨rank, hrank⟩ := h
  have hpn : prev ≠ n := fun heq => by
    rw [heq, hn.last] at hprev
    cases hprev
  refine ⟨fun p => if p = n then rank m else rank p, fun p q hlink => ?_⟩
  obtain ⟨-, ⟨rfl, rfl⟩ | ⟨rfl, hnext⟩ | ⟨-, hpn', hnext⟩⟩ := replace_cases hne hlink
  · simp only [if_pos, if_neg hpn]
    exact hrank _ _ hprev
  · have hq : q ≠ p := fun heq => hn.first m (heq ▸ hnext)
    simp only [if_pos, if_neg hq]
    exact hrank _ _ hnext
  · have hq : q ≠ n := fun heq => hn.first p (heq ▸ hnext)
    simp only [if_neg hpn', if_neg hq]
    exact hrank _ _ hnext

theorem replace_linked (h : Linked next) (hn : Isolated next n) (hne : n ≠ m) :
    Linked (replace next prev m n) := by
  intro p p' q hp hp'
  obtain ⟨hpm, ⟨hpp, hq⟩ | ⟨hpn, hlink⟩ | ⟨-, hpn, hlink⟩⟩ := replace_cases hne hp <;>
    obtain ⟨hpm', ⟨hpp', hq'⟩ | ⟨hpn', hlink'⟩ | ⟨-, hpn', hlink'⟩⟩ := replace_cases hne hp'
  · exact hpp.trans hpp'.symm
  · exact absurd (hq ▸ hlink') (hn.first m)
  · exact absurd (hq ▸ hlink') (hn.first p')
  · exact absurd (hq' ▸ hlink) (hn.first m)
  · exact hpn.trans hpn'.symm
  · exact absurd (h _ _ _ hlink hlink').symm hpm'
  · exact absurd (hq' ▸ hlink) (hn.first p)
  · exact absurd (h _ _ _ hlink hlink') hpm
  · exact h _ _ _ hlink hlink'

/-- The replaced cell is isolated. -/
theorem replace_isolated (hranked : Ranked next) (h : Linked next) (hne : n ≠ m)
    (hprev : next prev = some m) : Isolated (replace next prev m n) m where
  last := replace_old ..
  first p hlink := by
    obtain ⟨hpm, ⟨-, hq⟩ | ⟨-, hlink⟩ | ⟨hpp, -, hlink⟩⟩ := replace_cases hne hlink
    · exact hne hq.symm
    · exact hranked.ne hlink rfl
    · exact hpp (h _ _ _ hlink hprev)

theorem Isolated.replace{j : α} (h : Isolated next j) (hn : j ≠ n) (hm : j ≠ m)
    (hne : n ≠ m) (hprev : next prev = some m) : Isolated (replace next prev m n) j where
  last := by
    have hp : j ≠ prev := fun heq => by
      rw [← heq, h.last] at hprev
      cases hprev
    exact (replace_of_ne hm hn hp).trans h.last
  first p hlink := by
    obtain ⟨-, ⟨-, hq⟩ | ⟨-, hlink⟩ | ⟨-, -, hlink⟩⟩ := replace_cases hne hlink
    · exact hn hq
    · exact h.first _ hlink
    · exact h.first _ hlink

/-- Chains lose no cell but the one that is replaced. -/
theorem reach_replace (hranked : Ranked next) (hlinked : Linked next) (hn : Isolated next n)
    (hne : n ≠ m) (hprev : next prev = some m) (hp : p ≠ m) (h : Reaches next p q) :
    Reaches (replace next prev m n) p (if q = m then n else q) := by
  have hpn : prev ≠ n := fun heq => by
    rw [heq, hn.last] at hprev
    cases hprev
  have hpm : prev ≠ m := hranked.ne hprev
  induction h with
  | refl =>
    rw [if_neg hp]
    exact Reaches.refl
  | @tail r s _ hlink ih =>
    have hrn : r ≠ n := fun heq => by
      rw [heq, hn.last] at hlink
      cases hlink
    by_cases hr : r = m
    · rw [if_pos hr] at ih
      rw [hr] at hlink
      rw [if_neg (hranked.ne hlink).symm]
      exact ih.tail ((replace_new hne).trans hlink)
    · rw [if_neg hr] at ih
      by_cases hs : s = m
      · rw [hs] at hlink
        have hrp : r = prev := hlinked _ _ _ hlink hprev
        rw [if_pos hs]
        rw [hrp] at ih
        exact ih.tail (replace_prev hpm hpn)
      · have hrp : r ≠ prev := fun heq => by
          rw [heq, hprev] at hlink
          exact hs (Option.some_inj.mp hlink).symm
        rw [if_neg hs]
        exact ih.tail ((replace_of_ne hr hrn hrp).trans hlink)

/-- Chains gain no cell but the one that takes the place of another one. -/
theorem reach_of_replace (hranked : Ranked next) (hlinked : Linked next) (hn : Isolated next n)
    (hne : n ≠ m) (hprev : next prev = some m) (hp : p ≠ m)
    (h : Reaches (replace next prev m n) p q) :
    Reaches next (if p = n then m else p) (if q = n then m else q) := by
  have hpn : prev ≠ n := fun heq => by
    rw [heq, hn.last] at hprev
    cases hprev
  have hisolated := replace_isolated hranked hlinked hne hprev
  induction h using Relation.ReflTransGen.head_induction_on with
  | refl => exact Reaches.refl
  | @head r s hlink _ ih =>
    have hsm : s ≠ m := fun heq => hisolated.first r (heq ▸ hlink)
    obtain ⟨-, ⟨rfl, rfl⟩ | ⟨rfl, hnext⟩ | ⟨-, hrn, hnext⟩⟩ := replace_cases hne hlink
    · have ih' := ih hsm
      rw [if_pos rfl] at ih'
      rw [if_neg hpn]
      exact Relation.ReflTransGen.head hprev ih'
    · have ih' := ih hsm
      have hsn : s ≠ r := fun heq => hn.first m (heq ▸ hnext)
      rw [if_neg hsn] at ih'
      rw [if_pos rfl]
      exact Relation.ReflTransGen.head hnext ih'
    · have ih' := ih hsm
      have hsn : s ≠ n := fun heq => hn.first r (heq ▸ hnext)
      rw [if_neg hsn] at ih'
      rw [if_neg hrn]
      exact Relation.ReflTransGen.head hnext ih'

end Update

end ELuaBrain.Links
