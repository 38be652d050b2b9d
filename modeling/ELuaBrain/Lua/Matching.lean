import ELuaBrain.Lua.Outcomes
import Mathlib.Data.List.GetD
import Mathlib.Tactic.MkIffOfInductiveProp

/-!
# What a pattern matches

A match is derived item by item, without an order among the choices. The outcomes of a pattern are
its derivations, so that a match is found if there is one. Whether a pattern can raise an error is
seen without a subject: its captures have to be closed, and a capture that is matched again has to
be finished.

## Main definitions

* `Takes`, `Matches` : the derivations of an item and of a pattern.
* `check`, `WellFormed` : patterns whose captures are in order.
* `Sound` : captures that lie in the subject, before the place that is reached.

## Main results

* `mem_outcomes` : the outcomes are the derivations.
* `outcomes_of_check` : a well-formed pattern raises no error, and finishes its captures.
-/

namespace ELuaBrain.Lua.Patterns

open Function Backtrack

/-! ### Derivations -/

/-- The numbers of repetitions that there may be. -/
def Rep.Allows : Rep → ℕ → Prop
  | .one, n => n = 1
  | .optional, n => n ≤ 1
  | .star, _ => True
  | .plus, n => 1 ≤ n
  | .minus, _ => True

/-- How many balanced parts are open behind their first delimiter. -/
def depth (b e : UInt8) (u : List UInt8) : ℤ :=
  1 + (if b = e then 0 else (u.count b : ℤ)) - u.count e

/-- A text from a delimiter to the one that closes it. -/
def Closes (b e : UInt8) (t : List UInt8) : Prop :=
  ∃ u, t = b :: u ∧ depth b e u = 0 ∧ ∀ m < u.length, 0 < depth b e (u.take m)

/-- The text of the capture with the digit `l` is repeated, in `n` characters. -/
def Repeats (src : List UInt8) (l : UInt8) (caps : List Capture) (s n : ℕ) : Prop :=
  49 ≤ l.toNat ∧ ∃ c, caps[l.toNat - 49]? = some c ∧ c.len = n ∧ s + n ≤ src.length ∧
    (src.drop c.start).take n = (src.drop s).take n

/-- The derivations of an item. -/
@[mk_iff]
inductive Takes (src : List UInt8) : Item → List Capture → ℕ → List Capture → ℕ → Prop
  | opening {caps : List Capture} {s : ℕ} (h : caps.length < luaMaxcaptures) :
      Takes src .opening caps s (caps ++ [⟨s, capUnfinished⟩]) s
  | position {caps : List Capture} {s : ℕ} (h : caps.length < luaMaxcaptures) :
      Takes src .position caps s (caps ++ [⟨s, capPosition⟩]) s
  | closing {caps : List Capture} {s l : ℕ} (h : unfinished caps = some l) :
      Takes src .closing caps s
        (caps.set l ⟨(caps.getD l ⟨0, 0⟩).start, s - (caps.getD l ⟨0, 0⟩).start⟩) s
  | balance {b e : UInt8} {caps : List Capture} {s n : ℕ} (hle : s + n ≤ src.length)
      (h : Closes b e ((src.drop s).take n)) : Takes src (.balance b e) caps s caps (s + n)
  | frontier {set : List UInt8} {caps : List Capture} {s : ℕ} (h : frontier src s set = true) :
      Takes src (.frontier set) caps s caps s
  | back {l : UInt8} {caps : List Capture} {s n : ℕ} (h : Repeats src l caps s n) :
      Takes src (.back l) caps s caps (s + n)
  | atEnd {caps : List Capture} : Takes src .atEnd caps src.length caps src.length
  | single {f : UInt8 → Bool} {rep : Rep} {caps : List Capture} {s n : ℕ} (hn : rep.Allows n)
      (hle : s + n ≤ src.length) (hf : ∀ x ∈ (src.drop s).take n, f x = true) :
      Takes src (.single f rep) caps s caps (s + n)

/-- The derivations of a pattern. -/
inductive Matches (src : List UInt8) : List Item → List Capture → ℕ → List Capture → ℕ → Prop
  | nil {caps : List Capture} {s : ℕ} : Matches src [] caps s caps s
  | cons {i : Item} {is : List Item} {caps caps₁ caps' : List Capture} {s s₁ s' : ℕ}
      (h : Takes src i caps s caps₁ s₁) (hrest : Matches src is caps₁ s₁ caps' s') :
      Matches src (i :: is) caps s caps' s'

variable {src : List UInt8} {caps caps' : List Capture} {lo s s' : ℕ}

/-- The beginning of a list in which all is in a class. -/
theorem le_length_takeWhile {f : UInt8 → Bool} {l : List UInt8} {n : ℕ} :
    n ≤ (l.takeWhile f).length ↔ n ≤ l.length ∧ ∀ x ∈ l.take n, f x = true := by
  induction l generalizing n with
  | nil => simp
  | cons x l ih =>
    cases n with
    | zero => simp
    | succ n => cases hx : f x <;> simp [hx, ih]

/-- The longest run. -/
theorem le_run {f : UInt8 → Bool} {n : ℕ} (hs : s ≤ src.length) :
    n ≤ run src f s ↔ s + n ≤ src.length ∧ ∀ x ∈ (src.drop s).take n, f x = true := by
  rw [run, le_length_takeWhile, List.length_drop]
  exact and_congr_left fun _ => by omega

/-- The repetitions that are tried. -/
theorem mem_counts {rep : Rep} {m n : ℕ} : n ∈ rep.counts m ↔ rep.Allows n ∧ n ≤ m := by
  cases rep with
  | one =>
    simp only [Rep.counts, Rep.Allows]
    split_ifs <;> simp <;> omega
  | optional =>
    simp only [Rep.counts, Rep.Allows]
    split_ifs <;> simp <;> omega
  | star =>
    simp only [Rep.counts, Rep.Allows, List.mem_reverse, List.mem_range, true_and]
    omega
  | plus =>
    simp only [Rep.counts, Rep.Allows, List.mem_map, List.mem_reverse, List.mem_range]
    constructor
    · rintro ⟨i, hi, rfl⟩
      omega
    · rintro ⟨h, hle⟩
      exact ⟨n - 1, by omega, by omega⟩
  | minus =>
    simp only [Rep.counts, Rep.Allows, List.mem_range, true_and]
    omega

@[simp] theorem depth_nil (b e : UInt8) : depth b e [] = 1 := by simp [depth]

/-- One more character. -/
theorem depth_cons (b e x : UInt8) (u : List UInt8) :
    depth b e (x :: u) = depth b e u + if x = e then -1 else if x = b then 1 else 0 := by
  simp only [depth, List.count_cons, beq_iff_eq]
  by_cases hbe : b = e
  · subst hbe
    simp only [if_true]
    split_ifs <;> push_cast <;> omega
  · simp only [if_neg hbe]
    by_cases hxe : x = e
    · subst hxe
      simp [Ne.symm hbe]
      omega
    · split_ifs <;> push_cast <;> omega

/-- **The loop of `matchbalance`.** -/
theorem balance_eq_some {b e : UInt8} {l : List UInt8} {cont : ℕ} (hcont : 1 ≤ cont) :
    balance b e l s cont = some s' ↔
      ∃ n ≤ l.length, s' = s + n ∧ (cont : ℤ) - 1 + depth b e (l.take n) = 0 ∧
        ∀ m < n, 0 < (cont : ℤ) - 1 + depth b e (l.take m) := by
  induction l generalizing s cont with
  | nil =>
    constructor
    · rintro h
      cases h
    · rintro ⟨n, -, -, h, -⟩
      rw [List.take_nil, depth_nil] at h
      omega
  | cons x l ih =>
    -- the counter behind the character
    have hstep : ∀ cont' : ℕ, (cont' : ℤ) = cont + (if x = e then -1 else if x = b then 1 else 0) →
        ((∃ n ≤ (x :: l).length, s' = s + n ∧ (cont : ℤ) - 1 + depth b e ((x :: l).take n) = 0 ∧
            ∀ m < n, 0 < (cont : ℤ) - 1 + depth b e ((x :: l).take m)) ↔
          ∃ n ≤ l.length, s' = s + 1 + n ∧ (cont' : ℤ) - 1 + depth b e (l.take n) = 0 ∧
            ∀ m < n, 0 < (cont' : ℤ) - 1 + depth b e (l.take m)) := by
      intro cont' hcont'
      constructor
      · rintro ⟨n, hn, rfl, hzero, hpos⟩
        cases n with
        | zero =>
          rw [List.take_zero, depth_nil] at hzero
          omega
        | succ n =>
          rw [List.take_succ_cons, depth_cons] at hzero
          refine ⟨n, by simpa using hn, by omega, by omega, fun m hm => ?_⟩
          have := hpos (m + 1) (by omega)
          rw [List.take_succ_cons, depth_cons] at this
          omega
      · rintro ⟨n, hn, rfl, hzero, hpos⟩
        refine ⟨n + 1, by simpa using hn, by omega, ?_, fun m hm => ?_⟩
        · rw [List.take_succ_cons, depth_cons]
          omega
        · cases m with
          | zero =>
            rw [List.take_zero, depth_nil]
            omega
          | succ m =>
            have := hpos m (by omega)
            rw [List.take_succ_cons, depth_cons]
            omega
    rw [balance]
    by_cases hxe : x = e
    · simp only [if_pos hxe] at hstep ⊢
      split_ifs with hone
      · rw [hstep 0 (by omega)]
        constructor
        · rintro h
          cases h
          exact ⟨0, by omega, rfl, by rw [List.take_zero, depth_nil]; rfl, fun m hm => by omega⟩
        · rintro ⟨n, -, rfl, -, hpos⟩
          cases n with
          | zero => rfl
          | succ n =>
            have := hpos 0 (by omega)
            rw [List.take_zero, depth_nil] at this
            omega
      · rw [hstep (cont - 1) (by omega), ih (by omega)]
    · simp only [if_neg hxe] at hstep ⊢
      split_ifs with hxb
      · rw [hstep (cont + 1) (by simp [hxb]), ih (by omega)]
      · rw [hstep cont (by simp [hxb]), ih hcont]

/-- A balanced part of the subject. -/
theorem mem_balance (hs : s ≤ src.length) {b e : UInt8} :
    .ok (caps', s') ∈ (Item.balance b e).steps src caps s ↔
      ∃ n, (s + n ≤ src.length ∧ Closes b e ((src.drop s).take n)) ∧ caps' = caps ∧ s' = s + n := by
  simp only [Item.steps]
  rcases hdrop : src.drop s with - | ⟨x, l⟩
  · have hnone : balance b e (src.drop (s + 1)) (s + 1) 1 = none := by
      rw [← List.drop_drop, hdrop]
      rfl
    simp [hnone, Closes]
  · have hlength : l.length + 1 + s = src.length := by
      have := congrArg List.length hdrop
      rw [List.length_drop, List.length_cons] at this
      omega
    have hget : src.getD s 0 = x := by
      rw [List.getD_eq_getElem?_getD, ← List.head?_drop, hdrop]
      rfl
    have hdrop' : src.drop (s + 1) = l := by
      rw [← List.drop_drop, hdrop, List.drop_one, List.tail_cons]
    rw [hget, hdrop']
    constructor
    · intro h
      split_ifs at h with hx
      · cases h
      · obtain ⟨s₁, hs₁, heq⟩ := List.mem_map.mp h
        cases heq
        obtain ⟨n, hn, rfl, hzero, hpos⟩ := (balance_eq_some le_rfl).mp (Option.mem_toList.mp hs₁)
        simp only [Nat.cast_one, sub_self, zero_add] at hzero hpos
        refine ⟨n + 1, ⟨by omega, l.take n, ?_, hzero, fun m hm => ?_⟩, rfl, by omega⟩
        · rw [List.take_succ_cons, not_ne_iff.mp hx]
        · rw [List.length_take] at hm
          rw [List.take_take, Nat.min_eq_left (by omega)]
          exact hpos m (by omega)
    · rintro ⟨n, ⟨hn, u, hu, hzero, hpos⟩, rfl, rfl⟩
      cases n with
      | zero => cases hu
      | succ n =>
        rw [List.take_succ_cons, List.cons.injEq] at hu
        obtain ⟨rfl, rfl⟩ := hu
        have hsome : balance x e l (s + 1) 1 = some (s + 1 + n) := by
          refine (balance_eq_some le_rfl).mpr
            ⟨n, by omega, rfl, by simpa using hzero, fun m hm => ?_⟩
          have hlt : m < (l.take n).length := by
            rw [List.length_take]
            omega
          have := hpos m hlt
          rw [List.take_take, Nat.min_eq_left (by omega)] at this
          simpa using this
        rw [if_neg (not_ne_iff.mpr rfl), hsome]
        simp
        omega

/-- A capture that begins. -/
theorem mem_beginCapture {what : ℤ} :
    .ok (caps', s') ∈ beginCapture what caps s ↔
      caps.length < luaMaxcaptures ∧ caps' = caps ++ [⟨s, what⟩] ∧ s' = s := by
  rw [beginCapture]
  split_ifs with hfull
  · simp [hfull]
  · simp [Nat.lt_of_not_le hfull]

/-- A capture that is matched again. -/
theorem mem_back {l : UInt8} :
    .ok (caps', s') ∈ (Item.back l).steps src caps s ↔
      ∃ n, Repeats src l caps s n ∧ caps' = caps ∧ s' = s + n := by
  have hindex : ((l.toNat : ℤ) - 49).toNat = l.toNat - 49 := by omega
  simp only [Item.steps, hindex]
  constructor
  · intro h
    split_ifs at h with hbad hsame
    · simp at h
    · cases List.mem_singleton.mp h
      have hlt : l.toNat - 49 < caps.length := by omega
      rw [List.getD_eq_getElem caps _ hlt] at hbad hsame ⊢
      exact ⟨_, ⟨by omega, _, List.getElem?_eq_getElem hlt, by omega, by omega, hsame.2.2⟩, rfl,
        rfl⟩
    · simp at h
  · rintro ⟨n, ⟨hl, c, hc, hn, hle, htext⟩, rfl, rfl⟩
    obtain ⟨hlt, -⟩ := List.getElem?_eq_some_iff.mp hc
    have hget : caps'.getD (l.toNat - 49) ⟨0, 0⟩ = c := by
      rw [List.getD_eq_getElem?_getD, hc, Option.getD_some]
    have hnat : c.len.toNat = n := by omega
    rw [hget, hnat, if_neg (by rw [hn, capUnfinished]; omega), if_pos ⟨by omega, by omega, htext⟩]
    exact List.mem_singleton_self _

/-- **The outcomes of an item are its derivations.** -/
theorem mem_steps (hs : s ≤ src.length) {i : Item} :
    .ok (caps', s') ∈ i.steps src caps s ↔ Takes src i caps s caps' s' := by
  cases i with
  | opening => simp [Item.steps, takes_iff, mem_beginCapture]
  | position => simp [Item.steps, takes_iff, mem_beginCapture]
  | closing => rcases hl : unfinished caps with - | l <;> simp [Item.steps, takes_iff, hl]
  | balance b e => simp [mem_balance hs, takes_iff, and_assoc]
  | frontier set => cases hset : frontier src s set <;> simp [Item.steps, takes_iff, hset]
  | back l => simp [mem_back, takes_iff]
  | atEnd => by_cases hend : s = src.length <;> simp [Item.steps, takes_iff, hend]
  | single f rep =>
    simp only [Item.steps, List.mem_map, mem_counts, le_run hs]
    constructor
    · rintro ⟨n, ⟨hn, hle, hf⟩, heq⟩
      cases heq
      exact .single hn hle hf
    · intro h
      cases h with
      | single hn hle hf => exact ⟨_, ⟨hn, hle, hf⟩, rfl⟩
  | malformed e => simp [Item.steps, takes_iff]

/-- The place moves forward, in the subject. -/
theorem Takes.le {i : Item} (h : Takes src i caps s caps' s') : s ≤ s' := by
  cases h <;> omega

theorem Takes.le_length {i : Item} (h : Takes src i caps s caps' s') (hs : s ≤ src.length) :
    s' ≤ src.length := by
  cases h with
  | back h =>
    obtain ⟨-, -, -, -, hle, -⟩ := h
    exact hle
  | _ => omega

/-- **The outcomes of a pattern are its derivations.** -/
theorem mem_outcomes (hs : s ≤ src.length) {is : List Item} :
    .ok (caps', s') ∈ outcomes src is caps s ↔ Matches src is caps s caps' s' := by
  induction is generalizing caps s with
  | nil =>
    constructor
    · intro h
      cases List.mem_singleton.mp h
      exact .nil
    · intro h
      cases h
      exact List.mem_singleton_self _
  | cons i is ih =>
    rw [outcomes, ok_mem_chain]
    constructor
    · rintro ⟨caps₁, s₁, hstep, hrest⟩
      have htakes := (mem_steps hs).mp hstep
      exact .cons htakes ((ih (htakes.le_length hs)).mp hrest)
    · intro h
      cases h with
      | cons htakes hrest =>
        exact ⟨_, _, (mem_steps hs).mpr htakes, (ih (htakes.le_length hs)).mpr hrest⟩

/-! ### Captures in the subject -/

/-- A capture lies between the place of the match and the one that is reached. -/
structure Capture.Within (c : Capture) (lo s : ℕ) : Prop where
  le_start : lo ≤ c.start
  start_le : c.start ≤ s
  len_ge : capPosition ≤ c.len
  end_le : c.start + c.len ≤ s

theorem Capture.Within.mono {c : Capture} (h : c.Within lo s) (hs : s ≤ s') : c.Within lo s' :=
  ⟨h.le_start, h.start_le.trans hs, h.len_ge, h.end_le.trans (Int.ofNat_le.mpr hs)⟩

/-- The captures lie between the place of the match and the one that is reached. -/
def Sound (lo : ℕ) (caps : List Capture) (s : ℕ) : Prop := lo ≤ s ∧ ∀ c ∈ caps, c.Within lo s

theorem sound_nil (s : ℕ) : Sound s [] s := ⟨le_rfl, by simp⟩

theorem Sound.mono (h : Sound lo caps s) (hs : s ≤ s') : Sound lo caps s' :=
  ⟨h.1.trans hs, fun c hc => (h.2 c hc).mono hs⟩

/-- A capture that begins. -/
theorem Sound.begin (h : Sound lo caps s) {what : ℤ}
    (hwhat : what = capUnfinished ∨ what = capPosition) : Sound lo (caps ++ [⟨s, what⟩]) s := by
  refine ⟨h.1, fun c hc => ?_⟩
  rcases List.mem_append.mp hc with hc | hc
  · exact h.2 c hc
  · cases List.mem_singleton.mp hc
    rw [capUnfinished, capPosition] at hwhat
    refine ⟨h.1, le_rfl, ?_, ?_⟩
    · dsimp only [capPosition]
      omega
    · dsimp only
      omega

theorem unfinished_spec {l : ℕ} (h : unfinished caps = some l) :
    ∃ hl : l < caps.length, caps[l].len = capUnfinished := by
  obtain ⟨hl, hlen⟩ := captureToClose_eq_some h
  exact ⟨hl, by rwa [List.getD_eq_getElem caps _ hl] at hlen⟩

/-- **The captures of an item lie in the subject.** -/
theorem Takes.sound {i : Item} (h : Takes src i caps s caps' s') (hsound : Sound lo caps s) :
    Sound lo caps' s' := by
  cases h with
  | opening => exact hsound.begin (Or.inl rfl)
  | position => exact hsound.begin (Or.inr rfl)
  | closing h =>
    obtain ⟨hl, -⟩ := unfinished_spec h
    refine ⟨hsound.1, fun c hc => ?_⟩
    rcases List.mem_or_eq_of_mem_set hc with hc | rfl
    · exact hsound.2 c hc
    · rw [List.getD_eq_getElem caps _ hl]
      have hold := hsound.2 _ (List.getElem_mem hl)
      have hstart := hold.start_le
      refine ⟨hold.le_start, hstart, ?_, ?_⟩
      · dsimp only [capPosition]
        omega
      · dsimp only
        omega
  | balance => exact hsound.mono (by omega)
  | frontier => exact hsound
  | back => exact hsound.mono (by omega)
  | atEnd => exact hsound
  | single => exact hsound.mono (by omega)

/-- **The captures of a pattern lie in the subject.** -/
theorem Matches.sound {is : List Item} (h : Matches src is caps s caps' s') (hs : s ≤ src.length)
    (hsound : Sound lo caps s) : s' ≤ src.length ∧ Sound lo caps' s' := by
  induction h with
  | nil => exact ⟨hs, hsound⟩
  | cons h hrest ih => exact ih (h.le_length hs) (h.sound hsound)

/-! ### Well-formed patterns -/

/-- Which captures are finished. -/
def finished (caps : List Capture) : List Bool := caps.map fun c => c.len ≠ capUnfinished

/-- The last capture that is not finished, where it is known which ones are. -/
def lastOpen (flags : List Bool) : Option ℕ :=
  captureToClose (fun i => ⟨0, if flags.getD i true then 0 else capUnfinished⟩) flags.length

/-- The captures of the items are in order, where it is known which ones are finished. -/
def check : List Item → List Bool → Bool
  | [], flags => flags.all id
  | .opening :: is, flags => flags.length < luaMaxcaptures && check is (flags ++ [false])
  | .position :: is, flags => flags.length < luaMaxcaptures && check is (flags ++ [true])
  | .closing :: is, flags => (lastOpen flags).any fun l => check is (flags.set l true)
  | .back l :: is, flags => 49 ≤ l.toNat && flags.getD (l.toNat - 49) false && check is flags
  | .malformed _ :: _, _ => false
  | .balance _ _ :: is, flags => check is flags
  | .frontier _ :: is, flags => check is flags
  | .atEnd :: is, flags => check is flags
  | .single _ _ :: is, flags => check is flags

/-- A pattern whose captures are in order. -/
def WellFormed (p : List UInt8) : Prop := check (items p) [] = true

instance wellFormedDecidable (p : List UInt8) : Decidable (WellFormed p) :=
  inferInstanceAs (Decidable (check (items p) [] = true))

@[simp] theorem length_finished (caps : List Capture) : (finished caps).length = caps.length :=
  List.length_map _

theorem finished_getD {l : ℕ} (hl : l < caps.length) :
    (finished caps).getD l true = true ↔ (caps.getD l ⟨0, 0⟩).len ≠ capUnfinished := by
  simp [finished, hl]

/-- It is known which capture is closed. -/
theorem lastOpen_finished (caps : List Capture) : lastOpen (finished caps) = unfinished caps := by
  rw [lastOpen, unfinished, length_finished]
  refine captureToClose_congr fun i hi => ?_
  rw [← not_iff_not, ← ne_eq, ← ne_eq, ← finished_getD hi]
  split_ifs with h
  · exact iff_of_true (by simp [capUnfinished]) h
  · exact iff_of_false (by simp) h

/-- The item leaves the captures as they are. -/
def Item.Still : Item → Prop
  | .opening | .position | .closing | .back _ | .malformed _ => False
  | .balance _ _ | .frontier _ | .atEnd | .single _ _ => True

/-- An item that leaves the captures as they are raises no error. -/
theorem Item.Still.steps {i : Item} (hi : i.Still) {r : Except Error (List Capture × ℕ)}
    (hr : r ∈ i.steps src caps s) : ∃ s', r = .ok (caps, s') := by
  cases i with
  | balance b e =>
    simp only [Item.steps] at hr
    split_ifs at hr
    · cases hr
    · obtain ⟨s', -, rfl⟩ := List.mem_map.mp hr
      exact ⟨s', rfl⟩
  | frontier set =>
    simp only [Item.steps] at hr
    split_ifs at hr
    · exact ⟨s, List.mem_singleton.mp hr⟩
    · cases hr
  | atEnd =>
    simp only [Item.steps] at hr
    split_ifs at hr
    · exact ⟨s, List.mem_singleton.mp hr⟩
    · cases hr
  | single f rep =>
    obtain ⟨n, -, rfl⟩ := List.mem_map.mp hr
    exact ⟨s + n, rfl⟩
  | _ => cases hi

/-- A capture that begins in a pattern that is checked. -/
theorem mem_beginCapture_of_lt {what : ℤ} (h : caps.length < luaMaxcaptures)
    {r : Except Error (List Capture × ℕ)} (hr : r ∈ beginCapture what caps s) :
    r = .ok (caps ++ [⟨s, what⟩], s) := by
  rw [beginCapture, if_neg (by omega)] at hr
  exact List.mem_singleton.mp hr

/-- **What an item does in a pattern that is checked.** -/
theorem check_cons {i : Item} {is : List Item} (h : check (i :: is) (finished caps) = true)
    (hsound : Sound lo caps s) {r : Except Error (List Capture × ℕ)} (hr : r ∈ i.steps src caps s) :
    ∃ caps' s', r = .ok (caps', s') ∧ check is (finished caps') = true := by
  have hstill (hi : i.Still) (hcheck : check is (finished caps) = true) :
      ∃ caps' s', r = .ok (caps', s') ∧ check is (finished caps') = true := by
    obtain ⟨s', rfl⟩ := hi.steps hr
    exact ⟨caps, s', rfl, hcheck⟩
  cases i with
  | opening =>
    simp only [check, length_finished, Bool.and_eq_true, decide_eq_true_eq] at h
    refine ⟨_, s, mem_beginCapture_of_lt h.1 hr, ?_⟩
    simpa [finished] using h.2
  | position =>
    simp only [check, length_finished, Bool.and_eq_true, decide_eq_true_eq] at h
    refine ⟨_, s, mem_beginCapture_of_lt h.1 hr, ?_⟩
    simpa [finished, capPosition, capUnfinished] using h.2
  | closing =>
    simp only [check, lastOpen_finished] at h
    simp only [Item.steps] at hr
    rcases hl : unfinished caps with - | l
    · rw [hl] at h
      cases h
    · rw [hl] at h hr
      refine ⟨_, s, List.mem_singleton.mp hr, ?_⟩
      have hlt := (unfinished_spec hl).1
      have hstart : (caps.getD l ⟨0, 0⟩).start ≤ s := by
        rw [List.getD_eq_getElem caps _ hlt]
        exact (hsound.2 _ (List.getElem_mem hlt)).start_le
      have hlen : ((s : ℤ) - (caps.getD l ⟨0, 0⟩).start ≠ capUnfinished) := by
        rw [capUnfinished]
        omega
      rw [finished, List.map_set]
      change check is ((finished caps).set l (decide (_ ≠ _))) = true
      rw [decide_eq_true hlen]
      exact h
  | back l =>
    simp only [check, Bool.and_eq_true, decide_eq_true_eq] at h
    obtain ⟨⟨hl, hfinished⟩, hcheck⟩ := h
    have hindex : ((l.toNat : ℤ) - 49).toNat = l.toNat - 49 := by omega
    have hlt : l.toNat - 49 < caps.length := by
      by_contra hge
      rw [List.getD_eq_default _ _ (by simpa using hge)] at hfinished
      cases hfinished
    have hlen : (caps.getD (l.toNat - 49) ⟨0, 0⟩).len ≠ capUnfinished := by
      rw [← finished_getD hlt]
      simpa [finished, hlt] using hfinished
    simp only [Item.steps, hindex] at hr
    rw [if_neg (by omega)] at hr
    split_ifs at hr
    · exact ⟨caps, _, List.mem_singleton.mp hr, hcheck⟩
    · cases hr
  | malformed e => cases h
  | balance b e => exact hstill trivial h
  | frontier set => exact hstill trivial h
  | atEnd => exact hstill trivial h
  | single f rep => exact hstill trivial h

/-- **A pattern that is checked raises no error, and finishes its captures.** -/
theorem outcomes_of_check {is : List Item} (h : check is (finished caps) = true)
    (hs : s ≤ src.length) (hsound : Sound lo caps s) {r : Except Error (List Capture × ℕ)}
    (hr : r ∈ outcomes src is caps s) :
    ∃ caps' s', r = .ok (caps', s') ∧ ∀ c ∈ caps', c.len ≠ capUnfinished := by
  induction is generalizing caps s with
  | nil =>
    refine ⟨caps, s, List.mem_singleton.mp hr, ?_⟩
    simpa [check, finished] using h
  | cons i is ih =>
    obtain ⟨r₁, hr₁, hr⟩ := List.mem_flatMap.mp hr
    obtain ⟨caps₁, s₁, rfl, hcheck⟩ := check_cons h hsound hr₁
    have htakes := (mem_steps hs).mp hr₁
    exact ih hcheck (htakes.le_length hs) (htakes.sound hsound) hr

end ELuaBrain.Lua.Patterns
