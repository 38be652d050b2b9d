import ELuaBrain.Lua.Pattern
import ELuaBrain.System.Backtrack

/-!
# What a pattern stands for

A pattern is a sequence of items. An item takes a place in the subject and the captures so far to
the places and captures behind it, in the order in which the match tries them; the outcomes of a
pattern are those of its items one after the other. The match computes the first one of them:
whatever a part that fails has written into the captures is taken back.

## Main definitions

* `Item`, `items` : the items of a pattern.
* `Item.steps`, `outcomes` : what they take a place and the captures to.

## Main results

* `doMatch_realizes` : the match computes the first outcome.
* `items_ne_endless` : it comes to an end.
-/

namespace ELuaBrain.Lua.Patterns

open Function Backtrack

/-! ### Items -/

/-- How often a single item is repeated. -/
inductive Rep where
  | one
  | optional
  | star
  | plus
  | minus
  deriving DecidableEq

/-- An item of a pattern. -/
inductive Item where
  | opening
  | position
  | closing
  | balance (b e : UInt8)
  | frontier (set : List UInt8)
  | back (l : UInt8)
  | atEnd
  | single (f : UInt8 → Bool) (rep : Rep)
  | malformed (e : Error)

/-- The repetition at the end of a single item, and what is behind it. -/
def repOf : List UInt8 → Rep × List UInt8
  | [] => (.one, [])
  | q :: p =>
      if q = ch '?' then (.optional, p)
      else if q = ch '*' then (.star, p)
      else if q = ch '+' then (.plus, p)
      else if q = ch '-' then (.minus, p)
      else (.one, q :: p)

/-- The item that begins with `c`, and what is behind it. -/
def item (c : UInt8) (p : List UInt8) : Item × List UInt8 :=
  if c = ch '(' then
    if p.head? = some (ch ')') then (.position, p.tail) else (.opening, p)
  else if c = ch ')' then (.closing, p)
  else if c = lEsc ∧ p.head? = some (ch 'b') then
    match p.tail with
    | b :: e :: q => (.balance b e, q)
    | _ => (.malformed .unbalanced, [])
  else if c = lEsc ∧ p.head? = some (ch 'f') then
    match p.tail with
    | [] => (.malformed .frontier, [])
    | d :: q =>
        if d ≠ ch '[' then (.malformed .frontier, [])
        else
          match classend d q with
          | .error e => (.malformed e, [])
          | .ok ep => (.frontier (between q ep), ep)
  else if c = lEsc ∧ p.head?.any isdigit then (.back (p.headD 0), p.tail)
  else if c = ch '$' ∧ p = [] then (.atEnd, [])
  else
    match classend c p with
    | .error e => (.malformed e, [])
    | .ok ep => (.single (fun x => singlematch x c p ep) (repOf ep).1, (repOf ep).2)

/-- The items of a pattern that has no more characters than the fuel. -/
def itemsOf : ℕ → List UInt8 → List Item
  | _, [] => []
  | 0, _ :: _ => [.malformed .endless]
  | fuel + 1, c :: p => (item c p).1 :: itemsOf fuel (item c p).2

/-- The items of a pattern. -/
def items (p : List UInt8) : List Item := itemsOf p.length p

/-! ### Outcomes -/

/-- The captures that count. -/
def MatchState.captures (ms : MatchState) : List Capture := (List.range ms.level).map ms.capture

/-- The numbers of repetitions, in the order in which they are tried, where the longest run has `n`
characters. -/
def Rep.counts (n : ℕ) : Rep → List ℕ
  | .one => if 0 < n then [1] else []
  | .optional => if 0 < n then [1, 0] else [0]
  | .star => (List.range (n + 1)).reverse
  | .plus => (List.range n).reverse.map (· + 1)
  | .minus => List.range (n + 1)

/-- The last one of the captures that is not finished. -/
def unfinished (caps : List Capture) : Option ℕ :=
  captureToClose (fun i => caps.getD i ⟨0, 0⟩) caps.length

/-- A capture begins, with `what` for its length. -/
def beginCapture (what : ℤ) (caps : List Capture) (s : ℕ) :
    List (Except Error (List Capture × ℕ)) :=
  if luaMaxcaptures ≤ caps.length then [.error .tooManyCaptures]
  else [.ok (caps ++ [⟨s, what⟩], s)]

section Outcomes

variable (src : List UInt8)

/-- The number of characters from `s` on that are in a class. -/
def run (f : UInt8 → Bool) (s : ℕ) : ℕ := ((src.drop s).takeWhile f).length

/-- The outcomes of an item. -/
def Item.steps : Item → List Capture → ℕ → List (Except Error (List Capture × ℕ))
  | .opening, caps, s => beginCapture capUnfinished caps s
  | .position, caps, s => beginCapture capPosition caps s
  | .closing, caps, s =>
      match unfinished caps with
      | none => [.error .patternCapture]
      | some l =>
          let c := caps.getD l ⟨0, 0⟩
          [.ok (caps.set l { c with len := s - c.start }, s)]
  | .balance b e, caps, s =>
      if src.getD s 0 ≠ b then []
      else (Patterns.balance b e (src.drop (s + 1)) (s + 1) 1).toList.map fun s => .ok (caps, s)
  | .frontier set, caps, s => if Patterns.frontier src s set then [.ok (caps, s)] else []
  | .back l, caps, s =>
      let i := (l.toNat : ℤ) - 49
      let c := caps.getD i.toNat ⟨0, 0⟩
      if i < 0 ∨ caps.length ≤ i ∨ c.len = capUnfinished then [.error .captureIndex]
      else if 0 ≤ c.len ∧ c.len ≤ src.length - s ∧
          (src.drop c.start).take c.len.toNat = (src.drop s).take c.len.toNat then
        [.ok (caps, s + c.len.toNat)]
      else []
  | .atEnd, caps, s => if s = src.length then [.ok (caps, s)] else []
  | .single f rep, caps, s => (rep.counts (run src f s)).map fun n => .ok (caps, s + n)
  | .malformed e, _, _ => [.error e]

/-- The outcomes of items one after the other. -/
def outcomes : List Item → List Capture → ℕ → List (Except Error (List Capture × ℕ))
  | [], caps, s => [.ok (caps, s)]
  | i :: is, caps, s => chain (i.steps src caps s) (outcomes is)

end Outcomes

/-! ### Captures -/

section Captures

variable {ms ms' : MatchState} {l : ℕ}

@[simp] theorem length_captures (ms : MatchState) : ms.captures.length = ms.level := by
  simp [MatchState.captures]

theorem captures_getD (hl : l < ms.level) : ms.captures.getD l ⟨0, 0⟩ = ms.capture l := by
  simp [MatchState.captures, hl]

@[simp] theorem level_setLen (ms : MatchState) (l : ℕ) (len : ℤ) :
    (ms.setLen l len).level = ms.level := rfl

/-- A length in the captures that count. -/
theorem captures_setLen (ms : MatchState) (l : ℕ) (len : ℤ) :
    (ms.setLen l len).captures = ms.captures.set l { ms.capture l with len := len } := by
  refine List.ext_getElem (by simp) fun i hi hi' => ?_
  simp only [MatchState.captures, MatchState.setLen, List.getElem_map, List.getElem_range,
    List.getElem_set, update_apply]
  by_cases h : i = l
  · simp [h]
  · simp [h, Ne.symm h]

/-- One more capture. -/
theorem captures_push (ms : MatchState) (c : Capture) :
    (MatchState.mk (ms.level + 1) (update ms.capture ms.level c)).captures =
      ms.captures ++ [c] := by
  simp only [MatchState.captures, List.range_succ, List.map_append, List.map_cons, List.map_nil,
    update_self]
  congr 1
  refine List.map_congr_left fun i hi => update_of_ne ?_ _ _
  exact (List.mem_range.mp hi).ne

/-- The last capture does not count any more. -/
theorem captures_pop (ms : MatchState) :
    (MatchState.mk (ms.level - 1) ms.capture).captures = ms.captures.dropLast := by
  rcases ms with ⟨level, capture⟩
  cases level with
  | zero => rfl
  | succ n => simp [MatchState.captures, List.range_succ]

/-- The captures that count are those that the match looks at. -/
theorem captureToClose_congr {c c' : ℕ → Capture} {n : ℕ}
    (h : ∀ i < n, (c i).len = capUnfinished ↔ (c' i).len = capUnfinished) :
    captureToClose c n = captureToClose c' n := by
  induction n with
  | zero => rfl
  | succ n ih =>
    have hlt := Nat.lt_succ_self n
    simp only [captureToClose, h n hlt, ih fun i hi => h i (hi.trans hlt)]

theorem captureToClose_captures (ms : MatchState) :
    captureToClose ms.capture ms.level = unfinished ms.captures := by
  rw [unfinished, length_captures]
  exact captureToClose_congr fun i hi => by rw [captures_getD hi]

theorem captureToClose_eq_some {c : ℕ → Capture} {n : ℕ} (h : captureToClose c n = some l) :
    l < n ∧ (c l).len = capUnfinished := by
  induction n with
  | zero => cases h
  | succ n ih =>
    rw [captureToClose] at h
    split_ifs at h with hlen
    · cases h
      exact ⟨Nat.lt_succ_self _, hlen⟩
    · obtain ⟨hlt, hl⟩ := ih h
      exact ⟨hlt.trans (Nat.lt_succ_self n), hl⟩

/-- Finishing a capture is taken back. -/
theorem captures_undo (hl : l < ms.level) (hlen : (ms.capture l).len = capUnfinished) {len : ℤ}
    (h : ms'.captures = (ms.setLen l len).captures) :
    (ms'.setLen l capUnfinished).captures = ms.captures := by
  have hlevel : ms'.level = ms.level := by
    rw [← length_captures ms', h, length_captures, level_setLen]
  have hcapture : ms'.capture l = { ms.capture l with len := len } := by
    rw [← captures_getD (hlevel ▸ hl), h, captures_setLen]
    simp [hl]
  rw [captures_setLen, hcapture, h, captures_setLen, List.set_set, ← hlen]
  refine List.ext_getElem (by simp) fun i hi hi' => ?_
  rw [List.getElem_set]
  split_ifs with heq
  · subst heq
    simp [MatchState.captures]
  · rfl

end Captures

/-! ### The match of an item -/

section Match

variable {src : List UInt8} {k : MatchState → ℕ → Result}
  {o : List Capture → ℕ → List (Except Error (List Capture × ℕ))}

/-- A match computes the first outcome at every place. -/
def Follows (k : MatchState → ℕ → Result)
    (o : List Capture → ℕ → List (Except Error (List Capture × ℕ))) : Prop :=
  ∀ s, Realizes MatchState.captures (fun ms => k ms s) fun caps => o caps s

/-- **The repetitions of `max_expand`.** -/
theorem Follows.maxLoop (h : Follows k o) (s n : ℕ) :
    Realizes MatchState.captures (fun ms => maxLoop k s ms n) fun caps =>
      (List.range (n + 1)).reverse.flatMap fun i => o caps (s + i) := by
  induction n with
  | zero => simpa [Patterns.maxLoop] using h s
  | succ n ih =>
    have hrange : (List.range (n + 1 + 1)).reverse = (n + 1) :: (List.range (n + 1)).reverse := by
      rw [List.range_succ, List.reverse_append, List.reverse_singleton, List.singleton_append]
    simp only [hrange, List.flatMap_cons]
    exact (h (s + (n + 1))).orElse ih

/-- **The repetitions of `min_expand`.** -/
theorem Follows.minLoop (h : Follows k o) (f : UInt8 → Bool) (l : List UInt8) (s : ℕ) :
    Realizes MatchState.captures (fun ms => minLoop f k ms s l) fun caps =>
      (List.range ((l.takeWhile f).length + 1)).flatMap fun i => o caps (s + i) := by
  induction l generalizing s with
  | nil => simpa [Patterns.minLoop] using h s
  | cons x l ih =>
    by_cases hx : f x = true
    · have hloop : (fun ms => Patterns.minLoop f k ms s (x :: l)) =
          orElse (fun ms => k ms s) fun ms => Patterns.minLoop f k ms (s + 1) l := by
        funext ms
        simp [Patterns.minLoop, orElse, hx]
      have hrange : List.range (((x :: l).takeWhile f).length + 1) =
          0 :: (List.range ((l.takeWhile f).length + 1)).map (· + 1) := by
        rw [List.takeWhile_cons_of_pos hx, List.length_cons, List.range_succ_eq_map]
      rw [hloop, hrange]
      simpa only [List.flatMap_cons, List.flatMap_map, Nat.add_assoc, Nat.add_comm 1, Nat.add_zero]
        using (h s).orElse (ih (s + 1))
    · have hloop : (fun ms => Patterns.minLoop f k ms s (x :: l)) =
          orElse (fun ms => k ms s) fun ms => pure (ms, none) := by
        funext ms
        simp [Patterns.minLoop, orElse, hx]
      rw [hloop, List.takeWhile_cons_of_neg hx]
      exact (h s).orElse realizes_fail

/-- The match goes on at one place, or fails. -/
theorem Follows.goOn (h : Follows k o) (r : Option ℕ) :
    Realizes MatchState.captures (fun ms => goOn k ms r) fun caps =>
      chain (r.toList.map fun s => .ok (caps, s)) o := by
  cases r with
  | none => exact realizes_fail
  | some s => simpa [Patterns.goOn, chain, follow] using h s

/-- The longest run begins with the item. -/
theorem run_eq (f : UInt8 → Bool) (s : ℕ) :
    run src f s = if atItem src f s then run src f (s + 1) + 1 else 0 := by
  have htail : src.drop (s + 1) = (src.drop s).tail := List.tail_drop.symm
  rw [run, run, htail]
  change _ = if (src.drop s).head?.any f then _ else 0
  rcases src.drop s with - | ⟨x, l⟩
  · rfl
  · cases hx : f x <;> simp [hx]

/-- **An item without repetitions.** -/
theorem Follows.one (h : Follows k o) (f : UInt8 → Bool) (s : ℕ) :
    Realizes MatchState.captures
      (fun ms => if atItem src f s then k ms (s + 1) else pure (ms, none)) fun caps =>
      chain ((Item.single f .one).steps src caps s) o := by
  simp only [Item.steps, chain_map_ok, Rep.counts, run_eq f s]
  cases hf : atItem src f s with
  | false => simpa using realizes_fail
  | true => simpa using h (s + 1)

/-- **An optional item.** -/
theorem Follows.optional (h : Follows k o) (f : UInt8 → Bool) (s : ℕ) :
    Realizes MatchState.captures
      (fun ms =>
        if atItem src f s then do
          let (ms, res) ← k ms (s + 1)
          if res.isSome then pure (ms, res) else k ms s
        else k ms s) fun caps =>
      chain ((Item.single f .optional).steps src caps s) o := by
  simp only [Item.steps, chain_map_ok, Rep.counts, run_eq f s]
  cases hf : atItem src f s with
  | false => simpa using h s
  | true =>
    simp only [if_true, Nat.zero_lt_succ, List.flatMap_cons, List.flatMap_nil, List.append_nil]
    exact (h (s + 1)).orElse (h s)

/-- **The repetitions of an item, as many as there are first.** -/
theorem Follows.star (h : Follows k o) (f : UInt8 → Bool) (s : ℕ) :
    Realizes MatchState.captures (fun ms => maxExpand src f k ms s) fun caps =>
      chain ((Item.single f .star).steps src caps s) o := by
  simp only [Item.steps, chain_map_ok, Rep.counts]
  exact h.maxLoop s _

/-- **One repetition at least.** -/
theorem Follows.plus (h : Follows k o) (f : UInt8 → Bool) (s : ℕ) :
    Realizes MatchState.captures
      (fun ms => if atItem src f s then maxExpand src f k ms (s + 1) else pure (ms, none))
      fun caps => chain ((Item.single f .plus).steps src caps s) o := by
  simp only [Item.steps, chain_map_ok, Rep.counts, run_eq f s]
  cases hf : atItem src f s with
  | false => simpa using realizes_fail
  | true =>
    have hloop := h.maxLoop (s + 1) (run src f (s + 1))
    simp only [Nat.add_assoc, Nat.add_comm 1] at hloop
    simp only [if_true, List.flatMap_map]
    exact hloop

/-- **The repetitions of an item, as few as there can be first.** -/
theorem Follows.minus (h : Follows k o) (f : UInt8 → Bool) (s : ℕ) :
    Realizes MatchState.captures (fun ms => minExpand src f k ms s) fun caps =>
      chain ((Item.single f .minus).steps src caps s) o := by
  simp only [Item.steps, chain_map_ok, Rep.counts]
  exact h.minLoop f _ s

/-- **The beginning of a capture.** -/
theorem Follows.startCapture (h : Follows k o) (what : ℤ) (s : ℕ) :
    Realizes MatchState.captures (fun ms => startCapture k ms s what) fun caps =>
      chain (beginCapture what caps s) o := by
  intro ms
  simp only [Patterns.startCapture, beginCapture, length_captures]
  split_ifs with hfull
  · rfl
  · rw [chain_ok, chain_nil, List.append_nil, ← captures_push]
    refine (h s).around (fun ms => { ms with level := ms.level - 1 }) fun ms' hms' => ?_
    rw [captures_pop, hms', captures_push, List.dropLast_concat]

/-- **The end of a capture.** -/
theorem Follows.endCapture (h : Follows k o) (s : ℕ) :
    Realizes MatchState.captures (fun ms => endCapture k ms s) fun caps =>
      chain (Item.closing.steps src caps s) o := by
  intro ms
  simp only [Patterns.endCapture, Item.steps, captureToClose_captures]
  rcases hl : unfinished ms.captures with - | l
  · rfl
  · rw [← captureToClose_captures] at hl
    obtain ⟨hlt, hlen⟩ := captureToClose_eq_some hl
    rw [chain_ok, chain_nil, List.append_nil, captures_getD hlt, ← captures_setLen]
    exact (h s).around (fun ms => ms.setLen l capUnfinished) fun ms' hms' =>
      captures_undo hlt hlen hms'

/-- **A capture again.** -/
theorem Follows.back (h : Follows k o) (l : UInt8) (s : ℕ) :
    Realizes MatchState.captures (fun ms => do Patterns.goOn k ms (← matchCapture src ms s l))
      fun caps => chain ((Item.back l).steps src caps s) o := by
  intro ms
  simp only [matchCapture, checkCapture, Item.steps, length_captures]
  by_cases hbad : (l.toNat : ℤ) - 49 < 0 ∨ (ms.level : ℤ) ≤ (l.toNat : ℤ) - 49
  · rw [if_pos (hbad.imp_right Or.inl), if_pos (hbad.imp_right Or.inl)]
    rfl
  · have hlt : ((l.toNat : ℤ) - 49).toNat < ms.level := by omega
    rw [captures_getD hlt]
    split_ifs with hindex hsame
    · rfl
    · simpa [bind, Except.bind, pure, Except.pure, hsame] using h.goOn (some _) ms
    · simpa [bind, Except.bind, pure, Except.pure, hsame] using h.goOn none ms

/-- **A balanced string.** -/
theorem Follows.balance (h : Follows k o) (b e : UInt8) (p : List UInt8) (s : ℕ) :
    Realizes MatchState.captures
      (fun ms => do Patterns.goOn k ms (← matchbalance src s (b :: e :: p)))
      fun caps => chain ((Item.balance b e).steps src caps s) o := by
  intro ms
  simp only [matchbalance, Item.steps]
  split_ifs with hb
  · rfl
  · exact h.goOn _ ms

/-- **A frontier.** -/
theorem Follows.frontier (h : Follows k o) (set : List UInt8) (s : ℕ) :
    Realizes MatchState.captures
      (fun ms => Patterns.goOn k ms (if frontier src s set then some s else none))
      fun caps => chain ((Item.frontier set).steps src caps s) o := by
  simp only [Item.steps]
  split_ifs with hfrontier
  · exact h.goOn (some s)
  · exact h.goOn none

/-- **An item that is no special case.** -/
theorem realizes_matchItem {k : List UInt8 → MatchState → ℕ → Result}
    {o : List UInt8 → List Capture → ℕ → List (Except Error (List Capture × ℕ))}
    (h : ∀ p, Follows (k p) (o p)) (c : UInt8) {p ep : List UInt8} (hend : classend c p = .ok ep)
    (s : ℕ) :
    Realizes MatchState.captures (fun ms => matchItem src k ms s c p) fun caps =>
      chain ((Item.single (fun x => singlematch x c p ep) (repOf ep).1).steps src caps s)
        (o (repOf ep).2) := by
  simp only [matchItem, hend, bind, Except.bind]
  rcases ep with - | ⟨q, ep⟩
  · exact (h []).one _ s
  · simp only [repOf]
    by_cases hoptional : q = ch '?'
    · simp only [if_pos hoptional]
      exact (h ep).optional _ s
    simp only [if_neg hoptional]
    by_cases hstar : q = ch '*'
    · simp only [if_pos hstar]
      exact (h ep).star _ s
    simp only [if_neg hstar]
    by_cases hplus : q = ch '+'
    · simp only [if_pos hplus]
      exact (h ep).plus _ s
    simp only [if_neg hplus]
    by_cases hminus : q = ch '-'
    · simp only [if_pos hminus]
      exact (h ep).minus _ s
    simp only [if_neg hminus]
    exact (h (q :: ep)).one _ s

/-- **The match computes the first outcome of the pattern.** -/
theorem doMatch_realizes (src : List UInt8) (fuel : ℕ) (p : List UInt8) :
    Follows (doMatch src fuel p) (outcomes src (itemsOf fuel p)) := by
  induction fuel generalizing p with
  | zero =>
    rcases p with - | ⟨c, p⟩
    · exact fun s ms => rfl
    · exact fun s => realizes_error _
  | succ fuel ih =>
    rcases p with - | ⟨c, p⟩
    · exact fun s ms => rfl
    · intro s
      simp only [doMatch, itemsOf, outcomes, item]
      split_ifs with hopen hposition hclose hbalance hfrontier hback hdollar hs
      · exact (ih p.tail).startCapture _ s
      · exact (ih p).startCapture _ s
      · exact (ih p).endCapture s
      · rcases p with - | ⟨x, - | ⟨b, - | ⟨e, p⟩⟩⟩
        · exact realizes_error _
        · exact realizes_error _
        · exact realizes_error _
        · exact (ih p).balance b e p s
      · rcases p with - | ⟨x, - | ⟨d, q⟩⟩
        · exact realizes_error _
        · exact realizes_error _
        · simp only [List.tail_cons]
          by_cases hbracket : d = ch '['
          · simp only [hbracket, ne_eq, not_true_eq_false, if_false]
            rcases hend : classend (ch '[') q with err | ep
            · exact realizes_error _
            · exact (ih ep).frontier _ s
          · simp only [ne_eq, hbracket, not_false_eq_true, if_true]
            exact realizes_error _
      · exact (ih p.tail).back _ s
      · intro ms
        simp only [itemsOf, Item.steps, if_pos hs]
        rfl
      · intro ms
        simp only [itemsOf, Item.steps, if_neg hs]
        rfl
      · rcases hend : classend c p with err | ep
        · simp only [matchItem, hend]
          exact realizes_error _
        · exact realizes_matchItem ih c hend s

end Match

/-! ### The end of a match -/

section Termination

/-- Where the brackets close. -/
theorem bracketend_spec (p : List UInt8) :
    (∃ ep, bracketend p = .ok ep ∧ ep.length ≤ p.length) ∨
      bracketend p = .error .missingBracket := by
  fun_induction bracketend p with
  | case1 => exact Or.inr rfl
  | case2 => exact Or.inl ⟨[], rfl, Nat.zero_le _⟩
  | case3 c hc => exact Or.inr rfl
  | case4 d p => exact Or.inl ⟨d :: p, rfl, Nat.le_succ _⟩
  | case5 d p hc ih =>
    exact ih.imp_left fun ⟨ep, h, hle⟩ => ⟨ep, h, hle.trans (by simp; omega)⟩
  | case6 c d p hc hesc ih =>
    exact ih.imp_left fun ⟨ep, h, hle⟩ => ⟨ep, h, hle.trans (Nat.le_succ _)⟩

/-- What is behind an item is no longer than what is behind its first character. -/
theorem classend_spec (c : UInt8) (p : List UInt8) :
    (∃ ep, classend c p = .ok ep ∧ ep.length ≤ p.length) ∨
      ∃ e, classend c p = .error e ∧ e ≠ .endless := by
  have hfirst (q : List UInt8) (hq : q.length ≤ p.length) :
      (∃ ep, bracketfirst q = .ok ep ∧ ep.length ≤ p.length) ∨
        ∃ e, bracketfirst q = .error e ∧ e ≠ .endless := by
    rcases q with - | ⟨d, q⟩
    · exact Or.inr ⟨_, rfl, by decide⟩
    · have hle : (if d = lEsc then q.tail else q).length ≤ p.length := by
        rw [List.length_cons] at hq
        split_ifs
        · rw [List.length_tail]
          omega
        · omega
      rcases bracketend_spec (if d = lEsc then q.tail else q) with ⟨ep, h, hep⟩ | h
      · exact Or.inl ⟨ep, h, hep.trans hle⟩
      · exact Or.inr ⟨_, h, by decide⟩
  unfold classend
  split_ifs
  · rcases p with - | ⟨d, p⟩
    · exact Or.inr ⟨_, rfl, by decide⟩
    · exact Or.inl ⟨p, rfl, Nat.le_succ _⟩
  · exact hfirst _ (by simp)
  · exact hfirst _ le_rfl
  · exact Or.inl ⟨p, rfl, le_rfl⟩

theorem repOf_length (p : List UInt8) : (repOf p).2.length ≤ p.length := by
  rcases p with - | ⟨q, p⟩
  · exact le_rfl
  · rw [repOf]
    split_ifs <;> simp

/-- An item leaves a shorter pattern, and is not what stands for an endless one. -/
theorem item_spec (c : UInt8) (p : List UInt8) :
    (item c p).2.length ≤ p.length ∧ ∀ e, (item c p).1 = .malformed e → e ≠ .endless := by
  rw [item]
  split_ifs
  · exact ⟨by simp, fun e he => by cases he⟩
  · exact ⟨le_rfl, fun e he => by cases he⟩
  · exact ⟨le_rfl, fun e he => by cases he⟩
  · rcases p with - | ⟨x, - | ⟨b, - | ⟨e, p⟩⟩⟩
    · exact ⟨le_rfl, fun e he => by cases he; decide⟩
    · exact ⟨Nat.zero_le _, fun e he => by cases he; decide⟩
    · exact ⟨Nat.zero_le _, fun e he => by cases he; decide⟩
    · exact ⟨by simp; omega, fun e he => by cases he⟩
  · rcases p with - | ⟨x, - | ⟨d, q⟩⟩
    · exact ⟨le_rfl, fun e he => by cases he; decide⟩
    · exact ⟨Nat.zero_le _, fun e he => by cases he; decide⟩
    · simp only [List.tail_cons]
      by_cases hbracket : d = ch '['
      · simp only [hbracket, ne_eq, not_true_eq_false, if_false]
        rcases classend_spec (ch '[') q with ⟨ep, h, hle⟩ | ⟨e, h, he⟩
        · simp only [h]
          exact ⟨by simp; omega, fun e he => by cases he⟩
        · simp only [h]
          refine ⟨Nat.zero_le _, fun e' he' => ?_⟩
          cases he'
          exact he
      · simp only [ne_eq, hbracket, not_false_eq_true, if_true]
        exact ⟨Nat.zero_le _, fun e he => by cases he; decide⟩
  · exact ⟨by simp, fun e he => by cases he⟩
  · exact ⟨by simp, fun e he => by cases he⟩
  · rcases classend_spec c p with ⟨ep, h, hle⟩ | ⟨e, h, he⟩
    · simp only [h]
      exact ⟨(repOf_length ep).trans hle, fun e he => by cases he⟩
    · simp only [h]
      refine ⟨by simp, fun e' he' => ?_⟩
      cases he'
      exact he

/-- The items of a pattern that has no more characters than the fuel. -/
theorem itemsOf_malformed {n : ℕ} {p : List UInt8} (hn : p.length ≤ n) {e : Error}
    (h : .malformed e ∈ itemsOf n p) : e ≠ .endless := by
  induction n generalizing p with
  | zero =>
    rw [List.length_eq_zero_iff.mp (Nat.le_zero.mp hn)] at h
    cases h
  | succ n ih =>
    rcases p with - | ⟨c, p⟩
    · cases h
    · rw [itemsOf] at h
      rcases List.mem_cons.mp h with h | h
      · exact (item_spec c p).2 e h.symm
      · rw [List.length_cons] at hn
        exact ih (by have := (item_spec c p).1; omega) h

/-- An item raises an error that it stands for, or one of the captures. -/
theorem steps_error {src : List UInt8} {caps : List Capture} {s : ℕ} {e : Error} {i : Item}
    (h : .error e ∈ i.steps src caps s) : i = .malformed e ∨ e ≠ .endless := by
  cases i with
  | opening | position =>
    simp only [Item.steps, beginCapture] at h
    split_ifs at h
    · simp_all
    · simp at h
  | closing =>
    simp only [Item.steps] at h
    rcases hl : unfinished caps with - | l <;> simp only [hl] at h
    · simp_all
    · simp at h
  | back l =>
    simp only [Item.steps] at h
    split_ifs at h
    · simp_all
    · simp at h
    · simp at h
  | malformed e' => exact Or.inl (by simpa [Item.steps, eq_comm] using h)
  | balance b e' =>
    simp only [Item.steps] at h
    split_ifs at h <;> simp at h
  | frontier set =>
    simp only [Item.steps] at h
    split_ifs at h <;> simp at h
  | atEnd =>
    simp only [Item.steps] at h
    split_ifs at h <;> simp at h
  | single f rep => simp [Item.steps] at h

/-- **A pattern comes to an end.** -/
theorem outcomes_ne_endless {src : List UInt8} {is : List Item}
    (his : ∀ e, .malformed e ∈ is → e ≠ .endless) {caps : List Capture} {s : ℕ} {e : Error}
    (h : .error e ∈ outcomes src is caps s) : e ≠ .endless := by
  induction is generalizing caps s with
  | nil => simp [outcomes] at h
  | cons i is ih =>
    rcases error_mem_chain.mp h with h | ⟨caps', s', -, h⟩
    · rcases steps_error h with rfl | he
      · exact his e List.mem_cons_self
      · exact he
    · exact ih (fun e he => his e (List.mem_cons_of_mem i he)) h

end Termination

end ELuaBrain.Lua.Patterns
