import ELuaBrain.Lua.Finding

/-!
# One match after the other

`gmatch` gives the matches of a pattern from left to right, each behind the one before; behind an
empty match it goes on one character further. `gsub` goes through the subject by itself. It replaces
exactly the matches that `gmatch` gives, up to a number of them, and copies all that is between
them.

## Main definitions

* `matchesFrom` : the matches of a pattern, one after the other.
* `gmatchCalls` : the calls of the function that `gmatch` gives, until there is no value.
* `replaceAll` : a subject in which matches are replaced.

## Main results

* `gmatch_matches` : the calls give the matches.
* `gsub_matches`, `gsub_gmatch` : the substitution replaces the matches.
* `gsub_identity` : a match that is replaced by itself.
-/

namespace ELuaBrain.Lua.Patterns

open Function Backtrack

variable {src : List UInt8}

/-! ### The matches -/

/-- The match at a place, if the first outcome there is one. -/
def matchOf (src p : List UInt8) (s : ℕ) : Option (List Capture × ℕ) :=
  match outcomes src (items p) [] s with
  | .ok r :: _ => some r
  | _ => none

/-- The matches from a place on. -/
def matchesFrom (src p : List UInt8) (s : ℕ) : List (ℕ × List Capture × ℕ) :=
  if s ≤ src.length then
    match matchOf src p s with
    | none => matchesFrom src p (s + 1)
    | some (caps, e) => (s, caps, e) :: matchesFrom src p (max (s + 1) e)
  else []
  termination_by src.length + 1 - s

theorem matchesFrom_none {p : List UInt8} {s : ℕ} (hs : s ≤ src.length)
    (h : matchOf src p s = none) : matchesFrom src p s = matchesFrom src p (s + 1) := by
  rw [matchesFrom, if_pos hs]
  simp only [h]

theorem matchesFrom_some {p : List UInt8} {s e : ℕ} {caps : List Capture} (hs : s ≤ src.length)
    (h : matchOf src p s = some (caps, e)) :
    matchesFrom src p s = (s, caps, e) :: matchesFrom src p (max (s + 1) e) := by
  rw [matchesFrom, if_pos hs]
  simp only [h]

theorem matchesFrom_end (p : List UInt8) {s : ℕ} (hs : src.length < s) :
    matchesFrom src p s = [] := by
  rw [matchesFrom, if_neg (by omega)]

/-- The matches lie behind the place. -/
theorem le_of_mem_matchesFrom {p : List UInt8} {s : ℕ} {m : ℕ × List Capture × ℕ}
    (h : m ∈ matchesFrom src p s) : s ≤ m.1 := by
  fun_induction matchesFrom src p s with
  | case1 s hs hnone ih => exact (Nat.le_succ s).trans (ih h)
  | case2 s hs caps e hsome ih =>
    rcases List.mem_cons.mp h with rfl | h
    · exact le_rfl
    · exact (by omega : s ≤ max (s + 1) e).trans (ih h)
  | case3 => cases h

/-- The matches are derivations. -/
theorem derivation_of_mem_matchesFrom {p : List UInt8} {s : ℕ} {m : ℕ × List Capture × ℕ}
    (h : m ∈ matchesFrom src p s) : Matches src (items p) [] m.1 m.2.1 m.2.2 := by
  fun_induction matchesFrom src p s with
  | case1 s hs hnone ih => exact ih h
  | case2 s hs caps e hsome ih =>
    rcases List.mem_cons.mp h with rfl | h
    · refine (mem_outcomes hs).mp ?_
      rw [matchOf] at hsome
      split at hsome
      · rename_i r rest ho
        cases hsome
        rw [ho]
        exact List.mem_cons_self
      · cases hsome
    · exact ih h
  | case3 => cases h

/-- **The ways in which a match of a well-formed pattern ends.** -/
theorem matchAt_wellFormed {p : List UInt8} (hp : WellFormed p) (ms : MatchState) {s : ℕ}
    (hs : s ≤ src.length) :
    (∃ ms', matchAt src p ms s = .ok (ms', none) ∧ matchOf src p s = none) ∨
      ∃ ms' e, matchAt src p ms s = .ok (ms', some e) ∧ matchOf src p s = some (ms'.captures, e) ∧
        s ≤ e ∧ e ≤ src.length ∧ ∀ c ∈ ms'.captures, c.len ≠ capUnfinished := by
  rcases matchAt_cases src p ms s with ⟨ms', hk, ho⟩ | ⟨err, l, hk, ho⟩ | ⟨ms', e, l, hk, ho⟩ <;>
    rcases outcomes_cases hp hs with ⟨ho', -⟩ | ⟨caps, e', rest', ho', h⟩ <;>
    rw [ho] at ho' <;> cases ho'
  · refine Or.inl ⟨ms', hk, ?_⟩
    rw [matchOf, List.map_eq_nil_iff.mp ho]
  · obtain ⟨hend, hle, -⟩ := h.derivation.sound hs (sound_nil s)
    obtain ⟨rest', hrest⟩ := List.head?_eq_some_iff.mp h.preferred
    exact Or.inr ⟨ms', e, hk, by rw [matchOf, hrest], hle, hend, h.finished⟩

/-! ### `gmatch` -/

/-- The calls of the function that `gmatch` gives, until there is no value, and `n` of them at most.
Each one has its own `MatchState`. -/
def gmatchCalls (src p : List UInt8) (memory : ℕ → MatchState) :
    ℕ → ℕ → Except Error (List (List Value))
  | 0, _ => .ok []
  | n + 1, lastpos => do
      let (lastpos, vs) ← gmatchAux src p (memory n) lastpos
      if vs = [] then pure []
      else do return vs :: (← gmatchCalls src p memory n lastpos)

/-- **The loop of `gmatch_aux`.** -/
theorem gmatchLoop_spec {p : List UInt8} (hp : WellFormed p) (ms : MatchState) {n s : ℕ}
    (hn : src.length + 1 - s = n) :
    (gmatchLoop src p n ms s = .ok none ∧ matchesFrom src p s = []) ∨
      ∃ s₁ e ms', gmatchLoop src p n ms s = .ok (some (s₁, e, ms')) ∧ s₁ ≤ e ∧
        (∀ c ∈ ms'.captures, c.len ≠ capUnfinished) ∧
        matchesFrom src p s = (s₁, ms'.captures, e) :: matchesFrom src p (max (s₁ + 1) e) := by
  induction n generalizing ms s with
  | zero => exact Or.inl ⟨rfl, matchesFrom_end p (by omega)⟩
  | succ n ih =>
    have hs : s ≤ src.length := by omega
    rw [gmatchLoop]
    rcases matchAt_wellFormed hp ms hs with ⟨ms', hk, ho⟩ | ⟨ms', e, hk, ho, hle, -, hfinished⟩
    · simp only [hk, matchesFrom_none hs ho]
      exact ih ms' (by omega)
    · simp only [hk, matchesFrom_some hs ho]
      exact Or.inr ⟨s, e, ms', rfl, hle, hfinished, rfl⟩

theorem found_ne_nil (s : ℕ) (caps : List Capture) (e : ℕ) : found src false s caps e ≠ [] := by
  rw [found]
  split_ifs <;> simp_all

/-- One call. -/
theorem gmatchAux_spec {p : List UInt8} (hzero : 0 ∉ p) (hp : WellFormed p) (ms : MatchState)
    (s : ℕ) :
    (gmatchAux src p ms s = .ok (s, []) ∧ matchesFrom src p s = []) ∨
      ∃ s₁ caps e, gmatchAux src p ms s = .ok (max (s₁ + 1) e, found src false s₁ caps e) ∧
        matchesFrom src p s = (s₁, caps, e) :: matchesFrom src p (max (s₁ + 1) e) := by
  rw [gmatchAux, cString_eq hzero]
  rcases gmatchLoop_spec hp ms rfl with ⟨hk, ho⟩ | ⟨s₁, e, ms', hk, hle, hfinished, ho⟩
  · rw [hk]
    exact Or.inl ⟨rfl, ho⟩
  · refine Or.inr ⟨s₁, ms'.captures, e, ?_, ho⟩
    rw [hk]
    have hnext : (if e = s₁ then e + 1 else e) = max (s₁ + 1) e := by
      split_ifs <;> omega
    have hpush : pushCaptures src ms' true s₁ e = .ok (found src false s₁ ms'.captures e) := by
      rw [pushCaptures_eq]
      exact results_eq false hfinished s₁ e
    simp only [bind, Except.bind, pure, Except.pure, hpush, hnext]

/-- **The calls of `gmatch` give the matches, one after the other.** -/
theorem gmatch_matches {p : List UInt8} (hzero : 0 ∉ p) (hp : WellFormed p)
    (memory : ℕ → MatchState) (n s : ℕ) :
    gmatchCalls src p memory n s =
      .ok (((matchesFrom src p s).take n).map fun m => found src false m.1 m.2.1 m.2.2) := by
  induction n generalizing s with
  | zero => rfl
  | succ n ih =>
    rw [gmatchCalls]
    rcases gmatchAux_spec hzero hp (memory n) s with ⟨hk, ho⟩ | ⟨s₁, caps, e, hk, ho⟩
    · rw [hk, ho]
      rfl
    · rw [hk, ho]
      simp [found_ne_nil, ih, bind, Except.bind, pure, Except.pure]

/-! ### `gsub` -/

/-- A state with given captures. -/
def stateOf (caps : List Capture) : MatchState := ⟨caps.length, fun i => caps.getD i ⟨0, 0⟩⟩

@[simp] theorem captures_stateOf (caps : List Capture) : (stateOf caps).captures = caps := by
  refine List.ext_getElem (by simp [stateOf]) fun i hi hi' => ?_
  simp [stateOf, MatchState.captures, hi']

/-- What a match is replaced by, where there have been `n` other ones. -/
def replacement (src : List UInt8) (repl : Replacement) (n : ℕ) (m : ℕ × List Capture × ℕ) :
    Except Error (List UInt8) :=
  addValue src repl n (stateOf m.2.1) m.1 m.2.2

/-- The subject from `pos` on, in which matches are replaced, where there have been `n` other ones.
-/
def replaceAll (src : List UInt8) (repl : Replacement) :
    ℕ → ℕ → List (ℕ × List Capture × ℕ) → Except Error (List UInt8)
  | _, pos, [] => .ok (src.drop pos)
  | n, pos, m :: ms => do
      let t ← replacement src repl n m
      let u ← replaceAll src repl (n + 1) m.2.2 ms
      pure ((src.drop pos).take (m.1 - pos) ++ t ++ u)

/-- Only the captures that count are pushed. -/
theorem pushOnecapture_stateOf (ms : MatchState) (i s e : ℕ) :
    pushOnecapture src ms i s e = pushOnecapture src (stateOf ms.captures) i s e := by
  rw [pushOnecapture, pushOnecapture, stateOf]
  dsimp only
  rw [length_captures]
  by_cases hlt : ms.level ≤ i
  · rw [if_pos hlt, if_pos hlt]
  · rw [captures_getD (Nat.lt_of_not_le hlt)]

theorem addS_stateOf (ms : MatchState) (s e : ℕ) (news : List UInt8) :
    addS src ms s e news = addS src (stateOf ms.captures) s e news := by
  induction news using addS.induct with
  | case1 => rfl
  | case2 c => rfl
  | case3 c d news hc ih => simp [addS, hc, ih]
  | case4 c d news hc hd ih => simp [addS, hc, hd, ih]
  | case5 c news hc hd ih => simp [addS, hc, ih]
  | case6 c d news hc hd hzero ih => simp [addS, hc, hd, hzero, ih, pushOnecapture_stateOf ms]

/-- **Only the captures that count are replaced.** -/
theorem addValue_stateOf (repl : Replacement) (n : ℕ) (ms : MatchState) (s e : ℕ) :
    addValue src repl n ms s e = replacement src repl n (s, ms.captures, e) := by
  cases repl with
  | string news => exact addS_stateOf ms s e news
  | function call => simp [addValue, replacement, pushCaptures_eq]
  | table get => simp [addValue, replacement, pushOnecapture_stateOf ms]

/-- A character in front of what is replaced. -/
theorem replaceAll_succ (repl : Replacement) {n s : ℕ} {c : UInt8} {rest : List UInt8}
    {ms : List (ℕ × List Capture × ℕ)} (hdrop : src.drop s = c :: rest)
    (hms : ∀ m ∈ ms, s + 1 ≤ m.1) :
    replaceAll src repl n s ms = (replaceAll src repl n (s + 1) ms).map (c :: ·) := by
  have hrest : src.drop (s + 1) = rest := by
    rw [← List.drop_drop, hdrop, List.drop_one, List.tail_cons]
  cases ms with
  | nil =>
    rw [replaceAll, replaceAll, hdrop, hrest]
    rfl
  | cons m ms =>
    obtain ⟨k, hk⟩ := Nat.exists_eq_add_of_le (hms m List.mem_cons_self)
    have hfront : (src.drop s).take (m.1 - s) = c :: (src.drop (s + 1)).take (m.1 - (s + 1)) := by
      rw [hdrop, hrest, hk, show s + 1 + k - s = k + 1 by omega, Nat.add_sub_cancel_left,
        List.take_succ_cons]
    rw [replaceAll, replaceAll, hfront]
    rcases replacement src repl n m with e | t
    · rfl
    · rcases replaceAll src repl (n + 1) m.2.2 ms with e | u
      · rfl
      · rfl

/-- The matches that are replaced, where there have been `n` other ones. -/
def limited (src p : List UInt8) (maxS : ℤ) (n s : ℕ) : List (ℕ × List Capture × ℕ) :=
  (matchesFrom src p s).take (maxS - n).toNat

section Limited

variable {p : List UInt8} {maxS : ℤ} {n s e : ℕ} {caps : List Capture}

theorem limited_full (hmax : ¬(n : ℤ) < maxS) : limited src p maxS n s = [] := by
  rw [limited, show (maxS - n).toNat = 0 by omega, List.take_zero]

theorem limited_none (hs : s ≤ src.length) (h : matchOf src p s = none) :
    limited src p maxS n s = limited src p maxS n (s + 1) := by
  rw [limited, matchesFrom_none hs h, limited]

theorem limited_some (hs : s ≤ src.length) (hmax : (n : ℤ) < maxS)
    (h : matchOf src p s = some (caps, e)) :
    limited src p maxS n s = (s, caps, e) :: limited src p maxS (n + 1) (max (s + 1) e) := by
  have hlimit : (maxS - n).toNat = (maxS - (n + 1 : ℕ)).toNat + 1 := by
    push_cast
    omega
  rw [limited, matchesFrom_some hs h, hlimit, List.take_succ_cons, limited]

theorem limited_end (hs : src.length < s) : limited src p maxS n s = [] := by
  rw [limited, matchesFrom_end p hs, List.take_nil]

theorem le_of_mem_limited {m : ℕ × List Capture × ℕ} (h : m ∈ limited src p maxS n s) : s ≤ m.1 :=
  le_of_mem_matchesFrom (List.mem_of_mem_take h)

end Limited

/-- What is copied behind the last match. -/
def finish (src : List UInt8) (r : ℕ × ℕ × List UInt8) : List UInt8 × ℕ :=
  (r.2.2 ++ src.drop r.1, r.2.1)

/-- The loop goes on behind a match that is not empty. -/
theorem advance_of_lt {s e : ℕ} (h : s < e) (b : List UInt8) :
    advance src s b (some e) = some (e, b) := by
  have hsome : (some e).filter (s < ·) = some e := by simp [h]
  rw [advance, hsome]

/-- The loop goes on behind a character otherwise. -/
theorem advance_of_le {s : ℕ} {res : Option ℕ} (h : ∀ e ∈ res, e ≤ s) (b : List UInt8) :
    advance src s b res = (src.drop s).head?.map fun c => (s + 1, b ++ [c]) := by
  have hnone : res.filter (s < ·) = none := by
    rw [Option.filter_eq_none_iff]
    intro e he
    simpa using h e he
  rw [advance, hnone]

/-- **The loop of `str_gsub`.** -/
theorem gsubLoop_eq {p : List UInt8} (hp : WellFormed p) (repl : Replacement) (maxS : ℤ)
    {fuel n s : ℕ} (hs : s ≤ src.length) (hfuel : src.length < s + fuel) (ms : MatchState)
    (b : List UInt8) :
    (gsubLoop src p repl maxS false fuel n ms s b).map (finish src) =
      (replaceAll src repl n s (limited src p maxS n s)).map fun t =>
        (b ++ t, n + (limited src p maxS n s).length) := by
  induction fuel generalizing n s ms b with
  | zero => omega
  | succ fuel ih =>
    -- a character is copied behind no match, and behind one that is empty
    have hcopy (n : ℕ) (ms : MatchState) (b : List UInt8) (res : Option ℕ)
        (hres : ∀ e ∈ res, e ≤ s) :
        ((advance src s b res).elim (.ok (s, n, b)) fun next =>
            gsubLoop src p repl maxS false fuel n ms next.1 next.2).map (finish src) =
          (replaceAll src repl n s (limited src p maxS n (s + 1))).map fun t =>
            (b ++ t, n + (limited src p maxS n (s + 1)).length) := by
      rw [advance_of_le hres]
      rcases hdrop : src.drop s with - | ⟨c, rest⟩
      · rw [limited_end (by rw [List.drop_eq_nil_iff] at hdrop; omega), replaceAll, hdrop]
        simp [finish, hdrop, Except.map]
      · have hlt : s < src.length := by
          by_contra hge
          rw [List.drop_eq_nil_of_le (Nat.le_of_not_lt hge)] at hdrop
          cases hdrop
        have hnext := ih (n := n) (s := s + 1) hlt (by omega) ms (b ++ [c])
        rw [replaceAll_succ repl hdrop fun m hm => le_of_mem_limited hm]
        simp only [List.head?_cons, Option.map_some, Option.elim_some, hnext]
        cases replaceAll src repl n (s + 1) (limited src p maxS n (s + 1)) <;>
          simp [Except.map]
    rw [gsubLoop]
    by_cases hmax : (n : ℤ) < maxS
    · rw [if_pos hmax]
      rcases matchAt_wellFormed hp ms hs with ⟨ms', hk, ho⟩ | ⟨ms', e, hk, ho, hle, hend, -⟩
      · rw [hk, limited_none hs ho, ← hcopy n ms' b none (by simp)]
        simp only [bind, Except.bind, addMatch]
        cases advance src s b none <;> rfl
      · rw [hk, limited_some hs hmax ho, replaceAll]
        simp only [bind, Except.bind, addMatch, addValue_stateOf]
        rcases replacement src repl n (s, ms'.captures, e) with err | t
        · rfl
        simp only [Nat.sub_self, List.take_zero, List.nil_append, List.length_cons]
        rcases Nat.lt_or_eq_of_le hle with hlt | rfl
        · have hnext := ih (n := n + 1) (s := e) hend (by omega) ms' (b ++ t)
          simp only [pure, Except.pure, advance_of_lt hlt, Bool.false_eq_true, if_false, hnext,
            Nat.max_eq_right (Nat.succ_le_of_lt hlt)]
          cases replaceAll src repl (n + 1) e (limited src p maxS (n + 1) e) <;>
            simp [Except.map]
          omega
        · have hnext := hcopy (n + 1) ms' (b ++ t) (some s) (by simp)
          rw [Nat.max_eq_left (by omega : s ≤ s + 1)]
          simp only [pure, Except.pure]
          generalize advance src s (b ++ t) (some s) = next at hnext ⊢
          refine Eq.trans (by cases next <;> rfl) (hnext.trans ?_)
          cases replaceAll src repl (n + 1) s (limited src p maxS (n + 1) (s + 1)) <;>
            simp [Except.map]
          omega
    · rw [if_neg hmax, limited_full hmax]
      rfl

/-- **`gsub` with a well-formed pattern replaces the matches that `gmatch` gives, up to a number of
them, and copies what is between them.** -/
theorem gsub_matches {p : List UInt8} (hzero : 0 ∉ p) (hanchor : p.head? ≠ some (ch '^'))
    (hp : WellFormed p) (repl : Replacement) (maxS : ℤ) (ms : MatchState) :
    strGsub src p repl maxS ms =
      (replaceAll src repl 0 0 ((matchesFrom src p 0).take maxS.toNat)).map fun t =>
        (t, ((matchesFrom src p 0).take maxS.toNat).length) := by
  have hloop := gsubLoop_eq hp repl maxS (n := 0) (Nat.zero_le src.length)
    (show src.length < 0 + (src.length + 2) by omega) ms []
  have hlimited : limited src p maxS 0 0 = (matchesFrom src p 0).take maxS.toNat := by
    simp [limited]
  rw [hlimited] at hloop
  simp only [List.nil_append, Nat.zero_add] at hloop
  rw [strGsub, cString_eq hzero, unanchored, if_neg hanchor, ← hloop]
  dsimp only
  cases gsubLoop src p repl maxS false (src.length + 2) 0 ms 0 [] <;> rfl

/-- The text `%0`. -/
def wholeMatch : Replacement := .string [lEsc, ch '0']

/-- The matches of a pattern, one behind the other in the subject. -/
def Ordered (src : List UInt8) : ℕ → List (ℕ × List Capture × ℕ) → Prop
  | s, [] => s ≤ src.length
  | s, m :: ms => s ≤ m.1 ∧ m.1 ≤ m.2.2 ∧ m.2.2 ≤ src.length ∧ Ordered src m.2.2 ms

theorem ordered_matchesFrom {p : List UInt8} (hp : WellFormed p) {s pos : ℕ} (hpos : pos ≤ s)
    (hlength : pos ≤ src.length) : Ordered src pos (matchesFrom src p s) := by
  induction s using matchesFrom.induct src p generalizing pos with
  | case1 s hs hnone ih =>
    rw [matchesFrom_none hs hnone]
    exact ih (hpos.trans (Nat.le_succ s)) hlength
  | case2 s hs caps e hsome ih =>
    rw [matchesFrom_some hs hsome]
    rcases matchAt_wellFormed hp (stateOf []) hs with ⟨-, -, hnone⟩ |
      ⟨ms, e', -, hsome', hle, hend, -⟩
    · rw [hsome] at hnone
      cases hnone
    · rw [hsome] at hsome'
      cases hsome'
      exact ⟨hpos, hle, hend, ih (le_max_right (s + 1) e) hend⟩
  | case3 s hs =>
    rw [matchesFrom_end p (by omega)]
    exact hlength

theorem Ordered.take {s : ℕ} {ms : List (ℕ × List Capture × ℕ)} (h : Ordered src s ms)
    (hs : s ≤ src.length) (n : ℕ) : Ordered src s (ms.take n) := by
  induction ms generalizing s n with
  | nil => simpa using h
  | cons m ms ih =>
    obtain ⟨hle, hle', hend, hrest⟩ := h
    cases n with
    | zero => exact hs
    | succ n => exact ⟨hle, hle', hend, ih hrest hend n⟩

/-- **A match that is replaced by itself.** -/
theorem replaceAll_wholeMatch {ms : List (ℕ × List Capture × ℕ)} {n s : ℕ} (h : Ordered src s ms) :
    replaceAll src wholeMatch n s ms = .ok (src.drop s) := by
  induction ms generalizing n s with
  | nil => rfl
  | cons m ms ih =>
    obtain ⟨hle, hle', -, hrest⟩ := h
    have hwhole : replacement src wholeMatch n m = .ok ((src.drop m.1).take (m.2.2 - m.1)) := by
      simp [replacement, wholeMatch, addValue, addS, isdigit, ch]
    rw [replaceAll, hwhole, ih hrest]
    have hsplit : (src.drop s).take (m.1 - s) ++ (src.drop m.1).take (m.2.2 - m.1) ++
        src.drop m.2.2 = src.drop s := by
      obtain ⟨i, hi⟩ := Nat.exists_eq_add_of_le hle
      obtain ⟨j, hj⟩ := Nat.exists_eq_add_of_le hle'
      rw [hj, Nat.add_sub_cancel_left, ← List.drop_drop, List.append_assoc,
        List.take_append_drop, hi, Nat.add_sub_cancel_left, ← List.drop_drop, List.take_append_drop]
    exact congrArg Except.ok hsplit

/-! ### The two together -/

/-- **A pattern has a list of matches, one behind the other in the subject. The calls of `gmatch`
give them in this order. `gsub` puts their replacements in their places, for as many of them as it
may replace, and copies all other text.** -/
theorem gsub_gmatch (src p : List UInt8) (hzero : 0 ∉ p) (hanchor : p.head? ≠ some (ch '^'))
    (hp : WellFormed p) :
    ∃ found : List (ℕ × List Capture × ℕ), Ordered src 0 found ∧
      (∀ m ∈ found, Matches src (items p) [] m.1 m.2.1 m.2.2) ∧
      (∀ memory n, gmatchCalls src p memory n 0 =
        .ok ((found.take n).map fun m => Patterns.found src false m.1 m.2.1 m.2.2)) ∧
      ∀ repl (maxS : ℤ) ms, strGsub src p repl maxS ms =
        (replaceAll src repl 0 0 (found.take maxS.toNat)).map fun t =>
          (t, (found.take maxS.toNat).length) :=
  ⟨matchesFrom src p 0, ordered_matchesFrom hp le_rfl (Nat.zero_le _),
    fun _ hm => derivation_of_mem_matchesFrom hm,
    fun memory n => gmatch_matches hzero hp memory n 0,
    fun repl maxS ms => gsub_matches hzero hanchor hp repl maxS ms⟩

/-- The pattern `(%a)x-`. -/
def sampleGsub : List UInt8 := [ch '(', ch '%', ch 'a', ch ')', ch 'x', ch '-']

theorem gsub_gmatch_sample :
    WellFormed sampleGsub ∧ ∃ found : List (ℕ × List Capture × ℕ),
      Ordered [ch 'a', ch 'x'] 0 found ∧
      ∀ ms, strGsub [ch 'a', ch 'x'] sampleGsub wholeMatch 2 ms =
        (replaceAll [ch 'a', ch 'x'] wholeMatch 0 0 (found.take 2)).map fun t =>
          (t, (found.take 2).length) := by
  have hp : WellFormed sampleGsub := by decide +kernel
  obtain ⟨found, hordered, -, -, hgsub⟩ :=
    gsub_gmatch [ch 'a', ch 'x'] sampleGsub (by decide) (by decide) hp
  exact ⟨hp, found, hordered, fun ms => hgsub wholeMatch 2 ms⟩

/-- **A substitution by the match itself leaves the subject as it is, and counts the matches.** -/
theorem gsub_identity {p : List UInt8} (hzero : 0 ∉ p) (hanchor : p.head? ≠ some (ch '^'))
    (hp : WellFormed p) (maxS : ℤ) (ms : MatchState) :
    strGsub src p wholeMatch maxS ms =
      .ok (src, ((matchesFrom src p 0).take maxS.toNat).length) := by
  have hordered := (ordered_matchesFrom hp le_rfl (Nat.zero_le src.length)).take (Nat.zero_le _)
    maxS.toNat
  rw [gsub_matches hzero hanchor hp, replaceAll_wholeMatch hordered]
  rfl

theorem gsub_identity_sample :
    strGsub [ch 'a', ch 'x'] sampleGsub wholeMatch 1 ⟨3, fun _ => ⟨7, 5⟩⟩ = .ok ([ch 'a', ch 'x'],
      ((matchesFrom [ch 'a', ch 'x'] sampleGsub 0).take 1).length) :=
  gsub_identity (by decide) (by decide) (by decide +kernel) 1 ⟨3, fun _ => ⟨7, 5⟩⟩

end ELuaBrain.Lua.Patterns
