import ELuaBrain.Linenoise.History
import Mathlib.Data.List.Forall2
import Mathlib.Data.List.InsertIdx
import Mathlib.Data.List.TakeWhile

/-!
# The memory of a history

The entries of a history are strings in blocks of their own. Each operation is described by the
lines that they hold, and by the blocks of the history among all the blocks in memory.

## Main definitions

* `Holds` : the lines of a history, and its blocks.
* `Reads` : the state of a prompt.

## Main results

* `Holds.addhistory`, `Holds.pushEmpty`, `Holds.endPrompt`, `Holds.cleanup`, `Holds.navigate` : the
  operations.
-/

namespace ELuaBrain.Linenoise

/-! ### The memory of a history -/

/-- Blocks of memory. -/
abbrev Blocks := List (Ptr × List UInt8)

/-- The entries of an array. -/
def pointers (strs : Blocks) : List (Option Ptr) := strs.map fun b => some b.1

@[simp] theorem length_pointers (strs : Blocks) : (pointers strs).length = strs.length :=
  List.length_map _

@[simp] theorem pointers_nil : pointers [] = [] := rfl

@[simp] theorem pointers_cons (q : Ptr × List UInt8) (strs : Blocks) :
    pointers (q :: strs) = some q.1 :: pointers strs := rfl

@[simp] theorem pointers_append (strs strs' : Blocks) :
    pointers (strs ++ strs') = pointers strs ++ pointers strs' :=
  List.map_append

/-- The entries are these strings, in blocks of their own, and these are the blocks. -/
inductive Holds (max : ℕ) : History → List (List UInt8) → Blocks → Prop
  | null : Holds max {} [] []
  | array (p : Ptr) (m : List UInt8) (strs : Blocks) (stale : List (Option Ptr))
      (texts : List (List UInt8)) (hlength : strs.length + stale.length = max)
      (htexts : List.Forall₂ (fun b t => CString b.2 t) strs texts) :
      Holds max ⟨some (p, pointers strs ++ stale), strs.length⟩ texts (strs ++ [(p, m)])

section Memory

variable {max : ℕ} {h : History} {texts : List (List UInt8)} {b rest : Blocks} {heap : Heap}
  {str : List UInt8}

theorem Holds.length_eq (hh : Holds max h texts b) : h.length = texts.length := by
  cases hh with
  | null => rfl
  | array p m strs stale texts hlength htexts => rw [htexts.length_eq]

theorem Holds.length_le (hh : Holds max h texts b) : texts.length ≤ max := by
  cases hh with
  | null => exact Nat.zero_le max
  | array p m strs stale texts hlength htexts =>
    rw [← htexts.length_eq]
    omega

theorem Holds.zero_notMem (hh : Holds max h texts b) : ∀ t ∈ texts, 0 ∉ t := by
  cases hh with
  | null => exact List.forall_mem_nil _
  | array p m strs stale texts hlength htexts =>
    clear hlength
    induction htexts with
    | nil => exact List.forall_mem_nil _
    | cons hb _ ih => exact List.forall_mem_cons.mpr ⟨hb.1, ih⟩

theorem strdup_refused (hg : (heap.answers heap.calls).granted = false) :
    strdup str heap = some (none, heap.called) := by
  rw [strdup, Heap.malloc_refused hg]
  rfl

/-- `strdup`. -/
theorem strdup_granted (ho : heap.Owns rest) (hg : (heap.answers heap.calls).granted = true)
    (hstr : 0 ∉ str) :
    ∃ p m heap', strdup str heap = some (some p, heap') ∧ CString m str ∧
      heap'.Owns ((p, m) :: rest) ∧ heap'.answers = heap.answers ∧
      heap'.calls = heap.calls + 1 := by
  obtain ⟨p, m, heap₁, hmalloc, hm, ho₁, hanswers, hcalls⟩ := ho.malloc hg (str.length + 1)
  obtain ⟨hstore, ho₂⟩ := ho₁.store 0 (str ++ [0]) (by simp [hm])
  refine ⟨p, _, _, ?_, ⟨hstr, [], ?_⟩, ho₂, hanswers, hcalls⟩
  · rw [strdup, hmalloc, Option.bind_some]
    exact congrArg (Option.map fun r => (some p, r.2)) hstore
  · simp [Heap.overwrite, hm]

/-- The array is allocated, or it is there already. -/
theorem Holds.allocate (hh : Holds max h texts b) (ho : heap.Owns (b ++ rest)) :
    ∃ ok h' heap' b', Linenoise.allocate max h heap = some (ok, h', heap') ∧ Holds max h' texts b' ∧
      heap'.Owns (b' ++ rest) ∧ (ok = true → h'.array.isSome) ∧
      (h.array = none → (heap.answers heap.calls).granted = true → ok = true) ∧
      (h.array.isSome → ok = true ∧ heap' = heap) ∧ heap'.answers = heap.answers ∧
      (h.array = none → heap'.calls = heap.calls + 1) := by
  cases hh with
  | array p m strs stale texts hlength htexts =>
    exact ⟨true, _, heap, _, rfl, .array p m strs stale texts hlength htexts, ho, fun _ => rfl,
      fun h => (Option.some_ne_none _ h).elim, fun _ => ⟨rfl, rfl⟩, rfl,
      fun h => (Option.some_ne_none _ h).elim⟩
  | null =>
    rw [Linenoise.allocate]
    cases hg : (heap.answers heap.calls).granted with
    | false =>
      rw [Heap.malloc_refused hg]
      exact ⟨false, {}, heap.called, [], rfl, .null, ho.called, nofun, nofun, nofun, rfl,
        fun _ => rfl⟩
    | true =>
      obtain ⟨p, m, heap', hmalloc, -, ho', hanswers, hcalls⟩ := Heap.Owns.malloc ho hg (4 * max)
      rw [hmalloc]
      exact ⟨true, _, heap', [(p, m)], rfl,
        .array p m [] (List.replicate max none) [] (by simp) .nil, ho', fun _ => rfl,
        fun _ _ => rfl, nofun, hanswers, fun _ => hcalls⟩

/-- The oldest entry of a full array is freed. -/
theorem Holds.evict (hh : Holds max h texts b) (hsome : h.array.isSome) (rest : Blocks)
    (ho : heap.Owns (b ++ rest)) (hmax : 0 < max) :
    ∃ h' heap' b', Linenoise.evict max h heap = some (h', heap') ∧
      Holds max h' (makeRoom max texts) b' ∧ h'.array.isSome ∧
      (makeRoom max texts).length < max ∧ heap'.Owns (b' ++ rest) ∧ heap'.answers = heap.answers ∧
      heap'.calls = heap.calls := by
  cases hh with
  | null => cases hsome
  | array p m strs stale texts hlength htexts =>
    have hlen := htexts.length_eq
    rw [Linenoise.evict, makeRoom]
    by_cases hfull : texts.length = max
    · obtain rfl : stale = [] := List.length_eq_zero_iff.mp (by omega)
      cases htexts with
      | nil => exact absurd hfull (by simpa using hmax.ne)
      | @cons q t strs texts hq htexts =>
        obtain ⟨hfree, ho'⟩ := ho.free
        obtain ⟨last, hlast⟩ : ∃ last, (pointers (q :: strs) ++ []).drop (max - 1) = [last] := by
          refine List.length_eq_one_iff.mp ?_
          simp at hlength ⊢
          omega
        have hcast : ((q :: strs).length : ℤ) - 1 = strs.length := by simp
        rw [if_pos (by dsimp only; omega), if_pos hfull]
        refine ⟨⟨some (p, pointers strs ++ [last]), strs.length⟩,
          heap.put q.1 none, strs ++ [(p, m)], ?_,
          .array p m strs [last] texts (by simpa using hlength) htexts, rfl, ?_, ho', rfl, rfl⟩
        · change (free (some q.1) heap).bind _ = _
          rw [free, hfree]
          change some ((⟨some (p, (pointers strs ++ []) ++ List.drop (max - 1) _), _⟩ : History),
            _) = _
          rw [hlast, hcast, List.append_nil]
        · simp at hfull ⊢
          omega
    · rw [if_neg (by dsimp only; omega), if_neg hfull]
      exact ⟨_, heap, _, rfl, .array p m strs stale texts hlength htexts, rfl, by omega, ho, rfl,
        rfl⟩

/-- An entry is appended. -/
theorem Holds.append (hh : Holds max h texts b) (hsome : h.array.isSome)
    (hroom : texts.length < max) {q : Ptr} {m : List UInt8} (hm : CString m str)
    (ho : heap.Owns ((q, m) :: (b ++ rest))) :
    ∃ h' b', h.setEntry h.length (some q) = some h' ∧
      Holds max { h' with length := h'.length + 1 } (texts ++ [str]) b' ∧ h'.array.isSome ∧
      heap.Owns (b' ++ rest) := by
  cases hh with
  | null => cases hsome
  | array p m₀ strs stale texts hlength htexts =>
    have hlen := htexts.length_eq
    cases stale with
    | nil => exact absurd hlength (by rw [List.length_nil]; omega)
    | cons old stale =>
      have hset : (pointers strs ++ old :: stale).set strs.length (some q) =
          pointers (strs ++ [(q, m)]) ++ stale := by
        simp [pointers]
      refine ⟨⟨some (p, pointers (strs ++ [(q, m)]) ++ stale), strs.length⟩,
        (strs ++ [(q, m)]) ++ [(p, m₀)], ?_, ?_, rfl, ho.perm ?_⟩
      · rw [← hset, History.setEntry, Option.bind_some, if_pos (by simp), Int.toNat_natCast]
      · have hcast : (strs.length : ℤ) + 1 = (strs ++ [(q, m)]).length := by simp
        dsimp only
        rw [hcast]
        refine .array p m₀ _ stale _ (by simp at hlength ⊢; omega) ?_
        exact List.rel_append htexts (.cons hm .nil)
      · rw [List.append_assoc, List.append_assoc, List.append_assoc]
        exact List.perm_middle.symm

/-- A line is added, if memory is found for it. -/
theorem Holds.addLine (hh : Holds max h texts b) (hsome : h.array.isSome)
    (ho : heap.Owns (b ++ rest)) (hmax : 0 < max) (str : List UInt8) (hstr : 0 ∉ str) :
    ∃ ok h' heap' b', Linenoise.addLine max str h heap = some (ok, h', heap') ∧
      Holds max h' (if ok then makeRoom max texts ++ [str] else texts) b' ∧ h'.array.isSome ∧
      heap'.Owns (b' ++ rest) ∧ ok = (heap.answers heap.calls).granted := by
  rw [Linenoise.addLine]
  cases hg : (heap.answers heap.calls).granted with
  | false =>
    rw [strdup_refused hg]
    exact ⟨false, h, heap.called, b, rfl, hh, hsome, ho.called, rfl⟩
  | true =>
    obtain ⟨q, m, heap₁, hdup, hm, ho₁, -, -⟩ := strdup_granted ho hg hstr
    obtain ⟨h₁, heap₂, b₁, hevict, hh₁, hsome₁, hroom, ho₂, -, -⟩ :=
      hh.evict hsome ((q, m) :: rest) (ho₁.perm List.perm_middle.symm) hmax
    obtain ⟨h₂, b₂, hset, hh₂, hsome₂, ho₃⟩ :=
      hh₁.append hsome₁ hroom hm (ho₂.perm List.perm_middle)
    refine ⟨true, { h₂ with length := h₂.length + 1 }, heap₂, b₂, ?_, hh₂, hsome₂, ho₃, rfl⟩
    rw [hdup, Option.bind_some]
    change (Linenoise.evict max h heap₁).bind _ = _
    rw [hevict]
    change (h₁.setEntry h₁.length (some q)).bind _ = _
    rw [hset]
    rfl

/-- The lines of a text are added, as far as memory is found for them. -/
theorem Holds.addLines (hh : Holds max h texts b) (hsome : h.array.isSome)
    (ho : heap.Owns (b ++ rest)) (hmax : 0 < max) {lines : List (List UInt8)}
    (hlines : ∀ line ∈ lines, 0 ∉ line) :
    ∃ ok n h' heap' b', Linenoise.addLines max false lines h heap = some (ok, h', heap') ∧
      Holds max h' (addAll max texts ((lines.filter (· ≠ [])).take n)) b' ∧
      heap'.Owns (b' ++ rest) := by
  induction lines generalizing h heap b texts with
  | nil => exact ⟨true, 0, h, heap, b, rfl, hh, ho⟩
  | cons line lines ih =>
    obtain ⟨hline, hlines⟩ := List.forall_mem_cons.mp hlines
    rw [Linenoise.addLines]
    by_cases hempty : line = []
    · obtain ⟨ok, n, h', heap', b', hadd, hh', ho'⟩ := ih hh hsome ho hlines
      rw [if_neg (by simp [hempty]), List.filter_cons_of_neg (by simp [hempty])]
      exact ⟨ok, n, h', heap', b', hadd, hh', ho'⟩
    · obtain ⟨ok, h₁, heap₁, b₁, hadd, hh₁, hsome₁, ho₁, -⟩ := hh.addLine hsome ho hmax line hline
      rw [if_pos (.inl hempty), hadd, Option.bind_some, List.filter_cons_of_pos (by simp [hempty])]
      cases ok with
      | false => exact ⟨false, 0, h₁, heap₁, b₁, rfl, hh₁, ho₁⟩
      | true =>
        obtain ⟨ok, n, h', heap', b', hrest, hh', ho'⟩ := ih hh₁ hsome₁ ho₁ hlines
        exact ⟨ok, n + 1, h', heap', b', hrest, hh', ho'⟩

theorem zero_notMem_pieces {line : List UInt8} (h : 0 ∉ line) : ∀ p ∈ pieces line, 0 ∉ p := by
  induction line with
  | nil => simp [pieces]
  | cons c line ih =>
    obtain ⟨hc, hline⟩ := not_or.mp (mt List.mem_cons.mpr h)
    have hpieces := ih hline
    rw [pieces]
    split_ifs
    · exact List.forall_mem_singleton.mpr List.not_mem_nil
    · exact List.forall_mem_cons.mpr ⟨List.not_mem_nil, hpieces⟩
    · cases hp : pieces line with
      | nil => exact List.forall_mem_singleton.mpr fun hmem => hc (List.mem_singleton.mp hmem)
      | cons p ps =>
        rw [hp, List.forall_mem_cons] at hpieces
        refine List.forall_mem_cons.mpr ⟨fun hmem => ?_, hpieces.2⟩
        exact (List.mem_cons.mp hmem).elim hc hpieces.1

/-- `linenoise_addhistory`. -/
theorem Holds.addhistory (hh : Holds max h texts b) (ho : heap.Owns (b ++ rest))
    (line : List UInt8) :
    ∃ ok n h' heap' b', internalAddhistory max line false h heap = some (ok, h', heap') ∧
      Holds max h' (addAll max texts (((pieces (line.takeWhile (· ≠ 0))).filter (· ≠ [])).take n))
        b' ∧
      heap'.Owns (b' ++ rest) := by
  rw [internalAddhistory]
  split_ifs with hmax
  · exact ⟨false, 0, h, heap, b, rfl, hh, ho⟩
  · obtain ⟨ok, h₁, heap₁, b₁, halloc, hh₁, ho₁, hsome, -⟩ := hh.allocate ho
    rw [halloc, Option.bind_some]
    cases ok with
    | false => exact ⟨false, 0, h₁, heap₁, b₁, rfl, hh₁, ho₁⟩
    | true =>
      refine hh₁.addLines (hsome rfl) ho₁ (Nat.pos_of_ne_zero hmax) (zero_notMem_pieces ?_)
      exact fun hmem => by simpa using List.mem_takeWhile_imp hmem

/-- Memory is found for the line at a prompt. -/
def Granted (h : History) (heap : Heap) : Prop :=
  (heap.answers heap.calls).granted = true ∧
    (h.array = none → (heap.answers (heap.calls + 1)).granted = true)

/-- The line at a prompt is added. -/
theorem Holds.pushEmpty (hh : Holds max h texts b) (ho : heap.Owns (b ++ rest)) (hmax : max ≠ 0)
    (hg : Granted h heap) :
    ∃ h' heap' b', internalAddhistory max [] true h heap = some (true, h', heap') ∧
      Holds max h' (makeRoom max texts ++ [[]]) b' ∧ heap'.Owns (b' ++ rest) := by
  obtain ⟨ok, h₁, heap₁, b₁, halloc, hh₁, ho₁, hsome, hnew, hold, hanswers, hcalls⟩ :=
    hh.allocate ho
  have hgranted : ok = true ∧ (heap₁.answers heap₁.calls).granted = true := by
    cases harray : h.array with
    | none => exact ⟨hnew harray hg.1, by rw [hanswers, hcalls harray]; exact hg.2 harray⟩
    | some a =>
      obtain ⟨hok, rfl⟩ := hold (by rw [harray]; rfl)
      exact ⟨hok, hg.1⟩
  obtain ⟨rfl, hg₁⟩ := hgranted
  obtain ⟨ok, h₂, heap₂, b₂, hadd, hh₂, -, ho₂, rfl⟩ :=
    hh₁.addLine (hsome rfl) ho₁ (Nat.pos_of_ne_zero hmax) [] List.not_mem_nil
  rw [hg₁] at hadd hh₂
  refine ⟨h₂, heap₂, b₂, ?_, hh₂, ho₂⟩
  rw [internalAddhistory, if_neg hmax, halloc]
  change (Linenoise.addLine max [] h₁ heap₁).bind _ = _
  rw [hadd]
  rfl

theorem entry_eq {p : Ptr} {n : ℤ} {strs : Blocks} {stale : List (Option Ptr)} {j : ℕ}
    (hj : j < strs.length) :
    (⟨some (p, pointers strs ++ stale), n⟩ : History).entry j = some (some strs[j].1) := by
  rw [History.entry, Option.bind_some, if_pos (Int.natCast_nonneg j), Int.toNat_natCast,
    List.getElem?_append_left (by simpa using hj), pointers, List.getElem?_map,
    List.getElem?_eq_getElem hj, Option.map_some]

theorem entry_length {p : Ptr} {n : ℤ} (pre strs : Blocks) (q : Ptr × List UInt8)
    {stale : List (Option Ptr)} :
    (⟨some (p, pointers (pre ++ q :: strs) ++ stale), n⟩ : History).entry pre.length =
      some (some q.1) := by
  rw [entry_eq (by simp), List.getElem_append_right le_rfl]
  simp

/-- An entry is a string in a block. -/
theorem Holds.entry (hh : Holds max h texts b) (ho : heap.Owns (b ++ rest)) {j : ℕ}
    (hj : j < texts.length) :
    ∃ q, h.entry j = some (some q) ∧ Heap.string q 0 heap = some (texts[j], heap) := by
  cases hh with
  | null => cases hj
  | array p m strs stale texts hlength htexts =>
    have hj' : j < strs.length := htexts.length_eq ▸ hj
    have hm : CString strs[j].2 texts[j] := htexts.get hj' hj
    refine ⟨strs[j].1, entry_eq hj', ?_⟩
    have hmem : (strs[j].1, strs[j].2) ∈ strs ++ [(p, m)] ++ rest :=
      List.mem_append_left _ (List.mem_append_left _ (List.getElem_mem hj'))
    exact ho.string hmem hm (Nat.zero_le _)

theorem forall₂_set {α β : Type} {R : α → β → Prop} {l : List α} {l' : List β} {x : α} {y : β}
    (h : List.Forall₂ R l l') (hxy : R x y) (j : ℕ) : List.Forall₂ R (l.set j x) (l'.set j y) := by
  induction h generalizing j with
  | nil => exact .nil
  | cons hab h ih =>
    cases j with
    | zero => exact .cons hxy h
    | succ j => exact .cons hab (ih j)

/-- An entry is freed, and another text is put in its place. -/
theorem Holds.replaceEntry (hh : Holds max h texts b) (ho : heap.Owns (b ++ rest)) {j : ℕ}
    (hj : j < texts.length) (hg : (heap.answers heap.calls).granted = true) (str : List UInt8)
    (hstr : 0 ∉ str) :
    ∃ h' heap' b', Linenoise.replaceEntry j str h heap = some (h', heap') ∧
      Holds max h' (texts.set j str) b' ∧ heap'.Owns (b' ++ rest) := by
  cases hh with
  | null => cases hj
  | array p m₀ strs stale texts hlength htexts =>
    have hj' : j < strs.length := htexts.length_eq ▸ hj
    obtain ⟨⟨old, m₁⟩, hold⟩ : ∃ x, strs[j] = x := ⟨_, rfl⟩
    have hperm : (strs ++ [(p, m₀)] ++ rest).Perm
        ((old, m₁) :: (strs.eraseIdx j ++ [(p, m₀)] ++ rest)) :=
      hold ▸ ((List.getElem_cons_eraseIdx_perm hj').symm.append_right _).append_right _
    obtain ⟨hfree, ho₁⟩ := (ho.perm hperm).free
    obtain ⟨q, m, heap₂, hdup, hm, ho₂, -, -⟩ := strdup_granted ho₁ hg hstr
    have hset : (pointers strs ++ stale).set j (some q) =
        pointers (strs.set j (q, m)) ++ stale := by
      rw [List.set_append_left _ _ (by simpa using hj'), pointers, pointers, List.map_set]
    refine ⟨⟨some (p, pointers (strs.set j (q, m)) ++ stale), (strs.set j (q, m)).length⟩, heap₂,
      strs.set j (q, m) ++ [(p, m₀)], ?_,
      .array p m₀ _ stale _ (by simpa using hlength) (forall₂_set htexts hm j), ho₂.perm ?_⟩
    · rw [Linenoise.replaceEntry, entry_eq hj', hold]
      change (free (some old) heap).bind _ = _
      rw [free, hfree]
      change (strdup str _).bind _ = _
      rw [hdup]
      change (History.setEntry _ j (some q)).bind _ = _
      rw [History.setEntry, Option.bind_some, if_pos (by simp; omega), Int.toNat_natCast, hset,
        List.length_set]
      rfl
    · exact ((List.set_perm_cons_eraseIdx hj' _).symm.append_right _).append_right _

/-- The last entry is removed. -/
theorem Holds.endPrompt (hh : Holds max h (texts ++ [str]) b) (ho : heap.Owns (b ++ rest)) :
    ∃ h' heap' b', Linenoise.endPrompt h heap = some (h', heap') ∧ Holds max h' texts b' ∧
      heap'.Owns (b' ++ rest) ∧ h'.array.isSome ∧ heap'.answers = heap.answers ∧
      heap'.calls = heap.calls := by
  generalize hall : texts ++ [str] = all at hh
  cases hh with
  | null => exact absurd hall (by simp)
  | array p m strs stale all hlength htexts =>
    subst hall
    obtain rfl | ⟨strs, q, rfl⟩ := strs.eq_nil_or_concat'
    · exact absurd htexts.length_eq (by simp)
    have htexts' : List.Forall₂ (fun b t => CString b.2 t) strs texts := by
      have htake := List.forall₂_take_append _ _ _ htexts
      have hlen := htexts.length_eq
      rwa [List.take_left' (by simpa using hlen)] at htake
    have hperm : (strs ++ [q] ++ [(p, m)] ++ rest).Perm (q :: (strs ++ [(p, m)] ++ rest)) := by
      rw [List.append_assoc, List.append_assoc, List.append_assoc]
      exact List.perm_middle
    obtain ⟨hfree, ho'⟩ := (ho.perm hperm).free
    have hcast : ((strs ++ [q]).length : ℤ) - 1 = strs.length := by simp
    have hslots : pointers (strs ++ [q]) ++ stale = pointers strs ++ some q.1 :: stale := by simp
    refine ⟨⟨some (p, pointers strs ++ some q.1 :: stale), strs.length⟩, _, _, ?_,
      .array p m strs (some q.1 :: stale) texts (by simp at hlength ⊢; omega) htexts', ho', rfl,
      rfl, rfl⟩
    rw [Linenoise.endPrompt]
    dsimp only
    rw [hcast, entry_length]
    change (Linenoise.free (some q.1) heap).bind _ = _
    rw [Linenoise.free, hfree, ← hslots]
    rfl

theorem freeEntries_eq {p : Ptr} {n : ℤ} (pre strs : Blocks) (stale : List (Option Ptr))
    (ho : heap.Owns (strs ++ rest)) :
    ∃ heap', freeEntries ⟨some (p, pointers (pre ++ strs) ++ stale), n⟩ strs.length pre.length
      heap = some heap' ∧ heap'.Owns rest := by
  induction strs generalizing pre heap with
  | nil => exact ⟨heap, rfl, ho⟩
  | cons q strs ih =>
    obtain ⟨hfree, ho'⟩ := Heap.Owns.free ho
    obtain ⟨heap', hrest, ho''⟩ := ih (pre ++ [q]) ho'
    refine ⟨heap', ?_, ho''⟩
    rw [List.append_assoc, List.length_append] at hrest
    rw [List.length_cons, freeEntries, entry_length]
    change (Linenoise.free (some q.1) heap).bind _ = _
    rw [Linenoise.free, hfree]
    exact hrest

/-- `linenoise_cleanup`. -/
theorem Holds.cleanup (hh : Holds max h texts b) (ho : heap.Owns (b ++ rest)) :
    ∃ heap', Linenoise.cleanup h heap = some ({}, heap') ∧ heap'.Owns rest := by
  cases hh with
  | null => exact ⟨heap, rfl, ho⟩
  | array p m strs stale texts hlength htexts =>
    rw [List.append_assoc] at ho
    obtain ⟨heap₁, hentries, ho₁⟩ := freeEntries_eq (p := p) (n := strs.length) [] strs
      stale ho
    obtain ⟨hfree, ho₂⟩ := Heap.Owns.free ho₁
    refine ⟨_, ?_, ho₂⟩
    change (freeEntries _ (strs.length : ℤ).toNat 0 heap).bind _ = _
    rw [Int.toNat_natCast]
    change (freeEntries ⟨some (p, pointers ([] ++ strs) ++ stale), _⟩ strs.length
      (([] : Blocks).length : ℤ) heap).bind _ = _
    rw [hentries]
    change (Linenoise.free (some p) heap₁).bind _ = _
    rw [Linenoise.free, hfree]
    rfl

end Memory

/-! ### Keys at a prompt -/

section Keys

variable {l : Lines} {p : Prompt} {i : ℕ} {text current : List UInt8}

theorem Lines.texts_eq (hcurrent : l.current = some current) : l.texts = l.lines ++ [current] := by
  rw [Lines.texts, hcurrent, Option.toList_some]

theorem Lines.texts_store (hcurrent : l.current = some current) (hi : i ≤ l.lines.length) :
    (l.store i text).texts = l.texts.set (l.lines.length - i) text := by
  rw [texts_eq hcurrent, Lines.store]
  split_ifs with hzero
  · subst hzero
    simp [Lines.texts]
  · rw [List.set_append_left _ _ (by omega)]
    exact texts_eq (l := { l with lines := l.lines.set _ text }) hcurrent

theorem Lines.fetch_eq (hcurrent : l.current = some current) (hi : i ≤ l.lines.length) :
    ∃ hlt : l.lines.length - i < l.texts.length, l.fetch i = l.texts[l.lines.length - i] := by
  refine ⟨by rw [texts_eq hcurrent, List.length_append, List.length_singleton]; omega, ?_⟩
  rw [Lines.fetch]
  split_ifs with hzero
  · subst hzero
    simp [texts_eq hcurrent, hcurrent]
  · have hlt : l.lines.length - i < l.lines.length := by omega
    simp only [texts_eq hcurrent, List.getElem?_eq_getElem hlt, Option.getD_some]
    exact (List.getElem_append_left hlt).symm

theorem Lines.current_store (hcurrent : l.current.isSome) (i : ℕ) (text : List UInt8) :
    (l.store i text).current.isSome := by
  rw [Lines.store]
  split_ifs
  · rfl
  · exact hcurrent

/-- The line at a prompt is a string, and the entry that is shown is there. -/
structure Reads (p : Prompt) (l : Lines) : Prop where
  current : l.current.isSome
  index_nonneg : 0 ≤ p.historyIndex
  index_le : p.historyIndex ≤ l.lines.length
  buf : 0 ∉ p.buf

theorem Prompt.historyIndex_edit (p : Prompt) (key : Key) :
    (p.edit key).historyIndex = p.historyIndex := by
  cases key with
  | kcBackspace | kcRight | char => rw [Prompt.edit]; split_ifs <;> rfl
  | _ => rfl

theorem Prompt.id_edit (p : Prompt) (key : Key) : (p.edit key).id = p.id := by
  cases key with
  | kcBackspace | kcRight | char => rw [Prompt.edit]; split_ifs <;> rfl
  | _ => rfl

theorem Reads.edit (h : Reads p l) (key : Key) : Reads (p.edit key) l := by
  have hindex := p.historyIndex_edit key
  refine ⟨h.current, hindex ▸ h.index_nonneg, hindex ▸ h.index_le, ?_⟩
  have hbuf := h.buf
  cases key with
  | kcBackspace =>
    rw [Prompt.edit]
    split_ifs
    · exact fun hmem => hbuf (List.mem_of_mem_eraseIdx hmem)
    · exact hbuf
  | kcRight =>
    rw [Prompt.edit]
    split_ifs <;> exact hbuf
  | kcDel => exact fun hmem => hbuf (List.mem_of_mem_eraseIdx hmem)
  | kcCtrlU => exact List.not_mem_nil
  | kcCtrlK => exact fun hmem => hbuf (List.mem_of_mem_take hmem)
  | char c =>
    rw [Prompt.edit]
    split_ifs with hprint
    · intro hmem
      obtain rfl | hmem := List.eq_or_mem_of_mem_insertIdx hmem
      · exact absurd hprint.1 (by decide)
      · exact hbuf hmem
    · exact hbuf
  | _ => exact hbuf

section Navigate

variable {max : ℕ} {h : History} {b rest : Blocks} {heap : Heap}

/-- The entry that is shown is a string. -/
theorem Holds.showEntry (hh : Holds max h l.texts b) (ho : heap.Owns (b ++ rest))
    (hcurrent : l.current = some current) (hbuf : 0 ∉ p.buf) (historyIndex : ℤ) :
    Linenoise.showEntry historyIndex p h heap = some (l.look historyIndex p, heap) ∧
      Reads (l.look historyIndex p) l := by
  have hlength : h.length = l.lines.length + 1 := by
    rw [hh.length_eq, Lines.texts_eq hcurrent]
    simp
  have hsome : l.current.isSome := by
    rw [hcurrent]
    rfl
  rw [Linenoise.showEntry, Lines.look]
  by_cases hneg : historyIndex < 0
  · rw [if_pos hneg, if_pos hneg]
    exact ⟨rfl, hsome, le_rfl, Int.natCast_nonneg _, hbuf⟩
  by_cases hover : historyIndex > l.lines.length
  · rw [if_neg hneg, if_neg hneg, if_pos (by omega), if_pos hover, hlength, Int.add_sub_cancel]
    exact ⟨rfl, hsome, Int.natCast_nonneg _, le_rfl, hbuf⟩
  · obtain ⟨hlt, hfetch⟩ := Lines.fetch_eq hcurrent (i := historyIndex.toNat) (by omega)
    obtain ⟨q, hentry, hstring⟩ := hh.entry ho hlt
    have hcast : h.length - 1 - historyIndex =
        ((l.lines.length - historyIndex.toNat : ℕ) : ℤ) := by omega
    rw [if_neg hneg, if_neg hneg, if_neg (by omega), if_neg hover, hcast, hentry]
    refine ⟨?_, hsome, not_lt.mp hneg, not_lt.mp hover, ?_⟩
    · change (Heap.string q 0 heap).bind _ = _
      rw [hstring, hfetch]
      rfl
    · rw [hfetch]
      exact fun hmem => hh.zero_notMem _ (List.getElem_mem hlt) (List.mem_of_mem_take hmem)

theorem Lines.id_navigate (l : Lines) (delta : ℤ) (p : Prompt) :
    (l.navigate delta p).1.id = p.id := by
  rw [Lines.navigate]
  split_ifs
  · rfl
  · dsimp only
    rw [Lines.look]
    split_ifs <;> rfl

/-- Up and down, in memory. -/
theorem Holds.navigate (hh : Holds max h l.texts b) (ho : heap.Owns (b ++ rest))
    (hreads : Reads p l) (hg : 1 < h.length → (heap.answers heap.calls).granted = true)
    (delta : ℤ) :
    ∃ h' heap' b', Linenoise.navigate delta p h heap = some ((l.navigate delta p).1, h', heap') ∧
      Holds max h' (l.navigate delta p).2.texts b' ∧ heap'.Owns (b' ++ rest) ∧
      Reads (l.navigate delta p).1 (l.navigate delta p).2 := by
  obtain ⟨current, hcurrent⟩ := Option.isSome_iff_exists.mp hreads.current
  have hlength : h.length = l.lines.length + 1 := by
    rw [hh.length_eq, Lines.texts_eq hcurrent]
    simp
  have hnonneg := hreads.index_nonneg
  have hle := hreads.index_le
  rw [Linenoise.navigate, Lines.navigate]
  by_cases hempty : l.lines = []
  · rw [if_neg (by simp [hlength, hempty]), if_pos hempty]
    exact ⟨h, heap, b, rfl, hh, ho, hreads⟩
  · have hpos := List.length_pos_iff.mpr hempty
    have hcast : h.length - 1 - p.historyIndex =
        ((l.lines.length - p.historyIndex.toNat : ℕ) : ℤ) := by omega
    obtain ⟨hlt, -⟩ := Lines.fetch_eq hcurrent (i := p.historyIndex.toNat) (by omega)
    obtain ⟨h₁, heap₁, b₁, hreplace, hh₁, ho₁⟩ :=
      hh.replaceEntry ho hlt (hg (by omega)) p.buf hreads.buf
    rw [← Lines.texts_store hcurrent (by omega)] at hh₁
    obtain ⟨current₁, hcurrent₁⟩ := Option.isSome_iff_exists.mp
      (Lines.current_store hreads.current p.historyIndex.toNat p.buf)
    obtain ⟨hlook, hreads₁⟩ := hh₁.showEntry ho₁ hcurrent₁ hreads.buf (p.historyIndex + delta)
    rw [if_pos (by omega), if_neg hempty, hcast, hreplace]
    refine ⟨h₁, heap₁, b₁, ?_, hh₁, ho₁, hreads₁⟩
    change (Linenoise.showEntry (p.historyIndex + delta) p h₁ heap₁).bind _ = _
    rw [hlook]
    rfl

end Navigate

end Keys

end ELuaBrain.Linenoise
