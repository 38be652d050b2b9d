import Mathlib.Data.Int.Init
import Mathlib.Data.List.Basic
import Mathlib.Data.List.Forall2
import Mathlib.Tactic.SplitIfs

/-!
# Line input of the console

`std_read` of `src/newlib/genstd.c`, which edits a line of the console's input. Behind the first
character of a line terminator it waits a short time for the second. Another character that comes
in that time is kept in `std_prev_char` and is put into the buffer of the next call as it is, be it
a backspace or the start of the next terminator.

## Main definitions

* `stdRead` : a call.
* `tokens` : the characters, backspaces and line terminators of an input.
* `readLine` : a call on tokens.
* `Tame` : no terminator comes apart, and none keeps a backspace or a terminator for the next call.

## Main results

* `stdStdin_eq_readLine` : one call.
* `lineInput_of_tame` : the calls of a run, whatever their sizes.
-/

namespace ELuaBrain.Terminal

/-! ### Characters -/

/-- The characters `\n` and `\r`. -/
def lf : UInt8 := 10
def cr : UInt8 := 13

/-- `STD_CTRLZ_CODE`. -/
def stdCtrlzCode : UInt8 := 26

/-- `isprint`. -/
def IsPrint (c : UInt8) : Prop := 32 ≤ c ∧ c < 127

/-- The two codes of a backspace. -/
def IsBackspace (c : UInt8) : Prop := c = 8 ∨ c = 0x7F

/-- The characters of line terminators. -/
def IsTerminator (c : UInt8) : Prop := c = cr ∨ c = lf

instance (c : UInt8) : Decidable (IsPrint c) := inferInstanceAs (Decidable (_ ∧ _))

instance (c : UInt8) : Decidable (IsBackspace c) := inferInstanceAs (Decidable (_ ∨ _))

instance (c : UInt8) : Decidable (IsTerminator c) := inferInstanceAs (Decidable (_ ∨ _))

/-- The two characters of a line terminator of two. -/
def Pair (c d : UInt8) : Prop := IsTerminator c ∧ IsTerminator d ∧ c ≠ d

instance (c d : UInt8) : Decidable (Pair c d) := inferInstanceAs (Decidable (_ ∧ _))

/-- A character of the input. It is late if a call that waits for it behind a line terminator gives
up before it comes. -/
structure Key where
  c : UInt8
  late : Bool
  deriving DecidableEq

/-- What the console is used for. -/
def Key.Typed (k : Key) : Prop := IsPrint k.c ∨ IsBackspace k.c ∨ IsTerminator k.c

instance (k : Key) : Decidable k.Typed := inferInstanceAs (Decidable (_ ∨ _))

/-! ### The call -/

/-- What a call returns, what it has stored from `ptr` on, what it leaves in `std_prev_char` and of
the input, and what it sends to the terminal. -/
structure StdRead where
  ret : ℕ
  ptr : List UInt8
  prev : Option UInt8
  input : List Key
  echo : List UInt8

/-- The bytes that the caller gets. -/
def StdRead.delivered (r : StdRead) : List UInt8 := r.ptr.take r.ret

/-- A call that has sent characters before. -/
def StdRead.sends (cs : List UInt8) (r : StdRead) : StdRead := { r with echo := cs ++ r.echo }

/-- What erases a character, with `BUILD_VRAM` and without. -/
def eraseEcho (vram : Bool) : List UInt8 := if vram then [8] else [8, 32, 8]

/-- `std_get_char_func` with `STD_INTER_CHAR_TIMEOUT`. -/
def stdGetSoon : List Key → Option UInt8 × List Key
  | [] => (none, [])
  | k :: input => if k.late then (none, k :: input) else (some k.c, input)

/-- What is kept of the character behind the terminator `c`. -/
def keepPrev (c : UInt8) (prev : Option UInt8) : Option UInt8 :=
  prev.filter fun d => d.toNat + c.toNat ≠ cr.toNat + lf.toNat

/-- The loop of `std_read` once `std_prev_char` is `-1`, with what is stored so far. At the end of
the input `std_get_char_func` returns `-1`. -/
def stdReadLoop (vram : Bool) (len : ℕ) : List UInt8 → List Key → StdRead
  | ptr, [] => { ret := ptr.length, ptr := ptr, prev := none, input := [], echo := [] }
  | ptr, k :: input =>
      if ptr.length < len then
        if IsBackspace k.c then
          if 0 < ptr.length then (stdReadLoop vram len ptr.dropLast input).sends (eraseEcho vram)
          else stdReadLoop vram len ptr input
        else if ¬ IsPrint k.c ∧ k.c ≠ lf ∧ k.c ≠ cr ∧ k.c ≠ stdCtrlzCode then
          stdReadLoop vram len ptr input
        else if k.c = stdCtrlzCode then
          { ret := 0, ptr := ptr, prev := none, input := input, echo := [] }
        else if k.c = cr ∨ k.c = lf then
          { ret := ptr.length + 1
            ptr := ptr ++ [lf]
            prev := keepPrev k.c (stdGetSoon input).1
            input := (stdGetSoon input).2
            echo := [k.c, cr + lf - k.c] }
        else (stdReadLoop vram len (ptr ++ [k.c]) input).sends [k.c]
      else { ret := ptr.length, ptr := ptr, prev := none, input := k :: input, echo := [] }

/-- `std_read` of `stdin`. Only the first iteration can find a character in `std_prev_char`. -/
def stdStdin (vram : Bool) (len : ℕ) (prev : Option UInt8) (input : List Key) : StdRead :=
  if 0 < len then stdReadLoop vram len prev.toList input
  else { ret := 0, ptr := [], prev := prev, input := input, echo := [] }

/-- The error codes. -/
inductive StdErrno where
  | ebadf
  | einval
  deriving DecidableEq

/-- `std_read`; `funcs` tells whether both functions of the console are set. -/
def stdRead (vram funcs : Bool) (fd : ℤ) (len : ℕ) (prev : Option UInt8) (input : List Key) :
    Except StdErrno StdRead :=
  if ¬ funcs then .error .ebadf
  else if fd < 0 ∨ 2 < fd then .error .ebadf
  else if fd ≠ 0 then .error .einval
  else .ok (stdStdin vram len prev input)

/-- Calls with the sizes `lens`. -/
def stdReads (vram : Bool) : List ℕ → Option UInt8 → List Key → List StdRead
  | [], _, _ => []
  | len :: lens, prev, input =>
      stdStdin vram len prev input ::
        stdReads vram lens (stdStdin vram len prev input).prev (stdStdin vram len prev input).input

/-! ### Tokens -/

/-- What an input consists of. -/
inductive Token where
  | char (c : UInt8)
  | back
  | newline
  deriving DecidableEq

/-- A character that is not part of a terminator of two. -/
def token (c : UInt8) : Token :=
  if IsBackspace c then .back else if IsTerminator c then .newline else .char c

/-- The tokens of an input, however late its characters are. -/
def tokens : List Key → List Token
  | [] => []
  | [k] => [token k.c]
  | k :: k' :: s =>
      if Pair k.c k'.c then .newline :: tokens s else token k.c :: tokens (k' :: s)

/-- A call on tokens: the characters it delivers and the tokens that remain. -/
def readLine (len : ℕ) : List UInt8 → List Token → List UInt8 × List Token
  | line, [] => (line, [])
  | line, t :: ts =>
      if line.length < len then
        match t with
        | .char c => readLine len (line ++ [c]) ts
        | .back => readLine len line.dropLast ts
        | .newline => (line ++ [lf], ts)
      else (line, t :: ts)

/-- What calls with the sizes `lens` deliver. -/
def readLines : List ℕ → List Token → List (List UInt8)
  | [], _ => []
  | len :: lens, ts => (readLine len [] ts).1 :: readLines lens (readLine len [] ts).2

/-- The calls deliver what the tokens of the input stand for, and store no more than they may. -/
structure LineInput (vram : Bool) (s : List Key) (lens : List ℕ) : Prop where
  lines : (stdReads vram lens none s).map StdRead.delivered = readLines lens (tokens s)
  bounded : List.Forall₂ (fun r len => r.ptr.length ≤ len) (stdReads vram lens none s) lens

/-- The second character of a terminator is not late, and what follows a terminator of one
character, if it is not late, can be printed. -/
def Tame : List Key → Prop
  | [] => True
  | [_] => True
  | k :: k' :: s =>
      if Pair k.c k'.c then k'.late = false ∧ Tame s
      else (IsTerminator k.c → k'.late = false → IsPrint k'.c) ∧ Tame (k' :: s)

/-! ### Terminators -/

theorem not_isBackspace_of_isTerminator {c : UInt8} (h : IsTerminator c) : ¬ IsBackspace c := by
  rcases h with rfl | rfl <;> decide

theorem not_isTerminator_of_isBackspace {c : UInt8} (h : IsBackspace c) : ¬ IsTerminator c :=
  fun ht => not_isBackspace_of_isTerminator ht h

theorem IsPrint.not_isBackspace {c : UInt8} (h : IsPrint c) : ¬ IsBackspace c := by
  rintro (rfl | rfl)
  · exact absurd h (by decide)
  · exact absurd h (by decide)

theorem IsPrint.not_isTerminator {c : UInt8} (h : IsPrint c) : ¬ IsTerminator c := by
  rintro (rfl | rfl)
  · exact absurd h (by decide)
  · exact absurd h (by decide)

theorem token_of_isPrint {c : UInt8} (h : IsPrint c) : token c = .char c := by
  rw [token, if_neg h.not_isBackspace, if_neg h.not_isTerminator]

/-- The two characters of a terminator are told by their sum. -/
theorem keepPrev_pair {c d : UInt8} (h : Pair c d) : keepPrev c (some d) = none := by
  obtain ⟨rfl | rfl, rfl | rfl, hne⟩ := h
  · exact absurd rfl hne
  · rfl
  · rfl
  · exact absurd rfl hne

theorem keepPrev_isPrint (c : UInt8) {d : UInt8} (hd : IsPrint d) :
    keepPrev c (some d) = some d := by
  have h32 : 32 ≤ d.toNat := UInt8.le_iff_toNat_le.mp hd.1
  refine Option.filter_eq_some_iff.mpr ⟨rfl, decide_eq_true fun hsum => ?_⟩
  have : cr.toNat + lf.toNat = 23 := rfl
  omega

theorem tokens_cons {k : Key} (h : ¬ IsTerminator k.c) (s : List Key) :
    tokens (k :: s) = token k.c :: tokens s := by
  cases s with
  | nil => rfl
  | cons k' s => rw [tokens, if_neg fun hp => h hp.1]

/-- The rest of a tame input is tame if it does not start in a terminator. -/
theorem Tame.tail {k : Key} {s : List Key} (h : Tame (k :: s)) (hk : ¬ IsTerminator k.c) :
    Tame s := by
  cases s with
  | nil => trivial
  | cons k' s =>
    rw [Tame, if_neg fun hp => hk hp.1] at h
    exact h.2

/-! ### One call -/

/-- Between two calls, nothing but a character that can be printed is kept. -/
structure Settled (prev : Option UInt8) (input : List Key) : Prop where
  tame : Tame input
  typed : ∀ k ∈ input, k.Typed
  prints : ∀ c ∈ prev, IsPrint c

/-- The tokens that the calls to come will see. -/
def pendingTokens (prev : Option UInt8) (input : List Key) : List Token :=
  (prev.map Token.char).toList ++ tokens input

/-- What a terminator at the start of a tame input leaves for the next call. -/
theorem settled_terminator {k : Key} {s : List Key} (htame : Tame (k :: s))
    (htyped : ∀ k' ∈ s, k'.Typed) (hk : IsTerminator k.c) :
    Settled (keepPrev k.c (stdGetSoon s).1) (stdGetSoon s).2 ∧
      tokens (k :: s) =
        .newline :: pendingTokens (keepPrev k.c (stdGetSoon s).1) (stdGetSoon s).2 := by
  have htoken : token k.c = .newline := by
    rw [token, if_neg (not_isBackspace_of_isTerminator hk), if_pos hk]
  cases s with
  | nil => exact ⟨⟨trivial, nofun, nofun⟩, by rw [tokens, htoken]; rfl⟩
  | cons k' s =>
    rw [Tame] at htame
    rw [tokens]
    have htyped' : ∀ k'' ∈ s, k''.Typed := fun k'' hmem => htyped k'' (List.mem_cons_of_mem k' hmem)
    by_cases hpair : Pair k.c k'.c
    · rw [if_pos hpair] at htame
      have hsoon : stdGetSoon (k' :: s) = (some k'.c, s) := by
        rw [stdGetSoon, htame.1]
        rfl
      rw [hsoon, keepPrev_pair hpair, if_pos hpair]
      exact ⟨⟨htame.2, htyped', nofun⟩, rfl⟩
    · rw [if_neg hpair] at htame
      rw [if_neg hpair, htoken]
      cases hlate : k'.late with
      | true =>
        have hsoon : stdGetSoon (k' :: s) = (none, k' :: s) := by
          rw [stdGetSoon, hlate]
          rfl
        rw [hsoon]
        exact ⟨⟨htame.2, htyped, nofun⟩, rfl⟩
      | false =>
        have hprint := htame.1 hk hlate
        have hsoon : stdGetSoon (k' :: s) = (some k'.c, s) := by
          rw [stdGetSoon, hlate]
          rfl
        rw [hsoon, keepPrev_isPrint k.c hprint]
        refine ⟨⟨htame.2.tail hprint.not_isTerminator, htyped', ?_⟩, ?_⟩
        · rintro c ⟨⟩
          exact hprint
        · rw [tokens_cons hprint.not_isTerminator, token_of_isPrint hprint]
          rfl

/-- A call on a settled input, against what the tokens give: what it delivers, and what it
leaves. -/
structure Reads (r : StdRead) (line : List UInt8 × List Token) : Prop where
  delivered : r.delivered = line.1
  pending : pendingTokens r.prev r.input = line.2
  settled : Settled r.prev r.input

/-- A call that returns all that it has stored. -/
theorem reads_stop (line : List UInt8) {input : List Key} (htame : Tame input)
    (htyped : ∀ k ∈ input, k.Typed) :
    Reads { ret := line.length, ptr := line, prev := none, input := input, echo := [] }
      (line, tokens input) where
  delivered := List.take_length
  pending := rfl
  settled := ⟨htame, htyped, nofun⟩

theorem Reads.sends {r : StdRead} {line : List UInt8 × List Token} (h : Reads r line)
    (cs : List UInt8) : Reads (r.sends cs) line :=
  ⟨h.delivered, h.pending, h.settled⟩

/-- A call that has stored all it may. -/
theorem readLine_full {len : ℕ} {line : List UInt8} (h : ¬ line.length < len) (ts : List Token) :
    readLine len line ts = (line, ts) := by
  cases ts with
  | nil => rfl
  | cons t ts => exact if_neg h

/-- The loop, with a line stored so far. -/
theorem stdReadLoop_reads (vram : Bool) (len : ℕ) (line : List UInt8) {input : List Key}
    (htame : Tame input) (htyped : ∀ k ∈ input, k.Typed) :
    Reads (stdReadLoop vram len line input) (readLine len line (tokens input)) := by
  induction input generalizing line with
  | nil => exact reads_stop line htame htyped
  | cons k s ih =>
    have htyped' : ∀ k' ∈ s, k'.Typed := fun k' hmem => htyped k' (List.mem_cons_of_mem k hmem)
    rw [stdReadLoop]
    by_cases hlen : line.length < len
    · rw [if_pos hlen]
      rcases htyped k List.mem_cons_self with hprint | hback | hterm
      · -- a character that can be printed
        have hctrlz : k.c ≠ stdCtrlzCode := fun heq =>
          absurd (heq ▸ hprint) (by decide)
        have hterm : ¬ (k.c = cr ∨ k.c = lf) := hprint.not_isTerminator
        rw [if_neg hprint.not_isBackspace, if_neg (fun h => h.1 hprint), if_neg hctrlz,
          if_neg hterm, tokens_cons hprint.not_isTerminator,
          token_of_isPrint hprint, readLine, if_pos hlen]
        exact (ih (line ++ [k.c]) (htame.tail hprint.not_isTerminator) htyped').sends _
      · -- a backspace
        have hterm := not_isTerminator_of_isBackspace hback
        have hrest := ih line.dropLast (htame.tail hterm) htyped'
        rw [if_pos hback, tokens_cons hterm, token, if_pos hback, readLine, if_pos hlen]
        by_cases hpos : 0 < line.length
        · rw [if_pos hpos]
          exact hrest.sends _
        · have hnil : line = [] := List.eq_nil_of_length_eq_zero (Nat.eq_zero_of_not_pos hpos)
          subst hnil
          exact hrest
      · -- a terminator
        obtain ⟨hsettled, htokens⟩ := settled_terminator htame htyped' hterm
        have hctrlz : k.c ≠ stdCtrlzCode := by
          rcases hterm with h | h <;> rw [h] <;> decide
        have hkept : ¬ (¬ IsPrint k.c ∧ k.c ≠ lf ∧ k.c ≠ cr ∧ k.c ≠ stdCtrlzCode) :=
          fun h => hterm.elim h.2.2.1 h.2.1
        have hreturn : k.c = cr ∨ k.c = lf := hterm
        have hret : line.length + 1 = (line ++ [lf]).length := by
          rw [List.length_append, List.length_singleton]
        rw [if_neg (not_isBackspace_of_isTerminator hterm), if_neg hkept, if_neg hctrlz,
          if_pos hreturn, htokens, readLine, if_pos hlen]
        refine ⟨?_, rfl, hsettled⟩
        rw [StdRead.delivered, hret, List.take_length]
    · rw [if_neg hlen, readLine_full hlen]
      exact reads_stop line htame htyped

/-- A call. -/
theorem stdStdin_eq_readLine (vram : Bool) (len : ℕ) {prev : Option UInt8} {input : List Key}
    (h : Settled prev input) :
    Reads (stdStdin vram len prev input) (readLine len [] (pendingTokens prev input)) := by
  rw [stdStdin]
  by_cases hlen : 0 < len
  · rw [if_pos hlen]
    have hloop := stdReadLoop_reads vram len prev.toList h.tame h.typed
    cases prev with
    | none => exact hloop
    | some c =>
      -- the tokens of the input are read with the kept character in the line
      have hkept :
          readLine len [] (pendingTokens (some c) input) = readLine len [c] (tokens input) :=
        if_pos hlen
      rw [hkept]
      exact hloop
  · rw [if_neg hlen, readLine_full hlen]
    exact ⟨rfl, rfl, h⟩

/-- No more is stored than the call may store, whatever the input is. -/
theorem stdReadLoop_length_le (vram : Bool) (len : ℕ) {line : List UInt8} (h : line.length ≤ len)
    (input : List Key) : (stdReadLoop vram len line input).ptr.length ≤ len := by
  induction input generalizing line with
  | nil => exact h
  | cons k s ih =>
    rw [stdReadLoop]
    by_cases hlen : line.length < len
    · rw [if_pos hlen]
      have hmore (c : UInt8) : (line ++ [c]).length ≤ len := by
        rw [List.length_append, List.length_singleton]
        exact hlen
      have hless : line.dropLast.length ≤ len := by
        rw [List.length_dropLast]
        omega
      split_ifs
      · exact ih hless
      · exact ih h
      · exact ih h
      · exact h
      · exact hmore lf
      · exact ih (hmore k.c)
    · rw [if_neg hlen]
      exact h

theorem stdStdin_length_le (vram : Bool) (len : ℕ) (prev : Option UInt8) (input : List Key) :
    (stdStdin vram len prev input).ptr.length ≤ len := by
  rw [stdStdin]
  by_cases hlen : 0 < len
  · rw [if_pos hlen]
    refine stdReadLoop_length_le vram len ?_ input
    cases prev with
    | none => exact Nat.zero_le len
    | some c => exact hlen
  · rw [if_neg hlen]
    exact Nat.zero_le len

/-! ### All calls -/

theorem stdReads_bounded (vram : Bool) (lens : List ℕ) (prev : Option UInt8) (input : List Key) :
    List.Forall₂ (fun r len => r.ptr.length ≤ len) (stdReads vram lens prev input) lens := by
  induction lens generalizing prev input with
  | nil => exact .nil
  | cons len lens ih => exact .cons (stdStdin_length_le vram len prev input) (ih _ _)

theorem stdReads_eq_readLines (vram : Bool) (lens : List ℕ) {prev : Option UInt8} {input : List Key}
    (h : Settled prev input) :
    (stdReads vram lens prev input).map StdRead.delivered =
      readLines lens (pendingTokens prev input) := by
  induction lens generalizing prev input with
  | nil => rfl
  | cons len lens ih =>
    have hcall := stdStdin_eq_readLine vram len h
    rw [stdReads, List.map_cons, readLines, hcall.delivered, ih hcall.settled, hcall.pending]

/-- **Line input.** In every run of calls on a tame input, whatever their sizes, each call delivers
what the tokens give. -/
theorem lineInput_of_tame (vram : Bool) (s : List Key) (lens : List ℕ) (htame : Tame s)
    (htyped : ∀ k ∈ s, k.Typed) : LineInput vram s lens :=
  ⟨stdReads_eq_readLines vram lens ⟨htame, htyped, nofun⟩, stdReads_bounded vram lens none s⟩

/-- A line, a correction in the next one, and a terminator of which a call ends before it. -/
theorem lineInput_two_lines : LineInput true
    [⟨97, false⟩, ⟨cr, false⟩, ⟨lf, false⟩, ⟨8, false⟩, ⟨98, false⟩, ⟨99, true⟩, ⟨8, false⟩,
      ⟨lf, true⟩, ⟨98, false⟩] [1, 128, 2, 0, 128] :=
  lineInput_of_tame true _ _ (by simp [Tame, Pair, IsTerminator, IsPrint, cr, lf]) (by decide)

/-- An empty line is taken for a character of the next line. -/
theorem not_lineInput_empty_line :
    ¬ ∀ (vram : Bool) (s : List Key) (lens : List ℕ), (∀ k ∈ s, k.Typed) →
      LineInput vram s lens := by
  intro h
  have hlines := (h true [⟨cr, false⟩, ⟨cr, false⟩] [128, 128] (by decide)).lines
  revert hlines
  decide

end ELuaBrain.Terminal
