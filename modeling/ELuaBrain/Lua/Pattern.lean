import Mathlib.Algebra.Order.Ring.Int
import Mathlib.Data.UInt
import Mathlib.Logic.Function.Basic

/-!
# Patterns

The pattern matching of `lstrlib.c`. A match goes through the pattern and the subject, and tries the
repetitions of an item one after the other. The captures are kept in an array, in which a part that
fails undoes what it has written.

The pattern of a match ends at its first zero byte; here it has none. Positions in the subject are
offsets, and a zero byte is behind its end. The classes are those of the C locale. A `MatchState` is
not initialised: a search gets what is in its memory.

## Main definitions

* `singlematch`, `classend` : a single item, and where it ends.
* `doMatch` : `match`, with `maxExpand`, `minExpand`, `startCapture` and `endCapture`.
* `lmemfind`, `strFindAux` : plain search, and the search for a match.
* `gmatchAux`, `strGsub` : one match after the other, and the substitution of matches.
-/

namespace ELuaBrain.Lua.Patterns

open Function

/-- A character of a pattern. -/
def ch (c : Char) : UInt8 := c.toNat.toUInt8

/-- `L_ESC`. -/
def lEsc : UInt8 := ch '%'

/-- The errors of a match. -/
inductive Error where
  | captureIndex
  | patternCapture
  | endsWithEsc
  | missingBracket
  | unbalanced
  | frontier
  | tooManyCaptures
  | unfinishedCapture
  | invalidReplacement (typename : String)
  | endless
  deriving DecidableEq

/-- The text of `luaL_error`. -/
def Error.message : Error → String
  | .captureIndex => "invalid capture index"
  | .patternCapture => "invalid pattern capture"
  | .endsWithEsc => "malformed pattern (ends with '%')"
  | .missingBracket => "malformed pattern (missing ']')"
  | .unbalanced => "unbalanced pattern"
  | .frontier => "missing '[' after '%f' in pattern"
  | .tooManyCaptures => "too many captures"
  | .unfinishedCapture => "unfinished capture"
  | .invalidReplacement typename => "invalid replacement value (a " ++ typename ++ ")"
  | .endless => ""

/-- `capture`, with `CAP_UNFINISHED` or `CAP_POSITION` for its length. -/
structure Capture where
  start : ℕ
  len : ℤ
  deriving DecidableEq

/-- `CAP_UNFINISHED`. -/
def capUnfinished : ℤ := -1

/-- `CAP_POSITION`. -/
def capPosition : ℤ := -2

/-- `LUA_MAXCAPTURES`. -/
def luaMaxcaptures : ℕ := 10

/-- `MatchState`, without the subject. -/
structure MatchState where
  level : ℕ
  capture : ℕ → Capture

/-! ### Classes -/

def isalpha (c : UInt8) : Bool := 65 ≤ c && c ≤ 90 || 97 ≤ c && c ≤ 122
def iscntrl (c : UInt8) : Bool := c < 32 || c = 127
def isdigit (c : UInt8) : Bool := 48 ≤ c && c ≤ 57
def islower (c : UInt8) : Bool := 97 ≤ c && c ≤ 122
def isspace (c : UInt8) : Bool := c = 32 || 9 ≤ c && c ≤ 13
def isupper (c : UInt8) : Bool := 65 ≤ c && c ≤ 90
def isalnum (c : UInt8) : Bool := isalpha c || isdigit c
def ispunct (c : UInt8) : Bool := 33 ≤ c && c ≤ 126 && !isalnum c
def isxdigit (c : UInt8) : Bool := isdigit c || 65 ≤ c && c ≤ 70 || 97 ≤ c && c ≤ 102
def tolower (c : UInt8) : UInt8 := if isupper c then c + 32 else c

/-- The `switch` of `match_class`. -/
def classOf (c cl : UInt8) : Option Bool :=
  if cl = ch 'a' then some (isalpha c)
  else if cl = ch 'c' then some (iscntrl c)
  else if cl = ch 'd' then some (isdigit c)
  else if cl = ch 'l' then some (islower c)
  else if cl = ch 'p' then some (ispunct c)
  else if cl = ch 's' then some (isspace c)
  else if cl = ch 'u' then some (isupper c)
  else if cl = ch 'w' then some (isalnum c)
  else if cl = ch 'x' then some (isxdigit c)
  else if cl = ch 'z' then some (c = 0)
  else none

/-- `match_class`. -/
def matchClass (c cl : UInt8) : Bool :=
  match classOf c (tolower cl) with
  | some res => if islower cl then res else !res
  | none => cl = c

/-- The loop of `matchbracketclass` over what is between the brackets. -/
def matchset (c : UInt8) : List UInt8 → Bool
  | [] => false
  | [x] => if x = lEsc then matchClass c (ch ']') else x = c
  | [x, y] => if x = lEsc then matchClass c y else x = c || matchset c [y]
  | x :: y :: z :: r =>
      if x = lEsc then matchClass c y || matchset c (z :: r)
      else if y = ch '-' then x ≤ c && c ≤ z || matchset c r
      else x = c || matchset c (y :: z :: r)

/-- `matchbracketclass`, with what is between the brackets. -/
def matchbracketclass (c : UInt8) (set : List UInt8) : Bool :=
  if set.head? = some (ch '^') then !matchset c set.tail else matchset c set

/-- The loop of `classend`, which looks for the closing bracket. -/
def bracketend : List UInt8 → Except Error (List UInt8)
  | [] => .error .missingBracket
  | [c] => if c = ch ']' then .ok [] else .error .missingBracket
  | c :: d :: p =>
      if c = ch ']' then .ok (d :: p)
      else if c = lEsc then bracketend p
      else bracketend (d :: p)

/-- What is behind the first character between the brackets, which may be a closing bracket. -/
def bracketfirst : List UInt8 → Except Error (List UInt8)
  | [] => .error .missingBracket
  | c :: p => bracketend (if c = lEsc then p.tail else p)

/-- `classend`, for an item that begins with `c`. -/
def classend (c : UInt8) (p : List UInt8) : Except Error (List UInt8) :=
  if c = lEsc then
    match p with
    | [] => .error .endsWithEsc
    | _ :: p => .ok p
  else if c = ch '[' then bracketfirst (if p.head? = some (ch '^') then p.tail else p)
  else .ok p

/-- What is between the brackets, where `ep` is behind the closing one. -/
def between (p ep : List UInt8) : List UInt8 := p.take (p.length - ep.length - 1)

/-- `singlematch`, for an item that begins with `i` and ends at `ep`. -/
def singlematch (c i : UInt8) (p ep : List UInt8) : Bool :=
  if i = ch '.' then true
  else if i = lEsc then matchClass c (p.headD 0)
  else if i = ch '[' then matchbracketclass c (between p ep)
  else i = c

/-! ### Matching -/

section Match

variable (src : List UInt8)

/-- The result of a match: where it ends, if it does not fail. -/
abbrev Result := Except Error (MatchState × Option ℕ)

/-- The loop of `matchbalance`. -/
def balance (b e : UInt8) : List UInt8 → ℕ → ℕ → Option ℕ
  | [], _, _ => none
  | x :: rest, s, cont =>
      if x = e then
        if cont - 1 = 0 then some (s + 1) else balance b e rest (s + 1) (cont - 1)
      else balance b e rest (s + 1) (if x = b then cont + 1 else cont)

def matchbalance (s : ℕ) : List UInt8 → Except Error (Option ℕ)
  | b :: e :: _ =>
      .ok (if src.getD s 0 ≠ b then none else balance b e (src.drop (s + 1)) (s + 1) 1)
  | _ => .error .unbalanced

/-- The repetitions of `max_expand`, from `i` on downwards. -/
def maxLoop (k : MatchState → ℕ → Result) (s : ℕ) : MatchState → ℕ → Result
  | ms, 0 => k ms s
  | ms, i + 1 => do
      let (ms, res) ← k ms (s + (i + 1))
      if res.isSome then pure (ms, res) else maxLoop k s ms i

/-- `max_expand`, where `f` is the item and `k` matches what is behind it. -/
def maxExpand (f : UInt8 → Bool) (k : MatchState → ℕ → Result) (ms : MatchState) (s : ℕ) :
    Result :=
  maxLoop k s ms ((src.drop s).takeWhile f).length

/-- The loop of `min_expand`, with what is left of the subject. -/
def minLoop (f : UInt8 → Bool) (k : MatchState → ℕ → Result) :
    MatchState → ℕ → List UInt8 → Result
  | ms, s, [] => k ms s
  | ms, s, x :: rest => do
      let (ms, res) ← k ms s
      if res.isSome then pure (ms, res)
      else if f x then minLoop f k ms (s + 1) rest
      else pure (ms, none)

/-- `min_expand`. -/
def minExpand (f : UInt8 → Bool) (k : MatchState → ℕ → Result) (ms : MatchState) (s : ℕ) :
    Result :=
  minLoop f k ms s (src.drop s)

/-- `start_capture`. -/
def startCapture (k : MatchState → ℕ → Result) (ms : MatchState) (s : ℕ) (what : ℤ) : Result :=
  if luaMaxcaptures ≤ ms.level then .error .tooManyCaptures
  else do
    let (ms, res) ← k ⟨ms.level + 1, update ms.capture ms.level ⟨s, what⟩⟩ s
    pure (if res.isNone then { ms with level := ms.level - 1 } else ms, res)

/-- `capture_to_close`. -/
def captureToClose (capture : ℕ → Capture) : ℕ → Option ℕ
  | 0 => none
  | l + 1 => if (capture l).len = capUnfinished then some l else captureToClose capture l

/-- The length of a capture is set. -/
def MatchState.setLen (ms : MatchState) (l : ℕ) (len : ℤ) : MatchState :=
  { ms with capture := update ms.capture l { ms.capture l with len := len } }

/-- `end_capture`. -/
def endCapture (k : MatchState → ℕ → Result) (ms : MatchState) (s : ℕ) : Result :=
  match captureToClose ms.capture ms.level with
  | none => .error .patternCapture
  | some l => do
      let (ms, res) ← k (ms.setLen l (s - (ms.capture l).start)) s
      pure (if res.isNone then ms.setLen l capUnfinished else ms, res)

/-- `check_capture`. -/
def checkCapture (ms : MatchState) (l : UInt8) : Except Error ℕ :=
  let l := (l.toNat : ℤ) - 49
  if l < 0 ∨ ms.level ≤ l ∨ (ms.capture l.toNat).len = capUnfinished then .error .captureIndex
  else .ok l.toNat

/-- `match_capture`. The length of a position capture, as a `size_t`, is larger than any string. -/
def matchCapture (ms : MatchState) (s : ℕ) (l : UInt8) : Except Error (Option ℕ) := do
  let l ← checkCapture ms l
  let c := ms.capture l
  pure (if 0 ≤ c.len ∧ c.len ≤ src.length - s ∧
      (src.drop c.start).take c.len.toNat = (src.drop s).take c.len.toNat then
    some (s + c.len.toNat)
  else none)

/-- A match goes on behind an item without repetitions, or fails. -/
def goOn (k : MatchState → ℕ → Result) (ms : MatchState) : Option ℕ → Result
  | some s => k ms s
  | none => .ok (ms, none)

/-- The case of a frontier: the character before `s` is not in the set, and the one at `s` is. -/
def frontier (s : ℕ) (set : List UInt8) : Bool :=
  !matchbracketclass (if s = 0 then 0 else src.getD (s - 1) 0) set &&
    matchbracketclass (src.getD s 0) set

/-- The item at `s`. -/
def atItem (f : UInt8 → Bool) (s : ℕ) : Bool := (src.drop s).head?.any f

/-- The case of an item, where `k` matches the rest of a pattern. -/
def matchItem (k : List UInt8 → MatchState → ℕ → Result) (ms : MatchState) (s : ℕ) (c : UInt8)
    (p : List UInt8) : Result := do
  let ep ← classend c p
  let f := fun x => singlematch x c p ep
  match ep with
  | [] => if atItem src f s then k [] ms (s + 1) else pure (ms, none)
  | q :: ep =>
      if q = ch '?' then
        if atItem src f s then do
          let (ms, res) ← k ep ms (s + 1)
          if res.isSome then pure (ms, res) else k ep ms s
        else k ep ms s
      else if q = ch '*' then maxExpand src f (k ep) ms s
      else if q = ch '+' then
        if atItem src f s then maxExpand src f (k ep) ms (s + 1) else pure (ms, none)
      else if q = ch '-' then minExpand src f (k ep) ms s
      else if atItem src f s then k (q :: ep) ms (s + 1) else pure (ms, none)

/-- `match`. It calls itself with a shorter pattern, so that the number of characters is fuel
enough. -/
def doMatch : ℕ → List UInt8 → MatchState → ℕ → Result
  | _, [], ms, s => .ok (ms, some s)
  | 0, _ :: _, _, _ => .error .endless
  | fuel + 1, c :: p, ms, s =>
      if c = ch '(' then
        if p.head? = some (ch ')') then startCapture (doMatch fuel p.tail) ms s capPosition
        else startCapture (doMatch fuel p) ms s capUnfinished
      else if c = ch ')' then endCapture (doMatch fuel p) ms s
      else if c = lEsc ∧ p.head? = some (ch 'b') then do
        goOn (doMatch fuel (p.drop 3)) ms (← matchbalance src s p.tail)
      else if c = lEsc ∧ p.head? = some (ch 'f') then
        match p.tail with
        | [] => .error .frontier
        | d :: q =>
            if d ≠ ch '[' then .error .frontier
            else do
              let ep ← classend d q
              goOn (doMatch fuel ep) ms (if frontier src s (between q ep) then some s else none)
      else if c = lEsc ∧ p.head?.any isdigit then do
        goOn (doMatch fuel p.tail) ms (← matchCapture src ms s (p.headD 0))
      else if c = ch '$' ∧ p = [] then
        .ok (ms, if s = src.length then some s else none)
      else matchItem src (doMatch fuel) ms s c p

/-- `match`, as it is called for a whole pattern. -/
def matchAt (p : List UInt8) (ms : MatchState) (s : ℕ) : Result :=
  doMatch src p.length p { ms with level := 0 } s

end Match

/-! ### Captures -/

/-- A value that is pushed. -/
inductive Value where
  | nil
  | integer (n : ℤ)
  | string (s : List UInt8)
  deriving DecidableEq

section Search

variable (src : List UInt8)

/-- `push_onecapture`. -/
def pushOnecapture (ms : MatchState) (i s e : ℕ) : Except Error Value :=
  if ms.level ≤ i then
    if i = 0 then .ok (.string ((src.drop s).take (e - s))) else .error .captureIndex
  else
    let c := ms.capture i
    if c.len = capUnfinished then .error .unfinishedCapture
    else if c.len = capPosition then .ok (.integer (c.start + 1))
    else .ok (.string ((src.drop c.start).take c.len.toNat))

/-- `push_captures`, where the whole match counts if there are no captures. -/
def pushCaptures (ms : MatchState) (whole : Bool) (s e : ℕ) : Except Error (List Value) :=
  (List.range (if ms.level = 0 ∧ whole then 1 else ms.level)).mapM fun i =>
    pushOnecapture src ms i s e

/-! ### Search -/

/-- `memchr`. -/
def memchr (s : List UInt8) (c : UInt8) (n : ℕ) : Option ℕ := (s.take n).findIdx? (· == c)

theorem memchr_lt {s : List UInt8} {c : UInt8} {n j : ℕ} (h : memchr s c n = some j) : j < n := by
  obtain ⟨hlt, -⟩ := List.findIdx?_eq_some_iff_getElem.mp h
  rw [List.length_take] at hlt
  omega

/-- The loop of `lmemfind`, at an offset, for a first character and the other ones. -/
def lmemfindLoop (c : UInt8) (rest s1 : List UInt8) (l1 offset : ℕ) : Option ℕ :=
  match h : memchr s1 c l1 with
  | none => none
  | some j =>
      if (s1.drop (j + 1)).take rest.length = rest then some (offset + j)
      else lmemfindLoop c rest (s1.drop (j + 1)) (l1 - (j + 1)) (offset + (j + 1))
  termination_by l1
  decreasing_by
    have := memchr_lt h
    omega

/-- `lmemfind`. -/
def lmemfind (s1 s2 : List UInt8) : Option ℕ :=
  match s2 with
  | [] => some 0
  | c :: rest =>
      if s1.length < s2.length then none
      else lmemfindLoop c rest s1 (s1.length - rest.length) 0

/-- `posrelat`. -/
def posrelat (pos : ℤ) (len : ℕ) : ℤ :=
  let pos := if pos < 0 then pos + (len + 1) else pos
  if 0 ≤ pos then pos else 0

/-- Where a search begins. -/
def findInit (init : ℤ) (l1 : ℕ) : ℕ :=
  let init := posrelat init l1 - 1
  if init < 0 then 0 else if l1 < init then l1 else init.toNat

/-- `SPECIALS`. -/
def specials : List UInt8 := [ch '^', ch '$', ch '*', ch '+', ch '?', ch '.', ch '(', ch '[',
  ch '%', ch '-']

/-- A C string, as it is read up to its first zero byte. -/
def cString (p : List UInt8) : List UInt8 := p.takeWhile (· ≠ 0)

/-- The loop of `str_find_aux`, over the places from `s1` to `n` behind it. It gives the match and
what is left in the `MatchState`. -/
def findLoop (p : List UInt8) (anchor : Bool) :
    ℕ → MatchState → ℕ → Except Error (Option (ℕ × ℕ × MatchState))
  | 0, ms, s1 => do
      let (ms, res) ← matchAt src p ms s1
      pure (res.map fun e => (s1, e, ms))
  | n + 1, ms, s1 => do
      let (ms, res) ← matchAt src p ms s1
      match res with
      | some e => pure (some (s1, e, ms))
      | none => if anchor then pure none else findLoop p anchor n ms (s1 + 1)

/-- A pattern without its anchor. -/
def unanchored (p : List UInt8) : Bool × List UInt8 :=
  if p.head? = some (ch '^') then (true, p.tail) else (false, p)

/-- The case of `str_find_aux` in which there is a pattern to match. -/
def findPattern (find : Bool) (p : List UInt8) (ms : MatchState) (s : ℕ) :
    Except Error (List Value) := do
  let (anchor, p) := unanchored (cString p)
  match ← findLoop src p anchor (src.length - s) ms s with
  | none => pure [.nil]
  | some (s1, e, ms) =>
      if find then do
        let captures ← pushCaptures src ms false 0 0
        pure (.integer (s1 + 1) :: .integer e :: captures)
      else pushCaptures src ms true s1 e

/-- The case of `str_find_aux` in which there is a string to find. -/
def findPlain (p : List UInt8) (s : ℕ) : List Value :=
  match lmemfind (src.drop s) p with
  | none => [.nil]
  | some j => [.integer (s + j + 1), .integer (s + j + p.length)]

/-- `str_find_aux`. -/
def strFindAux (find : Bool) (p : List UInt8) (init : ℤ) (plain : Bool) (ms : MatchState) :
    Except Error (List Value) :=
  let s := findInit init src.length
  if find && (plain || (cString p).all (· ∉ specials)) then .ok (findPlain src p s)
  else findPattern src find p ms s

/-- The loop of `gmatch_aux`, over the positions from `s` on. -/
def gmatchLoop (p : List UInt8) : ℕ → MatchState → ℕ → Except Error (Option (ℕ × ℕ × MatchState))
  | 0, _, _ => .ok none
  | n + 1, ms, s => do
      let (ms, res) ← matchAt src p ms s
      match res with
      | some e => pure (some (s, e, ms))
      | none => gmatchLoop p n ms (s + 1)

/-- `gmatch_aux`, with the next position to begin at. There are no values if there is no match. -/
def gmatchAux (p : List UInt8) (ms : MatchState) (lastpos : ℕ) :
    Except Error (ℕ × List Value) := do
  match ← gmatchLoop src (cString p) (src.length + 1 - lastpos) ms lastpos with
  | none => pure (lastpos, [])
  | some (s, e, ms) => do
      let captures ← pushCaptures src ms true s e
      pure (if e = s then e + 1 else e, captures)

/-! ### Substitution -/

/-- What a function or a table gives for a match: nothing, so that the text is kept, or a text, or a
value that is no string. -/
inductive Reply where
  | keep
  | text (t : List UInt8)
  | invalid (typename : String)

/-- The third argument of `gsub`. What a function or a table gives may also depend on how many
matches there have been. -/
inductive Replacement where
  | string (news : List UInt8)
  | function (call : ℕ → List Value → Reply)
  | table (get : ℕ → Value → Reply)

/-- `luaL_addvalue`, for the value of a capture. -/
def addvalue : Value → List UInt8
  | .nil => []
  | .integer n => (Nat.toDigits 10 n.toNat).map ch
  | .string s => s

/-- `add_s`. A lone escape at the end is the zero byte behind it. -/
def addS (ms : MatchState) (s e : ℕ) : List UInt8 → Except Error (List UInt8)
  | [] => .ok []
  | [c] => .ok [if c ≠ lEsc then c else 0]
  | c :: d :: news =>
      if c ≠ lEsc then do
        return c :: (← addS ms s e (d :: news))
      else if !isdigit d then do
        return d :: (← addS ms s e news)
      else if d = ch '0' then do
        return (src.drop s).take (e - s) ++ (← addS ms s e news)
      else do
        let v ← pushOnecapture src ms (d.toNat - 49) s e
        return addvalue v ++ (← addS ms s e news)

/-- The end of `add_value`. -/
def addReply (s e : ℕ) : Reply → Except Error (List UInt8)
  | .keep => .ok ((src.drop s).take (e - s))
  | .text t => .ok t
  | .invalid typename => .error (.invalidReplacement typename)

/-- `add_value`, for the match after `n` other ones. -/
def addValue (repl : Replacement) (n : ℕ) (ms : MatchState) (s e : ℕ) :
    Except Error (List UInt8) :=
  match repl with
  | .string news => addS src ms s e news
  | .function call => do addReply src s e (call n (← pushCaptures src ms true s e))
  | .table get => do addReply src s e (get n (← pushOnecapture src ms 0 s e))

/-- What a match adds to the number of matches and to the buffer `b` of `str_gsub`. -/
def addMatch (repl : Replacement) (n : ℕ) (ms : MatchState) (s : ℕ) (b : List UInt8) :
    Option ℕ → Except Error (ℕ × List UInt8)
  | some e => do return (n + 1, b ++ (← addValue src repl n ms s e))
  | none => .ok (n, b)

/-- Where `str_gsub` goes on: behind a match that is not empty, or behind a character that it
copies. Nothing is left at the end of the subject. -/
def advance (s : ℕ) (b : List UInt8) (res : Option ℕ) : Option (ℕ × List UInt8) :=
  match res.filter (s < ·) with
  | some e => some (e, b)
  | none => (src.drop s).head?.map fun c => (s + 1, b ++ [c])

/-- The loop of `str_gsub`. It gives where it ends, the number of matches and the buffer. -/
def gsubLoop (p : List UInt8) (repl : Replacement) (maxS : ℤ) (anchor : Bool) :
    ℕ → ℕ → MatchState → ℕ → List UInt8 → Except Error (ℕ × ℕ × List UInt8)
  | 0, _, _, _, _ => .error .endless
  | fuel + 1, n, ms, s, b =>
      if n < maxS then do
        let (ms, res) ← matchAt src p ms s
        let (n, b) ← addMatch src repl n ms s b res
        match advance src s b res with
        | none => pure (s, n, b)
        | some (s, b) =>
            if anchor then pure (s, n, b) else gsubLoop p repl maxS anchor fuel n ms s b
      else .ok (s, n, b)

/-- `str_gsub`. A subject is passed once, so that the number of its characters is fuel enough. -/
def strGsub (p : List UInt8) (repl : Replacement) (maxS : ℤ) (ms : MatchState) :
    Except Error (List UInt8 × ℕ) := do
  let (anchor, p) := unanchored (cString p)
  let (s, n, b) ← gsubLoop src p repl maxS anchor (src.length + 2) 0 ms 0 []
  pure (b ++ src.drop s, n)

end Search

end ELuaBrain.Lua.Patterns
