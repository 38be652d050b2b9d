import ELuaBrain.System.Spaced
import ELuaBrain.System.Strings
import ELuaBrain.Device.Manager

/-!
# The command line of the shell

How `shell_start` takes a line apart, and what `shell_lua` gives to `lua_main`. Blanks inside quotes
are replaced by a mark, which becomes a blank again only in an argument that starts with a quote.

A pointer into the line buffer is given by the bytes from it to the end of the buffer. A function
has no result if it goes over this end.

## Main definitions

* `shellStart`, `shellLua` : the code.
* `tagged`, `splitLine`, `unquote` : a splitter to compare it with.
* `Plain` : an argument that the code does not damage.

## Main results

* `squeeze_eq` : the blanks between words.
* `luaArgs_eq` : the arguments that the code makes out of words.
* `shellStart_lua_iff` : when the arguments are those of the splitter.
-/

namespace ELuaBrain.Shell

open Device (toLower sameName)

/-! ### Characters -/

/-- The character `' '`. -/
def blank : UInt8 := 0x20

/-- The character `'\n'`. -/
def newline : UInt8 := 0x0A

/-- The character `'\r'`. -/
def carriage : UInt8 := 0x0D

/-- `SHELL_ALT_SPACE`. -/
def altSpace : UInt8 := 0x07

/-- The characters `'` and `"`. -/
def isQuote (c : UInt8) : Bool := c = 0x27 || c = 0x22

/-- `SHELL_MAXSIZE`. -/
def shellMaxsize : ℕ := 50

/-- `SHELL_MAX_LUA_ARGS`. -/
def shellMaxLuaArgs : ℕ := 8

/-! ### The line -/

/-- The newline at the end of the line, which `strcat` adds if there is none. -/
def endLine (cmd : List UInt8) : Option (List UInt8) := do
  let n ← strlen cmd
  if cmd.getD (n - 1) 0 ≠ newline then
    if n + 2 ≤ cmd.length then some (cmd.take n ++ [newline, 0] ++ cmd.drop (n + 2)) else none
  else some cmd

/-- `'\r'` and `'\n'` become blanks. -/
def blankEnds : List UInt8 → Option (List UInt8)
  | [] => none
  | c :: cs =>
      if c = 0 then some (c :: cs)
      else (blankEnds cs).map ((if c = carriage ∨ c = newline then blank else c) :: ·)

/-- The quotes that are open after a quote. -/
def nextQuote (quote : Option UInt8) (c : UInt8) : Option UInt8 :=
  match quote with
  | none => some c
  | some q => if c = q then none else quote

/-- Blanks inside quotes become marks. `quote` has `quote_char` while `inside_quotes` is set, and
the result has what is left of it at the end of the line. -/
def hideBlanks : Option UInt8 → List UInt8 → Option (Option UInt8 × List UInt8)
  | _, [] => none
  | quote, c :: cs =>
      if c = 0 then some (quote, c :: cs)
      else if isQuote c then
        (hideBlanks (nextQuote quote c) cs).map fun (last, cs) => (last, c :: cs)
      else
        (hideBlanks quote cs).map fun (last, cs) =>
          (last, (if c = blank ∧ quote.isSome then altSpace else c) :: cs)

/-- `memmove( temp, temp + 1, strlen( temp ) )`. -/
def moveDown (temp : List UInt8) : Option (List UInt8) := do
  let n ← strlen temp
  if n + 1 ≤ temp.length then some ((temp.drop 1).take n ++ temp.drop n) else none

/-- The blanks at `temp` are taken away. -/
def dropBlanks : ℕ → List UInt8 → Option (List UInt8)
  | 0, _ => none
  | fuel + 1, temp => do
      let c ← temp.head?
      if c ≠ 0 ∧ c = blank then dropBlanks fuel (← moveDown temp) else some temp

/-- Sequences of blanks become single blanks. -/
def squeeze : ℕ → List UInt8 → Option (List UInt8)
  | 0, _ => none
  | fuel + 1, cmd => do
      match ← strchr blank cmd with
      | none => some cmd
      | some k =>
          let temp ← dropBlanks cmd.length (cmd.drop (k + 1))
          let rest ← squeeze fuel temp
          some (cmd.take (k + 1) ++ rest)

/-! ### The arguments -/

/-- An argument without the quotes around it, and with blanks for marks. Only the first character
is looked at, and the last one is taken away whatever it is. -/
def restore (arg : List UInt8) : List UInt8 :=
  match arg with
  | [] => []
  | c :: body =>
      if isQuote c then (body.map fun x => if x = altSpace then blank else x).dropLast
      else c :: body

/-- The arguments from `prev` on, if there are not too many. There is no result if one is written
behind the end of `lua_argv`. -/
def luaArgs : ℕ → ℕ → List UInt8 → Option (Option (List (List UInt8)))
  | 0, _, _ => none
  | fuel + 1, nargs, prev => do
      match ← strchr blank prev with
      | none => if nargs + 1 < shellMaxLuaArgs + 2 then some (some []) else none
      | some k =>
          if nargs = shellMaxLuaArgs then some none
          else if nargs + 1 < shellMaxLuaArgs + 2 then
            let args ← luaArgs fuel (nargs + 1) (prev.drop (k + 1))
            some (args.map (restore (prev.take k) :: ·))
          else none

/-- What is done with a line. -/
inductive Outcome where
  | skip
  | message (text : String)
  | lua (argv : List (List UInt8))
  | other (cmd args : List UInt8)
  deriving DecidableEq

/-- The word `lua`. -/
def luaName : List UInt8 := [0x6C, 0x75, 0x61]

/-- `shell_lua`. -/
def shellLua (args : List UInt8) : Option Outcome := do
  let c ← args.head?
  if c = 0 then some (.lua [luaName])
  else
    match ← luaArgs (args.length + 1) 0 args with
    | none => some (.message "Too many arguments to 'lua' (maxim 8)\n")
    | some argv => some (.lua (luaName :: argv))

/-- The names in `shell_commands`. -/
def shellCommands : List (List UInt8) :=
  ["help", "lua", "recv", "ver", "exit", "ls", "dir", "cat", "type", "cp", "ee", "edit", "rm",
    "reset", "apihelp"].map chars

/-- What `shell_start` does with a line in `cmd`. Whether a word is the name of a file is for the
file system to say. -/
def shellStart (isFile : List UInt8 → Bool) (cmd : List UInt8) : Option Outcome := do
  if (← strlen cmd) = 0 then some .skip
  else
    let cmd ← endLine cmd
    let cmd ← blankEnds cmd
    let (quote, cmd) ← hideBlanks none cmd
    if quote.isSome then some (.message "Invalid quoted string\n")
    else
      let cmd ← squeeze (cmd.length + 1) cmd
      if (← strlen cmd) = 1 then some .skip
      else
        let temp := if cmd.head? = some blank then cmd.drop 1 else cmd
        match ← strchr blank temp with
        | none => some (.message "Invalid command, type 'help' for help\n")
        | some k =>
            if isFile (temp.take k) then shellLua temp
            else
              match shellCommands.find? (sameName · (temp.take k)) with
              | none => some (.message "Invalid command, type 'help' for help\n")
              | some name =>
                  if name = luaName then shellLua (temp.drop (k + 1))
                  else some (.other name (temp.drop (k + 1)))

/-! ### The splitter -/

/-- A character that separates arguments outside quotes. -/
def isBlank (c : UInt8) : Bool := c = blank || c = carriage || c = newline

/-- The characters of a line, each with whether it is outside quotes. Quotes are not. -/
def tagged : Option UInt8 → List UInt8 → List (UInt8 × Bool)
  | _, [] => []
  | none, c :: cs =>
      if isQuote c then (c, false) :: tagged (some c) cs else (c, true) :: tagged none cs
  | some q, c :: cs => (c, false) :: tagged (if c = q then none else some q) cs

/-- The quotes that are open at the end of a line. -/
def openQuote : Option UInt8 → List UInt8 → Option UInt8
  | quote, [] => quote
  | none, c :: cs => openQuote (if isQuote c then some c else none) cs
  | some q, c :: cs => openQuote (if c = q then none else some q) cs

/-- A blank outside quotes. -/
def isSep (x : UInt8 × Bool) : Bool := x.2 && isBlank x.1

/-- The arguments of a line, with their quotes. -/
def splitLine (line : List UInt8) : List (List UInt8) :=
  (pieces isSep (tagged none line)).map (List.map Prod.fst)

/-- The characters of an argument without the first and the last one. -/
def inner (arg : List UInt8) : List UInt8 := (arg.drop 1).dropLast

/-- An argument that is enclosed in quotes. -/
def Enclosed : List UInt8 → Prop
  | [] => False
  | q :: rest => isQuote q = true ∧ rest.getLast? = some q ∧ q ∉ rest.dropLast

instance decidableEnclosed : (arg : List UInt8) → Decidable (Enclosed arg)
  | [] => inferInstanceAs (Decidable False)
  | _ :: _ => inferInstanceAs (Decidable (_ ∧ _ ∧ _))

/-- An argument without the quotes that enclose it. -/
def unquote (arg : List UInt8) : List UInt8 := if Enclosed arg then inner arg else arg

/-- An argument that the code leaves as it should: it is enclosed in quotes, with no ends of lines
and no marks between them, or it starts with another character and has no blanks. -/
def Plain (arg : List UInt8) : Prop :=
  if (arg.head?.any isQuote) = true then
    Enclosed arg ∧ ∀ c ∈ inner arg, c ≠ carriage ∧ c ≠ newline ∧ c ≠ altSpace
  else ∀ c ∈ arg, isBlank c = false

instance decidablePlain (arg : List UInt8) : Decidable (Plain arg) :=
  haveI {p : UInt8 → Prop} [DecidablePred p] (l : List UInt8) : Decidable (∀ c ∈ l, p c) :=
    List.decidableBAll p l
  inferInstanceAs (Decidable (if (arg.head?.any isQuote) = true then
    Enclosed arg ∧ ∀ c ∈ inner arg, c ≠ carriage ∧ c ≠ newline ∧ c ≠ altSpace
  else ∀ c ∈ arg, isBlank c = false))

/-! ### Strings -/

section Strings

variable {s t w seps rest : List UInt8} {c : UInt8}

theorem moveDown_eq (hs : 0 ∉ s) (hc : c ≠ 0) :
    moveDown (c :: (s ++ 0 :: rest)) = some (s ++ 0 :: 0 :: rest) := by
  have hcs : 0 ∉ c :: s := by
    rw [List.mem_cons, not_or]
    exact ⟨Ne.symm hc, hs⟩
  have hlen : strlen (c :: (s ++ 0 :: rest)) = some (s.length + 1) := strlen_eq rest hcs
  simp [moveDown, hlen, List.take_append, List.drop_append, List.take_of_length_le]

/-- Blanks are taken away up to the next character. -/
theorem dropBlanks_eq (fuel : ℕ) (rest : List UInt8) (hseps : ∀ c ∈ seps, c = blank) (hs : 0 ∉ s)
    (hhead : s.head? ≠ some blank) (hfuel : seps.length < fuel) :
    ∃ rest', dropBlanks fuel (seps ++ s ++ 0 :: rest) = some (s ++ 0 :: rest') := by
  induction seps generalizing fuel rest with
  | nil =>
    obtain ⟨fuel, rfl⟩ := Nat.exists_eq_add_of_lt hfuel
    refine ⟨rest, ?_⟩
    cases s with
    | nil => simp [dropBlanks]
    | cons c s =>
      have hc : c ≠ blank := fun h => hhead (h ▸ rfl)
      simp [dropBlanks, hc]
  | cons c seps ih =>
    obtain ⟨fuel, rfl⟩ := Nat.exists_eq_add_of_lt hfuel
    obtain rfl := hseps c List.mem_cons_self
    have hseps' : ∀ c ∈ seps, c = blank := fun d hd => hseps d (List.mem_cons_of_mem _ hd)
    have hzero : 0 ∉ seps ++ s := by
      rw [List.mem_append, not_or]
      exact ⟨fun h => absurd (hseps' 0 h) (by decide), hs⟩
    have hmove : moveDown (blank :: (seps ++ s ++ 0 :: rest)) =
        some (seps ++ s ++ 0 :: 0 :: rest) :=
      moveDown_eq hzero (by decide)
    obtain ⟨rest', hdrop⟩ := ih (seps.length + 1 + fuel) (0 :: rest) hseps' (by omega)
    refine ⟨rest', ?_⟩
    rw [List.cons_append, List.cons_append, List.length_cons, dropBlanks]
    simp only [List.head?_cons, Option.bind_eq_bind, Option.bind_some, hmove]
    rw [if_pos ⟨by decide, trivial⟩]
    exact hdrop

end Strings

/-! ### Hiding the blanks -/

section Hiding

variable {s t rest : List UInt8} {quote : Option UInt8} {c : UInt8} {x : UInt8 × Bool}

/-- A character after `blankEnds`. -/
def endToBlank (c : UInt8) : UInt8 := if c = carriage ∨ c = newline then blank else c

/-- A character of a line after `hideBlanks`. -/
def written (x : UInt8 × Bool) : UInt8 :=
  if isBlank x.1 then (if x.2 then blank else altSpace) else x.1

theorem isBlank_iff : isBlank c = true ↔ c = blank ∨ c = carriage ∨ c = newline := by
  simp [isBlank, or_assoc]

theorem isBlank_eq_false (hc : isQuote c = true) : isBlank c = false := by
  have hquote : c = 0x27 ∨ c = 0x22 := by simpa [isQuote] using hc
  obtain rfl | rfl := hquote <;> decide

theorem isBlank_endToBlank : isBlank c = true ↔ endToBlank c = blank := by
  rw [isBlank_iff, endToBlank]
  split
  · simp [*]
  · rename_i hends
    simp [hends]

theorem endToBlank_eq (hc : isBlank c = false) : endToBlank c = c := by
  rw [endToBlank, if_neg]
  intro hends
  have := isBlank_iff.mpr (.inr hends)
  simp [this] at hc

theorem endToBlank_ne_zero (hc : c ≠ 0) : endToBlank c ≠ 0 := by
  rw [endToBlank]
  split
  · decide
  · exact hc

/-- Only the blanks that separate are written as blanks. -/
theorem written_eq_blank : (written x == blank) = isSep x := by
  obtain ⟨c, out⟩ := x
  by_cases hc : isBlank c = true
  · cases out <;> simp [written, isSep, hc, altSpace, blank]
  · have hne : c ≠ blank := fun h => hc (isBlank_iff.mpr (.inl h))
    simp [written, isSep, hc, hne]

theorem written_ne_zero (hx : x.1 ≠ 0) : written x ≠ 0 := by
  rw [written]
  split_ifs
  · decide
  · decide
  · exact hx

theorem blankEnds_eq (hs : 0 ∉ s) :
    blankEnds (s ++ 0 :: rest) = some (s.map endToBlank ++ 0 :: rest) := by
  induction s with
  | nil => rfl
  | cons c s ih =>
    obtain ⟨hc, hs⟩ := not_or.mp (mt List.mem_cons.mpr hs)
    rw [List.cons_append, blankEnds, if_neg (Ne.symm hc), ih hs]
    rfl

/-- The quotes that are open are those of the splitter, and so is what is inside quotes. -/
theorem hideBlanks_eq (rest : List UInt8) (hquote : ∀ q ∈ quote, isQuote q = true) (hs : 0 ∉ s) :
    hideBlanks quote (s.map endToBlank ++ 0 :: rest) =
      some (openQuote quote s, (tagged quote s).map written ++ 0 :: rest) := by
  induction s generalizing quote with
  | nil => cases quote <;> rfl
  | cons c s ih =>
    obtain ⟨hc, hs⟩ := not_or.mp (mt List.mem_cons.mpr hs)
    rw [List.map_cons, List.cons_append, hideBlanks, if_neg (endToBlank_ne_zero (Ne.symm hc))]
    by_cases hcquote : isQuote c = true
    · have hnot := isBlank_eq_false hcquote
      rw [endToBlank_eq hnot, if_pos hcquote]
      cases quote with
      | none =>
        have hnext : ∀ q ∈ some c, isQuote q = true := by simpa using hcquote
        simp [nextQuote, ih hnext hs, openQuote, tagged, hcquote, written, hnot]
      | some q =>
        have hnext : ∀ q' ∈ (if c = q then none else some q), isQuote q' = true := by
          split
          · simp
          · exact hquote
        simp [nextQuote, ih hnext hs, openQuote, tagged, written, hnot]
    · have hnotquote : ¬ isQuote (endToBlank c) = true := by
        rw [endToBlank]
        split
        · decide
        · exact hcquote
      rw [if_neg hnotquote, ih hquote hs]
      by_cases hblank : isBlank c = true
      · have hwritten := isBlank_endToBlank.mp hblank
        cases quote with
        | none => simp [openQuote, tagged, hcquote, written, hblank, hwritten]
        | some q =>
          have hne : c ≠ q := fun h => hcquote (h ▸ hquote q rfl)
          simp [openQuote, tagged, hne, written, hblank, hwritten]
      · have hsame := endToBlank_eq (by simpa using hblank)
        have hcblank : c ≠ blank := fun h => hblank (isBlank_iff.mpr (.inl h))
        cases quote with
        | none => simp [openQuote, tagged, hcquote, written, hblank, hsame]
        | some q =>
          have hne : c ≠ q := fun h => hcquote (h ▸ hquote q rfl)
          simp [openQuote, tagged, hne, written, hblank, hsame, hcblank]

theorem tagged_append : tagged quote (s ++ t) = tagged quote s ++ tagged (openQuote quote s) t := by
  induction s generalizing quote with
  | nil => cases quote <;> rfl
  | cons c s ih =>
    cases quote with
    | none =>
      rw [List.cons_append, tagged, tagged, openQuote]
      split <;> simp [ih]
    | some q => simp [tagged, openQuote, ih]

theorem openQuote_append : openQuote quote (s ++ t) = openQuote (openQuote quote s) t := by
  induction s generalizing quote with
  | nil => cases quote <;> rfl
  | cons c s ih =>
    cases quote with
    | none => simp [openQuote, ih]
    | some q => simp [openQuote, ih]

theorem isQuote_of_mem_openQuote (hquote : ∀ q ∈ quote, isQuote q = true) :
    ∀ q ∈ openQuote quote s, isQuote q = true := by
  induction s generalizing quote with
  | nil => cases quote <;> exact hquote
  | cons c s ih =>
    cases quote with
    | none =>
      refine ih fun q hq => ?_
      split_ifs at hq with hc
      · obtain rfl : c = q := by simpa using hq
        exact hc
      · simp at hq
    | some q =>
      refine ih fun q' hq' => ?_
      split_ifs at hq'
      · simp at hq'
      · exact hquote q' hq'

theorem map_fst_tagged : (tagged quote s).map Prod.fst = s := by
  induction s generalizing quote with
  | nil => cases quote <;> rfl
  | cons c s ih =>
    cases quote with
    | none =>
      rw [tagged]
      split <;> simp [ih]
    | some q => simp [tagged, ih]

end Hiding

/-! ### The blanks between words -/

section Squeezing

variable {seps s body rest : List UInt8} {ws : List (List UInt8)} {fuel : ℕ}

/-- Words with one blank after each. -/
def joined (ws : List (List UInt8)) : List UInt8 := (ws.map (· ++ [blank])).flatten

theorem joined_cons (w : List UInt8) (ws : List (List UInt8)) :
    joined (w :: ws) = w ++ blank :: joined ws := by
  simp [joined]

theorem zero_not_mem_joined (hws : ∀ w ∈ ws, 0 ∉ w) : 0 ∉ joined ws := by
  intro h
  obtain ⟨piece, hpiece, hzero⟩ := List.mem_flatten.mp h
  obtain ⟨w, hw, rfl⟩ := List.mem_map.mp hpiece
  obtain hmem | hmem := List.mem_append.mp hzero
  · exact hws w hw hmem
  · exact absurd (List.mem_singleton.mp hmem) (by decide)

theorem length_le_joined (ws : List (List UInt8)) : ws.length ≤ (joined ws).length := by
  induction ws with
  | nil => exact Nat.zero_le _
  | cons w ws ih =>
    simp only [joined_cons, List.length_append, List.length_cons]
    omega

/-- One round of the loop, at the next blank. -/
theorem squeeze_step (fuel : ℕ) (rest w : List UInt8) (hw : 0 ∉ w) (hblank : blank ∉ w)
    (hseps : ∀ c ∈ seps, c = blank) (hs : 0 ∉ s) (hhead : s.head? ≠ some blank) :
    ∃ rest', squeeze (fuel + 1) (w ++ blank :: (seps ++ s ++ 0 :: rest)) =
      (squeeze fuel (s ++ 0 :: rest')).map (w ++ blank :: ·) := by
  have hfind : strchr blank (w ++ blank :: (seps ++ s ++ 0 :: rest)) = some (some w.length) :=
    strchr_eq_some _ hw hblank
  have hfuel : seps.length < (w ++ blank :: (seps ++ s ++ 0 :: rest)).length := by
    simp only [List.length_append, List.length_cons]
    omega
  obtain ⟨rest', hdrop⟩ := dropBlanks_eq _ rest hseps hs hhead hfuel
  have hskip : (w ++ blank :: (seps ++ s ++ 0 :: rest)).drop (w.length + 1) =
      seps ++ s ++ 0 :: rest := by
    simp [List.drop_append]
  have htake : (w ++ blank :: (seps ++ s ++ 0 :: rest)).take (w.length + 1) = w ++ [blank] := by
    simp [List.take_append, List.take_of_length_le]
  refine ⟨rest', ?_⟩
  rw [squeeze]
  simp only [hfind, Option.bind_eq_bind, Option.bind_some, hskip, htake, hdrop]
  cases squeeze fuel (s ++ 0 :: rest') <;> simp

theorem squeeze_words (fuel : ℕ) (rest : List UInt8) (h : Spaced (· == blank) body ws)
    (hzero : 0 ∉ body) (hfuel : ws.length < fuel) :
    ∃ rest', squeeze fuel (body ++ 0 :: rest) = some (joined ws ++ 0 :: rest') := by
  induction h generalizing fuel rest with
  | nil =>
    obtain ⟨fuel, rfl⟩ := Nat.exists_eq_add_of_lt hfuel
    exact ⟨rest, by simp [squeeze, strchr, joined, blank]⟩
  | @word w seps body ws hne hw hseps hsome h ih =>
    obtain ⟨fuel, rfl⟩ := Nat.exists_eq_add_of_lt hfuel
    obtain ⟨c, seps, rfl⟩ := List.exists_cons_of_ne_nil hsome
    obtain rfl : c = blank := by simpa using hseps c List.mem_cons_self
    have hseps' : ∀ d ∈ seps, d = blank := fun d hd => by
      simpa using hseps d (List.mem_cons_of_mem _ hd)
    have hblank : blank ∉ w := fun hmem => absurd (hw blank hmem) (by simp)
    have hzeros : 0 ∉ w ∧ 0 ∉ body := by
      simp only [List.mem_append, not_or] at hzero
      exact ⟨hzero.1.1, hzero.2⟩
    have hhead : body.head? ≠ some blank := fun hb => absurd (h.head blank hb) (by simp)
    obtain ⟨rest₁, hstep⟩ :=
      squeeze_step (ws.length + 1 + fuel) rest w hzeros.1 hblank hseps' hzeros.2 hhead
    obtain ⟨rest₂, hrest⟩ := ih (ws.length + 1 + fuel) rest₁ hzeros.2 (by omega)
    refine ⟨rest₂, ?_⟩
    have hline : w ++ blank :: seps ++ body ++ 0 :: rest =
        w ++ blank :: (seps ++ body ++ 0 :: rest) := by simp
    rw [hline, List.length_cons, hstep, hrest, joined_cons]
    simp

/-- After the loop the words have one blank after each, and perhaps one before them. -/
theorem squeeze_eq (rest : List UInt8) (hseps : ∀ c ∈ seps, c = blank)
    (h : Spaced (· == blank) body ws) (hzero : 0 ∉ body) (hfuel : (seps ++ body).length < fuel) :
    ∃ rest', squeeze fuel (seps ++ body ++ 0 :: rest) =
      some ((if seps = [] then [] else [blank]) ++ joined ws ++ 0 :: rest') := by
  have hlen := h.length_le
  rw [List.length_append] at hfuel
  cases seps with
  | nil =>
    obtain ⟨rest', hwords⟩ := squeeze_words fuel rest h hzero (by omega)
    exact ⟨rest', by simpa using hwords⟩
  | cons c seps =>
    obtain rfl := hseps c List.mem_cons_self
    obtain ⟨fuel, rfl⟩ := Nat.exists_eq_add_of_lt hfuel
    have hhead : body.head? ≠ some blank := fun hb => absurd (h.head blank hb) (by simp)
    obtain ⟨rest₁, hstep⟩ := squeeze_step ((blank :: seps).length + body.length + fuel) rest []
      List.not_mem_nil List.not_mem_nil (fun d hd => hseps d (List.mem_cons_of_mem _ hd)) hzero
      hhead
    obtain ⟨rest₂, hwords⟩ :=
      squeeze_words ((blank :: seps).length + body.length + fuel) rest₁ h hzero (by
        rw [List.length_cons]
        omega)
    refine ⟨rest₂, ?_⟩
    rw [List.nil_append] at hstep
    rw [if_neg (List.cons_ne_nil _ _), List.cons_append, List.cons_append, hstep, hwords]
    rfl

/-- Every word is an argument. -/
theorem luaArgs_eq (fuel nargs : ℕ) (rest : List UInt8) (hws : ∀ w ∈ ws, 0 ∉ w ∧ blank ∉ w)
    (hfuel : ws.length < fuel) (hroom : nargs + ws.length ≤ shellMaxLuaArgs) :
    luaArgs fuel nargs (joined ws ++ 0 :: rest) = some (some (ws.map restore)) := by
  induction ws generalizing fuel nargs with
  | nil =>
    obtain ⟨fuel, rfl⟩ := Nat.exists_eq_add_of_lt hfuel
    rw [List.length_nil, Nat.add_zero] at hroom
    have hroom' : nargs + 1 < shellMaxLuaArgs + 2 := by omega
    simp [luaArgs, joined, strchr, blank, hroom']
  | cons w ws ih =>
    obtain ⟨fuel, rfl⟩ := Nat.exists_eq_add_of_lt hfuel
    rw [List.length_cons] at hroom
    obtain ⟨hzero, hblank⟩ := hws w List.mem_cons_self
    have hfind : strchr blank (w ++ blank :: (joined ws ++ 0 :: rest)) = some (some w.length) :=
      strchr_eq_some _ hzero hblank
    have hskip : (w ++ blank :: (joined ws ++ 0 :: rest)).drop (w.length + 1) =
        joined ws ++ 0 :: rest := by
      simp [List.drop_append]
    have hrest := ih (ws.length + 1 + fuel) (nargs + 1)
      (fun v hv => hws v (List.mem_cons_of_mem _ hv)) (by omega) (by omega)
    have hnot : nargs ≠ shellMaxLuaArgs := by omega
    have hroom' : nargs + 1 < shellMaxLuaArgs + 2 := by omega
    rw [joined_cons, List.append_assoc, List.cons_append, List.length_cons, luaArgs]
    simp only [hfind, Option.bind_eq_bind, Option.bind_some, if_neg hnot, if_pos hroom', hskip,
      hrest]
    simp

theorem shellLua_eq (rest : List UInt8) (hws : ∀ w ∈ ws, 0 ∉ w ∧ blank ∉ w)
    (hroom : ws.length ≤ shellMaxLuaArgs) :
    shellLua (joined ws ++ 0 :: rest) = some (.lua (luaName :: ws.map restore)) := by
  cases ws with
  | nil => rfl
  | cons w ws =>
    have hzero := zero_not_mem_joined fun v hv => (hws v hv).1
    have hlen := length_le_joined (w :: ws)
    have hargs := luaArgs_eq ((joined (w :: ws) ++ 0 :: rest).length + 1) 0 rest hws (by
      rw [List.length_append]
      omega) (by omega)
    obtain ⟨c, cs, hcs⟩ : ∃ c cs, joined (w :: ws) = c :: cs :=
      List.exists_cons_of_ne_nil (by simp [joined_cons])
    have hc : c ≠ 0 := by
      rintro rfl
      exact hzero (hcs ▸ List.mem_cons_self)
    rw [shellLua]
    simp only [hargs, Option.bind_eq_bind, Option.bind_some]
    simp [hcs, hc]

end Squeezing

/-! ### One argument -/

section Argument

variable {t : List (UInt8 × Bool)} {arg : List UInt8} {x : UInt8 × Bool} {c : UInt8}

theorem written_eq_self (hx : isBlank x.1 = false) : written x = x.1 := by simp [written, hx]

theorem written_eq_altSpace (hx : isBlank x.1 = true) (hsep : isSep x = false) :
    written x = altSpace := by
  have hout : x.2 = false := by simpa [isSep, hx] using hsep
  simp [written, hx, hout]

/-- A character of an argument is only damaged if it is a blank. -/
theorem written_eq_iff (hsep : isSep x = false) : written x = x.1 ↔ isBlank x.1 = false := by
  refine ⟨fun h => ?_, written_eq_self⟩
  by_contra hblank
  rw [Bool.not_eq_false] at hblank
  rw [written_eq_altSpace hblank hsep] at h
  rw [← h] at hblank
  exact absurd hblank (by decide)

/-- A character of an argument that starts with a quote. -/
theorem restore_written (hsep : isSep x = false) :
    (if written x = altSpace then blank else written x) =
      if isBlank x.1 = true ∨ x.1 = altSpace then blank else x.1 := by
  by_cases hblank : isBlank x.1 = true
  · simp [written_eq_altSpace hblank hsep, hblank]
  · rw [Bool.not_eq_true] at hblank
    simp [written_eq_self hblank, hblank]

theorem isQuote_written : isQuote (written x) = isQuote x.1 := by
  by_cases hquote : isQuote x.1 = true
  · rw [written_eq_self (isBlank_eq_false hquote)]
  · rw [written]
    rw [Bool.not_eq_true] at hquote
    split_ifs
    · exact hquote.symm ▸ rfl
    · exact hquote.symm ▸ rfl
    · rfl

/-- What becomes of an argument that starts with a quote. -/
theorem restore_quoted (hquote : isQuote x.1 = true) (hsep : ∀ y ∈ t, isSep y = false) :
    restore ((x :: t).map written) =
      ((t.map Prod.fst).dropLast).map fun c =>
        if isBlank c = true ∨ c = altSpace then blank else c := by
  have hchars : (t.map written).map (fun c => if c = altSpace then blank else c) =
      (t.map Prod.fst).map fun c => if isBlank c = true ∨ c = altSpace then blank else c := by
    rw [List.map_map, List.map_map]
    exact List.map_congr_left fun y hy => restore_written (hsep y hy)
  rw [List.map_cons, restore, if_pos (isQuote_written.trans hquote), hchars, List.map_dropLast]

theorem restore_unquoted (hquote : ¬isQuote x.1 = true) :
    restore ((x :: t).map written) = (x :: t).map written := by
  rw [List.map_cons, restore, if_neg (isQuote_written ▸ hquote)]

theorem restored_eq_iff :
    (if isBlank c = true ∨ c = altSpace then blank else c) = c ↔
      c ≠ carriage ∧ c ≠ newline ∧ c ≠ altSpace := by
  simp only [isBlank_iff]
  by_cases hblank : c = blank
  · subst hblank
    decide
  · by_cases hother : (c = blank ∨ c = carriage ∨ c = newline) ∨ c = altSpace
    · rw [if_pos hother]
      exact ⟨fun h => absurd h.symm hblank, by tauto⟩
    · rw [if_neg hother]
      tauto

theorem map_eq_self_iff {f : UInt8 → UInt8} : arg.map f = arg ↔ ∀ c ∈ arg, f c = c := by
  simpa using List.map_inj_left (f := f) (g := id) (l := arg)

/-- The arguments that the code leaves as it should are the plain ones. -/
theorem restore_eq_unquote_iff (hsep : ∀ y ∈ t, isSep y = false) :
    restore (t.map written) = unquote (t.map Prod.fst) ↔ Plain (t.map Prod.fst) := by
  cases t with
  | nil => simp [restore, unquote, Enclosed, Plain]
  | cons x t =>
    have hrest : ∀ y ∈ t, isSep y = false := fun y hy => hsep y (List.mem_cons_of_mem _ hy)
    by_cases hquote : isQuote x.1 = true
    · have hplain : Plain ((x :: t).map Prod.fst) ↔ Enclosed ((x :: t).map Prod.fst) ∧
          ∀ c ∈ inner ((x :: t).map Prod.fst), c ≠ carriage ∧ c ≠ newline ∧ c ≠ altSpace := by
        simp [Plain, hquote]
      rw [restore_quoted hquote hrest, hplain, unquote]
      by_cases henclosed : Enclosed ((x :: t).map Prod.fst)
      · have hinner : inner ((x :: t).map Prod.fst) = (t.map Prod.fst).dropLast := rfl
        rw [if_pos henclosed, hinner]
        refine ⟨fun h => ⟨henclosed, fun c hc => ?_⟩, fun h => ?_⟩
        · exact restored_eq_iff.mp (map_eq_self_iff.mp h c hc)
        · exact map_eq_self_iff.mpr fun c hc => restored_eq_iff.mpr (h.2 c hc)
      · rw [if_neg henclosed]
        refine ⟨fun h => ?_, fun h => absurd h.1 henclosed⟩
        have hlen := congrArg List.length h
        simp only [List.length_map, List.length_dropLast, List.length_cons] at hlen
        omega
    · have hnot : ¬Enclosed ((x :: t).map Prod.fst) := fun h => hquote h.1
      rw [restore_unquoted hquote, unquote, if_neg hnot, Plain, if_neg (by simpa using hquote)]
      rw [List.map_inj_left, List.forall_mem_map]
      exact forall₂_congr fun y hy => written_eq_iff (hsep y hy)

end Argument

/-! ### The line as a whole -/

section Line

variable {line rest : List UInt8}

/-- A line as it is after `strcat`. -/
theorem endLine_eq (hzero : 0 ∉ line) (hroom : (line ++ 0 :: rest).length = shellMaxsize + 1)
    (hlen : line.length ≤ shellMaxsize - 1) (hopen : openQuote none line = none) :
    ∃ init rest', endLine (line ++ 0 :: rest) = some (init ++ [newline] ++ 0 :: rest') ∧ 0 ∉ init ∧
      openQuote none init = none ∧
      pieces isSep (tagged none init) = pieces isSep (tagged none line) := by
  have hstrlen := strlen_eq rest hzero
  have hsep : isSep (newline, true) = true := by decide
  by_cases hlast : line.getLast? = some newline
  · obtain ⟨init, rfl⟩ := List.getLast?_eq_some_iff.mp hlast
    have hinit : openQuote none init = none := by
      rw [openQuote_append] at hopen
      cases hquote : openQuote none init with
      | none => rfl
      | some q =>
        have hne : newline ≠ q := fun h =>
          absurd (isQuote_of_mem_openQuote (by simp) q hquote) (h ▸ by decide)
        simp [hquote, openQuote, hne] at hopen
    have hlastchar :
        (init ++ [newline] ++ 0 :: rest).getD ((init ++ [newline]).length - 1) 0 = newline := by
      simp
    refine ⟨init, rest, ?_, fun h => hzero (List.mem_append_left _ h), hinit, ?_⟩
    · rw [endLine]
      simp only [hstrlen, Option.bind_eq_bind, Option.bind_some, hlastchar]
      simp
    · rw [tagged_append, hinit]
      exact (pieces_append_sep hsep).symm
  · have hlastchar : (line ++ 0 :: rest).getD (line.length - 1) 0 ≠ newline := by
      obtain rfl | ⟨init, c, rfl⟩ := List.eq_nil_or_concat line
      · exact (by decide : (0 : UInt8) ≠ newline)
      · simpa using hlast
    have hfits : line.length + 2 ≤ (line ++ 0 :: rest).length := by
      rw [hroom]
      simp only [shellMaxsize] at hlen ⊢
      omega
    refine ⟨line, (line ++ 0 :: rest).drop (line.length + 2), ?_, hzero, hopen, rfl⟩
    rw [endLine]
    simp only [hstrlen, Option.bind_eq_bind, Option.bind_some, if_pos hlastchar, if_pos hfits]
    simp

/-- The words of a line do not have separators, nor the end of a string. -/
theorem pieces_tagged (hzero : 0 ∉ line) :
    ∀ w ∈ pieces isSep (tagged none line), w ≠ [] ∧ ∀ x ∈ w, isSep x = false ∧ x.1 ≠ 0 := by
  intro w hw
  rw [← pieces_append_sep (c := (newline, true)) (by decide)] at hw
  obtain ⟨seps, body, hbody, -, hspaced⟩ :=
    exists_spaced (p := isSep) (l := tagged none line ++ [(newline, true)]) (by simp; decide)
  obtain ⟨hne, hchars⟩ := hspaced.word_of_mem hw
  refine ⟨hne, fun x hx => ⟨hchars x hx, fun hx0 => ?_⟩⟩
  have hmem : x ∈ tagged none line ++ [(newline, true)] := by
    rw [hbody]
    exact List.mem_append_right _ (hspaced.subset hw hx)
  obtain hmem | hmem := List.mem_append.mp hmem
  · have hfst := List.mem_map_of_mem (f := Prod.fst) hmem
    rw [map_fst_tagged, hx0] at hfst
    exact hzero hfst
  · rw [List.mem_singleton.mp hmem] at hx0
    exact absurd hx0 (by decide)

theorem written_chars (hzero : 0 ∉ line) :
    ∀ w ∈ (pieces isSep (tagged none line)).map (List.map written), 0 ∉ w ∧ blank ∉ w := by
  rw [List.forall_mem_map]
  intro w hw
  obtain ⟨-, hchars⟩ := pieces_tagged hzero w hw
  refine ⟨fun h => ?_, fun h => ?_⟩
  · obtain ⟨x, hx, hx0⟩ := List.mem_map.mp h
    exact written_ne_zero (hchars x hx).2 hx0
  · obtain ⟨x, hx, hxblank⟩ := List.mem_map.mp h
    have hsep := written_eq_blank (x := x)
    rw [hxblank, (hchars x hx).1] at hsep
    exact absurd hsep (by decide)

/-- The line with its blanks hidden and squeezed. -/
theorem squeezed_line (hzero : 0 ∉ line) (hroom : (line ++ 0 :: rest).length = shellMaxsize + 1)
    (hlen : line.length ≤ shellMaxsize - 1) (hopen : openQuote none line = none) :
    ∃ ended blanked hidden rest' lead, endLine (line ++ 0 :: rest) = some ended ∧
      blankEnds ended = some blanked ∧ hideBlanks none blanked = some (none, hidden) ∧
      squeeze (hidden.length + 1) hidden = some (lead ++
        joined ((pieces isSep (tagged none line)).map (List.map written)) ++ 0 :: rest') ∧
      (lead = [] ∨ lead = [blank]) := by
  obtain ⟨init, rest₁, hend, hzero', hopen', hpieces⟩ := endLine_eq hzero hroom hlen hopen
  have hzeros : 0 ∉ init ++ [newline] := by
    rw [List.mem_append, not_or]
    exact ⟨hzero', by decide⟩
  have hquote : openQuote none (init ++ [newline]) = none := by
    rw [openQuote_append, hopen']
    decide
  have htagged : tagged none (init ++ [newline]) = tagged none init ++ [(newline, true)] := by
    rw [tagged_append, hopen']
    rfl
  obtain ⟨seps, body, hbody, hseps, hspaced⟩ :=
    exists_spaced (p := isSep) (l := tagged none init ++ [(newline, true)]) (by simp; decide)
  rw [pieces_append_sep (by decide), hpieces] at hspaced
  have hhidden : (tagged none (init ++ [newline])).map written =
      seps.map written ++ body.map written := by
    rw [htagged, hbody, List.map_append]
  have hblanks : ∀ c ∈ seps.map written, c = blank := by
    rw [List.forall_mem_map]
    intro x hx
    simpa [hseps x hx] using written_eq_blank (x := x)
  have hchars : 0 ∉ body.map written := by
    intro h
    obtain ⟨x, hx, hx0⟩ := List.mem_map.mp h
    refine written_ne_zero (fun hfst => ?_) hx0
    have hmem := List.mem_map_of_mem (f := Prod.fst) (List.mem_append_right seps hx)
    rw [← hbody, ← htagged, map_fst_tagged, hfst] at hmem
    exact hzeros hmem
  have hlong : (seps.map written ++ body.map written).length <
      (seps.map written ++ body.map written ++ 0 :: rest₁).length + 1 := by
    simp only [List.length_append]
    omega
  obtain ⟨rest', hsqueeze⟩ :=
    squeeze_eq rest₁ hblanks (hspaced.map fun _ => written_eq_blank) hchars hlong
  have hhide := hideBlanks_eq rest₁ (by simp : ∀ q ∈ none, isQuote q = true) hzeros
  rw [hquote, hhidden] at hhide
  refine ⟨_, _, _, rest', _, hend, blankEnds_eq hzeros, hhide, hsqueeze, ?_⟩
  split
  · exact .inl rfl
  · exact .inr rfl

/-- The name of the command is written as it is. -/
theorem written_lua {cmd : List (UInt8 × Bool)}
    (hlua : sameName luaName (cmd.map Prod.fst) = true) : cmd.map written = cmd.map Prod.fst := by
  refine List.map_congr_left fun x hx => written_eq_self ?_
  have hlower : luaName.map toLower = (cmd.map Prod.fst).map toLower := eq_of_beq hlua
  have hmem : toLower x.1 ∈ luaName.map toLower := by
    rw [hlower]
    exact List.mem_map_of_mem (List.mem_map_of_mem hx)
  by_contra hblank
  rw [Bool.not_eq_false, isBlank_iff] at hblank
  obtain h | h | h := hblank
  all_goals
    rw [h] at hmem
    exact absurd hmem (by decide)

theorem find_lua {name : List UInt8} (hlua : sameName luaName name = true) :
    shellCommands.find? (sameName · name) = some luaName := by
  have hlower : name.map toLower = luaName.map toLower := (eq_of_beq hlua).symm
  simp only [sameName, hlower]
  decide

theorem drop_lead {lead s : List UInt8} (hlead : lead = [] ∨ lead = [blank])
    (hhead : s.head? ≠ some blank) :
    (if (lead ++ s).head? = some blank then (lead ++ s).drop 1 else lead ++ s) = s := by
  obtain rfl | rfl := hlead
  · rw [List.nil_append, if_neg hhead]
  · simp

/-- What `shell_start` does with the words of a line whose command is `lua`. -/
theorem shellStart_eq {isFile : List UInt8 → Bool} {cmd : List (UInt8 × Bool)}
    {args : List (List (UInt8 × Bool))} (hzero : 0 ∉ line)
    (hroom : (line ++ 0 :: rest).length = shellMaxsize + 1)
    (hlen : line.length ≤ shellMaxsize - 1) (hopen : openQuote none line = none)
    (hwords : pieces isSep (tagged none line) = cmd :: args)
    (hlua : sameName luaName (cmd.map Prod.fst) = true) (hargs : args.length ≤ shellMaxLuaArgs)
    (hfile : isFile (cmd.map Prod.fst) = false) :
    shellStart isFile (line ++ 0 :: rest) =
      some (.lua (luaName :: args.map fun t => restore (t.map written))) := by
  obtain ⟨ended, blanked, hidden, rest', lead, hend, hblank, hhide, hsqueeze, hlead⟩ :=
    squeezed_line hzero hroom hlen hopen
  have hchars := written_chars hzero
  rw [hwords, List.map_cons, written_lua hlua] at hsqueeze hchars
  obtain ⟨hname, hargchars⟩ := List.forall_mem_cons.mp hchars
  have hexec := shellLua_eq rest' hargchars (by rwa [List.length_map])
  have hwordchars := zero_not_mem_joined fun w hw => (hchars w hw).1
  rw [joined_cons] at hsqueeze hwordchars
  have hne : line.length ≠ 0 := by
    intro h
    rw [List.length_eq_zero_iff.mp h] at hwords
    simp [tagged] at hwords
  have hnamelen : (cmd.map Prod.fst).length = 3 := by
    have hlower := congrArg List.length (eq_of_beq hlua)
    rw [List.length_map, List.length_map] at hlower
    exact hlower.symm
  have hhead : (cmd.map Prod.fst ++ blank :: (joined (args.map (List.map written)) ++
      0 :: rest')).head? ≠ some blank := by
    intro h
    obtain ⟨c, cs, hcs⟩ := List.exists_cons_of_length_eq_add_one hnamelen
    rw [hcs, List.cons_append, List.head?_cons, Option.some.injEq] at h
    exact hname.2 (hcs ▸ h ▸ List.mem_cons_self)
  have hfind :=
    strchr_eq_some (joined (args.map (List.map written)) ++ 0 :: rest') hname.1 hname.2
  have hleadchars : 0 ∉ lead := by
    obtain rfl | rfl := hlead <;> decide
  have hstrlen := strlen_eq rest' (s := lead ++
    (cmd.map Prod.fst ++ blank :: joined (args.map (List.map written)))) (by
      rw [List.mem_append, not_or]
      exact ⟨hleadchars, hwordchars⟩)
  have hlong : (lead ++ (cmd.map Prod.fst ++ blank ::
      joined (args.map (List.map written)))).length ≠ 1 := by
    simp only [List.length_append, hnamelen]
    omega
  have htemp := drop_lead hlead hhead
  have hskip : (cmd.map Prod.fst ++ blank :: (joined (args.map (List.map written)) ++
      0 :: rest')).drop ((cmd.map Prod.fst).length + 1) =
      joined (args.map (List.map written)) ++ 0 :: rest' := by
    simp only [List.drop_append]
    simp
  rw [List.append_assoc, List.append_assoc, List.cons_append] at hsqueeze hstrlen
  rw [shellStart]
  simp only [strlen_eq rest hzero, hend, hblank, hhide, hsqueeze, Option.bind_eq_bind,
    Option.bind_some, if_neg hne, Option.isSome_none, hstrlen, if_neg hlong, htemp, hfind,
    List.take_left, hfile, find_lua hlua, hskip, hexec, Bool.false_eq_true, if_false, if_true]
  rw [List.map_map]
  rfl

/-- A command line for `lua` has the arguments of the splitter if and only if they are plain. -/
theorem shellStart_lua_iff (isFile : List UInt8 → Bool) (line rest cmd : List UInt8)
    (args : List (List UInt8)) (hlen : line.length ≤ shellMaxsize - 1) (hzero : 0 ∉ line)
    (hroom : (line ++ 0 :: rest).length = shellMaxsize + 1) (hopen : openQuote none line = none)
    (hsplit : splitLine line = cmd :: args) (hlua : sameName luaName cmd = true)
    (hargs : args.length ≤ shellMaxLuaArgs) (hfile : isFile cmd = false) :
    ∃ argv, shellStart isFile (line ++ 0 :: rest) = some (.lua argv) ∧
      (argv = luaName :: args.map unquote ↔ ∀ arg ∈ args, Plain arg) := by
  obtain ⟨cmd', args', hwords, rfl, rfl⟩ := List.map_eq_cons_iff.mp hsplit
  rw [List.length_map] at hargs
  refine ⟨_, shellStart_eq hzero hroom hlen hopen hwords hlua hargs hfile, ?_⟩
  rw [List.cons_inj_right, List.map_map, List.map_inj_left, List.forall_mem_map]
  refine forall₂_congr fun t ht => restore_eq_unquote_iff fun x hx => ?_
  have hmem : t ∈ pieces isSep (tagged none line) := hwords ▸ List.mem_cons_of_mem _ ht
  exact ((pieces_tagged hzero t hmem).2 x hx).1

theorem shellStart_lua_quoted :
    ∃ argv, shellStart (fun _ => false) (chars "lua -e 'a  b'" ++ 0 :: List.replicate 37 0) =
        some (.lua argv) ∧
      (argv = luaName :: [chars "-e", chars "'a  b'"].map unquote ↔
        ∀ arg ∈ [chars "-e", chars "'a  b'"], Plain arg) :=
  shellStart_lua_iff (fun _ => false) (chars "lua -e 'a  b'") (List.replicate 37 0) luaName
    [chars "-e", chars "'a  b'"] (by decide +kernel) (by decide +kernel) (by decide +kernel)
    (by decide +kernel) (by decide +kernel) (by decide +kernel) (by decide +kernel) rfl

/-- The mark stays in an argument with quotes in its middle. -/
theorem shellStart_lua_damaged :
    shellStart (fun _ => false) (chars "lua x='a b'" ++ 0 :: List.replicate 39 0) =
        some (.lua [luaName, chars "x='a" ++ altSpace :: chars "b'"]) ∧
      splitLine (chars "lua x='a b'") = [luaName, chars "x='a b'"] ∧
      openQuote none (chars "lua x='a b'") = none ∧
      luaName :: [chars "x='a b'"].map unquote ≠
        [luaName, chars "x='a" ++ altSpace :: chars "b'"] := by
  decide +kernel

end Line

end ELuaBrain.Shell
