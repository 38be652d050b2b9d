import Mathlib.Data.List.Basic
import Mathlib.Data.List.TakeWhile
import Mathlib.Tactic.Ring

/-!
# Formatted reading from a UART

`uart.read` of the module `uart`. One loop serves the four formats: it counts the bytes, passes each
of them to `isdigit` and `isspace` as a `char`, and compares the count with the size after a byte
has been taken.

The port is given by what the polls find. `platform_uart_recv` makes of them bytes and time-outs.
What the conversion to an integer gives beyond 32 bits is left open, and so is `isdigit` outside of
its domain, the characters without a sign and `EOF`.

## Main definitions

* `platformUartRecv`, `replies` : one call, and what all calls return.
* `uartRead` : the code.
* `token`, `expected` : what a format names.
* `Clean` : bytes that the loop can take.

## Main results

* `uartReadLoop_until`, `uartReadLoop_size` : the loop for a token, and for a size.
* `uartRead_exact_iff` : when what is returned and consumed is what the format names.
-/

namespace ELuaBrain.Uart

/-! ### The port -/

/-- What a poll of the port finds: a byte, or nothing for a number of microseconds. -/
inductive Poll where
  | byte (b : UInt8)
  | idle (us : ℕ)

/-- `PLATFORM_UART_INFINITE_TIMEOUT`. -/
def infiniteTimeout : ℤ := -1

/-- `platform_uart_recv`, after a part of the time. It returns a byte or, for `-1`, none; if there
is no result it is still waiting. -/
def platformUartRecv (timeout : ℤ) : ℕ → List Poll → Option (Option UInt8 × List Poll)
  | _, [] => none
  | _, .byte b :: polls => some (some b, polls)
  | elapsed, .idle us :: polls =>
      if timeout = 0 then some (none, polls)
      else if timeout = infiniteTimeout then platformUartRecv timeout elapsed polls
      else if timeout ≤ elapsed + us then some (none, polls)
      else platformUartRecv timeout (elapsed + us) polls

/-- What the calls of `platform_uart_recv` return, one after the other. -/
def replies (timeout : ℤ) : ℕ → List Poll → List (Option UInt8)
  | _, [] => []
  | _, .byte b :: polls => some b :: replies timeout 0 polls
  | elapsed, .idle us :: polls =>
      if timeout = 0 then none :: replies timeout 0 polls
      else if timeout = infiniteTimeout then replies timeout elapsed polls
      else if timeout ≤ elapsed + us then none :: replies timeout 0 polls
      else replies timeout (elapsed + us) polls

theorem replies_eq (timeout : ℤ) (elapsed : ℕ) (polls : List Poll) :
    replies timeout elapsed polls =
      (platformUartRecv timeout elapsed polls).elim [] fun r => r.1 :: replies timeout 0 r.2 := by
  induction polls generalizing elapsed with
  | nil => rfl
  | cons poll polls ih =>
    cases poll with
    | byte b => rfl
    | idle us =>
      rw [replies, platformUartRecv]
      split_ifs with hzero hinfinite hover
      · rfl
      · exact ih elapsed
      · rfl
      · exact ih (elapsed + us)

/-! ### Characters and numbers -/

/-- A byte as a `char`, which has a sign on some platforms. -/
def charOf (charSigned : Bool) (b : UInt8) : ℤ := if charSigned then b.toInt8.toInt else b.toNat

/-- The characters that `isdigit` and `isspace` are defined for. -/
def Classified (c : ℤ) : Prop := -1 ≤ c ∧ c < 256

instance (c : ℤ) : Decidable (Classified c) := inferInstanceAs (Decidable (_ ∧ _))

/-- `isdigit`. -/
def isdigit (c : ℤ) : Option Bool := if Classified c then some (48 ≤ c && c ≤ 57) else none

/-- `isspace`. -/
def isspace (c : ℤ) : Option Bool :=
  if Classified c then some (c = 32 || 9 ≤ c && c ≤ 13) else none

/-- A digit. -/
def IsDigit (b : UInt8) : Bool := 48 ≤ b && b ≤ 57

/-- A whitespace character. -/
def IsSpace (b : UInt8) : Bool := b = 32 || 9 ≤ b && b ≤ 13

/-- A sign. -/
def IsSign (b : UInt8) : Bool := b = 45 || b = 43

/-- The value of digits. -/
def digitsValue (ds : List UInt8) : ℕ := ds.foldl (fun n d => 10 * n + (d.toNat - 48)) 0

/-- The sign of a text. -/
def signOf (s : List UInt8) : ℤ := if s.head? = some 45 then -1 else 1

/-- A text without its sign. -/
def unsigned : List UInt8 → List UInt8
  | [] => []
  | b :: s => if IsSign b then s else b :: s

/-- The number at the start of a text, and the text behind it: `lua_str2number` where there is
neither a fraction nor an exponent. -/
def luaStr2number (s : List UInt8) : Option (ℤ × List UInt8) :=
  let digits := (unsigned s).takeWhile IsDigit
  if digits = [] then none
  else some (signOf s * digitsValue digits, (unsigned s).drop digits.length)

/-- `luaO_str2d`, without hexadecimal numbers. -/
def luaOStr2d (s : List UInt8) : Option ℤ :=
  (luaStr2number s).bind fun r => if r.2.dropWhile IsSpace = [] then some r.1 else none

/-- The values of an `int`. -/
def InRange (z : ℤ) : Prop := -2 ^ 31 ≤ z ∧ z < 2 ^ 31

instance (z : ℤ) : Decidable (InRange z) := inferInstanceAs (Decidable (_ ∧ _))

/-- `lua_tointeger` of a string, with the conversion of numbers that are no `int`. -/
def luaTointeger (beyond : ℤ → ℤ) (s : List UInt8) : ℤ :=
  (luaOStr2d s).elim 0 fun z => if InRange z then z else beyond z

/-! ### The code -/

/-- The modes of the read function. -/
inductive Mode where
  | line
  | number
  | space
  | maxsize
  deriving DecidableEq

/-- The format: a number, or a string that is not one. -/
inductive FormatArg where
  | number (n : Int32)
  | text (fmt : String)

/-- What comes of reading: a value, with the replies that are left, or it still waits, or what it
does is not defined. -/
inductive Outcome (α : Type) where
  | returned (value : α) (rest : List (Option UInt8))
  | waits
  | undefined

/-- The value that is returned. -/
inductive Value where
  | string (s : List UInt8)
  | integer (z : ℤ)

def Outcome.map {α β : Type} (f : α → β) : Outcome α → Outcome β
  | .returned value rest => .returned (f value) rest
  | .waits => .waits
  | .undefined => .undefined

/-- The mode and the size of a format. -/
def checkFormat : FormatArg → Except String (Mode × ℤ)
  | .number n => if n.toInt < 0 then .error "invalid max size" else .ok (.maxsize, n.toInt)
  | .text fmt =>
      if fmt = "*l" then .ok (.line, 0)
      else if fmt = "*n" then .ok (.number, 0)
      else if fmt = "*s" then .ok (.space, 0)
      else .error "invalid format"

/-- The loop of `uart_read`, with the bytes in the buffer. -/
def uartReadLoop (charSigned : Bool) (mode : Mode) (maxsize : ℤ) :
    ℕ → List UInt8 → List (Option UInt8) → Outcome (List UInt8)
  | _, _, [] => .waits
  | _, buf, none :: replies => .returned buf replies
  | count, buf, some res :: replies =>
      -- the count has 32 bits and a sign
      if count + 1 = 2 ^ 31 then .undefined
      else
        let cres := charOf charSigned res
        let issign := count + 1 = 1 && (res = 45 || res = 43)
        if cres = 10 ∧ mode = .line then .returned buf replies
        else match isdigit cres, isspace cres with
          | some digit, some space =>
              if !digit && !issign && mode = .number then .returned buf replies
              else if space && mode = .space then .returned buf replies
              else if (count + 1 : ℕ) = maxsize ∧ mode = .maxsize then
                .returned (buf ++ [res]) replies
              else uartReadLoop charSigned mode maxsize (count + 1) (buf ++ [res]) replies
          | _, _ => .undefined

/-- `uart_read`, from the check of the format on. -/
def uartRead (charSigned : Bool) (beyond : ℤ → ℤ) (arg : FormatArg) (timeout : ℤ)
    (polls : List Poll) : Except String (Outcome Value) :=
  match checkFormat arg with
  | .error msg => .error msg
  | .ok (mode, maxsize) =>
      if timeout < 0 ∧ timeout ≠ infiniteTimeout then .error "invalid timeout value"
      else
        let out := uartReadLoop charSigned mode maxsize 0 [] (replies timeout 0 polls)
        .ok (out.map fun s =>
          if mode = .number then .integer (luaTointeger beyond s) else .string s)

/-! ### What is claimed -/

/-- The formats. -/
inductive Format where
  | line
  | number
  | space
  | size (n : Fin (2 ^ 31))

/-- A format as an argument. -/
def Format.arg : Format → FormatArg
  | .line => .text "*l"
  | .number => .text "*n"
  | .space => .text "*s"
  | .size n => .number (Int32.ofNat n)

/-- The bytes up to the first time-out. -/
def heard : List (Option UInt8) → List UInt8
  | [] => []
  | none :: _ => []
  | some b :: replies => b :: heard replies

/-- The longest prefix of digits with a sign. -/
def numberPrefix : List UInt8 → List UInt8
  | b :: bs => if IsSign b then b :: bs.takeWhile IsDigit else (b :: bs).takeWhile IsDigit
  | [] => []

/-- The bytes that a format names. -/
def token : Format → List UInt8 → List UInt8
  | .line, bs => bs.takeWhile (· ≠ 10)
  | .number, bs => numberPrefix bs
  | .space, bs => bs.takeWhile (!IsSpace ·)
  | .size n, bs => bs.take n

/-- The integer that a prefix denotes. -/
def denoted (s : List UInt8) : ℤ := signOf s * digitsValue (unsigned s)

/-- What a format names needs nothing behind it. -/
def Format.Full : Format → List UInt8 → Prop
  | .size n, s => s.length = n
  | _, _ => False

instance : (fmt : Format) → (s : List UInt8) → Decidable (fmt.Full s)
  | .size n, s => inferInstanceAs (Decidable (s.length = n))
  | .line, _ => .isFalse id
  | .number, _ => .isFalse id
  | .space, _ => .isFalse id

/-- A token is returned when something ends it. -/
def ended (s : List UInt8) : List (Option UInt8) → Outcome (List UInt8)
  | [] => .waits
  | _ :: rest => .returned s rest

/-- The token, and what is left behind the byte or the time-out that ends it. -/
def expected (fmt : Format) (replies : List (Option UInt8)) : Outcome (List UInt8) :=
  let s := token fmt (heard replies)
  if fmt.Full s then .returned s (replies.drop s.length) else ended s (replies.drop s.length)

/-- The value of a token: nothing is said of a number that is no `int`. -/
def Names (fmt : Format) (s : List UInt8) (v : Value) : Prop :=
  match fmt with
  | .number => ∃ z, v = .integer z ∧ (InRange (denoted s) → z = denoted s)
  | _ => v = .string s

/-- What is returned and what is left is what the format names. -/
def Exact (fmt : Format) (replies : List (Option UInt8)) (out : Outcome Value) : Prop :=
  match expected fmt replies with
  | .returned s rest => ∃ v, Names fmt s v ∧ out = .returned v rest
  | .waits => out = .waits
  | .undefined => False

/-- The bytes that are taken for a format. -/
def taken (fmt : Format) (bs : List UInt8) : List UInt8 :=
  match fmt with
  | .size n => bs.take n
  | _ => bs.take ((token fmt bs).length + 1)

/-- Bytes that the loop can take after others: each is in the domain of `isdigit`, and they can be
counted. -/
def Clean (charSigned : Bool) (count : ℕ) (bs : List UInt8) : Prop :=
  (∀ b ∈ bs, Classified (charOf charSigned b)) ∧ count + bs.length < 2 ^ 31

instance (charSigned : Bool) (count : ℕ) (bs : List UInt8) :
    Decidable (Clean charSigned count bs) :=
  inferInstanceAs (Decidable (_ ∧ _))

/-! ### Characters -/

section Characters

variable {charSigned : Bool} {b : UInt8} {bs : List UInt8} {count : ℕ}

theorem charOf_cases (charSigned : Bool) (b : UInt8) :
    charOf charSigned b = b.toNat ∨ 128 ≤ b.toNat ∧ charOf charSigned b < 0 := by
  rw [charOf]
  split_ifs
  · have hlt : b.toNat < 256 := b.toNat_lt
    have hint : b.toInt8.toInt = Int.bmod b.toNat 256 := BitVec.toInt_eq_toNat_bmod b.toBitVec
    rw [hint, Int.bmod_def]
    omega
  · exact .inl rfl

theorem charOf_eq_ten : charOf charSigned b = 10 ↔ b = 10 := by
  rw [← UInt8.toNat_inj]
  change _ ↔ b.toNat = 10
  have hcases := charOf_cases charSigned b
  omega

theorem isdigit_charOf (h : Classified (charOf charSigned b)) :
    isdigit (charOf charSigned b) = some (IsDigit b) := by
  have hcases := charOf_cases charSigned b
  rw [isdigit, if_pos h, IsDigit, Option.some_inj, Bool.eq_iff_iff, Bool.and_eq_true,
    Bool.and_eq_true, decide_eq_true_iff, decide_eq_true_iff, decide_eq_true_iff,
    decide_eq_true_iff, UInt8.le_iff_toNat_le, UInt8.le_iff_toNat_le]
  change _ ↔ 48 ≤ b.toNat ∧ b.toNat ≤ 57
  omega

theorem isspace_charOf (h : Classified (charOf charSigned b)) :
    isspace (charOf charSigned b) = some (IsSpace b) := by
  have hcases := charOf_cases charSigned b
  rw [isspace, if_pos h, IsSpace, Option.some_inj, Bool.eq_iff_iff]
  simp only [Bool.or_eq_true, Bool.and_eq_true, decide_eq_true_iff, UInt8.le_iff_toNat_le,
    ← UInt8.toNat_inj]
  change _ ↔ b.toNat = 32 ∨ 9 ≤ b.toNat ∧ b.toNat ≤ 13
  omega

theorem clean_cons :
    Clean charSigned count (b :: bs) ↔ Classified (charOf charSigned b) ∧
      count + 1 ≠ 2 ^ 31 ∧ Clean charSigned (count + 1) bs := by
  rw [Clean, Clean, List.forall_mem_cons, List.length_cons, and_assoc]
  refine and_congr_right fun _ => ?_
  constructor
  · rintro ⟨hbs, hlength⟩
    exact ⟨by omega, hbs, by omega⟩
  · rintro ⟨-, hbs, hlength⟩
    exact ⟨hbs, by omega⟩

theorem clean_nil (hcount : count < 2 ^ 31) : Clean charSigned count [] :=
  ⟨List.forall_mem_nil _, hcount⟩

end Characters

/-! ### The loop -/

section Loop

variable {charSigned : Bool} {mode : Mode} {maxsize : ℤ} {count : ℕ} {b : UInt8}
  {buf : List UInt8} {replies : List (Option UInt8)}

/-- The bytes behind which the loop ends, and which are not returned. -/
def Stops (mode : Mode) (count : ℕ) (b : UInt8) : Bool :=
  match mode with
  | .line => b = 10
  | .number => !IsDigit b && !(count = 0 && IsSign b)
  | .space => IsSpace b
  | .maxsize => false

/-- The loop takes a byte. -/
theorem uartReadLoop_cons (hclass : Classified (charOf charSigned b))
    (hcount : count + 1 ≠ 2 ^ 31) :
    uartReadLoop charSigned mode maxsize count buf (some b :: replies) =
      if Stops mode count b then .returned buf replies
      else if (count + 1 : ℕ) = maxsize ∧ mode = .maxsize then .returned (buf ++ [b]) replies
      else uartReadLoop charSigned mode maxsize (count + 1) (buf ++ [b]) replies := by
  rw [uartReadLoop, if_neg hcount]
  dsimp only
  rw [isdigit_charOf hclass, isspace_charOf hclass]
  simp only [charOf_eq_ten]
  cases mode <;> simp [Stops, IsSign]

/-- The loop takes a byte that it cannot take. -/
theorem uartReadLoop_undefined (h : ¬(Classified (charOf charSigned b) ∧ count + 1 ≠ 2 ^ 31)) :
    uartReadLoop charSigned mode maxsize count buf (some b :: replies) = .undefined := by
  rw [uartReadLoop]
  by_cases hcount : count + 1 = 2 ^ 31
  · rw [if_pos hcount]
  · have hclass : ¬Classified (charOf charSigned b) := fun hclass => h ⟨hclass, hcount⟩
    have hten : charOf charSigned b ≠ 10 := fun hten => hclass (hten ▸ by decide)
    rw [if_neg hcount]
    dsimp only
    rw [if_neg (fun hline => hten hline.1), isdigit, if_neg hclass]

/-- A token that ends with a byte of some kind. -/
theorem uartReadLoop_until {ends : UInt8 → Bool} (hsize : mode = .maxsize → maxsize ≤ count)
    (hends : ∀ c b, count ≤ c → Stops mode c b = ends b) (hcount : count < 2 ^ 31) :
    uartReadLoop charSigned mode maxsize count buf replies =
      let s := (heard replies).takeWhile (!ends ·)
      if Clean charSigned count ((heard replies).take (s.length + 1)) then
        ended (buf ++ s) (replies.drop s.length)
      else .undefined := by
  induction replies generalizing count buf with
  | nil => exact (if_pos (clean_nil hcount)).symm
  | cons reply replies ih =>
    cases reply with
    | none =>
      refine Eq.trans ?_ (if_pos (clean_nil hcount)).symm
      rw [heard, List.takeWhile_nil, List.append_nil]
      rfl
    | some b =>
      by_cases h : Classified (charOf charSigned b) ∧ count + 1 ≠ 2 ^ 31
      · rw [uartReadLoop_cons h.1 h.2, hends count b le_rfl, heard]
        cases hb : ends b with
        | true =>
          rw [List.takeWhile_cons_of_neg (by simp [hb]), if_pos rfl]
          have hclean : Clean charSigned count [b] :=
            clean_cons.mpr ⟨h.1, h.2, clean_nil (by omega)⟩
          dsimp only
          rw [List.append_nil]
          exact (if_pos hclean).symm
        | false =>
          have hnext : ¬((count + 1 : ℕ) = maxsize ∧ mode = .maxsize) := fun hmax => by
            have hle := hsize hmax.2
            omega
          rw [List.takeWhile_cons_of_pos (by simp [hb]), if_neg Bool.false_ne_true, if_neg hnext,
            ih (fun hmax => (hsize hmax).trans (by omega)) (fun c b hc => hends c b (by omega))
              (by omega)]
          dsimp only
          simp only [List.length_cons, List.take_succ_cons, List.drop_succ_cons,
            List.append_assoc, List.singleton_append, clean_cons, h.1, h.2, ne_eq,
            not_false_eq_true, true_and]
      · rw [uartReadLoop_undefined h]
        refine (if_neg fun hclean => h ?_).symm
        rw [heard, List.take_succ_cons, clean_cons] at hclean
        exact ⟨hclean.1, hclean.2.1⟩

/-- As many bytes as are asked for. -/
theorem uartReadLoop_size {n : ℕ} (hcount : count < 2 ^ 31) :
    uartReadLoop charSigned .maxsize (count + (n + 1) : ℕ) count buf replies =
      let s := (heard replies).take (n + 1)
      if Clean charSigned count s then
        if s.length = n + 1 then .returned (buf ++ s) (replies.drop s.length)
        else ended (buf ++ s) (replies.drop s.length)
      else .undefined := by
  induction replies generalizing count buf n with
  | nil => exact (if_pos (clean_nil hcount)).symm
  | cons reply replies ih =>
    cases reply with
    | none =>
      refine Eq.trans ?_ (if_pos (clean_nil hcount)).symm
      rw [heard, List.take_nil, List.append_nil]
      rfl
    | some b =>
      by_cases h : Classified (charOf charSigned b) ∧ count + 1 ≠ 2 ^ 31
      · rw [uartReadLoop_cons h.1 h.2, heard, Stops, if_neg Bool.false_ne_true]
        cases n with
        | zero =>
          have hclean : Clean charSigned count [b] :=
            clean_cons.mpr ⟨h.1, h.2, clean_nil (by omega)⟩
          rw [if_pos ⟨rfl, rfl⟩]
          exact (if_pos hclean).symm
        | succ n =>
          have hnext : ¬(((count + 1 : ℕ) : ℤ) = (count + (n + 1 + 1) : ℕ) ∧
              Mode.maxsize = .maxsize) := by omega
          rw [if_neg hnext, show count + (n + 1 + 1) = count + 1 + (n + 1) by ring, ih (by omega)]
          dsimp only
          simp only [List.length_cons, List.take_succ_cons, List.drop_succ_cons,
            List.append_assoc, List.singleton_append, clean_cons, h.1, h.2, ne_eq,
            not_false_eq_true, true_and, Nat.add_right_cancel_iff]
      · rw [uartReadLoop_undefined h]
        refine (if_neg fun hclean => h ?_).symm
        rw [heard, List.take_succ_cons, clean_cons] at hclean
        exact ⟨hclean.1, hclean.2.1⟩

/-- A number, whose first byte can be a sign. -/
theorem uartReadLoop_number :
    uartReadLoop charSigned .number maxsize 0 [] replies =
      let s := numberPrefix (heard replies)
      if Clean charSigned 0 ((heard replies).take (s.length + 1)) then
        ended s (replies.drop s.length)
      else .undefined := by
  rcases replies with _ | ⟨_ | b, replies⟩
  · exact (if_pos (clean_nil (by decide))).symm
  · exact (if_pos (clean_nil (by decide))).symm
  · by_cases h : Classified (charOf charSigned b) ∧ 0 + 1 ≠ 2 ^ 31
    · rw [uartReadLoop_cons h.1 h.2, heard]
      by_cases hgo : IsSign b = true ∨ IsDigit b = true
      · -- the other bytes must be digits
        have hstops : Stops .number 0 b = false := by
          rcases hgo with hb | hb <;> simp [Stops, hb]
        have hprefix : numberPrefix (b :: heard replies) =
            b :: (heard replies).takeWhile (!!IsDigit ·) := by
          simp only [Bool.not_not]
          rw [numberPrefix]
          split_ifs with hsign
          · rfl
          · exact List.takeWhile_cons_of_pos (hgo.resolve_left hsign)
        have hends : ∀ c d, 0 + 1 ≤ c → Stops .number c d = !IsDigit d := by
          intro c d hc
          simp [Stops, Nat.ne_of_gt hc]
        rw [hstops, if_neg Bool.false_ne_true, if_neg (fun hmax => nomatch hmax.2),
          uartReadLoop_until (fun hmax => nomatch (hmax : Mode.number = .maxsize)) hends
            (by decide), hprefix]
        dsimp only
        simp only [List.length_cons, List.take_succ_cons, List.drop_succ_cons, List.nil_append,
          List.singleton_append, clean_cons, h.1, h.2, ne_eq, not_false_eq_true, true_and]
      · obtain ⟨hsign, hdigit⟩ := not_or.mp hgo
        have hprefix : numberPrefix (b :: heard replies) = [] := by
          rw [numberPrefix, if_neg hsign, List.takeWhile_cons_of_neg hdigit]
        have hclean : Clean charSigned 0 [b] :=
          clean_cons.mpr ⟨h.1, h.2, clean_nil (by decide)⟩
        rw [if_pos (by simp [Stops, hsign, hdigit]), hprefix]
        exact (if_pos hclean).symm
    · rw [uartReadLoop_undefined h]
      refine (if_neg fun hclean => h ?_).symm
      rw [heard, List.take_succ_cons, clean_cons] at hclean
      exact ⟨hclean.1, hclean.2.1⟩

end Loop

/-! ### Numbers -/

section Numbers

variable {bs : List UInt8}

theorem unsigned_numberPrefix : ∀ b ∈ unsigned (numberPrefix bs), IsDigit b := by
  have hdigits (l : List UInt8) : ∀ b ∈ l.takeWhile IsDigit, IsDigit b := fun b hb =>
    List.mem_takeWhile_imp hb
  rcases bs with _ | ⟨c, bs⟩
  · exact List.forall_mem_nil _
  · rw [numberPrefix]
    split_ifs with hsign
    · rw [unsigned, if_pos hsign]
      exact hdigits bs
    · by_cases hdigit : IsDigit c
      · rw [List.takeWhile_cons_of_pos hdigit, unsigned, if_neg hsign,
          ← List.takeWhile_cons_of_pos hdigit]
        exact hdigits (c :: bs)
      · rw [List.takeWhile_cons_of_neg hdigit]
        exact List.forall_mem_nil _

/-- The integer that is returned for a token, if it is an `int`. -/
theorem luaTointeger_numberPrefix (beyond : ℤ → ℤ) (h : InRange (denoted (numberPrefix bs))) :
    luaTointeger beyond (numberPrefix bs) = denoted (numberPrefix bs) := by
  have htake := List.takeWhile_eq_self_iff.mpr (@unsigned_numberPrefix bs)
  rw [luaTointeger, luaOStr2d, luaStr2number, htake, List.drop_length]
  by_cases hnil : unsigned (numberPrefix bs) = []
  · rw [if_pos hnil, denoted, hnil]
    exact (mul_zero _).symm
  · rw [if_neg hnil]
    exact if_pos h

end Numbers

/-! ### Formats -/

section Formats

variable {charSigned : Bool} {beyond : ℤ → ℤ} {fmt : Format} {timeout : ℤ}
  {replies : List (Option UInt8)}

/-- The mode for a format. -/
def Format.mode : Format → Mode
  | .line => .line
  | .number => .number
  | .space => .space
  | .size _ => .maxsize

/-- The size for a format. -/
def Format.maxsize : Format → ℤ
  | .size n => n
  | _ => 0

theorem checkFormat_arg (fmt : Format) : checkFormat fmt.arg = .ok (fmt.mode, fmt.maxsize) := by
  cases fmt with
  | line => rfl
  | number => rfl
  | space => rfl
  | size n =>
    have hint : (Int32.ofNat n).toInt = n := Int32.toInt_ofNat_of_lt n.isLt
    rw [Format.arg, checkFormat, hint, if_neg (by omega)]
    rfl

/-- The loop finds what the format names, if it can take the bytes. -/
theorem uartReadLoop_eq (hfmt : fmt ≠ .size 0) :
    uartReadLoop charSigned fmt.mode fmt.maxsize 0 [] replies =
      if Clean charSigned 0 (taken fmt (heard replies)) then expected fmt replies
      else .undefined := by
  cases fmt with
  | line =>
    have hends : ∀ c b, 0 ≤ c → Stops .line c b = decide (b = 10) := fun _ _ _ => rfl
    refine (uartReadLoop_until (fun _ => le_rfl) hends (by decide)).trans ?_
    dsimp only
    rw [List.nil_append, expected, if_neg (id : ¬Format.Full .line _)]
    simp only [taken, token, ne_eq, decide_not]
  | number =>
    rw [expected, if_neg (id : ¬Format.Full .number _)]
    exact uartReadLoop_number
  | space =>
    have hends : ∀ c b, 0 ≤ c → Stops .space c b = IsSpace b := fun _ _ _ => rfl
    refine (uartReadLoop_until (fun _ => le_rfl) hends (by decide)).trans ?_
    dsimp only
    rw [List.nil_append, expected, if_neg (id : ¬Format.Full .space _)]
    rfl
  | size n =>
    obtain ⟨_ | n, hn⟩ := n
    · exact absurd rfl hfmt
    · have hsize : (Format.size ⟨n + 1, hn⟩).maxsize = (0 + (n + 1) : ℕ) := by
        rw [zero_add]
        rfl
      rw [hsize]
      refine (uartReadLoop_size (by decide)).trans ?_
      dsimp only
      rw [List.nil_append]
      rfl

theorem ended_eq_returned {s s' : List UInt8} {rest : List (Option UInt8)}
    (h : ended s replies = .returned s' rest) : rest.length < replies.length := by
  cases replies with
  | nil => cases h
  | cons reply replies =>
    cases h
    exact Nat.lt_succ_self _

/-- Nothing is asked for, but the loop does not end before a time-out. -/
theorem uartReadLoop_zero {s : List UInt8} {rest : List (Option UInt8)}
    (h : uartReadLoop charSigned .maxsize 0 0 [] replies = .returned s rest) :
    rest.length < replies.length := by
  have hends : ∀ c b, 0 ≤ c → Stops .maxsize c b = false := fun _ _ _ => rfl
  have hloop := (uartReadLoop_until (fun _ => le_rfl) hends (by decide)).symm.trans h
  dsimp only at hloop
  split_ifs at hloop
  refine (ended_eq_returned hloop).trans_le ?_
  rw [List.length_drop]
  exact Nat.sub_le _ _

theorem names_value {s : List UInt8} (hs : s = token fmt (heard replies)) :
    Names fmt s (if fmt.mode = .number then .integer (luaTointeger beyond s) else .string s) := by
  cases fmt with
  | number =>
    refine ⟨_, rfl, fun hrange => ?_⟩
    rw [hs] at hrange ⊢
    exact luaTointeger_numberPrefix beyond hrange
  | line => rfl
  | space => rfl
  | size n => rfl

theorem ended_cases (s : List UInt8) (replies : List (Option UInt8)) :
    ended s replies = .waits ∨ ∃ rest, ended s replies = .returned s rest := by
  cases replies with
  | nil => exact .inl rfl
  | cons reply replies => exact .inr ⟨_, rfl⟩

theorem expected_cases (fmt : Format) (replies : List (Option UInt8)) :
    expected fmt replies = .waits ∨
      ∃ rest, expected fmt replies = .returned (token fmt (heard replies)) rest := by
  rw [expected]
  split_ifs
  · exact .inr ⟨_, rfl⟩
  · exact ended_cases _ _

/-- **Reading is exact** if the size is not zero, and if each byte that is taken has a character in
the domain of `isdigit`, as long as they can be counted. -/
theorem uartRead_exact_iff (charSigned : Bool) (beyond : ℤ → ℤ) (fmt : Format) (timeout : ℤ)
    (polls : List Poll) (htimeout : 0 ≤ timeout ∨ timeout = infiniteTimeout) :
    (∃ out, uartRead charSigned beyond fmt.arg timeout polls = .ok out ∧
      Exact fmt (Uart.replies timeout 0 polls) out) ↔
      fmt ≠ .size 0 ∧ Clean charSigned 0 (taken fmt (heard (Uart.replies timeout 0 polls))) := by
  have hvalid : ¬(timeout < 0 ∧ timeout ≠ infiniteTimeout) := by
    rintro ⟨hneg, hne⟩
    exact hne (htimeout.resolve_left (not_le.mpr hneg))
  rw [uartRead, checkFormat_arg]
  dsimp only
  rw [if_neg hvalid]
  generalize Uart.replies timeout 0 polls = rs
  constructor
  · rintro ⟨_, ⟨⟩, hexact⟩
    rw [Exact] at hexact
    by_cases hfmt : fmt = .size 0
    · -- more is read than nothing
      subst hfmt
      obtain ⟨v, -, hv⟩ := hexact
      cases hloop : uartReadLoop charSigned .maxsize 0 0 [] rs with
      | waits => exact nomatch hv.symm.trans (congrArg (Outcome.map _) hloop)
      | undefined => exact nomatch hv.symm.trans (congrArg (Outcome.map _) hloop)
      | returned s rest =>
        have hrest := hv.symm.trans (congrArg (Outcome.map _) hloop)
        have hlt := uartReadLoop_zero hloop
        obtain ⟨-, heq⟩ := Outcome.returned.inj hrest
        rw [← heq] at hlt
        exact absurd hlt (lt_irrefl _)
    · refine ⟨hfmt, ?_⟩
      by_contra hclean
      rw [uartReadLoop_eq hfmt, if_neg hclean] at hexact
      obtain h | ⟨rest, h⟩ := expected_cases fmt rs
      · rw [h] at hexact
        cases hexact
      · rw [h] at hexact
        obtain ⟨v, -, hv⟩ := hexact
        cases hv
  · rintro ⟨hfmt, hclean⟩
    refine ⟨_, rfl, ?_⟩
    rw [uartReadLoop_eq hfmt, if_pos hclean, Exact]
    obtain h | ⟨rest, h⟩ := expected_cases fmt rs
    · rw [h]
      rfl
    · rw [h]
      exact ⟨_, names_value rfl, rfl⟩

/-- A line that comes without a time-out. -/
theorem uartRead_exact_line :
    ∃ out, uartRead true id Format.line.arg infiniteTimeout [.byte 72, .byte 105, .byte 10] =
      .ok out ∧ Exact .line [some 72, some 105, some 10] out :=
  (uartRead_exact_iff true id .line infiniteTimeout [.byte 72, .byte 105, .byte 10]
    (.inr rfl)).mpr ⟨nofun, by decide +kernel⟩

/-- **Reading is not always exact**: with the size zero a byte is taken and the call goes on to
wait, and a letter with an accent has no class where `char` has a sign. -/
theorem uartRead_not_exact :
    (¬∃ out, uartRead false id (Format.size 0).arg infiniteTimeout [.byte 65] = .ok out ∧
      Exact (.size 0) (Uart.replies infiniteTimeout 0 [.byte 65]) out) ∧
    ¬∃ out, uartRead true id Format.line.arg infiniteTimeout [.byte 0xE9, .byte 10] = .ok out ∧
      Exact .line (Uart.replies infiniteTimeout 0 [.byte 0xE9, .byte 10]) out := by
  refine ⟨?_, ?_⟩
  · rintro ⟨_, ⟨⟩, v, -, hv⟩
    cases hv
  · rintro ⟨_, ⟨⟩, v, -, hv⟩
    cases hv

end Formats

end ELuaBrain.Uart
