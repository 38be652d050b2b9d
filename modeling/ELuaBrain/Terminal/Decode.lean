import ELuaBrain.System.Arrivals
import Mathlib.Data.Fin.VecNotation
import Mathlib.Data.List.Chain

/-!
# The keys of a terminal

`term_translate` and `term_getch`. The bytes of a key come from a UART. A key that is only the start
of another one is told from it by a time-out: after `ESC`, and after a carriage return, where the
next byte is taken whatever it is.

The bytes have the times of their arrival in microseconds, and the program calls `term_getch` when
it likes. A time-out is polled once in a microsecond.

## Main definitions

* `termTranslate`, `termGetch` : the code.
* `Encoding`, `Stroke` : the keys with their bytes, and a key that is pressed.
* `run` : calls of `term_getch`.
* `Timely` : the next key comes late enough.

## Main results

* `termGetch_stroke` : one key.
* `run_eq_expected_iff` : when the calls return the keys, and take the bytes of one key each.
* `timely_of_ready` : a program that always waits.
-/

namespace ELuaBrain.Terminal.Decode

/-! ### The code -/

/-- A character, or one of the `TERM_KEYCODES`. -/
inductive Code where
  | char (b : UInt8)
  | kcUp
  | kcDown
  | kcLeft
  | kcRight
  | kcHome
  | kcEnd
  | kcPageup
  | kcPagedown
  | kcEnter
  | kcTab
  | kcBackspace
  | kcEsc
  | kcCtrlZ
  | kcCtrlA
  | kcCtrlE
  | kcCtrlC
  | kcCtrlT
  | kcCtrlU
  | kcCtrlK
  | kcUnknown
  deriving DecidableEq

/-- The bytes that have not been taken, with the times of their arrival. -/
abbrev Queue := List (ℕ × UInt8)

/-- `TERM_TIMEOUT`. -/
def termTimeout : ℕ := 100000

/-- `platform_uart_recv` with this time-out. -/
def recv (now : ℕ) (q : Queue) : Option UInt8 × ℕ × Queue := Arrivals.within termTimeout now q

/-- `isprint`. -/
def isprint (data : UInt8) : Bool := 0x20 ≤ data && data ≤ 0x7E

/-- The last byte of a cursor key. -/
def cursorKey (c : UInt8) : Code :=
  if c = 0x41 then .kcUp
  else if c = 0x42 then .kcDown
  else if c = 0x43 then .kcRight
  else if c = 0x44 then .kcLeft
  else .kcUnknown

/-- The number in an extended sequence. -/
def extendedKey (c : UInt8) : Code :=
  if c = 49 then .kcHome
  else if c = 52 then .kcEnd
  else if c = 53 then .kcPageup
  else if c = 54 then .kcPagedown
  else .kcUnknown

/-- A key that is a single byte. -/
def singleKey (data : UInt8) : Code :=
  if data = 0x09 then .kcTab
  else if data = 0x7F then .kcBackspace
  else if data = 0x08 then .kcBackspace
  else if data = 26 then .kcCtrlZ
  else if data = 1 then .kcCtrlA
  else if data = 5 then .kcCtrlE
  else if data = 3 then .kcCtrlC
  else if data = 20 then .kcCtrlT
  else if data = 21 then .kcCtrlU
  else if data = 11 then .kcCtrlK
  else .kcUnknown

/-- The end of an escape sequence, from its third byte on. -/
def translateThird (c : UInt8) (now : ℕ) (q : Queue) : Code × ℕ × Queue :=
  if 0x41 ≤ c ∧ c ≤ 0x44 then (cursorKey c, now, q)
  else if 48 < c ∧ c < 55 then
    let r := recv now q
    if r.1 ≠ some 126 then (.kcUnknown, r.2) else (extendedKey c, r.2)
  else (.kcUnknown, now, q)

/-- An escape sequence. The second byte can be any. -/
def translateEscape (now : ℕ) (q : Queue) : Code × ℕ × Queue :=
  match recv now q with
  | (none, now, q) => (.kcEsc, now, q)
  | (some _, now, q) =>
      match recv now q with
      | (none, now, q) => (.kcUnknown, now, q)
      | (some c, now, q) => translateThird c now q

/-- `term_translate`. -/
def termTranslate (data : UInt8) (now : ℕ) (q : Queue) : Code × ℕ × Queue :=
  if isprint data then (.char data, now, q)
  else if data = 0x1B then translateEscape now q
  else if data = 0x0D then (.kcEnter, (recv now q).2)
  else (singleKey data, now, q)

/-- `TERM_INPUT_WAIT` and `TERM_INPUT_DONT_WAIT`. -/
inductive InputMode where
  | wait
  | dontWait

/-- `term_in`, which does not return if no byte comes. -/
def termIn (mode : InputMode) (now : ℕ) (q : Queue) : Option (Option UInt8 × ℕ × Queue) :=
  match mode with
  | .dontWait => some (Arrivals.within 0 now q)
  | .wait => (Arrivals.await now q).map fun r => (some r.1, r.2)

/-- `term_getch`: a code or, for `-1`, none. -/
def termGetch (mode : InputMode) (now : ℕ) (q : Queue) : Option (Option Code × ℕ × Queue) :=
  match termIn mode now q with
  | none => none
  | some (none, now, q) => some (none, now, q)
  | some (some ch, now, q) => some (some (termTranslate ch now q).1, (termTranslate ch now q).2)

/-- A call that does not wait finds no key, or it is a call that waits. -/
theorem termGetch_dontWait (now : ℕ) (q : Queue) :
    termGetch .dontWait now q =
      if Arrivals.poll now q = none then some (none, now, q) else termGetch .wait now q := by
  rcases q with _ | ⟨⟨a, x⟩, q⟩
  · rfl
  · by_cases ha : a ≤ now
    · rw [termGetch, termIn, Arrivals.within_of_le ha, Arrivals.poll_of_le ha,
        if_neg (Option.some_ne_none _)]
      rfl
    · have hlt : now < a := not_le.mp ha
      rw [termGetch, termIn, Arrivals.within_of_lt hlt, Arrivals.poll_of_lt hlt, if_pos rfl]
      rfl

/-- Calls of `term_getch` that wait, each some time after the one before. The results have the bytes
that are left. -/
def run : List ℕ → ℕ → Queue → List (Code × Queue)
  | [], _, _ => []
  | d :: ds, now, q =>
      match termGetch .wait (now + d) q with
      | some (some code, now, q) => (code, q) :: run ds now q
      | _ => []

/-! ### What is claimed -/

/-- The cursor keys. -/
inductive Cursor where
  | up
  | down
  | right
  | left

/-- The keys with a number. -/
inductive Extended where
  | home
  | endKey
  | pageup
  | pagedown

/-- The keys that are a control code. -/
inductive Control where
  | tab
  | del
  | backspace
  | ctrlZ
  | ctrlA
  | ctrlE
  | ctrlC
  | ctrlT
  | ctrlU
  | ctrlK

/-- The keys, and how they are sent. -/
inductive Encoding where
  | char (c : { b : UInt8 // isprint b })
  | cr
  | crLf
  | esc
  | cursor (c : Cursor)
  | extended (e : Extended)
  | control (c : Control)

/-- The letter of a cursor key, and its code. -/
def Cursor.entry : Cursor → UInt8 × Code
  | .up => (0x41, .kcUp)
  | .down => (0x42, .kcDown)
  | .right => (0x43, .kcRight)
  | .left => (0x44, .kcLeft)

/-- The digit of a key with a number, and its code. -/
def Extended.entry : Extended → UInt8 × Code
  | .home => (0x31, .kcHome)
  | .endKey => (0x34, .kcEnd)
  | .pageup => (0x35, .kcPageup)
  | .pagedown => (0x36, .kcPagedown)

/-- The byte of a control code, and the code of the key. -/
def Control.entry : Control → UInt8 × Code
  | .tab => (9, .kcTab)
  | .del => (127, .kcBackspace)
  | .backspace => (8, .kcBackspace)
  | .ctrlZ => (26, .kcCtrlZ)
  | .ctrlA => (1, .kcCtrlA)
  | .ctrlE => (5, .kcCtrlE)
  | .ctrlC => (3, .kcCtrlC)
  | .ctrlT => (20, .kcCtrlT)
  | .ctrlU => (21, .kcCtrlU)
  | .ctrlK => (11, .kcCtrlK)

/-- The bytes of a key. -/
def Encoding.bytes : Encoding → List UInt8
  | .char c => [c.1]
  | .cr => [0x0D]
  | .crLf => [0x0D, 0x0A]
  | .esc => [0x1B]
  | .cursor c => [0x1B, 0x5B, c.entry.1]
  | .extended e => [0x1B, 0x5B, e.entry.1, 0x7E]
  | .control c => [c.entry.1]

/-- The code of a key. -/
def Encoding.code : Encoding → Code
  | .char c => .char c.1
  | .cr => .kcEnter
  | .crLf => .kcEnter
  | .esc => .kcEsc
  | .cursor c => c.entry.2
  | .extended e => e.entry.2
  | .control c => c.entry.2

/-- The bytes of the key are the start of those of another one. -/
def Encoding.isOpen : Encoding → Bool
  | .cr => true
  | .esc => true
  | _ => false

/-- A key is pressed some time after the last byte of the one before. Its bytes come within the
time-out of each other. -/
structure Stroke where
  enc : Encoding
  pause : ℕ
  gaps : Fin 3 → ℕ
  gaps_le : ∀ i, gaps i ≤ termTimeout

namespace Stroke

variable (t : ℕ) (k : Stroke)

/-- The times of up to four bytes. -/
def times : List ℕ :=
  [t + k.pause, t + k.pause + k.gaps 0, t + k.pause + k.gaps 0 + k.gaps 1,
    t + k.pause + k.gaps 0 + k.gaps 1 + k.gaps 2]

/-- The bytes with the times of their arrival. -/
def arrivals : Queue := (k.times t).zip k.enc.bytes

/-- The time of the last byte. -/
def last : ℕ := (k.times t).getD (k.enc.bytes.length - 1) 0

end Stroke

/-- The bytes of some keys. -/
def arrivals : ℕ → List Stroke → Queue
  | _, [] => []
  | t, k :: ks => k.arrivals t ++ arrivals (k.last t) ks

/-- The codes of the keys, each with the bytes of the keys behind it. -/
def expected : ℕ → List Stroke → List (Code × Queue)
  | _, [] => []
  | t, k :: ks => (k.enc.code, arrivals (k.last t) ks) :: expected (k.last t) ks

/-- The time when a key has been read, if its first byte is taken at the time `start`. -/
def Stroke.finish (start t : ℕ) (k : Stroke) : ℕ :=
  if k.enc.isOpen then start + termTimeout else max start (k.last t)

/-- The next byte comes later than the time-out after an open key has been taken. -/
def Clear (start : ℕ) (e : Encoding) (q : Queue) : Prop :=
  e.isOpen → ∀ p ∈ q.head?, start + termTimeout < p.1

/-- After each open key the next byte comes late enough. The calls are made at their times, or when
the call before has returned. -/
def Timely : ℕ → ℕ → List Stroke → List ℕ → Prop
  | now, t, k :: ks, d :: ds =>
      Clear (max (now + d) (t + k.pause)) k.enc (arrivals (k.last t) ks) ∧
        Timely (k.finish (max (now + d) (t + k.pause)) t) (k.last t) ks ds
  | _, _, _, _ => True

/-! ### One key -/

section Keys

variable {now t a : ℕ} {x b : UInt8} {q rest : Queue} {k : Stroke}

theorem recv_of_le (h : a ≤ now + termTimeout) :
    recv now ((a, x) :: q) = (some x, max now a, q) := Arrivals.within_of_le h

theorem recv_of_clear (h : ∀ p ∈ q.head?, now + termTimeout < p.1) :
    recv now q = (none, now + termTimeout, q) := by
  cases q with
  | nil => exact Arrivals.within_nil
  | cons p q => exact Arrivals.within_of_lt (h p rfl)

theorem termGetch_cons :
    termGetch .wait now ((a, x) :: q) =
      some (some (termTranslate x (max now a) q).1, (termTranslate x (max now a) q).2) := rfl

theorem termTranslate_escape : termTranslate 0x1B now q = translateEscape now q := rfl

theorem termTranslate_return : termTranslate 0x0D now q = (.kcEnter, (recv now q).2) := rfl

theorem termTranslate_control (c : Control) :
    termTranslate c.entry.1 now q = (c.entry.2, now, q) := by
  cases c <;> rfl

theorem translateThird_cursor (c : Cursor) :
    translateThird c.entry.1 now q = (c.entry.2, now, q) := by
  cases c <;> rfl

theorem translateThird_extended (e : Extended) (h : a ≤ now + termTimeout) :
    translateThird e.entry.1 now ((a, 0x7E) :: q) = (e.entry.2, max now a, q) := by
  have hnot : ¬(0x41 ≤ e.entry.1 ∧ e.entry.1 ≤ 0x44) := by cases e <;> decide
  have hdigit : 48 < e.entry.1 ∧ e.entry.1 < 55 := by cases e <;> decide
  have hkey : extendedKey e.entry.1 = e.entry.2 := by cases e <;> rfl
  rw [translateThird, if_neg hnot, if_pos hdigit, recv_of_le h]
  dsimp only
  rw [if_neg (not_not.mpr rfl), hkey]

/-- The second and the third byte of a sequence come in time. -/
theorem translateEscape_sequence {a' : ℕ} (h : a ≤ now + termTimeout)
    (h' : a' ≤ max now a + termTimeout) :
    translateEscape now ((a, x) :: (a', b) :: q) = translateThird b (max (max now a) a') q := by
  rw [translateEscape, recv_of_le h]
  dsimp only
  rw [recv_of_le h']

/-- **One key**, which is followed by nothing that could belong to it. -/
theorem termGetch_stroke (hclear : Clear (max now (t + k.pause)) k.enc rest) :
    termGetch .wait now (k.arrivals t ++ rest) =
      some (some k.enc.code, k.finish (max now (t + k.pause)) t, rest) := by
  obtain ⟨enc, pause, gaps, hgaps⟩ := k
  have h0 := hgaps 0
  have h1 := hgaps 1
  have h2 := hgaps 2
  cases enc with
  | char c =>
    change termGetch .wait now ((t + pause, c.1) :: rest) = _
    rw [termGetch_cons, termTranslate, if_pos c.2]
    have hmax : max (max now (t + pause)) (t + pause) = max now (t + pause) := by omega
    change _ = some (some (Code.char c.1), max (max now (t + pause)) (t + pause), rest)
    rw [hmax]
  | cr =>
    change termGetch .wait now ((t + pause, 0x0D) :: rest) = _
    rw [termGetch_cons, termTranslate_return, recv_of_clear (hclear rfl)]
    rfl
  | crLf =>
    change termGetch .wait now ((t + pause, 0x0D) :: (t + pause + gaps 0, 0x0A) :: rest) = _
    rw [termGetch_cons, termTranslate_return, recv_of_le (by omega)]
    rfl
  | esc =>
    change termGetch .wait now ((t + pause, 0x1B) :: rest) = _
    rw [termGetch_cons, termTranslate_escape, translateEscape, recv_of_clear (hclear rfl)]
    rfl
  | cursor c =>
    change termGetch .wait now ((t + pause, 0x1B) :: (t + pause + gaps 0, 0x5B) ::
      (t + pause + gaps 0 + gaps 1, c.entry.1) :: rest) = _
    rw [termGetch_cons, termTranslate_escape, translateEscape_sequence (by omega) (by omega),
      translateThird_cursor]
    have hmax : max (max (max now (t + pause)) (t + pause + gaps 0))
        (t + pause + gaps 0 + gaps 1) =
          max (max now (t + pause)) (t + pause + gaps 0 + gaps 1) := by omega
    rw [hmax]
    rfl
  | extended e =>
    change termGetch .wait now ((t + pause, 0x1B) :: (t + pause + gaps 0, 0x5B) ::
      (t + pause + gaps 0 + gaps 1, e.entry.1) ::
        (t + pause + gaps 0 + gaps 1 + gaps 2, 0x7E) :: rest) = _
    rw [termGetch_cons, termTranslate_escape, translateEscape_sequence (by omega) (by omega),
      translateThird_extended e (by omega)]
    have hmax : max (max (max (max now (t + pause)) (t + pause + gaps 0))
        (t + pause + gaps 0 + gaps 1)) (t + pause + gaps 0 + gaps 1 + gaps 2) =
          max (max now (t + pause)) (t + pause + gaps 0 + gaps 1 + gaps 2) := by omega
    rw [hmax]
    rfl
  | control c =>
    change termGetch .wait now ((t + pause, c.entry.1) :: rest) = _
    rw [termGetch_cons, termTranslate_control]
    have hmax : max (max now (t + pause)) (t + pause) = max now (t + pause) := by omega
    change _ = some (some c.entry.2, max (max now (t + pause)) (t + pause), rest)
    rw [hmax]

theorem translateThird_ne (c : UInt8) : (translateThird c now q).1 ≠ .kcEsc := by
  have hcursor : cursorKey c ≠ .kcEsc := by
    rw [cursorKey]
    split_ifs <;> exact nofun
  have hextended : extendedKey c ≠ .kcEsc := by
    rw [extendedKey]
    split_ifs <;> exact nofun
  rw [translateThird]
  dsimp only
  split_ifs
  · exact hcursor
  · exact nofun
  · exact hextended
  · exact nofun

/-- A byte that comes too early after `ESC` makes another key of it. -/
theorem translateEscape_ne (h : a ≤ now + termTimeout) :
    (translateEscape now ((a, x) :: q)).1 ≠ .kcEsc := by
  rw [translateEscape, recv_of_le h]
  dsimp only
  split
  · exact nofun
  · exact translateThird_ne _

/-- A byte that comes too early after an open key is taken, or makes another key of it. -/
theorem termGetch_ne {fin : ℕ} (h : ¬Clear (max now (t + k.pause)) k.enc rest) :
    termGetch .wait now (k.arrivals t ++ rest) ≠ some (some k.enc.code, fin, rest) := by
  obtain ⟨enc, pause, gaps, hgaps⟩ := k
  rw [Clear] at h
  push Not at h
  obtain ⟨hopen, ⟨a, x⟩, hp, ha⟩ := h
  obtain ⟨q, rfl⟩ := List.head?_eq_some_iff.mp hp
  intro hgetch
  cases enc with
  | cr =>
    change termGetch .wait now ((t + pause, 0x0D) :: (a, x) :: q) = _ at hgetch
    rw [termGetch_cons, termTranslate_return, recv_of_le ha] at hgetch
    have hq : q = (a, x) :: q := congrArg (fun r => r.2.2) (Option.some.inj hgetch)
    exact absurd (congrArg List.length hq) (Nat.lt_succ_self _).ne
  | esc =>
    change termGetch .wait now ((t + pause, 0x1B) :: (a, x) :: q) = _ at hgetch
    rw [termGetch_cons, termTranslate_escape] at hgetch
    have hcode := congrArg (fun r => r.1) (Option.some.inj hgetch)
    exact translateEscape_ne ha (Option.some.inj hcode)
  | char | crLf | cursor | extended | control => exact absurd hopen Bool.false_ne_true

end Keys

/-- **All keys**: the calls return their codes, and each takes the bytes of its key, if and only if
after a carriage return alone and after `ESC` the next byte comes late enough. -/
theorem run_eq_expected_iff (ks : List Stroke) (ds : List ℕ) (now t : ℕ)
    (hcalls : ks.length ≤ ds.length) :
    run ds now (arrivals t ks) = expected t ks ↔ Timely now t ks ds := by
  induction ks generalizing ds now t with
  | nil =>
    cases ds with
    | nil => exact iff_of_true rfl trivial
    | cons d ds => exact iff_of_true rfl trivial
  | cons k ks ih =>
    cases ds with
    | nil => cases hcalls
    | cons d ds =>
      rw [run, arrivals, expected, Timely]
      by_cases hclear : Clear (max (now + d) (t + k.pause)) k.enc (arrivals (k.last t) ks)
      · rw [termGetch_stroke hclear]
        dsimp only
        rw [List.cons.injEq, ih ds _ _ (Nat.le_of_succ_le_succ hcalls)]
        exact and_congr_left fun _ => iff_of_true rfl hclear
      · refine iff_of_false (fun hrun => ?_) fun h => hclear h.1
        split at hrun
        · rename_i hgetch
          obtain ⟨hhead, -⟩ := List.cons.inj hrun
          obtain ⟨rfl, rfl⟩ := Prod.mk.inj hhead
          exact termGetch_ne hclear hgetch
        · cases hrun

theorem head_arrivals (t : ℕ) (k : Stroke) (ks : List Stroke) :
    ∃ b, (arrivals t (k :: ks)).head? = some (t + k.pause, b) := by
  obtain ⟨enc, pause, gaps, hgaps⟩ := k
  cases enc <;> exact ⟨_, rfl⟩

theorem last_of_isOpen {t : ℕ} {k : Stroke} (h : k.enc.isOpen) : k.last t = t + k.pause := by
  obtain ⟨enc, pause, gaps, hgaps⟩ := k
  cases enc with
  | cr => rfl
  | esc => rfl
  | char | crLf | cursor | extended | control => exact absurd h Bool.false_ne_true

theorem le_last (t : ℕ) (k : Stroke) : t + k.pause ≤ k.last t := by
  obtain ⟨enc, pause, gaps, hgaps⟩ := k
  cases enc with
  | char | cr | esc | control => exact le_rfl
  | crLf => exact Nat.le_add_right _ _
  | cursor => exact (Nat.le_add_right _ _).trans (Nat.le_add_right _ _)
  | extended =>
    exact ((Nat.le_add_right _ _).trans (Nat.le_add_right _ _)).trans (Nat.le_add_right _ _)

/-- For a program that does nothing but wait for keys, what counts is the time between the bytes. -/
theorem timely_of_ready {ks : List Stroke} {n now t : ℕ}
    (hpause : ks.IsChain fun k k' => k.enc.isOpen → termTimeout < k'.pause)
    (hnow : ∀ k ∈ ks.head?, now ≤ t + k.pause) : Timely now t ks (List.replicate n 0) := by
  induction ks generalizing n now t with
  | nil => trivial
  | cons k ks ih =>
    cases n with
    | zero => trivial
    | succ n =>
      have hstart : max (now + 0) (t + k.pause) = t + k.pause := max_eq_right (hnow k rfl)
      rw [List.isChain_cons] at hpause
      obtain ⟨hnext, hpause⟩ := hpause
      rw [List.replicate_succ, Timely, hstart]
      refine ⟨fun hopen p hp => ?_, ih hpause fun k' hk' => ?_⟩
      · cases ks with
        | nil => cases hp
        | cons k' ks =>
          obtain ⟨b, hb⟩ := head_arrivals (k.last t) k' ks
          obtain rfl : (_, b) = p := Option.some.inj (hb.symm.trans hp)
          rw [last_of_isOpen hopen]
          exact Nat.add_lt_add_left (hnext k' rfl hopen) _
      · rw [Stroke.finish]
        split_ifs with hopen
        · rw [last_of_isOpen hopen]
          exact Nat.add_le_add_left (hnext k' hk' hopen).le _
        · rw [max_eq_right (le_last t k)]
          exact Nat.le_add_right _ _

/-- A key that is sent at once. -/
def stroke (enc : Encoding) (pause : ℕ) : Stroke := ⟨enc, pause, 0, fun _ => Nat.zero_le _⟩

/-- A carriage return, and a letter after a pause. -/
theorem run_pause :
    run [0, 0] 0 (arrivals 0 [stroke .cr 5, stroke (.char ⟨97, rfl⟩) 100001]) =
      expected 0 [stroke .cr 5, stroke (.char ⟨97, rfl⟩) 100001] :=
  (run_eq_expected_iff [stroke .cr 5, stroke (.char ⟨97, rfl⟩) 100001] [0, 0] 0 0 le_rfl).mpr <|
    timely_of_ready (n := 2)
      (List.isChain_pair.mpr fun _ => (by decide : termTimeout < 100001)) fun _ _ => Nat.zero_le _

/-- **The letter after a carriage return alone is swallowed**, if it is typed at once. -/
theorem run_swallows :
    run [0, 0] 0 (arrivals 0 [stroke .cr 5, stroke (.char ⟨97, rfl⟩) 1]) ≠
      expected 0 [stroke .cr 5, stroke (.char ⟨97, rfl⟩) 1] := by
  decide

end ELuaBrain.Terminal.Decode
