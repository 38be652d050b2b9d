import Mathlib.Data.List.Basic

/-!
# Strings in C

A pointer into a buffer is given by the bytes from it to the end of the buffer. A function that
reads on to the end of the string has no result if the buffer ends before.

## Main definitions

* `strlen`, `strchr` : the functions of C.
* `cstr` : a string, and the bytes behind it.
* `chars` : the characters of a text.

## Main results

* `strlen_eq`, `strchr_eq_some`, `cstr_eq` : strings in a buffer.
-/

namespace ELuaBrain

/-- `strlen`. -/
def strlen : List UInt8 → Option ℕ
  | [] => none
  | c :: cs => if c = 0 then some 0 else (strlen cs).map (· + 1)

/-- `strchr`, with the distance to the character that is found. -/
def strchr (c : UInt8) : List UInt8 → Option (Option ℕ)
  | [] => none
  | x :: xs => if x = c then some (some 0) else if x = 0 then some none
      else (strchr c xs).map (Option.map (· + 1))

/-- A string, and what is behind the end of it. -/
def cstr (p : List UInt8) : Option (List UInt8 × List UInt8) :=
  (strlen p).map fun n => (p.take n, p.drop (n + 1))

/-- The characters of a text. -/
def chars (text : String) : List UInt8 := text.toList.map fun c => UInt8.ofNat c.toNat

variable {s rest : List UInt8} {c : UInt8}

theorem strlen_eq (rest : List UInt8) (hs : 0 ∉ s) : strlen (s ++ 0 :: rest) = some s.length := by
  induction s with
  | nil => rfl
  | cons c s ih =>
    obtain ⟨hc, hs⟩ := not_or.mp (mt List.mem_cons.mpr hs)
    rw [List.cons_append, strlen, if_neg (Ne.symm hc), ih hs, List.length_cons]
    rfl

theorem strchr_eq_some (rest : List UInt8) (hs : 0 ∉ s) (hnot : c ∉ s) :
    strchr c (s ++ c :: rest) = some (some s.length) := by
  induction s with
  | nil => rw [List.nil_append, strchr, if_pos rfl, List.length_nil]
  | cons x s ih =>
    obtain ⟨hx, hs⟩ := not_or.mp (mt List.mem_cons.mpr hs)
    obtain ⟨hxc, hnot⟩ := not_or.mp (mt List.mem_cons.mpr hnot)
    rw [List.cons_append, strchr, if_neg (Ne.symm hxc), if_neg (Ne.symm hx), ih hs hnot]
    rfl

theorem cstr_eq (rest : List UInt8) (hs : 0 ∉ s) : cstr (s ++ 0 :: rest) = some (s, rest) := by
  rw [cstr, strlen_eq rest hs, Option.map_some]
  simp [List.drop_append]

end ELuaBrain
