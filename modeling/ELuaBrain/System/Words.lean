import Mathlib.Data.Nat.Digits.Lemmas
import Mathlib.Data.UInt

/-!
# Words of any number of bytes

The bytes of a word, in either order, and the word with given bytes.

## Main definitions

* `leBytes`, `leNat` : the little-endian bytes of a word, and the word.
* `wordBytes`, `wordOf` : the same for either byte order.

## Main results

* `wordOf_wordBytes` : a word is made up by its bytes.
* `wordBytes_reverse` : the bytes in the one order are those in the other, reversed.
* `wordOf_inj` : different bytes make up different words.
-/

namespace ELuaBrain

/-- The `n` little-endian bytes of a word. -/
def leBytes : ℕ → ℕ → List UInt8
  | 0, _ => []
  | n + 1, x => UInt8.ofNat x :: leBytes n (x / 256)

/-- The word with these little-endian bytes. -/
def leNat (bs : List UInt8) : ℕ := Nat.ofDigits 256 (bs.map UInt8.toNat)

/-- The `n` bytes of a word as they are in memory. -/
def wordBytes (little : Bool) (n x : ℕ) : List UInt8 :=
  if little then leBytes n x else (leBytes n x).reverse

/-- The word with these bytes in memory. -/
def wordOf (little : Bool) (bs : List UInt8) : ℕ := leNat (if little then bs else bs.reverse)

variable {little : Bool} {n x : ℕ} {bs cs : List UInt8} {b : UInt8}

@[simp] theorem leNat_cons : leNat (b :: bs) = b.toNat + 256 * leNat bs := Nat.ofDigits_cons ..

theorem leNat_lt : leNat bs < 256 ^ bs.length := by
  have h : Nat.ofDigits 256 (bs.map UInt8.toNat) < 256 ^ (bs.map UInt8.toNat).length :=
    Nat.ofDigits_lt_base_pow_length (by decide) fun d hd => by
      obtain ⟨b, -, rfl⟩ := List.mem_map.mp hd
      exact b.toNat_lt
  rwa [List.length_map] at h

@[simp] theorem length_leBytes (n x : ℕ) : (leBytes n x).length = n := by
  induction n generalizing x with
  | zero => rfl
  | succ n ih => rw [leBytes, List.length_cons, ih]

theorem leNat_leBytes (h : x < 256 ^ n) : leNat (leBytes n x) = x := by
  induction n generalizing x with
  | zero => exact (Nat.lt_one_iff.mp h).symm
  | succ n ih =>
    have hdiv : x / 256 < 256 ^ n := Nat.div_lt_of_lt_mul (by rwa [Nat.pow_succ'] at h)
    rw [leBytes, leNat_cons, ih hdiv, UInt8.toNat_ofNat', Nat.mod_add_div]

@[simp] theorem length_wordBytes (little : Bool) (n x : ℕ) : (wordBytes little n x).length = n := by
  cases little
  · exact List.length_reverse.trans (length_leBytes n x)
  · exact length_leBytes n x

/-- A word is made up by its bytes. -/
theorem wordOf_wordBytes (h : x < 256 ^ n) : wordOf little (wordBytes little n x) = x := by
  cases little
  · exact (congrArg leNat (List.reverse_reverse _)).trans (leNat_leBytes h)
  · exact leNat_leBytes h

theorem leNat_leBytes_mod (n x : ℕ) : leNat (leBytes n x) = x % 256 ^ n := by
  induction n generalizing x with
  | zero => rw [Nat.pow_zero, Nat.mod_one]; rfl
  | succ n ih =>
    have hpow : 256 ^ (n + 1) = 256 * 256 ^ n := Nat.pow_succ'
    rw [leBytes, leNat_cons, ih, UInt8.toNat_ofNat', hpow]
    exact (Nat.mod_mul ..).symm

/-- A word is made up by its bytes, modulo the bytes that are left out. -/
theorem wordOf_wordBytes_mod (little : Bool) (n x : ℕ) :
    wordOf little (wordBytes little n x) = x % 256 ^ n := by
  cases little
  · exact (congrArg leNat (List.reverse_reverse _)).trans (leNat_leBytes_mod n x)
  · exact leNat_leBytes_mod n x

/-- The bytes in the one order are those in the other, reversed. -/
theorem wordBytes_reverse : (wordBytes little n x).reverse = wordBytes (!little) n x := by
  cases little
  · exact List.reverse_reverse _
  · rfl

theorem wordOf_lt : wordOf little bs < 256 ^ bs.length := by
  cases little
  · exact leNat_lt.trans_eq (by rw [if_neg Bool.false_ne_true, List.length_reverse])
  · exact leNat_lt

theorem leNat_inj (hlen : bs.length = cs.length) (h : leNat bs = leNat cs) : bs = cs := by
  have hdigit : ∀ as : List UInt8, ∀ d ∈ as.map UInt8.toNat, d < 256 := fun as d hd => by
    obtain ⟨b, -, rfl⟩ := List.mem_map.mp hd
    exact b.toNat_lt
  have hmap :=
      Nat.ofDigits_inj_of_len_eq (by decide) (by rw [List.length_map, List.length_map, hlen])
    (hdigit bs) (hdigit cs) h
  exact List.map_injective_iff.mpr (fun _ _ => UInt8.toNat_inj.mp) hmap

/-- Words of as many bytes with the same value have the same bytes. -/
theorem wordOf_inj (hlen : bs.length = cs.length) (h : wordOf little bs = wordOf little cs) :
    bs = cs := by
  cases little
  · exact List.reverse_injective (leNat_inj (by simpa using hlen) h)
  · exact leNat_inj hlen h

end ELuaBrain
