import ELuaBrain.System.Ring
import Mathlib.Algebra.BigOperators.Group.List.Basic

/-!
# Moving windows

The last `N` elements of a list that grows, with a filler where there are fewer, and the ring that
keeps them: each new element replaces the oldest one. The sum of the ring can be kept up to date.

## Main definitions

* `window` : the last elements of a list.

## Main results

* `Ring.Holds.replace` : the step of a ring that keeps a window.
* `sum_set_add` : the sum of a list after a replacement.
-/

namespace ELuaBrain

variable {α : Type*} {N : ℕ} {z a : α} {l : List α}

/-- The last `N` elements of `l`, after as many `z` as are missing. -/
def window (N : ℕ) (z : α) (l : List α) : List α := (List.replicate N z ++ l).drop l.length

theorem window_nil : window N z [] = List.replicate N z := by
  rw [window, List.append_nil, List.length_nil, List.drop_zero]

theorem length_window : (window N z l).length = N := by
  rw [window, List.length_drop, List.length_append, List.length_replicate, Nat.add_sub_cancel]

theorem window_concat (hN : 0 < N) : window N z (l ++ [a]) = (window N z l).tail ++ [a] := by
  rw [window, window, List.length_append, List.length_singleton, ← List.append_assoc,
    List.tail_drop, List.drop_append_of_le_length]
  rw [List.length_append, List.length_replicate]
  omega

/-- With enough elements there is nothing to be filled. -/
theorem window_eq_drop (h : N ≤ l.length) : window N z l = l.drop (l.length - N) := by
  rw [window, List.drop_append, List.drop_eq_nil_of_le, List.nil_append, List.length_replicate]
  rwa [List.length_replicate]

/-- **The step of a window.** A full ring gets a new last element in the place of the first one. -/
theorem Ring.Holds.replace {K r : ℕ} {slot slot' : ℕ → α} {q : List α} {c : α}
    (h : Holds K slot r (a :: q)) (hlen : q.length + 1 = K) (hnew : slot' r = c)
    (hold : ∀ k < K, k ≠ r → slot' k = slot k) : Holds K slot' ((r + 1) % K) (q ++ [c]) := by
  have hlast : ((r + 1) % K + q.length) % K = r := by
    rw [Nat.mod_add_mod, Nat.add_assoc, Nat.add_comm 1, hlen, Nat.add_mod_right,
      Nat.mod_eq_of_lt h.lt]
  have hlt : q.length < K := by omega
  exact h.pop.push hlt (by rw [hlast]; exact hnew) (by rw [hlast]; exact hold)

/-- The sum after a replacement. -/
theorem sum_set_add {l : List ℕ} {i : ℕ} (hi : i < l.length) (v : ℕ) :
    (l.set i v).sum + l[i] = l.sum + v := by
  rw [List.sum_set, if_pos hi, ← List.sum_take_add_sum_drop l i, List.drop_eq_getElem_cons hi,
    List.sum_cons]
  omega

end ELuaBrain
