import Mathlib.Data.Nat.ModEq

/-!
# Queues in a ring of slots

A queue that is stored in a ring: its elements are in consecutive slots from the one at the reading
end on, modulo the number of slots. The slots may be anything that can be read by its number.

## Main definitions

* `Ring.Holds` : a ring of slots that holds a queue.

## Main results

* `Ring.Holds.push`, `Ring.Holds.pop` : writing behind the last element and reading the first one.
* `Ring.Holds.drop` : reading the first element and writing to its slot.
* `Ring.Holds.append`, `Ring.Holds.advance` : the same for several elements.
-/

namespace ELuaBrain.Ring

variable {α : Type*} {K r : ℕ} {slot slot' : ℕ → α} {q : List α} {a : α}

/-- The `K` slots hold the queue `q`, whose first element is in the slot `r`. -/
structure Holds (K : ℕ) (slot : ℕ → α) (r : ℕ) (q : List α) : Prop where
  lt : r < K
  length_le : q.length ≤ K
  get : ∀ i (h : i < q.length), slot ((r + i) % K) = q[i]

theorem Holds.nil (h : r < K) : Holds K slot r [] :=
  ⟨h, Nat.zero_le _, fun i hi => absurd hi (Nat.not_lt_zero i)⟩

/-- Different places of the queue are in different slots. -/
theorem mod_add_ne {i j : ℕ} (hij : i < j) (hj : j < K) : (r + i) % K ≠ (r + j) % K := by
  intro h
  have hmod : i % K = j % K := Nat.ModEq.add_left_cancel' r h
  rw [Nat.mod_eq_of_lt (hij.trans hj), Nat.mod_eq_of_lt hj] at hmod
  exact hij.ne hmod

/-- **Writing.** The slot behind the last element gets a new one, and the others are left alone. -/
theorem Holds.push (h : Holds K slot r q) (hlen : q.length < K)
    (hnew : slot' ((r + q.length) % K) = a)
    (hold : ∀ k < K, k ≠ (r + q.length) % K → slot' k = slot k) : Holds K slot' r (q ++ [a]) := by
  refine ⟨h.lt, ?_, fun i hi => ?_⟩
  · rw [List.length_append, List.length_singleton]
    exact hlen
  · rw [List.length_append, List.length_singleton] at hi
    rcases Nat.lt_succ_iff_lt_or_eq.mp hi with hi | rfl
    · rw [hold _ (Nat.mod_lt _ (Nat.zero_lt_of_lt hlen)) (mod_add_ne hi hlen),
        List.getElem_append_left hi]
      exact h.get i hi
    · rw [hnew, List.getElem_append_right (Nat.le_refl _)]
      simp only [Nat.sub_self, List.getElem_cons_zero]

/-- **Reading.** The first element is in the slot at the reading end. -/
theorem Holds.head (h : Holds K slot r (a :: q)) : slot r = a := by
  have hget := h.get 0 (Nat.zero_lt_succ _)
  rwa [Nat.add_zero, Nat.mod_eq_of_lt h.lt, List.getElem_cons_zero] at hget

/-- The other elements are held from the next slot on. -/
theorem Holds.pop (h : Holds K slot r (a :: q)) : Holds K slot ((r + 1) % K) q := by
  have hlen := h.length_le
  rw [List.length_cons] at hlen
  refine ⟨Nat.mod_lt _ (by omega), by omega, fun i hi => ?_⟩
  have hget := h.get (i + 1) (Nat.succ_lt_succ hi)
  rw [List.getElem_cons_succ] at hget
  rw [Nat.mod_add_mod, ← hget, Nat.add_right_comm, Nat.add_assoc]

/-- The slot of the first element may be written to once it has been read. -/
theorem Holds.drop (h : Holds K slot r (a :: q)) (hold : ∀ k < K, k ≠ r → slot' k = slot k) :
    Holds K slot' ((r + 1) % K) q := by
  have hpop := h.pop
  have hlen := h.length_le
  rw [List.length_cons] at hlen
  refine ⟨hpop.lt, hpop.length_le, fun i hi => ?_⟩
  rw [← hpop.get i hi]
  refine hold _ (Nat.mod_lt _ (by omega)) fun heq => ?_
  rw [Nat.mod_add_mod, Nat.add_assoc, Nat.add_comm 1] at heq
  refine mod_add_ne (r := r) (Nat.zero_lt_succ i) (by omega : i + 1 < K) ?_
  rw [heq, Nat.add_zero, Nat.mod_eq_of_lt h.lt]

/-! ### Several elements -/

theorem Holds.append {q' : List α} (h : Holds K slot r q) (hlen : q.length + q'.length ≤ K)
    (hnew : ∀ i (hi : i < q'.length), slot' ((r + (q.length + i)) % K) = q'[i])
    (hold : ∀ i < q.length, slot' ((r + i) % K) = slot ((r + i) % K)) :
    Holds K slot' r (q ++ q') := by
  refine ⟨h.lt, ?_, fun i hi => ?_⟩
  · rw [List.length_append]
    exact hlen
  · rcases Nat.lt_or_ge i q.length with hlt | hge
    · rw [hold i hlt, List.getElem_append_left hlt]
      exact h.get i hlt
    · rw [List.length_append] at hi
      obtain ⟨j, rfl⟩ := Nat.exists_eq_add_of_le hge
      rw [hnew j (Nat.lt_of_add_lt_add_left hi), List.getElem_append_right hge]
      simp only [Nat.add_sub_cancel_left]

theorem Holds.advance (h : Holds K slot r q) (n : ℕ) :
    Holds K slot ((r + n) % K) (q.drop n) := by
  refine ⟨Nat.mod_lt _ (Nat.zero_lt_of_lt h.lt), ?_, fun i hi => ?_⟩
  · rw [List.length_drop]
    exact (Nat.sub_le _ _).trans h.length_le
  · rw [List.length_drop] at hi
    rw [Nat.mod_add_mod, Nat.add_assoc, h.get (n + i) (Nat.add_lt_of_lt_sub' hi),
      List.getElem_drop]

end ELuaBrain.Ring
