import Mathlib.Algebra.Order.Group.Nat
import Mathlib.Order.Lattice
import Mathlib.Tactic.Ring

/-!
# Things that arrive

A queue of things with the times of their arrival. What has arrived can be taken at any time after.
Taking the next thing is either waited for as long as it needs, or polled for some time.

## Main definitions

* `Arrivals.poll` : one look at the queue.
* `Arrivals.within` : polling until something is there, for a number of units of time.
* `Arrivals.await` : waiting.

## Main results

* `within_of_le`, `within_of_lt` : what polling finds, and when it ends.
-/

namespace ELuaBrain.Arrivals

variable {α : Type*} {n now a : ℕ} {x : α} {q : List (ℕ × α)}

/-- The first thing of a queue, if it has arrived. -/
def poll (now : ℕ) : List (ℕ × α) → Option (α × List (ℕ × α))
  | [] => none
  | (a, x) :: q => if a ≤ now then some (x, q) else none

/-- Polling once in each unit of time until something is there, and once more at the end of the
time. The result has the time when it ends. -/
def within : ℕ → ℕ → List (ℕ × α) → Option α × ℕ × List (ℕ × α)
  | 0, now, q => (poll now q).elim (none, now, q) fun r => (some r.1, now, r.2)
  | n + 1, now, q => (poll now q).elim (within n (now + 1) q) fun r => (some r.1, now, r.2)

/-- Waiting for the next thing. There is no result if nothing comes. -/
def await (now : ℕ) : List (ℕ × α) → Option (α × ℕ × List (ℕ × α))
  | [] => none
  | (a, x) :: q => some (x, max now a, q)

theorem within_of_poll {r : α × List (ℕ × α)} (h : poll now q = some r) :
    within n now q = (some r.1, now, r.2) := by
  cases n <;> rw [within, h] <;> rfl

theorem within_succ (h : poll now q = none) : within (n + 1) now q = within n (now + 1) q := by
  rw [within, h]
  rfl

theorem poll_of_le (h : a ≤ now) : poll now ((a, x) :: q) = some (x, q) := if_pos h

theorem poll_of_lt (h : now < a) : poll now ((a, x) :: q) = none := if_neg (not_le.mpr h)

theorem within_nil : within n now ([] : List (ℕ × α)) = (none, now + n, []) := by
  induction n generalizing now with
  | zero => rfl
  | succ n ih =>
    rw [within_succ rfl, ih]
    ring_nf

/-- The next thing arrives in time. -/
theorem within_of_le (h : a ≤ now + n) :
    within n now ((a, x) :: q) = (some x, max now a, q) := by
  induction n generalizing now with
  | zero =>
    have hnow : a ≤ now := h
    rw [within_of_poll (poll_of_le hnow), max_eq_left hnow]
  | succ n ih =>
    by_cases hnow : a ≤ now
    · rw [within_of_poll (poll_of_le hnow), max_eq_left hnow]
    · have hlt : now < a := not_le.mp hnow
      rw [within_succ (poll_of_lt hlt), ih (by omega), max_eq_right hlt.le, max_eq_right hlt]

/-- The next thing arrives too late. -/
theorem within_of_lt (h : now + n < a) :
    within n now ((a, x) :: q) = (none, now + n, (a, x) :: q) := by
  induction n generalizing now with
  | zero =>
    have hnow : now < a := h
    rw [within, poll_of_lt hnow]
    rfl
  | succ n ih =>
    rw [within_succ (poll_of_lt (by omega)), ih (by omega)]
    ring_nf

end ELuaBrain.Arrivals
