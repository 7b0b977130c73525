import Mathlib.Algebra.Order.Ring.Nat
import Mathlib.Tactic.Common

/-! # Exponential backoff

A loop that waits after every attempt, and doubles the wait up to a cap until an attempt
succeeds. How long it waits is a matter of the attempts since the last success only.
-/
namespace ArbCore

/-- The wait after a success or at first, and the longest one, before anything random. -/
structure Backoff where
  first : ℕ
  cap : ℕ

namespace Backoff
variable {b : Backoff} {spread n : ℕ} {attempts : List Bool} {waits : List ℕ}

def delay (b : Backoff) (n : ℕ) : ℕ := min (b.first * 2 ^ n) b.cap

def next (b : Backoff) (ms : ℕ) : ℕ := min (ms * 2) b.cap

theorem next_delay (b : Backoff) (n : ℕ) : b.next (b.delay n) = b.delay (n + 1) := by
  unfold next delay
  rw [pow_succ, ← mul_assoc]
  omega

/-- The attempts since the last success, which counts as one of them. -/
def sinceSuccess (attempts : List Bool) : ℕ := attempts.foldl (fun n ok => if ok then 1 else n + 1) 0

@[simp] theorem sinceSuccess_success (attempts : List Bool) : sinceSuccess (attempts ++ [true]) = 1 := by
  simp [sinceSuccess]

@[simp] theorem sinceSuccess_failure (attempts : List Bool) :
    sinceSuccess (attempts ++ [false]) = sinceSuccess attempts + 1 := by
  simp [sinceSuccess]

theorem sinceSuccess_pos (h : attempts ≠ []) : 0 < sinceSuccess attempts := by
  obtain ⟨before,ok,rfl⟩ := List.eq_nil_or_concat attempts |>.resolve_left h
  cases ok <;> simp

/-- Every wait is the delay of its attempt and less than `spread` on top of it. -/
structure Waited (b : Backoff) (spread : ℕ) (attempts : List Bool) (waits : List ℕ) : Prop where
  length_le : waits.length ≤ attempts.length
  between : ∀ k w, waits[k]? = some w → b.delay (sinceSuccess (attempts.take (k + 1)) - 1) ≤ w ∧
    w < b.delay (sinceSuccess (attempts.take (k + 1)) - 1) + spread

theorem waited_nil : b.Waited spread [] [] := ⟨le_rfl,fun _ _ h => by cases h⟩

theorem Waited.attempt (h : b.Waited spread attempts waits) (ok : Bool) : b.Waited spread (attempts ++ [ok]) waits := by
  refine ⟨h.length_le.trans (by simp),fun k w hw => ?_⟩
  have hk : k + 1 ≤ attempts.length := (List.getElem?_eq_some_iff.mp hw).1.trans_le h.length_le
  rw [List.take_append_of_le_length hk]
  exact h.between k w hw

theorem Waited.wait (h : b.Waited spread attempts waits) (hlength : waits.length + 1 = attempts.length) {jitter : ℕ}
    (hjitter : jitter < spread) :
    b.Waited spread attempts (waits ++ [b.delay (sinceSuccess attempts - 1) + jitter]) := by
  refine ⟨by simp [hlength],fun k w hw => ?_⟩
  rcases Nat.lt_or_ge k waits.length with hk | hk
  · rw [List.getElem?_append_left hk] at hw
    exact h.between k w hw
  · obtain ⟨hlt,hget⟩ := List.getElem?_eq_some_iff.mp hw
    obtain rfl : k = waits.length := by
      rw [List.length_append, List.length_singleton] at hlt
      omega
    rw [List.getElem_concat_length rfl] at hget
    subst hget
    rw [hlength, List.take_length]
    omega

theorem Waited.bounds (h : b.Waited spread attempts waits) (hfirst : b.first ≤ b.cap) :
    ∀ w ∈ waits, b.first ≤ w ∧ w < b.cap + spread := by
  intro w hw
  obtain ⟨k,hk⟩ := List.mem_iff_getElem?.mp hw
  obtain ⟨hle,hlt⟩ := h.between k w hk
  refine ⟨le_trans (le_min ?_ hfirst) hle,hlt.trans_le (Nat.add_le_add_right (min_le_right _ _) _)⟩
  exact Nat.le_mul_of_pos_right _ (Nat.two_pow_pos _)

end Backoff

end ArbCore
