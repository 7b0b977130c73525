import Mathlib.Data.List.Forall2
import Mathlib.Tactic.Common

/-! # Bounded channels

A channel with one sender, a fixed capacity and first-in first-out order. A send that
fails leaves the channel as it is. What was received followed by what is queued can
only grow at its end.
-/
namespace ArbCore

structure BoundedChannel (α : Type*) (capacity : ℕ) where
  queue : List α
  closed : Bool
  bounded : queue.length ≤ capacity

namespace BoundedChannel
variable {α : Type*} {capacity : ℕ}

inductive TrySendError where
  | full
  | closed
deriving DecidableEq

def new : BoundedChannel α capacity := ⟨[],false,Nat.zero_le capacity⟩

def trySend (c : BoundedChannel α capacity) (a : α) : Except TrySendError (BoundedChannel α capacity) :=
  if c.closed then .error .closed
  else if h : c.queue.length < capacity then
    .ok ⟨c.queue ++ [a],c.closed,by rw [List.length_append]; exact h⟩
  else .error .full

def recv (c : BoundedChannel α capacity) : Option (α × BoundedChannel α capacity) :=
  match c with
  | ⟨[],_,_⟩ => none
  | ⟨a :: rest,closed,bounded⟩ => some (a,⟨rest,closed,Nat.le_of_succ_le bounded⟩)

def close (c : BoundedChannel α capacity) : BoundedChannel α capacity := { c with closed := true }

def dropReceiver (_ : BoundedChannel α capacity) : BoundedChannel α capacity :=
  ⟨[],true,Nat.zero_le capacity⟩

variable {c d : BoundedChannel α capacity} {a : α}

theorem trySend_eq_ok (h : c.trySend a = .ok d) : d.queue = c.queue ++ [a] := by
  unfold trySend at h
  split_ifs at h
  cases h
  rfl

theorem recv_eq_some (h : c.recv = some (a,d)) : c.queue = a :: d.queue := by
  unfold recv at h
  split at h
  · cases h
  · cases h
    rfl

/-- A list drawn in order from what a log yields sits at increasing positions of the log. -/
theorem exists_positions {β : Type*} {log : List β} {f : β → Option α} {xs : List α}
    (h : xs.Sublist (log.filterMap f)) :
    ∃ positions : List ℕ, positions.Pairwise (· < ·) ∧
      List.Forall₂ (fun i x => ∃ b, log[i]? = some b ∧ f b = some x) positions xs := by
  induction log generalizing xs with
  | nil =>
    cases List.sublist_nil.mp h
    exact ⟨[],.nil,.nil⟩
  | cons b log ih =>
    have hshift : ∀ ys : List α, ys.Sublist (log.filterMap f) → ∃ positions : List ℕ,
        (∀ i ∈ positions, 0 < i) ∧ positions.Pairwise (· < ·) ∧
        List.Forall₂ (fun i x => ∃ c, (b :: log)[i]? = some c ∧ f c = some x) positions ys := by
      intro ys hys
      obtain ⟨positions,hlt,hpositions⟩ := ih hys
      refine ⟨positions.map Nat.succ,?_,?_,?_⟩
      · simp
      · exact List.pairwise_map.mpr (hlt.imp Nat.succ_lt_succ)
      · exact List.forall₂_map_left_iff.mpr hpositions
    cases hf : f b with
    | none =>
      rw [List.filterMap_cons_none hf] at h
      obtain ⟨positions,-,hlt,hpositions⟩ := hshift xs h
      exact ⟨positions,hlt,hpositions⟩
    | some y =>
      rw [List.filterMap_cons_some hf] at h
      cases h with
      | cons _ h =>
        obtain ⟨positions,-,hlt,hpositions⟩ := hshift xs h
        exact ⟨positions,hlt,hpositions⟩
      | cons_cons _ h =>
        obtain ⟨positions,hpos,hlt,hpositions⟩ := hshift _ h
        exact ⟨0 :: positions,.cons hpos hlt,.cons ⟨b,rfl,hf⟩ hpositions⟩

end BoundedChannel

end ArbCore
