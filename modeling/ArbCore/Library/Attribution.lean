import Mathlib.Data.List.Forall2
import Mathlib.Order.Lattice
import Mathlib.Tactic.Common

/-! # Attributing outputs to inputs

A task takes its inputs one at a time and makes at most so many outputs of each. Then the
outputs stand for inputs at positions that never fall, none of them used too often.
-/
namespace ArbCore
variable {α β γ : Type*} {R : α → β → Prop} {k left : ℕ} {inputs : List α} {outputs : List β}

/-- Positions of the inputs that the outputs come from, in the order of the outputs. -/
structure AttributedAt (R : α → β → Prop) (k : ℕ) (inputs : List α) (outputs : List β) (positions : List ℕ) :
    Prop where
  ordered : positions.Pairwise (· ≤ ·)
  made : List.Forall₂ (fun i b => ∃ a, inputs[i]? = some a ∧ R a b) positions outputs
  atMost : ∀ i, positions.count i ≤ k

/-- In addition `left` more outputs may come from the last input. -/
def Attributed (R : α → β → Prop) (k : ℕ) (inputs : List α) (outputs : List β) (left : ℕ) : Prop :=
  ∃ positions, AttributedAt R k inputs outputs positions ∧ positions.count (inputs.length - 1) + left ≤ k

namespace AttributedAt
variable {positions : List ℕ}

theorem lt_length (h : AttributedAt R k inputs outputs positions) : ∀ i ∈ positions, i < inputs.length := by
  obtain ⟨-,hmade,-⟩ := h
  induction hmade with
  | nil => nofun
  | cons hi _ ih =>
    obtain ⟨a,ha,-⟩ := hi
    exact List.forall_mem_cons.mpr ⟨(List.getElem?_eq_some_iff.mp ha).1,ih⟩

/-- Inputs that are themselves drawn in order from a log lead back to the log. -/
theorem trans (h : AttributedAt R k inputs outputs positions) {S : γ → α → Prop} {log : List γ} {drawn : List ℕ}
    (hlt : drawn.Pairwise (· < ·)) (hdrawn : List.Forall₂ (fun i a => ∃ c, log[i]? = some c ∧ S c a) drawn inputs) :
    ∃ positions, AttributedAt (fun c b => ∃ a, S c a ∧ R a b) k log outputs positions := by
  have hlength : drawn.length = inputs.length := hdrawn.length_eq
  have hget : ∀ i ∈ positions, i < drawn.length := fun i hi => hlength ▸ h.lt_length i hi
  have hmono : ∀ i j : ℕ, i < drawn.length → j < drawn.length → (drawn[i]?.getD 0 < drawn[j]?.getD 0 ↔ i < j) := by
    intro i j hi hj
    rw [List.getElem?_eq_getElem hi, List.getElem?_eq_getElem hj, Option.getD_some, Option.getD_some]
    have hstrict := List.pairwise_iff_getElem.mp hlt
    rcases lt_trichotomy i j with hij | rfl | hij
    · exact iff_of_true (hstrict i j hi hj hij) hij
    · exact iff_of_false (lt_irrefl _) (lt_irrefl _)
    · exact iff_of_false (hstrict j i hj hi hij).not_gt hij.not_gt
  refine ⟨positions.map fun i => drawn[i]?.getD 0,?_,?_,fun i => ?_⟩
  · refine List.pairwise_map.mpr (h.ordered.imp_of_mem fun {i j} hi hj hle => ?_)
    exact not_lt.mp fun hlt => not_lt.mpr hle ((hmono j i (hget j hj) (hget i hi)).mp hlt)
  · refine List.forall₂_map_left_iff.mpr (h.made.imp fun i b hi => ?_)
    obtain ⟨a,ha,hR⟩ := hi
    obtain ⟨hi,rfl⟩ := List.getElem?_eq_some_iff.mp ha
    have hi' : i < drawn.length := hlength.symm ▸ hi
    obtain ⟨c,hc,hS⟩ := hdrawn.get hi' hi
    refine ⟨c,?_,_,hS,hR⟩
    rw [List.getElem?_eq_getElem hi', Option.getD_some]
    exact hc
  · rw [List.count, List.countP_map]
    by_cases hi : ∃ j ∈ positions, drawn[j]?.getD 0 = i
    · obtain ⟨j,hj,rfl⟩ := hi
      refine le_trans (List.countP_mono_left fun l hl heq => ?_) (h.atMost j)
      have heq : drawn[l]?.getD 0 = drawn[j]?.getD 0 := by simpa using heq
      have hl' := hget l hl
      have hj' := hget j hj
      have hle : l = j := le_antisymm (not_lt.mp fun hlt => ((hmono j l hj' hl').mpr hlt).ne heq.symm)
        (not_lt.mp fun hlt => ((hmono l j hl' hj').mpr hlt).ne heq)
      simp [hle]
    · rw [List.countP_eq_zero.mpr fun j hj heq => hi ⟨j,hj,by simpa using heq⟩]
      exact Nat.zero_le k

end AttributedAt

namespace Attributed

theorem nil (hleft : left ≤ k) : Attributed R k [] [] left :=
  ⟨[],⟨.nil,.nil,fun _ => Nat.zero_le k⟩,by simpa using hleft⟩

theorem mono (h : Attributed R k inputs outputs left) {left' : ℕ} (hle : left' ≤ left) :
    Attributed R k inputs outputs left' := by
  obtain ⟨positions,hat,hcount⟩ := h
  exact ⟨positions,hat,(Nat.add_le_add_left hle _).trans hcount⟩

theorem input (h : Attributed R k inputs outputs left) (a : α) : Attributed R k (inputs ++ [a]) outputs k := by
  obtain ⟨positions,hat,-⟩ := h
  refine ⟨positions,⟨hat.ordered,hat.made.imp fun i b hi => ?_,hat.atMost⟩,?_⟩
  · obtain ⟨a',ha',hR⟩ := hi
    exact ⟨a',(List.getElem?_append_left (List.getElem?_eq_some_iff.mp ha').1).trans ha',hR⟩
  · have hzero : positions.count inputs.length = 0 :=
      List.count_eq_zero.mpr fun hmem => (hat.lt_length _ hmem).false
    rw [List.length_append, List.length_singleton, Nat.add_sub_cancel, hzero, Nat.zero_add]

theorem output (h : Attributed R k inputs outputs (left + 1)) {a : α} {b : β} (ha : inputs.getLast? = some a)
    (hR : R a b) : Attributed R k inputs (outputs ++ [b]) left := by
  obtain ⟨positions,hat,hcount⟩ := h
  have hlast : inputs[inputs.length - 1]? = some a := by rwa [← List.getLast?_eq_getElem?]
  have hlt : ∀ i ∈ positions, i ≤ inputs.length - 1 := fun i hi => Nat.le_sub_one_of_lt (hat.lt_length i hi)
  have hmore : ∀ i, (positions ++ [inputs.length - 1]).count i =
      positions.count i + if inputs.length - 1 = i then 1 else 0 := by
    intro i
    rw [List.count_append, List.count_singleton]
    simp
  refine ⟨positions ++ [inputs.length - 1],⟨?_,?_,fun i => ?_⟩,?_⟩
  · refine List.pairwise_append.mpr ⟨hat.ordered,List.pairwise_singleton _ _,fun i hi j hj => ?_⟩
    exact List.mem_singleton.mp hj ▸ hlt i hi
  · exact List.rel_append hat.made (.cons ⟨a,hlast,hR⟩ .nil)
  · rw [hmore]
    split_ifs with hi
    · subst hi
      omega
    · exact hat.atMost i
  · rw [hmore, if_pos rfl]
    omega

theorem append {more : List β} (h : Attributed R k inputs outputs (more.length + left))
    (hmore : ∀ b ∈ more, ∃ a, inputs.getLast? = some a ∧ R a b) :
    Attributed R k inputs (outputs ++ more) left := by
  induction more generalizing outputs with
  | nil =>
    rw [List.append_nil]
    exact h.mono (Nat.le_add_left _ _)
  | cons b more ih =>
    obtain ⟨⟨a,ha,hR⟩,hmore⟩ := List.forall_mem_cons.mp hmore
    have hb : Attributed R k inputs (outputs ++ [b]) (more.length + left) :=
      Attributed.output (h.mono (by simp only [List.length_cons]; omega)) ha hR
    rw [List.append_cons]
    exact ih hb hmore

end Attributed

end ArbCore
