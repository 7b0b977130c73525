import ArbCore.Library.LabelledRun
import Mathlib.Algebra.Order.BigOperators.Group.Finset

/-! # Systems that come to rest

When every step on some events lowers a measure, a run of such events is no longer than
the measure of its first state, and from each state one leads to a state in which none of
them is enabled.
-/
namespace ArbCore.LabelledRun
variable {S E : Type*} {step : S → E → Option S} {Inv : S → Prop} {P : E → Prop} {μ : S → ℕ}

def AtRest (step : S → E → Option S) (P : E → Prop) (s : S) : Prop := ∀ e, P e → step s e = none

theorem run_length_add_le (hinv : ∀ s e t, Inv s → step s e = some t → Inv t)
    (hlower : ∀ s e t, Inv s → P e → step s e = some t → μ t < μ s) {es : List E} {s u : S} (hs : Inv s)
    (hP : ∀ e ∈ es, P e) (h : run step s es = some u) : es.length + μ u ≤ μ s := by
  induction es generalizing s with
  | nil =>
    cases h
    simp
  | cons e es ih =>
    obtain ⟨t,ht,hu⟩ := run_cons_eq_some.mp h
    obtain ⟨he,hes⟩ := List.forall_mem_cons.mp hP
    have hrest : es.length + μ u ≤ μ t := ih (hinv s e t hs ht) hes hu
    have hlt := hlower s e t hs he ht
    rw [List.length_cons]
    omega

theorem exists_atRest (hinv : ∀ s e t, Inv s → step s e = some t → Inv t)
    (hlower : ∀ s e t, Inv s → P e → step s e = some t → μ t < μ s) {s : S} (hs : Inv s) :
    ∃ u, Reaches step P s u ∧ AtRest step P u := by
  induction hn : μ s using Nat.strong_induction_on generalizing s with
  | h n ih =>
    subst hn
    by_cases hrest : AtRest step P s
    · exact ⟨s,.refl s,hrest⟩
    · simp only [AtRest, not_forall] at hrest
      obtain ⟨e,he,hstep⟩ := hrest
      obtain ⟨t,ht⟩ := Option.ne_none_iff_exists'.mp hstep
      obtain ⟨u,hu,hat⟩ := ih (μ t) (hlower s e t hs he ht) (hinv s e t hs ht) rfl
      exact ⟨u,.head he ht hu,hat⟩

theorem sum_range_add_eq {f g : ℕ → ℕ} {n i : ℕ} (hi : i < n) (h : ∀ j < n, j ≠ i → f j = g j) :
    ∑ j ∈ Finset.range n, f j + g i = ∑ j ∈ Finset.range n, g j + f i := by
  have hmem : i ∈ Finset.range n := Finset.mem_range.mpr hi
  have hrest : ∑ j ∈ (Finset.range n).erase i, f j = ∑ j ∈ (Finset.range n).erase i, g j :=
    Finset.sum_congr rfl fun j hj => h j (Finset.mem_range.mp (Finset.mem_of_mem_erase hj)) (Finset.ne_of_mem_erase hj)
  rw [← Finset.add_sum_erase _ f hmem, ← Finset.add_sum_erase _ g hmem, hrest]
  omega

end ArbCore.LabelledRun
