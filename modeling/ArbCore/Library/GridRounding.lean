import Mathlib.Algebra.Order.Floor.Ring
import Mathlib.Algebra.Order.Field.Basic
import Mathlib.Order.Bounds.Basic
import Mathlib.Tactic.Linarith
import Mathlib.Tactic.Positivity

/-! # Rounding down to a grid and raising to a minimum

Rounding down takes the greatest multiple of a positive step that is not above a
value, and a step that is not positive rounds nothing. It is monotone, idempotent and
never raises a value, and a minimum imposed afterwards spoils neither of the first two.
-/
namespace ArbCore.GridRounding

section Grid
variable {F : Type*} [Field F] [LinearOrder F] [IsStrictOrderedRing F] [FloorRing F] {step q r : F}

def roundDown (step q : F) : F := if 0 < step then ⌊q / step⌋ * step else q

theorem roundDown_le (step q : F) : roundDown step q ≤ q := by
  unfold roundDown
  split
  · rename_i hstep
    exact (le_div_iff₀ hstep).mp (Int.floor_le _)
  · exact le_rfl

theorem isGreatest_roundDown (hstep : 0 < step) (q : F) :
    IsGreatest {x | (∃ k : ℤ, x = k * step) ∧ x ≤ q} (roundDown step q) := by
  refine ⟨⟨⟨⌊q / step⌋,by rw [roundDown, if_pos hstep]⟩,roundDown_le step q⟩,?_⟩
  rintro _ ⟨⟨k,rfl⟩,hk⟩
  have hfloor : k ≤ ⌊q / step⌋ := Int.le_floor.mpr ((le_div_iff₀ hstep).mpr hk)
  rw [roundDown, if_pos hstep]
  exact mul_le_mul_of_nonneg_right (by exact_mod_cast hfloor) hstep.le

theorem roundDown_mono (step : F) : Monotone (roundDown step) := by
  intro q r hqr
  unfold roundDown
  split
  · rename_i hstep
    have hfloor : ⌊q / step⌋ ≤ ⌊r / step⌋ := Int.floor_mono (div_le_div_of_nonneg_right hqr hstep.le)
    exact mul_le_mul_of_nonneg_right (by exact_mod_cast hfloor) hstep.le
  · exact hqr

theorem roundDown_roundDown (step q : F) : roundDown step (roundDown step q) = roundDown step q := by
  by_cases hstep : 0 < step
  · have hgrid := (isGreatest_roundDown hstep q).1.1
    exact le_antisymm (roundDown_le _ _) ((isGreatest_roundDown hstep _).2 ⟨hgrid,le_rfl⟩)
  · simp only [roundDown, if_neg hstep]

theorem roundDown_nonneg (step : F) (hq : 0 ≤ q) : 0 ≤ roundDown step q := by
  by_cases hstep : 0 < step
  · exact (isGreatest_roundDown hstep q).2 ⟨⟨0,by simp⟩,hq⟩
  · rwa [roundDown, if_neg hstep]

end Grid

theorem max_idem {α : Type*} [LinearOrder α] {f : α → α} (hmono : Monotone f)
    (hidem : ∀ x, f (f x) = f x) {m : α} (hm : f m ≤ m) (x : α) :
    max (f (max (f x) m)) m = max (f x) m := by
  rw [hmono.map_max, hidem, max_assoc, max_eq_right hm]

end ArbCore.GridRounding
