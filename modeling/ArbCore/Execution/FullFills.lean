import ArbCore.Execution.TakerPlans
import ArbCore.Strategy.Reports

/-! # A plan under full fills in order

The first fills of a taker plan fill its first legs, and the last one ends it: a leg
that is not filled yet lacks its whole quantity, which is positive.
-/
namespace ArbCore

namespace TradePlan
variable {plan : TradePlan} {k : ℕ} {leg : OrderLeg}

def filledTo (plan : TradePlan) (k : ℕ) : List Decimal :=
  plan.legs.mapIdx fun i leg => if i < k then leg.qty else 0

theorem filledTo_zero (plan : TradePlan) : plan.filledTo 0 = List.replicate plan.legs.length 0 := by
  refine List.ext_getElem (by simp [filledTo]) fun i hi hi' => ?_
  simp [filledTo]

theorem filledTo_modify (hleg : plan.legs[k]? = some leg) :
    (plan.filledTo k).modify k (fun filled => saturatingAdd filled leg.qty) = plan.filledTo (k + 1) := by
  refine List.ext_getElem? fun i => ?_
  simp only [filledTo, List.getElem?_modify, List.getElem?_mapIdx]
  cases hi : plan.legs[i]? with
  | none => rfl
  | some l =>
    by_cases hik : k = i
    · subst hik
      cases hleg.symm.trans hi
      simp [saturatingAdd]
    · have hlt : i < k + 1 ↔ i < k := by omega
      simp [hik, hlt]

theorem allLegged_filledTo (hpos : ∀ leg ∈ plan.legs, 0 < leg.qty) (k now t : ℕ) :
    InFlightPlan.allLegged ⟨plan,plan.filledTo k,now,t⟩ = decide (plan.legs.length ≤ k) := by
  rw [Bool.eq_iff_iff, decide_eq_true_eq]
  simp only [InFlightPlan.allLegged, List.all_eq_true, decide_eq_true_eq]
  constructor
  · intro hall
    by_contra hk
    have hlt : k < plan.legs.length := not_le.mp hk
    have hfill : (plan.filledTo k)[k]? = some 0 := by
      simp [filledTo, List.getElem?_mapIdx, List.getElem?_eq_getElem hlt]
    have hmem : ((0 : Decimal),plan.legs[k]) ∈ (plan.filledTo k).zip plan.legs := by
      refine List.mem_of_getElem? (i := k) ?_
      rw [List.getElem?_zip_eq_some]
      exact ⟨hfill,List.getElem?_eq_getElem hlt⟩
    exact absurd (hall _ hmem) (not_le.mpr (hpos _ (List.getElem_mem hlt)))
  · rintro hk ⟨filled,leg⟩ hmem
    obtain ⟨i,hi⟩ := List.mem_iff_getElem?.mp hmem
    obtain ⟨hfill,hleg⟩ := List.getElem?_zip_eq_some.mp hi
    have hik : i < k := (List.getElem?_eq_some_iff.mp hleg).1.trans_le hk
    simp only [filledTo, List.getElem?_mapIdx, hleg, Option.map_some, if_pos hik, Option.some.injEq] at hfill
    exact hfill.le

/-- The plan in flight after the first `k` full fills, if it still is. -/
theorem foldl_fullFills (htaker : plan.Taker) (hlegs : 0 < plan.legs.length) (hbyte : plan.legs.length ≤ 256)
    (cfg : StrategyConfig) (now : Instant) {k : ℕ} (hk : k ≤ plan.legs.length) :
    (plan.fullFills.take k).foldl (fun o r => o.bind (·.react r)) (some (InFlightPlan.register cfg plan now)) =
      if k < plan.legs.length then some ⟨plan,plan.filledTo k,now,cfg.orderTimeoutMs⟩ else none := by
  induction k with
  | zero =>
    rw [if_pos hlegs, filledTo_zero]
    rfl
  | succ k ih =>
    have hlt : k < plan.legs.length := hk
    have hleg : plan.legs[k]? = some plan.legs[k] := List.getElem?_eq_getElem hlt
    have hreport : plan.fullFills[k]? = some (plan.fullFill plan.legs[k]) := by
      rw [fullFills, List.getElem?_map, hleg]
      rfl
    have hidx : plan.legs[k].legIdx.toNat = k := htaker.legIdx_toNat hbyte hleg
    have hfilled := filledTo_modify hleg
    rw [List.take_add_one, hreport, List.foldl_append, ih hlt.le, if_pos hlt]
    simp only [Option.toList_some, List.foldl_cons, List.foldl_nil, Option.bind_some, InFlightPlan.react,
      InFlightPlan.addFill, fullFill, hidx, hfilled, ExecutionReport.consequence,
      allLegged_filledTo htaker.qty_pos, decide_eq_true_eq]
    by_cases hend : plan.legs.length ≤ k + 1
    · rw [if_pos hend, if_neg (not_lt.mpr hend)]
    · rw [if_neg hend, if_pos (not_le.mp hend)]

/-- Some leg is missing among the first `k` full fills as long as `k` is not all of them. -/
theorem exists_unfilled_iff (htaker : plan.Taker) (hbyte : plan.legs.length ≤ 256) (k : ℕ) :
    (∃ leg ∈ plan.legs, ∀ r ∈ plan.fullFills.take k, r.legIdx ≠ leg.legIdx) ↔ k < plan.legs.length := by
  constructor
  · rintro ⟨leg,hleg,hmissing⟩
    by_contra hk
    have hreport : plan.fullFill leg ∈ plan.fullFills.take k := by
      rw [List.take_of_length_le (by simpa [fullFills] using not_lt.mp hk)]
      exact List.mem_map_of_mem hleg
    exact hmissing _ hreport rfl
  · intro hk
    refine ⟨plan.legs[k],List.getElem_mem hk,fun r hr hidx => ?_⟩
    obtain ⟨j,hj⟩ := List.mem_iff_getElem?.mp hr
    rw [List.getElem?_take, fullFills, List.getElem?_map] at hj
    split_ifs at hj with hjk
    obtain ⟨leg,hleg,rfl⟩ := Option.map_eq_some_iff.mp hj
    have hjNat := htaker.legIdx_toNat hbyte hleg
    have hkNat := htaker.legIdx_toNat hbyte (List.getElem?_eq_getElem hk)
    rw [← hidx] at hkNat
    exact absurd (hjNat.symm.trans hkNat) hjk.ne

end TradePlan

end ArbCore
