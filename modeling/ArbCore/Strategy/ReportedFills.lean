import ArbCore.Strategy.Reports

/-! # The fills of a plan and the reports they come from

The monitor adds up the fills of a plan leg by leg, rounding and saturating as decimals do.
What it has added up is a function of the entry at the start and the reports since.
-/
namespace ArbCore

/-- What was filled of a leg after the reports, of which those on the leg are added up. -/
def cumulativeFill (planId : String) (legIdx : ℕ) (reports : List ExecutionReport) (filled : Decimal) :
    Decimal :=
  reports.foldl (fun filled r =>
    if r.planId = planId ∧ r.legIdx.toNat = legIdx then saturatingAdd filled r.filledQty else filled) filled

theorem cumulativeFill_append {planId : String} {legIdx : ℕ} {reports : List ExecutionReport} {filled : Decimal}
    (report : ExecutionReport) :
    cumulativeFill planId legIdx (reports ++ [report]) filled =
      if report.planId = planId ∧ report.legIdx.toNat = legIdx then
        saturatingAdd (cumulativeFill planId legIdx reports filled) report.filledQty
      else cumulativeFill planId legIdx reports filled := by
  rw [cumulativeFill, List.foldl_append]
  rfl

namespace InFlightPlan
variable {start p : InFlightPlan} {planId : String} {reports : List ExecutionReport}
  {report : ExecutionReport}

structure Tracks (start p : InFlightPlan) (planId : String) (reports : List ExecutionReport) : Prop where
  plan_eq : p.plan = start.plan
  filled : ∀ i : ℕ, p.filled[i]? = start.filled[i]?.map (cumulativeFill planId i reports)

theorem tracks_refl (p : InFlightPlan) (planId : String) : Tracks p p planId [] :=
  ⟨rfl,fun _ => (congrFun Option.map_id _).symm⟩

theorem Tracks.other (h : Tracks start p planId reports) (hid : report.planId ≠ planId) :
    Tracks start p planId (reports ++ [report]) := by
  refine ⟨h.plan_eq,fun i => ?_⟩
  rw [h.filled i]
  refine Option.map_congr fun a _ => ?_
  rw [cumulativeFill_append, if_neg fun hleg => hid hleg.1]

theorem Tracks.addFill (h : Tracks start p planId reports) (hid : report.planId = planId) :
    Tracks start (p.addFill report.legIdx.toNat report.filledQty) planId (reports ++ [report]) := by
  refine ⟨h.plan_eq,fun i => ?_⟩
  rw [InFlightPlan.addFill, List.getElem?_modify, h.filled i, Option.map_eq_map, Option.map_map]
  refine Option.map_congr fun a _ => ?_
  rw [cumulativeFill_append]
  by_cases hleg : report.legIdx.toNat = i
  · simp [hleg, hid]
  · simp [hleg]

theorem Tracks.allLegged_iff (h : Tracks start p planId reports)
    (hlength : start.filled.length = start.plan.legs.length) : p.allLegged = true ↔
      ∀ i leg, start.plan.legs[i]? = some leg →
        ∃ a, start.filled[i]? = some a ∧ leg.qty ≤ cumulativeFill planId i reports a := by
  have hlegs : p.plan.legs = start.plan.legs := by rw [h.plan_eq]
  rw [allLegged, List.all_eq_true]
  constructor
  · intro hall i leg hleg
    have hi : i < start.filled.length := hlength ▸ (List.getElem?_eq_some_iff.mp hleg).1
    have hfilled := h.filled i
    rw [List.getElem?_eq_getElem hi, Option.map_some] at hfilled
    have hmem : (cumulativeFill planId i reports start.filled[i],leg) ∈ p.filled.zip p.plan.legs :=
      List.mem_of_getElem? (i := i) (List.getElem?_zip_eq_some.mpr ⟨hfilled,hlegs ▸ hleg⟩)
    exact ⟨_,List.getElem?_eq_getElem hi,of_decide_eq_true (hall _ hmem)⟩
  · rintro hall ⟨b,leg⟩ hx
    obtain ⟨i,hi⟩ := List.mem_iff_getElem?.mp hx
    obtain ⟨hb,hleg⟩ := List.getElem?_zip_eq_some.mp hi
    obtain ⟨a,ha,hqty⟩ := hall i leg (hlegs ▸ hleg)
    rw [h.filled i, ha] at hb
    cases hb
    exact decide_eq_true hqty

/-- Every leg was reported as filled: in the entry at the start and by the reports since. -/
def AllFilled (start : InFlightPlan) (planId : String) (reports : List ExecutionReport) : Prop :=
  ∀ x ∈ start.plan.legs.zipIdx,
    x.1.qty ≤ cumulativeFill planId x.2 reports (start.filled[x.2]?.getD 0)

instance (start : InFlightPlan) (planId : String) (reports : List ExecutionReport) :
    Decidable (start.AllFilled planId reports) := List.decidableBAll _ _

theorem Tracks.allLegged_iff_allFilled (h : Tracks start p planId reports)
    (hlength : start.filled.length = start.plan.legs.length) :
    p.allLegged = true ↔ start.AllFilled planId reports := by
  rw [h.allLegged_iff hlength, AllFilled]
  constructor
  · rintro hall ⟨leg,i⟩ hx
    obtain ⟨a,ha,hle⟩ := hall i leg (List.mem_zipIdx_iff_getElem?.mp hx)
    rw [ha]
    exact hle
  · intro hall i leg hleg
    have hi : i < start.filled.length := hlength ▸ (List.getElem?_eq_some_iff.mp hleg).1
    have ha := List.getElem?_eq_getElem hi
    have hle := hall (leg,i) (List.mem_zipIdx_iff_getElem?.mpr hleg)
    rw [ha] at hle
    exact ⟨_,ha,hle⟩

end InFlightPlan

end ArbCore
