import ArbCore.Strategy.EngineSteps
import ArbCore.Library.KeyedFold

/-! # Handling an execution report

A report is handled by the steps of the monitor loop from its reception to the next
one. It acts on the plan it names and on no other.
-/
namespace ArbCore
open LabelledRun

def ExecutionReport.fillOf (planId : String) (legIdx : ℕ) (report : ExecutionReport) : Decimal :=
  if report.planId = planId ∧ report.legIdx.toNat = legIdx then report.filledQty else 0

def fillsOf (planId : String) (reports : List ExecutionReport) (legIdx : ℕ) : Decimal :=
  (reports.map (ExecutionReport.fillOf planId legIdx)).sum

/-- What becomes of a plan in flight when one of its reports is handled. -/
def InFlightPlan.react (p : InFlightPlan) (report : ExecutionReport) : Option InFlightPlan :=
  let p := p.addFill report.legIdx.toNat report.filledQty
  if (report.consequence p).2 then none else some p

theorem InFlightPlan.react_eq_none {p : InFlightPlan} {report : ExecutionReport} : p.react report = none ↔
    (report.consequence (p.addFill report.legIdx.toNat report.filledQty)).2 = true := by
  simp [react]

theorem InFlightPlan.react_eq_some {p p' : InFlightPlan} {report : ExecutionReport} :
    p.react report = some p' ↔
      (report.consequence (p.addFill report.legIdx.toNat report.filledQty)).2 = false ∧
        p.addFill report.legIdx.toNat report.filledQty = p' := by
  simp [react]

section ApplyReport
variable {infl : HashMap InFlightPlan} {report : ExecutionReport}

theorem applyReport_unknown (h : infl.lookup report.planId = none) :
    applyReport infl report = (infl,[],false) := by
  rw [applyReport, h]

theorem applyReport_known {p : InFlightPlan} (h : infl.lookup report.planId = some p) :
    (∃ cancels, applyReport infl report = (infl.erase report.planId,cancels,true) ∧
      p.react report = none) ∨
    ∃ cancels p', applyReport infl report = (infl.replace report.planId p',cancels,false) ∧
      p.react report = some p' := by
  rw [applyReport, h]
  cases hc : report.consequence (p.addFill report.legIdx.toNat report.filledQty) with
  | mk cancels removed =>
    cases removed with
    | true => exact .inl ⟨cancels,by simp [hc],by simp [InFlightPlan.react, hc]⟩
    | false =>
      refine .inr ⟨cancels,p.addFill report.legIdx.toNat report.filledQty,?_,?_⟩
      · simp [hc]
      · simp [InFlightPlan.react, hc]

theorem applyReport_cancels {p : InFlightPlan} (h : infl.lookup report.planId = some p) :
    (applyReport infl report).2.1 =
      (report.consequence (p.addFill report.legIdx.toNat report.filledQty)).1 := by
  rw [applyReport, h]
  cases hc : report.consequence (p.addFill report.legIdx.toNat report.filledQty) with
  | mk cancels removed => cases removed <;> simp [hc]

/-- The plan named by the report reacts to it, all others keep their entries. -/
theorem lookup_applyReport (infl : HashMap InFlightPlan) (report : ExecutionReport) (id : String) :
    (applyReport infl report).1.lookup id =
      if report.planId = id then (infl.lookup id).bind (·.react report) else infl.lookup id := by
  cases hlookup : infl.lookup report.planId with
  | none =>
    rw [applyReport_unknown hlookup]
    split_ifs with hid
    · rw [← hid, hlookup]
      rfl
    · rfl
  | some p =>
    rcases applyReport_known hlookup with ⟨cancels,happly,hreact⟩ | ⟨cancels,p',happly,hreact⟩
    · rw [happly]
      split_ifs with hid
      · rw [← hid, hlookup, AList.lookup_erase]
        exact hreact.symm
      · exact AList.lookup_erase_ne (Ne.symm hid)
    · rw [happly, KeyedFold.lookup_replace, hlookup]
      split_ifs with hid
      · rw [← hid, hlookup]
        exact hreact.symm
      · rfl

theorem mem_of_mem_applyReport {id : String} (h : id ∈ (applyReport infl report).1) : id ∈ infl := by
  rw [← AList.lookup_isSome, lookup_applyReport] at h
  split_ifs at h
  · exact AList.lookup_isSome.mp (Option.isSome_of_isSome_bind h)
  · exact AList.lookup_isSome.mp h

theorem exists_of_notMem_applyReport {id : String} (hmem : id ∈ infl)
    (hgone : id ∉ (applyReport infl report).1) :
    ∃ p, report.planId = id ∧ infl.lookup id = some p ∧ p.react report = none := by
  obtain ⟨p,hp⟩ := Option.isSome_iff_exists.mp (AList.lookup_isSome.mpr hmem)
  have hnone := AList.lookup_eq_none.mpr hgone
  rw [lookup_applyReport] at hnone
  split_ifs at hnone with hid
  · rw [hp] at hnone
    exact ⟨p,hid,hp,hnone⟩
  · cases hp.symm.trans hnone

/-- A plan leaves the map exactly when the report ends it. -/
theorem length_keys_applyReport_add (infl : HashMap InFlightPlan) (report : ExecutionReport) :
    (applyReport infl report).1.keys.length + (if (applyReport infl report).2.2 then 1 else 0) =
      infl.keys.length := by
  cases hlookup : infl.lookup report.planId with
  | none =>
    rw [applyReport_unknown hlookup]
    rfl
  | some p =>
    rcases applyReport_known hlookup with ⟨cancels,happly,-⟩ | ⟨cancels,p',happly,-⟩
    · have hmem : report.planId ∈ infl :=
        AList.lookup_isSome.mp (Option.isSome_iff_exists.mpr ⟨p,hlookup⟩)
      rw [happly]
      exact length_keys_erase_of_mem hmem
    · simp only [happly, AList.keys_replace, Bool.false_eq_true, ↓reduceIte, Nat.add_zero]

end ApplyReport

namespace Engine
variable {storage : Bool}

theorem MonitorMove.mem_inflight {e t : Engine} {i : MonitorInput} (h : MonitorMove storage e i t)
    {id : String} (hid : id ∈ t.inflight) : id ∈ e.inflight := by
  cases h with
  | applied _ => exact mem_of_mem_applyReport hid
  | removed _ _ => exact (AList.mem_erase.mp hid).2
  | gone _ _ => exact (AList.mem_erase.mp hid).2
  | _ => exact hid

/-- The monitor loop's handling of a report; `insertOk` says whether storage inserts. -/
def handleExecReport (storage : Bool) (e : Engine) (report : ExecutionReport) (insertOk : Bool) : Engine :=
  let inserted := if storage && insertOk then (storageData e.inflight report).toList else []
  match applyReport e.inflight report with
  | (infl,cancels,removePlan) => { e with
      inflight := infl
      metrics.plansExecuted := e.metrics.plansExecuted + if removePlan then 1 else 0
      execCancelTx := e.execCancelTx ++ cancels
      fills := e.fills ++ inserted }

/-- It is what the loop does from one reception to the next. -/
theorem handleExecReport_run (cfg : StrategyConfig) (storage : Bool) {e : Engine}
    (hselect : e.monitor = .select) (report : ExecutionReport) (i : MonitorInput) :
    ∃ n, run (step cfg storage) e (.report report :: List.replicate n (.monitor i)) =
      some (e.handleExecReport storage report i.insertOk) := by
  obtain ⟨infl,metrics,execTx,execCancelTx,fills,detector,monitor⟩ := e
  cases hselect
  cases hremoved : (applyReport infl report).2.2 with
  | true =>
    refine ⟨4,?_⟩
    simp [run, step, monitorStep, handleExecReport, hremoved, List.replicate]
  | false =>
    refine ⟨3,?_⟩
    simp [run, step, monitorStep, handleExecReport, hremoved, List.replicate]

theorem lookup_handleExecReport (e : Engine) (report : ExecutionReport) (insertOk : Bool) (id : String) :
    (e.handleExecReport storage report insertOk).inflight.lookup id =
      if report.planId = id then (e.inflight.lookup id).bind (·.react report)
      else e.inflight.lookup id :=
  lookup_applyReport e.inflight report id

/-- Every plan is counted once, in flight or as executed. -/
theorem plans_handleExecReport (storage : Bool) (e : Engine) (report : ExecutionReport) (insertOk : Bool) :
    (e.handleExecReport storage report insertOk).inflight.keys.length +
        (e.handleExecReport storage report insertOk).metrics.plansExecuted =
      e.inflight.keys.length + e.metrics.plansExecuted := by
  have hexecuted : (e.handleExecReport storage report insertOk).metrics.plansExecuted =
      e.metrics.plansExecuted + if (applyReport e.inflight report).2.2 then 1 else 0 := rfl
  rw [← length_keys_applyReport_add e.inflight report, hexecuted, Nat.add_right_comm, Nat.add_assoc]
  rfl

def handleExecReports (storage : Bool) (e : Engine) (reports : List (ExecutionReport × Bool)) : Engine :=
  reports.foldl (fun e r => e.handleExecReport storage r.1 r.2) e

theorem lookup_handleExecReports (e : Engine) (reports : List (ExecutionReport × Bool)) (id : String) :
    (e.handleExecReports storage reports).inflight.lookup id =
      ((reports.map Prod.fst).filter fun r => r.planId = id).foldl (fun p r => p.bind (·.react r))
        (e.inflight.lookup id) := by
  have hfold := KeyedFold.get_foldl (fun r : ExecutionReport × Bool => r.1.planId)
    (fun (e : Engine) id => e.inflight.lookup id) (fun e r => e.handleExecReport storage r.1 r.2)
    (fun p r => p.bind (·.react r.1))
    (fun e r id => e.lookup_handleExecReport r.1 r.2 id) reports e id
  rw [List.filter_map, List.foldl_map]
  exact hfold

theorem plans_handleExecReports (storage : Bool) (e : Engine) (reports : List (ExecutionReport × Bool)) :
    (e.handleExecReports storage reports).inflight.keys.length +
        (e.handleExecReports storage reports).metrics.plansExecuted =
      e.inflight.keys.length + e.metrics.plansExecuted := by
  induction reports generalizing e with
  | nil => rfl
  | cons r reports ih => exact (ih _).trans (e.plans_handleExecReport storage r.1 r.2)

end Engine

end ArbCore
