import ArbCore.Strategy.ConcurrencyCap
import ArbCore.Strategy.Reports

/-! # Fills that storage keeps

The monitor finds the leg of a report through the map of plans in flight. What a report
fills is stored if its plan is still there, and lost if a timeout or another report
has removed it.
-/
namespace ArbCore
open LabelledRun

variable {planId : String} {legIdx : ℕ}

def TradeFill.fillOf (planId : String) (legIdx : ℕ) (fill : TradeFill) : Decimal :=
  if fill.planId = planId ∧ fill.legIdx = legIdx then fill.qty else 0

section StorageData
variable {infl : HashMap InFlightPlan} {report : ExecutionReport}

theorem storageData_fillOf {fill : TradeFill} (h : storageData infl report = some fill) :
    fill.fillOf planId legIdx = report.fillOf planId legIdx := by
  simp only [storageData, Option.bind_eq_bind, Option.bind_eq_some_iff, Option.some.injEq] at h
  obtain ⟨p,-,leg,-,rfl⟩ := h
  rfl

theorem storageData_eq_none : storageData infl report = none ↔
    ∀ p, infl.lookup report.planId = some p → p.plan.legs.length ≤ report.legIdx.toNat := by
  cases hlookup : infl.lookup report.planId with
  | none => simp [storageData, hlookup]
  | some p =>
    simp only [storageData, hlookup, Option.bind_eq_bind, Option.bind_some, Option.some.injEq,
      forall_eq']
    cases hleg : p.plan.legs[report.legIdx.toNat]? with
    | none => simpa using List.getElem?_eq_none_iff.mp hleg
    | some leg => simpa using (List.getElem?_eq_some_iff.mp hleg).1

end StorageData

def MonitorPhase.Storing : MonitorPhase → Prop
  | .reported _ | .storing .. => True
  | _ => False

instance : DecidablePred MonitorPhase.Storing
  | .reported _ | .storing .. => isTrue trivial
  | .select | .applying _ | .executed | .scanning _ | .cancelling _ | .removing .. | .cancelled _
  | .stopped => isFalse id

/-- What storage will be handed for the leg by the report being handled. -/
def MonitorPhase.underWay (planId : String) (legIdx : ℕ) : MonitorPhase → Decimal
  | .reported report => report.fillOf planId legIdx
  | .storing _ data => (data.toList.map (TradeFill.fillOf planId legIdx)).sum
  | _ => 0

def EngineEvent.report? : EngineEvent → Option ExecutionReport
  | .report r => some r
  | _ => none

def EngineEvent.Inserts : EngineEvent → Prop
  | .monitor i => i.insertOk = true
  | _ => True

structure ReportLog where
  engine : Engine
  received : List ExecutionReport

namespace ReportLog
variable {cfg : StrategyConfig} {l t : ReportLog} {ev : EngineEvent}

def new : ReportLog := ⟨.new,[]⟩

def step (cfg : StrategyConfig) (l : ReportLog) (ev : EngineEvent) : Option ReportLog :=
  (l.engine.step cfg true ev).map fun e => ⟨e,l.received ++ ev.report?.toList⟩

theorem step_eq_some (h : l.step cfg ev = some t) :
    Engine.Move cfg true l.engine ev t.engine ∧ t.received = l.received ++ ev.report?.toList := by
  obtain ⟨e,he,rfl⟩ := Option.map_eq_some_iff.mp h
  exact ⟨Engine.step_move he,rfl⟩

def receivedFill (planId : String) (legIdx : ℕ) (l : ReportLog) : Decimal :=
  fillsOf planId l.received legIdx

def insertedFill (planId : String) (legIdx : ℕ) (l : ReportLog) : Decimal :=
  (l.engine.fills.map (TradeFill.fillOf planId legIdx)).sum

/-- The quantity received for a leg, less what storage was or will be handed. -/
def missing (planId : String) (legIdx : ℕ) (l : ReportLog) : Decimal :=
  l.receivedFill planId legIdx - l.insertedFill planId legIdx - l.engine.monitor.underWay planId legIdx

/-- A report that fills some of the leg is looked up when its plan is not in flight. -/
def ComesLate (planId : String) (legIdx : ℕ) (l : ReportLog) : EngineEvent → Prop
  | .monitor _ => ∃ report, l.engine.monitor = .reported report ∧ report.planId = planId ∧
      report.legIdx.toNat = legIdx ∧ report.filledQty ≠ 0 ∧
      ∀ p, l.engine.inflight.lookup planId = some p → p.plan.legs.length ≤ legIdx
  | _ => False

def withheld (planId : String) (legIdx : ℕ) (l : ReportLog) : EngineEvent → Decimal
  | .monitor _ => match l.engine.monitor with
    | .reported report =>
      if storageData l.engine.inflight report = none then report.fillOf planId legIdx else 0
    | _ => 0
  | _ => 0

theorem comesLate_iff : l.ComesLate planId legIdx ev ↔ l.withheld planId legIdx ev ≠ 0 := by
  cases ev with
  | monitor i =>
    cases hphase : l.engine.monitor with
    | reported report =>
      simp only [ComesLate, withheld, hphase, storageData_eq_none, ExecutionReport.fillOf,
        MonitorPhase.reported.injEq, exists_eq_left']
      constructor
      · rintro ⟨rfl,rfl,hqty,hlegs⟩
        simpa [hqty] using hlegs
      · intro hne
        split_ifs at hne with hlegs hleg
        · obtain ⟨rfl,rfl⟩ := hleg
          exact ⟨rfl,rfl,hne,hlegs⟩
        · exact absurd rfl hne
        · exact absurd rfl hne
    | _ => simp [ComesLate, withheld, hphase]
  | _ => simp [ComesLate, withheld]

section Steps

theorem missing_monitorMove {e e' : Engine} {received : List ExecutionReport} {i : MonitorInput}
    (hok : i.insertOk = true) (h : Engine.MonitorMove true e i e') :
    missing planId legIdx ⟨e',received⟩ = missing planId legIdx ⟨e,received⟩ +
      withheld planId legIdx ⟨e,received⟩ (.monitor i) := by
  cases h with
  | @looked report hphase =>
    simp only [missing, receivedFill, fillsOf, insertedFill, withheld, hphase, MonitorPhase.underWay]
    cases hdata : storageData e.inflight report with
    | none => simp
    | some fill => simp [storageData_fillOf hdata]
  | stored hphase =>
    simp only [missing, receivedFill, fillsOf, insertedFill, withheld, hphase, MonitorPhase.underWay, hok,
      Bool.and_true, ↓reduceIte, List.map_append, List.sum_append]
    ring
  | applied hphase =>
    simp only [missing, receivedFill, fillsOf, insertedFill, withheld, hphase]
    split <;> simp [MonitorPhase.underWay]
  | _ hphase => simp [missing, receivedFill, insertedFill, withheld, hphase, MonitorPhase.underWay]

theorem missing_step (hok : ev.Inserts) (h : l.step cfg ev = some t) :
    t.missing planId legIdx = l.missing planId legIdx + l.withheld planId legIdx ev := by
  obtain ⟨hmove,hreceived⟩ := step_eq_some h
  obtain ⟨e,received⟩ := t
  dsimp only at hmove hreceived
  subst hreceived
  cases hmove with
  | @report r hphase =>
    simp only [missing, receivedFill, fillsOf, insertedFill, withheld, hphase, MonitorPhase.underWay,
      EngineEvent.report?, Option.toList_some, List.map_append, List.sum_append, List.map_singleton,
      List.sum_singleton]
    ring
  | monitor hmonitor =>
    simpa [EngineEvent.report?] using missing_monitorMove hok hmonitor
  | detector hdetector =>
    obtain ⟨hmonitor,-,hfills⟩ := Engine.detectorMove_frame hdetector
    simp [missing, receivedFill, fillsOf, insertedFill, withheld, hmonitor, hfills, EngineEvent.report?]
  | reportsClosed hphase =>
    simp [missing, receivedFill, fillsOf, insertedFill, withheld, hphase, MonitorPhase.underWay,
      EngineEvent.report?]
  | tick hphase =>
    simp [missing, receivedFill, fillsOf, insertedFill, withheld, hphase, MonitorPhase.underWay,
      EngineEvent.report?]
  | _ => simp [missing, receivedFill, fillsOf, insertedFill, withheld, EngineEvent.report?]

/-- Storage is next handed what was found of the report. -/
def Found (l : ReportLog) : Prop := ∃ report data, l.engine.monitor = .storing report data

theorem found_of_comesLate (hlate : l.ComesLate planId legIdx ev) (h : l.step cfg ev = some t) : t.Found := by
  cases ev with
  | monitor i =>
    obtain ⟨report,hphase,-⟩ := hlate
    simp only [step, Engine.step, Engine.monitorStep, hphase, Option.map_some, Option.some.injEq] at h
    exact h ▸ ⟨_,_,rfl⟩
  | _ => exact hlate.elim

theorem found_step (hl : l.Found) (h : l.step cfg ev = some t) :
    l.withheld planId legIdx ev = 0 ∧ (t.Found ∨ ∃ report, t.engine.monitor = .applying report) := by
  obtain ⟨report,data,hphase⟩ := hl
  refine ⟨by cases ev <;> simp [withheld, hphase],?_⟩
  cases ev with
  | monitor i =>
    simp only [step, Engine.step, Engine.monitorStep, hphase, Option.map_some, Option.some.injEq] at h
    exact .inr (h ▸ ⟨_,rfl⟩)
  | report _ => simp [step, Engine.step, hphase] at h
  | reportsClosed => simp [step, Engine.step, hphase] at h
  | tick _ => simp [step, Engine.step, hphase] at h
  | _ =>
    have hmonitor := (step_eq_some h).1.monitor_eq trivial
    exact .inl ⟨report,data,hmonitor.trans hphase⟩

end Steps

/-- Unless a report is just being handled, storage was handed all that was received. -/
def Stored (planId : String) (legIdx : ℕ) (l : ReportLog) : Prop :=
  ¬ l.engine.monitor.Storing → l.receivedFill planId legIdx = l.insertedFill planId legIdx

theorem stored_iff (hphase : ¬ l.engine.monitor.Storing) :
    l.Stored planId legIdx ↔ l.missing planId legIdx = 0 := by
  have hnone : l.engine.monitor.underWay planId legIdx = 0 := by
    cases hm : l.engine.monitor with
    | reported _ => exact absurd (by rw [hm]; trivial) hphase
    | storing _ _ => exact absurd (by rw [hm]; trivial) hphase
    | _ => rfl
  rw [Stored, missing, hnone, sub_zero, sub_eq_zero]
  exact ⟨fun h => h hphase,fun h _ => h⟩

/-- In a run in which storage never fails it has every fill of a leg that was received,
exactly if no report that fills some of it comes when its plan is not in flight. -/
theorem fills_stored_iff (planId : String) (legIdx : ℕ) {events : List EngineEvent}
    (hinserts : ∀ ev ∈ events, ev.Inserts) (h : run (step cfg) new events = some l)
    (hend : ¬ l.engine.monitor.Storing) :
    AllStates (step cfg) (Stored planId legIdx) new events ↔
      AllSteps (step cfg) (fun l ev => ¬ l.ComesLate planId legIdx ev) new events := by
  refine @allStates_iff_allSteps _ _ (step cfg) _ (fun l => l.missing planId legIdx = 0)
    (fun l => l.missing planId legIdx ≠ 0 ∧ l.Found) (fun l => ¬ l.engine.monitor.Storing) _
    EngineEvent.Inserts (fun s hs hphase => ?_) (fun s ev t hok hs hstep hlate => ?_)
    (fun s ev t hok hs hstep hlate => ?_) (fun s ev t hok hs hstep => ?_) (fun s hs hphase => ?_)
    _ _ _ hinserts ?_ h hend
  · exact (stored_iff hphase).mpr hs hphase
  · rw [missing_step hok hstep, hs, not_not.mp (comesLate_iff.not.mp hlate), add_zero]
  · have hlate := not_not.mp hlate
    refine ⟨?_,found_of_comesLate hlate hstep⟩
    rw [missing_step hok hstep, hs, zero_add]
    exact comesLate_iff.mp hlate
  · obtain ⟨hnone,hphase⟩ := @found_step planId legIdx _ _ _ _ hs.2 hstep
    have hmissing : t.missing planId legIdx ≠ 0 := by
      rw [missing_step hok hstep, hnone, add_zero]
      exact hs.1
    refine hphase.imp (fun hfound => ⟨hmissing,hfound⟩) fun ⟨report,happlying⟩ => ?_
    have hdone : ¬ t.engine.monitor.Storing := by
      rw [happlying]
      exact id
    exact (stored_iff hdone).not.mpr hmissing
  · obtain ⟨report,data,hstoring⟩ := hs.2
    rw [hstoring] at hphase
    exact hphase trivial
  · simp [missing, new, receivedFill, fillsOf, insertedFill, Engine.new, MonitorPhase.underWay]

instance (planId : String) (legIdx : ℕ) (l : ReportLog) (ev : EngineEvent) :
    Decidable (l.ComesLate planId legIdx ev) := decidable_of_iff _ comesLate_iff.symm

def fillInTime : List EngineEvent :=
  submitOne mispricedView "p1" ++ .report ⟨"p1",0,5,0,.filled⟩ :: List.replicate 3 (.monitor ⟨true,[]⟩)

theorem fills_stored_iff_fillInTime :
    AllStates (step plainConfig) (Stored "p1" 0) new fillInTime :=
  (fills_stored_iff "p1" 0 (by simp [fillInTime, submitOne, EngineEvent.Inserts])
    (Option.some_get (by decide +kernel)).symm (by decide +kernel)).mpr (by decide +kernel)

def fillAfterTimeout : List EngineEvent :=
  submitOne mispricedView "p1" ++ .tick 2000000000 :: List.replicate 5 (.monitor ⟨true,["p1"]⟩) ++
    .report ⟨"p1",0,5,0,.filled⟩ :: List.replicate 3 (.monitor ⟨true,[]⟩)

/-- The report is received, and storage has no row of it. -/
theorem fillAfterTimeout_lost :
    (∀ ev ∈ fillAfterTimeout, ev.Inserts) ∧
    ∃ l, run (step plainConfig) new fillAfterTimeout = some l ∧ ¬ l.engine.monitor.Storing ∧
      (l.engine.execTx.map fun plan => (plan.id,plan.legs.length)) = [("p1",3)] ∧ l.receivedFill "p1" 0 = 5 ∧
      l.insertedFill "p1" 0 = 0 :=
  ⟨by simp [fillAfterTimeout, submitOne, EngineEvent.Inserts],
    (run (step plainConfig) new fillAfterTimeout).get (by decide +kernel),(Option.some_get _).symm,
    by decide +kernel⟩

end ReportLog

end ArbCore
