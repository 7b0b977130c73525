import ArbCore.Execution.TakerPlans
import ArbCore.Strategy.Reports

/-! # The engine and the executor

The engine registers plans and submits them, the executor runs one worker for each, and
the engine handles the reports. The reports of one plan are handled in the order in which
its worker sent them, those of different plans in any. The cancel task signals a worker
only for a plan that the engine asked to cancel. The scan for timed out plans is left
out: the loop is the one in which no timeout fires.
-/
namespace ArbCore

namespace Engine
variable {cfg : StrategyConfig}

/-- The detector loop registers a plan before it submits it. -/
def registerPlan (cfg : StrategyConfig) (e : Engine) (plan : TradePlan) (now : Instant) : Engine :=
  { e with inflight := e.inflight.insert plan.id (.register cfg plan now) }

def submitPlan (e : Engine) (plan : TradePlan) : Engine :=
  { e with
    execTx := e.execTx ++ [plan]
    metrics.plansSubmitted := e.metrics.plansSubmitted + 1 }

/-- These are the steps of the detector loop on a planned opportunity. -/
theorem registerPlan_step (e : Engine) (plan : TradePlan) (rest : List Opportunity) (i : DetectorInput) :
    detectorStep cfg { e with detector := .planned plan rest } i =
      some { e.registerPlan cfg plan i.now with detector := .registered plan rest } := rfl

theorem submitPlan_steps (e : Engine) (plan : TradePlan) (rest : List Opportunity) {i : DetectorInput}
    (hok : i.sendOk = true) (i' : DetectorInput) :
    (detectorStep cfg { e with detector := .registered plan rest } i).bind (detectorStep cfg · i') =
      some { e.submitPlan plan with detector := .pending rest } := by
  simp [detectorStep, hok, submitPlan]

end Engine

/-- `plans` are the plans registered so far, and `handled` the reports that the engine
handled, oldest first. -/
structure PlanLoop where
  engine : Engine
  plans : List TradePlan
  workers : String → Option PlanWorker
  handled : List ExecutionReport

inductive PlanLoopEvent where
  | register (planId : String) (op : Opportunity) (now : Instant)
  | submit (plan : TradePlan)
  | worker (planId : String) (ev : WorkerEvent)
  | handle (planId : String) (insertOk : Bool)

namespace PlanLoop
variable {cfg : StrategyConfig} {storage : Bool} {l t : PlanLoop} {ev : PlanLoopEvent}

def new : PlanLoop := ⟨.new,[],fun _ => none,[]⟩

def handledOf (l : PlanLoop) (planId : String) : List ExecutionReport :=
  l.handled.filter fun r => r.planId = planId

def reportsOf (l : PlanLoop) (planId : String) : List ExecutionReport :=
  match l.workers planId with
  | some w => w.reports
  | none => []

def putWorker (l : PlanLoop) (planId : String) (w : PlanWorker) : PlanLoop :=
  { l with workers := Function.update l.workers planId (some w) }

def handleReport (storage : Bool) (l : PlanLoop) (report : ExecutionReport) (insertOk : Bool) : PlanLoop :=
  { l with
    engine := l.engine.handleExecReport storage report insertOk
    handled := l.handled ++ [report] }

def enabled (l : PlanLoop) (planId : String) : WorkerEvent → Bool
  | .signal => l.engine.execCancelTx.any fun c => c.planId = planId
  | _ => true

def step (cfg : StrategyConfig) (storage : Bool) (l : PlanLoop) : PlanLoopEvent → Option PlanLoop
  | .register planId op now =>
    if planId ∈ l.plans.map TradePlan.id then none
    else match buildTradePlan planId op cfg with
      | some (.ok plan) =>
        some { l with engine := l.engine.registerPlan cfg plan now, plans := l.plans ++ [plan] }
      | _ => none
  | .submit plan =>
    if plan ∈ l.plans ∧ (l.workers plan.id).isNone then
      some (putWorker { l with engine := l.engine.submitPlan plan } plan.id (.start plan))
    else none
  | .worker planId ev => match l.workers planId with
    | some w => if l.enabled planId ev then (w.step ev).map (l.putWorker planId) else none
    | none => none
  | .handle planId insertOk =>
    ((l.reportsOf planId)[(l.handledOf planId).length]?).map (l.handleReport storage · insertOk)

theorem handledOf_handleReport (l : PlanLoop) (report : ExecutionReport) (insertOk : Bool) :
    (l.handleReport storage report insertOk).handledOf report.planId =
      l.handledOf report.planId ++ [report] := by
  simp [handledOf, handleReport]

theorem handledOf_handleReport_ne (l : PlanLoop) {report : ExecutionReport} {planId : String}
    (h : report.planId ≠ planId) (insertOk : Bool) :
    (l.handleReport storage report insertOk).handledOf planId = l.handledOf planId := by
  simp [handledOf, handleReport, h]

@[simp] theorem workers_putWorker (l : PlanLoop) (planId : String) (w : PlanWorker) :
    (l.putWorker planId w).workers planId = some w := Function.update_self _ _ _

theorem workers_putWorker_ne (l : PlanLoop) {planId planId' : String} (h : planId' ≠ planId)
    (w : PlanWorker) : (l.putWorker planId w).workers planId' = l.workers planId' :=
  Function.update_of_ne h _ _

@[simp] theorem reportsOf_putWorker (l : PlanLoop) (planId : String) (w : PlanWorker) :
    (l.putWorker planId w).reportsOf planId = w.reports := by
  rw [reportsOf, workers_putWorker]

theorem reportsOf_putWorker_ne (l : PlanLoop) {planId planId' : String} (h : planId' ≠ planId)
    (w : PlanWorker) : (l.putWorker planId w).reportsOf planId' = l.reportsOf planId' := by
  rw [reportsOf, workers_putWorker_ne l h, reportsOf]

end PlanLoop

end ArbCore
