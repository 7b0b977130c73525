import ArbCore.Library.LabelledRun
import ArbCore.Strategy.Planner

/-! # The strategy engine

The detector loop and the execution monitor loop share the in-flight map. Each
lock section, channel send and counter update is one step of one loop, so an
interleaving of the loops is a list of events. The channels keep what was sent
into them, oldest first. Log output and the unused counter of created plans are
left out.
-/
namespace ArbCore
open DecimalArithmetic

inductive ExecStatus where
  | new
  | partiallyFilled
  | filled
  | cancelled
  | rejected
  | error (message : String)
deriving DecidableEq

structure ExecutionReport where
  planId : String
  legIdx : UInt8
  filledQty : Decimal
  remainingQty : Decimal
  status : ExecStatus
deriving DecidableEq

/-- `legIdx` is `none` to cancel all legs of the plan. -/
structure CancelRequest where
  planId : String
  legIdx : Option UInt8
deriving DecidableEq

structure InFlightPlan where
  plan : TradePlan
  filled : List Decimal
  submittedAt : Instant
  timeoutMs : ℕ
deriving DecidableEq

structure StrategyMetrics where
  opportunitiesSeen : ℕ
  plansSubmitted : ℕ
  plansExecuted : ℕ
  plansCancelled : ℕ
  plansRejected : ℕ
deriving DecidableEq

structure TradeFill where
  planId : String
  legIdx : ℕ
  symbol : String
  side : String
  qty : Decimal
  price : Decimal
  notional : Decimal
  status : String
  exchange : String
deriving DecidableEq

namespace Checked
variable [DecimalOps]

def preTradeChecks (cfg : StrategyConfig) (op : Opportunity) : Except Panic Bool :=
  if op.estimatedProfit ≤ cfg.limits.minProfitAbs then .ok false
  else if 0 < cfg.limits.minProfitPct then do
    match ← reconstructedStart op with
    | none => return false
    | some start =>
      let profitPct ← div op.estimatedProfit start
      return ¬ profitPct < cfg.limits.minProfitPct
  else .ok true

end Checked

def preTradeChecks [DecimalOps] (cfg : StrategyConfig) (op : Opportunity) : Option Bool :=
  (Checked.preTradeChecks cfg op).toOption

def decimalMax : Decimal := 79228162514264337593543950335

/-- Zero is neutral, other sums are rounded to what a decimal can hold. -/
def saturatingAdd (a b : Decimal) : Decimal :=
  if a = 0 then b
  else if b = 0 then a
  else match rustDecimal.fit (a + b) with
    | some sum => sum
    | none => if b < 0 then -decimalMax else decimalMax

namespace InFlightPlan

def register (cfg : StrategyConfig) (plan : TradePlan) (now : Instant) : InFlightPlan :=
  ⟨plan,List.replicate plan.legs.length 0,now,cfg.orderTimeoutMs⟩

def addFill (p : InFlightPlan) (idx : ℕ) (qty : Decimal) : InFlightPlan :=
  { p with filled := p.filled.modify idx fun filled => saturatingAdd filled qty }

def allLegged (p : InFlightPlan) : Bool :=
  (p.filled.zip p.plan.legs).all fun x => x.2.qty ≤ x.1

def expired (p : InFlightPlan) (now : Instant) : Bool :=
  p.timeoutMs < now.millisSince p.submittedAt % 2 ^ 64

end InFlightPlan

def timedOut (infl : HashMap InFlightPlan) (now : Instant) : List String :=
  (infl.entries.filter fun e => e.2.expired now).map Sigma.fst

def ExecStatus.text : ExecStatus → String
  | .new => "new"
  | .partiallyFilled => "partial"
  | .filled => "filled"
  | .cancelled => "cancelled"
  | .rejected => "rejected"
  | .error _ => "error"

/-- The first lock section of a report: what storage will insert, if anything. -/
def storageData (infl : HashMap InFlightPlan) (report : ExecutionReport) : Option TradeFill := do
  let p ← infl.lookup report.planId
  let leg ← p.plan.legs[report.legIdx.toNat]?
  some ⟨report.planId,report.legIdx.toNat,leg.symbol,if leg.buyBase then "buy" else "sell",
    report.filledQty,leg.priceHint,report.filledQty * leg.priceHint,report.status.text,"binance"⟩

/-- The cancel requests that a report on a known plan makes, and whether it ends the plan. -/
def ExecutionReport.consequence (report : ExecutionReport) (p : InFlightPlan) :
    List CancelRequest × Bool :=
  match report.status with
  | .filled => ([],p.allLegged)
  | .cancelled => ([],true)
  | .rejected | .partiallyFilled => ([⟨report.planId,none⟩],true)
  | .new | .error _ => ([],false)

/-- The second lock section of a report: the map, the cancel requests and
whether the plan was removed. -/
def applyReport (infl : HashMap InFlightPlan) (report : ExecutionReport) :
    HashMap InFlightPlan × List CancelRequest × Bool :=
  match infl.lookup report.planId with
  | none => (infl,[],false)
  | some p =>
    let p := p.addFill report.legIdx.toNat report.filledQty
    match report.consequence p with
    | (cancels,true) => (infl.erase report.planId,cancels,true)
    | (cancels,false) => (infl.replace report.planId p,cancels,false)

/-- Where the detector loop is; `rest` are the opportunities still to take up. -/
inductive DetectorPhase where
  | recv
  | received (view : TriView)
  | pending (rest : List Opportunity)
  | counted (op : Opportunity) (rest : List Opportunity) (inflCount : ℕ)
  | planned (plan : TradePlan) (rest : List Opportunity)
  | registered (plan : TradePlan) (rest : List Opportunity)
  | sent (rest : List Opportunity)
  | unsent (plan : TradePlan) (rest : List Opportunity)
  | rejecting (rest : List Opportunity)
  | stopped
  | panicked

inductive MonitorPhase where
  | select
  | reported (report : ExecutionReport)
  | storing (report : ExecutionReport) (data : Option TradeFill)
  | applying (report : ExecutionReport)
  | executed
  | scanning (now : Instant)
  | cancelling (toCancel : List String)
  | removing (planId : String) (toCancel : List String)
  | cancelled (toCancel : List String)
  | stopped

structure Engine where
  inflight : HashMap InFlightPlan
  metrics : StrategyMetrics
  execTx : List TradePlan
  execCancelTx : List CancelRequest
  fills : List TradeFill
  detector : DetectorPhase
  monitor : MonitorPhase

structure DetectorInput where
  planId : String
  now : Instant
  sendOk : Bool

/-- What the outside answers to a step of the monitor loop: whether storage
inserts, and the order in which the scan meets the expired plans. -/
structure MonitorInput where
  insertOk : Bool
  order : List String

inductive EngineEvent where
  | view (view : TriView)
  | viewsClosed
  | detector (i : DetectorInput)
  | report (report : ExecutionReport)
  | reportsClosed
  | tick (now : Instant)
  | monitor (i : MonitorInput)

namespace Engine

def new : Engine := ⟨∅,⟨0,0,0,0,0⟩,[],[],[],.recv,.select⟩

/-- What becomes of an opportunity once the plans in flight are counted. -/
def takeUp [DecimalOps] (cfg : StrategyConfig) (op : Opportunity) (rest : List Opportunity) (inflCount : ℕ)
    (planId : String) : DetectorPhase :=
  if cfg.maxConcurrentPlans ≤ inflCount then .rejecting rest
  else
    match preTradeChecks cfg op with
    | none => .panicked
    | some false => .rejecting rest
    | some true =>
      match buildTradePlan planId op cfg with
      | none => .panicked
      | some (.error _) => .rejecting rest
      | some (.ok plan) => .planned plan rest

def detectorStep [DecimalOps] (cfg : StrategyConfig) (e : Engine) (i : DetectorInput) : Option Engine :=
  match e.detector with
  | .received view =>
    let e := { e with metrics.opportunitiesSeen := e.metrics.opportunitiesSeen + 1 }
    match detectTriangularOpportunities view cfg.feeMap cfg.limits.minProfitAbs with
    | some ops => some { e with detector := .pending ops }
    | none => some { e with detector := .panicked }
  | .pending [] => some { e with detector := .recv }
  | .pending (op :: rest) => some { e with detector := .counted op rest e.inflight.keys.length }
  | .counted op rest inflCount => some { e with detector := takeUp cfg op rest inflCount i.planId }
  | .planned plan rest =>
    some { e with
      inflight := e.inflight.insert plan.id (.register cfg plan i.now)
      detector := .registered plan rest }
  | .registered plan rest =>
    if i.sendOk then some { e with execTx := e.execTx ++ [plan], detector := .sent rest }
    else some { e with detector := .unsent plan rest }
  | .sent rest =>
    some { e with
      metrics.plansSubmitted := e.metrics.plansSubmitted + 1
      detector := .pending rest }
  | .unsent plan rest =>
    some { e with inflight := e.inflight.erase plan.id, detector := .rejecting rest }
  | .rejecting rest =>
    some { e with
      metrics.plansRejected := e.metrics.plansRejected + 1
      detector := .pending rest }
  | .recv | .stopped | .panicked => none

def monitorStep (storage : Bool) (e : Engine) (i : MonitorInput) : Option Engine :=
  match e.monitor with
  | .reported report => some { e with monitor := .storing report (storageData e.inflight report) }
  | .storing report data =>
    -- a failed insert is only logged
    let inserted := if storage && i.insertOk then data.toList else []
    some { e with fills := e.fills ++ inserted, monitor := .applying report }
  | .applying report =>
    match applyReport e.inflight report with
    | (infl,cancels,removePlan) =>
      some { e with
        inflight := infl
        execCancelTx := e.execCancelTx ++ cancels
        monitor := if removePlan then .executed else .select }
  | .executed =>
    some { e with
      metrics.plansExecuted := e.metrics.plansExecuted + 1
      monitor := .select }
  | .scanning now =>
    if i.order.isPerm (timedOut e.inflight now) then some { e with monitor := .cancelling i.order }
    else none
  | .cancelling [] => some { e with monitor := .select }
  | .cancelling (planId :: toCancel) =>
    some { e with
      execCancelTx := e.execCancelTx ++ [⟨planId,none⟩]
      monitor := .removing planId toCancel }
  | .removing planId toCancel =>
    some { e with
      inflight := e.inflight.erase planId
      monitor := if (e.inflight.lookup planId).isSome then .cancelled toCancel
        else .cancelling toCancel }
  | .cancelled toCancel =>
    some { e with
      metrics.plansCancelled := e.metrics.plansCancelled + 1
      monitor := .cancelling toCancel }
  | .select | .stopped => none

/-- One step of either loop; a channel delivers only to a loop that awaits it. -/
def step [DecimalOps] (cfg : StrategyConfig) (storage : Bool) (e : Engine) : EngineEvent → Option Engine
  | .view view => match e.detector with
    | .recv => some { e with detector := .received view }
    | _ => none
  | .viewsClosed => match e.detector with
    | .recv => some { e with detector := .stopped }
    | _ => none
  | .detector i => e.detectorStep cfg i
  | .report report => match e.monitor with
    | .select => some { e with monitor := .reported report }
    | _ => none
  | .reportsClosed => match e.monitor with
    | .select => some { e with monitor := .stopped }
    | _ => none
  | .tick now => match e.monitor with
    | .select => some { e with monitor := .scanning now }
    | _ => none
  | .monitor i => e.monitorStep storage i

end Engine

end ArbCore
