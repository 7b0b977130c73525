import ArbCore.Execution.Undisturbed
import ArbCore.Strategy.RegisteredPlans

/-! # The trading loop

The demo wires the engine to the mock executor. Plans, cancel requests and reports each
pass an unbounded and a bounded channel, and a task between the two forwards one message
at a time. Its receiving and sending are one step here: nobody can tell a message in its
hands from one that it has not received yet.
-/
namespace ArbCore
open LabelledRun

def boundedCapacity : ℕ := 128

/-- What the engine does by itself in the demo: no channel of it is ever closed, and
reports come from the executor only. -/
def EngineEvent.own : EngineEvent → Bool
  | .view _ | .tick _ | .monitor _ => true
  | .detector i => i.sendOk
  | .viewsClosed | .report _ | .reportsClosed => false

theorem EngineEvent.channelsOpen_of_own {ev : EngineEvent} (h : ev.own = true) : ev.channelsOpen = true := by
  cases ev with
  | detector _ => exact h
  | view _ => rfl
  | tick _ => rfl
  | monitor _ => rfl
  | viewsClosed => cases h
  | report _ => cases h
  | reportsClosed => cases h

def Executor.plansTaken (e : Executor) : ℕ := e.workers.length + e.planReceived.toNat

def Executor.cancelsTaken (e : Executor) : ℕ := e.cancelsDone + e.cancelReceived.toNat

/-- `reportTx` is what entered the bounded channel of reports, and `delivered` counts those of
each worker. `forwarded` of them went on to the engine, which received `received`. -/
structure TradingLoop where
  ledger : Ledger
  executor : Executor
  reportTx : List ExecutionReport
  delivered : ℕ → ℕ
  forwarded : ℕ
  received : ℕ

inductive TradingEvent where
  | engine (ev : EngineEvent)
  | receiveReport
  | forwardPlan
  | forwardCancel
  | forwardReport
  | executor (ev : ExecutorEvent)
  | deliver (i : ℕ)

namespace TradingLoop
variable {cfg : StrategyConfig} {storage : Bool} {s t : TradingLoop} {ev : TradingEvent}

def new : TradingLoop := ⟨.new,.new,[],fun _ => 0,0,0⟩

def engine (s : TradingLoop) : Engine := s.ledger.engine

def workers (s : TradingLoop) : List PlanWorker := s.executor.workers

/-- Plans and requests reach the executor through the forwarding tasks, and a worker that waits
to send a report takes no other step. -/
def executorFree (s : TradingLoop) : ExecutorEvent → Bool
  | .sendPlan _ | .sendCancel _ => false
  | .worker i _ => s.workers[i]?.all fun w => s.delivered i = w.reports.length
  | .receivePlan | .spawn | .receiveCancel | .signal => true

def step (cfg : StrategyConfig) (storage : Bool) (s : TradingLoop) : TradingEvent → Option TradingLoop
  | .engine ev =>
    if ev.own then (s.ledger.step cfg storage ev).map fun l => { s with ledger := l } else none
  | .receiveReport =>
    if s.received < s.forwarded then
      s.reportTx[s.received]?.bind fun report => (s.ledger.step cfg storage (.report report)).map fun l =>
        { s with ledger := l, received := s.received + 1 }
    else none
  | .forwardPlan =>
    if s.executor.planTx.length < s.executor.plansTaken + boundedCapacity then
      s.engine.execTx[s.executor.planTx.length]?.bind fun plan => (s.executor.step (.sendPlan plan)).map fun e =>
        { s with executor := e }
    else none
  | .forwardCancel =>
    if s.executor.cancelTx.length < s.executor.cancelsTaken + boundedCapacity then
      s.engine.execCancelTx[s.executor.cancelTx.length]?.bind fun cancel =>
        (s.executor.step (.sendCancel cancel)).map fun e => { s with executor := e }
    else none
  | .forwardReport =>
    if s.forwarded < s.reportTx.length then some { s with forwarded := s.forwarded + 1 } else none
  | .executor ev =>
    if s.executorFree ev then (s.executor.step ev).map fun e => { s with executor := e } else none
  | .deliver i =>
    if s.reportTx.length < s.forwarded + boundedCapacity then
      (s.workers[i]?.bind fun w => w.reports[s.delivered i]?).map fun report =>
        { s with
          reportTx := s.reportTx ++ [report]
          delivered := Function.update s.delivered i (s.delivered i + 1) }
    else none

inductive Move (cfg : StrategyConfig) (storage : Bool) (s : TradingLoop) : TradingEvent → TradingLoop → Prop
  | engine {ev : EngineEvent} {l : Ledger} (hown : ev.own = true) (hl : s.ledger.step cfg storage ev = some l) :
      Move cfg storage s (.engine ev) { s with ledger := l }
  | receiveReport {report : ExecutionReport} {l : Ledger} (hlt : s.received < s.forwarded)
      (hreport : s.reportTx[s.received]? = some report)
      (hl : s.ledger.step cfg storage (.report report) = some l) :
      Move cfg storage s .receiveReport { s with ledger := l, received := s.received + 1 }
  | forwardPlan {plan : TradePlan} {e : Executor}
      (hplan : s.engine.execTx[s.executor.planTx.length]? = some plan)
      (he : s.executor.step (.sendPlan plan) = some e) :
      Move cfg storage s .forwardPlan { s with executor := e }
  | forwardCancel {cancel : CancelRequest} {e : Executor}
      (hcancel : s.engine.execCancelTx[s.executor.cancelTx.length]? = some cancel)
      (he : s.executor.step (.sendCancel cancel) = some e) :
      Move cfg storage s .forwardCancel { s with executor := e }
  | forwardReport (hlt : s.forwarded < s.reportTx.length) :
      Move cfg storage s .forwardReport { s with forwarded := s.forwarded + 1 }
  | executor {ev : ExecutorEvent} {e : Executor} (hfree : s.executorFree ev = true)
      (he : s.executor.step ev = some e) : Move cfg storage s (.executor ev) { s with executor := e }
  | deliver {i : ℕ} {w : PlanWorker} {report : ExecutionReport} (hw : s.workers[i]? = some w)
      (hreport : w.reports[s.delivered i]? = some report) :
      Move cfg storage s (.deliver i) { s with
        reportTx := s.reportTx ++ [report]
        delivered := Function.update s.delivered i (s.delivered i + 1) }

theorem step_move (h : s.step cfg storage ev = some t) : Move cfg storage s ev t := by
  cases ev with
  | engine ev =>
    simp only [step] at h
    split_ifs at h with hown
    obtain ⟨l,hl,rfl⟩ := Option.map_eq_some_iff.mp h
    exact .engine hown hl
  | receiveReport =>
    simp only [step] at h
    split_ifs at h with hlt
    obtain ⟨report,hreport,h⟩ := Option.bind_eq_some_iff.mp h
    obtain ⟨l,hl,rfl⟩ := Option.map_eq_some_iff.mp h
    exact .receiveReport hlt hreport hl
  | forwardPlan =>
    simp only [step] at h
    split_ifs at h
    obtain ⟨plan,hplan,h⟩ := Option.bind_eq_some_iff.mp h
    obtain ⟨e,he,rfl⟩ := Option.map_eq_some_iff.mp h
    exact .forwardPlan hplan he
  | forwardCancel =>
    simp only [step] at h
    split_ifs at h
    obtain ⟨cancel,hcancel,h⟩ := Option.bind_eq_some_iff.mp h
    obtain ⟨e,he,rfl⟩ := Option.map_eq_some_iff.mp h
    exact .forwardCancel hcancel he
  | forwardReport =>
    simp only [step] at h
    split_ifs at h with hlt
    exact Option.some.inj h ▸ .forwardReport hlt
  | executor ev =>
    simp only [step] at h
    split_ifs at h with hfree
    obtain ⟨e,he,rfl⟩ := Option.map_eq_some_iff.mp h
    exact .executor hfree he
  | deliver i =>
    simp only [step] at h
    split_ifs at h
    obtain ⟨report,hw,rfl⟩ := Option.map_eq_some_iff.mp h
    obtain ⟨w,hw,hreport⟩ := Option.bind_eq_some_iff.mp hw
    exact .deliver hw hreport

/-- Whatever the loop does, the engine takes a step with open channels or none. -/
theorem Move.ledger_cases (h : Move cfg storage s ev t) : t.ledger = s.ledger ∨
    ∃ ev', ev'.channelsOpen = true ∧ s.ledger.step cfg storage ev' = some t.ledger := by
  cases h with
  | engine hown hl => exact .inr ⟨_,EngineEvent.channelsOpen_of_own hown,hl⟩
  | receiveReport _ _ hl => exact .inr ⟨_,rfl,hl⟩
  | _ => exact .inl rfl

theorem Move.executor_cases (h : Move cfg storage s ev t) : t.executor = s.executor ∨
    ∃ ev', s.executor.step ev' = some t.executor := by
  cases h with
  | forwardPlan _ he => exact .inr ⟨_,he⟩
  | forwardCancel _ he => exact .inr ⟨_,he⟩
  | executor _ he => exact .inr ⟨_,he⟩
  | _ => exact .inl rfl

structure Parties (cfg : StrategyConfig) (s : TradingLoop) : Prop where
  accounted : s.ledger.Accounted cfg
  wired : s.executor.Wired
  quiet : s.executor.Quiet

theorem parties_new (cfg : StrategyConfig) : new.Parties cfg :=
  ⟨Ledger.accounted_new cfg,Executor.wired_new,Executor.quiet_new⟩

theorem Parties.move (hs : s.Parties cfg) (h : Move cfg storage s ev t) : t.Parties cfg := by
  obtain ⟨haccounted,hwired,hquiet⟩ := hs
  refine ⟨?_,?_,?_⟩
  · rcases h.ledger_cases with heq | ⟨ev',hopen,hl⟩
    · exact heq ▸ haccounted
    · exact Ledger.accounted_step haccounted hopen hl
  · rcases h.executor_cases with heq | ⟨ev',he⟩
    · exact heq ▸ hwired
    · exact Executor.wired_step hwired he
  · rcases h.executor_cases with heq | ⟨ev',he⟩
    · exact heq ▸ hquiet
    · exact Executor.quiet_step hwired hquiet he

end TradingLoop

end ArbCore
