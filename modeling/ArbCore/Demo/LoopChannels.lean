import ArbCore.Demo.TradingLoop
import ArbCore.Execution.Completion

/-! # What is in the channels of the trading loop

Each channel hands on what was sent into it, in order. What the engine has handled of a
plan's reports are the first ones that its worker sent.
-/
namespace ArbCore
open LabelledRun

def MonitorPhase.held? : MonitorPhase → Option ExecutionReport
  | .reported report | .storing report _ | .applying report => some report
  | _ => none

namespace Engine
variable {cfg : StrategyConfig} {storage : Bool} {e t : Engine} {ev : EngineEvent}

theorem Move.sent_prefix (h : Move cfg storage e ev t) :
    e.execTx <+: t.execTx ∧ e.execCancelTx <+: t.execCancelTx := by
  cases h with
  | detector hmove =>
    cases hmove with
    | sent _ _ => exact ⟨List.prefix_append _ _,List.prefix_rfl⟩
    | _ => exact ⟨List.prefix_rfl,List.prefix_rfl⟩
  | monitor hmove =>
    cases hmove with
    | applied _ => exact ⟨List.prefix_rfl,List.prefix_append _ _⟩
    | cancelSent _ => exact ⟨List.prefix_rfl,List.prefix_append _ _⟩
    | _ => exact ⟨List.prefix_rfl,List.prefix_rfl⟩
  | _ => exact ⟨List.prefix_rfl,List.prefix_rfl⟩

/-- The monitor takes a report up, keeps it, or applies it. -/
theorem Move.held_cases (h : Move cfg storage e ev t) :
    (∃ report, ev = .report report ∧ e.monitor.held? = none ∧ t.monitor.held? = some report) ∨
    (∃ report, (∃ i, ev = .monitor i) ∧ e.monitor = .applying report ∧ t.monitor.held? = none) ∨
    ((∀ report, ev ≠ .report report) ∧ t.monitor.held? = e.monitor.held?) := by
  cases h with
  | report hphase => exact .inl ⟨_,rfl,by rw [hphase]; rfl,rfl⟩
  | reportsClosed hphase => exact .inr (.inr ⟨nofun,by rw [hphase]; rfl⟩)
  | tick hphase => exact .inr (.inr ⟨nofun,by rw [hphase]; rfl⟩)
  | view _ => exact .inr (.inr ⟨nofun,rfl⟩)
  | viewsClosed _ => exact .inr (.inr ⟨nofun,rfl⟩)
  | detector hmove => exact .inr (.inr ⟨nofun,congrArg _ (detectorMove_frame hmove).1⟩)
  | monitor hmove =>
    cases hmove with
    | applied hphase =>
      refine .inr (.inl ⟨_,⟨_,rfl⟩,hphase,?_⟩)
      dsimp only
      split <;> rfl
    | _ hphase => exact .inr (.inr ⟨nofun,by rw [hphase]; rfl⟩)

theorem Move.held_eq (h : Move cfg storage e ev t) (hown : ∀ report, ev ≠ .report report)
    (hnot : ∀ report, e.monitor ≠ .applying report) : t.monitor.held? = e.monitor.held? := by
  rcases h.held_cases with ⟨report,hev,-⟩ | ⟨report,-,hphase,-⟩ | ⟨-,hsame⟩
  · exact absurd hev (hown report)
  · exact absurd hphase (hnot report)
  · exact hsame

end Engine

namespace Executor
variable {e t : Executor} {ev : ExecutorEvent} {i : ℕ} {w w' : PlanWorker}

theorem Wired.worker_kept (h : e.Wired) (hstep : e.step ev = some t) (hw : e.workers[i]? = some w) :
    ∃ w', t.workers[i]? = some w' ∧ w'.plan = w.plan ∧ w.reports <+: w'.reports := by
  have hlt := (List.getElem?_eq_some_iff.mp hw).1
  have hset : ∀ {j : ℕ} {v v' : PlanWorker}, e.workers[j]? = some v → v'.plan = v.plan →
      v.reports <+: v'.reports → ∃ w', (e.workers.set j v')[i]? = some w' ∧ w'.plan = w.plan ∧
        w.reports <+: w'.reports := by
    intro j v v' hv hplan hreports
    by_cases hij : j = i
    · subst hij
      cases hv.symm.trans hw
      exact ⟨v',List.getElem?_set_self hlt,hplan,hreports⟩
    · exact ⟨w,(List.getElem?_set_ne hij).trans hw,rfl,List.prefix_rfl⟩
  cases step_move hstep with
  | spawn _ => exact ⟨w,(List.getElem?_append_left hlt).trans hw,rfl,List.prefix_rfl⟩
  | @signal c _ =>
    rcases h.signal_cases c with ⟨-,hworkers,-⟩ | ⟨j,v,-,hv,-,-,hworkers,-⟩
    · exact ⟨w,hworkers ▸ hw,rfl,List.prefix_rfl⟩
    · exact hworkers ▸ hset hv rfl List.prefix_rfl
  | @worker j v ev' _ hv hworker =>
    obtain ⟨-,v',hv',rfl⟩ := h.workerStep_eq hv hworker
    exact hset hv (PlanWorker.plan_move (PlanWorker.step_move hv')) (PlanWorker.reports_prefix_step hv')
  | _ => exact ⟨w,hw,rfl,List.prefix_rfl⟩

theorem Wired.worker_new (h : e.Wired) (hstep : e.step ev = some t) (hw' : t.workers[i]? = some w')
    (hi : e.workers.length ≤ i) :
    ∃ plan, i = e.workers.length ∧ e.planTx[i]? = some plan ∧ w' = .start plan := by
  have hnone : ∀ {w : PlanWorker}, e.workers[i]? ≠ some w := fun hw =>
    absurd (List.getElem?_eq_some_iff.mp hw).1 (not_lt.mpr hi)
  rcases h.worker_cases hstep hw' with hw | ⟨plan,-,hlast,hplan,hstart⟩ | ⟨w,c,-,-,hw,-⟩ | ⟨w,ev',-,hw,-⟩
  · exact absurd hw hnone
  · exact ⟨plan,hlast,hplan,hstart⟩
  · exact absurd hw hnone
  · exact absurd hw hnone

/-- Only the forwarding tasks send to the executor. -/
theorem channels_step (h : e.step ev = some t) (hplan : ∀ plan, ev ≠ .sendPlan plan)
    (hcancel : ∀ cancel, ev ≠ .sendCancel cancel) : t.planTx = e.planTx ∧ t.cancelTx = e.cancelTx := by
  cases step_move h with
  | sendPlan _ => exact absurd rfl (hplan _)
  | sendCancel => exact absurd rfl (hcancel _)
  | @signal c _ => exact ⟨(signal_frame e c).1,(signal_frame e c).2.1⟩
  | @worker i w ev _ _ hworker =>
    cases ev with
    | signal => cases hworker
    | senderDropped => cases hworker
    | _ =>
      obtain ⟨w',-,rfl⟩ := Option.map_eq_some_iff.mp hworker
      exact ⟨rfl,rfl⟩
  | _ => exact ⟨rfl,rfl⟩

end Executor

namespace TradingLoop
variable {cfg : StrategyConfig} {storage : Bool} {s t : TradingLoop} {ev : TradingEvent}

def handled (s : TradingLoop) : List ExecutionReport :=
  s.reportTx.take (s.received - s.engine.monitor.held?.toList.length)

def reportsOf (planId : String) (reports : List ExecutionReport) : List ExecutionReport :=
  reports.filter fun r => r.planId = planId

theorem reportsOf_concat_self (reports : List ExecutionReport) (r : ExecutionReport) :
    reportsOf r.planId (reports ++ [r]) = reportsOf r.planId reports ++ [r] := by
  simp [reportsOf]

theorem reportsOf_concat_ne (reports : List ExecutionReport) {r : ExecutionReport} {planId : String}
    (h : r.planId ≠ planId) : reportsOf planId (reports ++ [r]) = reportsOf planId reports := by
  simp [reportsOf, h]

structure Channels (s : TradingLoop) : Prop where
  plans : s.executor.planTx <+: s.engine.execTx
  cancels : s.executor.cancelTx <+: s.engine.execCancelTx
  delivered_le : ∀ (i : ℕ) (w : PlanWorker), s.workers[i]? = some w → s.delivered i ≤ w.reports.length
  delivered : ∀ (i : ℕ) (w : PlanWorker), s.workers[i]? = some w →
    reportsOf w.plan.id s.reportTx = w.reports.take (s.delivered i)
  untouched : ∀ i, s.workers.length ≤ i → s.delivered i = 0
  owned : ∀ r ∈ s.reportTx, ∃ (i : ℕ) (w : PlanWorker), s.workers[i]? = some w ∧ w.plan.id = r.planId
  forwarded : s.forwarded ≤ s.reportTx.length
  received : s.received ≤ s.forwarded
  held : s.reportTx.take s.received = s.handled ++ s.engine.monitor.held?.toList

theorem channels_new : new.Channels :=
  ⟨List.prefix_rfl,List.prefix_rfl,fun i w h => by simp [new, workers, Executor.new] at h,
    fun i w h => by simp [new, workers, Executor.new] at h,fun _ _ => rfl,nofun,le_rfl,le_rfl,rfl⟩

section Moves

/-- The engine applies what it holds, and takes up nothing but the next report. -/
theorem Channels.engineMove (hs : s.Channels) {ev' : EngineEvent} {l : Ledger}
    (hmove : Engine.Move cfg storage s.engine ev' l.engine) (hown : ∀ report, ev' ≠ .report report) :
    Channels { s with ledger := l } := by
  obtain ⟨hplans,hcancels⟩ := hmove.sent_prefix
  refine ⟨hs.plans.trans hplans,hs.cancels.trans hcancels,hs.delivered_le,hs.delivered,hs.untouched,hs.owned,
    hs.forwarded,hs.received,?_⟩
  rcases hmove.held_cases with ⟨report,hev,-⟩ | ⟨report,-,-,hnone⟩ | ⟨-,hsame⟩
  · exact absurd hev (hown report)
  · simp [handled, engine, hnone]
  · have hheld := hs.held
    simp only [handled, engine] at hheld ⊢
    rw [hsame]
    exact hheld

theorem Channels.receiveReport (hs : s.Channels) {report : ExecutionReport} {l : Ledger}
    (hlt : s.received < s.forwarded) (hreport : s.reportTx[s.received]? = some report)
    (hmove : Engine.Move cfg storage s.engine (.report report) l.engine) :
    Channels { s with ledger := l, received := s.received + 1 } := by
  obtain ⟨hplans,hcancels⟩ := hmove.sent_prefix
  refine ⟨hs.plans.trans hplans,hs.cancels.trans hcancels,hs.delivered_le,hs.delivered,hs.untouched,hs.owned,
    hs.forwarded,hlt,?_⟩
  rcases hmove.held_cases with ⟨report',hev,-,hsome⟩ | ⟨-,⟨i,hev⟩,-⟩ | ⟨hne,-⟩
  · cases hev
    simp [handled, engine, hsome, List.take_add_one, hreport]
  · cases hev
  · exact absurd rfl (hne report)

theorem Channels.forwardPlan (hs : s.Channels) {plan : TradePlan} {e : Executor}
    (hplan : s.engine.execTx[s.executor.planTx.length]? = some plan)
    (he : s.executor.step (.sendPlan plan) = some e) : Channels { s with executor := e } := by
  cases Executor.step_move he with
  | sendPlan _ => exact ⟨prefix_concat hs.plans hplan,hs.cancels,hs.delivered_le,hs.delivered,hs.untouched,hs.owned,
      hs.forwarded,hs.received,hs.held⟩

theorem Channels.forwardCancel (hs : s.Channels) {cancel : CancelRequest} {e : Executor}
    (hcancel : s.engine.execCancelTx[s.executor.cancelTx.length]? = some cancel)
    (he : s.executor.step (.sendCancel cancel) = some e) : Channels { s with executor := e } := by
  cases Executor.step_move he with
  | sendCancel => exact ⟨hs.plans,prefix_concat hs.cancels hcancel,hs.delivered_le,hs.delivered,hs.untouched,hs.owned,
      hs.forwarded,hs.received,hs.held⟩

theorem Channels.reportsOf_eq_nil (hs : s.Channels) (hwired : s.executor.Wired) {plan : TradePlan}
    (hplan : s.executor.planTx[s.workers.length]? = some plan) : reportsOf plan.id s.reportTx = [] := by
  refine List.filter_eq_nil_iff.mpr fun r hr hid => ?_
  obtain ⟨i,w,hw,hwid⟩ := hs.owned r hr
  have hlt := (List.getElem?_eq_some_iff.mp hw).1
  have hi := hwired.plans i w hw
  refine hlt.ne ((List.getElem?_inj ?_ hwired.ids).mp ?_)
  · rw [List.length_map]
    exact (List.getElem?_eq_some_iff.mp hi).1
  · rw [List.getElem?_map, List.getElem?_map, hi, hplan, Option.map_some, Option.map_some,
      hwid.trans (of_decide_eq_true hid)]

theorem Channels.executorMove (hs : s.Channels) (hwired : s.executor.Wired) {ev' : ExecutorEvent} {e : Executor}
    (hfree : s.executorFree ev' = true) (he : s.executor.step ev' = some e) :
    Channels { s with executor := e } := by
  obtain ⟨hplanTx,hcancelTx⟩ := Executor.channels_step he (by rintro plan rfl; cases hfree)
    (by rintro cancel rfl; cases hfree)
  have hkept : ∀ (i : ℕ) (w' : PlanWorker), e.workers[i]? = some w' →
      (∃ w, s.workers[i]? = some w ∧ w'.plan = w.plan ∧ w.reports <+: w'.reports) ∨
        i = s.workers.length ∧ ∃ plan, s.executor.planTx[i]? = some plan ∧ w' = .start plan := by
    intro i w' hw'
    rcases lt_or_ge i s.workers.length with hi | hi
    · obtain ⟨w'',hw'',hplan,hreports⟩ := hwired.worker_kept he (List.getElem?_eq_getElem hi)
      cases hw'.symm.trans hw''
      exact .inl ⟨_,List.getElem?_eq_getElem hi,hplan,hreports⟩
    · obtain ⟨plan,hlast,hplan,hstart⟩ := hwired.worker_new he hw' hi
      exact .inr ⟨hlast,plan,hplan,hstart⟩
  refine ⟨hplanTx ▸ hs.plans,hcancelTx ▸ hs.cancels,fun i w' hw' => ?_,fun i w' hw' => ?_,fun i hi => ?_,
    fun r hr => ?_,hs.forwarded,hs.received,hs.held⟩
  · rcases hkept i w' hw' with ⟨w,hw,-,hreports⟩ | ⟨rfl,plan,-,rfl⟩
    · exact (hs.delivered_le i w hw).trans hreports.length_le
    · exact (hs.untouched _ le_rfl).le
  · rcases hkept i w' hw' with ⟨w,hw,hplan,hreports⟩ | ⟨rfl,plan,hplan,rfl⟩
    · have hle := hs.delivered_le i w hw
      obtain ⟨later,hlater⟩ := hreports
      rw [hplan, ← hlater, List.take_append_of_le_length hle]
      exact hs.delivered i w hw
    · exact (hs.reportsOf_eq_nil hwired hplan).trans List.take_nil.symm
  · refine hs.untouched i (le_trans ?_ hi)
    by_contra hlt
    obtain ⟨w',hw',-⟩ := hwired.worker_kept he (List.getElem?_eq_getElem (not_le.mp hlt))
    exact absurd (List.getElem?_eq_some_iff.mp hw').1 (lt_irrefl _)
  · obtain ⟨i,w,hw,hid⟩ := hs.owned r hr
    obtain ⟨w',hw',hplan,-⟩ := hwired.worker_kept he hw
    exact ⟨i,w',hw',hplan ▸ hid⟩

theorem Channels.deliver (hs : s.Channels) (hwired : s.executor.Wired) {i : ℕ} {w : PlanWorker}
    {report : ExecutionReport} (hw : s.workers[i]? = some w) (hreport : w.reports[s.delivered i]? = some report)
    (hid : report.planId = w.plan.id) :
    Channels { s with
      reportTx := s.reportTx ++ [report]
      delivered := Function.update s.delivered i (s.delivered i + 1) } := by
  have hlt : s.delivered i < w.reports.length := (List.getElem?_eq_some_iff.mp hreport).1
  refine ⟨hs.plans,hs.cancels,fun j v hv => ?_,fun j v hv => ?_,fun j hj => ?_,fun r hr => ?_,?_,hs.received,?_⟩
  · by_cases hij : j = i
    · subst hij
      cases hv.symm.trans hw
      dsimp only
      rw [Function.update_self]
      exact hlt
    · dsimp only
      rw [Function.update_of_ne hij]
      exact hs.delivered_le j v hv
  · by_cases hij : j = i
    · subst hij
      cases hv.symm.trans hw
      dsimp only
      rw [Function.update_self, ← hid, reportsOf_concat_self, List.take_add_one, hreport, hid, hs.delivered _ _ hv]
      rfl
    · have hne : report.planId ≠ v.plan.id := fun heq => hij (hwired.index_eq hv hw (heq.symm.trans hid))
      dsimp only
      rw [Function.update_of_ne hij, reportsOf_concat_ne _ hne]
      exact hs.delivered j v hv
  · have hij : j ≠ i := (lt_of_lt_of_le (List.getElem?_eq_some_iff.mp hw).1 hj).ne'
    dsimp only
    rw [Function.update_of_ne hij]
    exact hs.untouched j hj
  · rcases List.mem_append.mp hr with hr | hr
    · exact hs.owned r hr
    · cases List.mem_singleton.mp hr
      exact ⟨i,w,hw,hid.symm⟩
  · exact hs.forwarded.trans (List.length_append ▸ Nat.le_add_right _ _)
  · have hle := hs.received.trans hs.forwarded
    have hheld := hs.held
    simp only [handled] at hheld ⊢
    rw [List.take_append_of_le_length hle, List.take_append_of_le_length ((Nat.sub_le _ _).trans hle)]
    exact hheld

end Moves

structure Coupled (cfg : StrategyConfig) (s : TradingLoop) : Prop where
  parties : s.Parties cfg
  channels : s.Channels

theorem coupled_new (cfg : StrategyConfig) : new.Coupled cfg := ⟨parties_new cfg,channels_new⟩

theorem Coupled.planId_of_report (hs : s.Coupled cfg) {i n : ℕ} {w : PlanWorker} {report : ExecutionReport}
    (hw : s.workers[i]? = some w) (hreport : w.reports[n]? = some report) : report.planId = w.plan.id := by
  obtain ⟨leg,-,houtcome⟩ := (hs.parties.quiet i w hw).1.getElem? hreport
  exact houtcome.planId

theorem Coupled.step (hs : s.Coupled cfg) (h : s.step cfg storage ev = some t) : t.Coupled cfg := by
  have hmove := step_move h
  refine ⟨hs.parties.move hmove,?_⟩
  cases hmove with
  | engine hown hl =>
    exact hs.channels.engineMove (Ledger.step_eq_some hl).2.1 (by rintro report rfl; cases hown)
  | receiveReport hlt hreport hl => exact hs.channels.receiveReport hlt hreport (Ledger.step_eq_some hl).2.1
  | forwardPlan hplan he => exact hs.channels.forwardPlan hplan he
  | forwardCancel hcancel he => exact hs.channels.forwardCancel hcancel he
  | forwardReport hlt =>
    obtain ⟨hplans,hcancels,hle,hdelivered,huntouched,howned,-,hreceived,hheld⟩ := hs.channels
    exact ⟨hplans,hcancels,hle,hdelivered,huntouched,howned,hlt,hreceived.trans (Nat.le_succ _),hheld⟩
  | executor hfree he => exact hs.channels.executorMove hs.parties.wired hfree he
  | deliver hw hreport =>
    exact hs.channels.deliver hs.parties.wired hw hreport (hs.planId_of_report hw hreport)

theorem coupled_run {events : List TradingEvent} (h : run (step cfg storage) new events = some s) : s.Coupled cfg :=
  run_invariant (fun _ _ _ hs hstep => hs.step hstep) (coupled_new cfg) h

end TradingLoop

end ArbCore
