import ArbCore.Demo.LoopOutcomes
import ArbCore.Execution.EveryLeg
import ArbCore.Library.Rest

/-! # The trading loop comes to rest

Without new views and ticks each step brings the loop nearer to its end: a message weighs
less after each hop, and what a step sends weighs less than the step. No step is left only
when every plan has been reported and handled, whatever the bounded channels hold back.
-/
namespace ArbCore
open LabelledRun Oneshot

section Engine

/-- What the detector loop may still do; a plan that it sends weighs 91. -/
def DetectorPhase.work : DetectorPhase → ℕ
  | .recv | .stopped | .panicked | .unsent .. => 0
  | .received _ => 206
  | .pending rest => 102 * rest.length + 1
  | .counted _ rest _ => 102 * rest.length + 102
  | .planned _ rest => 102 * rest.length + 101
  | .registered _ rest => 102 * rest.length + 94
  | .sent rest | .rejecting rest => 102 * rest.length + 2

def DetectorPhase.Waits : DetectorPhase → Prop
  | .recv | .stopped | .panicked => True
  | _ => False

instance : DecidablePred DetectorPhase.Waits
  | .recv | .stopped | .panicked => isTrue trivial
  | .received _ | .pending _ | .counted .. | .planned .. | .registered .. | .sent _ | .unsent ..
  | .rejecting _ => isFalse id

/-- What the monitor loop may still do with `n` plans in the map; a request weighs 3. -/
def MonitorPhase.work (n : ℕ) : MonitorPhase → ℕ
  | .select | .stopped => 0
  | .reported _ => 7
  | .storing .. => 6
  | .applying _ => 5
  | .executed => 1
  | .scanning _ => 6 * n + 2
  | .cancelling toCancel => 6 * toCancel.length + 1
  | .removing _ toCancel => 6 * toCancel.length + 3
  | .cancelled toCancel => 6 * toCancel.length + 2

theorem MonitorPhase.work_le {m n : ℕ} (h : m ≤ n + 1) (phase : MonitorPhase) : phase.work m ≤ phase.work n + 6 := by
  cases phase <;> simp only [work] <;> omega

theorem length_applyReport_cancels (infl : HashMap InFlightPlan) (report : ExecutionReport) :
    (applyReport infl report).2.1.length ≤ 1 := by
  rcases applyReport_effect infl report with ⟨-,happly⟩ | ⟨p,cancels,-,-,happly,hcancels⟩ | ⟨p,p',-,-,happly⟩
  · simp [happly]
  · rcases hcancels with rfl | rfl <;> simp [happly]
  · simp [happly]

def EngineEvent.inner : EngineEvent → Bool
  | .monitor _ => true
  | .detector i => i.sendOk
  | _ => false

namespace Engine
variable {cfg : StrategyConfig} {storage : Bool} {e t : Engine} {ev : EngineEvent}

def work (e : Engine) : ℕ := e.detector.work + e.monitor.work e.inflight.keys.length +
  91 * e.execTx.length + 3 * e.execCancelTx.length

theorem work_detectorMove {i : DetectorInput} (h : DetectorMove cfg e i t) (hok : i.sendOk = true)
    (he : e.Running) : t.work < e.work := by
  cases h with
  | detected hphase hops =>
    have hle := length_detect_le hops
    simp only [work, hphase, DetectorPhase.work]
    omega
  | @takenUp op rest n hphase =>
    have hle : (takeUp cfg op rest n i.planId).work ≤ 102 * rest.length + 101 := by
      rcases @takeUp_cases _ cfg op rest n i.planId with ⟨plan,hp⟩ | hp | hp
      · rw [hp]
        exact le_rfl
      · rw [hp]
        exact Nat.add_le_add_left (by norm_num) _
      · rw [hp]
        exact Nat.zero_le _
    have hcounted : e.detector.work = 102 * rest.length + 102 := by
      rw [hphase]
      rfl
    simp only [work, hcounted]
    omega
  | @registered plan rest hphase =>
    have hle := MonitorPhase.work_le (length_keys_insert e.inflight plan.id (.register cfg plan i.now)) e.monitor
    simp only [work, hphase, DetectorPhase.work]
    omega
  | unsent _ hfailed => cases hok.symm.trans hfailed
  | unregistered hphase => exact absurd hphase (he.unsent _ _)
  | sent hphase _ =>
    simp only [work, hphase, DetectorPhase.work, List.length_append, List.length_singleton]
    omega
  | _ hphase =>
    simp only [work, hphase, DetectorPhase.work, List.length_cons, List.length_nil]
    omega

theorem work_monitorMove {i : MonitorInput} (h : MonitorMove storage e i t) : t.work < e.work := by
  cases h with
  | @applied report hphase =>
    have hle := length_applyReport_cancels e.inflight report
    simp only [work, hphase, MonitorPhase.work, List.length_append]
    cases (applyReport e.inflight report).2.2 <;> simp only [↓reduceIte, Bool.false_eq_true] <;> omega
  | @scanned now hphase horder =>
    have hle : i.order.length ≤ e.inflight.keys.length := by
      rw [horder.length_eq, timedOut, List.length_map, AList.keys, List.keys, List.length_map]
      exact List.length_filter_le _ _
    simp only [work, hphase, MonitorPhase.work]
    omega
  | cancelSent hphase =>
    simp only [work, hphase, MonitorPhase.work, List.length_append, List.length_cons, List.length_nil]
    omega
  | _ hphase =>
    simp only [work, hphase, MonitorPhase.work, List.length_nil]
    omega

/-- Every inner step of the engine lowers its work, whatever it sends. -/
theorem Move.work_lt (h : Move cfg storage e ev t) (hinner : ev.inner = true) (he : e.Running) : t.work < e.work := by
  cases h with
  | detector hmove => exact work_detectorMove hmove hinner he
  | monitor hmove => exact work_monitorMove hmove
  | _ => cases hinner

end Engine

end Engine

namespace PlanWorker
variable {w t : PlanWorker} {ev : WorkerEvent}

def work (w : PlanWorker) (delivered : ℕ) : ℕ := 11 * w.stepsLeft + 10 * (w.reports.length - delivered)

theorem length_reports_step (h : LegReports w.plan w) (hstep : w.step ev = some t) :
    t.reports.length ≤ w.reports.length + 1 := by
  obtain ⟨-,done,legs,-,hawaits,-⟩ := h
  rcases awaits_move (step_move hstep) hawaits with ⟨-,hreports⟩ | ⟨leg,rest,r,-,-,hreports,-⟩
  · rw [hreports]
    exact Nat.le_succ _
  · rw [hreports, List.length_append, List.length_singleton]

theorem work_step (h : LegReports w.plan w) (hown : Own ev) (hstep : w.step ev = some t) :
    t.work w.reports.length < w.work w.reports.length := by
  have hlt := stepsLeft_lt hown (step_move hstep)
  have hreports := length_reports_step h hstep
  rw [work, work]
  omega

end PlanWorker

namespace Executor
variable {e t : Executor} {ev : ExecutorEvent}

structure Takes (e : Executor) : Prop where
  plans : e.plansTaken ≤ e.planTx.length
  cancels : e.cancelsTaken ≤ e.cancelTx.length

theorem takes_new : new.Takes := ⟨le_rfl,le_rfl⟩

theorem receivePlan_eq_some (h : e.step .receivePlan = some t) : e.planReceived = false ∧
    e.workers.length < e.planTx.length ∧ t = { e with planReceived := true } := by
  simp only [step] at h
  split_ifs at h with hroom
  exact ⟨hroom.1,hroom.2,(Option.some.inj h).symm⟩

theorem spawn_eq_some (h : e.step .spawn = some t) : e.planReceived = true ∧
    ∃ plan, e.planTx[e.workers.length]? = some plan ∧
      t = { e with planReceived := false, workers := e.workers ++ [.start plan] } := by
  simp only [step] at h
  split_ifs at h with hreceived
  obtain ⟨plan,hplan,rfl⟩ := Option.map_eq_some_iff.mp h
  exact ⟨hreceived,plan,hplan,rfl⟩

theorem receiveCancel_eq_some (h : e.step .receiveCancel = some t) : e.cancelReceived = false ∧
    e.cancelsDone < e.cancelTx.length ∧ t = { e with cancelReceived := true } := by
  simp only [step] at h
  split_ifs at h with hroom
  exact ⟨hroom.1,hroom.2,(Option.some.inj h).symm⟩

theorem signal_eq_some (h : e.step .signal = some t) : e.cancelReceived = true ∧
    ∃ cancel, e.cancelTx[e.cancelsDone]? = some cancel ∧ t = e.signal cancel := by
  simp only [step] at h
  split_ifs at h with hreceived
  obtain ⟨cancel,hcancel,rfl⟩ := Option.map_eq_some_iff.mp h
  exact ⟨hreceived,cancel,hcancel,rfl⟩

theorem signal_received (e : Executor) (cancel : CancelRequest) :
    (e.signal cancel).planReceived = e.planReceived ∧ (e.signal cancel).cancelReceived = false ∧
      (e.signal cancel).workers.length = e.workers.length := by
  rw [signal]
  dsimp only
  split
  · exact ⟨rfl,rfl,List.length_modify ..⟩
  · exact ⟨rfl,rfl,rfl⟩

theorem takes_step (h : e.Takes) (hwired : e.Wired) (hstep : e.step ev = some t) : t.Takes := by
  obtain ⟨hplans,hcancels⟩ := h
  rw [plansTaken] at hplans
  rw [cancelsTaken] at hcancels
  cases ev with
  | sendPlan plan =>
    cases step_move hstep with
    | sendPlan _ => exact ⟨hplans.trans (List.length_append ▸ Nat.le_add_right _ _),hcancels⟩
  | sendCancel cancel =>
    cases step_move hstep with
    | sendCancel => exact ⟨hplans,hcancels.trans (List.length_append ▸ Nat.le_add_right _ _)⟩
  | receivePlan =>
    obtain ⟨-,hlt,rfl⟩ := receivePlan_eq_some hstep
    exact ⟨hlt,hcancels⟩
  | spawn =>
    obtain ⟨-,plan,hplan,rfl⟩ := spawn_eq_some hstep
    refine ⟨?_,hcancels⟩
    rw [plansTaken, List.length_append]
    exact (List.getElem?_eq_some_iff.mp hplan).1
  | receiveCancel =>
    obtain ⟨-,hlt,rfl⟩ := receiveCancel_eq_some hstep
    exact ⟨hplans,hlt⟩
  | signal =>
    obtain ⟨-,cancel,hcancel,rfl⟩ := signal_eq_some hstep
    obtain ⟨hplanTx,hcancelTx,hdone⟩ := signal_frame e cancel
    obtain ⟨hplanReceived,hcancelReceived,hworkers⟩ := signal_received e cancel
    refine ⟨?_,?_⟩
    · rw [plansTaken, hplanTx, hplanReceived, hworkers]
      exact hplans
    · rw [cancelsTaken, hcancelTx, hcancelReceived, hdone]
      exact (List.getElem?_eq_some_iff.mp hcancel).1
  | worker i ev =>
    cases step_move hstep with
    | worker hw hworker =>
      obtain ⟨-,w',-,rfl⟩ := hwired.workerStep_eq hw hworker
      refine ⟨?_,hcancels⟩
      rw [plansTaken, List.length_set]
      exact hplans

end Executor

namespace Executor
variable {e t : Executor} {ev : ExecutorEvent}

/-- Whoever has finished has left the cancel map, and whoever panicked has spent the signal. -/
def Ends (e : Executor) : Prop := ∀ (i : ℕ) (w : PlanWorker), e.workers[i]? = some w → w.EndsBy

theorem ends_new : new.Ends := fun i w hw => by simp [new] at hw

theorem ends_step (h : e.Ends) (hwired : e.Wired) (hstep : e.step ev = some t) : t.Ends := by
  intro i w' hw'
  rcases hwired.worker_cases hstep hw' with hw | ⟨plan,-,-,-,rfl⟩ | ⟨w,c,-,-,hw,-,rfl⟩ | ⟨w,ev',-,hw,-,hworker⟩
  · exact h i w' hw
  · exact ⟨nofun,nofun⟩
  · exact PlanWorker.endsBy_move (h i w hw) .signal
  · exact PlanWorker.endsBy_move (h i w hw) (PlanWorker.step_move hworker)

theorem Wired.registered_of_ended (hwired : e.Wired) (hends : e.Ends) {i : ℕ} {w : PlanWorker}
    (hw : e.workers[i]? = some w) (hended : w.Ended) : w.registered = false := by
  rcases hended with hphase | hphase
  · exact (hends i w hw).removed hphase
  · rcases hwired.linked i w hw with ⟨-,hreg,-⟩ | ⟨-,-,hrx,-⟩ | ⟨-,hreg,-⟩
    · exact hreg
    · cases hrx.symm.trans ((hends i w hw).resolved hphase)
    · exact hreg

end Executor

/-- Everything but a new view or tick. -/
def TradingEvent.inner : TradingEvent → Bool
  | .engine ev => ev.inner
  | _ => true

namespace TradingLoop
variable {cfg : StrategyConfig} {storage : Bool} {s t : TradingLoop} {ev : TradingEvent}

section Work

def workerWork (s : TradingLoop) (i : ℕ) : ℕ := (s.workers[i]?.map (PlanWorker.work · (s.delivered i))).getD 0

def workersWork (s : TradingLoop) : ℕ := ∑ i ∈ Finset.range s.workers.length, s.workerWork i

/-- What the loop may still do: a plan weighs 91, 90 and 89 before its worker takes it up, a
request 3, 2 and 1, and a report 10, 9 and 8 before the monitor receives it. -/
def work (s : TradingLoop) : ℕ :=
  (s.engine.work - 91 * s.executor.planTx.length - 3 * s.executor.cancelTx.length) +
    (90 * (s.executor.planTx.length - s.executor.plansTaken) + 89 * s.executor.planReceived.toNat) +
    (2 * (s.executor.cancelTx.length - s.executor.cancelsTaken) + s.executor.cancelReceived.toNat) +
    (9 * (s.reportTx.length - s.forwarded) + 8 * (s.forwarded - s.received)) + s.workersWork

theorem workerWork_eq {i : ℕ} {w : PlanWorker} (hw : s.workers[i]? = some w) :
    s.workerWork i = w.work (s.delivered i) := by
  rw [workerWork, hw]
  rfl

theorem workersWork_set {i : ℕ} {w w' : PlanWorker} (hw : s.workers[i]? = some w)
    (hworkers : t.workers = s.workers.set i w') (hdelivered : t.delivered = s.delivered) :
    t.workersWork + w.work (s.delivered i) = s.workersWork + w'.work (s.delivered i) := by
  have hi := (List.getElem?_eq_some_iff.mp hw).1
  have hw' : t.workers[i]? = some w' := by
    rw [hworkers]
    exact List.getElem?_set_self hi
  rw [workersWork, workersWork, hworkers, List.length_set, ← workerWork_eq hw, ← hdelivered, ← workerWork_eq hw']
  refine sum_range_add_eq hi fun j _ hij => ?_
  rw [workerWork, workerWork, hworkers, List.getElem?_set_ne (Ne.symm hij), hdelivered]

theorem workersWork_deliver {i : ℕ} {w : PlanWorker} (hw : s.workers[i]? = some w)
    (hlt : s.delivered i < w.reports.length) (hworkers : t.workers = s.workers)
    (hdelivered : t.delivered = Function.update s.delivered i (s.delivered i + 1)) :
    t.workersWork + 10 = s.workersWork := by
  have hi := (List.getElem?_eq_some_iff.mp hw).1
  have hw' : t.workers[i]? = some w := hworkers ▸ hw
  have hsum := @sum_range_add_eq t.workerWork s.workerWork _ i hi fun j _ hij => by
    rw [workerWork, workerWork, hworkers, hdelivered, Function.update_of_ne hij]
  rw [workerWork_eq hw, workerWork_eq hw', hdelivered, Function.update_self, PlanWorker.work, PlanWorker.work] at hsum
  rw [workersWork, workersWork, hworkers]
  omega

theorem workersWork_spawn {plan : TradePlan} (hlegs : plan.legs.length = 3)
    (hworkers : t.workers = s.workers ++ [.start plan]) (hdelivered : t.delivered = s.delivered)
    (hzero : s.delivered s.workers.length = 0) : t.workersWork = s.workersWork + 88 := by
  rw [workersWork, workersWork, hworkers, List.length_append, List.length_singleton, Finset.sum_range_succ]
  have hlast : t.workerWork s.workers.length = 88 := by
    have hw : t.workers[s.workers.length]? = some (.start plan) := by
      rw [hworkers]
      simp
    rw [workerWork_eq hw, hdelivered, hzero]
    simp [PlanWorker.work, PlanWorker.stepsLeft, PlanWorker.start, hlegs]
  rw [hlast]
  refine congrArg (· + 88) (Finset.sum_congr rfl fun j hj => ?_)
  rw [workerWork, workerWork, hworkers, hdelivered, List.getElem?_append_left (Finset.mem_range.mp hj)]

theorem Coupled.le_work (hc : s.Coupled cfg) :
    91 * s.executor.planTx.length + 3 * s.executor.cancelTx.length ≤ s.engine.work := by
  have hplans := hc.channels.plans.length_le
  have hcancels := hc.channels.cancels.length_le
  rw [Engine.work]
  omega

theorem executor_work_lt (hc : s.Coupled cfg) (htakes : s.executor.Takes) {ev' : ExecutorEvent} {e : Executor}
    (hfree : s.executorFree ev' = true) (he : s.executor.step ev' = some e) :
    work { s with executor := e } < s.work := by
  obtain ⟨hplans,hcancels⟩ := htakes
  have hwired := hc.parties.wired
  cases ev' with
  | sendPlan plan => cases hfree
  | sendCancel cancel => cases hfree
  | receivePlan =>
    obtain ⟨hreceived,hlt,rfl⟩ := Executor.receivePlan_eq_some he
    have hsame : workersWork { s with executor := { s.executor with planReceived := true } } = s.workersWork := rfl
    simp only [work, engine, hsame, Executor.plansTaken, Executor.cancelsTaken, hreceived, Bool.toNat_true,
      Bool.toNat_false]
    omega
  | spawn =>
    obtain ⟨hreceived,plan,hplan,rfl⟩ := Executor.spawn_eq_some he
    have hbuilt := hc.parties.accounted.built
      (Engine.mem_registeredPlans_of_sent (hc.channels.plans.subset (List.mem_of_getElem? hplan)))
    have hsum := @workersWork_spawn s { s with executor := { s.executor with
      planReceived := false, workers := s.executor.workers ++ [.start plan] } } plan hbuilt.legs_length rfl rfl
      (hc.channels.untouched _ le_rfl)
    simp only [work, engine, hsum, Executor.plansTaken, Executor.cancelsTaken, hreceived, Bool.toNat_true,
      Bool.toNat_false, List.length_append, List.length_singleton]
    omega
  | receiveCancel =>
    obtain ⟨hreceived,hlt,rfl⟩ := Executor.receiveCancel_eq_some he
    have hsame : workersWork { s with executor := { s.executor with cancelReceived := true } } = s.workersWork := rfl
    simp only [work, engine, hsame, Executor.plansTaken, Executor.cancelsTaken, hreceived, Bool.toNat_true,
      Bool.toNat_false]
    omega
  | signal =>
    obtain ⟨hreceived,cancel,-,rfl⟩ := Executor.signal_eq_some he
    obtain ⟨hplanTx,hcancelTx,hdone⟩ := Executor.signal_frame s.executor cancel
    obtain ⟨hplanReceived,hcancelReceived,hlength⟩ := Executor.signal_received s.executor cancel
    have hsum : workersWork { s with executor := s.executor.signal cancel } = s.workersWork := by
      rcases hwired.signal_cases cancel with ⟨-,hworkers,-⟩ | ⟨i,w,-,hw,-,-,hworkers,-⟩
      · simp only [workersWork, workerWork, workers, hworkers]
      · exact Nat.add_right_cancel (@workersWork_set s { s with executor := s.executor.signal cancel } i w w.signalled
          hw hworkers rfl)
    simp only [work, engine, hsum, Executor.plansTaken, Executor.cancelsTaken, hplanTx, hcancelTx, hdone, hplanReceived,
      hcancelReceived, hlength, hreceived, Bool.toNat_true, Bool.toNat_false]
    omega
  | worker i ev' =>
    cases Executor.step_move he with
    | @worker _ w _ _ hw hworker =>
      obtain ⟨hown,w',hw',rfl⟩ := hwired.workerStep_eq hw hworker
      have hdelivered : s.delivered i = w.reports.length := by
        have hw : s.workers[i]? = some w := hw
        simpa [executorFree, hw] using hfree
      have hlt := PlanWorker.work_step (hwired.reports w (List.mem_of_getElem? hw)) hown hw'
      have hsum := @workersWork_set s { s with executor := { s.executor with
        workers := s.executor.workers.set i w', cancelMap := s.executor.mapAfter i w ev' } } i w w' hw rfl rfl
      rw [hdelivered] at hsum
      dsimp only at hsum
      simp only [work, engine, Executor.plansTaken, Executor.cancelsTaken, List.length_set]
      omega

/-- Every inner step lowers the work. -/
theorem work_lt (hc : s.Coupled cfg) (htakes : s.executor.Takes) (hinner : ev.inner = true)
    (h : s.step cfg storage ev = some t) : t.work < s.work := by
  have hle := hc.le_work
  have hle' := (hc.step h).le_work
  have htakes' := htakes
  obtain ⟨hplans,hcancels⟩ := htakes'
  cases step_move h with
  | @engine ev' l hown hl =>
    have hlt := (Ledger.step_eq_some hl).2.1.work_lt hinner hc.parties.accounted.distinct.running
    have hsame : workersWork { s with ledger := l } = s.workersWork := rfl
    simp only [work, engine, hsame] at hle' ⊢
    have hlt' : l.engine.work < s.ledger.engine.work := hlt
    simp only [engine] at hle
    omega
  | @receiveReport report l hlt hreport hl =>
    have hwork : l.engine.work = s.engine.work + 7 := by
      have hmove := (Ledger.step_eq_some hl).2.1
      generalize l.engine = e at hmove
      cases hmove with
      | report hphase =>
        simp only [Engine.work, hphase, engine, MonitorPhase.work]
        omega
    have hsame : workersWork { s with ledger := l, received := s.received + 1 } = s.workersWork := rfl
    simp only [work, engine, hsame] at hle' hwork ⊢
    simp only [engine] at hle
    omega
  | @forwardPlan plan e hplan he =>
    cases Executor.step_move he with
    | sendPlan _ =>
      have hsame : workersWork { s with executor := { s.executor with planTx := s.executor.planTx ++ [plan] } } =
        s.workersWork := rfl
      simp only [work, engine, hsame, Executor.plansTaken, Executor.cancelsTaken, List.length_append,
        List.length_singleton] at hle' ⊢
      rw [Executor.plansTaken] at hplans
      simp only [engine] at hle
      omega
  | @forwardCancel cancel e hcancel he =>
    cases Executor.step_move he with
    | sendCancel =>
      have hsame : workersWork { s with executor := { s.executor with cancelTx := s.executor.cancelTx ++ [cancel] } } =
        s.workersWork := rfl
      simp only [work, engine, hsame, Executor.plansTaken, Executor.cancelsTaken, List.length_append,
        List.length_singleton] at hle' ⊢
      rw [Executor.cancelsTaken] at hcancels
      simp only [engine] at hle
      omega
  | forwardReport hlt =>
    have hreceived := hc.channels.received
    have hsame : workersWork { s with forwarded := s.forwarded + 1 } = s.workersWork := rfl
    simp only [work, engine, hsame]
    omega
  | executor hfree he => exact executor_work_lt hc htakes hfree he
  | @deliver i w report hw hreport =>
    have hforwarded := hc.channels.forwarded
    have hsum := @workersWork_deliver s { s with
      reportTx := s.reportTx ++ [report], delivered := Function.update s.delivered i (s.delivered i + 1) } i w hw
      (List.getElem?_eq_some_iff.mp hreport).1 rfl rfl
    simp only [work, engine, List.length_append, List.length_singleton]
    omega

end Work

section Rest

/-- No step is left without a new view or tick. -/
def Resting (cfg : StrategyConfig) (storage : Bool) (s : TradingLoop) : Prop :=
  AtRest (step cfg storage) (fun ev => ev.inner = true) s

theorem Resting.engine_eq_none (hr : s.Resting cfg storage) (ev' : EngineEvent) (hinner : ev'.inner = true) :
    s.ledger.step cfg storage ev' = none := by
  have hown : ev'.own = true := by
    cases ev' with
    | monitor _ => rfl
    | detector _ => exact hinner
    | _ => cases hinner
  have hnone := hr (.engine ev') hinner
  simpa [step, hown] using hnone

theorem Resting.monitor (hr : s.Resting cfg storage) (hc : s.Coupled cfg) : s.engine.monitor = .select := by
  have hnone : ∀ i, s.engine.monitorStep storage i = none := by
    intro i
    have hnone := hr.engine_eq_none (.monitor i) rfl
    simpa [engine, Ledger.step, Engine.built, Engine.step] using hnone
  cases hphase : s.engine.monitor with
  | select => rfl
  | stopped => exact absurd hphase hc.parties.accounted.distinct.running.monitor
  | scanning now =>
    have hscan := hnone ⟨true,timedOut s.engine.inflight now⟩
    simp [Engine.monitorStep, hphase, List.isPerm_iff.mpr (List.Perm.refl _)] at hscan
  | cancelling toCancel =>
    have hcancel := hnone ⟨true,[]⟩
    cases toCancel <;> simp [Engine.monitorStep, hphase] at hcancel
  | _ =>
    have hstep := hnone ⟨true,[]⟩
    simp [Engine.monitorStep, hphase] at hstep

/-- The detector waits for a view, or a division has stopped it. -/
theorem Resting.detector (hr : s.Resting cfg storage) (hc : s.Coupled cfg) :
    s.engine.detector = .recv ∨ s.engine.detector = .panicked := by
  obtain ⟨id,hid⟩ := Infinite.exists_notMem_finset s.ledger.planIds.toFinset
  have hfresh : ∀ plan, s.ledger.engine.built cfg (.detector ⟨id,0,true⟩) = some plan → plan.id ∉ s.ledger.planIds := by
    intro plan hbuilt
    simp only [Engine.built] at hbuilt
    split at hbuilt
    · split at hbuilt
      · rename_i htake
        cases hbuilt
        rw [(buildTradePlan_legs (Engine.takeUp_planned htake).2.2.2).1]
        exact fun hmem => hid (List.mem_toFinset.mpr hmem)
      · cases hbuilt
    · cases hbuilt
  have hnone : s.engine.detectorStep cfg ⟨id,0,true⟩ = none := by
    have hnone := hr.engine_eq_none (.detector ⟨id,0,true⟩) rfl
    rw [Ledger.step, if_neg, Option.map_eq_none_iff] at hnone
    · exact hnone
    · rw [Option.any_eq_true]
      rintro ⟨plan,hbuilt,hmem⟩
      exact hfresh plan hbuilt (of_decide_eq_true hmem)
  cases hphase : s.engine.detector with
  | recv => exact .inl rfl
  | panicked => exact .inr rfl
  | stopped => exact absurd hphase hc.parties.accounted.distinct.running.detector
  | received view =>
    simp only [Engine.detectorStep, hphase] at hnone
    split at hnone <;> cases hnone
  | pending rest => cases rest <;> simp [Engine.detectorStep, hphase] at hnone
  | _ => simp [Engine.detectorStep, hphase] at hnone

theorem Resting.forwarded (hr : s.Resting cfg storage) (hc : s.Coupled cfg) :
    s.forwarded = s.reportTx.length := by
  have hnone := hr .forwardReport rfl
  simp only [step] at hnone
  split_ifs at hnone with hlt
  exact le_antisymm hc.channels.forwarded (not_lt.mp hlt)

theorem Resting.received (hr : s.Resting cfg storage) (hc : s.Coupled cfg) : s.received = s.forwarded := by
  refine le_antisymm hc.channels.received (not_lt.mp fun hlt => ?_)
  have hreport := List.getElem?_eq_getElem (hlt.trans_le hc.channels.forwarded)
  have hphase : s.ledger.engine.monitor = .select := hr.monitor hc
  have hnone := hr .receiveReport rfl
  simp [step, hlt, hreport, Ledger.step, Engine.built, Engine.step, hphase] at hnone

theorem Resting.handled_eq (hr : s.Resting cfg storage) (hc : s.Coupled cfg) : s.handled = s.reportTx := by
  rw [handled, hr.monitor hc, hr.received hc, hr.forwarded hc]
  exact List.take_length

theorem Resting.worker (hr : s.Resting cfg storage) (hc : s.Coupled cfg) {i : ℕ} {w : PlanWorker}
    (hw : s.workers[i]? = some w) : s.delivered i = w.reports.length ∧ w.Ended := by
  have hdelivered : s.delivered i = w.reports.length := by
    refine le_antisymm (hc.channels.delivered_le i w hw) (not_lt.mp fun hlt => ?_)
    have hroom : s.reportTx.length < s.forwarded + boundedCapacity := by
      rw [hr.forwarded hc]
      exact Nat.lt_add_of_pos_right (by decide)
    have hnone := hr (.deliver i) rfl
    simp [step, hroom, hw, List.getElem?_eq_getElem hlt] at hnone
  refine ⟨hdelivered,not_not.mp fun hended => ?_⟩
  obtain ⟨ev,hown,hsome⟩ := PlanWorker.exists_own_step hended
  obtain ⟨w',hw'⟩ := Option.isSome_iff_exists.mp hsome
  have hnone := hr (.executor (.worker i ev)) rfl
  have hfree : s.executorFree (.worker i ev) = true := by simp [executorFree, hw, hdelivered]
  have hexecutor : s.executor.workers[i]? = some w := hw
  rw [step, if_pos hfree, Option.map_eq_none_iff, Executor.step, hexecutor, Option.bind_some] at hnone
  cases ev with
  | signal => exact hown
  | senderDropped => exact hown
  | _ => simp [Executor.workerStep, hw'] at hnone

theorem Resting.planTx (hr : s.Resting cfg storage) (htakes : s.executor.Takes) :
    s.executor.planReceived = false ∧ s.workers.length = s.executor.planTx.length := by
  have hplans := htakes.plans
  rw [Executor.plansTaken] at hplans
  have hreceived : s.executor.planReceived = false := by
    by_contra hne
    have htrue : s.executor.planReceived = true := (Bool.not_eq_false _).mp hne
    rw [htrue, Bool.toNat_true] at hplans
    have hnone := hr (.executor .spawn) rfl
    simp [step, executorFree, Executor.step, htrue, List.getElem?_eq_getElem (Nat.lt_of_succ_le hplans)] at hnone
  rw [hreceived, Bool.toNat_false, Nat.add_zero] at hplans
  refine ⟨hreceived,le_antisymm hplans (not_lt.mp fun hlt => ?_)⟩
  have hwaiting : s.executor.workers.length < s.executor.planTx.length := hlt
  have hnone := hr (.executor .receivePlan) rfl
  simp [step, executorFree, Executor.step, hreceived, hwaiting] at hnone

theorem Resting.execTx (hr : s.Resting cfg storage) (hc : s.Coupled cfg) (htakes : s.executor.Takes) :
    s.executor.planTx = s.engine.execTx := by
  obtain ⟨hreceived,hworkers⟩ := hr.planTx htakes
  refine hc.channels.plans.eq_of_length_le (not_lt.mp fun hlt => ?_)
  have hplan := List.getElem?_eq_getElem hlt
  have hroom : s.executor.planTx.length < s.executor.plansTaken + boundedCapacity := by
    rw [Executor.plansTaken, hreceived, ← hworkers]
    exact Nat.lt_add_of_pos_right (by decide)
  have hids : (s.engine.execTx.map TradePlan.id).Nodup :=
    hc.parties.accounted.distinct.ids.sublist ((List.sublist_append_left _ _).map _)
  have hfresh : (s.engine.execTx[s.executor.planTx.length]).id ∉ s.executor.planTx.map TradePlan.id := by
    intro hmem
    obtain ⟨j,hj,heq⟩ := List.getElem_of_mem hmem
    rw [List.length_map] at hj
    rw [List.getElem_map, hc.channels.plans.getElem hj] at heq
    have hsame := List.inj_on_of_nodup_map hids (List.getElem_mem _) (List.getElem_mem _) heq
    exact hj.ne ((List.Nodup.of_map _ hids).getElem_inj_iff.mp hsame)
  have hnone := hr .forwardPlan rfl
  simp only [step, hroom, ↓reduceIte, hplan, Option.bind_some, Executor.step, if_neg hfresh, Option.map_some,
    reduceCtorEq] at hnone

theorem Resting.cancelTx (hr : s.Resting cfg storage) (hc : s.Coupled cfg) (htakes : s.executor.Takes) :
    s.executor.cancelReceived = false ∧ s.executor.cancelsDone = s.executor.cancelTx.length ∧
      s.executor.cancelTx = s.engine.execCancelTx := by
  have hcancels := htakes.cancels
  rw [Executor.cancelsTaken] at hcancels
  have hreceived : s.executor.cancelReceived = false := by
    by_contra hne
    have htrue : s.executor.cancelReceived = true := (Bool.not_eq_false _).mp hne
    rw [htrue, Bool.toNat_true] at hcancels
    have hnone := hr (.executor .signal) rfl
    simp [step, executorFree, Executor.step, htrue, List.getElem?_eq_getElem (Nat.lt_of_succ_le hcancels)] at hnone
  rw [hreceived, Bool.toNat_false, Nat.add_zero] at hcancels
  have hdone : s.executor.cancelsDone = s.executor.cancelTx.length := by
    refine le_antisymm hcancels (not_lt.mp fun hlt => ?_)
    have hnone := hr (.executor .receiveCancel) rfl
    simp [step, executorFree, Executor.step, hreceived, hlt] at hnone
  refine ⟨hreceived,hdone,hc.channels.cancels.eq_of_length_le (not_lt.mp fun hlt => ?_)⟩
  have hroom : s.executor.cancelTx.length < s.executor.cancelsTaken + boundedCapacity := by
    rw [Executor.cancelsTaken, hreceived, hdone]
    exact Nat.lt_add_of_pos_right (by decide)
  have hnone := hr .forwardCancel rfl
  simp only [step, hroom, ↓reduceIte, List.getElem?_eq_getElem hlt, Option.bind_some, Executor.step,
    Option.map_some, reduceCtorEq] at hnone

theorem Resting.plans (hr : s.Resting cfg storage) (hc : s.Coupled cfg) (htakes : s.executor.Takes) :
    s.workers.map PlanWorker.plan = s.engine.execTx := by
  have hworkers := (hr.planTx htakes).2
  rw [← hr.execTx hc htakes]
  refine List.ext_getElem? fun i => ?_
  rw [List.getElem?_map]
  cases hw : s.workers[i]? with
  | none =>
    have hlen : s.executor.planTx.length ≤ i := hworkers ▸ List.getElem?_eq_none_iff.mp hw
    rw [List.getElem?_eq_none_iff.mpr hlen]
    rfl
  | some w => exact (hc.parties.wired.plans i w hw).symm

theorem Resting.registeredPlans (hr : s.Resting cfg storage) (hc : s.Coupled cfg) :
    s.engine.registeredPlans = s.engine.execTx ∧ s.engine.detector.unsubmitted = 0 := by
  rcases hr.detector hc with hphase | hphase
  · simp [Engine.registeredPlans, hphase, DetectorPhase.registered?, DetectorPhase.unsubmitted]
  · simp [Engine.registeredPlans, hphase, DetectorPhase.registered?, DetectorPhase.unsubmitted]

theorem Resting.handledOf_eq (hr : s.Resting cfg storage) (hc : s.Coupled cfg) {i : ℕ} {w : PlanWorker}
    (hw : s.workers[i]? = some w) : s.handledOf w.plan.id = w.reports := by
  rw [handledOf, hr.handled_eq hc, hc.channels.delivered i w hw, (hr.worker hc hw).1, List.take_length]

/-- A plan still in the map would have a worker that nothing disturbed and that has filled
all its legs. -/
theorem Resting.inflight (hr : s.Resting cfg storage) (hc : s.Coupled cfg) (hs : s.Served cfg)
    (htakes : s.executor.Takes) : s.engine.inflight.keys = [] := by
  refine List.eq_nil_iff_forall_not_mem.mpr fun id hid => ?_
  have hmem : id ∈ s.engine.inflight := hid
  obtain ⟨p,hp⟩ := Option.isSome_iff_exists.mp (AList.lookup_isSome.mpr hmem)
  obtain ⟨hplan,rfl⟩ := hc.parties.accounted.distinct.entries id p hp
  have hsent : p.plan ∈ s.workers.map PlanWorker.plan := by
    rw [hr.plans hc htakes, ← (hr.registeredPlans hc).1]
    exact hplan
  obtain ⟨w,hw,hwplan⟩ := List.mem_map.mp hsent
  obtain ⟨i,hw⟩ := List.mem_iff_getElem?.mp hw
  obtain ⟨k,hk,now,hhandled,-⟩ := hs.inflight_eq hc hplan hp
  obtain ⟨houtcomes,hdisturbed⟩ := hc.parties.quiet i w hw
  have hnotMem := hc.parties.accounted.cancels.notMem fun _ _ hphase => by
    cases (hr.monitor hc).symm.trans hphase
  have hundisturbed : w.Undisturbed := by
    refine hdisturbed.resolve_left fun ⟨c,hcancelled,hcid⟩ => ?_
    refine hnotMem c (hc.channels.cancels.subset (List.mem_of_mem_take hcancelled)) ?_
    rw [hcid, hwplan]
    exact hmem
  have hfinished : w.phase = .finished := (hr.worker hc hw).2.resolve_right hundisturbed.panicked
  have hlength := houtcomes.length_reports hfinished
  rw [← hr.handledOf_eq hc hw, hwplan, hhandled, List.length_take, TradePlan.fullFills, List.length_map] at hlength
  omega

/-- Nothing is left in the channels, the monitor waits, the detector waits or has panicked,
and the workers have ended. -/
def Drained (s : TradingLoop) : Prop :=
  (s.engine.detector.Waits ∧ s.engine.monitor.Idle) ∧ s.received = s.forwarded ∧ s.forwarded = s.reportTx.length ∧
    (s.executor.planReceived = false ∧ s.workers.length = s.executor.planTx.length ∧
      s.executor.planTx.length = s.engine.execTx.length) ∧
    (s.executor.cancelReceived = false ∧ s.executor.cancelsDone = s.executor.cancelTx.length ∧
      s.executor.cancelTx.length = s.engine.execCancelTx.length) ∧
    ∀ i < s.workers.length, ∀ w ∈ s.workers[i]?, s.delivered i = w.reports.length ∧ w.stepsLeft = 0

instance (s : TradingLoop) : Decidable s.Drained := inferInstanceAs (Decidable (_ ∧ _))

theorem resting_of_drained (hwired : s.executor.Wired) (h : s.Drained) : s.Resting cfg storage := by
  obtain ⟨hidle,hreceived,hforwarded,⟨hplanReceived,hworkers,hplanTx⟩,⟨hcancelReceived,hdone,hcancelTx⟩,hended⟩ := h
  have hworker : ∀ {i : ℕ} {w : PlanWorker}, s.workers[i]? = some w →
      s.delivered i = w.reports.length ∧ w.stepsLeft = 0 := fun hw =>
    hended _ (List.getElem?_eq_some_iff.mp hw).1 _ hw
  intro ev hinner
  cases hstep : s.step cfg storage ev with
  | none => rfl
  | some t =>
    exfalso
    cases step_move hstep with
    | @engine ev' l hown hl =>
      have hmove := (Ledger.step_eq_some hl).2.1
      generalize l.engine = e at hmove
      obtain ⟨hdetector,hmonitor⟩ := hidle
      cases hmove with
      | detector hmove => cases hmove <;> simp_all [engine, DetectorPhase.Waits]
      | monitor hmove => cases hmove <;> simp_all [engine, MonitorPhase.Idle]
      | _ => cases hinner
    | receiveReport hlt _ _ => omega
    | forwardPlan hplan _ =>
      have hlt := (List.getElem?_eq_some_iff.mp hplan).1
      omega
    | forwardCancel hcancel _ =>
      have hlt := (List.getElem?_eq_some_iff.mp hcancel).1
      omega
    | forwardReport hlt => omega
    | deliver hw hreport =>
      have hlt := (List.getElem?_eq_some_iff.mp hreport).1
      have hdelivered := (hworker hw).1
      omega
    | @executor ev' e hfree he =>
      cases ev' with
      | sendPlan _ => cases hfree
      | sendCancel _ => cases hfree
      | receivePlan =>
        have hlt := (Executor.receivePlan_eq_some he).2.1
        exact hlt.ne hworkers
      | spawn => cases hplanReceived.symm.trans (Executor.spawn_eq_some he).1
      | receiveCancel =>
        have hlt := (Executor.receiveCancel_eq_some he).2.1
        omega
      | signal => cases hcancelReceived.symm.trans (Executor.signal_eq_some he).1
      | worker i ev' =>
        cases Executor.step_move he with
        | worker hw hworkerStep =>
          obtain ⟨hown,w',hw',-⟩ := hwired.workerStep_eq hw hworkerStep
          have hlt := PlanWorker.stepsLeft_lt hown (PlanWorker.step_move hw')
          exact absurd hlt ((hworker hw).2 ▸ Nat.not_lt_zero _)

theorem Resting.drained (hr : s.Resting cfg storage) (hc : s.Coupled cfg) (htakes : s.executor.Takes) : s.Drained := by
  obtain ⟨hplanReceived,hworkers⟩ := hr.planTx htakes
  obtain ⟨hcancelReceived,hdone,hcancelTx⟩ := hr.cancelTx hc htakes
  refine ⟨⟨?_,by rw [hr.monitor hc]; trivial⟩,hr.received hc,hr.forwarded hc,
    ⟨hplanReceived,hworkers,congrArg _ (hr.execTx hc htakes)⟩,⟨hcancelReceived,hdone,congrArg _ hcancelTx⟩,?_⟩
  · rcases hr.detector hc with hphase | hphase
    · rw [hphase]
      trivial
    · rw [hphase]
      trivial
  · intro i _ w hw
    obtain ⟨hdelivered,hended⟩ := hr.worker hc hw
    refine ⟨hdelivered,?_⟩
    rcases hended with hphase | hphase
    · rw [PlanWorker.stepsLeft, hphase]
    · rw [PlanWorker.stepsLeft, hphase]

end Rest

section Results

structure Bounded (cfg : StrategyConfig) (s : TradingLoop) : Prop where
  coupled : s.Coupled cfg
  takes : s.executor.Takes
  ends : s.executor.Ends

theorem Bounded.step (hs : s.Bounded cfg) (h : s.step cfg storage ev = some t) : t.Bounded cfg := by
  obtain ⟨hc,htakes,hends⟩ := hs
  rcases (step_move h).executor_cases with heq | ⟨ev',he⟩
  · exact ⟨hc.step h,heq ▸ htakes,heq ▸ hends⟩
  · exact ⟨hc.step h,Executor.takes_step htakes hc.parties.wired he,Executor.ends_step hends hc.parties.wired he⟩

theorem bounded_run {events : List TradingEvent} (h : run (step cfg storage) new events = some s) : s.Bounded cfg :=
  run_invariant (fun _ _ _ hs hstep => hs.step hstep) ⟨coupled_new cfg,Executor.takes_new,Executor.ends_new⟩ h

/-- From every state that the loop reaches it comes to rest when no view and no tick arrives any
more and every insert returns: it takes no more steps than its work, in whatever order, none is
left exactly when the loop is drained, and it always gets there. -/
theorem comes_to_rest {events : List TradingEvent} (hrun : run (step cfg storage) new events = some s) :
    (∀ later t, (∀ ev ∈ later, ev.inner = true) → run (step cfg storage) s later = some t →
      later.length + t.work ≤ s.work ∧ (t.Resting cfg storage ↔ t.Drained)) ∧
    ∃ t, Reaches (step cfg storage) (fun ev => ev.inner = true) s t ∧ t.Resting cfg storage ∧ t.Drained := by
  have hs : s.Bounded cfg := bounded_run hrun
  have hlower : ∀ (s : TradingLoop) (ev : TradingEvent) (t : TradingLoop), s.Bounded cfg → ev.inner = true →
      s.step cfg storage ev = some t → t.work < s.work := fun s ev t hs hinner h => work_lt hs.coupled hs.takes hinner h
  have hrest : ∀ {t : TradingLoop}, t.Bounded cfg → (t.Resting cfg storage ↔ t.Drained) := fun ht =>
    ⟨fun hr => hr.drained ht.coupled ht.takes,resting_of_drained ht.coupled.parties.wired⟩
  refine ⟨fun later t hinner h => ⟨?_,hrest (run_invariant (fun _ _ _ hs h => hs.step h) hs h)⟩,?_⟩
  · exact run_length_add_le (fun _ _ _ hs h => hs.step h) hlower hs hinner h
  · obtain ⟨t,hreaches,hat⟩ := exists_atRest (fun _ _ _ hs h => hs.step h) hlower hs
    have ht : t.Bounded cfg := hreaches.invariant (fun _ _ _ _ hs h => Bounded.step hs h) hs
    exact ⟨t,hreaches,hat,(hrest ht).mp hat⟩

/-- When the loop is at rest every plan sent has a worker, each worker has ended and all its
reports have been handled. No plan is in flight and no sender is left in the cancel map, and
the plans submitted are those executed and those cancelled. -/
theorem rest_accounts {events : List TradingEvent} (hrun : run (step cfg storage) new events = some s)
    (hrest : s.Resting cfg storage) :
    s.workers.map PlanWorker.plan = s.engine.execTx ∧
      (∀ w ∈ s.workers, w.Ended ∧ s.handledOf w.plan.id = w.reports) ∧
      s.engine.inflight.keys = [] ∧ s.executor.cancelMap.keys = [] ∧
      s.engine.metrics.plansSubmitted = s.engine.execTx.length ∧
      s.engine.metrics.plansSubmitted = s.engine.metrics.plansExecuted + s.engine.metrics.plansCancelled := by
  obtain ⟨hc,hs⟩ := served_run hrun
  obtain ⟨-,htakes,hends⟩ := bounded_run hrun
  have hinflight := hrest.inflight hc hs htakes
  have hsubmitted := hc.parties.accounted.submitted
  have hlength := hc.parties.accounted.length_registeredPlans
  change s.engine.metrics.plansSubmitted + s.engine.detector.unsubmitted = s.engine.registeredPlans.length at hsubmitted
  change s.engine.registeredPlans.length = s.engine.inflight.keys.length + s.engine.metrics.plansExecuted +
    s.engine.metrics.plansCancelled + s.engine.monitor.uncounted at hlength
  rw [(hrest.registeredPlans hc).1, (hrest.registeredPlans hc).2, Nat.add_zero] at hsubmitted
  rw [(hrest.registeredPlans hc).1, hinflight, hrest.monitor hc] at hlength
  refine ⟨hrest.plans hc htakes,fun w hw => ?_,hinflight,?_,hsubmitted,?_⟩
  · obtain ⟨i,hw⟩ := List.mem_iff_getElem?.mp hw
    exact ⟨(hrest.worker hc hw).2,hrest.handledOf_eq hc hw⟩
  · refine List.eq_nil_iff_forall_not_mem.mpr fun id hid => ?_
    have hmem : id ∈ s.executor.cancelMap := hid
    obtain ⟨i,hi⟩ := Option.isSome_iff_exists.mp (AList.lookup_isSome.mpr hmem)
    obtain ⟨w,hw,-,hreg⟩ := hc.parties.wired.entries id i hi
    have hnot := hc.parties.wired.registered_of_ended hends hw (hrest.worker hc hw).2
    cases hreg.symm.trans hnot
  · rw [hsubmitted, hlength, List.length_nil, Nat.zero_add]
    rfl

def tradeOneToRest : List TradingEvent :=
  tradeOne ++ [.engine (.detector ⟨"p2",0,true⟩),.executor (.worker 0 .cleanup)]

theorem comes_to_rest_planOne :
    ∃ s, run (step plainConfig true) new planOne = some s ∧
      ∃ t, Reaches (step plainConfig true) (fun ev => ev.inner = true) s t ∧ t.Resting plainConfig true ∧ t.Drained :=
  ⟨(run (step plainConfig true) new planOne).get (by decide +kernel),(Option.some_get _).symm,
    (comes_to_rest (Option.some_get _).symm).2⟩

theorem rest_accounts_tradeOne :
    ∃ s, run (step plainConfig true) new tradeOneToRest = some s ∧ s.engine.metrics.plansSubmitted =
      s.engine.metrics.plansExecuted + s.engine.metrics.plansCancelled := by
  have hrun : run (step plainConfig true) new tradeOneToRest =
      some ((run (step plainConfig true) new tradeOneToRest).get (by decide +kernel)) := (Option.some_get _).symm
  have hrest := @resting_of_drained plainConfig true _ (coupled_run hrun).parties.wired (by decide +kernel)
  exact ⟨_,hrun,(rest_accounts hrun hrest).2.2.2.2.2⟩

end Results

end TradingLoop

end ArbCore
