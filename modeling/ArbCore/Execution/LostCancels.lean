import ArbCore.Execution.Executor

/-! # Lost cancels

A cancel signal reaches the worker of its plan exactly if the worker has registered by
then. It stops the next leg, unless the passive leg under way takes it.
-/
namespace ArbCore
open Oneshot LabelledRun

namespace PlanWorker
variable {n : ℕ} {w t : PlanWorker} {ev : WorkerEvent}

def begun (w : PlanWorker) : ℕ :=
  match w.phase with
  | .registering => 0
  | .checking _ | .finished => w.reports.length
  | .sleeping _ _ | .selecting _ _ | .panicked => w.reports.length + 1

/-- The signal is there, and the leg is the next one to begin. -/
def Pending (n : ℕ) (w : PlanWorker) : Prop := w.rx = .ready () ∧ w.begun = n

def Stopped (n : ℕ) (w : PlanWorker) : Prop :=
  w.rx = .taken ∧ ∃ r, w.reports[n]? = some r ∧ r.status = .cancelled

/-- The signal is gone, and the leg is not reported as cancelled. -/
def Spent (n : ℕ) (w : PlanWorker) : Prop :=
  w.rx = .taken ∧ ∀ r, w.reports[n]? = some r → r.status ≠ .cancelled

/-- The signal stops the next leg, unless the leg under way takes it. -/
theorem pending_move (h : w.Pending n) (hphase : w.phase ≠ .registering) (hown : Own ev)
    (hmove : Move w ev t) :
    (ev ≠ .select false ∧ (t.Pending n ∨ t.Stopped n)) ∨ (ev = .select false ∧ t.Spent n) := by
  obtain ⟨hrx,rfl⟩ := h
  cases hmove with
  | register hphase' => exact absurd hphase' hphase
  | signal => exact hown.elim
  | senderDropped => exact hown.elim
  | @checkCancelled leg rest hphase' _ =>
    refine .inl ⟨fun h => WorkerEvent.noConfusion h,.inr ?_⟩
    refine ⟨rfl,⟨w.plan.id,leg.legIdx,0,leg.qty,.cancelled⟩,?_,rfl⟩
    simp [report, begun, hphase']
  | sleep _ hnot => exact absurd hrx hnot
  | select _ hnot => exact absurd hrx hnot
  | filled hphase' =>
    refine .inl ⟨fun h => WorkerEvent.noConfusion h,.inl ⟨hrx,?_⟩⟩
    simp [report, begun, hphase']
  | unfilled hphase' _ =>
    have hother : WorkerEvent.select true ≠ .select false := fun h =>
      Bool.noConfusion (WorkerEvent.select.inj h)
    refine .inl ⟨hother,.inl ⟨hrx,?_⟩⟩
    simp [report, begun, hphase']
  | selectCancelled hphase' _ =>
    refine .inr ⟨rfl,rfl,fun r hr => ?_⟩
    simp [report, begun, hphase'] at hr
  | panicked _ htaken => cases hrx.symm.trans htaken
  | cleanup hphase' =>
    refine .inl ⟨fun h => WorkerEvent.noConfusion h,.inl ⟨?_,by simp [begun, hphase']⟩⟩
    simp [hrx, Receiver.dropSender]

/-- Without the signal no leg is reported as cancelled any more. -/
theorem taken_move (hrx : w.rx = .taken) (hmove : Move w ev t) : t.rx = .taken ∧
    (t.reports = w.reports ∨ ∃ r, t.reports = w.reports ++ [r] ∧ r.status ≠ .cancelled) := by
  cases hmove with
  | register _ => exact ⟨hrx,.inl rfl⟩
  | signal => exact ⟨by simp [hrx],.inl rfl⟩
  | senderDropped => exact ⟨by simp [hrx],.inl rfl⟩
  | checkCancelled _ hready => cases hrx.symm.trans hready
  | sleep _ _ => exact ⟨by simp [hrx],.inl rfl⟩
  | select _ _ => exact ⟨by simp [hrx],.inl rfl⟩
  | filled _ => exact ⟨hrx,.inr ⟨_,rfl,nofun⟩⟩
  | unfilled _ hnot => exact absurd hrx hnot
  | selectCancelled _ hnot => exact absurd hrx hnot
  | panicked _ _ => exact ⟨hrx,.inl rfl⟩
  | cleanup _ => exact ⟨by simp [hrx],.inl rfl⟩

theorem stopped_move (h : w.Stopped n) (hmove : Move w ev t) : t.Stopped n := by
  obtain ⟨hrx,r,hr,hstatus⟩ := h
  obtain ⟨hrx',hreports | ⟨r',hreports,-⟩⟩ := taken_move hrx hmove
  · exact ⟨hrx',r,hreports ▸ hr,hstatus⟩
  · refine ⟨hrx',r,?_,hstatus⟩
    rw [hreports]
    exact (List.getElem?_append_left (List.getElem?_eq_some_iff.mp hr).1).trans hr

theorem spent_move (h : w.Spent n) (hmove : Move w ev t) : t.Spent n := by
  obtain ⟨hrx,hnot⟩ := h
  obtain ⟨hrx',hreports | ⟨r',hreports,hstatus⟩⟩ := taken_move hrx hmove
  · exact ⟨hrx',hreports ▸ hnot⟩
  · refine ⟨hrx',fun r hr => ?_⟩
    rw [hreports, List.getElem?_append] at hr
    split_ifs at hr
    · exact hnot r hr
    · cases List.mem_singleton.mp (List.mem_of_getElem? hr)
      exact hstatus

theorem registered_move (hphase : w.phase ≠ .registering) (hreg : w.registered = false) (hown : Own ev)
    (hmove : Move w ev t) : t.registered = false := by
  cases hmove with
  | register hphase' => exact absurd hphase' hphase
  | signal => exact hown.elim
  | senderDropped => exact hown.elim
  | cleanup _ => rfl
  | _ => exact hreg

end PlanWorker

namespace Executor
variable {e s t u : Executor} {ev : ExecutorEvent} {i n : ℕ} {P Q : PlanWorker → Prop}

def begun (e : Executor) (i : ℕ) : ℕ := (e.workers[i]?.map PlanWorker.begun).getD 0

def Registered (e : Executor) (i : ℕ) : Prop := ∃ w, e.workers[i]? = some w ∧ w.phase ≠ .registering

def Signalled (e : Executor) (i : ℕ) : Prop := ∃ w, e.workers[i]? = some w ∧ w.rx = .ready ()

def ReportsCancelled (e : Executor) (i n : ℕ) : Prop :=
  ∃ w r, e.workers[i]? = some w ∧ w.reports[n]? = some r ∧ r.status = .cancelled

/-- The passive leg under way is resolved by the signal. -/
def TakesSignal (i : ℕ) (e : Executor) (ev : ExecutorEvent) : Prop :=
  ev = .worker i (.select false) ∧ e.Signalled i

def Left (e : Executor) (i : ℕ) (P : PlanWorker → Prop) : Prop :=
  ∃ w, e.workers[i]? = some w ∧ w.phase ≠ .registering ∧ w.registered = false ∧ P w

theorem begun_eq {w : PlanWorker} (hw : e.workers[i]? = some w) : e.begun i = w.begun := by
  rw [begun, hw]
  rfl

theorem wired_run {events : List ExecutorEvent} (hs : s.Wired) (h : run step s events = some t) : t.Wired :=
  run_invariant (fun _ _ _ hwired hstep => wired_step hwired hstep) hs h

theorem worker_of_step {w : PlanWorker} (h : e.Wired) (hw : e.workers[i]? = some w)
    (hreg : w.registered = false) (hstep : e.step ev = some t) :
    t.workers[i]? = some w ∨ ∃ ev' w', ev = .worker i ev' ∧ PlanWorker.Own ev' ∧ w.step ev' = some w' ∧
      t.workers[i]? = some w' := by
  cases step_move hstep with
  | spawn _ => exact .inl ((List.getElem?_append_left (List.getElem?_eq_some_iff.mp hw).1).trans hw)
  | @signal cancel _ =>
    rcases h.signal_cases cancel with ⟨-,hworkers,-⟩ | ⟨j,v,-,hv,-,hvreg,hworkers,-⟩
    · exact .inl (hworkers ▸ hw)
    · have hij : j ≠ i := by
        rintro rfl
        cases hv.symm.trans hw
        cases hreg.symm.trans hvreg
      rw [hworkers]
      exact .inl ((List.getElem?_set_ne hij).trans hw)
  | @worker j v ev' _ hv hworker =>
    obtain ⟨hown,v',hv',rfl⟩ := h.workerStep_eq hv hworker
    by_cases hij : j = i
    · subst hij
      cases hv.symm.trans hw
      exact .inr ⟨ev',v',rfl,hown,hv',List.getElem?_set_self (List.getElem?_eq_some_iff.mp hw).1⟩
    · exact .inl ((List.getElem?_set_ne hij).trans hw)
  | _ => exact .inl hw

theorem Left.step (h : e.Left i P) (hwired : e.Wired) (hstep : e.step ev = some t)
    (hkeep : ∀ w, P w → Q w)
    (hmove : ∀ w w' ev', P w → w.phase ≠ .registering → ev = .worker i ev' → PlanWorker.Own ev' →
      PlanWorker.Move w ev' w' → Q w') : t.Left i Q := by
  obtain ⟨w,hw,hphase,hreg,hP⟩ := h
  rcases worker_of_step hwired hw hreg hstep with hsame | ⟨ev',w',hev,hown,hw',hafter⟩
  · exact ⟨w,hsame,hphase,hreg,hkeep w hP⟩
  · have hm := PlanWorker.step_move hw'
    exact ⟨w',hafter,PlanWorker.phase_ne_registering hown hm,PlanWorker.registered_move hphase hreg hown hm,
      hmove w w' ev' hP hphase hev hown hm⟩

theorem Left.stage_step (h : e.Left i fun w => w.Pending n ∨ w.Stopped n ∨ w.Spent n) (hwired : e.Wired)
    (hstep : e.step ev = some t) : t.Left i fun w => w.Pending n ∨ w.Stopped n ∨ w.Spent n := by
  refine h.step hwired hstep (fun _ hw => hw) fun w w' ev' hw hphase _ hown hmove => ?_
  rcases hw with hw | hw | hw
  · rcases PlanWorker.pending_move hw hphase hown hmove with ⟨-,hw' | hw'⟩ | ⟨-,hw'⟩
    · exact .inl hw'
    · exact .inr (.inl hw')
    · exact .inr (.inr hw')
  · exact .inr (.inl (PlanWorker.stopped_move hw hmove))
  · exact .inr (.inr (PlanWorker.spent_move hw hmove))

theorem Left.unspent_step (h : e.Left i fun w => w.Pending n ∨ w.Stopped n) (hwired : e.Wired)
    (hkeeps : ¬ TakesSignal i e ev) (hstep : e.step ev = some t) :
    t.Left i fun w => w.Pending n ∨ w.Stopped n := by
  obtain ⟨v,hv,hphase,hreg,hstage | hstage⟩ := h
  · have hpending : e.Left i fun w => w.Pending n := ⟨v,hv,hphase,hreg,hstage⟩
    refine hpending.step hwired hstep (fun _ hw => .inl hw) fun w w' ev' hw hphase hev hown hmove => ?_
    rcases PlanWorker.pending_move hw hphase hown hmove with ⟨-,hw'⟩ | ⟨rfl,-⟩
    · exact hw'
    · exact absurd ⟨hev,v,hv,hstage.1⟩ hkeeps
  · have hstopped : e.Left i fun w => w.Stopped n := ⟨v,hv,hphase,hreg,hstage⟩
    exact hstopped.step hwired hstep (fun _ hw => .inr hw) fun w w' ev' hw _ _ _ hmove =>
      .inr (PlanWorker.stopped_move hw hmove)

theorem Left.spent_of_takesSignal (h : e.Left i fun w => w.Pending n ∨ w.Stopped n ∨ w.Spent n)
    (hwired : e.Wired) (htakes : TakesSignal i e ev) (hstep : e.step ev = some t) :
    t.Left i fun w => w.Spent n := by
  obtain ⟨rfl,v,hv,hready⟩ := htakes
  obtain ⟨w,hw,hphase,hreg,hstage⟩ := h
  cases hv.symm.trans hw
  have hpending : v.Pending n := by
    rcases hstage with hstage | hstage | hstage
    · exact hstage
    · cases hready.symm.trans hstage.1
    · cases hready.symm.trans hstage.1
  obtain ⟨v',hv',hworker⟩ := Option.bind_eq_some_iff.mp hstep
  cases hv'.symm.trans hv
  obtain ⟨hown,w',hw',rfl⟩ := hwired.workerStep_eq hv hworker
  have hmove := PlanWorker.step_move hw'
  rcases PlanWorker.pending_move hpending hphase hown hmove with ⟨hne,-⟩ | ⟨-,hspent⟩
  · exact absurd rfl hne
  · exact ⟨w',List.getElem?_set_self (List.getElem?_eq_some_iff.mp hv).1,
      PlanWorker.phase_ne_registering hown hmove,PlanWorker.registered_move hphase hreg hown hmove,hspent⟩

theorem Left.signalled (h : e.Left i fun w => w.Pending n) : e.Signalled i := by
  obtain ⟨w,hw,-,-,hready,-⟩ := h
  exact ⟨w,hw,hready⟩

theorem step_signal {c : CancelRequest} (hc : s.cancelTx[s.cancelsDone]? = some c)
    (ht : s.step .signal = some t) : t = s.signal c := by
  cases step_move ht with
  | signal hcancel =>
    cases hcancel.symm.trans hc
    rfl

section Delivery
variable {c : CancelRequest} {plan : TradePlan}

/-- The first request for a plan reaches its worker if the worker has registered. -/
theorem Wired.left_pending (h : s.Wired) (hfirst : ∀ c' ∈ s.cancelled, c'.planId ≠ c.planId)
    (hplan : s.planTx[i]? = some plan) (hid : plan.id = c.planId)
    (hlegs : s.begun i < plan.legs.length) (hreg : s.Registered i) :
    (s.signal c).Left i fun w => w.Pending (s.begun i) := by
  obtain ⟨w,hw,hphase⟩ := hreg
  cases (h.plans i w hw).symm.trans hplan
  rcases h.linked i w hw with ⟨hfresh,-,-⟩ | ⟨-,-,hrx,hlookup⟩ | ⟨-,-,hfinished | ⟨c',hc',hcid⟩⟩
  · exact absurd hfresh hphase
  · rw [hid] at hlookup
    rcases h.signal_cases c with ⟨hnone,-,-⟩ | ⟨j,v,hj,hv,-,-,hworkers,-⟩
    · cases hnone.symm.trans hlookup
    · cases hj.symm.trans hlookup
      cases hv.symm.trans hw
      refine ⟨w.signalled,?_,hphase,rfl,?_,(begun_eq hw).symm⟩
      · rw [hworkers]
        exact List.getElem?_set_self (List.getElem?_eq_some_iff.mp hw).1
      · rw [PlanWorker.signalled, hrx, Receiver.send]
  · have hall := ((h.reports w (List.mem_of_getElem? hw)).covers_of_finished hfinished).length_eq
    have hbegun : s.begun i = w.reports.length := by rw [begun_eq hw, PlanWorker.begun, hfinished]
    omega
  · exact absurd (hcid.trans hid) (hfirst c' hc')

theorem Wired.registered_of_signalled (h : s.Wired) (hsignalled : (s.signal c).Signalled i) :
    s.Registered i := by
  obtain ⟨w',hw',hready⟩ := hsignalled
  by_contra hnot
  have hfresh : ∀ w, s.workers[i]? = some w → w.registered = false ∧ w.rx = .waiting := by
    intro w hw
    rcases h.linked i w hw with ⟨-,hreg,hrx⟩ | ⟨hphase,-⟩ | ⟨hphase,-⟩
    · exact ⟨hreg,hrx⟩
    · exact absurd ⟨w,hw,hphase⟩ hnot
    · exact absurd ⟨w,hw,hphase⟩ hnot
  have hsame : (s.signal c).workers[i]? = s.workers[i]? := by
    rcases h.signal_cases c with ⟨-,hworkers,-⟩ | ⟨j,v,-,hv,-,hvreg,hworkers,-⟩
    · rw [hworkers]
    · have hij : j ≠ i := by
        rintro rfl
        cases hvreg.symm.trans (hfresh v hv).1
      rw [hworkers, List.getElem?_set_ne hij]
  cases hready.symm.trans (hfresh w' (hsame ▸ hw')).2

/-- From the signal on, the next leg is stopped exactly if no leg under way takes it. -/
theorem reportsCancelled_iff {after : List ExecutorEvent} (ht : t.Wired)
    (hpending : t.Left i fun w => w.Pending n) (hu : run step t after = some u) (hbegun : n < u.begun i) :
    u.ReportsCancelled i n ↔ AllSteps step (fun e ev => ¬ TakesSignal i e ev) t after := by
  obtain ⟨w,hw,hphase,hreg,hstage⟩ := hpending
  constructor
  · rintro ⟨v,r,hv,hr,hstatus⟩
    by_contra hall
    obtain ⟨before,ev,rest,e,e',-,hbefore,htakes,hstep,hrest⟩ := exists_step_of_not_allSteps hall hu
    obtain ⟨hwired,hleft⟩ := @run_invariant _ _ step
      (fun e => e.Wired ∧ e.Left i fun w => w.Pending n ∨ w.Stopped n ∨ w.Spent n)
      (fun e ev e' he hstep => ⟨wired_step he.1 hstep,he.2.stage_step he.1 hstep⟩)
      _ _ _ ⟨ht,w,hw,hphase,hreg,.inl hstage⟩ hbefore
    obtain ⟨-,v',hv',-,-,hspent⟩ := @run_invariant _ _ step
      (fun e => e.Wired ∧ e.Left i fun w => w.Spent n)
      (fun e ev e' he hstep => ⟨wired_step he.1 hstep,he.2.step he.1 hstep (fun _ hw => hw)
        fun _ _ _ hw _ _ _ hmove => PlanWorker.spent_move hw hmove⟩)
      _ _ _ ⟨wired_step hwired hstep,hleft.spent_of_takesSignal hwired (not_not.mp htakes) hstep⟩ hrest
    cases hv'.symm.trans hv
    exact hspent.2 r hr hstatus
  · intro hall
    obtain ⟨-,v,hv,-,-,hstage'⟩ := @run_invariant_of_allSteps _ _ step
      (fun e => e.Wired ∧ e.Left i fun w => w.Pending n ∨ w.Stopped n) _
      (fun e ev e' he hkeeps hstep => ⟨wired_step he.1 hstep,he.2.unspent_step he.1 hkeeps hstep⟩)
      _ _ _ ⟨ht,w,hw,hphase,hreg,.inl hstage⟩ hall hu
    rcases hstage' with ⟨-,hsame⟩ | ⟨-,r,hr,hstatus⟩
    · rw [begun_eq hv] at hbegun
      omega
    · exact ⟨v,r,hv,hr,hstatus⟩

/-- The first request for a plan, dealt with before the last leg has begun. It reaches the
worker and stops the next leg exactly if the worker has registered by then and no passive
leg under way takes the signal. -/
theorem cancel_reaches_worker_iff {before after : List ExecutorEvent} (hs : run step new before = some s)
    (hc : s.cancelTx[s.cancelsDone]? = some c) (hfirst : ∀ c' ∈ s.cancelled, c'.planId ≠ c.planId)
    (ht : s.step .signal = some t) (hu : run step t after = some u) (hplan : s.planTx[i]? = some plan)
    (hid : plan.id = c.planId) (hlegs : s.begun i < plan.legs.length) :
    (t.Signalled i ∧ (s.begun i < u.begun i → u.ReportsCancelled i (s.begun i))) ↔
      s.Registered i ∧ (s.begun i < u.begun i →
        AllSteps step (fun e ev => ¬ TakesSignal i e ev) t after) := by
  have hwired : s.Wired := wired_run wired_new hs
  have hwired' : t.Wired := wired_step hwired ht
  cases step_signal hc ht
  constructor
  · rintro ⟨hsignalled,hstops⟩
    have hreg : s.Registered i := hwired.registered_of_signalled hsignalled
    have hpending := hwired.left_pending hfirst hplan hid hlegs hreg
    exact ⟨hreg,fun hbegun => (reportsCancelled_iff hwired' hpending hu hbegun).mp (hstops hbegun)⟩
  · rintro ⟨hreg,hall⟩
    have hpending := hwired.left_pending hfirst hplan hid hlegs hreg
    exact ⟨hpending.signalled,fun hbegun =>
      (reportsCancelled_iff hwired' hpending hu hbegun).mpr (hall hbegun)⟩

def racingPlan : TradePlan :=
  ⟨"p1","USDT",1,1,[⟨"ETHBTC",false,1,5,true,0⟩,⟨"BTCUSDT",false,1,7,true,1⟩]⟩

def registeredFirst : Executor :=
  ⟨[racingPlan],false,[⟨"p1",none⟩],0,true,[⟨racingPlan,.checking racingPlan.legs,true,.waiting,[]⟩],
    AList.insert "p1" 0 ∅⟩

theorem cancel_reaches_worker_iff_registeredFirst :
    ∃ t u, registeredFirst.step .signal = some t ∧ run step t [.worker 0 .check] = some u ∧
      t.Signalled 0 ∧ u.ReportsCancelled 0 0 := by
  let before : List ExecutorEvent :=
    [.sendPlan racingPlan,.sendCancel ⟨"p1",none⟩,.receivePlan,.spawn,.worker 0 .register,.receiveCancel]
  have hs : run step new before = some registeredFirst := rfl
  have ht : registeredFirst.step .signal = some (registeredFirst.signal ⟨"p1",none⟩) := rfl
  refine ⟨_,_,ht,rfl,?_⟩
  obtain ⟨hsignalled,hstops⟩ := (@cancel_reaches_worker_iff registeredFirst _ _ 0 ⟨"p1",none⟩ racingPlan
    before [.worker 0 .check] hs rfl (fun _ h => absurd h List.not_mem_nil) ht rfl rfl rfl
    (by decide +kernel)).mpr ⟨⟨_,rfl,nofun⟩,fun _ => .intro (fun h => by cases h.1) rfl trivial⟩
  exact ⟨hsignalled,hstops (by decide +kernel)⟩

/-- The plan is still in its channel when the request comes, and its first leg is filled
afterwards. -/
def cancelledFirst : Executor :=
  ⟨[racingPlan],false,[⟨"p1",none⟩],0,true,[],∅⟩

theorem early_cancel_lost :
    run step new [.sendPlan racingPlan,.sendCancel ⟨"p1",none⟩,.receiveCancel] = some cancelledFirst ∧
      cancelledFirst.begun 0 < racingPlan.legs.length ∧
      ∃ t u, cancelledFirst.step .signal = some t ∧ ¬ t.Signalled 0 ∧
        run step t [.receivePlan,.spawn,.worker 0 .register,.worker 0 .check,.worker 0 .timer] = some u ∧
        cancelledFirst.begun 0 < u.begun 0 ∧ ¬ u.ReportsCancelled 0 0 := by
  refine ⟨rfl,by decide +kernel,_,_,rfl,?_,rfl,by decide +kernel,?_⟩
  · rintro ⟨w,hw,-⟩
    cases hw
  · rintro ⟨w,r,hw,hr,hstatus⟩
    cases hw
    cases hr
    cases hstatus

end Delivery

end Executor

end ArbCore
