import ArbCore.Execution.LegReports

/-! # The mock executor

The plan loop spawns a worker for each plan, and a worker puts the sender of its cancel
signal into the cancel map before it handles the first leg. The cancel task takes a sender
out of the map and signals its worker; it finds none before the worker has registered.
-/
namespace ArbCore
open Oneshot LabelledRun

namespace PlanWorker

def signalled (w : PlanWorker) : PlanWorker := { w with registered := false, rx := w.rx.send () }

def dropped (w : PlanWorker) : PlanWorker := { w with registered := false, rx := w.rx.dropSender }

theorem phase_ne_registering {w t : PlanWorker} {ev : WorkerEvent} (hown : Own ev) (hmove : Move w ev t) :
    t.phase ≠ .registering := by
  cases hmove with
  | signal => exact hown.elim
  | senderDropped => exact hown.elim
  | _ => exact fun h => WorkerPhase.noConfusion h

end PlanWorker

/-- The channels keep what was sent into them. The `i`-th plan is the one of the `i`-th
worker, and the cancel map names the worker that a sender signals. -/
structure Executor where
  planTx : List TradePlan
  planReceived : Bool
  cancelTx : List CancelRequest
  cancelsDone : ℕ
  cancelReceived : Bool
  workers : List PlanWorker
  cancelMap : HashMap ℕ

inductive ExecutorEvent where
  | sendPlan (plan : TradePlan)
  | sendCancel (cancel : CancelRequest)
  | receivePlan
  | spawn
  | receiveCancel
  | signal
  | worker (i : ℕ) (ev : WorkerEvent)

namespace Executor

def new : Executor := ⟨[],false,[],0,false,[],∅⟩

/-- The lock section of the cancel task. -/
def signal (e : Executor) (cancel : CancelRequest) : Executor :=
  let e := { e with cancelsDone := e.cancelsDone + 1, cancelReceived := false }
  match e.cancelMap.lookup cancel.planId with
  | some i =>
    { e with
      workers := e.workers.modify i PlanWorker.signalled
      cancelMap := e.cancelMap.erase cancel.planId }
  | none => e

/-- The workers once the sender under an identifier is overwritten or removed. -/
def dropSender (e : Executor) (planId : String) : List PlanWorker :=
  match e.cancelMap.lookup planId with
  | some j => e.workers.modify j PlanWorker.dropped
  | none => e.workers

/-- A step that a worker takes by itself; registering and cleaning up are its lock sections. -/
def workerStep (e : Executor) (i : ℕ) (w : PlanWorker) : WorkerEvent → Option Executor
  | .signal | .senderDropped => none
  | .register => (w.step .register).map fun w' =>
    { e with
      workers := (e.dropSender w.plan.id).set i w'
      cancelMap := e.cancelMap.insert w.plan.id i }
  | .cleanup => (w.step .cleanup).map fun w' =>
    { e with
      workers := (e.dropSender w.plan.id).set i w'
      cancelMap := e.cancelMap.erase w.plan.id }
  | ev => (w.step ev).map fun w' => { e with workers := e.workers.set i w' }

/-- No two plans are sent under one identifier. -/
def step (e : Executor) : ExecutorEvent → Option Executor
  | .sendPlan plan =>
    if plan.id ∈ e.planTx.map TradePlan.id then none else some { e with planTx := e.planTx ++ [plan] }
  | .sendCancel cancel => some { e with cancelTx := e.cancelTx ++ [cancel] }
  | .receivePlan =>
    if e.planReceived = false ∧ e.workers.length < e.planTx.length then some { e with planReceived := true }
    else none
  | .spawn =>
    if e.planReceived then
      e.planTx[e.workers.length]?.map fun plan =>
        { e with planReceived := false, workers := e.workers ++ [.start plan] }
    else none
  | .receiveCancel =>
    if e.cancelReceived = false ∧ e.cancelsDone < e.cancelTx.length then
      some { e with cancelReceived := true }
    else none
  | .signal => if e.cancelReceived then e.cancelTx[e.cancelsDone]?.map e.signal else none
  | .worker i ev => e.workers[i]?.bind fun w => e.workerStep i w ev

inductive Move (e : Executor) : ExecutorEvent → Executor → Prop
  | sendPlan {plan : TradePlan} (hid : plan.id ∉ e.planTx.map TradePlan.id) :
      Move e (.sendPlan plan) { e with planTx := e.planTx ++ [plan] }
  | sendCancel {cancel : CancelRequest} :
      Move e (.sendCancel cancel) { e with cancelTx := e.cancelTx ++ [cancel] }
  | receivePlan : Move e .receivePlan { e with planReceived := true }
  | spawn {plan : TradePlan} (hplan : e.planTx[e.workers.length]? = some plan) :
      Move e .spawn { e with planReceived := false, workers := e.workers ++ [.start plan] }
  | receiveCancel : Move e .receiveCancel { e with cancelReceived := true }
  | signal {cancel : CancelRequest} (hcancel : e.cancelTx[e.cancelsDone]? = some cancel) :
      Move e .signal (e.signal cancel)
  | worker {i : ℕ} {w : PlanWorker} {ev : WorkerEvent} {t : Executor} (hw : e.workers[i]? = some w)
      (hstep : e.workerStep i w ev = some t) : Move e (.worker i ev) t

theorem step_move {e t : Executor} {ev : ExecutorEvent} (h : e.step ev = some t) : Move e ev t := by
  cases ev with
  | sendPlan plan =>
    simp only [step] at h
    split_ifs at h with hid
    exact Option.some.inj h ▸ .sendPlan hid
  | sendCancel cancel => exact Option.some.inj h ▸ .sendCancel
  | receivePlan =>
    simp only [step] at h
    split_ifs at h
    exact Option.some.inj h ▸ .receivePlan
  | spawn =>
    simp only [step] at h
    split_ifs at h
    obtain ⟨plan,hplan,rfl⟩ := Option.map_eq_some_iff.mp h
    exact .spawn hplan
  | receiveCancel =>
    simp only [step] at h
    split_ifs at h
    exact Option.some.inj h ▸ .receiveCancel
  | signal =>
    simp only [step] at h
    split_ifs at h
    obtain ⟨cancel,hcancel,rfl⟩ := Option.map_eq_some_iff.mp h
    exact .signal hcancel
  | worker i ev =>
    obtain ⟨w,hw,hworker⟩ := Option.bind_eq_some_iff.mp h
    exact .worker hw hworker

def cancelled (e : Executor) : List CancelRequest := e.cancelTx.take e.cancelsDone

/-- A worker has not registered yet, is in the map under its plan, or has left the map for
good: at its end or by a request for its plan. -/
def Linked (e : Executor) (i : ℕ) (w : PlanWorker) : Prop :=
  (w.phase = .registering ∧ w.registered = false ∧ w.rx = .waiting) ∨
  (w.phase ≠ .registering ∧ w.registered = true ∧ w.rx = .waiting ∧
    e.cancelMap.lookup w.plan.id = some i) ∨
  (w.phase ≠ .registering ∧ w.registered = false ∧
    (w.phase = .finished ∨ ∃ c ∈ e.cancelled, c.planId = w.plan.id))

structure Wired (e : Executor) : Prop where
  ids : (e.planTx.map TradePlan.id).Nodup
  plans : ∀ (i : ℕ) (w : PlanWorker), e.workers[i]? = some w → e.planTx[i]? = some w.plan
  reports : ∀ w ∈ e.workers, PlanWorker.LegReports w.plan w
  linked : ∀ (i : ℕ) (w : PlanWorker), e.workers[i]? = some w → e.Linked i w
  entries : ∀ planId i, e.cancelMap.lookup planId = some i →
    ∃ w, e.workers[i]? = some w ∧ w.plan.id = planId ∧ w.registered = true

variable {e t : Executor} {i j : ℕ} {w w' : PlanWorker} {ev : WorkerEvent}

theorem wired_new : new.Wired := by
  have hnone : ∀ (i : ℕ) (w : PlanWorker), new.workers[i]? ≠ some w := by simp [new]
  exact ⟨List.nodup_nil,fun i w hw => absurd hw (hnone i w),fun _ hw => absurd hw List.not_mem_nil,
    fun i w hw => absurd hw (hnone i w),fun _ _ h => by cases h⟩

theorem Wired.index_eq (h : e.Wired) (hw : e.workers[i]? = some w) (hw' : e.workers[j]? = some w')
    (hid : w.plan.id = w'.plan.id) : i = j := by
  have hi := h.plans i w hw
  have hj := h.plans j w' hw'
  have hlt : i < (e.planTx.map TradePlan.id).length := by
    rw [List.length_map]
    exact (List.getElem?_eq_some_iff.mp hi).1
  refine (List.getElem?_inj hlt h.ids).mp ?_
  rw [List.getElem?_map, List.getElem?_map, hi, hj, Option.map_some, Option.map_some, hid]

/-- In its lock sections a worker drops no sender but its own. -/
theorem Wired.dropSender_set (h : e.Wired) (hw : e.workers[i]? = some w) (w' : PlanWorker) :
    (e.dropSender w.plan.id).set i w' = e.workers.set i w' := by
  rw [dropSender]
  cases hlookup : e.cancelMap.lookup w.plan.id with
  | none => rfl
  | some j =>
    obtain ⟨v,hv,hid,-⟩ := h.entries _ _ hlookup
    cases h.index_eq hw hv hid.symm
    refine List.ext_getElem? fun k => ?_
    simp only [List.getElem?_set, List.length_modify, List.getElem?_modify]
    split_ifs <;> simp_all

def mapAfter (e : Executor) (i : ℕ) (w : PlanWorker) : WorkerEvent → HashMap ℕ
  | .register => e.cancelMap.insert w.plan.id i
  | .cleanup => e.cancelMap.erase w.plan.id
  | _ => e.cancelMap

theorem Wired.workerStep_eq (h : e.Wired) (hw : e.workers[i]? = some w)
    (hstep : e.workerStep i w ev = some t) : PlanWorker.Own ev ∧ ∃ w', w.step ev = some w' ∧
      t = { e with workers := e.workers.set i w', cancelMap := e.mapAfter i w ev } := by
  cases ev with
  | signal => cases hstep
  | senderDropped => cases hstep
  | register =>
    obtain ⟨w',hw',rfl⟩ := Option.map_eq_some_iff.mp hstep
    exact ⟨trivial,w',hw',by rw [h.dropSender_set hw, mapAfter]⟩
  | cleanup =>
    obtain ⟨w',hw',rfl⟩ := Option.map_eq_some_iff.mp hstep
    exact ⟨trivial,w',hw',by rw [h.dropSender_set hw, mapAfter]⟩
  | check =>
    obtain ⟨w',hw',rfl⟩ := Option.map_eq_some_iff.mp hstep
    exact ⟨trivial,w',hw',rfl⟩
  | timer =>
    obtain ⟨w',hw',rfl⟩ := Option.map_eq_some_iff.mp hstep
    exact ⟨trivial,w',hw',rfl⟩
  | select timerFirst =>
    obtain ⟨w',hw',rfl⟩ := Option.map_eq_some_iff.mp hstep
    exact ⟨trivial,w',hw',rfl⟩

section Preservation

theorem Linked.mono (h : e.Linked i w)
    (hmap : e.cancelMap.lookup w.plan.id = some i → t.cancelMap.lookup w.plan.id = some i)
    (hcancelled : ∀ c ∈ e.cancelled, c ∈ t.cancelled) : t.Linked i w := by
  rcases h with hfresh | ⟨hphase,hreg,hrx,hlookup⟩ | ⟨hphase,hreg,hgone⟩
  · exact .inl hfresh
  · exact .inr (.inl ⟨hphase,hreg,hrx,hmap hlookup⟩)
  · exact .inr (.inr ⟨hphase,hreg,hgone.imp_right fun ⟨c,hc,hid⟩ => ⟨c,hcancelled c hc,hid⟩⟩)

/-- A step of the worker itself keeps it linked, with the map as it is afterwards. -/
theorem Linked.workerStep (h : e.Linked i w) (hev : PlanWorker.Own ev) (hstep : w.step ev = some w') :
    Linked { e with cancelMap := e.mapAfter i w ev } i w' := by
  have hmove := PlanWorker.step_move hstep
  have hne := PlanWorker.phase_ne_registering hev hmove
  rcases h with ⟨hphase,hreg,hrx⟩ | ⟨hphase,hreg,hrx,hlookup⟩ | ⟨hphase,hreg,hgone⟩
  · cases hmove with
    | register _ => exact .inr (.inl ⟨hne,rfl,hrx,AList.lookup_insert _⟩)
    | signal => exact hev.elim
    | senderDropped => exact hev.elim
    | _ hphase' => cases hphase.symm.trans hphase'
  · cases hmove with
    | register hphase' => exact absurd hphase' hphase
    | signal => exact hev.elim
    | senderDropped => exact hev.elim
    | checkCancelled _ hready => cases hrx.symm.trans hready
    | sleep _ _ => exact .inr (.inl ⟨hne,hreg,by simp [hrx],hlookup⟩)
    | select _ _ => exact .inr (.inl ⟨hne,hreg,by simp [hrx],hlookup⟩)
    | filled _ => exact .inr (.inl ⟨hne,hreg,hrx,hlookup⟩)
    | unfilled _ _ => exact .inr (.inl ⟨hne,hreg,hrx,hlookup⟩)
    | selectCancelled hphase' _ => simp [PlanWorker.step, hphase', hrx, Receiver.poll] at hstep
    | panicked _ htaken => cases hrx.symm.trans htaken
    | cleanup _ => exact .inr (.inr ⟨hne,rfl,.inl rfl⟩)
  · have hgone' : ∀ {leg rest}, w.phase = .checking (leg :: rest) ∨ w.phase = .sleeping leg rest ∨
        w.phase = .selecting leg rest → ∃ c ∈ e.cancelled, c.planId = w.plan.id := by
      intro leg rest hbusy
      refine hgone.resolve_left fun hfinished => ?_
      rw [hfinished] at hbusy
      simp at hbusy
    cases hmove with
    | register hphase' => exact absurd hphase' hphase
    | signal => exact hev.elim
    | senderDropped => exact hev.elim
    | checkCancelled hbusy _ => exact .inr (.inr ⟨hne,hreg,.inr (hgone' (.inl hbusy))⟩)
    | sleep hbusy _ => exact .inr (.inr ⟨hne,hreg,.inr (hgone' (.inl hbusy))⟩)
    | select hbusy _ => exact .inr (.inr ⟨hne,hreg,.inr (hgone' (.inl hbusy))⟩)
    | filled hbusy => exact .inr (.inr ⟨hne,hreg,.inr (hgone' (.inr (.inl hbusy)))⟩)
    | unfilled hbusy _ => exact .inr (.inr ⟨hne,hreg,.inr (hgone' (.inr (.inr hbusy)))⟩)
    | selectCancelled hbusy _ => exact .inr (.inr ⟨hne,hreg,.inr (hgone' (.inr (.inr hbusy)))⟩)
    | panicked hbusy _ => exact .inr (.inr ⟨hne,hreg,.inr (hgone' (.inr (.inr hbusy)))⟩)
    | cleanup _ => exact .inr (.inr ⟨hne,rfl,.inl rfl⟩)

theorem registered_of_step (hev : PlanWorker.Own ev) (hcleanup : ev ≠ .cleanup) (hreg : w.registered = true)
    (hstep : w.step ev = some w') : w'.registered = true := by
  cases PlanWorker.step_move hstep with
  | signal => exact hev.elim
  | senderDropped => exact hev.elim
  | cleanup _ => exact absurd rfl hcleanup
  | register _ => rfl
  | _ => exact hreg

theorem lookup_mapAfter_ne {planId : String} (h : planId ≠ w.plan.id) :
    (e.mapAfter i w ev).lookup planId = e.cancelMap.lookup planId := by
  cases ev with
  | register => exact AList.lookup_insert_ne h
  | cleanup => exact AList.lookup_erase_ne h
  | _ => rfl

theorem Wired.set (h : e.Wired) (hw : e.workers[i]? = some w) (hplan : w'.plan = w.plan)
    (hreports : PlanWorker.LegReports w.plan w') (hplanTx : t.planTx = e.planTx)
    (hcancelled : ∀ c ∈ e.cancelled, c ∈ t.cancelled) (hworkers : t.workers = e.workers.set i w')
    (hmap : ∀ planId, planId ≠ w.plan.id → t.cancelMap.lookup planId = e.cancelMap.lookup planId)
    (hlinked : t.Linked i w')
    (hentry : ∀ j, t.cancelMap.lookup w.plan.id = some j → j = i ∧ w'.registered = true) : t.Wired := by
  have hself : t.workers[i]? = some w' := by
    rw [hworkers]
    exact List.getElem?_set_self (List.getElem?_eq_some_iff.mp hw).1
  have hother : ∀ {j}, j ≠ i → t.workers[j]? = e.workers[j]? := fun hj => by
    rw [hworkers, List.getElem?_set_ne (Ne.symm hj)]
  refine ⟨hplanTx ▸ h.ids,fun j v hv => ?_,fun v hv => ?_,fun j v hv => ?_,fun planId j hlookup => ?_⟩
  · rw [hplanTx]
    by_cases hj : j = i
    · subst hj
      cases hself.symm.trans hv
      exact hplan ▸ h.plans j w hw
    · exact h.plans j v (hother hj ▸ hv)
  · rw [hworkers] at hv
    rcases List.mem_or_eq_of_mem_set hv with hv | rfl
    · exact h.reports v hv
    · exact hplan.symm ▸ hreports
  · by_cases hj : j = i
    · subst hj
      cases hself.symm.trans hv
      exact hlinked
    · have hv' := hother hj ▸ hv
      have hid : v.plan.id ≠ w.plan.id := fun hid => hj (h.index_eq hv' hw hid)
      exact (h.linked j v hv').mono (fun hlookup => (hmap _ hid).trans hlookup) hcancelled
  · by_cases hid : planId = w.plan.id
    · subst hid
      obtain ⟨rfl,hreg⟩ := hentry j hlookup
      exact ⟨w',hself,congrArg TradePlan.id hplan,hreg⟩
    · rw [hmap planId hid] at hlookup
      obtain ⟨v,hv,hvid,hreg⟩ := h.entries _ _ hlookup
      have hj : j ≠ i := by
        rintro rfl
        cases hv.symm.trans hw
        exact hid hvid.symm
      exact ⟨v,(hother hj).trans hv,hvid,hreg⟩

theorem Wired.entry_mapAfter (h : e.Wired) (hw : e.workers[i]? = some w) (hev : PlanWorker.Own ev)
    (hstep : w.step ev = some w') (hlookup : (e.mapAfter i w ev).lookup w.plan.id = some j) :
    j = i ∧ w'.registered = true := by
  by_cases hregister : ev = .register
  · subst hregister
    rw [mapAfter, AList.lookup_insert] at hlookup
    cases PlanWorker.step_move hstep with
    | register _ => exact ⟨(Option.some.inj hlookup).symm,rfl⟩
  · have hkept : ev ≠ .cleanup ∧ e.cancelMap.lookup w.plan.id = some j := by
      cases ev with
      | register => exact absurd rfl hregister
      | cleanup =>
        rw [mapAfter, AList.lookup_erase] at hlookup
        cases hlookup
      | _ => exact ⟨nofun,hlookup⟩
    obtain ⟨v,hv,hid,hreg⟩ := h.entries _ _ hkept.2
    cases h.index_eq hv hw hid
    cases hv.symm.trans hw
    exact ⟨rfl,registered_of_step hev hkept.1 hreg hstep⟩

theorem Wired.workerStep (h : e.Wired) (hw : e.workers[i]? = some w)
    (hstep : e.workerStep i w ev = some t) : t.Wired := by
  obtain ⟨hev,w',hw',rfl⟩ := h.workerStep_eq hw hstep
  have hmove := PlanWorker.step_move hw'
  have hreports := h.reports w (List.mem_of_getElem? hw)
  exact h.set hw (PlanWorker.plan_move hmove) (PlanWorker.legReports_move hreports hmove) rfl
    (fun _ hc => hc) rfl (fun _ hid => lookup_mapAfter_ne hid) ((h.linked i w hw).workerStep hev hw')
    fun _ hlookup => h.entry_mapAfter hw hev hw' hlookup

theorem Wired.signal_cases (h : e.Wired) (cancel : CancelRequest) :
    (e.cancelMap.lookup cancel.planId = none ∧ (e.signal cancel).workers = e.workers ∧
      (e.signal cancel).cancelMap = e.cancelMap) ∨
    ∃ i w, e.cancelMap.lookup cancel.planId = some i ∧ e.workers[i]? = some w ∧
      w.plan.id = cancel.planId ∧ w.registered = true ∧
      (e.signal cancel).workers = e.workers.set i w.signalled ∧
      (e.signal cancel).cancelMap = e.cancelMap.erase cancel.planId := by
  rw [signal]
  dsimp only
  cases hlookup : e.cancelMap.lookup cancel.planId with
  | none => exact .inl ⟨rfl,rfl,rfl⟩
  | some i =>
    obtain ⟨w,hw,hid,hreg⟩ := h.entries _ _ hlookup
    refine .inr ⟨i,w,rfl,hw,hid,hreg,?_,rfl⟩
    refine List.ext_getElem? fun k => ?_
    simp only [List.getElem?_set, List.getElem?_modify]
    split_ifs <;> simp_all

theorem signal_frame (e : Executor) (cancel : CancelRequest) :
    (e.signal cancel).planTx = e.planTx ∧ (e.signal cancel).cancelTx = e.cancelTx ∧
      (e.signal cancel).cancelsDone = e.cancelsDone + 1 := by
  rw [signal]
  dsimp only
  split <;> exact ⟨rfl,rfl,rfl⟩

theorem mem_cancelled_signal {cancel : CancelRequest} (hcancel : e.cancelTx[e.cancelsDone]? = some cancel) :
    (∀ c ∈ e.cancelled, c ∈ (e.signal cancel).cancelled) ∧ cancel ∈ (e.signal cancel).cancelled := by
  obtain ⟨-,hcancelTx,hdone⟩ := signal_frame e cancel
  rw [cancelled, cancelled, hcancelTx, hdone, List.take_add_one, hcancel]
  exact ⟨fun c hc => List.mem_append_left _ hc,List.mem_append_right _ (List.mem_singleton_self _)⟩

theorem Wired.signal (h : e.Wired) {cancel : CancelRequest}
    (hcancel : e.cancelTx[e.cancelsDone]? = some cancel) : (e.signal cancel).Wired := by
  obtain ⟨hplanTx,-,-⟩ := signal_frame e cancel
  obtain ⟨hold,hnew⟩ := mem_cancelled_signal hcancel
  rcases h.signal_cases cancel with ⟨-,hworkers,hmap⟩ | ⟨i,w,hlookup,hw,hid,hreg,hworkers,hmap⟩
  · refine ⟨hplanTx ▸ h.ids,fun j v hv => ?_,fun v hv => ?_,fun j v hv => ?_,fun planId j hj => ?_⟩
    · rw [hplanTx]
      exact h.plans j v (hworkers ▸ hv)
    · exact h.reports v (hworkers ▸ hv)
    · exact (h.linked j v (hworkers ▸ hv)).mono (fun hj => hmap ▸ hj) hold
    · rw [hworkers]
      exact h.entries planId j (hmap ▸ hj)
  · rw [← hid] at hmap
    have hlinked : (e.signal cancel).Linked i w.signalled := by
      rcases h.linked i w hw with ⟨-,hnot,-⟩ | ⟨hphase,-,-,-⟩ | ⟨-,hnot,-⟩
      · cases hreg.symm.trans hnot
      · exact .inr (.inr ⟨hphase,rfl,.inr ⟨cancel,hnew,hid.symm⟩⟩)
      · cases hreg.symm.trans hnot
    have hplan : w.signalled.plan = w.plan := rfl
    have hreports : PlanWorker.LegReports w.plan w.signalled :=
      PlanWorker.legReports_move (h.reports w (List.mem_of_getElem? hw)) .signal
    refine h.set hw hplan hreports hplanTx hold hworkers (fun planId hne => ?_) hlinked fun j hj => ?_
    · rw [hmap, AList.lookup_erase_ne hne]
    · rw [hmap, AList.lookup_erase] at hj
      cases hj

theorem Wired.spawn (h : e.Wired) {plan : TradePlan} (hplan : e.planTx[e.workers.length]? = some plan) :
    Wired { e with planReceived := false, workers := e.workers ++ [.start plan] } := by
  have hcases : ∀ {j} {v : PlanWorker}, (e.workers ++ [.start plan])[j]? = some v →
      e.workers[j]? = some v ∨ j = e.workers.length ∧ v = .start plan := by
    intro j v hv
    rcases lt_or_ge j e.workers.length with hj | hj
    · exact .inl ((List.getElem?_append_left hj).symm.trans hv)
    · rw [List.getElem?_append_right hj] at hv
      obtain ⟨hzero,hv⟩ := List.getElem?_eq_some_iff.mp hv
      rw [List.length_singleton] at hzero
      exact .inr ⟨by omega,by simpa using hv.symm⟩
  refine ⟨h.ids,fun j v hv => ?_,fun v hv => ?_,fun j v hv => ?_,fun planId j hj => ?_⟩
  · rcases hcases hv with hv | ⟨rfl,rfl⟩
    · exact h.plans j v hv
    · exact hplan
  · rcases List.mem_append.mp hv with hv | hv
    · exact h.reports v hv
    · cases List.mem_singleton.mp hv
      exact PlanWorker.legReports_start plan
  · rcases hcases hv with hv | ⟨rfl,rfl⟩
    · exact (h.linked j v hv).mono (fun hj => hj) fun _ hc => hc
    · exact .inl ⟨rfl,rfl,rfl⟩
  · obtain ⟨v,hv,hvid,hreg⟩ := h.entries planId j hj
    exact ⟨v,(List.getElem?_append_left (List.getElem?_eq_some_iff.mp hv).1).trans hv,hvid,hreg⟩

theorem Wired.sendPlan (h : e.Wired) {plan : TradePlan} (hid : plan.id ∉ e.planTx.map TradePlan.id) :
    Wired { e with planTx := e.planTx ++ [plan] } := by
  have hids : ((e.planTx ++ [plan]).map TradePlan.id).Nodup := by
    rw [List.map_append, List.nodup_append]
    refine ⟨h.ids,List.nodup_singleton _,fun a ha b hb => ?_⟩
    cases List.mem_singleton.mp hb
    exact fun heq => hid (heq ▸ ha)
  refine ⟨hids,fun j v hv => ?_,h.reports,h.linked,h.entries⟩
  have hj := h.plans j v hv
  exact (List.getElem?_append_left (List.getElem?_eq_some_iff.mp hj).1).trans hj

theorem wired_step {ev : ExecutorEvent} (h : e.Wired) (hstep : e.step ev = some t) : t.Wired := by
  cases step_move hstep with
  | sendPlan hid => exact h.sendPlan hid
  | sendCancel =>
    refine ⟨h.ids,h.plans,h.reports,fun j v hv => (h.linked j v hv).mono (fun hj => hj) fun c hc => ?_,
      h.entries⟩
    rw [cancelled, List.take_append]
    exact List.mem_append_left _ hc
  | receivePlan => exact ⟨h.ids,h.plans,h.reports,h.linked,h.entries⟩
  | spawn hplan => exact h.spawn hplan
  | receiveCancel => exact ⟨h.ids,h.plans,h.reports,h.linked,h.entries⟩
  | signal hcancel => exact h.signal hcancel
  | worker hw hworker => exact h.workerStep hw hworker

end Preservation

end Executor

end ArbCore
