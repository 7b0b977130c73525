import ArbCore.Execution.Mock

/-! # One report for each leg

The worker reports the legs in order. Each of its own steps brings the end nearer, and
one is enabled until it has finished or panicked.
-/
namespace ArbCore
open Oneshot LabelledRun

/-- A report about the leg that accounts for its whole quantity. -/
structure Covers (plan : TradePlan) (leg : OrderLeg) (r : ExecutionReport) : Prop where
  planId : r.planId = plan.id
  legIdx : r.legIdx = leg.legIdx
  qty : r.filledQty + r.remainingQty = leg.qty

theorem Covers.map_legIdx {plan : TradePlan} {done : List OrderLeg} {reports : List ExecutionReport}
    (h : List.Forall₂ (Covers plan) done reports) :
    done.map OrderLeg.legIdx = reports.map ExecutionReport.legIdx := by
  have heq : List.Forall₂ (· = ·) (done.map OrderLeg.legIdx) (reports.map ExecutionReport.legIdx) :=
    List.forall₂_map_left_iff.mpr (List.forall₂_map_right_iff.mpr (h.imp fun _ _ hc => hc.legIdx.symm))
  rwa [List.forall₂_eq_eq_eq] at heq

namespace PlanWorker
variable {plan : TradePlan} {w t : PlanWorker} {ev : WorkerEvent}

/-- A step reports nothing, or it reports the next of the awaited legs. -/
theorem awaits_move (hmove : Move w ev t) {legs : List OrderLeg} (h : w.phase.Awaits w.plan legs) :
    (t.phase.Awaits w.plan legs ∧ t.reports = w.reports) ∨ ∃ leg rest r, legs = leg :: rest ∧
      t.phase.Awaits w.plan rest ∧ t.reports = w.reports ++ [r] ∧ Covers w.plan leg r := by
  cases hmove with
  | register hphase =>
    rw [hphase] at h
    exact .inl ⟨h,rfl⟩
  | signal => exact .inl ⟨h,rfl⟩
  | senderDropped => exact .inl ⟨h,rfl⟩
  | checkCancelled hphase _ =>
    rw [hphase] at h
    exact .inr ⟨_,_,_,h,rfl,rfl,rfl,rfl,zero_add _⟩
  | sleep hphase _ =>
    rw [hphase] at h
    exact .inl ⟨h,rfl⟩
  | select hphase _ =>
    rw [hphase] at h
    exact .inl ⟨h,rfl⟩
  | filled hphase =>
    rw [hphase] at h
    exact .inr ⟨_,_,_,h,rfl,rfl,rfl,rfl,add_zero _⟩
  | unfilled hphase _ =>
    rw [hphase] at h
    exact .inr ⟨_,_,_,h,rfl,rfl,rfl,rfl,zero_add _⟩
  | selectCancelled hphase _ =>
    rw [hphase] at h
    exact .inr ⟨_,_,_,h,rfl,rfl,rfl,rfl,zero_add _⟩
  | panicked hphase _ =>
    rw [hphase] at h
    exact .inl ⟨h ▸ List.cons_ne_nil _ _,rfl⟩
  | cleanup hphase =>
    rw [hphase] at h
    exact .inl ⟨h,rfl⟩

theorem plan_move (hmove : Move w ev t) : t.plan = w.plan := by
  cases hmove <;> rfl

/-- The legs before those awaited are reported, each by a report that covers it. -/
structure LegReports (plan : TradePlan) (w : PlanWorker) : Prop where
  plan_eq : w.plan = plan
  reports : ∃ done legs, plan.legs = done ++ legs ∧ w.phase.Awaits plan legs ∧
    List.Forall₂ (Covers plan) done w.reports

theorem legReports_start (plan : TradePlan) : LegReports plan (start plan) :=
  ⟨rfl,[],plan.legs,rfl,rfl,.nil⟩

theorem legReports_move (h : LegReports plan w) (hmove : Move w ev t) : LegReports plan t := by
  obtain ⟨rfl,done,legs,hlegs,hawaits,hcovers⟩ := h
  refine ⟨plan_move hmove,?_⟩
  rcases awaits_move hmove hawaits with ⟨hawaits',hreports⟩ | ⟨leg,rest,r,rfl,hawaits',hreports,hr⟩
  · exact ⟨done,legs,hlegs,hawaits',hreports ▸ hcovers⟩
  · refine ⟨done ++ [leg],rest,by simpa using hlegs,hawaits',?_⟩
    rw [hreports]
    exact List.rel_append hcovers (.cons hr .nil)

theorem legReports_run {events : List WorkerEvent} (h : run step (start plan) events = some w) :
    LegReports plan w :=
  run_invariant (fun _ _ _ hs hstep => legReports_move hs (step_move hstep)) (legReports_start plan) h

theorem LegReports.covers_of_finished (h : LegReports plan w) (hphase : w.phase = .finished) :
    List.Forall₂ (Covers plan) plan.legs w.reports := by
  obtain ⟨-,done,legs,hlegs,hawaits,hcovers⟩ := h
  rw [hphase] at hawaits
  subst hawaits
  rwa [hlegs, List.append_nil]

section Progress

def Own : WorkerEvent → Prop
  | .signal | .senderDropped => False
  | _ => True

instance : DecidablePred Own
  | .signal | .senderDropped => isFalse id
  | .register | .check | .timer | .select _ | .cleanup => isTrue trivial

/-- How many steps the worker still takes by itself, at most. -/
def stepsLeft (w : PlanWorker) : ℕ :=
  match w.phase with
  | .registering => 2 * w.plan.legs.length + 2
  | .checking legs => 2 * legs.length + 1
  | .sleeping _ rest | .selecting _ rest => 2 * rest.length + 2
  | .finished | .panicked => 0

theorem stepsLeft_lt (hown : Own ev) (hmove : Move w ev t) : t.stepsLeft < w.stepsLeft := by
  cases hmove with
  | register hphase => simp [stepsLeft, hphase]
  | signal => exact hown.elim
  | senderDropped => exact hown.elim
  | checkCancelled hphase _ => simp [stepsLeft, hphase, report]
  | sleep hphase _ => simp [stepsLeft, hphase, Nat.mul_add]
  | select hphase _ => simp [stepsLeft, hphase, Nat.mul_add]
  | filled hphase => simp [stepsLeft, hphase, report]
  | unfilled hphase _ => simp [stepsLeft, hphase, report]
  | selectCancelled hphase _ => simp [stepsLeft, hphase, report]
  | panicked hphase _ => simp [stepsLeft, hphase]
  | cleanup hphase => simp [stepsLeft, hphase]

theorem stepsLeft_le (hmove : Move w ev t) : t.stepsLeft ≤ w.stepsLeft := by
  by_cases hown : Own ev
  · exact (stepsLeft_lt hown hmove).le
  · cases hmove with
    | signal => exact le_rfl
    | senderDropped => exact le_rfl
    | _ => exact absurd trivial hown

/-- In every run the worker takes two steps for each leg at most, one to register
and one to clean up. -/
theorem countP_own_le {events : List WorkerEvent} (h : run step (start plan) events = some w) :
    events.countP Own ≤ 2 * plan.legs.length + 2 :=
  (Nat.le_add_right _ _).trans <| run_countP_add_le
    (fun _ _ _ hown hstep => stepsLeft_lt hown (step_move hstep))
    (fun _ _ _ hstep => stepsLeft_le (step_move hstep)) h

/-- A worker is never stuck before it has ended; its timers fire. -/
theorem exists_own_step (h : ¬ w.Ended) : ∃ ev, Own ev ∧ (w.step ev).isSome := by
  cases hphase : w.phase with
  | registering => exact ⟨.register,trivial,by simp [step, hphase]⟩
  | checking legs =>
    cases legs with
    | nil => exact ⟨.cleanup,trivial,by simp [step, hphase]⟩
    | cons leg rest =>
      cases hrx : w.rx.tryRecv with
      | mk answer rx =>
        cases answer with
        | ok a => exact ⟨.check,trivial,by simp [step, hphase, hrx]⟩
        | error err => exact ⟨.check,trivial,by simp [step, hphase, hrx]⟩
  | sleeping leg rest => exact ⟨.timer,trivial,by simp [step, hphase]⟩
  | selecting leg rest =>
    cases hpoll : w.rx.poll with
    | none => exact ⟨.select true,trivial,by simp [step, hphase, hpoll]⟩
    | some outcome => exact ⟨.select true,trivial,by simp [step, hphase, hpoll]⟩
  | finished => exact absurd (.inl hphase) h
  | panicked => exact absurd (.inr hphase) h

end Progress

end PlanWorker

end ArbCore
