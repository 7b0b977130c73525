import ArbCore.Execution.FullFills
import ArbCore.Execution.LostCancels

/-! # What the mock makes of a leg

A taker leg is filled and a passive leg is not, unless a cancel got to the worker before.
A worker whose plan nobody asked to be cancelled reports no leg as cancelled and never
panics.
-/
namespace ArbCore
open Oneshot LabelledRun

inductive Outcome (plan : TradePlan) (leg : OrderLeg) : ExecutionReport → Prop
  | filled (hleg : leg.isTaker = true) : Outcome plan leg (plan.fullFill leg)
  | unfilled (hleg : leg.isTaker = false) : Outcome plan leg ⟨plan.id,leg.legIdx,0,leg.qty,.partiallyFilled⟩
  | cancelled : Outcome plan leg ⟨plan.id,leg.legIdx,0,leg.qty,.cancelled⟩

namespace Outcome
variable {plan : TradePlan} {leg : OrderLeg} {r : ExecutionReport}

theorem planId (h : Outcome plan leg r) : r.planId = plan.id := by
  cases h <;> rfl

theorem legIdx (h : Outcome plan leg r) : r.legIdx = leg.legIdx := by
  cases h <;> rfl

theorem eq_fullFill (h : Outcome plan leg r) (hleg : leg.isTaker = true) (hstatus : r.status ≠ .cancelled) :
    r = plan.fullFill leg := by
  cases h with
  | filled _ => rfl
  | unfilled hpassive => cases hleg.symm.trans hpassive
  | cancelled => exact absurd rfl hstatus

theorem filledQty_eq_zero (h : Outcome plan leg r) (hleg : leg.isTaker = false) : r.filledQty = 0 := by
  cases h with
  | filled htaker => cases hleg.symm.trans htaker
  | unfilled _ => rfl
  | cancelled => rfl

theorem status_of_passive (h : Outcome plan leg r) (hleg : leg.isTaker = false) (hstatus : r.status ≠ .cancelled) :
    r.status = .partiallyFilled := by
  cases h with
  | filled htaker => cases hleg.symm.trans htaker
  | unfilled _ => rfl
  | cancelled => exact absurd rfl hstatus

end Outcome

namespace PlanWorker
variable {plan : TradePlan} {w t : PlanWorker} {ev : WorkerEvent}

/-- Each leg before those awaited has its outcome, and the worker sleeps for taker legs only. -/
structure Outcomes (plan : TradePlan) (w : PlanWorker) : Prop where
  plan_eq : w.plan = plan
  taker : ∀ leg rest, w.phase = .sleeping leg rest → leg.isTaker = true
  passive : ∀ leg rest, w.phase = .selecting leg rest → leg.isTaker = false
  reports : ∃ done legs, plan.legs = done ++ legs ∧ w.phase.Awaits plan legs ∧
    List.Forall₂ (Outcome plan) done w.reports

theorem outcomes_start (plan : TradePlan) : Outcomes plan (start plan) :=
  ⟨rfl,nofun,nofun,[],plan.legs,rfl,rfl,.nil⟩

theorem Outcomes.report (h : Outcomes plan w) {leg : OrderLeg} {rest : List OrderLeg} {filledQty remainingQty : Decimal}
    {status : ExecStatus} {rx : Receiver Unit} (hawaits : ∀ legs, w.phase.Awaits plan legs → legs = leg :: rest)
    (houtcome : Outcome plan leg ⟨plan.id,leg.legIdx,filledQty,remainingQty,status⟩) :
    Outcomes plan ({ w with rx := rx }.report leg rest filledQty remainingQty status) := by
  obtain ⟨rfl,-,-,done,legs,hlegs,hlegs',hreports⟩ := h
  cases hawaits legs hlegs'
  exact ⟨rfl,nofun,nofun,done ++ [leg],rest,by simpa using hlegs,rfl,List.rel_append hreports (.cons houtcome .nil)⟩

theorem Outcomes.step (h : Outcomes plan w) (hstep : w.step ev = some t) : Outcomes plan t := by
  have hmove := step_move hstep
  obtain ⟨hplan,htaker,hpassive,done,legs,hlegs,hawaits,hreports⟩ := h
  have h : Outcomes plan w := ⟨hplan,htaker,hpassive,done,legs,hlegs,hawaits,hreports⟩
  cases hmove with
  | register hphase =>
    rw [hphase] at hawaits
    exact ⟨hplan,nofun,nofun,done,legs,hlegs,hplan ▸ hawaits,hreports⟩
  | signal => exact ⟨hplan,htaker,hpassive,done,legs,hlegs,hawaits,hreports⟩
  | senderDropped => exact ⟨hplan,htaker,hpassive,done,legs,hlegs,hawaits,hreports⟩
  | @checkCancelled leg rest hphase _ =>
    exact h.report (fun legs hl => by rwa [hphase] at hl) .cancelled
  | @sleep leg rest hphase _ =>
    rw [hphase] at hawaits
    have hleg := (isTaker_of_check hphase hstep).1 rfl
    exact ⟨hplan,fun _ _ hp => by cases hp; exact hleg,nofun,done,legs,hlegs,hawaits,hreports⟩
  | @select leg rest hphase _ =>
    rw [hphase] at hawaits
    have hleg := (isTaker_of_check hphase hstep).2 rfl
    exact ⟨hplan,nofun,fun _ _ hp => by cases hp; exact hleg,done,legs,hlegs,hawaits,hreports⟩
  | @filled leg rest hphase =>
    exact h.report (fun legs hl => by rwa [hphase] at hl) (.filled (htaker leg rest hphase))
  | @unfilled leg rest hphase _ =>
    exact h.report (fun legs hl => by rwa [hphase] at hl) (.unfilled (hpassive leg rest hphase))
  | @selectCancelled leg rest hphase _ =>
    exact h.report (fun legs hl => by rwa [hphase] at hl) .cancelled
  | panicked hphase _ =>
    rw [hphase] at hawaits
    exact ⟨hplan,nofun,nofun,done,legs,hlegs,hawaits ▸ List.cons_ne_nil _ _,hreports⟩
  | cleanup hphase =>
    rw [hphase] at hawaits
    exact ⟨hplan,nofun,nofun,done,legs,hlegs,hawaits,hreports⟩

theorem Outcomes.getElem? (h : Outcomes plan w) {n : ℕ} {r : ExecutionReport} (hr : w.reports[n]? = some r) :
    ∃ leg, plan.legs[n]? = some leg ∧ Outcome plan leg r := by
  obtain ⟨-,-,-,done,legs,hlegs,-,hreports⟩ := h
  obtain ⟨hn,rfl⟩ := List.getElem?_eq_some_iff.mp hr
  have hdone : n < done.length := hreports.length_eq ▸ hn
  refine ⟨done[n],?_,hreports.get hdone hn⟩
  rw [hlegs, List.getElem?_append_left hdone, List.getElem?_eq_getElem hdone]

theorem Outcomes.length_reports_le (h : Outcomes plan w) : w.reports.length ≤ plan.legs.length := by
  obtain ⟨-,-,-,done,legs,hlegs,-,hreports⟩ := h
  rw [hlegs, List.length_append, hreports.length_eq]
  exact Nat.le_add_right _ _

theorem Outcomes.length_reports (h : Outcomes plan w) (hphase : w.phase = .finished) :
    w.reports.length = plan.legs.length := by
  obtain ⟨-,-,-,done,legs,hlegs,hawaits,hreports⟩ := h
  rw [hphase] at hawaits
  subst hawaits
  rw [hlegs, List.append_nil, hreports.length_eq]

/-- No signal is at hand as long as the worker works, and none was before. -/
structure Undisturbed (w : PlanWorker) : Prop where
  waiting : w.phase ≠ .finished → w.rx = .waiting
  panicked : w.phase ≠ .panicked
  uncancelled : ∀ r ∈ w.reports, r.status ≠ .cancelled

theorem undisturbed_start (plan : TradePlan) : (start plan).Undisturbed :=
  ⟨fun _ => rfl,nofun,nofun⟩

theorem Undisturbed.step (h : w.Undisturbed) (hown : Own ev) (hstep : w.step ev = some t) : t.Undisturbed := by
  obtain ⟨hwaiting,hpanicked,hreports⟩ := h
  have hreport : ∀ {r : ExecutionReport}, r.status ≠ .cancelled →
      ∀ r' ∈ w.reports ++ [r], r'.status ≠ .cancelled := by
    intro r hr r' hr'
    rcases List.mem_append.mp hr' with hr' | hr'
    · exact hreports r' hr'
    · exact List.mem_singleton.mp hr' ▸ hr
  cases step_move hstep with
  | signal => exact hown.elim
  | senderDropped => exact hown.elim
  | register hphase => exact ⟨fun _ => hwaiting (by simp [hphase]),(fun hphase => by cases hphase),hreports⟩
  | checkCancelled hphase hready => cases (hwaiting (by simp [hphase])).symm.trans hready
  | sleep hphase _ => exact ⟨fun _ => by simp [hwaiting (by simp [hphase])],(fun hphase => by cases hphase),hreports⟩
  | select hphase _ => exact ⟨fun _ => by simp [hwaiting (by simp [hphase])],(fun hphase => by cases hphase),hreports⟩
  | filled hphase => exact ⟨fun _ => hwaiting (by simp [hphase]),(fun hphase => by cases hphase),hreport (by simp)⟩
  | unfilled hphase _ => exact ⟨fun _ => hwaiting (by simp [hphase]),(fun hphase => by cases hphase),hreport (by simp)⟩
  | selectCancelled hphase _ =>
    have hrx := hwaiting (by simp [hphase])
    simp [PlanWorker.step, hphase, hrx, Receiver.poll] at hstep
  | panicked hphase htaken => cases (hwaiting (by simp [hphase])).symm.trans htaken
  | cleanup _ => exact ⟨fun hphase => absurd rfl hphase,(fun hphase => by cases hphase),hreports⟩

end PlanWorker

namespace Executor
variable {e t : Executor} {ev : ExecutorEvent} {i : ℕ} {w w' : PlanWorker}

theorem cancelled_step (h : e.step ev = some t) : ∀ c ∈ e.cancelled, c ∈ t.cancelled := by
  cases step_move h with
  | sendCancel =>
    intro c hc
    rw [cancelled, List.take_append]
    exact List.mem_append_left _ hc
  | signal hcancel => exact (mem_cancelled_signal hcancel).1
  | @worker i w ev _ _ hworker =>
    intro c hc
    cases ev with
    | signal => cases hworker
    | senderDropped => cases hworker
    | _ =>
      obtain ⟨w',-,rfl⟩ := Option.map_eq_some_iff.mp hworker
      exact hc
  | _ => exact fun _ hc => hc

/-- A worker after a step was the same before, has just been spawned, was signalled by a
request for its plan, or took a step of its own. -/
theorem Wired.worker_cases (h : e.Wired) (hstep : e.step ev = some t) (hw' : t.workers[i]? = some w') :
    e.workers[i]? = some w' ∨
    (∃ plan, ev = .spawn ∧ i = e.workers.length ∧ e.planTx[i]? = some plan ∧ w' = .start plan) ∨
    (∃ w, ∃ c ∈ t.cancelled, ev = .signal ∧ e.workers[i]? = some w ∧ c.planId = w.plan.id ∧ w' = w.signalled) ∨
    ∃ w ev', ev = .worker i ev' ∧ e.workers[i]? = some w ∧ PlanWorker.Own ev' ∧ w.step ev' = some w' := by
  have hset : ∀ {j : ℕ} {v : PlanWorker}, (e.workers.set j v)[i]? = some w' → e.workers[i]? = some w' ∨
      i = j ∧ w' = v := by
    intro j v hset
    by_cases hij : j = i
    · subst hij
      obtain ⟨_,heq⟩ := List.getElem?_eq_some_iff.mp hset
      rw [List.getElem_set_self] at heq
      exact .inr ⟨rfl,heq.symm⟩
    · exact .inl ((List.getElem?_set_ne hij).symm.trans hset)
  cases step_move hstep with
  | @spawn plan hplan =>
    rcases lt_or_ge i e.workers.length with hi | hi
    · exact .inl ((List.getElem?_append_left hi).symm.trans hw')
    · rw [List.getElem?_append_right hi] at hw'
      obtain ⟨hzero,hw'⟩ := List.getElem?_eq_some_iff.mp hw'
      rw [List.length_singleton] at hzero
      have hlast : i = e.workers.length := by omega
      subst hlast
      exact .inr (.inl ⟨plan,rfl,rfl,hplan,by simpa using hw'.symm⟩)
  | @signal c hcancel =>
    rcases h.signal_cases c with ⟨-,hworkers,-⟩ | ⟨j,v,-,hv,hid,-,hworkers,-⟩
    · exact .inl (hworkers ▸ hw')
    · rcases hset (hworkers ▸ hw') with hsame | ⟨rfl,rfl⟩
      · exact .inl hsame
      · exact .inr (.inr (.inl ⟨v,c,(mem_cancelled_signal hcancel).2,rfl,hv,hid.symm,rfl⟩))
  | @worker j v ev' _ hv hworker =>
    obtain ⟨hown,v',hv',rfl⟩ := h.workerStep_eq hv hworker
    rcases hset hw' with hsame | ⟨rfl,rfl⟩
    · exact .inl hsame
    · exact .inr (.inr (.inr ⟨v,ev',rfl,hv,hown,hv'⟩))
  | _ => exact .inl hw'

def Quiet (e : Executor) : Prop := ∀ (i : ℕ) (w : PlanWorker), e.workers[i]? = some w →
  PlanWorker.Outcomes w.plan w ∧ ((∃ c ∈ e.cancelled, c.planId = w.plan.id) ∨ w.Undisturbed)

theorem quiet_new : new.Quiet := fun i w hw => by simp [new] at hw

theorem quiet_step (h : e.Wired) (hquiet : e.Quiet) (hstep : e.step ev = some t) : t.Quiet := by
  intro i w' hw'
  have hmono := cancelled_step hstep
  have hkept : ∀ {w : PlanWorker}, (∃ c ∈ e.cancelled, c.planId = w.plan.id) →
      ∃ c ∈ t.cancelled, c.planId = w.plan.id := fun ⟨c,hc,hid⟩ => ⟨c,hmono c hc,hid⟩
  rcases h.worker_cases hstep hw' with hw | ⟨plan,-,-,-,rfl⟩ | ⟨w,c,hc,-,hw,hid,rfl⟩ | ⟨w,ev',-,hw,hown,hworker⟩
  · obtain ⟨houtcomes,hdisturbed⟩ := hquiet i w' hw
    exact ⟨houtcomes,hdisturbed.imp_left hkept⟩
  · exact ⟨PlanWorker.outcomes_start plan,.inr (PlanWorker.undisturbed_start plan)⟩
  · obtain ⟨⟨hplan,htaker,hpassive,hreports⟩,-⟩ := hquiet i w hw
    exact ⟨⟨hplan,htaker,hpassive,hreports⟩,.inl ⟨c,hc,hid⟩⟩
  · obtain ⟨houtcomes,hdisturbed⟩ := hquiet i w hw
    have hplan := PlanWorker.plan_move (PlanWorker.step_move hworker)
    rw [hplan]
    exact ⟨houtcomes.step hworker,hdisturbed.imp hkept fun hw => hw.step hown hworker⟩

end Executor

end ArbCore
