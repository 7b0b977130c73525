import ArbCore.Execution.Undisturbed

/-! # Legs that a cancel takes out

The signal of a cancel is used up by one leg: the legs after it go on as if nobody had asked.
Of a plan with taker legs the mock therefore fills all legs but at most one.
-/
namespace ArbCore
open Oneshot LabelledRun

namespace PlanWorker
variable {w t : PlanWorker} {ev : WorkerEvent}

def cancellations (w : PlanWorker) : ℕ := w.reports.countP fun r => r.status = .cancelled

/-- A worker with taker legs reports a leg as cancelled when it takes the signal, and awaits
the signal nowhere. -/
structure OneSignal (w : PlanWorker) : Prop where
  once : w.cancellations ≤ if w.rx = .taken then 1 else 0
  running : w.phase ≠ .panicked

theorem oneSignal_start (plan : TradePlan) : (start plan).OneSignal := ⟨Nat.zero_le _,nofun⟩

theorem cancellations_report (w : PlanWorker) (leg : OrderLeg) (rest : List OrderLeg)
    (filledQty remainingQty : Decimal) (status : ExecStatus) :
    (w.report leg rest filledQty remainingQty status).cancellations =
      w.cancellations + if status = .cancelled then 1 else 0 := by
  rw [cancellations, report, List.countP_append, List.countP_singleton]
  simp [cancellations]

theorem OneSignal.mono (h : w.OneSignal) {rx : Receiver Unit} (hrx : w.rx = .taken → rx = .taken) :
    w.cancellations ≤ if rx = .taken then 1 else 0 := by
  refine h.once.trans ?_
  split_ifs with htaken hnot
  · exact le_rfl
  · exact absurd (hrx htaken) hnot
  · exact Nat.zero_le 1
  · exact le_rfl

theorem Outcomes.not_selecting (h : Outcomes w.plan w) (htaker : ∀ leg ∈ w.plan.legs, leg.isTaker = true)
    (leg : OrderLeg) (rest : List OrderLeg) : w.phase ≠ .selecting leg rest := by
  intro hphase
  obtain ⟨-,-,hpassive,done,legs,hlegs,hawaits,-⟩ := h
  rw [hphase] at hawaits
  have hleg : leg ∈ w.plan.legs := by
    rw [hlegs, hawaits]
    exact List.mem_append_right _ List.mem_cons_self
  cases (htaker leg hleg).symm.trans (hpassive leg rest hphase)

theorem OneSignal.step (h : w.OneSignal) (houtcomes : Outcomes w.plan w)
    (htaker : ∀ leg ∈ w.plan.legs, leg.isTaker = true) (hstep : w.step ev = some t) : t.OneSignal := by
  have hnot := houtcomes.not_selecting htaker
  cases step_move hstep with
  | register _ => exact ⟨h.once,nofun⟩
  | signal => exact ⟨h.mono Receiver.send_eq_taken.mpr,h.running⟩
  | senderDropped => exact ⟨h.mono Receiver.dropSender_eq_taken.mpr,h.running⟩
  | @checkCancelled leg rest _ hready =>
    refine ⟨?_,nofun⟩
    have hnone : w.cancellations ≤ 0 := by
      have honce := h.once
      rwa [hready] at honce
    exact (cancellations_report { w with rx := .taken } leg rest _ _ _).trans_le (Nat.add_le_add_right hnone 1)
  | sleep _ _ => exact ⟨h.mono fun htaken => by simp [htaken],nofun⟩
  | select _ _ => exact ⟨h.mono fun htaken => by simp [htaken],nofun⟩
  | @filled leg rest _ => exact ⟨(cancellations_report w leg rest _ _ _).trans_le h.once,nofun⟩
  | unfilled hphase _ => exact absurd hphase (hnot _ _)
  | selectCancelled hphase _ => exact absurd hphase (hnot _ _)
  | panicked hphase _ => exact absurd hphase (hnot _ _)
  | cleanup _ => exact ⟨h.mono Receiver.dropSender_eq_taken.mpr,nofun⟩

def missed (w : PlanWorker) : List OrderLeg :=
  ((w.plan.legs.zip w.reports).filter fun x => x.2.status = .cancelled).map Prod.fst

theorem length_missed (h : Outcomes w.plan w) : w.missed.length = w.cancellations := by
  have hcount : w.missed.length = ((w.plan.legs.zip w.reports).map Prod.snd).countP fun r => r.status = .cancelled := by
    rw [missed, List.length_map, List.countP_map, List.countP_eq_length_filter]
    rfl
  rw [hcount, List.map_snd_zip h.length_reports_le, cancellations]

theorem missed_eq_nil (h : ∀ r ∈ w.reports, r.status ≠ .cancelled) : w.missed = [] := by
  refine List.map_eq_nil_iff.mpr (List.filter_eq_nil_iff.mpr fun x hx hcancelled => ?_)
  exact h x.2 (List.of_mem_zip hx).2 (of_decide_eq_true hcancelled)

end PlanWorker

namespace Executor
variable {e t : Executor} {ev : ExecutorEvent}

def OneSignal (e : Executor) : Prop := ∀ (i : ℕ) (w : PlanWorker), e.workers[i]? = some w →
  (∀ leg ∈ w.plan.legs, leg.isTaker = true) → w.OneSignal

theorem oneSignal_new : new.OneSignal := fun i w hw => by simp [new] at hw

theorem oneSignal_step (h : e.Wired) (hquiet : e.Quiet) (hone : e.OneSignal) (hstep : e.step ev = some t) :
    t.OneSignal := by
  intro i w' hw' htaker
  rcases h.worker_cases hstep hw' with hw | ⟨plan,-,-,-,rfl⟩ | ⟨w,c,-,-,hw,-,rfl⟩ | ⟨w,ev',-,hw,-,hworker⟩
  · exact hone i w' hw htaker
  · exact PlanWorker.oneSignal_start plan
  · have hw' := hone i w hw htaker
    exact ⟨hw'.mono Receiver.send_eq_taken.mpr,hw'.running⟩
  · rw [PlanWorker.plan_move (PlanWorker.step_move hworker)] at htaker
    exact (hone i w hw htaker).step (hquiet i w hw).1 htaker hworker

end Executor

end ArbCore
