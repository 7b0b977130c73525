import ArbCore.Execution.Mock

/-! # Plans of taker legs

An aggressive plan has taker legs only. Unless its worker is sent the cancel signal it
reports one full fill for each leg, in order.
-/
namespace ArbCore
open Oneshot

/-- What the planner guarantees in aggressive mode. -/
structure TradePlan.Taker (plan : TradePlan) : Prop where
  isTaker : ∀ leg ∈ plan.legs, leg.isTaker = true
  legIdx : ∀ i leg, plan.legs[i]? = some leg → leg.legIdx = UInt8.ofNat i
  qty_pos : ∀ leg ∈ plan.legs, 0 < leg.qty

theorem TradePlan.taker_of_build {cfg : StrategyConfig} (hcfg : cfg.aggression = .aggressive)
    {id : String} {op : Opportunity} {plan : TradePlan} (h : buildTradePlan id op cfg = some (.ok plan)) :
    plan.Taker := by
  have hleg : ∀ i leg, plan.legs[i]? = some leg → ∃ l, planLeg cfg i l = .ok leg := by
    intro i leg hi
    obtain ⟨l,hl⟩ := planLegs_getElem? (buildTradePlan_legs h).2 hi
    exact ⟨l,Nat.zero_add i ▸ hl⟩
  refine ⟨fun leg hmem => ?_,fun i leg hi => ?_,fun leg hmem => ?_⟩
  · obtain ⟨i,hi⟩ := List.mem_iff_getElem?.mp hmem
    obtain ⟨l,hl⟩ := hleg i leg hi
    rw [(planLeg_position hl).2, hcfg]
    rfl
  · obtain ⟨l,hl⟩ := hleg i leg hi
    exact (planLeg_position hl).1
  · obtain ⟨i,hi⟩ := List.mem_iff_getElem?.mp hmem
    obtain ⟨l,hl⟩ := hleg i leg hi
    exact (planLeg_ok hl).qty_pos

/-- Up to 256 legs the byte is the position. -/
theorem TradePlan.Taker.legIdx_toNat {plan : TradePlan} (h : plan.Taker) (hbyte : plan.legs.length ≤ 256)
    {i : ℕ} {leg : OrderLeg} (hleg : plan.legs[i]? = some leg) : leg.legIdx.toNat = i := by
  rw [h.legIdx i leg hleg]
  exact UInt8.toNat_ofNat_of_lt' ((List.getElem?_eq_some_iff.mp hleg).1.trans_le hbyte)

def TradePlan.fullFill (plan : TradePlan) (leg : OrderLeg) : ExecutionReport :=
  ⟨plan.id,leg.legIdx,leg.qty,0,.filled⟩

def TradePlan.fullFills (plan : TradePlan) : List ExecutionReport := plan.legs.map plan.fullFill

def WorkerPhase.Fills : WorkerPhase → Prop
  | .selecting _ _ | .panicked => False
  | _ => True

namespace PlanWorker
variable {plan : TradePlan} {w t : PlanWorker} {ev : WorkerEvent}

/-- The legs before those awaited are reported as filled, and no cancel is at hand. -/
structure Filling (plan : TradePlan) (w : PlanWorker) : Prop where
  plan_eq : w.plan = plan
  rx : w.rx ≠ .ready ()
  phase : w.phase.Fills
  reports : ∃ done legs, plan.legs = done ++ legs ∧ w.reports = done.map plan.fullFill ∧
    w.phase.Awaits plan legs

theorem filling_start (plan : TradePlan) : Filling plan (start plan) :=
  ⟨rfl,nofun,trivial,[],plan.legs,rfl,rfl,rfl⟩

/-- The reports never run ahead of the legs. -/
theorem Filling.prefix_fullFills (h : Filling plan w) : w.reports <+: plan.fullFills := by
  obtain ⟨done,legs,hlegs,hreports,-⟩ := h.reports
  rw [hreports, TradePlan.fullFills, hlegs, List.map_append]
  exact List.prefix_append _ _

theorem Filling.report (h : Filling plan w) {leg : OrderLeg} {rest : List OrderLeg}
    (hphase : w.phase = .sleeping leg rest) : Filling plan (w.report leg rest leg.qty 0 .filled) := by
  obtain ⟨done,legs,hlegs,hreports,hawaits⟩ := h.reports
  rw [hphase] at hawaits
  subst hawaits
  refine ⟨h.plan_eq,h.rx,trivial,done ++ [leg],rest,by simpa using hlegs,?_,rfl⟩
  simp [PlanWorker.report, hreports, TradePlan.fullFill, h.plan_eq]

theorem Filling.step (h : Filling plan w) (htaker : ∀ leg ∈ plan.legs, leg.isTaker = true)
    (hsignal : ev ≠ .signal) (hstep : w.step ev = some t) : Filling plan t := by
  obtain ⟨done,legs,hlegs,hreports,hawaits⟩ := h.reports
  have hmove := step_move hstep
  cases hmove with
  | register hphase =>
    rw [hphase] at hawaits
    exact ⟨h.plan_eq,h.rx,trivial,done,legs,hlegs,hreports,h.plan_eq ▸ hawaits⟩
  | signal => exact absurd rfl hsignal
  | senderDropped =>
    exact ⟨h.plan_eq,Receiver.dropSender_ne_ready h.rx,h.phase,done,legs,hlegs,hreports,hawaits⟩
  | checkCancelled _ hrx => exact absurd hrx h.rx
  | sleep hphase _ =>
    rw [hphase] at hawaits
    exact ⟨h.plan_eq,Receiver.tryRecv_ne_ready _ _,trivial,done,legs,hlegs,hreports,hawaits⟩
  | @select leg rest hphase hrx =>
    rw [hphase] at hawaits
    subst hawaits
    have hleg : leg.isTaker = true := htaker leg (by simp [hlegs])
    exact absurd hleg (by simp [(isTaker_of_check hphase hstep).2 rfl])
  | filled hphase => exact h.report hphase
  | unfilled hphase _ => exact (hphase ▸ h.phase : WorkerPhase.Fills (.selecting _ _)).elim
  | selectCancelled hphase _ => exact (hphase ▸ h.phase : WorkerPhase.Fills (.selecting _ _)).elim
  | panicked hphase _ => exact (hphase ▸ h.phase : WorkerPhase.Fills (.selecting _ _)).elim
  | cleanup hphase =>
    rw [hphase] at hawaits
    exact ⟨h.plan_eq,Receiver.dropSender_ne_ready h.rx,trivial,done,legs,hlegs,hreports,hawaits⟩

theorem reports_prefix_step (hstep : w.step ev = some t) : w.reports <+: t.reports := by
  cases step_move hstep with
  | checkCancelled _ _ => exact List.prefix_append _ _
  | filled _ => exact List.prefix_append _ _
  | unfilled _ _ => exact List.prefix_append _ _
  | selectCancelled _ _ => exact List.prefix_append _ _
  | _ => exact List.prefix_rfl

end PlanWorker

end ArbCore
