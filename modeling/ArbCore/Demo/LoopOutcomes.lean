import ArbCore.Demo.LoopReports

/-! # What becomes of the plans of the trading loop

A plan in the map has its first legs filled in full. In aggressive mode the plans counted
as executed are those that were never asked to be cancelled and whose fills the engine has
all handled. In passive mode nothing is ever filled, and yet plans count as executed.
-/
namespace ArbCore
open LabelledRun

section Outcomes
variable {plan : TradePlan}

theorem TradePlan.Built.taker {cfg : StrategyConfig} (h : plan.Built cfg) (hcfg : cfg.aggression = .aggressive) :
    plan.Taker :=
  ⟨fun leg hleg => (h.isTaker leg hleg).trans (decide_eq_true hcfg),h.legIdx,h.qty_pos⟩

theorem TradePlan.Built.passive {cfg : StrategyConfig} (h : plan.Built cfg) (hcfg : cfg.aggression = .passive) :
    ∀ leg ∈ plan.legs, leg.isTaker = false := fun leg hleg => (h.isTaker leg hleg).trans (by simp [hcfg])

/-- Of the outcomes only a full fill leaves a plan in the map. -/
theorem Outcome.eq_fullFill_of_react {leg : OrderLeg} {r : ExecutionReport} (h : Outcome plan leg r)
    {p p' : InFlightPlan} (hreact : p.react r = some p') : r = plan.fullFill leg := by
  have hkept := (InFlightPlan.react_eq_some.mp hreact).1
  cases h with
  | filled _ => rfl
  | unfilled _ => cases hkept
  | cancelled => cases hkept

theorem eq_fullFills_of_outcomes {legs : List OrderLeg} {reports : List ExecutionReport}
    (h : List.Forall₂ (Outcome plan) legs reports)
    (hfull : ∀ leg, ∀ r ∈ reports, leg ∈ legs → Outcome plan leg r → r = plan.fullFill leg) :
    reports = legs.map plan.fullFill := by
  induction h with
  | nil => rfl
  | cons hr _ ih =>
    refine congrArg₂ List.cons (hfull _ _ List.mem_cons_self List.mem_cons_self hr) (ih fun leg r hmem hleg => ?_)
    exact hfull leg r (List.mem_cons_of_mem _ hmem) (List.mem_cons_of_mem _ hleg)

theorem reacts_of_foldl {reports : List ExecutionReport} {o : Option InFlightPlan} {p : InFlightPlan}
    (h : reports.foldl (fun o r => o.bind (·.react r)) o = some p) :
    ∀ r ∈ reports, ∃ q q' : InFlightPlan, q.react r = some q' := by
  induction reports generalizing o with
  | nil => nofun
  | cons r rest ih =>
    intro r' hr'
    rcases List.mem_cons.mp hr' with rfl | hr'
    · cases hreact : o.bind (·.react r') with
      | none =>
        rw [List.foldl_cons, hreact, foldl_bind_none] at h
        cases h
      | some q' =>
        obtain ⟨q,-,hq⟩ := Option.bind_eq_some_iff.mp hreact
        exact ⟨q,q',hq⟩
    · exact ih h r' hr'

end Outcomes

section Counting
variable {α β : Type*}

theorem countP_of_mem_keys {l : List α} {f : α → β} (hl : (l.map f).Nodup) {keys : List β} (hkeys : keys.Nodup)
    (hsub : keys ⊆ l.map f) {P : α → Bool} (hP : ∀ a ∈ l, P a = true ↔ f a ∈ keys) : l.countP P = keys.length := by
  have hperm : ((l.filter P).map f).Perm keys := by
    refine (List.perm_ext_iff_of_nodup (hl.sublist (List.filter_sublist.map f)) hkeys).mpr fun b => ?_
    simp only [List.mem_map, List.mem_filter]
    constructor
    · rintro ⟨a,⟨hmem,ha⟩,rfl⟩
      exact (hP a hmem).mp ha
    · intro hb
      obtain ⟨a,ha,rfl⟩ := List.mem_map.mp (hsub hb)
      exact ⟨a,⟨ha,(hP a ha).mpr hb⟩,rfl⟩
  rw [← hperm.length_eq, List.length_map, List.countP_eq_length_filter]

theorem countP_three {A B C : α → Bool} {l : List α} (h : ∀ a ∈ l, (A a).toNat + (B a).toNat + (C a).toNat = 1) :
    l.countP A + l.countP B + l.countP C = l.length := by
  induction l with
  | nil => rfl
  | cons a l ih =>
    have hrest := ih fun a ha => h a (List.mem_cons_of_mem _ ha)
    have ha := h a List.mem_cons_self
    simp only [List.countP_cons, List.length_cons]
    cases hA : A a <;> cases hB : B a <;> cases hC : C a <;> simp_all <;> omega

end Counting

namespace TradingLoop
variable {cfg : StrategyConfig} {storage : Bool} {s t : TradingLoop} {plan : TradePlan}

section Plans

/-- In passive mode a plan in the map is as it was registered. -/
theorem Served.inflight_passive (hs : s.Served cfg) (hc : s.Coupled cfg) (hcfg : cfg.aggression = .passive)
    (hplan : plan ∈ s.engine.registeredPlans) {p : InFlightPlan} (hp : s.engine.inflight.lookup plan.id = some p) :
    s.handledOf plan.id = [] ∧ ∃ now, p = .register cfg plan now := by
  obtain ⟨now,hreplay⟩ := hs.inflight plan hplan p hp
  have hbuilt := hc.parties.accounted.built hplan
  obtain ⟨hle,houtcomes⟩ := hc.outcomes hplan (s.handledOf_prefix plan.id)
  have hnil : s.handledOf plan.id = [] := by
    by_contra hne
    obtain ⟨r,hr⟩ := List.exists_mem_of_ne_nil _ hne
    obtain ⟨n,hn,rfl⟩ := List.getElem_of_mem hr
    have hleg := List.getElem_mem (hn.trans_le hle)
    have hout := (List.forall₂_iff_get.mp houtcomes).2 n (by simpa using ⟨hn,hn.trans_le hle⟩) hn
    simp only [List.get_eq_getElem, List.getElem_take] at hout
    obtain ⟨q,q',hreact⟩ := reacts_of_foldl hreplay _ hr
    have hqty := hout.filledQty_eq_zero (hbuilt.passive hcfg _ hleg)
    rw [hout.eq_fullFill_of_react hreact] at hqty
    exact (hbuilt.qty_pos _ hleg).ne' hqty
  rw [hnil] at hreplay
  exact ⟨hnil,now,(Option.some.inj hreplay).symm⟩

/-- A plan in the map has been filled leg by leg, and not to its end. -/
theorem Served.inflight_eq (hs : s.Served cfg) (hc : s.Coupled cfg) (hplan : plan ∈ s.engine.registeredPlans)
    {p : InFlightPlan} (hp : s.engine.inflight.lookup plan.id = some p) :
    ∃ k < plan.legs.length, ∃ now, s.handledOf plan.id = plan.fullFills.take k ∧
      p = ⟨plan,plan.filledTo k,now,cfg.orderTimeoutMs⟩ := by
  obtain ⟨now,hreplay⟩ := hs.inflight plan hplan p hp
  have hbuilt := hc.parties.accounted.built hplan
  have hlegs : 0 < plan.legs.length := hbuilt.legs_length.symm ▸ Nat.succ_pos 2
  obtain ⟨hle,houtcomes⟩ := hc.outcomes hplan (s.handledOf_prefix plan.id)
  have htake : s.handledOf plan.id = plan.fullFills.take (s.handledOf plan.id).length := by
    rw [TradePlan.fullFills, ← List.map_take]
    refine eq_fullFills_of_outcomes houtcomes fun leg r hr _ hout => ?_
    obtain ⟨q,q',hreact⟩ := reacts_of_foldl hreplay r hr
    exact hout.eq_fullFill_of_react hreact
  cases hcfg : cfg.aggression with
  | aggressive =>
    have htaker := hbuilt.taker hcfg
    rw [replay, htake, TradePlan.foldl_fullFills htaker hlegs (hbuilt.legs_length.trans_le (by norm_num)) cfg now
      hle] at hreplay
    split_ifs at hreplay with hlt
    exact ⟨_,hlt,now,htake,(Option.some.inj hreplay).symm⟩
  | passive =>
    obtain ⟨hnil,now,rfl⟩ := hs.inflight_passive hc hcfg hplan hp
    refine ⟨0,hlegs,now,hnil,?_⟩
    rw [TradePlan.filledTo_zero]
    rfl

theorem Coupled.cancelAll_mem_iff (hc : s.Coupled cfg) (planId : String) :
    cancelAll planId ∈ s.engine.execCancelTx ↔ planId ∈ s.engine.execCancelTx.map CancelRequest.planId := by
  constructor
  · exact fun hmem => List.mem_map.mpr ⟨_,hmem,rfl⟩
  · intro hmem
    obtain ⟨c,hsent,rfl⟩ := List.mem_map.mp hmem
    exact (hc.parties.accounted.cancels.plans c hsent).1 ▸ hsent

/-- A plan that nobody asked to be cancelled has left the map by its full fills. -/
theorem Served.handledOf_eq_fullFills (hs : s.Served cfg) (hc : s.Coupled cfg)
    (hplan : plan ∈ s.engine.registeredPlans) (hgone : plan.id ∉ s.engine.inflight)
    (hcancel : cancelAll plan.id ∉ s.engine.execCancelTx) :
    cfg.aggression = .aggressive ∧ s.handledOf plan.id = plan.fullFills := by
  obtain ⟨hcfg,now,hreplay⟩ := (hs.left plan hplan hgone).resolve_left hcancel
  refine ⟨hcfg,?_⟩
  have hbuilt := hc.parties.accounted.built hplan
  have htaker := hbuilt.taker hcfg
  have hlegs : 0 < plan.legs.length := hbuilt.legs_length.symm ▸ Nat.succ_pos 2
  obtain ⟨hle,houtcomes⟩ := hc.outcomes hplan (s.handledOf_prefix plan.id)
  have hstatus : ∀ r ∈ s.handledOf plan.id, r.status ≠ .cancelled := by
    intro r hr
    have hpre := s.handledOf_prefix plan.id
    rcases hc.reportsOf_cases hplan with hnil | ⟨i,w,hw,rfl,hworker⟩
    · rw [hnil, List.prefix_nil] at hpre
      rw [hpre] at hr
      cases hr
    · rcases (hc.parties.quiet i w hw).2 with ⟨c,hmem,hid⟩ | hundisturbed
      · refine absurd ((hc.cancelAll_mem_iff _).mpr ?_) hcancel
        exact hid ▸ List.mem_map_of_mem (hc.channels.cancels.subset (List.mem_of_mem_take hmem))
      · exact hundisturbed.uncancelled r ((hpre.trans hworker).subset hr)
  have htake : s.handledOf plan.id = plan.fullFills.take (s.handledOf plan.id).length := by
    rw [TradePlan.fullFills, ← List.map_take]
    refine eq_fullFills_of_outcomes houtcomes fun leg r hr hleg hout => ?_
    exact hout.eq_fullFill (htaker.isTaker leg (List.mem_of_mem_take hleg)) (hstatus r hr)
  rw [replay, htake, TradePlan.foldl_fullFills htaker hlegs (hbuilt.legs_length.trans_le (by norm_num)) cfg now
    hle] at hreplay
  split_ifs at hreplay with hlt
  rw [htake]
  exact List.take_of_length_le (by simpa [TradePlan.fullFills] using hlt)

/-- The plan was never asked to be cancelled, and the engine has handled a full fill of each leg. -/
def Executed (s : TradingLoop) (plan : TradePlan) : Prop :=
  cancelAll plan.id ∉ s.engine.execCancelTx ∧ ∀ leg ∈ plan.legs, plan.fullFill leg ∈ s.handled

instance (s : TradingLoop) (plan : TradePlan) : Decidable (s.Executed plan) := inferInstanceAs (Decidable (_ ∧ _))

theorem Served.executed_iff (hs : s.Served cfg) (hc : s.Coupled cfg) (hcfg : cfg.aggression = .aggressive)
    (hplan : plan ∈ s.engine.registeredPlans) :
    s.Executed plan ↔ plan.id ∉ s.engine.inflight ∧ cancelAll plan.id ∉ s.engine.execCancelTx := by
  constructor
  · rintro ⟨hcancel,hfills⟩
    refine ⟨fun hmem => ?_,hcancel⟩
    obtain ⟨p,hp⟩ := Option.isSome_iff_exists.mp (AList.lookup_isSome.mpr hmem)
    obtain ⟨k,hk,now,hhandled,-⟩ := hs.inflight_eq hc hplan hp
    have hbuilt := hc.parties.accounted.built hplan
    obtain ⟨leg,hleg,hmissing⟩ := (TradePlan.exists_unfilled_iff (hbuilt.taker hcfg)
      (hbuilt.legs_length.trans_le (by norm_num)) k).mpr hk
    refine hmissing (plan.fullFill leg) ?_ rfl
    rw [← hhandled]
    exact List.mem_filter.mpr ⟨hfills leg hleg,by simp [TradePlan.fullFill]⟩
  · rintro ⟨hgone,hcancel⟩
    refine ⟨hcancel,fun leg hleg => ?_⟩
    have hmem : plan.fullFill leg ∈ s.handledOf plan.id := by
      rw [(hs.handledOf_eq_fullFills hc hplan hgone hcancel).2]
      exact List.mem_map_of_mem hleg
    exact List.mem_of_mem_filter hmem

end Plans

section Counts

theorem Coupled.monitor_eq_select (hc : s.Coupled cfg) (hidle : s.engine.monitor.Idle) :
    s.engine.monitor = .select := by
  cases hphase : s.engine.monitor with
  | select => rfl
  | stopped => exact absurd hphase hc.parties.accounted.distinct.running.monitor
  | _ =>
    rw [hphase] at hidle
    exact hidle.elim

/-- While the monitor waits, the plans that are neither in the map nor asked to be cancelled
are those that a report ended. -/
theorem Coupled.countP_left (hc : s.Coupled cfg) (hidle : s.engine.monitor.Idle) :
    (s.engine.registeredPlans.countP fun plan =>
        decide (plan.id ∉ s.engine.inflight ∧ cancelAll plan.id ∉ s.engine.execCancelTx)) +
      s.engine.execCancelTx.length = s.engine.metrics.plansExecuted + s.engine.metrics.plansCancelled := by
  have haccounted := hc.parties.accounted
  have hphase := hc.monitor_eq_select hidle
  have hids : (s.engine.registeredPlans.map TradePlan.id).Nodup := haccounted.distinct.ids
  have hnotMem : ∀ planId, cancelAll planId ∈ s.engine.execCancelTx → planId ∉ s.engine.inflight := fun planId hmem =>
    haccounted.cancels.notMem (fun _ _ hr => by cases hphase.symm.trans hr) _ hmem
  have hkeys : (s.engine.registeredPlans.countP fun plan => decide (plan.id ∈ s.engine.inflight)) =
      s.engine.inflight.keys.length :=
    countP_of_mem_keys hids s.engine.inflight.keys_nodup (fun id hid => haccounted.distinct.registered_of_mem hid)
      fun plan _ => decide_eq_true_iff
  have hcancels : (s.engine.registeredPlans.countP fun plan => decide (cancelAll plan.id ∈ s.engine.execCancelTx)) =
      (s.engine.execCancelTx.map CancelRequest.planId).length := by
    refine countP_of_mem_keys hids haccounted.cancels.once (fun id hid => ?_) fun plan _ => ?_
    · obtain ⟨c,hc',rfl⟩ := List.mem_map.mp hid
      exact (haccounted.cancels.plans c hc').2
    · rw [decide_eq_true_iff]
      exact hc.cancelAll_mem_iff plan.id
  have hthree := @countP_three _ (fun plan => decide (plan.id ∈ s.engine.inflight))
    (fun plan => decide (cancelAll plan.id ∈ s.engine.execCancelTx))
    (fun plan => decide (plan.id ∉ s.engine.inflight ∧ cancelAll plan.id ∉ s.engine.execCancelTx))
    s.engine.registeredPlans fun plan _ => by
      have hgone := hnotMem plan.id
      by_cases hmem : plan.id ∈ s.engine.inflight <;> by_cases hcancel : cancelAll plan.id ∈ s.engine.execCancelTx <;>
        simp_all
  have hlength := haccounted.length_registeredPlans
  change s.engine.registeredPlans.length = s.engine.inflight.keys.length + s.engine.metrics.plansExecuted +
    s.engine.metrics.plansCancelled + s.engine.monitor.uncounted at hlength
  rw [hidle.uncounted_eq] at hlength
  rw [List.length_map] at hcancels
  omega

end Counts

section Results

/-- In every run of the loop the executor reports on plans that the engine sent, at most one
outcome for each leg and in the order of the legs. A plan in the map has its first legs
filled in full, just as they were reported, and the others not at all. -/
theorem reports_are_outcomes {events : List TradingEvent} (hrun : run (step cfg storage) new events = some s) :
    (∀ r ∈ s.reportTx, ∃ plan ∈ s.engine.execTx, plan.id = r.planId) ∧
    ∀ plan ∈ s.engine.execTx, plan.legs.length = 3 ∧
      List.Forall₂ (Outcome plan) (plan.legs.take (reportsOf plan.id s.reportTx).length)
        (reportsOf plan.id s.reportTx) ∧
      ∀ p, s.engine.inflight.lookup plan.id = some p → ∃ k < 3, s.handledOf plan.id = plan.fullFills.take k ∧
        p.plan = plan ∧ p.filled = plan.filledTo k := by
  obtain ⟨hc,hs⟩ := served_run hrun
  refine ⟨fun r hr => ?_,fun plan hplan => ?_⟩
  · obtain ⟨i,w,hw,hid⟩ := hc.channels.owned r hr
    exact ⟨w.plan,hc.sent_of_worker hw,hid⟩
  · have hplan := Engine.mem_registeredPlans_of_sent hplan
    have hlegs := (hc.parties.accounted.built hplan).legs_length
    refine ⟨hlegs,(hc.outcomes hplan List.prefix_rfl).2,fun p hp => ?_⟩
    obtain ⟨k,hk,now,hhandled,rfl⟩ := hs.inflight_eq hc hplan hp
    exact ⟨k,hlegs ▸ hk,hhandled,rfl,rfl⟩

/-- In aggressive mode, whenever the monitor waits, the plans counted as executed are those of
which every leg was filled in full while nobody had asked for a cancel. Every cancel comes
from a scan, one for each plan counted as cancelled, and no plan is asked to be cancelled twice. -/
theorem executed_iff_filled (hcfg : cfg.aggression = .aggressive) {events : List TradingEvent}
    (hrun : run (step cfg storage) new events = some s) (hidle : s.engine.monitor.Idle) :
    s.engine.metrics.plansExecuted = s.engine.execTx.countP (fun plan => decide (s.Executed plan)) ∧
      s.engine.metrics.plansCancelled = s.engine.execCancelTx.length ∧
      (s.engine.execCancelTx.map CancelRequest.planId).Nodup := by
  obtain ⟨hc,hs⟩ := served_run hrun
  have hphase := hc.monitor_eq_select hidle
  have hrequests := hs.requests
  simp only [hcfg, ↓reduceIte, Engine.asked, hphase, MonitorPhase.asked, Nat.add_zero] at hrequests
  refine ⟨?_,hrequests.symm,hc.parties.accounted.cancels.once⟩
  have hcount := hc.countP_left hidle
  have hexecuted : (s.engine.registeredPlans.countP fun plan =>
      decide (plan.id ∉ s.engine.inflight ∧ cancelAll plan.id ∉ s.engine.execCancelTx)) =
      s.engine.registeredPlans.countP fun plan => decide (s.Executed plan) := by
    refine List.countP_congr fun plan hplan => ?_
    rw [decide_eq_true_iff, decide_eq_true_iff]
    exact (hs.executed_iff hc hcfg hplan).symm
  have hunsent : s.engine.detector.registered?.toList.countP (fun plan => decide (s.Executed plan)) = 0 := by
    refine List.countP_eq_zero.mpr fun plan hplan hexecuted => ?_
    have hids : ((s.engine.execTx ++ s.engine.detector.registered?.toList).map TradePlan.id).Nodup :=
      hc.parties.accounted.distinct.ids
    have hregistered : plan ∈ s.engine.registeredPlans := List.mem_append_right _ hplan
    have hbuilt := hc.parties.accounted.built hregistered
    obtain ⟨leg,hleg⟩ := List.exists_mem_of_length_pos (hbuilt.legs_length.symm ▸ Nat.succ_pos 2 : 0 < plan.legs.length)
    have hfill := s.handled_prefix.subset ((of_decide_eq_true hexecuted).2 leg hleg)
    obtain ⟨i,w,hw,rfl⟩ := hc.worker_of_report hregistered hfill rfl
    rw [List.map_append, List.nodup_append] at hids
    exact hids.2.2 _ (List.mem_map_of_mem (hc.sent_of_worker hw)) _ (List.mem_map_of_mem hplan) rfl
  rw [hexecuted, Engine.registeredPlans, List.countP_append, hunsent] at hcount
  omega

def planOne : List TradingEvent :=
  (submitOne mispricedView "p1").map .engine ++
    [.forwardPlan,.executor .receivePlan,.executor .spawn,.executor (.worker 0 .register)]

def reportOne : List TradingEvent :=
  [.deliver 0,.forwardReport,.receiveReport] ++ List.replicate 3 (.engine (.monitor ⟨true,[]⟩))

def fillOne : List TradingEvent := [.executor (.worker 0 .check),.executor (.worker 0 .timer)] ++ reportOne

def tradeOne : List TradingEvent := planOne ++ fillOne ++ fillOne ++ fillOne ++ [.engine (.monitor ⟨true,[]⟩)]

theorem reports_are_outcomes_tradeOne :
    ∃ s, run (step plainConfig true) new (planOne ++ fillOne) = some s ∧
      ∀ r ∈ s.reportTx, ∃ plan ∈ s.engine.execTx, plan.id = r.planId :=
  ⟨(run (step plainConfig true) new (planOne ++ fillOne)).get (by decide +kernel),(Option.some_get _).symm,
    (reports_are_outcomes (Option.some_get _).symm).1⟩

theorem executed_iff_filled_tradeOne :
    ∃ s, run (step plainConfig true) new tradeOne = some s ∧ s.engine.metrics.plansExecuted = 1 := by
  have hrun : run (step plainConfig true) new tradeOne =
      some ((run (step plainConfig true) new tradeOne).get (by decide +kernel)) := (Option.some_get _).symm
  refine ⟨_,hrun,(executed_iff_filled rfl hrun (by decide +kernel)).1.trans ?_⟩
  decide +kernel

end Results

section Passive

/-- In passive mode nothing is ever filled: no report fills anything and no plan in the map has
a fill. Whenever the monitor waits, each plan that is gone was asked to be cancelled, once,
and counts as cancelled if a scan removed it and as executed otherwise. -/
theorem passive_fills_nothing (hcfg : cfg.aggression = .passive) {events : List TradingEvent}
    (hrun : run (step cfg storage) new events = some s) :
    (∀ r ∈ s.reportTx, r.filledQty = 0) ∧
    (∀ id p, s.engine.inflight.lookup id = some p → ∀ filled ∈ p.filled, filled = 0) ∧
    (s.engine.monitor.Idle →
      s.engine.execCancelTx.length = s.engine.metrics.plansExecuted + s.engine.metrics.plansCancelled ∧
      (s.engine.execCancelTx.map CancelRequest.planId).Nodup ∧
      ∀ plan ∈ s.engine.execTx, plan.id ∉ s.engine.inflight ↔ cancelAll plan.id ∈ s.engine.execCancelTx) := by
  obtain ⟨hc,hs⟩ := served_run hrun
  have haccounted := hc.parties.accounted
  refine ⟨fun r hr => ?_,fun id p hp => ?_,fun hidle => ?_⟩
  · obtain ⟨i,w,hw,hid⟩ := hc.channels.owned r hr
    have hplan := Engine.mem_registeredPlans_of_sent (hc.sent_of_worker hw)
    have hmem : r ∈ reportsOf w.plan.id s.reportTx := List.mem_filter.mpr ⟨hr,decide_eq_true hid.symm⟩
    rw [hc.channels.delivered i w hw] at hmem
    obtain ⟨n,hn⟩ := List.mem_iff_getElem?.mp (List.mem_of_mem_take hmem)
    obtain ⟨leg,hleg,houtcome⟩ := (hc.parties.quiet i w hw).1.getElem? hn
    exact houtcome.filledQty_eq_zero ((haccounted.built hplan).passive hcfg leg (List.mem_of_getElem? hleg))
  · obtain ⟨hplan,rfl⟩ := haccounted.distinct.entries id p hp
    obtain ⟨-,now,hp'⟩ := hs.inflight_passive hc hcfg hplan hp
    rw [hp']
    exact fun filled hfilled => List.eq_of_mem_replicate hfilled
  · have hphase := hc.monitor_eq_select hidle
    have hrequests := hs.requests
    simp only [hcfg, reduceCtorEq, ↓reduceIte, Engine.asked, Engine.ended, hphase, MonitorPhase.asked,
      MonitorPhase.ended, Nat.add_zero] at hrequests
    refine ⟨hrequests.trans (Nat.add_comm _ _),haccounted.cancels.once,fun plan hplan => ⟨fun hgone => ?_,?_⟩⟩
    · refine (hs.left plan (Engine.mem_registeredPlans_of_sent hplan) hgone).resolve_right fun haggressive => ?_
      cases hcfg.symm.trans haggressive.1
    · exact haccounted.cancels.notMem (fun _ _ hr => by cases hphase.symm.trans hr) _

def passiveConfig : StrategyConfig := { plainConfig with aggression := .passive }

def waitOne : List TradingEvent :=
  [.executor (.worker 0 .check),.executor (.worker 0 (.select true))] ++ reportOne

theorem passive_fills_nothing_waitOne :
    ∃ s, run (step passiveConfig true) new (planOne ++ waitOne ++ [.engine (.monitor ⟨true,[]⟩)]) = some s ∧
      s.engine.metrics.plansExecuted = 1 ∧ ∀ r ∈ s.reportTx, r.filledQty = 0 :=
  ⟨(run (step passiveConfig true) new (planOne ++ waitOne ++ [.engine (.monitor ⟨true,[]⟩)])).get
    (by decide +kernel),(Option.some_get _).symm,by decide +kernel,
    (passive_fills_nothing rfl (Option.some_get _).symm).1⟩

end Passive

end TradingLoop

end ArbCore
