import ArbCore.Execution.FullFills
import ArbCore.Execution.PlanLoop
import ArbCore.Strategy.ConcurrencyCap

/-! # Engine and executor agree on completion

In aggressive mode the reports that the engine handled of a plan are the full fills of
its first legs. The plan is in flight until the last of them, and nothing is cancelled.
-/
namespace ArbCore
open LabelledRun

theorem prefix_concat {α : Type*} {l l' : List α} {a : α} (h : l <+: l') (ha : l'[l.length]? = some a) :
    l ++ [a] <+: l' := by
  obtain ⟨rest,rfl⟩ := h
  rw [List.getElem?_append_right le_rfl, Nat.sub_self] at ha
  cases rest with
  | nil => cases ha
  | cons b rest =>
    cases ha
    exact ⟨rest,by simp⟩

theorem applyReport_filled_cancels (infl : HashMap InFlightPlan) {report : ExecutionReport}
    (h : report.status = .filled) : (applyReport infl report).2.1 = [] := by
  cases hlookup : infl.lookup report.planId with
  | none => rw [applyReport_unknown hlookup]
  | some p =>
    have hconsequence : ∀ q : InFlightPlan, report.consequence q = ([],q.allLegged) := fun q => by
      simp only [ExecutionReport.consequence, h]
    cases hall : (p.addFill report.legIdx.toNat report.filledQty).allLegged with
    | true => simp [applyReport, hlookup, hconsequence, hall]
    | false => simp [applyReport, hlookup, hconsequence, hall]

namespace PlanLoop
variable {cfg : StrategyConfig} {storage : Bool} {l t : PlanLoop}

structure Sound (cfg : StrategyConfig) (l : PlanLoop) : Prop where
  distinct : (l.plans.map TradePlan.id).Nodup
  taker : ∀ plan ∈ l.plans, plan.Taker
  entry : ∀ plan ∈ l.plans, ∃ now, l.engine.inflight.lookup plan.id =
    (l.handledOf plan.id).foldl (fun o r => o.bind (·.react r)) (some (.register cfg plan now))
  known : ∀ id ∈ l.engine.inflight.keys, id ∈ l.plans.map TradePlan.id
  filling : ∀ id w, l.workers id = some w → ∃ plan ∈ l.plans, plan.id = id ∧ PlanWorker.Filling plan w
  behind : ∀ id, l.handledOf id <+: l.reportsOf id
  count : l.engine.inflight.keys.length + l.engine.metrics.plansExecuted = l.plans.length
  cancels : l.engine.execCancelTx = []

theorem sound_new (cfg : StrategyConfig) : Sound cfg new :=
  ⟨List.nodup_nil,fun _ h => absurd h List.not_mem_nil,fun _ h => absurd h List.not_mem_nil,
    fun _ h => absurd h List.not_mem_nil,fun _ _ h => absurd h nofun,fun _ => List.prefix_rfl,rfl,rfl⟩

theorem Sound.handledOf_eq_nil (h : Sound cfg l) {id : String} (hworker : l.workers id = none) :
    l.handledOf id = [] := by
  have hprefix := h.behind id
  rw [reportsOf, hworker] at hprefix
  exact List.prefix_nil.mp hprefix

theorem Sound.workers_eq_none (h : Sound cfg l) {id : String} (hid : id ∉ l.plans.map TradePlan.id) :
    l.workers id = none := by
  by_contra hworker
  obtain ⟨w,hw⟩ := Option.ne_none_iff_exists'.mp hworker
  obtain ⟨plan,hplan,rfl,-⟩ := h.filling id w hw
  exact hid (List.mem_map_of_mem hplan)

theorem Sound.register (h : Sound cfg l) {plan : TradePlan} (htaker : plan.Taker)
    (hid : plan.id ∉ l.plans.map TradePlan.id) (now : Instant) :
    Sound cfg { l with engine := l.engine.registerPlan cfg plan now, plans := l.plans ++ [plan] } := by
  have hkey : plan.id ∉ l.engine.inflight.keys := fun hmem => hid (h.known _ hmem)
  have hkeys : (l.engine.inflight.insert plan.id (.register cfg plan now)).keys =
      plan.id :: l.engine.inflight.keys := by
    rw [AList.keys_insert, List.erase_of_not_mem hkey]
  refine ⟨?_,?_,?_,?_,?_,h.behind,?_,h.cancels⟩
  · rw [List.map_append]
    exact List.concat_eq_append ▸ h.distinct.concat hid
  · intro plan' hplan'
    rcases List.mem_append.mp hplan' with hplan' | hplan'
    · exact h.taker plan' hplan'
    · exact List.mem_singleton.mp hplan' ▸ htaker
  · intro plan' hplan'
    rcases List.mem_append.mp hplan' with hplan' | hplan'
    · obtain ⟨now',hentry⟩ := h.entry plan' hplan'
      have hne : plan'.id ≠ plan.id := fun heq => hid (heq ▸ List.mem_map_of_mem hplan')
      exact ⟨now',(AList.lookup_insert_ne hne).trans hentry⟩
    · cases List.mem_singleton.mp hplan'
      refine ⟨now,(AList.lookup_insert _).trans ?_⟩
      have hnone := h.handledOf_eq_nil (h.workers_eq_none hid)
      change some _ = (l.handledOf plan.id).foldl _ _
      rw [hnone]
      rfl
  · intro id hmem
    have hmem' : id ∈ plan.id :: l.engine.inflight.keys := hkeys ▸ hmem
    rw [List.map_append]
    rcases List.mem_cons.mp hmem' with rfl | hmem'
    · exact List.mem_append_right _ (List.mem_singleton_self _)
    · exact List.mem_append_left _ (h.known id hmem')
  · intro id w hw
    obtain ⟨plan',hplan',hrest⟩ := h.filling id w hw
    exact ⟨plan',List.mem_append_left _ hplan',hrest⟩
  · have hcount := h.count
    have hlength : (l.engine.registerPlan cfg plan now).inflight.keys.length =
        l.engine.inflight.keys.length + 1 := congrArg List.length hkeys
    have hexecuted : (l.engine.registerPlan cfg plan now).metrics = l.engine.metrics := rfl
    simp only [hlength, hexecuted, List.length_append, List.length_singleton]
    omega

theorem Sound.putWorker (h : Sound cfg l) {plan : TradePlan} (hplan : plan ∈ l.plans) {w : PlanWorker}
    (hfilling : PlanWorker.Filling plan w) (hbehind : l.handledOf plan.id <+: w.reports) :
    Sound cfg (l.putWorker plan.id w) := by
  refine ⟨h.distinct,h.taker,h.entry,h.known,?_,?_,h.count,h.cancels⟩
  · intro id v hv
    by_cases hid : id = plan.id
    · subst hid
      rw [workers_putWorker] at hv
      cases hv
      exact ⟨plan,hplan,rfl,hfilling⟩
    · rw [workers_putWorker_ne l hid] at hv
      exact h.filling id v hv
  · intro id
    by_cases hid : id = plan.id
    · subst hid
      rw [reportsOf_putWorker]
      exact hbehind
    · rw [reportsOf_putWorker_ne l hid]
      exact h.behind id

theorem Sound.submit (h : Sound cfg l) {plan : TradePlan} (hplan : plan ∈ l.plans)
    (hworker : l.workers plan.id = none) :
    Sound cfg (PlanLoop.putWorker { l with engine := l.engine.submitPlan plan } plan.id (.start plan)) := by
  have hsubmitted : Sound cfg { l with engine := l.engine.submitPlan plan } :=
    ⟨h.distinct,h.taker,h.entry,h.known,h.filling,h.behind,h.count,h.cancels⟩
  refine hsubmitted.putWorker hplan (PlanWorker.filling_start plan) ?_
  exact (h.handledOf_eq_nil hworker).symm ▸ List.nil_prefix

theorem Sound.worker (h : Sound cfg l) {id : String} {w w' : PlanWorker} {ev : WorkerEvent}
    (hw : l.workers id = some w) (hsignal : ev ≠ .signal) (hstep : w.step ev = some w') :
    Sound cfg (l.putWorker id w') := by
  obtain ⟨plan,hplan,rfl,hfilling⟩ := h.filling id w hw
  refine h.putWorker hplan (hfilling.step (h.taker plan hplan).isTaker hsignal hstep) ?_
  have hbehind := h.behind plan.id
  simp only [reportsOf, hw] at hbehind
  exact hbehind.trans (PlanWorker.reports_prefix_step hstep)

theorem Sound.report (h : Sound cfg l) {id : String} {report : ExecutionReport}
    (hreport : (l.reportsOf id)[(l.handledOf id).length]? = some report) :
    report.planId = id ∧ report.status = .filled := by
  cases hw : l.workers id with
  | none =>
    simp only [reportsOf, hw] at hreport
    cases hreport
  | some w =>
    simp only [reportsOf, hw] at hreport
    obtain ⟨plan,-,rfl,hfilling⟩ := h.filling id w hw
    obtain ⟨leg,-,rfl⟩ := List.mem_map.mp
      (hfilling.prefix_fullFills.subset (List.mem_of_getElem? hreport))
    exact ⟨rfl,rfl⟩

theorem Sound.handle (h : Sound cfg l) {id : String} {report : ExecutionReport}
    (hreport : (l.reportsOf id)[(l.handledOf id).length]? = some report) (insertOk : Bool) :
    Sound cfg (l.handleReport storage report insertOk) := by
  obtain ⟨rfl,hstatus⟩ := h.report hreport
  refine ⟨h.distinct,h.taker,?_,?_,h.filling,?_,?_,?_⟩
  · intro plan hplan
    obtain ⟨now,hentry⟩ := h.entry plan hplan
    refine ⟨now,(l.engine.lookup_handleExecReport report insertOk plan.id).trans ?_⟩
    rw [hentry]
    split_ifs with hid
    · rw [← hid, handledOf_handleReport, List.foldl_append]
      rfl
    · rw [handledOf_handleReport_ne l hid]
  · intro id hmem
    refine h.known id ?_
    have hsome : ((l.engine.handleExecReport storage report insertOk).inflight.lookup id).isSome = true :=
      AList.lookup_isSome.mpr hmem
    rw [Engine.lookup_handleExecReport] at hsome
    refine AList.lookup_isSome.mp ?_
    split_ifs at hsome
    · obtain ⟨q,hq⟩ := Option.isSome_iff_exists.mp hsome
      obtain ⟨p,hp,-⟩ := Option.bind_eq_some_iff.mp hq
      exact Option.isSome_iff_exists.mpr ⟨p,hp⟩
    · exact hsome
  · intro id
    by_cases hid : report.planId = id
    · subst hid
      rw [handledOf_handleReport]
      exact prefix_concat (h.behind report.planId) hreport
    · rw [handledOf_handleReport_ne l hid]
      exact h.behind id
  · exact (l.engine.plans_handleExecReport storage report insertOk).trans h.count
  · have hcancels : (l.engine.handleExecReport storage report insertOk).execCancelTx =
        l.engine.execCancelTx ++ (applyReport l.engine.inflight report).2.1 := rfl
    rw [h.cancels, applyReport_filled_cancels _ hstatus] at hcancels
    exact hcancels

/-- No cancel was asked for, so no worker is signalled. -/
theorem Sound.step (hcfg : cfg.aggression = .aggressive) (h : Sound cfg l) {ev : PlanLoopEvent}
    (hstep : l.step cfg storage ev = some t) : Sound cfg t := by
  cases ev with
  | register planId op now =>
    simp only [PlanLoop.step] at hstep
    split_ifs at hstep with hid
    split at hstep
    · rename_i plan hbuild
      cases hstep
      exact h.register (TradePlan.taker_of_build hcfg hbuild) ((buildTradePlan_legs hbuild).1.symm ▸ hid) now
    · cases hstep
  | submit plan =>
    simp only [PlanLoop.step] at hstep
    split_ifs at hstep with hsubmit
    cases hstep
    exact h.submit hsubmit.1 (Option.isNone_iff_eq_none.mp hsubmit.2)
  | worker planId ev =>
    simp only [PlanLoop.step] at hstep
    split at hstep
    · rename_i w hw
      split_ifs at hstep with henabled
      obtain ⟨w',hw',rfl⟩ := Option.map_eq_some_iff.mp hstep
      have hsignal : ev ≠ .signal := by
        rintro rfl
        simp [enabled, h.cancels] at henabled
      exact h.worker hw hsignal hw'
    · cases hstep
  | handle planId insertOk =>
    obtain ⟨report,hreport,rfl⟩ := Option.map_eq_some_iff.mp hstep
    exact h.handle hreport insertOk

section Agreement
variable {plan : TradePlan}

/-- What was handled of a plan are its first full fills. -/
theorem Sound.handledOf_eq_take (h : Sound cfg l) (hplan : plan ∈ l.plans) :
    ∃ k ≤ plan.legs.length, l.handledOf plan.id = plan.fullFills.take k := by
  have hprefix : l.handledOf plan.id <+: plan.fullFills := by
    cases hw : l.workers plan.id with
    | none => exact (h.handledOf_eq_nil hw).symm ▸ List.nil_prefix
    | some w =>
      obtain ⟨plan',hplan',hid,hfilling⟩ := h.filling plan.id w hw
      cases List.inj_on_of_nodup_map h.distinct hplan' hplan hid
      have hbehind := h.behind plan.id
      simp only [reportsOf, hw] at hbehind
      exact hbehind.trans hfilling.prefix_fullFills
  refine ⟨(l.handledOf plan.id).length,?_,List.prefix_iff_eq_take.mp hprefix⟩
  simpa [TradePlan.fullFills] using hprefix.length_le

/-- A plan is in flight exactly as long as some leg of it has no handled report. -/
theorem Sound.inflight_iff (h : Sound cfg l) (hplan : plan ∈ l.plans) (hlegs : 0 < plan.legs.length)
    (hbyte : plan.legs.length ≤ 256) :
    (l.engine.inflight.lookup plan.id).isSome = true ↔
      ∃ leg ∈ plan.legs, ∀ r ∈ l.handled, r.planId = plan.id → r.legIdx ≠ leg.legIdx := by
  obtain ⟨now,hentry⟩ := h.entry plan hplan
  obtain ⟨k,hk,htake⟩ := h.handledOf_eq_take hplan
  have htaker := h.taker plan hplan
  rw [hentry, htake, TradePlan.foldl_fullFills htaker hlegs hbyte cfg now hk]
  have hhandled : ∀ leg : OrderLeg, (∀ r ∈ l.handled, r.planId = plan.id → r.legIdx ≠ leg.legIdx) ↔
      ∀ r ∈ plan.fullFills.take k, r.legIdx ≠ leg.legIdx := by
    intro leg
    simp only [← htake, handledOf, List.mem_filter, decide_eq_true_eq, and_imp]
  simp only [hhandled, TradePlan.exists_unfilled_iff htaker hbyte k]
  split_ifs with hlt
  · exact iff_of_true rfl hlt
  · exact iff_of_false Bool.false_ne_true hlt

/-- In aggressive mode, after any run of the engine and the executor in which no timeout
fires, a plan of 1 to 256 legs is in flight exactly when some leg of it has no handled
report, and no cancel was requested. Once every leg has one, no plan is in flight and
all of them count as executed. -/
theorem completion_agrees (hcfg : cfg.aggression = .aggressive) {events : List PlanLoopEvent}
    (hrun : run (step cfg storage) new events = some l)
    (hlegs : ∀ plan ∈ l.plans, 1 ≤ plan.legs.length ∧ plan.legs.length ≤ 256) :
    (∀ plan ∈ l.plans, (l.engine.inflight.lookup plan.id).isSome = true ↔
      ∃ leg ∈ plan.legs, ∀ r ∈ l.handled, r.planId = plan.id → r.legIdx ≠ leg.legIdx) ∧
    l.engine.execCancelTx = [] ∧
    ((∀ plan ∈ l.plans, ∀ leg ∈ plan.legs, ∃ r ∈ l.handled, r.planId = plan.id ∧ r.legIdx = leg.legIdx) →
      l.engine.inflight.keys = [] ∧ l.engine.metrics.plansExecuted = l.plans.length) := by
  have h : Sound cfg l := run_invariant (fun _ _ _ hs hstep => hs.step hcfg hstep) (sound_new cfg) hrun
  have hinflight := fun plan hplan =>
    h.inflight_iff hplan (hlegs plan hplan).1 (hlegs plan hplan).2
  refine ⟨hinflight,h.cancels,fun hall => ?_⟩
  have hempty : l.engine.inflight.keys = [] := by
    refine List.eq_nil_iff_forall_not_mem.mpr fun id hid => ?_
    obtain ⟨plan,hplan,rfl⟩ := List.mem_map.mp (h.known id hid)
    obtain ⟨leg,hleg,hmissing⟩ := (hinflight plan hplan).mp (AList.lookup_isSome.mpr hid)
    obtain ⟨r,hr,hid',hidx⟩ := hall plan hplan leg hleg
    exact hmissing r hr hid' hidx
  have hcount := h.count
  rw [hempty] at hcount
  exact ⟨hempty,(Nat.zero_add _).symm.trans hcount⟩

def firstOpportunity : Opportunity := ⟨"USDT",1,1,[⟨"BTCUSDT",true,1,2⟩,⟨"ETHUSDT",false,2,1⟩]⟩

def secondOpportunity : Opportunity := ⟨"USDT",1,1,[⟨"ETHBTC",true,1,3⟩]⟩

def firstPlan : TradePlan :=
  ⟨"p1","USDT",1,1/2,[⟨"BTCUSDT",true,1,2,true,0⟩,⟨"ETHUSDT",false,2,1,true,1⟩]⟩

def secondPlan : TradePlan := ⟨"p2","USDT",1,1/3,[⟨"ETHBTC",true,1,3,true,0⟩]⟩

/-- The second plan is registered, filled and reported between the two legs of the first one. -/
def twoPlansEvents : List PlanLoopEvent :=
  [.register "p1" firstOpportunity 0,.submit firstPlan,.worker "p1" .register,.register "p2" secondOpportunity 5,
    .worker "p1" .check,.worker "p1" .timer,.submit secondPlan,.worker "p2" .register,.worker "p1" .check,
    .worker "p2" .check,.worker "p2" .timer,.handle "p2" true,.worker "p1" .timer,.handle "p1" true,.handle "p1" false]

theorem completion_agrees_twoPlans :
    ∃ l, run (step plainConfig true) new twoPlansEvents = some l ∧ l.engine.inflight.keys = [] ∧
      l.engine.metrics.plansExecuted = 2 := by
  have hrun : (run (step plainConfig true) new twoPlansEvents).map (fun l => (l.plans,l.handled)) =
      some ([firstPlan,secondPlan],[⟨"p2",0,3,0,.filled⟩,⟨"p1",0,2,0,.filled⟩,⟨"p1",1,1,0,.filled⟩]) := by
    decide +kernel
  obtain ⟨l,hl,hends⟩ := Option.map_eq_some_iff.mp hrun
  obtain ⟨hplans,hhandled⟩ := Prod.mk.inj hends
  obtain ⟨hempty,hexecuted⟩ := (completion_agrees rfl hl (by simp [hplans, firstPlan, secondPlan])).2.2
    (by simp [hplans, hhandled, firstPlan, secondPlan])
  rw [hplans] at hexecuted
  exact ⟨l,hl,hempty,hexecuted⟩

end Agreement

end PlanLoop

end ArbCore
