import ArbCore.Demo.Rest
import ArbCore.Demo.StoredFills
import ArbCore.Execution.MissedLegs
import ArbCore.Strategy.PlanBalances

/-! # What the trading loop gains

What the executor fills of a plan changes the balances as planned, but for the one leg that
a cancel may have taken out. The rows of an executed plan tell the same.
-/
namespace ArbCore
open LabelledRun ConversionChain

section Changes
variable {A : Type*} (market : String → Market A) (feeMap : HashMap FeeInfo)

def TradeFill.placed (fill : TradeFill) : Placed A Decimal where
  source := if fill.side = "buy" then (market fill.symbol).quote else (market fill.symbol).base
  target := if fill.side = "buy" then (market fill.symbol).base else (market fill.symbol).quote
  hop := ⟨fill.side = "buy",fill.price,takerFee feeMap fill.symbol⟩
  qty := fill.qty

theorem placed_fillRow (plan : TradePlan) (leg : OrderLeg) :
    (plan.fillRow leg).placed market feeMap = leg.placed market feeMap := by
  cases hb : leg.buyBase <;>
    simp [TradeFill.placed, OrderLeg.placed, TradePlan.fillRow, TradePlan.row, TradePlan.fullFill, hb]

variable [DecidableEq A]

def TradeFill.change (fill : TradeFill) : A → Decimal := (fill.placed market feeMap).change

def PlanWorker.change (w : PlanWorker) : A → Decimal :=
  ((w.plan.legs.zip w.reports).map fun x => OrderLeg.change market feeMap { x.1 with qty := x.2.filledQty }).sum

/-- What the legs that a worker missed would have done. -/
def PlanWorker.missedChange (w : PlanWorker) : A → Decimal := (w.missed.map (OrderLeg.change market feeMap)).sum

theorem change_rows (plan : TradePlan) :
    ((plan.legs.map plan.fillRow).map (TradeFill.change market feeMap)).sum = plan.change market feeMap := by
  rw [TradePlan.change, List.map_map]
  refine congrArg List.sum (List.map_congr_left fun leg _ => ?_)
  exact congrArg Placed.change (placed_fillRow market feeMap plan leg)

theorem change_add_cancelled {plan : TradePlan} {legs : List OrderLeg} {reports : List ExecutionReport}
    (h : List.Forall₂ (Outcome plan) legs reports) (htaker : ∀ leg ∈ legs, leg.isTaker = true) :
    ((legs.zip reports).map fun x => OrderLeg.change market feeMap { x.1 with qty := x.2.filledQty }).sum +
      ((((legs.zip reports).filter fun x => x.2.status = .cancelled).map Prod.fst).map
        (OrderLeg.change market feeMap)).sum = (legs.map (OrderLeg.change market feeMap)).sum := by
  induction h with
  | nil => exact add_zero _
  | @cons leg r legs reports hout _ ih =>
    obtain ⟨hleg,htaker⟩ := List.forall_mem_cons.mp htaker
    have hrest := ih htaker
    cases hout with
    | filled _ =>
      have hkept : ((plan.fullFill leg).status = .cancelled) = False := by simp [TradePlan.fullFill]
      simp only [List.zip_cons_cons, List.map_cons, List.sum_cons, List.filter_cons, hkept, decide_false,
        Bool.false_eq_true, ↓reduceIte, ← hrest]
      exact add_assoc _ _ _
    | unfilled hpassive => cases hleg.symm.trans hpassive
    | cancelled =>
      have hzero : OrderLeg.change market feeMap { leg with qty := 0 } = 0 := Placed.change_of_qty_zero rfl
      simp only [List.zip_cons_cons, List.map_cons, List.sum_cons, List.filter_cons, decide_true, ↓reduceIte,
        hzero, zero_add, ← hrest]
      exact add_left_comm _ _ _

theorem PlanWorker.change_add_missed {w : PlanWorker} (h : PlanWorker.Outcomes w.plan w)
    (htaker : ∀ leg ∈ w.plan.legs, leg.isTaker = true) (hphase : w.phase = .finished) :
    w.change market feeMap + w.missedChange market feeMap = w.plan.change market feeMap := by
  obtain ⟨-,-,-,done,legs,hlegs,hawaits,hreports⟩ := h
  rw [hphase] at hawaits
  subst hawaits
  rw [List.append_nil] at hlegs
  exact change_add_cancelled market feeMap (hlegs ▸ hreports) htaker

end Changes

def TradingEvent.FromViews (V : Set TriView) : TradingEvent → Prop
  | .engine ev => ev.FromViews V
  | _ => True

namespace TradingLoop
variable {cfg : StrategyConfig} {storage : Bool} {V : Set TriView} {s t : TradingLoop} {ev : TradingEvent}

theorem Move.sourced (h : Move cfg storage s ev t) (hev : ev.FromViews V) (hs : s.engine.Sourced cfg V) :
    t.engine.Sourced cfg V := by
  cases h with
  | engine _ hl => exact Engine.sourced_step hev hs (Ledger.engine_step hl)
  | @receiveReport report _ _ _ hl =>
    have hreport : (EngineEvent.report report).FromViews V := trivial
    exact Engine.sourced_step hreport hs (Ledger.engine_step hl)
  | _ => exact hs

theorem sourced_run {events : List TradingEvent} (hviews : ∀ ev ∈ events, ev.FromViews V)
    (h : run (step cfg storage) new events = some s) : s.engine.Sourced cfg V := by
  have hreaches : Reaches (step cfg storage) (TradingEvent.FromViews V) new s := ⟨events,hviews,h⟩
  have hstep : ∀ (ev : TradingEvent) (s t : TradingLoop), ev.FromViews V → s.engine.Sourced cfg V →
      s.step cfg storage ev = some t → t.engine.Sourced cfg V := fun _ _ _ hev hs h => (step_move h).sourced hev hs
  exact @Reaches.invariant _ _ _ _ _ _ (fun s => s.engine.Sourced cfg V) hstep Engine.sourced_new hreaches

theorem oneSignal_run {events : List TradingEvent} (h : run (step cfg storage) new events = some s) :
    s.executor.OneSignal := by
  refine (@run_invariant _ _ (step cfg storage) (fun s => s.Coupled cfg ∧ s.executor.OneSignal)
    (fun s ev t hs hstep => ⟨hs.1.step hstep,?_⟩) _ _ _ ⟨coupled_new cfg,Executor.oneSignal_new⟩ h).2
  rcases (step_move hstep).executor_cases with heq | ⟨ev',he⟩
  · exact heq ▸ hs.2
  · exact Executor.oneSignal_step hs.1.parties.wired hs.1.parties.quiet hs.2 he

theorem Coupled.missed_eq_nil (hc : s.Coupled cfg) {i : ℕ} {w : PlanWorker} (hw : s.workers[i]? = some w)
    (hcancel : cancelAll w.plan.id ∉ s.engine.execCancelTx) : w.missed = [] := by
  rcases (hc.parties.quiet i w hw).2 with ⟨c,hmem,hid⟩ | hundisturbed
  · refine absurd ((hc.cancelAll_mem_iff _).mpr ?_) hcancel
    exact hid ▸ List.mem_map_of_mem (hc.channels.cancels.subset (List.mem_of_mem_take hmem))
  · exact PlanWorker.missed_eq_nil hundisturbed.uncancelled

section Gains
variable {A : Type*} [DecidableEq A] {market : String → Market A} {currency : A}

theorem change_of_sourced (hpos : ∀ view ∈ V, view.PositiveBest) (hquoted : ∀ view ∈ V, view.QuotedIn market currency)
    (hs : s.engine.Sourced cfg V) {plan : TradePlan} (hplan : plan ∈ s.engine.execTx) :
    plan.change market cfg.feeMap currency = plan.netGain cfg.feeMap ∧
      plan.change market cfg.feeMap + plan.cutChange market cfg.feeMap = Pi.single currency plan.estimatedProfit ∧
      List.Forall₂ (CutBy cfg) plan.legs (plan.cutLegs cfg.feeMap) ∧
      cfg.limits.minProfitAbs < plan.estimatedProfit := by
  obtain ⟨view,hview,hplan⟩ := hs.sent plan hplan
  obtain ⟨r,hr,hpass,id,hbuild⟩ := (submittable_iff (hpos view hview)).mp hplan
  refine ⟨TradePlan.change_currency (hquoted view hview) hr hbuild,
    TradePlan.change_add_cutChange (hquoted view hview) hr hbuild (hpos view hview),
    TradePlan.cutLegs_cutBy hr hbuild,?_⟩
  rw [(buildTradePlan_ok hbuild).2.1]
  exact hpass.1

/-- A worker that has ended filled its plan but for what it missed. -/
theorem ended_balance (market : String → Market A) (hcfg : cfg.aggression = .aggressive) {events : List TradingEvent}
    (hrun : run (step cfg storage) new events = some s) {w : PlanWorker} (hw : w ∈ s.workers) (hended : w.Ended) :
    w.change market cfg.feeMap + w.missedChange market cfg.feeMap = w.plan.change market cfg.feeMap ∧
      w.missed.length ≤ 1 ∧ (cancelAll w.plan.id ∉ s.engine.execCancelTx → w.missed = []) := by
  obtain ⟨hc,-⟩ := served_run hrun
  obtain ⟨i,hw⟩ := List.mem_iff_getElem?.mp hw
  have hbuilt := hc.parties.accounted.built (Engine.mem_registeredPlans_of_sent (hc.sent_of_worker hw))
  have htaker := (hbuilt.taker hcfg).isTaker
  have houtcomes := (hc.parties.quiet i w hw).1
  have hone := oneSignal_run hrun i w hw htaker
  refine ⟨?_,?_,hc.missed_eq_nil hw⟩
  · exact PlanWorker.change_add_missed market cfg.feeMap houtcomes htaker (hended.resolve_right hone.running)
  · rw [PlanWorker.length_missed houtcomes]
    refine hone.once.trans ?_
    split_ifs <;> norm_num

/-- In aggressive mode a worker that has ended changed the balances as its plan says, but for
at most one leg, and for none if nobody asked to cancel the plan. Its fills and the missed leg
come to the net gain in the quote currency; with what the lot rules took off each leg they
come to the estimated profit there and to nothing elsewhere. -/
theorem ended_workers_balances (hcfg : cfg.aggression = .aggressive) (hpos : ∀ view ∈ V, view.PositiveBest)
    (hquoted : ∀ view ∈ V, view.QuotedIn market currency) {events : List TradingEvent}
    (hviews : ∀ ev ∈ events, ev.FromViews V) (hrun : run (step cfg storage) new events = some s) :
    ∀ w ∈ s.workers, w.Ended →
      w.change market cfg.feeMap + w.missedChange market cfg.feeMap + w.plan.cutChange market cfg.feeMap =
        Pi.single currency w.plan.estimatedProfit ∧
      w.change market cfg.feeMap currency + w.missedChange market cfg.feeMap currency = w.plan.netGain cfg.feeMap ∧
      w.missed.length ≤ 1 ∧ (cancelAll w.plan.id ∉ s.engine.execCancelTx → w.missed = []) ∧
      List.Forall₂ (CutBy cfg) w.plan.legs (w.plan.cutLegs cfg.feeMap) := by
  intro w hw hended
  obtain ⟨hplan,hmissed,huncancelled⟩ := ended_balance market hcfg hrun hw hended
  obtain ⟨i,hw⟩ := List.mem_iff_getElem?.mp hw
  have hsent := (served_run hrun).1.sent_of_worker hw
  obtain ⟨hcurrency,hprofit,hcut,-⟩ := change_of_sourced hpos hquoted (sourced_run hviews hrun) hsent
  refine ⟨by rw [hplan, hprofit],?_,hmissed,huncancelled,hcut⟩
  rw [← hcurrency, ← hplan]
  rfl

/-- At rest the fills of all workers, the legs that they missed and what the lot rules took off
the plans sent leave the balances as they were except for the quote currency, which grew by
the profits that these plans had promised, each of them beyond the threshold. -/
theorem rest_gains (hcfg : cfg.aggression = .aggressive) (hpos : ∀ view ∈ V, view.PositiveBest)
    (hquoted : ∀ view ∈ V, view.QuotedIn market currency) {events : List TradingEvent}
    (hviews : ∀ ev ∈ events, ev.FromViews V) (hrun : run (step cfg storage) new events = some s)
    (hrest : s.Resting cfg storage) :
    (s.workers.map (PlanWorker.change market cfg.feeMap)).sum +
          (s.workers.map (PlanWorker.missedChange market cfg.feeMap)).sum +
          (s.engine.execTx.map (TradePlan.cutChange market cfg.feeMap)).sum =
        Pi.single currency (s.engine.execTx.map TradePlan.estimatedProfit).sum ∧
      ∀ plan ∈ s.engine.execTx, cfg.limits.minProfitAbs < plan.estimatedProfit := by
  obtain ⟨hc,-⟩ := served_run hrun
  obtain ⟨-,htakes,-⟩ := bounded_run hrun
  have hsourced := sourced_run hviews hrun
  refine ⟨?_,fun plan hplan => (change_of_sourced hpos hquoted hsourced hplan).2.2.2⟩
  have hchange : ∀ w ∈ s.workers, w.change market cfg.feeMap + w.missedChange market cfg.feeMap +
      w.plan.cutChange market cfg.feeMap = Pi.single currency w.plan.estimatedProfit := by
    intro w hw
    obtain ⟨i,hi⟩ := List.mem_iff_getElem?.mp hw
    rw [(ended_balance market hcfg hrun hw (hrest.worker hc hi).2).1]
    exact (change_of_sourced hpos hquoted hsourced (hc.sent_of_worker hi)).2.1
  have hsingle := map_list_sum (AddMonoidHom.single (fun _ => Decimal) currency)
    (s.workers.map (TradePlan.estimatedProfit ∘ PlanWorker.plan))
  rw [List.map_map] at hsingle
  rw [← hrest.plans hc htakes, List.map_map, List.map_map, ← List.sum_map_add, ← List.sum_map_add]
  exact (congrArg List.sum (List.map_congr_left hchange)).trans hsingle.symm

end Gains

section Witnesses

def spotMarket : String → Market String
  | "BTCUSDT" => ⟨"BTC","USDT"⟩
  | "ETHUSDT" => ⟨"ETH","USDT"⟩
  | _ => ⟨"ETH","BTC"⟩

theorem mispricedView_quoted :
    ∀ view ∈ ({mispricedView} : Set TriView), view.PositiveBest ∧ view.QuotedIn spotMarket "USDT" := by
  intro view hview
  cases Set.mem_singleton_iff.mp hview
  exact ⟨mispricedView_positiveBest,"BTC","ETH",by decide,by decide,rfl,rfl,rfl⟩

def missSecond : List TradingEvent :=
  planOne ++ fillOne ++ [.engine (.tick 2000000000),.engine (.monitor ⟨true,["p1"]⟩)] ++
    List.replicate 4 (.engine (.monitor ⟨true,[]⟩)) ++
    [.forwardCancel,.executor .receiveCancel,.executor .signal,.executor (.worker 0 .check),.deliver 0,
      .executor (.worker 0 .check),.executor (.worker 0 .timer),.deliver 0,.executor (.worker 0 .cleanup)]

instance (phase : WorkerPhase) : Decidable (phase = .finished) :=
  match phase with
  | .finished => isTrue rfl
  | .registering | .checking _ | .sleeping _ _ | .selecting _ _ | .panicked => isFalse WorkerPhase.noConfusion

theorem ended_workers_balances_missSecond :
    ∃ s, run (step plainConfig true) new missSecond = some s ∧ ∀ w ∈ s.workers, w.missed.length = 1 ∧
      w.change spotMarket ∅ + w.missedChange spotMarket ∅ + w.plan.cutChange spotMarket ∅ =
        Pi.single "USDT" w.plan.estimatedProfit := by
  have hrun : run (step plainConfig true) new missSecond =
      some ((run (step plainConfig true) new missSecond).get (by decide +kernel)) := (Option.some_get _).symm
  have hviews : ∀ ev ∈ missSecond, ev.FromViews {mispricedView} := by
    simp [missSecond, planOne, fillOne, reportOne, submitOne, TradingEvent.FromViews, EngineEvent.FromViews]
  have hpos := fun view hview => (mispricedView_quoted view hview).1
  have hquoted := fun view hview => (mispricedView_quoted view hview).2
  refine ⟨_,hrun,fun w hw => ?_⟩
  have hend : w.missed.length = 1 ∧ w.phase = .finished := by
    revert w
    decide +kernel
  exact ⟨hend.1,(ended_workers_balances rfl hpos hquoted hviews hrun w hw (.inl hend.2)).1⟩

theorem rest_gains_tradeOne :
    ∃ s, run (step plainConfig true) new tradeOneToRest = some s ∧
      (s.workers.map (PlanWorker.change spotMarket ∅)).sum +
        (s.workers.map (PlanWorker.missedChange spotMarket ∅)).sum +
        (s.engine.execTx.map (TradePlan.cutChange spotMarket ∅)).sum = Pi.single "USDT" 400 := by
  have hrun : run (step plainConfig true) new tradeOneToRest =
      some ((run (step plainConfig true) new tradeOneToRest).get (by decide +kernel)) := (Option.some_get _).symm
  have hviews : ∀ ev ∈ tradeOneToRest, ev.FromViews {mispricedView} := by
    simp [tradeOneToRest, tradeOne, planOne, fillOne, reportOne, submitOne, TradingEvent.FromViews,
      EngineEvent.FromViews]
  have hpos := fun view hview => (mispricedView_quoted view hview).1
  have hquoted := fun view hview => (mispricedView_quoted view hview).2
  have hrest := @resting_of_drained plainConfig true _ (coupled_run hrun).parties.wired (by decide +kernel)
  have hgains := rest_gains rfl hpos hquoted hviews hrun hrest
  refine ⟨_,hrun,hgains.1.trans (congrArg _ ?_)⟩
  decide +kernel

end Witnesses

end TradingLoop

end ArbCore
