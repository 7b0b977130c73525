import ArbCore.Strategy.SelfFinancing

/-! # What a plan gains as rounded

The thresholds are tested on the unrounded estimate. The legs that are sent gain
that estimate less what the lot rules take off the last leg's proceeds, plus what
they take off the first leg's cost.
-/
namespace ArbCore
open ConversionChain LabelledRun

/-- The last leg's proceeds after fee less the first leg's cost. -/
def TradePlan.netGain (feeMap : HashMap FeeInfo) (plan : TradePlan) : Decimal :=
  ((plan.legs.getLast?.map (OrderLeg.delivers feeMap)).getD 0) -
    ((plan.legs.head?.map OrderLeg.spends).getD 0)

namespace Route

/-- The worth of what rounding takes off the last quantity, less the worth of what
it takes off the first one. -/
def roundingLoss (cfg : StrategyConfig) (r : Route) : Decimal :=
  r.third.hop.delivers (lotCut cfg r.third.symbol r.qty3) -
    r.first.hop.spends (lotCut cfg r.first.symbol r.qty1)

variable {cfg : StrategyConfig} {r : Route} (hprice : ∀ t ∈ r.trades, 0 < t.hop.price)
include hprice

theorem netGain_eq (hvalid : cfg.Valid) (hfee : ∀ t ∈ r.trades, t.hop.fee = takerFee cfg.feeMap t.symbol)
    (hle : ∀ t ∈ r.trades, t.hop.fee ≤ 1) {id : String} {plan : TradePlan}
    (h : buildTradePlan id r.opportunity cfg = some (.ok plan)) :
    plan.netGain cfg.feeMap = r.profit - r.roundingLoss cfg := by
  obtain ⟨leg1,leg2,leg3,hlegs,h1,-,h3⟩ := planned_route h
  have hp1 := hprice r.first (by simp [trades])
  have hcost : leg1.spends = startAmount - r.first.hop.spends (lotCut cfg r.first.symbol r.qty1) := by
    rw [OrderLeg.spends_of_rounded hvalid (qty1_pos hprice).le h1, qty1, Hop.spends_qty hp1.ne']
  have hproceeds : leg3.delivers cfg.feeMap =
      r.third.hop.delivers r.qty3 - r.third.hop.delivers (lotCut cfg r.third.symbol r.qty3) :=
    OrderLeg.delivers_of_rounded hvalid (qty3_nonneg hprice hle) h3 (hfee r.third (by simp [trades]))
  have hgain : plan.netGain cfg.feeMap = leg3.delivers cfg.feeMap - leg1.spends := by
    rw [TradePlan.netGain, hlegs]
    rfl
  rw [hgain, hcost, hproceeds, profit_eq_delivers, roundingLoss]
  ring

end Route

/-- Every plan that is sent gains more than the threshold exactly when, in every
view, rounding loses less than the estimate has to spare, for each direction that
passes the checks and whose legs the planner accepts. -/
theorem sent_plans_profitable_iff {cfg : StrategyConfig} (hvalid : cfg.validate = .ok ())
    (hfees : ∀ sym f, cfg.feeMap.lookup sym = some f → f.taker ≤ 1) {V : Set TriView}
    (hpos : ∀ view ∈ V, view.PositiveBest) (storage : Bool) :
    (∀ e, Reaches (Engine.step cfg storage) (EngineEvent.FromViews V) .new e →
      ∀ plan ∈ e.execTx, cfg.limits.minProfitAbs < plan.netGain cfg.feeMap) ↔
    ∀ view ∈ V, ∀ r ∈ routes view cfg.feeMap, r.PassesChecks cfg →
      (∀ l ∈ r.opportunity.legs, Accepted cfg l) →
        r.roundingLoss cfg < r.profit - cfg.limits.minProfitAbs := by
  have hcfg := (StrategyConfig.validate_iff cfg).mp hvalid
  have hgain : ∀ {view r id plan}, view ∈ V → r ∈ routes view cfg.feeMap →
      buildTradePlan id r.opportunity cfg = some (.ok plan) →
        plan.netGain cfg.feeMap = r.profit - r.roundingLoss cfg := by
    intro view r id plan hview hr hbuild
    have hfee := routes_fee hr
    have hle : ∀ t ∈ r.trades, t.hop.fee ≤ 1 := fun t ht => (hfee t ht).trans_le
      (takerFee_forall (P := (· ≤ 1)) zero_le_one hfees t.symbol)
    exact Route.netGain_eq (routes_price_pos (hpos view hview) hr) hcfg hfee hle hbuild
  rw [Engine.forall_sent_iff hcfg.concurrency hpos]
  constructor
  · intro h view hview r hr hpass haccepted
    have hprice := routes_price_pos (hpos view hview) hr
    obtain ⟨plan,hbuild⟩ := exists_plan hprice haccepted ""
    have hplan := h view hview plan ((submittable_iff (hpos view hview)).mpr ⟨r,hr,hpass,_,hbuild⟩)
    rw [hgain hview hr hbuild] at hplan
    linarith
  · intro h view hview plan hplan
    obtain ⟨r,hr,hpass,id,hbuild⟩ := (submittable_iff (hpos view hview)).mp hplan
    have hloss := h view hview r hr hpass (accepted_of_built hbuild)
    rw [hgain hview hr hbuild]
    linarith

theorem sent_plans_profitable_thirds :
    stepConfig.limits.minProfitAbs < thirdsPlan.netGain stepConfig.feeMap := by
  have hsent : (run (Engine.step stepConfig false) .new (submitOne thirdsView "p1")).map
      Engine.execTx = some [thirdsPlan] := by
    decide +kernel
  have hloss : ∀ r ∈ routes thirdsView stepConfig.feeMap,
      r.roundingLoss stepConfig < r.profit - stepConfig.limits.minProfitAbs := by
    decide +kernel
  obtain ⟨e,he,htx⟩ := Engine.reaches_submitOne hsent
  refine (sent_plans_profitable_iff (by decide +kernel) (fun _ _ h => ?_) ?_ false).mpr ?_ e he
    thirdsPlan (htx ▸ List.mem_singleton_self _)
  · simp [stepConfig, plainConfig] at h
  · exact fun view hview => Set.mem_singleton_iff.mp hview ▸ thirdsView_positiveBest
  · intro view hview r hr _ _
    cases Set.mem_singleton_iff.mp hview
    exact hloss r hr

def coarseConfig : StrategyConfig :=
  { plainConfig with lotRules := AList.insert "ETHUSDT" ⟨0,3,0⟩ ∅ }

/-- The estimate promises 400, the plan that is sent sells three of its four ETH. -/
theorem coarsePlan_loses :
    coarseConfig.validate = .ok () ∧ mispricedView.PositiveBest ∧
      ∃ e plan, Reaches (Engine.step coarseConfig false) (EngineEvent.FromViews {mispricedView}) .new e ∧
        e.execTx = [plan] ∧ plan.estimatedProfit = 400 ∧ coarseConfig.limits.minProfitAbs = 0 ∧
        plan.netGain coarseConfig.feeMap = -2200 := by
  have hsent : (run (Engine.step coarseConfig false) .new (submitOne mispricedView "p1")).map
      Engine.execTx = some [⟨"p1","USDT",400,25000/13,[⟨"BTCUSDT",true,50000,1/5,true,0⟩,
        ⟨"ETHBTC",true,1/20,4,true,1⟩,⟨"ETHUSDT",false,2600,3,true,2⟩]⟩] := by
    decide +kernel
  obtain ⟨e,he,htx⟩ := Engine.reaches_submitOne hsent
  exact ⟨by decide +kernel,mispricedView_positiveBest,e,_,he,htx,rfl,rfl,by decide +kernel⟩

end ArbCore
