import ArbCore.Strategy.LotRounding

/-! # What a rounded leg pays for the next one -/
namespace ArbCore
open ConversionChain

namespace LegEstimate

/-- What rounding takes off the proceeds of a leg, after the fee. -/
def forgoes (cfg : StrategyConfig) (l : LegEstimate) : Decimal :=
  let cut := lotCut cfg l.symbol l.qty
  (if l.sideBuy then cut else cut * l.price) * (1 - takerFee cfg.feeMap l.symbol)

/-- What rounding takes off the cost of a leg. -/
def saves (cfg : StrategyConfig) (l : LegEstimate) : Decimal :=
  let cut := lotCut cfg l.symbol l.qty
  if l.sideBuy then cut * l.price else cut

end LegEstimate

/-- What a planned leg spends beyond what the previous one delivers. -/
theorem excess_of_planned {cfg : StrategyConfig} (hvalid : cfg.Valid) {t t' : Trade} {q q' : Decimal}
    {leg leg' : OrderLeg} (hq : 0 ≤ q) (hq' : 0 ≤ q') (h : PlannedFrom cfg (t.leg q) leg)
    (h' : PlannedFrom cfg (t'.leg q') leg') (hfee : t.hop.fee = takerFee cfg.feeMap t.symbol)
    (hfit : t'.hop.spends q' = t.hop.delivers q) :
    leg'.spends - leg.delivers cfg.feeMap = (t.leg q).forgoes cfg - (t'.leg q').saves cfg := by
  have hforgoes : (t.leg q).forgoes cfg = t.hop.delivers (lotCut cfg t.symbol q) := by
    simp only [LegEstimate.forgoes, Trade.leg, ← hfee]
    rfl
  have hsaves : (t'.leg q').saves cfg = t'.hop.spends (lotCut cfg t'.symbol q') := rfl
  rw [OrderLeg.spends_of_rounded hvalid hq' h', OrderLeg.delivers_of_rounded hvalid hq h hfee, hforgoes,
    hsaves, hfit, sub_sub_sub_cancel_left]

theorem Route.fits {r : Route} (hprice : ∀ t ∈ r.trades, 0 < t.hop.price) :
    r.second.hop.spends r.qty2 = r.first.hop.delivers r.qty1 ∧
      r.third.hop.spends r.qty3 = r.second.hop.delivers r.qty2 := by
  have h2 := hprice r.second (by simp [trades])
  have h3 := hprice r.third (by simp [trades])
  exact ⟨Hop.spends_qty h2.ne' _,Hop.spends_qty h3.ne' _⟩

/-- A rounded leg spends at most what the previous leg delivers exactly when rounding
saves at least as much of its cost as it takes off the proceeds of the previous leg. -/
theorem planned_legs_selfFinancing {cfg : StrategyConfig} (hvalid : cfg.validate = .ok ()) {view : TriView}
    (hpos : view.PositiveBest) (hfees : ∀ sym f, cfg.feeMap.lookup sym = some f → f.taker ≤ 1) {m : Decimal}
    {ops : List Opportunity} (hops : detectTriangularOpportunities view cfg.feeMap m = some ops)
    {op : Opportunity} (hop : op ∈ ops) {id : String} {plan : TradePlan}
    (hbuild : buildTradePlan id op cfg = some (.ok plan)) :
    plan.legs.length = op.legs.length ∧ ∀ (i : ℕ) (l l' : LegEstimate) (leg leg' : OrderLeg),
      op.legs[i]? = some l → op.legs[i + 1]? = some l' →
      plan.legs[i]? = some leg → plan.legs[i + 1]? = some leg' →
        leg'.spends - leg.delivers cfg.feeMap = l.forgoes cfg - l'.saves cfg ∧
        (leg'.spends ≤ leg.delivers cfg.feeMap ↔ l.forgoes cfg ≤ l'.saves cfg) := by
  have hcfg := (StrategyConfig.validate_iff cfg).mp hvalid
  obtain ⟨r,hr,-,rfl⟩ := (mem_detect_iff hops op).mp hop
  have hprice := routes_price_pos hpos hr
  have hfee := routes_fee hr
  have hle : ∀ t ∈ r.trades, t.hop.fee ≤ 1 := fun t ht =>
    (hfee t ht).trans_le (takerFee_forall (P := (· ≤ 1)) zero_le_one hfees t.symbol)
  obtain ⟨hfit2,hfit3⟩ := r.fits hprice
  have hq1 := (r.qty1_pos hprice).le
  have hq2 := r.qty2_nonneg hprice hle
  have hq3 := r.qty3_nonneg hprice hle
  obtain ⟨leg1,leg2,leg3,hlegs,h1,h2,h3⟩ := planned_route hbuild
  have hop : r.opportunity.legs = [r.first.leg r.qty1,r.second.leg r.qty2,r.third.leg r.qty3] := rfl
  have hexcess2 := excess_of_planned hcfg hq1 hq2 h1 h2 (hfee r.first (by simp [Route.trades])) hfit2
  have hexcess3 := excess_of_planned hcfg hq2 hq3 h2 h3 (hfee r.second (by simp [Route.trades])) hfit3
  refine ⟨by rw [hlegs, hop]; rfl,?_⟩
  intro i l l' leg leg' hl hl' hleg hleg'
  suffices hexcess : leg'.spends - leg.delivers cfg.feeMap = l.forgoes cfg - l'.saves cfg by
    exact ⟨hexcess,by rw [← sub_nonpos, hexcess, sub_nonpos]⟩
  rw [hop] at hl hl'
  rw [hlegs] at hleg hleg'
  rcases i with _ | _ | i
  · cases hl; cases hl'; cases hleg; cases hleg'
    exact hexcess2
  · cases hl; cases hl'; cases hleg; cases hleg'
    exact hexcess3
  · simp at hl'

def thirdsView : TriView :=
  { mispricedView with asksAb := [(3,10000)], bidsBc := [(4,10000)], asksAc := [(1,10000)] }

theorem thirdsView_positiveBest : thirdsView.PositiveBest := by
  constructor <;> simp [thirdsView, mispricedView]

def twoStepsConfig : StrategyConfig :=
  { plainConfig with feeMap := AList.insert "BTCUSDT" ⟨0,1/1000⟩ ∅
                     lotRules := AList.insert "ETHBTC" ⟨0,100,0⟩ (AList.insert "BTCUSDT" ⟨0,1,0⟩ ∅) }

def twoStepsOpportunity : Opportunity :=
  ⟨"USDT",3320,4/3,[⟨"BTCUSDT",true,3,10000/3⟩,⟨"ETHBTC",true,1,3330⟩,⟨"ETHUSDT",false,4,3330⟩]⟩

def twoStepsPlan : TradePlan :=
  ⟨"p1","USDT",3320,747/1000,[⟨"BTCUSDT",true,3,3333,true,0⟩,⟨"ETHBTC",true,1,3300,true,1⟩,
    ⟨"ETHUSDT",false,4,3330,true,2⟩]⟩

/-- The second leg is cut by thirty and spends less than the first one, cut by a third, delivers. -/
theorem planned_legs_selfFinancing_twoSteps :
    OrderLeg.spends ⟨"ETHBTC",true,1,3300,true,1⟩ ≤
      OrderLeg.delivers twoStepsConfig.feeMap ⟨"BTCUSDT",true,3,3333,true,0⟩ := by
  have hfees : ∀ sym f, twoStepsConfig.feeMap.lookup sym = some f → f.taker ≤ 1 := by
    intro sym f h
    by_cases hsym : sym = "BTCUSDT"
    · cases hsym
      cases h
      norm_num
    · cases h.symm.trans (AList.lookup_insert_ne hsym)
  have hops : detectTriangularOpportunities thirdsView twoStepsConfig.feeMap 0 = some [twoStepsOpportunity] := by
    decide +kernel
  have hbuild : buildTradePlan "p1" twoStepsOpportunity twoStepsConfig = some (.ok twoStepsPlan) := by
    decide +kernel
  exact ((planned_legs_selfFinancing (by decide +kernel) thirdsView_positiveBest hfees hops
    (List.mem_singleton_self _) hbuild).2 0 _ _ _ _ rfl rfl rfl rfl).2.mpr (by decide +kernel)

def stepConfig : StrategyConfig :=
  { plainConfig with lotRules := AList.insert "BTCUSDT" ⟨0,1,0⟩ ∅ }

def thirdsOpportunity : Opportunity :=
  ⟨"USDT",10000/3,4/3,[⟨"BTCUSDT",true,3,10000/3⟩,⟨"ETHBTC",true,1,10000/3⟩,
    ⟨"ETHUSDT",false,4,10000/3⟩]⟩

def thirdsPlan : TradePlan :=
  ⟨"p1","USDT",10000/3,3/4,[⟨"BTCUSDT",true,3,3333,true,0⟩,⟨"ETHBTC",true,1,10000/3,true,1⟩,
    ⟨"ETHUSDT",false,4,10000/3,true,2⟩]⟩

theorem thirdsView_detected :
    detectTriangularOpportunities thirdsView stepConfig.feeMap 0 = some [thirdsOpportunity] := by
  decide +kernel

theorem thirdsPlan_built :
    buildTradePlan "p1" thirdsOpportunity stepConfig = some (.ok thirdsPlan) := by
  decide +kernel

/-- The first leg buys 3333 BTC, the second one spends a third of a BTC more. -/
theorem thirdsPlan_overspends :
    stepConfig.validate = .ok () ∧ thirdsView.PositiveBest ∧
      detectTriangularOpportunities thirdsView stepConfig.feeMap 0 = some [thirdsOpportunity] ∧
      buildTradePlan "p1" thirdsOpportunity stepConfig = some (.ok thirdsPlan) ∧
      ∃ leg leg', thirdsPlan.legs[0]? = some leg ∧ thirdsPlan.legs[1]? = some leg' ∧
        leg.delivers stepConfig.feeMap < leg'.spends :=
  ⟨by decide +kernel,thirdsView_positiveBest,thirdsView_detected,thirdsPlan_built,
    _,_,rfl,rfl,by decide +kernel⟩

end ArbCore
