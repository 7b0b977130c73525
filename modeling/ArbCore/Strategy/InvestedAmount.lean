import ArbCore.Strategy.LotRounding

/-! # The amount a percentage is taken of

The pre-trade checks and the planner reconstruct the start amount as the first
quantity times the product of the three quotes. The amount invested is the first
quantity times the first price.
-/
namespace ArbCore
open ConversionChain

def Route.netReturn (r : Route) : Decimal := (r.hops.map Hop.netRate).prod - 1

theorem Route.profit_eq_netReturn (r : Route) : r.profit = startAmount * r.netReturn := by
  rw [profit_eq, netReturn, mul_sub_one]

def Opportunity.invested (op : Opportunity) : Decimal :=
  (op.legs.head?.map fun l => l.qty * l.price).getD 0

theorem Route.invested_eq {r : Route} (hp : 0 < r.first.hop.price) :
    r.opportunity.invested = startAmount := by
  have hqty : r.opportunity.invested = r.qty1 * r.first.hop.price := rfl
  rw [hqty, Route.qty1, Hop.qty, if_pos r.first_buys]
  exact div_mul_cancel₀ _ hp.ne'

/-- A percentage of the reconstructed amount is one of the amount invested only
when the product of the quotes is the first price, or for no profit at all. -/
theorem Route.pct_eq_iff {r : Route} (hprice : ∀ t ∈ r.trades, 0 < t.hop.price) :
    r.profit / (r.qty1 * r.quotedRate) = r.profit / r.opportunity.invested ↔
      r.quotedRate = r.first.hop.price ∨ r.profit = 0 := by
  have hp := hprice r.first (by simp [trades])
  have hqty := r.qty1_pos hprice
  have hrate := r.quotedRate_pos hprice
  have hinvested : r.opportunity.invested = r.qty1 * r.first.hop.price := rfl
  rw [hinvested, div_eq_div_iff (mul_pos hqty hrate).ne' (mul_pos hqty hp).ne']
  constructor
  · intro h
    have hzero : r.profit * r.qty1 * (r.first.hop.price - r.quotedRate) = 0 := by linarith
    rcases mul_eq_zero.mp hzero with h | h
    · exact .inr ((mul_eq_zero.mp h).resolve_right hqty.ne')
    · exact .inl (sub_eq_zero.mp h).symm
  · rintro (h | h)
    · rw [h]
    · rw [h, zero_mul, zero_mul]

/-- Between the two readings of the threshold lie the returns that pass without reaching it. -/
theorem Route.not_mem_Ico_iff (r : Route) (pct : Decimal) :
    r.netReturn ∉ Set.Ico (pct * r.quotedRate / r.first.hop.price) pct ↔
      (pct * (r.qty1 * r.quotedRate) ≤ r.profit → pct * startAmount ≤ r.profit) := by
  have hstart : (0 : Decimal) < startAmount := by norm_num [startAmount]
  have hreconstructed : pct * (r.qty1 * r.quotedRate) =
      startAmount * (pct * r.quotedRate / r.first.hop.price) := by
    rw [qty1, Hop.qty, if_pos r.first_buys]
    ring
  rw [hreconstructed, mul_comm pct startAmount, profit_eq_netReturn, mul_le_mul_iff_right₀ hstart,
    mul_le_mul_iff_right₀ hstart, Set.mem_Ico, not_and, not_lt]

/-- Both percentages are taken of the amount invested exactly when no reported return lies
between the two readings of the threshold and every direction that the planner accepts
quotes its own first price as the product of its quotes. -/
theorem percentage_of_invested_iff {cfg : StrategyConfig} (hpct : 0 < cfg.limits.minProfitPct)
    {view : TriView} (hpos : view.PositiveBest) {feeMap : HashMap FeeInfo} {m : Decimal}
    {ops : List Opportunity} (hops : detectTriangularOpportunities view feeMap m = some ops) :
    (∀ op ∈ ops, (preTradeChecks cfg op = some true →
        cfg.limits.minProfitPct * op.invested ≤ op.estimatedProfit) ∧
      ∀ id plan, buildTradePlan id op cfg = some (.ok plan) →
        plan.estimatedProfitPct = op.estimatedProfit / op.invested) ↔
    ∀ r ∈ routes view feeMap, m < startAmount * r.netReturn →
      (cfg.limits.minProfitAbs < startAmount * r.netReturn → r.netReturn ∉
        Set.Ico (cfg.limits.minProfitPct * r.quotedRate / r.first.hop.price) cfg.limits.minProfitPct) ∧
      ((∀ l ∈ r.opportunity.legs, Accepted cfg l) →
        r.quotedRate = r.first.hop.price ∨ r.netReturn = 0) := by
  have hroute : ∀ r ∈ routes view feeMap,
      ((preTradeChecks cfg r.opportunity = some true →
          cfg.limits.minProfitPct * r.opportunity.invested ≤ r.opportunity.estimatedProfit) ∧
        ∀ id plan, buildTradePlan id r.opportunity cfg = some (.ok plan) →
          plan.estimatedProfitPct = r.opportunity.estimatedProfit / r.opportunity.invested) ↔
      (cfg.limits.minProfitAbs < startAmount * r.netReturn → r.netReturn ∉
        Set.Ico (cfg.limits.minProfitPct * r.quotedRate / r.first.hop.price) cfg.limits.minProfitPct) ∧
      ((∀ l ∈ r.opportunity.legs, Accepted cfg l) →
        r.quotedRate = r.first.hop.price ∨ r.netReturn = 0) := by
    intro r hr
    have hprice := routes_price_pos hpos hr
    have hstart := mul_pos (r.qty1_pos hprice) (r.quotedRate_pos hprice)
    have hprofit : r.opportunity.estimatedProfit = r.profit := rfl
    have hzero : r.netReturn = 0 ↔ r.profit = 0 := by
      rw [r.profit_eq_netReturn, mul_eq_zero_iff_left (by norm_num [startAmount])]
    refine and_congr ?_ ?_
    · rw [Route.not_mem_Ico_iff, ← r.profit_eq_netReturn, Route.preTradeChecks_iff hprice,
        Route.PassesChecks, le_div_iff₀ hstart, hprofit,
        Route.invested_eq (hprice r.first (by simp [Route.trades]))]
      exact ⟨fun h habs hle => h ⟨habs,fun _ => hle⟩,fun h hpass => h hpass.1 (hpass.2 hpct)⟩
    · rw [hzero, ← Route.pct_eq_iff hprice, hprofit]
      constructor
      · intro h haccepted
        obtain ⟨plan,hbuild⟩ := exists_plan hprice haccepted ""
        exact (buildTradePlan_ok hbuild).2.2.symm.trans (h _ plan hbuild)
      · intro h id plan hbuild
        exact (buildTradePlan_ok hbuild).2.2.trans (h (accepted_of_built hbuild))
  constructor
  · intro h r hr hprofit
    rw [← r.profit_eq_netReturn] at hprofit
    exact (hroute r hr).mp (h _ ((mem_detect_iff hops _).mpr ⟨r,hr,hprofit,rfl⟩))
  · intro h op hop
    obtain ⟨r,hr,hprofit,rfl⟩ := (mem_detect_iff hops op).mp hop
    rw [r.profit_eq_netReturn] at hprofit
    exact (hroute r hr).mpr (h r hr hprofit)

def halfConfig : StrategyConfig := { plainConfig with limits := ⟨0,0,1/2,some 1⟩ }

def evenView : TriView :=
  { mispricedView with asksAb := [(2,10000)], asksAc := [(1,10000)], bidsBc := [(4,10000)] }

def evenOpportunity : Opportunity :=
  ⟨"USDT",10000,2,[⟨"BTCUSDT",true,2,5000⟩,⟨"ETHBTC",true,1,5000⟩,⟨"ETHUSDT",false,4,5000⟩]⟩

theorem percentage_of_invested_even :
    halfConfig.limits.minProfitPct * evenOpportunity.invested ≤ evenOpportunity.estimatedProfit := by
  have hpos : evenView.PositiveBest := by
    constructor <;> simp [evenView, mispricedView]
  have hops : detectTriangularOpportunities evenView ∅ 0 = some [evenOpportunity] := by
    decide +kernel
  have hroutes : ∀ r ∈ routes evenView ∅, halfConfig.limits.minProfitPct ≤ r.netReturn ∧
      r.quotedRate = r.first.hop.price := by
    decide +kernel
  refine ((@percentage_of_invested_iff halfConfig (by decide +kernel) evenView hpos ∅ 0 _ hops).mpr
    (fun r hr _ => ?_) evenOpportunity (List.mem_singleton_self _)).1 (by decide +kernel)
  obtain ⟨hreturn,hrate⟩ := hroutes r hr
  exact ⟨fun _ hmem => absurd hmem.2 (not_lt.mpr hreturn),fun _ => .inl hrate⟩

/-- A profit of 400 on 10000 invested passes, as a plan that promises 192 thousand percent. -/
theorem mispricedOpportunity_passes :
    halfConfig.validate = .ok () ∧ mispricedView.PositiveBest ∧
      detectTriangularOpportunities mispricedView ∅ 0 = some [mispricedOpportunity] ∧
      mispricedOpportunity.invested = 10000 ∧ mispricedOpportunity.estimatedProfit = 400 ∧
      preTradeChecks halfConfig mispricedOpportunity = some true ∧
      mispricedOpportunity.estimatedProfit < halfConfig.limits.minProfitPct * 10000 ∧
      ∃ plan, buildTradePlan "p1" mispricedOpportunity halfConfig = some (.ok plan) ∧
        plan.estimatedProfitPct = 25000 / 13 := by
  refine ⟨by decide +kernel,mispricedView_positiveBest,mispricedView_detected,by decide +kernel,rfl,
    by decide +kernel,by decide +kernel,⟨"p1","USDT",400,25000/13,[⟨"BTCUSDT",true,50000,1/5,true,0⟩,
      ⟨"ETHBTC",true,1/20,4,true,1⟩,⟨"ETHUSDT",false,2600,4,true,2⟩]⟩,by decide +kernel,rfl⟩

end ArbCore
