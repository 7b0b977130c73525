import ArbCore.Strategy.PlanBalances

/-! # Lots too fine to eat up the profit

Rounding the first leg down saves quote currency, and rounding the last one down costs less
than one lot of it. Where a lot is worth no more than some bound at the quoted prices, and
the start amount buys the minimum size, a plan gains its estimated profit up to that bound.
-/
namespace ArbCore
open ConversionChain

/-- At this price one step of the symbol is worth no more than the bound, and the start amount
buys the minimum size. -/
structure LotsWithin (cfg : StrategyConfig) (bound : Decimal) (sym : String) (price : Decimal) : Prop where
  step : ∀ rule, cfg.lotRules.lookup sym = some rule → rule.stepSize * price ≤ bound
  minimum : ∀ rule, cfg.lotRules.lookup sym = some rule → rule.minSize * price ≤ startAmount

structure TriView.FineLots (cfg : StrategyConfig) (bound : Decimal) (view : TriView) : Prop where
  bidsAb : ∀ l ∈ view.bidsAb.head?, LotsWithin cfg bound view.symAb l.1
  asksAb : ∀ l ∈ view.asksAb.head?, LotsWithin cfg bound view.symAb l.1
  bidsBc : ∀ l ∈ view.bidsBc.head?, LotsWithin cfg bound view.symBc l.1
  asksBc : ∀ l ∈ view.asksBc.head?, LotsWithin cfg bound view.symBc l.1

namespace LotRule
variable {rule : LotRule} {qty : Decimal}

theorem cut_le (hstep : 0 ≤ rule.stepSize) : rule.cut qty ≤ rule.stepSize := by
  refine (min_le_left _ _).trans ?_
  split_ifs
  · exact mul_le_of_le_one_left hstep (Int.fract_lt_one _).le
  · exact hstep

theorem cut_nonneg (hqty : rule.minSize ≤ qty) : 0 ≤ rule.cut qty := by
  refine le_min ?_ (sub_nonneg.mpr hqty)
  split_ifs with hstep
  · exact mul_nonneg (Int.fract_nonneg _) hstep.le
  · exact le_rfl

end LotRule

section Gain
variable {cfg : StrategyConfig} {bound : Decimal} {view : TriView} {r : Route}

theorem fineLots_ends (hview : view.FineLots cfg bound) (hr : r ∈ routes view cfg.feeMap) :
    LotsWithin cfg bound r.first.symbol r.first.hop.price ∧ LotsWithin cfg bound r.third.symbol r.third.hop.price := by
  rcases mem_routes_iff.mp hr with hr | hr
  · obtain ⟨askAb,bidBc,askAc,_,_,_,hab,hbc,-,rfl⟩ := route1_cases hr
    exact ⟨hview.asksAb _ hab,hview.bidsBc _ hbc⟩
  · obtain ⟨askBc,bidAc,bidAb,_,_,_,hbc,-,hab,rfl⟩ := route2_cases hr
    exact ⟨hview.asksBc _ hbc,hview.bidsAb _ hab⟩

/-- The first leg loses nothing by rounding, and the last one at most the bound. -/
theorem Route.roundingLoss_le (hvalid : cfg.Valid) (hpos : view.PositiveBest) (hview : view.FineLots cfg bound)
    (hbound : 0 ≤ bound) (hr : r ∈ routes view cfg.feeMap) (hle : r.third.hop.fee ≤ 1) :
    r.roundingLoss cfg ≤ bound := by
  obtain ⟨hfirst,hthird⟩ := fineLots_ends hview hr
  have hprice := routes_price_pos hpos hr
  have hp1 : 0 < r.first.hop.price := hprice r.first (by simp [trades])
  have hp3 : 0 < r.third.hop.price := hprice r.third (by simp [trades])
  have hfee : 0 ≤ r.third.hop.fee := by
    rw [routes_fee hr r.third (by simp [trades])]
    exact takerFee_forall (P := (0 ≤ ·)) le_rfl (fun sym f hf => (hvalid.fees sym f hf).2) _
  have hsaved : 0 ≤ r.first.hop.spends (lotCut cfg r.first.symbol r.qty1) := by
    rw [Hop.spends, if_pos r.first_buys]
    refine mul_nonneg ?_ hp1.le
    unfold lotCut
    split
    · rename_i rule hrule
      refine LotRule.cut_nonneg ?_
      rw [qty1, Hop.qty, if_pos r.first_buys]
      exact (le_div_iff₀ hp1).mpr (hfirst.minimum rule hrule)
    · exact le_rfl
  have hlost : lotCut cfg r.third.symbol r.qty3 * r.third.hop.price ≤ bound := by
    unfold lotCut
    split
    · rename_i rule hrule
      have hcut := @LotRule.cut_le rule r.qty3 (hvalid.rules _ rule hrule).2.1
      exact (mul_le_mul_of_nonneg_right hcut hp3.le).trans (hthird.step rule hrule)
    · rwa [zero_mul]
  have hcost : r.third.hop.delivers (lotCut cfg r.third.symbol r.qty3) ≤ bound := by
    rw [Hop.delivers, Hop.gross, if_neg (Bool.eq_false_iff.mp r.third_sells)]
    exact (mul_le_mul_of_nonneg_right hlost (sub_nonneg.mpr hle)).trans
      (mul_le_of_le_one_right hbound (sub_le_self 1 hfee))
  unfold roundingLoss
  linarith

theorem netGain_of_fineLots (hvalid : cfg.Valid) (hfees : ∀ sym f, cfg.feeMap.lookup sym = some f → f.taker ≤ 1)
    (hpos : view.PositiveBest) (hview : view.FineLots cfg bound) (hbound : 0 ≤ bound) {plan : TradePlan}
    (hplan : Submittable cfg view plan) : cfg.limits.minProfitAbs - bound < plan.netGain cfg.feeMap := by
  obtain ⟨r,hr,hpass,id,hbuild⟩ := (submittable_iff hpos).mp hplan
  have hfee := routes_fee hr
  have hle : ∀ t ∈ r.trades, t.hop.fee ≤ 1 := fun t ht => (hfee t ht).trans_le
    (takerFee_forall (P := (· ≤ 1)) zero_le_one hfees t.symbol)
  have hloss := Route.roundingLoss_le hvalid hpos hview hbound hr (hle r.third (by simp [Route.trades]))
  have hprofit := hpass.1
  rw [Route.netGain_eq (routes_price_pos hpos hr) hvalid hfee hle hbuild]
  linarith

end Gain

end ArbCore
