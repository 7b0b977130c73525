import ArbCore.Library.Balances
import ArbCore.Strategy.LotRules
import ArbCore.Strategy.PlanProfit

/-! # What a plan does to the balances

The symbols of a view trade three assets, and both directions of the triangle start and end
with the quote currency. Filled as planned, the legs change its balance by the net gain of
the plan. What lot rules take off the legs counts as legs of its own: with these the quote
currency changes by the estimated profit, and the other two balances are as before.
-/
namespace ArbCore
open ConversionChain

structure Market (A : Type*) where
  base : A
  quote : A

section Change
variable {A : Type*} (market : String → Market A) (feeMap : HashMap FeeInfo)

def Trade.placed (t : Trade) (qty : Decimal) : Placed A Decimal where
  source := if t.hop.buy then (market t.symbol).quote else (market t.symbol).base
  target := if t.hop.buy then (market t.symbol).base else (market t.symbol).quote
  hop := t.hop
  qty := qty

def OrderLeg.placed (leg : OrderLeg) : Placed A Decimal where
  source := if leg.buyBase then (market leg.symbol).quote else (market leg.symbol).base
  target := if leg.buyBase then (market leg.symbol).base else (market leg.symbol).quote
  hop := ⟨leg.buyBase,leg.priceHint,takerFee feeMap leg.symbol⟩
  qty := leg.qty

/-- What a filled leg does to the balances, at the price of the plan and after the taker fee. -/
def OrderLeg.change [DecidableEq A] (leg : OrderLeg) : A → Decimal := (leg.placed market feeMap).change

def TradePlan.change [DecidableEq A] (plan : TradePlan) : A → Decimal :=
  (plan.legs.map (OrderLeg.change market feeMap)).sum

def OrderLeg.hop (leg : OrderLeg) : Hop Decimal := ⟨leg.buyBase,leg.priceHint,takerFee feeMap leg.symbol⟩

/-- The legs for what those of the plan fall short of the orders that turn the start amount
into the estimate. -/
def TradePlan.cutLegs (plan : TradePlan) : List OrderLeg :=
  List.zipWith (fun leg x => { leg with qty := x.2 - leg.qty }) plan.legs
    (orders (plan.legs.map (OrderLeg.hop feeMap)) startAmount)

def TradePlan.cutChange [DecidableEq A] (plan : TradePlan) : A → Decimal :=
  ((plan.cutLegs feeMap).map (OrderLeg.change market feeMap)).sum

/-- The pairs `ab` and `bc` are quoted in the currency, and `ac` trades their two base assets
for each other. -/
def TriView.QuotedIn (currency : A) (view : TriView) : Prop :=
  ∃ b c, b ≠ currency ∧ c ≠ currency ∧ market view.symAb = ⟨b,currency⟩ ∧
    market view.symBc = ⟨c,currency⟩ ∧ market view.symAc = ⟨c,b⟩

theorem placed_cutLegs (plan : TradePlan) :
    (plan.cutLegs feeMap).map (OrderLeg.placed market feeMap) =
      cuts startAmount (plan.legs.map (OrderLeg.placed market feeMap)) := by
  rw [TradePlan.cutLegs, cuts, List.map_zipWith, List.zipWith_map_left, List.map_map]
  rfl

end Change

section Cuts
variable {cfg : StrategyConfig}

/-- A lot rule takes less than one step off a leg, and adds to it only to raise it to the
minimum size. -/
structure CutBy (cfg : StrategyConfig) (leg cut : OrderLeg) : Prop where
  unruled : cfg.lotRules.lookup leg.symbol = none → cut.qty = 0
  stepped : ∀ rule, cfg.lotRules.lookup leg.symbol = some rule → 0 < cut.qty → cut.qty < rule.stepSize
  raised : ∀ rule, cfg.lotRules.lookup leg.symbol = some rule → cut.qty < 0 → leg.qty = rule.minSize

namespace LotRule
variable {rule : LotRule} {qty : Decimal}

theorem sub_stepped_lt (h : 0 < qty - rule.stepped qty) : qty - rule.stepped qty < rule.stepSize := by
  rcases lt_or_ge 0 rule.stepSize with hstep | hstep
  · have hfloor := (div_lt_iff₀ hstep).mp (Int.lt_floor_add_one (qty / rule.stepSize))
    have hle := le_max_left (⌊qty / rule.stepSize⌋ * rule.stepSize) 0
    rw [← stepped_eq hstep] at hle
    linarith
  · rw [stepped, if_neg hstep.not_gt, sub_self] at h
    exact absurd h (lt_irrefl 0)

theorem stepped_le (h : 0 < rule.stepped qty) : rule.stepped qty ≤ qty := by
  rcases lt_or_ge 0 rule.stepSize with hstep | hstep
  · rw [stepped_eq hstep] at h ⊢
    rw [max_eq_left ((lt_max_iff.mp h).resolve_right (lt_irrefl 0)).le]
    exact (le_div_iff₀ hstep).mp (Int.floor_le _)
  · rw [stepped, if_neg hstep.not_gt]

end LotRule

theorem cutBy_of_planned {l : LegEstimate} {leg : OrderLeg} (h : PlannedFrom cfg l leg) :
    CutBy cfg leg { leg with qty := l.qty - leg.qty } := by
  have hround : ∀ rule, cfg.lotRules.lookup leg.symbol = some rule → leg.qty = rule.round l.qty := by
    intro rule hrule
    rw [h.symbol] at hrule
    rw [h.qty, plannedQty, hrule]
  refine ⟨fun hnone => ?_,fun rule hrule hpos => ?_,fun rule hrule hneg => ?_⟩
  · rw [h.symbol] at hnone
    change l.qty - leg.qty = 0
    rw [h.qty, plannedQty, hnone, sub_self]
  · change 0 < l.qty - leg.qty at hpos
    change l.qty - leg.qty < rule.stepSize
    rw [hround rule hrule] at hpos ⊢
    rcases LotRule.round_cases rule l.qty with ⟨hround,-,hraised⟩ | ⟨hround,-⟩
    · rw [hround] at hpos ⊢
      exact (sub_lt_sub_left hraised l.qty).trans (LotRule.sub_stepped_lt (by linarith))
    · rw [hround] at hpos ⊢
      exact LotRule.sub_stepped_lt hpos
  · change l.qty - leg.qty < 0 at hneg
    have hqty := h.qty_pos
    rw [hround rule hrule] at hneg hqty ⊢
    rcases LotRule.round_cases rule l.qty with ⟨hround,-⟩ | ⟨hround,-⟩
    · exact hround
    · rw [hround] at hneg hqty
      exact absurd (LotRule.stepped_le hqty) (sub_neg.mp hneg).not_ge

end Cuts

section Route
variable {A : Type*} {market : String → Market A} {currency : A} {view : TriView} {cfg : StrategyConfig}
  {r : Route}

theorem OrderLeg.placed_of_planned {t : Trade} {q : Decimal} {leg : OrderLeg} (h : PlannedFrom cfg (t.leg q) leg)
    (hfee : t.hop.fee = takerFee cfg.feeMap t.symbol) :
    leg.placed market cfg.feeMap = t.placed market leg.qty := by
  rw [placed, Trade.placed, h.buyBase, h.priceHint, h.symbol]
  simp only [Trade.leg, ← hfee]
  rfl

theorem Route.path (hview : view.QuotedIn market currency) (hr : r ∈ routes view cfg.feeMap) (q1 q2 q3 : Decimal) :
    (∃ x y, x ≠ currency ∧ y ≠ currency ∧ (r.first.placed market q1).source = currency ∧
      (r.first.placed market q1).target = x ∧ (r.second.placed market q2).source = x ∧
      (r.second.placed market q2).target = y ∧ (r.third.placed market q3).source = y ∧
      (r.third.placed market q3).target = currency) := by
  obtain ⟨b,c,hb,hc,hab,hbc,hac⟩ := hview
  rcases mem_routes_iff.mp hr with hr | hr
  · obtain ⟨askAb,bidBc,askAc,_,_,_,-,-,-,rfl⟩ := route1_cases hr
    exact ⟨b,c,hb,hc,by simp [Trade.placed, hab],by simp [Trade.placed, hab],by simp [Trade.placed, hac],
      by simp [Trade.placed, hac],by simp [Trade.placed, hbc],by simp [Trade.placed, hbc]⟩
  · obtain ⟨askBc,bidAc,bidAb,_,_,_,-,-,-,rfl⟩ := route2_cases hr
    exact ⟨c,b,hc,hb,by simp [Trade.placed, hbc],by simp [Trade.placed, hbc],by simp [Trade.placed, hac],
      by simp [Trade.placed, hac],by simp [Trade.placed, hab],by simp [Trade.placed, hab]⟩

variable [DecidableEq A] {plan : TradePlan} {id : String}
  (hview : view.QuotedIn market currency) (hr : r ∈ routes view cfg.feeMap)
  (hbuild : buildTradePlan id r.opportunity cfg = some (.ok plan))
include hview hr hbuild

theorem TradePlan.change_currency : plan.change market cfg.feeMap currency = plan.netGain cfg.feeMap := by
  obtain ⟨leg1,leg2,leg3,hlegs,h1,h2,h3⟩ := planned_route hbuild
  have hfee : ∀ t ∈ r.trades, t.hop.fee = takerFee cfg.feeMap t.symbol := routes_fee hr
  simp only [Route.trades, List.mem_cons, List.not_mem_nil, or_false, forall_eq_or_imp, forall_eq] at hfee
  obtain ⟨hf1,hf2,hf3⟩ := hfee
  obtain ⟨x,y,hx,hy,hs1,ht1,hs2,ht2,hs3,ht3⟩ := Route.path hview hr leg1.qty leg2.qty leg3.qty
  have hgain : plan.netGain cfg.feeMap = leg3.delivers cfg.feeMap - leg1.spends := by
    rw [netGain, hlegs]
    rfl
  have hchange : plan.change market cfg.feeMap = ((r.first.placed market leg1.qty ::
      ([r.second.placed market leg2.qty] ++ [r.third.placed market leg3.qty])).map Placed.change).sum := by
    simp only [change, hlegs, List.map_cons, List.map_nil, OrderLeg.change, OrderLeg.placed_of_planned h1 hf1,
      OrderLeg.placed_of_planned h2 hf2, OrderLeg.placed_of_planned h3 hf3, List.cons_append, List.nil_append]
  rw [hgain, hchange, changes_apply_of_ends hs1 ht3 ⟨ht1.trans_ne hx,hs3.trans_ne hy⟩,
    OrderLeg.delivers_of_planned h3 hf3, OrderLeg.spends_of_planned h1]
  · rfl
  · exact fun o ho => List.mem_singleton.mp ho ▸ ⟨hs2.trans_ne hx,ht2.trans_ne hy⟩

omit [DecidableEq A] hview in
theorem TradePlan.hops_of_built : plan.legs.map (OrderLeg.hop cfg.feeMap) = r.hops := by
  obtain ⟨leg1,leg2,leg3,hlegs,h1,h2,h3⟩ := planned_route hbuild
  have hhop : ∀ {t : Trade} {q : Decimal} {leg : OrderLeg}, PlannedFrom cfg (t.leg q) leg → t ∈ r.trades →
      leg.hop cfg.feeMap = t.hop := by
    intro t q leg h ht
    rw [OrderLeg.hop, h.buyBase, h.priceHint, h.symbol]
    simp only [Trade.leg, ← routes_fee hr t ht]
  rw [hlegs, List.map_cons, List.map_cons, List.map_cons, List.map_nil, hhop h1 (by simp [Route.trades]),
    hhop h2 (by simp [Route.trades]), hhop h3 (by simp [Route.trades])]
  rfl

omit [DecidableEq A] hview in
/-- What the legs fall short of is what the lot rules took off the legs of the route. -/
theorem TradePlan.cutLegs_cutBy : List.Forall₂ (CutBy cfg) plan.legs (plan.cutLegs cfg.feeMap) := by
  obtain ⟨leg1,leg2,leg3,hlegs,h1,h2,h3⟩ := planned_route hbuild
  have hcuts : plan.cutLegs cfg.feeMap = [{ leg1 with qty := r.qty1 - leg1.qty },{ leg2 with qty := r.qty2 - leg2.qty },
      { leg3 with qty := r.qty3 - leg3.qty }] := by
    rw [cutLegs, hops_of_built hr hbuild, hlegs]
    rfl
  rw [hcuts, hlegs]
  exact .cons (cutBy_of_planned h1) (.cons (cutBy_of_planned h2) (.cons (cutBy_of_planned h3) .nil))

/-- Together with what was cut off it a plan turns the start amount into what was estimated
and leaves no other asset behind. -/
theorem TradePlan.change_add_cutChange (hpos : view.PositiveBest) :
    plan.change market cfg.feeMap + plan.cutChange market cfg.feeMap =
      Pi.single currency plan.estimatedProfit := by
  obtain ⟨leg1,leg2,leg3,hlegs,h1,h2,h3⟩ := planned_route hbuild
  have hfee : ∀ t ∈ r.trades, t.hop.fee = takerFee cfg.feeMap t.symbol := routes_fee hr
  simp only [Route.trades, List.mem_cons, List.not_mem_nil, or_false, forall_eq_or_imp, forall_eq] at hfee
  obtain ⟨hf1,hf2,hf3⟩ := hfee
  obtain ⟨x,y,-,-,hs1,ht1,hs2,ht2,hs3,ht3⟩ := Route.path hview hr leg1.qty leg2.qty leg3.qty
  have hplaced : plan.legs.map (OrderLeg.placed market cfg.feeMap) = [r.first.placed market leg1.qty,
      r.second.placed market leg2.qty,r.third.placed market leg3.qty] := by
    rw [hlegs, List.map_cons, List.map_cons, List.map_cons, List.map_nil, OrderLeg.placed_of_planned h1 hf1,
      OrderLeg.placed_of_planned h2 hf2, OrderLeg.placed_of_planned h3 hf3]
  have hpath : Path currency (plan.legs.map (OrderLeg.placed market cfg.feeMap)) currency := by
    rw [hplaced]
    exact ⟨hs1,hs2.trans ht1.symm,hs3.trans ht2.symm,ht3⟩
  have hhops : (plan.legs.map (OrderLeg.placed market cfg.feeMap)).map Placed.hop = r.hops := by
    rw [List.map_map, ← hops_of_built hr hbuild]
    rfl
  have hprice : ∀ o ∈ plan.legs.map (OrderLeg.placed market cfg.feeMap), o.hop.price ≠ 0 := by
    intro o ho
    have hmem := List.mem_map_of_mem (f := Placed.hop) ho
    rw [hhops] at hmem
    obtain ⟨t,ht,heq⟩ := List.mem_map.mp hmem
    exact heq ▸ (routes_price_pos hpos hr t ht).ne'
  have hsum := changes_add_cuts hpath hprice (a := startAmount)
  rw [hhops, ← placed_cutLegs, List.map_map, List.map_map, ← Pi.single_sub] at hsum
  rw [(buildTradePlan_ok hbuild).2.1]
  exact hsum

end Route

end ArbCore
