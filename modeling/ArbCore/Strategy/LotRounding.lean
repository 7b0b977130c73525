import ArbCore.Library.GridRounding
import ArbCore.Strategy.Submission

/-! # Lot rules on the legs of a route

Each leg is rounded by the rule of its own symbol, whatever happened to the leg
before it. What the rule cuts off the quantity is missing from the leg's proceeds
and saved of its cost.
-/
namespace ArbCore
open ConversionChain GridRounding

/-- What a rule takes off a quantity: the remainder of the step or, as a negative
amount, what is missing up to the minimum size. -/
def LotRule.cut (rule : LotRule) (qty : Decimal) : Decimal :=
  let remainder := if 0 < rule.stepSize then Int.fract (qty / rule.stepSize) * rule.stepSize else 0
  min remainder (qty - rule.minSize)

def lotCut (cfg : StrategyConfig) (sym : String) (qty : Decimal) : Decimal :=
  match cfg.lotRules.lookup sym with
  | some rule => rule.cut qty
  | none => 0

theorem roundQtyToStep_eq {step qty : Decimal} (hstep : 0 < step) (hqty : 0 ≤ qty) :
    roundQtyToStep qty step = roundDown step qty := by
  have hround := roundDown_nonneg step hqty
  rw [roundDown, if_pos hstep] at hround ⊢
  rw [roundQtyToStep, if_neg hstep.not_ge, max_eq_left hround]

theorem LotRule.round_eq_max {rule : LotRule} (hmin : 0 ≤ rule.minSize) {qty : Decimal} (hqty : 0 ≤ qty) :
    rule.round qty = max (roundDown rule.stepSize qty) rule.minSize := by
  have hround := roundDown_nonneg rule.stepSize hqty
  have hstepped : (if 0 < rule.stepSize then roundQtyToStep qty rule.stepSize else qty) =
      roundDown rule.stepSize qty := by
    split
    · exact roundQtyToStep_eq ‹_› hqty
    · rw [roundDown, if_neg ‹_›]
  simp only [LotRule.round, hstepped]
  split_ifs with h
  · exact (max_eq_right h.2.le).symm
  · rw [max_eq_left]
    rcases hmin.eq_or_lt with hzero | hpos
    · exact hzero ▸ hround
    · exact not_lt.mp fun hlt => h ⟨hpos,hlt⟩

theorem LotRule.round_eq {rule : LotRule} (hmin : 0 ≤ rule.minSize) {qty : Decimal} (hqty : 0 ≤ qty) :
    rule.round qty = qty - rule.cut qty := by
  have hremainder : roundDown rule.stepSize qty =
      qty - if 0 < rule.stepSize then Int.fract (qty / rule.stepSize) * rule.stepSize else 0 := by
    unfold roundDown
    split
    · rename_i hstep
      rw [Int.fract, sub_mul, div_mul_cancel₀ qty hstep.ne', sub_sub_cancel]
    · exact (sub_zero qty).symm
  simp only [LotRule.round_eq_max hmin hqty, LotRule.cut, hremainder]
  rw [← max_sub_sub_left, sub_sub_cancel]

theorem plannedQty_eq {cfg : StrategyConfig} (hvalid : cfg.Valid) (sym : String) {qty : Decimal}
    (hqty : 0 ≤ qty) : plannedQty cfg sym qty = qty - lotCut cfg sym qty := by
  unfold plannedQty lotCut
  cases hrule : cfg.lotRules.lookup sym with
  | none => exact (sub_zero qty).symm
  | some rule => exact LotRule.round_eq (hvalid.rules sym rule hrule).1 hqty

/-- The planner accepts a leg whose rounded quantity is positive and whose
rounded notional the rule of its symbol allows. -/
def Accepted (cfg : StrategyConfig) (l : LegEstimate) : Prop :=
  0 < plannedQty cfg l.symbol l.qty ∧ ∀ rule, cfg.lotRules.lookup l.symbol = some rule →
    0 < rule.minNotional → rule.minNotional ≤ plannedQty cfg l.symbol l.qty * l.price

theorem planLeg_ok_iff {cfg : StrategyConfig} {idx : ℕ} {l : LegEstimate} :
    (∃ leg, planLeg cfg idx l = .ok leg) ↔ Accepted cfg l := by
  unfold planLeg Accepted
  cases hrule : cfg.lotRules.lookup l.symbol with
  | none => by_cases hq : plannedQty cfg l.symbol l.qty ≤ 0 <;> simp [hq, not_lt, not_le.mp]
  | some rule =>
    by_cases hn : 0 < rule.minNotional ∧ plannedQty cfg l.symbol l.qty * l.price < rule.minNotional
    · simp [hn, not_le]
    · have hallowed : 0 < rule.minNotional →
          rule.minNotional ≤ plannedQty cfg l.symbol l.qty * l.price := by
        intro hpos
        exact not_lt.mp fun hlt => hn ⟨hpos,hlt⟩
      by_cases hq : plannedQty cfg l.symbol l.qty ≤ 0
      · simp [hn, hq, not_lt.mpr hq]
      · simpa [hn, hq] using ⟨not_le.mp hq,hallowed⟩

theorem planLegs_ok_iff {cfg : StrategyConfig} {idx : ℕ} {ls : List LegEstimate} :
    (∃ legs, planLegs cfg idx ls = .ok legs) ↔ ∀ l ∈ ls, Accepted cfg l := by
  induction ls generalizing idx with
  | nil => simp [planLegs]
  | cons l ls ih =>
    rw [List.forall_mem_cons, ← @planLeg_ok_iff cfg idx l, ← @ih (idx + 1), planLegs]
    cases planLeg cfg idx l with
    | error err => simp [bind, Except.bind]
    | ok leg => cases planLegs cfg (idx + 1) ls <;> simp [bind, Except.bind]

theorem exists_plan_iff {cfg : StrategyConfig} {id : String} {op : Opportunity} :
    (∃ plan, buildTradePlan id op cfg = some (.ok plan)) ↔
      (∀ l ∈ op.legs, Accepted cfg l) ∧ (reconstructedStart op).getD 1 ≠ 0 := by
  rw [← @planLegs_ok_iff cfg 0]
  constructor
  · rintro ⟨plan,h⟩
    obtain ⟨legs,hlegs,hstart,-⟩ := buildTradePlan_eq_ok_iff.mp h
    exact ⟨⟨legs,hlegs⟩,hstart⟩
  · rintro ⟨⟨legs,hlegs⟩,hstart⟩
    exact ⟨_,buildTradePlan_eq_ok_iff.mpr ⟨legs,hlegs,hstart,rfl⟩⟩

theorem accepted_of_built {cfg : StrategyConfig} {id : String} {op : Opportunity} {plan : TradePlan}
    (h : buildTradePlan id op cfg = some (.ok plan)) : ∀ l ∈ op.legs, Accepted cfg l :=
  (exists_plan_iff.mp ⟨plan,h⟩).1

theorem exists_plan {cfg : StrategyConfig} {r : Route} (hprice : ∀ t ∈ r.trades, 0 < t.hop.price)
    (h : ∀ l ∈ r.opportunity.legs, Accepted cfg l) (id : String) :
    ∃ plan, buildTradePlan id r.opportunity cfg = some (.ok plan) :=
  exists_plan_iff.mpr ⟨h,Route.reconstructedStart_ne_zero hprice⟩

namespace OrderLeg

/-- Quote currency when buying, base when selling. -/
def spends (leg : OrderLeg) : Decimal := if leg.buyBase then leg.qty * leg.priceHint else leg.qty

/-- Base when buying, quote currency when selling, after the taker fee of the symbol. -/
def delivers (feeMap : HashMap FeeInfo) (leg : OrderLeg) : Decimal :=
  (if leg.buyBase then leg.qty else leg.qty * leg.priceHint) * (1 - takerFee feeMap leg.symbol)

variable {cfg : StrategyConfig} {t : Trade} {q : Decimal} {leg : OrderLeg}

theorem spends_of_planned (h : PlannedFrom cfg (t.leg q) leg) : leg.spends = t.hop.spends leg.qty := by
  rw [spends, h.buyBase, h.priceHint]
  rfl

theorem delivers_of_planned {feeMap : HashMap FeeInfo} (h : PlannedFrom cfg (t.leg q) leg)
    (hfee : t.hop.fee = takerFee feeMap t.symbol) :
    leg.delivers feeMap = t.hop.delivers leg.qty := by
  rw [delivers, h.buyBase, h.priceHint, h.symbol]
  simp only [Trade.leg, ← hfee]
  rfl

section Cut
variable (hvalid : cfg.Valid) (hq : 0 ≤ q) (h : PlannedFrom cfg (t.leg q) leg)
include hvalid hq h

theorem spends_of_rounded : leg.spends = t.hop.spends q - t.hop.spends (lotCut cfg t.symbol q) := by
  have hqty : leg.qty = q - lotCut cfg t.symbol q := h.qty.trans (plannedQty_eq hvalid _ hq)
  rw [spends_of_planned h, hqty, Hop.spends_sub]

theorem delivers_of_rounded {feeMap : HashMap FeeInfo} (hfee : t.hop.fee = takerFee feeMap t.symbol) :
    leg.delivers feeMap = t.hop.delivers q - t.hop.delivers (lotCut cfg t.symbol q) := by
  have hqty : leg.qty = q - lotCut cfg t.symbol q := h.qty.trans (plannedQty_eq hvalid _ hq)
  rw [delivers_of_planned h hfee, hqty, Hop.delivers_sub]

end Cut

end OrderLeg

namespace Route
variable {r : Route} (hprice : ∀ t ∈ r.trades, 0 < t.hop.price) (hle : ∀ t ∈ r.trades, t.hop.fee ≤ 1)
include hprice hle

theorem qty2_nonneg : 0 ≤ r.qty2 := by
  have hfirst : r.first ∈ r.trades := by simp [trades]
  have hsecond : r.second ∈ r.trades := by simp [trades]
  have hamount := Hop.delivers_nonneg (hprice _ hfirst) (hle _ hfirst) (qty1_pos hprice).le
  exact Hop.qty_nonneg (hprice _ hsecond) hamount

theorem qty3_nonneg : 0 ≤ r.qty3 := by
  have hsecond : r.second ∈ r.trades := by simp [trades]
  have hthird : r.third ∈ r.trades := by simp [trades]
  have hamount := Hop.delivers_nonneg (hprice _ hsecond) (hle _ hsecond) (qty2_nonneg hprice hle)
  exact Hop.qty_nonneg (hprice _ hthird) hamount

end Route

theorem planned_route {cfg : StrategyConfig} {id : String} {r : Route} {plan : TradePlan}
    (h : buildTradePlan id r.opportunity cfg = some (.ok plan)) :
    ∃ leg1 leg2 leg3, plan.legs = [leg1,leg2,leg3] ∧ PlannedFrom cfg (r.first.leg r.qty1) leg1 ∧
      PlannedFrom cfg (r.second.leg r.qty2) leg2 ∧ PlannedFrom cfg (r.third.leg r.qty3) leg3 := by
  obtain ⟨hlegs,-,-⟩ := buildTradePlan_ok h
  have hop : r.opportunity.legs = [r.first.leg r.qty1,r.second.leg r.qty2,r.third.leg r.qty3] := rfl
  rw [hop] at hlegs
  obtain ⟨leg1,legs2,h1,hlegs2,hplan⟩ := List.forall₂_cons_left_iff.mp hlegs
  obtain ⟨leg2,legs3,h2,hlegs3,hplan2⟩ := List.forall₂_cons_left_iff.mp hlegs2
  obtain ⟨leg3,legs4,h3,hlegs4,hplan3⟩ := List.forall₂_cons_left_iff.mp hlegs3
  cases hlegs4
  exact ⟨leg1,leg2,leg3,by rw [hplan, hplan2, hplan3],h1,h2,h3⟩

end ArbCore
