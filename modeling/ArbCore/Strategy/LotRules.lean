import ArbCore.Strategy.LotRounding

/-! # The rules that a planned leg obeys

The planner enforces step, minimum size and minimum notional one after the other, and
raising a quantity to the minimum size undoes the rounding where the minimum is not
itself a multiple of the step.
-/
namespace ArbCore

/-- What the rule of its symbol, or the lack of one, asks of a planned leg. -/
structure ObeysLotRule (cfg : StrategyConfig) (l : LegEstimate) (leg : OrderLeg) : Prop where
  symbol : leg.symbol = l.symbol
  ruled : ∀ rule, cfg.lotRules.lookup leg.symbol = some rule → 0 < leg.qty ∧
    (0 < rule.stepSize → ∃ k : ℤ, leg.qty = k * rule.stepSize) ∧ rule.minSize ≤ leg.qty ∧
    (0 < rule.minNotional → rule.minNotional ≤ leg.qty * leg.priceHint)
  unruled : cfg.lotRules.lookup leg.symbol = none → leg.qty = l.qty

namespace LotRule
variable {rule : LotRule} {qty : Decimal}

def stepped (rule : LotRule) (qty : Decimal) : Decimal :=
  if 0 < rule.stepSize then roundQtyToStep qty rule.stepSize else qty

/-- The minimum size is on the grid, or the rounded quantity reaches it and is not raised. -/
def StepSurvives (rule : LotRule) (qty : Decimal) : Prop :=
  (∃ k : ℤ, rule.minSize = k * rule.stepSize) ∨ rule.minSize ≤ ⌊qty / rule.stepSize⌋ * rule.stepSize

theorem round_cases (rule : LotRule) (qty : Decimal) :
    (rule.round qty = rule.minSize ∧ 0 < rule.minSize ∧ rule.stepped qty < rule.minSize) ∨
      (rule.round qty = rule.stepped qty ∧ (0 < rule.minSize → rule.minSize ≤ rule.stepped qty)) := by
  by_cases h : 0 < rule.minSize ∧ rule.stepped qty < rule.minSize
  · exact .inl ⟨if_pos h,h⟩
  · exact .inr ⟨if_neg h,fun hpos => not_lt.mp fun hlt => h ⟨hpos,hlt⟩⟩

theorem stepped_eq (hstep : 0 < rule.stepSize) :
    rule.stepped qty = max (⌊qty / rule.stepSize⌋ * rule.stepSize) 0 := by
  rw [stepped, if_pos hstep, roundQtyToStep, if_neg hstep.not_ge]

theorem stepped_multiple (hstep : 0 < rule.stepSize) : ∃ k : ℤ, rule.stepped qty = k * rule.stepSize := by
  rw [stepped_eq hstep]
  rcases max_choice (⌊qty / rule.stepSize⌋ * rule.stepSize) 0 with h | h
  · exact ⟨_,h⟩
  · exact ⟨0,by rw [h, Int.cast_zero, zero_mul]⟩

theorem minSize_le_round (hpos : 0 < rule.round qty) : rule.minSize ≤ rule.round qty := by
  rcases round_cases rule qty with ⟨h,-⟩ | ⟨h,hle⟩
  · exact h.ge
  · rcases lt_or_ge 0 rule.minSize with hmin | hmin
    · exact h ▸ hle hmin
    · exact hmin.trans hpos.le

theorem round_multiple_iff (hmin : 0 ≤ rule.minSize) (hstep : 0 < rule.stepSize) :
    (∃ k : ℤ, rule.round qty = k * rule.stepSize) ↔ rule.StepSurvives qty := by
  rcases round_cases rule qty with ⟨hround,hpos,hraised⟩ | ⟨hround,hle⟩
  · rw [hround, StepSurvives]
    refine ⟨.inl,fun h => h.resolve_right fun hreached => ?_⟩
    rw [stepped_eq hstep] at hraised
    exact absurd hreached ((le_max_left _ _).trans_lt hraised).not_ge
  · refine iff_of_true (hround ▸ stepped_multiple hstep) ?_
    rcases hmin.eq_or_lt with hzero | hpos
    · exact .inl ⟨0,by rw [← hzero, Int.cast_zero, zero_mul]⟩
    · have hreached := hle hpos
      rw [stepped_eq hstep] at hreached
      exact .inr ((le_max_iff.mp hreached).resolve_right hpos.not_ge)

end LotRule

section Legs
variable {cfg : StrategyConfig}

/-- Of all that a rule asks only the step can fail. -/
theorem obeysLotRule_iff (hvalid : cfg.Valid) {l : LegEstimate} {leg : OrderLeg}
    (h : PlannedFrom cfg l leg) (haccepted : Accepted cfg l) :
    ObeysLotRule cfg l leg ↔ ∀ rule, cfg.lotRules.lookup l.symbol = some rule → 0 < rule.stepSize →
      rule.StepSurvives l.qty := by
  have hqty : ∀ rule, cfg.lotRules.lookup l.symbol = some rule → leg.qty = rule.round l.qty := by
    intro rule hrule
    rw [h.qty, plannedQty, hrule]
  constructor
  · intro hobeys rule hrule hstep
    have hmultiple := (hobeys.ruled rule (h.symbol ▸ hrule)).2.1 hstep
    rw [hqty rule hrule] at hmultiple
    exact (LotRule.round_multiple_iff (hvalid.rules _ rule hrule).1 hstep).mp hmultiple
  · intro hsurvives
    refine ⟨h.symbol,fun rule hrule => ?_,fun hnone => ?_⟩
    · rw [h.symbol] at hrule
      have hpos := h.qty_pos
      refine ⟨hpos,fun hstep => ?_,?_,fun hnotional => ?_⟩
      · rw [hqty rule hrule]
        exact (LotRule.round_multiple_iff (hvalid.rules _ rule hrule).1 hstep).mpr
          (hsurvives rule hrule hstep)
      · rw [hqty rule hrule] at hpos ⊢
        exact LotRule.minSize_le_round hpos
      · rw [h.qty, h.priceHint]
        exact haccepted.2 rule hrule hnotional
    · rw [h.symbol] at hnone
      rw [h.qty, plannedQty, hnone]

theorem obeysLotRules_iff (hvalid : cfg.Valid) {ls : List LegEstimate} {legs : List OrderLeg}
    (h : List.Forall₂ (PlannedFrom cfg) ls legs) (haccepted : ∀ l ∈ ls, Accepted cfg l) :
    List.Forall₂ (ObeysLotRule cfg) ls legs ↔ ∀ l ∈ ls, ∀ rule,
      cfg.lotRules.lookup l.symbol = some rule → 0 < rule.stepSize → rule.StepSurvives l.qty := by
  induction h with
  | nil => exact iff_of_true .nil fun _ hl => absurd hl List.not_mem_nil
  | cons hleg _ ih =>
    obtain ⟨hl,hls⟩ := List.forall_mem_cons.mp haccepted
    rw [List.forall₂_cons, List.forall_mem_cons, obeysLotRule_iff hvalid hleg hl, ih hls]

end Legs

/-- A plan obeys all lot rules exactly when no rounded leg is raised to a minimum size that
is off the grid of its step. -/
theorem plan_obeysLotRules_iff {cfg : StrategyConfig} (hvalid : cfg.validate = .ok ()) {id : String}
    {op : Opportunity} {plan : TradePlan} (h : buildTradePlan id op cfg = some (.ok plan)) :
    List.Forall₂ (ObeysLotRule cfg) op.legs plan.legs ↔ ∀ l ∈ op.legs, ∀ rule,
      cfg.lotRules.lookup l.symbol = some rule → 0 < rule.stepSize → rule.StepSurvives l.qty :=
  obeysLotRules_iff ((StrategyConfig.validate_iff cfg).mp hvalid) (buildTradePlan_ok h).1
    (accepted_of_built h)

def ethStepConfig (minSize : Decimal) : StrategyConfig :=
  { plainConfig with lotRules := AList.insert "ETHBTC" ⟨minSize,2,0⟩ ∅ }

def ethStepPlan (qty : Decimal) : TradePlan :=
  ⟨"p1","USDT",400,25000/13,[⟨"BTCUSDT",true,50000,1/5,true,0⟩,⟨"ETHBTC",true,1/20,qty,true,1⟩,
    ⟨"ETHUSDT",false,2600,4,true,2⟩]⟩

theorem plan_obeysLotRules_iff_onGrid :
    (ethStepConfig 4).validate = .ok () ∧
    buildTradePlan "p1" mispricedOpportunity (ethStepConfig 4) = some (.ok (ethStepPlan 4)) ∧
    List.Forall₂ (ObeysLotRule (ethStepConfig 4)) mispricedOpportunity.legs (ethStepPlan 4).legs := by
  have hvalid : (ethStepConfig 4).validate = .ok () := by decide +kernel
  have hbuild : buildTradePlan "p1" mispricedOpportunity (ethStepConfig 4) =
      some (.ok (ethStepPlan 4)) := by
    decide +kernel
  refine ⟨hvalid,hbuild,(plan_obeysLotRules_iff hvalid hbuild).mpr fun l _ rule hrule _ => .inl ⟨2,?_⟩⟩
  rcases eq_or_ne l.symbol "ETHBTC" with hsym | hne
  · rw [hsym, ethStepConfig, AList.lookup_insert] at hrule
    cases hrule
    norm_num
  · rw [ethStepConfig, AList.lookup_insert_ne hne] at hrule
    simp at hrule

/-- With a minimum of five the four ETH are raised to five, which is no multiple of two. -/
theorem raised_off_grid :
    (ethStepConfig 5).validate = .ok () ∧
    buildTradePlan "p1" mispricedOpportunity (ethStepConfig 5) = some (.ok (ethStepPlan 5)) ∧
    ¬ List.Forall₂ (ObeysLotRule (ethStepConfig 5)) mispricedOpportunity.legs (ethStepPlan 5).legs := by
  refine ⟨by decide +kernel,by decide +kernel,fun h => ?_⟩
  simp only [mispricedOpportunity, ethStepPlan, List.forall₂_cons] at h
  obtain ⟨-,heth,-⟩ := h
  obtain ⟨k,hk⟩ := (heth.ruled ⟨5,2,0⟩ (AList.lookup_insert _)).2.1 (by norm_num)
  replace hk : (5 : Decimal) = k * 2 := hk
  have hk : (5 : ℤ) = k * 2 := by exact_mod_cast hk
  omega

end ArbCore
