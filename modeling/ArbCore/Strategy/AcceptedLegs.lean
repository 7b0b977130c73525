import ArbCore.Strategy.Submission

/-! # What the planner accepts

In any arithmetic the planner plans an opportunity whose legs all have a positive rounded
quantity and a rounded notional that their rules allow. Its only divisor that may be zero
is the start amount it reconstructs.
-/
namespace ArbCore
open DecimalArithmetic
variable [DecimalOps] {cfg : StrategyConfig} {idx : ℕ} {l : LegEstimate} {ls : List LegEstimate}

namespace Checked

def Accepts (cfg : StrategyConfig) (l : LegEstimate) : Prop :=
  ∃ qty, plannedQty cfg l.symbol l.qty = .ok qty ∧ 0 < qty ∧
    ∀ rule, cfg.lotRules.lookup l.symbol = some rule → 0 < rule.minNotional →
      ∃ notional, mul qty l.price = .ok notional ∧ rule.minNotional ≤ notional

theorem belowNotional_eq_none_iff {qty : Decimal} : belowNotional cfg l qty = .ok none ↔
    ∀ rule, cfg.lotRules.lookup l.symbol = some rule → 0 < rule.minNotional →
      ∃ notional, mul qty l.price = .ok notional ∧ rule.minNotional ≤ notional := by
  unfold belowNotional
  cases cfg.lotRules.lookup l.symbol with
  | none => simp
  | some rule =>
    by_cases hmin : 0 < rule.minNotional
    · simp only [hmin, ↓reduceIte, bind_eq_ok_iff, Option.some.injEq, forall_eq', forall_const]
      refine exists_congr fun notional => and_congr_right fun _ => ?_
      by_cases hlt : notional < rule.minNotional
      · simp [hlt, pure, Except.pure]
      · simp [hlt, pure, Except.pure, not_lt.mp hlt]
    · simp [hmin]

theorem planLeg_eq_ok_iff {leg : OrderLeg} : planLeg cfg idx l = .ok (.ok leg) ↔
    ∃ qty, plannedQty cfg l.symbol l.qty = .ok qty ∧ belowNotional cfg l qty = .ok none ∧ 0 < qty ∧
      leg = ⟨l.symbol,l.sideBuy,l.price,qty,cfg.aggression = .aggressive,UInt8.ofNat idx⟩ := by
  simp only [planLeg, bind_eq_ok_iff]
  refine exists_congr fun qty => and_congr_right fun _ => ?_
  constructor
  · rintro ⟨below,hbelow,h⟩
    cases below with
    | some e => cases h
    | none =>
      dsimp only at h
      split_ifs at h with hpos
      · cases h
      · cases h
        exact ⟨hbelow,not_le.mp hpos,rfl⟩
  · rintro ⟨hbelow,hpos,rfl⟩
    exact ⟨none,hbelow,if_neg (not_le.mpr hpos)⟩

theorem planLeg_ok_iff : (∃ leg, planLeg cfg idx l = .ok (.ok leg)) ↔ Accepts cfg l := by
  simp only [planLeg_eq_ok_iff, Accepts, belowNotional_eq_none_iff]
  constructor
  · rintro ⟨-,qty,hqty,hnotional,hpos,-⟩
    exact ⟨qty,hqty,hpos,hnotional⟩
  · rintro ⟨qty,hqty,hpos,hnotional⟩
    exact ⟨_,qty,hqty,hnotional,hpos,rfl⟩

theorem planLegs_cons_iff {legs : List OrderLeg} : planLegs cfg idx (l :: ls) = .ok (.ok legs) ↔
    ∃ leg rest, planLeg cfg idx l = .ok (.ok leg) ∧ planLegs cfg (idx + 1) ls = .ok (.ok rest) ∧
      legs = leg :: rest := by
  simp only [planLegs, bind_eq_ok_iff]
  constructor
  · rintro ⟨leg,hleg,h⟩
    cases leg with
    | error e => cases h
    | ok leg =>
      obtain ⟨rest,hrest,h⟩ := bind_eq_ok_iff.mp h
      cases rest with
      | error e => cases h
      | ok rest =>
        cases h
        exact ⟨leg,rest,hleg,hrest,rfl⟩
  · rintro ⟨leg,rest,hleg,hrest,rfl⟩
    exact ⟨_,hleg,bind_eq_ok_iff.mpr ⟨_,hrest,rfl⟩⟩

theorem planLegs_ok_iff : (∃ legs, planLegs cfg idx ls = .ok (.ok legs)) ↔ ∀ l ∈ ls, Accepts cfg l := by
  induction ls generalizing idx with
  | nil => exact ⟨fun _ _ h => absurd h List.not_mem_nil,fun _ => ⟨[],rfl⟩⟩
  | cons l ls ih =>
    rw [List.forall_mem_cons, ← @planLeg_ok_iff _ cfg idx, ← @ih (idx + 1)]
    constructor
    · rintro ⟨legs,h⟩
      obtain ⟨leg,rest,hleg,hrest,-⟩ := planLegs_cons_iff.mp h
      exact ⟨⟨leg,hleg⟩,rest,hrest⟩
    · rintro ⟨⟨leg,hleg⟩,rest,hrest⟩
      exact ⟨leg :: rest,planLegs_cons_iff.mpr ⟨leg,rest,hleg,hrest,rfl⟩⟩

theorem plannedQty_ne_divisionByZero (sym : String) (qty : Decimal) :
    plannedQty cfg sym qty ≠ .error .divisionByZero := by
  unfold plannedQty
  cases cfg.lotRules.lookup sym with
  | none => exact pure_ne_error
  | some rule =>
    by_cases hpos : 0 < rule.stepSize
    · simp only [hpos, ↓reduceIte]
      refine bind_ne_error ?_ fun _ _ => pure_ne_error
      rw [roundQtyToStep, if_neg hpos.not_ge]
      refine bind_ne_error (fun hdiv => hpos.ne' (div_eq_divisionByZero_iff.mp hdiv)) fun _ _ => ?_
      exact bind_ne_error (fitted_ne_divisionByZero _) fun _ _ => pure_ne_error
    · simp only [hpos, ↓reduceIte]
      exact pure_ne_error

theorem belowNotional_ne_divisionByZero (qty : Decimal) :
    belowNotional cfg l qty ≠ .error .divisionByZero := by
  unfold belowNotional
  cases cfg.lotRules.lookup l.symbol with
  | none => exact pure_ne_error
  | some rule =>
    by_cases hmin : 0 < rule.minNotional
    · simp only [hmin, ↓reduceIte]
      exact bind_ne_error (fitted_ne_divisionByZero _) fun _ _ => pure_ne_error
    · simp only [hmin, ↓reduceIte]
      exact pure_ne_error

theorem planLeg_ne_divisionByZero : planLeg cfg idx l ≠ .error .divisionByZero := by
  refine bind_ne_error (plannedQty_ne_divisionByZero _ _) fun qty _ => ?_
  refine bind_ne_error (belowNotional_ne_divisionByZero _) fun below _ => ?_
  cases below with
  | some e => exact pure_ne_error
  | none => by_cases hqty : qty ≤ 0 <;> simp only [hqty, ↓reduceIte] <;> exact pure_ne_error

theorem planLegs_ne_divisionByZero : planLegs cfg idx ls ≠ .error .divisionByZero := by
  induction ls generalizing idx with
  | nil => exact pure_ne_error
  | cons l ls ih =>
    refine bind_ne_error planLeg_ne_divisionByZero fun leg _ => ?_
    cases leg with
    | error e => exact pure_ne_error
    | ok leg => exact bind_ne_error ih fun _ _ => pure_ne_error

variable {op : Opportunity} {id : String}

theorem reconstructedStart_ne_divisionByZero : reconstructedStart op ≠ .error .divisionByZero := by
  unfold reconstructedStart
  cases op.legs.head? with
  | none => exact pure_ne_error
  | some l => exact bind_ne_error (fitted_ne_divisionByZero _) fun _ _ => pure_ne_error

/-- The planner divides once it has accepted all legs. -/
theorem buildTradePlan_eq_divisionByZero_iff : buildTradePlan id op cfg = .error .divisionByZero ↔
    (∀ l ∈ op.legs, Accepts cfg l) ∧ ∃ start, reconstructedStart op = .ok start ∧ start.getD 1 = 0 := by
  rw [← @planLegs_ok_iff _ cfg 0]
  simp only [buildTradePlan, bind_eq_error_iff, planLegs_ne_divisionByZero, false_or]
  constructor
  · rintro ⟨legs,hlegs,h⟩
    cases legs with
    | error e => cases h
    | ok legs =>
      rcases bind_eq_error_iff.mp h with hstart | ⟨start,hstart,h⟩
      · exact absurd hstart reconstructedStart_ne_divisionByZero
      · rcases bind_eq_error_iff.mp h with hdiv | ⟨_,-,h⟩
        · exact ⟨⟨legs,hlegs⟩,start,hstart,div_eq_divisionByZero_iff.mp hdiv⟩
        · cases h
  · rintro ⟨⟨legs,hlegs⟩,start,hstart,hzero⟩
    refine ⟨.ok legs,hlegs,bind_eq_error_iff.mpr (.inr ⟨start,hstart,bind_eq_error_iff.mpr (.inl ?_)⟩)⟩
    exact div_eq_divisionByZero_iff.mpr hzero

theorem preTradeChecks_eq_divisionByZero_iff : preTradeChecks cfg op = .error .divisionByZero ↔
    cfg.limits.minProfitAbs < op.estimatedProfit ∧ 0 < cfg.limits.minProfitPct ∧
      reconstructedStart op = .ok (some 0) := by
  unfold preTradeChecks
  by_cases habs : op.estimatedProfit ≤ cfg.limits.minProfitAbs
  · simp [habs, not_lt.mpr habs]
  · by_cases hpct : 0 < cfg.limits.minProfitPct
    · simp only [habs, ↓reduceIte, hpct, bind_eq_error_iff, reconstructedStart_ne_divisionByZero, false_or,
        not_le.mp habs, true_and]
      constructor
      · rintro ⟨start,hstart,h⟩
        cases start with
        | none => cases h
        | some start =>
          rcases bind_eq_error_iff.mp h with hdiv | ⟨_,-,h⟩
          · rw [hstart, div_eq_divisionByZero_iff.mp hdiv]
          · cases h
      · intro hstart
        exact ⟨some 0,hstart,bind_eq_error_iff.mpr (.inl (div_eq_divisionByZero_iff.mpr rfl))⟩
    · simp [habs, hpct]

end Checked

end ArbCore
