import ArbCore.Strategy.Detection

/-! # Trade plans and lot rules

The planner rounds each leg by the lot rule of its symbol and keeps everything
else of the opportunity. An inner error is `build_trade_plan`'s own, an outer one is
the panic of an operation. Creation times are read nowhere and left out.
-/
namespace ArbCore
open DecimalArithmetic

structure OrderLeg where
  symbol : String
  buyBase : Bool
  priceHint : Decimal
  qty : Decimal
  isTaker : Bool
  legIdx : UInt8
deriving DecidableEq

structure TradePlan where
  id : String
  startCurrency : String
  estimatedProfit : Decimal
  estimatedProfitPct : Decimal
  legs : List OrderLeg
deriving DecidableEq

namespace Checked
variable [DecimalOps]

def roundQtyToStep (qty stepSize : Decimal) : Except Panic Decimal :=
  if stepSize ≤ 0 then .ok qty
  else do
    let steps := ⌊← div qty stepSize⌋
    return max (← mul steps stepSize) 0

def plannedQty (cfg : StrategyConfig) (sym : String) (qty : Decimal) : Except Panic Decimal :=
  match cfg.lotRules.lookup sym with
  | some rule => do
    let stepped ← if 0 < rule.stepSize then roundQtyToStep qty rule.stepSize else .ok qty
    return if 0 < rule.minSize ∧ stepped < rule.minSize then rule.minSize else stepped
  | none => .ok qty

def belowNotional (cfg : StrategyConfig) (l : LegEstimate) (qty : Decimal) :
    Except Panic (Option StrategyError) :=
  match cfg.lotRules.lookup l.symbol with
  | some rule =>
    if 0 < rule.minNotional then do
      let notional ← mul qty l.price
      return if notional < rule.minNotional then some (.minNotional l.symbol notional rule.minNotional)
        else none
    else .ok none
  | none => .ok none

/-- One iteration of the planner's loop. -/
def planLeg (cfg : StrategyConfig) (idx : ℕ) (l : LegEstimate) :
    Except Panic (Except StrategyError OrderLeg) := do
  let qty ← plannedQty cfg l.symbol l.qty
  match ← belowNotional cfg l qty with
  | some e => return .error e
  | none =>
    if qty ≤ 0 then return .error (.qtyRoundedZero l.symbol)
    else return .ok ⟨l.symbol,l.sideBuy,l.price,qty,cfg.aggression = .aggressive,UInt8.ofNat idx⟩

def planLegs (cfg : StrategyConfig) :
    ℕ → List LegEstimate → Except Panic (Except StrategyError (List OrderLeg))
  | _, [] => .ok (.ok [])
  | idx, l :: ls => do
    match ← planLeg cfg idx l with
    | .error e => return .error e
    | .ok leg => return (← planLegs cfg (idx + 1) ls).map (leg :: ·)

/-- The start amount as the planner and the pre-trade checks reconstruct it. -/
def reconstructedStart (op : Opportunity) : Except Panic (Option Decimal) :=
  match op.legs.head? with
  | some l => do return some (← mul l.qty op.impliedPrice)
  | none => .ok none

/-- `id` is the fresh identifier that `Uuid::new_v4()` returns. -/
def buildTradePlan (id : String) (op : Opportunity) (cfg : StrategyConfig) :
    Except Panic (Except StrategyError TradePlan) := do
  match ← planLegs cfg 0 op.legs with
  | .error e => return .error e
  | .ok legs =>
    let pct ← div op.estimatedProfit ((← reconstructedStart op).getD 1)
    return .ok ⟨id,op.startCurrency,op.estimatedProfit,pct,legs⟩

end Checked

def buildTradePlan [DecimalOps] (id : String) (op : Opportunity) (cfg : StrategyConfig) :
    Option (Except StrategyError TradePlan) := (Checked.buildTradePlan id op cfg).toOption

/-! In exact arithmetic only the last division can panic. -/

def roundQtyToStep (qty stepSize : Decimal) : Decimal :=
  if stepSize ≤ 0 then qty else max (⌊qty / stepSize⌋ * stepSize) 0

def LotRule.round (rule : LotRule) (qty : Decimal) : Decimal :=
  let stepped := if 0 < rule.stepSize then roundQtyToStep qty rule.stepSize else qty
  if 0 < rule.minSize ∧ stepped < rule.minSize then rule.minSize else stepped

def plannedQty (cfg : StrategyConfig) (sym : String) (qty : Decimal) : Decimal :=
  match cfg.lotRules.lookup sym with
  | some rule => rule.round qty
  | none => qty

def planLeg (cfg : StrategyConfig) (idx : ℕ) (l : LegEstimate) : Except StrategyError OrderLeg :=
  let qty := plannedQty cfg l.symbol l.qty
  let leg : OrderLeg := ⟨l.symbol,l.sideBuy,l.price,qty,cfg.aggression = .aggressive,UInt8.ofNat idx⟩
  match cfg.lotRules.lookup l.symbol with
  | some rule =>
    if 0 < rule.minNotional ∧ qty * l.price < rule.minNotional then
      .error (.minNotional l.symbol (qty * l.price) rule.minNotional)
    else if qty ≤ 0 then .error (.qtyRoundedZero l.symbol)
    else .ok leg
  | none => if qty ≤ 0 then .error (.qtyRoundedZero l.symbol) else .ok leg

def planLegs (cfg : StrategyConfig) : ℕ → List LegEstimate → Except StrategyError (List OrderLeg)
  | _, [] => .ok []
  | idx, l :: ls => do
    let leg ← planLeg cfg idx l
    let legs ← planLegs cfg (idx + 1) ls
    .ok (leg :: legs)

def reconstructedStart (op : Opportunity) : Option Decimal :=
  op.legs.head?.map fun l => l.qty * op.impliedPrice

section Rounding
variable {cfg : StrategyConfig}

structure PlannedFrom (cfg : StrategyConfig) (l : LegEstimate) (leg : OrderLeg) : Prop where
  symbol : leg.symbol = l.symbol
  buyBase : leg.buyBase = l.sideBuy
  priceHint : leg.priceHint = l.price
  qty : leg.qty = plannedQty cfg l.symbol l.qty
  qty_pos : 0 < leg.qty

theorem planLeg_ok {idx : ℕ} {l : LegEstimate} {leg : OrderLeg} (h : planLeg cfg idx l = .ok leg) :
    PlannedFrom cfg l leg := by
  unfold planLeg at h
  cases hrule : cfg.lotRules.lookup l.symbol with
  | none =>
    simp only [hrule] at h
    split_ifs at h with hq
    cases h
    exact ⟨rfl,rfl,rfl,rfl,not_le.mp hq⟩
  | some rule =>
    simp only [hrule] at h
    split_ifs at h with _ hq
    cases h
    exact ⟨rfl,rfl,rfl,rfl,not_le.mp hq⟩

theorem planLeg_position {idx : ℕ} {l : LegEstimate} {leg : OrderLeg} (h : planLeg cfg idx l = .ok leg) :
    leg.legIdx = UInt8.ofNat idx ∧ leg.isTaker = decide (cfg.aggression = .aggressive) := by
  unfold planLeg at h
  cases hrule : cfg.lotRules.lookup l.symbol with
  | none =>
    simp only [hrule] at h
    split_ifs at h
    cases h
    exact ⟨rfl,rfl⟩
  | some rule =>
    simp only [hrule] at h
    split_ifs at h
    cases h
    exact ⟨rfl,rfl⟩

theorem planLegs_cons {idx : ℕ} {l : LegEstimate} {ls : List LegEstimate} {legs : List OrderLeg}
    (h : planLegs cfg idx (l :: ls) = .ok legs) :
    ∃ leg rest, planLeg cfg idx l = .ok leg ∧ planLegs cfg (idx + 1) ls = .ok rest ∧ legs = leg :: rest := by
  unfold planLegs at h
  cases hl : planLeg cfg idx l with
  | error e => simp [hl, bind, Except.bind] at h
  | ok leg =>
    cases hls : planLegs cfg (idx + 1) ls with
    | error e => simp [hl, hls, bind, Except.bind] at h
    | ok rest =>
      simp only [hl, hls, bind, Except.bind, Except.ok.injEq] at h
      exact ⟨leg,rest,rfl,rfl,h.symm⟩

theorem planLegs_ok {idx : ℕ} {ls : List LegEstimate} {legs : List OrderLeg}
    (h : planLegs cfg idx ls = .ok legs) : List.Forall₂ (PlannedFrom cfg) ls legs := by
  induction ls generalizing idx legs with
  | nil =>
    cases h
    exact List.Forall₂.nil
  | cons l ls ih =>
    obtain ⟨leg,rest,hl,hls,rfl⟩ := planLegs_cons h
    exact List.Forall₂.cons (planLeg_ok hl) (ih hls)

theorem planLegs_getElem? {idx : ℕ} {ls : List LegEstimate} {legs : List OrderLeg}
    (h : planLegs cfg idx ls = .ok legs) {i : ℕ} {leg : OrderLeg} (hleg : legs[i]? = some leg) :
    ∃ l, planLeg cfg (idx + i) l = .ok leg := by
  induction ls generalizing idx legs i with
  | nil =>
    cases h
    cases hleg
  | cons l ls ih =>
    obtain ⟨first,rest,hfirst,hrest,rfl⟩ := planLegs_cons h
    cases i with
    | zero =>
      cases hleg
      exact ⟨l,hfirst⟩
    | succ i =>
      rw [← Nat.add_assoc, Nat.add_right_comm]
      exact ih hrest hleg

theorem checked_plannedQty_eq (sym : String) (qty : Decimal) :
    Checked.plannedQty cfg sym qty = .ok (plannedQty cfg sym qty) := by
  unfold Checked.plannedQty plannedQty
  cases cfg.lotRules.lookup sym with
  | none => rfl
  | some rule =>
    by_cases hstep : 0 < rule.stepSize
    · have hround : Checked.roundQtyToStep qty rule.stepSize = .ok (roundQtyToStep qty rule.stepSize) := by
        rw [Checked.roundQtyToStep, roundQtyToStep, if_neg hstep.not_ge, if_neg hstep.not_ge,
          div_of_ne hstep.ne']
        rfl
      simp only [LotRule.round, if_pos hstep, hround]
      rfl
    · simp only [LotRule.round, if_neg hstep]
      rfl

theorem checked_planLeg_eq (idx : ℕ) (l : LegEstimate) :
    Checked.planLeg cfg idx l = .ok (planLeg cfg idx l) := by
  unfold Checked.planLeg Checked.belowNotional planLeg
  rw [checked_plannedQty_eq]
  cases cfg.lotRules.lookup l.symbol with
  | none => by_cases hq : plannedQty cfg l.symbol l.qty ≤ 0 <;> simp [hq, bind, Except.bind, pure, Except.pure]
  | some rule =>
    have hmul : mul (plannedQty cfg l.symbol l.qty) l.price = .ok (plannedQty cfg l.symbol l.qty * l.price) := rfl
    by_cases hmin : 0 < rule.minNotional <;>
      by_cases hnotional : plannedQty cfg l.symbol l.qty * l.price < rule.minNotional <;>
        by_cases hq : plannedQty cfg l.symbol l.qty ≤ 0 <;>
          simp [hmul, hmin, hnotional, hq, bind, Except.bind, pure, Except.pure]

theorem checked_planLegs_eq (idx : ℕ) (ls : List LegEstimate) :
    Checked.planLegs cfg idx ls = .ok (planLegs cfg idx ls) := by
  induction ls generalizing idx with
  | nil => rfl
  | cons l ls ih =>
    rw [Checked.planLegs, checked_planLeg_eq, planLegs, ih]
    cases planLeg cfg idx l with
    | error e => rfl
    | ok leg => cases planLegs cfg (idx + 1) ls <;> rfl

theorem buildTradePlan_exact (id : String) (op : Opportunity) :
    buildTradePlan id op cfg = match planLegs cfg 0 op.legs with
      | .error e => some (.error e)
      | .ok legs => if (reconstructedStart op).getD 1 = 0 then none
        else some (.ok ⟨id,op.startCurrency,op.estimatedProfit,
          op.estimatedProfit / (reconstructedStart op).getD 1,legs⟩) := by
  have hstart : Checked.reconstructedStart op = .ok (reconstructedStart op) := by
    unfold Checked.reconstructedStart reconstructedStart
    cases op.legs.head? <;> rfl
  rw [buildTradePlan, Checked.buildTradePlan, checked_planLegs_eq, hstart]
  cases planLegs cfg 0 op.legs with
  | error e => rfl
  | ok legs =>
    by_cases hzero : (reconstructedStart op).getD 1 = 0
    · simp [hzero, div, bind, Except.bind, Except.toOption]
    · simp only [hzero, ↓reduceIte, bind, Except.bind, div_of_ne hzero]
      rfl

/-- A plan is built exactly when every leg is planned and the start amount is not zero. -/
theorem buildTradePlan_eq_ok_iff {id : String} {op : Opportunity} {plan : TradePlan} :
    buildTradePlan id op cfg = some (.ok plan) ↔ ∃ legs, planLegs cfg 0 op.legs = .ok legs ∧
      (reconstructedStart op).getD 1 ≠ 0 ∧ plan = ⟨id,op.startCurrency,op.estimatedProfit,
        op.estimatedProfit / (reconstructedStart op).getD 1,legs⟩ := by
  rw [buildTradePlan_exact]
  cases planLegs cfg 0 op.legs with
  | error e => simp
  | ok legs => by_cases hzero : (reconstructedStart op).getD 1 = 0 <;> simp [hzero, eq_comm]

theorem buildTradePlan_legs {id : String} {op : Opportunity} {plan : TradePlan}
    (h : buildTradePlan id op cfg = some (.ok plan)) :
    plan.id = id ∧ planLegs cfg 0 op.legs = .ok plan.legs := by
  obtain ⟨legs,hlegs,-,rfl⟩ := buildTradePlan_eq_ok_iff.mp h
  exact ⟨rfl,hlegs⟩

theorem buildTradePlan_ok {id : String} {op : Opportunity} {plan : TradePlan}
    (h : buildTradePlan id op cfg = some (.ok plan)) :
    List.Forall₂ (PlannedFrom cfg) op.legs plan.legs ∧
      plan.estimatedProfit = op.estimatedProfit ∧
      plan.estimatedProfitPct = op.estimatedProfit / (reconstructedStart op).getD 1 := by
  obtain ⟨legs,hlegs,-,rfl⟩ := buildTradePlan_eq_ok_iff.mp h
  exact ⟨planLegs_ok hlegs,rfl,rfl⟩

end Rounding

end ArbCore
