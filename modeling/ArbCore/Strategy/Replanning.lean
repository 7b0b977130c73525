import ArbCore.Strategy.LotRules

/-! # Planning twice and planning more

Rounding is idempotent and monotone in each leg, and both tests that reject a leg only
ask for enough. A plan is therefore planned to itself, and larger quantities at the same
prices are planned to larger ones.
-/
namespace ArbCore
open GridRounding

def Opportunity.withQtys (op : Opportunity) (legs : List OrderLeg) : Opportunity :=
  { op with legs := List.zipWith (fun l leg => { l with qty := leg.qty }) op.legs legs }

structure LegEstimate.Enlarged (l l' : LegEstimate) : Prop where
  symbol : l'.symbol = l.symbol
  price : l'.price = l.price
  qty : l.qty ≤ l'.qty

/-- The quantity is rounded down to the step, if there is one, or raised to the minimum size. -/
def RoundedOrRaised (cfg : StrategyConfig) (l : LegEstimate) (leg : OrderLeg) : Prop :=
  match cfg.lotRules.lookup l.symbol with
  | some rule => leg.qty = rule.minSize ∨
    if 0 < rule.stepSize then
      IsGreatest {x : Decimal | (∃ k : ℤ, x = k * rule.stepSize) ∧ x ≤ l.qty} leg.qty
    else leg.qty = l.qty
  | none => leg.qty = l.qty

section Quantities
variable {cfg : StrategyConfig} (hvalid : cfg.Valid) (sym : String) {q r : Decimal}
include hvalid

theorem plannedQty_mono (hq : 0 ≤ q) (hqr : q ≤ r) : plannedQty cfg sym q ≤ plannedQty cfg sym r := by
  unfold plannedQty
  cases hrule : cfg.lotRules.lookup sym with
  | none => exact hqr
  | some rule =>
    have hmin := (hvalid.rules sym rule hrule).1
    simp only [LotRule.round_eq_max hmin hq, LotRule.round_eq_max hmin (hq.trans hqr)]
    exact max_le_max_right _ (roundDown_mono _ hqr)

theorem plannedQty_idem (hq : 0 ≤ q) :
    plannedQty cfg sym (plannedQty cfg sym q) = plannedQty cfg sym q := by
  unfold plannedQty
  cases hrule : cfg.lotRules.lookup sym with
  | none => rfl
  | some rule =>
    have hmin := (hvalid.rules sym rule hrule).1
    have hround : 0 ≤ max (roundDown rule.stepSize q) rule.minSize := hmin.trans (le_max_right _ _)
    simp only [LotRule.round_eq_max hmin hq, LotRule.round_eq_max hmin hround]
    exact max_idem (roundDown_mono _) (roundDown_roundDown _) (roundDown_le _ _) q

theorem roundedOrRaised_of_planned {l : LegEstimate} {leg : OrderLeg} (hq : 0 ≤ l.qty)
    (h : PlannedFrom cfg l leg) : RoundedOrRaised cfg l leg := by
  unfold RoundedOrRaised
  rw [h.qty, plannedQty]
  cases hrule : cfg.lotRules.lookup l.symbol with
  | none => rfl
  | some rule =>
    simp only [LotRule.round_eq_max (hvalid.rules _ rule hrule).1 hq]
    rcases max_choice (roundDown rule.stepSize l.qty) rule.minSize with hmax | hmax
    · rw [hmax]
      right
      split
      · exact isGreatest_roundDown ‹_› _
      · rw [roundDown, if_neg ‹_›]
    · exact .inl hmax

theorem accepted_mono {l l' : LegEstimate} (hprice : 0 ≤ l.price) (hq : 0 ≤ l.qty) (hle : l.Enlarged l')
    (h : Accepted cfg l) : Accepted cfg l' := by
  have hplanned := plannedQty_mono hvalid l.symbol hq hle.qty
  unfold Accepted
  rw [hle.symbol, hle.price]
  refine ⟨h.1.trans_le hplanned,fun rule hrule hnotional => ?_⟩
  exact (h.2 rule hrule hnotional).trans (mul_le_mul_of_nonneg_right hplanned hprice)

/-- A leg with its planned quantity is planned to the same order. -/
theorem planLeg_idem {idx : ℕ} {l : LegEstimate} {leg : OrderLeg} (hq : 0 ≤ l.qty)
    (h : planLeg cfg idx l = .ok leg) : planLeg cfg idx { l with qty := leg.qty } = .ok leg := by
  have hsame : plannedQty cfg l.symbol leg.qty = plannedQty cfg l.symbol l.qty := by
    rw [(planLeg_ok h).qty, plannedQty_idem hvalid _ hq]
  rw [← h]
  simp only [planLeg, hsame]

theorem planLegs_idem {idx : ℕ} {ls : List LegEstimate} {legs : List OrderLeg}
    (hq : ∀ l ∈ ls, 0 ≤ l.qty) (h : planLegs cfg idx ls = .ok legs) :
    planLegs cfg idx (List.zipWith (fun l leg => { l with qty := leg.qty }) ls legs) = .ok legs := by
  induction ls generalizing idx legs with
  | nil =>
    cases h
    rfl
  | cons l ls ih =>
    obtain ⟨hl,hls⟩ := List.forall_mem_cons.mp hq
    obtain ⟨leg,rest,hleg,hrest,rfl⟩ := planLegs_cons h
    rw [List.zipWith_cons_cons, planLegs, planLeg_idem hvalid hl hleg, ih hls hrest]
    rfl

theorem planned_mono {ls ls' : List LegEstimate} {legs legs' : List OrderLeg}
    (hle : List.Forall₂ LegEstimate.Enlarged ls ls') (hq : ∀ l ∈ ls, 0 ≤ l.qty)
    (h : List.Forall₂ (PlannedFrom cfg) ls legs) (h' : List.Forall₂ (PlannedFrom cfg) ls' legs') :
    List.Forall₂ (fun leg leg' => leg.qty ≤ leg'.qty) legs legs' := by
  induction hle generalizing legs legs' with
  | nil =>
    cases h
    cases h'
    exact .nil
  | cons hl _ ih =>
    obtain ⟨hq,hqs⟩ := List.forall_mem_cons.mp hq
    cases h with
    | cons hleg hlegs => cases h' with
      | cons hleg' hlegs' =>
        refine .cons ?_ (ih hqs hlegs hlegs')
        rw [hleg.qty, hleg'.qty, hl.symbol]
        exact plannedQty_mono hvalid _ hq hl.qty

end Quantities

theorem reconstructedStart_getD_ne_zero {op : Opportunity} (hq : ∀ l ∈ op.legs, 0 < l.qty)
    (hprice : op.impliedPrice ≠ 0) : (reconstructedStart op).getD 1 ≠ 0 := by
  unfold reconstructedStart
  cases hlegs : op.legs with
  | nil => exact one_ne_zero
  | cons l ls => exact mul_ne_zero (hq l (hlegs ▸ List.mem_cons_self)).ne' hprice

theorem withQtys_qty_pos {cfg : StrategyConfig} {ls : List LegEstimate} {legs : List OrderLeg}
    (h : List.Forall₂ (PlannedFrom cfg) ls legs) :
    ∀ l ∈ List.zipWith (fun l leg => ({ l with qty := leg.qty } : LegEstimate)) ls legs, 0 < l.qty := by
  induction h with
  | nil => exact fun _ hl => absurd hl List.not_mem_nil
  | cons hleg _ ih =>
    rw [List.zipWith_cons_cons, List.forall_mem_cons]
    exact ⟨hleg.qty_pos,ih⟩

theorem forall_mem_of_forall₂ {α β : Type*} {R : α → β → Prop} {P : β → Prop} {xs : List α} {ys : List β}
    (h : List.Forall₂ R xs ys) (hP : ∀ x ∈ xs, ∀ y, R x y → P y) : ∀ y ∈ ys, P y := by
  induction h with
  | nil => exact fun _ hy => absurd hy List.not_mem_nil
  | cons hxy _ ih =>
    obtain ⟨hx,hxs⟩ := List.forall_mem_cons.mp hP
    exact List.forall_mem_cons.mpr ⟨hx _ hxy,ih hxs⟩

/-- A plan is planned to itself, each leg is rounded down or raised to the minimum, and
larger quantities are planned to larger ones. -/
theorem planning_idempotent_monotone {cfg : StrategyConfig} (hvalid : cfg.validate = .ok ())
    {op : Opportunity} (hlegs : ∀ l ∈ op.legs, 0 < l.price ∧ 0 < l.qty) (hprice : op.impliedPrice ≠ 0)
    {id : String} {plan : TradePlan} (h : buildTradePlan id op cfg = some (.ok plan)) :
    (∀ id', ∃ plan', buildTradePlan id' (op.withQtys plan.legs) cfg = some (.ok plan') ∧
      plan'.legs = plan.legs) ∧
    List.Forall₂ (RoundedOrRaised cfg) op.legs plan.legs ∧
    ∀ (op' : Opportunity) (id' : String), op'.impliedPrice ≠ 0 →
      List.Forall₂ LegEstimate.Enlarged op.legs op'.legs →
        ∃ plan', buildTradePlan id' op' cfg = some (.ok plan') ∧
          List.Forall₂ (fun leg leg' => leg.qty ≤ leg'.qty) plan.legs plan'.legs := by
  have hvalid := (StrategyConfig.validate_iff cfg).mp hvalid
  have hplanned := (buildTradePlan_ok h).1
  have hqty : ∀ l ∈ op.legs, 0 ≤ l.qty := fun l hl => (hlegs l hl).2.le
  refine ⟨fun id' => ?_,?_,fun op' id' hprice' hlarger => ?_⟩
  · have hstart : (reconstructedStart (op.withQtys plan.legs)).getD 1 ≠ 0 :=
      reconstructedStart_getD_ne_zero (withQtys_qty_pos hplanned) hprice
    have hsame := planLegs_idem hvalid hqty (buildTradePlan_legs h).2
    exact ⟨_,buildTradePlan_eq_ok_iff.mpr ⟨plan.legs,hsame,hstart,rfl⟩,rfl⟩
  · exact ((List.forall₂_and_left _ _).mpr ⟨hqty,hplanned⟩).imp
      fun l leg hleg => roundedOrRaised_of_planned hvalid hleg.1 hleg.2
  · have haccepted : ∀ l' ∈ op'.legs, Accepted cfg l' :=
      forall_mem_of_forall₂ hlarger fun l hl l' hle =>
        accepted_mono hvalid (hlegs l hl).1.le (hqty l hl) hle (accepted_of_built h l hl)
    have hqty' : ∀ l' ∈ op'.legs, 0 < l'.qty :=
      forall_mem_of_forall₂ hlarger fun l hl l' hle => (hlegs l hl).2.trans_le hle.qty
    obtain ⟨plan',hplan'⟩ :=
      exists_plan_iff.mpr ⟨haccepted,reconstructedStart_getD_ne_zero hqty' hprice'⟩
    exact ⟨plan',hplan',planned_mono hvalid hlarger hqty hplanned (buildTradePlan_ok hplan').1⟩

theorem planning_idempotent_monotone_raised :
    buildTradePlan "p1" mispricedOpportunity (ethStepConfig 5) = some (.ok (ethStepPlan 5)) ∧
    ∃ plan, buildTradePlan "p2" (mispricedOpportunity.withQtys (ethStepPlan 5).legs) (ethStepConfig 5) =
      some (.ok plan) ∧ plan.legs = (ethStepPlan 5).legs := by
  have hbuild : buildTradePlan "p1" mispricedOpportunity (ethStepConfig 5) =
      some (.ok (ethStepPlan 5)) := by
    decide +kernel
  have hlegs : ∀ l ∈ mispricedOpportunity.legs, 0 < l.price ∧ 0 < l.qty := by
    norm_num [mispricedOpportunity]
  have hprice : mispricedOpportunity.impliedPrice ≠ 0 := by
    norm_num [mispricedOpportunity]
  exact ⟨hbuild,(planning_idempotent_monotone (by decide +kernel) hlegs hprice hbuild).1 "p2"⟩

end ArbCore
