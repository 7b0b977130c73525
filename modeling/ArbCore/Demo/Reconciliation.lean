import ArbCore.Demo.Gains
import ArbCore.Strategy.NotionalLimit
import ArbCore.Stroage.TradeRepo

/-! # Reconciling the table with the plans

Whoever lists the fills of an executed plan finds the full fills of its legs, in any state
and whatever the table held before, and they add up to what the plan was to gain.
-/
namespace ArbCore
open LabelledRun ConversionChain TradeRepo

namespace TradingLoop
variable {cfg : StrategyConfig} {V : Set TriView} {s : TradingLoop}
variable {A : Type*} [DecidableEq A] {market : String → Market A} {currency : A}

theorem Rows.notional (hs : s.Rows) : ∀ fill ∈ s.engine.fills, fill.notional = fill.qty * fill.price := by
  intro fill hfill
  obtain ⟨plan,-,leg,report,-,-,rfl⟩ := hs.rows fill hfill
  rfl

/-- In aggressive mode, when no insert fails and the plan is new to the table, every answer
about an executed plan consists of the full fills of its legs and adds up to its net gain.
With what the lot rules took off nothing but the estimated profit is left, and a clock that
moves on between inserts gives the legs in their order. -/
theorem fills_reconcile (hcfg : cfg.aggression = .aggressive) (hpos : ∀ view ∈ V, view.PositiveBest)
    (hquoted : ∀ view ∈ V, view.QuotedIn market currency) {events : List TradingEvent}
    (hviews : ∀ ev ∈ events, ev.FromViews V) (hinserts : ∀ ev ∈ events, ev.Inserts)
    (hrun : run (step cfg true) new events = some s) (old : TradeRepo)
    (hold : ∀ row ∈ old.rows, ∀ plan ∈ s.engine.execTx, row.fill.planId ≠ plan.id) (ids : ℕ → String) (clock : ℕ → ℕ)
    {plan : TradePlan} (hplan : plan ∈ s.engine.execTx) (hexecuted : s.Executed plan) {answer : List FillRow}
    (hanswer : (old.insertFills ids clock s.engine.fills).ListFillsForPlan plan.id answer) :
    (answer.map FillRow.fill).Perm (plan.legs.map plan.fillRow) ∧
      (answer.map fun row => row.fill.change market cfg.feeMap).sum currency = plan.netGain cfg.feeMap ∧
      (answer.map fun row => row.fill.change market cfg.feeMap).sum + plan.cutChange market cfg.feeMap =
        Pi.single currency plan.estimatedProfit ∧
      (StrictMono clock → old.rows.Pairwise (fun a b => a.createdAt < b.createdAt) →
        (∀ row ∈ old.rows, row.createdAt < clock 0) → answer.map FillRow.fill = plan.legs.map plan.fillRow) := by
  obtain ⟨hc,hserved⟩ := served_run hrun
  have hnotional := (rows_run hrun).notional
  have hrows : rowsOf plan.id s.engine.fills = plan.legs.map plan.fillRow :=
    (full_run hcfg hinserts hrun).rowsOf_executed hc hserved hcfg (Engine.mem_registeredPlans_of_sent hplan)
      hexecuted
  have hfills := fills_of_new_plan (fun row hrow => hold row hrow plan hplan) ids clock hnotional
  rw [← rowsOf, hrows] at hfills
  have hperm : (answer.map FillRow.fill).Perm (plan.legs.map plan.fillRow) := hfills ▸ hanswer.1.map _
  have hsum : (answer.map fun row => row.fill.change market cfg.feeMap).sum = plan.change market cfg.feeMap := by
    rw [← change_rows, ← (hperm.map _).sum_eq, List.map_map]
    rfl
  obtain ⟨hcurrency,hprofit,-⟩ := change_of_sourced hpos hquoted (sourced_run hviews hrun) hplan
  refine ⟨hperm,hsum ▸ hcurrency,hsum ▸ hprofit,fun hclock hsorted hbefore => ?_⟩
  rw [hanswer.eq_filter (insertFills_increasing hsorted ids hclock hbefore hnotional), hfills]

def usedRepo : TradeRepo := ⟨[⟨"r0",⟨"p0",0,"BTCUSDT","buy",1,50000,50000,"filled","binance"⟩,0⟩]⟩

theorem fills_reconcile_tradeOne :
    ∃ s, run (step plainConfig true) new tradeOne = some s ∧ s.engine.fills.length = 3 ∧
      ∀ answer, (usedRepo.insertFills (fun _ => "r") (· + 1) s.engine.fills).ListFillsForPlan "p1" answer →
        (answer.map fun row => row.fill.change spotMarket ∅).sum "USDT" = mispricedPlan.netGain ∅ := by
  have hrun : run (step plainConfig true) new tradeOne =
      some ((run (step plainConfig true) new tradeOne).get (by decide +kernel)) := (Option.some_get _).symm
  have hviews : ∀ ev ∈ tradeOne, ev.FromViews {mispricedView} := by
    simp [tradeOne, planOne, fillOne, reportOne, submitOne, TradingEvent.FromViews, EngineEvent.FromViews]
  have hinserts : ∀ ev ∈ tradeOne, ev.Inserts := by
    simp [tradeOne, planOne, fillOne, reportOne, submitOne, TradingEvent.Inserts, EngineEvent.Inserts]
  have hpos := fun view hview => (mispricedView_quoted view hview).1
  have hquoted := fun view hview => (mispricedView_quoted view hview).2
  refine ⟨_,hrun,by decide +kernel,fun answer hanswer => ?_⟩
  have hplan : mispricedPlan ∈ ((run (step plainConfig true) new tradeOne).get (by decide +kernel)).engine.execTx := by
    decide +kernel
  exact (fills_reconcile rfl hpos hquoted hviews hinserts hrun usedRepo (by decide +kernel)
    (fun _ => "r") (· + 1) hplan (by decide +kernel) hanswer).2.1

end TradingLoop

end ArbCore
