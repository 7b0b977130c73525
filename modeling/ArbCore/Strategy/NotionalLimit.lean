import ArbCore.Strategy.AcceptedLegs

/-! # The notional limit

The limit is configured and read nowhere: every plan starts from the fixed start
amount, changed only by the rounding of its first leg.
-/
namespace ArbCore
open LabelledRun Engine DecimalArithmetic

section Computed
variable [DecimalOps]

section First
variable {cfg : StrategyConfig} {r : Route} {id : String} {plan : TradePlan}

end First

section Runs
variable {cfg : StrategyConfig} {V : Set TriView} {storage : Bool}
  (hsteady : ∀ e why, Reaches (step cfg storage) (EngineEvent.FromViews V) new e → ¬ e.Panics cfg why)
include hsteady

end Runs

end Computed

def mispricedPlan : TradePlan :=
  ⟨"p1","USDT",400,25000/13,[⟨"BTCUSDT",true,50000,1/5,true,0⟩,⟨"ETHBTC",true,1/20,4,true,1⟩,
    ⟨"ETHUSDT",false,2600,4,true,2⟩]⟩

end ArbCore
