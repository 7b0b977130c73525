import ArbCore.Library.DecimalArithmetic
import ArbCore.Marketdata.TriView
import ArbCore.Strategy.Config

/-! # Detection of triangular opportunities

Each operation takes the arithmetic of the decimals, which may round and panic, as an
instance. Without one in scope it is exact and only a zero divisor panics. Log output is
left out.
-/
namespace ArbCore
open DecimalArithmetic

/-- `rust_decimal`: a coefficient of 96 bits and at most 28 decimal places. -/
abbrev rustDecimal : DecimalOps := ⟨fun x => fitDecimal (2 ^ 96 - 1) x 28⟩

instance (priority := low) exactDecimal : DecimalOps := exact

structure LegEstimate where
  symbol : String
  sideBuy : Bool
  price : Decimal
  qty : Decimal
deriving DecidableEq

structure Opportunity where
  startCurrency : String
  estimatedProfit : Decimal
  impliedPrice : Decimal
  legs : List LegEstimate
deriving DecidableEq

def startAmount : Decimal := 10000

namespace Checked
variable [DecimalOps]

/-- Buy at the ask of `ab`, buy at the ask of `ac`, sell at the bid of `bc`. -/
def detectCycle1 (view : TriView) (feeAb feeBc feeAc minProfitAbs : Decimal) :
    Except Panic (List Opportunity) :=
  match view.asksAb.head?, view.bidsBc.head?, view.asksAc.head? with
  | some (askAb,_), some (bidBc,_), some (askAc,_) => do
    let btcAmount ← mul (← div startAmount askAb) (← sub 1 feeAb)
    let ethAmount ← mul (← div btcAmount askAc) (← sub 1 feeAc)
    let finalUsdt ← mul (← mul ethAmount bidBc) (← sub 1 feeBc)
    let profit1 ← sub finalUsdt startAmount
    let _profitPct1 ← mul (← div profit1 startAmount) 100
    if minProfitAbs < profit1 then
      let impliedPrice ← div bidBc (← mul askAb askAc)
      let qtyAb ← div startAmount askAb
      let qtyAc ← div btcAmount askAc
      return [{
        startCurrency := "USDT"
        estimatedProfit := profit1
        impliedPrice := impliedPrice
        legs := [⟨view.symAb,true,askAb,qtyAb⟩, ⟨view.symAc,true,askAc,qtyAc⟩,
          ⟨view.symBc,false,bidBc,ethAmount⟩] }]
    else return []
  | _, _, _ => return []

/-- Buy at the ask of `bc`, sell at the bid of `ac`, sell at the bid of `ab`. -/
def detectCycle2 (view : TriView) (feeAb feeBc feeAc minProfitAbs : Decimal) :
    Except Panic (List Opportunity) :=
  match view.asksBc.head?, view.bidsAc.head?, view.bidsAb.head? with
  | some (askBc,_), some (bidAc,_), some (bidAb,_) => do
    let ethAmount ← mul (← div startAmount askBc) (← sub 1 feeBc)
    let btcAmount ← mul (← mul ethAmount bidAc) (← sub 1 feeAc)
    let finalUsdt ← mul (← mul btcAmount bidAb) (← sub 1 feeAb)
    let profit2 ← sub finalUsdt startAmount
    let _profitPct2 ← mul (← div profit2 startAmount) 100
    if minProfitAbs < profit2 then
      let impliedPrice ← div (← mul bidAb bidAc) askBc
      let qtyBc ← div startAmount askBc
      return [{
        startCurrency := "USDT"
        estimatedProfit := profit2
        impliedPrice := impliedPrice
        legs := [⟨view.symBc,true,askBc,qtyBc⟩, ⟨view.symAc,false,bidAc,ethAmount⟩,
          ⟨view.symAb,false,bidAb,btcAmount⟩] }]
    else return []
  | _, _, _ => return []

def detectTriangularOpportunities (view : TriView) (feeMap : HashMap FeeInfo)
    (minProfitAbs : Decimal) : Except Panic (List Opportunity) := do
  let feeAb := takerFee feeMap view.symAb
  let feeBc := takerFee feeMap view.symBc
  let feeAc := takerFee feeMap view.symAc
  let out1 ← detectCycle1 view feeAb feeBc feeAc minProfitAbs
  let out2 ← detectCycle2 view feeAb feeBc feeAc minProfitAbs
  return out1 ++ out2

end Checked

section Outcomes
variable [DecimalOps] (view : TriView) (feeAb feeBc feeAc minProfitAbs : Decimal)

def detectCycle1 : Option (List Opportunity) :=
  (Checked.detectCycle1 view feeAb feeBc feeAc minProfitAbs).toOption

def detectCycle2 : Option (List Opportunity) :=
  (Checked.detectCycle2 view feeAb feeBc feeAc minProfitAbs).toOption

def detectTriangularOpportunities (feeMap : HashMap FeeInfo) (minProfitAbs : Decimal) :
    Option (List Opportunity) :=
  (Checked.detectTriangularOpportunities view feeMap minProfitAbs).toOption

end Outcomes

end ArbCore
