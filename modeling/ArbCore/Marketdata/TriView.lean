import ArbCore.Orderbook.Types

/-! # Views of three books -/
namespace ArbCore

/-- Levels are pairs of price and size, best first. -/
structure TriView where
  symAb : String
  bidsAb : List (Decimal × Decimal)
  asksAb : List (Decimal × Decimal)
  symBc : String
  bidsBc : List (Decimal × Decimal)
  asksBc : List (Decimal × Decimal)
  symAc : String
  bidsAc : List (Decimal × Decimal)
  asksAc : List (Decimal × Decimal)
deriving DecidableEq

namespace TriView

structure PositiveBest (v : TriView) : Prop where
  bidsAb : ∀ l ∈ v.bidsAb.head?, 0 < l.1
  asksAb : ∀ l ∈ v.asksAb.head?, 0 < l.1
  bidsBc : ∀ l ∈ v.bidsBc.head?, 0 < l.1
  asksBc : ∀ l ∈ v.asksBc.head?, 0 < l.1
  bidsAc : ∀ l ∈ v.bidsAc.head?, 0 < l.1
  asksAc : ∀ l ∈ v.asksAc.head?, 0 < l.1

end TriView

def takeTop (levels : List Level) (topN : ℕ) : List (Decimal × Decimal) :=
  (levels.take topN).map fun lvl => (lvl.price,lvl.size)

def buildTriviewFromSnapshots (symAb : String) (snapAb : OrderbookSnapshot) (symBc : String)
    (snapBc : OrderbookSnapshot) (symAc : String) (snapAc : OrderbookSnapshot) (topN : ℕ) : TriView where
  symAb := symAb
  bidsAb := takeTop snapAb.bids topN
  asksAb := takeTop snapAb.asks topN
  symBc := symBc
  bidsBc := takeTop snapBc.bids topN
  asksBc := takeTop snapBc.asks topN
  symAc := symAc
  bidsAc := takeTop snapAc.bids topN
  asksAc := takeTop snapAc.asks topN

end ArbCore
