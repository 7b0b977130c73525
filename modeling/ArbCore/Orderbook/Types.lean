import Mathlib

/-! # Shared types and order book data

Decimals are exact rationals and compare by value, as `Decimal` keys do in a
`BTreeMap`. An `Instant` counts nanoseconds of the monotonic clock.
-/
namespace ArbCore

abbrev Decimal := ℚ
abbrev Instant := ℕ

/-- A `HashMap` keyed by strings, with its entries in iteration order. -/
abbrev HashMap (V : Type) := AList fun _ : String => V

/-- Whole milliseconds from `earlier` to `now`; the difference saturates at zero. -/
def Instant.millisSince (now earlier : Instant) : ℕ := (now - earlier) / 1000000

inductive Side where
  | bid
  | ask
deriving DecidableEq, Repr

structure Level where
  price : Decimal
  size : Decimal
deriving DecidableEq, Repr

structure OrderbookSnapshot where
  symbol : String
  bids : List Level
  asks : List Level
  sequence : Option ℕ
  ts : Option ℕ
deriving DecidableEq, Repr

structure OrderbookDelta where
  symbol : String
  bids : List Level
  asks : List Level
  prevSequence : Option ℕ
  sequence : Option ℕ
  ts : Option ℕ
deriving DecidableEq, Repr

structure EstimatedFill where
  avgPrice : Decimal
  totalQty : Decimal
  totalNotional : Decimal
deriving DecidableEq, Repr

inductive OrderBookError where
  | sequenceError (expected got : ℕ)
  | insufficientDepth
  | invalidArgument (message : String)
  | resyncRequired
  | internal (message : String)
deriving DecidableEq, Repr

def OrderbookSnapshot.levels (s : OrderbookSnapshot) : Side → List Level
  | .bid => s.bids
  | .ask => s.asks

def OrderbookDelta.levels (d : OrderbookDelta) : Side → List Level
  | .bid => d.bids
  | .ask => d.asks

end ArbCore
