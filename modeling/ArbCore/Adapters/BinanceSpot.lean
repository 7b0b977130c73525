import ArbCore.Orderbook.Types

/-! # Updates of the Binance adapter

The adapter turns depth responses and depth events into normalized updates. What
it takes from outside the repository is a parameter: the decimal parser with the
texts of its errors, and Unicode's table of uppercase mappings.
-/
namespace ArbCore

/-- Errors of the transports are left out; no modelled function makes one. -/
inductive AdapterError where
  | invalidData (message : String)
  | other (message : String)
deriving DecidableEq, Repr

structure OrderbookUpdate where
  symbol : String
  bids : List Level
  asks : List Level
  sequence : Option ℕ
  isSnapshot : Bool
deriving DecidableEq, Repr

structure BinanceDepthResponse where
  lastUpdateId : ℕ
  bids : List (String × String)
  asks : List (String × String)

structure BinanceDepthEvent where
  symbol : String
  finalUpdateId : ℕ
  bids : List (String × String)
  asks : List (String × String)

/-- `upper` lists the characters that a character becomes in upper case. -/
structure TextTables where
  parseDecimal : String → Except String Decimal
  upper : Char → List Char

namespace TextTables

def toUppercase (t : TextTables) (s : String) : String := String.ofList (s.toList.flatMap t.upper)

def parseLevel (t : TextTables) (p q : String) : Except AdapterError Level := do
  let price ← (t.parseDecimal p).mapError fun e => .invalidData s!"bad price {p}: {e}"
  let size ← (t.parseDecimal q).mapError fun e => .invalidData s!"bad qty {q}: {e}"
  .ok ⟨price,size⟩

def toUpdateFromDepth (t : TextTables) (symbol : String) (d : BinanceDepthResponse) :
    Except AdapterError OrderbookUpdate := do
  let bids ← d.bids.mapM fun l => t.parseLevel l.1 l.2
  let asks ← d.asks.mapM fun l => t.parseLevel l.1 l.2
  .ok ⟨t.toUppercase symbol,bids,asks,some d.lastUpdateId,true⟩

def toUpdateFromEvent (t : TextTables) (e : BinanceDepthEvent) :
    Except AdapterError OrderbookUpdate := do
  let bids ← e.bids.mapM fun l => t.parseLevel l.1 l.2
  let asks ← e.asks.mapM fun l => t.parseLevel l.1 l.2
  .ok ⟨t.toUppercase e.symbol,bids,asks,some e.finalUpdateId,false⟩

theorem toUpdateFromEvent_ok {t : TextTables} {e : BinanceDepthEvent} {update : OrderbookUpdate}
    (h : t.toUpdateFromEvent e = .ok update) :
    update.symbol = t.toUppercase e.symbol ∧ update.sequence = some e.finalUpdateId ∧
      update.isSnapshot = false := by
  unfold toUpdateFromEvent at h
  cases hbids : e.bids.mapM fun l => t.parseLevel l.1 l.2 with
  | error err => simp [hbids, bind, Except.bind] at h
  | ok bids =>
    cases hasks : e.asks.mapM fun l => t.parseLevel l.1 l.2 with
    | error err => simp [hbids, hasks, bind, Except.bind] at h
    | ok asks =>
      simp only [hbids, hasks, bind, Except.bind, Except.ok.injEq] at h
      subst h
      exact ⟨rfl,rfl,rfl⟩

end TextTables

end ArbCore
