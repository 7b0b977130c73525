import ArbCore.Adapters.BinanceSpot
import ArbCore.Marketdata.Manager

/-! # Snapshots from the Binance adapter

A snapshot is the answer to one request for the depth of a symbol. The HTTP client is a
parameter: what it makes of a URL, decoding the body included.
-/
namespace ArbCore

structure BinanceSpotAdapter where
  restBase : String
  wsBase : String

namespace BinanceSpotAdapter

def new : BinanceSpotAdapter := ⟨"https://api.binance.com","wss://stream.binance.com:9443/stream"⟩

def depthUrl (a : BinanceSpotAdapter) (t : TextTables) (symbol : String) (limit : ℕ) : String :=
  s!"{a.restBase}/api/v3/depth?symbol={t.toUppercase symbol}&limit={limit}"

/-- `lower` is `str::to_lowercase`. -/
def wsDepthUrl (a : BinanceSpotAdapter) (lower : String → String) (symbol : String) : String :=
  s!"{a.wsBase}?streams={lower symbol}@depth@100ms"

def getSnapshot (a : BinanceSpotAdapter) (t : TextTables)
    (http : String → Except AdapterError BinanceDepthResponse) (symbol : String) :
    Except AdapterError OrderbookUpdate := do
  let body ← http (a.depthUrl t symbol 100)
  t.toUpdateFromDepth symbol body

theorem getSnapshot_ok {a : BinanceSpotAdapter} {t : TextTables}
    {http : String → Except AdapterError BinanceDepthResponse}
    {symbol : String} {update : OrderbookUpdate} (h : a.getSnapshot t http symbol = .ok update) :
    ∃ body, http (a.depthUrl t symbol 100) = .ok body ∧ t.toUpdateFromDepth symbol body = .ok update := by
  unfold getSnapshot at h
  cases hhttp : http (a.depthUrl t symbol 100) with
  | error e =>
    rw [hhttp] at h
    cases h
  | ok body =>
    rw [hhttp] at h
    exact ⟨body,rfl,h⟩

end BinanceSpotAdapter

theorem TextTables.toUpdateFromDepth_ok {t : TextTables} {symbol : String} {d : BinanceDepthResponse}
    {update : OrderbookUpdate} (h : t.toUpdateFromDepth symbol d = .ok update) :
    (d.bids.mapM fun l => t.parseLevel l.1 l.2) = .ok update.bids ∧
      (d.asks.mapM fun l => t.parseLevel l.1 l.2) = .ok update.asks ∧
      update.symbol = t.toUppercase symbol ∧ update.sequence = some d.lastUpdateId ∧ update.isSnapshot = true := by
  unfold toUpdateFromDepth at h
  cases hbids : d.bids.mapM fun l => t.parseLevel l.1 l.2 with
  | error err => simp [hbids, bind, Except.bind] at h
  | ok bids =>
    cases hasks : d.asks.mapM fun l => t.parseLevel l.1 l.2 with
    | error err => simp [hbids, hasks, bind, Except.bind] at h
    | ok asks =>
      simp only [hbids, hasks, bind, Except.bind, Except.ok.injEq] at h
      subst h
      exact ⟨rfl,rfl,rfl,rfl,rfl⟩

end ArbCore
