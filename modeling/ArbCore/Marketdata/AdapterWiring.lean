import ArbCore.Adapters.BinanceSpot
import ArbCore.Marketdata.Manager
import ArbCore.Marketdata.Registry

/-! # Wiring an adapter to the manager

The wiring registers the symbols as they are given and then forwards the updates of
the adapter, each under the symbol it carries. A delta claims the sequence number
before its own as its predecessor, whatever range of update ids it covers; the
subtraction saturates at zero.
-/
namespace ArbCore

def mapAdapterUpdateToMessage (update : OrderbookUpdate) : Except String (String × SymbolMessage) :=
  if update.isSnapshot then
    .ok (update.symbol,.snapshot ⟨update.symbol,update.bids,update.asks,update.sequence,none⟩)
  else
    .ok (update.symbol,.delta ⟨update.symbol,update.bids,update.asks,
      update.sequence.map (· - 1),update.sequence,none⟩)

theorem mapAdapterUpdateToMessage_ok (update : OrderbookUpdate) :
    ∃ msg, mapAdapterUpdateToMessage update = .ok (update.symbol,msg) := by
  unfold mapAdapterUpdateToMessage
  split
  · exact ⟨_,rfl⟩
  · exact ⟨_,rfl⟩

theorem mapAdapterUpdateToMessage_delta {update : OrderbookUpdate} {sym : String}
    {d : OrderbookDelta} (h : mapAdapterUpdateToMessage update = .ok (sym,.delta d)) :
    d.prevSequence = update.sequence.map (· - 1) ∧ d.sequence = update.sequence := by
  unfold mapAdapterUpdateToMessage at h
  split at h
  · cases h
  · cases h
    exact ⟨rfl,rfl⟩

namespace Registry
variable {P : Type}

/-- The registrations, one after the other. The closure of the provider is the same
for all symbols and takes the symbol as its argument. -/
def wireAdapterToManager (r : Registry P) (snapshotFn : P) (symbols : List String) : Registry P :=
  symbols.foldl (fun r sym => (r.ensureSymbolWithSnapshotProvider sym (some snapshotFn)).1) r

end Registry

structure SymbolSend where
  sym : String
  tx : Channel
  msg : SymbolMessage

/-- What the forwarder sends for an update, `none` where it drops it with a warning. -/
def Registry.forward {P : Type} (r : Registry P) (update : OrderbookUpdate) : Option SymbolSend :=
  match mapAdapterUpdateToMessage update with
  | .ok (sym,msg) => (r.senders.lookup sym).map fun tx => ⟨sym,tx,msg⟩
  | .error _ => none

theorem Registry.forward_eq {P : Type} (r : Registry P) (update : OrderbookUpdate) :
    ∃ msg, mapAdapterUpdateToMessage update = .ok (update.symbol,msg) ∧
      r.forward update = (r.senders.lookup update.symbol).map fun tx => ⟨update.symbol,tx,msg⟩ := by
  obtain ⟨msg,hmsg⟩ := mapAdapterUpdateToMessage_ok update
  exact ⟨msg,hmsg,by rw [forward, hmsg]⟩

end ArbCore
