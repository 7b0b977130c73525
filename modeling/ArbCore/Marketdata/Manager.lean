import ArbCore.Orderbook.OrderBook

/-! # The per-symbol worker

One worker owns the book of a symbol and handles its messages one by one, so
its state is a function of the messages and of what the outside answers while
each of them is handled: the instant and the reply of the snapshot provider.
-/
namespace ArbCore

inductive MarketDataError where
  | parse (message : String)
  | other (message : String)

inductive SymbolMessage where
  | snapshot (snap : OrderbookSnapshot)
  | delta (delta : OrderbookDelta)

structure SymbolWorkerConfig where
  maxBufferedDeltas : ℕ
  maxAcceptableSequenceGap : ℕ

def SymbolWorkerConfig.default : SymbolWorkerConfig := ⟨5000,1000⟩

/-- `provider` is what the registered provider would answer, `none` without one. -/
structure WorkerEnv where
  provider : Option (Except MarketDataError OrderbookSnapshot)
  now : Instant

def fetchSnapshotFor (provider : Option (Except MarketDataError OrderbookSnapshot)) :
    Option OrderbookSnapshot :=
  match provider with
  | some (.ok snap) => some snap
  | some (.error _) => none
  | none => none

structure SymbolWorker where
  book : OrderBook
  buffered : List OrderbookDelta
  snapshotApplied : Bool

namespace SymbolWorker

/-- The proactive fetch before the message loop. -/
def start (symbol : String) (env : WorkerEnv) : SymbolWorker :=
  match fetchSnapshotFor env.provider with
  | some snap =>
    match (OrderBook.new symbol).applySnapshot snap env.now with
    | (.ok _,book) => ⟨book,[],true⟩
    | (.error _,book) => ⟨book,[],false⟩
  | none => ⟨OrderBook.new symbol,[],false⟩

def receive (cfg : SymbolWorkerConfig) (w : SymbolWorker) (msg : SymbolMessage) (env : WorkerEnv) :
    SymbolWorker :=
  match msg with
  | .snapshot snap =>
    match w.book.applySnapshot snap env.now with
    | (.ok _,book) => ⟨book,[],true⟩
    | (.error _,book) => ⟨book,[],w.snapshotApplied⟩
  | .delta delta =>
    if w.snapshotApplied = false then
      if w.buffered.length ≥ cfg.maxBufferedDeltas then
        -- the delta that overflows the buffer is dropped with it
        match fetchSnapshotFor env.provider with
        | some newSnap =>
          match w.book.applySnapshot newSnap env.now with
          | (.ok _,book) => ⟨book,[],true⟩
          | (.error _,book) => ⟨book,[],w.snapshotApplied⟩
        | none => ⟨w.book,[],w.snapshotApplied⟩
      else ⟨w.book,w.buffered ++ [delta],w.snapshotApplied⟩
    else
      match w.book.applyDeltaWithGapTolerance delta cfg.maxAcceptableSequenceGap env.now with
      | (.ok _,book) => ⟨book,w.buffered,w.snapshotApplied⟩
      | (.error _,book) =>
        match fetchSnapshotFor env.provider with
        | some newSnap => ⟨(book.applySnapshot newSnap env.now).2,w.buffered,w.snapshotApplied⟩
        | none => ⟨{ book with resyncRequired := true },w.buffered,w.snapshotApplied⟩

end SymbolWorker

def perSymbolWorker (cfg : SymbolWorkerConfig) (symbol : String) (first : WorkerEnv)
    (inputs : List (SymbolMessage × WorkerEnv)) : SymbolWorker :=
  inputs.foldl (fun w i => w.receive cfg i.1 i.2) (SymbolWorker.start symbol first)

end ArbCore
