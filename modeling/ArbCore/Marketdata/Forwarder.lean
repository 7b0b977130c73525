import ArbCore.Marketdata.AdapterWiring

/-! # The forwarder and the workers

One forwarder takes the updates of the adapter in the order of their arrival and
awaits room in a channel before it takes the next one. Every spawned worker fetches
its first snapshot and then takes the messages of its channel one by one. Steps of the
registry may come in between. Channels are queues that lose nothing; `received` is what
the worker of a channel took from it so far.

A fetch is one step: the lock of the provider map that it holds until the provider answers is
left out. A fetch that never returns is a wake that never comes, so what holds of every run holds
there too; that the system comes to rest is under the assumption that every fetch returns.
-/
namespace ArbCore

structure MarketData (P : Type) where
  registry : Registry P
  sending : Option SymbolSend
  queues : Channel → List SymbolMessage
  received : Channel → List SymbolMessage
  tasks : Channel → Option SymbolWorker

/-- A worker that wakes is given what each provider answers to its symbol, if it is asked: a
snapshot or an error, but an answer. -/
inductive MarketEvent (P : Type) where
  | registry (ev : RegistryEvent P)
  | forward (update : OrderbookUpdate)
  | send (sym : String)
  | wake (symbol : String) (tx : Channel) (answers : P → Except MarketDataError OrderbookSnapshot)
      (now : Instant)

def channelCapacity : ℕ := 2048

namespace MarketData
variable {P : Type} {cfg : SymbolWorkerConfig} {m t : MarketData P}

def new : MarketData P := ⟨.new,none,fun _ => [],fun _ => [],fun _ => none⟩

def enqueue (m : MarketData P) (x : SymbolSend) : MarketData P :=
  { m with sending := none, queues := Function.update m.queues x.tx (m.queues x.tx ++ [x.msg]) }

def startTask (m : MarketData P) (symbol : String) (tx : Channel) (env : WorkerEnv) : MarketData P :=
  { m with tasks := Function.update m.tasks tx (some (.start symbol env)) }

def takeMessage (cfg : SymbolWorkerConfig) (m : MarketData P) (tx : Channel) (w : SymbolWorker)
    (msg : SymbolMessage) (rest : List SymbolMessage) (env : WorkerEnv) : MarketData P :=
  { m with
    queues := Function.update m.queues tx rest
    received := Function.update m.received tx (m.received tx ++ [msg])
    tasks := Function.update m.tasks tx (some (w.receive cfg msg env)) }

/-- What the worker of a symbol finds in the provider map when it wakes. -/
def workerEnv (m : MarketData P) (symbol : String)
    (answers : P → Except MarketDataError OrderbookSnapshot) (now : Instant) : WorkerEnv :=
  ⟨(m.registry.providers.lookup symbol).map answers,now⟩

def step (cfg : SymbolWorkerConfig) (m : MarketData P) : MarketEvent P → Option (MarketData P)
  | .registry ev => (m.registry.step ev).map fun r => { m with registry := r }
  | .forward update => match m.sending with
    | none => some { m with sending := m.registry.forward update }
    | some _ => none
  | .send sym => match m.sending with
    | some x => if x.sym = sym ∧ (m.queues x.tx).length < channelCapacity then some (m.enqueue x) else none
    | none => none
  | .wake symbol tx answers now =>
    if (symbol,tx) ∈ m.registry.workers then
      match m.tasks tx, m.queues tx with
      | none, _ => some (m.startTask symbol tx (m.workerEnv symbol answers now))
      | some w, msg :: rest => some (m.takeMessage cfg tx w msg rest (m.workerEnv symbol answers now))
      | some _, [] => none
    else none

inductive Move (cfg : SymbolWorkerConfig) (m : MarketData P) : MarketEvent P → MarketData P → Prop
  | registry {ev : RegistryEvent P} {r : Registry P} (hmove : Registry.Move m.registry ev r) :
      Move cfg m (.registry ev) { m with registry := r }
  | forward (update : OrderbookUpdate) (hidle : m.sending = none) :
      Move cfg m (.forward update) { m with sending := m.registry.forward update }
  | send {x : SymbolSend} (hsending : m.sending = some x)
      (hroom : (m.queues x.tx).length < channelCapacity) :
      Move cfg m (.send x.sym) (m.enqueue x)
  | started {symbol : String} {tx : Channel} (answers : P → Except MarketDataError OrderbookSnapshot)
      (now : Instant) (hworker : (symbol,tx) ∈ m.registry.workers) (htask : m.tasks tx = none) :
      Move cfg m (.wake symbol tx answers now) (m.startTask symbol tx (m.workerEnv symbol answers now))
  | took {symbol : String} {tx : Channel} {w : SymbolWorker} {msg : SymbolMessage}
      {rest : List SymbolMessage} (answers : P → Except MarketDataError OrderbookSnapshot)
      (now : Instant) (hworker : (symbol,tx) ∈ m.registry.workers) (htask : m.tasks tx = some w)
      (hqueue : m.queues tx = msg :: rest) :
      Move cfg m (.wake symbol tx answers now)
        (m.takeMessage cfg tx w msg rest (m.workerEnv symbol answers now))

theorem step_move {ev : MarketEvent P} (h : m.step cfg ev = some t) : Move cfg m ev t := by
  cases ev with
  | registry ev =>
    obtain ⟨r,hr,rfl⟩ := Option.map_eq_some_iff.mp h
    exact .registry (Registry.step_move hr)
  | forward update =>
    simp only [step] at h
    split at h
    · rename_i hidle
      exact Option.some.inj h ▸ .forward update hidle
    · cases h
  | send sym =>
    simp only [step] at h
    split at h
    · rename_i x hsending
      split_ifs at h with hsend
      obtain ⟨rfl,hroom⟩ := hsend
      exact Option.some.inj h ▸ .send hsending hroom
    · cases h
  | wake symbol tx answers now =>
    simp only [step] at h
    split_ifs at h with hworker
    split at h
    · rename_i htask
      exact Option.some.inj h ▸ .started answers now hworker htask
    · rename_i htask hqueue
      exact Option.some.inj h ▸ .took answers now hworker htask hqueue
    · cases h

end MarketData

end ArbCore
