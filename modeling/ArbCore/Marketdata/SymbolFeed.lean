import ArbCore.Library.LabelledRun
import ArbCore.Marketdata.AdapterWiring

/-! # One worker and its channel

What a symbol amounts to on its own: messages join a queue, and the worker takes them
from its front, woken with answers of its provider.
-/
namespace ArbCore
open LabelledRun

def OrderbookUpdate.message? (update : OrderbookUpdate) : Option SymbolMessage :=
  match mapAdapterUpdateToMessage update with
  | .ok (_,msg) => some msg
  | .error _ => none

structure SymbolFeed where
  received : List SymbolMessage
  waiting : List SymbolMessage
  task : Option SymbolWorker

inductive FeedEvent where
  | message (msg : SymbolMessage)
  | wake (env : WorkerEnv)

def FeedEvent.message? : FeedEvent → Option SymbolMessage
  | .message msg => some msg
  | .wake _ => none

namespace SymbolFeed

def step (cfg : SymbolWorkerConfig) (symbol : String) (f : SymbolFeed) : FeedEvent → Option SymbolFeed
  | .message msg => some { f with waiting := f.waiting ++ [msg] }
  | .wake env => match f.task, f.waiting with
    | none, _ => some { f with task := some (.start symbol env) }
    | some w, msg :: rest => some ⟨f.received ++ [msg],rest,some (w.receive cfg msg env)⟩
    | some _, [] => none

variable {cfg : SymbolWorkerConfig} {symbol : String} {f g : SymbolFeed} {ev : FeedEvent}

theorem messages_step (h : f.step cfg symbol ev = some g) :
    g.received ++ g.waiting = f.received ++ f.waiting ++ ev.message?.toList := by
  cases ev with
  | message msg =>
    cases h
    simp [FeedEvent.message?]
  | wake env =>
    simp only [step] at h
    split at h
    · cases h
      simp [FeedEvent.message?]
    · rename_i hwaiting
      cases h
      simp [FeedEvent.message?, hwaiting]
    · cases h

/-- The messages are queued in the order of the events, none lost and none doubled. -/
theorem messages_run {events : List FeedEvent} (h : run (step cfg symbol) f events = some g) :
    g.received ++ g.waiting = f.received ++ f.waiting ++ events.filterMap FeedEvent.message? := by
  induction events generalizing f with
  | nil =>
    cases h
    simp
  | cons ev events ih =>
    obtain ⟨v,hv,hrest⟩ := run_cons_eq_some.mp h
    rw [ih hrest, messages_step hv, List.append_assoc]
    cases hmsg : ev.message? with
    | none => simp [List.filterMap_cons_none hmsg]
    | some msg => simp [List.filterMap_cons_some hmsg]

end SymbolFeed

end ArbCore
