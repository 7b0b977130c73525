import ArbCore.Marketdata.ChannelOwnership
import ArbCore.Marketdata.ExchangeHistory
import ArbCore.Marketdata.Forwarder

/-! # What a worker of the system computes

Whatever else happens, the worker of a channel is the worker function applied to the
messages that it took from the channel.
-/
namespace ArbCore
open LabelledRun

theorem perSymbolWorker_concat (cfg : SymbolWorkerConfig) (symbol : String) (first : WorkerEnv)
    (inputs : List (SymbolMessage × WorkerEnv)) (i : SymbolMessage × WorkerEnv) :
    perSymbolWorker cfg symbol first (inputs ++ [i]) =
      (perSymbolWorker cfg symbol first inputs).receive cfg i.1 i.2 := List.foldl_concat _ _ _ _

namespace MarketData
variable {P : Type} {cfg : SymbolWorkerConfig} {Q₀ Q : String → WorkerEnv → Prop} {m t : MarketData P}
  {ev : MarketEvent P}
  {symbol : String} {tx : Channel}

/-- A worker that wakes is answered as `Q` allows for its symbol, and one that starts as `Q₀` does. -/
def AnsweredBy (Q₀ Q : String → WorkerEnv → Prop) (m : MarketData P) : MarketEvent P → Prop
  | .wake symbol tx answers now => Q symbol (m.workerEnv symbol answers now) ∧
      (m.tasks tx = none → Q₀ symbol (m.workerEnv symbol answers now))
  | _ => True

def Computes (cfg : SymbolWorkerConfig) (Q₀ Q : String → WorkerEnv → Prop) (m : MarketData P) (symbol : String)
    (tx : Channel) : Prop :=
  ∃ first inputs, Q₀ symbol first ∧ (∀ i ∈ inputs, Q symbol i.2) ∧ inputs.map Prod.fst = m.received tx ∧
    m.tasks tx = some (perSymbolWorker cfg symbol first inputs)

def Working (cfg : SymbolWorkerConfig) (Q₀ Q : String → WorkerEnv → Prop) (m : MarketData P) : Prop :=
  ∀ tx, (m.tasks tx = none ∧ m.received tx = []) ∨
    ∃ symbol, (symbol,tx) ∈ m.registry.workers ∧ m.Computes cfg Q₀ Q symbol tx

theorem working_new : (new : MarketData P).Working cfg Q₀ Q := fun _ => .inl ⟨rfl,rfl⟩

theorem workers_mono {r r' : Registry P} {ev : RegistryEvent P} (h : Registry.Move r ev r') :
    r.workers ⊆ r'.workers := by
  cases h with
  | spawned _ => exact List.subset_append_left _ _
  | _ => exact List.Subset.refl _

theorem Working.update (hm : m.Working cfg Q₀ Q) (hworkers : m.registry.workers ⊆ t.registry.workers)
    (hother : ∀ tx', tx' ≠ tx → t.tasks tx' = m.tasks tx' ∧ t.received tx' = m.received tx')
    (hworker : (symbol,tx) ∈ t.registry.workers) (htx : t.Computes cfg Q₀ Q symbol tx) : t.Working cfg Q₀ Q := by
  intro tx'
  by_cases heq : tx' = tx
  · exact .inr ⟨symbol,heq ▸ hworker,heq ▸ htx⟩
  · obtain ⟨htasks,hreceived⟩ := hother tx' heq
    rcases hm tx' with ⟨hnone,hempty⟩ | ⟨symbol',hmem,hcomputes⟩
    · exact .inl ⟨htasks.trans hnone,hreceived.trans hempty⟩
    · refine .inr ⟨symbol',hworkers hmem,?_⟩
      rw [Computes, htasks, hreceived]
      exact hcomputes

theorem Working.move (hm : m.Working cfg Q₀ Q) (howned : m.registry.Owned) (hmove : Move cfg m ev t)
    (hev : AnsweredBy Q₀ Q m ev) : t.Working cfg Q₀ Q := by
  cases hmove with
  | registry hmove =>
    intro tx
    rcases hm tx with hidle | ⟨symbol,hmem,hcomputes⟩
    · exact .inl hidle
    · exact .inr ⟨symbol,workers_mono hmove hmem,hcomputes⟩
  | forward update hidle => exact hm
  | send hsending hroom => exact hm
  | @started symbol tx answers now hworker htask =>
    refine hm.update (List.Subset.refl _) (fun tx' hne => ⟨Function.update_of_ne hne _ _,rfl⟩) hworker ?_
    rcases hm tx with ⟨-,hempty⟩ | ⟨symbol',-,_,_,-,-,-,hsome⟩
    · exact ⟨_,[],hev.2 htask,(fun _ hi => by cases hi),hempty.symm,Function.update_self _ _ _⟩
    · cases htask.symm.trans hsome
  | @took symbol tx w msg rest answers now hworker htask hqueue =>
    refine hm.update (List.Subset.refl _) (fun tx' hne => ⟨Function.update_of_ne hne _ _,Function.update_of_ne hne _ _⟩)
      hworker ?_
    rcases hm tx with ⟨hnone,-⟩ | ⟨symbol',hmem,first,inputs,hfirst,hinputs,hreceived,hsome⟩
    · cases hnone.symm.trans htask
    · cases howned.unique symbol symbol' tx (.inl hworker) (.inl hmem)
      cases hsome.symm.trans htask
      refine ⟨first,inputs ++ [(msg,m.workerEnv symbol answers now)],hfirst,?_,?_,?_⟩
      · exact List.forall_mem_append.mpr ⟨hinputs,List.forall_mem_singleton.mpr hev.1⟩
      · simp [takeMessage, hreceived]
      · rw [perSymbolWorker_concat]
        exact Function.update_self _ _ _

theorem owned_move (hm : m.registry.Owned) (hmove : Move cfg m ev t) : t.registry.Owned := by
  cases hmove with
  | registry hmove => exact hm.move hmove
  | _ => exact hm

end MarketData

namespace ExchangeHistory
variable {h : ExchangeHistory}

/-- A strict worker that only sees this history stays in step with it. -/
theorem inStep_perSymbolWorker {cfg : SymbolWorkerConfig} (hgap : cfg.maxAcceptableSequenceGap = 0) (symbol : String)
    {first : WorkerEnv} (hfirst : h.Answers first) {inputs : List (SymbolMessage × WorkerEnv)}
    (hinputs : ∀ i ∈ inputs, h.IsMessage i.1 ∧ h.Answers i.2) : h.InStep (perSymbolWorker cfg symbol first inputs) :=
  List.foldlRecOn inputs _ (inStep_start hfirst symbol) fun _ hw i hi =>
    inStep_receive hgap hw (hinputs i hi).1 (hinputs i hi).2

end ExchangeHistory

end ArbCore
