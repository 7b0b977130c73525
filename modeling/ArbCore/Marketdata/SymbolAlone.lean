import ArbCore.Marketdata.SymbolIsolation

/-! # Symbols do not interfere

The events of the other symbols can be left out of a run: the events of one wired symbol
alone are a run too, and it leads that symbol to the same state.
-/
namespace ArbCore
open LabelledRun

namespace MarketData
variable {P : Type} {cfg : SymbolWorkerConfig} {m t : MarketData P} {ev : MarketEvent P}
  {symbol : String} {tx : Channel} {p : Option P}

section Alone

def concerns (symbol : String) (tx : Channel) : MarketEvent P → Bool
  | .forward update => update.symbol = symbol
  | .send sym => sym = symbol
  | .wake symbol' tx' _ _ => symbol' = symbol ∧ tx' = tx
  | .registry _ => false

/-- A state reached with the events of the symbol alone, beside the one reached with all. -/
structure Alone (m m' : MarketData P) (symbol : String) (tx : Channel) (p : Option P) : Prop where
  wired : m.Wired symbol tx p
  registry : m'.registry.Wired symbol tx p
  sending : m'.sending = m.sending.filter fun x => x.sym = symbol
  queue : m'.queues tx = m.queues tx
  received : m'.received tx = m.received tx
  task : m'.tasks tx = m.tasks tx

theorem Alone.feed (h : Alone m t symbol tx p) : t.feed tx = m.feed tx := by
  have hwaiting : t.waiting tx = m.waiting tx := by
    rw [waiting, waiting, h.queue, h.sending]
    cases hsending : m.sending with
    | none => rfl
    | some x =>
      have hiff := h.wired.sending x hsending
      by_cases hsym : x.sym = symbol
      · rw [Option.filter_some, if_pos (decide_eq_true hsym)]
      · have htx : x.tx ≠ tx := fun htx => hsym (hiff.mpr htx)
        simp [Option.filter_some, hsym, htx]
  rw [MarketData.feed, MarketData.feed, h.received, hwaiting, h.task]

variable {m' : MarketData P}

theorem Alone.step (h : Alone m m' symbol tx p) (hmove : Move cfg m ev t) (hcall : NoCall symbol ev)
    (hconcerns : concerns symbol tx ev = true) :
    ∃ t', m'.step cfg ev = some t' ∧ Alone t t' symbol tx p := by
  have hwired := h.wired.move hmove hcall
  cases hmove with
  | registry _ => cases hconcerns
  | forward update hidle =>
    have hsymbol : update.symbol = symbol := of_decide_eq_true hconcerns
    have hidle' : m'.sending = none := by rw [h.sending, hidle, Option.filter_none]
    obtain ⟨msg,hmsg,hforward⟩ := m.registry.forward_eq update
    obtain ⟨msg',hmsg',hforward'⟩ := m'.registry.forward_eq update
    cases hmsg.symm.trans hmsg'
    rw [hsymbol, h.wired.registry.entry] at hforward
    rw [hsymbol, h.registry.entry] at hforward'
    refine ⟨{ m' with sending := m'.registry.forward update },?_,hwired,h.registry,?_,h.queue,
      h.received,h.task⟩
    · simp only [MarketData.step, hidle']
    · rw [hforward, hforward']
      simp [Option.filter_some]
  | @send x hsending hroom =>
    have hsym : x.sym = symbol := of_decide_eq_true hconcerns
    have htx : x.tx = tx := (h.wired.sending x hsending).mp hsym
    have hsending' : m'.sending = some x := by
      rw [h.sending, hsending]
      simp [hsym]
    refine ⟨m'.enqueue x,?_,hwired,h.registry,rfl,?_,h.received,h.task⟩
    · simp only [MarketData.step, hsending', htx, h.queue, true_and]
      rw [if_pos (htx ▸ hroom)]
    · simp [enqueue, htx, h.queue]
  | @started symbol' tx' answers now hworker htask =>
    obtain ⟨rfl,rfl⟩ : symbol' = symbol ∧ tx' = tx := of_decide_eq_true hconcerns
    have henv : m'.workerEnv symbol' answers now = m.workerEnv symbol' answers now := by
      rw [workerEnv, workerEnv, h.registry.provider, h.wired.registry.provider]
    refine ⟨m'.startTask symbol' tx' (m'.workerEnv symbol' answers now),?_,hwired,h.registry,h.sending,
      h.queue,h.received,?_⟩
    · simp only [MarketData.step, h.task, htask]
      rw [if_pos h.registry.worker]
    · simp [startTask, henv]
  | @took symbol' tx' w msg rest answers now hworker htask hqueue =>
    obtain ⟨rfl,rfl⟩ : symbol' = symbol ∧ tx' = tx := of_decide_eq_true hconcerns
    have henv : m'.workerEnv symbol' answers now = m.workerEnv symbol' answers now := by
      rw [workerEnv, workerEnv, h.registry.provider, h.wired.registry.provider]
    refine ⟨m'.takeMessage cfg tx' w msg rest (m'.workerEnv symbol' answers now),?_,hwired,h.registry,
      h.sending,?_,?_,?_⟩
    · simp only [MarketData.step, h.task, htask, h.queue, hqueue]
      rw [if_pos h.registry.worker]
    · simp [takeMessage]
    · simp [takeMessage, h.received]
    · simp [takeMessage, henv]

theorem Alone.skip (h : Alone m m' symbol tx p) (hmove : Move cfg m ev t) (hcall : NoCall symbol ev)
    (hconcerns : concerns symbol tx ev = false) : Alone t m' symbol tx p := by
  have hwired := h.wired.move hmove hcall
  cases hmove with
  | registry _ => exact ⟨hwired,h.registry,h.sending,h.queue,h.received,h.task⟩
  | forward update hidle =>
    have hsymbol : update.symbol ≠ symbol := of_decide_eq_false hconcerns
    refine ⟨hwired,h.registry,?_,h.queue,h.received,h.task⟩
    rw [h.sending, hidle, Option.filter_none]
    cases hforward : m.registry.forward update with
    | none => rfl
    | some x =>
      obtain ⟨hsym,-⟩ := Wired.forward_iff h.wired.registry hforward
      simp [Option.filter_some, hsym, hsymbol]
  | @send x hsending hroom =>
    have hsym : x.sym ≠ symbol := of_decide_eq_false hconcerns
    have htx : x.tx ≠ tx := fun htx => hsym ((h.wired.sending x hsending).mpr htx)
    refine ⟨hwired,h.registry,?_,?_,h.received,h.task⟩
    · rw [h.sending, hsending]
      simp [hsym, enqueue]
    · rw [h.queue]
      exact (Function.update_of_ne (Ne.symm htx) _ _).symm
  | @started symbol' tx' answers now hworker htask =>
    have htx : tx' ≠ tx := by
      rintro rfl
      cases h.wired.worker_symbol hworker
      simp [concerns] at hconcerns
    exact ⟨hwired,h.registry,h.sending,h.queue,h.received,
      h.task.trans (Function.update_of_ne htx.symm _ _).symm⟩
  | @took symbol' tx' w msg rest answers now hworker htask hqueue =>
    have htx : tx' ≠ tx := by
      rintro rfl
      cases h.wired.worker_symbol hworker
      simp [concerns] at hconcerns
    exact ⟨hwired,h.registry,h.sending,h.queue.trans (Function.update_of_ne htx.symm _ _).symm,
      h.received.trans (Function.update_of_ne htx.symm _ _).symm,
      h.task.trans (Function.update_of_ne htx.symm _ _).symm⟩

end Alone

section Setup

theorem registry_invariant {Inv : Registry P → Prop}
    (hinv : ∀ r ev r', Inv r → Registry.Move r ev r' → Inv r') (h : Inv m.registry)
    (hmove : Move cfg m ev t) : Inv t.registry := by
  cases hmove with
  | registry hmove => exact hinv _ _ _ h hmove
  | _ => exact h

theorem owned_and_served {setup : List (MarketEvent P)} (h : run (step cfg) new setup = some m) :
    m.registry.Owned ∧ m.registry.Served :=
  @run_invariant _ _ (step cfg) (fun s => s.registry.Owned ∧ s.registry.Served)
    (fun _ _ _ hs hstep => ⟨registry_invariant (fun _ _ _ hr hmove => hr.move hmove) hs.1 (step_move hstep),
      registry_invariant (fun _ _ _ hr hmove => hr.move hmove) hs.2 (step_move hstep)⟩)
    _ _ _ ⟨Registry.owned_new,Registry.served_new⟩ h

def Unfed (m : MarketData P) : Prop :=
  m.sending = none ∧ ∀ tx, m.queues tx = [] ∧ m.received tx = []

theorem Unfed.move (h : m.Unfed) (hmove : Move cfg m ev t) (hforward : ∀ update, ev ≠ .forward update) :
    t.Unfed := by
  obtain ⟨hsending,hqueues⟩ := h
  cases hmove with
  | registry _ => exact ⟨hsending,hqueues⟩
  | forward update _ => exact absurd rfl (hforward update)
  | send hx _ => exact absurd (hsending.symm.trans hx) nofun
  | started _ _ _ _ => exact ⟨hsending,hqueues⟩
  | took _ _ _ _ hqueue => exact absurd ((hqueues _).1.symm.trans hqueue) nofun

theorem unfed_setup {setup : List (MarketEvent P)} (h : run (step cfg) new setup = some m)
    (hforward : ∀ ev ∈ setup, ∀ update, ev ≠ .forward update) : m.Unfed := by
  have hreaches : Reaches (step cfg) (fun ev => ∀ update, ev ≠ .forward update) new m := ⟨setup,hforward,h⟩
  have hmove : ∀ (ev : MarketEvent P) (s s' : MarketData P), (∀ update, ev ≠ .forward update) →
      s.Unfed → step cfg s ev = some s' → s'.Unfed :=
    fun _ _ _ hev hs hstep => hs.move (step_move hstep) hev
  exact hreaches.invariant hmove ⟨rfl,fun _ => ⟨rfl,rfl⟩⟩

theorem wired_setup {setup : List (MarketEvent P)} (h : run (step cfg) new setup = some m)
    (hforward : ∀ ev ∈ setup, ∀ update, ev ≠ .forward update)
    (hentry : m.registry.senders.lookup symbol = some tx) (hquiet : m.registry.Quiet symbol) :
    m.Wired symbol tx (m.registry.providers.lookup symbol) := by
  obtain ⟨howned,hserved⟩ := owned_and_served h
  have hworker : (symbol,tx) ∈ m.registry.workers := by
    rcases hserved symbol tx hentry with hworker | ⟨c,hc,hsymbol,hphase⟩
    · exact hworker
    · obtain ⟨tx',hreturned⟩ := hquiet c hc hsymbol
      rw [hreturned] at hphase
      cases hphase
  refine ⟨⟨howned,hquiet,hentry,rfl,hworker⟩,fun x hx => ?_⟩
  exact absurd ((unfed_setup h hforward).1.symm.trans hx) nofun

end Setup

def updateOf (symbol : String) : MarketEvent P → Option OrderbookUpdate
  | .forward update => if update.symbol = symbol then some update else none
  | _ => none

theorem message_feedEvent (symbol : String) (tx : Channel) (p : Option P) (ev : MarketEvent P) :
    (feedEvent symbol tx p ev).bind FeedEvent.message? =
      (updateOf symbol ev).bind OrderbookUpdate.message? := by
  cases ev with
  | registry ev => rfl
  | send sym => rfl
  | forward update =>
    simp only [feedEvent, updateOf]
    split_ifs
    · cases hmsg : update.message? with
      | none => simp [hmsg]
      | some msg => simp [hmsg, FeedEvent.message?]
    · rfl
  | wake symbol' tx' answers now =>
    simp only [feedEvent, updateOf]
    split_ifs
    · rfl
    · rfl

/-- Once the symbols are wired and the forwarder runs, a symbol registered for good
receives the messages of its own updates, each once and in the order of the stream. The
worker, its channel and what it received are those of its own small system on its own
events, and the same as in the run of those events alone. -/
theorem symbol_isolated {setup events : List (MarketEvent P)} {m₀ : MarketData P}
    (hsetup : run (step cfg) new setup = some m₀)
    (hforward : ∀ ev ∈ setup, ∀ update, ev ≠ .forward update)
    (hentry : m₀.registry.senders.lookup symbol = some tx) (hquiet : m₀.registry.Quiet symbol)
    (hrun : run (step cfg) m₀ events = some m) (hcall : ∀ ev ∈ events, NoCall symbol ev) :
    m.received tx ++ m.waiting tx = (events.filterMap (updateOf symbol)).filterMap OrderbookUpdate.message? ∧
      run (SymbolFeed.step cfg symbol) (m₀.feed tx)
        (events.filterMap (feedEvent symbol tx (m₀.registry.providers.lookup symbol))) = some (m.feed tx) ∧
      ∃ m', run (step cfg) m₀ (events.filter (concerns symbol tx)) = some m' ∧ m'.feed tx = m.feed tx := by
  have hwired := wired_setup hsetup hforward hentry hquiet
  have hunfed := unfed_setup hsetup hforward
  have hfeed : run (SymbolFeed.step cfg symbol) (m₀.feed tx)
      (events.filterMap (feedEvent symbol tx (m₀.registry.providers.lookup symbol))) = some (m.feed tx) := by
    obtain ⟨f,hf,-,rfl⟩ := @run_simulates _ _ (step cfg) _ _ (SymbolFeed.step cfg symbol)
      (fun s f => s.Wired symbol tx (m₀.registry.providers.lookup symbol) ∧ f = s.feed tx) (NoCall symbol)
      (feedEvent symbol tx (m₀.registry.providers.lookup symbol))
      (fun ev s s' e f hev hs hstep he => ⟨s'.feed tx,hs.2 ▸ feed_step hs.1 (step_move hstep) he,
        hs.1.move (step_move hstep) hev,rfl⟩)
      (fun ev s s' f hev hs hstep he => ⟨hs.1.move (step_move hstep) hev,
        hs.2.trans (feed_silent hs.1 (step_move hstep) he).symm⟩)
      events m₀ m (m₀.feed tx) hcall ⟨hwired,rfl⟩ hrun
    exact hf
  have halone : ∃ m', run (step cfg) m₀ (events.filter (concerns symbol tx)) = some m' ∧
      m'.feed tx = m.feed tx := by
    have hstart : Alone m₀ m₀ symbol tx (m₀.registry.providers.lookup symbol) :=
      ⟨hwired,hwired.registry,by rw [hunfed.1, Option.filter_none],rfl,rfl,rfl⟩
    obtain ⟨m',hm',hend⟩ := @run_simulates _ _ (step cfg) _ _ (step cfg)
      (fun s s' => Alone s s' symbol tx (m₀.registry.providers.lookup symbol)) (NoCall symbol)
      (Option.guard (concerns symbol tx))
      (fun ev s s' e b hev hs hstep he => by
        obtain ⟨rfl,hconcerns⟩ := Option.guard_eq_some_iff.mp he
        exact hs.step (step_move hstep) hev hconcerns)
      (fun ev s s' b hev hs hstep he =>
        hs.skip (step_move hstep) hev (Option.guard_eq_none_iff.mp he))
      events m₀ m m₀ hcall hstart hrun
    rw [List.filterMap_eq_filter] at hm'
    exact ⟨m',hm',hend.feed⟩
  refine ⟨?_,hfeed,halone⟩
  have hmessages := SymbolFeed.messages_run hfeed
  simp only [feed, waiting_idle hunfed.1, (hunfed.2 tx).1, (hunfed.2 tx).2, List.append_nil,
    List.nil_append] at hmessages
  rw [hmessages, List.filterMap_filterMap, List.filterMap_filterMap]
  exact List.filterMap_congr fun ev _ => message_feedEvent symbol tx _ ev

def wiredBtc : MarketData Unit :=
  ⟨⟨AList.insert "BTCUSDT" 0 ∅,∅,1,[("BTCUSDT",0)],[⟨"BTCUSDT",.returned 0⟩],[("BTCUSDT",0)]⟩,none,
    fun _ => [],fun _ => [],fun _ => none⟩

/-- Its update comes between updates of a symbol that nobody registered. -/
def mixedUpdates : List (MarketEvent Unit) :=
  [.forward ⟨"ETHUSDT",[],[],some 3,false⟩,.forward ⟨"BTCUSDT",[⟨1,1⟩],[],some 7,true⟩,.send "BTCUSDT",
    .wake "BTCUSDT" 0 (fun _ => .error (.other "")) 5,.forward ⟨"ETHUSDT",[],[],some 4,false⟩]

theorem symbol_isolated_mixedUpdates :
    ∃ m, run (step ⟨10,0⟩) wiredBtc mixedUpdates = some m ∧
      m.received 0 ++ m.waiting 0 = [.snapshot ⟨"BTCUSDT",[⟨1,1⟩],[],some 7,none⟩] := by
  have hsetup : run (step ⟨10,0⟩) (new : MarketData Unit) [.registry (.call "BTCUSDT" none),
    .registry (.advance 0),.registry (.advance 0),.registry (.advance 0),.registry (.advance 0)] =
      some wiredBtc := rfl
  have hrun : run (step ⟨10,0⟩) wiredBtc mixedUpdates = some _ := rfl
  have hentry : wiredBtc.registry.senders.lookup "BTCUSDT" = some 0 := rfl
  have hquiet : wiredBtc.registry.Quiet "BTCUSDT" := by
    intro c hc _
    cases List.mem_singleton.mp hc
    exact ⟨0,rfl⟩
  refine ⟨_,hrun,(symbol_isolated hsetup (by simp) hentry hquiet hrun ?_).1.trans ?_⟩
  · simp [NoCall, mixedUpdates]
  · simp [mixedUpdates, updateOf, OrderbookUpdate.message?, mapAdapterUpdateToMessage]

end MarketData

end ArbCore
