import ArbCore.Marketdata.WiredFeed

/-! # The books of the wired system

With the strict setting, when a stream carries the events of one exchange history and the
provider answers with snapshots of it, the book of the worker is always a state of that history:
connections, other symbols, lost messages and failed fetches make no difference.
-/
namespace ArbCore
open LabelledRun

namespace WiredFeed
variable {P : Type} {cfg : SymbolWorkerConfig} {d : StreamDecoder} {s t : WiredFeed P} {ev : WiredEvent P}
  {symbol : String} {tx : Channel} {h : ExchangeHistory}

def SnapshotsOf (h : ExchangeHistory) (symbol : String) : MarketEvent P → Prop
  | .wake symbol' _ answers _ => symbol' = symbol → ∀ p snap, answers p = .ok snap → h.IsSnapshot snap
  | _ => True

def Answered (h : ExchangeHistory) (symbol : String) : WiredEvent P → Prop
  | .market ev => SnapshotsOf h symbol ev
  | _ => True

def AnswersTo (h : ExchangeHistory) (symbol symbol' : String) (env : WorkerEnv) : Prop :=
  symbol' = symbol → h.Answers env

theorem fetchSnapshotFor_eq_some {answers : P → Except MarketDataError OrderbookSnapshot} {p : Option P}
    {snap : OrderbookSnapshot} (hsnap : fetchSnapshotFor (p.map answers) = some snap) : ∃ q, answers q = .ok snap := by
  cases p with
  | none => cases hsnap
  | some q =>
    refine ⟨q,?_⟩
    rw [Option.map_some] at hsnap
    unfold fetchSnapshotFor at hsnap
    split at hsnap
    · rename_i hanswer
      exact (Option.some.inj hanswer).trans (congrArg _ (Option.some.inj hsnap))
    · cases hsnap
    · cases hsnap

theorem answeredBy_of_snapshotsOf {m : MarketData P} {ev : MarketEvent P} (hev : SnapshotsOf h symbol ev) :
    m.AnsweredBy (AnswersTo h symbol) (AnswersTo h symbol) ev := by
  cases ev with
  | wake symbol' tx' answers now =>
    have hanswers : AnswersTo h symbol symbol' (m.workerEnv symbol' answers now) := by
      intro hsymbol snap hsnap
      obtain ⟨q,hq⟩ := fetchSnapshotFor_eq_some hsnap
      exact hev hsymbol q snap hq
    exact ⟨hanswers,fun _ => hanswers⟩
  | _ => trivial

theorem market_cases (hstep : s.step cfg d ev = some t) : t.market = s.market ∨
    ∃ ev', (ev'.isForward = true ∨ ev = .market ev') ∧ MarketData.Move cfg s.market ev' t.market := by
  cases ev with
  | stream i ev =>
    obtain ⟨streams,-,rfl⟩ := Option.map_eq_some_iff.mp hstep
    exact .inl rfl
  | forward =>
    obtain ⟨x,-,hstep⟩ := Option.bind_eq_some_iff.mp hstep
    obtain ⟨market,hmarket,rfl⟩ := Option.map_eq_some_iff.mp hstep
    exact .inr ⟨.forward x.2,.inl rfl,MarketData.step_move hmarket⟩
  | market ev =>
    simp only [WiredFeed.step] at hstep
    split_ifs at hstep
    obtain ⟨market,hmarket,rfl⟩ := Option.map_eq_some_iff.mp hstep
    exact .inr ⟨ev,.inr rfl,MarketData.step_move hmarket⟩

section Runs
variable {setup : List (MarketEvent P)} {m : MarketData P} {a : BinanceSpotAdapter} {lower : String → String}
  {symbols : List String} {events : List (WiredEvent P)} {Q₀ Q : String → WorkerEnv → Prop}

def AnsweredBy (Q₀ Q : String → WorkerEnv → Prop) (s : WiredFeed P) : WiredEvent P → Prop
  | .market ev => s.market.AnsweredBy Q₀ Q ev
  | _ => True

theorem working_run (hsetup : run (MarketData.step cfg) MarketData.new setup = some m)
    (hanswers : AllSteps (MarketData.step cfg) (MarketData.AnsweredBy Q₀ Q) MarketData.new setup)
    (hrun : run (step cfg d) (start a lower symbols m) events = some s)
    (hanswered : AllSteps (step cfg d) (AnsweredBy Q₀ Q) (start a lower symbols m) events) :
    s.market.Working cfg Q₀ Q := by
  have hmove : ∀ (m : MarketData P) (ev : MarketEvent P) (m' : MarketData P),
      m.registry.Owned ∧ m.Working cfg Q₀ Q → m.AnsweredBy Q₀ Q ev → MarketData.Move cfg m ev m' →
      m'.registry.Owned ∧ m'.Working cfg Q₀ Q :=
    fun _ _ _ hm hev hmove => ⟨MarketData.owned_move hm.1 hmove,hm.2.move hm.1 hmove hev⟩
  have hm : m.registry.Owned ∧ m.Working cfg Q₀ Q :=
    @run_invariant_of_allSteps _ _ (MarketData.step cfg) (fun m => m.registry.Owned ∧ m.Working cfg Q₀ Q)
      (MarketData.AnsweredBy Q₀ Q) (fun _ _ _ hm hev hstep => hmove _ _ _ hm hev (MarketData.step_move hstep)) _ _ _
      ⟨Registry.owned_new,MarketData.working_new⟩ hanswers hsetup
  refine (@run_invariant_of_allSteps _ _ (step cfg d) (fun s => s.market.registry.Owned ∧ s.market.Working cfg Q₀ Q)
    (AnsweredBy Q₀ Q) (fun s ev t hs hev hstep => ?_) _ _ _ hm hanswered hrun).2
  rcases market_cases hstep with heq | ⟨ev',hforward | rfl,hm'⟩
  · exact heq ▸ hs
  · refine hmove _ ev' _ hs ?_ hm'
    cases ev' with
    | forward _ => trivial
    | _ => cases hforward
  · exact hmove _ ev' _ hs hev hm'

/-- Once its worker has applied a snapshot, the book of a symbol registered for good is the
state of the exchange that its sequence number names. -/
theorem wired_book_mirrors (hgap : cfg.maxAcceptableSequenceGap = 0)
    (hsetup : run (MarketData.step cfg) MarketData.new setup = some m)
    (hforward : ∀ ev ∈ setup, ∀ update, ev ≠ .forward update)
    (hentry : m.registry.senders.lookup symbol = some tx) (hquiet : m.registry.Quiet symbol)
    (hanswers : ∀ ev ∈ setup, SnapshotsOf h symbol ev)
    (hrun : run (step cfg d) (start a lower symbols m) events = some s) (hcall : ∀ ev ∈ events, NoCall symbol ev)
    (hanswered : ∀ ev ∈ events, Answered h symbol ev)
    (hstream : ∀ task ∈ s.streams.tasks, ∀ update ∈ task.texts.filterMap d.update?, update.symbol = symbol →
      h.IsDelta update.delta) :
    ∀ w, s.market.tasks tx = some w → w.snapshotApplied = true → h.Mirrors w.book := by
  intro w hw happlied
  have hs := fed_run hsetup hforward hentry hquiet hrun hcall
  have hsteps : AllSteps (MarketData.step cfg) (MarketData.AnsweredBy (AnswersTo h symbol) (AnswersTo h symbol))
      MarketData.new setup := allSteps_of_forall (fun ev hev _ => answeredBy_of_snapshotsOf (hanswers ev hev)) _
  have hevents : ∀ ev ∈ events, ∀ s : WiredFeed P, s.AnsweredBy (AnswersTo h symbol) (AnswersTo h symbol) ev := by
    intro ev hev s
    cases ev with
    | market ev => exact answeredBy_of_snapshotsOf (hanswered _ hev)
    | _ => trivial
  rcases working_run hsetup hsteps hrun (allSteps_of_forall hevents _) tx with
    ⟨hnone,-⟩ | ⟨symbol',hworker,first,inputs,hfirst,hinputs,hreceived,hsome⟩
  · cases hnone.symm.trans hw
  obtain rfl := hs.wired.worker_symbol hworker
  cases hsome.symm.trans hw
  refine ExchangeHistory.inStep_perSymbolWorker hgap symbol' (hfirst rfl) (fun i hi => ⟨?_,hinputs i hi rfl⟩) happlied
  have hmem : i.1 ∈ s.market.received tx ++ s.market.waiting tx :=
    List.mem_append_left _ (hreceived ▸ List.mem_map_of_mem hi)
  rw [hs.messages] at hmem
  obtain ⟨update,hupdate,hi⟩ := List.mem_map.mp hmem
  obtain ⟨htaken,hsymbol⟩ := List.mem_filter.mp hupdate
  obtain ⟨x,hx,rfl⟩ := List.mem_map.mp htaken
  obtain ⟨task,htask,hdecoded⟩ := hs.mem_texts (List.mem_of_mem_take hx)
  exact hi ▸ hstream task (List.mem_of_getElem? htask) x.2 hdecoded (of_decide_eq_true hsymbol)

end Runs

theorem isSnapshot_emptySnapshot : ExchangeHistory.oneLevelHistory.IsSnapshot emptySnapshot := by
  refine ⟨0,rfl,fun side p q => ?_⟩
  cases side <;> simp [OrderbookSnapshot.levels, emptySnapshot, ExchangeHistory.state, ExchangeHistory.oneLevelHistory]

theorem wired_book_mirrors_streamThenWake :
    ∃ s, run (step ⟨10,0⟩ spotTexts) (start .new id ["BTCUSDT","ETHUSDT"] wiredSpot) streamThenWake = some s ∧
      ∃ w, s.market.tasks 0 = some w ∧ w.book.inner.lastSeq = some 1 ∧
        ExchangeHistory.oneLevelHistory.Mirrors w.book := by
  have hrun : run (step ⟨10,0⟩ spotTexts) (start .new id ["BTCUSDT","ETHUSDT"] wiredSpot) streamThenWake =
      some ((run (step ⟨10,0⟩ spotTexts) (start .new id ["BTCUSDT","ETHUSDT"] wiredSpot) streamThenWake).get
        (by decide +kernel)) := (Option.some_get _).symm
  obtain ⟨hsetup,hforward,hentry,hquiet,hcall⟩ := setup_registerSpot ⟨10,0⟩
  have hanswered : ∀ ev ∈ streamThenWake, Answered ExchangeHistory.oneLevelHistory "BTCUSDT" ev := by
    simp [streamThenWake, Answered, SnapshotsOf, isSnapshot_emptySnapshot]
  have hanswers : ∀ ev ∈ registerSpot, SnapshotsOf ExchangeHistory.oneLevelHistory "BTCUSDT" ev := by
    simp [registerSpot, SnapshotsOf]
  refine ⟨_,hrun,_,rfl,by decide +kernel,
    wired_book_mirrors rfl hsetup hforward hentry hquiet hanswers hrun hcall hanswered ?_ _ rfl (by decide +kernel)⟩
  have htexts : (((run (step ⟨10,0⟩ spotTexts) (start .new id ["BTCUSDT","ETHUSDT"] wiredSpot) streamThenWake).get
      (by decide +kernel)).streams.tasks.map fun task => task.texts.filterMap spotTexts.update?) =
        [[⟨"BTCUSDT",[⟨100,1⟩],[],some 1,false⟩],[⟨"ETHUSDT",[⟨1,1⟩],[],some 4,false⟩]] := by decide +kernel
  intro task htask update hupdate hsymbol
  have hmem : task.texts.filterMap spotTexts.update? ∈ _ := htexts ▸ List.mem_map_of_mem htask
  rcases List.mem_pair.mp hmem with heq | heq
  · rw [heq] at hupdate
    obtain rfl := List.mem_singleton.mp hupdate
    refine ⟨0,rfl,rfl,fun side => ?_⟩
    cases side <;> simp [OrderbookUpdate.delta, OrderbookDelta.levels, ExchangeHistory.oneLevelHistory]
  · rw [heq] at hupdate
    obtain rfl := List.mem_singleton.mp hupdate
    exact absurd hsymbol (by decide)

end WiredFeed

end ArbCore
