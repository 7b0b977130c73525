import ArbCore.Marketdata.FeedRest
import ArbCore.Marketdata.OverlappingReplay
import ArbCore.Marketdata.WiredBooks

/-! # Books that catch up

With the tolerant setting a worker accepts deltas that its first snapshot contains already.
The wired system loses nothing, so the stream of a symbol brings the book of its worker to
the latest state of the exchange, without ever asking for another snapshot.
-/
namespace ArbCore
open LabelledRun LastWrite

namespace ExchangeHistory
variable {h : ExchangeHistory}

def IsSnapshotAt (h : ExchangeHistory) (k : ℕ) (s : OrderbookSnapshot) : Prop :=
  s.sequence = some k ∧ ∀ side p q, ⟨p,q⟩ ∈ s.levels side ↔ h.state k side p = some q

def MirrorsAt (h : ExchangeHistory) (k : ℕ) (b : OrderBook) : Prop :=
  b.inner.lastSeq = some k ∧ ∀ side p, (b.inner.side side)[p]? = h.state k side p

theorem carries_mono {i : ℕ} {ds ds' : List OrderbookDelta} (hpre : ds <+: ds') (hds : h.Carries i ds') :
    h.Carries i ds := by
  obtain ⟨rest,rfl⟩ := hpre
  induction ds generalizing i with
  | nil => trivial
  | cons d ds ih =>
    obtain ⟨hprev,hnext,hlevels,hrest⟩ := hds
    exact ⟨hprev,hnext,hlevels,ih hrest⟩

end ExchangeHistory
open ExchangeHistory

theorem mem_history_foldl (ops : List BookOp) {r : BookRun} {c : BookOp × Except OrderBookError Unit}
    (hc : c ∈ r.history) : c ∈ (ops.foldl BookRun.step r).history :=
  List.foldlRecOn (motive := fun r : BookRun => c ∈ r.history) ops _ hc fun _ hr _ _ => List.mem_append_left _ hr

namespace SymbolWorker
variable {cfg : SymbolWorkerConfig} {w : SymbolWorker} {r : BookRun}

def deltaOps (cfg : SymbolWorkerConfig) (inputs : List (OrderbookDelta × WorkerEnv)) : List BookOp :=
  tolerantOps cfg.maxAcceptableSequenceGap (inputs.map fun i => (i.1,i.2.now))

theorem foldl_accepted {inputs : List (OrderbookDelta × WorkerEnv)} (happlied : w.snapshotApplied = true)
    (hbook : r.book = w.book) (hok : ∀ c ∈ ((deltaOps cfg inputs).foldl BookRun.step r).history, c.2 = .ok ()) :
    inputs.foldl (fun w i => w.receive cfg (.delta i.1) i.2) w =
      { w with book := ((deltaOps cfg inputs).foldl BookRun.step r).book } := by
  induction inputs generalizing w r with
  | nil =>
    cases w
    cases hbook
    rfl
  | cons i inputs ih =>
    have haccepted : (r.book.applyDeltaWithGapTolerance i.1 cfg.maxAcceptableSequenceGap i.2.now).1 = .ok () :=
      hok (.applyDeltaWithGapTolerance i.1 cfg.maxAcceptableSequenceGap i.2.now,_)
        (@mem_history_foldl (deltaOps cfg inputs) (r.step _) _ (List.mem_append_right _ (List.mem_singleton_self _)))
    have hreceive : w.receive cfg (.delta i.1) i.2 =
        { w with book := (r.book.applyDeltaWithGapTolerance i.1 cfg.maxAcceptableSequenceGap i.2.now).2 } := by
      rw [hbook] at haccepted ⊢
      simp only [receive, happlied, Bool.true_eq_false, ↓reduceIte]
      rcases hres : w.book.applyDeltaWithGapTolerance i.1 cfg.maxAcceptableSequenceGap i.2.now with ⟨res,book⟩
      rw [hres] at haccepted
      cases haccepted
      rfl
    rw [List.foldl_cons, hreceive]
    exact ih happlied rfl hok

end SymbolWorker

/-- A worker that starts with state `k` and gets the events from state `i` on, of which it knows
those up to `k`, stands at the last one once it has caught up. -/
theorem ExchangeHistory.caughtUp {h : ExchangeHistory} {cfg : SymbolWorkerConfig} {i k : ℕ} (hik : i ≤ k)
    (hgap : k - i ≤ cfg.maxAcceptableSequenceGap) (symbol : String) {first : WorkerEnv} {snap : OrderbookSnapshot}
    (hfirst : fetchSnapshotFor first.provider = some snap) (hsnap : h.IsSnapshotAt k snap)
    {inputs : List (OrderbookDelta × WorkerEnv)} (hinputs : h.Carries i (inputs.map Prod.fst)) :
    (perSymbolWorker cfg symbol first (inputs.map fun x => (.delta x.1,x.2))).snapshotApplied = true ∧
      (perSymbolWorker cfg symbol first (inputs.map fun x => (.delta x.1,x.2))).book.resyncRequired = false ∧
      (k ≤ i + inputs.length → h.MirrorsAt (i + inputs.length)
        (perSymbolWorker cfg symbol first (inputs.map fun x => (.delta x.1,x.2))).book) := by
  obtain ⟨hseq,hlevels⟩ := hsnap
  have hstart : SymbolWorker.start symbol first =
      ⟨((OrderBook.new symbol).applySnapshot snap first.now).2,[],true⟩ := by
    rw [SymbolWorker.start, hfirst]
    rfl
  have hgap' : OrderBook.sequenceGap k i ≤ cfg.maxAcceptableSequenceGap := by
    unfold OrderBook.sequenceGap
    split <;> omega
  have hds : h.Carries i ((inputs.map fun x => (x.1,x.2.now)).map Prod.fst) := by
    rw [List.map_map]
    exact hinputs
  obtain ⟨hok,hsides,hlast,hflag⟩ := @BookRun.foldl_tolerantOps h i k cfg.maxAcceptableSequenceGap
    (inputs.map fun x => (x.1,x.2.now)) hds ⟨((OrderBook.new symbol).applySnapshot snap first.now).2,[]⟩ hseq hgap' rfl
    (fun c hc => by cases hc)
  have hworker : perSymbolWorker cfg symbol first (inputs.map fun x => (.delta x.1,x.2)) =
      ⟨((SymbolWorker.deltaOps cfg inputs).foldl BookRun.step
        ⟨((OrderBook.new symbol).applySnapshot snap first.now).2,[]⟩).book,[],true⟩ := by
    rw [perSymbolWorker, hstart, List.foldl_map]
    exact @SymbolWorker.foldl_accepted cfg ⟨_,[],true⟩ ⟨_,[]⟩ inputs rfl rfl hok
  rw [hworker]
  refine ⟨rfl,hflag,fun hcaught => ⟨?_,fun side p => ?_⟩⟩
  · cases inputs with
    | nil =>
      have hki : k = i := le_antisymm hcaught hik
      exact hki ▸ hseq
    | cons x inputs =>
      rw [List.length_map] at hlast
      exact hlast (List.cons_ne_nil _ _)
  · have hside : (fun p => (((OrderBook.new symbol).applySnapshot snap first.now).2.inner.side side)[p]?) =
        h.state k side := by
      funext p
      rw [side_applySnapshot]
      exact insertLevels_snapshot (hlevels side) p
    rw [List.length_map] at hsides
    refine (hsides side p).trans ?_
    rw [hside]
    exact congrFun (overwrite_state_replay h side hik hcaught) p

theorem exists_deltas {inputs : List (SymbolMessage × WorkerEnv)} {us : List OrderbookDelta}
    (h : inputs.map Prod.fst = us.map .delta) :
    ∃ ds : List (OrderbookDelta × WorkerEnv), inputs = ds.map (fun x => (.delta x.1,x.2)) ∧ ds.map Prod.fst = us := by
  induction inputs generalizing us with
  | nil =>
    cases us with
    | nil => exact ⟨[],rfl,rfl⟩
    | cons u us => cases h
  | cons x inputs ih =>
    cases us with
    | nil => cases h
    | cons u us =>
      obtain ⟨hx,hrest⟩ := List.cons.inj h
      obtain ⟨ds,rfl,hds⟩ := ih hrest
      exact ⟨(u,x.2) :: ds,congrArg (· :: _) (Prod.ext hx rfl),congrArg (u :: ·) hds⟩

namespace WiredFeed
variable {P : Type} {cfg : SymbolWorkerConfig} {d : StreamDecoder} {s : WiredFeed P} {symbol : String} {tx : Channel}
  {h : ExchangeHistory} {k : ℕ}

/-- A worker of the symbol that starts gets a snapshot of state `k`. -/
def StartsAt (h : ExchangeHistory) (symbol : String) (k : ℕ) (symbol' : String) (env : WorkerEnv) : Prop :=
  symbol' = symbol → ∃ snap, fetchSnapshotFor env.provider = some snap ∧ h.IsSnapshotAt k snap

def Anything (_ : String) (_ : WorkerEnv) : Prop := True

/-- The worker of the symbol is the worker function at the first deltas that were taken for it. -/
theorem Fed.worker_inputs {p : Option P} {Q₀ Q : String → WorkerEnv → Prop} (hs : s.Fed d symbol tx p)
    (hworking : s.market.Working cfg Q₀ Q) {w : SymbolWorker} (hw : s.market.tasks tx = some w) :
    ∃ (first : WorkerEnv) (ds : List (OrderbookDelta × WorkerEnv)), Q₀ symbol first ∧
      s.market.received tx = (ds.map Prod.fst).map .delta ∧
      ds.map Prod.fst <+: (s.taken symbol).map OrderbookUpdate.delta ∧
      w = perSymbolWorker cfg symbol first (ds.map fun x => (.delta x.1,x.2)) := by
  rcases hworking tx with ⟨hnone,-⟩ | ⟨symbol',hworker,first,inputs,hfirst,-,hreceived,hsome⟩
  · cases hnone.symm.trans hw
  obtain rfl := hs.wired.worker_symbol hworker
  cases hsome.symm.trans hw
  have hpre : s.market.received tx <+: ((s.taken symbol').map OrderbookUpdate.delta).map .delta := by
    rw [List.map_map]
    exact ⟨s.market.waiting tx,hs.messages⟩
  obtain ⟨us,hus,hmsgs⟩ := List.prefix_map_iff.mp hpre
  obtain ⟨ds,rfl,rfl⟩ := exists_deltas (hreceived.trans hmsgs)
  exact ⟨first,ds,hfirst,hmsgs,hus,rfl⟩

def carried (d : StreamDecoder) (task : StreamTask) (symbol : String) : List OrderbookUpdate :=
  (task.texts.filterMap d.update?).filter fun update => update.symbol = symbol

section Runs
variable {setup : List (MarketEvent P)} {m : MarketData P} {a : BinanceSpotAdapter} {lower : String → String}
  {symbols : List String} {events : List (WiredEvent P)}

/-- The worker of a symbol registered for good starts with a snapshot of state `k`, and the stream
of the symbol carries the events after state `i`, without a gap and no more than the tolerance
before the snapshot. Then the worker never asks for a resync, and once it has taken the events up to
`k` its book is the exchange's after the last event taken: in the end, after the last one carried. -/
theorem wired_book_converges {i n : ℕ} {task : StreamTask} (hik : i ≤ k)
    (hgap : k - i ≤ cfg.maxAcceptableSequenceGap) (hsetup : run (MarketData.step cfg) MarketData.new setup = some m)
    (hforward : ∀ ev ∈ setup, ∀ update, ev ≠ .forward update)
    (hentry : m.registry.senders.lookup symbol = some tx) (hquiet : m.registry.Quiet symbol)
    (hstarts : AllSteps (MarketData.step cfg) (MarketData.AnsweredBy (StartsAt h symbol k) Anything)
      MarketData.new setup)
    (hrun : run (step cfg d) (start a lower symbols m) events = some s) (hcall : ∀ ev ∈ events, NoCall symbol ev)
    (hstarted : AllSteps (step cfg d) (AnsweredBy (StartsAt h symbol k) Anything) (start a lower symbols m) events)
    (htask : s.streams.tasks[n]? = some task)
    (hother : ∀ (j : ℕ) task', s.streams.tasks[j]? = some task' → j ≠ n →
      ∀ update ∈ task'.texts.filterMap d.update?, update.symbol ≠ symbol)
    (hstream : h.Carries i ((carried d task symbol).map OrderbookUpdate.delta)) :
    (∀ w, s.market.tasks tx = some w → w.snapshotApplied = true ∧ w.book.resyncRequired = false ∧
      (k ≤ i + (s.market.received tx).length → h.MirrorsAt (i + (s.market.received tx).length) w.book)) ∧
      (s.Drained → k ≤ i + (carried d task symbol).length →
        ∃ w, s.market.tasks tx = some w ∧ h.MirrorsAt (i + (carried d task symbol).length) w.book) := by
  have hs := fed_run hsetup hforward hentry hquiet hrun hcall
  have hbooks : ∀ w, s.market.tasks tx = some w → w.snapshotApplied = true ∧ w.book.resyncRequired = false ∧
      (k ≤ i + (s.market.received tx).length → h.MirrorsAt (i + (s.market.received tx).length) w.book) := by
    intro w hw
    obtain ⟨first,ds,hfirst,hreceived,hpre,rfl⟩ := hs.worker_inputs (working_run hsetup hstarts hrun hstarted) hw
    obtain ⟨snap,hfetch,hsnap⟩ := hfirst rfl
    have hlength : (s.market.received tx).length = ds.length := by rw [hreceived, List.length_map, List.length_map]
    rw [hlength]
    exact ExchangeHistory.caughtUp hik hgap symbol hfetch hsnap
      (carries_mono (hpre.trans ((hs.taken_prefix htask hother).map _)) hstream)
  refine ⟨hbooks,fun hdrained hcaught => ?_⟩
  have hlength : (s.market.received tx).length = (carried d task symbol).length := by
    have hmessages := hs.messages
    rw [MarketData.waiting_idle hdrained.sending, hdrained.queues _ _ hs.wired.registry.worker, List.append_nil, taken,
      List.take_of_length_le hdrained.forwarded, hs.log_eq htask hother] at hmessages
    rw [hmessages, List.length_map]
    rfl
  obtain ⟨w,hw⟩ := Option.ne_none_iff_exists'.mp (hdrained.started _ _ hs.wired.registry.worker)
  exact ⟨w,hw,hlength ▸ (hbooks w hw).2.2 (hlength ▸ hcaught)⟩

end Runs

section Witness

def firstSnapshot : OrderbookSnapshot := ⟨"BTCUSDT",[⟨100,1⟩],[],some 1,none⟩

theorem isSnapshotAt_firstSnapshot : oneLevelHistory.IsSnapshotAt 1 firstSnapshot := by
  refine ⟨rfl,fun side p q => ?_⟩
  cases side with
  | bid =>
    by_cases hp : p = 100
    · simp [OrderbookSnapshot.levels, firstSnapshot, state, ExchangeState.apply, oneLevelHistory, overwrite,
        lastWrite, Level.write, hp, eq_comm]
    · simp [OrderbookSnapshot.levels, firstSnapshot, state, ExchangeState.apply, oneLevelHistory, overwrite,
        lastWrite, Level.write, hp, Ne.symm hp]
  | ask =>
    simp [OrderbookSnapshot.levels, firstSnapshot, state, ExchangeState.apply, oneLevelHistory, overwrite, lastWrite]

/-- The first event is queued before the worker gets a snapshot that contains it; then the socket
is closed, and the second event comes over the next connection. -/
def replayThenCatchUp : List (WiredEvent Unit) :=
  [.stream 0 .connected,.stream 0 (.read (.text "btc 1")),.forward,
    .market (.wake "BTCUSDT" 0 (fun _ => .ok firstSnapshot) 5),.stream 0 (.read .close),.stream 0 (.slept 3),
    .stream 0 .connected,.stream 0 (.read (.text "btc 2")),.market (.send "BTCUSDT"),.forward,
    .market (.wake "BTCUSDT" 0 (fun _ => .error (.other "")) 6),.market (.send "BTCUSDT"),
    .market (.wake "BTCUSDT" 0 (fun _ => .error (.other "")) 7)]

theorem wired_book_converges_replayThenCatchUp :
    ∃ s, run (step .default spotTexts) (start .new id ["BTCUSDT"] wiredSpot) replayThenCatchUp = some s ∧
      ∃ w, s.market.tasks 0 = some w ∧ oneLevelHistory.MirrorsAt 2 w.book := by
  have hrun : run (step .default spotTexts) (start .new id ["BTCUSDT"] wiredSpot) replayThenCatchUp =
      some ((run (step .default spotTexts) (start .new id ["BTCUSDT"] wiredSpot) replayThenCatchUp).get
        (by decide +kernel)) := (Option.some_get _).symm
  obtain ⟨hsetup,hforward,hentry,hquiet,-⟩ := setup_registerSpot .default
  have hcall : ∀ ev ∈ replayThenCatchUp, NoCall "BTCUSDT" ev := by
    simp [replayThenCatchUp, NoCall, MarketData.NoCall]
  have hstarts : AllSteps (MarketData.step .default) (MarketData.AnsweredBy (StartsAt oneLevelHistory "BTCUSDT" 1)
      Anything) MarketData.new registerSpot := allSteps_of_forall (by simp [registerSpot, MarketData.AnsweredBy]) _
  have hstarted : AllSteps (step .default spotTexts) (AnsweredBy (StartsAt oneLevelHistory "BTCUSDT" 1) Anything)
      (start .new id ["BTCUSDT"] wiredSpot) replayThenCatchUp := by
    refine .intro trivial rfl (.intro trivial rfl (.intro trivial rfl (.intro ?_ rfl ?_)))
    · exact ⟨trivial,fun _ _ => ⟨firstSnapshot,rfl,isSnapshotAt_firstSnapshot⟩⟩
    refine .intro trivial rfl (.intro trivial rfl (.intro trivial rfl (.intro trivial rfl (.intro trivial rfl
      (.intro trivial rfl (.intro ⟨trivial,?_⟩ rfl (.intro trivial rfl (.intro ⟨trivial,?_⟩ rfl trivial))))))))
    · exact fun hnone => by cases hnone
    · exact fun hnone => by cases hnone
  generalize hs : (run (step .default spotTexts) (start .new id ["BTCUSDT"] wiredSpot) replayThenCatchUp).get
    (by decide +kernel) = s at hrun
  have htexts : s.streams.tasks.map StreamTask.texts = [["btc 1","btc 2"]] := hs ▸ by decide +kernel
  have hreceived : (s.market.received 0).length = 2 := hs ▸ by decide +kernel
  have hworking : (s.market.tasks 0).isSome = true := hs ▸ by decide +kernel
  obtain ⟨task,htasks,htask⟩ := List.map_eq_singleton_iff.mp htexts
  obtain ⟨w,hw⟩ := Option.isSome_iff_exists.mp hworking
  have hother : ∀ (j : ℕ) task', s.streams.tasks[j]? = some task' → j ≠ 0 →
      ∀ update ∈ task'.texts.filterMap spotTexts.update?, update.symbol ≠ "BTCUSDT" := by
    intro j task' hj hne
    obtain ⟨hlt,-⟩ := List.getElem?_eq_some_iff.mp hj
    rw [htasks, List.length_singleton] at hlt
    exact absurd (Nat.lt_one_iff.mp hlt) hne
  have hcarried : carried spotTexts task "BTCUSDT" =
      [⟨"BTCUSDT",[⟨100,1⟩],[],some 1,false⟩,⟨"BTCUSDT",[⟨100,2⟩],[],some 2,false⟩] := by
    rw [carried, htask]
    decide +kernel
  have hstream : oneLevelHistory.Carries 0 ((carried spotTexts task "BTCUSDT").map OrderbookUpdate.delta) := by
    rw [hcarried]
    refine ⟨rfl,rfl,fun side => ?_,rfl,rfl,fun side => ?_,trivial⟩
    · cases side <;> simp [OrderbookUpdate.delta, OrderbookDelta.levels, oneLevelHistory]
    · cases side <;> simp [OrderbookUpdate.delta, OrderbookDelta.levels, oneLevelHistory]
  have hbooks := (wired_book_converges zero_le_one (by decide) hsetup hforward hentry hquiet hstarts hrun hcall hstarted
    (by rw [htasks]; rfl) hother hstream).1 w hw
  rw [hreceived] at hbooks
  exact ⟨s,hrun,w,hw,hbooks.2.2 (by decide)⟩

end Witness

end WiredFeed

end ArbCore
