import ArbCore.Marketdata.ConvergingBooks
import ArbCore.Marketdata.WorkerPhases

/-! # Workers whose first fetch fails

Nobody sends a worker of the wired system a snapshot. One whose first fetch failed asks its
provider again only when a delta finds the buffer full, which it drops: it is without a book
until that many deltas of its symbol have come, and after a failure for as many more.
-/
namespace ArbCore
open LabelledRun

namespace SymbolWorker
variable {cfg : SymbolWorkerConfig} {w : SymbolWorker}

theorem receive_waiting (hw : w.snapshotApplied = false) (d : OrderbookDelta) (env : WorkerEnv) :
    (w.buffered.length < cfg.maxBufferedDeltas ∧
      w.receive cfg (.delta d) env = ⟨w.book,w.buffered ++ [d],false⟩) ∨
    (cfg.maxBufferedDeltas ≤ w.buffered.length ∧ ((fetchSnapshotFor env.provider).isSome = true →
      (w.receive cfg (.delta d) env).snapshotApplied = true) ∧ (fetchSnapshotFor env.provider = none →
        w.receive cfg (.delta d) env = ⟨w.book,[],false⟩)) := by
  rcases lt_or_ge w.buffered.length cfg.maxBufferedDeltas with hroom | hfull
  · refine .inl ⟨hroom,?_⟩
    simp only [receive, hw, ↓reduceIte, if_neg (not_le.mpr hroom), ge_iff_le]
  · refine .inr ⟨hfull,fun hsome => ?_,fun hnone => ?_⟩
    · obtain ⟨s,hs⟩ := Option.isSome_iff_exists.mp hsome
      simp only [receive, hw, ↓reduceIte, if_pos hfull, ge_iff_le, hs]
      rfl
    · simp only [receive, hw, ↓reduceIte, if_pos hfull, ge_iff_le, hnone]

/-- The worker calls its provider: on a full buffer without a book, and on a delta its book rejects. -/
def asks (cfg : SymbolWorkerConfig) (w : SymbolWorker) (msg : SymbolMessage) (now : Instant) : Bool :=
  match msg with
  | .snapshot _ => false
  | .delta delta =>
    if w.snapshotApplied = false then w.buffered.length ≥ cfg.maxBufferedDeltas
    else match (w.book.applyDeltaWithGapTolerance delta cfg.maxAcceptableSequenceGap now).1 with
      | .ok _ => false
      | .error _ => true

/-- It is what the code asks: exactly then the answer makes a difference. -/
theorem asks_iff_differs {msg : SymbolMessage} {now : Instant} : w.asks cfg msg now = true ↔
    ∃ answer answer', w.receive cfg msg ⟨answer,now⟩ ≠ w.receive cfg msg ⟨answer',now⟩ := by
  cases msg with
  | snapshot snap => simp [asks, receive]
  | delta d =>
    simp only [asks, receive]
    split_ifs with hwaiting hfull
    · refine iff_of_true (decide_eq_true hfull) ⟨none,some (.ok ⟨"",[],[],none,none⟩),fun heq => ?_⟩
      have happlied := congrArg snapshotApplied heq
      cases hwaiting.symm.trans happlied
    · simpa using hfull
    · rcases w.book.applyDeltaWithGapTolerance d cfg.maxAcceptableSequenceGap now with ⟨_ | _,book⟩
      · refine iff_of_true rfl ⟨none,some (.ok ⟨"",[],[],none,none⟩),fun heq => ?_⟩
        have hresync := congrArg (fun w => w.book.resyncRequired) heq
        cases hresync
      · simp

/-- The deltas after the last one whose number is a multiple of `max + 1`. -/
def sinceDrop (max : ℕ) (deltas : List OrderbookDelta) : List OrderbookDelta :=
  deltas.drop (deltas.length - deltas.length % (max + 1))

/-- No call with such a delta is answered with a snapshot. -/
def Unanswered (max : ℕ) (inputs : List (OrderbookDelta × WorkerEnv)) : Prop :=
  ∀ i x, inputs[i]? = some x → max + 1 ∣ i + 1 → fetchSnapshotFor x.2.provider = none

/-- Without a book the worker asks with every delta whose number is a multiple of `maxBufferedDeltas + 1`,
until one of these is answered; in between it keeps the deltas since it last dropped its buffer. -/
structure LateStart (cfg : SymbolWorkerConfig) (symbol : String) (inputs : List (OrderbookDelta × WorkerEnv))
    (w : SymbolWorker) : Prop where
  waits : w.snapshotApplied = false ↔ Unanswered cfg.maxBufferedDeltas inputs
  book : w.snapshotApplied = false → w.book = OrderBook.new symbol
  buffered : w.snapshotApplied = false → w.buffered = sinceDrop cfg.maxBufferedDeltas (inputs.map Prod.fst)
  asks : w.snapshotApplied = false → ∀ d now, w.asks cfg (.delta d) now = true ↔
    cfg.maxBufferedDeltas + 1 ∣ inputs.length + 1

section
variable {symbol : String} {inputs : List (OrderbookDelta × WorkerEnv)} {deltas : List OrderbookDelta} {max : ℕ}

theorem mod_succ_of_lt {n : ℕ} (h : n % (max + 1) < max) : (n + 1) % (max + 1) = n % (max + 1) + 1 := by
  rw [Nat.add_mod, Nat.mod_eq_of_lt (by omega : 1 < max + 1), Nat.mod_eq_of_lt (by omega)]

theorem dvd_succ_iff {n : ℕ} : max + 1 ∣ n + 1 ↔ max ≤ n % (max + 1) := by
  have hlt : n % (max + 1) < max + 1 := Nat.mod_lt _ (Nat.succ_pos _)
  constructor
  · intro hdvd
    by_contra hmod
    have hzero := Nat.mod_eq_zero_of_dvd hdvd
    rw [mod_succ_of_lt (not_le.mp hmod)] at hzero
    omega
  · intro hmod
    have heq : n % (max + 1) = max := by omega
    have hdiv := Nat.div_add_mod n (max + 1)
    exact ⟨n / (max + 1) + 1,by rw [Nat.mul_add]; omega⟩

theorem length_sinceDrop (max : ℕ) (deltas : List OrderbookDelta) :
    (sinceDrop max deltas).length = deltas.length % (max + 1) := by
  have hle := Nat.mod_le deltas.length (max + 1)
  rw [sinceDrop, List.length_drop]
  omega

theorem sinceDrop_concat (h : (sinceDrop max deltas).length < max) (d : OrderbookDelta) :
    sinceDrop max (deltas ++ [d]) = sinceDrop max deltas ++ [d] := by
  rw [length_sinceDrop] at h
  have hle := Nat.mod_le deltas.length (max + 1)
  rw [sinceDrop, List.length_append, List.length_singleton, mod_succ_of_lt h, Nat.add_sub_add_right,
    List.drop_append_of_le_length (by omega), sinceDrop]

theorem sinceDrop_concat_full (h : max ≤ (sinceDrop max deltas).length) (d : OrderbookDelta) :
    sinceDrop max (deltas ++ [d]) = [] := by
  have hzero := Nat.mod_eq_zero_of_dvd (dvd_succ_iff.mpr (length_sinceDrop max deltas ▸ h))
  rw [sinceDrop, List.length_append, List.length_singleton, hzero, Nat.sub_zero]
  exact List.drop_eq_nil_of_le (List.length_append.le)

theorem unanswered_concat {x : OrderbookDelta × WorkerEnv} : Unanswered max (inputs ++ [x]) ↔
    Unanswered max inputs ∧ (max + 1 ∣ inputs.length + 1 → fetchSnapshotFor x.2.provider = none) := by
  constructor
  · intro h
    refine ⟨fun i y hy => h i y ?_,h inputs.length x (by simp)⟩
    rw [List.getElem?_append_left (List.getElem?_eq_some_iff.mp hy).1]
    exact hy
  · rintro ⟨hinit,hlast⟩ i y hy hdvd
    rcases lt_trichotomy i inputs.length with hlt | rfl | hlt
    · exact hinit i y ((List.getElem?_append_left hlt).symm.trans hy) hdvd
    · rw [List.getElem?_concat_length] at hy
      exact Option.some.inj hy ▸ hlast hdvd
    · rw [List.getElem?_eq_none (by rw [List.length_append]; exact hlt)] at hy
      cases hy

theorem lateStart_waiting (hinputs : Unanswered cfg.maxBufferedDeltas inputs) {buffered : List OrderbookDelta}
    (hbuffered : buffered = sinceDrop cfg.maxBufferedDeltas (inputs.map Prod.fst)) :
    (⟨OrderBook.new symbol,buffered,false⟩ : SymbolWorker).LateStart cfg symbol inputs := by
  refine ⟨⟨fun _ => hinputs,fun _ => rfl⟩,fun _ => rfl,fun _ => hbuffered,fun _ d now => ?_⟩
  have hlength := length_sinceDrop cfg.maxBufferedDeltas (inputs.map Prod.fst)
  rw [← hbuffered, List.length_map] at hlength
  simp only [SymbolWorker.asks, ↓reduceIte, hlength, decide_eq_true_eq, ge_iff_le]
  exact dvd_succ_iff.symm

theorem lateStart_answered (hw : w.snapshotApplied = true) (hinputs : ¬ Unanswered cfg.maxBufferedDeltas inputs) :
    w.LateStart cfg symbol inputs := by
  have hnot : ¬ w.snapshotApplied = false := by simp [hw]
  exact ⟨iff_of_false hnot hinputs,fun h => absurd h hnot,fun h => absurd h hnot,fun h => absurd h hnot⟩

theorem LateStart.receive (hw : w.LateStart cfg symbol inputs) (x : OrderbookDelta × WorkerEnv) :
    (w.receive cfg (.delta x.1) x.2).LateStart cfg symbol (inputs ++ [x]) := by
  cases happlied : w.snapshotApplied with
  | true =>
    refine lateStart_answered ((w.receive_move cfg (.delta x.1) x.2).snapshotApplied happlied) fun hall => ?_
    cases happlied.symm.trans (hw.waits.mpr (unanswered_concat.mp hall).1)
  | false =>
    have hbuffered := hw.buffered happlied
    have hlength := length_sinceDrop cfg.maxBufferedDeltas (inputs.map Prod.fst)
    rw [← hbuffered, List.length_map] at hlength
    rcases receive_waiting happlied x.1 x.2 with ⟨hroom,hreceive⟩ | ⟨hfull,hsome,hnone⟩
    · have hnot : ¬ cfg.maxBufferedDeltas + 1 ∣ inputs.length + 1 := fun hdvd =>
        absurd (hlength ▸ hroom) (not_lt.mpr (dvd_succ_iff.mp hdvd))
      rw [hreceive, hw.book happlied]
      refine lateStart_waiting (unanswered_concat.mpr ⟨hw.waits.mp happlied,fun hdvd => absurd hdvd hnot⟩) ?_
      rw [List.map_append, hbuffered]
      exact (sinceDrop_concat (hbuffered ▸ hroom) x.1).symm
    · cases hfetch : fetchSnapshotFor x.2.provider with
      | some s =>
        refine lateStart_answered (hsome (by rw [hfetch]; rfl)) fun hall => ?_
        cases hfetch.symm.trans ((unanswered_concat.mp hall).2 (dvd_succ_iff.mpr (hlength ▸ hfull)))
      | none =>
        rw [hnone hfetch, hw.book happlied]
        refine lateStart_waiting (unanswered_concat.mpr ⟨hw.waits.mp happlied,fun _ => hfetch⟩) ?_
        rw [List.map_append]
        exact (sinceDrop_concat_full (hbuffered ▸ hfull) x.1).symm

theorem lateStart_perSymbolWorker (cfg : SymbolWorkerConfig) (symbol : String) {first : WorkerEnv}
    (hfirst : fetchSnapshotFor first.provider = none) (inputs : List (OrderbookDelta × WorkerEnv)) :
    (perSymbolWorker cfg symbol first (inputs.map fun x => (.delta x.1,x.2))).LateStart cfg symbol inputs := by
  induction inputs using List.reverseRecOn with
  | nil =>
    have hstart : SymbolWorker.start symbol first = ⟨OrderBook.new symbol,[],false⟩ := by
      rw [start, hfirst]
    change (start symbol first).LateStart cfg symbol []
    rw [hstart]
    exact lateStart_waiting (fun i x hx => by cases hx) rfl
  | append_singleton inputs x ih =>
    rw [List.map_append, List.map_singleton, perSymbolWorker_concat]
    exact ih.receive x

end

end SymbolWorker

namespace WiredFeed
variable {P : Type} {cfg : SymbolWorkerConfig} {d : StreamDecoder} {s : WiredFeed P} {symbol : String} {tx : Channel}

def StartsEmpty (symbol : String) (symbol' : String) (env : WorkerEnv) : Prop :=
  symbol' = symbol → fetchSnapshotFor env.provider = none

section Runs
variable {setup : List (MarketEvent P)} {m : MarketData P} {a : BinanceSpotAdapter} {lower : String → String}
  {symbols : List String} {events : List (WiredEvent P)}

/-- When the first fetch of a symbol registered for good fails, its worker takes the deltas of the
symbol and is, after each of them, a worker that started late: it asks for a snapshot exactly with the
deltas whose number is a multiple of `maxBufferedDeltas + 1`, and has a book from the first answer on. -/
theorem late_start (hsetup : run (MarketData.step cfg) MarketData.new setup = some m)
    (hforward : ∀ ev ∈ setup, ∀ update, ev ≠ .forward update)
    (hentry : m.registry.senders.lookup symbol = some tx) (hquiet : m.registry.Quiet symbol)
    (hstarts : AllSteps (MarketData.step cfg) (MarketData.AnsweredBy (StartsEmpty symbol) Anything)
      MarketData.new setup)
    (hrun : run (step cfg d) (start a lower symbols m) events = some s) (hcall : ∀ ev ∈ events, NoCall symbol ev)
    (hstarted : AllSteps (step cfg d) (AnsweredBy (StartsEmpty symbol) Anything) (start a lower symbols m) events) :
    ∀ w, s.market.tasks tx = some w → ∃ (first : WorkerEnv) (inputs : List (OrderbookDelta × WorkerEnv)),
      s.market.received tx = (inputs.map Prod.fst).map .delta ∧
      inputs.map Prod.fst <+: (s.taken symbol).map OrderbookUpdate.delta ∧
      w = perSymbolWorker cfg symbol first (inputs.map fun x => (.delta x.1,x.2)) ∧
      ∀ earlier, earlier <+: inputs →
        (perSymbolWorker cfg symbol first (earlier.map fun x => (.delta x.1,x.2))).LateStart cfg symbol earlier := by
  intro w hw
  have hs := fed_run hsetup hforward hentry hquiet hrun hcall
  obtain ⟨first,ds,hfirst,hreceived,hpre,hw⟩ := hs.worker_inputs (working_run hsetup hstarts hrun hstarted) hw
  exact ⟨first,ds,hreceived,hpre,hw,
    fun earlier _ => SymbolWorker.lateStart_perSymbolWorker cfg symbol (hfirst rfl) earlier⟩

end Runs

def delivered (txt : String) (answer : Except MarketDataError OrderbookSnapshot) (now : Instant) :
    List (WiredEvent Unit) :=
  [.stream 0 (.read (.text txt)),.forward,.market (.send "BTCUSDT"),.market (.wake "BTCUSDT" 0 (fun _ => answer) now)]

/-- With room for one delta the second one is dropped with the first, and nobody answers. -/
def overflowOnce : List (WiredEvent Unit) :=
  .stream 0 .connected :: .market (.wake "BTCUSDT" 0 (fun _ => .error (.other "")) 4) ::
    (delivered "btc 1" (.error (.other "")) 5 ++ delivered "btc 2" (.error (.other "")) 6 ++
      delivered "btc 1" (.error (.other "")) 7)

theorem late_start_overflowTwice :
    ∃ s, run (step ⟨1,1000⟩ spotTexts) (start .new id ["BTCUSDT"] wiredSpot)
        (overflowOnce ++ delivered "btc 2" (.ok emptySnapshot) 8) = some s ∧
      ∃ (first : WorkerEnv) (inputs : List (OrderbookDelta × WorkerEnv)), inputs.length = 4 ∧
        (s.market.tasks 0).map SymbolWorker.snapshotApplied = some true ∧
        s.market.tasks 0 = some (perSymbolWorker ⟨1,1000⟩ "BTCUSDT" first (inputs.map fun x => (.delta x.1,x.2))) ∧
        ∀ earlier, earlier <+: inputs → (perSymbolWorker ⟨1,1000⟩ "BTCUSDT" first
          (earlier.map fun x => (.delta x.1,x.2))).LateStart ⟨1,1000⟩ "BTCUSDT" earlier := by
  have hrun : run (step ⟨1,1000⟩ spotTexts) (start .new id ["BTCUSDT"] wiredSpot)
      (overflowOnce ++ delivered "btc 2" (.ok emptySnapshot) 8) =
      some ((run (step ⟨1,1000⟩ spotTexts) (start .new id ["BTCUSDT"] wiredSpot)
        (overflowOnce ++ delivered "btc 2" (.ok emptySnapshot) 8)).get (by decide +kernel)) := (Option.some_get _).symm
  have hinit : run (step ⟨1,1000⟩ spotTexts) (start .new id ["BTCUSDT"] wiredSpot) overflowOnce =
      some ((run (step ⟨1,1000⟩ spotTexts) (start .new id ["BTCUSDT"] wiredSpot) overflowOnce).get
        (by decide +kernel)) := (Option.some_get _).symm
  obtain ⟨hsetup,hforward,hentry,hquiet,-⟩ := setup_registerSpot ⟨1,1000⟩
  have hcall : ∀ ev ∈ overflowOnce ++ delivered "btc 2" (.ok emptySnapshot) 8, NoCall "BTCUSDT" ev := by
    simp [overflowOnce, delivered, NoCall, MarketData.NoCall]
  have hstarts : AllSteps (MarketData.step ⟨1,1000⟩) (MarketData.AnsweredBy (StartsEmpty "BTCUSDT") Anything)
      MarketData.new registerSpot := allSteps_of_forall (by simp [registerSpot, MarketData.AnsweredBy]) _
  have hempty : ∀ ev ∈ overflowOnce, ∀ s : WiredFeed Unit, AnsweredBy (StartsEmpty "BTCUSDT") Anything s ev := by
    have hnone : ∀ p : Option Unit, fetchSnapshotFor (p.map fun _ => .error (.other "")) = none := by decide
    simp [overflowOnce, delivered, AnsweredBy, MarketData.AnsweredBy, MarketData.workerEnv, StartsEmpty, Anything,
      hnone]
  have hstarted : AllSteps (step ⟨1,1000⟩ spotTexts) (AnsweredBy (StartsEmpty "BTCUSDT") Anything)
      (start .new id ["BTCUSDT"] wiredSpot) (overflowOnce ++ delivered "btc 2" (.ok emptySnapshot) 8) :=
    (allSteps_append hinit).mpr ⟨allSteps_of_forall hempty _,
      .intro trivial rfl (.intro trivial rfl (.intro trivial rfl
        (.intro ⟨trivial,fun hnone => by cases hnone⟩ rfl trivial)))⟩
  generalize hs : (run (step ⟨1,1000⟩ spotTexts) (start .new id ["BTCUSDT"] wiredSpot)
    (overflowOnce ++ delivered "btc 2" (.ok emptySnapshot) 8)).get (by decide +kernel) = s at hrun
  have happlied : (s.market.tasks 0).map SymbolWorker.snapshotApplied = some true := by
    rw [← hs]
    decide +kernel
  have hreceived : (s.market.received 0).length = 4 := by
    rw [← hs]
    decide +kernel
  obtain ⟨w,hw,-⟩ := Option.map_eq_some_iff.mp happlied
  obtain ⟨first,inputs,hinputs,-,rfl,hlate⟩ := late_start hsetup hforward hentry hquiet hstarts hrun hcall hstarted w hw
  rw [hinputs, List.length_map, List.length_map] at hreceived
  exact ⟨s,hrun,first,inputs,hreceived,happlied,hw,hlate⟩

end WiredFeed

end ArbCore
