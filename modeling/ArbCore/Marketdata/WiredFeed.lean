import ArbCore.Adapters.DepthStreams
import ArbCore.Marketdata.SymbolAlone
import ArbCore.Marketdata.WorkerInputs

/-! # From the sockets to the workers

The adapter's streams run next to the forwarder and the workers, and the forwarder takes
the updates from the channel of the streams in their order. So what a worker gets can be
told from the texts that the sockets yielded.
-/
namespace ArbCore
open LabelledRun

/-- The forwarder has taken `forwarded` updates of the channel. -/
structure WiredFeed (P : Type) where
  streams : DepthStreams
  forwarded : ℕ
  market : MarketData P

inductive WiredEvent (P : Type) where
  | stream (i : ℕ) (ev : SocketEvent)
  | forward
  | market (ev : MarketEvent P)

/-- Updates reach the forwarder from the streams only. -/
def MarketEvent.isForward {P : Type} : MarketEvent P → Bool
  | .forward _ => true
  | _ => false

def OrderbookUpdate.delta (update : OrderbookUpdate) : OrderbookDelta :=
  ⟨update.symbol,update.bids,update.asks,update.sequence.map (· - 1),update.sequence,none⟩

theorem OrderbookUpdate.message?_of_stream {update : OrderbookUpdate} (h : update.isSnapshot = false) :
    update.message? = some (.delta update.delta) := by
  rw [message?, mapAdapterUpdateToMessage, if_neg (by rw [h]; exact Bool.false_ne_true)]
  rfl

namespace WiredFeed
variable {P : Type} {cfg : SymbolWorkerConfig} {d : StreamDecoder} {s t : WiredFeed P} {ev : WiredEvent P}
  {symbol : String} {tx : Channel} {p : Option P}

def step (cfg : SymbolWorkerConfig) (d : StreamDecoder) (s : WiredFeed P) : WiredEvent P → Option (WiredFeed P)
  | .stream i ev => (s.streams.step d (.socket i ev)).map fun streams => { s with streams := streams }
  | .forward =>
    s.streams.log[s.forwarded]?.bind fun x => (s.market.step cfg (.forward x.2)).map fun market =>
      { s with market := market, forwarded := s.forwarded + 1 }
  | .market ev => if ev.isForward then none else (s.market.step cfg ev).map fun market => { s with market := market }

def NoCall (symbol : String) : WiredEvent P → Prop
  | .market ev => MarketData.NoCall symbol ev
  | _ => True

/-- The updates that the forwarder has taken, those of one symbol. -/
def taken (s : WiredFeed P) (symbol : String) : List OrderbookUpdate :=
  ((s.streams.log.take s.forwarded).map Prod.snd).filter fun update => update.symbol = symbol

/-- The worker's channel holds the deltas of its symbol, in the order of the streams' channel. -/
structure Fed (d : StreamDecoder) (symbol : String) (tx : Channel) (p : Option P) (s : WiredFeed P) : Prop where
  streams : s.streams.Delivered d
  rxOpen : s.streams.rxOpen = true
  deltas : ∀ x ∈ s.streams.log, x.2.isSnapshot = false
  forwarded : s.forwarded ≤ s.streams.log.length
  wired : s.market.Wired symbol tx p
  messages : s.market.received tx ++ s.market.waiting tx =
    (s.taken symbol).map fun update => .delta update.delta

theorem log_step {streams streams' : DepthStreams} {i : ℕ} {ev : SocketEvent}
    (h : streams.step d (.socket i ev) = some streams') : streams'.rxOpen = streams.rxOpen ∧
      ∃ more, streams'.log = streams.log ++ more ∧ ∀ x ∈ more, x.2.isSnapshot = false := by
  obtain ⟨task,socket,-,-,rfl⟩ := DepthStreams.step_socket h
  refine ⟨rfl,_,rfl,fun x hx => ?_⟩
  obtain ⟨update,hupdate,rfl⟩ := Option.map_eq_some_iff.mp (Option.mem_toList.mp hx)
  unfold DepthStreams.sends at hupdate
  split_ifs at hupdate
  obtain ⟨txt,-,hdecoded⟩ := Option.bind_eq_some_iff.mp hupdate
  exact StreamDecoder.isSnapshot_eq_false hdecoded

theorem messages_move {m m' : MarketData P} {ev : MarketEvent P} (hwired : m.Wired symbol tx p)
    (hmove : MarketData.Move cfg m ev m') : m'.received tx ++ m'.waiting tx = m.received tx ++ m.waiting tx ++
      ((MarketData.updateOf symbol ev).bind OrderbookUpdate.message?).toList := by
  rw [← MarketData.message_feedEvent symbol tx p ev]
  cases he : MarketData.feedEvent symbol tx p ev with
  | none =>
    have hfeed := MarketData.feed_silent hwired hmove he
    exact ((congrArg (fun f : SymbolFeed => f.received ++ f.waiting) hfeed).trans (List.append_nil _).symm)
  | some e => exact SymbolFeed.messages_step (MarketData.feed_step hwired hmove he)

theorem Fed.step (hs : s.Fed d symbol tx p) (hcall : NoCall symbol ev) (h : s.step cfg d ev = some t) :
    t.Fed d symbol tx p := by
  obtain ⟨hstreams,hopen,hdeltas,hforwarded,hwired,hmessages⟩ := hs
  cases ev with
  | stream i ev =>
    obtain ⟨streams,hstep,rfl⟩ := Option.map_eq_some_iff.mp h
    obtain ⟨hrx,more,hlog,hmore⟩ := log_step hstep
    refine ⟨hstreams.step hstep,hrx.trans hopen,?_,?_,hwired,?_⟩
    · exact hlog ▸ List.forall_mem_append.mpr ⟨hdeltas,hmore⟩
    · rw [hlog]
      exact hforwarded.trans (List.sublist_append_left _ _).length_le
    · rw [taken, hlog, List.take_append_of_le_length hforwarded]
      exact hmessages
  | forward =>
    obtain ⟨x,hx,h⟩ := Option.bind_eq_some_iff.mp h
    obtain ⟨market,hmarket,rfl⟩ := Option.map_eq_some_iff.mp h
    have hmove := MarketData.step_move hmarket
    obtain ⟨hlt,-⟩ := List.getElem?_eq_some_iff.mp hx
    refine ⟨hstreams,hopen,hdeltas,hlt,?_,?_⟩
    · exact hwired.move hmove fun snapshotFn hev => by cases hev
    · have htaken : taken { s with market := market, forwarded := s.forwarded + 1 } symbol =
          s.taken symbol ++ if x.2.symbol = symbol then [x.2] else [] := by
        unfold taken
        rw [List.take_add_one, hx, List.map_append, List.filter_append]
        by_cases hsym : x.2.symbol = symbol <;> simp [hsym]
      rw [messages_move hwired hmove, hmessages, htaken, List.map_append]
      by_cases hsym : x.2.symbol = symbol
      · have hmsg := OrderbookUpdate.message?_of_stream (hdeltas x (List.mem_of_getElem? hx))
        simp [MarketData.updateOf, hsym, hmsg]
      · simp [MarketData.updateOf, hsym]
  | market ev =>
    simp only [WiredFeed.step] at h
    split_ifs at h with hev
    obtain ⟨market,hmarket,rfl⟩ := Option.map_eq_some_iff.mp h
    have hmove := MarketData.step_move hmarket
    refine ⟨hstreams,hopen,hdeltas,hforwarded,hwired.move hmove hcall,?_⟩
    have hnone : MarketData.updateOf symbol ev = none := by
      cases ev with
      | forward update => exact absurd rfl hev
      | _ => rfl
    rw [messages_move hwired hmove, hnone]
    exact (List.append_nil _).trans hmessages

def start (a : BinanceSpotAdapter) (lower : String → String) (symbols : List String) (m : MarketData P) : WiredFeed P :=
  ⟨a.connectWs lower symbols,0,m⟩

section Runs
variable {setup : List (MarketEvent P)} {m : MarketData P} {a : BinanceSpotAdapter} {lower : String → String}
  {symbols : List String} {events : List (WiredEvent P)}

theorem fed_run (hsetup : run (MarketData.step cfg) MarketData.new setup = some m)
    (hforward : ∀ ev ∈ setup, ∀ update, ev ≠ .forward update)
    (hentry : m.registry.senders.lookup symbol = some tx) (hquiet : m.registry.Quiet symbol)
    (hrun : run (step cfg d) (start a lower symbols m) events = some s) (hcall : ∀ ev ∈ events, NoCall symbol ev) :
    s.Fed d symbol tx (m.registry.providers.lookup symbol) := by
  obtain ⟨hsending,hempty⟩ := MarketData.unfed_setup hsetup hforward
  have hstart : (start a lower symbols m).Fed d symbol tx (m.registry.providers.lookup symbol) := by
    refine ⟨DepthStreams.delivered_connectWs d a lower symbols,rfl,(fun x hx => by cases hx),le_rfl,
      MarketData.wired_setup hsetup hforward hentry hquiet,?_⟩
    change m.received tx ++ m.waiting tx = []
    rw [MarketData.waiting_idle hsending, (hempty tx).1, (hempty tx).2, List.append_nil]
  have hreaches : Reaches (step cfg d) (NoCall symbol) (start a lower symbols m) s := ⟨events,hcall,hrun⟩
  exact @Reaches.invariant _ _ _ _ _ _ (fun s => s.Fed d symbol tx (m.registry.providers.lookup symbol))
    (fun _ _ _ hev hs hstep => hs.step hev hstep) hstart hreaches

theorem Fed.mem_texts (hs : s.Fed d symbol tx p) {x : ℕ × OrderbookUpdate} (hx : x ∈ s.streams.log) :
    ∃ task, s.streams.tasks[x.1]? = some task ∧ x.2 ∈ task.texts.filterMap d.update? := by
  refine ⟨_,List.getElem?_eq_getElem (hs.streams.senders x hx),?_⟩
  rw [← (hs.streams.sent x.1 _ (List.getElem?_eq_getElem (hs.streams.senders x hx))).2 hs.rxOpen]
  exact List.mem_map_of_mem (List.mem_filter.mpr ⟨hx,decide_eq_true rfl⟩)

/-- If no other stream carries the symbol, its updates in the channel are those of its own stream. -/
theorem Fed.log_eq (hs : s.Fed d symbol tx p) {i : ℕ} {task : StreamTask} (htask : s.streams.tasks[i]? = some task)
    (hother : ∀ (j : ℕ) task', s.streams.tasks[j]? = some task' → j ≠ i →
      ∀ update ∈ task'.texts.filterMap d.update?, update.symbol ≠ symbol) :
    (s.streams.log.map Prod.snd).filter (fun update => update.symbol = symbol) =
      (task.texts.filterMap d.update?).filter fun update => update.symbol = symbol := by
  rw [← (hs.streams.sent i task htask).2 hs.rxOpen, DepthStreams.sentBy, List.filter_map, List.filter_map,
    List.filter_filter]
  refine congrArg _ (List.filter_congr fun x hx => ?_)
  by_cases hsym : x.2.symbol = symbol
  · obtain ⟨task',htask',hmem⟩ := hs.mem_texts hx
    have hi : x.1 = i := by
      by_contra hne
      exact hother x.1 task' htask' hne x.2 hmem hsym
    simp [hsym, hi]
  · simp [hsym]

/-- What was taken of the symbol is the start of what its own stream carried. -/
theorem Fed.taken_prefix (hs : s.Fed d symbol tx p) {i : ℕ} {task : StreamTask}
    (htask : s.streams.tasks[i]? = some task)
    (hother : ∀ (j : ℕ) task', s.streams.tasks[j]? = some task' → j ≠ i →
      ∀ update ∈ task'.texts.filterMap d.update?, update.symbol ≠ symbol) :
    s.taken symbol <+: (task.texts.filterMap d.update?).filter fun update => update.symbol = symbol :=
  hs.log_eq htask hother ▸ (((List.take_prefix _ _).map Prod.snd).filter _)

/-- The worker of a symbol registered for good gets the delta of every update of the symbol that
the forwarder took, each once and in the order of the channel, and no snapshot. The channel
has the updates of each stream in the order of the texts on all its connections. So if
the other streams do not carry the symbol, the worker's deltas are the first ones of its stream. -/
theorem worker_reads_stream (hsetup : run (MarketData.step cfg) MarketData.new setup = some m)
    (hforward : ∀ ev ∈ setup, ∀ update, ev ≠ .forward update)
    (hentry : m.registry.senders.lookup symbol = some tx) (hquiet : m.registry.Quiet symbol)
    (hrun : run (step cfg d) (start a lower symbols m) events = some s) (hcall : ∀ ev ∈ events, NoCall symbol ev) :
    s.market.received tx ++ s.market.waiting tx = (s.taken symbol).map (fun update => .delta update.delta) ∧
      (∀ (i : ℕ) task, s.streams.tasks[i]? = some task → s.streams.sentBy i = task.texts.filterMap d.update?) ∧
      ∀ (i : ℕ) task, s.streams.tasks[i]? = some task →
        (∀ (j : ℕ) task', s.streams.tasks[j]? = some task' → j ≠ i →
          ∀ update ∈ task'.texts.filterMap d.update?, update.symbol ≠ symbol) →
        s.market.received tx ++ s.market.waiting tx <+:
          ((task.texts.filterMap d.update?).filter fun update => update.symbol = symbol).map
            fun update => .delta update.delta := by
  have hs := fed_run hsetup hforward hentry hquiet hrun hcall
  refine ⟨hs.messages,fun i task htask => (hs.streams.sent i task htask).2 hs.rxOpen,fun i task htask hother => ?_⟩
  rw [hs.messages]
  exact (hs.taken_prefix htask hother).map _

end Runs

section Witness

def wiredSpot : MarketData Unit :=
  ⟨⟨AList.insert "BTCUSDT" 0 ∅,AList.insert "BTCUSDT" () ∅,1,[("BTCUSDT",0)],[⟨"BTCUSDT",.returned 0⟩],
    [("BTCUSDT",0)]⟩,none,fun _ => [],fun _ => [],fun _ => none⟩

def registerSpot : List (MarketEvent Unit) :=
  .registry (.call "BTCUSDT" (some ())) :: List.replicate 4 (.registry (.advance 0))

def spotTexts : StreamDecoder where
  tables := ⟨fun txt => if txt = "100" then .ok 100 else if txt = "1" then .ok 1 else if txt = "2" then .ok 2
    else .error "not a number",fun c => [c]⟩
  wrapper := fun txt => if txt = "btc 1" then some ⟨"btcusdt@depth@100ms",⟨"BTCUSDT",1,[("100","1")],[]⟩⟩
    else if txt = "btc 2" then some ⟨"btcusdt@depth@100ms",⟨"BTCUSDT",2,[("100","2")],[]⟩⟩ else none
  event := fun txt => if txt = "eth 4" then some ⟨"ETHUSDT",4,[("1","1")],[]⟩ else none

def emptySnapshot : OrderbookSnapshot := ⟨"BTCUSDT",[],[],some 0,none⟩

/-- Two streams, a connection that fails in between, and a worker that wakes twice. -/
def streamThenWake : List (WiredEvent Unit) :=
  [.stream 0 .connected,.stream 1 .connected,.stream 1 (.read (.text "eth 4")),.stream 0 (.read (.text "btc 1")),
    .stream 0 (.read .error),.forward,.forward,.market (.send "BTCUSDT"),
    .market (.wake "BTCUSDT" 0 (fun _ => .ok emptySnapshot) 5),
    .market (.wake "BTCUSDT" 0 (fun _ => .error (.other "")) 6)]

theorem setup_registerSpot (cfg : SymbolWorkerConfig) :
    run (MarketData.step cfg) MarketData.new registerSpot = some wiredSpot ∧
      (∀ ev ∈ registerSpot, ∀ update, ev ≠ .forward update) ∧ wiredSpot.registry.senders.lookup "BTCUSDT" = some 0 ∧
      wiredSpot.registry.Quiet "BTCUSDT" ∧ ∀ ev ∈ streamThenWake, NoCall "BTCUSDT" ev := by
  refine ⟨rfl,by simp [registerSpot],rfl,fun c hc _ => ?_,?_⟩
  · cases List.mem_singleton.mp hc
    exact ⟨0,rfl⟩
  · simp [streamThenWake, NoCall, MarketData.NoCall]

theorem worker_reads_stream_streamThenWake :
    ∃ s, run (step ⟨10,0⟩ spotTexts) (start .new id ["BTCUSDT","ETHUSDT"] wiredSpot) streamThenWake = some s ∧
      s.market.received 0 ++ s.market.waiting 0 = [.delta ⟨"BTCUSDT",[⟨100,1⟩],[],some 0,some 1,none⟩] := by
  have hrun : run (step ⟨10,0⟩ spotTexts) (start .new id ["BTCUSDT","ETHUSDT"] wiredSpot) streamThenWake =
      some ((run (step ⟨10,0⟩ spotTexts) (start .new id ["BTCUSDT","ETHUSDT"] wiredSpot) streamThenWake).get
        (by decide +kernel)) := (Option.some_get _).symm
  obtain ⟨hsetup,hforward,hentry,hquiet,hcall⟩ := setup_registerSpot ⟨10,0⟩
  refine ⟨_,hrun,(worker_reads_stream hsetup hforward hentry hquiet hrun hcall).1.trans ?_⟩
  have htaken : taken ((run (step ⟨10,0⟩ spotTexts) (start .new id ["BTCUSDT","ETHUSDT"] wiredSpot) streamThenWake).get
      (by decide +kernel)) "BTCUSDT" = [⟨"BTCUSDT",[⟨100,1⟩],[],some 1,false⟩] := by decide +kernel
  rw [htaken]
  rfl

end Witness

end WiredFeed

end ArbCore
