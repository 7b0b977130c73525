import ArbCore.Adapters.Snapshots
import ArbCore.Demo.TradingLoop
import ArbCore.Marketdata.Fetches
import ArbCore.Strategy.TracedPlans

/-! # From the exchange to the plans

The demo polls the depth of its three symbols and makes a view of each tick. The views reach
the engine through the bounded channel of the subscription, a forwarding task and an
unbounded channel. Here the whole path runs next to the trading loop.
-/
namespace ArbCore
open LabelledRun

/-- What the demo sets the path up with; `debug` prints an error of the adapter. -/
structure DetectionSetup where
  tri : Triangle
  cfg : StrategyConfig
  storage : Bool
  tables : TextTables
  adapter : BinanceSpotAdapter
  debug : AdapterError → String

abbrev Http := String → Except AdapterError BinanceDepthResponse

inductive ViewForwarder where
  | receiving
  | holding (view : TriView)
  | ended

def ViewForwarder.held : ViewForwarder → List TriView
  | .holding view => [view]
  | _ => []

/-- `views` is what the unbounded channel was given; the detector received `delivered` of them. -/
structure DetectionPath where
  subscription : TriSubscription MarketDataError
  forwarder : ViewForwarder
  views : List TriView
  delivered : ℕ
  loop : TradingLoop

/-- `elapsed` is how many nanoseconds pass between taking an instant and asking for its age. -/
inductive DetectionEvent where
  | subscription (ev : SubscriptionEvent MarketDataError)
  | fetched (fetch : Fetch) (http : Http) (elapsed : ℕ)
  | takeView
  | sendView
  | receiveView
  | loop (ev : TradingEvent)

/-- What the subscription task does by itself: the demo never shuts it down. -/
def SubscriptionEvent.own {E : Type} : SubscriptionEvent E → Bool
  | .tick | .joined | .sent | .sendTimedOut | .sendClosed => true
  | _ => false

def DetectorPhase.ended : DetectorPhase → Bool
  | .stopped | .panicked => true
  | _ => false

def TradingEvent.isView : TradingEvent → Bool
  | .engine (.view _) => true
  | _ => false

def DetectionSetup.snapshotGetter (d : DetectionSetup) (http : Http) (elapsed : ℕ) (symbol : String) :
    Except MarketDataError OrderbookSnapshot :=
  match d.adapter.getSnapshot d.tables http symbol with
  | .error e => .error (.other s!"adapter error: {d.debug e}")
  | .ok snap => .ok ⟨snap.symbol,snap.bids,snap.asks,snap.sequence,some elapsed⟩

namespace DetectionPath
variable {d : DetectionSetup} {s t : DetectionPath} {ev : DetectionEvent}

def new : DetectionPath := ⟨.new,.receiving,[],0,.new⟩

def engine (s : DetectionPath) : Engine := s.loop.engine

def step (d : DetectionSetup) (s : DetectionPath) : DetectionEvent → Option DetectionPath
  | .subscription ev =>
    if ev.own then (s.subscription.step d.tri ev).map fun sub => { s with subscription := sub } else none
  | .fetched fetch http elapsed =>
    (s.subscription.step d.tri (fetch.event (d.snapshotGetter http elapsed (d.tri.symbol fetch)))).map fun sub =>
      { s with subscription := sub }
  | .takeView => match s.forwarder, s.subscription.channel.recv with
    | .receiving, some (view,_) =>
      (s.subscription.step d.tri .recv).map fun sub => { s with subscription := sub, forwarder := .holding view }
    | _, _ => none
  | .sendView => match s.forwarder with
    | .holding view =>
      if s.engine.detector.ended then
        (s.subscription.step d.tri .dropRx).map fun sub => { s with subscription := sub, forwarder := .ended }
      else some { s with views := s.views ++ [view], forwarder := .receiving }
    | _ => none
  | .receiveView =>
    s.views[s.delivered]?.bind fun view =>
      (s.loop.step d.cfg d.storage (.engine (.view view))).map fun l =>
        { s with loop := l, delivered := s.delivered + 1 }
  | .loop ev =>
    if ev.isView then none else (s.loop.step d.cfg d.storage ev).map fun l => { s with loop := l }

inductive Move (d : DetectionSetup) (s : DetectionPath) : DetectionEvent → DetectionPath → Prop
  | subscription {ev : SubscriptionEvent MarketDataError} {sub : TriSubscription MarketDataError}
      (hown : ev.own = true) (hsub : s.subscription.step d.tri ev = some sub) :
      Move d s (.subscription ev) { s with subscription := sub }
  | fetched {fetch : Fetch} {http : Http} {elapsed : ℕ} {sub : TriSubscription MarketDataError}
      (hsub : s.subscription.step d.tri
        (fetch.event (d.snapshotGetter http elapsed (d.tri.symbol fetch))) = some sub) :
      Move d s (.fetched fetch http elapsed) { s with subscription := sub }
  | takeView {view : TriView} {sub : TriSubscription MarketDataError} (hreceiving : s.forwarder = .receiving)
      (hsub : s.subscription.step d.tri .recv = some sub)
      (hreceived : sub.received = s.subscription.received ++ [view]) :
      Move d s .takeView { s with subscription := sub, forwarder := .holding view }
  | forwarded {view : TriView} (hholding : s.forwarder = .holding view) :
      Move d s .sendView { s with views := s.views ++ [view], forwarder := .receiving }
  | ended {view : TriView} {sub : TriSubscription MarketDataError} (hholding : s.forwarder = .holding view)
      (hsub : s.subscription.step d.tri .dropRx = some sub) :
      Move d s .sendView { s with subscription := sub, forwarder := .ended }
  | receiveView {view : TriView} {l : TradingLoop} (hview : s.views[s.delivered]? = some view)
      (hl : s.loop.step d.cfg d.storage (.engine (.view view)) = some l) :
      Move d s .receiveView { s with loop := l, delivered := s.delivered + 1 }
  | loop {ev : TradingEvent} {l : TradingLoop} (hview : ev.isView = false)
      (hl : s.loop.step d.cfg d.storage ev = some l) : Move d s (.loop ev) { s with loop := l }

theorem step_move (h : s.step d ev = some t) : Move d s ev t := by
  cases ev with
  | subscription ev =>
    simp only [step] at h
    split_ifs at h with hown
    obtain ⟨sub,hsub,rfl⟩ := Option.map_eq_some_iff.mp h
    exact .subscription hown hsub
  | fetched fetch http elapsed =>
    obtain ⟨sub,hsub,rfl⟩ := Option.map_eq_some_iff.mp h
    exact .fetched hsub
  | takeView =>
    simp only [step] at h
    split at h
    · rename_i view channel hreceiving hrecv
      obtain ⟨sub,hsub,rfl⟩ := Option.map_eq_some_iff.mp h
      refine .takeView hreceiving hsub ?_
      simp only [TriSubscription.step, hrecv, Option.map_some, Option.some.injEq] at hsub
      exact hsub ▸ rfl
    · cases h
  | sendView =>
    simp only [step] at h
    split at h
    · rename_i view hholding
      split_ifs at h
      · obtain ⟨sub,hsub,rfl⟩ := Option.map_eq_some_iff.mp h
        exact .ended hholding hsub
      · exact Option.some.inj h ▸ .forwarded hholding
    · cases h
  | receiveView =>
    obtain ⟨view,hview,h⟩ := Option.bind_eq_some_iff.mp h
    obtain ⟨l,hl,rfl⟩ := Option.map_eq_some_iff.mp h
    exact .receiveView hview hl
  | loop ev =>
    simp only [step] at h
    split_ifs at h with hview
    obtain ⟨l,hl,rfl⟩ := Option.map_eq_some_iff.mp h
    exact .loop (Bool.not_eq_true _ ▸ hview) hl

/-- What the path hands on: each list comes from the one before it, in its order. -/
structure Piped (d : DetectionSetup) (s : DetectionPath) : Prop where
  offered : s.subscription.offered.Sublist (s.subscription.views d.tri)
  handed : (s.views ++ s.forwarder.held).Sublist s.subscription.received
  delivered : s.delivered ≤ s.views.length
  traced : s.engine.Traced d.cfg (s.views.take s.delivered)

theorem piped_new (d : DetectionSetup) : new.Piped d :=
  ⟨List.Sublist.refl _,List.Sublist.refl _,le_rfl,Engine.traced_new d.cfg⟩

theorem Piped.move (hs : s.Piped d) (h : Move d s ev t) : t.Piped d := by
  obtain ⟨hoffered,hhanded,hdelivered,htraced⟩ := hs
  cases h with
  | subscription hown hsub =>
    refine ⟨TriSubscription.offered_step hoffered hsub,?_,hdelivered,htraced⟩
    exact (TriSubscription.step_received hsub fun hev => by rw [hev] at hown; cases hown) ▸ hhanded
  | @fetched fetch http elapsed sub hsub =>
    refine ⟨TriSubscription.offered_step hoffered hsub,?_,hdelivered,htraced⟩
    exact (TriSubscription.step_received hsub fun hev => by cases fetch <;> cases hev) ▸ hhanded
  | takeView hreceiving hsub hreceived =>
    refine ⟨TriSubscription.offered_step hoffered hsub,?_,hdelivered,htraced⟩
    have hheld : s.forwarder.held = [] := hreceiving ▸ rfl
    rw [hheld, List.append_nil] at hhanded
    exact hreceived ▸ hhanded.append (List.Sublist.refl _)
  | @forwarded view hholding =>
    rw [hholding] at hhanded
    refine ⟨hoffered,(List.append_nil _).symm ▸ hhanded,?_,?_⟩
    · exact hdelivered.trans (List.sublist_append_left _ _).length_le
    · change s.engine.Traced d.cfg ((s.views ++ [view]).take s.delivered)
      rwa [List.take_append_of_le_length hdelivered]
  | ended hholding hsub =>
    refine ⟨TriSubscription.offered_step hoffered hsub,?_,hdelivered,htraced⟩
    rw [TriSubscription.step_received hsub fun hev => by cases hev]
    exact (List.append_nil _).symm ▸ (List.sublist_append_left _ _).trans hhanded
  | @receiveView view l hview hl =>
    obtain ⟨hlt,hget⟩ := List.getElem?_eq_some_iff.mp hview
    refine ⟨hoffered,hhanded,hlt,?_⟩
    obtain ⟨ledger,hledger,rfl⟩ : ∃ ledger, s.loop.ledger.step d.cfg d.storage (.view view) = some ledger ∧
        l = { s.loop with ledger := ledger } := by
      cases TradingLoop.step_move hl with
      | engine _ hledger => exact ⟨_,hledger,rfl⟩
    change ledger.engine.Traced d.cfg (s.views.take (s.delivered + 1))
    rw [List.take_add_one, hview]
    exact htraced.view (Ledger.engine_step hledger)
  | @loop ev l hview hl =>
    refine ⟨hoffered,hhanded,hdelivered,?_⟩
    cases TradingLoop.step_move hl with
    | engine _ hledger =>
      exact htraced.step (fun view hev => by rw [hev] at hview; cases hview) (Ledger.engine_step hledger)
    | receiveReport _ _ hledger =>
      exact htraced.step (fun view hev => by cases hev) (Ledger.engine_step hledger)
    | _ => exact htraced

theorem Piped.views_sublist (hs : s.Piped d) : s.views.Sublist (s.subscription.views d.tri) :=
  ((List.sublist_append_left _ _).trans hs.handed).trans
    ((List.sublist_append_left _ _).trans ((List.sublist_append_left _ _).trans hs.offered))

theorem piped_run {events : List DetectionEvent} (h : run (step d) new events = some s) : s.Piped d :=
  @run_invariant _ _ (step d) (Piped d) (fun _ _ _ hs hstep => hs.move (step_move hstep)) _ _ _ (piped_new d) h

def Answered (d : DetectionSetup) (events : List DetectionEvent) (fetch : Fetch) (snap : OrderbookSnapshot) : Prop :=
  ∃ http elapsed body, .fetched fetch http elapsed ∈ events ∧
    http (d.adapter.depthUrl d.tables (d.tri.symbol fetch) 100) = .ok body ∧
    (body.bids.mapM fun l => d.tables.parseLevel l.1 l.2) = .ok snap.bids ∧
    (body.asks.mapM fun l => d.tables.parseLevel l.1 l.2) = .ok snap.asks ∧ snap.sequence = some body.lastUpdateId

theorem answered_of_ok {events : List DetectionEvent} {fetch : Fetch} {http : Http} {elapsed : ℕ}
    (hmem : .fetched fetch http elapsed ∈ events) {snap : OrderbookSnapshot}
    (hsnap : d.snapshotGetter http elapsed (d.tri.symbol fetch) = .ok snap) : Answered d events fetch snap := by
  unfold DetectionSetup.snapshotGetter at hsnap
  cases hget : d.adapter.getSnapshot d.tables http (d.tri.symbol fetch) with
  | error e =>
    rw [hget] at hsnap
    cases hsnap
  | ok update =>
    rw [hget] at hsnap
    cases hsnap
    obtain ⟨body,hhttp,hupdate⟩ := BinanceSpotAdapter.getSnapshot_ok hget
    obtain ⟨hbids,hasks,-,hsequence,-⟩ := TextTables.toUpdateFromDepth_ok hupdate
    exact ⟨http,elapsed,body,hmem,hhttp,hbids,hasks,hsequence⟩

def FetchesAnswered (d : DetectionSetup) (events : List DetectionEvent) (s : DetectionPath) : Prop :=
  s.subscription.Fetched fun fetch res => ∀ snap, res = .ok snap → Answered d events fetch snap

theorem FetchesAnswered.move {events : List DetectionEvent} (hs : s.FetchesAnswered d events) (hmem : ev ∈ events)
    (h : Move d s ev t) : t.FetchesAnswered d events := by
  cases h with
  | subscription hown hsub =>
    exact TriSubscription.Fetched.step hs (fun fetch res hev => by cases fetch <;> (rw [hev] at hown; cases hown)) hsub
  | fetched hsub =>
    refine TriSubscription.Fetched.step hs (fun fetch res hev snap hres => ?_) hsub
    obtain ⟨rfl,rfl⟩ := Fetch.event_inj hev
    exact answered_of_ok hmem hres
  | takeView _ hsub _ => exact TriSubscription.Fetched.step hs (fun fetch res hev => by cases fetch <;> cases hev) hsub
  | ended _ hsub => exact TriSubscription.Fetched.step hs (fun fetch res hev => by cases fetch <;> cases hev) hsub
  | _ => exact hs

theorem fetched_run {events : List DetectionEvent} (h : run (step d) new events = some s) :
    s.FetchesAnswered d events := by
  have hreaches : Reaches (step d) (· ∈ events) new s := ⟨events,fun _ hev => hev,h⟩
  have hnew : new.FetchesAnswered d events := TriSubscription.fetched_new
  exact hreaches.invariant (fun ev s t hmem hs hstep => hs.move hmem (step_move hstep)) hnew

theorem answered_of_view {events : List DetectionEvent} (hs : s.Piped d) (hfetches : s.FetchesAnswered d events)
    {view : TriView} (hview : view ∈ s.views) :
    ∃ snap : Fetch → OrderbookSnapshot, (∀ fetch, Answered d events fetch (snap fetch)) ∧ view = d.tri.view snap := by
  obtain ⟨tick,htick,hview⟩ := List.mem_filterMap.mp (hs.views_sublist.subset hview)
  obtain ⟨snap,hres,rfl⟩ := Tick.view?_eq_some hview
  exact ⟨snap,fun fetch => hfetches.joined tick htick fetch _ (hres fetch),rfl⟩

/-- The tick joined three answers, and their view allows the plan. -/
def Source (d : DetectionSetup) (events : List DetectionEvent) (tick : Tick MarketDataError) (plan : TradePlan) :
    Prop :=
  ∃ snap : Fetch → OrderbookSnapshot,
    (∀ fetch, tick.res fetch = .ok (snap fetch) ∧ Answered d events fetch (snap fetch)) ∧
    Submittable d.cfg (d.tri.view snap) plan

/-- The plans that the engine sends come from ticks in the order of the ticks, at most two from
each: a plan is one that the checks pass in the view of the depths answered to the three
fetches of its tick. -/
theorem plans_traced {events : List DetectionEvent} (hrun : run (step d) new events = some s) :
    ∃ positions, AttributedAt (Source d events) 2 s.subscription.ticks s.engine.execTx positions := by
  have hs := piped_run hrun
  have hfetched := (fetched_run hrun).joined
  obtain ⟨positions,hat,-⟩ := hs.traced.sent
  have hviews := (List.take_sublist s.delivered s.views).trans hs.views_sublist
  obtain ⟨drawn,hlt,hdrawn⟩ := BoundedChannel.exists_positions hviews
  obtain ⟨positions,hordered,hmade,hatMost⟩ := hat.trans hlt hdrawn
  refine ⟨positions,hordered,hmade.imp fun i plan hplan => ?_,hatMost⟩
  obtain ⟨tick,htick,view,hview,hsubmittable⟩ := hplan
  obtain ⟨snap,hres,rfl⟩ := Tick.view?_eq_some hview
  have hanswered := hfetched tick (List.mem_of_getElem? htick)
  exact ⟨tick,htick,snap,fun fetch => ⟨hres fetch,hanswered fetch _ (hres fetch)⟩,hsubmittable⟩

section Witness

def fewPrices : String → Except String Decimal
  | "50000.00" => .ok 50000
  | "2600.00" => .ok 2600
  | "0.05" => .ok (1/20)
  | "1.0" => .ok 1
  | "10.0" => .ok 10
  | _ => .error "not a number"

def plainSetup : DetectionSetup where
  tri := TriSubscription.btcTriangle
  cfg := plainConfig
  storage := true
  tables := ⟨fewPrices,fun c => [c]⟩
  adapter := .new
  debug := fun _ => ""

def mispricedDepths : Http
  | "https://api.binance.com/api/v3/depth?symbol=BTCUSDT&limit=100" => .ok ⟨7,[],[("50000.00","1.0")]⟩
  | "https://api.binance.com/api/v3/depth?symbol=ETHUSDT&limit=100" => .ok ⟨8,[("2600.00","10.0")],[]⟩
  | "https://api.binance.com/api/v3/depth?symbol=ETHBTC&limit=100" => .ok ⟨9,[],[("0.05","10.0")]⟩
  | _ => .error (.other "status 404")

def pollThenPlan : List DetectionEvent :=
  [.subscription .tick,.fetched .bc mispricedDepths 40,.fetched .ac (fun _ => .error (.other "timeout")) 40,
    .fetched .ab mispricedDepths 50,.subscription .joined,.subscription .tick] ++
    ([.ac,.ab,.bc].map fun fetch => .fetched fetch mispricedDepths 40) ++
    [.subscription .joined,.takeView,.sendView,.receiveView] ++
    List.replicate 5 (.loop (.engine (.detector ⟨"p1",0,true⟩)))

theorem plans_traced_pollThenPlan :
    ∃ s, run (step plainSetup) new pollThenPlan = some s ∧ s.engine.execTx.length = 1 ∧
      ∃ positions, AttributedAt (Source plainSetup pollThenPlan) 2 s.subscription.ticks s.engine.execTx positions :=
  ⟨(run (step plainSetup) new pollThenPlan).get (by decide +kernel),(Option.some_get _).symm,by decide +kernel,
    plans_traced (Option.some_get _).symm⟩

end Witness

end DetectionPath

end ArbCore
