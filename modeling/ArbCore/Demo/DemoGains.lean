import ArbCore.Demo.DetectionPath
import ArbCore.Demo.Gains
import ArbCore.Strategy.FineLots

/-! # What the demo gains

From the answers of the exchange to the fills of the executor: the trading loop inside the
path runs as it does on its own, fed with views of what the exchange answered. With the
configuration of the demo every plan that is carried through is a gain.
-/
namespace ArbCore
open LabelledRun

theorem head?_takeTop {levels : List Level} {topN : ℕ} {l : Decimal × Decimal} (h : l ∈ (takeTop levels topN).head?) :
    ∃ lvl ∈ levels.head?, l.1 = lvl.price := by
  rw [takeTop, List.head?_map, List.head?_take] at h
  split_ifs at h
  · cases h
  · obtain ⟨lvl,hlvl,rfl⟩ := Option.map_eq_some_iff.mp h
    exact ⟨lvl,hlvl,rfl⟩

theorem TradingEvent.fromViews_of_not_isView {ev : TradingEvent} (h : ev.isView = false) (V : Set TriView) :
    ev.FromViews V := by
  cases ev with
  | engine ev =>
    cases ev with
    | view _ => cases h
    | _ => trivial
  | _ => trivial

namespace DetectionPath
variable {d : DetectionSetup} {s t : DetectionPath} {ev : DetectionEvent} {events : List DetectionEvent}

def AnsweredViews (d : DetectionSetup) (events : List DetectionEvent) : Set TriView :=
  {view | ∃ snap : Fetch → OrderbookSnapshot, (∀ fetch, Answered d events fetch (snap fetch)) ∧ view = d.tri.view snap}

def Quotes (d : DetectionSetup) (events : List DetectionEvent) (P : Fetch → Decimal → Prop) : Prop :=
  ∀ fetch snap, Answered d events fetch snap →
    (∀ l ∈ snap.bids.head?, P fetch l.price) ∧ ∀ l ∈ snap.asks.head?, P fetch l.price

theorem loop_reaches (hrun : run (step d) new events = some s) :
    Reaches (TradingLoop.step d.cfg d.storage) (TradingEvent.FromViews (AnsweredViews d events)) .new s.loop := by
  have hreaches : Reaches (step d) (· ∈ events) new s := ⟨events,fun _ hev => hev,hrun⟩
  have hnew : new.Piped d ∧ new.FetchesAnswered d events ∧
      Reaches (TradingLoop.step d.cfg d.storage) (TradingEvent.FromViews (AnsweredViews d events)) .new new.loop :=
    ⟨piped_new d,TriSubscription.fetched_new,.refl _⟩
  have hmove : ∀ (ev : DetectionEvent) (s t : DetectionPath), ev ∈ events → (s.Piped d ∧ s.FetchesAnswered d events ∧
      Reaches (TradingLoop.step d.cfg d.storage) (TradingEvent.FromViews (AnsweredViews d events)) .new s.loop) →
      step d s ev = some t → t.Piped d ∧ t.FetchesAnswered d events ∧
        Reaches (TradingLoop.step d.cfg d.storage) (TradingEvent.FromViews (AnsweredViews d events)) .new t.loop := by
    rintro ev s t hmem ⟨hpiped,hfetches,hloop⟩ hstep
    have hmove := step_move hstep
    refine ⟨hpiped.move hmove,hfetches.move hmem hmove,?_⟩
    cases hmove with
    | @receiveView view _ hview hl =>
      have hanswered : (TradingEvent.engine (.view view)).FromViews (AnsweredViews d events) :=
        answered_of_view hpiped hfetches (List.mem_of_getElem? hview)
      exact hloop.trans (.head hanswered hl (.refl _))
    | loop hview hl => exact hloop.trans (.head (TradingEvent.fromViews_of_not_isView hview _) hl (.refl _))
    | _ => exact hloop
  exact (hreaches.invariant hmove hnew).2.2

theorem quotes_view {P : Fetch → Decimal → Prop} (hquotes : Quotes d events P) {view : TriView}
    (hview : view ∈ AnsweredViews d events) : ∃ snap : Fetch → OrderbookSnapshot, view = d.tri.view snap ∧ ∀ fetch,
      (∀ l ∈ (takeTop (snap fetch).bids d.tri.topN).head?, P fetch l.1) ∧
      ∀ l ∈ (takeTop (snap fetch).asks d.tri.topN).head?, P fetch l.1 := by
  obtain ⟨snap,hsnap,rfl⟩ := hview
  refine ⟨snap,rfl,fun fetch => ⟨fun l hl => ?_,fun l hl => ?_⟩⟩
  · obtain ⟨lvl,hlvl,heq⟩ := head?_takeTop hl
    exact heq ▸ (hquotes fetch _ (hsnap fetch)).1 lvl hlvl
  · obtain ⟨lvl,hlvl,heq⟩ := head?_takeTop hl
    exact heq ▸ (hquotes fetch _ (hsnap fetch)).2 lvl hlvl

/-- The price is positive and lots of the pair are worth no more than the bound at it; the pair
in the middle of a plan may have any lots. -/
def FineQuote (d : DetectionSetup) (bound : Decimal) (fetch : Fetch) (price : Decimal) : Prop :=
  0 < price ∧ (fetch ≠ .ac → LotsWithin d.cfg bound (d.tri.symbol fetch) price)

variable {bound : Decimal}

theorem fineLots_of_quotes (hquotes : Quotes d events (FineQuote d bound)) :
    ∀ view ∈ AnsweredViews d events, view.PositiveBest ∧ view.FineLots d.cfg bound := by
  intro view hview
  obtain ⟨snap,rfl,htop⟩ := quotes_view hquotes hview
  have hab : Fetch.ab ≠ .ac := by decide
  have hbc : Fetch.bc ≠ .ac := by decide
  constructor
  · exact ⟨fun l hl => ((htop .ab).1 l hl).1,fun l hl => ((htop .ab).2 l hl).1,fun l hl => ((htop .bc).1 l hl).1,
      fun l hl => ((htop .bc).2 l hl).1,fun l hl => ((htop .ac).1 l hl).1,fun l hl => ((htop .ac).2 l hl).1⟩
  · exact ⟨fun l hl => ((htop .ab).1 l hl).2 hab,fun l hl => ((htop .ab).2 l hl).2 hab,
      fun l hl => ((htop .bc).1 l hl).2 hbc,fun l hl => ((htop .bc).2 l hl).2 hbc⟩

section Gains
variable {A : Type*} [DecidableEq A] {market : String → Market A} {currency : A}

/-- Where lots are worth no more than the bound, a plan that nobody asked to cancel gains the
threshold up to that bound. -/
theorem gain_of_fineLots (hcfg : d.cfg.aggression = .aggressive) (hvalid : d.cfg.validate = .ok ())
    (hfees : ∀ sym f, d.cfg.feeMap.lookup sym = some f → f.taker ≤ 1)
    (hquoted : ∀ snap, (d.tri.view snap).QuotedIn market currency) (hbound : 0 ≤ bound)
    (hquotes : Quotes d events (FineQuote d bound)) (hrun : run (step d) new events = some s) {w : PlanWorker}
    (hw : w ∈ s.loop.workers) (hended : w.Ended) (hcancel : cancelAll w.plan.id ∉ s.engine.execCancelTx) :
    d.cfg.limits.minProfitAbs - bound < w.change market d.cfg.feeMap currency := by
  obtain ⟨loopEvents,hviews,hloop⟩ := loop_reaches hrun
  obtain ⟨hchange,-,hmissed⟩ := TradingLoop.ended_balance market hcfg hloop hw hended
  have hwhole : w.change market d.cfg.feeMap = w.plan.change market d.cfg.feeMap := by
    rw [← hchange, PlanWorker.missedChange, hmissed hcancel, List.map_nil, List.sum_nil, add_zero]
  obtain ⟨i,hw⟩ := List.mem_iff_getElem?.mp hw
  have hsent := (TradingLoop.served_run hloop).1.sent_of_worker hw
  have hsourced := TradingLoop.sourced_run hviews hloop
  obtain ⟨view,hview,hplan⟩ := hsourced.sent _ hsent
  have hfine := fineLots_of_quotes hquotes
  have hviewQuoted : ∀ view ∈ AnsweredViews d events, view.QuotedIn market currency := by
    rintro _ ⟨snap,-,rfl⟩
    exact hquoted snap
  rw [hwhole, (TradingLoop.change_of_sourced (fun view hview => (hfine view hview).1) hviewQuoted hsourced hsent).1]
  exact netGain_of_fineLots ((StrategyConfig.validate_iff _).mp hvalid) hfees (hfine view hview).1
    (hfine view hview).2 hbound hplan

end Gains

end DetectionPath

section Demo

def demoFee : FeeInfo := ⟨1/10000,5/10000⟩

/-- `depthFillFactor` is the float nearest to 0.8. -/
def demoConfig : StrategyConfig where
  triangle := ["BTCUSDT","ETHUSDT","ETHBTC"]
  baseCurrency := "USDT"
  feeMap := ((AList.insert "ETHBTC" demoFee) ∘ (AList.insert "ETHUSDT" demoFee) ∘ (AList.insert "BTCUSDT" demoFee)) ∅
  limits := ⟨10000,10,1/1000,some (13421773/16777216)⟩
  aggression := .aggressive
  maxConcurrentPlans := 3
  orderTimeoutMs := 5000
  lotRules := ((AList.insert "ETHBTC" ⟨1/100,1/1000,1/10000⟩) ∘ (AList.insert "ETHUSDT" ⟨1/100,1/10000,10⟩) ∘
    (AList.insert "BTCUSDT" ⟨1/1000,1/100000,10⟩)) ∅

def demoSetup (tables : TextTables) (debug : AdapterError → String) : DetectionSetup where
  tri := ⟨"BTCUSDT","ETHUSDT","ETHBTC",10⟩
  cfg := demoConfig
  storage := true
  tables := tables
  adapter := .new
  debug := debug

theorem validate_demoConfig : demoConfig.validate = .ok () := by decide +kernel

theorem demoConfig_fee {sym : String} {f : FeeInfo} (h : demoConfig.feeMap.lookup sym = some f) : f.taker ≤ 1 := by
  have hall : ∀ e ∈ demoConfig.feeMap.entries, e.2.taker ≤ 1 := by decide +kernel
  exact hall ⟨sym,f⟩ (AList.mem_lookup_iff.mp h)

/-- Lots of bitcoin are worth ten dollars at a million, those of ether at a hundred thousand. -/
theorem demoConfig_lots {tables : TextTables} {debug : AdapterError → String} {fetch : Fetch} {price : Decimal}
    (hpos : 0 < price) (hab : fetch = .ab → price ≤ 1000000) (hbc : fetch = .bc → price ≤ 100000) :
    DetectionPath.FineQuote (demoSetup tables debug) 10 fetch price := by
  refine ⟨hpos,fun hac => ?_⟩
  cases fetch with
  | ab =>
    have hrule : demoConfig.lotRules.lookup "BTCUSDT" = some ⟨1/1000,1/100000,10⟩ := by rfl
    have hle := hab rfl
    refine ⟨fun rule h => ?_,fun rule h => ?_⟩
    · cases hrule.symm.trans h
      linarith
    · cases hrule.symm.trans h
      norm_num [startAmount]
      linarith
  | bc =>
    have hrule : demoConfig.lotRules.lookup "ETHUSDT" = some ⟨1/100,1/10000,10⟩ := by rfl
    have hle := hbc rfl
    refine ⟨fun rule h => ?_,fun rule h => ?_⟩
    · cases hrule.symm.trans h
      linarith
    · cases hrule.symm.trans h
      norm_num [startAmount]
      linarith
  | ac => exact absurd rfl hac

namespace DetectionPath

/-- Whatever the exchange answers to the demo, as long as its best prices are positive, bitcoin
costs no more than a million dollars and ether no more than a hundred thousand: in every state
that the demo reaches each worker that has ended, and whose plan nobody asked to cancel, has
left more dollars than there were. -/
theorem demo_gains (tables : TextTables) (debug : AdapterError → String) {events : List DetectionEvent}
    (hquotes : Quotes (demoSetup tables debug) events fun fetch price =>
      0 < price ∧ (fetch = .ab → price ≤ 1000000) ∧ (fetch = .bc → price ≤ 100000)) {s : DetectionPath}
    (hrun : run (step (demoSetup tables debug)) new events = some s) :
    ∀ w ∈ s.loop.workers, w.Ended → cancelAll w.plan.id ∉ s.engine.execCancelTx →
      0 < w.change TradingLoop.spotMarket demoConfig.feeMap "USDT" := by
  intro w hw hended hcancel
  have hquoted : ∀ snap, ((demoSetup tables debug).tri.view snap).QuotedIn TradingLoop.spotMarket "USDT" :=
    fun snap => ⟨"BTC","ETH",by decide,by decide,rfl,rfl,rfl⟩
  have hfine : Quotes (demoSetup tables debug) events (FineQuote (demoSetup tables debug) 10) := by
    intro fetch snap hanswered
    obtain ⟨hbids,hasks⟩ := hquotes fetch snap hanswered
    exact ⟨fun l hl => demoConfig_lots (hbids l hl).1 (hbids l hl).2.1 (hbids l hl).2.2,
      fun l hl => demoConfig_lots (hasks l hl).1 (hasks l hl).2.1 (hasks l hl).2.2⟩
  have hgain := gain_of_fineLots rfl validate_demoConfig (fun _ _ => demoConfig_fee) hquoted (by norm_num) hfine hrun
    hw hended hcancel
  have hthreshold : (demoSetup tables debug).cfg.limits.minProfitAbs - 10 = 0 := by
    change (10 : Decimal) - 10 = 0
    exact sub_self 10
  rw [hthreshold] at hgain
  exact hgain

def plainTables : TextTables := ⟨fewPrices,fun c => [c]⟩

def tradeFirst : List TradingEvent :=
  List.replicate 5 (.engine (.detector ⟨"p1",0,true⟩)) ++
    [.forwardPlan,.executor .receivePlan,.executor .spawn,.executor (.worker 0 .register)] ++
    TradingLoop.fillOne ++ TradingLoop.fillOne ++ TradingLoop.fillOne ++ [.executor (.worker 0 .cleanup)]

def carryOut : List DetectionEvent :=
  [.subscription .tick] ++ ([.ac,.ab,.bc].map fun fetch => .fetched fetch mispricedDepths 40) ++
    [.subscription .joined,.takeView,.sendView,.receiveView] ++ tradeFirst.map .loop

theorem quotes_carryOut : Quotes (demoSetup plainTables fun _ => "") carryOut fun fetch price =>
    0 < price ∧ (fetch = .ab → price ≤ 1000000) ∧ (fetch = .bc → price ≤ 100000) := by
  rintro fetch snap ⟨http,elapsed,body,hmem,hhttp,hbids,hasks,-⟩
  obtain rfl : http = mispricedDepths := by
    simp [carryOut] at hmem
    tauto
  obtain ⟨symbol,bids,asks,sequence,ts⟩ := snap
  cases fetch with
  | ab =>
    cases hhttp
    cases hbids
    cases hasks
    exact ⟨(fun _ hl => by cases hl),fun _ hl => by cases hl; norm_num⟩
  | bc =>
    cases hhttp
    cases hbids
    cases hasks
    exact ⟨(fun _ hl => by cases hl; norm_num),fun _ hl => by cases hl⟩
  | ac =>
    cases hhttp
    cases hbids
    cases hasks
    exact ⟨(fun _ hl => by cases hl),fun _ hl => by cases hl; norm_num⟩

theorem demo_gains_carryOut :
    ∃ s, run (step (demoSetup plainTables fun _ => "")) new carryOut = some s ∧ s.loop.workers.length = 1 ∧
      ∀ w ∈ s.loop.workers, 0 < w.change TradingLoop.spotMarket demoConfig.feeMap "USDT" := by
  have hrun : run (step (demoSetup plainTables fun _ => "")) new carryOut =
      some ((run (step (demoSetup plainTables fun _ => "")) new carryOut).get (by decide +kernel)) :=
    (Option.some_get _).symm
  refine ⟨_,hrun,by decide +kernel,fun w hw => ?_⟩
  have hend : w.phase = .finished ∧ cancelAll w.plan.id ∉
      ((run (step (demoSetup plainTables fun _ => "")) new carryOut).get (by decide +kernel)).engine.execCancelTx := by
    revert w
    decide +kernel
  exact demo_gains plainTables _ quotes_carryOut hrun w hw (.inl hend.1) hend.2

end DetectionPath

end Demo

end ArbCore
