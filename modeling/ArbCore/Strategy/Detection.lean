import ArbCore.Strategy.Routes

/-! # Detection as chains of conversions

In exact arithmetic each direction of the triangle is a chain of three market orders at
the best prices. Detection reports a direction when and only when its chain turns the
start amount into more than the threshold asks, and the reported legs are the
orders of that chain.
-/
namespace ArbCore
open ConversionChain DecimalArithmetic

namespace Route

def hops (r : Route) : List (Hop Decimal) := r.trades.map Trade.hop

def qty1 (r : Route) : Decimal := r.first.hop.qty startAmount
def qty2 (r : Route) : Decimal := r.second.hop.qty (r.first.hop.delivers r.qty1)
def qty3 (r : Route) : Decimal := r.third.hop.qty (r.second.hop.delivers r.qty2)

def profit (r : Route) : Decimal := walk r.hops startAmount - startAmount

def quotedRate (r : Route) : Decimal := (r.hops.map Hop.rate).prod

def opportunity (r : Route) : Opportunity where
  startCurrency := "USDT"
  estimatedProfit := r.profit
  impliedPrice := r.quotedRate
  legs := [r.first.leg r.qty1, r.second.leg r.qty2, r.third.leg r.qty3]

theorem profit_eq (r : Route) :
    r.profit = startAmount * (r.hops.map Hop.netRate).prod - startAmount := by
  rw [profit, walk_eq]

theorem profit_eq_delivers (r : Route) : r.profit = r.third.hop.delivers r.qty3 - startAmount := rfl

theorem hops_eq (r : Route) : r.hops = [r.first.hop,r.second.hop,r.third.hop] := rfl

end Route

def reported (r : Option Route) (minProfitAbs : Decimal) : List Opportunity :=
  (r.toList.filter fun r => minProfitAbs < r.profit).map Route.opportunity

section Exact
variable {r : Route} (hasks : ∀ t ∈ r.trades, t.hop.buy = true → t.hop.price ≠ 0)

theorem Trade.yields_eq (t : Trade) (q : Decimal) : t.yields q = .ok (t.hop.delivers q) := by
  unfold Trade.yields Hop.delivers Hop.gross
  cases t.hop.buy <;> rfl

theorem Trade.orders_eq {t : Trade} (h : t.hop.buy = true → t.hop.price ≠ 0) (x : Decimal) :
    t.orders x = .ok (t.hop.qty x) := by
  unfold Trade.orders Hop.qty
  split_ifs with hbuy
  · exact div_of_ne (h hbuy)
  · rfl

include hasks

theorem Route.amounts_eq : r.amounts = .ok ⟨r.qty1,r.qty2,r.qty3,r.profit⟩ := by
  simp only [Route.trades, List.mem_cons, List.not_mem_nil, or_false, forall_eq_or_imp, forall_eq] at hasks
  obtain ⟨h1,h2,h3⟩ := hasks
  simp only [Route.amounts, Trade.orders_eq h1, Trade.orders_eq h2, Trade.orders_eq h3, Trade.yields_eq]
  rfl

theorem Route.implied_eq : r.implied = .ok r.quotedRate := by
  simp only [Route.trades, List.mem_cons, List.not_mem_nil, or_false, forall_eq_or_imp, forall_eq] at hasks
  obtain ⟨h1,h2,-⟩ := hasks
  have h1 := h1 r.first_buys
  have hrate : r.quotedRate = 1 / r.first.hop.price * (r.second.hop.rate * r.third.hop.price) := by
    simp [Route.quotedRate, Route.hops_eq, Hop.rate, r.first_buys, r.third_sells]
  unfold Route.implied
  cases hbuy : r.second.hop.buy with
  | true =>
    have hdiv : r.third.hop.price / (r.first.hop.price * r.second.hop.price) = r.quotedRate := by
      rw [hrate, Hop.rate, if_pos hbuy]
      field_simp
    rw [← hdiv]
    exact div_of_ne (mul_ne_zero h1 (h2 hbuy))
  | false =>
    have hdiv : r.third.hop.price * r.second.hop.price / r.first.hop.price = r.quotedRate := by
      rw [hrate, Hop.rate, if_neg (hbuy ▸ Bool.false_ne_true)]
      field_simp
    rw [← hdiv]
    exact div_of_ne h1

theorem Route.report_eq (m : Decimal) : r.report m = .ok (reported (some r) m) := by
  have hestimate : r.estimate ⟨r.qty1,r.qty2,r.qty3,r.profit⟩ r.quotedRate = r.opportunity := rfl
  rw [Route.report, Route.amounts_eq hasks, Route.implied_eq hasks]
  by_cases hm : m < r.profit
  · simp [reported, hm, bind, Except.bind, pure, Except.pure, hestimate]
  · simp [reported, hm, bind, Except.bind, pure, Except.pure]

end Exact

section Quotes
variable {view : TriView} {feeMap : HashMap FeeInfo} {m : Decimal}

theorem route1_quotedRate {r : Route} (h : route1 view feeMap = some r) {askAb bidBc askAc x y z : Decimal}
    (hab : view.asksAb.head? = some (askAb,x)) (hbc : view.bidsBc.head? = some (bidBc,y))
    (hac : view.asksAc.head? = some (askAc,z)) : r.quotedRate = bidBc / (askAb * askAc) := by
  rw [route1_of_quotes hab hbc hac] at h
  cases h
  simp only [Route.quotedRate, Route.hops_eq, Hop.rate, List.map_cons, List.map_nil, List.prod_cons,
    List.prod_nil, ↓reduceIte, Bool.false_eq_true]
  field_simp

theorem route2_quotedRate {r : Route} (h : route2 view feeMap = some r) {askBc bidAc bidAb x y z : Decimal}
    (hbc : view.asksBc.head? = some (askBc,x)) (hac : view.bidsAc.head? = some (bidAc,y))
    (hab : view.bidsAb.head? = some (bidAb,z)) : r.quotedRate = bidAb * bidAc / askBc := by
  rw [route2_of_quotes hbc hac hab] at h
  cases h
  simp only [Route.quotedRate, Route.hops_eq, Hop.rate, List.map_cons, List.map_nil, List.prod_cons,
    List.prod_nil, ↓reduceIte, Bool.false_eq_true]
  field_simp

theorem reported_length_le (r : Option Route) (m : Decimal) : (reported r m).length ≤ 1 := by
  cases r with
  | none => exact Nat.zero_le 1
  | some r =>
    rw [reported, List.length_map]
    exact List.length_filter_le _ [r]

theorem mem_reported_iff {route : Option Route} {op : Opportunity} :
    op ∈ reported route m ↔ ∃ r, route = some r ∧ m < r.profit ∧ op = r.opportunity := by
  simp only [reported, List.mem_map, List.mem_filter, Option.mem_toList, decide_eq_true_eq, and_assoc,
    @eq_comm _ _ op]

theorem reports_eq {route : Option Route}
    (hasks : ∀ r, route = some r → ∀ t ∈ r.trades, t.hop.buy = true → t.hop.price ≠ 0) (m : Decimal) :
    reports route m = .ok (reported route m) := by
  cases route with
  | none => rfl
  | some r => exact Route.report_eq (hasks r rfl) m

theorem reports_eq_ok {route : Option Route} {out : List Opportunity} (h : reports route m = .ok out) :
    (∀ r, route = some r → ∀ t ∈ r.trades, t.hop.buy = true → t.hop.price ≠ 0) ∧ out = reported route m := by
  have hasks : ∀ r, route = some r → ∀ t ∈ r.trades, t.hop.buy = true → t.hop.price ≠ 0 := by
    rintro r rfl
    obtain ⟨a,ha,-⟩ := bind_eq_ok_iff.mp h
    exact Route.asks_ne_zero ha
  rw [reports_eq hasks] at h
  cases h
  exact ⟨hasks,rfl⟩

/-- Whenever detection returns, both cycles do, and it lists what they report. -/
theorem detect_cases {ops : List Opportunity} (h : detectTriangularOpportunities view feeMap m = some ops) :
    detectCycle1 view (takerFee feeMap view.symAb) (takerFee feeMap view.symBc)
      (takerFee feeMap view.symAc) m = some (reported (route1 view feeMap) m) ∧
    detectCycle2 view (takerFee feeMap view.symAb) (takerFee feeMap view.symBc)
      (takerFee feeMap view.symAc) m = some (reported (route2 view feeMap) m) ∧
    ops = reported (route1 view feeMap) m ++ reported (route2 view feeMap) m := by
  obtain ⟨out1,out2,h1,h2,rfl⟩ := detect_eq_some_iff.mp h
  obtain ⟨-,rfl⟩ := reports_eq_ok h1
  obtain ⟨-,rfl⟩ := reports_eq_ok h2
  exact ⟨detectCycle1_eq_some_iff.mpr h1,detectCycle2_eq_some_iff.mpr h2,rfl⟩

theorem length_detect_le {ops : List Opportunity} (h : detectTriangularOpportunities view feeMap m = some ops) :
    ops.length ≤ 2 := by
  obtain ⟨-,-,rfl⟩ := detect_cases h
  rw [List.length_append]
  exact Nat.add_le_add (reported_length_le _ _) (reported_length_le _ _)

/-- Whenever detection returns, it returns the profitable routes of the view. -/
theorem mem_detect_iff {ops : List Opportunity}
    (h : detectTriangularOpportunities view feeMap m = some ops) (op : Opportunity) :
    op ∈ ops ↔ ∃ r ∈ routes view feeMap, m < r.profit ∧ op = r.opportunity := by
  obtain ⟨-,-,rfl⟩ := detect_cases h
  simp only [List.mem_append, mem_reported_iff, mem_routes_iff, or_and_right, exists_or]

/-- Detection returns exactly when no direction buys at a price of zero. -/
theorem detect_returns_iff :
    (∃ ops, detectTriangularOpportunities view feeMap m = some ops) ↔
      ∀ r ∈ routes view feeMap, ∀ t ∈ r.trades, t.hop.buy = true → t.hop.price ≠ 0 := by
  constructor
  · rintro ⟨ops,hops⟩ r hr
    obtain ⟨out1,out2,h1,h2,-⟩ := detect_eq_some_iff.mp hops
    rcases mem_routes_iff.mp hr with hr | hr
    · exact (reports_eq_ok h1).1 r hr
    · exact (reports_eq_ok h2).1 r hr
  · intro hasks
    exact ⟨_,detect_eq_some_iff.mpr ⟨_,_,reports_eq (fun r hr => hasks r (mem_routes_iff.mpr (.inl hr))) m,
      reports_eq (fun r hr => hasks r (mem_routes_iff.mpr (.inr hr))) m,rfl⟩⟩

theorem detect_returns (hpos : view.PositiveBest) (feeMap : HashMap FeeInfo) (m : Decimal) :
    ∃ ops, detectTriangularOpportunities view feeMap m = some ops :=
  detect_returns_iff.mpr fun _ hr t ht _ => (routes_price_pos hpos hr t ht).ne'

theorem detect_eq_nil_iff (hpos : view.PositiveBest) :
    detectTriangularOpportunities view feeMap m = some [] ↔
      ∀ r ∈ routes view feeMap, r.profit ≤ m := by
  obtain ⟨ops,hops⟩ := detect_returns hpos feeMap m
  rw [hops, Option.some.injEq]
  constructor
  · rintro rfl r hr
    by_contra hlt
    exact absurd ((mem_detect_iff hops _).mpr ⟨r,hr,not_le.mp hlt,rfl⟩) List.not_mem_nil
  · intro hall
    refine List.eq_nil_iff_forall_not_mem.mpr fun op hop => ?_
    obtain ⟨r,hr,hlt,-⟩ := (mem_detect_iff hops op).mp hop
    exact absurd hlt (not_lt.mpr (hall r hr))

end Quotes

/-- Buying BTC at 50000, ETH at 0.05 BTC and selling at 2600 turns 10000 into 10400. -/
def mispricedView : TriView where
  symAb := "BTCUSDT"
  bidsAb := []
  asksAb := [(50000,1)]
  symBc := "ETHUSDT"
  bidsBc := [(2600,10)]
  asksBc := []
  symAc := "ETHBTC"
  bidsAc := []
  asksAc := [(1/20,10)]

theorem mispricedView_positiveBest : mispricedView.PositiveBest := by
  constructor <;> simp [mispricedView]

def mispricedOpportunity : Opportunity :=
  ⟨"USDT",400,26/25,[⟨"BTCUSDT",true,50000,1/5⟩,⟨"ETHBTC",true,1/20,4⟩,⟨"ETHUSDT",false,2600,4⟩]⟩

theorem mispricedView_detected :
    detectTriangularOpportunities mispricedView ∅ 0 = some [mispricedOpportunity] := by
  decide +kernel

end ArbCore
