import ArbCore.Library.ConversionChain
import ArbCore.Strategy.TriArbitrage

/-! # The two directions of the triangle

Both cycles of the detection place three market orders at the best prices, each for what
the one before brought in. What detection returns is what it reports about the directions,
in whatever arithmetic it computes.
-/
namespace ArbCore
open ConversionChain DecimalArithmetic

/-- An order on one side of the view: the symbol, the levels it walks, the hop. -/
structure Trade where
  symbol : String
  levels : List (Decimal × Decimal)
  hop : Hop Decimal

/-- A direction of the triangle: it pays quote currency first and gets it back last. -/
structure Route where
  first : Trade
  second : Trade
  third : Trade
  first_buys : first.hop.buy = true
  third_sells : third.hop.buy = false

def Trade.leg (t : Trade) (qty : Decimal) : LegEstimate := ⟨t.symbol,t.hop.buy,t.hop.price,qty⟩

def Route.trades (r : Route) : List Trade := [r.first,r.second,r.third]

def route1 (view : TriView) (feeMap : HashMap FeeInfo) : Option Route :=
  match view.asksAb.head?, view.bidsBc.head?, view.asksAc.head? with
  | some (askAb,_), some (bidBc,_), some (askAc,_) =>
    some ⟨⟨view.symAb,view.asksAb,⟨true,askAb,takerFee feeMap view.symAb⟩⟩,
      ⟨view.symAc,view.asksAc,⟨true,askAc,takerFee feeMap view.symAc⟩⟩,
      ⟨view.symBc,view.bidsBc,⟨false,bidBc,takerFee feeMap view.symBc⟩⟩,rfl,rfl⟩
  | _, _, _ => none

def route2 (view : TriView) (feeMap : HashMap FeeInfo) : Option Route :=
  match view.asksBc.head?, view.bidsAc.head?, view.bidsAb.head? with
  | some (askBc,_), some (bidAc,_), some (bidAb,_) =>
    some ⟨⟨view.symBc,view.asksBc,⟨true,askBc,takerFee feeMap view.symBc⟩⟩,
      ⟨view.symAc,view.bidsAc,⟨false,bidAc,takerFee feeMap view.symAc⟩⟩,
      ⟨view.symAb,view.bidsAb,⟨false,bidAb,takerFee feeMap view.symAb⟩⟩,rfl,rfl⟩
  | _, _, _ => none

def routes (view : TriView) (feeMap : HashMap FeeInfo) : List Route :=
  (route1 view feeMap).toList ++ (route2 view feeMap).toList

section Cases
variable {view : TriView} {feeMap : HashMap FeeInfo}

theorem route1_cases {r : Route} (h : route1 view feeMap = some r) :
    ∃ askAb bidBc askAc x y z, view.asksAb.head? = some (askAb,x) ∧
      view.bidsBc.head? = some (bidBc,y) ∧ view.asksAc.head? = some (askAc,z) ∧
      r = ⟨⟨view.symAb,view.asksAb,⟨true,askAb,takerFee feeMap view.symAb⟩⟩,
        ⟨view.symAc,view.asksAc,⟨true,askAc,takerFee feeMap view.symAc⟩⟩,
        ⟨view.symBc,view.bidsBc,⟨false,bidBc,takerFee feeMap view.symBc⟩⟩,rfl,rfl⟩ := by
  unfold route1 at h
  split at h
  · rename_i hab hbc hac
    exact ⟨_,_,_,_,_,_,hab,hbc,hac,(Option.some.inj h).symm⟩
  · cases h

theorem route2_cases {r : Route} (h : route2 view feeMap = some r) :
    ∃ askBc bidAc bidAb x y z, view.asksBc.head? = some (askBc,x) ∧
      view.bidsAc.head? = some (bidAc,y) ∧ view.bidsAb.head? = some (bidAb,z) ∧
      r = ⟨⟨view.symBc,view.asksBc,⟨true,askBc,takerFee feeMap view.symBc⟩⟩,
        ⟨view.symAc,view.bidsAc,⟨false,bidAc,takerFee feeMap view.symAc⟩⟩,
        ⟨view.symAb,view.bidsAb,⟨false,bidAb,takerFee feeMap view.symAb⟩⟩,rfl,rfl⟩ := by
  unfold route2 at h
  split at h
  · rename_i hbc hac hab
    exact ⟨_,_,_,_,_,_,hbc,hac,hab,(Option.some.inj h).symm⟩
  · cases h

theorem route1_of_quotes {askAb bidBc askAc x y z : Decimal}
    (hab : view.asksAb.head? = some (askAb,x)) (hbc : view.bidsBc.head? = some (bidBc,y))
    (hac : view.asksAc.head? = some (askAc,z)) :
    route1 view feeMap = some ⟨⟨view.symAb,view.asksAb,⟨true,askAb,takerFee feeMap view.symAb⟩⟩,
      ⟨view.symAc,view.asksAc,⟨true,askAc,takerFee feeMap view.symAc⟩⟩,
      ⟨view.symBc,view.bidsBc,⟨false,bidBc,takerFee feeMap view.symBc⟩⟩,rfl,rfl⟩ := by
  simp only [route1, hab, hbc, hac]

theorem route2_of_quotes {askBc bidAc bidAb x y z : Decimal}
    (hbc : view.asksBc.head? = some (askBc,x)) (hac : view.bidsAc.head? = some (bidAc,y))
    (hab : view.bidsAb.head? = some (bidAb,z)) :
    route2 view feeMap = some ⟨⟨view.symBc,view.asksBc,⟨true,askBc,takerFee feeMap view.symBc⟩⟩,
      ⟨view.symAc,view.bidsAc,⟨false,bidAc,takerFee feeMap view.symAc⟩⟩,
      ⟨view.symAb,view.bidsAb,⟨false,bidAb,takerFee feeMap view.symAb⟩⟩,rfl,rfl⟩ := by
  simp only [route2, hbc, hac, hab]

theorem mem_routes_iff {r : Route} :
    r ∈ routes view feeMap ↔ route1 view feeMap = some r ∨ route2 view feeMap = some r := by
  simp [routes]

theorem routes_price_pos (hpos : view.PositiveBest) {r : Route} (hr : r ∈ routes view feeMap) :
    ∀ t ∈ r.trades, 0 < t.hop.price := by
  rcases mem_routes_iff.mp hr with hr | hr
  · obtain ⟨askAb,bidBc,askAc,x,y,z,hab,hbc,hac,rfl⟩ := route1_cases hr
    simpa [Route.trades] using ⟨hpos.asksAb _ hab,hpos.asksAc _ hac,hpos.bidsBc _ hbc⟩
  · obtain ⟨askBc,bidAc,bidAb,x,y,z,hbc,hac,hab,rfl⟩ := route2_cases hr
    simpa [Route.trades] using ⟨hpos.asksBc _ hbc,hpos.bidsAc _ hac,hpos.bidsAb _ hab⟩

theorem routes_fee {r : Route} (hr : r ∈ routes view feeMap) :
    ∀ t ∈ r.trades, t.hop.fee = takerFee feeMap t.symbol := by
  rcases mem_routes_iff.mp hr with hr | hr
  · obtain ⟨askAb,bidBc,askAc,x,y,z,-,-,-,rfl⟩ := route1_cases hr
    simp [Route.trades]
  · obtain ⟨askBc,bidAc,bidAb,x,y,z,-,-,-,rfl⟩ := route2_cases hr
    simp [Route.trades]

end Cases

section Computed
variable [DecimalOps]

namespace Trade

/-- The quantity of base that an order for an incoming amount trades. -/
def orders (t : Trade) (amount : Decimal) : Except Panic Decimal :=
  if t.hop.buy then div amount t.hop.price else .ok amount

/-- What an order for a quantity of base brings in after the fee. -/
def yields (t : Trade) (qty : Decimal) : Except Panic Decimal := do
  let gross ← if t.hop.buy then .ok qty else mul qty t.hop.price
  mul gross (← sub 1 t.hop.fee)

end Trade

structure Amounts where
  qty1 : Decimal
  qty2 : Decimal
  qty3 : Decimal
  profit : Decimal
deriving DecidableEq

namespace Route

def amounts (r : Route) : Except Panic Amounts := do
  let qty1 ← r.first.orders startAmount
  let qty2 ← r.second.orders (← r.first.yields qty1)
  let qty3 ← r.third.orders (← r.second.yields qty2)
  let profit ← sub (← r.third.yields qty3) startAmount
  let _profitPct ← mul (← div profit startAmount) 100
  return ⟨qty1,qty2,qty3,profit⟩

def implied (r : Route) : Except Panic Decimal := do
  if r.second.hop.buy then div r.third.hop.price (← mul r.first.hop.price r.second.hop.price)
  else div (← mul r.third.hop.price r.second.hop.price) r.first.hop.price

def estimate (r : Route) (a : Amounts) (impliedPrice : Decimal) : Opportunity where
  startCurrency := "USDT"
  estimatedProfit := a.profit
  impliedPrice := impliedPrice
  legs := [r.first.leg a.qty1, r.second.leg a.qty2, r.third.leg a.qty3]

def report (r : Route) (minProfitAbs : Decimal) : Except Panic (List Opportunity) := do
  let a ← r.amounts
  if minProfitAbs < a.profit then return [r.estimate a (← r.implied)] else return []

end Route

def reports (route : Option Route) (minProfitAbs : Decimal) : Except Panic (List Opportunity) :=
  match route with
  | some r => r.report minProfitAbs
  | none => .ok []

variable {view : TriView} {feeMap : HashMap FeeInfo} {m : Decimal}

/-- The first cycle recomputes two of its quotients and gets the same. -/
theorem checked_detectCycle1_eq (view : TriView) (feeMap : HashMap FeeInfo) (m : Decimal) :
    Checked.detectCycle1 view (takerFee feeMap view.symAb) (takerFee feeMap view.symBc)
      (takerFee feeMap view.symAc) m = reports (route1 view feeMap) m := by
  cases hr : route1 view feeMap with
  | none =>
    unfold route1 at hr
    unfold Checked.detectCycle1
    split
    · rename_i hab hbc hac
      simp [hab, hbc, hac] at hr
    · rfl
  | some r =>
    obtain ⟨askAb,bidBc,askAc,x,y,z,hab,hbc,hac,rfl⟩ := route1_cases hr
    simp only [Checked.detectCycle1, hab, hbc, hac, reports, Route.report, Route.amounts, Trade.orders,
      Trade.yields, bind_assoc, pure_bind, ↓reduceIte, Bool.false_eq_true]
    refine bind_congr_ok fun qty1 hqty1 => bind_congr_ok fun _ _ => bind_congr_ok fun amount _ => ?_
    refine bind_congr_ok fun qty2 hqty2 => bind_congr_ok fun _ _ => bind_congr_ok fun qty3 _ => ?_
    refine bind_congr_ok fun _ _ => bind_congr_ok fun _ _ => bind_congr_ok fun _ _ => ?_
    refine bind_congr_ok fun profit _ => bind_congr_ok fun _ _ => bind_congr_ok fun _ _ => ?_
    split_ifs
    · simp only [Route.implied, ↓reduceIte, bind_assoc]
      refine bind_congr_ok fun _ _ => bind_congr_ok fun _ _ => ?_
      rw [hqty1, hqty2]
      rfl
    · rfl

theorem checked_detectCycle2_eq (view : TriView) (feeMap : HashMap FeeInfo) (m : Decimal) :
    Checked.detectCycle2 view (takerFee feeMap view.symAb) (takerFee feeMap view.symBc)
      (takerFee feeMap view.symAc) m = reports (route2 view feeMap) m := by
  cases hr : route2 view feeMap with
  | none =>
    unfold route2 at hr
    unfold Checked.detectCycle2
    split
    · rename_i hbc hac hab
      simp [hbc, hac, hab] at hr
    · rfl
  | some r =>
    obtain ⟨askBc,bidAc,bidAb,x,y,z,hbc,hac,hab,rfl⟩ := route2_cases hr
    simp only [Checked.detectCycle2, hbc, hac, hab, reports, Route.report, Route.amounts, Trade.orders,
      Trade.yields, bind_assoc, pure_bind, ↓reduceIte, Bool.false_eq_true]
    refine bind_congr_ok fun qty1 hqty1 => bind_congr_ok fun _ _ => bind_congr_ok fun amount _ => ?_
    refine bind_congr_ok fun _ _ => bind_congr_ok fun _ _ => bind_congr_ok fun _ _ => ?_
    refine bind_congr_ok fun _ _ => bind_congr_ok fun _ _ => bind_congr_ok fun _ _ => ?_
    refine bind_congr_ok fun profit _ => bind_congr_ok fun _ _ => bind_congr_ok fun _ _ => ?_
    split_ifs
    · simp only [Route.implied, ↓reduceIte, Bool.false_eq_true, bind_assoc]
      refine bind_congr_ok fun _ _ => bind_congr_ok fun _ _ => ?_
      rw [hqty1]
      rfl
    · rfl

theorem checked_detect_eq (view : TriView) (feeMap : HashMap FeeInfo) (m : Decimal) :
    Checked.detectTriangularOpportunities view feeMap m = do
      let out1 ← reports (route1 view feeMap) m
      let out2 ← reports (route2 view feeMap) m
      return out1 ++ out2 := by
  simp only [Checked.detectTriangularOpportunities, checked_detectCycle1_eq, checked_detectCycle2_eq]

theorem detectCycle1_eq_some_iff {ops : List Opportunity} :
    detectCycle1 view (takerFee feeMap view.symAb) (takerFee feeMap view.symBc)
      (takerFee feeMap view.symAc) m = some ops ↔ reports (route1 view feeMap) m = .ok ops := by
  rw [detectCycle1, toOption_eq_some_iff, checked_detectCycle1_eq]

theorem detectCycle2_eq_some_iff {ops : List Opportunity} :
    detectCycle2 view (takerFee feeMap view.symAb) (takerFee feeMap view.symBc)
      (takerFee feeMap view.symAc) m = some ops ↔ reports (route2 view feeMap) m = .ok ops := by
  rw [detectCycle2, toOption_eq_some_iff, checked_detectCycle2_eq]

theorem detect_eq_some_iff {ops : List Opportunity} :
    detectTriangularOpportunities view feeMap m = some ops ↔
      ∃ out1 out2, reports (route1 view feeMap) m = .ok out1 ∧ reports (route2 view feeMap) m = .ok out2 ∧
        out1 ++ out2 = ops := by
  rw [detectTriangularOpportunities, toOption_eq_some_iff, checked_detect_eq, bind_eq_ok_iff]
  simp only [bind_eq_ok_iff, pure, Except.pure, Except.ok.injEq, exists_and_left]

namespace Route
variable {r : Route} {op : Opportunity}

def Reports (r : Route) (m : Decimal) (op : Opportunity) : Prop :=
  ∃ a price, r.amounts = .ok a ∧ r.implied = .ok price ∧ m < a.profit ∧ op = r.estimate a price

theorem amounts_cases {a : Amounts} (h : r.amounts = .ok a) :
    ∃ x y z, r.first.orders startAmount = .ok a.qty1 ∧ r.first.yields a.qty1 = .ok x ∧
      r.second.orders x = .ok a.qty2 ∧ r.second.yields a.qty2 = .ok y ∧ r.third.orders y = .ok a.qty3 ∧
      r.third.yields a.qty3 = .ok z ∧ sub z startAmount = .ok a.profit := by
  obtain ⟨qty1,h1,h⟩ := bind_eq_ok_iff.mp h
  obtain ⟨x,hx,h⟩ := bind_eq_ok_iff.mp h
  obtain ⟨qty2,h2,h⟩ := bind_eq_ok_iff.mp h
  obtain ⟨y,hy,h⟩ := bind_eq_ok_iff.mp h
  obtain ⟨qty3,h3,h⟩ := bind_eq_ok_iff.mp h
  obtain ⟨z,hz,h⟩ := bind_eq_ok_iff.mp h
  obtain ⟨profit,hprofit,h⟩ := bind_eq_ok_iff.mp h
  obtain ⟨_,-,h⟩ := bind_eq_ok_iff.mp h
  obtain ⟨_,-,h⟩ := bind_eq_ok_iff.mp h
  cases h
  exact ⟨x,y,z,h1,hx,h2,hy,h3,hz,hprofit⟩

theorem asks_ne_zero {a : Amounts} (h : r.amounts = .ok a) :
    ∀ t ∈ r.trades, t.hop.buy = true → t.hop.price ≠ 0 := by
  have horders : ∀ {t : Trade} {x q : Decimal}, t.orders x = .ok q → t.hop.buy = true → t.hop.price ≠ 0 := by
    intro t x q hq hbuy hzero
    rw [Trade.orders, if_pos hbuy, div_eq_divisionByZero_iff.mpr hzero] at hq
    cases hq
  obtain ⟨x,y,z,h1,-,h2,-,h3,-⟩ := amounts_cases h
  simp only [trades, List.mem_cons, List.not_mem_nil, or_false, forall_eq_or_imp, forall_eq]
  exact ⟨horders h1,horders h2,horders h3⟩

end Route

theorem mem_reports_iff {route : Option Route} {out : List Opportunity} (h : reports route m = .ok out)
    (op : Opportunity) : op ∈ out ↔ ∃ r, route = some r ∧ r.Reports m op := by
  cases route with
  | none =>
    cases h
    simp
  | some r =>
    obtain ⟨a,ha,h⟩ := bind_eq_ok_iff.mp h
    simp only [Route.Reports, ha, Except.ok.injEq, Option.some.injEq, exists_eq_left', exists_and_left]
    split_ifs at h with hm
    · obtain ⟨price,hprice,h⟩ := bind_eq_ok_iff.mp h
      cases h
      simp [hprice, hm]
    · cases h
      simp [hm]

/-- What detection returns is what it reports about the directions. -/
theorem mem_detect_iff_reports {ops : List Opportunity}
    (h : detectTriangularOpportunities view feeMap m = some ops) (op : Opportunity) :
    op ∈ ops ↔ ∃ r ∈ routes view feeMap, r.Reports m op := by
  obtain ⟨out1,out2,h1,h2,rfl⟩ := detect_eq_some_iff.mp h
  simp only [List.mem_append, mem_reports_iff h1, mem_reports_iff h2, mem_routes_iff, or_and_right, exists_or]

theorem report_of_detect {ops : List Opportunity} (h : detectTriangularOpportunities view feeMap m = some ops)
    {r : Route} (hr : r ∈ routes view feeMap) : ∃ out, r.report m = .ok out := by
  obtain ⟨out1,out2,h1,h2,-⟩ := detect_eq_some_iff.mp h
  rcases mem_routes_iff.mp hr with hr | hr
  · exact ⟨out1,by rwa [hr] at h1⟩
  · exact ⟨out2,by rwa [hr] at h2⟩

theorem reports_of_detect {ops : List Opportunity} (h : detectTriangularOpportunities view feeMap m = some ops)
    {r : Route} (hr : r ∈ routes view feeMap) {a : Amounts} (ha : r.amounts = .ok a) (hm : m < a.profit) :
    ∃ price, r.Reports m (r.estimate a price) := by
  obtain ⟨out,hout⟩ := report_of_detect h hr
  simp only [Route.report, ha, bind_eq_ok_iff, Except.ok.injEq, exists_eq_left', if_pos hm] at hout
  obtain ⟨price,hprice,-⟩ := hout
  exact ⟨price,a,price,ha,hprice,hm,rfl⟩

end Computed

end ArbCore
