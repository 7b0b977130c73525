import ArbCore.Strategy.Detection

/-! # Opportunities and the displayed depth

Detection looks at the prices of a view and never at its sizes. What it reports
fits the view only when the fixed start amount does.
-/
namespace ArbCore
open ConversionChain DecimalArithmetic

def shownDepth (buy : Bool) (price : Decimal) (levels : List (Decimal × Decimal)) : Decimal :=
  ((levels.filter fun l => if buy then l.1 ≤ price else price ≤ l.1).map Prod.snd).sum

/-- The sides of the view that the legs of an opportunity trade, in order; the
first cycle is the one that buys in its second leg. -/
def walkedSides (view : TriView) (op : Opportunity) : List (List (Decimal × Decimal)) :=
  if (op.legs[1]?.map LegEstimate.sideBuy) = some true then [view.asksAb,view.asksAc,view.bidsBc]
  else [view.asksBc,view.bidsAc,view.bidsAb]

def FitsDepth (view : TriView) (op : Opportunity) : Prop :=
  ∀ x ∈ op.legs.zip (walkedSides view op), x.1.qty ≤ shownDepth x.1.sideBuy x.1.price x.2

def Trade.depth (t : Trade) : Decimal := shownDepth t.hop.buy t.hop.price t.levels

section Computed
variable [DecimalOps] {view : TriView} {feeMap : HashMap FeeInfo} {m : Decimal} {r : Route}

/-- What an incoming amount buys or sells is on display. -/
def Trade.TakesIn (t : Trade) (amount : Except Panic Decimal) : Prop :=
  ∀ x q, amount = .ok x → t.orders x = .ok q → q ≤ t.depth

namespace Route

def converted1 (r : Route) : Except Panic Decimal := do
  r.first.yields (← r.first.orders startAmount)

def converted2 (r : Route) : Except Panic Decimal := do
  r.second.yields (← r.second.orders (← r.converted1))

/-- The amount that arrives at each trade is one that its depth takes in. -/
structure Covered (r : Route) : Prop where
  first : r.first.TakesIn (.ok startAmount)
  second : r.second.TakesIn r.converted1
  third : r.third.TakesIn r.converted2

end Route

theorem Trade.takesIn_iff {t : Trade} {amount : Except Panic Decimal} {x q : Decimal} (hx : amount = .ok x)
    (hq : t.orders x = .ok q) : t.TakesIn amount ↔ q ≤ t.depth := by
  constructor
  · exact fun h => h x q hx hq
  · intro h x' q' hx' hq'
    cases hx.symm.trans hx'
    cases hq.symm.trans hq'
    exact h

omit [DecimalOps] in
theorem walkedSides_route (hr : r ∈ routes view feeMap) (a : Amounts) (price : Decimal) :
    walkedSides view (r.estimate a price) = r.trades.map Trade.levels := by
  rcases mem_routes_iff.mp hr with hr | hr
  · obtain ⟨askAb,bidBc,askAc,x,y,z,-,-,-,rfl⟩ := route1_cases hr
    rfl
  · obtain ⟨askBc,bidAc,bidAb,x,y,z,-,-,-,rfl⟩ := route2_cases hr
    rfl

theorem fitsDepth_estimate_iff (hr : r ∈ routes view feeMap) {a : Amounts} (ha : r.amounts = .ok a)
    (price : Decimal) : FitsDepth view (r.estimate a price) ↔ r.Covered := by
  obtain ⟨x,y,z,h1,hx,h2,hy,h3,-⟩ := Route.amounts_cases ha
  have hconverted1 : r.converted1 = .ok x := bind_eq_ok_iff.mpr ⟨_,h1,hx⟩
  have hconverted2 : r.converted2 = .ok y :=
    bind_eq_ok_iff.mpr ⟨_,hconverted1,bind_eq_ok_iff.mpr ⟨_,h2,hy⟩⟩
  have hzip : (r.estimate a price).legs.zip (walkedSides view (r.estimate a price)) =
      [(r.first.leg a.qty1,r.first.levels),(r.second.leg a.qty2,r.second.levels),
        (r.third.leg a.qty3,r.third.levels)] := by
    rw [walkedSides_route hr]
    rfl
  have hfits : FitsDepth view (r.estimate a price) ↔
      a.qty1 ≤ r.first.depth ∧ a.qty2 ≤ r.second.depth ∧ a.qty3 ≤ r.third.depth := by
    rw [FitsDepth, hzip]
    simp only [List.forall_mem_cons, List.not_mem_nil, false_implies, implies_true, and_true]
    rfl
  rw [hfits, ← Trade.takesIn_iff rfl h1, ← Trade.takesIn_iff hconverted1 h2, ← Trade.takesIn_iff hconverted2 h3]
  exact ⟨fun h => ⟨h.1,h.2.1,h.2.2⟩,fun h => ⟨h.first,h.second,h.third⟩⟩

/-- Everything reported fits the displayed depth exactly when the start amount of
each direction that beats the threshold does. -/
theorem opportunities_fit_iff {ops : List Opportunity}
    (hops : detectTriangularOpportunities view feeMap m = some ops) :
    (∀ op ∈ ops, FitsDepth view op) ↔
      ∀ r ∈ routes view feeMap, ∀ a, r.amounts = .ok a → m < a.profit → r.Covered := by
  simp only [mem_detect_iff_reports hops]
  constructor
  · intro hfit r hr a ha hm
    obtain ⟨price,hreports⟩ := reports_of_detect hops hr ha hm
    exact (fitsDepth_estimate_iff hr ha price).mp (hfit _ ⟨r,hr,hreports⟩)
  · rintro hcovered op ⟨r,hr,a,price,ha,hprice,hm,rfl⟩
    exact (fitsDepth_estimate_iff hr ha price).mpr (hcovered r hr a ha hm)

end Computed

def oneThird : Decimal := 3333333333333333333333333333/10000000000000000000000000000

def thirdView : TriView := { mispricedView with asksAb := [(30000,oneThird)] }

def thirdOpportunity : Opportunity :=
  ⟨"USDT",7333333333333333333333333332/1000000000000000000000000,
    17333333333333333333333333333/10000000000000000000000000000,[⟨"BTCUSDT",true,30000,oneThird⟩,
      ⟨"ETHBTC",true,1/20,20 * oneThird⟩,⟨"ETHUSDT",false,2600,20 * oneThird⟩]⟩

theorem opportunities_fit_third :
    @detectTriangularOpportunities rustDecimal thirdView ∅ 0 = some [thirdOpportunity] ∧
      ∀ op ∈ [thirdOpportunity], FitsDepth thirdView op := by
  have hdetect : @detectTriangularOpportunities rustDecimal thirdView ∅ 0 = some [thirdOpportunity] := by
    decide +kernel
  refine ⟨hdetect,(@opportunities_fit_iff rustDecimal thirdView ∅ 0 _ hdetect).mpr fun r hr a ha _ => ?_⟩
  cases List.mem_singleton.mp (show r ∈ [_] from hr)
  refine @Route.Covered.mk rustDecimal _ ?_ ?_ ?_
  · exact (@Trade.takesIn_iff rustDecimal _ _ startAmount oneThird rfl (by decide +kernel)).mpr (by decide +kernel)
  · exact (@Trade.takesIn_iff rustDecimal _ _ oneThird (20 * oneThird) (by decide +kernel) (by decide +kernel)).mpr
      (by decide +kernel)
  · exact (@Trade.takesIn_iff rustDecimal _ _ (20 * oneThird) (20 * oneThird) (by decide +kernel)
      (by decide +kernel)).mpr (by decide +kernel)

/-- In exact arithmetic a depth takes in what trading all of it would spend. -/
theorem Route.covered_iff {r : Route} (hprice : ∀ t ∈ r.trades, 0 < t.hop.price) :
    r.Covered ↔ startAmount ≤ r.first.hop.spends r.first.depth ∧
      startAmount * r.first.hop.netRate ≤ r.second.hop.spends r.second.depth ∧
      startAmount * r.first.hop.netRate * r.second.hop.netRate ≤ r.third.hop.spends r.third.depth := by
  simp only [Route.trades, List.mem_cons, List.not_mem_nil, or_false, forall_eq_or_imp, forall_eq] at hprice
  obtain ⟨hp1,hp2,hp3⟩ := hprice
  have htakesIn : ∀ {t : Trade} {amount : Except Panic Decimal} {x : Decimal}, 0 < t.hop.price →
      amount = .ok x → (t.TakesIn amount ↔ x ≤ t.hop.spends t.depth) := fun hp hx => by
    rw [Trade.takesIn_iff hx (Trade.orders_eq (fun _ => hp.ne') _), Hop.qty_le_iff hp]
  have hconverted1 : r.converted1 = .ok (startAmount * r.first.hop.netRate) := by
    rw [converted1, Trade.orders_eq (fun _ => hp1.ne'), ← Hop.delivers_qty]
    exact Trade.yields_eq _ _
  have hconverted2 : r.converted2 = .ok (startAmount * r.first.hop.netRate * r.second.hop.netRate) := by
    rw [← Hop.delivers_qty r.second.hop]
    exact bind_eq_ok_iff.mpr ⟨_,hconverted1,bind_eq_ok_iff.mpr
      ⟨_,Trade.orders_eq (fun _ => hp2.ne') _,Trade.yields_eq _ _⟩⟩
  rw [← htakesIn hp1 rfl, ← htakesIn hp2 hconverted1, ← htakesIn hp3 hconverted2]
  exact ⟨fun h => ⟨h.first,h.second,h.third⟩,fun h => ⟨h.1,h.2.1,h.2.2⟩⟩

def thinView : TriView := { mispricedView with asksAb := [(50000,1/100)] }

/-- The first leg buys a fifth of a BTC although all offers together are a twentieth of that. -/
theorem thinView_overdrawn :
    (∀ levels ∈ [thinView.bidsAb,thinView.asksAb,thinView.bidsBc,thinView.asksBc,thinView.bidsAc,
      thinView.asksAc], ∀ l ∈ levels, 0 < l.1 ∧ 0 < l.2) ∧
    ∃ op, @detectTriangularOpportunities rustDecimal thinView ∅ 0 = some [op] ∧
      ∃ leg, op.legs[0]? = some leg ∧ leg.qty = 1/5 ∧
        shownDepth leg.sideBuy leg.price thinView.asksAb = 1/100 ∧ ¬ FitsDepth thinView op := by
  refine ⟨by decide +kernel,mispricedOpportunity,by decide +kernel,_,rfl,rfl,by decide +kernel,?_⟩
  unfold FitsDepth
  decide +kernel

end ArbCore
