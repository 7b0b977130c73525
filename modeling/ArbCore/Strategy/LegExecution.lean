import ArbCore.Strategy.Detection

/-! # Detection and the execution of its legs

The reference knows nothing of the detector's formulas. It takes the three market
orders of a cycle, in their order, and executes them one after the other with the
whole proceeds.
-/
namespace ArbCore
open ConversionChain

structure MarketOrder where
  symbol : String
  sideBuy : Bool
  price : Decimal
deriving DecidableEq

/-- What an order turns an amount into, once the taker fee is taken from what it delivers. -/
def MarketOrder.execute (feeMap : HashMap FeeInfo) (o : MarketOrder) (amount : Decimal) : Decimal :=
  (if o.sideBuy then amount / o.price else amount * o.price) * (1 - takerFee feeMap o.symbol)

def simulate (feeMap : HashMap FeeInfo) (orders : List MarketOrder) (amount : Decimal) : Decimal :=
  orders.foldl (fun amount o => o.execute feeMap amount) amount

def cycle1Orders (view : TriView) : Option (List MarketOrder) :=
  match view.asksAb.head?, view.asksAc.head?, view.bidsBc.head? with
  | some (askAb,_), some (askAc,_), some (bidBc,_) =>
    some [⟨view.symAb,true,askAb⟩,⟨view.symAc,true,askAc⟩,⟨view.symBc,false,bidBc⟩]
  | _, _, _ => none

def cycle2Orders (view : TriView) : Option (List MarketOrder) :=
  match view.asksBc.head?, view.bidsAc.head?, view.bidsAb.head? with
  | some (askBc,_), some (bidAc,_), some (bidAb,_) =>
    some [⟨view.symBc,true,askBc⟩,⟨view.symAc,false,bidAc⟩,⟨view.symAb,false,bidAb⟩]
  | _, _, _ => none

def LegEstimate.order (l : LegEstimate) : MarketOrder := ⟨l.symbol,l.sideBuy,l.price⟩

def LegEstimate.executed (feeMap : HashMap FeeInfo) (l : LegEstimate) : Hop Decimal × Decimal :=
  (⟨l.sideBuy,l.price,takerFee feeMap l.symbol⟩,l.qty)

def Trade.order (t : Trade) : MarketOrder := ⟨t.symbol,t.hop.buy,t.hop.price⟩

/-- A cycle reports an opportunity when and only when executing its orders pays, and the
legs it reports are these orders, each paid with what the one before delivered. -/
structure AgreesWithExecution (feeMap : HashMap FeeInfo) (m : Decimal) (orders : Option (List MarketOrder))
    (out : List Opportunity) : Prop where
  atMostOne : out.length ≤ 1
  reported_iff : out ≠ [] ↔
    ∃ os, orders = some os ∧ startAmount + m < simulate feeMap os startAmount
  legs : ∀ op ∈ out, orders = some (op.legs.map LegEstimate.order)
  replay : ∀ op ∈ out, PassesOn startAmount (op.legs.map (LegEstimate.executed feeMap))
    (startAmount + op.estimatedProfit)

section Routes
variable {view : TriView} {feeMap : HashMap FeeInfo} {r : Route}

theorem execute_order {t : Trade} (hfee : t.hop.fee = takerFee feeMap t.symbol) (a : Decimal) :
    t.order.execute feeMap a = t.hop.delivers (t.hop.qty a) := by
  rw [MarketOrder.execute, Trade.order, ← hfee]
  cases hb : t.hop.buy <;> simp [Hop.delivers, Hop.gross, Hop.qty, hb]

theorem simulate_trades {ts : List Trade} (hfee : ∀ t ∈ ts, t.hop.fee = takerFee feeMap t.symbol)
    (a : Decimal) : simulate feeMap (ts.map Trade.order) a = walk (ts.map Trade.hop) a := by
  induction ts generalizing a with
  | nil => rfl
  | cons t ts ih =>
    have hrest := ih (fun k hk => hfee k (List.mem_cons_of_mem _ hk)) (t.order.execute feeMap a)
    rw [execute_order (hfee t List.mem_cons_self)] at hrest
    rw [List.map_cons, List.map_cons, walk, ← hrest, ← execute_order (hfee t List.mem_cons_self)]
    rfl

theorem executed_leg {t : Trade} (hfee : t.hop.fee = takerFee feeMap t.symbol) (q : Decimal) :
    (t.leg q).executed feeMap = (t.hop,q) := by
  rw [LegEstimate.executed, Trade.leg, ← hfee]

theorem executed_opportunity (hfee : ∀ t ∈ r.trades, t.hop.fee = takerFee feeMap t.symbol) :
    r.opportunity.legs.map (LegEstimate.executed feeMap) = orders r.hops startAmount := by
  simp only [Route.trades, List.mem_cons, List.not_mem_nil, or_false, forall_eq_or_imp,
    forall_eq] at hfee
  obtain ⟨h1,h2,h3⟩ := hfee
  simp only [Route.opportunity, List.map_cons, List.map_nil, executed_leg h1, executed_leg h2,
    executed_leg h3]
  rfl

theorem agrees_reported {route : Option Route} {orders : Option (List MarketOrder)} {m : Decimal}
    (horders : orders = route.map fun r => r.trades.map Trade.order)
    (hprice : ∀ r, route = some r → ∀ t ∈ r.trades, 0 < t.hop.price)
    (hfee : ∀ r, route = some r → ∀ t ∈ r.trades, t.hop.fee = takerFee feeMap t.symbol) :
    AgreesWithExecution feeMap m orders (reported route m) := by
  subst horders
  have hprofit : ∀ r : Route, startAmount + r.profit = walk r.hops startAmount :=
    fun r => add_sub_cancel _ _
  have hsimulate : ∀ r, route = some r →
      simulate feeMap (r.trades.map Trade.order) startAmount = startAmount + r.profit :=
    fun r hr => (simulate_trades (hfee r hr) startAmount).trans (hprofit r).symm
  refine ⟨reported_length_le route m,?_,fun op hop => ?_,fun op hop => ?_⟩
  · constructor
    · intro hne
      obtain ⟨op,hop⟩ := List.exists_mem_of_ne_nil _ hne
      obtain ⟨r,hr,hlt,-⟩ := mem_reported_iff.mp hop
      refine ⟨_,by rw [hr]; rfl,?_⟩
      rw [hsimulate r hr]
      exact add_lt_add_right hlt _
    · rintro ⟨os,hos,hlt⟩
      obtain ⟨r,hr,rfl⟩ := Option.map_eq_some_iff.mp hos
      rw [hsimulate r hr] at hlt
      exact List.ne_nil_of_mem (mem_reported_iff.mpr ⟨r,hr,lt_of_add_lt_add_left hlt,rfl⟩)
  · obtain ⟨r,hr,-,rfl⟩ := mem_reported_iff.mp hop
    rw [hr]
    rfl
  · obtain ⟨r,hr,-,rfl⟩ := mem_reported_iff.mp hop
    have hne : ∀ h ∈ r.hops, h.price ≠ 0 := by
      intro h hh
      obtain ⟨t,ht,rfl⟩ := List.mem_map.mp hh
      exact (hprice r hr t ht).ne'
    rw [executed_opportunity (hfee r hr)]
    exact (hprofit r).symm ▸ passesOn_orders hne startAmount

theorem cycle1Orders_eq (view : TriView) (feeMap : HashMap FeeInfo) :
    cycle1Orders view = (route1 view feeMap).map fun r => r.trades.map Trade.order := by
  unfold cycle1Orders route1
  cases view.asksAb.head? with
  | none => rfl
  | some askAb => cases view.bidsBc.head? with
    | none => cases view.asksAc.head? <;> rfl
    | some bidBc => cases view.asksAc.head? with
      | none => rfl
      | some askAc => rfl

theorem cycle2Orders_eq (view : TriView) (feeMap : HashMap FeeInfo) :
    cycle2Orders view = (route2 view feeMap).map fun r => r.trades.map Trade.order := by
  unfold cycle2Orders route2
  cases view.asksBc.head? with
  | none => rfl
  | some askBc => cases view.bidsAc.head? with
    | none => rfl
    | some bidAc => cases view.bidsAb.head? with
      | none => rfl
      | some bidAb => rfl

end Routes

/-- Both cycles agree with executing their orders, and detection returns what they return. -/
theorem detection_agreesWithExecution {view : TriView} (hpos : view.PositiveBest)
    (feeMap : HashMap FeeInfo) (m : Decimal) :
    ∃ out1 out2, detectTriangularOpportunities view feeMap m = some (out1 ++ out2) ∧
      detectCycle1 view (takerFee feeMap view.symAb) (takerFee feeMap view.symBc)
        (takerFee feeMap view.symAc) m = some out1 ∧
      detectCycle2 view (takerFee feeMap view.symAb) (takerFee feeMap view.symBc)
        (takerFee feeMap view.symAc) m = some out2 ∧
      AgreesWithExecution feeMap m (cycle1Orders view) out1 ∧
      AgreesWithExecution feeMap m (cycle2Orders view) out2 := by
  obtain ⟨ops,hops⟩ := detect_returns hpos feeMap m
  obtain ⟨h1,h2,rfl⟩ := detect_cases hops
  refine ⟨_,_,hops,h1,h2,?_,?_⟩
  · exact agrees_reported (cycle1Orders_eq view feeMap)
      (fun r hr => routes_price_pos hpos (mem_routes_iff.mpr (.inl hr)))
      (fun r hr => routes_fee (mem_routes_iff.mpr (.inl hr)))
  · exact agrees_reported (cycle2Orders_eq view feeMap)
      (fun r hr => routes_price_pos hpos (mem_routes_iff.mpr (.inr hr)))
      (fun r hr => routes_fee (mem_routes_iff.mpr (.inr hr)))

theorem detection_agreesWithExecution_mispricedView :
    ∃ out1 out2, detectTriangularOpportunities mispricedView ∅ 0 = some (out1 ++ out2) ∧ out1 ≠ [] ∧
      AgreesWithExecution ∅ 0 (cycle1Orders mispricedView) out1 ∧
      AgreesWithExecution ∅ 0 (cycle2Orders mispricedView) out2 := by
  obtain ⟨out1,out2,hdetect,-,-,h1,h2⟩ := detection_agreesWithExecution mispricedView_positiveBest ∅ 0
  have hpays : startAmount + 0 < simulate ∅ [⟨"BTCUSDT",true,50000⟩,⟨"ETHBTC",true,1/20⟩,
      ⟨"ETHUSDT",false,2600⟩] startAmount := by
    decide +kernel
  exact ⟨out1,out2,hdetect,h1.reported_iff.mpr ⟨_,rfl,hpays⟩,h1,h2⟩

end ArbCore
