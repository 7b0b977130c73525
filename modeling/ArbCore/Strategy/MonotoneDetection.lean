import ArbCore.Strategy.ArbitrageFree

/-! # Detection in a better market

Higher bids, lower asks, lower fees and a lower threshold lose no opportunity and
lower no profit.
-/
namespace ArbCore
open ConversionChain

/-- A better market for the same symbols: quotes on the same sides, no best bid lower and
no best ask higher. -/
structure TriView.ImprovesOn (w v : TriView) : Prop where
  symAb : w.symAb = v.symAb
  symBc : w.symBc = v.symBc
  symAc : w.symAc = v.symAc
  bidsAb : Option.Rel (fun old new => old.1 ≤ new.1) v.bidsAb.head? w.bidsAb.head?
  asksAb : Option.Rel (fun old new => new.1 ≤ old.1) v.asksAb.head? w.asksAb.head?
  bidsBc : Option.Rel (fun old new => old.1 ≤ new.1) v.bidsBc.head? w.bidsBc.head?
  asksBc : Option.Rel (fun old new => new.1 ≤ old.1) v.asksBc.head? w.asksBc.head?
  bidsAc : Option.Rel (fun old new => old.1 ≤ new.1) v.bidsAc.head? w.bidsAc.head?
  asksAc : Option.Rel (fun old new => new.1 ≤ old.1) v.asksAc.head? w.asksAc.head?

def Opportunity.cycle (op : Opportunity) : List (String × Bool) :=
  op.legs.map fun l => (l.symbol,l.sideBuy)

theorem exists_of_rel {α β : Type*} {R : α → β → Prop} {x : Option α} {y : Option β} {a : α}
    (h : Option.Rel R x y) (hx : x = some a) : ∃ b, y = some b ∧ R a b := by
  subst hx
  cases h with
  | some hab => exact ⟨_,rfl,hab⟩

section Better
variable {v w : TriView} {feeMap feeMap' : HashMap FeeInfo} {m m' : Decimal}

theorem feesKept_mono (h : w.ImprovesOn v) (hfees : ProperFees feeMap) (hfees' : ProperFees feeMap')
    (hle : ∀ sym, takerFee feeMap' sym ≤ takerFee feeMap sym) : feesKept v feeMap ≤ feesKept w feeMap' := by
  have hkept : ∀ sym, 1 - takerFee feeMap sym ≤ 1 - takerFee feeMap' sym :=
    fun sym => sub_le_sub_left (hle sym) 1
  have hnonneg : ∀ sym, 0 ≤ 1 - takerFee feeMap sym := fun sym => sub_nonneg.mpr (hfees.takerFee sym).2
  have hnonneg' : ∀ sym, 0 ≤ 1 - takerFee feeMap' sym :=
    fun sym => sub_nonneg.mpr (hfees'.takerFee sym).2
  rw [feesKept, feesKept, h.symAb, h.symBc, h.symAc]
  exact mul_le_mul (mul_le_mul (hkept _) (hkept _) (hnonneg _) (hnonneg' _)) (hkept _) (hnonneg _)
    (mul_nonneg (hnonneg' _) (hnonneg' _))

theorem route1_improves (h : w.ImprovesOn v) (hv : v.PositiveBest) (hw : w.PositiveBest) {r : Route}
    (hr : route1 v feeMap = some r) :
    ∃ r', route1 w feeMap' = some r' ∧ r.quotedRate ≤ r'.quotedRate ∧
      r'.opportunity.cycle = r.opportunity.cycle := by
  obtain ⟨askAb,bidBc,askAc,_,_,_,hab,hbc,hac,hroute⟩ := route1_cases hr
  obtain ⟨⟨askAb',_⟩,hab',hAb⟩ := exists_of_rel h.asksAb hab
  obtain ⟨⟨bidBc',_⟩,hbc',hBc⟩ := exists_of_rel h.bidsBc hbc
  obtain ⟨⟨askAc',_⟩,hac',hAc⟩ := exists_of_rel h.asksAc hac
  have hroute' := @route1_of_quotes w feeMap' _ _ _ _ _ _ hab' hbc' hac'
  have hAbpos : 0 < askAb' := hw.asksAb _ hab'
  have hAcpos : 0 < askAc' := hw.asksAc _ hac'
  refine ⟨_,hroute',?_,?_⟩
  · rw [route1_quotedRate hr hab hbc hac, route1_quotedRate hroute' hab' hbc' hac']
    exact div_le_div₀ (hw.bidsBc _ hbc').le hBc (mul_pos hAbpos hAcpos)
      (mul_le_mul hAb hAc hAcpos.le (hv.asksAb _ hab).le)
  · rw [hroute]
    simp only [Opportunity.cycle, Route.opportunity, Trade.leg, List.map_cons, h.symAb, h.symBc, h.symAc]

theorem route2_improves (h : w.ImprovesOn v) (hv : v.PositiveBest) (hw : w.PositiveBest) {r : Route}
    (hr : route2 v feeMap = some r) :
    ∃ r', route2 w feeMap' = some r' ∧ r.quotedRate ≤ r'.quotedRate ∧
      r'.opportunity.cycle = r.opportunity.cycle := by
  obtain ⟨askBc,bidAc,bidAb,_,_,_,hbc,hac,hab,hroute⟩ := route2_cases hr
  obtain ⟨⟨askBc',_⟩,hbc',hBc⟩ := exists_of_rel h.asksBc hbc
  obtain ⟨⟨bidAc',_⟩,hac',hAc⟩ := exists_of_rel h.bidsAc hac
  obtain ⟨⟨bidAb',_⟩,hab',hAb⟩ := exists_of_rel h.bidsAb hab
  have hroute' := @route2_of_quotes w feeMap' _ _ _ _ _ _ hbc' hac' hab'
  have hAbpos : 0 < bidAb' := hw.bidsAb _ hab'
  have hAcpos : 0 < bidAc' := hw.bidsAc _ hac'
  refine ⟨_,hroute',?_,?_⟩
  · rw [route2_quotedRate hr hbc hac hab, route2_quotedRate hroute' hbc' hac' hab']
    exact div_le_div₀ (mul_pos hAbpos hAcpos).le
      (mul_le_mul hAb hAc (hv.bidsAc _ hac).le hAbpos.le) (hw.asksBc _ hbc') hBc
  · rw [hroute]
    simp only [Opportunity.cycle, Route.opportunity, Trade.leg, List.map_cons, h.symAb, h.symBc, h.symAc]

theorem profit_mono (h : w.ImprovesOn v) (hw : w.PositiveBest) (hfees : ProperFees feeMap)
    (hfees' : ProperFees feeMap') (hle : ∀ sym, takerFee feeMap' sym ≤ takerFee feeMap sym) {r r' : Route}
    (hr : r ∈ routes v feeMap) (hr' : r' ∈ routes w feeMap') (hrate : r.quotedRate ≤ r'.quotedRate) :
    r.profit ≤ r'.profit := by
  have hreturn : r.quotedRate * feesKept v feeMap ≤ r'.quotedRate * feesKept w feeMap' :=
    mul_le_mul hrate (feesKept_mono h hfees hfees' hle) (hfees.feesKept_nonneg v)
      (Route.quotedRate_pos (routes_price_pos hw hr')).le
  rw [routes_profit hr, routes_profit hr']
  exact sub_le_sub_right (mul_le_mul_of_nonneg_left hreturn (by norm_num [startAmount])) _

theorem reported_mono {route route' : Option Route} (hm : m' ≤ m)
    (h : ∀ r, route = some r → ∃ r', route' = some r' ∧ r.profit ≤ r'.profit ∧
      r'.opportunity.cycle = r.opportunity.cycle) :
    ∀ op ∈ reported route m, ∃ op' ∈ reported route' m',
      op'.cycle = op.cycle ∧ op.estimatedProfit ≤ op'.estimatedProfit := by
  intro op hop
  obtain ⟨r,hr,hlt,rfl⟩ := mem_reported_iff.mp hop
  obtain ⟨r',hr',hle,hcycle⟩ := h r hr
  exact ⟨_,mem_reported_iff.mpr ⟨r',hr',(hm.trans_lt hlt).trans_le hle,rfl⟩,hcycle,hle⟩

end Better

/-- Whatever a cycle reports it reports in the better market too, with no smaller profit. -/
theorem detection_monotone {v w : TriView} (hv : v.PositiveBest) (hw : w.PositiveBest)
    (h : w.ImprovesOn v) {feeMap feeMap' : HashMap FeeInfo} (hfees : ProperFees feeMap)
    (hfees' : ProperFees feeMap') (hle : ∀ sym, takerFee feeMap' sym ≤ takerFee feeMap sym)
    {m m' : Decimal} (hm : m' ≤ m) :
    ∃ out1 out2 out1' out2',
      detectTriangularOpportunities v feeMap m = some (out1 ++ out2) ∧
      detectTriangularOpportunities w feeMap' m' = some (out1' ++ out2') ∧
      detectCycle1 v (takerFee feeMap v.symAb) (takerFee feeMap v.symBc)
        (takerFee feeMap v.symAc) m = some out1 ∧
      detectCycle2 v (takerFee feeMap v.symAb) (takerFee feeMap v.symBc)
        (takerFee feeMap v.symAc) m = some out2 ∧
      detectCycle1 w (takerFee feeMap' w.symAb) (takerFee feeMap' w.symBc)
        (takerFee feeMap' w.symAc) m' = some out1' ∧
      detectCycle2 w (takerFee feeMap' w.symAb) (takerFee feeMap' w.symBc)
        (takerFee feeMap' w.symAc) m' = some out2' ∧
      (∀ op ∈ out1, ∃ op' ∈ out1', op'.cycle = op.cycle ∧ op.estimatedProfit ≤ op'.estimatedProfit) ∧
      (∀ op ∈ out2, ∃ op' ∈ out2', op'.cycle = op.cycle ∧ op.estimatedProfit ≤ op'.estimatedProfit) := by
  obtain ⟨ops,hops⟩ := detect_returns hv feeMap m
  obtain ⟨ops',hops'⟩ := detect_returns hw feeMap' m'
  obtain ⟨h1,h2,rfl⟩ := detect_cases hops
  obtain ⟨h1',h2',rfl⟩ := detect_cases hops'
  refine ⟨_,_,_,_,hops,hops',h1,h2,h1',h2',reported_mono hm fun r hr => ?_,
    reported_mono hm fun r hr => ?_⟩
  · obtain ⟨r',hr',hrate,hcycle⟩ := @route1_improves v w feeMap feeMap' h hv hw r hr
    exact ⟨r',hr',profit_mono h hw hfees hfees' hle (mem_routes_iff.mpr (.inl hr))
      (mem_routes_iff.mpr (.inl hr')) hrate,hcycle⟩
  · obtain ⟨r',hr',hrate,hcycle⟩ := @route2_improves v w feeMap feeMap' h hv hw r hr
    exact ⟨r',hr',profit_mono h hw hfees hfees' hle (mem_routes_iff.mpr (.inr hr))
      (mem_routes_iff.mpr (.inr hr')) hrate,hcycle⟩

def smallFee : HashMap FeeInfo := AList.insert "BTCUSDT" ⟨0,1/1000⟩ ∅

theorem smallFee_proper : ProperFees smallFee := by
  intro sym f hf
  rcases eq_or_ne sym "BTCUSDT" with rfl | hne
  · rw [smallFee, AList.lookup_insert] at hf
    cases hf
    norm_num
  · rw [smallFee, AList.lookup_insert_ne hne] at hf
    simp at hf

theorem detection_monotone_twoSidedView :
    ∃ ops, detectTriangularOpportunities { twoSidedView with bidsBc := [(2601,10)] } ∅ 0 = some ops ∧
      ∃ op ∈ ops, op.cycle = [("BTCUSDT",true),("ETHBTC",true),("ETHUSDT",false)] ∧
        1948/5 ≤ op.estimatedProfit := by
  have hpos' : ({ twoSidedView with bidsBc := [(2601,10)] } : TriView).PositiveBest := by
    constructor <;> simp [twoSidedView, mispricedView]
  have hbetter : ({ twoSidedView with bidsBc := [(2601,10)] } : TriView).ImprovesOn twoSidedView := by
    constructor <;> norm_num [twoSidedView, mispricedView]
  have hle : ∀ sym, takerFee ∅ sym ≤ takerFee smallFee sym := fun sym => (smallFee_proper.takerFee sym).1
  have hfound : detectCycle1 twoSidedView (takerFee smallFee "BTCUSDT") (takerFee smallFee "ETHUSDT")
      (takerFee smallFee "ETHBTC") 5 = some [⟨"USDT",1948/5,26/25,[⟨"BTCUSDT",true,50000,1/5⟩,
        ⟨"ETHBTC",true,1/20,999/250⟩,⟨"ETHUSDT",false,2600,999/250⟩]⟩] := by
    decide +kernel
  obtain ⟨out1,out2,out1',out2',-,hdetect,hcycle1,-,-,-,hfirst,-⟩ := detection_monotone
    twoSidedView_positiveBest hpos' hbetter smallFee_proper properFees_empty hle (by norm_num : (0 : Decimal) ≤ 5)
  cases hcycle1.symm.trans hfound
  obtain ⟨op,hop,hcycle,hprofit⟩ := hfirst _ (List.mem_singleton_self _)
  exact ⟨_,hdetect,op,List.mem_append_left _ hop,hcycle,hprofit⟩

end ArbCore
