import ArbCore.Strategy.FairMarket
import ArbCore.Strategy.Submission

/-! # What accepted fees do to a profit

Validation asks for fees that are not negative and sets no upper bound. A taker fee
above one turns its factor negative, and two such factors multiply to more than one.
-/
namespace ArbCore
open ConversionChain

section Rates
variable {view : TriView} {feeMap : HashMap FeeInfo}

theorem routes_profit {r : Route} (hr : r ∈ routes view feeMap) :
    r.profit = startAmount * (r.quotedRate * feesKept view feeMap) - startAmount := by
  have hfee := routes_fee hr
  have hsymbols : feesKept view feeMap = (1 - r.first.hop.fee) * (1 - r.second.hop.fee) *
      (1 - r.third.hop.fee) := by
    rcases mem_routes_iff.mp hr with hr | hr
    · obtain ⟨_,_,_,_,_,_,-,-,-,rfl⟩ := route1_cases hr
      rw [feesKept]
      ring
    · obtain ⟨_,_,_,_,_,_,-,-,-,rfl⟩ := route2_cases hr
      rw [feesKept]
      ring
  simp only [Route.profit_eq, Route.quotedRate, Route.hops_eq, Hop.netRate, List.map_cons, List.map_nil,
    List.prod_cons, List.prod_nil, hsymbols]
  ring

theorem quotedRate_route1 (view : TriView) (feeMap : HashMap FeeInfo) :
    (route1 view feeMap).map Route.quotedRate = (route1 view ∅).map Route.quotedRate := by
  unfold route1
  cases view.asksAb.head? with
  | none => rfl
  | some askAb => cases view.bidsBc.head? with
    | none => rfl
    | some bidBc => cases view.asksAc.head? with
      | none => rfl
      | some askAc => rfl

theorem quotedRate_route2 (view : TriView) (feeMap : HashMap FeeInfo) :
    (route2 view feeMap).map Route.quotedRate = (route2 view ∅).map Route.quotedRate := by
  unfold route2
  cases view.asksBc.head? with
  | none => rfl
  | some askBc => cases view.bidsAc.head? with
    | none => rfl
    | some bidAc => cases view.bidsAb.head? with
      | none => rfl
      | some bidAb => rfl

/-- The view alone fixes the directions there are and what their quotes multiply to. -/
theorem quotedRates_eq (view : TriView) (feeMap : HashMap FeeInfo) :
    (routes view feeMap).map Route.quotedRate = (routes view ∅).map Route.quotedRate := by
  simp only [routes, List.map_append, ← Option.toList_map, quotedRate_route1 view feeMap,
    quotedRate_route2 view feeMap]

theorem routes_eq_nil_iff : routes view feeMap = [] ↔ routes view ∅ = [] := by
  rw [← List.map_eq_nil_iff (f := Route.quotedRate), quotedRates_eq, List.map_eq_nil_iff]

theorem feesKept_empty (view : TriView) : feesKept view ∅ = 1 := by
  simp [feesKept, takerFee]

theorem silent_iff (hpos : view.PositiveBest) (feeMap : HashMap FeeInfo) (m : Decimal) :
    detectTriangularOpportunities view feeMap m = some [] ↔
      ∀ R ∈ (routes view ∅).map Route.quotedRate,
        startAmount * (R * feesKept view feeMap) - startAmount ≤ m := by
  rw [detect_eq_nil_iff hpos, ← quotedRates_eq view feeMap, List.forall_mem_map]
  exact forall₂_congr fun r hr => by rw [routes_profit hr]

theorem quotedRates_pos (hpos : view.PositiveBest) : ∀ R ∈ (routes view ∅).map Route.quotedRate, 0 < R := by
  rw [List.forall_mem_map]
  exact fun r hr => Route.quotedRate_pos (routes_price_pos hpos hr)

end Rates

/-- A market that is silent without fees stays silent with them, at every threshold,
exactly when the fees leave at most the whole amount or no direction has its quotes. -/
theorem fees_keep_silence_iff {view : TriView} (hpos : view.PositiveBest) (cfg : StrategyConfig) :
    (∀ m, detectTriangularOpportunities view ∅ m = some [] →
      detectTriangularOpportunities view cfg.feeMap m = some []) ↔
    feesKept view cfg.feeMap ≤ 1 ∨ routes view cfg.feeMap = [] := by
  have hstart : (0 : Decimal) < startAmount := by norm_num [startAmount]
  have hrates := quotedRates_pos hpos
  simp only [silent_iff hpos, feesKept_empty, mul_one]
  rw [routes_eq_nil_iff, ← List.map_eq_nil_iff (f := Route.quotedRate)]
  generalize (routes view ∅).map Route.quotedRate = rates at hrates ⊢
  constructor
  · intro hsilent
    by_contra! hboth
    obtain ⟨hkept,hne⟩ := hboth
    obtain ⟨R,hR,hmax⟩ := rates.toFinset.exists_max_image id (List.toFinset_nonempty_iff rates |>.mpr hne)
    simp only [List.mem_toFinset, id_eq] at hR hmax
    have hbest := hsilent (startAmount * R - startAmount) (fun R' hR' => sub_le_sub_right
      (mul_le_mul_of_nonneg_left (hmax R' hR') hstart.le) _) R hR
    have hgrow : startAmount * R < startAmount * (R * feesKept view cfg.feeMap) :=
      mul_lt_mul_of_pos_left (lt_mul_of_one_lt_right (hrates R hR) hkept) hstart
    linarith
  · rintro (hkept | hnil) m hsilent R hR
    · have hshrink : startAmount * (R * feesKept view cfg.feeMap) ≤ startAmount * R :=
        mul_le_mul_of_nonneg_left (mul_le_of_le_one_right (hrates R hR).le hkept) hstart.le
      linarith [hsilent R hR]
    · subst hnil
      exact absurd hR List.not_mem_nil

def parityView : TriView where
  symAb := "BTCUSDT"
  bidsAb := [(1,1)]
  asksAb := [(1,1)]
  symBc := "ETHUSDT"
  bidsBc := [(1,1)]
  asksBc := [(1,1)]
  symAc := "ETHBTC"
  bidsAc := [(1,1)]
  asksAc := [(1,1)]

theorem parityView_positiveBest : parityView.PositiveBest := by
  constructor <;> simp [parityView]

def tenthPercentFees : StrategyConfig :=
  { plainConfig with
    feeMap := AList.insert "BTCUSDT" ⟨1/1000,1/1000⟩ (AList.insert "ETHUSDT" ⟨1/1000,1/1000⟩
      (AList.insert "ETHBTC" ⟨1/1000,1/1000⟩ ∅)) }

theorem fees_keep_silence_iff_parityView : tenthPercentFees.validate = .ok () ∧
    detectTriangularOpportunities parityView tenthPercentFees.feeMap 0 = some [] :=
  ⟨by decide +kernel,(fees_keep_silence_iff parityView_positiveBest tenthPercentFees).mpr
    (.inl (by decide +kernel)) 0 (by decide +kernel)⟩

/-- Taker fees of 300 percent on two of the three symbols. -/
def threefoldFees : StrategyConfig :=
  { plainConfig with feeMap := AList.insert "BTCUSDT" ⟨0,3⟩ (AList.insert "ETHBTC" ⟨0,3⟩ ∅) }

theorem threefoldFees_opportunity : threefoldFees.validate = .ok () ∧
    detectTriangularOpportunities parityView ∅ 0 = some [] ∧
    detectTriangularOpportunities parityView threefoldFees.feeMap 0 ≠ some [] :=
  ⟨by decide +kernel,by decide +kernel,by decide +kernel⟩

end ArbCore
