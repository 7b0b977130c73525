import ArbCore.Strategy.Detection

/-! # A fairly priced market in the documented orientation

The view builder and the README quote A in B, B in C and A in C, while the
detector multiplies the quotes as if `bc` and `ab` were priced in one currency
and `ac` in the base of `ab`. Fair prices then leave the square of a price
ratio over, in one direction or the other.
-/
namespace ArbCore
open ConversionChain

/-- Best bid and best ask of each pair are the fair price: A in B, B in C, A in C. -/
structure FairlyPriced (vA vB vC : Decimal) (view : TriView) : Prop where
  bidsAb : view.bidsAb.head?.map Prod.fst = some (vA / vB)
  asksAb : view.asksAb.head?.map Prod.fst = some (vA / vB)
  bidsBc : view.bidsBc.head?.map Prod.fst = some (vB / vC)
  asksBc : view.asksBc.head?.map Prod.fst = some (vB / vC)
  bidsAc : view.bidsAc.head?.map Prod.fst = some (vA / vC)
  asksAc : view.asksAc.head?.map Prod.fst = some (vA / vC)

def feesKept (view : TriView) (feeMap : HashMap FeeInfo) : Decimal :=
  (1 - takerFee feeMap view.symAb) * (1 - takerFee feeMap view.symBc) *
    (1 - takerFee feeMap view.symAc)

theorem feesKept_nonneg {feeMap : HashMap FeeInfo}
    (hfees : ∀ sym f, feeMap.lookup sym = some f → f.taker ≤ 1) (view : TriView) :
    0 ≤ feesKept view feeMap := by
  have hle : ∀ sym, 0 ≤ 1 - takerFee feeMap sym := fun sym =>
    sub_nonneg.mpr (takerFee_forall (P := (· ≤ 1)) zero_le_one hfees sym)
  exact mul_nonneg (mul_nonneg (hle _) (hle _)) (hle _)

def ProperFees (feeMap : HashMap FeeInfo) : Prop :=
  ∀ sym f, feeMap.lookup sym = some f → 0 ≤ f.taker ∧ f.taker ≤ 1

theorem ProperFees.takerFee {feeMap : HashMap FeeInfo} (h : ProperFees feeMap) (sym : String) :
    0 ≤ takerFee feeMap sym ∧ takerFee feeMap sym ≤ 1 :=
  takerFee_forall (P := fun fee => 0 ≤ fee ∧ fee ≤ 1) ⟨le_rfl,zero_le_one⟩ h sym

theorem ProperFees.feesKept_le_one {feeMap : HashMap FeeInfo} (h : ProperFees feeMap) (view : TriView) :
    feesKept view feeMap ≤ 1 := by
  have hle : ∀ sym, 1 - ArbCore.takerFee feeMap sym ≤ 1 := fun sym => sub_le_self 1 (h.takerFee sym).1
  have hnonneg : ∀ sym, 0 ≤ 1 - ArbCore.takerFee feeMap sym :=
    fun sym => sub_nonneg.mpr (h.takerFee sym).2
  exact mul_le_one₀ (mul_le_one₀ (hle _) (hnonneg _) (hle _)) (hnonneg _) (hle _)

theorem ProperFees.feesKept_nonneg {feeMap : HashMap FeeInfo} (h : ProperFees feeMap) (view : TriView) :
    0 ≤ feesKept view feeMap :=
  ArbCore.feesKept_nonneg (fun sym f hf => (h sym f hf).2) view

theorem head_of_price {levels : List (Decimal × Decimal)} {x : Decimal}
    (h : levels.head?.map Prod.fst = some x) : ∃ size, levels.head? = some (x,size) := by
  obtain ⟨⟨_,size⟩,hhead,rfl⟩ := Option.map_eq_some_iff.mp h
  exact ⟨size,hhead⟩

section Fair
variable {vA vB vC : Decimal} {view : TriView} (hA : 0 < vA) (hB : 0 < vB) (hC : 0 < vC)
  (h : FairlyPriced vA vB vC view)
include hA hB hC h

theorem FairlyPriced.positiveBest : view.PositiveBest := by
  have hpos : ∀ {levels : List (Decimal × Decimal)} {x : Decimal},
      levels.head?.map Prod.fst = some x → 0 < x → ∀ l ∈ levels.head?, 0 < l.1 := by
    intro levels x hx hpos l hl
    obtain ⟨size,hhead⟩ := head_of_price hx
    rw [hhead] at hl
    exact (Option.some.inj hl) ▸ hpos
  exact ⟨hpos h.bidsAb (div_pos hA hB),hpos h.asksAb (div_pos hA hB),hpos h.bidsBc (div_pos hB hC),
    hpos h.asksBc (div_pos hB hC),hpos h.bidsAc (div_pos hA hC),hpos h.asksAc (div_pos hA hC)⟩

/-- The two directions return the squared price ratio of A and B and its inverse. -/
theorem FairlyPriced.profits (feeMap : HashMap FeeInfo) :
    ∃ r1 r2, routes view feeMap = [r1,r2] ∧
      r1.profit = startAmount * (feesKept view feeMap * (vB / vA) ^ 2) - startAmount ∧
      r2.profit = startAmount * (feesKept view feeMap * (vA / vB) ^ 2) - startAmount := by
  obtain ⟨_,hbidAb⟩ := head_of_price h.bidsAb
  obtain ⟨_,haskAb⟩ := head_of_price h.asksAb
  obtain ⟨_,hbidBc⟩ := head_of_price h.bidsBc
  obtain ⟨_,haskBc⟩ := head_of_price h.asksBc
  obtain ⟨_,hbidAc⟩ := head_of_price h.bidsAc
  obtain ⟨_,haskAc⟩ := head_of_price h.asksAc
  have h1 := @route1_of_quotes view feeMap _ _ _ _ _ _ haskAb hbidBc haskAc
  have h2 := @route2_of_quotes view feeMap _ _ _ _ _ _ haskBc hbidAc hbidAb
  refine ⟨_,_,by rw [routes, h1, h2]; rfl,?_,?_⟩
  · simp only [Route.profit_eq, Route.hops_eq, Hop.netRate, Hop.rate, feesKept, List.map_cons,
      List.map_nil, List.prod_cons, List.prod_nil, ↓reduceIte, Bool.false_eq_true]
    field_simp
  · simp only [Route.profit_eq, Route.hops_eq, Hop.netRate, Hop.rate, feesKept, List.map_cons,
      List.map_nil, List.prod_cons, List.prod_nil, ↓reduceIte, Bool.false_eq_true]
    field_simp

/-- Detection stays silent at fair prices exactly when the fees and the threshold
swallow the larger of the two squared ratios. -/
theorem fairMarket_silent_iff {feeMap : HashMap FeeInfo}
    (hfees : ∀ sym f, feeMap.lookup sym = some f → f.taker ≤ 1) (m : Decimal) :
    detectTriangularOpportunities view feeMap m = some [] ↔
      startAmount * (feesKept view feeMap * max (vA / vB) (vB / vA) ^ 2) ≤ startAmount + m := by
  obtain ⟨r1,r2,hroutes,h1,h2⟩ := h.profits hA hB hC feeMap
  have hkept := feesKept_nonneg hfees view
  have hstart : (0 : Decimal) ≤ startAmount := by norm_num [startAmount]
  have hscale : ∀ {x y : Decimal}, 0 < x → x ≤ y →
      startAmount * (feesKept view feeMap * x ^ 2) ≤ startAmount * (feesKept view feeMap * y ^ 2) :=
    fun hx hxy => mul_le_mul_of_nonneg_left
      (mul_le_mul_of_nonneg_left (pow_le_pow_left₀ hx.le hxy 2) hkept) hstart
  rw [detect_eq_nil_iff (h.positiveBest hA hB hC), hroutes]
  simp only [List.mem_cons, List.not_mem_nil, or_false, forall_eq_or_imp, forall_eq, h1, h2]
  have hAB := div_pos hA hB
  have hBA := div_pos hB hA
  rcases le_total (vA / vB) (vB / vA) with hle | hle
  · have hpow := hscale hAB hle
    rw [max_eq_right hle]
    constructor
    · rintro ⟨h1,-⟩
      linarith
    · intro hmax
      exact ⟨by linarith,by linarith⟩
  · have hpow := hscale hBA hle
    rw [max_eq_left hle]
    constructor
    · rintro ⟨-,h2⟩
      linarith
    · intro hmax
      exact ⟨by linarith,by linarith⟩

end Fair

def documentedView : TriView where
  symAb := "A/B"
  bidsAb := [(2,1)]
  asksAb := [(2,1)]
  symBc := "B/C"
  bidsBc := [(1,1)]
  asksBc := [(1,1)]
  symAc := "A/C"
  bidsAc := [(2,1)]
  asksAc := [(2,1)]

theorem documentedView_fair : FairlyPriced 2 1 1 documentedView := by
  constructor <;> simp [documentedView]

theorem fairMarket_silent_iff_documentedView :
    detectTriangularOpportunities documentedView ∅ 30000 = some [] :=
  (fairMarket_silent_iff (by norm_num) (by norm_num) (by norm_num) documentedView_fair
    (fun _ _ hf => by simp at hf) 30000).mpr
    (by norm_num [feesKept, documentedView, takerFee, startAmount])

/-- No fees, no threshold, fair prices: the detector sees a profit of 30000. -/
theorem documentedView_phantom :
    FairlyPriced 2 1 1 documentedView ∧ ∃ op,
      detectTriangularOpportunities documentedView ∅ 0 = some [op] ∧ op.estimatedProfit = 30000 :=
  ⟨documentedView_fair,⟨"USDT",30000,4,[⟨"B/C",true,1,10000⟩,⟨"A/C",false,2,10000⟩,
    ⟨"A/B",false,2,20000⟩]⟩,by decide +kernel,rfl⟩

end ArbCore
