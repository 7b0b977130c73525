import ArbCore.Strategy.AcceptedFees

/-! # Markets without arbitrage and the two directions of one market

In the orientation of the detector's own comments `ab` and `bc` are priced in the
start currency and `ac` in the base of `ab`. Around values of the three currencies
neither direction multiplies to more than one. Where no pair is crossed the two
directions together multiply to at most one, so at most one of them pays.
-/
namespace ArbCore
open LabelledRun ConversionChain

structure QuotedAround (bids asks : List (Decimal × Decimal)) (ratio : Decimal) : Prop where
  bid : ∀ l ∈ bids.head?, l.1 ≤ ratio
  ask : ∀ l ∈ asks.head?, ratio ≤ l.1

/-- All quotes lie around the ratios of the values: B1 in Q, B2 in Q and B2 in B1. -/
structure ArbitrageFree (vQ vB1 vB2 : Decimal) (view : TriView) : Prop where
  ab : QuotedAround view.bidsAb view.asksAb (vB1 / vQ)
  bc : QuotedAround view.bidsBc view.asksBc (vB2 / vQ)
  ac : QuotedAround view.bidsAc view.asksAc (vB2 / vB1)

structure TriView.NotCrossed (view : TriView) : Prop where
  ab : ∀ bid ∈ view.bidsAb.head?, ∀ ask ∈ view.asksAb.head?, bid.1 ≤ ask.1
  bc : ∀ bid ∈ view.bidsBc.head?, ∀ ask ∈ view.asksBc.head?, bid.1 ≤ ask.1
  ac : ∀ bid ∈ view.bidsAc.head?, ∀ ask ∈ view.asksAc.head?, bid.1 ≤ ask.1

section Rates
variable {view : TriView} {feeMap : HashMap FeeInfo} {m : Decimal} {r : Route}

/-- Fees only lower a profit, so a direction that pays has quotes above parity. -/
theorem one_lt_quotedRate (hpos : view.PositiveBest) (hfees : ProperFees feeMap) (hm : 0 ≤ m)
    (hr : r ∈ routes view feeMap) (hlt : m < r.profit) : 1 < r.quotedRate := by
  by_contra hle
  have hrate := Route.quotedRate_pos (routes_price_pos hpos hr)
  have hreturn : r.quotedRate * feesKept view feeMap ≤ 1 :=
    mul_le_one₀ (not_lt.mp hle) (hfees.feesKept_nonneg view) (hfees.feesKept_le_one view)
  have hprofit : r.profit ≤ 0 := by
    rw [routes_profit hr, sub_nonpos]
    exact mul_le_of_le_one_right (by norm_num [startAmount]) hreturn
  exact absurd hlt (hprofit.trans hm).not_gt

theorem ArbitrageFree.quotedRate_le_one {vQ vB1 vB2 : Decimal} (hQ : 0 < vQ) (hB1 : 0 < vB1)
    (hB2 : 0 < vB2) (h : ArbitrageFree vQ vB1 vB2 view) (hpos : view.PositiveBest)
    (hr : r ∈ routes view feeMap) : r.quotedRate ≤ 1 := by
  have hvalues : vB1 / vQ * (vB2 / vB1) = vB2 / vQ := by field_simp
  rcases mem_routes_iff.mp hr with hr | hr
  · obtain ⟨askAb,bidBc,askAc,_,_,_,hab,hbc,hac,-⟩ := route1_cases hr
    have hAb : 0 < askAb := hpos.asksAb _ hab
    have hAc : 0 < askAc := hpos.asksAc _ hac
    rw [route1_quotedRate hr hab hbc hac, div_le_one (mul_pos hAb hAc)]
    calc bidBc ≤ vB2 / vQ := h.bc.bid _ hbc
      _ = vB1 / vQ * (vB2 / vB1) := hvalues.symm
      _ ≤ askAb * askAc := mul_le_mul (h.ab.ask _ hab) (h.ac.ask _ hac) (by positivity) hAb.le
  · obtain ⟨askBc,bidAc,bidAb,_,_,_,hbc,hac,hab,-⟩ := route2_cases hr
    have hAc : 0 < bidAc := hpos.bidsAc _ hac
    rw [route2_quotedRate hr hbc hac hab, div_le_one (hpos.asksBc _ hbc)]
    calc bidAb * bidAc ≤ vB1 / vQ * (vB2 / vB1) :=
          mul_le_mul (h.ab.bid _ hab) (h.ac.bid _ hac) hAc.le (by positivity)
      _ = vB2 / vQ := hvalues
      _ ≤ askBc := h.bc.ask _ hbc

/-- Each direction takes the opposite side of every pair, so their product is at most one. -/
theorem quotedRate_mul_le_one (hpos : view.PositiveBest) (hspread : view.NotCrossed) {r1 r2 : Route}
    (h1 : route1 view feeMap = some r1) (h2 : route2 view feeMap = some r2) :
    r1.quotedRate * r2.quotedRate ≤ 1 := by
  obtain ⟨askAb,bidBc,askAc,_,_,_,hab,hbc,hac,-⟩ := route1_cases h1
  obtain ⟨askBc,bidAc,bidAb,_,_,_,hbc',hac',hab',-⟩ := route2_cases h2
  have hAb : 0 < askAb := hpos.asksAb _ hab
  have hAc : 0 < askAc := hpos.asksAc _ hac
  have hBc : 0 < askBc := hpos.asksBc _ hbc'
  have hbidAc : 0 < bidAc := hpos.bidsAc _ hac'
  have hbidBc : 0 < bidBc := hpos.bidsBc _ hbc
  have hcross : bidAb * bidAc ≤ askAb * askAc :=
    mul_le_mul (hspread.ab _ hab' _ hab) (hspread.ac _ hac' _ hac) hbidAc.le hAb.le
  rw [route1_quotedRate h1 hab hbc hac, route2_quotedRate h2 hbc' hac' hab', div_mul_div_comm,
    div_le_one (mul_pos (mul_pos hAb hAc) hBc)]
  calc bidBc * (bidAb * bidAc) ≤ bidBc * (askAb * askAc) := mul_le_mul_of_nonneg_left hcross hbidBc.le
    _ ≤ askBc * (askAb * askAc) := mul_le_mul_of_nonneg_right (hspread.bc _ hbc _ hbc') (by positivity)
    _ = askAb * askAc * askBc := mul_comm _ _

theorem detect_length_le_one (hpos : view.PositiveBest) (hspread : view.NotCrossed)
    (hfees : ProperFees feeMap) (hm : 0 ≤ m) {ops : List Opportunity}
    (h : detectTriangularOpportunities view feeMap m = some ops) : ops.length ≤ 1 := by
  obtain ⟨-,-,rfl⟩ := detect_cases h
  have hlen1 := reported_length_le (route1 view feeMap) m
  have hlen2 := reported_length_le (route2 view feeMap) m
  rw [List.length_append]
  by_contra hboth
  have hpos1 : 0 < (reported (route1 view feeMap) m).length := by omega
  have hpos2 : 0 < (reported (route2 view feeMap) m).length := by omega
  obtain ⟨op1,hop1⟩ := List.exists_mem_of_length_pos hpos1
  obtain ⟨op2,hop2⟩ := List.exists_mem_of_length_pos hpos2
  obtain ⟨r1,h1,hlt1,-⟩ := mem_reported_iff.mp hop1
  obtain ⟨r2,h2,hlt2,-⟩ := mem_reported_iff.mp hop2
  have hone1 := one_lt_quotedRate hpos hfees hm (mem_routes_iff.mpr (.inl h1)) hlt1
  have hone2 := one_lt_quotedRate hpos hfees hm (mem_routes_iff.mpr (.inr h2)) hlt2
  exact absurd (quotedRate_mul_le_one hpos hspread h1 h2) (one_lt_mul_of_lt_of_le hone1 hone2.le).not_ge

end Rates

/-- In a market without arbitrage detection finds nothing, whatever the spreads and fees. -/
theorem arbitrageFree_silent {vQ vB1 vB2 : Decimal} {view : TriView} (hQ : 0 < vQ) (hB1 : 0 < vB1)
    (hB2 : 0 < vB2) (h : ArbitrageFree vQ vB1 vB2 view) (hpos : view.PositiveBest)
    {feeMap : HashMap FeeInfo} (hfees : ProperFees feeMap) {m : Decimal} (hm : 0 ≤ m) :
    detectTriangularOpportunities view feeMap m = some [] := by
  rw [detect_eq_nil_iff hpos]
  intro r hr
  by_contra hlt
  exact absurd (h.quotedRate_le_one hQ hB1 hB2 hpos hr)
    (one_lt_quotedRate hpos hfees hm hr (not_le.mp hlt)).not_ge

def spreadView : TriView where
  symAb := "BTCUSDT"
  bidsAb := [(49990,1)]
  asksAb := [(50010,1)]
  symBc := "ETHUSDT"
  bidsBc := [(2499,1)]
  asksBc := [(2501,1)]
  symAc := "ETHBTC"
  bidsAc := [(49/1000,1)]
  asksAc := [(51/1000,1)]

theorem spreadView_positiveBest : spreadView.PositiveBest := by
  constructor <;> simp [spreadView]

theorem spreadView_arbitrageFree : ArbitrageFree 1 50000 2500 spreadView := by
  constructor <;> constructor <;> norm_num [spreadView]

theorem properFees_empty : ProperFees ∅ := by
  intro sym f hf
  simp at hf

theorem arbitrageFree_silent_spreadView :
    ArbitrageFree 1 50000 2500 spreadView ∧ detectTriangularOpportunities spreadView ∅ 0 = some [] :=
  ⟨spreadView_arbitrageFree,arbitrageFree_silent (by norm_num) (by norm_num) (by norm_num)
    spreadView_arbitrageFree spreadView_positiveBest properFees_empty le_rfl⟩

def DetectorPhase.left (n : ℕ) : DetectorPhase → ℕ
  | .received _ => n
  | .counted _ rest _ | .planned _ rest | .registered _ rest => rest.length + 1
  | .pending rest | .sent rest | .unsent _ rest | .rejecting rest => rest.length
  | .recv | .stopped | .panicked => 0

namespace Engine
variable {cfg : StrategyConfig} {storage : Bool} {view : TriView} {ops : List Opportunity} {n : ℕ}
  {e t u : Engine}

theorem detectorMove_left {i : DetectorInput} (hn : ∀ view ops, e.detector = .received view →
      detectTriangularOpportunities view cfg.feeMap cfg.limits.minProfitAbs = some ops → ops.length ≤ n)
    (h : DetectorMove cfg e i t) :
    ∃ sent, t.execTx = e.execTx ++ sent ∧ sent.length + t.detector.left n ≤ e.detector.left n := by
  have hkeep : t.execTx = e.execTx → t.detector.left n ≤ e.detector.left n →
      ∃ sent, t.execTx = e.execTx ++ sent ∧ sent.length + t.detector.left n ≤ e.detector.left n := by
    intro hsent hle
    exact ⟨[],by rw [hsent, List.append_nil],by rwa [List.length_nil, Nat.zero_add]⟩
  cases h with
  | detected hphase hops =>
    refine hkeep rfl ?_
    rw [hphase]
    exact hn _ _ hphase hops
  | detectPanicked _ _ => exact hkeep rfl (Nat.zero_le _)
  | viewDone _ => exact hkeep rfl (Nat.zero_le _)
  | @takenUp op rest k hphase =>
    refine hkeep rfl ?_
    rw [hphase]
    rcases @takeUp_cases _ cfg op rest k i.planId with ⟨plan,hp⟩ | hr | hr
    · exact (congrArg (DetectorPhase.left n) hp).le
    · exact (congrArg (DetectorPhase.left n) hr).le.trans (Nat.le_succ _)
    · exact (congrArg (DetectorPhase.left n) hr).le.trans (Nat.zero_le _)
  | @sent plan rest hphase _ =>
    refine ⟨[plan],rfl,?_⟩
    rw [hphase]
    exact (Nat.add_comm 1 rest.length).le
  | unsent hphase _ =>
    refine hkeep rfl ?_
    rw [hphase]
    exact Nat.le_succ _
  | counted hphase | registered hphase | submitted hphase | unregistered hphase | rejected hphase =>
    refine hkeep rfl ?_
    rw [hphase]
    exact le_rfl

theorem received_detectorMove {i : DetectorInput} (h : DetectorMove cfg e i t) (view : TriView) :
    t.detector ≠ .received view := by
  cases h with
  | @takenUp op rest k _ =>
    rcases @takeUp_cases _ cfg op rest k i.planId with ⟨plan,hp⟩ | hr | hr
    · exact hp ▸ DetectorPhase.noConfusion
    · exact hr ▸ DetectorPhase.noConfusion
    · exact hr ▸ DetectorPhase.noConfusion
  | _ => exact DetectorPhase.noConfusion

/-- After a view was delivered to `e`: no other view is awaiting detection, and what was sent
and what may still be sent are together at most `n`. -/
structure Handling (view : TriView) (e : Engine) (n : ℕ) (u : Engine) : Prop where
  view : ∀ v, u.detector = .received v → v = view
  sent : ∃ sent, u.execTx = e.execTx ++ sent ∧ sent.length + u.detector.left n ≤ n

theorem handling_step {ev : EngineEvent} {w : Engine}
    (hops : detectTriangularOpportunities view cfg.feeMap cfg.limits.minProfitAbs = some ops)
    (hev : ∀ view, ev ≠ .view view) (hu : Handling view e ops.length u)
    (h : u.step cfg storage ev = some w) : Handling view e ops.length w := by
  obtain ⟨hreceived,sent,hsent,hcount⟩ := hu
  rcases step_cases h with ⟨v,rfl,-,-⟩ | ⟨-,rfl⟩ | ⟨i,-,hmove⟩ | ⟨hd,htx,-⟩
  · exact absurd rfl (hev v)
  · exact ⟨fun _ => DetectorPhase.noConfusion,sent,hsent,(Nat.le_add_right _ _).trans hcount⟩
  · have hfound : ∀ v ops', u.detector = .received v →
        detectTriangularOpportunities v cfg.feeMap cfg.limits.minProfitAbs = some ops' →
        ops'.length ≤ ops.length := by
      intro v ops' hv hops'
      cases hreceived v hv
      cases hops.symm.trans hops'
      exact le_rfl
    obtain ⟨more,hmore,hleft⟩ := detectorMove_left hfound hmove
    refine ⟨fun v hv => absurd hv (received_detectorMove hmove v),sent ++ more,?_,?_⟩
    · rw [hmore, hsent, List.append_assoc]
    · rw [List.length_append]
      omega
  · rw [← hd] at hreceived hcount
    exact ⟨hreceived,sent,htx.trans hsent,hcount⟩

theorem sent_le_detected
    (hops : detectTriangularOpportunities view cfg.feeMap cfg.limits.minProfitAbs = some ops)
    (hview : e.step cfg storage (.view view) = some t)
    (h : Reaches (step cfg storage) (fun ev => ∀ view, ev ≠ .view view) t u) :
    ∃ sent, u.execTx = e.execTx ++ sent ∧ sent.length ≤ ops.length := by
  have hstart : Handling view e ops.length t := by
    cases step_move hview with
    | view _ => exact ⟨fun v hv => (DetectorPhase.received.inj hv).symm,[],(List.append_nil _).symm,
        (Nat.zero_add _).le⟩
  have hend : Handling view e ops.length u :=
    h.invariant (fun _ _ _ hev hu hstep => handling_step hops hev hu hstep) hstart
  obtain ⟨sent,hsent,hcount⟩ := hend.sent
  exact ⟨sent,hsent,(Nat.le_add_right _ _).trans hcount⟩

end Engine

/-- Of the two directions at most one pays, and from one view, until the next one is
delivered, the engine sends at most one plan. -/
theorem directions_exclude {view : TriView} (hpos : view.PositiveBest) (hspread : view.NotCrossed)
    {feeMap : HashMap FeeInfo} (hfees : ProperFees feeMap) {m : Decimal} (hm : 0 ≤ m) :
    (∃ ops, detectTriangularOpportunities view feeMap m = some ops ∧ ops.length ≤ 1) ∧
    ∀ (cfg : StrategyConfig) (storage : Bool) (e t u : Engine), cfg.feeMap = feeMap →
      cfg.limits.minProfitAbs = m → e.step cfg storage (.view view) = some t →
      Reaches (Engine.step cfg storage) (fun ev => ∀ view, ev ≠ .view view) t u →
        ∃ sent, u.execTx = e.execTx ++ sent ∧ sent.length ≤ 1 := by
  obtain ⟨ops,hops⟩ := detect_returns hpos feeMap m
  have hlen := detect_length_le_one hpos hspread hfees hm hops
  refine ⟨⟨ops,hops,hlen⟩,?_⟩
  rintro cfg storage e t u rfl rfl hview hreach
  obtain ⟨sent,hsent,hle⟩ := Engine.sent_le_detected hops hview hreach
  exact ⟨sent,hsent,hle.trans hlen⟩

def twoSidedView : TriView :=
  { mispricedView with bidsAb := [(49990,1)], asksBc := [(2601,10)], bidsAc := [(49/1000,10)] }

theorem twoSidedView_positiveBest : twoSidedView.PositiveBest := by
  constructor <;> simp [twoSidedView, mispricedView]

theorem directions_exclude_twoSidedView :
    (∃ ops, detectTriangularOpportunities twoSidedView ∅ 0 = some ops ∧ ops.length ≤ 1) ∧
    ∃ sent, ((run (Engine.step plainConfig false) { Engine.new with detector := .received twoSidedView }
      (List.replicate 7 (.detector ⟨"p1",0,true⟩))).get (by decide +kernel)).execTx = [] ++ sent ∧
      sent.length ≤ 1 := by
  have hspread : twoSidedView.NotCrossed := by
    constructor <;> norm_num [twoSidedView, mispricedView]
  obtain ⟨hops,hengine⟩ := directions_exclude twoSidedView_positiveBest hspread
    properFees_empty le_rfl
  refine ⟨hops,hengine plainConfig false Engine.new _ _ rfl rfl rfl ⟨_,fun ev hev => ?_,
    (Option.some_get _).symm⟩⟩
  rw [List.eq_of_mem_replicate hev]
  exact fun _ => EngineEvent.noConfusion

end ArbCore
