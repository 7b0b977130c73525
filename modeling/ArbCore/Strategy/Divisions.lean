import ArbCore.Orderbook.Runs
import ArbCore.Strategy.AcceptedLegs

/-! # The divisors of the detector loop

Detection divides by ask prices and their product, the pre-trade checks and the planner by
the start amount that they reconstruct. Books may hold levels of price zero, since the
parser accepts any decimal, and a product of small prices may be rounded to zero.
-/
namespace ArbCore
open LabelledRun DecimalArithmetic
variable {cfg : StrategyConfig} {view : TriView}

section Computed
variable [DecimalOps]

/-- The direction buys at no price of zero. If the product of the two prices it buys at is
zero, it is not reported. If the start amount is reconstructed as zero, it is not reported,
or neither checked against a percentage nor accepted by the planner. -/
structure Route.SafeQuotes (cfg : StrategyConfig) (r : Route) : Prop where
  asks : ∀ t ∈ r.trades, t.hop.buy = true → t.hop.price ≠ 0
  product : r.second.hop.buy = true → mul r.first.hop.price r.second.hop.price = .ok 0 →
    ∀ a, r.amounts = .ok a → a.profit ≤ cfg.limits.minProfitAbs
  start : ∀ a price, r.amounts = .ok a → r.implied = .ok price → mul a.qty1 price = .ok 0 →
    a.profit ≤ cfg.limits.minProfitAbs ∨
      (cfg.limits.minProfitPct = 0 ∧ ∃ l ∈ (r.estimate a price).legs, ¬ Checked.Accepts cfg l)

namespace Trade
variable {t : Trade}

theorem orders_ne_divisionByZero (h : t.hop.buy = true → t.hop.price ≠ 0) (x : Decimal) :
    t.orders x ≠ .error .divisionByZero := by
  unfold orders
  by_cases hbuy : t.hop.buy = true
  · rw [if_pos hbuy]
    exact fun hdiv => h hbuy (div_eq_divisionByZero_iff.mp hdiv)
  · rw [if_neg hbuy]
    exact pure_ne_error

theorem yields_ne_divisionByZero (t : Trade) (q : Decimal) : t.yields q ≠ .error .divisionByZero := by
  unfold yields
  cases t.hop.buy with
  | true =>
    refine bind_ne_error pure_ne_error fun _ _ => bind_ne_error (fitted_ne_divisionByZero _) fun _ _ => ?_
    exact fitted_ne_divisionByZero _
  | false =>
    refine bind_ne_error (fitted_ne_divisionByZero _) fun _ _ => ?_
    exact bind_ne_error (fitted_ne_divisionByZero _) fun _ _ => fitted_ne_divisionByZero _

end Trade

namespace Route
variable {r : Route} {m : Decimal} {op : Opportunity}

theorem amounts_ne_divisionByZero (h : ∀ t ∈ r.trades, t.hop.buy = true → t.hop.price ≠ 0) :
    r.amounts ≠ .error .divisionByZero := by
  simp only [trades, List.mem_cons, List.not_mem_nil, or_false, forall_eq_or_imp, forall_eq] at h
  obtain ⟨h1,h2,h3⟩ := h
  have hstart : startAmount ≠ 0 := by norm_num [startAmount]
  refine bind_ne_error (Trade.orders_ne_divisionByZero h1 _) fun qty1 _ => ?_
  refine bind_ne_error (Trade.yields_ne_divisionByZero _ _) fun _ _ => ?_
  refine bind_ne_error (Trade.orders_ne_divisionByZero h2 _) fun qty2 _ => ?_
  refine bind_ne_error (Trade.yields_ne_divisionByZero _ _) fun _ _ => ?_
  refine bind_ne_error (Trade.orders_ne_divisionByZero h3 _) fun qty3 _ => ?_
  refine bind_ne_error (Trade.yields_ne_divisionByZero _ _) fun _ _ => ?_
  refine bind_ne_error (fitted_ne_divisionByZero _) fun profit _ => ?_
  refine bind_ne_error (fun hdiv => hstart (div_eq_divisionByZero_iff.mp hdiv)) fun _ _ => ?_
  exact bind_ne_error (fitted_ne_divisionByZero _) fun _ _ => pure_ne_error

theorem implied_eq_divisionByZero_iff (hfirst : r.first.hop.price ≠ 0) :
    r.implied = .error .divisionByZero ↔
      r.second.hop.buy = true ∧ mul r.first.hop.price r.second.hop.price = .ok 0 := by
  have hmul (x y : Decimal) : mul x y ≠ .error .divisionByZero := fitted_ne_divisionByZero _
  unfold implied
  cases r.second.hop.buy with
  | true => simp [bind_eq_error_iff, hmul, div_eq_divisionByZero_iff]
  | false => simp [bind_eq_error_iff, hmul, div_eq_divisionByZero_iff, hfirst]

omit [DecimalOps] in
theorem first_price_ne_zero (h : ∀ t ∈ r.trades, t.hop.buy = true → t.hop.price ≠ 0) :
    r.first.hop.price ≠ 0 := h r.first (by simp [trades]) r.first_buys

theorem report_ne_divisionByZero (h : r.SafeQuotes cfg) :
    r.report cfg.limits.minProfitAbs ≠ .error .divisionByZero := by
  refine bind_ne_error (amounts_ne_divisionByZero h.asks) fun a ha => ?_
  by_cases hm : cfg.limits.minProfitAbs < a.profit
  · rw [if_pos hm]
    refine bind_ne_error (fun himplied => ?_) fun _ _ => pure_ne_error
    obtain ⟨hbuy,hzero⟩ := (implied_eq_divisionByZero_iff (first_price_ne_zero h.asks)).mp himplied
    exact absurd hm (not_lt.mpr (h.product hbuy hzero a ha))
  · rw [if_neg hm]
    exact pure_ne_error

theorem reconstructedStart_estimate (a : Amounts) (price : Decimal) :
    Checked.reconstructedStart (r.estimate a price) = (do return some (← mul a.qty1 price)) := rfl

theorem reconstructedStart_eq_ok_iff {a : Amounts} {price x : Decimal} :
    Checked.reconstructedStart (r.estimate a price) = .ok (some x) ↔ mul a.qty1 price = .ok x := by
  rw [reconstructedStart_estimate, bind_eq_ok_iff]
  simp [pure, Except.pure]

theorem not_panics_of_safeQuotes (h : r.SafeQuotes cfg) (hop : r.Reports cfg.limits.minProfitAbs op) :
    ¬ op.Panics cfg .divisionByZero := by
  obtain ⟨a,price,ha,hprice,hm,rfl⟩ := hop
  have hsafe := h.start a price ha hprice
  rintro (hchecks | ⟨-,id,hbuild⟩)
  · obtain ⟨-,hpct,hstart⟩ := Checked.preTradeChecks_eq_divisionByZero_iff.mp hchecks
    rcases hsafe (reconstructedStart_eq_ok_iff.mp hstart) with hle | ⟨hzero,-⟩
    · exact absurd hm (not_lt.mpr hle)
    · exact hpct.ne' hzero
  · obtain ⟨haccepted,start,hstart,hzero⟩ := Checked.buildTradePlan_eq_divisionByZero_iff.mp hbuild
    obtain ⟨x,hx,hsome⟩ := bind_eq_ok_iff.mp hstart
    cases hsome
    rw [show x = 0 from hzero] at hx
    rcases hsafe hx with hle | ⟨-,l,hl,hrejected⟩
    · exact absurd hm (not_lt.mpr hle)
    · exact hrejected (haccepted l hl)

theorem safeQuotes_of_not_panics (hpct : 0 ≤ cfg.limits.minProfitPct) {out : List Opportunity}
    (hreport : r.report cfg.limits.minProfitAbs = .ok out)
    (hpanics : ∀ op, r.Reports cfg.limits.minProfitAbs op → ¬ op.Panics cfg .divisionByZero) :
    r.SafeQuotes cfg := by
  obtain ⟨a,ha,hreport⟩ := bind_eq_ok_iff.mp hreport
  have hasks := asks_ne_zero ha
  refine ⟨hasks,fun hbuy hzero a' ha' => ?_,fun a' price ha' hprice hzero => ?_⟩
  · cases ha.symm.trans ha'
    by_contra! hm
    rw [if_pos hm] at hreport
    obtain ⟨price,hprice,-⟩ := bind_eq_ok_iff.mp hreport
    cases hprice.symm.trans ((implied_eq_divisionByZero_iff (first_price_ne_zero hasks)).mpr ⟨hbuy,hzero⟩)
  · cases ha.symm.trans ha'
    rw [or_iff_not_imp_left, not_le]
    intro hm
    have hpanics := hpanics _ ⟨a,price,ha,hprice,hm,rfl⟩
    have hstart : Checked.reconstructedStart (r.estimate a price) = .ok (some 0) :=
      reconstructedStart_eq_ok_iff.mpr hzero
    have hzero_pct : ¬ 0 < cfg.limits.minProfitPct := fun hpos =>
      hpanics (.inl (Checked.preTradeChecks_eq_divisionByZero_iff.mpr ⟨hm,hpos,hstart⟩))
    refine ⟨le_antisymm (not_lt.mp hzero_pct) hpct,?_⟩
    by_contra! haccepted
    refine hpanics (.inr ⟨?_,"",Checked.buildTradePlan_eq_divisionByZero_iff.mpr ⟨haccepted,some 0,hstart,rfl⟩⟩)
    have hprofit : ¬ (r.estimate a price).estimatedProfit ≤ cfg.limits.minProfitAbs := not_le.mpr hm
    rw [Checked.preTradeChecks, if_neg hprofit, if_neg hzero_pct]

end Route

theorem detect_ne_divisionByZero (h : ∀ r ∈ routes view cfg.feeMap, r.SafeQuotes cfg) :
    Checked.detectTriangularOpportunities view cfg.feeMap cfg.limits.minProfitAbs ≠ .error .divisionByZero := by
  have hreports : ∀ route : Option Route, (∀ r, route = some r → r.SafeQuotes cfg) →
      reports route cfg.limits.minProfitAbs ≠ .error .divisionByZero := by
    intro route hroute
    cases route with
    | none => exact pure_ne_error
    | some r => exact Route.report_ne_divisionByZero (hroute r rfl)
  rw [checked_detect_eq]
  refine bind_ne_error (hreports _ fun r hr => h r (mem_routes_iff.mpr (.inl hr))) fun _ _ => ?_
  exact bind_ne_error (hreports _ fun r hr => h r (mem_routes_iff.mpr (.inr hr))) fun _ _ => pure_ne_error

structure BookRuns where
  topN : ℕ
  now : Instant
  symAb : String
  opsAb : List BookOp
  symBc : String
  opsBc : List BookOp
  symAc : String
  opsAc : List BookOp

def BookRuns.triview (b : BookRuns) : TriView :=
  let ab := (BookRun.run b.symAb b.opsAb).book
  let bc := (BookRun.run b.symBc b.opsBc).book
  let ac := (BookRun.run b.symAc b.opsAc).book
  buildTriviewFromSnapshots ab.symbol (ab.snapshotCopy b.now) bc.symbol (bc.snapshotCopy b.now) ac.symbol
    (ac.snapshotCopy b.now) b.topN

namespace Engine

variable {storage : Bool} {V : Set TriView}

theorem not_divides_of_safeQuotes (h : ∀ view ∈ V, ∀ r ∈ routes view cfg.feeMap, r.SafeQuotes cfg) {e : Engine}
    (he : Reaches (step cfg storage) (EngineEvent.FromViews V) new e) : ¬ e.Panics cfg .divisionByZero := by
  refine not_panics_of_views (fun view hview => detect_ne_divisionByZero (h view hview)) ?_ he
  rintro view hview op ⟨ops,hops,hop⟩
  obtain ⟨r,hr,hreports⟩ := (mem_detect_iff_reports hops op).mp hop
  exact Route.not_panics_of_safeQuotes (h view hview r hr) hreports

theorem safeQuotes_of_steady (hvalid : cfg.Valid) (hview : view ∈ V)
    (hsteady : ∀ e why, Reaches (step cfg storage) (EngineEvent.FromViews V) new e → ¬ e.Panics cfg why)
    {r : Route} (hr : r ∈ routes view cfg.feeMap) : r.SafeQuotes cfg := by
  obtain ⟨ops,hops⟩ := @detect_of_steady cfg view _ storage V hsteady hview
  obtain ⟨out,hout⟩ := report_of_detect hops hr
  refine Route.safeQuotes_of_not_panics hvalid.minProfitPct hout fun op hop => ?_
  exact @not_panics_of_found cfg view _ storage V hsteady hvalid.concurrency hview op
    ⟨ops,hops,(mem_detect_iff_reports hops op).mpr ⟨r,hr,hop⟩⟩ .divisionByZero

/-- Whatever the books have been through, safe directions in their views keep every run
that delivers them from dividing by zero. No weaker condition does, unless an operation
panics before because its result is too large. -/
theorem detector_divides_iff (hvalid : cfg.validate = .ok ()) (storage : Bool) (S : Set BookRuns) :
    ((∀ b ∈ S, ∀ r ∈ routes b.triview cfg.feeMap, r.SafeQuotes cfg) →
      ∀ e, Reaches (step cfg storage) (EngineEvent.FromViews (BookRuns.triview '' S)) new e →
        ¬ e.Panics cfg .divisionByZero) ∧
    ((∀ e, Reaches (step cfg storage) (EngineEvent.FromViews (BookRuns.triview '' S)) new e →
        ¬ e.Panics cfg .overflow) →
      (∀ e, Reaches (step cfg storage) (EngineEvent.FromViews (BookRuns.triview '' S)) new e →
        ¬ e.Panics cfg .divisionByZero) →
      ∀ b ∈ S, ∀ r ∈ routes b.triview cfg.feeMap, r.SafeQuotes cfg) := by
  have hvalid := (StrategyConfig.validate_iff cfg).mp hvalid
  constructor
  · intro hsafe e he
    refine not_divides_of_safeQuotes ?_ he
    rintro _ ⟨b,hb,rfl⟩
    exact hsafe b hb
  · intro hoverflow hdivides b hb r hr
    refine @safeQuotes_of_steady cfg _ _ storage _ hvalid (Set.mem_image_of_mem _ hb) (fun e why he => ?_) r hr
    cases why with
    | overflow => exact hoverflow e he
    | divisionByZero => exact hdivides e he

end Engine

end Computed

/-! The views of three books of one level a side, in the arithmetic of `rust_decimal`. -/

def oneLevelOps (symbol : String) (bid ask : Decimal) : List BookOp :=
  [.applySnapshot ⟨symbol,[⟨bid,1⟩],[⟨ask,1⟩],some 1,none⟩ 0]

def oneLevelBooks (bidAb askAb : Decimal) : BookRuns where
  topN := 5
  now := 0
  symAb := "BTCUSDT"
  opsAb := oneLevelOps "BTCUSDT" bidAb askAb
  symBc := "ETHUSDT"
  opsBc := oneLevelOps "ETHUSDT" 2600 3125
  symAc := "ETHBTC"
  opsAc := oneLevelOps "ETHBTC" (1/25) (1/20)

theorem Route.safeQuotes_of_ne_zero [DecimalOps] {r : Route} {a : Amounts} {price : Decimal}
    (ha : r.amounts = .ok a) (hprice : r.implied = .ok price) (hstart : mul a.qty1 price ≠ .ok 0) :
    r.SafeQuotes cfg := by
  have hasks := asks_ne_zero ha
  refine ⟨hasks,fun hbuy hzero _ _ => ?_,fun a' price' ha' hprice' hzero => ?_⟩
  · cases hprice.symm.trans ((implied_eq_divisionByZero_iff (first_price_ne_zero hasks)).mpr ⟨hbuy,hzero⟩)
  · cases ha.symm.trans ha'
    cases hprice.symm.trans hprice'
    exact absurd hzero hstart

theorem oneLevelBooks_safeQuotes :
    ∀ r ∈ routes (oneLevelBooks 49900 50000).triview ∅, @Route.SafeQuotes rustDecimal plainConfig r := by
  have hview : (oneLevelBooks 49900 50000).triview =
      ⟨"BTCUSDT",[(49900,1)],[(50000,1)],"ETHUSDT",[(2600,1)],[(3125,1)],"ETHBTC",[(1/25,1)],[(1/20,1)]⟩ := by
    decide +kernel
  rw [hview]
  intro r hr
  rcases mem_routes_iff.mp hr with hr | hr
  · cases hr
    refine @Route.safeQuotes_of_ne_zero _ rustDecimal _ ⟨1/5,4,4,400⟩ (26/25) ?_ ?_ ?_ <;> decide +kernel
  · cases hr
    refine @Route.safeQuotes_of_ne_zero _ rustDecimal _ ⟨16/5,16/5,16/125,-18064/5⟩ (1996/3125) ?_ ?_ ?_ <;>
      decide +kernel

namespace Engine

theorem reaches_received_books (b : BookRuns) :
    Reaches (@step rustDecimal plainConfig false) (EngineEvent.FromViews (BookRuns.triview '' {b})) new
      { new with detector := .received b.triview } :=
  @Reaches.head _ _ (@step rustDecimal plainConfig false) _ new _ _ (.view _)
    (Set.mem_image_of_mem _ (Set.mem_singleton _)) rfl (.refl _)

theorem detector_divides_iff_oneLevel :
    ¬ @Panics rustDecimal plainConfig .divisionByZero
      { new with detector := .received (oneLevelBooks 49900 50000).triview } := by
  refine (@detector_divides_iff plainConfig rustDecimal (by decide +kernel) false _).1 ?_ _ (reaches_received_books _)
  rintro b rfl
  exact oneLevelBooks_safeQuotes

theorem zero_ask_panics :
    ∃ e, Reaches (@step rustDecimal plainConfig false)
        (EngineEvent.FromViews (BookRuns.triview '' {oneLevelBooks (-1) 0})) new e ∧
      @Panics rustDecimal plainConfig .divisionByZero e := by
  have hdivides : @Checked.detectTriangularOpportunities rustDecimal (oneLevelBooks (-1) 0).triview
      plainConfig.feeMap plainConfig.limits.minProfitAbs = .error .divisionByZero := by decide +kernel
  exact ⟨_,reaches_received_books _,hdivides⟩

end Engine

end ArbCore
