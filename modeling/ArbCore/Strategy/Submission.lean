import ArbCore.Strategy.ConcurrencyCap

/-! # Which plans reach the execution channel

A plan that was sent comes from a view that was received: detection found its
opportunity there, the pre-trade checks passed and the planner built it. From a
view on which the detector does not panic each such plan is sent in some run.
-/
namespace ArbCore
open LabelledRun ConversionChain DecimalArithmetic
variable {cfg : StrategyConfig} {view : TriView}

section Computed
variable [DecimalOps]

def Found (cfg : StrategyConfig) (view : TriView) (op : Opportunity) : Prop :=
  ∃ ops, detectTriangularOpportunities view cfg.feeMap cfg.limits.minProfitAbs = some ops ∧ op ∈ ops

def Submittable (cfg : StrategyConfig) (view : TriView) (plan : TradePlan) : Prop :=
  ∃ op id, Found cfg view op ∧ preTradeChecks cfg op = some true ∧
    buildTradePlan id op cfg = some (.ok plan)

/-- The checks panic, or they pass and the planner does. -/
def Opportunity.Panics (cfg : StrategyConfig) (why : Panic) (op : Opportunity) : Prop :=
  Checked.preTradeChecks cfg op = .error why ∨
    (Checked.preTradeChecks cfg op = .ok true ∧ ∃ id, Checked.buildTradePlan id op cfg = .error why)

/-- The next step of the detector loop panics. -/
def Engine.Panics (cfg : StrategyConfig) (why : Panic) (e : Engine) : Prop :=
  match e.detector with
  | .received view =>
    Checked.detectTriangularOpportunities view cfg.feeMap cfg.limits.minProfitAbs = .error why
  | .counted op _ n => n < cfg.maxConcurrentPlans ∧ op.Panics cfg why
  | _ => False

def EngineEvent.FromViews (V : Set TriView) : EngineEvent → Prop
  | .view v => v ∈ V
  | _ => True

namespace DetectorPhase

def rest : DetectorPhase → List Opportunity
  | .counted op rest _ => op :: rest
  | .pending rest | .planned _ rest | .registered _ rest | .sent rest | .unsent _ rest
  | .rejecting rest => rest
  | .recv | .received _ | .stopped | .panicked => []

def onHand : DetectorPhase → Option TradePlan
  | .planned plan _ | .registered plan _ => some plan
  | _ => none

end DetectorPhase

namespace Engine
variable {storage : Bool} {V : Set TriView} {e t : Engine}

/-- Whatever the detector holds or has sent comes from the views of `V`. -/
structure Sourced (cfg : StrategyConfig) (V : Set TriView) (e : Engine) : Prop where
  view : ∀ view, e.detector = .received view → view ∈ V
  rest : ∀ op ∈ e.detector.rest, ∃ view ∈ V, Found cfg view op
  onHand : ∀ plan ∈ e.detector.onHand, ∃ view ∈ V, Submittable cfg view plan
  sent : ∀ plan ∈ e.execTx, ∃ view ∈ V, Submittable cfg view plan

theorem sourced_new : Sourced cfg V new :=
  ⟨nofun,nofun,nofun,nofun⟩

theorem sourced_detectorMove {i : DetectorInput} (he : Sourced cfg V e)
    (h : DetectorMove cfg e i t) : Sourced cfg V t := by
  obtain ⟨hview,hrest,honHand,hsent⟩ := he
  cases h with
  | @detected view ops hphase hops =>
    refine ⟨nofun,fun op hop => ?_,nofun,hsent⟩
    exact ⟨view,hview view hphase,ops,hops,hop⟩
  | detectPanicked _ _ =>
    exact ⟨nofun,nofun,nofun,hsent⟩
  | viewDone _ => exact ⟨nofun,nofun,nofun,hsent⟩
  | counted hphase =>
    rw [hphase] at hrest
    exact ⟨nofun,hrest,nofun,hsent⟩
  | @takenUp op rest n hphase =>
    rw [hphase] at hrest
    obtain ⟨hop,hrest⟩ := List.forall_mem_cons.mp hrest
    rcases @takeUp_cases _ cfg op rest n i.planId with ⟨plan,hp⟩ | hr | hr
    · obtain ⟨-,-,hchecks,hbuild⟩ := takeUp_planned hp
      obtain ⟨view,hv,hfound⟩ := hop
      rw [hp]
      refine ⟨nofun,hrest,fun plan' hplan => ?_,hsent⟩
      cases hplan
      exact ⟨view,hv,op,_,hfound,hchecks,hbuild⟩
    · rw [hr]
      exact ⟨nofun,hrest,nofun,hsent⟩
    · rw [hr]
      exact ⟨nofun,nofun,nofun,hsent⟩
  | registered hphase =>
    rw [hphase] at hrest honHand
    exact ⟨nofun,hrest,honHand,hsent⟩
  | @sent plan rest hphase _ =>
    rw [hphase] at hrest honHand
    refine ⟨nofun,hrest,nofun,fun plan' hmem => ?_⟩
    rcases List.mem_append.mp hmem with hmem | hmem
    · exact hsent plan' hmem
    · exact List.mem_singleton.mp hmem ▸ honHand plan rfl
  | unsent hphase _ =>
    rw [hphase] at hrest
    exact ⟨nofun,hrest,nofun,hsent⟩
  | submitted hphase =>
    rw [hphase] at hrest
    exact ⟨nofun,hrest,nofun,hsent⟩
  | unregistered hphase =>
    rw [hphase] at hrest
    exact ⟨nofun,hrest,nofun,hsent⟩
  | rejected hphase =>
    rw [hphase] at hrest
    exact ⟨nofun,hrest,nofun,hsent⟩

theorem sourced_step {ev : EngineEvent} (hev : ev.FromViews V) (he : Sourced cfg V e)
    (h : e.step cfg storage ev = some t) : Sourced cfg V t := by
  rcases step_cases h with ⟨view,rfl,-,rfl⟩ | ⟨-,rfl⟩ | ⟨i,-,hmove⟩ | ⟨hd,hsent,-⟩
  · refine ⟨fun view' hv => ?_,nofun,nofun,he.sent⟩
    cases hv
    exact hev
  · exact ⟨nofun,nofun,nofun,he.sent⟩
  · exact sourced_detectorMove he hmove
  · exact ⟨hd ▸ he.view,hd ▸ he.rest,hd ▸ he.onHand,hsent ▸ he.sent⟩

/-- Every plan on the execution channel is submittable from a received view. -/
theorem submittable_of_sent (h : Reaches (step cfg storage) (EngineEvent.FromViews V) new e)
    {plan : TradePlan} (hplan : plan ∈ e.execTx) : ∃ view ∈ V, Submittable cfg view plan := by
  have hsourced : Sourced cfg V e := h.invariant (fun _ _ _ hev he hstep => sourced_step hev he hstep) sourced_new
  exact hsourced.sent plan hplan

theorem takeUp_panicked {op : Opportunity} {rest : List Opportunity} {n : ℕ} {id : String}
    (h : takeUp cfg op rest n id = .panicked) :
    n < cfg.maxConcurrentPlans ∧ ∃ why, op.Panics cfg why := by
  unfold takeUp at h
  split_ifs at h with hn
  refine ⟨not_le.mp hn,?_⟩
  split at h
  · rename_i hchecks
    obtain ⟨why,hwhy⟩ := toOption_eq_none_iff.mp hchecks
    exact ⟨why,.inl hwhy⟩
  · cases h
  · rename_i hchecks
    split at h
    · rename_i hbuild
      obtain ⟨why,hwhy⟩ := toOption_eq_none_iff.mp hbuild
      exact ⟨why,.inr ⟨toOption_eq_some_iff.mp hchecks,id,hwhy⟩⟩
    · cases h
    · cases h

/-- A loop that has panicked stood before a panic. -/
theorem panics_of_detectorMove {i : DetectorInput} (h : DetectorMove cfg e i t)
    (ht : t.detector = .panicked) : ∃ why, e.Panics cfg why := by
  cases h with
  | @detectPanicked view hphase hops =>
    obtain ⟨why,hwhy⟩ := toOption_eq_none_iff.mp hops
    exact ⟨why,by simpa only [Panics, hphase] using hwhy⟩
  | @takenUp op rest n hphase =>
    obtain ⟨hn,why,hwhy⟩ := takeUp_panicked ht
    exact ⟨why,by simpa only [Panics, hphase] using ⟨hn,hwhy⟩⟩
  | _ => cases ht

/-- No run over views that are safe to detect, check and plan stands before a panic. -/
theorem not_panics_of_views {why : Panic}
    (hdetect : ∀ view ∈ V, Checked.detectTriangularOpportunities view cfg.feeMap cfg.limits.minProfitAbs ≠
      .error why)
    (hfound : ∀ view ∈ V, ∀ op, Found cfg view op → ¬ op.Panics cfg why)
    (h : Reaches (step cfg storage) (EngineEvent.FromViews V) new e) : ¬ e.Panics cfg why := by
  have hsourced : Sourced cfg V e := h.invariant (fun _ _ _ hev he hstep => sourced_step hev he hstep) sourced_new
  intro hpanics
  unfold Panics at hpanics
  split at hpanics
  · rename_i view hphase
    exact hdetect view (hsourced.view view hphase) hpanics
  · rename_i op rest n hphase
    obtain ⟨view,hview,hop⟩ := hsourced.rest op (by rw [hphase]; exact List.mem_cons_self)
    exact hfound view hview op hop hpanics.2
  · exact hpanics

theorem takeUp_of_checks {op : Opportunity} {rest : List Opportunity} {n : ℕ} {id : String}
    {plan : TradePlan} (hn : n < cfg.maxConcurrentPlans) (hchecks : preTradeChecks cfg op = some true)
    (hbuild : buildTradePlan id op cfg = some (.ok plan)) :
    takeUp cfg op rest n id = .planned plan rest := by
  simp only [takeUp, not_le.mpr hn, ↓reduceIte, hchecks, hbuild]

theorem reaches_detectorStep (i : DetectorInput)
    (he : Reaches (step cfg storage) (EngineEvent.FromViews V) new e) (h : e.detectorStep cfg i = some t) :
    Reaches (step cfg storage) (EngineEvent.FromViews V) new t :=
  he.trans (@Reaches.head _ _ (step cfg storage) (EngineEvent.FromViews V) e t t (.detector i) trivial h (.refl t))

theorem reaches_received (hview : view ∈ V) :
    Reaches (step cfg storage) (EngineEvent.FromViews V) new { new with detector := .received view } :=
  @Reaches.head _ _ (step cfg storage) _ new _ _ (.view view) hview rfl (.refl _)

section Steady
variable (hsteady : ∀ e why, Reaches (step cfg storage) (EngineEvent.FromViews V) new e → ¬ e.Panics cfg why)
include hsteady

/-- A failing send lets the detector pass over an opportunity and leaves no plan behind. -/
theorem reaches_next {op : Opportunity} {rest : List Opportunity}
    (he : Reaches (step cfg storage) (EngineEvent.FromViews V) new e)
    (hphase : e.detector = .pending (op :: rest)) :
    ∃ t, Reaches (step cfg storage) (EngineEvent.FromViews V) new t ∧ t.detector = .pending rest ∧
      t.inflight.keys.length ≤ e.inflight.keys.length := by
  let i : DetectorInput := ⟨"",0,false⟩
  let counted : Engine := { e with detector := .counted op rest e.inflight.keys.length }
  have hcounted : Reaches (step cfg storage) (EngineEvent.FromViews V) new counted := by
    refine reaches_detectorStep i he ?_
    simp only [detectorStep, hphase]
    rfl
  let taken : Engine := { e with detector := takeUp cfg op rest e.inflight.keys.length "" }
  have htaken : Reaches (step cfg storage) (EngineEvent.FromViews V) new taken := reaches_detectorStep i hcounted rfl
  rcases @takeUp_cases _ cfg op rest e.inflight.keys.length "" with ⟨plan,hp⟩ | hr | hr
  · have herase : ((e.inflight.insert plan.id (.register cfg plan 0)).erase plan.id).keys.length ≤
        e.inflight.keys.length := by
      rw [AList.keys_erase, AList.keys_insert, List.erase_cons_head]
      exact List.length_erase_le
    simp only [taken, hp] at htaken
    have hunsent := reaches_detectorStep i (reaches_detectorStep i htaken rfl) rfl
    exact ⟨_,reaches_detectorStep i (reaches_detectorStep i hunsent rfl) rfl,rfl,herase⟩
  · simp only [taken, hr] at htaken
    exact ⟨_,reaches_detectorStep i htaken rfl,rfl,le_rfl⟩
  · obtain ⟨hn,why,hwhy⟩ := takeUp_panicked hr
    exact absurd ⟨hn,hwhy⟩ (hsteady counted why hcounted)

theorem reaches_later {pre rest : List Opportunity}
    (he : Reaches (step cfg storage) (EngineEvent.FromViews V) new e)
    (hphase : e.detector = .pending (pre ++ rest)) :
    ∃ t, Reaches (step cfg storage) (EngineEvent.FromViews V) new t ∧ t.detector = .pending rest ∧
      t.inflight.keys.length ≤ e.inflight.keys.length := by
  induction pre generalizing e with
  | nil => exact ⟨e,he,hphase,le_rfl⟩
  | cons op pre ih =>
    obtain ⟨u,heu,hu,hlen⟩ := @reaches_next cfg _ storage V e hsteady op (pre ++ rest) he hphase
    obtain ⟨t,hut,ht,hlen'⟩ := ih heu hu
    exact ⟨t,hut,ht,hlen'.trans hlen⟩

/-- Every opportunity found in a view is taken up in some run, with nothing in flight. -/
theorem reaches_counted (hview : view ∈ V) {op : Opportunity} (hop : Found cfg view op) :
    ∃ e rest, Reaches (step cfg storage) (EngineEvent.FromViews V) new e ∧ e.detector = .counted op rest 0 := by
  obtain ⟨ops,hops,hop⟩ := hop
  obtain ⟨pre,rest,rfl⟩ := List.append_of_mem hop
  let i : DetectorInput := ⟨"",0,false⟩
  have hpending : Reaches (step cfg storage) (EngineEvent.FromViews V) new { new with
      metrics.opportunitiesSeen := 1, detector := .pending (pre ++ op :: rest) } := by
    refine reaches_detectorStep i (reaches_received hview) ?_
    simp only [detectorStep, hops]
    rfl
  obtain ⟨u,hu,hphase,hlen⟩ := @reaches_later cfg _ storage V _ hsteady pre (op :: rest) hpending rfl
  have hempty : u.inflight.keys.length = 0 := Nat.le_zero.mp hlen
  refine ⟨{ u with detector := .counted op rest 0 },rest,reaches_detectorStep i hu ?_,rfl⟩
  simp only [detectorStep, hphase, hempty]

theorem detect_of_steady (hview : view ∈ V) :
    ∃ ops, detectTriangularOpportunities view cfg.feeMap cfg.limits.minProfitAbs = some ops := by
  cases hdetect : Checked.detectTriangularOpportunities view cfg.feeMap cfg.limits.minProfitAbs with
  | error why => exact absurd hdetect (hsteady _ why (reaches_received hview))
  | ok ops => exact ⟨ops,toOption_eq_some_iff.mpr hdetect⟩

theorem not_panics_of_found (hmax : 0 < cfg.maxConcurrentPlans) (hview : view ∈ V) {op : Opportunity}
    (hop : Found cfg view op) (why : Panic) : ¬ op.Panics cfg why := by
  obtain ⟨e,rest,he,hphase⟩ := @reaches_counted cfg view _ storage V hsteady hview op hop
  intro hpanics
  refine hsteady e why he ?_
  rw [Panics, hphase]
  exact ⟨hmax,hpanics⟩

theorem sent_of_submittable (hmax : 0 < cfg.maxConcurrentPlans) (hview : view ∈ V) {plan : TradePlan}
    (h : Submittable cfg view plan) :
    ∃ e, Reaches (step cfg storage) (EngineEvent.FromViews V) new e ∧ plan ∈ e.execTx := by
  obtain ⟨op,id,hop,hchecks,hbuild⟩ := h
  obtain ⟨e,rest,he,hphase⟩ := @reaches_counted cfg view _ storage V hsteady hview op hop
  let i : DetectorInput := ⟨id,0,true⟩
  have hplanned : Reaches (step cfg storage) (EngineEvent.FromViews V) new
      { e with detector := .planned plan rest } := by
    refine reaches_detectorStep i he ?_
    simp only [detectorStep, hphase, takeUp_of_checks hmax hchecks hbuild, i]
  refine ⟨_,reaches_detectorStep i (reaches_detectorStep i hplanned rfl) rfl,?_⟩
  exact List.mem_append_right _ (List.mem_singleton_self plan)

end Steady

theorem reaches_submitOne {id : String} {sent : List TradePlan}
    (h : (run (step cfg false) new (submitOne view id)).map execTx = some sent) :
    ∃ e, Reaches (step cfg false) (EngineEvent.FromViews {view}) new e ∧ e.execTx = sent := by
  obtain ⟨e,hrun,hsent⟩ := Option.map_eq_some_iff.mp h
  refine ⟨e,⟨_,fun ev hev => ?_,hrun⟩,hsent⟩
  rcases List.mem_cons.mp hev with rfl | hev
  · exact Set.mem_singleton view
  · rw [List.eq_of_mem_replicate hev]
    trivial

end Engine

end Computed

namespace Route

/-- The profit beats both thresholds, with the start amount that the checks reconstruct. -/
def PassesChecks (cfg : StrategyConfig) (r : Route) : Prop :=
  cfg.limits.minProfitAbs < r.profit ∧ (0 < cfg.limits.minProfitPct →
    cfg.limits.minProfitPct ≤ r.profit / (r.qty1 * r.quotedRate))

section Priced
variable {r : Route} (hprice : ∀ t ∈ r.trades, 0 < t.hop.price)
include hprice

theorem qty1_pos : 0 < r.qty1 :=
  Hop.qty_pos (hprice r.first (by simp [trades])) (by norm_num [startAmount])

theorem quotedRate_pos : 0 < r.quotedRate := by
  have hrate : ∀ t ∈ r.trades, 0 < t.hop.rate := fun t ht => Hop.rate_pos (hprice t ht)
  simp only [trades, List.mem_cons, List.not_mem_nil, or_false, forall_eq_or_imp, forall_eq] at hrate
  obtain ⟨h1,h2,h3⟩ := hrate
  simpa only [quotedRate, hops_eq, List.map_cons, List.map_nil, List.prod_cons, List.prod_nil,
    mul_one] using mul_pos h1 (mul_pos h2 h3)

theorem reconstructedStart_ne_zero : r.qty1 * r.quotedRate ≠ 0 :=
  (mul_pos (qty1_pos hprice) (quotedRate_pos hprice)).ne'

theorem preTradeChecks_eq (cfg : StrategyConfig) :
    ∃ passed, Checked.preTradeChecks cfg r.opportunity = .ok passed ∧ (passed = true ↔ r.PassesChecks cfg) := by
  have hstart : Checked.reconstructedStart r.opportunity = .ok (some (r.qty1 * r.quotedRate)) := rfl
  have hprofit : r.opportunity.estimatedProfit = r.profit := rfl
  unfold Checked.preTradeChecks PassesChecks
  rw [hstart, hprofit]
  by_cases habs : r.profit ≤ cfg.limits.minProfitAbs
  · exact ⟨false,if_pos habs,by simp [not_lt.mpr habs]⟩
  · by_cases hpct : 0 < cfg.limits.minProfitPct
    · refine ⟨decide (¬ r.profit / (r.qty1 * r.quotedRate) < cfg.limits.minProfitPct),?_,
        by simp [not_le.mp habs, hpct]⟩
      rw [if_neg habs, if_pos hpct]
      simp only [bind, Except.bind, div_of_ne (reconstructedStart_ne_zero hprice)]
      rfl
    · exact ⟨true,by rw [if_neg habs, if_neg hpct],by simp [not_le.mp habs, hpct]⟩

theorem preTradeChecks_iff (cfg : StrategyConfig) :
    preTradeChecks cfg r.opportunity = some true ↔ r.PassesChecks cfg := by
  obtain ⟨passed,hpassed,hiff⟩ := preTradeChecks_eq hprice cfg
  rw [preTradeChecks, toOption_eq_some_iff, hpassed, Except.ok.injEq, hiff]

theorem buildTradePlan_eq (cfg : StrategyConfig) (id : String) :
    buildTradePlan id r.opportunity cfg = some ((planLegs cfg 0 r.opportunity.legs).map fun legs =>
      ⟨id,"USDT",r.profit,r.profit / (r.qty1 * r.quotedRate),legs⟩) := by
  have hstart : (reconstructedStart r.opportunity).getD 1 = r.qty1 * r.quotedRate := rfl
  rw [buildTradePlan_exact, hstart]
  cases planLegs cfg 0 r.opportunity.legs with
  | error err => rfl
  | ok legs => exact if_neg (reconstructedStart_ne_zero hprice)

end Priced

end Route

theorem found_iff (hpos : view.PositiveBest) {op : Opportunity} :
    Found cfg view op ↔ ∃ r ∈ routes view cfg.feeMap, cfg.limits.minProfitAbs < r.profit ∧
      op = r.opportunity := by
  obtain ⟨ops,hops⟩ := detect_returns hpos cfg.feeMap cfg.limits.minProfitAbs
  constructor
  · rintro ⟨ops',hops',hop⟩
    exact (mem_detect_iff hops' op).mp hop
  · intro h
    exact ⟨ops,hops,(mem_detect_iff hops op).mpr h⟩

theorem submittable_iff (hpos : view.PositiveBest) {plan : TradePlan} :
    Submittable cfg view plan ↔ ∃ r ∈ routes view cfg.feeMap, r.PassesChecks cfg ∧
      ∃ id, buildTradePlan id r.opportunity cfg = some (.ok plan) := by
  constructor
  · rintro ⟨op,id,hfound,hchecks,hbuild⟩
    obtain ⟨r,hr,-,rfl⟩ := (found_iff hpos).mp hfound
    exact ⟨r,hr,(Route.preTradeChecks_iff (routes_price_pos hpos hr) cfg).mp hchecks,id,hbuild⟩
  · rintro ⟨r,hr,hpass,id,hbuild⟩
    have hchecks := (Route.preTradeChecks_iff (routes_price_pos hpos hr) cfg).mpr hpass
    exact ⟨r.opportunity,id,(found_iff hpos).mpr ⟨r,hr,hpass.1,rfl⟩,hchecks,hbuild⟩

namespace Engine
variable {storage : Bool} {V : Set TriView}

theorem not_panics_of_positive (hpos : ∀ view ∈ V, view.PositiveBest) {e : Engine}
    (h : Reaches (step cfg storage) (EngineEvent.FromViews V) new e) (why : Panic) : ¬ e.Panics cfg why := by
  refine not_panics_of_views (fun view hview hwhy => ?_) (fun view hview op hop hpanics => ?_) h
  · obtain ⟨ops,hops⟩ := detect_returns (hpos view hview) cfg.feeMap cfg.limits.minProfitAbs
    cases hwhy.symm.trans (toOption_eq_some_iff.mp hops)
  · obtain ⟨r,hr,-,rfl⟩ := (found_iff (hpos view hview)).mp hop
    have hprice := routes_price_pos (hpos view hview) hr
    rcases hpanics with hchecks | ⟨-,id,hbuild⟩
    · obtain ⟨passed,hpassed,-⟩ := Route.preTradeChecks_eq hprice cfg
      cases hchecks.symm.trans hpassed
    · have hnone : buildTradePlan id r.opportunity cfg = none := toOption_eq_none_iff.mpr ⟨why,hbuild⟩
      cases hnone.symm.trans (Route.buildTradePlan_eq hprice cfg id)

/-- Every plan that a run over the views of `V` sends has a property exactly when
every plan submittable from one of them has it. -/
theorem forall_sent_iff (hmax : 0 < cfg.maxConcurrentPlans) (hpos : ∀ view ∈ V, view.PositiveBest)
    (storage : Bool) (P : TradePlan → Prop) :
    (∀ e, Reaches (step cfg storage) (EngineEvent.FromViews V) new e → ∀ plan ∈ e.execTx, P plan) ↔
      ∀ view ∈ V, ∀ plan, Submittable cfg view plan → P plan := by
  constructor
  · intro h view hview plan hplan
    obtain ⟨e,he,hmem⟩ := @sent_of_submittable cfg view _ storage V
      (fun e why he => not_panics_of_positive hpos he why) hmax hview plan hplan
    exact h e he plan hmem
  · intro h e he plan hmem
    obtain ⟨view,hview,hplan⟩ := submittable_of_sent he hmem
    exact h view hview plan hplan

end Engine

end ArbCore
