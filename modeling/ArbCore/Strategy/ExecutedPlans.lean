import ArbCore.Strategy.MonitorRuns

/-! # Executed plans and filled plans

The monitor counts a plan as executed whenever a report ends it. A plan that is filled
in full ends that way or by its timeout, and a plan that is not may end either way too.
-/
namespace ArbCore
open LabelledRun

def MonitorPhase.countsNext : MonitorPhase → ℤ
  | .executed => 1
  | _ => 0

/-- The loop is at rest, and the plans in flight have one fill for each leg. -/
structure Engine.MonitorReady (start : Engine) : Prop where
  select : start.monitor = .select
  inflight : ∀ id p, start.inflight.lookup id = some p → p.filled.length = p.plan.legs.length

def MonitorPhase.Scanning : MonitorPhase → Prop
  | .cancelling _ | .removing .. | .cancelled _ => True
  | _ => False

theorem MonitorPhase.Scanning.not_idle {m : MonitorPhase} (h : m.Scanning) : ¬ m.Idle := by
  cases m with
  | cancelling _ => exact id
  | removing _ _ => exact id
  | cancelled _ => exact id
  | _ => exact h.elim

theorem scanning_monitorMove {storage : Bool} {e t : Engine} {i : MonitorInput}
    (h : Engine.MonitorMove storage e i t) (hscanning : e.monitor.Scanning) :
    t.monitor.Scanning ∨ t.monitor.Idle := by
  cases h with
  | scanDone _ => exact .inr trivial
  | cancelSent _ => exact .inl trivial
  | removed _ _ => exact .inl trivial
  | gone _ _ => exact .inl trivial
  | cancelled _ => exact .inl trivial
  | looked hphase => exact (hphase ▸ hscanning : MonitorPhase.Scanning (.reported _)).elim
  | stored hphase => exact (hphase ▸ hscanning : MonitorPhase.Scanning (.storing _ _)).elim
  | applied hphase => exact (hphase ▸ hscanning : MonitorPhase.Scanning (.applying _)).elim
  | executed hphase => exact (hphase ▸ hscanning : MonitorPhase.Scanning .executed).elim
  | scanned hphase _ => exact (hphase ▸ hscanning : MonitorPhase.Scanning (.scanning _)).elim

namespace MonitorLog
variable {cfg : StrategyConfig} {storage : Bool} {start : Engine} {l t : MonitorLog} {ev : EngineEvent}

/-- In a state in which nothing is under way the plans counted as executed since the
start are those that left with every leg filled. -/
def CountsFilled (start : Engine) (l : MonitorLog) : Prop :=
  l.engine.monitor.Idle → l.engine.metrics.plansExecuted = start.metrics.plansExecuted + l.leftFilled

def surplus (start : Engine) (l : MonitorLog) : ℤ :=
  l.engine.metrics.plansExecuted + l.engine.monitor.countsNext - start.metrics.plansExecuted - l.leftFilled

/-- A report other than of a fill ends a plan with a leg that is not filled, or a timeout
ends one with all legs filled. -/
def Miscounts (l : MonitorLog) : EngineEvent → Prop
  | .monitor _ =>
    (∃ report p, l.engine.monitor = .applying report ∧ l.engine.inflight.lookup report.planId = some p ∧
      (report.status = .cancelled ∨ report.status = .rejected ∨ report.status = .partiallyFilled) ∧
      (p.addFill report.legIdx.toNat report.filledQty).allLegged = false) ∨
    ∃ planId toCancel p, l.engine.monitor = .removing planId toCancel ∧
      l.engine.inflight.lookup planId = some p ∧ p.allLegged = true
  | _ => False

def miscount (l : MonitorLog) : EngineEvent → ℤ
  | .monitor _ => match l.engine.monitor with
    | .applying report => match l.engine.inflight.lookup report.planId with
      | some p =>
        let p := p.addFill report.legIdx.toNat report.filledQty
        if (report.consequence p).2 = true ∧ p.allLegged = false then 1 else 0
      | none => 0
    | .removing planId _ => match l.engine.inflight.lookup planId with
      | some p => if p.allLegged then -1 else 0
      | none => 0
    | _ => 0
  | _ => 0

theorem consequence_unfilled {report : ExecutionReport} {p : InFlightPlan} (h : p.allLegged = false) :
    (report.consequence p).2 = true ↔
      report.status = .cancelled ∨ report.status = .rejected ∨ report.status = .partiallyFilled := by
  unfold ExecutionReport.consequence
  split <;> simp_all

theorem miscounts_iff : l.Miscounts ev ↔ l.miscount ev ≠ 0 := by
  cases ev with
  | monitor i =>
    cases hphase : l.engine.monitor with
    | applying report =>
      cases hlookup : l.engine.inflight.lookup report.planId with
      | none => simp [Miscounts, miscount, hphase, hlookup]
      | some p =>
        cases hall : (p.addFill report.legIdx.toNat report.filledQty).allLegged with
        | true => simp [Miscounts, miscount, hphase, hlookup, hall]
        | false =>
          simp [Miscounts, miscount, hphase, hlookup, hall, consequence_unfilled hall]
          tauto
    | removing planId toCancel =>
      cases hlookup : l.engine.inflight.lookup planId with
      | none => simp [Miscounts, miscount, hphase, hlookup]
      | some p => simp [Miscounts, miscount, hphase, hlookup]
    | _ => simp [Miscounts, miscount, hphase]
  | _ => simp [Miscounts, miscount]

theorem allLegged_iff_filled (hstart : start.MonitorReady) (h : l.Tracks start) {id : String}
    {p : InFlightPlan} (hp : l.engine.inflight.lookup id = some p) :
    p.allLegged = true ↔ Filled start l.applied id := by
  obtain ⟨p₀,hp₀,htracks⟩ := h id p hp
  rw [htracks.allLegged_iff_allFilled (hstart.inflight id p₀ hp₀)]
  simp [Filled, hp₀]

theorem addFill_allLegged_iff_filled (hstart : start.MonitorReady) (h : l.Tracks start)
    {report : ExecutionReport} {p : InFlightPlan} (hp : l.engine.inflight.lookup report.planId = some p) :
    (p.addFill report.legIdx.toNat report.filledQty).allLegged = true ↔
      Filled start (l.applied ++ [report]) report.planId := by
  obtain ⟨p₀,hp₀,htracks⟩ := h _ p hp
  rw [(htracks.addFill rfl).allLegged_iff_allFilled (hstart.inflight _ p₀ hp₀)]
  simp [Filled, hp₀]

theorem miscount_of_receives {phase : MonitorPhase} (h : ev.receives = some phase) : l.miscount ev = 0 := by
  cases ev with
  | monitor _ => cases h
  | _ => rfl

theorem countsNext_of_receives {phase : MonitorPhase} (h : ev.receives = some phase) :
    phase.countsNext = 0 := by
  cases ev with
  | report _ =>
    cases h
    rfl
  | reportsClosed =>
    cases h
    rfl
  | tick _ =>
    cases h
    rfl
  | _ => cases h

theorem surplus_step (hstart : start.MonitorReady) (hl : l.Tracks start)
    (h : l.step cfg storage start ev = some t) : t.surplus start = l.surplus start + l.miscount ev := by
  obtain ⟨⟨phase,hreceives,hselect,hengine⟩ | ⟨i,rfl,hmonitor⟩,happlied,hleft⟩ := step_eq_some h
  · have hselected : l.engine.monitor.countsNext = 0 := by rw [hselect]; rfl
    simp [hengine, leaving_self] at hleft
    simp [surplus, miscount_of_receives hreceives, countsNext_of_receives hreceives, hengine, hselected,
      hleft]
  · obtain ⟨e,applied,leftFilled⟩ := t
    dsimp only at hmonitor happlied hleft
    cases hmonitor with
    | @applied report hphase =>
      cases hlookup : l.engine.inflight.lookup report.planId with
      | none =>
        simp [applyReport_unknown hlookup, leaving_self] at hleft
        simp [surplus, miscount, hphase, hleft, hlookup, applyReport_unknown hlookup,
          MonitorPhase.countsNext]
      | some p =>
        have happ : applied = l.applied ++ [report] := by rw [happlied, hphase]; rfl
        subst happ
        have hfilled := addFill_allLegged_iff_filled hstart hl hlookup
        rcases applyReport_known hlookup with ⟨cancels,happly,hreact⟩ | ⟨cancels,p',happly,hreact⟩
        · have hmem : report.planId ∈ l.engine.inflight := AList.lookup_isSome.mp (by rw [hlookup]; rfl)
          have hends := InFlightPlan.react_eq_none.mp hreact
          rw [happly, countP_leaving_erase hmem] at hleft
          cases hall : (p.addFill report.legIdx.toNat report.filledQty).allLegged with
          | true =>
            rw [if_pos (hfilled.mp hall)] at hleft
            simp [surplus, miscount, hphase, hleft, hlookup, happly, hall, MonitorPhase.countsNext]
            omega
          | false =>
            rw [if_neg (hfilled.not.mp (by rw [hall]; exact Bool.false_ne_true))] at hleft
            simp [surplus, miscount, hphase, hleft, hlookup, happly, hall, hends, MonitorPhase.countsNext]
            omega
        · have hkeeps := (InFlightPlan.react_eq_some.mp hreact).1
          rw [happly, leaving_replace] at hleft
          simp [surplus, miscount, hphase, hleft, hlookup, happly, hkeeps, MonitorPhase.countsNext]
    | @removed planId toCancel hphase hmem =>
      have happ : applied = l.applied := by simpa [hphase, MonitorPhase.applies] using happlied
      subst happ
      obtain ⟨p,hlookup⟩ := Option.isSome_iff_exists.mp (AList.lookup_isSome.mpr hmem)
      have hfilled := allLegged_iff_filled hstart hl hlookup
      rw [countP_leaving_erase hmem] at hleft
      cases hall : p.allLegged with
      | true =>
        rw [if_pos (hfilled.mp hall)] at hleft
        simp [surplus, miscount, hphase, hleft, hlookup, hall, MonitorPhase.countsNext]
        omega
      | false =>
        rw [if_neg (hfilled.not.mp (by rw [hall]; exact Bool.false_ne_true))] at hleft
        simp [surplus, miscount, hphase, hleft, hlookup, hall, MonitorPhase.countsNext]
    | gone hphase hmem =>
      simp [erase_of_notMem hmem, leaving_self] at hleft
      simp [surplus, miscount, hphase, hleft, AList.lookup_eq_none.mpr hmem, MonitorPhase.countsNext]
    | _ hphase =>
      simp [leaving_self] at hleft
      simp [surplus, miscount, hphase, hleft, MonitorPhase.countsNext]

theorem countsFilled_iff (hidle : l.engine.monitor.Idle) : CountsFilled start l ↔ l.surplus start = 0 := by
  have hnone : l.engine.monitor.countsNext = 0 := by
    cases hphase : l.engine.monitor with
    | executed => exact (hphase ▸ hidle : MonitorPhase.Idle .executed).elim
    | _ => rfl
  rw [CountsFilled, surplus, hnone]
  constructor
  · intro h
    have := h hidle
    omega
  · intro h _
    omega

/-- A miscount that will show when the monitor is idle again. -/
def Miscounted (start : Engine) (l : MonitorLog) : Prop :=
  (l.engine.monitor = .executed ∧ l.surplus start ≠ 0) ∨
    (l.engine.monitor.Scanning ∧ l.surplus start < 0)

theorem miscounted_of_miscounts (hstart : start.MonitorReady) (hl : l.Tracks start)
    (hzero : l.surplus start = 0) (hmis : l.Miscounts ev)
    (h : l.step cfg storage start ev = some t) : Miscounted start t := by
  have hsurplus := surplus_step hstart hl h
  rw [hzero, zero_add] at hsurplus
  have hne := hsurplus ▸ miscounts_iff.mp hmis
  cases ev with
  | monitor i =>
    rcases hmis with ⟨report,p,hphase,hlookup,hstatus,hall⟩ | ⟨planId,toCancel,p,hphase,hlookup,hall⟩
    · obtain ⟨i',-,hstep⟩ := step_busy (by rw [hphase]; exact id) h
      have hreact := InFlightPlan.react_eq_none.mpr ((consequence_unfilled hall).mpr hstatus)
      rcases applyReport_known hlookup with ⟨cancels,happly,-⟩ | ⟨cancels,p',-,hkeeps⟩
      · simp only [Engine.monitorStep, hphase, happly, ↓reduceIte, Option.some.injEq] at hstep
        exact .inl ⟨hstep ▸ rfl,hne⟩
      · cases hreact.symm.trans hkeeps
    · obtain ⟨i',-,hstep⟩ := step_busy (by rw [hphase]; exact id) h
      simp only [Engine.monitorStep, hphase, hlookup, Option.isSome_some, ↓reduceIte,
        Option.some.injEq] at hstep
      refine .inr ⟨hstep ▸ trivial,?_⟩
      simp [hsurplus, miscount, hphase, hlookup, hall]
  | _ => exact hmis.elim

/-- A scan makes up for nothing. -/
theorem miscount_nonpos (hscanning : l.engine.monitor.Scanning) : l.miscount ev ≤ 0 := by
  cases ev with
  | monitor i =>
    cases hphase : l.engine.monitor with
    | removing planId toCancel =>
      cases hlookup : l.engine.inflight.lookup planId with
      | none => simp [miscount, hphase, hlookup]
      | some p =>
        simp only [miscount, hphase, hlookup]
        split_ifs <;> omega
    | cancelling _ => simp [miscount, hphase]
    | cancelled _ => simp [miscount, hphase]
    | _ =>
      rw [hphase] at hscanning
      exact hscanning.elim
  | _ => exact le_rfl

theorem miscounted_step (hstart : start.MonitorReady) (hl : l.Tracks start)
    (hmis : Miscounted start l)
    (h : l.step cfg storage start ev = some t) : Miscounted start t ∨ ¬ CountsFilled start t := by
  have hsurplus := surplus_step hstart hl h
  rcases hmis with ⟨hphase,hne⟩ | ⟨hscanning,hneg⟩
  · obtain ⟨i,rfl,hstep⟩ := step_busy (by rw [hphase]; exact id) h
    simp only [Engine.monitorStep, hphase, Option.some.injEq] at hstep
    have hidle : t.engine.monitor.Idle := hstep ▸ trivial
    refine .inr ((countsFilled_iff hidle).not.mpr ?_)
    rw [hsurplus]
    simpa [miscount, hphase] using hne
  · have hneg' : t.surplus start < 0 := by
      have := @miscount_nonpos l ev hscanning
      omega
    obtain ⟨i,rfl,hstep⟩ := step_busy hscanning.not_idle h
    rcases scanning_monitorMove (Engine.monitorStep_move hstep) hscanning with hs | hidle
    · exact .inl (.inr ⟨hs,hneg'⟩)
    · exact .inr ((countsFilled_iff hidle).not.mpr hneg'.ne)

/-- In every run of the monitor loop the plans counted as executed are at all times those
that left with every leg filled, exactly if no step miscounts one. -/
theorem executed_are_filled_iff (hstart : start.MonitorReady) {events : List EngineEvent}
    (h : run (step cfg storage start) (new start) events = some l) (hidle : l.engine.monitor.Idle) :
    AllStates (step cfg storage start) (CountsFilled start) (new start) events ↔
      AllSteps (step cfg storage start) (fun l ev => ¬ l.Miscounts ev) (new start) events := by
  refine @allStates_iff_allSteps _ _ (step cfg storage start) _
    (fun l => l.Tracks start ∧ l.surplus start = 0) (fun l => l.Tracks start ∧ Miscounted start l)
    (fun l => l.engine.monitor.Idle) _ (fun _ => True) (fun s hs hs' => ?_)
    (fun s ev t _ hs hstep hmis => ?_) (fun s ev t _ hs hstep hmis => ?_)
    (fun s ev t _ hs hstep => ?_) (fun s hs hs' => ?_) _ _ _ (fun _ _ => trivial) ?_ h hidle
  · exact (countsFilled_iff hs').mpr hs.2 hs'
  · refine ⟨tracks_step hs.1 hstep,?_⟩
    rw [surplus_step hstart hs.1 hstep, hs.2, not_not.mp (miscounts_iff.not.mp hmis), add_zero]
  · exact ⟨tracks_step hs.1 hstep,miscounted_of_miscounts hstart hs.1 hs.2 (not_not.mp hmis) hstep⟩
  · exact (miscounted_step hstart hs.1 hs.2 hstep).imp (fun hmis => ⟨tracks_step hs.1 hstep,hmis⟩) id
  · rcases hs.2 with ⟨hphase,-⟩ | ⟨hscanning,-⟩
    · exact (hphase ▸ hs' : MonitorPhase.Idle .executed).elim
    · exact hscanning.not_idle hs'
  · refine ⟨tracks_new start,?_⟩
    simp [surplus, new, hstart.select, MonitorPhase.countsNext]

instance (l : MonitorLog) (ev : EngineEvent) : Decidable (l.Miscounts ev) :=
  decidable_of_iff _ miscounts_iff.symm

def oneInFlight : Engine :=
  { Engine.new with
    inflight := AList.insert "p1" ⟨⟨"p1","USDT",1,1,[⟨"BTCUSDT",true,1,2,true,0⟩]⟩,[0],0,1500⟩ ∅ }

theorem oneInFlight_monitorReady : oneInFlight.MonitorReady := by
  refine ⟨rfl,fun id p hp => ?_⟩
  by_cases hid : id = "p1"
  · subst hid
    rw [oneInFlight, AList.lookup_insert] at hp
    cases hp
    rfl
  · rw [oneInFlight, AList.lookup_insert_ne hid] at hp
    cases hp

def handling (report : ExecutionReport) : List EngineEvent :=
  .report report :: List.replicate 4 (.monitor ⟨true,[]⟩)

def filledReport : ExecutionReport := ⟨"p1",0,2,0,.filled⟩

theorem executed_are_filled_iff_oneInFlight :
    AllStates (step plainConfig false oneInFlight) (CountsFilled oneInFlight) (new oneInFlight)
      (handling filledReport) :=
  (executed_are_filled_iff oneInFlight_monitorReady (Option.some_get (by decide +kernel)).symm
    (by decide +kernel)).mpr (by decide +kernel)

def cancelledReport : ExecutionReport := ⟨"p1",0,0,2,.cancelled⟩

theorem cancelled_plan_counted :
    oneInFlight.MonitorReady ∧ 0 ≤ cancelledReport.filledQty ∧
    ∃ l, run (step plainConfig false oneInFlight) (new oneInFlight) (handling cancelledReport) = some l ∧
      l.engine.monitor.Idle ∧ l.engine.metrics.plansExecuted = oneInFlight.metrics.plansExecuted + 1 ∧
      l.leftFilled = 0 :=
  ⟨oneInFlight_monitorReady,le_rfl,
    (run (step plainConfig false oneInFlight) (new oneInFlight) (handling cancelledReport)).get
      (by decide +kernel),(Option.some_get _).symm,by decide +kernel⟩

end MonitorLog

end ArbCore
