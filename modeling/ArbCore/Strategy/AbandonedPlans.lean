import ArbCore.Strategy.ConcurrencyCap
import ArbCore.Strategy.MonitorRuns

/-! # Plans that leave with live legs

A plan that leaves the map while one of its legs is neither filled nor ended has its legs
cancelled by the monitor. A plan that leaves by a cancelled report is taken as finished,
and no request is sent for its other legs.
-/
namespace ArbCore
open LabelledRun

namespace MonitorLog
variable {cfg : StrategyConfig} {storage : Bool} {start : Engine} {l t : MonitorLog} {ev : EngineEvent}

/-- Some leg of the plan is filled in part only, and was reported neither cancelled nor
rejected. -/
def HasLiveLeg (start : Engine) (applied : List ExecutionReport) (id : String) : Prop :=
  ∃ p i leg, start.inflight.lookup id = some p ∧ p.plan.legs[i]? = some leg ∧
    cumulativeFill id i applied (p.filled[i]?.getD 0) < leg.qty ∧
    ∀ r ∈ applied, r.planId = id → r.legIdx.toNat = i → r.status ≠ .cancelled ∧ r.status ≠ .rejected

def AppliesCancelled (l : MonitorLog) : Prop :=
  ∃ report, l.engine.monitor = .applying report ∧ report.status = .cancelled

theorem not_allLegged_of_hasLiveLeg {p₀ p : InFlightPlan} {id : String} {applied : List ExecutionReport}
    (hp₀ : start.inflight.lookup id = some p₀) (htracks : p₀.Tracks p id applied)
    (hlength : p₀.filled.length = p₀.plan.legs.length) (hlive : HasLiveLeg start applied id) :
    p.allLegged = false := by
  obtain ⟨q,i,leg,hq,hleg,hqty,-⟩ := hlive
  cases hp₀.symm.trans hq
  rw [Bool.eq_false_iff, Ne, htracks.allLegged_iff hlength]
  intro hall
  obtain ⟨a,ha,hle⟩ := hall i leg hleg
  rw [ha] at hqty
  exact hqty.not_ge hle

/-- The request for a plan that timed out is sent before it is removed. -/
def Sent (e : Engine) : Prop :=
  ∀ id toCancel, e.monitor = .removing id toCancel → ⟨id,none⟩ ∈ e.execCancelTx

theorem sent_step (h : l.step cfg storage start ev = some t) : Sent t.engine := by
  obtain ⟨⟨phase,hreceives,-,hengine⟩ | ⟨i,-,hmonitor⟩,-,-⟩ := step_eq_some h
  · intro id toCancel hphase
    rw [hengine] at hphase
    cases hphase
    cases ev <;> cases hreceives
  · obtain ⟨e,applied,leftFilled⟩ := t
    dsimp only at hmonitor ⊢
    cases hmonitor with
    | cancelSent _ =>
      intro id toCancel hphase
      cases hphase
      exact List.mem_append_right _ (List.mem_singleton_self _)
    | applied _ =>
      intro id toCancel hphase
      dsimp only at hphase
      split at hphase <;> cases hphase
    | _ =>
      intro id toCancel hphase
      cases hphase

theorem cancels_of_ends {report : ExecutionReport} {p : InFlightPlan} (hall : p.allLegged = false)
    (hends : (report.consequence p).2 = true) (hstatus : report.status ≠ .cancelled) :
    (report.consequence p).1 = [⟨report.planId,none⟩] := by
  unfold ExecutionReport.consequence at hends ⊢
  split at hends
  · exact absurd hends (by simp [hall])
  · exact absurd ‹_› hstatus
  · simp
  · simp
  · cases hends
  · cases hends

/-- Whenever a plan leaves the map with a live leg, other than by a report of a cancelled
leg, the monitor has sent the request to cancel it; such a report sends none. -/
theorem removal_cancels_live_legs (hselect : start.monitor = .select)
    (hlength : ∀ id p, start.inflight.lookup id = some p → p.filled.length = p.plan.legs.length)
    {events : List EngineEvent} (h : run (step cfg storage start) (new start) events = some l)
    (hstep : l.step cfg storage start ev = some t) {id : String} (hmem : id ∈ l.engine.inflight)
    (hgone : id ∉ t.engine.inflight) :
    (¬ l.AppliesCancelled → HasLiveLeg start t.applied id → ⟨id,none⟩ ∈ t.engine.execCancelTx) ∧
      (l.AppliesCancelled → t.engine.execCancelTx = l.engine.execCancelTx) := by
  have htracks : l.Tracks start := run_invariant (fun _ _ _ => tracks_step) (tracks_new start) h
  have hsent : Sent l.engine := @run_invariant _ _ (step cfg storage start) (fun l => Sent l.engine)
    (fun _ _ _ _ => sent_step) _ _ _ (fun _ _ hphase => by cases hselect.symm.trans hphase) h
  obtain ⟨⟨phase,-,-,hengine⟩ | ⟨i,-,hmonitor⟩,happlied,-⟩ := step_eq_some hstep
  · rw [hengine] at hgone
    exact absurd hmem hgone
  · obtain ⟨e,applied,leftFilled⟩ := t
    dsimp only at hmonitor happlied hgone ⊢
    cases hmonitor with
    | @applied report hphase =>
      have happ : applied = l.applied ++ [report] := by rw [happlied, hphase]; rfl
      subst happ
      obtain ⟨p,rfl,hp,hreact⟩ := exists_of_notMem_applyReport hmem hgone
      have hends := InFlightPlan.react_eq_none.mp hreact
      rw [applyReport_cancels hp]
      constructor
      · intro hcancelled hlive
        obtain ⟨p₀,hp₀,htrack⟩ := htracks _ p hp
        have hall := not_allLegged_of_hasLiveLeg hp₀ (htrack.addFill rfl) (hlength _ p₀ hp₀) hlive
        rw [cancels_of_ends hall hends fun hstatus => hcancelled ⟨report,hphase,hstatus⟩]
        exact List.mem_append_right _ (List.mem_singleton_self _)
      · rintro ⟨report',hphase',hstatus⟩
        cases hphase.symm.trans hphase'
        simp [ExecutionReport.consequence, hstatus]
    | @removed planId toCancel hphase hin =>
      have hid : id = planId := by
        by_contra hne
        exact hgone (AList.mem_erase.mpr ⟨hne,hmem⟩)
      subst hid
      refine ⟨fun _ _ => hsent _ _ hphase,?_⟩
      rintro ⟨report,hphase',-⟩
      cases hphase.symm.trans hphase'
    | gone hphase hnot =>
      rw [erase_of_notMem hnot] at hgone
      exact absurd hmem hgone
    | _ => exact absurd hmem hgone

def twoLegsInFlight : Engine :=
  { Engine.new with
    inflight := AList.insert "p1"
      ⟨⟨"p1","USDT",1,1,[⟨"ETHBTC",false,1,5,false,0⟩,⟨"BTCUSDT",false,1,7,false,1⟩]⟩,[0,0],0,1500⟩ ∅ }

theorem twoLegsInFlight_length {id : String} {p : InFlightPlan}
    (h : twoLegsInFlight.inflight.lookup id = some p) : p.filled.length = p.plan.legs.length := by
  by_cases hid : id = "p1"
  · subst hid
    rw [twoLegsInFlight, AList.lookup_insert] at h
    cases h
    rfl
  · rw [twoLegsInFlight, AList.lookup_insert_ne hid] at h
    cases h

def timedOutLog : MonitorLog :=
  ⟨{ twoLegsInFlight with execCancelTx := [⟨"p1",none⟩], monitor := .removing "p1" [] },[],0⟩

theorem removal_cancels_live_legs_timedOut :
    ⟨"p1",none⟩ ∈ ((step plainConfig false twoLegsInFlight timedOutLog (.monitor ⟨true,[]⟩)).get
      (by decide +kernel)).engine.execCancelTx := by
  have hsent := (@removal_cancels_live_legs plainConfig false twoLegsInFlight timedOutLog _
    (.monitor ⟨true,[]⟩) rfl (fun _ _ => twoLegsInFlight_length)
    [.tick 2000000000,.monitor ⟨true,["p1"]⟩,.monitor ⟨true,[]⟩] rfl
    (Option.some_get (by decide +kernel)).symm "p1" (by decide +kernel) (by decide +kernel)).1
  refine hsent (fun ⟨_,hphase,_⟩ => by cases hphase)
    ⟨_,1,_,AList.lookup_insert _,rfl,by decide +kernel,fun r hr => ?_⟩
  have hnone : ((step plainConfig false twoLegsInFlight timedOutLog (.monitor ⟨true,[]⟩)).get
      (by decide +kernel)).applied = [] := by decide +kernel
  exact absurd (hnone ▸ hr) List.not_mem_nil

def cancelledFirstLeg : ExecutionReport := ⟨"p1",0,0,5,.cancelled⟩

def cancelledFirstLog : MonitorLog := ⟨{ twoLegsInFlight with monitor := .applying cancelledFirstLeg },[],0⟩

theorem second_leg_abandoned :
    ∃ t, run (step plainConfig false twoLegsInFlight) (new twoLegsInFlight)
        [.report cancelledFirstLeg,.monitor ⟨true,[]⟩,.monitor ⟨true,[]⟩] = some cancelledFirstLog ∧
      step plainConfig false twoLegsInFlight cancelledFirstLog (.monitor ⟨true,[]⟩) = some t ∧
      "p1" ∈ cancelledFirstLog.engine.inflight ∧ "p1" ∉ t.engine.inflight ∧
      HasLiveLeg twoLegsInFlight t.applied "p1" ∧ ⟨"p1",none⟩ ∉ t.engine.execCancelTx := by
  refine ⟨(step plainConfig false twoLegsInFlight cancelledFirstLog (.monitor ⟨true,[]⟩)).get
    (by decide +kernel),rfl,(Option.some_get _).symm,by decide +kernel,by decide +kernel,
    ⟨_,1,_,AList.lookup_insert _,rfl,by decide +kernel,fun r hr _ hleg => ?_⟩,by decide +kernel⟩
  have hone : ((step plainConfig false twoLegsInFlight cancelledFirstLog (.monitor ⟨true,[]⟩)).get
      (by decide +kernel)).applied = [cancelledFirstLeg] := by decide +kernel
  cases List.mem_singleton.mp (hone ▸ hr)
  exact absurd hleg (by decide +kernel)

end MonitorLog

end ArbCore
