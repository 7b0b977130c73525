import ArbCore.Strategy.ConcurrencyCap
import ArbCore.Strategy.Reports

/-! # Every plan is accounted for

An opportunity that the detector takes up is submitted or rejected in the end, and a
submitted plan is in flight until it is counted as executed or as cancelled. The books
balance unless the detector rolls back a plan that has already left the map, which
the monitor counts and the detector counts again.
-/
namespace ArbCore
open LabelledRun

section Phases

def DetectorPhase.Idle : DetectorPhase → Prop
  | .recv | .stopped => True
  | _ => False

instance : DecidablePred DetectorPhase.Idle
  | .recv | .stopped => isTrue trivial
  | .received _ | .pending _ | .counted .. | .planned .. | .registered .. | .sent _ | .unsent ..
  | .rejecting _ | .panicked => isFalse id

def MonitorPhase.Idle : MonitorPhase → Prop
  | .select | .stopped => True
  | _ => False

instance : DecidablePred MonitorPhase.Idle
  | .select | .stopped => isTrue trivial
  | .reported _ | .storing .. | .applying _ | .executed | .scanning _ | .cancelling _ | .removing ..
  | .cancelled _ => isFalse id

def DetectorPhase.undecided : DetectorPhase → ℕ
  | .counted .. | .planned .. | .registered .. | .sent .. | .unsent .. | .rejecting .. => 1
  | _ => 0

/-- Plans in the map that are not yet counted as submitted. -/
def DetectorPhase.unsubmitted : DetectorPhase → ℕ
  | .registered .. | .sent .. | .unsent .. => 1
  | _ => 0

def MonitorPhase.uncounted : MonitorPhase → ℕ
  | .executed | .cancelled _ => 1
  | _ => 0

theorem DetectorPhase.Idle.nothing_open {d : DetectorPhase} (h : d.Idle) :
    d.undecided = 0 ∧ d.unsubmitted = 0 := by
  cases d with
  | recv => exact ⟨rfl,rfl⟩
  | stopped => exact ⟨rfl,rfl⟩
  | _ => exact h.elim

theorem MonitorPhase.Idle.uncounted_eq {m : MonitorPhase} (h : m.Idle) : m.uncounted = 0 := by
  cases m with
  | select => rfl
  | stopped => rfl
  | _ => exact h.elim

end Phases

namespace Engine

/-- Each loop waits for the outside or has ended. -/
def Idle (e : Engine) : Prop := e.detector.Idle ∧ e.monitor.Idle

instance (e : Engine) : Decidable e.Idle := inferInstanceAs (Decidable (_ ∧ _))

def takesUp (e : Engine) : EngineEvent → Bool
  | .detector _ => match e.detector with
    | .pending (_ :: _) => true
    | _ => false
  | _ => false

def built (cfg : StrategyConfig) (e : Engine) : EngineEvent → Option TradePlan
  | .detector i => match e.detector with
    | .counted op rest n => match takeUp cfg op rest n i.planId with
      | .planned plan _ => some plan
      | _ => none
    | _ => none
  | _ => none

/-- Plans that the monitor or the map account for, less those that the detector does. -/
def deficit (e : Engine) : ℤ :=
  e.inflight.keys.length + e.metrics.plansExecuted + e.metrics.plansCancelled + e.monitor.uncounted -
    e.metrics.plansSubmitted - e.detector.unsubmitted

/-- The detector rolls back a plan that is no longer in flight. -/
def RollsBackGone (e : Engine) : EngineEvent → Prop
  | .detector _ => ∃ plan rest, e.detector = .unsent plan rest ∧ plan.id ∉ e.inflight
  | _ => False

section Plans
variable {cfg : StrategyConfig} {storage : Bool} {e t : Engine} {ev : EngineEvent}

theorem Move.planned_cases (h : Move cfg storage e ev t) {plan : TradePlan} {rest : List Opportunity}
    (hp : t.detector = .planned plan rest) :
    e.detector = .planned plan rest ∨ e.built cfg ev = some plan := by
  cases h with
  | @detector i _ hdetector =>
    cases hdetector with
    | @takenUp op rest' n hphase =>
      have htake : takeUp cfg op rest' n i.planId = .planned plan rest := hp
      right
      simp only [built, hphase, htake]
    | _ => exact DetectorPhase.noConfusion hp
  | monitor hmonitor => exact .inl ((monitorMove_frame hmonitor).1 ▸ hp)
  | view _ => exact DetectorPhase.noConfusion hp
  | viewsClosed _ => exact DetectorPhase.noConfusion hp
  | _ => exact .inl hp

theorem Move.inflight_cases (h : Move cfg storage e ev t) :
    (∀ id ∈ t.inflight, id ∈ e.inflight) ∨ ∃ plan rest p, e.detector = .planned plan rest ∧
      t.detector = .registered plan rest ∧ t.inflight = e.inflight.insert plan.id p := by
  cases h with
  | monitor hmonitor => exact .inl fun id hid => hmonitor.mem_inflight hid
  | detector hdetector =>
    cases hdetector with
    | registered hphase => exact .inr ⟨_,_,_,hphase,rfl,rfl⟩
    | unregistered _ => exact .inl fun id hid => (AList.mem_erase.mp hid).2
    | _ => exact .inl fun _ hid => hid
  | _ => exact .inl fun _ hid => hid

end Plans

section Deficit
variable {cfg : StrategyConfig} {storage : Bool} {e t : Engine}

theorem deficit_monitorMove {i : MonitorInput} (h : MonitorMove storage e i t) : t.deficit = e.deficit := by
  cases h with
  | @applied report hphase =>
    have hlen := length_keys_applyReport_add e.inflight report
    simp only [deficit, hphase, MonitorPhase.uncounted]
    cases hremoved : (applyReport e.inflight report).2.2 with
    | true =>
      simp only [hremoved, ↓reduceIte] at hlen ⊢
      omega
    | false =>
      simp only [hremoved, Bool.false_eq_true, ↓reduceIte] at hlen ⊢
      omega
  | removed hphase hmem =>
    have hlen := length_keys_erase_of_mem hmem
    simp only [deficit, hphase, MonitorPhase.uncounted]
    omega
  | gone hphase hmem => simp only [deficit, hphase, MonitorPhase.uncounted, erase_of_notMem hmem]
  | executed hphase =>
    simp only [deficit, hphase, MonitorPhase.uncounted]
    omega
  | cancelled hphase =>
    simp only [deficit, hphase, MonitorPhase.uncounted]
    omega
  | _ hphase => simp only [deficit, hphase, MonitorPhase.uncounted]

/-- The detector's moves keep the deficit as long as it registers new plans and
rolls back plans in flight. -/
theorem deficit_detectorMove {i : DetectorInput} (h : DetectorMove cfg e i t)
    (hplanned : ∀ plan rest, e.detector = .planned plan rest → plan.id ∉ e.inflight)
    (hback : ¬ e.RollsBackGone (.detector i)) : t.deficit = e.deficit := by
  cases h with
  | @unregistered plan rest hphase =>
    have hmem : plan.id ∈ e.inflight := by
      by_contra hnot
      exact hback ⟨plan,rest,hphase,hnot⟩
    have hlen := length_keys_erase_of_mem hmem
    simp only [deficit, hphase, DetectorPhase.unsubmitted]
    omega
  | @registered plan rest hphase =>
    simp only [deficit, hphase, DetectorPhase.unsubmitted,
      length_keys_insert_of_notMem _ (hplanned plan rest hphase)]
    omega
  | submitted hphase =>
    simp only [deficit, hphase, DetectorPhase.unsubmitted]
    omega
  | @takenUp op rest n hphase =>
    have hnone : (takeUp cfg op rest n i.planId).unsubmitted = 0 := by
      rcases @takeUp_cases _ cfg op rest n i.planId with ⟨plan,hp⟩ | hp | hp
      · rw [hp]
        rfl
      · rw [hp]
        rfl
      · rw [hp]
        rfl
    simp only [deficit, hphase, hnone]
    rfl
  | _ hphase => simp only [deficit, hphase, DetectorPhase.unsubmitted]

theorem deficit_step {ev : EngineEvent} (h : Move cfg storage e ev t)
    (hplanned : ∀ plan rest, e.detector = .planned plan rest → plan.id ∉ e.inflight)
    (hback : ¬ e.RollsBackGone ev) : t.deficit = e.deficit := by
  cases h with
  | view hphase => simp only [deficit, hphase, DetectorPhase.unsubmitted]
  | viewsClosed hphase => simp only [deficit, hphase, DetectorPhase.unsubmitted]
  | report hphase => simp only [deficit, hphase, MonitorPhase.uncounted]
  | reportsClosed hphase => simp only [deficit, hphase, MonitorPhase.uncounted]
  | tick hphase => simp only [deficit, hphase, MonitorPhase.uncounted]
  | monitor hmonitor => exact deficit_monitorMove hmonitor
  | detector hdetector => exact deficit_detectorMove hdetector hplanned hback

/-- A plan that is rolled back after it left the map is accounted for twice. -/
theorem deficit_rollsBackGone {ev : EngineEvent} (h : Move cfg storage e ev t)
    (hback : e.RollsBackGone ev) : e.deficit < t.deficit := by
  cases h with
  | detector hdetector =>
    obtain ⟨plan,rest,hphase,hmem⟩ := hback
    cases hdetector with
    | unregistered hphase' =>
      cases hphase.symm.trans hphase'
      simp only [deficit, hphase, DetectorPhase.unsubmitted, erase_of_notMem hmem]
      omega
    | _ hphase' => cases hphase.symm.trans hphase'
  | _ => exact hback.elim

end Deficit

end Engine

/-- The engine with the number of opportunities taken up so far and the
identifiers of the plans built so far. -/
structure Ledger where
  engine : Engine
  takenUp : ℕ
  planIds : List String

namespace Ledger
variable {cfg : StrategyConfig} {storage : Bool} {l t : Ledger} {ev : EngineEvent}

def new : Ledger := ⟨.new,0,[]⟩

/-- A step of the engine; no two plans are built under one identifier. -/
def step (cfg : StrategyConfig) (storage : Bool) (l : Ledger) (ev : EngineEvent) : Option Ledger :=
  if (l.engine.built cfg ev).any fun plan => plan.id ∈ l.planIds then none
  else (l.engine.step cfg storage ev).map fun e =>
    { engine := e
      takenUp := l.takenUp + if l.engine.takesUp ev then 1 else 0
      planIds := l.planIds ++ ((l.engine.built cfg ev).map TradePlan.id).toList }

theorem step_eq_some (h : l.step cfg storage ev = some t) :
    (∀ plan, l.engine.built cfg ev = some plan → plan.id ∉ l.planIds) ∧
      Engine.Move cfg storage l.engine ev t.engine ∧
      t.takenUp = l.takenUp + (if l.engine.takesUp ev then 1 else 0) ∧
      t.planIds = l.planIds ++ ((l.engine.built cfg ev).map TradePlan.id).toList := by
  rw [step] at h
  by_cases hfresh : (l.engine.built cfg ev).any fun plan => plan.id ∈ l.planIds
  · rw [if_pos hfresh] at h
    cases h
  rw [if_neg hfresh] at h
  obtain ⟨e,he,rfl⟩ := Option.map_eq_some_iff.mp h
  refine ⟨fun plan hplan hmem => hfresh ?_,Engine.step_move he,rfl,rfl⟩
  simpa [hplan] using hmem

structure Fresh (l : Ledger) : Prop where
  known : ∀ id ∈ l.engine.inflight, id ∈ l.planIds
  planned : ∀ plan rest, l.engine.detector = .planned plan rest →
    plan.id ∈ l.planIds ∧ plan.id ∉ l.engine.inflight

theorem fresh_new : new.Fresh :=
  ⟨fun id hid => absurd hid (AList.notMem_empty id),fun _ _ h => DetectorPhase.noConfusion h⟩

theorem fresh_of_subset (hl : l.Fresh) (h : l.step cfg storage ev = some t)
    (hmem : ∀ id ∈ t.engine.inflight, id ∈ l.engine.inflight) : t.Fresh := by
  obtain ⟨hbuilt,hmove,-,hplanIds⟩ := step_eq_some h
  refine ⟨fun id hid => ?_,fun plan rest hp => ?_⟩
  · exact hplanIds ▸ List.mem_append_left _ (hl.known id (hmem id hid))
  · rcases hmove.planned_cases hp with hp | hplan
    · obtain ⟨hid,hnot⟩ := hl.planned plan rest hp
      exact ⟨hplanIds ▸ List.mem_append_left _ hid,fun hin => hnot (hmem _ hin)⟩
    · refine ⟨?_,fun hin => hbuilt plan hplan (hl.known _ (hmem _ hin))⟩
      rw [hplanIds, hplan]
      exact List.mem_append_right _ (List.mem_singleton_self _)

theorem fresh_step (hl : l.Fresh) (h : l.step cfg storage ev = some t) : t.Fresh := by
  obtain ⟨-,hmove,-,hplanIds⟩ := step_eq_some h
  rcases hmove.inflight_cases with hmem | ⟨plan,rest,p,hphase,hphase',hinflight⟩
  · exact fresh_of_subset hl h hmem
  · refine ⟨fun id hid => ?_,fun _ _ hp => by cases hphase'.symm.trans hp⟩
    rw [hplanIds]
    rw [hinflight, AList.mem_insert] at hid
    rcases hid with rfl | hid
    · exact List.mem_append_left _ (hl.planned plan rest hphase).1
    · exact List.mem_append_left _ (hl.known id hid)

def Decides (l : Ledger) : Prop :=
  l.engine.detector ≠ .panicked → l.takenUp =
    l.engine.metrics.plansSubmitted + l.engine.metrics.plansRejected + l.engine.detector.undecided

theorem decides_step (hl : l.Decides) (h : l.step cfg storage ev = some t) : t.Decides := by
  obtain ⟨-,hmove,htaken,-⟩ := step_eq_some h
  obtain ⟨e,takenUp,planIds⟩ := t
  dsimp only at hmove htaken
  subst htaken
  rw [Decides] at hl
  cases hmove with
  | view hphase =>
    intro _
    simpa [Engine.takesUp, hphase, DetectorPhase.undecided] using hl
  | viewsClosed hphase =>
    intro _
    simpa [Engine.takesUp, hphase, DetectorPhase.undecided] using hl
  | report _ => exact hl
  | reportsClosed _ => exact hl
  | tick _ => exact hl
  | monitor hmonitor => cases hmonitor <;> exact hl
  | @detector i _ hdetector =>
    cases hdetector with
    | @takenUp op rest n hphase =>
      intro hpanicked
      have hundecided : (Engine.takeUp cfg op rest n i.planId).undecided = 1 := by
        rcases @Engine.takeUp_cases _ cfg op rest n i.planId with ⟨plan,hp⟩ | hp | hp
        · rw [hp]
          rfl
        · rw [hp]
          rfl
        · exact absurd hp hpanicked
      have hcount := hl (by simp [hphase])
      simp only [hphase, DetectorPhase.undecided] at hcount
      simpa [Engine.takesUp, hphase, hundecided] using hcount
    | detectPanicked _ _ => exact fun hpanicked => absurd rfl hpanicked
    | submitted hphase =>
      intro _
      have hcount := hl (by simp [hphase])
      simp only [hphase, DetectorPhase.undecided] at hcount
      simp only [Engine.takesUp, hphase, DetectorPhase.undecided, Bool.false_eq_true, ↓reduceIte]
      omega
    | rejected hphase =>
      intro _
      have hcount := hl (by simp [hphase])
      simp only [hphase, DetectorPhase.undecided] at hcount
      simp only [Engine.takesUp, hphase, DetectorPhase.undecided, Bool.false_eq_true, ↓reduceIte]
      omega
    | _ hphase =>
      intro _
      simpa [Engine.takesUp, hphase, DetectorPhase.undecided] using hl

theorem balanced_iff (hidle : l.engine.Idle) : l.engine.deficit = 0 ↔
    l.engine.metrics.plansSubmitted = l.engine.metrics.plansExecuted +
      l.engine.metrics.plansCancelled + l.engine.inflight.keys.length := by
  rw [Engine.deficit, hidle.1.nothing_open.2, hidle.2.uncounted_eq]
  omega

theorem Decides.idle (hl : l.Decides) (hidle : l.engine.Idle) :
    l.takenUp = l.engine.metrics.plansSubmitted + l.engine.metrics.plansRejected := by
  have hpanicked : l.engine.detector ≠ .panicked := fun hphase => by
    rw [Engine.Idle, hphase] at hidle
    exact hidle.1
  rw [hl hpanicked, hidle.1.nothing_open.1, Nat.add_zero]

/-- Whenever both loops are idle every plan is accounted for once, unless at some step
before the detector rolled back a plan that had already left the map. -/
theorem plans_accounted_iff {events : List EngineEvent} (h : run (step cfg storage) new events = some l)
    (hidle : l.engine.Idle) :
    (l.takenUp = l.engine.metrics.plansSubmitted + l.engine.metrics.plansRejected ∧
      l.engine.metrics.plansSubmitted = l.engine.metrics.plansExecuted +
        l.engine.metrics.plansCancelled + l.engine.inflight.keys.length) ↔
    AllSteps (step cfg storage) (fun l ev => ¬ l.engine.RollsBackGone ev) new events := by
  have hdecides : l.Decides := run_invariant (fun _ _ _ => decides_step) (fun _ => rfl) h
  rw [and_iff_right (hdecides.idle hidle), ← balanced_iff hidle]
  refine (allSteps_iff_eq (f := fun l : Ledger => l.engine.deficit) (fun _ _ _ => fresh_step)
    (fun s ev t hs hstep hback => ?_) (fun s ev t _ hstep hback => ?_) fresh_new h).symm
  · exact Engine.deficit_step (step_eq_some hstep).2.1 (fun plan rest hp => (hs.planned plan rest hp).2) hback
  · exact Engine.deficit_rollsBackGone (step_eq_some hstep).2.1 (not_not.mp hback)

theorem plans_accounted_iff_submitOne :
    AllSteps (step plainConfig false) (fun l ev => ¬ l.engine.RollsBackGone ev) new
      (submitOne mispricedView "p1" ++ [.detector ⟨"p1",0,true⟩]) :=
  (plans_accounted_iff (Option.some_get (by decide +kernel)).symm (by decide +kernel)).mp (by decide +kernel)

def lateFailure : List EngineEvent :=
  .view mispricedView :: List.replicate 4 (.detector ⟨"p1",0,false⟩) ++
    .tick 2000000000 :: List.replicate 5 (.monitor ⟨true,["p1"]⟩) ++
    List.replicate 4 (.detector ⟨"p1",0,false⟩)

/-- It is counted as cancelled and as rejected, and never as submitted. -/
theorem lateFailure_counted_twice :
    ∃ l, run (step plainConfig false) new lateFailure = some l ∧ l.engine.Idle ∧ l.takenUp = 1 ∧
      l.engine.metrics = ⟨1,0,0,1,1⟩ ∧ l.engine.inflight.keys = [] ∧
      l.engine.metrics.plansSubmitted ≠ l.engine.metrics.plansExecuted +
        l.engine.metrics.plansCancelled + l.engine.inflight.keys.length :=
  ⟨(run (step plainConfig false) new lateFailure).get (by decide +kernel),(Option.some_get _).symm,
    by decide +kernel⟩

end Ledger

end ArbCore
