import ArbCore.Strategy.Engine

/-! # What a step of the engine can do

The moves of the two loops, phase by phase, and the frame of the monitor loop.
-/
namespace ArbCore
open DecimalArithmetic

section Size
variable {V : Type} (m : HashMap V) (k : String) (v : V)

theorem length_keys_insert : (m.insert k v).keys.length ≤ m.keys.length + 1 := by
  rw [AList.keys_insert, List.length_cons]
  exact Nat.succ_le_succ List.length_erase_le

theorem length_keys_erase : (m.erase k).keys.length ≤ m.keys.length := by
  rw [AList.keys_erase]
  exact List.length_erase_le

variable {m k}

theorem length_keys_insert_of_notMem (h : k ∉ m) : (m.insert k v).keys.length = m.keys.length + 1 := by
  rw [AList.keys_insert, List.length_cons, List.erase_of_not_mem h]

theorem length_keys_erase_of_mem (h : k ∈ m) : (m.erase k).keys.length + 1 = m.keys.length := by
  have hpos := List.length_pos_of_mem h
  rw [AList.keys_erase, List.length_erase_of_mem h]
  omega

theorem erase_of_notMem (h : k ∉ m) : m.erase k = m :=
  AList.ext (List.kerase_of_notMem_keys h)

end Size

theorem length_keys_applyReport (infl : HashMap InFlightPlan) (report : ExecutionReport) :
    (applyReport infl report).1.keys.length ≤ infl.keys.length := by
  unfold applyReport
  split
  · exact le_rfl
  · dsimp only
    split
    · exact length_keys_erase _ _
    · dsimp only
      rw [AList.keys_replace]

def EngineEvent.OfDetector : EngineEvent → Prop
  | .view _ | .viewsClosed | .detector _ => True
  | _ => False

namespace Engine
variable [DecimalOps] {cfg : StrategyConfig} {storage : Bool} {e t : Engine}

inductive DetectorMove (cfg : StrategyConfig) (e : Engine) (i : DetectorInput) : Engine → Prop
  | detected {view : TriView} {ops : List Opportunity} (hphase : e.detector = .received view)
      (hops : detectTriangularOpportunities view cfg.feeMap cfg.limits.minProfitAbs = some ops) :
      DetectorMove cfg e i { e with
        metrics.opportunitiesSeen := e.metrics.opportunitiesSeen + 1, detector := .pending ops }
  | detectPanicked {view : TriView} (hphase : e.detector = .received view)
      (hops : detectTriangularOpportunities view cfg.feeMap cfg.limits.minProfitAbs = none) :
      DetectorMove cfg e i { e with
        metrics.opportunitiesSeen := e.metrics.opportunitiesSeen + 1, detector := .panicked }
  | viewDone (hphase : e.detector = .pending []) :
      DetectorMove cfg e i { e with detector := .recv }
  | counted {op : Opportunity} {rest : List Opportunity} (hphase : e.detector = .pending (op :: rest)) :
      DetectorMove cfg e i { e with detector := .counted op rest e.inflight.keys.length }
  | takenUp {op : Opportunity} {rest : List Opportunity} {n : ℕ}
      (hphase : e.detector = .counted op rest n) :
      DetectorMove cfg e i { e with detector := takeUp cfg op rest n i.planId }
  | registered {plan : TradePlan} {rest : List Opportunity} (hphase : e.detector = .planned plan rest) :
      DetectorMove cfg e i { e with
        inflight := e.inflight.insert plan.id (.register cfg plan i.now)
        detector := .registered plan rest }
  | sent {plan : TradePlan} {rest : List Opportunity} (hphase : e.detector = .registered plan rest)
      (hok : i.sendOk = true) :
      DetectorMove cfg e i { e with execTx := e.execTx ++ [plan], detector := .sent rest }
  | unsent {plan : TradePlan} {rest : List Opportunity} (hphase : e.detector = .registered plan rest)
      (hok : i.sendOk = false) :
      DetectorMove cfg e i { e with detector := .unsent plan rest }
  | submitted {rest : List Opportunity} (hphase : e.detector = .sent rest) :
      DetectorMove cfg e i { e with
        metrics.plansSubmitted := e.metrics.plansSubmitted + 1, detector := .pending rest }
  | unregistered {plan : TradePlan} {rest : List Opportunity} (hphase : e.detector = .unsent plan rest) :
      DetectorMove cfg e i { e with
        inflight := e.inflight.erase plan.id, detector := .rejecting rest }
  | rejected {rest : List Opportunity} (hphase : e.detector = .rejecting rest) :
      DetectorMove cfg e i { e with
        metrics.plansRejected := e.metrics.plansRejected + 1, detector := .pending rest }

/-- A move of the detector loop leaves the monitor loop, its channel and the rows alone. -/
theorem detectorMove_frame {i : DetectorInput} (h : DetectorMove cfg e i t) :
    t.monitor = e.monitor ∧ t.execCancelTx = e.execCancelTx ∧ t.fills = e.fills := by
  cases h <;> exact ⟨rfl,rfl,rfl⟩

theorem detectorStep_move {i : DetectorInput} (h : e.detectorStep cfg i = some t) :
    DetectorMove cfg e i t := by
  unfold detectorStep at h
  split at h
  case h_1 view hphase =>
    cases hops : detectTriangularOpportunities view cfg.feeMap cfg.limits.minProfitAbs with
    | none =>
      simp only [hops, Option.some.injEq] at h
      exact h ▸ .detectPanicked hphase hops
    | some ops =>
      simp only [hops, Option.some.injEq] at h
      exact h ▸ .detected hphase hops
  case h_2 hphase => exact Option.some.inj h ▸ .viewDone hphase
  case h_3 hphase => exact Option.some.inj h ▸ .counted hphase
  case h_4 hphase => exact Option.some.inj h ▸ .takenUp hphase
  case h_5 hphase => exact Option.some.inj h ▸ .registered hphase
  case h_6 hphase =>
    split_ifs at h with hok
    · exact Option.some.inj h ▸ .sent hphase hok
    · exact Option.some.inj h ▸ .unsent hphase (Bool.not_eq_true _ ▸ hok)
  case h_7 hphase => exact Option.some.inj h ▸ .submitted hphase
  case h_8 hphase => exact Option.some.inj h ▸ .unregistered hphase
  case h_9 hphase => exact Option.some.inj h ▸ .rejected hphase
  all_goals cases h

inductive MonitorMove (storage : Bool) (e : Engine) (i : MonitorInput) : Engine → Prop
  | looked {report : ExecutionReport} (hphase : e.monitor = .reported report) :
      MonitorMove storage e i { e with monitor := .storing report (storageData e.inflight report) }
  | stored {report : ExecutionReport} {data : Option TradeFill} (hphase : e.monitor = .storing report data) :
      MonitorMove storage e i { e with
        fills := e.fills ++ (if storage && i.insertOk then data.toList else [])
        monitor := .applying report }
  | applied {report : ExecutionReport} (hphase : e.monitor = .applying report) :
      MonitorMove storage e i { e with
        inflight := (applyReport e.inflight report).1
        execCancelTx := e.execCancelTx ++ (applyReport e.inflight report).2.1
        monitor := if (applyReport e.inflight report).2.2 then .executed else .select }
  | executed (hphase : e.monitor = .executed) :
      MonitorMove storage e i { e with
        metrics.plansExecuted := e.metrics.plansExecuted + 1, monitor := .select }
  | scanned {now : Instant} (hphase : e.monitor = .scanning now)
      (horder : i.order.Perm (timedOut e.inflight now)) :
      MonitorMove storage e i { e with monitor := .cancelling i.order }
  | scanDone (hphase : e.monitor = .cancelling []) :
      MonitorMove storage e i { e with monitor := .select }
  | cancelSent {planId : String} {toCancel : List String}
      (hphase : e.monitor = .cancelling (planId :: toCancel)) :
      MonitorMove storage e i { e with
        execCancelTx := e.execCancelTx ++ [⟨planId,none⟩], monitor := .removing planId toCancel }
  | removed {planId : String} {toCancel : List String} (hphase : e.monitor = .removing planId toCancel)
      (hmem : planId ∈ e.inflight) :
      MonitorMove storage e i { e with
        inflight := e.inflight.erase planId, monitor := .cancelled toCancel }
  | gone {planId : String} {toCancel : List String} (hphase : e.monitor = .removing planId toCancel)
      (hmem : planId ∉ e.inflight) :
      MonitorMove storage e i { e with
        inflight := e.inflight.erase planId, monitor := .cancelling toCancel }
  | cancelled {toCancel : List String} (hphase : e.monitor = .cancelled toCancel) :
      MonitorMove storage e i { e with
        metrics.plansCancelled := e.metrics.plansCancelled + 1, monitor := .cancelling toCancel }

omit [DecimalOps] in
theorem monitorStep_move {i : MonitorInput} (h : e.monitorStep storage i = some t) :
    MonitorMove storage e i t := by
  unfold monitorStep at h
  split at h
  case h_1 hphase => exact Option.some.inj h ▸ .looked hphase
  case h_2 hphase => exact Option.some.inj h ▸ .stored hphase
  case h_3 hphase => exact Option.some.inj h ▸ .applied hphase
  case h_4 hphase => exact Option.some.inj h ▸ .executed hphase
  case h_5 hphase =>
    split_ifs at h with horder
    exact Option.some.inj h ▸ .scanned hphase (List.isPerm_iff.mp horder)
  case h_6 hphase => exact Option.some.inj h ▸ .scanDone hphase
  case h_7 hphase => exact Option.some.inj h ▸ .cancelSent hphase
  case h_8 planId toCancel hphase =>
    by_cases hmem : planId ∈ e.inflight
    · rw [if_pos (AList.lookup_isSome.mpr hmem)] at h
      exact Option.some.inj h ▸ .removed hphase hmem
    · rw [if_neg (mt AList.lookup_isSome.mp hmem)] at h
      exact Option.some.inj h ▸ .gone hphase hmem
  case h_9 hphase => exact Option.some.inj h ▸ .cancelled hphase
  all_goals cases h

inductive Move (cfg : StrategyConfig) (storage : Bool) (e : Engine) : EngineEvent → Engine → Prop
  | view {view : TriView} (hphase : e.detector = .recv) :
      Move cfg storage e (.view view) { e with detector := .received view }
  | viewsClosed (hphase : e.detector = .recv) :
      Move cfg storage e .viewsClosed { e with detector := .stopped }
  | detector {i : DetectorInput} {t : Engine} (h : DetectorMove cfg e i t) :
      Move cfg storage e (.detector i) t
  | report {report : ExecutionReport} (hphase : e.monitor = .select) :
      Move cfg storage e (.report report) { e with monitor := .reported report }
  | reportsClosed (hphase : e.monitor = .select) :
      Move cfg storage e .reportsClosed { e with monitor := .stopped }
  | tick {now : Instant} (hphase : e.monitor = .select) :
      Move cfg storage e (.tick now) { e with monitor := .scanning now }
  | monitor {i : MonitorInput} {t : Engine} (h : MonitorMove storage e i t) :
      Move cfg storage e (.monitor i) t

theorem step_move {ev : EngineEvent} (h : e.step cfg storage ev = some t) : Move cfg storage e ev t := by
  cases ev with
  | view view =>
    simp only [step] at h
    split at h
    · rename_i hphase
      exact Option.some.inj h ▸ .view hphase
    · cases h
  | viewsClosed =>
    simp only [step] at h
    split at h
    · rename_i hphase
      exact Option.some.inj h ▸ .viewsClosed hphase
    · cases h
  | detector i => exact .detector (detectorStep_move h)
  | monitor i => exact .monitor (monitorStep_move h)
  | report report =>
    simp only [step] at h
    split at h
    · rename_i hphase
      exact Option.some.inj h ▸ .report hphase
    · cases h
  | reportsClosed =>
    simp only [step] at h
    split at h
    · rename_i hphase
      exact Option.some.inj h ▸ .reportsClosed hphase
    · cases h
  | tick now =>
    simp only [step] at h
    split at h
    · rename_i hphase
      exact Option.some.inj h ▸ .tick hphase
    · cases h

theorem Move.monitor_eq {ev : EngineEvent} (h : Move cfg storage e ev t) (hev : ev.OfDetector) :
    t.monitor = e.monitor := by
  cases h with
  | view _ => rfl
  | viewsClosed _ => rfl
  | detector hdetector => exact (detectorMove_frame hdetector).1
  | _ => exact hev.elim

omit [DecimalOps] in
/-- A move of the monitor loop leaves the detector loop and its channel alone
and adds no plan. -/
theorem monitorMove_frame {i : MonitorInput} (h : MonitorMove storage e i t) :
    t.detector = e.detector ∧ t.execTx = e.execTx ∧
      t.inflight.keys.length ≤ e.inflight.keys.length := by
  cases h with
  | applied _ => exact ⟨rfl,rfl,length_keys_applyReport _ _⟩
  | removed _ _ => exact ⟨rfl,rfl,length_keys_erase _ _⟩
  | gone _ _ => exact ⟨rfl,rfl,length_keys_erase _ _⟩
  | _ => exact ⟨rfl,rfl,le_rfl⟩

theorem step_cases {ev : EngineEvent} (h : e.step cfg storage ev = some t) :
    (∃ view, ev = .view view ∧ e.detector = .recv ∧ t = { e with detector := .received view }) ∨
    (ev = .viewsClosed ∧ t = { e with detector := .stopped }) ∨
    (∃ i, ev = .detector i ∧ DetectorMove cfg e i t) ∨
    (t.detector = e.detector ∧ t.execTx = e.execTx ∧
      t.inflight.keys.length ≤ e.inflight.keys.length) := by
  cases step_move h with
  | view hphase => exact .inl ⟨_,rfl,hphase,rfl⟩
  | viewsClosed _ => exact .inr (.inl ⟨rfl,rfl⟩)
  | detector hmove => exact .inr (.inr (.inl ⟨_,rfl,hmove⟩))
  | monitor hmove => exact .inr (.inr (.inr (monitorMove_frame hmove)))
  | report _ => exact .inr (.inr (.inr ⟨rfl,rfl,le_rfl⟩))
  | reportsClosed _ => exact .inr (.inr (.inr ⟨rfl,rfl,le_rfl⟩))
  | tick _ => exact .inr (.inr (.inr ⟨rfl,rfl,le_rfl⟩))

theorem takeUp_planned {op : Opportunity} {rest rest' : List Opportunity} {n : ℕ} {id : String}
    {plan : TradePlan} (h : takeUp cfg op rest n id = .planned plan rest') :
    rest' = rest ∧ n < cfg.maxConcurrentPlans ∧ preTradeChecks cfg op = some true ∧
      buildTradePlan id op cfg = some (.ok plan) := by
  unfold takeUp at h
  split_ifs at h with hn
  split at h
  · cases h
  · cases h
  · rename_i hc
    split at h
    · cases h
    · cases h
    · rename_i hb
      cases h
      exact ⟨rfl,not_le.mp hn,hc,hb⟩

theorem takeUp_cases (op : Opportunity) (rest : List Opportunity) (n : ℕ) (id : String) :
    (∃ plan, takeUp cfg op rest n id = .planned plan rest) ∨
      takeUp cfg op rest n id = .rejecting rest ∨ takeUp cfg op rest n id = .panicked := by
  unfold takeUp
  split_ifs
  · exact .inr (.inl rfl)
  · split
    · exact .inr (.inr rfl)
    · exact .inr (.inl rfl)
    · split
      · exact .inr (.inr rfl)
      · exact .inr (.inl rfl)
      · exact .inl ⟨_,rfl⟩

end Engine

end ArbCore
