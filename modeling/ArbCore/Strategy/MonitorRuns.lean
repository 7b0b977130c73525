import ArbCore.Strategy.Accounting
import ArbCore.Strategy.ReportedFills

/-! # Runs of the execution monitor loop

The monitor loop starts with any plans in flight and handles reports and timeout scans
in any order. No plan is added meanwhile, so a plan is the same from the start to the
moment at which it leaves the map.
-/
namespace ArbCore
open LabelledRun

instance : DecidablePred EngineEvent.OfDetector
  | .view _ | .viewsClosed | .detector _ => isTrue trivial
  | .report _ | .reportsClosed | .tick _ | .monitor _ => isFalse id

def EngineEvent.receives : EngineEvent → Option MonitorPhase
  | .report r => some (.reported r)
  | .reportsClosed => some .stopped
  | .tick now => some (.scanning now)
  | _ => none

theorem Engine.Move.of_monitor {cfg : StrategyConfig} {storage : Bool} {e t : Engine} {ev : EngineEvent}
    (h : Engine.Move cfg storage e ev t) (hev : ¬ ev.OfDetector) :
    (∃ phase, ev.receives = some phase ∧ e.monitor = .select ∧ t = { e with monitor := phase }) ∨
      ∃ i, ev = .monitor i ∧ Engine.MonitorMove storage e i t := by
  cases h with
  | view _ => exact absurd trivial hev
  | viewsClosed _ => exact absurd trivial hev
  | detector _ => exact absurd trivial hev
  | report hphase => exact .inl ⟨_,rfl,hphase,rfl⟩
  | reportsClosed hphase => exact .inl ⟨_,rfl,hphase,rfl⟩
  | tick hphase => exact .inl ⟨_,rfl,hphase,rfl⟩
  | monitor hmonitor => exact .inr ⟨_,rfl,hmonitor⟩

def MonitorPhase.applies : MonitorPhase → Option ExecutionReport
  | .applying report => some report
  | _ => none

section Leaving
variable {V : Type} (m : HashMap V) {id : String}

def leaving (before after : HashMap V) : List String := before.keys.filter fun id => id ∉ after

theorem leaving_self : leaving m m = [] := by
  rw [leaving, List.filter_eq_nil_iff]
  intro id hid
  have hmem : id ∈ m := hid
  simp [hmem]

theorem leaving_replace (v : V) : leaving m (m.replace id v) = [] := by
  rw [leaving, List.filter_eq_nil_iff]
  intro id hid
  have hmem : id ∈ m := hid
  simp [hmem]

variable {m}

theorem leaving_erase (h : id ∈ m) : leaving m (m.erase id) = [id] := by
  have hfilter : leaving m (m.erase id) = m.keys.filter (· == id) := by
    refine List.filter_congr fun k hk => ?_
    have hmem : k ∈ m := hk
    rw [Bool.eq_iff_iff]
    simp [AList.mem_erase, hmem]
  rw [hfilter, List.filter_beq, List.count_eq_one_of_mem m.keys_nodup h]
  rfl

theorem countP_leaving_erase (h : id ∈ m) (P : String → Prop) [DecidablePred P] :
    (leaving m (m.erase id)).countP P = if P id then 1 else 0 := by
  rw [leaving_erase h, List.countP_singleton]
  simp

end Leaving

/-- The engine with the reports applied so far and the number of plans that left the
map with every leg reported as filled. -/
structure MonitorLog where
  engine : Engine
  applied : List ExecutionReport
  leftFilled : ℕ

namespace MonitorLog
variable {cfg : StrategyConfig} {storage : Bool} {start : Engine} {l t : MonitorLog} {ev : EngineEvent}

def new (start : Engine) : MonitorLog := ⟨start,[],0⟩

/-- Every leg of the plan was reported as filled; the plan is the one in flight at the start. -/
def Filled (start : Engine) (applied : List ExecutionReport) (id : String) : Prop :=
  ∀ p ∈ start.inflight.lookup id, p.AllFilled id applied

instance (start : Engine) (applied : List ExecutionReport) : DecidablePred (Filled start applied) :=
  fun _ => Option.decidableForallMem _

def step (cfg : StrategyConfig) (storage : Bool) (start : Engine) (l : MonitorLog) (ev : EngineEvent) :
    Option MonitorLog :=
  if ev.OfDetector then none
  else (l.engine.step cfg storage ev).map fun e =>
    let applied := l.applied ++ l.engine.monitor.applies.toList
    { engine := e
      applied := applied
      leftFilled := l.leftFilled +
        (leaving l.engine.inflight e.inflight).countP fun id => Filled start applied id }

theorem step_eq_some (h : l.step cfg storage start ev = some t) :
    ((∃ phase, ev.receives = some phase ∧ l.engine.monitor = .select ∧
        t.engine = { l.engine with monitor := phase }) ∨
      ∃ i, ev = .monitor i ∧ Engine.MonitorMove storage l.engine i t.engine) ∧
      t.applied = l.applied ++ l.engine.monitor.applies.toList ∧
      t.leftFilled = l.leftFilled +
        (leaving l.engine.inflight t.engine.inflight).countP fun id => Filled start t.applied id := by
  rw [step] at h
  by_cases hev : ev.OfDetector
  · rw [if_pos hev] at h
    cases h
  rw [if_neg hev] at h
  obtain ⟨e,he,rfl⟩ := Option.map_eq_some_iff.mp h
  exact ⟨(Engine.step_move he).of_monitor hev,rfl,rfl⟩

/-- Every entry of the map has come from the one at the start by the reports applied since. -/
def Tracks (start : Engine) (l : MonitorLog) : Prop :=
  ∀ id p, l.engine.inflight.lookup id = some p →
    ∃ p₀, start.inflight.lookup id = some p₀ ∧ p₀.Tracks p id l.applied

theorem tracks_new (start : Engine) : (new start).Tracks start :=
  fun id p hp => ⟨p,hp,InFlightPlan.tracks_refl p id⟩

theorem Tracks.of_idle (h : l.Tracks start) (happlied : t.applied = l.applied)
    (hmap : ∀ id p, t.engine.inflight.lookup id = some p → l.engine.inflight.lookup id = some p) :
    t.Tracks start := by
  intro id p hp
  rw [happlied]
  exact h id p (hmap id p hp)

theorem lookup_erase_eq_some {V : Type} {m : HashMap V} {id id' : String} {v : V}
    (h : (m.erase id).lookup id' = some v) : m.lookup id' = some v := by
  by_cases hid : id' = id
  · rw [hid, AList.lookup_erase] at h
    cases h
  · rwa [AList.lookup_erase_ne hid] at h

theorem Tracks.applyReport (h : l.Tracks start) {report : ExecutionReport} {id : String}
    {p : InFlightPlan} (hp : (ArbCore.applyReport l.engine.inflight report).1.lookup id = some p) :
    ∃ p₀, start.inflight.lookup id = some p₀ ∧ p₀.Tracks p id (l.applied ++ [report]) := by
  rw [lookup_applyReport] at hp
  split_ifs at hp with hid
  · obtain ⟨q,hq,hreact⟩ := Option.bind_eq_some_iff.mp hp
    obtain ⟨p₀,hp₀,htracks⟩ := h id q hq
    exact ⟨p₀,hp₀,(InFlightPlan.react_eq_some.mp hreact).2 ▸ htracks.addFill hid⟩
  · obtain ⟨p₀,hp₀,htracks⟩ := h id p hp
    exact ⟨p₀,hp₀,htracks.other hid⟩

theorem tracks_step (hl : l.Tracks start) (h : l.step cfg storage start ev = some t) : t.Tracks start := by
  obtain ⟨⟨phase,-,hselect,hengine⟩ | ⟨i,-,hmonitor⟩,happlied,-⟩ := step_eq_some h
  · exact hl.of_idle (by simpa [hselect, MonitorPhase.applies] using happlied) fun _ _ hp => by
      rwa [hengine] at hp
  · obtain ⟨e,applied,leftFilled⟩ := t
    dsimp only at hmonitor happlied
    cases hmonitor with
    | @applied report hphase =>
      have happ : applied = l.applied ++ [report] := by rw [happlied, hphase]; rfl
      subst happ
      exact fun id p hp => hl.applyReport hp
    | removed hphase _ =>
      exact hl.of_idle (by simpa [hphase, MonitorPhase.applies] using happlied)
        fun _ _ hp => lookup_erase_eq_some hp
    | gone hphase _ =>
      exact hl.of_idle (by simpa [hphase, MonitorPhase.applies] using happlied)
        fun _ _ hp => lookup_erase_eq_some hp
    | _ hphase =>
      exact hl.of_idle (by simpa [hphase, MonitorPhase.applies] using happlied) fun _ _ hp => hp

theorem step_busy (hbusy : ¬ l.engine.monitor.Idle) (h : l.step cfg storage start ev = some t) :
    ∃ i, ev = .monitor i ∧ l.engine.monitorStep storage i = some t.engine := by
  obtain ⟨⟨phase,-,hselect,-⟩ | ⟨i,rfl,-⟩,-,-⟩ := step_eq_some h
  · exact absurd (hselect ▸ trivial) hbusy
  · rw [step, if_neg (show ¬ (EngineEvent.monitor i).OfDetector from id)] at h
    obtain ⟨e,he,rfl⟩ := Option.map_eq_some_iff.mp h
    exact ⟨i,rfl,he⟩

end MonitorLog

end ArbCore
