import ArbCore.Strategy.Accounting

/-! # What a timeout scan cancels

A scan collects the expired plans under the lock and takes them up one after the other,
with the lock released in between. Meanwhile the detector inserts plans under new
identifiers, so what was collected stays in the map until its turn, and what was not
collected stays in it for good.
-/
namespace ArbCore
open LabelledRun

/-- The age of a plan in whole milliseconds, which a `u64` holds for half a billion years. -/
def InFlightPlan.ageMs (p : InFlightPlan) (now : Instant) : ℕ := now.millisSince p.submittedAt % 2 ^ 64

def cancelAll (planId : String) : CancelRequest := ⟨planId,none⟩

section TimedOut
variable (infl : HashMap InFlightPlan) (now : Instant)

theorem nodup_timedOut : (timedOut infl now).Nodup :=
  infl.keys_nodup.sublist ((infl.entries.filter_sublist).map Sigma.fst)

theorem mem_timedOut {id : String} :
    id ∈ timedOut infl now ↔ ∃ p, infl.lookup id = some p ∧ p.timeoutMs < p.ageMs now := by
  simp only [timedOut, List.mem_map, List.mem_filter]
  constructor
  · rintro ⟨⟨key,p⟩,⟨hentry,hexpired⟩,rfl⟩
    exact ⟨p,AList.mem_lookup_iff.mpr hentry,of_decide_eq_true hexpired⟩
  · rintro ⟨p,hp,hexpired⟩
    exact ⟨⟨id,p⟩,⟨AList.mem_lookup_iff.mp hp,decide_eq_true hexpired⟩,rfl⟩

end TimedOut

namespace MonitorPhase

def Scans : MonitorPhase → Prop
  | .select | .cancelling _ | .removing .. | .cancelled _ => True
  | _ => False

def toSend : MonitorPhase → List String
  | .cancelling toCancel | .removing _ toCancel | .cancelled toCancel => toCancel
  | _ => []

def toRemove : MonitorPhase → List String
  | .cancelling toCancel | .cancelled toCancel => toCancel
  | .removing planId toCancel => planId :: toCancel
  | _ => []

def toCount : MonitorPhase → ℕ
  | .cancelling toCancel => toCancel.length
  | .removing _ toCancel | .cancelled toCancel => toCancel.length + 1
  | _ => 0

/-- The steps that the scan still takes when every collected plan is in the map. -/
def scanStepsLeft : MonitorPhase → ℕ
  | .cancelling toCancel => 3 * toCancel.length + 1
  | .removing _ toCancel => 3 * toCancel.length + 3
  | .cancelled toCancel => 3 * toCancel.length + 2
  | _ => 0

end MonitorPhase

namespace Engine

/-- Where a scan stands that began with `start` and collected these plans: what is done
and what is still to do are together the whole scan. -/
structure Scanning (start : Engine) (collected : List String) (e : Engine) : Prop where
  phase : e.monitor.Scans
  suffix : e.monitor.toRemove <:+ collected
  inMap : ∀ id ∈ collected, id ∈ e.inflight ↔ id ∈ e.monitor.toRemove
  sent : e.execCancelTx ++ e.monitor.toSend.map cancelAll =
    start.execCancelTx ++ collected.map cancelAll
  counted : e.metrics.plansCancelled + e.monitor.toCount =
    start.metrics.plansCancelled + collected.length

variable {start e t : Engine} {collected : List String} {storage : Bool} {i : MonitorInput}

theorem scanning_monitorMove (hnodup : collected.Nodup) (he : Scanning start collected e)
    (h : MonitorMove storage e i t) : Scanning start collected t := by
  obtain ⟨hscans,hsuffix,hinMap,hsent,hcounted⟩ := he
  cases h with
  | scanDone hphase =>
    rw [hphase] at hsuffix hinMap hsent hcounted
    exact ⟨trivial,hsuffix,hinMap,hsent,hcounted⟩
  | cancelSent hphase =>
    rw [hphase] at hsuffix hinMap hsent hcounted
    exact ⟨trivial,hsuffix,hinMap,by rw [← hsent, List.append_assoc]; rfl,hcounted⟩
  | @removed planId toCancel hphase hmem =>
    rw [hphase] at hsuffix hinMap hsent hcounted
    have hnotMem : planId ∉ toCancel := (List.nodup_cons.mp (hnodup.sublist hsuffix.sublist)).1
    refine ⟨trivial,(List.suffix_cons planId toCancel).trans hsuffix,fun id hid => ?_,hsent,hcounted⟩
    rw [AList.mem_erase, hinMap id hid]
    constructor
    · rintro ⟨hne,hleft⟩
      exact (List.mem_cons.mp hleft).resolve_left hne
    · intro hleft
      exact ⟨fun heq => hnotMem (heq ▸ hleft),List.mem_cons_of_mem _ hleft⟩
  | @gone planId toCancel hphase hmem =>
    rw [hphase] at hsuffix hinMap
    have hcollected : planId ∈ collected := hsuffix.subset List.mem_cons_self
    exact absurd ((hinMap planId hcollected).mpr List.mem_cons_self) hmem
  | @cancelled toCancel hphase =>
    rw [hphase] at hsuffix hinMap hsent hcounted
    refine ⟨trivial,hsuffix,hinMap,hsent,?_⟩
    rw [← hcounted]
    exact Nat.add_right_comm _ 1 _
  | _ hphase =>
    rw [hphase] at hscans
    exact hscans.elim

/-- Until it is done the scan has a next step, and each step leaves one less. -/
theorem Scanning.next (he : Scanning start collected e) (storage : Bool) (hbusy : e.monitor ≠ .select)
    (i : MonitorInput) :
    ∃ t, e.monitorStep storage i = some t ∧ t.monitor.scanStepsLeft + 1 = e.monitor.scanStepsLeft := by
  obtain ⟨hscans,hsuffix,hinMap,-,-⟩ := he
  unfold monitorStep
  cases hphase : e.monitor with
  | select => exact absurd hphase hbusy
  | cancelling toCancel =>
    cases toCancel with
    | nil => exact ⟨_,rfl,rfl⟩
    | cons planId toCancel => exact ⟨_,rfl,rfl⟩
  | removing planId toCancel =>
    rw [hphase] at hsuffix hinMap
    have hmem : planId ∈ e.inflight :=
      (hinMap planId (hsuffix.subset List.mem_cons_self)).mpr List.mem_cons_self
    simp only [AList.lookup_isSome.mpr hmem, ↓reduceIte]
    exact ⟨_,rfl,rfl⟩
  | cancelled toCancel => exact ⟨_,rfl,rfl⟩
  | _ =>
    rw [hphase] at hscans
    exact hscans.elim

theorem Scanning.lookup_monitorMove (he : Scanning start collected e) (h : MonitorMove storage e i t)
    {id : String} (hid : id ∉ collected) : t.inflight.lookup id = e.inflight.lookup id := by
  obtain ⟨hscans,hsuffix,-,-,-⟩ := he
  have herase : ∀ {planId toCancel}, e.monitor = .removing planId toCancel →
      (e.inflight.erase planId).lookup id = e.inflight.lookup id := by
    intro planId toCancel hphase
    rw [hphase] at hsuffix
    refine AList.lookup_erase_ne fun heq => hid ?_
    exact heq ▸ hsuffix.subset List.mem_cons_self
  cases h with
  | applied hphase =>
    rw [hphase] at hscans
    exact hscans.elim
  | removed hphase _ => exact herase hphase
  | gone hphase _ => exact herase hphase
  | _ => rfl

end Engine

namespace Ledger
variable {cfg : StrategyConfig} {storage : Bool} {start : Engine} {collected : List String}
  {l t u : Ledger} {ev : EngineEvent}

/-- A step of the scan, or one of the detector that takes no plan back. -/
def scanStep (l : Ledger) : EngineEvent → Bool
  | .monitor _ | .view _ | .viewsClosed => true
  | .detector _ => match l.engine.detector with
    | .unsent _ _ => false
    | _ => true
  | .report _ | .reportsClosed | .tick _ => false

theorem scanStep_cases (hev : l.scanStep ev = true) (h : l.step cfg storage ev = some t) :
    (t.engine.monitor = l.engine.monitor ∧ t.engine.execCancelTx = l.engine.execCancelTx ∧
      t.engine.metrics.plansCancelled = l.engine.metrics.plansCancelled ∧
      ∀ id, (∀ plan rest, l.engine.detector = .planned plan rest → plan.id ≠ id) →
        t.engine.inflight.lookup id = l.engine.inflight.lookup id) ∨
    ∃ i, Engine.MonitorMove storage l.engine i t.engine := by
  obtain ⟨-,hmove,-,-⟩ := step_eq_some h
  obtain ⟨e,takenUp,planIds⟩ := t
  dsimp only at hmove ⊢
  cases hmove with
  | monitor hmonitor => exact .inr ⟨_,hmonitor⟩
  | view _ => exact .inl ⟨rfl,rfl,rfl,fun _ _ => rfl⟩
  | viewsClosed _ => exact .inl ⟨rfl,rfl,rfl,fun _ _ => rfl⟩
  | detector hdetector =>
    cases hdetector with
    | registered hphase =>
      exact .inl ⟨rfl,rfl,rfl,fun id hid => AList.lookup_insert_ne (hid _ _ hphase).symm⟩
    | unregistered hphase =>
      rw [scanStep, hphase] at hev
      cases hev
    | _ => exact .inl ⟨rfl,rfl,rfl,fun _ _ => rfl⟩
  | _ => cases hev

structure Scanning (start : Engine) (collected : List String) (l : Ledger) : Prop where
  fresh : l.Fresh
  used : ∀ id ∈ collected, id ∈ l.planIds
  planned : ∀ plan rest, l.engine.detector = .planned plan rest → plan.id ∉ collected
  engine : Engine.Scanning start collected l.engine

theorem scanning_start {now : Instant} {i : MonitorInput} (hfresh : l.Fresh)
    (hscan : l.engine.monitor = .scanning now) (h : l.step cfg storage (.monitor i) = some t) :
    i.order.Perm (timedOut l.engine.inflight now) ∧ t.engine.inflight = l.engine.inflight ∧
      t.Scanning l.engine i.order := by
  have hfresh' := fresh_step hfresh h
  obtain ⟨-,hmove,-,hplanIds⟩ := step_eq_some h
  obtain ⟨e,takenUp,planIds⟩ := t
  dsimp only at hmove hplanIds hfresh' ⊢
  cases hmove with
  | monitor hmonitor =>
    cases hmonitor with
    | @scanned now' hphase horder =>
      cases hscan.symm.trans hphase
      have hmem : ∀ id ∈ i.order, id ∈ l.engine.inflight := by
        intro id hid
        obtain ⟨p,hp,-⟩ := (mem_timedOut _ _).mp (horder.mem_iff.mp hid)
        exact AList.lookup_isSome.mp (hp ▸ rfl)
      refine ⟨horder,rfl,hfresh',fun id hid => ?_,fun plan rest hp hid => ?_,?_⟩
      · exact hplanIds ▸ List.mem_append_left _ (hfresh.known id (hmem id hid))
      · exact (hfresh.planned plan rest hp).2 (hmem _ hid)
      · exact ⟨trivial,List.suffix_rfl,fun id hid => iff_of_true (hmem id hid) hid,rfl,rfl⟩
    | _ hphase => cases hscan.symm.trans hphase

theorem scanning_step (hnodup : collected.Nodup) (hl : l.Scanning start collected)
    (hev : l.scanStep ev = true) (h : l.step cfg storage ev = some t) : t.Scanning start collected := by
  obtain ⟨hbuilt,hmove,-,hplanIds⟩ := step_eq_some h
  have hused : ∀ id ∈ collected, id ∈ t.planIds := fun id hid =>
    hplanIds ▸ List.mem_append_left _ (hl.used id hid)
  have hplanned : ∀ plan rest, t.engine.detector = .planned plan rest → plan.id ∉ collected := by
    intro plan rest hp hid
    rcases hmove.planned_cases hp with hp | hplan
    · exact hl.planned plan rest hp hid
    · exact hbuilt plan hplan (hl.used _ hid)
  refine ⟨fresh_step hl.fresh h,hused,hplanned,?_⟩
  rcases scanStep_cases hev h with ⟨hmonitor,hsent,hcancelled,hlookup⟩ | ⟨i,hmove⟩
  · obtain ⟨hscans,hsuffix,hinMap,hsent',hcounted⟩ := hl.engine
    rw [← hmonitor] at hscans hsuffix hinMap hsent' hcounted
    rw [← hsent] at hsent'
    rw [← hcancelled] at hcounted
    refine ⟨hscans,hsuffix,fun id hid => ?_,hsent',hcounted⟩
    rw [← hinMap id hid, ← AList.lookup_isSome, ← AList.lookup_isSome,
      hlookup id fun plan rest hp heq => hl.planned plan rest hp (heq ▸ hid)]
  · exact Engine.scanning_monitorMove hnodup hl.engine hmove

theorem kept_step (hl : l.Scanning start collected) (hev : l.scanStep ev = true)
    (h : l.step cfg storage ev = some t) {id : String} {p : InFlightPlan} (hid : id ∉ collected)
    (hp : l.engine.inflight.lookup id = some p) : t.engine.inflight.lookup id = some p := by
  rcases scanStep_cases hev h with ⟨-,-,-,hlookup⟩ | ⟨i,hmove⟩
  · have hmem : id ∈ l.engine.inflight := AList.lookup_isSome.mp (hp ▸ rfl)
    rw [hlookup id fun plan rest hphase heq => (hl.fresh.planned plan rest hphase).2 (heq ▸ hmem), hp]
  · rw [hl.engine.lookup_monitorMove hmove hid, hp]

theorem scanning_run {events : List EngineEvent} (hnodup : collected.Nodup)
    (hl : l.Scanning start collected)
    (hevents : AllSteps (step cfg storage) (fun l ev => l.scanStep ev = true) l events)
    (h : run (step cfg storage) l events = some u) : u.Scanning start collected :=
  run_invariant_of_allSteps (fun _ _ _ hl hev ht => scanning_step hnodup hl hev ht) hl hevents h

theorem kept_run {events : List EngineEvent} (hnodup : collected.Nodup)
    (hl : l.Scanning start collected)
    (hevents : AllSteps (step cfg storage) (fun l ev => l.scanStep ev = true) l events)
    (h : run (step cfg storage) l events = some u) {id : String} {p : InFlightPlan}
    (hid : id ∉ collected) (hp : l.engine.inflight.lookup id = some p) :
    u.engine.inflight.lookup id = some p := by
  have hstep : ∀ (l : Ledger) ev (t : Ledger),
      l.Scanning start collected ∧ l.engine.inflight.lookup id = some p → l.scanStep ev = true →
      l.step cfg storage ev = some t →
      t.Scanning start collected ∧ t.engine.inflight.lookup id = some p := by
    rintro l ev t ⟨hl,hp⟩ hev ht
    exact ⟨scanning_step hnodup hl hev ht,kept_step hl hev ht hid hp⟩
  exact (run_invariant_of_allSteps hstep ⟨hl,hp⟩ hevents h).2

/-- The monitor's own steps end the scan from wherever it stands. -/
theorem scanning_returns (hnodup : collected.Nodup) (hl : l.Scanning start collected) (i : MonitorInput) :
    ∃ v, run (step cfg storage) l (List.replicate l.engine.monitor.scanStepsLeft (.monitor i)) = some v ∧
      v.engine.monitor = .select := by
  induction hn : l.engine.monitor.scanStepsLeft generalizing l with
  | zero =>
    refine ⟨l,rfl,?_⟩
    by_contra hbusy
    obtain ⟨t,-,hleft⟩ := hl.engine.next storage hbusy i
    omega
  | succ n ih =>
    have hbusy : l.engine.monitor ≠ .select := fun hphase => by
      rw [hphase] at hn
      cases hn
    obtain ⟨e,he,hleft⟩ := hl.engine.next storage hbusy i
    have hstep : l.step cfg storage (.monitor i) = some ⟨e,l.takenUp,l.planIds⟩ := by
      simp [step, Engine.built, Engine.takesUp, Engine.step, he]
    obtain ⟨v,hv,hdone⟩ := ih (scanning_step hnodup hl rfl hstep) (by dsimp only; omega)
    exact ⟨v,run_cons_eq_some.mpr ⟨_,hstep,hv⟩,hdone⟩

/-- From the collecting section on, whatever plans the detector inserts, the scan comes to
an end, and then it has sent one request for each plan of the map that was older than
its timeout, has removed and counted exactly these, and every other plan that was in
the map at some moment of the scan is still there as it was. -/
theorem scan_cancels_expired {c : Ledger} {now : Instant} {i : MonitorInput} {events : List EngineEvent}
    (hfresh : l.Fresh) (hscan : l.engine.monitor = .scanning now)
    (hcollect : l.step cfg storage (.monitor i) = some c)
    (hevents : AllSteps (step cfg storage) (fun l ev => l.scanStep ev = true) c events)
    (h : run (step cfg storage) c events = some u) :
    (∃ v, run (step cfg storage) u (List.replicate u.engine.monitor.scanStepsLeft (.monitor i)) = some v ∧
      v.engine.monitor = .select) ∧
    (u.engine.monitor = .select → ∃ cancelled : List String, cancelled.Nodup ∧
      (∀ id, id ∈ cancelled ↔
        ∃ p, l.engine.inflight.lookup id = some p ∧ p.timeoutMs < p.ageMs now) ∧
      u.engine.execCancelTx = l.engine.execCancelTx ++ cancelled.map (fun id => ⟨id,none⟩) ∧
      u.engine.metrics.plansCancelled = l.engine.metrics.plansCancelled + cancelled.length ∧
      (∀ id ∈ cancelled, id ∉ u.engine.inflight) ∧
      ∀ before after m, events = before ++ after → run (step cfg storage) c before = some m →
        ∀ id p, id ∉ cancelled → m.engine.inflight.lookup id = some p →
          u.engine.inflight.lookup id = some p) := by
  obtain ⟨horder,-,hstart⟩ := scanning_start hfresh hscan hcollect
  have hnodup : i.order.Nodup := horder.nodup_iff.mpr (nodup_timedOut _ _)
  have hu := scanning_run hnodup hstart hevents h
  refine ⟨scanning_returns hnodup hu i,fun hdone => ⟨i.order,hnodup,fun id => ?_,?_,?_,?_,?_⟩⟩
  · exact horder.mem_iff.trans (mem_timedOut _ _)
  · have hsent := hu.engine.sent
    rw [hdone] at hsent
    exact (List.append_nil _).symm.trans hsent
  · have hcounted := hu.engine.counted
    rwa [hdone] at hcounted
  · intro id hid hmem
    have hleft := (hu.engine.inMap id hid).mp hmem
    rw [hdone] at hleft
    exact absurd hleft List.not_mem_nil
  · rintro before after m rfl hm id p hid hp
    obtain ⟨m',hm',hafter⟩ := run_append_eq_some.mp h
    cases hm.symm.trans hm'
    obtain ⟨hbefore,hafterSteps⟩ := (allSteps_append hm).mp hevents
    exact kept_run hnodup (scanning_run hnodup hstart hbefore hm) hafterSteps hafter hid hp

def oneExpired : Ledger where
  engine := { Engine.new with
    inflight := AList.insert "p1" ⟨⟨"p1","USDT",1,1,[]⟩,[],0,1500⟩
      (AList.insert "p2" ⟨⟨"p2","USDT",1,1,[]⟩,[],1900000000,1500⟩ ∅)
    detector := .planned ⟨"p3","USDT",1,1,[]⟩ []
    monitor := .scanning 2000000000 }
  takenUp := 1
  planIds := ["p1","p2","p3"]

theorem oneExpired_fresh : oneExpired.Fresh := by
  constructor
  · intro id hid
    simp only [oneExpired, AList.mem_insert] at hid
    rcases hid with rfl | rfl | hid
    · decide
    · decide
    · exact absurd hid (AList.notMem_empty id)
  · rintro _ _ ⟨⟩
    decide +kernel

def collectedOne : Ledger :=
  { oneExpired with engine := { oneExpired.engine with monitor := .cancelling ["p1"] } }

def insertedMeanwhile : List EngineEvent :=
  [.monitor ⟨true,[]⟩,.detector ⟨"",2000000001,true⟩,.monitor ⟨true,[]⟩,.monitor ⟨true,[]⟩,
    .monitor ⟨true,[]⟩]

theorem scan_cancels_expired_insertedMeanwhile :
    ∃ u, run (step plainConfig false) collectedOne insertedMeanwhile = some u ∧
      (∃ cancelled : List String, "p1" ∈ cancelled ∧
        u.engine.execCancelTx = [] ++ cancelled.map (fun id => ⟨id,none⟩) ∧
        u.engine.metrics.plansCancelled = 0 + cancelled.length) ∧
      "p1" ∉ u.engine.inflight ∧ "p2" ∈ u.engine.inflight ∧ "p3" ∈ u.engine.inflight := by
  have hcollect : oneExpired.step plainConfig false (.monitor ⟨true,["p1"]⟩) = some collectedOne := by
    rfl
  have hevents : AllSteps (step plainConfig false) (fun l ev => l.scanStep ev = true) collectedOne
      insertedMeanwhile := by
    decide +kernel
  obtain ⟨u,hu,hdone,hsecond,hthird⟩ : ∃ u,
      run (step plainConfig false) collectedOne insertedMeanwhile = some u ∧
        u.engine.monitor = .select ∧ "p2" ∈ u.engine.inflight ∧ "p3" ∈ u.engine.inflight :=
    ⟨(run (step plainConfig false) collectedOne insertedMeanwhile).get (by decide +kernel),
      (Option.some_get _).symm,rfl,by decide +kernel,by decide +kernel⟩
  obtain ⟨cancelled,-,hexpired,hsent,hcounted,hremoved,-⟩ :=
    (scan_cancels_expired oneExpired_fresh rfl hcollect hevents hu).2 hdone
  have hfirst : "p1" ∈ cancelled := (hexpired "p1").mpr ⟨_,AList.lookup_insert _,by decide +kernel⟩
  exact ⟨u,hu,⟨cancelled,hfirst,hsent,hcounted⟩,hremoved "p1" hfirst,hsecond,hthird⟩

end Ledger

end ArbCore
