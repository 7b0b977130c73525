import ArbCore.Execution.LegReports

/-! # What a cancel stops

The signal is consumed by the leg that sees it, and the loop goes on. The legs
after it find an empty receiver: a taker leg is filled as if nothing had happened,
a passive leg awaits a resolved receiver and panics.
-/
namespace ArbCore
open Oneshot LabelledRun

namespace PlanWorker
variable {w t : PlanWorker} {ev : WorkerEvent}

/-- The reports are about the legs in order, and the rest is still awaited. -/
def Follows (w : PlanWorker) : Prop :=
  ∃ legs, w.phase.Awaits w.plan legs ∧
    w.reports.map ExecutionReport.legIdx ++ legs.map OrderLeg.legIdx =
      w.plan.legs.map OrderLeg.legIdx

theorem LegReports.follows {plan : TradePlan} (h : LegReports plan w) : w.Follows := by
  obtain ⟨rfl,done,legs,hlegs,hawaits,hcovers⟩ := h
  exact ⟨legs,hawaits,by rw [hlegs, List.map_append, Covers.map_legIdx hcovers]⟩

/-- Whatever is reported after a cancelled leg is cancelled with nothing filled. -/
def LaterCancelled (reports : List ExecutionReport) : Prop :=
  reports.Pairwise fun r r' => r.status = .cancelled → r'.status = .cancelled ∧ r'.filledQty = 0

structure CancelStops (w : PlanWorker) : Prop where
  later : LaterCancelled w.reports
  complete : w.Ended → (∃ r ∈ w.reports, r.status = .cancelled) →
    w.reports.map ExecutionReport.legIdx = w.plan.legs.map OrderLeg.legIdx

/-- The step consumes the receiver as a cancel while further legs follow. -/
def TakesEarly (w : PlanWorker) : WorkerEvent → Prop
  | .check => w.rx = .ready () ∧ ∃ leg leg' rest, w.phase = .checking (leg :: leg' :: rest)
  | .select false => w.rx ≠ .taken ∧ ∃ leg leg' rest, w.phase = .selecting leg (leg' :: rest)
  | _ => False

section NeverEarly

/-- Only the last report can be a cancellation, and none of the legs follows it. -/
structure CancelsLast (w : PlanWorker) : Prop where
  last : w.reports.Pairwise fun r _ => r.status ≠ .cancelled
  ends : (∃ r ∈ w.reports, r.status = .cancelled) → w.phase = .checking [] ∨ w.phase = .finished

theorem cancelsLast_start (plan : TradePlan) : (start plan).CancelsLast :=
  ⟨List.Pairwise.nil,fun ⟨_,hr,_⟩ => absurd hr List.not_mem_nil⟩

theorem CancelsLast.none_cancelled (h : w.CancelsLast) (hchecking : w.phase ≠ .checking [])
    (hfinished : w.phase ≠ .finished) : ∀ r ∈ w.reports, r.status ≠ .cancelled := by
  intro r hr hcancelled
  rcases h.ends ⟨r,hr,hcancelled⟩ with hphase | hphase
  · exact hchecking hphase
  · exact hfinished hphase

theorem CancelsLast.report (hnone : ∀ r ∈ w.reports, r.status ≠ .cancelled) {leg : OrderLeg}
    {rest : List OrderLeg} {filled remaining : Decimal} {status : ExecStatus}
    (hstatus : status = .cancelled → rest = []) :
    (w.report leg rest filled remaining status).CancelsLast := by
  refine ⟨?_,?_⟩
  · refine List.pairwise_append.mpr ⟨?_,List.pairwise_singleton _ _,fun r hr _ _ => hnone r hr⟩
    exact List.Pairwise.imp_of_mem (fun hr _ _ => hnone _ hr) (List.pairwise_of_forall fun _ _ => trivial)
  · rintro ⟨r,hr,hcancelled⟩
    rcases List.mem_append.mp hr with hr | hr
    · exact absurd hcancelled (hnone r hr)
    · cases List.mem_singleton.mp hr
      exact .inl (congrArg WorkerPhase.checking (hstatus hcancelled))

theorem cancelsLast_move (h : w.CancelsLast) (hearly : ¬ w.TakesEarly ev) (hmove : Move w ev t) :
    t.CancelsLast := by
  have hnone : ∀ {leg rest}, w.phase = .checking (leg :: rest) ∨ w.phase = .sleeping leg rest ∨
      w.phase = .selecting leg rest → ∀ r ∈ w.reports, r.status ≠ .cancelled := by
    intro leg rest hphase
    refine h.none_cancelled ?_ ?_
    · rcases hphase with hphase | hphase | hphase <;> simp [hphase]
    · rcases hphase with hphase | hphase | hphase <;> simp [hphase]
  cases hmove with
  | register hphase =>
    refine ⟨h.last,fun hc => ?_⟩
    rcases h.ends hc with hends | hends <;> simp [hphase] at hends
  | signal => exact ⟨h.last,h.ends⟩
  | senderDropped => exact ⟨h.last,h.ends⟩
  | @checkCancelled leg rest hphase hrx =>
    refine CancelsLast.report (w := { w with rx := .taken }) (hnone (.inl hphase)) fun _ => ?_
    cases rest with
    | nil => rfl
    | cons leg' rest => exact absurd ⟨hrx,leg,leg',rest,hphase⟩ hearly
  | sleep hphase _ =>
    exact ⟨h.last,fun ⟨r,hr,hc⟩ => absurd hc (hnone (.inl hphase) r hr)⟩
  | select hphase _ =>
    exact ⟨h.last,fun ⟨r,hr,hc⟩ => absurd hc (hnone (.inl hphase) r hr)⟩
  | filled hphase =>
    exact CancelsLast.report (hnone (.inr (.inl hphase))) fun hc => by cases hc
  | unfilled hphase _ =>
    exact CancelsLast.report (hnone (.inr (.inr hphase))) fun hc => by cases hc
  | @selectCancelled leg rest hphase hrx =>
    refine CancelsLast.report (w := { w with rx := .taken }) (hnone (.inr (.inr hphase))) fun _ => ?_
    cases rest with
    | nil => rfl
    | cons leg' rest => exact absurd ⟨hrx,leg,leg',rest,hphase⟩ hearly
  | panicked hphase _ =>
    exact ⟨h.last,fun ⟨r,hr,hc⟩ => absurd hc (hnone (.inr (.inr hphase)) r hr)⟩
  | cleanup _ => exact ⟨h.last,fun _ => .inr rfl⟩

theorem CancelsLast.cancelStops (h : w.CancelsLast) (hfollows : w.Follows) : w.CancelStops := by
  refine ⟨h.last.imp fun hr hc => absurd hc hr,fun hended hc => ?_⟩
  obtain ⟨legs,hlegs,hmap⟩ := hfollows
  have hfinished : w.phase = .finished := by
    rcases hended with hphase | hphase
    · exact hphase
    · rcases h.ends hc with hends | hends <;> simp [hphase] at hends
  rw [hfinished] at hlegs
  subst hlegs
  simpa using hmap

end NeverEarly

section Early

/-- A cancel was consumed and a later leg is not, or will not be, reported as
cancelled. -/
structure Missed (w : PlanWorker) : Prop where
  taken : w.rx = .taken
  cancelled : ∃ r ∈ w.reports, r.status = .cancelled
  missed : ¬ LaterCancelled w.reports ∨ w.phase = .panicked ∨ ∃ leg rest,
    w.phase = .checking (leg :: rest) ∨ w.phase = .sleeping leg rest ∨ w.phase = .selecting leg rest

theorem missed_of_takesEarly (hearly : w.TakesEarly ev) (hmove : Move w ev t) : t.Missed := by
  cases hmove with
  | @checkCancelled leg rest hphase hrx =>
    obtain ⟨-,leg',leg'',rest',hphase'⟩ := hearly
    cases hphase.symm.trans hphase'
    exact ⟨rfl,⟨_,List.mem_append_right _ (List.mem_singleton_self _),rfl⟩,
      .inr (.inr ⟨_,_,.inl rfl⟩)⟩
  | @selectCancelled leg rest hphase hrx =>
    obtain ⟨-,leg',leg'',rest',hphase'⟩ := hearly
    cases hphase.symm.trans hphase'
    exact ⟨rfl,⟨_,List.mem_append_right _ (List.mem_singleton_self _),rfl⟩,
      .inr (.inr ⟨_,_,.inl rfl⟩)⟩
  | sleep _ hrx => exact absurd hearly.1 hrx
  | select _ hrx => exact absurd hearly.1 hrx
  | @panicked leg rest timerFirst _ hrx =>
    cases timerFirst with
    | true => exact hearly.elim
    | false => exact absurd hrx hearly.1
  | register _ => exact hearly.elim
  | signal => exact hearly.elim
  | senderDropped => exact hearly.elim
  | filled _ => exact hearly.elim
  | unfilled _ _ => exact hearly.elim
  | cleanup _ => exact hearly.elim

theorem not_laterCancelled_report {leg : OrderLeg} {rest : List OrderLeg} {filled remaining : Decimal}
    {status : ExecStatus} (h : ∃ r ∈ w.reports, r.status = .cancelled) (hstatus : status ≠ .cancelled) :
    ¬ LaterCancelled (w.report leg rest filled remaining status).reports := by
  intro hall
  obtain ⟨r,hr,hcancelled⟩ := h
  have hlast := (List.pairwise_append.mp hall).2.2 r hr _ (List.mem_singleton_self _) hcancelled
  exact hstatus hlast.1

theorem missed_move (h : w.Missed) (hmove : Move w ev t) : t.Missed := by
  obtain ⟨htaken,hcancelled,hmissed⟩ := h
  have hgrow : ∀ more, (∃ r ∈ w.reports ++ more, r.status = ExecStatus.cancelled) := fun more =>
    hcancelled.imp fun r hr => ⟨List.mem_append_left _ hr.1,hr.2⟩
  cases hmove with
  | register hphase =>
    refine ⟨htaken,hcancelled,.inl ?_⟩
    simpa [hphase] using hmissed
  | signal => exact ⟨by simp [htaken],hcancelled,hmissed⟩
  | senderDropped => exact ⟨by simp [htaken],hcancelled,hmissed⟩
  | checkCancelled _ hrx => exact absurd (htaken.symm.trans hrx) (by simp)
  | sleep hphase _ => exact ⟨by simp [htaken],hcancelled,.inr (.inr ⟨_,_,.inr (.inl rfl)⟩)⟩
  | select hphase _ => exact ⟨by simp [htaken],hcancelled,.inr (.inr ⟨_,_,.inr (.inr rfl)⟩)⟩
  | filled hphase =>
    exact ⟨htaken,hgrow _,.inl (not_laterCancelled_report hcancelled (by simp))⟩
  | unfilled _ hrx => exact absurd htaken hrx
  | selectCancelled _ hrx => exact absurd htaken hrx
  | panicked _ _ => exact ⟨htaken,hcancelled,.inr (.inl rfl)⟩
  | cleanup hphase =>
    refine ⟨by simp [htaken],hcancelled,.inl ?_⟩
    simpa [hphase] using hmissed

theorem Missed.not_cancelStops (h : w.Missed) (hfollows : w.Follows) (hended : w.Ended) :
    ¬ w.CancelStops := by
  intro hstops
  obtain ⟨legs,hlegs,hmap⟩ := hfollows
  have hpanicked : w.phase = .panicked := by
    rcases h.missed with hnot | hphase | ⟨leg,rest,hphase⟩
    · exact absurd hstops.later hnot
    · exact hphase
    · rcases hended with hend | hend <;> simp [hend] at hphase
  have hnone := hstops.complete hended h.cancelled
  rw [hpanicked] at hlegs
  rw [hnone, List.append_right_eq_self, List.map_eq_nil_iff] at hmap
  exact hlegs hmap

end Early

/-- A cancel stops the plan in every run in which no step takes it while further
legs follow, and of the runs that end in no other. -/
theorem cancelStops_of_never_early (plan : TradePlan) {events : List WorkerEvent}
    (h : run step (start plan) events = some w) :
    (AllSteps step (fun s ev => ¬ s.TakesEarly ev) (start plan) events → w.CancelStops) ∧
      (w.Ended → w.CancelStops →
        AllSteps step (fun s ev => ¬ s.TakesEarly ev) (start plan) events) := by
  have hfollows : w.Follows := (legReports_run h).follows
  constructor
  · intro hall
    have hlast : w.CancelsLast := run_invariant_of_allSteps
      (fun _ _ _ hs hearly hstep => cancelsLast_move hs hearly (step_move hstep))
      (cancelsLast_start plan) hall h
    exact hlast.cancelStops hfollows
  · intro hended hstops
    by_contra hall
    obtain ⟨before,ev,after,s,v,-,-,hearly,hstep,hafter⟩ := exists_step_of_not_allSteps hall h
    have hmissed : v.Missed := missed_of_takesEarly (not_not.mp hearly) (step_move hstep)
    have hend : w.Missed := run_invariant (fun _ _ _ hs hstep => missed_move hs (step_move hstep))
      hmissed hafter
    exact hend.not_cancelStops hfollows hended hstops

def twoLegPlan : TradePlan :=
  ⟨"p1","USDT",1,1,[⟨"ETHBTC",false,1,5,true,0⟩,⟨"BTCUSDT",false,1,7,true,1⟩]⟩

theorem cancelStops_of_never_early_twoLegPlan :
    CancelStops ⟨twoLegPlan,.finished,false,.taken,[⟨"p1",0,5,0,.filled⟩,⟨"p1",1,0,7,.cancelled⟩]⟩ := by
  refine (@cancelStops_of_never_early _ twoLegPlan
    [.register,.check,.timer,.signal,.check,.cleanup] rfl).1 ?_
  have hwaiting : ¬ TakesEarly ⟨twoLegPlan,.checking twoLegPlan.legs,true,.waiting,[]⟩ .check :=
    fun h => nomatch h.1
  have hlast : ¬ TakesEarly ⟨twoLegPlan,.checking [⟨"BTCUSDT",false,1,7,true,1⟩],false,.ready (),
      [⟨"p1",0,5,0,.filled⟩]⟩ .check :=
    fun ⟨_,_,_,_,h⟩ => nomatch h
  exact .intro id rfl (.intro hwaiting rfl (.intro id rfl (.intro id rfl (.intro hlast rfl
    (.intro id rfl trivial)))))

theorem twoLegPlan_filled_after_cancel :
    ∃ w, run step (start twoLegPlan) [.register,.signal,.check,.check,.timer,.cleanup] = some w ∧
      w.reports = [⟨"p1",0,0,5,.cancelled⟩,⟨"p1",1,7,0,.filled⟩] ∧ ¬ w.CancelStops := by
  refine ⟨⟨twoLegPlan,.finished,false,.taken,[⟨"p1",0,0,5,.cancelled⟩,⟨"p1",1,7,0,.filled⟩]⟩,
    rfl,rfl,fun hstops => ?_⟩
  have hlater := (List.pairwise_cons.mp hstops.later).1 _ (List.mem_singleton_self _) rfl
  cases hlater.1

end PlanWorker

end ArbCore
