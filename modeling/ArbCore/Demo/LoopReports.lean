import ArbCore.Demo.LoopChannels

/-! # Reports in the trading loop

The reports that reach the engine are outcomes of the legs of plans that it sent, at most
one for each leg and in the order of the legs. As long as a plan is in the map nothing
disturbs its worker. In aggressive mode it therefore leaves the map by its last full fill
or by a scan, and only a scan asks for a cancel. In passive mode its first report ends it.
-/
namespace ArbCore
open LabelledRun

theorem foldl_bind_none {α β : Type*} (f : α → β → Option α) (l : List β) :
    l.foldl (fun o b => o.bind (f · b)) none = none := by
  induction l with
  | nil => rfl
  | cons b l ih => exact ih

theorem applyReport_partiallyFilled {infl : HashMap InFlightPlan} {report : ExecutionReport} {p : InFlightPlan}
    (hp : infl.lookup report.planId = some p) (hstatus : report.status = .partiallyFilled) :
    applyReport infl report = (infl.erase report.planId,[cancelAll report.planId],true) := by
  simp [applyReport, hp, ExecutionReport.consequence, hstatus, cancelAll]

namespace TradingLoop
variable {cfg : StrategyConfig} {storage : Bool} {s t : TradingLoop} {ev : TradingEvent}

section Outcomes
variable {plan : TradePlan}

theorem handled_prefix (s : TradingLoop) : s.handled <+: s.reportTx := List.take_prefix _ _

theorem Coupled.sent_of_worker (hs : s.Coupled cfg) {i : ℕ} {w : PlanWorker} (hw : s.workers[i]? = some w) :
    w.plan ∈ s.engine.execTx :=
  hs.channels.plans.subset (List.mem_of_getElem? (hs.parties.wired.plans i w hw))

theorem Coupled.eq_of_id (hs : s.Coupled cfg) {plan plan' : TradePlan} (hplan : plan ∈ s.engine.registeredPlans)
    (hplan' : plan' ∈ s.engine.registeredPlans) (hid : plan.id = plan'.id) : plan = plan' :=
  List.inj_on_of_nodup_map hs.parties.accounted.distinct.ids hplan hplan' hid

theorem Coupled.worker_of_report (hs : s.Coupled cfg) (hplan : plan ∈ s.engine.registeredPlans)
    {r : ExecutionReport} (hr : r ∈ s.reportTx) (hid : r.planId = plan.id) :
    ∃ (i : ℕ) (w : PlanWorker), s.workers[i]? = some w ∧ w.plan = plan := by
  obtain ⟨i,w,hw,hwid⟩ := hs.channels.owned r hr
  exact ⟨i,w,hw,hs.eq_of_id (Engine.mem_registeredPlans_of_sent (hs.sent_of_worker hw)) hplan (hwid.trans hid)⟩

/-- What arrived of a plan are the first reports of its worker, if there is one. -/
theorem Coupled.reportsOf_cases (hs : s.Coupled cfg) (hplan : plan ∈ s.engine.registeredPlans) :
    reportsOf plan.id s.reportTx = [] ∨ ∃ (i : ℕ) (w : PlanWorker), s.workers[i]? = some w ∧ w.plan = plan ∧
      reportsOf plan.id s.reportTx <+: w.reports := by
  cases hreports : reportsOf plan.id s.reportTx with
  | nil => exact .inl rfl
  | cons r rest =>
    have hmem : r ∈ reportsOf plan.id s.reportTx := by
      rw [hreports]
      exact List.mem_cons_self
    obtain ⟨hr,hid⟩ := List.mem_filter.mp hmem
    obtain ⟨i,w,hw,rfl⟩ := hs.worker_of_report hplan hr (of_decide_eq_true hid)
    rw [← hreports, hs.channels.delivered i w hw]
    exact .inr ⟨i,w,hw,rfl,List.take_prefix _ _⟩

theorem Coupled.reportsOf_eq_nil (hs : s.Coupled cfg) {planId : String}
    (hnot : planId ∉ s.engine.registeredPlans.map TradePlan.id) : reportsOf planId s.reportTx = [] := by
  refine List.filter_eq_nil_iff.mpr fun r hr hid => hnot ?_
  obtain ⟨i,w,hw,hwid⟩ := hs.channels.owned r hr
  rw [← of_decide_eq_true hid, ← hwid]
  exact List.mem_map_of_mem (Engine.mem_registeredPlans_of_sent (hs.sent_of_worker hw))

/-- The first reports of a plan are the outcomes of its first legs. -/
theorem Coupled.outcomes (hs : s.Coupled cfg) (hplan : plan ∈ s.engine.registeredPlans)
    {reports : List ExecutionReport} (hreports : reports <+: reportsOf plan.id s.reportTx) :
    reports.length ≤ plan.legs.length ∧ List.Forall₂ (Outcome plan) (plan.legs.take reports.length) reports := by
  rcases hs.reportsOf_cases hplan with hnil | ⟨i,w,hw,rfl,hpre⟩
  · rw [hnil, List.prefix_nil] at hreports
    subst hreports
    exact ⟨Nat.zero_le _,.nil⟩
  · have houtcomes := (hs.parties.quiet i w hw).1
    have hpre := hreports.trans hpre
    have hle := hpre.length_le.trans houtcomes.length_reports_le
    refine ⟨hle,List.forall₂_iff_get.mpr ⟨List.length_take_of_le hle,fun n hn hn' => ?_⟩⟩
    obtain ⟨leg,hleg,houtcome⟩ := houtcomes.getElem? (List.prefix_iff_getElem?.mp hpre n hn')
    obtain ⟨hlt,rfl⟩ := List.getElem?_eq_some_iff.mp hleg
    simpa using houtcome

end Outcomes

section Served

def replay (cfg : StrategyConfig) (plan : TradePlan) (now : Instant) (reports : List ExecutionReport) :
    Option InFlightPlan :=
  reports.foldl (fun o r => o.bind (·.react r)) (some (.register cfg plan now))

theorem replay_concat (plan : TradePlan) (now : Instant) (reports : List ExecutionReport) (r : ExecutionReport) :
    replay cfg plan now (reports ++ [r]) = (replay cfg plan now reports).bind (·.react r) := by
  simp [replay]

def handledOf (s : TradingLoop) (planId : String) : List ExecutionReport := reportsOf planId s.handled

theorem handledOf_prefix (s : TradingLoop) (planId : String) : s.handledOf planId <+: reportsOf planId s.reportTx :=
  s.handled_prefix.filter _

/-- A plan in the map has seen its reports and nothing else. One that is not there any more
was asked to be cancelled, or ended by its reports in aggressive mode. -/
structure Served (cfg : StrategyConfig) (s : TradingLoop) : Prop where
  inflight : ∀ plan ∈ s.engine.registeredPlans, ∀ p, s.engine.inflight.lookup plan.id = some p →
    ∃ now, replay cfg plan now (s.handledOf plan.id) = some p
  left : ∀ plan ∈ s.engine.registeredPlans, plan.id ∉ s.engine.inflight →
    cancelAll plan.id ∈ s.engine.execCancelTx ∨
      cfg.aggression = .aggressive ∧ ∃ now, replay cfg plan now (s.handledOf plan.id) = none
  requests : s.engine.execCancelTx.length =
    s.engine.asked + if cfg.aggression = .aggressive then 0 else s.engine.ended

theorem served_new (cfg : StrategyConfig) : new.Served cfg :=
  ⟨nofun,nofun,by cases cfg.aggression <;> rfl⟩

theorem Served.of_same (hs : s.Served cfg) (hplans : t.engine.registeredPlans = s.engine.registeredPlans)
    (hmap : t.engine.inflight = s.engine.inflight) (hsent : s.engine.execCancelTx <+: t.engine.execCancelTx)
    (hhandled : t.handled = s.handled)
    (hcount : t.engine.execCancelTx.length + s.engine.asked = s.engine.execCancelTx.length + t.engine.asked ∧
      t.engine.ended = s.engine.ended) : t.Served cfg := by
  refine ⟨?_,?_,?_⟩
  · rw [hplans, hmap]
    simp only [handledOf, hhandled]
    exact hs.inflight
  · rw [hplans, hmap]
    simp only [handledOf, hhandled]
    exact fun plan hplan hmem => (hs.left plan hplan hmem).imp_left fun hc => hsent.subset hc
  · have hrequests := hs.requests
    rw [hcount.2]
    omega

/-- A report that the monitor holds is the outcome of the next leg of a plan that was sent, and
no cancel if the plan is in the map. -/
theorem Coupled.held (hs : s.Coupled cfg) {report : ExecutionReport}
    (hheld : s.engine.monitor.held? = some report) :
    ∃ plan ∈ s.engine.execTx, plan.id = report.planId ∧
      ∃ leg, plan.legs[(s.handledOf plan.id).length]? = some leg ∧ Outcome plan leg report ∧
        (report.planId ∈ s.engine.inflight → report.status ≠ .cancelled) := by
  have htake := hs.channels.held
  rw [hheld, Option.toList_some] at htake
  have hpre : s.handled ++ [report] <+: s.reportTx := htake ▸ List.take_prefix _ _
  obtain ⟨i,w,hw,hid⟩ := hs.channels.owned report
    (hpre.subset (List.mem_append_right _ (List.mem_singleton_self _)))
  have hreports : reportsOf w.plan.id s.handled ++ [report] <+: w.reports := by
    rw [hid, ← reportsOf_concat_self, ← hid]
    refine (hpre.filter _).trans (?_ : reportsOf w.plan.id s.reportTx <+: w.reports)
    rw [hs.channels.delivered i w hw]
    exact List.take_prefix _ _
  obtain ⟨houtcomes,hdisturbed⟩ := hs.parties.quiet i w hw
  have hreport : w.reports[(reportsOf w.plan.id s.handled).length]? = some report := by
    rw [List.prefix_iff_getElem?.mp hreports _ (by simp)]
    simp
  obtain ⟨leg,hleg,houtcome⟩ := houtcomes.getElem? hreport
  refine ⟨w.plan,hs.sent_of_worker hw,hid,leg,hleg,houtcome,fun hmem => ?_⟩
  have hphase : ∀ id rest, s.engine.monitor ≠ .removing id rest := by
    intro id rest hr
    rw [hr] at hheld
    cases hheld
  have hnotMem := hs.parties.accounted.cancels.notMem hphase
  rcases hdisturbed with ⟨c,hc,hcid⟩ | hw'
  · exact absurd (hcid.trans hid ▸ hmem) (hnotMem c (hs.channels.cancels.subset (List.mem_of_mem_take hc)))
  · exact hw'.uncancelled report (List.mem_of_getElem? hreport)

theorem handled_of_held {l : Ledger} (h : l.engine.monitor.held? = s.engine.monitor.held?) :
    handled { s with ledger := l } = s.handled :=
  congrArg (fun held : Option ExecutionReport => s.reportTx.take (s.received - held.toList.length)) h

theorem Channels.handled_applied (hs : s.Channels) {report : ExecutionReport} {l : Ledger}
    (hphase : s.engine.monitor = .applying report) (hnone : l.engine.monitor.held? = none) :
    handled { s with ledger := l } = s.handled ++ [report] := by
  have hheld := hs.held
  rw [hphase, MonitorPhase.held?, Option.toList_some] at hheld
  rw [← hheld]
  simp [handled, engine, hnone]

/-- The engine applies a report: in aggressive mode it fills its leg, in passive mode it ends
its plan with a request to cancel it. -/
theorem Served.applied (hs : s.Served cfg) (hc : s.Coupled cfg) {report : ExecutionReport} {l : Ledger}
    (hphase : s.engine.monitor = .applying report)
    (hl : l.engine = { s.engine with
      inflight := (applyReport s.engine.inflight report).1
      execCancelTx := s.engine.execCancelTx ++ (applyReport s.engine.inflight report).2.1
      monitor := if (applyReport s.engine.inflight report).2.2 then .executed else .select }) :
    Served cfg { s with ledger := l } := by
  have hhandled : handled { s with ledger := l } = s.handled ++ [report] := by
    refine hc.channels.handled_applied hphase ?_
    rw [hl]
    dsimp only
    split <;> rfl
  have hplans : l.engine.registeredPlans = s.engine.registeredPlans := by
    rw [hl]
    rfl
  obtain ⟨plan,hplan,hid,leg,hleg,houtcome,hstatus⟩ := hc.held (hphase ▸ rfl : s.engine.monitor.held? = some report)
  have hplan := Engine.mem_registeredPlans_of_sent hplan
  have htaker := (hc.parties.accounted.built hplan).isTaker leg (List.mem_of_getElem? hleg)
  have hother : ∀ plan' ∈ s.engine.registeredPlans, plan'.id ≠ report.planId →
      (applyReport s.engine.inflight report).1.lookup plan'.id = s.engine.inflight.lookup plan'.id ∧
        reportsOf plan'.id (s.handled ++ [report]) = s.handledOf plan'.id := by
    intro plan' _ hne
    exact ⟨by rw [lookup_applyReport, if_neg hne.symm],reportsOf_concat_ne _ hne.symm⟩
  have hself : ∀ plan' ∈ s.engine.registeredPlans, plan'.id = report.planId → plan' = plan := fun plan' hplan' heq =>
    hc.eq_of_id hplan' hplan (heq.trans hid.symm)
  have hconcat : reportsOf plan.id (s.handled ++ [report]) = s.handledOf plan.id ++ [report] := by
    rw [hid]
    exact reportsOf_concat_self _ _
  have hrequests := hs.requests
  simp only [Engine.asked, Engine.ended, hphase, MonitorPhase.asked, MonitorPhase.ended] at hrequests
  refine ⟨?_,?_,?_⟩
  · simp only [engine, hplans, handledOf, hhandled]
    intro plan' hplan' p hp
    rw [hl] at hp
    by_cases heq : plan'.id = report.planId
    · cases hself plan' hplan' heq
      rw [lookup_applyReport, if_pos heq.symm] at hp
      obtain ⟨p',hp',hreact⟩ := Option.bind_eq_some_iff.mp hp
      obtain ⟨now,hreplay⟩ := hs.inflight _ hplan p' hp'
      refine ⟨now,?_⟩
      rw [hconcat, replay_concat, hreplay]
      exact hreact
    · obtain ⟨hlookup,hreports⟩ := hother plan' hplan' heq
      rw [hreports]
      exact hs.inflight plan' hplan' p (hlookup ▸ hp)
  · simp only [engine, hplans, handledOf, hhandled]
    intro plan' hplan' hnot
    rw [hl] at hnot ⊢
    by_cases heq : plan'.id = report.planId
    · cases hself plan' hplan' heq
      rw [hconcat]
      simp only [replay_concat]
      by_cases hmem : plan.id ∈ s.engine.inflight
      · obtain ⟨p,-,hp,hreact⟩ := exists_of_notMem_applyReport hmem hnot
        by_cases haggressive : cfg.aggression = .aggressive
        · obtain ⟨now,hreplay⟩ := hs.inflight plan hplan p hp
          refine .inr ⟨haggressive,now,?_⟩
          rw [hreplay]
          exact hreact
        · have hpassive : leg.isTaker = false := htaker.trans (decide_eq_false haggressive)
          have hpartial := houtcome.status_of_passive hpassive (hstatus (hid ▸ hmem))
          have hcancels : (applyReport s.engine.inflight report).2.1 = [cancelAll plan.id] := by
            rw [applyReport_partiallyFilled (hid ▸ hp) hpartial, hid]
          rw [hcancels]
          exact .inl (List.mem_append_right _ (List.mem_singleton_self _))
      · rcases hs.left plan hplan hmem with hcancel | ⟨haggressive,now,hreplay⟩
        · exact .inl (List.mem_append_left _ hcancel)
        · refine .inr ⟨haggressive,now,?_⟩
          rw [hreplay]
          rfl
    · obtain ⟨hlookup,hreports⟩ := hother plan' hplan' heq
      rw [hreports]
      have hnot' : plan'.id ∉ s.engine.inflight := by
        rw [← AList.lookup_eq_none] at hnot ⊢
        exact hlookup ▸ hnot
      exact (hs.left plan' hplan' hnot').imp_left fun hmem => List.mem_append_left _ hmem
  · change l.engine.execCancelTx.length = l.engine.asked + if cfg.aggression = .aggressive then 0 else l.engine.ended
    simp only [hl, Engine.asked, Engine.ended, List.length_append]
    cases hlookup : s.engine.inflight.lookup report.planId with
    | none =>
      simp only [applyReport_unknown hlookup]
      exact hrequests
    | some p =>
      have hmem : report.planId ∈ s.engine.inflight := AList.lookup_isSome.mp (hlookup ▸ rfl)
      by_cases haggressive : cfg.aggression = .aggressive
      · have hfilled := houtcome.eq_fullFill (htaker.trans (decide_eq_true haggressive)) (hstatus hmem)
        have hnone := applyReport_filled_cancels s.engine.inflight (hfilled ▸ rfl : report.status = .filled)
        rw [hnone]
        rw [if_pos haggressive] at hrequests ⊢
        cases (applyReport s.engine.inflight report).2.2 <;> exact hrequests
      · have hpassive : leg.isTaker = false := htaker.trans (decide_eq_false haggressive)
        simp only [applyReport_partiallyFilled hlookup (houtcome.status_of_passive hpassive (hstatus hmem)),
          if_neg haggressive, List.length_singleton, ↓reduceIte, MonitorPhase.asked, MonitorPhase.ended] at hrequests ⊢
        omega

theorem Served.registered (hs : s.Served cfg) (hc : s.Coupled cfg) {plan : TradePlan} {rest : List Opportunity}
    {now : Instant} {l : Ledger} (hphase : s.engine.detector = .planned plan rest)
    (hl : l.engine = { s.engine with
      inflight := s.engine.inflight.insert plan.id (.register cfg plan now), detector := .registered plan rest }) :
    Served cfg { s with ledger := l } := by
  have hhandled : handled { s with ledger := l } = s.handled := handled_of_held (hl ▸ rfl)
  have hplans : l.engine.registeredPlans = s.engine.registeredPlans ++ [plan] := by
    simp [hl, Engine.registeredPlans, hphase, DetectorPhase.registered?]
  have hnew := hc.parties.accounted.distinct.planned plan rest hphase
  have hnil : s.handledOf plan.id = [] := by
    refine List.prefix_nil.mp ?_
    rw [← hc.reportsOf_eq_nil hnew]
    exact s.handledOf_prefix _
  have hold : ∀ plan' ∈ s.engine.registeredPlans, plan'.id ≠ plan.id := fun plan' hplan' heq =>
    hnew (heq ▸ List.mem_map_of_mem hplan')
  refine ⟨?_,?_,?_⟩
  · simp only [engine, hplans, handledOf, hhandled]
    intro plan' hplan' p hp
    rw [hl] at hp
    rcases List.mem_append.mp hplan' with hplan' | hplan'
    · rw [AList.lookup_insert_ne (hold plan' hplan')] at hp
      exact hs.inflight plan' hplan' p hp
    · cases List.mem_singleton.mp hplan'
      rw [AList.lookup_insert] at hp
      refine ⟨now,?_⟩
      change replay cfg plan now (s.handledOf plan.id) = some p
      rw [hnil]
      exact hp
  · simp only [engine, hplans, handledOf, hhandled]
    intro plan' hplan' hnot
    rw [hl] at hnot ⊢
    rcases List.mem_append.mp hplan' with hplan' | hplan'
    · exact hs.left plan' hplan' fun hmem => hnot ((AList.mem_insert _).mpr (.inr hmem))
    · cases List.mem_singleton.mp hplan'
      exact absurd ((AList.mem_insert _).mpr (.inl rfl)) hnot
  · change l.engine.execCancelTx.length = l.engine.asked + if cfg.aggression = .aggressive then 0 else l.engine.ended
    rw [hl]
    exact hs.requests

theorem Served.removed (hs : s.Served cfg) (hc : s.Coupled cfg) {id : String} {rest : List String} {l : Ledger}
    (hphase : s.engine.monitor = .removing id rest) (hplans : l.engine.registeredPlans = s.engine.registeredPlans)
    (hmap : l.engine.inflight = s.engine.inflight.erase id) (hsent : l.engine.execCancelTx = s.engine.execCancelTx)
    (hhandled : handled { s with ledger := l } = s.handled)
    (hcount : l.engine.execCancelTx.length + s.engine.asked = s.engine.execCancelTx.length + l.engine.asked ∧
      l.engine.ended = s.engine.ended) : Served cfg { s with ledger := l } := by
  refine ⟨?_,?_,?_⟩
  · simp only [engine, hplans, hmap, handledOf, hhandled]
    exact fun plan hplan p hp => hs.inflight plan hplan p (MonitorLog.lookup_erase_eq_some hp)
  · simp only [engine, hplans, hmap, hsent, handledOf, hhandled]
    intro plan hplan hnot
    by_cases hid : plan.id = id
    · exact .inl (hid ▸ hc.parties.accounted.askedFirst id rest hphase)
    · exact hs.left plan hplan fun hmem => hnot (AList.mem_erase.mpr ⟨hid,hmem⟩)
  · have hrequests := hs.requests
    change l.engine.execCancelTx.length = l.engine.asked + if cfg.aggression = .aggressive then 0 else l.engine.ended
    rw [hcount.2]
    omega

theorem Served.step (hs : s.Served cfg) (hc : s.Coupled cfg) (h : s.step cfg storage ev = some t) :
    t.Served cfg := by
  have haccounted := hc.parties.accounted
  have hreceived : ∀ {report : ExecutionReport} {l : Ledger},
      Engine.Move cfg storage s.engine (.report report) l.engine → s.engine.monitor = .select ∧
        l.engine = { s.engine with monitor := .reported report } := by
    intro report l hmove
    generalize l.engine = e at hmove
    cases hmove with
    | report hphase => exact ⟨hphase,rfl⟩
  cases step_move h with
  | @engine ev' l hown hl =>
    obtain ⟨-,hmove,-⟩ := Ledger.step_eq_some hl
    have hev : ∀ report, ev' ≠ .report report := by
      rintro report rfl
      cases hown
    have hrequests := hmove.requests haccounted.cancels.removing
    rcases hmove.registration_cases (EngineEvent.channelsOpen_of_own hown) haccounted.distinct.running with
      ⟨plan,rest,now,hphase,hl'⟩ | ⟨i,-,hmonitor⟩ | ⟨hnot,hplans,hmap,hsent,-⟩
    · exact hs.registered hc hphase hl'
    · have hplans := Engine.monitorMove_registeredPlans hmonitor
      rcases hmonitor.map_cases with ⟨report,hphase,hl'⟩ | ⟨id,rest,hphase,hmap,hsent⟩ | ⟨hnot,hmap,hsent⟩
      · exact hs.applied hc hphase hl'
      · have hnot : ∀ report, s.engine.monitor ≠ .applying report := fun report happlying => by
          cases hphase.symm.trans happlying
        exact hs.removed hc hphase hplans hmap hsent (handled_of_held (hmove.held_eq hev hnot))
          (hrequests.resolve_left fun ⟨report,_,_,happlying⟩ => hnot report happlying)
      · exact hs.of_same hplans hmap hsent (handled_of_held (hmove.held_eq hev hnot))
          (hrequests.resolve_left fun ⟨report,_,_,happlying⟩ => hnot report happlying)
    · have hheld : l.engine.monitor.held? = s.engine.monitor.held? := by
        rcases hmove.held_cases with ⟨report,hreport,-⟩ | ⟨-,⟨i,hi⟩,-⟩ | ⟨-,hsame⟩
        · exact absurd hreport (hev report)
        · exact absurd hi (hnot i)
        · exact hsame
      exact hs.of_same hplans hmap (hsent ▸ List.prefix_rfl) (handled_of_held hheld)
        (hrequests.resolve_left fun ⟨_,i,hi,_⟩ => hnot i hi)
  | @receiveReport report l hlt hreport hl =>
    obtain ⟨hphase,hl'⟩ := hreceived (Ledger.step_eq_some hl).2.1
    refine hs.of_same ?_ ?_ ?_ ?_ ?_
    · simp only [engine, hl']
      rfl
    · simp only [engine, hl']
    · simp only [engine, hl']
      exact List.prefix_rfl
    · have hphase' : s.ledger.engine.monitor = .select := hphase
      simp [handled, engine, hl', hphase', MonitorPhase.held?]
    · have hphase' : s.ledger.engine.monitor = .select := hphase
      simp [engine, hl', Engine.asked, Engine.ended, hphase', MonitorPhase.asked, MonitorPhase.ended]
  | deliver hw hreport =>
    refine hs.of_same rfl rfl List.prefix_rfl ?_ ⟨rfl,rfl⟩
    exact List.take_append_of_le_length ((Nat.sub_le _ _).trans (hc.channels.received.trans hc.channels.forwarded))
  | _ => exact hs.of_same rfl rfl List.prefix_rfl rfl ⟨rfl,rfl⟩

end Served

theorem served_run {events : List TradingEvent} (h : run (step cfg storage) new events = some s) :
    s.Coupled cfg ∧ s.Served cfg :=
  @run_invariant _ _ (step cfg storage) (fun s => s.Coupled cfg ∧ s.Served cfg)
    (fun _ _ _ hs hstep => ⟨hs.1.step hstep,hs.2.step hs.1 hstep⟩) _ _ _ ⟨coupled_new cfg,served_new cfg⟩ h

end TradingLoop

end ArbCore
