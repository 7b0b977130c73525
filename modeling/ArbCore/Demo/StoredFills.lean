import ArbCore.Demo.LoopOutcomes
import ArbCore.Strategy.PersistedFills

/-! # The rows of the trading loop

Storage holds at most one row for a leg of a plan, and the row is an outcome of the leg at
its price. In aggressive mode, when inserts succeed, an executed plan has a full row for
each of its legs, in their order.
-/
namespace ArbCore
open LabelledRun

def TradePlan.row (plan : TradePlan) (leg : OrderLeg) (report : ExecutionReport) : TradeFill :=
  ⟨plan.id,report.legIdx.toNat,leg.symbol,if leg.buyBase then "buy" else "sell",report.filledQty,leg.priceHint,
    report.filledQty * leg.priceHint,report.status.text,"binance"⟩

def TradePlan.fillRow (plan : TradePlan) (leg : OrderLeg) : TradeFill := plan.row leg (plan.fullFill leg)

def TradeFill.key (fill : TradeFill) : String × ℕ := (fill.planId,fill.legIdx)

def ExecutionReport.key (report : ExecutionReport) : String × ℕ := (report.planId,report.legIdx.toNat)

theorem storageData_of_lookup {infl : HashMap InFlightPlan} {report : ExecutionReport} {p : InFlightPlan}
    {leg : OrderLeg} (hp : infl.lookup report.planId = some p) (hid : p.plan.id = report.planId)
    (hleg : p.plan.legs[report.legIdx.toNat]? = some leg) : storageData infl report = some (p.plan.row leg report) := by
  simp [storageData, hp, hleg, hid, TradePlan.row]

def MonitorPhase.unstored : MonitorPhase → ℕ
  | .reported _ | .storing .. => 1
  | _ => 0

namespace Engine
variable {cfg : StrategyConfig} {storage : Bool} {e t : Engine} {ev : EngineEvent}

/-- Only one step of the monitor inserts rows. -/
theorem Move.fills_cases (h : Move cfg storage e ev t) (hown : ∀ report, ev ≠ .report report) :
    (∃ report data i, ev = .monitor i ∧ e.monitor = .storing report data ∧
      t = { e with
        fills := e.fills ++ (if storage && i.insertOk then data.toList else []), monitor := .applying report }) ∨
    ((∀ i, ev = .monitor i → ∀ report data, e.monitor ≠ .storing report data) ∧ t.fills = e.fills ∧
      t.monitor.unstored = e.monitor.unstored) := by
  cases h with
  | report _ => exact absurd rfl (hown _)
  | reportsClosed hphase => exact .inr ⟨fun _ hev => EngineEvent.noConfusion hev,rfl,by rw [hphase]; rfl⟩
  | tick hphase => exact .inr ⟨fun _ hev => EngineEvent.noConfusion hev,rfl,by rw [hphase]; rfl⟩
  | view _ => exact .inr ⟨fun _ hev => EngineEvent.noConfusion hev,rfl,rfl⟩
  | viewsClosed _ => exact .inr ⟨fun _ hev => EngineEvent.noConfusion hev,rfl,rfl⟩
  | detector hmove =>
    obtain ⟨hmonitor,-,hfills⟩ := detectorMove_frame hmove
    exact .inr ⟨fun _ hev => EngineEvent.noConfusion hev,hfills,congrArg _ hmonitor⟩
  | monitor hmove =>
    cases hmove with
    | stored hphase => exact .inl ⟨_,_,_,rfl,hphase,rfl⟩
    | applied hphase =>
      refine .inr ⟨(fun _ _ _ _ hs => by cases hphase.symm.trans hs),rfl,?_⟩
      rw [hphase]
      dsimp only
      split <;> rfl
    | _ hphase => exact .inr ⟨(fun _ _ _ _ hs => by cases hphase.symm.trans hs),rfl,by rw [hphase]; rfl⟩

/-- What was looked up for a report is still so when it is stored. -/
def LookedUp (e : Engine) : Prop :=
  ∀ report data, e.monitor = .storing report data → data = storageData e.inflight report

theorem Move.lookedUp (h : Move cfg storage e ev t) (he : e.LookedUp) (hrunning : e.Running)
    (hfresh : ∀ report data plan rest, e.monitor = .storing report data → e.detector = .planned plan rest →
      report.planId ≠ plan.id) : t.LookedUp := by
  intro report data hphase
  cases h with
  | view _ => exact he report data hphase
  | viewsClosed _ => exact he report data hphase
  | report _ => cases hphase
  | reportsClosed _ => cases hphase
  | tick _ => cases hphase
  | detector hmove =>
    cases hmove with
    | registered hplanned =>
      rw [he report data hphase, storageData, storageData,
        AList.lookup_insert_ne (hfresh report data _ _ hphase hplanned)]
    | unregistered hunsent => exact absurd hunsent (hrunning.unsent _ _)
    | _ => exact he report data hphase
  | monitor hmove =>
    cases hmove with
    | looked _ =>
      cases hphase
      rfl
    | applied _ =>
      dsimp only at hphase
      split at hphase <;> cases hphase
    | _ => cases hphase

end Engine

def TradingEvent.Inserts : TradingEvent → Prop
  | .engine ev => ev.Inserts
  | _ => True

namespace TradingLoop
variable {cfg : StrategyConfig} {storage : Bool} {s t : TradingLoop} {ev : TradingEvent}

/-- The reports whose rows have been inserted, as far as there are any. -/
def stored (s : TradingLoop) : List ExecutionReport := s.reportTx.take (s.received - s.engine.monitor.unstored)

theorem Coupled.stored_eq (hc : s.Coupled cfg) : s.stored = s.handled ++
    match s.engine.monitor with
    | .applying report => [report]
    | _ => [] := by
  have hheld := hc.channels.held
  cases hphase : s.engine.monitor with
  | applying report =>
    rw [hphase] at hheld
    rw [stored, hphase]
    exact hheld
  | _ => simp [stored, handled, hphase, MonitorPhase.unstored, MonitorPhase.held?]

/-- Each row is the row of an outcome, and of its own. -/
structure Rows (s : TradingLoop) : Prop where
  lookedUp : s.engine.LookedUp
  keys : (s.engine.fills.map TradeFill.key).Sublist (s.stored.map ExecutionReport.key)
  rows : ∀ fill ∈ s.engine.fills, ∃ plan ∈ s.engine.execTx, ∃ leg report,
    plan.legs[report.legIdx.toNat]? = some leg ∧ Outcome plan leg report ∧ fill = plan.row leg report

theorem rows_new : new.Rows := ⟨nofun,.slnil,nofun⟩

theorem Rows.of_same (hs : s.Rows) (hlookedUp : t.engine.LookedUp) (hfills : t.engine.fills = s.engine.fills)
    (hstored : t.stored = s.stored) (hsent : s.engine.execTx <+: t.engine.execTx) : t.Rows := by
  refine ⟨hlookedUp,hfills ▸ hstored ▸ hs.keys,fun fill hfill => ?_⟩
  obtain ⟨plan,hplan,hrest⟩ := hs.rows fill (hfills ▸ hfill)
  exact ⟨plan,hsent.subset hplan,hrest⟩

/-- The plan of a report that the monitor holds is found if it is in the map, and with it the
leg that the report is about. -/
theorem Coupled.storageData_eq (hc : s.Coupled cfg) {report : ExecutionReport}
    (hheld : s.engine.monitor.held? = some report) :
    ∃ plan ∈ s.engine.execTx, plan.id = report.planId ∧ ∃ leg, plan.legs[report.legIdx.toNat]? = some leg ∧
      report.legIdx.toNat = (s.handledOf plan.id).length ∧ Outcome plan leg report ∧
      (report.planId ∈ s.engine.inflight → report.status ≠ .cancelled) ∧
      storageData s.engine.inflight report =
        if report.planId ∈ s.engine.inflight then some (plan.row leg report) else none := by
  obtain ⟨plan,hplan,hid,leg,hleg,houtcome,hstatus⟩ := hc.held hheld
  have hregistered := Engine.mem_registeredPlans_of_sent hplan
  have hidx : report.legIdx.toNat = (s.handledOf plan.id).length := by
    rw [houtcome.legIdx]
    exact (hc.parties.accounted.built hregistered).legIdx_toNat hleg
  rw [← hidx] at hleg
  refine ⟨plan,hplan,hid,leg,hleg,hidx,houtcome,hstatus,?_⟩
  split_ifs with hmem
  · obtain ⟨p,hp⟩ := Option.isSome_iff_exists.mp (AList.lookup_isSome.mpr hmem)
    obtain ⟨hentry,hpid⟩ := hc.parties.accounted.distinct.entries _ p hp
    cases hc.eq_of_id hentry hregistered (hpid.trans hid.symm)
    exact storageData_of_lookup hp hpid hleg
  · simp [storageData, AList.lookup_eq_none.mpr hmem]

theorem Coupled.lookedUp_step (hc : s.Coupled cfg) (hs : s.engine.LookedUp) {ev' : EngineEvent} {l : Ledger}
    (hl : s.ledger.step cfg storage ev' = some l) : l.engine.LookedUp := by
  have haccounted := hc.parties.accounted
  refine (Ledger.step_eq_some hl).2.1.lookedUp hs haccounted.distinct.running ?_
  intro report data plan rest hphase hplanned heq
  obtain ⟨plan',hplan',hid,-⟩ := hc.held (hphase ▸ rfl : s.engine.monitor.held? = some report)
  refine haccounted.distinct.planned plan rest hplanned ?_
  exact (hid.trans heq) ▸ List.mem_map_of_mem (Engine.mem_registeredPlans_of_sent hplan')

theorem stored_of_unstored {l : Ledger} (h : l.engine.monitor.unstored = s.engine.monitor.unstored) :
    stored { s with ledger := l } = s.stored :=
  congrArg (fun n => s.reportTx.take (s.received - n)) h

theorem Rows.inserted (hs : s.Rows) (hc : s.Coupled cfg) {report : ExecutionReport} {data : Option TradeFill}
    {inserts : Bool} {l : Ledger} (hphase : s.engine.monitor = .storing report data)
    (hl : l.engine = { s.engine with
      fills := s.engine.fills ++ (if inserts then data.toList else []), monitor := .applying report })
    (hlookedUp : l.engine.LookedUp) (hc' : Coupled cfg { s with ledger := l }) :
    Rows { s with ledger := l } := by
  have hhandled : handled { s with ledger := l } = s.handled := by
    refine handled_of_held ?_
    rw [hl, hphase]
    rfl
  have hstored : stored { s with ledger := l } = s.stored ++ [report] := by
    rw [hc'.stored_eq, hhandled, hc.stored_eq, hphase]
    simp [engine, hl]
  obtain ⟨plan,hplan,hid,leg,hleg,-,houtcome,-,hdata⟩ := hc.storageData_eq
    (hphase ▸ rfl : s.engine.monitor.held? = some report)
  have hrow : ∀ fill ∈ (if inserts then data.toList else []), fill = plan.row leg report := by
    intro fill hfill
    rw [hs.lookedUp report data hphase, hdata] at hfill
    split_ifs at hfill with h1 h2
    · exact List.mem_singleton.mp hfill
    · cases hfill
    · cases hfill
  refine ⟨hlookedUp,?_,fun fill hfill => ?_⟩
  · rw [hstored]
    simp only [engine, hl, List.map_append]
    refine hs.keys.append ?_
    rcases hfills : (if inserts then data.toList else []) with _ | ⟨fill,rest⟩
    · exact List.nil_sublist _
    · have hnil : rest = [] := by
        have hlength : (if inserts then data.toList else []).length ≤ 1 := by
          cases inserts <;> cases data <;> simp
        rw [hfills, List.length_cons] at hlength
        exact List.length_eq_zero_iff.mp (by omega)
      have hfill := hrow fill (hfills ▸ List.mem_cons_self)
      rw [hnil, hfill]
      have hkey : (plan.row leg report).key = report.key := Prod.ext hid rfl
      simp [hkey]
  · simp only [engine, hl] at hfill ⊢
    rcases List.mem_append.mp hfill with hfill | hfill
    · exact hs.rows fill hfill
    · exact ⟨plan,hplan,leg,report,hleg,houtcome,hrow fill hfill⟩

theorem Rows.step (hs : s.Rows) (hc : s.Coupled cfg) (h : s.step cfg storage ev = some t) : t.Rows := by
  have hc' := hc.step h
  cases step_move h with
  | @engine ev' l hown hl =>
    have hmove := (Ledger.step_eq_some hl).2.1
    have hev : ∀ report, ev' ≠ .report report := by
      rintro report rfl
      cases hown
    have hlookedUp := hc.lookedUp_step hs.lookedUp hl
    rcases hmove.fills_cases hev with ⟨report,data,i,-,hphase,hl'⟩ | ⟨-,hfills,hunstored⟩
    · exact hs.inserted hc hphase hl' hlookedUp hc'
    · exact hs.of_same hlookedUp hfills (stored_of_unstored hunstored) hmove.sent_prefix.1
  | @receiveReport report l hlt hreport hl =>
    have hmove := (Ledger.step_eq_some hl).2.1
    have hlookedUp := hc.lookedUp_step hs.lookedUp hl
    have hsent := hmove.sent_prefix.1
    obtain ⟨hfills,hunstored⟩ : l.engine.fills = s.engine.fills ∧ s.engine.monitor.unstored = 0 ∧
        l.engine.monitor.unstored = 1 := by
      generalize l.engine = e at hmove
      cases hmove with
      | report hphase => exact ⟨rfl,by rw [engine, hphase]; rfl,rfl⟩
    refine hs.of_same hlookedUp hfills ?_ hsent
    simp only [stored, hunstored.1]
    simp [engine, hunstored.2]
  | deliver hw hreport =>
    refine hs.of_same hs.lookedUp rfl ?_ List.prefix_rfl
    exact List.take_append_of_le_length ((Nat.sub_le _ _).trans (hc.channels.received.trans hc.channels.forwarded))
  | _ => exact hs.of_same hs.lookedUp rfl rfl List.prefix_rfl

theorem rows_run {events : List TradingEvent} (h : run (step cfg storage) new events = some s) : s.Rows :=
  (@run_invariant _ _ (step cfg storage) (fun s => s.Coupled cfg ∧ s.Rows)
    (fun _ _ _ hs hstep => ⟨hs.1.step hstep,hs.2.step hs.1 hstep⟩) _ _ _ ⟨coupled_new cfg,rows_new⟩ h).2

section Full

def rowsOf (planId : String) (fills : List TradeFill) : List TradeFill := fills.filter fun fill => fill.planId = planId

/-- As long as the plan is in the map, or for good if nobody asks for a cancel, it has the full
row of each leg whose report has been stored. -/
def Full (s : TradingLoop) : Prop := ∀ plan ∈ s.engine.registeredPlans,
  (plan.id ∈ s.engine.inflight ∨ cancelAll plan.id ∉ s.engine.execCancelTx) →
  rowsOf plan.id s.engine.fills = (plan.legs.take (reportsOf plan.id s.stored).length).map plan.fillRow

theorem Full.of_same (hs : s.Full) (hc : s.Coupled cfg) (hrows : s.Rows)
    (hfills : t.engine.fills = s.engine.fills) (hstored : t.stored = s.stored)
    (hplans : ∀ plan ∈ t.engine.registeredPlans, plan.id ∉ s.engine.registeredPlans.map TradePlan.id ∨
      plan ∈ s.engine.registeredPlans ∧ (plan.id ∈ t.engine.inflight → plan.id ∈ s.engine.inflight))
    (hsent : s.engine.execCancelTx <+: t.engine.execCancelTx) : t.Full := by
  intro plan hplan hlive
  rw [hfills, hstored]
  rcases hplans plan hplan with hnew | ⟨hold,hinflight⟩
  · have hnone : rowsOf plan.id s.engine.fills = [] := by
      refine List.filter_eq_nil_iff.mpr fun fill hfill hid => hnew ?_
      obtain ⟨plan',hplan',leg,report,-,-,rfl⟩ := hrows.rows fill hfill
      exact of_decide_eq_true hid ▸ List.mem_map_of_mem (Engine.mem_registeredPlans_of_sent hplan')
    have hnil : reportsOf plan.id s.stored = [] := by
      refine List.prefix_nil.mp ?_
      rw [← hc.reportsOf_eq_nil hnew]
      exact (List.take_prefix _ _).filter _
    rw [hnone, hnil]
    rfl
  · exact hs plan hold (hlive.imp hinflight fun hcancel hmem => hcancel (hsent.subset hmem))

theorem Full.inserted (hs : s.Full) (hc : s.Coupled cfg) (hserved : s.Served cfg) (hrows : s.Rows)
    (hcfg : cfg.aggression = .aggressive) {report : ExecutionReport} {data : Option TradeFill} {l : Ledger}
    (hphase : s.engine.monitor = .storing report data)
    (hl : l.engine = { s.engine with fills := s.engine.fills ++ data.toList, monitor := .applying report })
    (hc' : Coupled cfg { s with ledger := l }) : Full { s with ledger := l } := by
  have hhandled : handled { s with ledger := l } = s.handled := by
    refine handled_of_held ?_
    rw [hl, hphase]
    rfl
  have hstored : s.stored = s.handled := by
    rw [hc.stored_eq, hphase]
    exact List.append_nil _
  have hstored' : stored { s with ledger := l } = s.handled ++ [report] := by
    rw [hc'.stored_eq, hhandled]
    simp [engine, hl]
  obtain ⟨plan,hplan,hid,leg,hleg,hidx,houtcome,hstatus,hdata⟩ := hc.storageData_eq
    (hphase ▸ rfl : s.engine.monitor.held? = some report)
  rw [hrows.lookedUp report data hphase, hdata] at hl
  have hplan := Engine.mem_registeredPlans_of_sent hplan
  rw [hidx] at hleg
  intro plan' hplan' hlive
  have hplan'' : plan' ∈ s.engine.registeredPlans := by
    rw [engine, hl] at hplan'
    exact hplan'
  have hlive' : plan'.id ∈ s.engine.inflight ∨ cancelAll plan'.id ∉ s.engine.execCancelTx := by
    rw [engine, hl] at hlive
    exact hlive
  have hold := hs plan' hplan'' hlive'
  rw [hstored', engine, hl]
  by_cases heq : plan' = plan
  · subst heq
    by_cases hmem : plan'.id ∈ s.engine.inflight
    · have htaker := (hc.parties.accounted.built hplan).isTaker leg (List.mem_of_getElem? hleg)
      have hfull := houtcome.eq_fullFill (htaker.trans (decide_eq_true hcfg)) (hstatus (hid ▸ hmem))
      have hself : plan'.fullFill leg = report := hfull.symm
      rw [if_pos (hid ▸ hmem), rowsOf, List.filter_append, hid, reportsOf_concat_self, ← hid, List.length_append,
        List.length_singleton, List.take_add_one]
      have hleg' : plan'.legs[(reportsOf plan'.id s.handled).length]? = some leg := hleg
      rw [hleg', List.map_append]
      rw [hstored] at hold
      refine congrArg₂ (· ++ ·) hold ?_
      simp [TradePlan.fillRow, hself, TradePlan.row]
    · obtain ⟨-,hfills⟩ := hserved.handledOf_eq_fullFills hc hplan hmem (hlive'.resolve_left hmem)
      rw [hfills, TradePlan.fullFills, List.length_map] at hleg
      exact absurd (List.getElem?_eq_some_iff.mp hleg).1 (lt_irrefl _)
  · have hne : report.planId ≠ plan'.id := fun h => heq (hc.eq_of_id hplan'' hplan (h.symm.trans hid.symm))
    rw [reportsOf_concat_ne _ hne, ← hstored, ← hold, rowsOf, List.filter_append]
    have hnone : (if report.planId ∈ s.engine.inflight then some (plan.row leg report) else none).toList.filter
        (fun fill => fill.planId = plan'.id) = [] := by
      refine List.filter_eq_nil_iff.mpr fun fill hfill hfid => hne ?_
      split_ifs at hfill
      · cases List.mem_singleton.mp hfill
        exact hid.symm.trans (of_decide_eq_true hfid)
      · cases hfill
    rw [hnone, List.append_nil]
    rfl

theorem Coupled.registered_cases (hc : s.Coupled cfg) {ev' : EngineEvent} {l : Ledger}
    (hmove : Engine.Move cfg storage s.engine ev' l.engine) (hopen : ev'.channelsOpen = true) :
    ∀ plan ∈ l.engine.registeredPlans, plan.id ∉ s.engine.registeredPlans.map TradePlan.id ∨
      plan ∈ s.engine.registeredPlans ∧ (plan.id ∈ l.engine.inflight → plan.id ∈ s.engine.inflight) := by
  have hdistinct := hc.parties.accounted.distinct
  intro plan hplan
  rcases hmove.registration_cases hopen hdistinct.running with
    ⟨plan',rest,now,hplanned,hl⟩ | ⟨i,-,hmonitor⟩ | ⟨-,hsame,hinflight,-⟩
  · have hnew := hdistinct.planned plan' rest hplanned
    have hplans : l.engine.registeredPlans = s.engine.registeredPlans ++ [plan'] := by
      simp [hl, Engine.registeredPlans, hplanned, DetectorPhase.registered?]
    rcases List.mem_append.mp (hplans ▸ hplan) with hplan | hplan
    · refine .inr ⟨hplan,fun hmem => ?_⟩
      rw [hl] at hmem
      refine ((AList.mem_insert _).mp hmem).resolve_left fun heq => hnew ?_
      exact heq ▸ List.mem_map_of_mem hplan
    · exact .inl (List.mem_singleton.mp hplan ▸ hnew)
  · exact .inr ⟨Engine.monitorMove_registeredPlans hmonitor ▸ hplan,fun hmem => hmonitor.mem_inflight hmem⟩
  · exact .inr ⟨hsame ▸ hplan,fun hmem => hinflight ▸ hmem⟩

theorem Full.step (hs : s.Full) (hc : s.Coupled cfg) (hserved : s.Served cfg) (hrows : s.Rows)
    (hcfg : cfg.aggression = .aggressive) (hinserts : ev.Inserts) (h : s.step cfg true ev = some t) : t.Full := by
  have hc' := hc.step h
  have hsame : ∀ plan ∈ s.engine.registeredPlans, plan.id ∉ s.engine.registeredPlans.map TradePlan.id ∨
      plan ∈ s.engine.registeredPlans ∧ (plan.id ∈ s.engine.inflight → plan.id ∈ s.engine.inflight) :=
    fun plan hplan => .inr ⟨hplan,id⟩
  cases step_move h with
  | @engine ev' l hown hl =>
    have hmove := (Ledger.step_eq_some hl).2.1
    have hev : ∀ report, ev' ≠ .report report := by
      rintro report rfl
      cases hown
    rcases hmove.fills_cases hev with ⟨report,data,i,rfl,hphase,hl'⟩ | ⟨-,hfills,hunstored⟩
    · have hok : i.insertOk = true := hinserts
      rw [hok] at hl'
      exact hs.inserted hc hserved hrows hcfg hphase hl' hc'
    · exact hs.of_same hc hrows hfills (stored_of_unstored hunstored)
        (hc.registered_cases hmove (EngineEvent.channelsOpen_of_own hown)) hmove.sent_prefix.2
  | @receiveReport report l hlt hreport hl =>
    have hmove := (Ledger.step_eq_some hl).2.1
    have hplans := hc.registered_cases hmove rfl
    have hsent := hmove.sent_prefix.2
    obtain ⟨hfills,hunstored⟩ : l.engine.fills = s.engine.fills ∧ s.engine.monitor.unstored = 0 ∧
        l.engine.monitor.unstored = 1 := by
      generalize l.engine = e at hmove
      cases hmove with
      | report hphase => exact ⟨rfl,by rw [engine, hphase]; rfl,rfl⟩
    refine hs.of_same hc hrows hfills ?_ hplans hsent
    simp only [stored, hunstored.1]
    simp [engine, hunstored.2]
  | deliver hw hreport =>
    refine hs.of_same hc hrows rfl ?_ hsame List.prefix_rfl
    exact List.take_append_of_le_length ((Nat.sub_le _ _).trans (hc.channels.received.trans hc.channels.forwarded))
  | _ => exact hs.of_same hc hrows rfl rfl hsame List.prefix_rfl

/-- While no insert fails the rows are full in every state. -/
theorem full_run (hcfg : cfg.aggression = .aggressive) {events : List TradingEvent}
    (hinserts : ∀ ev ∈ events, ev.Inserts) (hrun : run (step cfg true) new events = some s) : s.Full := by
  have hreaches : Reaches (step cfg true) TradingEvent.Inserts new s := ⟨events,hinserts,hrun⟩
  have hinv : s.Coupled cfg ∧ s.Served cfg ∧ s.Rows ∧ s.Full :=
    @Reaches.invariant _ _ _ _ _ _ (fun s => s.Coupled cfg ∧ s.Served cfg ∧ s.Rows ∧ s.Full)
      (fun ev s t hev hs h => ⟨hs.1.step h,hs.2.1.step hs.1 h,hs.2.2.1.step hs.1 h,
        hs.2.2.2.step hs.1 hs.2.1 hs.2.2.1 hcfg hev h⟩)
      ⟨coupled_new cfg,served_new cfg,rows_new,nofun⟩ hreaches
  exact hinv.2.2.2

theorem Full.rowsOf_executed (hfull : s.Full) (hc : s.Coupled cfg) (hserved : s.Served cfg)
    (hcfg : cfg.aggression = .aggressive) {plan : TradePlan} (hplan : plan ∈ s.engine.registeredPlans)
    (hexecuted : s.Executed plan) :
    rowsOf plan.id s.engine.fills = plan.legs.map plan.fillRow := by
  obtain ⟨hgone,hcancel⟩ := (hserved.executed_iff hc hcfg hplan).mp hexecuted
  have hhandled := (hserved.handledOf_eq_fullFills hc hplan hgone hcancel).2
  rw [hfull plan hplan (.inr hcancel), List.take_of_length_le]
  have hpre : s.handledOf plan.id <+: reportsOf plan.id s.stored := by
    rw [hc.stored_eq]
    exact (List.prefix_append _ _).filter _
  have hle := hpre.length_le
  rwa [hhandled, TradePlan.fullFills, List.length_map] at hle

end Full

end TradingLoop

end ArbCore
