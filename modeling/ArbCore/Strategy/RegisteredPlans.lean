import ArbCore.Strategy.MonitorRuns
import ArbCore.Strategy.Submission
import ArbCore.Strategy.TimeoutScans

/-! # Plans that the detector has registered

While every submission succeeds and no channel closes, a plan comes into the map once,
under an identifier of its own, and leaves it by a report or by a scan. Requests to
cancel it are only sent as it leaves.
-/
namespace ArbCore
open LabelledRun

structure TradePlan.Built (cfg : StrategyConfig) (plan : TradePlan) : Prop where
  legs_length : plan.legs.length = 3
  legIdx : ∀ i leg, plan.legs[i]? = some leg → leg.legIdx = UInt8.ofNat i
  qty_pos : ∀ leg ∈ plan.legs, 0 < leg.qty
  isTaker : ∀ leg ∈ plan.legs, leg.isTaker = decide (cfg.aggression = .aggressive)

namespace TradePlan
variable {cfg : StrategyConfig} {view : TriView} {plan : TradePlan}

theorem built_of_submittable (h : Submittable cfg view plan) : plan.Built cfg := by
  obtain ⟨op,id,⟨ops,hops,hop⟩,-,hbuild⟩ := h
  obtain ⟨r,-,-,rfl⟩ := (mem_detect_iff hops op).mp hop
  have hlegs := (buildTradePlan_legs hbuild).2
  have hleg : ∀ i leg, plan.legs[i]? = some leg → ∃ l, planLeg cfg i l = .ok leg := by
    intro i leg hi
    obtain ⟨l,hl⟩ := planLegs_getElem? hlegs hi
    exact ⟨l,Nat.zero_add i ▸ hl⟩
  have hmem : ∀ leg ∈ plan.legs, ∃ i l, planLeg cfg i l = .ok leg := by
    intro leg hleg'
    obtain ⟨i,hi⟩ := List.mem_iff_getElem?.mp hleg'
    obtain ⟨l,hl⟩ := hleg i leg hi
    exact ⟨i,l,hl⟩
  refine ⟨(planLegs_ok hlegs).length_eq.symm,fun i leg hi => ?_,fun leg hleg' => ?_,fun leg hleg' => ?_⟩
  · obtain ⟨l,hl⟩ := hleg i leg hi
    exact (planLeg_position hl).1
  · obtain ⟨i,l,hl⟩ := hmem leg hleg'
    exact (planLeg_ok hl).qty_pos
  · obtain ⟨i,l,hl⟩ := hmem leg hleg'
    exact (planLeg_position hl).2

theorem Built.legIdx_toNat (h : plan.Built cfg) {i : ℕ} {leg : OrderLeg} (hleg : plan.legs[i]? = some leg) :
    leg.legIdx.toNat = i := by
  have hlt : i < 3 := h.legs_length ▸ (List.getElem?_eq_some_iff.mp hleg).1
  rw [h.legIdx i leg hleg]
  exact UInt8.toNat_ofNat_of_lt' (hlt.trans (by norm_num))

end TradePlan

theorem InFlightPlan.plan_react {p p' : InFlightPlan} {report : ExecutionReport} (h : p.react report = some p') :
    p'.plan = p.plan := by
  obtain ⟨-,rfl⟩ := InFlightPlan.react_eq_some.mp h
  rfl

/-- A report finds no plan, ends the one it names, or leaves it in the map without any request. -/
theorem applyReport_effect (infl : HashMap InFlightPlan) (report : ExecutionReport) :
    (infl.lookup report.planId = none ∧ applyReport infl report = (infl,[],false)) ∨
    (∃ p cancels, infl.lookup report.planId = some p ∧ p.react report = none ∧
      applyReport infl report = (infl.erase report.planId,cancels,true) ∧
      (cancels = [] ∨ cancels = [cancelAll report.planId])) ∨
    ∃ p p', infl.lookup report.planId = some p ∧ p.react report = some p' ∧
      applyReport infl report = (infl.replace report.planId p',[],false) := by
  cases hlookup : infl.lookup report.planId with
  | none => exact .inl ⟨rfl,applyReport_unknown hlookup⟩
  | some p =>
    have hsent := applyReport_cancels hlookup
    rcases applyReport_known hlookup with ⟨cancels,happly,hreact⟩ | ⟨cancels,p',happly,hreact⟩
    · refine .inr (.inl ⟨p,cancels,rfl,hreact,happly,?_⟩)
      rw [happly] at hsent
      dsimp only at hsent
      rw [hsent]
      unfold ExecutionReport.consequence
      split <;> simp [cancelAll]
    · refine .inr (.inr ⟨p,p',rfl,hreact,?_⟩)
      have hkept := (InFlightPlan.react_eq_some.mp hreact).1
      rw [happly] at hsent ⊢
      dsimp only at hsent
      rw [hsent]
      unfold ExecutionReport.consequence at hkept ⊢
      split at hkept <;> simp_all

/-- Every submission succeeds and no channel is closed. -/
def EngineEvent.channelsOpen : EngineEvent → Bool
  | .detector i => i.sendOk
  | .viewsClosed | .reportsClosed => false
  | .view _ | .report _ | .tick _ | .monitor _ => true

def DetectorPhase.registered? : DetectorPhase → Option TradePlan
  | .registered plan _ => some plan
  | _ => none

namespace Engine
variable {cfg : StrategyConfig} {storage : Bool} {e t : Engine} {ev : EngineEvent}

/-- The plans that the detector put into the map, oldest first; the last of them may
still have to be sent. -/
def registeredPlans (e : Engine) : List TradePlan := e.execTx ++ e.detector.registered?.toList

theorem mem_registeredPlans_of_sent {plan : TradePlan} (h : plan ∈ e.execTx) : plan ∈ e.registeredPlans :=
  List.mem_append_left _ h

theorem takeUp_unregistered (op : Opportunity) (rest : List Opportunity) (n : ℕ) (id : String) :
    (takeUp cfg op rest n id).registered? = none ∧ (takeUp cfg op rest n id).unsubmitted = 0 := by
  rcases @takeUp_cases _ cfg op rest n id with ⟨plan,hp⟩ | hp | hp
  · rw [hp]
    exact ⟨rfl,rfl⟩
  · rw [hp]
    exact ⟨rfl,rfl⟩
  · rw [hp]
    exact ⟨rfl,rfl⟩

structure Running (e : Engine) : Prop where
  monitor : e.monitor ≠ .stopped
  detector : e.detector ≠ .stopped
  unsent : ∀ plan rest, e.detector ≠ .unsent plan rest

theorem running_new : new.Running := ⟨nofun,nofun,nofun⟩

theorem Move.running (h : Move cfg storage e ev t) (hopen : ev.channelsOpen = true) (he : e.Running) :
    t.Running := by
  obtain ⟨hmonitor,hdetector,hunsent⟩ := he
  cases h with
  | view _ => exact ⟨hmonitor,nofun,nofun⟩
  | viewsClosed _ => cases hopen
  | reportsClosed _ => cases hopen
  | report _ => exact ⟨nofun,hdetector,hunsent⟩
  | tick _ => exact ⟨nofun,hdetector,hunsent⟩
  | monitor hmove =>
    refine ⟨?_,(monitorMove_frame hmove).1 ▸ hdetector,(monitorMove_frame hmove).1 ▸ hunsent⟩
    cases hmove with
    | applied _ =>
      dsimp only
      split <;> exact MonitorPhase.noConfusion
    | _ => exact MonitorPhase.noConfusion
  | @detector i _ hmove =>
    suffices hnext : t.detector ≠ .stopped ∧ ∀ plan rest, t.detector ≠ .unsent plan rest from
      ⟨(detectorMove_frame hmove).1 ▸ hmonitor,hnext.1,hnext.2⟩
    cases hmove with
    | @takenUp op rest n _ =>
      dsimp only
      rcases @takeUp_cases _ cfg op rest n i.planId with ⟨plan,hp⟩ | hp | hp
      · rw [hp]
        exact ⟨nofun,nofun⟩
      · rw [hp]
        exact ⟨nofun,nofun⟩
      · rw [hp]
        exact ⟨nofun,nofun⟩
    | unsent _ hfailed => cases hopen.symm.trans hfailed
    | _ => exact ⟨nofun,nofun⟩

/-- With open channels a step registers a plan, is a move of the monitor, or leaves the
plans, the map and the requests as they are. -/
theorem Move.registration_cases (h : Move cfg storage e ev t) (hopen : ev.channelsOpen = true) (he : e.Running) :
    (∃ plan rest now, e.detector = .planned plan rest ∧ t = { e with
      inflight := e.inflight.insert plan.id (.register cfg plan now), detector := .registered plan rest }) ∨
    (∃ i, ev = .monitor i ∧ MonitorMove storage e i t) ∨
    ((∀ i, ev ≠ .monitor i) ∧ t.registeredPlans = e.registeredPlans ∧ t.inflight = e.inflight ∧
      t.execCancelTx = e.execCancelTx ∧
      (t.monitor = e.monitor ∨ e.monitor = .select ∧ t.monitor.toRemove = [])) := by
  cases h with
  | view hphase =>
    exact .inr (.inr ⟨nofun,by simp [registeredPlans, hphase, DetectorPhase.registered?],rfl,rfl,.inl rfl⟩)
  | viewsClosed _ => cases hopen
  | reportsClosed _ => cases hopen
  | report hphase => exact .inr (.inr ⟨nofun,rfl,rfl,rfl,.inr ⟨hphase,rfl⟩⟩)
  | tick hphase => exact .inr (.inr ⟨nofun,rfl,rfl,rfl,.inr ⟨hphase,rfl⟩⟩)
  | monitor hmove => exact .inr (.inl ⟨_,rfl,hmove⟩)
  | @detector i _ hmove =>
    cases hmove with
    | registered hphase => exact .inl ⟨_,_,_,hphase,rfl⟩
    | unsent _ hfailed => cases hopen.symm.trans hfailed
    | unregistered hphase => exact absurd hphase (he.unsent _ _)
    | sent hphase _ =>
      exact .inr (.inr ⟨nofun,by simp [registeredPlans, hphase, DetectorPhase.registered?],rfl,rfl,.inl rfl⟩)
    | @takenUp op rest n hphase =>
      have hnone := (@takeUp_unregistered cfg op rest n i.planId).1
      exact .inr (.inr ⟨nofun,by simp only [registeredPlans, hphase, hnone]; rfl,rfl,rfl,.inl rfl⟩)
    | _ hphase =>
      exact .inr (.inr ⟨nofun,by simp [registeredPlans, hphase, DetectorPhase.registered?],rfl,rfl,.inl rfl⟩)

theorem monitorMove_registeredPlans {i : MonitorInput} (h : MonitorMove storage e i t) :
    t.registeredPlans = e.registeredPlans := by
  obtain ⟨hdetector,hsent,-⟩ := monitorMove_frame h
  rw [registeredPlans, registeredPlans, hdetector, hsent]

end Engine

namespace Ledger
variable {cfg : StrategyConfig} {storage : Bool} {l t : Ledger} {ev : EngineEvent}

/-- Plans are registered once, each under an identifier of its own, and the map holds
registered plans only. -/
structure Distinct (l : Ledger) : Prop where
  fresh : l.Fresh
  running : l.engine.Running
  ids : (l.engine.registeredPlans.map TradePlan.id).Nodup
  used : ∀ plan ∈ l.engine.registeredPlans, plan.id ∈ l.planIds
  planned : ∀ plan rest, l.engine.detector = .planned plan rest →
    plan.id ∉ l.engine.registeredPlans.map TradePlan.id
  entries : ∀ id p, l.engine.inflight.lookup id = some p → p.plan ∈ l.engine.registeredPlans ∧ p.plan.id = id

theorem distinct_new : new.Distinct :=
  ⟨fresh_new,Engine.running_new,List.nodup_nil,nofun,nofun,nofun⟩

theorem distinct_step (hl : l.Distinct) (hopen : ev.channelsOpen = true)
    (h : l.step cfg storage ev = some t) : t.Distinct := by
  have hfresh := fresh_step hl.fresh h
  obtain ⟨hbuilt,hmove,-,hplanIds⟩ := step_eq_some h
  have hrunning := hmove.running hopen hl.running
  have hplanned : t.engine.registeredPlans = l.engine.registeredPlans → ∀ plan rest,
      t.engine.detector = .planned plan rest → plan.id ∉ t.engine.registeredPlans.map TradePlan.id := by
    intro hsame plan rest hp
    rw [hsame]
    rcases hmove.planned_cases hp with hp | hplan
    · exact hl.planned plan rest hp
    · intro hid
      obtain ⟨plan',hplan',hid⟩ := List.mem_map.mp hid
      exact hbuilt plan hplan (hid ▸ hl.used plan' hplan')
  have hused : t.engine.registeredPlans = l.engine.registeredPlans →
      ∀ plan ∈ t.engine.registeredPlans, plan.id ∈ t.planIds := fun hsame plan hplan =>
    hplanIds ▸ List.mem_append_left _ (hl.used plan (hsame ▸ hplan))
  rcases hmove.registration_cases hopen hl.running with
    ⟨plan,rest,now,hphase,ht⟩ | ⟨i,-,hmonitor⟩ | ⟨-,hsame,hinflight,-,-⟩
  · have hplans : t.engine.registeredPlans = l.engine.registeredPlans ++ [plan] := by
      simp [ht, Engine.registeredPlans, hphase, DetectorPhase.registered?]
    have hid := hl.planned plan rest hphase
    refine ⟨hfresh,hrunning,?_,?_,?_,?_⟩
    · rw [hplans, List.map_append]
      exact List.concat_eq_append ▸ hl.ids.concat hid
    · intro plan' hplan'
      rw [hplanIds]
      refine List.mem_append_left _ ?_
      rw [hplans] at hplan'
      rcases List.mem_append.mp hplan' with hplan' | hplan'
      · exact hl.used plan' hplan'
      · exact List.mem_singleton.mp hplan' ▸ (hl.fresh.planned plan rest hphase).1
    · intro plan' rest' hp
      rw [ht] at hp
      cases hp
    · intro id p hp
      rw [hplans]
      rw [ht] at hp
      by_cases heq : id = plan.id
      · subst heq
        rw [AList.lookup_insert] at hp
        cases hp
        exact ⟨List.mem_append_right _ (List.mem_singleton_self _),rfl⟩
      · rw [AList.lookup_insert_ne heq] at hp
        obtain ⟨hmem,hid'⟩ := hl.entries id p hp
        exact ⟨List.mem_append_left _ hmem,hid'⟩
  · have hsame := Engine.monitorMove_registeredPlans hmonitor
    refine ⟨hfresh,hrunning,hsame ▸ hl.ids,hused hsame,hplanned hsame,fun id p hp => ?_⟩
    rw [hsame]
    suffices hold : ∃ p', l.engine.inflight.lookup id = some p' ∧ p'.plan = p.plan by
      obtain ⟨p',hp',hplan⟩ := hold
      exact hplan ▸ hl.entries id p' hp'
    obtain ⟨e,takenUp,planIds⟩ := t
    dsimp only at hmonitor hp
    cases hmonitor with
    | @applied report _ =>
      rw [lookup_applyReport] at hp
      split_ifs at hp
      · obtain ⟨p',hp',hreact⟩ := Option.bind_eq_some_iff.mp hp
        exact ⟨p',hp',(InFlightPlan.plan_react hreact).symm⟩
      · exact ⟨p,hp,rfl⟩
    | removed _ _ => exact ⟨p,MonitorLog.lookup_erase_eq_some hp,rfl⟩
    | gone _ _ => exact ⟨p,MonitorLog.lookup_erase_eq_some hp,rfl⟩
    | _ => exact ⟨p,hp,rfl⟩
  · refine ⟨hfresh,hrunning,hsame ▸ hl.ids,hused hsame,hplanned hsame,fun id p hp => ?_⟩
    rw [hsame]
    exact hl.entries id p (hinflight ▸ hp)

/-- A plan is asked to be cancelled once at most and as it leaves the map: only the plan that
the scan is about to remove is still there. -/
structure CancelsLeaving (l : Ledger) : Prop where
  nodup : l.engine.monitor.toRemove.Nodup
  removing : ∀ id ∈ l.engine.monitor.toRemove, id ∈ l.engine.inflight
  plans : ∀ c ∈ l.engine.execCancelTx,
    c = cancelAll c.planId ∧ c.planId ∈ l.engine.registeredPlans.map TradePlan.id
  left : ∀ c ∈ l.engine.execCancelTx, c.planId ∈ l.engine.inflight →
    ∃ rest, l.engine.monitor = .removing c.planId rest
  once : (l.engine.execCancelTx.map CancelRequest.planId).Nodup

theorem cancelsLeaving_new : new.CancelsLeaving :=
  ⟨List.nodup_nil,nofun,nofun,nofun,List.nodup_nil⟩

theorem Distinct.registered_of_mem (hl : l.Distinct) {id : String} (h : id ∈ l.engine.inflight) :
    id ∈ l.engine.registeredPlans.map TradePlan.id := by
  obtain ⟨p,hp⟩ := Option.isSome_iff_exists.mp (AList.lookup_isSome.mpr h)
  obtain ⟨hmem,hid⟩ := hl.entries id p hp
  exact hid ▸ List.mem_map_of_mem hmem

/-- Outside the scan's removals no plan in the map is asked to be cancelled. -/
theorem CancelsLeaving.notMem (hl : l.CancelsLeaving)
    (hphase : ∀ id rest, l.engine.monitor ≠ .removing id rest) :
    ∀ c ∈ l.engine.execCancelTx, c.planId ∉ l.engine.inflight := fun c hc hmem => by
  obtain ⟨rest,hrest⟩ := hl.left c hc hmem
  exact hphase _ _ hrest

theorem CancelsLeaving.once_concat (hl : l.CancelsLeaving) (hphase : ∀ id rest, l.engine.monitor ≠ .removing id rest)
    {id : String} (hid : id ∈ l.engine.inflight) :
    ((l.engine.execCancelTx ++ [cancelAll id]).map CancelRequest.planId).Nodup := by
  rw [List.map_append]
  refine List.concat_eq_append ▸ hl.once.concat fun hmem => ?_
  obtain ⟨c,hc,rfl⟩ := List.mem_map.mp hmem
  exact hl.notMem hphase c hc hid

theorem cancelsLeaving_monitorMove {i : MonitorInput} (hd : l.Distinct) (hl : l.CancelsLeaving)
    (h : Engine.MonitorMove storage l.engine i t.engine) : t.CancelsLeaving := by
  have hsame := Engine.monitorMove_registeredPlans h
  obtain ⟨hnodup,hremoving,hplans,hleft,honce⟩ := hl
  obtain ⟨e,takenUp,planIds⟩ := t
  dsimp only at h hsame
  have hidle : (∀ id rest, l.engine.monitor ≠ .removing id rest) → e.execCancelTx = l.engine.execCancelTx →
      (∀ id ∈ e.inflight, id ∈ l.engine.inflight) → e.monitor.toRemove.Nodup →
      (∀ id ∈ e.monitor.toRemove, id ∈ e.inflight) → CancelsLeaving ⟨e,takenUp,planIds⟩ := by
    intro hphase hsent hmem hnodup' hremoving'
    refine ⟨hnodup',hremoving',fun c hc => ?_,fun c hc hin => ?_,hsent ▸ honce⟩
    · exact hsame ▸ hplans c (hsent ▸ hc)
    · exact absurd (hmem _ hin) (CancelsLeaving.notMem ⟨hnodup,hremoving,hplans,hleft,honce⟩ hphase c (hsent ▸ hc))
  cases h with
  | looked hphase =>
    exact hidle (fun _ _ hr => by cases hphase.symm.trans hr) rfl (fun _ hid => hid) .nil nofun
  | stored hphase =>
    exact hidle (fun _ _ hr => by cases hphase.symm.trans hr) rfl (fun _ hid => hid) .nil nofun
  | executed hphase =>
    exact hidle (fun _ _ hr => by cases hphase.symm.trans hr) rfl (fun _ hid => hid) .nil nofun
  | scanDone hphase =>
    exact hidle (fun _ _ hr => by cases hphase.symm.trans hr) rfl (fun _ hid => hid) .nil nofun
  | scanned hphase horder =>
    refine hidle (fun _ _ hr => by cases hphase.symm.trans hr) rfl (fun _ hid => hid) ?_ fun id hid => ?_
    · exact horder.nodup_iff.mpr (nodup_timedOut _ _)
    · obtain ⟨p,hp,-⟩ := (mem_timedOut _ _).mp (horder.mem_iff.mp hid)
      exact AList.lookup_isSome.mp (hp ▸ rfl)
  | cancelled hphase =>
    rw [hphase] at hnodup hremoving
    exact hidle (fun _ _ hr => by cases hphase.symm.trans hr) rfl (fun _ hid => hid) hnodup hremoving
  | @applied report hphase =>
    have hnot : ∀ id rest, l.engine.monitor ≠ .removing id rest := fun _ _ hr => by cases hphase.symm.trans hr
    have hnone : ∀ b : Bool, (if b then MonitorPhase.executed else .select).toRemove = [] := by
      intro b
      cases b <;> rfl
    rcases applyReport_effect l.engine.inflight report with ⟨-,happly⟩ | ⟨p,cancels,hp,-,happly,hcancels⟩ |
      ⟨p,p',-,-,happly⟩
    · refine hidle hnot (by simp [happly]) (fun id hid => mem_of_mem_applyReport hid) ?_ ?_
      · exact (hnone _).symm ▸ .nil
      · exact (hnone _).symm ▸ nofun
    · rcases hcancels with rfl | rfl
      · refine hidle hnot (by simp [happly]) (fun id hid => mem_of_mem_applyReport hid) ?_ ?_
        · exact (hnone _).symm ▸ .nil
        · exact (hnone _).symm ▸ nofun
      · have hin : report.planId ∈ l.engine.inflight := AList.lookup_isSome.mp (hp ▸ rfl)
        have hl' : l.CancelsLeaving := ⟨hnodup,hremoving,hplans,hleft,honce⟩
        simp only [happly] at hsame ⊢
        refine ⟨.nil,nofun,fun c hc => ?_,fun c hc hmem => ?_,hl'.once_concat hnot hin⟩
        · rcases List.mem_append.mp hc with hc | hc
          · exact hsame ▸ hplans c hc
          · cases List.mem_singleton.mp hc
            exact ⟨rfl,hsame ▸ hd.registered_of_mem hin⟩
        · obtain ⟨hne,hmem⟩ := AList.mem_erase.mp hmem
          rcases List.mem_append.mp hc with hc | hc
          · exact absurd hmem (hl'.notMem hnot c hc)
          · cases List.mem_singleton.mp hc
            exact absurd rfl hne
    · refine hidle hnot (by simp [happly]) (fun id hid => mem_of_mem_applyReport hid) ?_ ?_
      · exact (hnone _).symm ▸ .nil
      · exact (hnone _).symm ▸ nofun
  | @cancelSent planId toCancel hphase =>
    have hnot : ∀ id rest, l.engine.monitor ≠ .removing id rest := fun _ _ hr => by cases hphase.symm.trans hr
    have hl' : l.CancelsLeaving := ⟨hnodup,hremoving,hplans,hleft,honce⟩
    rw [hphase] at hnodup hremoving
    have hin := hremoving planId List.mem_cons_self
    refine ⟨hnodup,hremoving,fun c hc => ?_,fun c hc hmem => ?_,hl'.once_concat hnot hin⟩
    · rcases List.mem_append.mp hc with hc | hc
      · exact hsame ▸ hplans c hc
      · cases List.mem_singleton.mp hc
        exact ⟨rfl,hsame ▸ hd.registered_of_mem hin⟩
    · rcases List.mem_append.mp hc with hc | hc
      · exact absurd hmem (hl'.notMem hnot c hc)
      · cases List.mem_singleton.mp hc
        exact ⟨toCancel,rfl⟩
  | @removed planId toCancel hphase hin =>
    rw [hphase] at hnodup hremoving
    obtain ⟨hnotMem,hrest⟩ := List.nodup_cons.mp hnodup
    refine ⟨hrest,fun id hid => ?_,fun c hc => hsame ▸ hplans c hc,fun c hc hmem => ?_,honce⟩
    · refine AList.mem_erase.mpr ⟨fun heq => hnotMem (heq ▸ hid),hremoving id (List.mem_cons_of_mem _ hid)⟩
    · obtain ⟨hne,hmem⟩ := AList.mem_erase.mp hmem
      obtain ⟨rest,hr⟩ := hleft c hc hmem
      cases hphase.symm.trans hr
      exact absurd rfl hne
  | gone hphase hnot =>
    rw [hphase] at hremoving
    exact absurd (hremoving _ List.mem_cons_self) hnot

theorem cancelsLeaving_step (hd : l.Distinct) (hl : l.CancelsLeaving) (hopen : ev.channelsOpen = true)
    (h : l.step cfg storage ev = some t) : t.CancelsLeaving := by
  obtain ⟨-,hmove,-,-⟩ := step_eq_some h
  rcases hmove.registration_cases hopen hd.running with
    ⟨plan,rest,now,hphase,ht⟩ | ⟨i,-,hmonitor⟩ | ⟨-,hsame,hinflight,hsent,hmonitor⟩
  · obtain ⟨hnodup,hremoving,hplans,hleft,honce⟩ := hl
    have hregistered : t.engine.registeredPlans = l.engine.registeredPlans ++ [plan] := by
      simp [ht, Engine.registeredPlans, hphase, DetectorPhase.registered?]
    have hid := hd.planned plan rest hphase
    rw [ht] at hregistered
    obtain ⟨e,takenUp,planIds⟩ := t
    dsimp only at ht
    subst ht
    refine ⟨hnodup,fun id hid => ?_,fun c hc => ?_,fun c hc hmem => ?_,honce⟩
    · exact (AList.mem_insert _).mpr (.inr (hremoving id hid))
    · obtain ⟨hall,hmem⟩ := hplans c hc
      refine ⟨hall,?_⟩
      rw [hregistered, List.map_append]
      exact List.mem_append_left _ hmem
    · rcases (AList.mem_insert _).mp hmem with heq | hmem
      · exact absurd (heq ▸ (hplans c hc).2) hid
      · exact hleft c hc hmem
  · exact cancelsLeaving_monitorMove hd hl hmonitor
  · rcases hmonitor with hmonitor | ⟨hselect,hnone⟩
    · obtain ⟨hnodup,hremoving,hplans,hleft,honce⟩ := hl
      refine ⟨hmonitor ▸ hnodup,?_,?_,?_,hsent ▸ honce⟩
      · rw [hmonitor, hinflight]
        exact hremoving
      · rw [hsent, hsame]
        exact hplans
      · rw [hsent, hinflight, hmonitor]
        exact hleft
    · have hnotMem := hl.notMem fun _ _ hr => by cases hselect.symm.trans hr
      refine ⟨hnone ▸ .nil,hnone ▸ nofun,?_,?_,hsent ▸ hl.once⟩
      · rw [hsent, hsame]
        exact hl.plans
      · rw [hsent, hinflight]
        exact fun c hc hmem => absurd hmem (hnotMem c hc)

end Ledger

section Counts

/-- Requests of a scan whose plans are not counted yet. -/
def MonitorPhase.asked : MonitorPhase → ℕ
  | .removing .. | .cancelled _ => 1
  | _ => 0

def MonitorPhase.ended : MonitorPhase → ℕ
  | .executed => 1
  | _ => 0

namespace Engine
variable {cfg : StrategyConfig} {storage : Bool} {e t : Engine} {ev : EngineEvent}

def ended (e : Engine) : ℕ := e.metrics.plansExecuted + e.monitor.ended

def asked (e : Engine) : ℕ := e.metrics.plansCancelled + e.monitor.asked

def AskedFirst (e : Engine) : Prop := ∀ id rest, e.monitor = .removing id rest → cancelAll id ∈ e.execCancelTx

theorem askedFirst_new : new.AskedFirst := nofun

theorem Move.askedFirst (h : Move cfg storage e ev t) (he : e.AskedFirst) : t.AskedFirst := by
  intro id rest hphase
  cases h with
  | view _ => exact he id rest hphase
  | viewsClosed _ => exact he id rest hphase
  | report _ => cases hphase
  | reportsClosed _ => cases hphase
  | tick _ => cases hphase
  | detector hmove =>
    obtain ⟨hmonitor,hsent,-⟩ := detectorMove_frame hmove
    exact hsent ▸ he id rest (hmonitor ▸ hphase)
  | monitor hmove =>
    cases hmove with
    | cancelSent _ =>
      cases hphase
      exact List.mem_append_right _ (List.mem_singleton_self _)
    | applied _ =>
      dsimp only at hphase
      split at hphase <;> cases hphase
    | _ => cases hphase

/-- The monitor applies a report, removes a plan that was asked to be cancelled, or leaves
the map as it is. -/
theorem MonitorMove.map_cases {i : MonitorInput} (h : MonitorMove storage e i t) :
    (∃ report, e.monitor = .applying report ∧ t = { e with
      inflight := (applyReport e.inflight report).1
      execCancelTx := e.execCancelTx ++ (applyReport e.inflight report).2.1
      monitor := if (applyReport e.inflight report).2.2 then .executed else .select }) ∨
    (∃ id rest, e.monitor = .removing id rest ∧ t.inflight = e.inflight.erase id ∧
      t.execCancelTx = e.execCancelTx) ∨
    ((∀ report, e.monitor ≠ .applying report) ∧ t.inflight = e.inflight ∧ e.execCancelTx <+: t.execCancelTx) := by
  cases h with
  | applied hphase => exact .inl ⟨_,hphase,rfl⟩
  | removed hphase _ => exact .inr (.inl ⟨_,_,hphase,rfl,rfl⟩)
  | gone hphase _ => exact .inr (.inl ⟨_,_,hphase,rfl,rfl⟩)
  | cancelSent hphase =>
    exact .inr (.inr ⟨(fun _ happlying => by cases hphase.symm.trans happlying),rfl,List.prefix_append _ _⟩)
  | _ hphase => exact .inr (.inr ⟨(fun _ happlying => by cases hphase.symm.trans happlying),rfl,List.prefix_rfl⟩)

/-- Apart from the reports applied, each request is one of a scan. -/
theorem Move.requests (h : Move cfg storage e ev t) (hremoving : ∀ id ∈ e.monitor.toRemove, id ∈ e.inflight) :
    (∃ report i, ev = .monitor i ∧ e.monitor = .applying report) ∨
      t.execCancelTx.length + e.asked = e.execCancelTx.length + t.asked ∧ t.ended = e.ended := by
  cases h with
  | view _ => exact .inr ⟨rfl,rfl⟩
  | viewsClosed _ => exact .inr ⟨rfl,rfl⟩
  | report hphase =>
    exact .inr ⟨by simp [asked, hphase, MonitorPhase.asked],by simp [ended, hphase, MonitorPhase.ended]⟩
  | reportsClosed hphase =>
    exact .inr ⟨by simp [asked, hphase, MonitorPhase.asked],by simp [ended, hphase, MonitorPhase.ended]⟩
  | tick hphase => exact .inr ⟨by simp [asked, hphase, MonitorPhase.asked],by simp [ended, hphase, MonitorPhase.ended]⟩
  | detector hmove =>
    obtain ⟨hmonitor,hsent,-⟩ := detectorMove_frame hmove
    have hmetrics : t.metrics.plansCancelled = e.metrics.plansCancelled ∧
        t.metrics.plansExecuted = e.metrics.plansExecuted := by
      cases hmove <;> exact ⟨rfl,rfl⟩
    exact .inr ⟨by simp only [asked, hsent, hmonitor, hmetrics.1],by simp only [ended, hmonitor, hmetrics.2]⟩
  | monitor hmove =>
    cases hmove with
    | applied hphase => exact .inl ⟨_,_,rfl,hphase⟩
    | cancelSent hphase =>
      refine .inr ⟨?_,by simp [ended, hphase, MonitorPhase.ended]⟩
      simp only [asked, hphase, MonitorPhase.asked, List.length_append, List.length_singleton]
      omega
    | gone hphase hnot =>
      rw [hphase] at hremoving
      exact absurd (hremoving _ List.mem_cons_self) hnot
    | cancelled hphase =>
      exact .inr ⟨by simp [asked, hphase, MonitorPhase.asked],by simp [ended, hphase, MonitorPhase.ended]⟩
    | executed hphase =>
      exact .inr ⟨by simp [asked, hphase, MonitorPhase.asked],by simp [ended, hphase, MonitorPhase.ended]⟩
    | _ hphase =>
      exact .inr ⟨by simp [asked, hphase, MonitorPhase.asked],by simp [ended, hphase, MonitorPhase.ended]⟩

theorem Move.submitted (h : Move cfg storage e ev t) (hopen : ev.channelsOpen = true) (he : e.Running)
    (hcount : e.metrics.plansSubmitted + e.detector.unsubmitted = e.registeredPlans.length) :
    t.metrics.plansSubmitted + t.detector.unsubmitted = t.registeredPlans.length := by
  cases h with
  | view hphase => simpa [registeredPlans, hphase, DetectorPhase.unsubmitted, DetectorPhase.registered?] using hcount
  | viewsClosed _ => cases hopen
  | reportsClosed _ => cases hopen
  | report _ => exact hcount
  | tick _ => exact hcount
  | monitor hmove => cases hmove <;> exact hcount
  | @detector i _ hmove =>
    cases hmove with
    | unsent _ hfailed => cases hopen.symm.trans hfailed
    | unregistered hphase => exact absurd hphase (he.unsent _ _)
    | @takenUp op rest n hphase =>
      obtain ⟨hnone,hunsubmitted⟩ := @takeUp_unregistered cfg op rest n i.planId
      simp only [registeredPlans, hphase] at hcount
      simp only [registeredPlans, hnone, hunsubmitted]
      exact hcount
    | sent hphase _ =>
      simpa [registeredPlans, hphase, DetectorPhase.unsubmitted, DetectorPhase.registered?] using hcount
    | submitted hphase =>
      simpa [registeredPlans, hphase, DetectorPhase.unsubmitted, DetectorPhase.registered?] using hcount
    | _ hphase =>
      simpa [registeredPlans, hphase, DetectorPhase.unsubmitted, DetectorPhase.registered?] using hcount

end Engine

namespace Ledger
variable {cfg : StrategyConfig} {storage : Bool} {l t : Ledger} {ev : EngineEvent}

/-- Every registered plan is in the map or was ended by a report or by a scan, and the
planner built it. -/
structure Accounted (cfg : StrategyConfig) (l : Ledger) : Prop where
  distinct : l.Distinct
  cancels : l.CancelsLeaving
  askedFirst : l.engine.AskedFirst
  sourced : l.engine.Sourced cfg Set.univ
  deficit : l.engine.deficit = 0
  submitted : l.engine.metrics.plansSubmitted + l.engine.detector.unsubmitted = l.engine.registeredPlans.length

theorem accounted_new (cfg : StrategyConfig) : new.Accounted cfg :=
  ⟨distinct_new,cancelsLeaving_new,Engine.askedFirst_new,Engine.sourced_new,rfl,rfl⟩

theorem engine_step (h : l.step cfg storage ev = some t) : l.engine.step cfg storage ev = some t.engine := by
  rw [step] at h
  split at h
  · cases h
  · obtain ⟨e,he,rfl⟩ := Option.map_eq_some_iff.mp h
    exact he

theorem accounted_step (hl : l.Accounted cfg) (hopen : ev.channelsOpen = true)
    (h : l.step cfg storage ev = some t) : t.Accounted cfg := by
  obtain ⟨-,hmove,-,-⟩ := step_eq_some h
  have hviews : ev.FromViews Set.univ := by
    cases ev with
    | view v => exact Set.mem_univ v
    | _ => trivial
  have hback : ¬ l.engine.RollsBackGone ev := by
    intro hback
    cases ev with
    | detector i =>
      obtain ⟨plan,rest,hphase,-⟩ := hback
      exact hl.distinct.running.unsent _ _ hphase
    | _ => exact hback.elim
  refine ⟨distinct_step hl.distinct hopen h,cancelsLeaving_step hl.distinct hl.cancels hopen h,
    hmove.askedFirst hl.askedFirst,Engine.sourced_step hviews hl.sourced (engine_step h),?_,
    hmove.submitted hopen hl.distinct.running hl.submitted⟩
  exact (Engine.deficit_step hmove (fun plan rest hp => (hl.distinct.fresh.planned plan rest hp).2) hback).trans
    hl.deficit

theorem Accounted.built (hl : l.Accounted cfg) {plan : TradePlan} (hplan : plan ∈ l.engine.registeredPlans) :
    plan.Built cfg := by
  rcases List.mem_append.mp hplan with hplan | hplan
  · obtain ⟨view,-,hsub⟩ := hl.sourced.sent plan hplan
    exact TradePlan.built_of_submittable hsub
  · have hon : plan ∈ l.engine.detector.onHand := by
      cases hphase : l.engine.detector with
      | registered _ _ =>
        rw [hphase] at hplan
        cases List.mem_singleton.mp hplan
        exact rfl
      | _ =>
        rw [hphase] at hplan
        cases hplan
    obtain ⟨view,-,hsub⟩ := hl.sourced.onHand plan hon
    exact TradePlan.built_of_submittable hsub

theorem Accounted.length_registeredPlans (hl : l.Accounted cfg) : l.engine.registeredPlans.length =
    l.engine.inflight.keys.length + l.engine.metrics.plansExecuted + l.engine.metrics.plansCancelled +
      l.engine.monitor.uncounted := by
  have hdeficit := hl.deficit
  have hsubmitted := hl.submitted
  rw [Engine.deficit] at hdeficit
  omega

end Ledger

end Counts

end ArbCore
