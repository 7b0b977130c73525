import ArbCore.Execution.LegReports

/-! # A resolved receiver and the passive legs after it

Trying and selecting both resolve the receiver of the cancel signal, and nothing renews
it. A passive leg that comes later awaits it again and panics.
-/
namespace ArbCore
open Oneshot LabelledRun

namespace PlanWorker
variable {plan : TradePlan} {w t : PlanWorker} {ev : WorkerEvent}

def Passive (legs : List OrderLeg) : Prop := ∃ leg ∈ legs, leg.isTaker = false

def Awaits (w : PlanWorker) : Prop :=
  match w.phase with
  | .registering => Passive w.plan.legs
  | .checking legs => Passive legs
  | .sleeping _ rest => Passive rest
  | .selecting _ _ | .panicked => True
  | .finished => False

/-- The worker has panicked, or it will at the next passive leg. -/
def Doomed (w : PlanWorker) : Prop := w.rx = .taken ∧ w.Awaits

/-- The step resolves the receiver while a passive leg is still to be handled. A
check finds it resolved by the signal or by the loss of the sender. -/
def ResolvesEarly (w : PlanWorker) : WorkerEvent → Prop
  | .check => ∃ leg rest, w.phase = .checking (leg :: rest) ∧
      ((w.rx = .ready () ∧ Passive rest) ∨ (w.rx = .closed ∧ Passive (leg :: rest)))
  | .select false => ∃ leg rest, w.phase = .selecting leg rest ∧ w.rx ≠ .taken ∧ Passive rest
  | _ => False

theorem passive_cons {leg : OrderLeg} {rest : List OrderLeg} :
    Passive (leg :: rest) ↔ leg.isTaker = false ∨ Passive rest := by
  simp [Passive]

section Doomed

theorem doomed_checking {legs : List OrderLeg} (hphase : w.phase = .checking legs) :
    w.Doomed ↔ w.rx = .taken ∧ Passive legs := by
  rw [Doomed, Awaits, hphase]

theorem doomed_sleeping {leg : OrderLeg} {rest : List OrderLeg} (hphase : w.phase = .sleeping leg rest) :
    w.Doomed ↔ w.rx = .taken ∧ Passive rest := by
  rw [Doomed, Awaits, hphase]

theorem doomed_selecting {leg : OrderLeg} {rest : List OrderLeg} (hphase : w.phase = .selecting leg rest) :
    w.Doomed ↔ w.rx = .taken := by
  simp only [Doomed, Awaits, hphase, and_true]

theorem resolvesEarly_check {leg : OrderLeg} {rest : List OrderLeg}
    (hphase : w.phase = .checking (leg :: rest)) : w.ResolvesEarly .check ↔
      (w.rx = .ready () ∧ Passive rest) ∨ (w.rx = .closed ∧ Passive (leg :: rest)) := by
  simp [ResolvesEarly, hphase]

/-- A step dooms the worker exactly when it resolves the receiver early, and nothing
saves it afterwards. -/
theorem doomed_step_iff (hstep : w.step ev = some t) : t.Doomed ↔ w.Doomed ∨ w.ResolvesEarly ev := by
  have hmove := step_move hstep
  cases hmove with
  | register hphase => simp [Doomed, Awaits, ResolvesEarly, hphase]
  | signal =>
    simp only [Doomed, ResolvesEarly, or_false, Receiver.send_eq_taken]
    rfl
  | senderDropped =>
    simp only [Doomed, ResolvesEarly, or_false, Receiver.dropSender_eq_taken]
    rfl
  | checkCancelled hphase hrx =>
    rw [doomed_checking rfl, doomed_checking hphase, resolvesEarly_check hphase]
    simp [report, hrx]
  | sleep hphase hrx =>
    have hleg := (isTaker_of_check hphase hstep).1 rfl
    rw [doomed_sleeping rfl, doomed_checking hphase, resolvesEarly_check hphase, passive_cons]
    simp only [Receiver.tryRecv_eq_taken (fun _ => hrx), hleg, hrx]
    tauto
  | select hphase hrx =>
    have hleg := (isTaker_of_check hphase hstep).2 rfl
    rw [doomed_selecting rfl, doomed_checking hphase, resolvesEarly_check hphase, passive_cons]
    simp only [Receiver.tryRecv_eq_taken (fun _ => hrx), hleg, hrx]
    tauto
  | filled hphase =>
    rw [doomed_checking rfl, doomed_sleeping hphase]
    simp [report, ResolvesEarly]
  | unfilled hphase hrx =>
    rw [doomed_checking rfl, doomed_selecting hphase]
    simp [report, ResolvesEarly, hrx]
  | selectCancelled hphase hrx =>
    rw [doomed_checking rfl, doomed_selecting hphase]
    simp [report, ResolvesEarly, hrx, hphase]
  | panicked hphase hrx => simp [Doomed, Awaits, hphase, hrx]
  | cleanup hphase => simp [Doomed, Awaits, ResolvesEarly, hphase, Passive]

theorem not_doomed_start (plan : TradePlan) : ¬ (start plan).Doomed := fun h => by cases h.1

theorem doomed_run {events : List WorkerEvent} (hw : w.Doomed) (h : run step w events = some t) :
    t.Doomed :=
  run_invariant (fun _ _ _ hs hstep => (doomed_step_iff hstep).mpr (.inl hs)) hw h

theorem not_doomed_iff {events : List WorkerEvent} (h : run step (start plan) events = some w) :
    ¬ w.Doomed ↔ AllSteps step (fun s ev => ¬ s.ResolvesEarly ev) (start plan) events := by
  constructor
  · intro hw
    by_contra hall
    obtain ⟨before,ev,after,s,v,-,-,hearly,hstep,hafter⟩ := exists_step_of_not_allSteps hall h
    exact hw (doomed_run ((doomed_step_iff hstep).mpr (.inr (not_not.mp hearly))) hafter)
  · intro hall
    exact @run_invariant_of_allSteps _ _ step (fun s => ¬ s.Doomed) _
      (fun s ev v hs hearly hstep => (doomed_step_iff hstep).not.mpr (not_or.mpr ⟨hs,hearly⟩))
      _ _ _ (not_doomed_start plan) hall h

end Doomed

section Ends

/-- Only the cleanup ends a worker well, and only a resolved receiver ends it badly. -/
structure EndsBy (w : PlanWorker) : Prop where
  removed : w.phase = .finished → w.registered = false
  resolved : w.phase = .panicked → w.rx = .taken

theorem endsBy_move (h : w.EndsBy) (hmove : Move w ev t) : t.EndsBy := by
  cases hmove with
  | signal => exact ⟨fun _ => rfl,fun hp => Receiver.send_eq_taken.mpr (h.resolved hp)⟩
  | senderDropped => exact ⟨fun _ => rfl,fun hp => Receiver.dropSender_eq_taken.mpr (h.resolved hp)⟩
  | panicked hphase hrx => exact ⟨fun hf => WorkerPhase.noConfusion hf,fun _ => hrx⟩
  | cleanup hphase => exact ⟨fun _ => rfl,fun hp => WorkerPhase.noConfusion hp⟩
  | _ => exact ⟨fun hf => WorkerPhase.noConfusion hf,fun hp => WorkerPhase.noConfusion hp⟩

theorem endsBy_run {events : List WorkerEvent} (h : run step (start plan) events = some w) : w.EndsBy :=
  run_invariant (fun _ _ _ hs hstep => endsBy_move hs (step_move hstep))
    ⟨fun hf => WorkerPhase.noConfusion hf,fun hp => WorkerPhase.noConfusion hp⟩ h

theorem EndsBy.finished_iff (h : w.EndsBy) (hended : w.Ended) : w.phase = .finished ↔ ¬ w.Doomed := by
  constructor
  · intro hphase hdoomed
    simpa [Awaits, hphase] using hdoomed.2
  · intro hdoomed
    rcases hended with hphase | hphase
    · exact hphase
    · exact absurd ⟨h.resolved hphase,by simp [Awaits, hphase]⟩ hdoomed

end Ends

/-- The worker has sent one report for each leg in order and has left the cancel map. -/
structure Complete (plan : TradePlan) (w : PlanWorker) : Prop where
  finished : w.phase = .finished
  removed : w.registered = false
  covers : List.Forall₂ (Covers plan) plan.legs w.reports

/-- The worker of a plan always comes to an end. It has reported every leg by then
exactly if no step resolved the receiver of the cancel signal before a passive leg. -/
theorem every_leg_reported_iff (plan : TradePlan) {events : List WorkerEvent}
    (h : run step (start plan) events = some w) :
    events.countP Own ≤ 2 * plan.legs.length + 2 ∧
      (¬ w.Ended → ∃ ev, Own ev ∧ (w.step ev).isSome) ∧
      (w.Ended → (Complete plan w ↔
        AllSteps step (fun s ev => ¬ s.ResolvesEarly ev) (start plan) events)) := by
  refine ⟨countP_own_le h,exists_own_step,fun hended => ?_⟩
  have hends : w.EndsBy := endsBy_run h
  rw [← not_doomed_iff h, ← hends.finished_iff hended]
  constructor
  · exact Complete.finished
  · intro hphase
    exact ⟨hphase,hends.removed hphase,(legReports_run h).covers_of_finished hphase⟩

def passivePlan : TradePlan :=
  ⟨"p1","USDT",1,1,[⟨"ETHBTC",false,1,5,false,0⟩,⟨"BTCUSDT",false,1,7,false,1⟩]⟩

theorem every_leg_reported_iff_passivePlan :
    Complete passivePlan ⟨passivePlan,.finished,false,.taken,
      [⟨"p1",0,0,5,.partiallyFilled⟩,⟨"p1",1,0,7,.cancelled⟩]⟩ := by
  refine ((@every_leg_reported_iff _ passivePlan
    [.register,.check,.select true,.check,.signal,.select false,.cleanup] rfl).2.2 (.inl rfl)).mpr ?_
  have hfirst : ¬ ResolvesEarly ⟨passivePlan,.checking passivePlan.legs,true,.waiting,[]⟩ .check := by
    rw [resolvesEarly_check rfl]
    simp
  have hsecond : ¬ ResolvesEarly ⟨passivePlan,.checking [⟨"BTCUSDT",false,1,7,false,1⟩],true,.waiting,
      [⟨"p1",0,0,5,.partiallyFilled⟩]⟩ .check := by
    rw [resolvesEarly_check rfl]
    simp
  have hlast : ¬ ResolvesEarly ⟨passivePlan,.selecting ⟨"BTCUSDT",false,1,7,false,1⟩ [],false,.ready (),
      [⟨"p1",0,0,5,.partiallyFilled⟩]⟩ (.select false) := by
    simp [ResolvesEarly, Passive]
  exact .intro id rfl (.intro hfirst rfl (.intro id rfl (.intro hsecond rfl (.intro id rfl
    (.intro hlast rfl (.intro id rfl trivial))))))

/-- The signal comes while the first leg waits, and the second leg is never reported. -/
theorem passivePlan_panics :
    ∃ w, run step (start passivePlan)
        [.register,.check,.signal,.select false,.check,.select true] = some w ∧
      w.Ended ∧ w.phase = .panicked ∧ w.reports = [⟨"p1",0,0,5,.cancelled⟩] ∧ ¬ Complete passivePlan w :=
  ⟨⟨passivePlan,.panicked,false,.taken,[⟨"p1",0,0,5,.cancelled⟩]⟩,rfl,.inr rfl,rfl,rfl,
    fun h => by cases h.finished⟩

end PlanWorker

end ArbCore
