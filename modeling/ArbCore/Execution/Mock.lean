import ArbCore.Library.Oneshot
import ArbCore.Strategy.Engine

/-! # The mock executor's worker of one plan

The worker registers the sender of its cancel signal and then handles the legs
in order. A taker leg sleeps and is filled. A passive leg waits for a timer or
for the signal, whichever comes first. Whenever no step of the worker is under
way the cancel task may send the signal, or the sender may be dropped because
another plan registered under the same identifier.
-/
namespace ArbCore
open Oneshot

/-- Where the worker is; `rest` are the legs after the one being handled. -/
inductive WorkerPhase where
  | registering
  | checking (legs : List OrderLeg)
  | sleeping (leg : OrderLeg) (rest : List OrderLeg)
  | selecting (leg : OrderLeg) (rest : List OrderLeg)
  | finished
  | panicked

/-- The legs still to report in a phase; a worker that panicked left some unreported. -/
def WorkerPhase.Awaits (plan : TradePlan) (legs : List OrderLeg) : WorkerPhase → Prop
  | .registering => legs = plan.legs
  | .checking rest => legs = rest
  | .sleeping leg rest | .selecting leg rest => legs = leg :: rest
  | .finished => legs = []
  | .panicked => legs ≠ []

/-- `registered` says whether the sender is in the cancel map, and `reports` is
what the worker sent so far. -/
structure PlanWorker where
  plan : TradePlan
  phase : WorkerPhase
  registered : Bool
  rx : Receiver Unit
  reports : List ExecutionReport

inductive WorkerEvent where
  | register
  | signal
  | senderDropped
  | check
  | timer
  | select (timerFirst : Bool)
  | cleanup

namespace PlanWorker

def start (plan : TradePlan) : PlanWorker := ⟨plan,.registering,false,.waiting,[]⟩

def report (w : PlanWorker) (leg : OrderLeg) (rest : List OrderLeg) (filledQty remainingQty : Decimal)
    (status : ExecStatus) : PlanWorker :=
  { w with
    phase := .checking rest
    reports := w.reports ++ [⟨w.plan.id,leg.legIdx,filledQty,remainingQty,status⟩] }

def step (w : PlanWorker) : WorkerEvent → Option PlanWorker
  | .register => match w.phase with
    | .registering => some { w with phase := .checking w.plan.legs, registered := true }
    | _ => none
  | .signal =>
    if w.registered then some { w with registered := false, rx := w.rx.send () } else none
  | .senderDropped =>
    if w.registered then some { w with registered := false, rx := w.rx.dropSender } else none
  | .check => match w.phase with
    | .checking (leg :: rest) => match w.rx.tryRecv with
      | (.ok _,rx) => some ({ w with rx := rx }.report leg rest 0 leg.qty .cancelled)
      | (.error _,rx) =>
        some { w with rx := rx, phase := if leg.isTaker then .sleeping leg rest else .selecting leg rest }
    | _ => none
  | .timer => match w.phase with
    | .sleeping leg rest => some (w.report leg rest leg.qty 0 .filled)
    | _ => none
  | .select timerFirst => match w.phase with
    | .selecting leg rest => match w.rx.poll with
      | none => some { w with phase := .panicked }
      | some (outcome,rx) =>
        if timerFirst then some (w.report leg rest 0 leg.qty .partiallyFilled)
        else match outcome with
          | .ready _ => some ({ w with rx := rx }.report leg rest 0 leg.qty .cancelled)
          | .pending => none
    | _ => none
  | .cleanup => match w.phase with
    | .checking [] =>
      some { w with phase := .finished, registered := false, rx := w.rx.dropSender }
    | _ => none

def Ended (w : PlanWorker) : Prop := w.phase = .finished ∨ w.phase = .panicked

variable {w t : PlanWorker} {ev : WorkerEvent}

inductive Move (w : PlanWorker) : WorkerEvent → PlanWorker → Prop
  | register (hphase : w.phase = .registering) :
      Move w .register { w with phase := .checking w.plan.legs, registered := true }
  | signal : Move w .signal { w with registered := false, rx := w.rx.send () }
  | senderDropped : Move w .senderDropped { w with registered := false, rx := w.rx.dropSender }
  | checkCancelled {leg : OrderLeg} {rest : List OrderLeg} (hphase : w.phase = .checking (leg :: rest))
      (hrx : w.rx = .ready ()) :
      Move w .check ({ w with rx := .taken }.report leg rest 0 leg.qty .cancelled)
  | sleep {leg : OrderLeg} {rest : List OrderLeg} (hphase : w.phase = .checking (leg :: rest))
      (hrx : w.rx ≠ .ready ()) :
      Move w .check { w with rx := w.rx.tryRecv.2, phase := .sleeping leg rest }
  | select {leg : OrderLeg} {rest : List OrderLeg} (hphase : w.phase = .checking (leg :: rest))
      (hrx : w.rx ≠ .ready ()) :
      Move w .check { w with rx := w.rx.tryRecv.2, phase := .selecting leg rest }
  | filled {leg : OrderLeg} {rest : List OrderLeg} (hphase : w.phase = .sleeping leg rest) :
      Move w .timer (w.report leg rest leg.qty 0 .filled)
  | unfilled {leg : OrderLeg} {rest : List OrderLeg} (hphase : w.phase = .selecting leg rest)
      (hrx : w.rx ≠ .taken) :
      Move w (.select true) (w.report leg rest 0 leg.qty .partiallyFilled)
  | selectCancelled {leg : OrderLeg} {rest : List OrderLeg} (hphase : w.phase = .selecting leg rest)
      (hrx : w.rx ≠ .taken) :
      Move w (.select false) ({ w with rx := .taken }.report leg rest 0 leg.qty .cancelled)
  | panicked {leg : OrderLeg} {rest : List OrderLeg} {timerFirst : Bool}
      (hphase : w.phase = .selecting leg rest) (hrx : w.rx = .taken) :
      Move w (.select timerFirst) { w with phase := .panicked }
  | cleanup (hphase : w.phase = .checking []) :
      Move w .cleanup { w with phase := .finished, registered := false, rx := w.rx.dropSender }

theorem step_move (h : w.step ev = some t) : Move w ev t := by
  cases ev with
  | register =>
    simp only [step] at h
    split at h
    · rename_i hphase
      exact Option.some.inj h ▸ .register hphase
    · cases h
  | signal =>
    simp only [step] at h
    split_ifs at h
    exact Option.some.inj h ▸ .signal
  | senderDropped =>
    simp only [step] at h
    split_ifs at h
    exact Option.some.inj h ▸ .senderDropped
  | check =>
    simp only [step] at h
    split at h
    · rename_i leg rest hphase
      split at h
      · rename_i hrecv
        obtain ⟨hrx,rfl⟩ := Receiver.tryRecv_eq_ok hrecv
        exact Option.some.inj h ▸ .checkCancelled hphase hrx
      · rename_i rx hrecv
        have hrx : w.rx ≠ .ready () := Receiver.tryRecv_eq_error hrecv ()
        have hrest : rx = w.rx.tryRecv.2 := by rw [hrecv]
        subst hrest
        cases htaker : leg.isTaker with
        | true =>
          rw [htaker] at h
          exact Option.some.inj h ▸ .sleep hphase hrx
        | false =>
          rw [htaker] at h
          exact Option.some.inj h ▸ .select hphase hrx
    · cases h
  | timer =>
    simp only [step] at h
    split at h
    · rename_i hphase
      exact Option.some.inj h ▸ .filled hphase
    · cases h
  | select timerFirst =>
    simp only [step] at h
    split at h
    · rename_i leg rest hphase
      split at h
      · rename_i hpoll
        exact Option.some.inj h ▸ .panicked hphase (Receiver.poll_eq_none hpoll)
      · rename_i outcome rx hpoll
        have hrx : w.rx ≠ .taken := by
          intro htaken
          rw [htaken] at hpoll
          cases hpoll
        cases timerFirst with
        | true => exact Option.some.inj h ▸ .unfilled hphase hrx
        | false =>
          cases outcome with
          | pending => cases h
          | ready a =>
            have htaken := Receiver.poll_eq_ready hpoll
            subst htaken
            exact Option.some.inj h ▸ .selectCancelled hphase hrx
    · cases h
  | cleanup =>
    simp only [step] at h
    split at h
    · rename_i hphase
      exact Option.some.inj h ▸ .cleanup hphase
    · cases h

theorem isTaker_of_check {leg : OrderLeg} {rest : List OrderLeg} (hphase : w.phase = .checking (leg :: rest))
    (hstep : w.step .check = some t) :
    (t.phase = .sleeping leg rest → leg.isTaker = true) ∧
      (t.phase = .selecting leg rest → leg.isTaker = false) := by
  simp only [step, hphase] at hstep
  split at hstep
  · cases hstep
    simp [report]
  · cases hstep
    cases leg.isTaker <;> simp

end PlanWorker

end ArbCore
