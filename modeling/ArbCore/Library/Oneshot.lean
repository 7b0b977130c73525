import Mathlib.Logic.Basic
import Mathlib.Tactic.Common

/-! # One-shot channels

The receiving end of a channel that carries at most one value. The value can be
taken once, by trying or by awaiting; afterwards trying reports a closed channel
and awaiting panics.
-/
namespace ArbCore.Oneshot
variable {α : Type*}

/-- What the receiver holds: nothing yet, the value, the news that the sender is
gone, or nothing any more. -/
inductive Receiver (α : Type*) where
  | waiting
  | ready (a : α)
  | closed
  | taken
deriving DecidableEq

inductive TryRecvError where
  | empty
  | closed
deriving DecidableEq

inductive Poll (α : Type*) where
  | pending
  | ready (a : Option α)

namespace Receiver

def send (a : α) : Receiver α → Receiver α
  | .waiting => .ready a
  | rx => rx

def dropSender : Receiver α → Receiver α
  | .waiting => .closed
  | rx => rx

def tryRecv : Receiver α → Except TryRecvError α × Receiver α
  | .waiting => (.error .empty,.waiting)
  | .ready a => (.ok a,.taken)
  | .closed | .taken => (.error .closed,.taken)

/-- `none` is the panic of awaiting a receiver that has already resolved. -/
def poll : Receiver α → Option (Poll α × Receiver α)
  | .waiting => some (.pending,.waiting)
  | .ready a => some (.ready (some a),.taken)
  | .closed => some (.ready none,.taken)
  | .taken => none

theorem tryRecv_eq_ok {rx rx' : Receiver α} {a : α} (h : rx.tryRecv = (.ok a,rx')) :
    rx = .ready a ∧ rx' = .taken := by
  cases rx with
  | ready b =>
    cases h
    exact ⟨rfl,rfl⟩
  | waiting => cases h
  | closed => cases h
  | taken => cases h

theorem tryRecv_eq_error {rx rx' : Receiver α} {err : TryRecvError} (h : rx.tryRecv = (.error err,rx'))
    (a : α) : rx ≠ .ready a := by
  rintro rfl
  cases h

theorem poll_eq_none {rx : Receiver α} (h : rx.poll = none) : rx = .taken := by
  cases rx with
  | taken => rfl
  | waiting => cases h
  | ready b => cases h
  | closed => cases h

theorem poll_eq_ready {rx rx' : Receiver α} {a : Option α} (h : rx.poll = some (.ready a,rx')) :
    rx' = .taken := by
  cases rx with
  | waiting => cases h
  | ready b =>
    cases h
    rfl
  | closed =>
    cases h
    rfl
  | taken => cases h

theorem tryRecv_ne_ready (rx : Receiver α) (a : α) : rx.tryRecv.2 ≠ .ready a := by
  cases rx <;> nofun

theorem dropSender_ne_ready {rx : Receiver α} {a : α} (h : rx ≠ .ready a) : rx.dropSender ≠ .ready a := by
  cases rx with
  | waiting => nofun
  | ready b => exact h
  | closed => nofun
  | taken => nofun

theorem send_eq_taken {rx : Receiver α} {a : α} : rx.send a = .taken ↔ rx = .taken := by
  cases rx <;> simp [send]

theorem dropSender_eq_taken {rx : Receiver α} : rx.dropSender = .taken ↔ rx = .taken := by
  cases rx <;> simp [dropSender]

theorem tryRecv_eq_taken {rx : Receiver α} (h : ∀ a, rx ≠ .ready a) :
    rx.tryRecv.2 = .taken ↔ rx = .closed ∨ rx = .taken := by
  cases rx with
  | waiting => simp [tryRecv]
  | ready a => exact absurd rfl (h a)
  | closed => simp [tryRecv]
  | taken => simp [tryRecv]

@[simp] theorem tryRecv_waiting : (waiting : Receiver α).tryRecv = (.error .empty,.waiting) := rfl
@[simp] theorem tryRecv_taken : (taken : Receiver α).tryRecv = (.error .closed,.taken) := rfl
@[simp] theorem send_taken (a : α) : send a taken = taken := rfl
@[simp] theorem dropSender_taken : (taken : Receiver α).dropSender = taken := rfl

end Receiver

end ArbCore.Oneshot
