import ArbCore.Library.Backoff
import ArbCore.Library.LabelledRun

/-! # Sockets that reconnect

A loop that connects, reads until the connection ends, waits and connects again, whatever it
does with a message. The two websocket loops are each shown to be one.
-/
namespace ArbCore

inductive SocketRead where
  | text (txt : String)
  | binary
  | ping (payload : List UInt8)
  | pong
  | close
  | frame
  | error

def SocketRead.text? : SocketRead → Option String
  | .text txt => some txt
  | _ => none

def SocketRead.ping? : SocketRead → Option (List UInt8)
  | .ping payload => some payload
  | _ => none

/-- Where the loop is: awaiting the connection, awaiting a message, or about to wait. -/
inductive SocketPhase where
  | connecting
  | reading
  | retrying
deriving DecidableEq

/-- `attempts` tells which connections were established and `waits` how long the loop slept,
in milliseconds. -/
structure Socket where
  phase : SocketPhase
  backoffMs : ℕ
  attempts : List Bool
  waits : List ℕ

/-- `random` is the number that the jitter is taken from. -/
inductive SocketEvent where
  | connected
  | refused
  | read (msg : SocketRead)
  | ended
  | slept (random : ℕ)

def SocketEvent.read? : SocketEvent → Option SocketRead
  | .read msg => some msg
  | _ => none

def reconnectBackoff : Backoff := ⟨100,10000⟩

namespace Socket
variable {stop : SocketRead → Bool} {s t : Socket} {ev : SocketEvent}

def new : Socket := ⟨.connecting,100,[],[]⟩

/-- `stop` are the messages that end the connection. -/
def step (stop : SocketRead → Bool) (s : Socket) : SocketEvent → Option Socket
  | .connected => match s.phase with
    | .connecting => some { s with phase := .reading, backoffMs := 100, attempts := s.attempts ++ [true] }
    | _ => none
  | .refused => match s.phase with
    | .connecting => some { s with phase := .retrying, attempts := s.attempts ++ [false] }
    | _ => none
  | .read msg => match s.phase with
    | .reading => some { s with phase := if stop msg then .retrying else .reading }
    | _ => none
  | .ended => match s.phase with
    | .reading => some { s with phase := .retrying }
    | _ => none
  | .slept random => match s.phase with
    | .retrying =>
      let jitter := random % 100
      some ⟨.connecting,min (s.backoffMs * 2) 10000,s.attempts,s.waits ++ [s.backoffMs + jitter]⟩
    | _ => none

/-- The loop has slept after every attempt but the current one, and its counter stands at the
delay of the next sleep. -/
structure Paced (s : Socket) : Prop where
  waited : reconnectBackoff.Waited 100 s.attempts s.waits
  connecting : s.phase = .connecting → s.waits.length = s.attempts.length ∧
    s.backoffMs = reconnectBackoff.delay (Backoff.sinceSuccess s.attempts)
  busy : s.phase ≠ .connecting → s.waits.length + 1 = s.attempts.length ∧
    s.backoffMs = reconnectBackoff.delay (Backoff.sinceSuccess s.attempts - 1)

theorem paced_new : new.Paced :=
  ⟨Backoff.waited_nil,fun _ => ⟨rfl,rfl⟩,fun h => absurd rfl h⟩

theorem Paced.step (hs : s.Paced) (h : s.step stop ev = some t) : t.Paced := by
  obtain ⟨hwaited,hconnecting,hbusy⟩ := hs
  cases ev with
  | connected =>
    simp only [Socket.step] at h
    split at h
    · rename_i hphase
      cases h
      obtain ⟨hlength,-⟩ := hconnecting hphase
      refine ⟨hwaited.attempt true,(fun h => by cases h),fun _ => ⟨?_,?_⟩⟩
      · simp [hlength]
      · rw [Backoff.sinceSuccess_success]
        rfl
    · cases h
  | refused =>
    simp only [Socket.step] at h
    split at h
    · rename_i hphase
      cases h
      obtain ⟨hlength,hbackoff⟩ := hconnecting hphase
      refine ⟨hwaited.attempt false,(fun h => by cases h),fun _ => ⟨?_,?_⟩⟩
      · simp [hlength]
      · rw [Backoff.sinceSuccess_failure]
        exact hbackoff
    · cases h
  | read msg =>
    simp only [Socket.step] at h
    split at h
    · rename_i hphase
      cases h
      have hbusy := hbusy (by rw [hphase]; nofun)
      refine ⟨hwaited,fun h => ?_,fun _ => hbusy⟩
      simp only at h
      split at h <;> cases h
    · cases h
  | ended =>
    simp only [Socket.step] at h
    split at h
    · rename_i hphase
      cases h
      exact ⟨hwaited,(fun h => by cases h),fun _ => hbusy (by rw [hphase]; nofun)⟩
    · cases h
  | slept random =>
    simp only [Socket.step] at h
    split at h
    · rename_i hphase
      cases h
      obtain ⟨hlength,hbackoff⟩ := hbusy (by rw [hphase]; nofun)
      have hpos : 0 < Backoff.sinceSuccess s.attempts :=
        Backoff.sinceSuccess_pos fun hnil => by rw [hnil] at hlength; cases hlength
      have hnext := reconnectBackoff.next_delay (Backoff.sinceSuccess s.attempts - 1)
      rw [Nat.sub_add_cancel hpos] at hnext
      refine ⟨hbackoff ▸ hwaited.wait hlength (Nat.mod_lt random (by decide)),fun _ => ⟨?_,?_⟩,fun h => ?_⟩
      · simp [hlength]
      · exact hbackoff ▸ hnext
      · exact absurd rfl h
    · cases h

end Socket

end ArbCore
