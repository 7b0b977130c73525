import ArbCore.Library.BoundedChannel
import ArbCore.Library.LabelledRun
import ArbCore.Library.Oneshot
import ArbCore.Marketdata.TriView

/-! # The subscription task of a triangle

On each tick the task fetches three snapshots and, if all three arrived, builds a view
and offers it to the consumer: at once, and if that fails for at most 100 ms more. The
task, the three fetches, the timer and the consumer interleave freely. `ticks` records
the results of every tick whose fetches are done and `received` what the consumer took.
-/
namespace ArbCore
open LabelledRun Oneshot

structure Triangle where
  symAb : String
  symBc : String
  symAc : String
  topN : ℕ

structure Tick (E : Type) where
  aRes : Except E OrderbookSnapshot
  bRes : Except E OrderbookSnapshot
  cRes : Except E OrderbookSnapshot

def Tick.view? {E : Type} (tri : Triangle) (tick : Tick E) : Option TriView :=
  match tick.aRes, tick.bRes, tick.cRes with
  | .ok aSnap, .ok bSnap, .ok cSnap =>
    some (buildTriviewFromSnapshots tri.symAb aSnap tri.symBc bSnap tri.symAc cSnap tri.topN)
  | _, _, _ => none

/-- Where the task is: awaiting a tick or the shutdown, awaiting the three fetches, or
in the timed send. -/
inductive SubscriptionPhase (E : Type) where
  | select
  | fetching (aRes bRes cRes : Option (Except E OrderbookSnapshot))
  | sending (tv : TriView)
  | ended

def SubscriptionPhase.pending {E : Type} : SubscriptionPhase E → List TriView
  | .sending tv => [tv]
  | _ => []

structure TriSubscription (E : Type) where
  phase : SubscriptionPhase E
  channel : BoundedChannel TriView 64
  shutdownRx : Receiver Unit
  ticks : List (Tick E)
  received : List TriView

inductive SubscriptionEvent (E : Type) where
  | tick
  | aFetched (res : Except E OrderbookSnapshot)
  | bFetched (res : Except E OrderbookSnapshot)
  | cFetched (res : Except E OrderbookSnapshot)
  | joined
  | sent
  | sendTimedOut
  | sendClosed
  | shutdownSent
  | shutdownDropped
  | shutdown
  | recv
  | closeRx
  | dropRx

namespace TriSubscription
variable {E : Type}

def new : TriSubscription E := ⟨.select,.new,.waiting,[],[]⟩

/-- What follows the join: the view, if there is one, is tried to be sent at once. -/
def emit (tri : Triangle) (s : TriSubscription E) (tick : Tick E) : TriSubscription E :=
  match tick.view? tri with
  | some tv =>
    match s.channel.trySend tv with
    | .ok channel => { s with channel := channel, phase := .select, ticks := s.ticks ++ [tick] }
    | .error _ => { s with phase := .sending tv, ticks := s.ticks ++ [tick] }
  | none => { s with phase := .select, ticks := s.ticks ++ [tick] }

def step (tri : Triangle) (s : TriSubscription E) : SubscriptionEvent E → Option (TriSubscription E)
  | .tick => match s.phase with
    | .select => some { s with phase := .fetching none none none }
    | _ => none
  | .aFetched res => match s.phase with
    | .fetching none b c => some { s with phase := .fetching (some res) b c }
    | _ => none
  | .bFetched res => match s.phase with
    | .fetching a none c => some { s with phase := .fetching a (some res) c }
    | _ => none
  | .cFetched res => match s.phase with
    | .fetching a b none => some { s with phase := .fetching a b (some res) }
    | _ => none
  | .joined => match s.phase with
    | .fetching (some aRes) (some bRes) (some cRes) => some (s.emit tri ⟨aRes,bRes,cRes⟩)
    | _ => none
  | .sent => match s.phase with
    | .sending tv => match s.channel.trySend tv with
      | .ok channel => some { s with channel := channel, phase := .select }
      | .error _ => none
    | _ => none
  | .sendTimedOut => match s.phase with
    | .sending _ => some { s with phase := .select }
    | _ => none
  | .sendClosed => match s.phase with
    | .sending _ => if s.channel.closed then some { s with phase := .select } else none
    | _ => none
  | .shutdownSent => some { s with shutdownRx := s.shutdownRx.send () }
  | .shutdownDropped => some { s with shutdownRx := s.shutdownRx.dropSender }
  | .shutdown => match s.phase, s.shutdownRx.poll with
    | .select, some (.ready _,rx) => some { s with phase := .ended, shutdownRx := rx }
    | _, _ => none
  | .recv => s.channel.recv.map fun r => { s with channel := r.2, received := s.received ++ [r.1] }
  | .closeRx => some { s with channel := s.channel.close }
  | .dropRx => some { s with channel := s.channel.dropReceiver }

def offered (s : TriSubscription E) : List TriView :=
  s.received ++ s.channel.queue ++ s.phase.pending

def views (tri : Triangle) (s : TriSubscription E) : List TriView := s.ticks.filterMap (Tick.view? tri)

variable {tri : Triangle} {s u : TriSubscription E} {tick : Tick E} {ev : SubscriptionEvent E}

theorem view?_eq_some {tv : TriView} (h : tick.view? tri = some tv) :
    ∃ aSnap bSnap cSnap, tick.aRes = .ok aSnap ∧ tick.bRes = .ok bSnap ∧ tick.cRes = .ok cSnap ∧
      tv = buildTriviewFromSnapshots tri.symAb aSnap tri.symBc bSnap tri.symAc cSnap tri.topN := by
  unfold Tick.view? at h
  split at h
  · rename_i aSnap bSnap cSnap ha hb hc
    exact ⟨aSnap,bSnap,cSnap,ha,hb,hc,(Option.some.inj h).symm⟩
  · cases h

theorem emit_ticks (tri : Triangle) (s : TriSubscription E) (tick : Tick E) :
    (s.emit tri tick).ticks = s.ticks ++ [tick] := by
  unfold emit
  split
  · split <;> rfl
  · rfl

theorem emit_offered (hphase : s.phase.pending = []) (tick : Tick E) :
    (s.emit tri tick).offered = s.offered ++ (tick.view? tri).toList := by
  unfold emit offered
  rw [hphase, List.append_nil]
  cases tick.view? tri with
  | none => rfl
  | some tv =>
    dsimp only
    split
    · rename_i channel hsend
      rw [BoundedChannel.trySend_eq_ok hsend, ← List.append_assoc]
      exact List.append_nil _
    · rfl

/-- A step joins a tick and offers its view, if there is one, or it offers nothing new. -/
theorem step_cases (h : s.step tri ev = some u) :
    (∃ tick, u.ticks = s.ticks ++ [tick] ∧ u.offered = s.offered ++ (tick.view? tri).toList) ∨
      (u.ticks = s.ticks ∧ u.offered.Sublist s.offered) := by
  cases ev with
  | joined =>
    simp only [step] at h
    split at h
    · rename_i hphase
      cases h
      exact .inl ⟨_,emit_ticks tri s _,emit_offered (by rw [hphase]; rfl) _⟩
    · cases h
  | sent =>
    simp only [step] at h
    split at h
    · rename_i tv hphase
      split at h
      · rename_i channel hsend
        cases h
        refine .inr ⟨rfl,?_⟩
        rw [offered, offered, BoundedChannel.trySend_eq_ok hsend, hphase, ← List.append_assoc]
        exact (List.append_nil _).symm ▸ List.Sublist.refl _
      · cases h
    · cases h
  | recv =>
    obtain ⟨⟨tv,channel⟩,hrecv,rfl⟩ := Option.map_eq_some_iff.mp h
    refine .inr ⟨rfl,?_⟩
    rw [offered, offered, BoundedChannel.recv_eq_some hrecv, List.append_assoc s.received]
    exact List.Sublist.refl _
  | dropRx =>
    cases h
    refine .inr ⟨rfl,?_⟩
    exact ((List.Sublist.refl s.received).append (List.nil_sublist _)).append (List.Sublist.refl _)
  | shutdownSent | shutdownDropped | closeRx =>
    cases h
    exact .inr ⟨rfl,List.Sublist.refl _⟩
  | sendClosed =>
    simp only [step] at h
    split at h
    · split_ifs at h
      cases h
      exact .inr ⟨rfl,(List.Sublist.refl _).append (List.nil_sublist _)⟩
    · cases h
  | tick | aFetched _ | bFetched _ | cFetched _ | sendTimedOut | shutdown =>
    simp only [step] at h
    split at h
    · cases h
      exact .inr ⟨rfl,(List.Sublist.refl _).append (List.nil_sublist _)⟩
    · cases h

/-- What is offered comes from the ticks in their order. -/
theorem offered_step (hs : s.offered.Sublist (s.views tri)) (h : s.step tri ev = some u) :
    u.offered.Sublist (u.views tri) := by
  rcases step_cases h with ⟨tick,hticks,hoffered⟩ | ⟨hticks,hsub⟩
  · have hviews : u.views tri = s.views tri ++ (tick.view? tri).toList := by
      rw [views, views, hticks, List.filterMap_append, List.filterMap_cons, List.filterMap_nil]
      cases tick.view? tri <;> rfl
    rw [hoffered, hviews]
    exact hs.append (List.Sublist.refl _)
  · rw [views, hticks]
    exact hsub.trans hs

def btcTriangle : Triangle := ⟨"BTCUSDT","ETHUSDT","ETHBTC",1⟩

end TriSubscription

end ArbCore
