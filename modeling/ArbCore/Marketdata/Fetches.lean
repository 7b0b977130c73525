import ArbCore.Marketdata.TriSubscription

/-! # The three fetches of a tick

What a subscription records of a tick are the results that its three fetches delivered.
-/
namespace ArbCore

inductive Fetch where
  | ab
  | bc
  | ac
deriving DecidableEq

def Triangle.symbol (tri : Triangle) : Fetch → String
  | .ab => tri.symAb
  | .bc => tri.symBc
  | .ac => tri.symAc

def Triangle.view (tri : Triangle) (snap : Fetch → OrderbookSnapshot) : TriView :=
  buildTriviewFromSnapshots tri.symAb (snap .ab) tri.symBc (snap .bc) tri.symAc (snap .ac) tri.topN

section Results
variable {E : Type}

def Fetch.event : Fetch → Except E OrderbookSnapshot → SubscriptionEvent E
  | .ab => .aFetched
  | .bc => .bFetched
  | .ac => .cFetched

theorem Fetch.event_inj {f g : Fetch} {res res' : Except E OrderbookSnapshot} (h : f.event res = g.event res') :
    f = g ∧ res = res' := by
  cases f <;> cases g <;> cases h <;> exact ⟨rfl,rfl⟩

def Tick.res (tick : Tick E) : Fetch → Except E OrderbookSnapshot
  | .ab => tick.aRes
  | .bc => tick.bRes
  | .ac => tick.cRes

def SubscriptionPhase.res : SubscriptionPhase E → Fetch → Option (Except E OrderbookSnapshot)
  | .fetching aRes bRes cRes => fun
    | .ab => aRes
    | .bc => bRes
    | .ac => cRes
  | _ => fun _ => none

theorem Tick.view?_eq_some {tri : Triangle} {tick : Tick E} {view : TriView} (h : tick.view? tri = some view) :
    ∃ snap : Fetch → OrderbookSnapshot, (∀ fetch, tick.res fetch = .ok (snap fetch)) ∧ view = tri.view snap := by
  obtain ⟨aSnap,bSnap,cSnap,ha,hb,hc,hview⟩ := TriSubscription.view?_eq_some h
  refine ⟨fun | .ab => aSnap | .bc => bSnap | .ac => cSnap,fun fetch => ?_,hview⟩
  cases fetch with
  | ab => exact ha
  | bc => exact hb
  | ac => exact hc

end Results

namespace TriSubscription
variable {E : Type} {P : Fetch → Except E OrderbookSnapshot → Prop} {tri : Triangle} {s u : TriSubscription E}
  {ev : SubscriptionEvent E}

structure Fetched (P : Fetch → Except E OrderbookSnapshot → Prop) (s : TriSubscription E) : Prop where
  pending : ∀ fetch res, s.phase.res fetch = some res → P fetch res
  joined : ∀ tick ∈ s.ticks, ∀ fetch, P fetch (tick.res fetch)

theorem fetched_new : new.Fetched P := ⟨(fun _ _ h => by cases h),fun _ h => by cases h⟩

theorem emit_phase (tri : Triangle) (s : TriSubscription E) (tick : Tick E) (fetch : Fetch) :
    (s.emit tri tick).phase.res fetch = none := by
  unfold emit
  split
  · split <;> rfl
  · rfl

theorem emit_received (tri : Triangle) (s : TriSubscription E) (tick : Tick E) :
    (s.emit tri tick).received = s.received := by
  unfold emit
  split
  · split <;> rfl
  · rfl

/-- Only a reception adds to what was received. -/
theorem step_received (h : s.step tri ev = some u) (hev : ev ≠ .recv) : u.received = s.received := by
  cases ev with
  | recv => exact absurd rfl hev
  | joined =>
    simp only [TriSubscription.step] at h
    split at h
    · cases h
      exact emit_received _ _ _
    · cases h
  | sent =>
    simp only [TriSubscription.step] at h
    split at h
    · split at h <;> cases h
      rfl
    · cases h
  | sendClosed =>
    simp only [TriSubscription.step] at h
    split at h
    · split_ifs at h
      cases h
      rfl
    · cases h
  | shutdownSent | shutdownDropped | closeRx | dropRx =>
    cases h
    rfl
  | tick | aFetched _ | bFetched _ | cFetched _ | sendTimedOut | shutdown =>
    simp only [TriSubscription.step] at h
    split at h
    · cases h
      rfl
    · cases h

theorem Fetched.deliver (hs : s.Fetched P) {aRes bRes cRes : Option (Except E OrderbookSnapshot)}
    (hphase : ∀ fetch res, (SubscriptionPhase.fetching aRes bRes cRes).res fetch = some res →
      s.phase.res fetch = some res ∨ P fetch res) :
    Fetched P { s with phase := .fetching aRes bRes cRes } :=
  ⟨fun fetch res h => (hphase fetch res h).elim (hs.pending fetch res) id,hs.joined⟩

theorem Fetched.step (hs : s.Fetched P) (hev : ∀ fetch res, ev = fetch.event res → P fetch res)
    (h : s.step tri ev = some u) : u.Fetched P := by
  cases ev with
  | joined =>
    simp only [TriSubscription.step] at h
    split at h
    · rename_i aRes bRes cRes hphase
      cases h
      have hjoined : ∀ fetch, P fetch (Tick.res ⟨aRes,bRes,cRes⟩ fetch) := by
        intro fetch
        refine hs.pending fetch _ ?_
        rw [hphase]
        cases fetch <;> rfl
      refine ⟨fun fetch res hres => ?_,?_⟩
      · rw [emit_phase] at hres
        cases hres
      · rw [emit_ticks]
        exact List.forall_mem_append.mpr ⟨hs.joined,List.forall_mem_singleton.mpr hjoined⟩
    · cases h
  | aFetched res | bFetched res | cFetched res =>
    simp only [TriSubscription.step] at h
    split at h
    · rename_i hphase
      cases h
      refine hs.deliver fun fetch res' hres => ?_
      rw [hphase]
      cases fetch <;> first | exact .inl hres | exact .inr (Option.some.inj hres ▸ hev _ res rfl)
    · cases h
  | tick =>
    simp only [TriSubscription.step] at h
    split at h
    · cases h
      exact hs.deliver fun fetch res hres => by cases fetch <;> cases hres
    · cases h
  | sent | sendClosed =>
    simp only [TriSubscription.step] at h
    split at h
    · split at h
      · cases h
        exact ⟨(fun _ _ hres => by cases hres),hs.joined⟩
      · cases h
    · cases h
  | sendTimedOut | shutdown =>
    simp only [TriSubscription.step] at h
    split at h
    · cases h
      exact ⟨(fun _ _ hres => by cases hres),hs.joined⟩
    · cases h
  | recv =>
    obtain ⟨⟨tv,channel⟩,-,rfl⟩ := Option.map_eq_some_iff.mp h
    exact ⟨hs.pending,hs.joined⟩
  | shutdownSent | shutdownDropped | closeRx | dropRx =>
    cases h
    exact ⟨hs.pending,hs.joined⟩

end TriSubscription

end ArbCore
