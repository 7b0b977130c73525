import ArbCore.Marketdata.Registry

/-! # One worker per symbol

Whether a symbol gets one worker depends on the insertions alone: each of them is
followed by one spawn. They stay single as long as no call inserts a symbol that
another call inserted since it looked.
-/
namespace ArbCore
open LabelledRun

theorem countP_set_add {α : Type*} (p : α → Bool) {l : List α} {i : ℕ} {a : α} (h : l[i]? = some a)
    (a' : α) : (l.set i a').countP p + (if p a then 1 else 0) =
      l.countP p + (if p a' then 1 else 0) := by
  induction l generalizing i with
  | nil => cases h
  | cons b l ih =>
    cases i with
    | zero =>
      cases h
      simp only [List.set_cons_zero, List.countP_cons]
      omega
    | succ i =>
      have hrest := ih h
      simp only [List.set_cons_succ, List.countP_cons]
      omega

namespace Registry
variable {P : Type} {r t : Registry P} {ev : RegistryEvent P} {symbol : String}

/-- A sender for the symbol is in the map or was handed out, or a worker reads its channel. -/
def Feeds (r : Registry P) (symbol : String) (tx : Channel) : Prop :=
  (symbol,tx) ∈ r.workers ∨ (symbol,tx) ∈ r.handedOut ∨ r.senders.lookup symbol = some tx

def OneWorker (r : Registry P) (symbol : String) : Prop :=
  (r.workers.filter fun w => w.1 = symbol).length ≤ 1 ∧
    ∀ tx tx', r.Feeds symbol tx → r.Feeds symbol tx' → tx = tx'

/-- The step inserts a sender for a symbol that has one. -/
def Overwrites (r : Registry P) (ev : RegistryEvent P) : Prop :=
  ∃ symbol, r.Inserts symbol ev ∧ (r.senders.lookup symbol).isSome = true

def Settled (r : Registry P) : Prop := ∀ c ∈ r.calls, ∃ tx, c.phase = .returned tx

def spawnsFor (symbol : String) (w : String × Channel) : Bool := w.1 = symbol

def pendsFor (symbol : String) (c : EnsureCall P) : Bool := c.symbol = symbol && c.phase.pending?.isSome

def registrations (r : Registry P) (symbol : String) : ℕ :=
  r.workers.countP (spawnsFor symbol) + r.calls.countP (pendsFor symbol)

theorem countP_pendsFor_set (symbol : String) {i : ℕ} {symbol' : String} {phase : EnsurePhase P}
    (hcall : r.calls[i]? = some ⟨symbol',phase⟩) (phase' : EnsurePhase P) :
    (r.calls.set i ⟨symbol',phase'⟩).countP (pendsFor symbol) +
        (if symbol' = symbol ∧ phase.pending?.isSome = true then 1 else 0) =
      r.calls.countP (pendsFor symbol) +
        (if symbol' = symbol ∧ phase'.pending?.isSome = true then 1 else 0) := by
  have h := countP_set_add (pendsFor symbol) hcall ⟨symbol',phase'⟩
  simpa only [pendsFor, Bool.and_eq_true, decide_eq_true_eq] using h

theorem countP_pendsFor_set_eq (symbol : String) {i : ℕ} {symbol' : String} {phase phase' : EnsurePhase P}
    (hcall : r.calls[i]? = some ⟨symbol',phase⟩)
    (hphase : phase'.pending?.isSome = phase.pending?.isSome) :
    (r.calls.set i ⟨symbol',phase'⟩).countP (pendsFor symbol) = r.calls.countP (pendsFor symbol) := by
  have hcount := countP_pendsFor_set symbol hcall phase'
  rw [hphase] at hcount
  exact Nat.add_right_cancel hcount

theorem Move.registrations_inserted (h : Move r ev t) (hinserts : r.Inserts symbol ev) :
    t.registrations symbol = r.registrations symbol + 1 := by
  obtain ⟨i,snapshotFn,hcall,rfl⟩ := h.of_inserts hinserts
  have hcount := countP_pendsFor_set symbol hcall (.storing r.channels snapshotFn)
  simp only [EnsurePhase.pending?, Option.isSome_none, Bool.false_eq_true, and_false, ↓reduceIte,
    Option.isSome_some, and_self] at hcount
  simp only [registrations]
  omega

theorem Move.registrations_eq (h : Move r ev t) (hinserts : ¬ r.Inserts symbol ev) :
    t.registrations symbol = r.registrations symbol := by
  cases h with
  | called symbol' snapshotFn => simp [registrations, pendsFor, EnsurePhase.pending?]
  | answered symbol' => rfl
  | found hcall _ => exact Nat.add_left_cancel_iff.mpr (countP_pendsFor_set_eq symbol hcall rfl)
  | missing hcall _ => exact Nat.add_left_cancel_iff.mpr (countP_pendsFor_set_eq symbol hcall rfl)
  | @inserted i symbol' snapshotFn hcall =>
    have hne : ¬ symbol' = symbol := by
      rintro rfl
      exact hinserts ⟨i,snapshotFn,rfl,hcall⟩
    have hcount := countP_pendsFor_set symbol hcall (.storing r.channels snapshotFn)
    simp only [hne, false_and, ↓reduceIte] at hcount
    simp only [registrations]
    omega
  | stored hcall => exact Nat.add_left_cancel_iff.mpr (countP_pendsFor_set_eq symbol hcall rfl)
  | @spawned i symbol' tx hcall =>
    have hcount := countP_pendsFor_set symbol hcall (.returned tx)
    simp only [EnsurePhase.pending?, Option.isSome_some, and_true, Option.isSome_none,
      Bool.false_eq_true, and_false, ↓reduceIte] at hcount
    simp only [registrations, List.countP_append, List.countP_singleton, spawnsFor, decide_eq_true_eq]
    omega

theorem Move.registrations_le (h : Move r ev t) (symbol : String) :
    r.registrations symbol ≤ t.registrations symbol := by
  by_cases hinserts : r.Inserts symbol ev
  · exact (h.registrations_inserted hinserts).symm ▸ Nat.le_succ _
  · exact (h.registrations_eq hinserts).symm.le

theorem knows_of_registrations_pos (h : 0 < r.registrations symbol) : ∃ tx, r.Knows symbol tx := by
  rcases Nat.add_pos_iff_pos_or_pos.mp h with hworkers | hcalls
  · obtain ⟨⟨symbol',tx⟩,hw,hsymbol⟩ := List.countP_pos_iff.mp hworkers
    cases of_decide_eq_true hsymbol
    exact ⟨tx,.inl hw⟩
  · obtain ⟨c,hc,hpends⟩ := List.countP_pos_iff.mp hcalls
    simp only [pendsFor, Bool.and_eq_true, decide_eq_true_eq] at hpends
    obtain ⟨tx,htx⟩ := Option.isSome_iff_exists.mp hpends.2
    exact ⟨tx,.inr (.inr (.inr ⟨c,hc,hpends.1,htx⟩))⟩

section NoOverwrite

/-- The map has the only channel known for a symbol, registered at most once. -/
structure Single (r : Registry P) (symbol : String) : Prop where
  entry : ∀ tx, r.Knows symbol tx → r.senders.lookup symbol = some tx
  once : r.registrations symbol ≤ 1

theorem single_new (symbol : String) : (new : Registry P).Single symbol :=
  ⟨fun tx h => absurd h (not_knows_new symbol tx),Nat.zero_le _⟩

theorem Single.move (h : r.Single symbol) (hoverwrites : ¬ r.Overwrites ev) (hmove : Move r ev t) :
    t.Single symbol := by
  by_cases hinserts : r.Inserts symbol ev
  · have hnone : r.senders.lookup symbol = none := by
      by_contra hsome
      exact hoverwrites ⟨symbol,hinserts,Option.isSome_iff_ne_none.mpr hsome⟩
    have hunknown : ∀ tx, ¬ r.Knows symbol tx := fun tx hknows =>
      Option.some_ne_none tx ((h.entry tx hknows).symm.trans hnone)
    have hzero : r.registrations symbol = 0 := by
      by_contra hpos
      obtain ⟨tx,htx⟩ := knows_of_registrations_pos (Nat.pos_of_ne_zero hpos)
      exact hunknown tx htx
    refine ⟨fun tx hknows => ?_,?_⟩
    · rcases hmove.knows hknows with hold | ⟨rfl,-⟩
      · exact absurd hold (hunknown tx)
      · exact hmove.lookup_inserted hinserts
    · rw [hmove.registrations_inserted hinserts, hzero]
  · refine ⟨fun tx hknows => ?_,?_⟩
    · rcases hmove.knows hknows with hold | ⟨-,hnew⟩
      · rw [hmove.lookup_eq hinserts]
        exact h.entry tx hold
      · exact absurd hnew hinserts
    · rw [hmove.registrations_eq hinserts]
      exact h.once

theorem length_filter_le_registrations (r : Registry P) (symbol : String) :
    (r.workers.filter fun w => w.1 = symbol).length ≤ r.registrations symbol := by
  rw [← List.countP_eq_length_filter]
  exact Nat.le_add_right _ _

theorem Feeds.knows {tx : Channel} (h : r.Feeds symbol tx) : r.Knows symbol tx := by
  rcases h with h | h | h
  · exact .inl h
  · exact .inr (.inl h)
  · exact .inr (.inr (.inl h))

theorem Single.oneWorker (h : r.Single symbol) : r.OneWorker symbol := by
  refine ⟨(length_filter_le_registrations r symbol).trans h.once,fun tx tx' htx htx' => ?_⟩
  exact Option.some.inj ((h.entry tx htx.knows).symm.trans (h.entry tx' htx'.knows))

end NoOverwrite

section Overwrite

def Backed (r : Registry P) : Prop :=
  ∀ symbol, (r.senders.lookup symbol).isSome = true → 1 ≤ r.registrations symbol

theorem backed_new : (new : Registry P).Backed := fun _ hsome => nomatch hsome

theorem Backed.move (h : r.Backed) (hmove : Move r ev t) : t.Backed := by
  intro symbol hsome
  by_cases hinserts : r.Inserts symbol ev
  · rw [hmove.registrations_inserted hinserts]
    exact Nat.le_add_left _ _
  · rw [hmove.lookup_eq hinserts] at hsome
    rw [hmove.registrations_eq hinserts]
    exact h symbol hsome

theorem Settled.registrations (h : r.Settled) (symbol : String) :
    r.registrations symbol = (r.workers.filter fun w => w.1 = symbol).length := by
  have hcalls : r.calls.countP (pendsFor symbol) = 0 := by
    refine List.countP_eq_zero.mpr fun c hc => ?_
    obtain ⟨tx,htx⟩ := h c hc
    simp [pendsFor, htx, EnsurePhase.pending?]
  rw [Registry.registrations, hcalls, Nat.add_zero, List.countP_eq_length_filter]
  rfl

end Overwrite

/-- In every run in which no step inserts a sender for a symbol that has one, each
symbol has one worker, and of the runs whose calls have all returned in no other. -/
theorem oneWorker_of_no_overwrite {events : List (RegistryEvent P)} (h : run step new events = some r) :
    (AllSteps step (fun s ev => ¬ s.Overwrites ev) new events → ∀ symbol, r.OneWorker symbol) ∧
      (r.Settled → (∀ symbol, r.OneWorker symbol) →
        AllSteps step (fun s ev => ¬ s.Overwrites ev) new events) := by
  constructor
  · intro hall symbol
    have hsingle := @run_invariant_of_allSteps _ _ step (fun s => s.Single symbol) _
      (fun _ _ _ hs hev hstep => hs.move hev (step_move hstep)) _ _ _ (single_new symbol) hall h
    exact hsingle.oneWorker
  · intro hsettled hone
    by_contra hall
    obtain ⟨before,ev,after,s,v,-,hbefore,hoverwrites,hstep,hafter⟩ := exists_step_of_not_allSteps hall h
    obtain ⟨symbol,hinserts,hsome⟩ := not_not.mp hoverwrites
    have hbacked : s.Backed := run_invariant (fun _ _ _ hs hstep => hs.move (step_move hstep))
      backed_new hbefore
    have htwo : 2 ≤ v.registrations symbol := by
      rw [(step_move hstep).registrations_inserted hinserts]
      exact Nat.succ_le_succ (hbacked symbol hsome)
    have hend := @run_invariant _ _ step (fun s => 2 ≤ s.registrations symbol)
      (fun _ _ _ hs hstep => hs.trans ((step_move hstep).registrations_le symbol)) _ _ _ htwo hafter
    rw [hsettled.registrations symbol] at hend
    exact absurd (hone symbol).1 (not_le.mpr hend)

theorem oneWorker_of_no_overwrite_twoCalls :
    OneWorker (P := Unit) ⟨AList.insert "BTCUSDT" 0 ∅,∅,1,[("BTCUSDT",0)],
      [⟨"BTCUSDT",.returned 0⟩,⟨"BTCUSDT",.returned 0⟩],[("BTCUSDT",0),("BTCUSDT",0)]⟩ "BTCUSDT" := by
  refine (@oneWorker_of_no_overwrite Unit _ [.call "BTCUSDT" none,.advance 0,.advance 0,.advance 0,
    .advance 0,.call "BTCUSDT" none,.advance 1] rfl).1 ?_ "BTCUSDT"
  have hno : ∀ (s : Registry Unit) (ev : RegistryEvent Unit), s.senders = ∅ → ¬ s.Overwrites ev := by
    rintro s ev hs ⟨symbol,-,hsome⟩
    rw [hs] at hsome
    cases hsome
  have hother : ∀ (s : Registry Unit) (i : ℕ), (∀ symbol snapshotFn, s.calls[i]? ≠
      some ⟨symbol,.inserting snapshotFn⟩) → ¬ s.Overwrites (.advance i) := by
    rintro s i hs ⟨symbol,⟨i',snapshotFn,hev,hcall⟩,-⟩
    cases hev
    exact hs symbol snapshotFn hcall
  have hcall : ∀ (s : Registry Unit) (symbol : String), ¬ s.Overwrites (.call symbol none) := by
    rintro s symbol ⟨symbol',⟨i',snapshotFn,hev,-⟩,-⟩
    cases hev
  exact .intro (hno _ _ rfl) rfl (.intro (hno _ _ rfl) rfl (.intro (hno _ _ rfl) rfl
    (.intro (hother _ _ fun _ _ h => by cases h) rfl (.intro (hother _ _ fun _ _ h => by cases h) rfl
      (.intro (hcall _ _) rfl (.intro (hother _ _ fun _ _ h => by cases h) rfl trivial))))))

theorem two_callers_two_workers :
    ∃ r : Registry Unit, run step new [.call "BTCUSDT" none,.call "BTCUSDT" none,.advance 0,.advance 1,
      .advance 0,.advance 0,.advance 0,.advance 1,.advance 1,.advance 1] = some r ∧
      r.workers = [("BTCUSDT",0),("BTCUSDT",1)] ∧ ¬ r.OneWorker "BTCUSDT" := by
  refine ⟨_,rfl,rfl,fun h => ?_⟩
  exact absurd h.1 (by decide)

end Registry

end ArbCore
