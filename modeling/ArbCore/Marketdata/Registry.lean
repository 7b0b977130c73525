import ArbCore.Library.LabelledRun
import ArbCore.Orderbook.Types

/-! # The manager's registry of symbol workers

Callers of `ensure_symbol_with_snapshot_provider` look for a sender under one
acquisition of the lock and insert a new one under the next. Each lock section
and each spawn is one step, so any interleaving of the callers is a list of
events. Channels are numbered in the order of their creation, `P` is the type of
snapshot providers.
-/
namespace ArbCore

abbrev Channel := ℕ

inductive EnsurePhase (P : Type) where
  | checking (snapshotFn : Option P)
  | inserting (snapshotFn : Option P)
  | storing (tx : Channel) (snapshotFn : Option P)
  | spawning (tx : Channel)
  | returned (tx : Channel)

/-- The channel of a call between its insertion and its spawn. -/
def EnsurePhase.pending? {P : Type} : EnsurePhase P → Option Channel
  | .storing tx _ | .spawning tx => some tx
  | _ => none

structure EnsureCall (P : Type) where
  symbol : String
  phase : EnsurePhase P

/-- `workers` are the spawned workers with the channels they read, and `handedOut`
the senders that callers got, in the order of these events. -/
structure Registry (P : Type) where
  senders : HashMap Channel
  providers : HashMap P
  channels : ℕ
  workers : List (String × Channel)
  calls : List (EnsureCall P)
  handedOut : List (String × Channel)

inductive RegistryEvent (P : Type) where
  | call (symbol : String) (snapshotFn : Option P)
  | advance (call : ℕ)
  | getSender (symbol : String)

namespace Registry
variable {P : Type} {r t : Registry P}

def new : Registry P := ⟨∅,∅,0,[],[],[]⟩

def storeProvider (r : Registry P) (symbol : String) : Option P → HashMap P
  | some sf => r.providers.insert symbol sf
  | none => r.providers

def ensureStep (r : Registry P) (symbol : String) : EnsurePhase P → Option (Registry P × EnsurePhase P)
  | .checking snapshotFn => match r.senders.lookup symbol with
    | some tx => some ({ r with
        providers := r.storeProvider symbol snapshotFn
        handedOut := r.handedOut ++ [(symbol,tx)] },.returned tx)
    | none => some (r,.inserting snapshotFn)
  | .inserting snapshotFn => some ({ r with
      senders := r.senders.insert symbol r.channels
      channels := r.channels + 1 },.storing r.channels snapshotFn)
  | .storing tx snapshotFn =>
    some ({ r with providers := r.storeProvider symbol snapshotFn },.spawning tx)
  | .spawning tx => some ({ r with
      workers := r.workers ++ [(symbol,tx)]
      handedOut := r.handedOut ++ [(symbol,tx)] },.returned tx)
  | .returned _ => none

def step (r : Registry P) : RegistryEvent P → Option (Registry P)
  | .call symbol snapshotFn => some { r with calls := r.calls ++ [⟨symbol,.checking snapshotFn⟩] }
  | .advance i => match r.calls[i]? with
    | some c => (r.ensureStep c.symbol c.phase).map fun next =>
        { next.1 with calls := r.calls.set i ⟨c.symbol,next.2⟩ }
    | none => none
  | .getSender symbol => some { r with
      handedOut := r.handedOut ++ ((r.senders.lookup symbol).map fun tx => (symbol,tx)).toList }

/-- A call that nothing interrupts: the registry it leaves and the sender it returns. -/
def ensureSymbolWithSnapshotProvider (r : Registry P) (symbol : String) (snapshotFn : Option P) :
    Registry P × Channel :=
  match r.senders.lookup symbol with
  | some tx => ({ r with
      providers := r.storeProvider symbol snapshotFn
      calls := r.calls ++ [⟨symbol,.returned tx⟩]
      handedOut := r.handedOut ++ [(symbol,tx)] },tx)
  | none => ({ r with
      senders := r.senders.insert symbol r.channels
      providers := r.storeProvider symbol snapshotFn
      channels := r.channels + 1
      workers := r.workers ++ [(symbol,r.channels)]
      calls := r.calls ++ [⟨symbol,.returned r.channels⟩]
      handedOut := r.handedOut ++ [(symbol,r.channels)] },r.channels)

inductive Move (r : Registry P) : RegistryEvent P → Registry P → Prop
  | called (symbol : String) (snapshotFn : Option P) :
      Move r (.call symbol snapshotFn) { r with calls := r.calls ++ [⟨symbol,.checking snapshotFn⟩] }
  | answered (symbol : String) :
      Move r (.getSender symbol) { r with
        handedOut := r.handedOut ++ ((r.senders.lookup symbol).map fun tx => (symbol,tx)).toList }
  | found {i : ℕ} {symbol : String} {snapshotFn : Option P} {tx : Channel}
      (hcall : r.calls[i]? = some ⟨symbol,.checking snapshotFn⟩)
      (hlookup : r.senders.lookup symbol = some tx) :
      Move r (.advance i) { r with
        providers := r.storeProvider symbol snapshotFn
        handedOut := r.handedOut ++ [(symbol,tx)]
        calls := r.calls.set i ⟨symbol,.returned tx⟩ }
  | missing {i : ℕ} {symbol : String} {snapshotFn : Option P}
      (hcall : r.calls[i]? = some ⟨symbol,.checking snapshotFn⟩)
      (hlookup : r.senders.lookup symbol = none) :
      Move r (.advance i) { r with calls := r.calls.set i ⟨symbol,.inserting snapshotFn⟩ }
  | inserted {i : ℕ} {symbol : String} {snapshotFn : Option P}
      (hcall : r.calls[i]? = some ⟨symbol,.inserting snapshotFn⟩) :
      Move r (.advance i) { r with
        senders := r.senders.insert symbol r.channels
        channels := r.channels + 1
        calls := r.calls.set i ⟨symbol,.storing r.channels snapshotFn⟩ }
  | stored {i : ℕ} {symbol : String} {snapshotFn : Option P} {tx : Channel}
      (hcall : r.calls[i]? = some ⟨symbol,.storing tx snapshotFn⟩) :
      Move r (.advance i) { r with
        providers := r.storeProvider symbol snapshotFn
        calls := r.calls.set i ⟨symbol,.spawning tx⟩ }
  | spawned {i : ℕ} {symbol : String} {tx : Channel}
      (hcall : r.calls[i]? = some ⟨symbol,.spawning tx⟩) :
      Move r (.advance i) { r with
        workers := r.workers ++ [(symbol,tx)]
        handedOut := r.handedOut ++ [(symbol,tx)]
        calls := r.calls.set i ⟨symbol,.returned tx⟩ }

theorem step_move {ev : RegistryEvent P} (h : r.step ev = some t) : Move r ev t := by
  cases ev with
  | call symbol snapshotFn => exact Option.some.inj h ▸ .called symbol snapshotFn
  | getSender symbol => exact Option.some.inj h ▸ .answered symbol
  | advance i =>
    simp only [step] at h
    cases hcall : r.calls[i]? with
    | none => simp [hcall] at h
    | some c =>
      obtain ⟨symbol,phase⟩ := c
      rw [hcall] at h
      obtain ⟨next,hnext,rfl⟩ := Option.map_eq_some_iff.mp h
      cases phase with
      | checking snapshotFn =>
        simp only [ensureStep] at hnext
        split at hnext
        · rename_i tx hlookup
          cases hnext
          exact .found hcall hlookup
        · rename_i hlookup
          cases hnext
          exact .missing hcall hlookup
      | inserting snapshotFn =>
        cases hnext
        exact .inserted hcall
      | storing tx snapshotFn =>
        cases hnext
        exact .stored hcall
      | spawning tx =>
        cases hnext
        exact .spawned hcall
      | returned tx => cases hnext

def Pending (calls : List (EnsureCall P)) (symbol : String) (tx : Channel) : Prop :=
  ∃ c ∈ calls, c.symbol = symbol ∧ c.phase.pending? = some tx

def Knows (r : Registry P) (symbol : String) (tx : Channel) : Prop :=
  (symbol,tx) ∈ r.workers ∨ (symbol,tx) ∈ r.handedOut ∨ r.senders.lookup symbol = some tx ∨
    Pending r.calls symbol tx

/-- The step inserts a new sender for the symbol. -/
def Inserts (r : Registry P) (symbol : String) (ev : RegistryEvent P) : Prop :=
  ∃ i snapshotFn, ev = .advance i ∧ r.calls[i]? = some ⟨symbol,.inserting snapshotFn⟩

theorem pending_set {calls : List (EnsureCall P)} {i : ℕ} {symbol symbol' : String}
    {phase : EnsurePhase P} {tx : Channel} (h : Pending (calls.set i ⟨symbol',phase⟩) symbol tx) :
    Pending calls symbol tx ∨ (symbol' = symbol ∧ phase.pending? = some tx) := by
  obtain ⟨c,hc,hsymbol,hphase⟩ := h
  rcases List.mem_or_eq_of_mem_set hc with hc | rfl
  · exact .inl ⟨c,hc,hsymbol,hphase⟩
  · exact .inr ⟨hsymbol,hphase⟩

theorem pending_of_getElem? {calls : List (EnsureCall P)} {i : ℕ} {symbol : String}
    {phase : EnsurePhase P} {tx : Channel} (h : calls[i]? = some ⟨symbol,phase⟩)
    (hphase : phase.pending? = some tx) : Pending calls symbol tx :=
  ⟨_,List.mem_of_getElem? h,rfl,hphase⟩

theorem not_knows_new (symbol : String) (tx : Channel) : ¬ (new : Registry P).Knows symbol tx := by
  rintro (h | h | h | ⟨c,hc,-⟩)
  · cases h
  · cases h
  · cases h
  · cases hc

theorem knows_of_pending_set {i : ℕ} {symbol symbol' : String} {phase phase' : EnsurePhase P} {tx : Channel}
    (hcall : r.calls[i]? = some ⟨symbol',phase⟩)
    (hphase : phase'.pending? = none ∨ phase'.pending? = phase.pending?)
    (h : Pending (r.calls.set i ⟨symbol',phase'⟩) symbol tx) : r.Knows symbol tx := by
  rcases pending_set h with hold | ⟨rfl,hnew⟩
  · exact .inr (.inr (.inr hold))
  · rcases hphase with hnone | hsame
    · exact absurd (hnone.symm.trans hnew) (Option.some_ne_none tx).symm
    · exact .inr (.inr (.inr (pending_of_getElem? hcall (hsame.symm.trans hnew))))

/-- Nothing but an insertion makes a channel known, and it takes a new one. -/
theorem Move.knows {ev : RegistryEvent P} (h : Move r ev t) {symbol : String} {tx : Channel}
    (hknows : t.Knows symbol tx) : r.Knows symbol tx ∨ (tx = r.channels ∧ r.Inserts symbol ev) := by
  cases h with
  | called symbol' snapshotFn =>
    left
    rcases hknows with hknows | hknows | hknows | ⟨c,hc,hsymbol,hphase⟩
    · exact .inl hknows
    · exact .inr (.inl hknows)
    · exact .inr (.inr (.inl hknows))
    · rcases List.mem_append.mp hc with hc | hc
      · exact .inr (.inr (.inr ⟨c,hc,hsymbol,hphase⟩))
      · cases List.mem_singleton.mp hc
        cases hphase
  | answered symbol' =>
    left
    rcases hknows with hknows | hknows | hknows
    · exact .inl hknows
    · rcases List.mem_append.mp hknows with hknows | hknows
      · exact .inr (.inl hknows)
      · obtain ⟨tx',htx,heq⟩ := Option.map_eq_some_iff.mp (Option.mem_toList.mp hknows)
        cases heq
        exact .inr (.inr (.inl htx))
    · exact .inr (.inr hknows)
  | @found i symbol' snapshotFn tx' hcall hlookup =>
    left
    rcases hknows with hknows | hknows | hknows | hknows
    · exact .inl hknows
    · rcases List.mem_append.mp hknows with hknows | hknows
      · exact .inr (.inl hknows)
      · cases List.mem_singleton.mp hknows
        exact .inr (.inr (.inl hlookup))
    · exact .inr (.inr (.inl hknows))
    · exact knows_of_pending_set hcall (.inl rfl) hknows
  | @missing i symbol' snapshotFn hcall hlookup =>
    left
    rcases hknows with hknows | hknows | hknows | hknows
    · exact .inl hknows
    · exact .inr (.inl hknows)
    · exact .inr (.inr (.inl hknows))
    · exact knows_of_pending_set hcall (.inl rfl) hknows
  | @inserted i symbol' snapshotFn hcall =>
    rcases hknows with hknows | hknows | hknows | hknows
    · exact .inl (.inl hknows)
    · exact .inl (.inr (.inl hknows))
    · by_cases hsym : symbol = symbol'
      · subst hsym
        rw [AList.lookup_insert] at hknows
        exact .inr ⟨(Option.some.inj hknows).symm,i,snapshotFn,rfl,hcall⟩
      · rw [AList.lookup_insert_ne hsym] at hknows
        exact .inl (.inr (.inr (.inl hknows)))
    · rcases pending_set hknows with hknows | ⟨rfl,hphase⟩
      · exact .inl (.inr (.inr (.inr hknows)))
      · exact .inr ⟨(Option.some.inj hphase).symm,i,snapshotFn,rfl,hcall⟩
  | @stored i symbol' snapshotFn tx' hcall =>
    left
    rcases hknows with hknows | hknows | hknows | hknows
    · exact .inl hknows
    · exact .inr (.inl hknows)
    · exact .inr (.inr (.inl hknows))
    · refine knows_of_pending_set hcall ?_ hknows
      exact .inr rfl
  | @spawned i symbol' tx' hcall =>
    left
    have hpending := pending_of_getElem? hcall rfl
    rcases hknows with hknows | hknows | hknows | hknows
    · rcases List.mem_append.mp hknows with hknows | hknows
      · exact .inl hknows
      · cases List.mem_singleton.mp hknows
        exact .inr (.inr (.inr hpending))
    · rcases List.mem_append.mp hknows with hknows | hknows
      · exact .inr (.inl hknows)
      · cases List.mem_singleton.mp hknows
        exact .inr (.inr (.inr hpending))
    · exact .inr (.inr (.inl hknows))
    · exact knows_of_pending_set hcall (.inl rfl) hknows

theorem Move.lookup_eq {ev : RegistryEvent P} (h : Move r ev t) {symbol : String}
    (hinserts : ¬ r.Inserts symbol ev) : t.senders.lookup symbol = r.senders.lookup symbol := by
  cases h with
  | @inserted i symbol' snapshotFn hcall =>
    have hne : symbol ≠ symbol' := by
      rintro rfl
      exact hinserts ⟨i,snapshotFn,rfl,hcall⟩
    exact AList.lookup_insert_ne hne
  | _ => rfl

theorem Move.of_inserts {ev : RegistryEvent P} (h : Move r ev t) {symbol : String}
    (hinserts : r.Inserts symbol ev) :
    ∃ i snapshotFn, r.calls[i]? = some ⟨symbol,.inserting snapshotFn⟩ ∧ t = { r with
      senders := r.senders.insert symbol r.channels
      channels := r.channels + 1
      calls := r.calls.set i ⟨symbol,.storing r.channels snapshotFn⟩ } := by
  obtain ⟨i,snapshotFn,rfl,hcall⟩ := hinserts
  cases h with
  | inserted hcall' =>
    cases hcall.symm.trans hcall'
    exact ⟨i,snapshotFn,hcall,rfl⟩
  | found hcall' _ => cases hcall.symm.trans hcall'
  | missing hcall' _ => cases hcall.symm.trans hcall'
  | stored hcall' => cases hcall.symm.trans hcall'
  | spawned hcall' => cases hcall.symm.trans hcall'

theorem Move.lookup_inserted {ev : RegistryEvent P} (h : Move r ev t) {symbol : String}
    (hinserts : r.Inserts symbol ev) : t.senders.lookup symbol = some r.channels := by
  obtain ⟨i,snapshotFn,-,rfl⟩ := h.of_inserts hinserts
  exact AList.lookup_insert _

theorem Move.channels_le {ev : RegistryEvent P} (h : Move r ev t) : r.channels ≤ t.channels := by
  cases h with
  | inserted _ => exact Nat.le_succ _
  | _ => exact le_rfl

theorem Move.channels_lt {ev : RegistryEvent P} (h : Move r ev t) {symbol : String}
    (hinserts : r.Inserts symbol ev) : r.channels < t.channels := by
  obtain ⟨i,snapshotFn,-,rfl⟩ := h.of_inserts hinserts
  exact Nat.lt_succ_self _

end Registry

end ArbCore
