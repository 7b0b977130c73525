import ArbCore.Marketdata.Registry

/-! # Who owns a channel

A channel belongs to the symbol it was inserted for, in every run: no step makes it
known for another symbol, and the sender of a symbol always feeds a worker of it.
-/
namespace ArbCore
open LabelledRun

namespace Registry
variable {P : Type} {r t : Registry P} {ev : RegistryEvent P} {symbol symbol' : String} {tx : Channel}

theorem ensureSymbolWithSnapshotProvider_run (r : Registry P) (symbol : String) (snapshotFn : Option P) :
    ∃ n, run step r (.call symbol snapshotFn :: List.replicate n (.advance r.calls.length)) =
      some (r.ensureSymbolWithSnapshotProvider symbol snapshotFn).1 := by
  cases hlookup : r.senders.lookup symbol with
  | some tx =>
    refine ⟨1,?_⟩
    simp [run, step, ensureStep, storeProvider, ensureSymbolWithSnapshotProvider, hlookup, List.replicate]
  | none =>
    refine ⟨4,?_⟩
    simp [run, step, ensureStep, storeProvider, ensureSymbolWithSnapshotProvider, hlookup, List.replicate]

theorem lookup_ensureSymbolWithSnapshotProvider (r : Registry P) (symbol : String)
    (snapshotFn : Option P) :
    (r.ensureSymbolWithSnapshotProvider symbol snapshotFn).1.senders.lookup symbol =
      some (r.ensureSymbolWithSnapshotProvider symbol snapshotFn).2 := by
  unfold ensureSymbolWithSnapshotProvider
  split
  · rename_i hlookup
    exact hlookup
  · exact AList.lookup_insert _

/-- Channels are numbered below the counter and known for one symbol each. -/
structure Owned (r : Registry P) : Prop where
  old : ∀ symbol tx, r.Knows symbol tx → tx < r.channels
  unique : ∀ symbol symbol' tx, r.Knows symbol tx → r.Knows symbol' tx → symbol = symbol'

theorem owned_new : (new : Registry P).Owned :=
  ⟨fun symbol tx h => absurd h (not_knows_new symbol tx),
    fun symbol _ tx h => absurd h (not_knows_new symbol tx)⟩

theorem Inserts.unique (h : r.Inserts symbol ev) (h' : r.Inserts symbol' ev) : symbol = symbol' := by
  obtain ⟨i,snapshotFn,rfl,hcall⟩ := h
  obtain ⟨i',snapshotFn',hev,hcall'⟩ := h'
  cases hev
  cases hcall.symm.trans hcall'
  rfl

theorem Owned.move (h : r.Owned) (hmove : Move r ev t) : t.Owned := by
  constructor
  · intro symbol tx hknows
    rcases hmove.knows hknows with hold | ⟨rfl,hinserts⟩
    · exact (h.old symbol tx hold).trans_le hmove.channels_le
    · exact hmove.channels_lt hinserts
  · intro symbol symbol' tx hknows hknows'
    rcases hmove.knows hknows with hold | ⟨rfl,hinserts⟩
    · rcases hmove.knows hknows' with hold' | ⟨rfl,-⟩
      · exact h.unique symbol symbol' tx hold hold'
      · exact absurd (h.old symbol _ hold) (lt_irrefl _)
    · rcases hmove.knows hknows' with hold' | ⟨-,hinserts'⟩
      · exact absurd (h.old symbol' _ hold') (lt_irrefl _)
      · exact hinserts.unique hinserts'

/-- A worker of the symbol reads the channel, or is about to be spawned on it. -/
def Reads (r : Registry P) (symbol : String) (tx : Channel) : Prop :=
  (symbol,tx) ∈ r.workers ∨ Pending r.calls symbol tx

theorem Reads.knows (h : r.Reads symbol tx) : r.Knows symbol tx := by
  rcases h with h | h
  · exact .inl h
  · exact .inr (.inr (.inr h))

theorem pending_set_of {calls : List (EnsureCall P)} {i : ℕ} {phase : EnsurePhase P}
    (h : Pending calls symbol tx) (hcall : calls[i]? = some ⟨symbol',phase⟩) (phase' : EnsurePhase P) :
    Pending (calls.set i ⟨symbol',phase'⟩) symbol tx ∨ (symbol' = symbol ∧ phase.pending? = some tx) := by
  obtain ⟨c,hc,hsymbol,hphase⟩ := h
  obtain ⟨j,hj⟩ := List.mem_iff_getElem?.mp hc
  by_cases hij : i = j
  · subst hij
    cases hcall.symm.trans hj
    exact .inr ⟨hsymbol,hphase⟩
  · refine .inl ⟨c,List.mem_of_getElem? (i := j) ?_,hsymbol,hphase⟩
    rw [List.getElem?_set_ne hij]
    exact hj

theorem pending_set_self {calls : List (EnsureCall P)} {i : ℕ} {c : EnsureCall P}
    {phase : EnsurePhase P} (hcall : calls[i]? = some c) (hphase : phase.pending? = some tx) :
    Pending (calls.set i ⟨symbol,phase⟩) symbol tx :=
  ⟨_,List.mem_set (List.getElem?_eq_some_iff.mp hcall).1 _,rfl,hphase⟩

/-- A reader stays one: a spawn turns the call that held its channel into a worker. -/
theorem Move.reads (h : Move r ev t) (hreads : r.Reads symbol tx) : t.Reads symbol tx := by
  rcases hreads with hworker | hpending
  · cases h with
    | spawned _ => exact .inl (List.mem_append_left _ hworker)
    | _ => exact .inl hworker
  · cases h with
    | called symbol' snapshotFn =>
      obtain ⟨c,hc,hsymbol,hphase⟩ := hpending
      exact .inr ⟨c,List.mem_append_left _ hc,hsymbol,hphase⟩
    | answered symbol' => exact .inr hpending
    | found hcall _ =>
      rcases pending_set_of hpending hcall _ with hpending | ⟨-,hphase⟩
      · exact .inr hpending
      · cases hphase
    | missing hcall _ =>
      rcases pending_set_of hpending hcall _ with hpending | ⟨-,hphase⟩
      · exact .inr hpending
      · cases hphase
    | inserted hcall =>
      rcases pending_set_of hpending hcall _ with hpending | ⟨-,hphase⟩
      · exact .inr hpending
      · cases hphase
    | stored hcall =>
      rcases pending_set_of hpending hcall (.spawning _) with hpending' | ⟨rfl,hphase⟩
      · exact .inr hpending'
      · exact .inr (pending_set_self hcall hphase)
    | spawned hcall =>
      rcases pending_set_of hpending hcall _ with hpending | ⟨rfl,hphase⟩
      · exact .inr hpending
      · cases hphase
        exact .inl (List.mem_append_right _ (List.mem_singleton_self _))

theorem Move.reads_inserted (h : Move r ev t) (hinserts : r.Inserts symbol ev) :
    t.Reads symbol r.channels := by
  obtain ⟨i,snapshotFn,hcall,rfl⟩ := h.of_inserts hinserts
  exact .inr (pending_set_self hcall rfl)

theorem Move.lookup_isSome (h : Move r ev t) (hsome : (r.senders.lookup symbol).isSome = true) :
    (t.senders.lookup symbol).isSome = true := by
  by_cases hinserts : r.Inserts symbol ev
  · rw [h.lookup_inserted hinserts]
    rfl
  · rw [h.lookup_eq hinserts]
    exact hsome

def Served (r : Registry P) : Prop :=
  ∀ symbol tx, r.senders.lookup symbol = some tx → r.Reads symbol tx

theorem served_new : (new : Registry P).Served := fun _ _ h => nomatch h

theorem Served.move (h : r.Served) (hmove : Move r ev t) : t.Served := by
  intro symbol tx hlookup
  by_cases hinserts : r.Inserts symbol ev
  · rw [hmove.lookup_inserted hinserts] at hlookup
    cases hlookup
    exact hmove.reads_inserted hinserts
  · rw [hmove.lookup_eq hinserts] at hlookup
    exact hmove.reads (h symbol tx hlookup)

section Wired
variable {p : Option P}

def Quiet (r : Registry P) (symbol : String) : Prop :=
  ∀ c ∈ r.calls, c.symbol = symbol → ∃ tx, c.phase = .returned tx

theorem Quiet.ne (h : r.Quiet symbol) {i : ℕ} {symbol' : String} {phase : EnsurePhase P}
    (hcall : r.calls[i]? = some ⟨symbol',phase⟩) (hphase : ∀ tx, phase ≠ .returned tx) :
    symbol' ≠ symbol := by
  intro hsymbol
  obtain ⟨tx,htx⟩ := h _ (List.mem_of_getElem? hcall) hsymbol
  exact hphase tx htx

theorem Quiet.set (h : r.Quiet symbol) {symbol' : String} (hne : symbol' ≠ symbol) (i : ℕ)
    (phase : EnsurePhase P) : ∀ c ∈ r.calls.set i ⟨symbol',phase⟩, c.symbol = symbol →
      ∃ tx, c.phase = .returned tx := by
  intro c hc hsymbol
  rcases List.mem_or_eq_of_mem_set hc with hc | rfl
  · exact h c hc hsymbol
  · exact absurd hsymbol hne

theorem lookup_storeProvider_ne (r : Registry P) {symbol' : String} (hne : symbol' ≠ symbol)
    (snapshotFn : Option P) :
    (r.storeProvider symbol' snapshotFn).lookup symbol = r.providers.lookup symbol := by
  cases snapshotFn with
  | none => rfl
  | some sf => exact AList.lookup_insert_ne hne.symm

/-- The symbol is registered for good, with this channel and this provider. -/
structure Wired (r : Registry P) (symbol : String) (tx : Channel) (p : Option P) : Prop where
  owned : r.Owned
  quiet : r.Quiet symbol
  entry : r.senders.lookup symbol = some tx
  provider : r.providers.lookup symbol = p
  worker : (symbol,tx) ∈ r.workers

theorem Wired.not_inserts (h : r.Wired symbol tx p) : ¬ r.Inserts symbol ev := by
  rintro ⟨i,snapshotFn,rfl,hcall⟩
  exact h.quiet.ne hcall (fun _ => nofun) rfl

theorem Wired.move (h : r.Wired symbol tx p) (hmove : Move r ev t)
    (hcall : ∀ snapshotFn, ev ≠ .call symbol snapshotFn) : t.Wired symbol tx p := by
  have howned := h.owned.move hmove
  have hentry := (hmove.lookup_eq h.not_inserts).trans h.entry
  cases hmove with
  | called symbol' snapshotFn =>
    refine ⟨howned,fun c hc hsymbol => ?_,hentry,h.provider,h.worker⟩
    rcases List.mem_append.mp hc with hc | hc
    · exact h.quiet c hc hsymbol
    · cases List.mem_singleton.mp hc
      exact absurd (congrArg (RegistryEvent.call · snapshotFn) hsymbol) (hcall snapshotFn)
  | answered symbol' => exact ⟨howned,h.quiet,hentry,h.provider,h.worker⟩
  | found hcall' _ =>
    have hne := h.quiet.ne hcall' fun _ => nofun
    exact ⟨howned,h.quiet.set hne _ _,hentry,(r.lookup_storeProvider_ne hne _).trans h.provider,h.worker⟩
  | missing hcall' _ =>
    have hne := h.quiet.ne hcall' fun _ => nofun
    exact ⟨howned,h.quiet.set hne _ _,hentry,h.provider,h.worker⟩
  | inserted hcall' =>
    have hne := h.quiet.ne hcall' fun _ => nofun
    exact ⟨howned,h.quiet.set hne _ _,hentry,h.provider,h.worker⟩
  | stored hcall' =>
    have hne := h.quiet.ne hcall' fun _ => nofun
    exact ⟨howned,h.quiet.set hne _ _,hentry,(r.lookup_storeProvider_ne hne _).trans h.provider,h.worker⟩
  | spawned hcall' =>
    have hne := h.quiet.ne hcall' fun _ => nofun
    exact ⟨howned,h.quiet.set hne _ _,hentry,h.provider,List.mem_append_left _ h.worker⟩

end Wired

end Registry

end ArbCore
