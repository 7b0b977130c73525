import ArbCore.Marketdata.AdapterWiring
import ArbCore.Marketdata.ChannelOwnership

/-! # Wired symbols and the symbols of their events

The wiring registers a symbol as it is written, the adapter names it in upper case
when it reports an event, and the forwarder looks for the adapter's name. The update
of an event reaches the worker of a wired symbol exactly when the two names agree.
-/
namespace ArbCore
open LabelledRun

namespace Registry
variable {P : Type} {r t : Registry P}

theorem lookup_isSome_run {events : List (RegistryEvent P)} {symbol : String}
    (hsome : (r.senders.lookup symbol).isSome = true) (h : run step r events = some t) :
    (t.senders.lookup symbol).isSome = true :=
  @run_invariant _ _ step (fun s => (s.senders.lookup symbol).isSome = true)
    (fun _ _ _ hs hstep => (step_move hstep).lookup_isSome hs) _ _ _ hsome h

theorem wireAdapterToManager_run (r : Registry P) (snapshotFn : P) (symbols : List String) :
    ∃ events, run step r events = some (r.wireAdapterToManager snapshotFn symbols) ∧
      ∀ w ∈ symbols, ((r.wireAdapterToManager snapshotFn symbols).senders.lookup w).isSome = true := by
  induction symbols generalizing r with
  | nil => exact ⟨[],rfl,by simp⟩
  | cons sym symbols ih =>
    obtain ⟨n,hfirst⟩ := r.ensureSymbolWithSnapshotProvider_run sym (some snapshotFn)
    obtain ⟨events,hrest,hsome⟩ := ih (r.ensureSymbolWithSnapshotProvider sym (some snapshotFn)).1
    refine ⟨_,run_append hfirst hrest,fun w hw => ?_⟩
    rcases List.mem_cons.mp hw with rfl | hw
    · refine lookup_isSome_run ?_ hrest
      rw [lookup_ensureSymbolWithSnapshotProvider]
      rfl
    · exact hsome w hw

def DeliversTo (r : Registry P) (update : OrderbookUpdate) (symbol : String) : Prop :=
  ∃ send, r.forward update = some send ∧
    mapAdapterUpdateToMessage update = .ok (update.symbol,send.msg) ∧ r.Reads symbol send.tx

/-- A registered symbol gets the updates that carry its name, and no other one does. -/
theorem deliversTo_iff {symbol : String} (howned : r.Owned) (hserved : r.Served)
    (hsome : (r.senders.lookup symbol).isSome = true) (update : OrderbookUpdate) :
    r.DeliversTo update symbol ↔ update.symbol = symbol := by
  obtain ⟨msg,hmsg,hforward⟩ := r.forward_eq update
  constructor
  · rintro ⟨send,hsend,-,hreads⟩
    rw [hforward] at hsend
    obtain ⟨tx,htx,rfl⟩ := Option.map_eq_some_iff.mp hsend
    exact howned.unique _ _ tx (.inr (.inr (.inl htx))) hreads.knows
  · rintro rfl
    obtain ⟨tx,htx⟩ := Option.isSome_iff_exists.mp hsome
    rw [htx] at hforward
    exact ⟨_,hforward,hmsg,hserved _ _ htx⟩

/-- Whatever the registry did before the wiring and does after it, the update of an
event that names a wired symbol up to case is delivered to a worker of that symbol if
and only if the symbol was wired in upper case. -/
theorem wired_receives_iff_uppercase (tables : TextTables) {before after : List (RegistryEvent P)}
    (snapshotFn : P) (symbols : List String) {r t : Registry P} (hbefore : run step new before = some r)
    (hafter : run step (r.wireAdapterToManager snapshotFn symbols) after = some t) {w : String}
    (hw : w ∈ symbols) {e : BinanceDepthEvent} {update : OrderbookUpdate}
    (hsymbol : tables.toUppercase e.symbol = tables.toUppercase w)
    (hupdate : tables.toUpdateFromEvent e = .ok update) :
    t.DeliversTo update w ↔ tables.toUppercase w = w := by
  obtain ⟨events,hwire,hsome⟩ := r.wireAdapterToManager_run snapshotFn symbols
  have hrun : run step new (before ++ (events ++ after)) = some t :=
    run_append hbefore (run_append hwire hafter)
  have howned : t.Owned := run_invariant (fun _ _ _ hs hstep => hs.move (step_move hstep)) owned_new hrun
  have hserved : t.Served := run_invariant (fun _ _ _ hs hstep => hs.move (step_move hstep)) served_new hrun
  have hregistered := lookup_isSome_run (hsome w hw) hafter
  rw [deliversTo_iff howned hserved hregistered, (TextTables.toUpdateFromEvent_ok hupdate).1, hsymbol]

def oneLevelTables : TextTables :=
  ⟨fun s => if s = "1" then .ok 1 else .error "Invalid decimal",fun c => [c.toUpper]⟩

theorem wired_receives_iff_uppercase_btc :
    ((new : Registry Unit).wireAdapterToManager () ["BTCUSDT"]).DeliversTo
      ⟨"BTCUSDT",[⟨1,1⟩],[],some 7,false⟩ "BTCUSDT" := by
  have hbefore : run step (new : Registry Unit) [] = some new := rfl
  have hafter : run step ((new : Registry Unit).wireAdapterToManager () ["BTCUSDT"]) [] = some _ := rfl
  have hupdate : oneLevelTables.toUpdateFromEvent ⟨"btcusdt",7,[("1","1")],[]⟩ =
      .ok ⟨"BTCUSDT",[⟨1,1⟩],[],some 7,false⟩ := by decide +kernel
  refine (wired_receives_iff_uppercase oneLevelTables () ["BTCUSDT"] hbefore hafter
    (List.mem_singleton_self _) ?_ hupdate).mpr ?_
  · decide +kernel
  · decide +kernel

/-- The symbol is wired as the documentation writes it, and its update is dropped. -/
theorem lowercase_symbol_dropped :
    ∃ e update, oneLevelTables.toUppercase e.symbol = oneLevelTables.toUppercase "btcusdt" ∧
      oneLevelTables.toUpdateFromEvent e = .ok update ∧
      ((new : Registry Unit).wireAdapterToManager () ["btcusdt"]).forward update = none := by
  refine ⟨⟨"BTCUSDT",7,[("1","1")],[]⟩,⟨"BTCUSDT",[⟨1,1⟩],[],some 7,false⟩,?_,?_,rfl⟩
  · decide +kernel
  · decide +kernel

end Registry

end ArbCore
