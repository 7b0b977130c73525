import ArbCore.Library.Rest
import ArbCore.Marketdata.OneWorker
import ArbCore.Marketdata.WiredFeed

/-! # The wired system comes to rest

When the sockets are silent, each step of the forwarder and of the workers brings an update
nearer to its worker, and no step is left only when every update is there: a full channel
has a worker that can take from it. Every fetch is assumed to return, with a snapshot or an error.
-/
namespace ArbCore
open LabelledRun

def MarketEvent.inner {P : Type} : MarketEvent P → Bool
  | .send _ | .wake .. => true
  | _ => false

def WiredEvent.inner {P : Type} : WiredEvent P → Bool
  | .forward => true
  | .market ev => ev.inner
  | .stream _ _ => false

namespace MarketData
variable {P : Type} {cfg : SymbolWorkerConfig} {m t : MarketData P} {ev : MarketEvent P}

/-- Channels have owners, and a message that awaits room is for a channel that is read. -/
structure Connected (m : MarketData P) : Prop where
  owned : m.registry.Owned
  served : m.registry.Served
  sending : ∀ x, m.sending = some x → m.registry.Reads x.sym x.tx

theorem connected_new : (new : MarketData P).Connected :=
  ⟨Registry.owned_new,Registry.served_new,fun _ h => by cases h⟩

theorem Connected.move (hm : m.Connected) (hmove : Move cfg m ev t) : t.Connected := by
  obtain ⟨howned,hserved,hsending⟩ := hm
  cases hmove with
  | registry hmove => exact ⟨howned.move hmove,hserved.move hmove,fun x hx => hmove.reads (hsending x hx)⟩
  | forward update _ =>
    refine ⟨howned,hserved,fun x hx => ?_⟩
    obtain ⟨msg,-,hforward⟩ := m.registry.forward_eq update
    obtain ⟨tx,htx,rfl⟩ := Option.map_eq_some_iff.mp (hforward.symm.trans hx)
    exact hserved _ _ htx
  | send _ _ => exact ⟨howned,hserved,fun x hx => by cases hx⟩
  | started _ _ _ _ => exact ⟨howned,hserved,hsending⟩
  | took _ _ _ _ _ => exact ⟨howned,hserved,hsending⟩

def channelWork (m : MarketData P) (tx : Channel) : ℕ :=
  (m.queues tx).length + if (m.tasks tx).isNone then 1 else 0

/-- An update that the forwarder has taken is two steps from its worker, a queued one is one step. -/
def work (m : MarketData P) : ℕ :=
  2 * m.sending.toList.length + ∑ tx ∈ Finset.range m.registry.channels, m.channelWork tx

theorem work_channel {tx : Channel} (htx : tx < m.registry.channels) (hregistry : t.registry = m.registry)
    (hother : ∀ tx', tx' ≠ tx → t.channelWork tx' = m.channelWork tx') :
    t.work + m.channelWork tx + 2 * m.sending.toList.length =
      m.work + t.channelWork tx + 2 * t.sending.toList.length := by
  have hsum := @sum_range_add_eq t.channelWork m.channelWork m.registry.channels tx htx fun tx' _ hne => hother tx' hne
  simp only [work, hregistry]
  omega

theorem work_forward (hidle : m.sending = none) (update : OrderbookUpdate) :
    work { m with sending := m.registry.forward update } ≤ m.work + 2 := by
  have hlength : (m.registry.forward update).toList.length ≤ 1 := by
    cases m.registry.forward update <;> simp
  have hsame : ∀ tx, channelWork { m with sending := m.registry.forward update } tx = m.channelWork tx := fun _ => rfl
  simp only [work, hidle, Option.toList_none, List.length_nil, hsame]
  omega

theorem Move.work_lt (hmove : Move cfg m ev t) (hinner : ev.inner = true) (hm : m.Connected) : t.work < m.work := by
  cases hmove with
  | registry _ => cases hinner
  | forward _ _ => cases hinner
  | @send x hsending hroom =>
    have htx : x.tx < m.registry.channels := hm.owned.old x.sym x.tx (hm.sending x hsending).knows
    have hchange := @work_channel P m (m.enqueue x) x.tx htx rfl fun tx' hne => by
      simp [channelWork, enqueue, Function.update_of_ne hne]
    have hqueue : (m.enqueue x).channelWork x.tx = m.channelWork x.tx + 1 := by
      simp [channelWork, enqueue]
      omega
    have hsent : (m.enqueue x).sending.toList.length = 0 := rfl
    rw [hsending, hsent, hqueue, Option.toList_some, List.length_singleton] at hchange
    omega
  | @started symbol tx answers now hworker htask =>
    have htx : tx < m.registry.channels := hm.owned.old symbol tx (.inl hworker)
    have hchange := @work_channel P m (m.startTask symbol tx (m.workerEnv symbol answers now)) tx htx rfl
      fun tx' hne => by simp [channelWork, startTask, Function.update_of_ne hne]
    have hstart : (m.startTask symbol tx (m.workerEnv symbol answers now)).channelWork tx + 1 = m.channelWork tx := by
      simp [channelWork, startTask, htask]
    have hsame : (m.startTask symbol tx (m.workerEnv symbol answers now)).sending = m.sending := rfl
    rw [hsame] at hchange
    omega
  | @took symbol tx w msg rest answers now hworker htask hqueue =>
    have htx : tx < m.registry.channels := hm.owned.old symbol tx (.inl hworker)
    have hchange := @work_channel P m (m.takeMessage cfg tx w msg rest (m.workerEnv symbol answers now)) tx htx rfl
      fun tx' hne => by simp [channelWork, takeMessage, Function.update_of_ne hne]
    have htake : (m.takeMessage cfg tx w msg rest (m.workerEnv symbol answers now)).channelWork tx + 1 =
        m.channelWork tx := by
      simp [channelWork, takeMessage, htask, hqueue]
    have hsame : (m.takeMessage cfg tx w msg rest (m.workerEnv symbol answers now)).sending = m.sending := rfl
    rw [hsame] at hchange
    omega

theorem wake_isSome {symbol : String} {tx : Channel} (hworker : (symbol,tx) ∈ m.registry.workers)
    (hready : m.tasks tx = none ∨ m.queues tx ≠ []) (answers : P → Except MarketDataError OrderbookSnapshot)
    (now : Instant) :
    m.step cfg (.wake symbol tx answers now) ≠ none := by
  simp only [step, if_pos hworker]
  split
  · exact Option.some_ne_none _
  · exact Option.some_ne_none _
  · rename_i htask hempty
    rcases hready with hnone | hqueue
    · cases htask.symm.trans hnone
    · exact absurd hempty hqueue

theorem reads_worker {symbol : String} {tx : Channel} (hsettled : m.registry.Settled)
    (hreads : m.registry.Reads symbol tx) : (symbol,tx) ∈ m.registry.workers := by
  rcases hreads with hworker | ⟨c,hc,-,hphase⟩
  · exact hworker
  · obtain ⟨tx',hreturned⟩ := hsettled c hc
    rw [hreturned] at hphase
    cases hphase

end MarketData

namespace WiredFeed
variable {P : Type} {cfg : SymbolWorkerConfig} {d : StreamDecoder} {s t : WiredFeed P} {ev : WiredEvent P}
  {symbol : String} {tx : Channel} {p : Option P}

def work (s : WiredFeed P) : ℕ := 3 * (s.streams.log.length - s.forwarded) + s.market.work

theorem connected_step (hs : s.market.Connected) (h : s.step cfg d ev = some t) : t.market.Connected := by
  cases ev with
  | stream i ev =>
    obtain ⟨streams,-,rfl⟩ := Option.map_eq_some_iff.mp h
    exact hs
  | forward =>
    obtain ⟨x,-,h⟩ := Option.bind_eq_some_iff.mp h
    obtain ⟨market,hmarket,rfl⟩ := Option.map_eq_some_iff.mp h
    exact hs.move (MarketData.step_move hmarket)
  | market ev =>
    simp only [WiredFeed.step] at h
    split_ifs at h
    obtain ⟨market,hmarket,rfl⟩ := Option.map_eq_some_iff.mp h
    exact hs.move (MarketData.step_move hmarket)

theorem work_lt (hs : s.market.Connected) (hinner : ev.inner = true) (h : s.step cfg d ev = some t) :
    t.work < s.work := by
  cases ev with
  | stream i ev => cases hinner
  | forward =>
    obtain ⟨x,hx,h⟩ := Option.bind_eq_some_iff.mp h
    obtain ⟨market,hmarket,rfl⟩ := Option.map_eq_some_iff.mp h
    obtain ⟨hlt,-⟩ := List.getElem?_eq_some_iff.mp hx
    cases MarketData.step_move hmarket with
    | forward update hidle =>
      have hle := MarketData.work_forward hidle x.2
      simp only [work]
      omega
  | market ev =>
    simp only [WiredFeed.step] at h
    split_ifs at h
    obtain ⟨market,hmarket,rfl⟩ := Option.map_eq_some_iff.mp h
    exact Nat.add_lt_add_left ((MarketData.step_move hmarket).work_lt hinner hs) _

theorem inner_frame (hinner : ev.inner = true) (h : s.step cfg d ev = some t) :
    t.streams = s.streams ∧ t.market.registry = s.market.registry := by
  cases ev with
  | stream i ev => cases hinner
  | forward =>
    obtain ⟨x,-,h⟩ := Option.bind_eq_some_iff.mp h
    obtain ⟨market,hmarket,rfl⟩ := Option.map_eq_some_iff.mp h
    cases MarketData.step_move hmarket with
    | forward update hidle => exact ⟨rfl,rfl⟩
  | market ev =>
    simp only [WiredFeed.step] at h
    split_ifs at h
    obtain ⟨market,hmarket,rfl⟩ := Option.map_eq_some_iff.mp h
    cases MarketData.step_move hmarket with
    | registry _ => cases hinner
    | _ => exact ⟨rfl,rfl⟩

/-- The forwarder has taken everything, and every worker has started and has no message before it. -/
structure Drained (s : WiredFeed P) : Prop where
  forwarded : s.streams.log.length ≤ s.forwarded
  sending : s.market.sending = none
  started : ∀ symbol tx, (symbol,tx) ∈ s.market.registry.workers → s.market.tasks tx ≠ none
  queues : ∀ symbol tx, (symbol,tx) ∈ s.market.registry.workers → s.market.queues tx = []

theorem drained_of_atRest (hs : s.market.Connected) (hsettled : s.market.registry.Settled)
    (hrest : AtRest (step cfg d) (fun ev => ev.inner = true) s) : s.Drained := by
  have hasleep : ∀ symbol tx, (symbol,tx) ∈ s.market.registry.workers →
      ¬ (s.market.tasks tx = none ∨ s.market.queues tx ≠ []) := by
    intro symbol tx hworker hready
    have hwake := @MarketData.wake_isSome P cfg s.market symbol tx hworker hready (fun _ => .error (.other "")) 0
    have hnone := hrest (.market (.wake symbol tx (fun _ => .error (.other "")) 0)) rfl
    exact hwake (Option.map_eq_none_iff.mp hnone)
  have hempty : ∀ symbol tx, (symbol,tx) ∈ s.market.registry.workers → s.market.queues tx = [] :=
    fun symbol tx hworker => not_not.mp fun hqueue => hasleep symbol tx hworker (.inr hqueue)
  have hidle : s.market.sending = none := by
    cases hsending : s.market.sending with
    | none => rfl
    | some x =>
      have hqueue := hempty _ _ (MarketData.reads_worker hsettled (hs.sending x hsending))
      have hnone : s.market.step cfg (.send x.sym) = none :=
        Option.map_eq_none_iff.mp (hrest (.market (.send x.sym)) rfl)
      simp [MarketData.step, hsending, hqueue, channelCapacity] at hnone
  refine ⟨?_,hidle,fun symbol tx hworker htask => hasleep symbol tx hworker (.inl htask),hempty⟩
  by_contra hlt
  have hnone := hrest .forward rfl
  simp [step, MarketData.step, hidle, List.getElem?_eq_getElem (not_le.mp hlt)] at hnone

section Runs
variable {setup : List (MarketEvent P)} {m : MarketData P} {a : BinanceSpotAdapter} {lower : String → String}
  {symbols : List String} {events : List (WiredEvent P)}

theorem connected_run (hsetup : run (MarketData.step cfg) MarketData.new setup = some m)
    (hrun : run (step cfg d) (start a lower symbols m) events = some s) : s.market.Connected := by
  have hm : m.Connected :=
    @run_invariant _ _ (MarketData.step cfg) MarketData.Connected
      (fun _ _ _ hs hstep => hs.move (MarketData.step_move hstep)) _ _ _ MarketData.connected_new hsetup
  exact @run_invariant _ _ (step cfg d) (fun s => s.market.Connected)
    (fun _ _ _ hs hstep => connected_step hs hstep) _ _ _ hm hrun

/-- When the calls have returned and the sockets are silent, and every fetch of a snapshot returns,
the forwarder and the workers cannot go on for ever: from any state they come to rest, however they
take turns. There the worker of a symbol registered for good has received the delta of every update
of the symbol that any stream has sent, in the order of the channel. -/
theorem feed_comes_to_rest (hsetup : run (MarketData.step cfg) MarketData.new setup = some m)
    (hforward : ∀ ev ∈ setup, ∀ update, ev ≠ .forward update)
    (hentry : m.registry.senders.lookup symbol = some tx) (hquiet : m.registry.Quiet symbol)
    (hrun : run (step cfg d) (start a lower symbols m) events = some s) (hcall : ∀ ev ∈ events, NoCall symbol ev)
    (hsettled : s.market.registry.Settled) :
    (∀ more t, (∀ ev ∈ more, ev.inner = true) → run (step cfg d) s more = some t → more.length ≤ s.work) ∧
      (∃ t, Reaches (step cfg d) (fun ev => ev.inner = true) s t ∧
        AtRest (step cfg d) (fun ev => ev.inner = true) t) ∧
      ∀ t, Reaches (step cfg d) (fun ev => ev.inner = true) s t → AtRest (step cfg d) (fun ev => ev.inner = true) t →
        t.market.received tx =
          ((s.streams.log.map Prod.snd).filter fun update => update.symbol = symbol).map fun update =>
            .delta update.delta := by
  have hs := connected_run hsetup hrun
  have hinv : ∀ (s : WiredFeed P) (ev : WiredEvent P) (t : WiredFeed P), s.market.Connected →
      s.step cfg d ev = some t → t.market.Connected := fun _ _ _ hs hstep => connected_step hs hstep
  have hlower : ∀ (s : WiredFeed P) (ev : WiredEvent P) (t : WiredFeed P), s.market.Connected → ev.inner = true →
      s.step cfg d ev = some t → t.work < s.work := fun _ _ _ hs hev hstep => work_lt hs hev hstep
  refine ⟨fun more t hmore hmorerun => ?_,exists_atRest hinv hlower hs,fun t hreaches hrest => ?_⟩
  · exact (Nat.le_add_right _ _).trans (run_length_add_le hinv hlower hs hmore hmorerun)
  have hframe : t.streams = s.streams ∧ t.market.registry = s.market.registry ∧ t.market.Connected ∧
      t.Fed d symbol tx (m.registry.providers.lookup symbol) := by
    refine @Reaches.invariant _ _ _ _ _ _ (fun t => t.streams = s.streams ∧ t.market.registry = s.market.registry ∧
      t.market.Connected ∧ t.Fed d symbol tx (m.registry.providers.lookup symbol)) (fun ev u v hev hu hstep => ?_)
      ⟨rfl,rfl,hs,fed_run hsetup hforward hentry hquiet hrun hcall⟩ hreaches
    obtain ⟨hstreams,hregistry,hconnected,hfed⟩ := hu
    obtain ⟨hstreams',hregistry'⟩ := inner_frame hev hstep
    refine ⟨hstreams'.trans hstreams,hregistry'.trans hregistry,connected_step hconnected hstep,hfed.step ?_ hstep⟩
    cases ev with
    | market ev =>
      intro snapshotFn heq
      rw [heq] at hev
      cases hev
    | _ => trivial
  obtain ⟨hstreams,hregistry,hconnected,hfed⟩ := hframe
  obtain ⟨hforwarded,hidle,-,hempty⟩ := drained_of_atRest hconnected (hregistry ▸ hsettled) hrest
  have hmessages := hfed.messages
  rw [MarketData.waiting_idle hidle, hempty symbol tx hfed.wired.registry.worker, List.append_nil, taken,
    List.take_of_length_le hforwarded, hstreams] at hmessages
  exact hmessages

end Runs

theorem feed_comes_to_rest_streamThenWake :
    ∃ s, run (step ⟨10,0⟩ spotTexts) (start .new id ["BTCUSDT","ETHUSDT"] wiredSpot) (streamThenWake.take 5) = some s ∧
      ∃ t, Reaches (step ⟨10,0⟩ spotTexts) (fun ev => ev.inner = true) s t ∧
        t.market.received 0 = [.delta ⟨"BTCUSDT",[⟨100,1⟩],[],some 0,some 1,none⟩] := by
  have hrun : run (step ⟨10,0⟩ spotTexts) (start .new id ["BTCUSDT","ETHUSDT"] wiredSpot) (streamThenWake.take 5) =
      some ((run (step ⟨10,0⟩ spotTexts) (start .new id ["BTCUSDT","ETHUSDT"] wiredSpot) (streamThenWake.take 5)).get
        (by decide +kernel)) := (Option.some_get _).symm
  obtain ⟨hsetup,hforward,hentry,hquiet,hcall⟩ := setup_registerSpot ⟨10,0⟩
  have hsettled : wiredSpot.registry.Settled := by
    intro c hc
    cases List.mem_singleton.mp hc
    exact ⟨0,rfl⟩
  obtain ⟨-,⟨t,ht,hrest⟩,hall⟩ := feed_comes_to_rest hsetup hforward hentry hquiet hrun
    (fun ev hev => hcall ev (List.mem_of_mem_take hev)) hsettled
  refine ⟨_,hrun,t,ht,(hall t ht hrest).trans ?_⟩
  have hlog : (((run (step ⟨10,0⟩ spotTexts) (start .new id ["BTCUSDT","ETHUSDT"] wiredSpot)
      (streamThenWake.take 5)).get (by decide +kernel)).streams.log.map Prod.snd).filter
        (fun update => update.symbol = "BTCUSDT") =
        [⟨"BTCUSDT",[⟨100,1⟩],[],some 1,false⟩] := by decide +kernel
  rw [hlog]
  rfl

end WiredFeed

end ArbCore
