import ArbCore.Marketdata.ChannelOwnership
import ArbCore.Marketdata.Forwarder
import ArbCore.Marketdata.SymbolFeed

/-! # The worker of a symbol among the others

The forwarder with all its symbols contains the small system of each wired symbol as it
is: a step of an event of the symbol is a step of that system, and no other step touches it.
-/
namespace ArbCore

namespace MarketData
variable {P : Type} {cfg : SymbolWorkerConfig} {m t : MarketData P} {ev : MarketEvent P}
  {symbol : String} {tx : Channel} {p : Option P}

/-- The messages sent or about to be sent into a channel and not yet taken. -/
def waiting (m : MarketData P) (tx : Channel) : List SymbolMessage :=
  m.queues tx ++ (m.sending.toList.filter fun x => x.tx = tx).map SymbolSend.msg

def feed (m : MarketData P) (tx : Channel) : SymbolFeed := ⟨m.received tx,m.waiting tx,m.tasks tx⟩

def feedEvent (symbol : String) (tx : Channel) (p : Option P) : MarketEvent P → Option FeedEvent
  | .forward update => if update.symbol = symbol then update.message?.map .message else none
  | .wake symbol' tx' answers now =>
    if symbol' = symbol ∧ tx' = tx then some (.wake ⟨p.map answers,now⟩) else none
  | .registry _ | .send _ => none

/-- A message is on its way into the channel exactly when it is one of the symbol. -/
structure Wired (m : MarketData P) (symbol : String) (tx : Channel) (p : Option P) : Prop where
  registry : m.registry.Wired symbol tx p
  sending : ∀ x, m.sending = some x → (x.sym = symbol ↔ x.tx = tx)

theorem Wired.forward_iff (h : m.registry.Wired symbol tx p) {update : OrderbookUpdate} {x : SymbolSend}
    (hx : m.registry.forward update = some x) :
    x.sym = update.symbol ∧ update.message? = some x.msg ∧ (update.symbol = symbol ↔ x.tx = tx) := by
  obtain ⟨msg,hmsg,hforward⟩ := m.registry.forward_eq update
  rw [hforward] at hx
  obtain ⟨tx',htx',rfl⟩ := Option.map_eq_some_iff.mp hx
  refine ⟨rfl,by rw [OrderbookUpdate.message?, hmsg],?_⟩
  constructor
  · rintro rfl
    exact Option.some.inj (htx'.symm.trans h.entry)
  · rintro rfl
    exact h.owned.unique _ _ tx' (.inr (.inr (.inl htx'))) (.inr (.inr (.inl h.entry)))

def NoCall (symbol : String) (ev : MarketEvent P) : Prop :=
  ∀ snapshotFn, ev ≠ .registry (.call symbol snapshotFn)

theorem Wired.move (h : m.Wired symbol tx p) (hmove : Move cfg m ev t) (hcall : NoCall symbol ev) :
    t.Wired symbol tx p := by
  cases hmove with
  | registry hmove =>
    exact ⟨h.registry.move hmove fun fn hev => hcall fn (congrArg MarketEvent.registry hev),h.sending⟩
  | forward update hidle =>
    refine ⟨h.registry,fun x hx => ?_⟩
    obtain ⟨hsym,-,hiff⟩ := Wired.forward_iff h.registry hx
    exact hsym ▸ hiff
  | send hsending hroom => exact ⟨h.registry,fun x hx => nomatch hx⟩
  | started answers now hworker htask => exact ⟨h.registry,h.sending⟩
  | took answers now hworker htask hqueue => exact ⟨h.registry,h.sending⟩

theorem Wired.worker_symbol (h : m.Wired symbol tx p) {symbol' : String}
    (hworker : (symbol',tx) ∈ m.registry.workers) : symbol' = symbol :=
  h.registry.owned.unique _ _ tx (.inl hworker) (.inl h.registry.worker)

theorem waiting_idle (hidle : m.sending = none) (tx : Channel) : m.waiting tx = m.queues tx := by
  simp [waiting, hidle]

theorem waiting_own {x : SymbolSend} (hsending : m.sending = some x) (htx : x.tx = tx) :
    m.waiting tx = m.queues tx ++ [x.msg] := by
  simp [waiting, hsending, htx]

theorem waiting_other {x : SymbolSend} (hsending : m.sending = some x) (htx : x.tx ≠ tx) :
    m.waiting tx = m.queues tx := by
  simp [waiting, hsending, htx]

theorem feed_enqueue {x : SymbolSend} (hsending : m.sending = some x) (tx : Channel) :
    (m.enqueue x).feed tx = m.feed tx := by
  have hwaiting : (m.enqueue x).waiting tx = m.waiting tx := by
    rw [waiting_idle rfl]
    by_cases htx : x.tx = tx
    · rw [waiting_own hsending htx, ← htx]
      exact Function.update_self _ _ _
    · rw [waiting_other hsending htx]
      exact Function.update_of_ne (Ne.symm htx) _ _
  rw [feed, hwaiting]
  rfl

theorem feed_startTask_ne {tx' : Channel} (htx : tx' ≠ tx) (symbol : String) (env : WorkerEnv) :
    (m.startTask symbol tx' env).feed tx = m.feed tx := by
  have htask : (m.startTask symbol tx' env).tasks tx = m.tasks tx := Function.update_of_ne htx.symm _ _
  rw [feed, htask]
  rfl

theorem feed_takeMessage_ne {tx' : Channel} (htx : tx' ≠ tx) (w : SymbolWorker) (msg : SymbolMessage)
    (rest : List SymbolMessage) (env : WorkerEnv) :
    (m.takeMessage cfg tx' w msg rest env).feed tx = m.feed tx := by
  have hqueue : (m.takeMessage cfg tx' w msg rest env).queues tx = m.queues tx :=
    Function.update_of_ne htx.symm _ _
  have hreceived : (m.takeMessage cfg tx' w msg rest env).received tx = m.received tx :=
    Function.update_of_ne htx.symm _ _
  have htask : (m.takeMessage cfg tx' w msg rest env).tasks tx = m.tasks tx :=
    Function.update_of_ne htx.symm _ _
  rw [feed, waiting, hqueue, hreceived, htask]
  rfl

/-- A step that the worker of the symbol sees is a step of its own small system. -/
theorem feed_step (h : m.Wired symbol tx p) (hmove : Move cfg m ev t) {e : FeedEvent}
    (he : feedEvent symbol tx p ev = some e) :
    SymbolFeed.step cfg symbol (m.feed tx) e = some (t.feed tx) := by
  cases hmove with
  | registry _ => cases he
  | send _ _ => cases he
  | forward update hidle =>
    simp only [feedEvent] at he
    split_ifs at he with hsymbol
    obtain ⟨msg,hmsg,rfl⟩ := Option.map_eq_some_iff.mp he
    obtain ⟨msg',-,hforward⟩ := m.registry.forward_eq update
    rw [hsymbol, h.registry.entry] at hforward
    obtain ⟨-,hmsg',-⟩ := Wired.forward_iff h.registry hforward
    cases hmsg.symm.trans hmsg'
    have hwaiting : MarketData.waiting { m with sending := m.registry.forward update } tx =
        m.queues tx ++ [msg'] := waiting_own (m := { m with sending := m.registry.forward update }) hforward rfl
    rw [feed, feed, hwaiting, SymbolFeed.step, waiting_idle hidle]
  | @started symbol' tx' answers now hworker htask =>
    simp only [feedEvent] at he
    split_ifs at he with heq
    obtain ⟨rfl,rfl⟩ := heq
    cases he
    have henv : m.workerEnv symbol' answers now = ⟨p.map answers,now⟩ := by
      rw [workerEnv, h.registry.provider]
    have htask' : (m.startTask symbol' tx' ⟨p.map answers,now⟩).tasks tx' =
        some (.start symbol' ⟨p.map answers,now⟩) := Function.update_self _ _ _
    rw [henv, feed, feed, htask']
    simp only [SymbolFeed.step, htask]
    rfl
  | @took symbol' tx' w msg rest answers now hworker htask hqueue =>
    simp only [feedEvent] at he
    split_ifs at he with heq
    obtain ⟨rfl,rfl⟩ := heq
    cases he
    have henv : m.workerEnv symbol' answers now = ⟨p.map answers,now⟩ := by
      rw [workerEnv, h.registry.provider]
    rw [henv, feed, feed, waiting, waiting, hqueue]
    simp [SymbolFeed.step, takeMessage, htask]

theorem feed_silent (h : m.Wired symbol tx p) (hmove : Move cfg m ev t)
    (he : feedEvent symbol tx p ev = none) : t.feed tx = m.feed tx := by
  cases hmove with
  | registry _ => rfl
  | send hsending _ => exact feed_enqueue hsending tx
  | forward update hidle =>
    have hwaiting : MarketData.waiting { m with sending := m.registry.forward update } tx =
        m.waiting tx := by
      rw [waiting_idle hidle]
      cases hforward : m.registry.forward update with
      | none => exact waiting_idle (m := { m with sending := none }) rfl tx
      | some x =>
        obtain ⟨-,hmsg,hiff⟩ := Wired.forward_iff h.registry hforward
        have hsymbol : update.symbol ≠ symbol := by
          intro hsymbol
          simp [feedEvent, hsymbol, hmsg] at he
        exact waiting_other (m := { m with sending := some x }) rfl fun htx => hsymbol (hiff.mpr htx)
    rw [feed, hwaiting]
    rfl
  | @started symbol' tx' answers now hworker htask =>
    refine feed_startTask_ne ?_ _ _
    rintro rfl
    cases h.worker_symbol hworker
    simp [feedEvent] at he
  | @took symbol' tx' w msg rest answers now hworker htask hqueue =>
    refine feed_takeMessage_ne ?_ _ _ _ _
    rintro rfl
    cases h.worker_symbol hworker
    simp [feedEvent] at he

end MarketData

end ArbCore
