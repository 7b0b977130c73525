import ArbCore.Adapters.ReconnectingSocket
import ArbCore.Adapters.Snapshots

/-! # The depth streams of the Binance adapter

A task for each symbol reads the socket of the symbol and sends what it makes of a text into
one channel that all tasks share. `log` is what entered the channel, with the position of the task
that sent it. What decodes JSON is a parameter.
-/
namespace ArbCore
open LabelledRun

structure BinanceStreamWrapper where
  stream : String
  data : BinanceDepthEvent

/-- `wrapper` and `event` are what the JSON decoder makes of a text at the two types. -/
structure StreamDecoder where
  tables : TextTables
  wrapper : String → Option BinanceStreamWrapper
  event : String → Option BinanceDepthEvent

def StreamDecoder.update? (d : StreamDecoder) (txt : String) : Option OrderbookUpdate :=
  match d.wrapper txt with
  | some wrapper => (d.tables.toUpdateFromEvent wrapper.data).toOption
  | none => match d.event txt with
    | some evt => (d.tables.toUpdateFromEvent evt).toOption
    | none => none

theorem StreamDecoder.isSnapshot_eq_false {d : StreamDecoder} {txt : String} {update : OrderbookUpdate}
    (h : d.update? txt = some update) : update.isSnapshot = false := by
  have hevent : ∀ e, (d.tables.toUpdateFromEvent e).toOption = some update → update.isSnapshot = false := by
    intro e he
    cases hupdate : d.tables.toUpdateFromEvent e with
    | error err =>
      rw [hupdate] at he
      cases he
    | ok update' =>
      rw [hupdate] at he
      cases he
      exact (TextTables.toUpdateFromEvent_ok hupdate).2.2
  unfold update? at h
  split at h
  · exact hevent _ h
  · split at h
    · exact hevent _ h
    · cases h

/-- `texts` is what the task has read on all its connections. -/
structure StreamTask where
  url : String
  socket : Socket
  texts : List String

structure DepthStreams where
  tasks : List StreamTask
  log : List (ℕ × OrderbookUpdate)
  rxOpen : Bool

inductive DepthStreamsEvent where
  | socket (i : ℕ) (ev : SocketEvent)
  | dropRx

def SocketEvent.text? (ev : SocketEvent) : Option String := ev.read?.bind SocketRead.text?

/-- The connection ends when it is closed or fails, and when an update cannot be sent. -/
def StreamDecoder.stops (d : StreamDecoder) (rxOpen : Bool) : SocketRead → Bool
  | .text txt => (d.update? txt).isSome && !rxOpen
  | .close | .error => true
  | _ => false

namespace StreamTask

def retry (task : StreamTask) : StreamTask := { task with socket.phase := .retrying }

/-- The two branches of the parse end alike: an update that cannot be sent ends the connection. -/
def onEvent (d : StreamDecoder) (rxOpen : Bool) (task : StreamTask) (e : BinanceDepthEvent) :
    StreamTask × Option OrderbookUpdate :=
  match d.tables.toUpdateFromEvent e with
  | .ok update => if rxOpen then (task,some update) else (task.retry,none)
  | .error _ => (task,none)

def onText (d : StreamDecoder) (rxOpen : Bool) (task : StreamTask) (txt : String) :
    StreamTask × Option OrderbookUpdate :=
  let task := { task with texts := task.texts ++ [txt] }
  match d.wrapper txt with
  | some wrapper => task.onEvent d rxOpen wrapper.data
  | none => match d.event txt with
    | some evt => task.onEvent d rxOpen evt
    | none => (task,none)

/-- One step of the loop that `connect_ws` spawns for a symbol. -/
def step (d : StreamDecoder) (rxOpen : Bool) (task : StreamTask) (ev : SocketEvent) :
    Option (StreamTask × Option OrderbookUpdate) :=
  match task.socket.phase, ev with
  | .connecting, .connected =>
    some ({ task with socket := ⟨.reading,100,task.socket.attempts ++ [true],task.socket.waits⟩ },none)
  | .connecting, .refused =>
    some ({ task.retry with socket.attempts := task.socket.attempts ++ [false] },none)
  | .reading, .read (.text txt) => some (task.onText d rxOpen txt)
  | .reading, .read (.ping _) => some (task,none)
  | .reading, .read .close => some (task.retry,none)
  | .reading, .read .error => some (task.retry,none)
  | .reading, .read _ => some (task,none)
  | .reading, .ended => some (task.retry,none)
  | .retrying, .slept random =>
    let jitter := random % 100
    let wait := task.socket.backoffMs + jitter
    some ({ task with socket := ⟨.connecting,min (task.socket.backoffMs * 2) 10000,task.socket.attempts,
      task.socket.waits ++ [wait]⟩ },none)
  | _, _ => none

variable {d : StreamDecoder} {rxOpen : Bool} {task : StreamTask}

theorem onEvent_eq (e : BinanceDepthEvent) : task.onEvent d rxOpen e =
    (if (d.tables.toUpdateFromEvent e).toOption.isSome && !rxOpen then task.retry else task,
      if rxOpen then (d.tables.toUpdateFromEvent e).toOption else none) := by
  unfold onEvent
  cases d.tables.toUpdateFromEvent e <;> cases rxOpen <;> rfl

theorem onText_eq (txt : String) : task.onText d rxOpen txt =
    (if d.stops rxOpen (.text txt) then { task with texts := task.texts ++ [txt] }.retry
      else { task with texts := task.texts ++ [txt] }, if rxOpen then d.update? txt else none) := by
  unfold onText StreamDecoder.stops StreamDecoder.update?
  cases hwrapper : d.wrapper txt with
  | some wrapper => simp only [hwrapper, onEvent_eq]
  | none =>
    cases hevent : d.event txt with
    | some evt => simp only [hwrapper, hevent, onEvent_eq]
    | none => simp [hwrapper, hevent]

/-- The loop is a socket that reconnects, with a text sent as an update while it can be. -/
theorem step_eq (d : StreamDecoder) (rxOpen : Bool) (task : StreamTask) (ev : SocketEvent) :
    task.step d rxOpen ev = (task.socket.step (d.stops rxOpen) ev).map fun socket =>
      ({ task with socket := socket, texts := task.texts ++ ev.text?.toList },
        if rxOpen then ev.text?.bind d.update? else none) := by
  obtain ⟨url,⟨phase,backoffMs,attempts,waits⟩,texts⟩ := task
  cases ev with
  | read msg =>
    cases phase with
    | reading =>
      cases msg with
      | text txt =>
        simp only [step, onText_eq, Socket.step, Option.map_some, SocketEvent.text?, SocketEvent.read?,
          SocketRead.text?, Option.bind_some, Option.toList_some]
        split_ifs <;> rfl
      | _ =>
        simp [step, Socket.step, StreamDecoder.stops, SocketEvent.text?, SocketEvent.read?, SocketRead.text?, retry]
    | connecting => rfl
    | retrying => rfl
  | _ => cases phase <;> simp [step, Socket.step, SocketEvent.text?, SocketEvent.read?, retry]

end StreamTask

def BinanceSpotAdapter.connectWs (a : BinanceSpotAdapter) (lower : String → String) (symbols : List String) :
    DepthStreams :=
  ⟨symbols.map fun sym => ⟨a.wsDepthUrl lower sym,.new,[]⟩,[],true⟩

namespace DepthStreams
variable {d : StreamDecoder} {s t : DepthStreams} {ev : DepthStreamsEvent}

def step (d : StreamDecoder) (s : DepthStreams) : DepthStreamsEvent → Option DepthStreams
  | .socket i ev => (s.tasks[i]?.bind fun task => task.step d s.rxOpen ev).map fun (task,sent) =>
    { s with tasks := s.tasks.set i task, log := s.log ++ (sent.map fun update => (i,update)).toList }
  | .dropRx => some { s with rxOpen := false }

def sends (d : StreamDecoder) (s : DepthStreams) (ev : SocketEvent) : Option OrderbookUpdate :=
  if s.rxOpen then ev.text?.bind d.update? else none

theorem step_socket {i : ℕ} {ev : SocketEvent} (h : s.step d (.socket i ev) = some t) :
    ∃ task socket, s.tasks[i]? = some task ∧ task.socket.step (d.stops s.rxOpen) ev = some socket ∧
      t = { s with
        tasks := s.tasks.set i { task with socket := socket, texts := task.texts ++ ev.text?.toList }
        log := s.log ++ ((s.sends d ev).map fun update => (i,update)).toList } := by
  obtain ⟨⟨task',sent⟩,htask',rfl⟩ := Option.map_eq_some_iff.mp h
  obtain ⟨task,htask,htask'⟩ := Option.bind_eq_some_iff.mp htask'
  rw [StreamTask.step_eq] at htask'
  obtain ⟨socket,hsocket,heq⟩ := Option.map_eq_some_iff.mp htask'
  cases heq
  exact ⟨task,socket,htask,hsocket,rfl⟩

def sentBy (s : DepthStreams) (i : ℕ) : List OrderbookUpdate := (s.log.filter fun x => x.1 = i).map Prod.snd

/-- The channel holds what the tasks made of their texts, of each task in the order of its texts. -/
structure Delivered (d : StreamDecoder) (s : DepthStreams) : Prop where
  paced : ∀ task ∈ s.tasks, task.socket.Paced
  sent : ∀ (i : ℕ) task, s.tasks[i]? = some task → s.sentBy i <+: task.texts.filterMap d.update? ∧
    (s.rxOpen = true → s.sentBy i = task.texts.filterMap d.update?)
  senders : ∀ x ∈ s.log, x.1 < s.tasks.length

theorem delivered_connectWs (d : StreamDecoder) (a : BinanceSpotAdapter) (lower : String → String)
    (symbols : List String) : (a.connectWs lower symbols).Delivered d := by
  refine ⟨fun task htask => ?_,fun i task htask => ?_,fun x hx => by cases hx⟩
  · obtain ⟨sym,-,rfl⟩ := List.mem_map.mp htask
    exact Socket.paced_new
  · obtain ⟨sym,-,rfl⟩ := List.mem_map.mp (List.mem_of_getElem? htask)
    exact ⟨List.prefix_rfl,fun _ => rfl⟩

theorem sentBy_append (s : DepthStreams) (tasks : List StreamTask) (i j : ℕ) (update : Option OrderbookUpdate) :
    sentBy { s with tasks := tasks, log := s.log ++ (update.map fun u => (i,u)).toList } j =
      s.sentBy j ++ if i = j then update.toList else [] := by
  unfold sentBy
  rw [List.filter_append, List.map_append]
  cases update with
  | none => simp
  | some u => by_cases hij : i = j <;> simp [hij]

theorem Delivered.step (hs : s.Delivered d) (h : s.step d ev = some t) : t.Delivered d := by
  obtain ⟨hpaced,hsent,hsenders⟩ := hs
  cases ev with
  | dropRx =>
    cases h
    exact ⟨hpaced,fun i task htask => ⟨(hsent i task htask).1,fun hopen => by cases hopen⟩,hsenders⟩
  | socket i ev =>
    obtain ⟨task,socket,htask,hsocket,rfl⟩ := step_socket h
    have hlt : i < s.tasks.length := (List.getElem?_eq_some_iff.mp htask).1
    refine ⟨fun task' htask' => ?_,fun j task' htask' => ?_,fun x hx => ?_⟩
    · rcases List.mem_or_eq_of_mem_set htask' with hmem | rfl
      · exact hpaced task' hmem
      · exact (hpaced task (List.mem_of_getElem? htask)).step hsocket
    · rw [sentBy_append]
      by_cases hij : i = j
      · subst hij
        rw [List.getElem?_set_self hlt] at htask'
        cases htask'
        obtain ⟨hpre,hall⟩ := hsent i task htask
        rw [if_pos rfl, List.filterMap_append]
        cases hopen : s.rxOpen with
        | false =>
          have hnone : s.sends d ev = none := by rw [sends, hopen]; rfl
          rw [hnone]
          refine ⟨?_,fun h => by cases h⟩
          exact (List.append_nil _).symm ▸ hpre.trans (List.prefix_append _ _)
        | true =>
          have hsends : s.sends d ev = ev.text?.bind d.update? := by rw [sends, hopen]; rfl
          have htexts : (s.sends d ev).toList = ev.text?.toList.filterMap d.update? := by
            rw [hsends]
            cases ev.text? with
            | none => rfl
            | some txt =>
              rw [Option.bind_some, Option.toList_some, List.filterMap_cons]
              cases d.update? txt <;> rfl
          rw [hall hopen, htexts]
          exact ⟨List.prefix_rfl,fun _ => rfl⟩
      · rw [List.getElem?_set_ne hij] at htask'
        rw [if_neg hij, List.append_nil]
        exact hsent j task' htask'
    · rw [List.length_set]
      rcases List.mem_append.mp hx with hx | hx
      · exact hsenders x hx
      · obtain ⟨update,-,rfl⟩ := Option.map_eq_some_iff.mp (Option.mem_toList.mp hx)
        exact hlt

theorem length_tasks_step (h : s.step d ev = some t) : t.tasks.length = s.tasks.length := by
  cases ev with
  | dropRx =>
    cases h
    rfl
  | socket i ev =>
    obtain ⟨task,socket,-,-,rfl⟩ := step_socket h
    exact List.length_set

theorem delivered_run {a : BinanceSpotAdapter} {lower : String → String} {symbols : List String}
    {events : List DepthStreamsEvent} (h : run (step d) (a.connectWs lower symbols) events = some s) : s.Delivered d :=
  @run_invariant _ _ (step d) (Delivered d) (fun _ _ _ hs hstep => hs.step hstep) _ _ _
    (delivered_connectWs d a lower symbols) h

/-- Each symbol has a task. As long as the receiver is there, the channel got the updates of all
texts that a task read, on whatever connections, in their order, and once it is gone it got
the first of them. A task has slept once after every attempt to connect but the one under
way, for the delay of the attempts since the last success and less than 100 ms more. -/
theorem updates_delivered {a : BinanceSpotAdapter} {lower : String → String} {symbols : List String}
    {events : List DepthStreamsEvent} (hrun : run (step d) (a.connectWs lower symbols) events = some s) :
    s.tasks.length = symbols.length ∧ (∀ x ∈ s.log, x.1 < symbols.length) ∧
      ∀ (i : ℕ) task, s.tasks[i]? = some task →
        (s.rxOpen = true → s.sentBy i = task.texts.filterMap d.update?) ∧
        s.sentBy i <+: task.texts.filterMap d.update? ∧
        (task.socket.waits.length + if task.socket.phase = .connecting then 0 else 1) =
          task.socket.attempts.length ∧
        reconnectBackoff.Waited 100 task.socket.attempts task.socket.waits ∧
        ∀ w ∈ task.socket.waits, 100 ≤ w ∧ w < 10100 := by
  have hlength : s.tasks.length = symbols.length :=
    @run_invariant _ _ (step d) (fun s => s.tasks.length = symbols.length)
      (fun _ _ _ hs hstep => (length_tasks_step hstep).trans hs) _ _ _ (List.length_map _) hrun
  have hs := delivered_run hrun
  refine ⟨hlength,hlength ▸ hs.senders,fun i task htask => ?_⟩
  obtain ⟨hpre,hall⟩ := hs.sent i task htask
  have hpaced := hs.paced task (List.mem_of_getElem? htask)
  refine ⟨hall,hpre,?_,hpaced.waited,hpaced.waited.bounds (by decide)⟩
  split_ifs with hphase
  · exact (hpaced.connecting hphase).1
  · exact (hpaced.busy hphase).1

section Witness

def btcEvent (id : ℕ) : BinanceDepthEvent := ⟨"BTCUSDT",id,[("2","1")],[]⟩

def fewTexts : StreamDecoder where
  tables := ⟨fun txt => if txt = "2" then .ok 2 else if txt = "1" then .ok 1 else .error "not a number",fun c => [c]⟩
  wrapper := fun txt => if txt = "combined 7" then some ⟨"btcusdt@depth",btcEvent 7⟩ else none
  event := fun txt => if txt = "plain 8" then some (btcEvent 8)
    else if txt = "plain x" then some ⟨"BTCUSDT",9,[("x","1")],[]⟩ else none

/-- Two refused connections, one that fails after a text, and one that is still read. -/
def reconnecting : List DepthStreamsEvent :=
  [.refused,.slept 250,.refused,.slept 99,.connected,.read (.text "combined 7"),.read .error,.slept 0,.connected,
    .read (.text "plain x"),.read (.text "plain 8")].map (.socket 0)

theorem updates_delivered_reconnecting :
    ∃ s, run (step fewTexts) (BinanceSpotAdapter.new.connectWs id ["BTCUSDT"]) reconnecting = some s ∧
      (s.sentBy 0).map OrderbookUpdate.sequence = [some 7,some 8] ∧
      ∀ (i : ℕ) task, s.tasks[i]? = some task →
        (task.socket.waits.length + if task.socket.phase = .connecting then 0 else 1) = task.socket.attempts.length :=
  ⟨(run (step fewTexts) (BinanceSpotAdapter.new.connectWs id ["BTCUSDT"]) reconnecting).get (by decide +kernel),
    (Option.some_get _).symm,by decide +kernel,
    fun i task htask => ((updates_delivered (Option.some_get _).symm).2.2 i task htask).2.2.1⟩

end Witness

end DepthStreams

end ArbCore
