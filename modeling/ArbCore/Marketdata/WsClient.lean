import ArbCore.Adapters.DepthStreams

/-! # The websocket client of the market data

It calls a closure with every text and answers a ping with its payload; whether the pong
could be written is ignored. The closure is awaited before the next message is read. The
adapter has a loop of its own, which does the same with a closure that decodes and sends.
-/
namespace ArbCore
open LabelledRun

/-- `calls` are the arguments of the closure and `pongs` the payloads written, in order. -/
structure WsClient where
  socket : Socket
  calls : List String
  pongs : List (List UInt8)

namespace WsClient
variable {c t : WsClient} {ev : SocketEvent}

def new : WsClient := ⟨.new,[],[]⟩

def stops : SocketRead → Bool
  | .close | .error => true
  | _ => false

def retry (c : WsClient) : WsClient := { c with socket.phase := .retrying }

/-- One step of `run_ws_with_reconnect`. -/
def runWsWithReconnect (c : WsClient) (ev : SocketEvent) : Option WsClient :=
  match c.socket.phase, ev with
  | .connecting, .connected =>
    some { c with socket := ⟨.reading,100,c.socket.attempts ++ [true],c.socket.waits⟩ }
  | .connecting, .refused => some { c.retry with socket.attempts := c.socket.attempts ++ [false] }
  | .reading, .read (.text txt) => some { c with calls := c.calls ++ [txt] }
  | .reading, .read .binary => some c
  | .reading, .read (.ping payload) => some { c with pongs := c.pongs ++ [payload] }
  | .reading, .read .pong => some c
  | .reading, .read .close => some c.retry
  | .reading, .read .error => some c.retry
  | .reading, .read _ => some c
  | .reading, .ended => some c.retry
  | .retrying, .slept random =>
    let jitter := random % 100
    let wait := c.socket.backoffMs + jitter
    some { c with socket := ⟨.connecting,min (c.socket.backoffMs * 2) 10000,c.socket.attempts,
      c.socket.waits ++ [wait]⟩ }
  | _, _ => none

/-- The loop is a socket that reconnects, and which messages end a connection depends on none of
the calls. -/
theorem runWs_eq (c : WsClient) (ev : SocketEvent) :
    c.runWsWithReconnect ev = (c.socket.step stops ev).map fun socket =>
      ⟨socket,c.calls ++ ev.text?.toList,c.pongs ++ (ev.read?.bind SocketRead.ping?).toList⟩ := by
  obtain ⟨⟨phase,backoffMs,attempts,waits⟩,calls,pongs⟩ := c
  cases ev with
  | read msg =>
    cases phase with
    | reading =>
      cases msg <;> simp [runWsWithReconnect, Socket.step, stops, SocketEvent.text?, SocketEvent.read?,
        SocketRead.text?, SocketRead.ping?, retry]
    | connecting => rfl
    | retrying => rfl
  | _ => cases phase <;> simp [runWsWithReconnect, Socket.step, SocketEvent.text?, SocketEvent.read?, retry]

/-- After a text and a ping the server closes the connection, and the next one is refused. -/
example : (run runWsWithReconnect new [.connected,.read (.text "a"),.read (.ping [1,2]),.read .close,.slept 7,.refused,
    .slept 130]).map (fun c => (c.calls,c.pongs,c.socket.waits)) = some (["a"],[[1,2]],[107,230]) := by
  decide

section Agreement
variable {d : StreamDecoder} {url : String}

/-- The state of the adapter's loop for one symbol when the client has called the closure so far. -/
def asStream (d : StreamDecoder) (url : String) (c : WsClient) : DepthStreams :=
  ⟨[⟨url,c.socket,c.calls⟩],(c.calls.filterMap d.update?).map fun update => (0,update),true⟩

theorem stops_eq (d : StreamDecoder) : d.stops true = stops := by
  funext msg
  cases msg with
  | text txt => exact Bool.and_false _
  | _ => rfl

theorem step_asStream (d : StreamDecoder) (url : String) (c : WsClient) (ev : SocketEvent) :
    (asStream d url c).step d (.socket 0 ev) = (c.runWsWithReconnect ev).map (asStream d url) := by
  have htask : (asStream d url c).tasks[0]? = some ⟨url,c.socket,c.calls⟩ := rfl
  have hopen : (asStream d url c).rxOpen = true := rfl
  rw [DepthStreams.step, htask, hopen, Option.bind_some, StreamTask.step_eq, runWs_eq, stops_eq, Option.map_map,
    Option.map_map]
  refine congrArg (Option.map · _) (funext fun socket => ?_)
  cases htext : ev.text? with
  | none => simp [asStream]
  | some txt => cases hupdate : d.update? txt <;> simp [asStream, hupdate]

theorem run_asStream (d : StreamDecoder) (url : String) (c : WsClient) (events : List SocketEvent) :
    run (DepthStreams.step d) (asStream d url c) (events.map (.socket 0)) =
      (run runWsWithReconnect c events).map (asStream d url) := by
  induction events generalizing c with
  | nil => rfl
  | cons ev events ih =>
    rw [List.map_cons, run_cons, run_cons, step_asStream]
    cases c.runWsWithReconnect ev with
    | none => rfl
    | some c' => exact ih c'

/-- The two loops agree. Whatever the socket does, the adapter's task of a symbol can take a step
exactly when the client can, connects, reads and sleeps like it, and has sent what the client's
closure would have decoded. -/
theorem connectWs_agrees (a : BinanceSpotAdapter) (lower : String → String) (symbol : String)
    (events : List SocketEvent) :
    run (DepthStreams.step d) (a.connectWs lower [symbol]) (events.map (.socket 0)) =
      (run runWsWithReconnect new events).map (asStream d (a.wsDepthUrl lower symbol)) :=
  run_asStream d (a.wsDepthUrl lower symbol) new events

end Agreement

end WsClient

end ArbCore
