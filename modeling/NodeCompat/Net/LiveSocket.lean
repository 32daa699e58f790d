import NodeCompat.Net.ConnectionFrame
import NodeCompat.Net.Socket
import NodeCompat.Net.SocketData

/-!
# A socket over its native connection

`Socket` of node:net from its `connect` or its acceptance on: what it writes, what it is handed, and how it ends. The events of
the connection are dispatched one at a time. Listeners and callbacks are user code, which may call any method again; what a
method still has to do is a frame.

Looking an address up and trying the answers is not part of it. The attempt that wins comes with the pass in which it has
connected (`win`), and a connect that fails destroys the socket (`lose`). A socket is connected once.

The kernel holds what the peer has sent and `recv` has not returned. A frame may also wait where no listener was called; so the
program has the runs of the source, and some in which user code runs more often.
-/

namespace NodeCompat.Net

open NodeCompat.Stream (BufferEncoding)

/-- A `write` with a callback: its number among these, how much was written before it, and its data. -/
structure WriteCallback where
  id : Nat
  start : Nat
  data : Bytes
  deriving DecidableEq

/-- The kernel has taken all bytes of the write. -/
def WriteCallback.accepted (w : WriteCallback) (sent : Bytes) : Bool := w.data.isPrefixOf (sent.drop w.start)

/-- Answers of `recv` when `unread` is what the kernel holds; `ended` says that the peer has closed. -/
def recvFits (ended : Bool) : Bytes → List RecvResult → Bool
  | _, [] => true
  | unread, .bytes b :: rs =>
    if b = [] then ended && unread.isEmpty else b.isPrefixOf unread && recvFits ended (unread.drop b.length) rs
  | unread, _ :: rs => recvFits ended unread rs

/-- `__gea_node_net_write` for each write that was held back. -/
def ClientConnection.writeAll : ClientConnection → List Bytes → List (List SendResult) → Option ClientConnection
  | c, [], _ => some c
  | c, data :: held, sends => (c.write data (sends.headD [])).bind (fun c => c.writeAll held sends.tail)

/-- The microtasks of `destroy`, of a `write` that is refused and of an `end` without a connection. -/
inductive SocketTask
  | emitClose
  | refuse (w : WriteCallback)
  | emitFinish
  deriving DecidableEq

structure LiveSocket extends SocketData where
  native : ClientConnection
  -- the connection is not purged, so a call finds it
  alive : Bool := true
  -- `nativeId_` is set
  attached : Bool
  unread : Bytes := []
  peerClosed : Bool := false
  connecting : Bool
  destroyed : Bool := false
  readyState : ReadyState
  closeEmitted : Bool := false
  destroyAfterFinish : Bool := false
  connectingWrites : List Bytes := []
  connectingEnd : Bool := false
  pendingWriteCallbacks : List WriteCallback := []
  pendingFinishCallbacks : Nat := 0
  microtasks : List SocketTask := []
  -- not in the source: the writes that had a callback
  callbacks : List WriteCallback := []
  deriving DecidableEq

namespace LiveSocket

inductive Event
  | connect
  -- `'data'`, or a write to the target of `pipe`
  | chunk (e : SocketData.Event)
  | error
  | close
  | finish
  | ended
  | callback (w : WriteCallback) (failed : Bool)
  | finishCallback
  -- seen by the kernel and by the program: bytes of the peer, and a call of `destroy`
  | arrived (b : Bytes)
  | destroyCalled
  deriving DecidableEq

inductive Frame
  -- `dispatchNativeEvents` at the head of its loop
  | dispatching
  -- `winAttempt` after `emitConnected`
  | connected
  -- `resume` at the head of its loop
  | resuming
  -- `flushWriteCallbacks` in its loop
  | flushing (rest : List WriteCallback) (failed : Bool)
  -- `flushFinishCallbacks` in its loop
  | flushingFinish (rest : Nat)
  -- before `emit('error')`, `flushFinishCallbacks` and `emit('finish')` of `dispatchNativeEvents`, and after `emit('finish')`
  | emitError
  | finishing
  | emitFinish
  | finished
  -- after `emit('end')`
  | ended
  -- `destroy` after `emit('error')`
  | destroying
  deriving DecidableEq

inductive Call
  | ready (r : Revents) (a : Answers)
  -- a microtask of `notifySoon`, and the next one of the socket itself
  | notify
  | microtask
  | win (r : Revents) (a : Answers) (sends : List (List SendResult))
  | lose
  | purge
  | arrive (b : Bytes)
  | peerCloses
  | write (data : Bytes) (callback : Bool) (sends : List SendResult)
  | endWrites (callback : Bool)
  | destroySoon
  | destroy (error : Bool)
  | pause
  | resume
  | setEncoding (encoding : BufferEncoding)
  | pipe
  deriving DecidableEq

abbrev Step := Block LiveSocket Frame Event

/-- After `connect`, or as `adoptAccepted` leaves a socket. -/
def start (accepted : Bool) : LiveSocket :=
  { native := ClientConnection.create true 0 accepted, attached := accepted, connecting := !accepted,
    readyState := if accepted then .open else .opening }

variable (toString : BufferEncoding → Bytes → List UInt16) (s : LiveSocket)

/-- A native call by `nativeId_`. -/
def onNative (f : ClientConnection → ClientConnection) : LiveSocket :=
  if s.attached && s.alive then { s with native := f s.native } else s

/-- `dispatchNativeEvents` returns, and with it the callback of the pass that has called it. -/
def leave : LiveSocket := { s with native := if 0 < s.native.callbacks then s.native.notified else s.native }

/-! ## Writing -/

def flushWriteCallbacks (failed : Bool) (frames : List Frame) : Step :=
  match s.pendingWriteCallbacks with
  | [] => { state := s, frames }
  | w :: rest =>
    { state := { s with pendingWriteCallbacks := [] }, seen := [.callback w failed], frames := .flushing rest failed :: frames }

def flushFinishCallbacks (frames : List Frame) : Step :=
  { state := { s with pendingFinishCallbacks := 0 }, frames := .flushingFinish s.pendingFinishCallbacks :: frames }

/-- A write with a callback, made now. -/
def writeCallback (data : Bytes) : WriteCallback :=
  { id := s.callbacks.length, start := s.native.written.length + s.connectingWrites.flatten.length, data }

/-- The callback of a write that is refused is called with `EPIPE`. -/
def refuse (callback : Bool) (w : WriteCallback) : LiveSocket :=
  if callback then { s with callbacks := s.callbacks ++ [w], microtasks := s.microtasks ++ [.refuse w] } else s

/-- The callback of another waits. -/
def await (callback : Bool) (w : WriteCallback) : LiveSocket :=
  if callback then { s with callbacks := s.callbacks ++ [w], pendingWriteCallbacks := s.pendingWriteCallbacks ++ [w] } else s

def write (data : Bytes) (callback : Bool) (sends : List SendResult) : Option Step :=
  let w := s.writeCallback data
  if s.destroyed || (!s.attached && !s.connecting) then some { state := s.refuse callback w }
  else if !s.attached then some { state := { s.await callback w with connectingWrites := s.connectingWrites ++ [data] } }
  else (if s.alive then s.native.write data sends else some s.native).map (fun c =>
      let s := { s.await callback w with native := c }
      if data.isEmpty && callback then s.flushWriteCallbacks false [] else { state := s })

def endWrites (callback : Bool) : LiveSocket :=
  let s := if callback then { s with pendingFinishCallbacks := s.pendingFinishCallbacks + 1 } else s
  if !s.attached && s.connecting && !s.destroyed then { s with connectingEnd := true }
  else if !s.attached || s.destroyed then { s with microtasks := s.microtasks ++ [.emitFinish] }
  else { s.onNative ClientConnection.endWrites with readyState := .readOnly }

def destroySoon : LiveSocket := if s.destroyed then s else { s with destroyAfterFinish := true }.endWrites false

/-! ## Ending -/

/-- `destroy` after it has emitted its error. -/
def destroyRest : LiveSocket :=
  { s.onNative ClientConnection.destroy with microtasks := s.microtasks ++ [.emitClose] }

/-- `destroy` before it emits its error, with `abandonAttempts`. -/
def abandon : LiveSocket :=
  { s with destroyed := true, connecting := false, readyState := .closed, connectingWrites := [], connectingEnd := false }

def destroy (error : Bool) : Step :=
  if s.destroyed then { state := s, seen := [.destroyCalled] }
  else
    let s := s.abandon
    if error then { state := s, seen := [.destroyCalled, .error], frames := [.destroying] }
    else { state := s.destroyRest, seen := [.destroyCalled] }

def emitClose (frames : List Frame) : Step :=
  if s.closeEmitted then { state := s, frames } else { state := { s with closeEmitted := true }, seen := [.close], frames }

/-! ## Reading -/

/-- A round of the loop of `resume`, or its end. -/
def deliverPending : Step :=
  match s.paused, s.pendingChunks with
  | false, chunk :: rest =>
    { state := { s with pendingChunks := rest }, seen := [.chunk (s.deliverChunk toString chunk)], frames := [.resuming] }
  | _, _ => { state := s }

def pause : LiveSocket := { s.onNative (fun c => { c with paused := true }) with paused := true }

def resume : Step := { s.onNative (fun c => { c with paused := false }) with paused := false }.deliverPending toString

/-! ## Dispatching -/

/-- A chunk that was read. -/
def receive (chunk : Bytes) : Step :=
  if s.paused then { state := { s with pendingChunks := s.pendingChunks ++ [chunk] }, frames := [.dispatching] }
  else { state := s, seen := [.chunk (s.deliverChunk toString chunk)], frames := [.dispatching] }

/-- What `dispatchNativeEvents` does with an event it has taken. -/
def handle : ClientEvent → Step
  | .connect => { state := { s with connecting := false, readyState := .open }, seen := [.connect], frames := [.dispatching] }
  | .data => { s with native := s.native.readChunk }.receive toString (s.native.chunks.headD [])
  | .error => { s with connecting := false }.flushWriteCallbacks true [.emitError, .dispatching]
  | .close => { s with connecting := false, destroyed := true, readyState := .closed }.emitClose [.dispatching]
  | .drain => s.flushWriteCallbacks false [.dispatching]
  | .finish => s.flushWriteCallbacks false [.finishing, .emitFinish, .finished, .dispatching]
  | .ended =>
    { state := if s.readyState = .readOnly then s else { s with readyState := .writeOnly }, seen := [.ended],
      frames := [.ended, .dispatching] }

/-- A round of the loop of `dispatchNativeEvents`. -/
def dispatch : Step :=
  if !s.alive then { state := s.leave }
  else
    match s.native.events with
    | [] => { state := s.leave }
    | e :: _ => { s with native := s.native.nextEvent }.handle toString e

/-- `winAttempt` after `emitConnected`. -/
def afterConnect : Step :=
  let s :=
    if s.connectingEnd && !s.destroyed then
      { s.onNative ClientConnection.endWrites with connectingEnd := false, readyState := .readOnly }
    else s
  if s.destroyed then { state := s.leave } else { state := s, frames := [.dispatching] }

/-- The fields that `winAttempt` and `emitConnected` set. -/
def attach (c : ClientConnection) : LiveSocket :=
  { s with native := c, attached := true, connectingWrites := [], connecting := false, readyState := .open }

/-- `winAttempt` up to its `'connect'`, for an attempt whose pass has left `c`. -/
def winAttempt (c : ClientConnection) (sends : List (List SendResult)) : Option Step :=
  ({ c.nextEvent.setNotify with paused := s.paused }.writeAll s.connectingWrites sends).map (fun c =>
    { state := s.attach c, seen := [.connect], frames := [.connected] })

/-! ## The program -/

/-- The kernel can answer a pass like this: it reports a hang-up without an error only when the peer has closed. -/
def fits (r : Revents) (a : Answers) : Bool :=
  recvFits s.peerClosed s.unread a.recvs && (!r.pollHup || r.pollErr || r.pollNval || s.peerClosed)

/-- What a pass leaves of the connection and in the kernel. -/
def pass (c : ClientConnection) (r : Revents) (a : Answers) : Option (ClientConnection × Bytes) :=
  if c.reports r && s.fits r a then
    (c.onReady r a).map (fun d => (d, s.unread.drop (d.received.length - c.received.length)))
  else none

def call : Call → Option Step
  | .ready r a =>
    if s.attached && s.alive && !s.native.loopClosed then (s.pass s.native r a).map (fun (c, unread) =>
        { state := { s with native := c, unread }, frames := if s.native.callbacks < c.callbacks then [.dispatching] else [] })
    else none
  | .notify =>
    if s.attached && decide (0 < s.native.soon) then
      some { state := { s with native := { s.native with soon := s.native.soon - 1 } }, frames := [.dispatching] }
    else none
  | .microtask =>
    match s.microtasks with
    | [] => none
    | .emitClose :: rest => some ({ s with microtasks := rest }.emitClose [])
    | .emitFinish :: rest => some ({ s with microtasks := rest }.flushFinishCallbacks [.emitFinish])
    | .refuse w :: rest => some { state := { s with microtasks := rest }, seen := [.callback w true] }
  | .win r a sends =>
    if s.connecting && !s.attached then (s.pass (ClientConnection.create true 0 false) r a).bind (fun (c, unread) =>
        if c.events.head? = some .connect then { s with unread }.winAttempt c sends else none)
    else none
  | .lose => if s.connecting && !s.attached then some (s.destroy true) else none
  | .purge => if s.native.loopClosed then some { state := { s with alive := false } } else none
  | .arrive b => if s.peerClosed then none else some { state := { s with unread := s.unread ++ b }, seen := [.arrived b] }
  | .peerCloses => some { state := { s with peerClosed := true } }
  | .write data callback sends => s.write data callback sends
  | .endWrites callback => some { state := s.endWrites callback }
  | .destroySoon => some { state := s.destroySoon }
  | .destroy error => some (s.destroy error)
  | .pause => some { state := s.pause }
  | .resume => some (s.resume toString)
  | .setEncoding encoding => some { state := { s with encoding := some encoding } }
  | .pipe => some { state := { s with piped := true } }

def goOn : Frame → Step
  | .dispatching => s.dispatch toString
  | .connected => s.afterConnect
  | .resuming => s.deliverPending toString
  | .flushing [] _ => { state := s }
  | .flushing (w :: rest) failed => { state := s, seen := [.callback w failed], frames := [.flushing rest failed] }
  | .flushingFinish 0 => { state := s }
  | .flushingFinish (n + 1) => { state := s, seen := [.finishCallback], frames := [.flushingFinish n] }
  | .emitError => { state := s, seen := [.error] }
  | .finishing => s.flushFinishCallbacks []
  | .emitFinish => { state := s, seen := [.finish] }
  | .finished => if s.destroyAfterFinish then s.destroy false else { state := s }
  | .ended => { state := if !s.destroyed && s.readyState == .writeOnly then s.endWrites false else s }
  | .destroying => { state := s.destroyRest }

def program : Reentrant LiveSocket Call Frame Event where
  call s k := s.call toString k
  resume s f := s.goOn toString f
  task
    | .ready _ _ | .notify | .microtask | .win _ _ _ | .lose | .purge => true
    | _ => false

abbrev Config := NodeCompat.Config LiveSocket Frame Event

end LiveSocket

end NodeCompat.Net
