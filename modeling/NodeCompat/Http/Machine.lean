import NodeCompat.Lib.Run
import NodeCompat.Http.Serialize

/-!
# Connections, handlers and the dispatch gate

Any number of connections, with responders that complete a response synchronously, later, or from another connection's
handler. The C++ stack is explicit: a `Frame` for a handler that is running, for a pass of `processInput`, for a parked
request being dispatched, and for the loop of `drainDeferredHandlers`. `step` takes the machine from one point where
code outside the reactor could run to the next; what that code does is the label.

* `tau`: the code of the top frame runs on.
* `ret`: the handler on top returns, or throws.
* `ready`, `accept`: the loop, with nothing on the stack (a callback does not pump the loop).
* `out`, `done`, `destroy`: the operations that TypeScript reaches through the registry, from a handler, or with nothing
  on the stack (a microtask or a timer). `done` is what `end()` does once for each response: `finished` is its guard.
* `leave`: a closed connection with no frame on the stack is destroyed.

A `Session` is a connection with what is recorded of its responses: how many requests are completed, which responses
have ended, and the bytes enqueued for each.
-/

namespace NodeCompat.Http

/-! ## One connection -/

/-- A connection, the guards of its responses, and the history of both. -/
structure Session extends Conn where
  completed : Nat := 0
  finished : List Nat := []
  enqueued : Nat → Bytes := fun _ => []

/-- What one iteration of the loop of `processInput` comes to. -/
inductive Parse
  | stop (s : Session)
  | more (s : Session)
  | request (s : Session)

/-- What `runHandler` queues for a handler that throws. -/
def internalError : Bytes := text "HTTP/1.1 500 Internal Server Error\r\nContent-Length: 0\r\nConnection: close\r\n\r\n"

namespace Session

/-- Bytes enqueued for the response to request `i`. -/
def log (s : Session) (i : Nat) (data : Bytes) : Session :=
  { s with enqueued := fun j => if j = i then s.enqueued i ++ data else s.enqueued j }

/-- Requests dispatched or parked so far. -/
def accepted (s : Session) : Nat := s.calls.length + if s.deferred then 1 else 0

/-- One iteration of `processInput`, `dispatchCurrent` apart from its `busy_ = true`. Interim and error responses belong
to the request being parsed. -/
def parse (s : Session) : Parse :=
  if s.busy || s.closing then .stop s
  else
    match s.parser.iterate s.inbuf with
    | .wait p b => .stop { s with parser := p, inbuf := b }
    | .reject status reason =>
      .stop ({ s with toConn := s.toConn.sendErrorAndClose status reason }.log s.calls.length (errorResponse status reason))
    | .more p b out => .more ({ s with parser := p, inbuf := b, out := s.out.append out }.log s.calls.length out)
    | .dispatch p b out =>
      .request ({ s with parser := p, inbuf := b, out := s.out.append out, busy := true }.log s.calls.length out)

/-- The end of a pass. -/
def endPass (s : Session) (wasProcessing : Bool) : Session :=
  { s with toConn := { s.toConn with processing := wasProcessing }.flushUnlessProcessing }

def call (s : Session) : Session := { s with toConn := s.toConn.call }

def park (s : Session) : Session := { s with deferred := true }

/-- `dispatchDeferred` up to the handler call. -/
def resume (s : Session) : Session := { s with deferred := false, processing := true, busy := true }

/-- The header block of a handler that threw is taken back, if none of it has been sent. -/
def unsentHead (o : Output) : Output :=
  match o.headMark with
  | none => o
  | some mark => if o.outsent ≤ mark ∧ mark ≤ o.outbuf.length then { o with outbuf := o.outbuf.take mark } else o

/-- The recovery of a request whose handler threw before it was completed. -/
def recover (s : Session) : Session :=
  let out := unsentHead s.out
  let i := s.calls.length - 1
  let kept := (s.enqueued i).take ((s.enqueued i).length - (s.out.outbuf.length - out.outbuf.length))
  { s with
    toConn := { { s.toConn with out }.enqueueResponseBytes internalError with busy := false, closing := true }
    completed := s.calls.length
    enqueued := fun j => if j = i then kept ++ internalError else s.enqueued j }

/-- `runHandler` after the responder call. -/
def returned (s : Session) (throws : Bool) : Session :=
  let s := { s with toConn := s.toConn.clearRequest }
  let s := if throws && s.busy then s.recover else s
  { s with closing := s.closing || (s.busy && s.peerClosed) }

/-- `responseComplete` up to its pass. -/
def complete (s : Session) (i : Nat) (keepAlive : Bool) : Session := { s with
    busy := false
    closing := s.closing || !keepAlive
    finished := i :: s.finished
    completed := max s.completed (i + 1) }

def output (s : Session) (i : Nat) (op : OutOp) : Session :=
  { s with toConn := s.toConn.output op }.log i (op.bytes s.out)

def hardDestroy (s : Session) : Session := { s with toConn := { s.toConn with closing := true }.close }

def startReady (s : Session) (e : Revents) : Session × Bool :=
  ({ s with toConn := (s.toConn.startReady e).1 }, (s.toConn.startReady e).2)

/-- A connection just accepted, on a socket. -/
def accept (recvs : List RecvResult) (sends : List SendResult) : Session := { recvs, out := { sends } }

end Session

/-! ## The machine -/

/-- A frame of the stack. `wasProcessing` is what the pass leaves in `processing_`. -/
inductive Frame
  | handler (id : Nat)
  | pass (id : Nat) (wasProcessing : Bool)
  | parked (id : Nat) (wasProcessing : Bool)
  | drain
deriving DecidableEq

def Frame.id? : Frame → Option Nat
  | handler id => some id
  | pass id _ => some id
  | parked id _ => some id
  | drain => none

/-- `HandlerDispatchGate` -/
structure Gate where
  active : Nat := 0
  draining : Bool := false
  deferred : List Nat := []
deriving DecidableEq

/-- The registry, the gate and the stack; `parks` are the requests parked so far (connection and number of the request)
and `resumes` what the drain has made of the first of them: the number of the request dispatched, or `none`. -/
structure Machine where
  sessions : Nat → Option Session := fun _ => none
  nextId : Nat := 0
  gate : Gate := {}
  stack : List Frame := []
  parks : List (Nat × Nat) := []
  resumes : List (Nat × Option Nat) := []

/-- What the environment does. -/
inductive Label
  | tau
  | ret (throws : Bool)
  | accept (recvs : List RecvResult) (sends : List SendResult)
  | ready (id : Nat) (e : Revents)
  | out (id i : Nat) (op : OutOp)
  | done (id i : Nat) (keepAlive : Bool)
  | destroy (id : Nat)
  | leave (id : Nat)

namespace Machine

def set (m : Machine) (id : Nat) (s : Session) : Machine :=
  { m with sessions := fun j => if j = id then some s else m.sessions j }

/-- Whether TypeScript can run: a handler is on top, or nothing is on the stack. -/
def inScript (m : Machine) : Bool :=
  match m.stack with
  | [] => true
  | .handler _ :: _ => true
  | _ => false

/-- `dispatchCurrent` for a request that has just been parsed. -/
def dispatchCurrent (m : Machine) (id : Nat) (s : Session) : Machine :=
  if m.gate.active > 0 then { m.set id s.park with
      gate := { m.gate with deferred := m.gate.deferred ++ [id] }
      parks := m.parks ++ [(id, s.calls.length)] }
  else { m.set id s.call with
      gate := { m.gate with active := m.gate.active + 1 }
      stack := .handler id :: m.stack }

/-- One iteration of the loop of `drainDeferredHandlers`; `rest` is below its frame. -/
def drainDeferredHandlers (m : Machine) (rest : List Frame) : Machine :=
  match m.gate.deferred with
  | [] => { m with gate := { m.gate with draining := false }, stack := rest }
  | id :: ids =>
    if m.gate.active = 0 then
      let m := { m with gate := { m.gate with deferred := ids } }
      match m.sessions id with
      | none => { m with resumes := m.resumes ++ [(id, none)] }
      | some s =>
        if s.deferred then
          { ({ m with stack := .parked id s.processing :: .drain :: rest } : Machine).dispatchCurrent id s.resume with
            resumes := m.resumes ++ [(id, some s.calls.length)] }
        else { m with resumes := m.resumes ++ [(id, none)] }
    else { m with gate := { m.gate with draining := false }, stack := rest }

/-- The code of the top frame. -/
def tau (m : Machine) : Option Machine :=
  match m.stack with
  | .pass id was :: rest =>
    (m.sessions id).map fun s =>
      match s.parse with
      | .stop s' => { m.set id (s'.endPass was) with stack := rest }
      | .more s' => m.set id s'
      | .request s' => m.dispatchCurrent id s'
  | .parked id was :: rest => some { m with stack := .pass id was :: rest }
  | .drain :: rest => some (m.drainDeferredHandlers rest)
  | _ => none

/-- The handler on top returns: `dispatchCurrent` gives up the gate, and drains it unless a drain is running. -/
def ret (m : Machine) (throws : Bool) : Option Machine :=
  match m.stack with
  | .handler id :: rest =>
    (m.sessions id).map fun s =>
      let m := { m.set id (s.returned throws) with gate := { m.gate with active := m.gate.active - 1 }, stack := rest }
      if m.gate.active = 0 ∧ m.gate.draining = false then
        { m with gate := { m.gate with draining := true }, stack := .drain :: rest }
      else m
  | _ => none

/-- `responseComplete`: outside the connection's own pass it is a pass. -/
def done (m : Machine) (id i : Nat) (keepAlive : Bool) : Option Machine :=
  match m.sessions id with
  | none => some m
  | some s =>
    if i < s.calls.length ∧ i ∉ s.finished then
      let s := s.complete i keepAlive
      if s.processing then some (m.set id s)
      else some { m.set id { s with processing := true } with stack := .pass id false :: m.stack }
    else none

/-- One step, if the label is enabled. -/
def step (m : Machine) : Label → Option Machine
  | .tau => m.tau
  | .ret throws => m.ret throws
  | .accept recvs sends =>
    if m.stack = [] then some { m.set m.nextId (.accept recvs sends) with nextId := m.nextId + 1 } else none
  | .ready id e =>
    match m.stack, m.sessions id with
    | [], some s =>
      if s.closed then none
      else
        let (s', go) := s.startReady e
        some (if go then { m.set id s' with stack := [.pass id false] } else m.set id s')
    | _, _ => none
  | .out id i op =>
    if m.inScript then
      match m.sessions id with
      | none => some m
      | some s => if i < s.calls.length then some (m.set id (s.output i op)) else none
    else none
  | .done id i keepAlive => if m.inScript then m.done id i keepAlive else none
  | .destroy id =>
    if m.inScript then
      match m.sessions id with
      | none => some m
      | some s => some (m.set id s.hardDestroy)
    else none
  | .leave id =>
    match m.sessions id with
    | none => none
    | some s =>
      if s.closed ∧ ∀ f ∈ m.stack, f.id? ≠ some id then
        some { m with sessions := fun j => if j = id then none else m.sessions j }
      else none

end Machine

end NodeCompat.Http
