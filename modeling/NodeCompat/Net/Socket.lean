import Mathlib
import NodeCompat.Net.ClientConnection

/-!
# `Socket` of node:net: connecting, writing and closing

A `connect` looks its host up, tries the addresses one after the other or against each other, and keeps the attempt that
succeeds first. Lookups, timers, microtasks and the native handles call back later, and every event is emitted to user code,
which may call any method again. As in the emitter, what the methods under way still have to do is a stack of `Work`; `user`
is user code.

The native side is a handle with a queue of events, of which at most one is `connect` (`event_protocol`); what it is asked to
do is recorded. `CallRecord` is not in the source: it says what became of each `connect`. The number of a call is its place
in the list of records.
-/

namespace NodeCompat.Net

/-- An address and its family. -/
abbrev Target := Bytes × Nat

/-- `connectError`, or an error that the native side has only a text for. -/
inductive AttemptError
  | system (errno : Nat) (syscall : Syscall) (address : Bytes) (port : Nat)
  | other (message : Bytes)
deriving DecidableEq

/-- What `destroy` is given: an error of the program or the lookup, `ERR_INVALID_IP_ADDRESS`, the error of the only attempt,
or `aggregateConnectError`. -/
inductive SocketError
  | given (id : Nat)
  | invalidAddress (address : Bytes)
  | attempt (error : AttemptError)
  | aggregate (errors : List AttemptError)
deriving DecidableEq

/-- What the native side has recorded of an error. -/
structure NativeError where
  errno : Nat
  syscall : Syscall
  message : Bytes
deriving DecidableEq

inductive NativeEvent
  | connect
  | data
  | error (e : NativeError)
  | close
  | drain
  | finish
  | ended
deriving DecidableEq

/-- What is asked of a native handle. -/
inductive HandleOp
  | write (data : Bytes)
  | ending
deriving DecidableEq

abbrev AttemptId := Nat

/-- A native handle; `notify` is the attempt whose `dispatchAttempt` it calls, or none for `dispatchNativeEvents`. -/
structure Handle where
  events : List NativeEvent := []
  notify : Option AttemptId := none
  connectPushed : Bool := false
  destroyed : Bool := false
  ops : List HandleOp := []
deriving DecidableEq

structure ConnectAttempt where
  target : Target := ([], 0)
  nativeId : Nat := 0
  settled : Bool := false
  error : Option AttemptError := none
deriving DecidableEq

inductive ReadyState
  | opening
  | open
  | readOnly
  | writeOnly
  | closed
deriving DecidableEq

/-! ## The order of the attempts -/

/-- The two families of an answer, the first answer's family first. -/
structure Buckets where
  first : List Target := []
  second : List Target := []
  firstFamily : Nat := 0
deriving DecidableEq

/-- An address is kept when it is one, its family is a family, and it is not there yet. -/
def Buckets.add (isIP : Bytes → Nat) (b : Buckets) (candidate : Target) : Buckets :=
  if isIP candidate.1 = 0 ∨ candidate.2 ≠ 4 ∧ candidate.2 ≠ 6 then b
  else
    let b := if b.firstFamily = 0 then { b with firstFamily := candidate.2 } else b
    if candidate.2 = b.firstFamily then
      if b.first.any (fun probe => probe.1 = candidate.1) then b else { b with first := b.first ++ [candidate] }
    else
      if b.second.any (fun probe => probe.1 = candidate.1) then b else { b with second := b.second ++ [candidate] }

def interleave {α : Type} : List α → List α → List α
  | x :: xs, y :: ys => x :: y :: interleave xs ys
  | xs, [] => xs
  | [], ys => ys

/-- What a connect has to try: an address it was given, the answer of a lookup for one address, or all answers. -/
inductive Answered
  | literal (host : Bytes)
  | one (address : Bytes)
  | all (addresses : List Target)
deriving DecidableEq

def Answered.targets (isIP : Bytes → Nat) : Answered → List Target
  | .literal host => [(host, isIP host)]
  | .one address => [(address, isIP address)]
  | .all addresses =>
    let b := addresses.foldl (Buckets.add isIP) {}
    interleave b.first b.second

/-! ## The socket -/

/-- What became of a call: its answer, its attempts, its winner; how often `connect` and `close` were emitted for it, and
whether `connect` was behind its end; what was asked of it while it was connecting or open; and the errors it was destroyed
with. -/
structure CallRecord where
  answer : Option Answered := none
  begun : Bool := false
  attempts : List AttemptId := []
  winner : Option Nat := none
  connects : Nat := 0
  lateConnect : Bool := false
  ended : Bool := false
  closes : Nat := 0
  requested : List HandleOp := []
  raised : List SocketError := []
deriving DecidableEq

/-- A lookup that has not called back; the call it is for is not in the source. -/
structure PendingLookup where
  call : Nat
  generation : Nat
  all : Bool
deriving DecidableEq

inductive Microtask
  | begin (call generation : Nat) (targets : List Target)
  | destroy (call generation : Nat) (error : SocketError)
  | failAttempt (call generation : Nat) (attempt : AttemptId) (error : AttemptError)
  | emitClose (call : Nat)
deriving DecidableEq

/-- The attempts that were made, and the native handles; handle 0 is none. -/
structure Natives where
  attempt : AttemptId → ConnectAttempt := fun _ => {}
  attemptCount : Nat := 0
  handle : Nat → Handle := fun _ => {}
  handleCount : Nat := 0

/-- The fields of the socket that the race of the attempts is about, and the records of the calls. -/
structure Race extends Natives where
  nativeId : Nat := 0
  connectGeneration : Nat := 0
  attempts : List AttemptId := []
  attemptTargets : List Target := []
  attemptNext : Nat := 0
  /-- The timer, with what its callback knows. -/
  attemptTimer : Option (Nat × AttemptId) := none
  connecting : Bool := false
  destroyed : Bool := false
  past : List CallRecord := []
  now : CallRecord := {}

structure Socket extends Race where
  closeEmitted : Bool := false
  destroyAfterFinish : Bool := false
  self : Bool := false
  attemptPort : Nat := 0
  attemptMultiple : Bool := false
  connectingWrites : List Bytes := []
  connectingEnd : Bool := false
  readyState : ReadyState := .opening
  lookups : List PendingLookup := []
  microtasks : List Microtask := []

/-- `TcpSocketConnectOpts`, and whether a listener is given. -/
structure ConnectOptions where
  host : Bytes
  port : Nat
  family : Nat := 0
  localAddress : Option Bytes := none
  localPort : Nat := 0
  autoSelectFamily : Bool := true
  autoSelectFamilyAttemptTimeout : Nat := 250
  listener : Bool := false
deriving DecidableEq

def ConnectOptions.valid (o : ConnectOptions) : Bool :=
  o.port ≤ 65535 && (o.family = 0 || o.family = 4 || o.family = 6) && o.localPort ≤ 65535 &&
    1 ≤ o.autoSelectFamilyAttemptTimeout && o.autoSelectFamilyAttemptTimeout ≤ 2147483647

/-- Every address is looked up and raced. -/
def ConnectOptions.all (o : ConnectOptions) : Bool :=
  o.family ≠ 4 && o.family ≠ 6 && o.localAddress.isNone && o.autoSelectFamily

/-- What a lookup calls back with. -/
structure LookupAnswer where
  error : Option Nat := none
  result : Bytes ⊕ List Target
  family : Nat := 0
deriving DecidableEq

/-- The address of an answer for one. -/
def LookupAnswer.address (a : LookupAnswer) : Bytes :=
  match a.result with
  | .inl address => address
  | .inr list => (list.head?.map Prod.fst).getD []

def LookupAnswer.addresses (a : LookupAnswer) : List Target :=
  match a.result with
  | .inl address => [(address, a.family)]
  | .inr list => list

namespace Natives

variable (n : Natives)

def setAttempt (a : AttemptId) (f : ConnectAttempt → ConnectAttempt) : Natives :=
  { n with attempt := Function.update n.attempt a (f (n.attempt a)) }

/-- A call on a handle; there is no handle 0. -/
def setHandle (h : Nat) (f : Handle → Handle) : Natives :=
  { n with handle := if h = 0 then n.handle else Function.update n.handle h (f (n.handle h)) }

/-- Every attempt of a list that is not settled is, and its handle is destroyed. -/
def settleAll (as : List AttemptId) : Natives := { n with
    attempt := fun a => if a ∈ as then { n.attempt a with settled := true } else n.attempt a
    handle := fun h =>
      if h ≠ 0 ∧ as.any (fun a => !(n.attempt a).settled && (n.attempt a).nativeId = h) then
        { n.handle h with destroyed := true }
      else n.handle h }

/-- `new ConnectAttempt` -/
def newAttempt (target : Target) : Natives :=
  { n.setAttempt n.attemptCount (fun _ => { target }) with attemptCount := n.attemptCount + 1 }

/-- A handle for an attempt. -/
def newHandle (a : AttemptId) : Natives :=
  { (n.setHandle (n.handleCount + 1) (fun _ => { notify := some a })).setAttempt a
      (fun attempt => { attempt with nativeId := n.handleCount + 1 }) with
    handleCount := n.handleCount + 1 }

end Natives

namespace Socket

/-- User code, and what the methods do behind it. -/
inductive Work
  | user
  /-- `connectTcpOptions`, behind `once('connect')`. -/
  | reset (options : ConnectOptions)
  /-- `onLookupOne` and `onLookupAll`, behind `lookup`. -/
  | lookupOne (call generation : Nat) (error : Option Nat) (address : Bytes)
  | lookupAll (call generation : Nat) (addresses : List Target) (candidate : Target) (left : List Target) (buckets : Buckets)
  /-- `startNextAttempt`, behind `connectionAttempt`. -/
  | create (generation : Nat) (a : AttemptId)
  /-- The timer's callback, behind `connectionAttemptTimeout`. -/
  | afterTimeout (generation : Nat)
  | dispatchAttempt (a : AttemptId)
  /-- `failAttempt`, behind `connectionAttemptFailed`. -/
  | afterFailed (generation : Nat) (error : AttemptError)
  /-- `winAttempt`, behind `connect`. -/
  | afterConnect
  | dispatch
  /-- `dispatchNativeEvents`, behind `finish` and `end`. -/
  | afterFinish
  | afterEnd
  /-- `destroy`, behind `error`, and `emitClose`, behind `close`; with the call they are for. -/
  | destroyRest (call : Nat)
  | clearSelf (call : Nat)
deriving DecidableEq

def Work.isUser : Work → Bool
  | .user => true
  | _ => false

/-- An exception leaves the methods under way up to the next user code. -/
def unwind (ws : List Work) : List Work := ws.dropWhile (fun w => !w.isUser)

variable (s : Socket)

/-- The number of the current call. -/
def call : Nat := s.past.length

def native (h : Nat) (f : Handle → Handle) : Socket := { s with toNatives := s.setHandle h f }

def abandonAttempts : Socket := { s with
    toNatives := s.settleAll s.attempts
    connectGeneration := s.connectGeneration + 1
    attemptTimer := none
    attempts := []
    connectingWrites := []
    connectingEnd := false }

/-- `destroy`, behind the `error` event. -/
def destroyRest (call : Nat) : Socket :=
  let s := s.native s.nativeId (fun h => { h with destroyed := true })
  { s with microtasks := s.microtasks ++ [.emitClose call] }

def destroy (error : Option SocketError) : Socket × List Work :=
  if s.destroyed then (s, [])
  else
    let s := { s with destroyed := true, connecting := false, readyState := .closed }.abandonAttempts
    let s := { s with now := { s.now with ended := true } }
    match error with
    | none => (s.destroyRest s.call, [])
    | some e => ({ s with now := { s.now with raised := s.now.raised ++ [e] } }, [.user, .destroyRest s.call])

def emitClose : Socket × List Work :=
  if s.closeEmitted then (s, [])
  else ({ s with closeEmitted := true, now := { s.now with closes := s.now.closes + 1 } }, [.user, .clearSelf s.call])

/-- There is always a target left. -/
def startNextAttempt : Socket × List Work :=
  let s := { s with attemptTimer := none }
  match s.attemptTargets[s.attemptNext]? with
  | none => (s, [])
  | some target =>
    let a := s.attemptCount
    ({ s with
        toNatives := s.newAttempt target
        attemptNext := s.attemptNext + 1
        attempts := s.attempts ++ [a]
        now := { s.now with attempts := s.now.attempts ++ [a] } },
      [.user, .create s.connectGeneration a])

def beginAttempts (targets : List Target) (multiple : Bool) : Socket × List Work := { s with
    attemptTargets := targets
    attemptNext := 0
    attemptMultiple := multiple
    now := { s.now with begun := true } }.startNextAttempt

/-- What `__gea_node_net_create` returns: a handle, or its error. -/
inductive Created
  | handle
  | failed (errno : Nat) (message : Bytes)
deriving DecidableEq

/-- `"Unable to create socket"` when the native side has no text. -/
def createError (target : Target) (port errno : Nat) (message : Bytes) : AttemptError :=
  if errno ≠ 0 then .system errno .connect target.1 port
  else .other (if message.length = 0 then text "Unable to create socket" else message)

/-- `startNextAttempt`, behind `connectionAttempt`. -/
def create (generation : Nat) (a : AttemptId) (created : Created) : Socket :=
  if generation ≠ s.connectGeneration ∨ s.connecting = false then s
  else
    match created with
    | .failed errno message =>
      let error := createError (s.attempt a).target s.attemptPort errno message
      { s with microtasks := s.microtasks ++ [.failAttempt s.call generation a error] }
    | .handle =>
      let s := { s with toNatives := s.newHandle a }
      if s.attemptMultiple && s.attemptNext < s.attemptTargets.length then { s with attemptTimer := some (generation, a) }
      else s

/-- `failAttempt`, up to `connectionAttemptFailed`. -/
def failAttempt (a : AttemptId) (error : AttemptError) : Socket × List Work :=
  ({ s with toNatives := s.setAttempt a (fun attempt => { attempt with settled := true, error := some error }) },
    [.user, .afterFailed s.connectGeneration error])

def afterFailed (generation : Nat) (error : AttemptError) : Socket × List Work :=
  if generation ≠ s.connectGeneration ∨ s.connecting = false then (s, [])
  else if !s.attemptMultiple then s.destroy (some (.attempt error))
  else if s.attemptNext < s.attemptTargets.length then s.startNextAttempt
  else if s.attempts.all (fun a => (s.attempt a).settled) then
    s.destroy (some (.aggregate (s.attempts.filterMap (fun a => (s.attempt a).error))))
  else (s, [])

/-- `emitConnected`, up to `connect`. -/
def emitConnected : Socket := { s with
    connecting := false
    readyState := .open
    now := { s.now with connects := s.now.connects + 1, lateConnect := s.now.lateConnect || s.now.ended } }

/-- `winAttempt`, up to `connect`: the others are settled, and the handle gets what was written. -/
def winAttempt (a : AttemptId) : Socket :=
  let nativeId := (s.attempt a).nativeId
  let s := { s with toNatives := s.setAttempt a (fun attempt => { attempt with settled := true }) }
  let s := { s with toNatives := s.settleAll (s.attempts.erase a), attemptTimer := none, attempts := [] }
  let s := { s with nativeId, now := { s.now with winner := some nativeId } }
  let s := s.native nativeId (fun h => { h with notify := none, ops := h.ops ++ s.connectingWrites.map HandleOp.write })
  { s with connectingWrites := [] }.emitConnected

/-- The handle gets an `end()` from the time before it. -/
def handEnd : Socket :=
  if s.connectingEnd && !s.destroyed then
    { s with connectingEnd := false, readyState := .readOnly }.native s.nativeId
      (fun h => { h with ops := h.ops ++ [HandleOp.ending] })
  else s

/-- `winAttempt`, behind `connect`. -/
def afterConnect : Socket × List Work := (s.handEnd, if s.destroyed then [] else [.dispatch])

/-- `nativeError` of an attempt. -/
def nativeError (e : NativeError) (address : Bytes) (port : Nat) : AttemptError :=
  if e.errno = 0 then .other e.message else .system e.errno e.syscall address port

/-- Takes the first event of a handle. -/
def takeEvent (h : Nat) : Option (NativeEvent × Socket) :=
  match (s.handle h).events with
  | [] => none
  | e :: es => some (e, s.native h (fun handle => { handle with events := es }))

/-- One round of `dispatchAttempt`. -/
def dispatchAttempt (a : AttemptId) : Socket × List Work :=
  if (s.attempt a).settled then (s, [])
  else
    match s.takeEvent (s.attempt a).nativeId with
    | none => (s, [])
    | some (.connect, s) => (s.winAttempt a, [.user, .afterConnect])
    | some (.error e, s) => s.failAttempt a (nativeError e (s.attempt a).target.1 s.attemptPort)
    | some (_, s) => (s, [.dispatchAttempt a])

/-- An event of the socket's handle. -/
def onEvent : NativeEvent → Socket × List Work
  | .connect => (s.emitConnected, [.user, .dispatch])
  | .data => (s, [.user, .dispatch])
  | .error _ => ({ s with connecting := false }, [.user, .dispatch])
  | .close =>
    let s := { s with connecting := false, destroyed := true, readyState := .closed, now := { s.now with ended := true } }
    (s.emitClose.1, s.emitClose.2 ++ [.dispatch])
  | .drain => (s, [.user, .dispatch])
  | .finish => (s, [.user, .afterFinish, .dispatch])
  | .ended =>
    (if s.readyState = .readOnly then s else { s with readyState := .writeOnly }, [.user, .afterEnd, .dispatch])

/-- One round of `dispatchNativeEvents`. -/
def dispatch : Socket × List Work :=
  match s.takeEvent s.nativeId with
  | none => (s, [])
  | some (e, s) => s.onEvent e

/-- What was asked of the current call. -/
def note (op : HandleOp) : Socket := { s with now := { s.now with requested := s.now.requested ++ [op] } }

def write (data : Bytes) : Socket :=
  if s.destroyed || (s.nativeId = 0 && !s.connecting) then s
  else if s.nativeId = 0 then { s.note (.write data) with connectingWrites := s.connectingWrites ++ [data] }
  else (s.note (.write data)).native s.nativeId (fun h => { h with ops := h.ops ++ [HandleOp.write data] })

/-- `end`, without data. -/
def endWrites : Socket :=
  if s.nativeId = 0 && s.connecting && !s.destroyed then
    { if s.connectingEnd then s else s.note .ending with connectingEnd := true }
  else if s.nativeId = 0 || s.destroyed then s
  else { s.note .ending with readyState := .readOnly }.native s.nativeId (fun h => { h with ops := h.ops ++ [HandleOp.ending] })

/-! ## Lookups -/

/-- The candidate `lookup` is emitted for next, or the attempts. -/
def lookupNext (call generation : Nat) (addresses : List Target) (b : Buckets) : List Target → Socket × List Work
  | candidate :: left => (s, [.user, .lookupAll call generation addresses candidate left b])
  | [] =>
    if b.first.length = 0 then s.destroy (some (.invalidAddress ((addresses.head?.map Prod.fst).getD [])))
    else
      let ordered := interleave b.first b.second
      if ordered.length = 1 then ({ s with microtasks := s.microtasks ++ [.begin call generation ordered] }, [])
      else s.beginAttempts ordered true

/-- `onLookupAll` -/
def onLookupAll (call generation : Nat) (answer : LookupAnswer) : Socket × List Work :=
  if generation ≠ s.connectGeneration ∨ s.connecting = false then (s, [])
  else
    match answer.error with
    | some e => s.destroy (some (.given e))
    | none =>
      { s with now := { s.now with answer := some (.all answer.addresses) } }.lookupNext call generation answer.addresses {}
        answer.addresses

/-- `onLookupAll`, behind `lookup` for a candidate. -/
def afterCandidate (isIP : Bytes → Nat) (call generation : Nat) (addresses : List Target) (candidate : Target)
    (left : List Target) (b : Buckets) : Socket × List Work :=
  if generation ≠ s.connectGeneration ∨ s.connecting = false then (s, [])
  else s.lookupNext call generation addresses (b.add isIP candidate) left

/-- `onLookupOne` -/
def onLookupOne (call generation : Nat) (answer : LookupAnswer) : Socket × List Work :=
  if generation ≠ s.connectGeneration then (s, [])
  else ({ s with now := { s.now with answer := some (.one answer.address) } },
      [.user, .lookupOne call generation answer.error answer.address])

/-- `onLookupOne`, behind `lookup`. -/
def afterLookup (isIP : Bytes → Nat) (call generation : Nat) (error : Option Nat) (address : Bytes) : Socket × List Work :=
  if generation ≠ s.connectGeneration ∨ s.connecting = false then (s, [])
  else
    match error with
    | some e => ({ s with microtasks := s.microtasks ++ [.destroy call generation (.given e)] }, [])
    | none =>
      if isIP address = 0 then
        ({ s with microtasks := s.microtasks ++ [.destroy call generation (.invalidAddress address)] }, [])
      else s.beginAttempts [(address, isIP address)] false

/-! ## Connecting -/

/-- The guard of `connectTcpOptions`. -/
def busy : Bool := (s.nativeId ≠ 0 && !s.destroyed) || s.connecting

/-- `connectTcpOptions`, behind `once('connect')`; a lookup may call back at once. -/
def reset (isIP : Bytes → Nat) (o : ConnectOptions) : Socket × List Work :=
  let generation := s.connectGeneration + 1
  let s := { s with
    past := s.past ++ [s.now]
    now := {}
    connectGeneration := generation
    destroyed := false
    self := true
    closeEmitted := false
    connecting := true
    readyState := .opening
    nativeId := 0
    attempts := []
    attemptTargets := []
    attemptNext := 0
    attemptPort := o.port
    attemptMultiple := false
    connectingWrites := []
    connectingEnd := false }
  if isIP o.host ≠ 0 then ({ s with
        now := { s.now with answer := some (.literal o.host) }
        microtasks := s.microtasks ++ [.begin s.call generation [(o.host, isIP o.host)]] }, [])
  else ({ s with lookups := s.lookups ++ [⟨s.call, generation, o.all⟩] }, [.user])

/-! ## Steps -/

/-- The methods of the program; an invalid or untimely `connect` throws to its caller. -/
inductive Call
  | connect (options : ConnectOptions)
  | write (data : Bytes)
  | endWrites
  | destroySoon
  | destroy (error : Option Nat)
deriving DecidableEq

def callMethod : Call → Socket × List Work
  | .connect o => if s.busy || !o.valid then (s, []) else (s, (if o.listener then [.user] else []) ++ [.reset o])
  | .write data => (s.write data, [])
  | .endWrites => (s.endWrites, [])
  | .destroySoon => if s.destroyed then (s, []) else ({ s with destroyAfterFinish := true }.endWrites, [])
  | .destroy error => s.destroy (error.map .given)

def runMicrotask : Microtask → Socket × List Work
  | .begin _ generation targets =>
    if generation ≠ s.connectGeneration ∨ s.connecting = false then (s, []) else s.beginAttempts targets false
  | .destroy _ generation error =>
    if generation = s.connectGeneration ∧ s.connecting = true then s.destroy (some error) else (s, [])
  | .failAttempt _ generation a error =>
    if generation = s.connectGeneration ∧ (s.attempt a).settled = false then s.failAttempt a error else (s, [])
  | .emitClose _ => s.emitClose

/-- The timer's callback, up to `connectionAttemptTimeout`. -/
def onTimer (generation : Nat) (a : AttemptId) : Socket × List Work :=
  let s := { s with attemptTimer := none }
  if generation ≠ s.connectGeneration ∨ s.connecting = false ∨ (s.attempt a).settled = true then (s, [])
  else (s, [.user, .afterTimeout generation])

def afterTimeout (generation : Nat) : Socket × List Work :=
  if generation ≠ s.connectGeneration ∨ s.connecting = false then (s, [])
  else if s.attemptNext < s.attemptTargets.length then s.startNextAttempt
  else (s, [])

/-- A piece of work other than user code; `created` is what the native side answers to a creation. -/
def tick (isIP : Bytes → Nat) (created : Created) : Work → Socket × List Work
  | .user => (s, [.user])
  | .reset o => s.reset isIP o
  | .lookupOne call generation error address => s.afterLookup isIP call generation error address
  | .lookupAll call generation addresses candidate left b => s.afterCandidate isIP call generation addresses candidate left b
  | .create generation a => (s.create generation a created, [])
  | .afterTimeout generation => s.afterTimeout generation
  | .dispatchAttempt a => s.dispatchAttempt a
  | .afterFailed generation error => s.afterFailed generation error
  | .afterConnect => s.afterConnect
  | .dispatch => s.dispatch
  | .afterFinish => if s.destroyAfterFinish then s.destroy none else (s, [])
  | .afterEnd => if !s.destroyed && s.readyState = .writeOnly then (s.endWrites, []) else (s, [])
  | .destroyRest call => (s.destroyRest call, [])
  | .clearSelf _ => ({ s with self := false }, [])

end Socket

/-- The socket and the methods under way. -/
structure SocketConfig where
  socket : Socket := {}
  works : List Socket.Work := []

namespace SocketConfig

/-- Work is done; user code calls a method, a lookup's callback, returns, or throws; when nothing is under way, a microtask,
the timer or a handle's notification runs; and the native side pushes an event. -/
inductive Label
  | tick (created : Socket.Created)
  | call (k : Socket.Call)
  | answer (index : Nat) (answer : LookupAnswer)
  | ret
  | throw
  | microtask (index : Nat)
  | timer
  | event (h : Nat) (e : NativeEvent)
  | notify (h : Nat)
deriving DecidableEq

variable (isIP : Bytes → Nat) (c : SocketConfig)

/-- A method has run up to its next user code. -/
def proceed (b : Socket × List Socket.Work) (ws : List Socket.Work) : SocketConfig := ⟨b.1, b.2 ++ ws⟩

def inUser : Bool := c.works.head?.all Socket.Work.isUser

def step : Label → Option SocketConfig
  | .tick created =>
    match c.works with
    | [] => none
    | w :: ws => if w.isUser then none else some (proceed (c.socket.tick isIP created w) ws)
  | .call k => if c.inUser then some (proceed (c.socket.callMethod k) c.works) else none
  | .answer index answer =>
    if c.inUser then
      match c.socket.lookups[index]? with
      | none => none
      | some l =>
        let s := { c.socket with lookups := c.socket.lookups.eraseIdx index }
        some (proceed (if l.all then s.onLookupAll l.call l.generation answer
          else s.onLookupOne l.call l.generation answer) c.works)
    else none
  | .ret =>
    match c.works with
    | [] => none
    | w :: ws => if w.isUser then some { c with works := ws } else none
  | .throw =>
    match c.works with
    | [] => none
    | w :: ws => if w.isUser then some { c with works := Socket.unwind ws } else none
  | .microtask index =>
    match c.works, c.socket.microtasks[index]? with
    | [], some m => some (proceed ({ c.socket with microtasks := c.socket.microtasks.eraseIdx index }.runMicrotask m) [])
    | _, _ => none
  | .timer =>
    match c.works, c.socket.attemptTimer with
    | [], some (generation, a) => some (proceed (c.socket.onTimer generation a) [])
    | _, _ => none
  | .event h e =>
    if 0 < h ∧ h ≤ c.socket.handleCount ∧ (e = .connect → (c.socket.handle h).connectPushed = false) then
      some { c with socket := c.socket.native h (fun handle =>
        { handle with events := handle.events ++ [e], connectPushed := handle.connectPushed || e = .connect }) }
    else none
  | .notify h =>
    match c.works with
    | [] =>
      if 0 < h ∧ h ≤ c.socket.handleCount then
        some { c with works := [match (c.socket.handle h).notify with | some a => .dispatchAttempt a | none => .dispatch] }
      else none
    | _ :: _ => none

end SocketConfig

end NodeCompat.Net
