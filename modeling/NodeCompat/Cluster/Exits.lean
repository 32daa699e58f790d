import NodeCompat.Bytes
import NodeCompat.Lib.Run

/-!
# The exits of cluster workers

The primary forks workers, the operating system ends them, the reactor reaps them into a queue of exits, and `drainExits`
finds the worker of each exit by its process id and emits `'disconnect'` and `'exit'`. Listeners may fork while exits are
still queued. The children of the primary are its workers, and a process id is free again once its child has been reaped.

`step` takes one action: of the program (`fork`, `kill`, `disconnect`), of the operating system (`ends`), of the reactor
(`ready`, `reap`, `reaped`), of `drainExits` (`drain`, `emit`), or a microtask.
-/

namespace NodeCompat.Cluster

/-! ## Endings -/

inductive Signal
  | SIGHUP | SIGINT | SIGQUIT | SIGABRT | SIGKILL | SIGSEGV | SIGPIPE | SIGALRM | SIGTERM | SIGUSR1 | SIGUSR2 | SIGSTOP
  | SIGCONT
  -- a signal that is not in the table, with its name
  | other (name : Bytes)
deriving DecidableEq

/-- The name of a signal. -/
def Signal.name : Signal → Bytes
  | .SIGHUP => text "SIGHUP"
  | .SIGINT => text "SIGINT"
  | .SIGQUIT => text "SIGQUIT"
  | .SIGABRT => text "SIGABRT"
  | .SIGKILL => text "SIGKILL"
  | .SIGSEGV => text "SIGSEGV"
  | .SIGPIPE => text "SIGPIPE"
  | .SIGALRM => text "SIGALRM"
  | .SIGTERM => text "SIGTERM"
  | .SIGUSR1 => text "SIGUSR1"
  | .SIGUSR2 => text "SIGUSR2"
  | .SIGSTOP => text "SIGSTOP"
  | .SIGCONT => text "SIGCONT"
  | .other name => name

/-- `signalName`, which has a name for the signals of its table. -/
def signalName : Signal → Bytes
  | .other _ => []
  | signal => signal.name

/-- How a process ends. -/
inductive Ending
  | exited (code : Nat)
  | killed (signal : Signal)
deriving DecidableEq

/-- `exitCode` and `exitSignal` as a listener should get them: of the two, one is `null`. -/
def Ending.told : Ending → Option Int × Option Bytes
  | .exited code => (some code, none)
  | .killed signal => (none, some signal.name)

/-- The ending is by a signal of the table, or by none. -/
def Ending.Known : Ending → Prop
  | .killed (.other _) => False
  | _ => True

instance : DecidablePred Ending.Known := fun ending => by
  unfold Ending.Known
  split <;> infer_instance

structure ExitEvent where
  pid : Nat
  -- -1 for `null`
  code : Int := -1
  -- empty for `null`
  signal : Bytes := []
deriving DecidableEq

/-- What `reap` queues. -/
def exitEvent (pid : Nat) : Ending → ExitEvent
  | .exited code => { pid, code }
  | .killed signal => { pid, signal := signalName signal }

def ExitEvent.exitCode (e : ExitEvent) : Option Int := if e.code < 0 then none else some e.code

def ExitEvent.exitSignal (e : ExitEvent) : Option Bytes := if e.signal = [] then none else some e.signal

/-! ## State -/

/-- A child that has not been reaped; it is a zombie once it has ended. -/
structure Child where
  worker : Nat
  pid : Nat
  ending : Option Ending := none
deriving DecidableEq

/-- What does not change of a `Worker`. -/
structure Worker where
  id : Nat
  pid : Nat
deriving DecidableEq

/-- What does. -/
structure Marks where
  exitedAfterDisconnect : Option Bool := none
  connected_ : Bool := true
  dead_ : Bool := false
deriving DecidableEq

/-- What `drainExits` still has to emit for a worker, on the worker or the cluster. -/
inductive Emit
  | workerDisconnect | disconnect | workerExit | exit
deriving DecidableEq

/-- Where the primary's only thread is. -/
inductive Phase
  -- in the program, or in the event loop
  | idle
  -- in `reap`; whether a child has been reaped
  | reaping (any : Bool)
  -- at the head of the loop of `drainExits`
  | draining
  -- in its body, with the worker that was found; the program runs in the listeners of the last `emit`
  | delivering (worker : Worker) (exitCode : Option Int) (exitSignal : Option Bytes) (emits : List Emit)
deriving DecidableEq

inductive Microtask
  | forked (worker : Worker)
  | callback
deriving DecidableEq

inductive Event
  -- of the operating system
  | forked (worker : Worker)
  | ended (id : Nat) (ending : Ending)
  -- of workers
  | online (id : Nat)
  | disconnect (id : Nat)
  | exit (id : Nat) (exitCode : Option Int) (exitSignal : Option Bytes)
  -- of the cluster
  | clusterFork (id : Nat)
  | clusterOnline (id : Nat)
  | clusterDisconnect (id : Nat)
  | clusterExit (id : Nat) (exitCode : Option Int) (exitSignal : Option Bytes)
  -- the callback of `disconnect`
  | callback
deriving DecidableEq

structure State where
  children : List Child := []
  exits : List ExitEvent := []
  liveChildren : Nat := 0
  notifying_ : Bool := false
  list_ : List Worker := []
  workers : List (Nat × Worker) := []
  nextId_ : Nat := 0
  marks : Nat → Marks := fun _ => {}
  -- for each pending `disconnect` with a callback, the workers that it waits for
  pending : List (List Nat) := []
  microtasks : List Microtask := []
  phase : Phase := .idle
  -- what has happened, the newest event first
  history : List Event := []

namespace State

variable (s : State)

def note (e : Event) : State := { s with history := e :: s.history }

/-! ## The program -/

/-- The program runs: the main code, or a listener. -/
def inProgram : Bool :=
  match s.phase with
  | .idle => true
  | .delivering .. => true
  | _ => false

/-- `fork`, with the process id that the operating system gives, or none. -/
def fork (answer : Option Nat) : State :=
  let id := s.nextId_ + 1
  let s := { s with nextId_ := id, notifying_ := true }
  match answer with
  | none => s
  | some pid =>
    let worker : Worker := { id, pid }
    { s with
      children := s.children ++ [{ worker := id, pid }]
      liveChildren := s.liveChildren + 1
      workers := s.workers ++ [(id, worker)]
      list_ := s.list_ ++ [worker]
      microtasks := s.microtasks ++ [.forked worker]
      history := .forked worker :: s.history }

/-- `kill` of a worker, and its `disconnect`; what its process does with the signal is up to that. -/
def kill (id : Nat) : State :=
  { s with marks := Function.update s.marks id { s.marks id with exitedAfterDisconnect := some true, connected_ := false } }

def disconnect (callback : Bool) : State :=
  if s.list_ = [] then if callback then { s with microtasks := s.microtasks ++ [.callback] } else s
  else
    let s' := s.list_.foldl (fun s w => s.kill w.id) s
    if callback then { s' with pending := s'.pending ++ [s.list_.map Worker.id] } else s'

def microtask : State :=
  match s.microtasks with
  | [] => s
  | .forked worker :: rest =>
    { s with
      microtasks := rest
      history := .clusterOnline worker.id :: .online worker.id :: .clusterFork worker.id :: s.history }
  | .callback :: rest => { s with microtasks := rest, history := .callback :: s.history }

/-! ## The operating system and the reactor -/

/-- A child ends. -/
def ends (id : Nat) (ending : Ending) : State := { s with
    children := s.children.map (fun c => if c.worker = id then { c with ending := some ending } else c)
    history := .ended id ending :: s.history }

/-- One answer of `waitpid` in `reap`. -/
def reap (c : Child) (ending : Ending) : State := { s with
    children := s.children.erase c
    exits := s.exits ++ [exitEvent c.pid ending]
    liveChildren := s.liveChildren - 1
    phase := .reaping true }

/-! ## `drainExits` -/

/-- The loop that looks for a process id, from an index on: it goes through the whole list. -/
def findLoop (pid : Nat) : List Worker → Nat → Option Nat → Option Nat
  | [], _, found => found
  | w :: ws, index, found => findLoop pid ws (index + 1) (if w.pid = pid then some index else found)

/-- `markExited`, and the mark of a worker that was not told to leave. -/
def markExited (marks : Marks) : Marks :=
  { exitedAfterDisconnect := some (marks.exitedAfterDisconnect.getD false), connected_ := false, dead_ := true }

/-- One round of the loop, up to its first `emit`. -/
def drain : State :=
  match s.exits with
  | [] => { s with phase := .idle }
  | e :: exits =>
    let s := { s with exits }
    match findLoop e.pid s.list_ 0 none with
    | none => { s with phase := .draining }
    | some index =>
      match s.list_[index]? with
      | none => { s with phase := .draining }
      | some worker =>
        { s with
          list_ := s.list_.eraseIdx index
          workers := s.workers.filter (fun p => p.1 ≠ worker.id)
          marks := Function.update s.marks worker.id (markExited (s.marks worker.id))
          phase := .delivering worker e.exitCode e.exitSignal [.workerDisconnect, .disconnect, .workerExit, .exit] }

/-- The listeners that `disconnect` has put on a worker's `'exit'`. -/
def exitListeners (id : Nat) : State :=
  let left := s.pending.map (List.erase · id)
  { s with
    pending := left.filter (· ≠ [])
    history := (left.filter (· = [])).map (fun _ => Event.callback) ++ s.history }

/-- The next `emit`. -/
def emit (worker : Worker) (exitCode : Option Int) (exitSignal : Option Bytes) (e : Emit) (emits : List Emit) : State :=
  let s := { s with phase := .delivering worker exitCode exitSignal emits }
  match e with
  | .workerDisconnect => s.note (.disconnect worker.id)
  | .disconnect => s.note (.clusterDisconnect worker.id)
  | .workerExit => (s.note (.exit worker.id exitCode exitSignal)).exitListeners worker.id
  | .exit => s.note (.clusterExit worker.id exitCode exitSignal)

end State

/-! ## Steps -/

inductive Action
  | fork (answer : Option Nat)
  | kill (id : Nat)
  | disconnect (callback : Bool)
  | microtask
  | ends (id : Nat) (ending : Ending)
  | ready
  | reap (id : Nat)
  | reaped
  | drain
  | emit
deriving DecidableEq

/-- A step that is enabled. The operating system gives no process id that is still taken. -/
def step (s : State) : Action → Option State
  | .fork answer =>
    if s.inProgram && answer.all (fun pid => pid ≠ 0 && s.children.all (fun c => c.pid ≠ pid)) then some (s.fork answer)
    else none
  | .kill id => if s.inProgram then some (s.kill id) else none
  | .disconnect callback => if s.inProgram then some (s.disconnect callback) else none
  | .microtask => if s.phase = .idle then some s.microtask else none
  | .ends id ending =>
    if s.children.any (fun c => c.worker = id ∧ c.ending = none) then some (s.ends id ending) else none
  | .ready => if s.phase = .idle then some { s with phase := .reaping false } else none
  | .reap id =>
    match s.phase, s.children.find? (fun c => c.worker = id) with
    | .reaping _, some c => c.ending.map (s.reap c)
    | _, _ => none
  | .reaped =>
    match s.phase with
    | .reaping any => some { s with phase := if any && s.notifying_ then .draining else .idle }
    | _ => none
  | .drain =>
    match s.phase with
    | .draining => some s.drain
    | .delivering _ _ _ [] => some s.drain
    | _ => none
  | .emit =>
    match s.phase with
    | .delivering worker exitCode exitSignal (e :: emits) => some (s.emit worker exitCode exitSignal e emits)
    | _ => none

end NodeCompat.Cluster
