import NodeCompat.Lib.Run

/-!
# The reactor: watchers and the frames that dispatch them

`EventLoop` with its `poll` and its `epoll` backend. Watchers are numbers, for the objects: borrowed ones stay with their
owner, adopted ones are destroyed by the loop. `close` only marks a watcher; it is removed, and destroyed if it is owned,
by `purgeClosed`, which runs where no batch of events is under way (`dispatchDepth_` is 0).

The C++ stack is explicit: a frame for each call of `runPoll` or `runEpoll` with where it is (`Point`), and one for each
`onReady` that is running. Callbacks (microtasks, timers, immediates and `onReady`) may add and close any watchers, and
enter the loop again; the collector, which runs between the tests and the wait, may do the former. `log` is what has
happened, in order.
-/

namespace NodeCompat.Loop

inductive Backend
  | poll
  | epoll
deriving DecidableEq

/-- What happens to a watcher. -/
inductive Event
  | added (w : Nat)
  | adopted (w : Nat)
  | closed (w : Nat)
  | ready (w : Nat)
  | destroyed (w : Nat)
deriving DecidableEq

/-- Where a frame of the loop is. The snapshot is `polledWatchers` (poll) or the events of `epoll_wait`. -/
inductive Point
  | top -- the microtasks at the head of the loop
  | tests (polled : List Nat) -- between the tests and the wait
  | woken (snapshot events : List Nat) -- timers and microtasks behind the wait
  | batch (snapshot left : List Nat) -- the dispatch loop, with what is left of it
  | after (snapshot : List Nat) -- microtasks and immediates behind it
deriving DecidableEq

/-- A frame of the stack. -/
inductive Frame
  | run (p : Point)
  | onReady (w : Nat)
deriving DecidableEq

namespace Frame

/-- The watchers that a frame still holds. -/
def snapshot : Frame → List Nat
  | run .top => []
  | run (.tests polled) => polled
  | run (.woken s _) => s
  | run (.batch s _) => s
  | run (.after s) => s
  | onReady _ => []

/-- Those of them that it may still dispatch. -/
def pending : Frame → List Nat
  | run (.woken _ events) => events
  | run (.batch _ left) => left
  | _ => []

/-- How much the frame has added to `dispatchDepth_`. -/
def raises : Frame → Nat
  | run (.woken _ _) => 1
  | run (.batch _ _) => 1
  | run (.after _) => 1
  | onReady _ => 1
  | _ => 0

/-- Whether the frame is between the tests and the wait, where no callback runs. -/
def waits : Frame → Bool
  | run (.tests _) => true
  | _ => false

end Frame

/-- `EventLoop`; `registered` are the watchers whose readiness the kernel reports (epoll). -/
structure Reactor where
  borrowed : List Nat := []
  owned : List Nat := []
  closing : List Nat := []
  registered : List Nat := []
  depth : Nat := 0
  stack : List Frame := []
  log : List Event := []
deriving DecidableEq

/-- Whether `close` was called on a watcher, and it was not added since. -/
def closedIn (w : Nat) (log : List Event) : Bool := log.foldl (fun c e => match e with
    | .added v => if v = w then false else c
    | .closed v => if v = w then true else c
    | _ => c) false

namespace Reactor

variable (b : Backend)

def watcherAdded (m : Reactor) (w : Nat) : Reactor :=
  match b with
  | .poll => m
  | .epoll => { m with registered := m.registered ++ [w] }

def addBorrowed (m : Reactor) (w : Nat) : Reactor :=
  watcherAdded b { m with borrowed := m.borrowed ++ [w], log := m.log ++ [.added w] } w

def adopt (m : Reactor) (w : Nat) : Reactor :=
  watcherAdded b { m with owned := m.owned ++ [w], log := m.log ++ [.added w, .adopted w] } w

/-- Readiness delivery stops at once; the object stays. -/
def close (m : Reactor) (w : Nat) : Reactor :=
  let m := { m with log := m.log ++ [.closed w] }
  if w ∈ m.closing then m
  else
    match b with
    | .poll => { m with closing := m.closing ++ [w] }
    | .epoll => { m with closing := m.closing ++ [w], registered := m.registered.filter (· ≠ w) }

/-- One iteration of `purgeClosed`: erasing an owned watcher destroys it. -/
def purgeOne (m : Reactor) (w : Nat) : Reactor := { m with
    borrowed := m.borrowed.filter (· ≠ w)
    owned := m.owned.filter (· ≠ w)
    log := m.log ++ (m.owned.filter (· = w)).map .destroyed }

def purgeClosed (m : Reactor) : Reactor := { m.closing.foldl purgeOne m with closing := [] }

def purgeClosedIfSafe (m : Reactor) : Reactor := if m.depth = 0 then m.purgeClosed else m

/-- The watchers to poll. -/
def polled (m : Reactor) : List Nat :=
  match b with
  | .poll => (m.borrowed ++ m.owned).filter (· ∉ m.closing)
  | .epoll => []

/-- What a wait may report: of the watchers polled, or of those registered. -/
def mayReport (m : Reactor) (polled events : List Nat) : Bool :=
  match b with
  | .poll => events.isSublist polled
  | .epoll => events.all (· ∈ m.registered)

/-- The frame behind the wait. -/
def wokenPoint (polled events : List Nat) : Point :=
  match b with
  | .poll => .woken polled events
  | .epoll => .woken events events

/-- The batch: `poll` leaves out what has been closed since the wait; `epoll` looks when it comes to it. -/
def batchOf (m : Reactor) (events : List Nat) : List Nat :=
  match b with
  | .poll => events.filter (· ∉ m.closing)
  | .epoll => events

/-- Whether a callback runs: with nothing on the stack, the program does. -/
def inCallback (m : Reactor) : Bool :=
  match m.stack with
  | [] => true
  | .onReady _ :: _ => true
  | .run .top :: _ => true
  | .run (.woken _ _) :: _ => true
  | .run (.after _) :: _ => true
  | _ => false

/-- Whether the collector runs. -/
def inCollector (m : Reactor) : Bool :=
  match m.stack with
  | .run (.tests _) :: _ => true
  | _ => false

/-- What happens next. `leave` is each of the returns of `runPoll` and `runEpoll`, `turn` the end of a batch. -/
inductive Label
  | addBorrowed (w : Nat)
  | adopt (w : Nat)
  | close (w : Nat)
  | enter
  | test
  | again
  | wake (events : List Nat)
  | dispatch
  | tau
  | stop
  | ret
  | turn
  | leave
deriving DecidableEq

/-- One iteration of the dispatch loop. -/
def dispatchNext (m : Reactor) (s left : List Nat) (rest : List Frame) : Reactor :=
  match left with
  | [] => { m with stack := .run (.after s) :: rest }
  | w :: ws =>
    if w ∈ m.closing then { m with stack := .run (.batch s ws) :: rest }
    else { m with
        depth := m.depth + 1
        stack := .onReady w :: .run (.batch s ws) :: rest
        log := m.log ++ [.ready w] }

/-- One step, if it is enabled. A watcher is adopted once, when it is new; a borrowed one is not added while its close is
pending; only a watcher that exists is closed. -/
def step (m : Reactor) (l : Label) : Option Reactor :=
  match l, m.stack with
  | .addBorrowed w, _ =>
    if (m.inCallback || m.inCollector) ∧ w ∉ m.closing ∧ .adopted w ∉ m.log then some (m.addBorrowed b w) else none
  | .adopt w, _ =>
    if (m.inCallback || m.inCollector) ∧ w ∉ m.closing ∧ .added w ∉ m.log then some (m.adopt b w) else none
  | .close w, _ => if (m.inCallback || m.inCollector) ∧ .destroyed w ∉ m.log then some (m.close b w) else none
  | .enter, st => if m.inCallback then some { m with stack := .run .top :: st } else none
  | .test, .run .top :: rest => some { m with stack := .run (.tests (m.polled b)) :: rest }
  | .again, .run (.tests _) :: rest => some { m with stack := .run .top :: rest }
  | .wake events, .run (.tests polled) :: rest =>
    if m.mayReport b polled events then
      some { m with depth := m.depth + 1, stack := .run (wokenPoint b polled events) :: rest }
    else none
  | .dispatch, .run (.woken s events) :: rest => some { m with stack := .run (.batch s (m.batchOf b events)) :: rest }
  | .tau, .run (.batch s left) :: rest => some (m.dispatchNext s left rest)
  | .stop, .run (.batch s _) :: rest => some { m with stack := .run (.after s) :: rest }
  | .ret, .onReady _ :: rest => some { m with depth := m.depth - 1, stack := rest }
  | .turn, .run (.after _) :: rest =>
    some ({ m with depth := m.depth - 1, stack := .run .top :: rest } : Reactor).purgeClosedIfSafe
  | .leave, .run .top :: rest => some ({ m with stack := rest } : Reactor).purgeClosedIfSafe
  | .leave, .run (.tests _) :: rest => some ({ m with stack := rest } : Reactor).purgeClosedIfSafe
  | .leave, .run (.woken _ _) :: rest => some ({ m with depth := m.depth - 1, stack := rest } : Reactor).purgeClosedIfSafe
  | .leave, .run (.after _) :: rest => some ({ m with depth := m.depth - 1, stack := rest } : Reactor).purgeClosedIfSafe
  | _, _ => none

end Reactor

end NodeCompat.Loop
