import NodeCompat.Bytes
import NodeCompat.Lib.Run
import Mathlib.Data.List.AList

/-!
# EventEmitter

The listeners of a name are in a group; groups are objects with an identity, so they live in a heap. `groups_` lists the
groups that have listeners, `byString_` finds the group of a string name. The group of a name whose last listener has left
stays parked in `byString_` while the names are few.

User code runs in the middle of the methods: a listener, also one of `newListener` and `removeListener`, may call any method
again. What the methods under way still have to do is a stack of `Work`; `running` and `hook` are user code, and every other
`Work` is done in one `tick`.
-/

namespace NodeCompat.Events

inductive EventName
  | string (name : Bytes)
  | symbol (id : Nat)
deriving DecidableEq

def EventName.newListener : EventName := .string (text "newListener")
def EventName.removeListener : EventName := .string (text "removeListener")
def EventName.error : EventName := .string (text "error")

/-- The symbol of `errorMonitor`. -/
def EventName.errorMonitor : EventName := .symbol 0

/-- The identity of a group. -/
abbrev GroupId := Nat

variable {L V : Type}

structure ListenerGroup (L : Type) where
  name : EventName
  fns : List L := []
  once : List Bool := []
deriving DecidableEq

/-- `undefined` for `groups_` and `byString_` is an empty list and an empty map. -/
structure Emitter (L : Type) where
  heap : GroupId → ListenerGroup L := fun _ => { name := .errorMonitor }
  /-- The identities below are in use. -/
  allocated : GroupId := 0
  groups : List GroupId := []
  byString : AList (fun _ : Bytes => GroupId) := ∅
  metaWatched : Bool := false

namespace Emitter

/-- A group is changed in place. -/
def modify (e : Emitter L) (g : GroupId) (f : ListenerGroup L → ListenerGroup L) : Emitter L :=
  { e with heap := Function.update e.heap g (f (e.heap g)) }

/-- The group of a name, if it has listeners. -/
def groupOf (e : Emitter L) : EventName → Option GroupId
  | .string name => (e.byString.lookup name).filter (fun g => 0 < (e.heap g).fns.length)
  | .symbol id => e.groups.find? (fun g => (e.heap g).name = .symbol id)

def hasListenersFor (e : Emitter L) (name : EventName) : Bool := (e.groupOf name).isSome

/-- Takes a group that has become empty out of the registration order, and out of the map when it has many names. -/
def retire (e : Emitter L) (g : GroupId) : Emitter L :=
  let e := { e with groups := e.groups.erase g }
  match (e.heap g).name with
  | .string name => if e.byString.keys.length > 32 then { e with byString := e.byString.erase name } else e
  | .symbol _ => e

/-- Drops entry `index` of a group, and the group itself once it is empty; `splice` behind the end does nothing. -/
def dropEntry (e : Emitter L) (g : GroupId) (index : Nat) : Emitter L :=
  let e := e.modify g (fun group =>
    { group with fns := group.fns.eraseIdx index, once := group.once.eraseIdx index })
  if (e.heap g).fns.length > 0 then e else e.retire g

/-- The group in the map, also when it is parked. -/
def probe (e : Emitter L) : EventName → Option GroupId
  | .string name => e.byString.lookup name
  | .symbol _ => none

/-- `new ListenerGroup(name)` -/
def allocate (e : Emitter L) (name : EventName) : Emitter L := { e with
    heap := Function.update e.heap e.allocated { name }
    allocated := e.allocated + 1
    metaWatched := e.metaWatched || name = .newListener || name = .removeListener
    byString := match name with
      | .string s => e.byString.insert s e.allocated
      | .symbol _ => e.byString }

/-- The group that `addEntry` adds to: the group of the name, the parked one at the end of the order, or a new one. -/
def enter (e : Emitter L) (name : EventName) : Emitter L × GroupId :=
  match e.groupOf name with
  | some g => (e, g)
  | none =>
    match e.probe name with
    | some g => ({ e with groups := e.groups ++ [g] }, g)
    | none => ({ e.allocate name with groups := e.groups ++ [e.allocated] }, e.allocated)

/-- `addEntry`, behind the `newListener` event. -/
def addEntry (e : Emitter L) (name : EventName) (fn : L) (once prepend : Bool) : Emitter L :=
  let (e, g) := e.enter name
  e.modify g (fun group =>
    if prepend then { group with fns := fn :: group.fns, once := once :: group.once }
    else { group with fns := group.fns ++ [fn], once := group.once ++ [once] })

/-- The last place of a listener. -/
def lastIndex [DecidableEq L] (fns : List L) (fn : L) : Option Nat :=
  (List.range fns.length).reverse.find? (fun i => fns[i]? = some fn)

/-! ## What is seen of the storage -/

def listeners (e : Emitter L) (name : EventName) : List L :=
  match e.groupOf name with
  | none => []
  | some g => (e.heap g).fns

/-- `listenerCount`, of all listeners or of one. -/
def listenerCount [DecidableEq L] (e : Emitter L) (name : EventName) (listener : Option L) : Nat :=
  match e.groupOf name with
  | none => 0
  | some g =>
    match listener with
    | none => (e.heap g).fns.length
    | some fn => (e.heap g).fns.count fn

def eventNames (e : Emitter L) : List EventName := e.groups.map (fun g => (e.heap g).name)

end Emitter

/-! ## The methods under way -/

/-- An argument of a listener: a name or a listener for the meta events, else a value of the program. -/
inductive Argument (L V : Type)
  | name (name : EventName)
  | listener (fn : Option L)
  | value (v : V)
deriving DecidableEq

inductive Work (L V : Type)
  /-- User code: a listener, and `newListenerAdded`. -/
  | running (fn : L) (args : List (Argument L V))
  | hook (name : EventName)
  /-- `emitDispatch`: from its start, behind the error monitor, in the loop that drops `once` entries (with as many indices to
  look at), and in the loop that runs the snapshot. -/
  | dispatch (name : EventName) (args : List (Argument L V))
  | dispatchGroup (name : EventName) (args : List (Argument L V))
  | dropOnce (name : EventName) (g : GroupId) (left : Nat) (toRun : List L) (args : List (Argument L V))
  | run (toRun : List L) (args : List (Argument L V))
  | notifyRemoved (name : EventName) (fn : Option L)
  | addEntry (name : EventName) (fn : L) (once prepend : Bool)
  | removeGroup (g : GroupId) (left : Nat) (notify : Bool)
  | removeGroups (snapshot : List GroupId) (removeListenerGroup : Option GroupId)
deriving DecidableEq

def Work.isUser : Work L V → Bool
  | .running _ _ => true
  | .hook _ => true
  | _ => false

/-- An exception leaves the methods under way up to the next user code. -/
def unwind (ws : List (Work L V)) : List (Work L V) := ws.dropWhile (fun w => !w.isUser)

namespace Emitter

/-- `emitDispatch` with the group of its name: one listener is run as it is, several from a snapshot. -/
def dispatchTo (e : Emitter L) (name : EventName) (args : List (Argument L V)) (g : GroupId) : Emitter L × List (Work L V) :=
  let once := (e.heap g).once
  match (e.heap g).fns with
  | [fn] =>
    if once[0]? = some true then (e.dropEntry g 0, [.notifyRemoved name (some fn), .run [fn] args])
    else (e, [.run [fn] args])
  | fns =>
    if (once.take fns.length).any id then (e, [.dropOnce name g fns.length fns args])
    else (e, [.run fns args])

/-- One piece of work, other than user code, before the rest. -/
def tick [DecidableEq L] (e : Emitter L) (w : Work L V) (ws : List (Work L V)) : Emitter L × List (Work L V) :=
  match w with
  | .running _ _ => (e, w :: ws)
  | .hook _ => (e, w :: ws)
  | .dispatch name args =>
    if name = .error ∧ e.listenerCount .errorMonitor none > 0 then
      (e, .dispatch .errorMonitor args :: .dispatchGroup name args :: ws)
    else (e, .dispatchGroup name args :: ws)
  | .dispatchGroup name args =>
    match e.groupOf name with
    | none => if name = .error then (e, unwind ws) else (e, ws)
    | some g => ((e.dispatchTo name args g).1, (e.dispatchTo name args g).2 ++ ws)
  | .dropOnce _ _ 0 toRun args => (e, .run toRun args :: ws)
  | .dropOnce name g (i + 1) toRun args =>
    if (e.heap g).once[i]? = some true then
      (e.dropEntry g i, .notifyRemoved name (e.heap g).fns[i]? :: .dropOnce name g i toRun args :: ws)
    else (e, .dropOnce name g i toRun args :: ws)
  | .run [] _ => (e, ws)
  | .run (fn :: fns) args => (e, .running fn args :: .run fns args :: ws)
  | .notifyRemoved name fn =>
    if e.metaWatched && e.hasListenersFor .removeListener then
      (e, .dispatch .removeListener [.name name, .listener fn] :: ws)
    else (e, ws)
  | .addEntry name fn once prepend => (e.addEntry name fn once prepend, .hook name :: ws)
  | .removeGroup _ 0 _ => (e, ws)
  | .removeGroup g (i + 1) notify =>
    let ws := .removeGroup g i notify :: ws
    (e.dropEntry g i, if notify then .notifyRemoved (e.heap g).name (e.heap g).fns[i]? :: ws else ws)
  | .removeGroups [] none => (e, ws)
  | .removeGroups [] (some g) => (e, .removeGroup g (e.heap g).fns.length false :: ws)
  | .removeGroups (g :: gs) last =>
    if (e.heap g).name = .removeListener then (e, .removeGroups gs (some g) :: ws)
    else (e, .removeGroup g (e.heap g).fns.length true :: .removeGroups gs last :: ws)

end Emitter

/-- The methods that change the storage. -/
inductive Call (L V : Type)
  | add (name : EventName) (fn : L) (once prepend : Bool)
  | off (name : EventName) (fn : L)
  | removeAllListeners (name : Option EventName)
  | emit (name : EventName) (args : List V)
deriving DecidableEq

namespace Emitter

/-- A call, up to its first piece of work. -/
def call [DecidableEq L] (e : Emitter L) : Call L V → Emitter L × List (Work L V)
  | .add name fn once prepend =>
    if e.metaWatched && e.hasListenersFor .newListener then
      (e, [.dispatch .newListener [.name name, .listener (some fn)], .addEntry name fn once prepend])
    else (e, [.addEntry name fn once prepend])
  | .off name fn =>
    match e.groupOf name with
    | none => (e, [])
    | some g =>
      match lastIndex (e.heap g).fns fn with
      | none => (e, [])
      | some i => (e.dropEntry g i, [.notifyRemoved name (e.heap g).fns[i]?])
  | .removeAllListeners none => (e, [.removeGroups e.groups none])
  | .removeAllListeners (some name) =>
    match e.groupOf name with
    | none => (e, [])
    | some g => (e, [.removeGroup g (e.heap g).fns.length true])
  | .emit name args => (e, [.dispatch name (args.map .value)])

end Emitter

/-- The emitter and the methods under way. -/
structure Config (L V : Type) where
  emitter : Emitter L := {}
  works : List (Work L V) := []

/-- Work is done, or user code calls a method, returns, or throws. -/
inductive Label (L V : Type)
  | tick
  | call (k : Call L V)
  | ret
  | throw
deriving DecidableEq

namespace Config

/-- User code is running: a listener, or the program outside of the emitter's methods. -/
def inUser (c : Config L V) : Bool := c.works.head?.all Work.isUser

def step [DecidableEq L] (c : Config L V) : Label L V → Option (Config L V)
  | .tick =>
    match c.works with
    | [] => none
    | w :: ws => if w.isUser then none else some ⟨(c.emitter.tick w ws).1, (c.emitter.tick w ws).2⟩
  | .call k => if c.inUser then some ⟨(c.emitter.call k).1, (c.emitter.call k).2 ++ c.works⟩ else none
  | .ret =>
    match c.works with
    | [] => none
    | w :: ws => if w.isUser then some { c with works := ws } else none
  | .throw =>
    match c.works with
    | [] => none
    | w :: ws => if w.isUser then some { c with works := unwind ws } else none

end Config

end NodeCompat.Events
