import NodeCompat.Stream.Readable

/-!
# `pipe` and `unpipe`

A source with its destinations. `pipe` adds two listeners to the source: one that writes each chunk to the destination, and
one for the end. A `write` that returns `false` pauses the source, and the destination's next `'drain'` resumes it; which
other destinations have not drained is not asked. `emit` goes through the listeners there were when it began, so what is left
of that walk is a frame, and so is what is left of the walk of a `'drain'`.

Destinations are numbers; what they do is user code, and `accepts n` is what the `n`-th `write` returns. User code runs in
`write` and `end` of a destination, in its `'pipe'`, `'unpipe'` and `'drain'`, and wherever it does in a `Readable`. The
listeners of the user for `'data'` run while a walk is under way.
-/

namespace NodeCompat.Stream

/-- One call of `pipe`: `onData` and `onEnd`. `ends` says whether `onEnd` ends the destination. -/
structure Pipe where
  id : Nat
  target : Nat
  ends : Bool
  deriving DecidableEq

structure Piping (V : Type) where
  source : Readable V
  -- `pipeTargets_`, with `pipeDataListeners_` and `pipeEndListeners_`
  targets : List Pipe := []
  dataListeners : List Pipe := []
  endListeners : List Pipe := []
  -- the destinations that the source listens to for a `'drain'`
  drainListeners : List Nat := []
  pipes : Nat := 0
  emitted : Nat := 0
  writes : Nat := 0
  deriving DecidableEq

namespace Piping

inductive Event (V : Type)
  | emitted (number : Nat) (value : Chunk V)
  | delivered (target number : Nat) (value : Chunk V)
  | answered (target number : Nat) (accepted : Bool)
  | drained (target : Nat)
  | piped (target : Nat)
  | unpiped (target : Nat)
  | ended (target : Nat)
  -- `unpipe` finds its own list shorter than it was
  | typeError
  deriving DecidableEq

/-- The points at which user code runs. -/
inductive Frame (V : Type)
  | source (frame : Stream.Frame V)
  -- `emit('data')`, before its next listener
  | delivering (number : Nat) (value : Chunk V) (rest : List Pipe)
  -- `onData` in `write`, the `n`-th one
  | writing (n : Nat) (pipe : Pipe) (number : Nat) (value : Chunk V) (rest : List Pipe)
  -- `onData` in `pause`
  | pausing (pipe : Pipe) (number : Nat) (value : Chunk V) (rest : List Pipe)
  -- `emit('end')`, before its next listener
  | ending (rest : List Pipe)
  -- `pipe` in the `'pipe'` of its destination
  | piping (pipe : Pipe)
  -- `unpipe` in an `'unpipe'`, with the places below `index` to come
  | unpiping (target : Option Nat) (index : Nat)
  -- `emit('drain')`, with some listeners of the source to come
  | draining (rest : Nat)
  deriving DecidableEq

inductive Call (V : Type)
  | source (call : Stream.Call V)
  | pipe (target : Nat) (ends : Bool)
  | unpipe (target : Option Nat)
  | drain (target : Nat)
  deriving DecidableEq

variable {V : Type} (toString : BufferEncoding → Bytes → List UInt16) (accepts : Nat → Bool) (p : Piping V)

abbrev Result (V : Type) := Block (Piping V) (Frame V) (Event V)

/-- What a block of the source emits for `'data'`. -/
def emission (es : List (Stream.Event V)) : Option (Chunk V) :=
  es.findSome? fun
    | .data _ _ value => some value
    | _ => none

def emitsEnd (es : List (Stream.Event V)) : Bool :=
  es.any fun
    | .ended => true
    | _ => false

/-- A block of the source. The listeners of what it emits come before what it does next. -/
def lift (b : Readable.Result V) : Result V :=
  let frames := b.frames.map Frame.source
  match emission b.seen with
  | some value =>
    { state := { p with source := b.state, emitted := p.emitted + 1 }
      seen := [.emitted p.emitted value]
      frames := .delivering p.emitted value p.dataListeners :: frames }
  | none =>
    if emitsEnd b.seen then
      -- the listeners are there once
      { state := { p with source := b.state, endListeners := [] }, frames := .ending p.endListeners :: frames }
    else { state := { p with source := b.state }, frames }

/-- The next listener of `emit('data')`. -/
def deliver (number : Nat) (value : Chunk V) : List Pipe → Result V
  | [] => { state := p }
  | q :: rest =>
    { state := { p with writes := p.writes + 1 }
      seen := [.delivered q.target number value]
      frames := [.writing p.writes q number value rest] }

/-- `onData`, once `write` has returned. -/
def answer (accepted : Bool) (q : Pipe) (number : Nat) (value : Chunk V) (rest : List Pipe) : Result V :=
  if accepted then
    { state := p, seen := [.answered q.target number true], frames := [.delivering number value rest] }
  else
    let b := p.lift p.source.pause
    { b with seen := .answered q.target number false :: b.seen, frames := b.frames ++ [.pausing q number value rest] }

/-- The next listener of `emit('end')`. -/
def deliverEnd : List Pipe → Result V
  | [] => { state := p }
  | q :: rest => { state := p, seen := if q.ends then [.ended q.target] else [], frames := [.ending rest] }

def pipe (target : Nat) (ends : Bool) : Result V :=
  let q : Pipe := ⟨p.pipes, target, ends⟩
  { state := { p with pipes := p.pipes + 1, targets := p.targets ++ [q], endListeners := p.endListeners ++ [q] }
    seen := [.piped target]
    frames := [.piping q] }

/-- `targets[index] !== destination`, when there is a destination. -/
def matchesTarget (target : Option Nat) (q : Pipe) : Bool := target.all (fun t => q.target == t)

/-- The loop of `unpipe`, on the places below `index`. -/
def unpipeFrom (target : Option Nat) : Nat → Result V
  | 0 => { state := p }
  | index + 1 =>
    match p.targets[index]?, target with
    | some q, target =>
      if matchesTarget target q then
        { state :=
            { p with
              targets := p.targets.eraseIdx index
              dataListeners := p.dataListeners.erase q
              endListeners := p.endListeners.erase q }
          seen := [.unpiped q.target]
          frames := [.unpiping target index] }
      else unpipeFrom target index
    -- user code has made the list shorter
    | none, some _ => unpipeFrom target index
    | none, none => { state := p, seen := [.typeError] }

/-- A `'drain'`: the listeners are there once. -/
def drain (target : Nat) : Result V :=
  { state := { p with drainListeners := p.drainListeners.filter (fun t => t != target) }
    seen := [.drained target]
    frames := [.draining (p.drainListeners.count target)] }

def call : Call V → Option (Result V)
  | .source k => (p.source.call toString k).map p.lift
  | .pipe target ends => some (p.pipe target ends)
  | .unpipe target => some (p.unpipeFrom target p.targets.length)
  | .drain target => some (p.drain target)

/-- What a method does when the user code it waits for is done. -/
def goOn : Frame V → Result V
  | .source f => p.lift (p.source.goOn toString f)
  | .delivering number value rest => p.deliver number value rest
  | .writing n q number value rest => p.answer (accepts n) q number value rest
  | .pausing q number value rest =>
    { state := { p with drainListeners := p.drainListeners ++ [q.target] }, frames := [.delivering number value rest] }
  | .ending rest => p.deliverEnd rest
  | .piping q => { p with dataListeners := p.dataListeners ++ [q] }.lift p.source.newListenerAdded
  | .unpiping target index => p.unpipeFrom target index
  | .draining 0 => { state := p }
  | .draining (rest + 1) =>
    let b := p.lift p.source.resume
    { b with frames := b.frames ++ [.draining rest] }

/-- A source, its destinations and the code that uses them. -/
def program : Reentrant (Piping V) (Call V) (Frame V) (Event V) where
  call := call toString
  resume := goOn toString accepts
  task
    | .source (.checkpoint _) => true
    | _ => false

/-- A source that nothing is piped from. -/
def create (objectMode : Bool) (highWaterMark : Nat) (autoDestroy : Bool) (encoding : Option BufferEncoding) :
    Config (Piping V) (Frame V) (Event V) where
  state := { source := (Readable.create objectMode highWaterMark autoDestroy encoding : Config (Readable V) _ _).state }

end Piping

end NodeCompat.Stream
