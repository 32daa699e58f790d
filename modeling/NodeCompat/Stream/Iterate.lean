import NodeCompat.Stream.Readable

/-!
# `NodeReadableIterator`

The async iterator of a `Readable`. `next` reads first. When that gives nothing, it leaves one listener for `'readable'`, one
for `'end'` and one for `'error'`, each for one emission; the first reads again, and gives up when it finds nothing. Nothing
listens for `'close'`.

`emit` takes the listeners off and then goes through them, so what is left of such a walk is a frame. User code runs
wherever it does in a `Readable`, in a `read` of `next` too, and between the listeners of a walk.
-/

namespace NodeCompat.Stream

/-- How a promise of `next` settles. -/
inductive IteratorResult (V : Type)
  | value (value : Chunk V)
  | done
  | rejected (error : StreamError)
  deriving DecidableEq

structure Iterating (V : Type) where
  source : Readable V
  stream : Bool := true
  destroyOnReturn : Bool := true
  -- the `next` calls whose listeners are on the stream, in the order in which they were added
  readableListeners : List Nat := []
  endListeners : List Nat := []
  errorListeners : List Nat := []
  -- the promises of `next`, in the order of the calls
  results : List (Option (IteratorResult V)) := []
  deriving DecidableEq

namespace Iterating

/-- The points at which user code runs. -/
inductive Frame (V : Type)
  | source (frame : Stream.Frame V)
  -- the `n`-th `next`, or its `onReadable`, in `read`
  | taking (n : Nat) (byListener : Bool) (frame : Stream.Frame V)
  -- `emit('readable')`, `emit('end')` and `emit('error')`, before their next listener
  | readable (rest : List Nat)
  | ended (rest : List Nat)
  | error (error : StreamError) (rest : List Nat)
  -- `return` in `destroy`
  | returning
  deriving DecidableEq

inductive Call (V : Type)
  | source (call : Stream.Call V)
  | next
  | return_
  deriving DecidableEq

variable {V : Type} (toString : BufferEncoding → Bytes → List UInt16) (p : Iterating V)

abbrev Result (V : Type) := Block (Iterating V) (Frame V) (Event V)

/-- The emissions that a `next` listens for. -/
inductive Emission
  | readable
  | ended
  | error (error : StreamError)

def emission (es : List (Event V)) : Option Emission := es.findSome? fun
    | .readable => some .readable
    | .ended => some .ended
    | .error error => some (.error error)
    | _ => none

/-- A block of the stream. The listeners of what it emits come before what it does next, and are there once. -/
def lift (b : Readable.Result V) : Result V :=
  let frames := b.frames.map Frame.source
  match emission b.seen with
  | some .readable =>
    { state := { p with source := b.state, readableListeners := [] }
      seen := b.seen
      frames := .readable p.readableListeners :: frames }
  | some .ended =>
    { state := { p with source := b.state, endListeners := [] }
      seen := b.seen
      frames := .ended p.endListeners :: frames }
  | some (.error error) =>
    { state := { p with source := b.state, errorListeners := [] }
      seen := b.seen
      frames := .error error p.errorListeners :: frames }
  | none => { state := { p with source := b.state }, seen := b.seen, frames }

/-- A promise is settled once. -/
def settle (n : Nat) (result : IteratorResult V) : Iterating V :=
  match p.results[n]? with
  | some none => { p with results := p.results.set n (some result) }
  | _ => p

/-- The listeners of a `next` are its own, so each list holds it at most once. -/
def cleanup (n : Nat) : Iterating V := { p with
    readableListeners := p.readableListeners.filter (fun m => m != n)
    endListeners := p.endListeners.filter (fun m => m != n)
    errorListeners := p.errorListeners.filter (fun m => m != n) }

/-- `stream.read()`, for a `next`. -/
def take (n : Nat) (byListener : Bool) : Result V :=
  let b := p.source.read toString 0
  { state := { p with source := b.state }, seen := b.seen, frames := b.frames.map (Frame.taking n byListener) }

/-- What `read` returns when its frame is done. -/
def taken : Stream.Frame V → Option (Chunk V)
  | .reading value => some value
  | _ => none

/-- `next`, after its `read`. -/
def afterRead (n : Nat) : Option (Chunk V) → Iterating V
  | some value => p.settle n (.value value)
  | none =>
    if p.source.readableEnded || p.source.destroyed then { p with stream := false }.settle n .done
    else { p with
        readableListeners := p.readableListeners ++ [n]
        endListeners := p.endListeners ++ [n]
        errorListeners := p.errorListeners ++ [n] }

/-- `onReadable`, after its `read`. -/
def onReadable (n : Nat) : Option (Chunk V) → Iterating V
  | some value => (p.cleanup n).settle n (.value value)
  | none => p

def onEnd (n : Nat) : Iterating V := { p.cleanup n with stream := false }.settle n .done

def onError (n : Nat) (error : StreamError) : Iterating V := { p.cleanup n with stream := false }.settle n (.rejected error)

def next : Result V :=
  if p.stream then { p with results := p.results ++ [none] }.take toString p.results.length false
  else { state := { p with results := p.results ++ [some .done] } }

def return_ : Result V :=
  if p.stream && p.destroyOnReturn then
    let b := p.lift (p.source.destroy none .nothing)
    { b with frames := b.frames ++ [.returning] }
  else { state := { p with stream := false } }

def call : Call V → Option (Result V)
  | .source k => (p.source.call toString k).map p.lift
  | .next => some (p.next toString)
  | .return_ => some p.return_

/-- What a method does when the user code it waits for is done. -/
def goOn : Frame V → Result V
  | .source f => p.lift (p.source.goOn toString f)
  | .taking n byListener f =>
    let b := p.source.goOn toString f
    let p := { p with source := b.state }
    { state := if byListener then p.onReadable n (taken f) else p.afterRead n (taken f), seen := b.seen }
  | .readable [] | .ended [] | .error _ [] => { state := p }
  | .readable (n :: rest) =>
    let b := p.take toString n true
    { b with frames := b.frames ++ [.readable rest] }
  | .ended (n :: rest) => { state := p.onEnd n, frames := [.ended rest] }
  | .error error (n :: rest) => { state := p.onError n error, frames := [.error error rest] }
  | .returning => { state := { p with stream := false } }

/-- A stream, its iterator and the code that uses them. -/
def program : Reentrant (Iterating V) (Call V) (Frame V) (Event V) where
  call := call toString
  resume := goOn toString
  task
    | .source (.checkpoint _) => true
    | _ => false

/-- `readable.iterator({ destroyOnReturn })` -/
def create (objectMode : Bool) (highWaterMark : Nat) (autoDestroy : Bool) (encoding : Option BufferEncoding)
    (destroyOnReturn : Bool) : Config (Iterating V) (Frame V) (Event V) where
  state :=
    { source := (Readable.create objectMode highWaterMark autoDestroy encoding : Config (Readable V) _ _).state
      destroyOnReturn }

end Iterating

end NodeCompat.Stream
