import NodeCompat.Lib.Run

/-!
# `finished` and `pipeline`

`finished` puts four listeners on a stream, each for one event, and looks at two of its flags at once; `pipeline` pipes each
stream into the next, from the last to the first, and calls `finished` for the last one. What the streams do meanwhile is left
open: their flags change and their events come in any order, also while `pipeline` is still piping.

A listener runs when `stream` is as it is then; the callback is called in it, and what it does are moves that follow.
-/

namespace NodeCompat.Stream

/-- What `finished` sees of a stream. The flags of a side that it has not are `undefined`. -/
structure StreamLike (E : Type) where
  -- `readable !== undefined` and `writable !== undefined`
  hasReadable : Bool
  hasWritable : Bool
  readableEnded : Bool := false
  writableEnded : Bool := false
  writableFinished : Bool := false
  destroyed : Bool := false
  errored : Option E := none
  deriving DecidableEq

/-- What a stream does. -/
inductive Change (E : Type)
  | readableEnd
  | writableEnd
  | finish
  | destroy (error : Option E)
  -- an error without `autoDestroy`, or with which `_destroy` calls back
  | fail (error : E)
  deriving DecidableEq

/-- The events that `finished` listens for. -/
inductive Emitted (E : Type)
  | ended
  | finish
  | close
  | error (error : E)
  deriving DecidableEq

variable {E : Type}

namespace StreamLike

variable (s : StreamLike E)

def change : Change E → StreamLike E
  | .readableEnd => { s with readableEnded := true }
  | .writableEnd => { s with writableEnded := true }
  | .finish => { s with writableFinished := true }
  | .destroy error => if s.destroyed then s else { s with destroyed := true, errored := error }
  | .fail error => { s with errored := some error }

/-- The event is emitted once its flag is set. -/
def emits : Emitted E → Bool
  | .ended => s.readableEnded
  | .finish => s.writableFinished
  | _ => true

end StreamLike

/-- The listeners and the `called` of a `finished`, and what its callback was given. -/
structure Finished (E : Type) where
  onEnd : Bool := true
  onFinish : Bool := true
  onClose : Bool := true
  onError : Bool := true
  called : Bool := false
  calls : List (Option E) := []
  deriving DecidableEq

namespace Finished

variable (f : Finished E) (s : StreamLike E)

def done (error : Option E) : Finished E := if f.called then f else { f with called := true, calls := f.calls ++ [error] }

/-- The listener for an event, if it is still there. -/
def emit : Emitted E → Finished E
  | .ended =>
    if f.onEnd then
      let f := { f with onEnd := false }
      if !s.hasWritable || s.writableFinished || s.writableEnded then f.done none else f
    else f
  | .finish =>
    if f.onFinish then
      let f := { f with onFinish := false }
      if !s.hasReadable || s.readableEnded then f.done none else f
    else f
  | .close => if f.onClose then { f with onClose := false }.done s.errored else f
  | .error error => if f.onError then { f with onError := false }.done (some error) else f

/-- What `finished` returns. -/
def cleanup : Finished E := { f with onEnd := false, onFinish := false, onClose := false, onError := false }

end Finished

/-- `finished(stream, callback)` -/
def finished (s : StreamLike E) : Finished E :=
  let f : Finished E := {}
  if s.readableEnded || s.writableFinished then f.done none else f

/-- A stream for which `finished` was called. -/
structure Watched (E : Type) where
  stream : StreamLike E
  finished : Finished E
  deriving DecidableEq

namespace Watched

inductive Move (E : Type)
  | change (change : Change E)
  | emit (event : Emitted E)
  | cleanup
  deriving DecidableEq

def step (w : Watched E) : Move E → Option (Watched E)
  | .change k => some { w with stream := w.stream.change k }
  | .emit e => if w.stream.emits e then some { w with finished := w.finished.emit w.stream e } else none
  | .cleanup => some { w with finished := w.finished.cleanup }

def create (s : StreamLike E) : Watched E where
  stream := s
  finished := Stream.finished s

end Watched

/-- Where a `pipeline` is. -/
inductive Stage (E : Type)
  -- in its loop; the streams from `index` on are piped
  | piping (index : Nat)
  | watching (finished : Finished E)
  -- `ERR_INVALID_ARG_TYPE`
  | threw
  deriving DecidableEq

structure Pipeline (E : Type) where
  streams : List (StreamLike E)
  stage : Stage E
  deriving DecidableEq

namespace Pipeline

inductive Move (E : Type)
  -- what the `index`-th stream does
  | change (index : Nat) (change : Change E)
  | emit (event : Emitted E)
  | go
  deriving DecidableEq

variable (p : Pipeline E)

/-- The stream that `pipeline` returns. -/
def destination : Option (StreamLike E) := p.streams[p.streams.length - 1]?

/-- The next round of the loop, or `finished` after it. -/
def go : Option (Pipeline E) :=
  match p.stage with
  | .piping (index + 1) =>
    (p.streams[index + 1]?).map fun s => { p with stage := if s.hasWritable then .piping index else .threw }
  | .piping 0 => p.destination.map fun s => { p with stage := .watching (finished s) }
  | _ => none

def step : Move E → Option (Pipeline E)
  | .change index k => (p.streams[index]?).map fun s => { p with streams := p.streams.set index (s.change k) }
  | .emit e =>
    match p.destination with
    | some s =>
      if s.emits e then
        match p.stage with
        | .watching f => some { p with stage := .watching (f.emit s e) }
        | _ => some p
      else none
    | none => none
  | .go => p.go

end Pipeline

/-- `pipeline(...streams, callback)`; `none` is `ERR_MISSING_ARGS`. -/
def pipeline (streams : List (StreamLike E)) : Option (Pipeline E) :=
  if streams.length < 2 then none else some { streams, stage := .piping (streams.length - 1) }

end NodeCompat.Stream
