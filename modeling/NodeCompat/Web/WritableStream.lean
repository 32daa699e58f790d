import NodeCompat.Web.ReadableStream

/-!
# `WritableStream` and `TransformStream` of the web streams

There is no queue of writes: `writer.write` calls the sink's `write` at once and hands its promise on, and `writer.close`
calls its `close`. A `TransformStream` is a writable stream whose sink feeds a readable one: `write` is the transformer's
`transform`, and `close` its `flush`, after which the readable side is closed.

Whether a function of the sink returns a promise is part of the call (`async`); the promise is settled by a later move.
-/

namespace NodeCompat.Web

inductive WritableState (ε : Type)
  | writable
  | closed
  | errored (reason : ε)
  deriving DecidableEq

/-- The members of the sink, or of the transformer, that are there. -/
inductive Sink
  | plain (write close abort : Bool)
  | transformer (transform flush : Bool)
  deriving DecidableEq

/-- How the promise of a `write` or `close` settles. -/
inductive Settled (ε : Type)
  | fulfilled
  | rejected (reason : ε)
  -- `WritableStream is closed`
  | streamClosed
  -- no promise: the identity transform threw, since the readable side is not readable
  | notReadable
  deriving DecidableEq

/-- A call of `writer.write`. -/
structure WriteCall (α ε : Type) where
  chunk : α
  -- the sink's `write` was called with the chunk
  called : Bool
  -- the sink's `write` returns a promise
  async : Bool
  result : Option (Settled ε)
  deriving DecidableEq

structure WritableStream (α ε : Type) where
  state : WritableState ε := .writable
  sink : Sink
  -- the readable side of a `TransformStream`
  readable : ReadableStream α ε := { pull := false }
  writes : List (WriteCall α ε) := []
  -- the promises of the `close` calls; the first is the sink's, when the sink has a `close` that returns one
  closes : List (Option (Settled ε)) := []
  asyncClose : Bool := false

namespace WritableStream

inductive Frame
  -- the sink's `write`, called for a `writer.write`
  | writing (i : Nat) (async : Bool)
  -- the sink's `close`, or `flush`
  | closing (i : Nat) (async : Bool)
  | aborting
  deriving DecidableEq

inductive Event (α ε : Type)
  | write (i : Nat) (chunk : α)
  -- and is over: it has returned, or its promise has settled
  | written (i : Nat) (result : Settled ε)
  | close
  -- `flush` has returned
  | flushed
  | abort (reason : ε)
  | enqueued (chunk : α)
  -- the controller's `enqueue` throws
  | notReadable
  deriving DecidableEq

inductive Call (α ε : Type)
  | write (chunk : α) (async : Bool)
  | close (async : Bool)
  | abort (reason : ε)
  | settleWrite (i : Nat) (result : Except ε Unit)
  | settleClose (i : Nat) (result : Except ε Unit)
  -- `error` of the sink's controller
  | controllerError (reason : ε)
  | enqueue (chunk : α)
  | error (reason : ε)
  | terminate
  | read

variable {α ε : Type} (s : WritableStream α ε)

abbrev Result (α ε : Type) := Block (WritableStream α ε) Frame (Event α ε)

def settledOf : Except ε Unit → Settled ε
  | .ok _ => .fulfilled
  | .error reason => .rejected reason

def addWrite (call : WriteCall α ε) : WritableStream α ε := { s with writes := s.writes ++ [call] }

def setWrite (i : Nat) (result : Settled ε) : WritableStream α ε :=
  { s with writes := s.writes.modify i (fun call => { call with result := some result }) }

def setClose (i : Nat) (result : Settled ε) : WritableStream α ε := { s with closes := s.closes.set i (some result) }

/-- `enqueue` of the transformer's controller. -/
def enqueue (chunk : α) : Result α ε :=
  let b := s.readable.enqueueFromController chunk
  { state := { s with readable := b.state }, seen := if b.seen.isEmpty then [.enqueued chunk] else [.notReadable] }

/-- The sink's `write` is called. -/
def callSinkWrite (chunk : α) (async : Bool) : Result α ε :=
  { state := s.addWrite { chunk, called := true, async, result := none }
    seen := [.write s.writes.length chunk]
    frames := [.writing s.writes.length async] }

def writeInternal (chunk : α) (async : Bool) : Result α ε :=
  match s.state with
  | .errored reason => { state := s.addWrite { chunk, called := false, async, result := some (.rejected reason) } }
  | .closed => { state := s.addWrite { chunk, called := false, async, result := some .streamClosed } }
  | .writable =>
    match s.sink with
    | .plain true _ _ => s.callSinkWrite chunk async
    | .plain false _ _ => { state := s.addWrite { chunk, called := false, async, result := some .fulfilled } }
    | .transformer true _ => s.callSinkWrite chunk async
    | .transformer false _ =>
      let b := s.enqueue chunk
      let result := if s.readable.state matches .readable then .fulfilled else .notReadable
      { state := b.state.addWrite { chunk, called := false, async, result := some result }, seen := b.seen }

def closeInternal (async : Bool) : Result α ε :=
  match s.state with
  | .closed => { state := { s with closes := s.closes ++ [some .fulfilled] } }
  | .errored reason => { state := { s with closes := s.closes ++ [some (.rejected reason)] } }
  | .writable =>
    let called : Result α ε :=
      { state := { s with state := .closed, closes := s.closes ++ [none], asyncClose := async }
        seen := [.close]
        frames := [.closing s.closes.length async] }
    match s.sink with
    | .plain _ true _ => called
    | .plain _ false _ => { state := { s with state := .closed, closes := s.closes ++ [some .fulfilled] } }
    | .transformer _ true => called
    | .transformer _ false =>
      { state := { s with
            state := .closed
            closes := s.closes ++ [some .fulfilled]
            readable := s.readable.closeFromController } }

def abort (reason : ε) : Result α ε :=
  let s := { s with state := .errored reason }
  match s.sink with
  | .plain _ _ true => { state := s, seen := [.abort reason], frames := [.aborting] }
  | .plain _ _ false => { state := s }
  | .transformer _ _ => { state := { s with readable := s.readable.errorFromController reason } }

/-- Whether the promise of the sink's `write` is there and pending. -/
def writePending (i : Nat) : Bool :=
  match s.writes[i]? with
  | some call => call.called && call.async && call.result.isNone
  | none => false

def call : Call α ε → Option (Result α ε)
  | .write chunk async => some (s.writeInternal chunk async)
  | .close async => some (s.closeInternal async)
  | .abort reason => some (s.abort reason)
  | .settleWrite i result =>
    if s.writePending i then some { state := s.setWrite i (settledOf result), seen := [.written i (settledOf result)] }
    else none
  | .settleClose i result =>
    if s.asyncClose && s.closes[i]?.any Option.isNone then some { state := s.setClose i (settledOf result) } else none
  | .controllerError reason =>
    match s.sink with
    | .plain _ _ _ => some { state := { s with state := .errored reason } }
    | .transformer _ _ => none
  | .enqueue chunk =>
    match s.sink with
    | .plain _ _ _ => none
    | .transformer _ _ => some (s.enqueue chunk)
  | .error reason =>
    match s.sink with
    | .plain _ _ _ => none
    | .transformer _ _ => some { state := { s with readable := s.readable.errorFromController reason } }
  | .terminate =>
    match s.sink with
    | .plain _ _ _ => none
    | .transformer _ _ => some { state := { s with readable := s.readable.closeFromController } }
  | .read => some { state := { s with readable := s.readable.readInternal.state } }

/-- What follows the sink's function, once it has returned. -/
def goOn : Frame → Result α ε
  | .writing _ true => { state := s }
  | .writing i false => { state := s.setWrite i .fulfilled, seen := [.written i .fulfilled] }
  | .closing i async =>
    let s := if async then s else s.setClose i .fulfilled
    match s.sink with
    | .plain _ _ _ => { state := s }
    -- the promise of `flush` is not waited for
    | .transformer _ _ => { state := { s with readable := s.readable.closeFromController }, seen := [.flushed] }
  | .aborting => { state := s }

def program : Reentrant (WritableStream α ε) (Call α ε) Frame (Event α ε) where
  call := call
  resume := goOn
  task _ := false

end WritableStream

end NodeCompat.Web
