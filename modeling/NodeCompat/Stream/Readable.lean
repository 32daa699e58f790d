import NodeCompat.Bytes
import NodeCompat.Lib.Reentrant

/-!
# `Readable` of `node:stream`

The readable side of a stream: `push`, `pushEnd` and `unshift` fill `pending_`, `read` and the flowing mode take from it,
and `'end'` is left to a microtask. Every `emit` and every hook (`_read`, `_destroy`) is a point where user code runs, so
the methods are cut there (`Reentrant`). An `emit` that the source skips when nobody listens is an `emit` whose handlers
do nothing.

A string is a list of UTF-16 code units. `Buffer.toString` is a parameter.
-/

namespace NodeCompat.Stream

inductive BufferEncoding
  | utf8 | utf_8 | hex | base64 | base64url | binary | latin1 | ascii | ucs2 | ucs_2 | utf16le | utf_16le
  deriving DecidableEq

/-- What is pushed, `null` apart; `V` holds the values that are neither buffers nor strings. -/
inductive Chunk (V : Type)
  | buffer (bytes : Bytes)
  | string (units : List UInt16)
  | other (value : V)
  deriving DecidableEq

inductive StreamError
  -- `ERR_STREAM_PUSH_AFTER_EOF`
  | pushAfterEof
  | given (id : Nat)
  deriving DecidableEq

/-- `Buffer.byteLength`: a surrogate pair is one character of four bytes. -/
def byteLength : List UInt16 → Nat
  | [] => 0
  | [u] => if u < 0x80 then 1 else if u < 0x800 then 2 else 3
  | u :: v :: rest =>
    if 0xD800 ≤ u ∧ u < 0xDC00 ∧ 0xDC00 ≤ v ∧ v < 0xE000 then 4 + byteLength rest
    else (if u < 0x80 then 1 else if u < 0x800 then 2 else 3) + byteLength (v :: rest)

section

variable {V : Type}

def streamChunkLength (objectMode : Bool) : Chunk V → Nat
  | .buffer bytes => if objectMode then 1 else bytes.length
  | .string units => if objectMode then 1 else byteLength units
  | .other _ => 1

/-- The part of a chunk that `read(size)` hands out, and the part it puts back. -/
def cutChunk (objectMode : Bool) (size : Nat) : Chunk V → Option (Chunk V × Chunk V)
  | .buffer bytes =>
    if !objectMode && decide (0 < size) && decide (size < bytes.length) then
      some (.buffer (bytes.take size), .buffer (bytes.drop size))
    else none
  | .string units =>
    if !objectMode && decide (0 < size) && decide (size < units.length) then
      some (.string (units.take size), .string (units.drop size))
    else none
  | .other _ => none

theorem cutChunk_zero (objectMode : Bool) (chunk : Chunk V) : cutChunk objectMode 0 chunk = none := by
  cases chunk <;> simp [cutChunk]

/-- `emittedChunk`, with `toString` for the encoding that is set. -/
def emittedChunk (toString : BufferEncoding → Bytes → List UInt16) (encoding : Option BufferEncoding) :
    Chunk V → Chunk V
  | .buffer bytes =>
    match encoding with
    | some e => .string (toString e bytes)
    | none => .buffer bytes
  | c => c

end

structure Readable (V : Type) where
  paused : Bool := true
  pending : List (Chunk V) := []
  pendingLength : Nat := 0
  endPending : Bool := false
  endEmitted : Bool := false
  endScheduled : Bool := false
  encoding : Option BufferEncoding := none
  autoDestroy : Bool := true
  destroyed : Bool := false
  closed : Bool := false
  errored : Option StreamError := none
  readable : Bool := true
  readableAborted : Bool := false
  readableDidRead : Bool := false
  readableEnded : Bool := false
  readableFlowing : Option Bool := none
  readableHighWaterMark : Nat
  readableObjectMode : Bool
  deriving DecidableEq

/-- What is seen of a stream: what it is given, what it emits, what its methods return. -/
inductive Event (V : Type)
  | pushed (chunk : Chunk V)
  | unshifted (chunk : Chunk V)
  | endPushed
  | encodingSet (encoding : BufferEncoding)
  -- `size` is the argument of the `read` that emits; the flowing mode has none
  | data (size : Option Nat) (chunk value : Chunk V)
  | readable
  | pause
  | resume
  | ended
  | error (error : StreamError)
  | close
  -- `_read(size)` is called
  | fetch (size : Nat)
  | readReturned (value : Option (Chunk V))
  | pushReturned (more : Bool)
  deriving DecidableEq

/-- What the method that is under way returns in the end. -/
inductive Return
  | nothing
  -- `push`, after its chunk was taken
  | length
  -- `push`, of the end or refused
  | refused
  deriving DecidableEq

/-- The points at which user code runs. -/
inductive Frame (V : Type)
  -- `push` in `emit('readable')`
  | pushed
  -- `pushEnd` in `emit('readable')`
  | endPushed (ret : Return)
  -- `drainFlowing` in `emit('data')`
  | draining (ret : Return)
  | paused
  | resumed
  -- `read` in `_read`
  | fetching
  -- `read` in `emit('data')`
  | reading (value : Chunk V)
  -- the microtask in `emit('end')`
  | ended (writableSideFinished : Bool)
  -- `errorOrDestroy` in `emit('error')`
  | errorEmitted (ret : Return)
  -- `destroy` in `_destroy`
  | destroying (ret : Return)
  -- the callback of `_destroy` in `emit('error')`
  | destroyError
  | closing
  deriving DecidableEq

inductive Call (V : Type)
  -- `none` is `null`
  | push (chunk : Option (Chunk V))
  | pushEnd
  | unshift (chunk : Option (Chunk V))
  | pause
  | resume
  -- a listener for `'data'` is added
  | onData
  | read (size : Nat)
  | setEncoding (encoding : BufferEncoding)
  | destroy (error : Option StreamError)
  | destroyed (error : Option StreamError)
  -- a microtask checkpoint; the answer of `writableSideFinished`, which `Duplex` overrides
  | checkpoint (writableSideFinished : Bool)
  deriving DecidableEq

namespace Readable

variable {V : Type} (toString : BufferEncoding → Bytes → List UInt16) (r : Readable V)

abbrev Result (V : Type) := Block (Readable V) (Frame V) (Event V)

/-- The method returns. -/
def returned (ret : Return) : Result V :=
  match ret with
  | .nothing => { state := r }
  | .length => { state := r, seen := [.pushReturned (decide (r.pendingLength < r.readableHighWaterMark))] }
  | .refused => { state := r, seen := [.pushReturned false] }

def maybeEmitEnd : Readable V :=
  if !r.endPending || !r.pending.isEmpty || r.endEmitted || r.endScheduled then r else { r with endScheduled := true }

def destroy (error : Option StreamError) (ret : Return) : Result V :=
  if r.destroyed then r.returned ret
  else
    { state := { r with destroyed := true, readableAborted := !r.readableEnded, readable := false, errored := error }
      frames := [.destroying ret] }

/-- The callback that `destroy` passes to `_destroy`. -/
def destroyCallback : Option StreamError → Result V
  | some e => { state := { r with errored := some e }, seen := [.error e], frames := [.destroyError] }
  | none => { state := { r with closed := true }, seen := [.close], frames := [.closing] }

def errorOrDestroy (error : StreamError) (ret : Return) : Result V :=
  if r.destroyed then r.returned ret
  else if r.autoDestroy then r.destroy (some error) ret
  else { state := { r with errored := some error }, seen := [.error error], frames := [.errorEmitted ret] }

/-- One round of the loop, up to its `emit('data')`, or what follows the loop. -/
def drainFlowing (ret : Return) : Result V :=
  match r.paused, r.pending with
  | false, chunk :: rest =>
    { state :=
        { r with
          pending := rest
          pendingLength := r.pendingLength - streamChunkLength r.readableObjectMode chunk
          readableDidRead := true }
      seen := [.data none chunk (emittedChunk toString r.encoding chunk)]
      frames := [.draining ret] }
  | _, _ => r.maybeEmitEnd.returned ret

def pause : Result V :=
  { state := { r with paused := true, readableFlowing := some false }, seen := [.pause], frames := [.paused] }

def resume : Result V :=
  if r.destroyed then { state := r }
  else { state := { r with paused := false, readableFlowing := some true }, seen := [.resume], frames := [.resumed] }

/-- `newListenerAdded('data')` -/
def newListenerAdded : Result V := if r.readableFlowing = some false then { state := r } else r.resume

def pushEnd (ret : Return) : Result V :=
  if r.destroyed || r.endPending then r.returned ret
  else { state := { r with endPending := true }, seen := [.endPushed, .readable], frames := [.endPushed ret] }

def push (chunk : Option (Chunk V)) : Result V :=
  if r.destroyed then r.returned .refused
  else if r.endPending then
    match chunk with
    | some _ => r.errorOrDestroy .pushAfterEof .refused
    | none => r.returned .refused
  else
    match chunk with
    | none => r.pushEnd .refused
    | some chunk =>
      { state :=
          { r with
            pending := r.pending ++ [chunk]
            pendingLength := r.pendingLength + streamChunkLength r.readableObjectMode chunk }
        seen := [.pushed chunk, .readable]
        frames := [.pushed] }

def unshift (chunk : Option (Chunk V)) : Result V :=
  match chunk with
  | none => { state := r }
  | some chunk =>
    if r.destroyed then { state := r }
    else
      { state :=
          { r with
            pending := chunk :: r.pending
            pendingLength := r.pendingLength + streamChunkLength r.readableObjectMode chunk }
        seen := [.unshifted chunk] }

/-- `read`, once the chunk it hands out is off `pending_`. -/
def readChunk (size : Nat) (chunk : Chunk V) (rest : List (Chunk V)) : Result V :=
  { state :=
      { r with
        pending := rest
        pendingLength := r.pendingLength - streamChunkLength r.readableObjectMode chunk
        readableDidRead := true }
    seen := [.data (some size) chunk (emittedChunk toString r.encoding chunk)]
    frames := [.reading (emittedChunk toString r.encoding chunk)] }

def read (size : Nat) : Result V :=
  match r.pending with
  | [] => { state := r, seen := [.fetch (if 0 < size then size else r.readableHighWaterMark)], frames := [.fetching] }
  | chunk :: rest =>
    match cutChunk r.readableObjectMode size chunk with
    | some (part, left) => r.readChunk toString size part (left :: rest)
    | none => r.readChunk toString size chunk rest

/-- The microtask of `maybeEmitEnd`, when it is queued. -/
def checkpoint (writableSideFinished : Bool) : Result V :=
  if !r.endScheduled then { state := r }
  else if r.endEmitted || r.destroyed || r.errored.isSome || !r.pending.isEmpty then
    { state := { r with endScheduled := false } }
  else
    { state := { r with endScheduled := false, endEmitted := true, readableEnded := true, readable := false }
      seen := [.ended]
      frames := [.ended writableSideFinished] }

def call : Call V → Option (Result V)
  | .push chunk => some (r.push chunk)
  | .pushEnd => some (r.pushEnd .nothing)
  | .unshift chunk => some (r.unshift chunk)
  | .pause => some r.pause
  | .resume => some r.resume
  | .onData => some r.newListenerAdded
  | .read size => some (r.read toString size)
  | .setEncoding encoding => some { state := { r with encoding := some encoding }, seen := [.encodingSet encoding] }
  | .destroy error => some (r.destroy error .nothing)
  | .destroyed error => if r.destroyed then some (r.destroyCallback error) else none
  | .checkpoint writableSideFinished => some (r.checkpoint writableSideFinished)

/-- What a method does when the handlers it waits for are done. -/
def goOn : Frame V → Result V
  | .pushed => if r.paused then r.returned .length else r.drainFlowing toString .length
  | .endPushed ret => if r.paused then r.returned ret else r.maybeEmitEnd.returned ret
  | .draining ret => r.drainFlowing toString ret
  | .resumed => r.drainFlowing toString .nothing
  | .fetching => { state := r.maybeEmitEnd, seen := [.readReturned none] }
  | .reading value => { state := r.maybeEmitEnd, seen := [.readReturned (some value)] }
  | .ended writableSideFinished => if r.autoDestroy && writableSideFinished then r.destroy none .nothing else { state := r }
  | .errorEmitted ret => r.returned ret
  | .destroying ret => r.returned ret
  | .destroyError => { state := { r with closed := true }, seen := [.close], frames := [.closing] }
  | .paused => { state := r }
  | .closing => { state := r }

/-- The stream and the code that uses it. -/
def program : Reentrant (Readable V) (Call V) (Frame V) (Event V) where
  call := call toString
  resume := goOn toString
  task
    | .checkpoint _ => true
    | _ => false

/-- The constructor. -/
def create (objectMode : Bool) (highWaterMark : Nat) (autoDestroy : Bool) (encoding : Option BufferEncoding) :
    Config (Readable V) (Frame V) (Event V) where
  state := { autoDestroy, encoding, readableHighWaterMark := highWaterMark, readableObjectMode := objectMode }

end Readable

end NodeCompat.Stream
