import NodeCompat.Stream.Readable

/-!
# The writable side of `node:stream`

`Writable` and the writable half of `Duplex` are the same code written twice, but for two places: `uncork` takes the queue
before the flush in one and empties it after the flush in the other, and a finished `Duplex` is destroyed only when its
readable side has ended, too. The definitions here are shared; `Kind` says which class they stand for where it matters.

User code runs in `_write` (with the `'data'` handlers a `Duplex` calls from there), in the callbacks of `write`, in
`'drain'` and in `_final`. The callback that `_write` and `_final` are given is called by a move of its own, at once or
later, at most once. The callbacks of `end` and the events `'finish'`, `'error'` and `'close'` are seen only, and `_destroy`
is the inherited one.
-/

namespace NodeCompat.Stream

inductive Kind
  | writable | duplex
  deriving DecidableEq

inductive WritableError
  -- `ERR_STREAM_WRITE_AFTER_END`
  | writeAfterEnd
  -- `ERR_STREAM_DESTROYED`, of `write` and of `end`
  | writeDestroyed
  | endDestroyed
  -- `ERR_STREAM_ALREADY_FINISHED`
  | endFinished
  | given (id : Nat)
  deriving DecidableEq

/-- The encoding `_write` is given: `'buffer'` for a string that was decoded. -/
inductive WriteEncoding
  | buffer
  | named (encoding : BufferEncoding)
  deriving DecidableEq

/-- An accepted chunk: `id` counts them, `callback` says whether `write` was given one. -/
structure Entry (V : Type) where
  id : Nat
  chunk : Chunk V
  encoding : WriteEncoding
  callback : Bool
  deriving DecidableEq

/-- What an outstanding `_write` has in its callback; no entry when it was called with `undefined`. -/
structure Outstanding (V : Type) where
  call : Nat
  entry : Option (Entry V)
  length : Nat
  deriving DecidableEq

structure WritableCore (V : Type) where
  writableCorked : Nat := 0
  writableLength : Nat := 0
  writableNeedDrain : Bool := false
  writableEnded : Bool := false
  writableFinished : Bool := false
  writesInFlight : Nat := 0
  finalPending : Bool := false
  autoDestroy : Bool := true
  decodeStrings : Bool := true
  defaultEncoding : BufferEncoding := .utf8
  writableHighWaterMark : Nat
  writableObjectMode : Bool
  accepted : Nat := 0
  -- how many times `_write` was called
  calls : Nat := 0
  outstanding : List (Outstanding V) := []
  -- `_final` was called and has not called back
  finalOutstanding : Bool := false
  deriving DecidableEq

structure Lifetime where
  destroyed : Bool := false
  closed : Bool := false
  errored : Option WritableError := none
  finishCallbacks : List Nat := []
  deriving DecidableEq

structure Writable (V : Type) extends WritableCore V, Lifetime where
  -- `writeQueue_`, `writeEncodingQueue_` and `writeCallbackQueue_`
  writeQueue : List (Entry V) := []
  -- of the readable side of a `Duplex`
  readableEnded : Bool := false
  deriving DecidableEq

namespace Writable

inductive Event (V : Type)
  | accepted (id : Nat)
  -- `_write` is called; with `undefined` when there is no entry
  | write (entry : Option (Entry V))
  -- the callback of `write` is called; `id` when its chunk was accepted
  | writeCallback (id : Option Nat) (error : Option WritableError)
  | writeReturned (accepted : Bool)
  | drain
  | final
  | finish
  | endCallback (callback : Nat) (error : Option WritableError)
  | error (error : WritableError)
  | close
  deriving DecidableEq

/-- The rest of an `end` that waits for a `write` or `uncork` of its own. -/
structure EndRest where
  done : Option Nat
  rejected : Option WritableError
  deriving DecidableEq

/-- The rest of a flush: the entries that `Writable` has taken off, or the place in the queue of a `Duplex`. -/
inductive Flush (V : Type)
  | taken (rest : List (Entry V))
  | indexed (index queued : Nat)
  deriving DecidableEq

/-- The points at which user code runs. -/
inductive Frame (V : Type)
  -- `_write`, called by `write`
  | writing (rest : Option EndRest)
  -- `_write`, called by `uncork`
  | flushing (flush : Flush V) (rest : Option EndRest)
  -- the callback of a `write` that is refused
  | refusing (error : WritableError)
  -- the callback of a `write` whose `_write` has called back
  | completing (error : Option WritableError)
  | draining
  | final
  deriving DecidableEq

inductive Call (V : Type)
  | cork
  | uncork
  | write (chunk : Chunk V) (encoding : Option BufferEncoding) (callback : Bool)
  | callEnd (chunk : Option (Chunk V)) (encoding : Option BufferEncoding) (done : Option Nat)
  | destroy (error : Option WritableError)
  | setDefaultEncoding (encoding : BufferEncoding)
  | written (call : Nat) (error : Option WritableError)
  | finalized (error : Option WritableError)
  -- the readable side of a `Duplex` ends
  | readableEnd
  deriving DecidableEq

variable {V : Type} (ofString : BufferEncoding → List UInt16 → Bytes) (kind : Kind) (w : Writable V)

abbrev Result (V : Type) := Block (Writable V) (Frame V) (Event V)

def settleFinish (error : Option WritableError) : Writable V × List (Event V) :=
  ({ w with finishCallbacks := [] }, w.finishCallbacks.map (fun callback => .endCallback callback error))

def awaitFinish (done : Option Nat) : Writable V :=
  match done with
  | some callback => { w with finishCallbacks := w.finishCallbacks ++ [callback] }
  | none => w

/-- `destroy`, with the `_destroy` that calls back at once. -/
def destroy (error : Option WritableError) : Writable V × List (Event V) :=
  if w.destroyed then (w, [])
  else
    let settled := w.settleFinish ((error <|> w.errored) <|> some .endDestroyed)
    let events : List (Event V) := match error with
      | some e => [.error e, .close]
      | none => [.close]
    ({ settled.1 with destroyed := true, closed := true, errored := error }, settled.2 ++ events)

def errorOrDestroy (error : WritableError) : Writable V × List (Event V) :=
  if w.destroyed then (w, [])
  else if w.autoDestroy then w.destroy (some error)
  else ({ w with errored := some error }, [.error error])

/-- `performWrite`, up to the call of `_write`; `frame` goes on when that has returned. -/
def performWrite (entry : Option (Entry V)) (frame : Frame V) : Result V :=
  let length := match entry with
    | some e => streamChunkLength w.writableObjectMode e.chunk
    | none => 1
  { state :=
      { w with
        writableLength := w.writableLength + length
        writesInFlight := w.writesInFlight + 1
        calls := w.calls + 1
        outstanding := w.outstanding ++ [⟨w.calls, entry, length⟩] }
    seen := [.write entry]
    frames := [frame] }

def callFinal : Result V :=
  let w := { w with finalPending := false }
  if w.destroyed then { state := w }
  else { state := { w with finalOutstanding := true }, seen := [.final], frames := [.final] }

/-- The first `end`. -/
def firstEnd (done : Option Nat) : Result V :=
  let w := ({ w with writableEnded := true }).awaitFinish done
  if w.destroyed then { state := w }
  else if 0 < w.writesInFlight then { state := { w with finalPending := true } }
  else w.callFinal

/-- `end`, once its chunk is written and the stream is uncorked. -/
def endRest (rest : EndRest) : Result V :=
  let answer (error : WritableError) : Result V :=
    { state := w, seen := (rest.done.map (fun callback => .endCallback callback (some error))).toList }
  match rest.rejected with
  | some error => answer error
  | none =>
    if w.errored = none ∧ w.writableEnded = false then w.firstEnd rest.done
    else if w.writableFinished then answer .endFinished
    else if w.destroyed then answer .endDestroyed
    else
      match w.errored with
      | some error => answer error
      | none => { state := w.awaitFinish rest.done }

/-- `uncork` of a `Writable`, when nothing is corked any more: the queue is taken off before the flush. -/
def takeQueue (rest : Option EndRest) : Result V :=
  let queue := w.writeQueue
  let w := { w with writableLength := 0, writeQueue := [] }
  match queue, rest with
  | entry :: queue, _ => w.performWrite (some entry) (.flushing (.taken queue) rest)
  | [], some rest => w.endRest rest
  | [], none => { state := w }

/-- `uncork` of a `Duplex`: the queue is emptied after the flush. -/
def walkQueue (rest : Option EndRest) : Result V :=
  let queued := w.writeQueue.length
  let w := { w with writableLength := 0 }
  if 0 < queued then w.performWrite w.writeQueue[0]? (.flushing (.indexed 1 queued) rest)
  else
    let w := { w with writeQueue := [] }
    match rest with
    | some rest => w.endRest rest
    | none => { state := w }

def flush (rest : Option EndRest) : Result V :=
  match kind with
  | .writable => w.takeQueue rest
  | .duplex => w.walkQueue rest

def uncork : Result V :=
  if w.writableCorked = 0 then { state := w }
  else
    let w := { w with writableCorked := w.writableCorked - 1 }
    if w.writableCorked ≠ 0 then { state := w } else w.flush kind none

/-- `while (this.writableCorked > 0) this.uncork()`, and the rest of `end`. -/
def uncorkAll (rest : EndRest) : Result V :=
  if w.writableCorked = 0 then w.endRest rest else ({ w with writableCorked := 0 }).flush kind (some rest)

/-- `write`, after the chunk was queued or written. -/
def writeRest (rest : Option EndRest) : Result V :=
  let accepted := decide (w.writableLength < w.writableHighWaterMark)
  let w := if accepted then w else { w with writableNeedDrain := true }
  match rest with
  | none => { state := w, seen := [.writeReturned accepted] }
  | some rest => w.uncorkAll kind rest

/-- The chunk as it is written, with its encoding. -/
def decodeChunk (chunk : Chunk V) (encoding : Option BufferEncoding) : Chunk V × WriteEncoding :=
  let encoding := encoding.getD w.defaultEncoding
  match chunk with
  | .string units =>
    if w.decodeStrings && !w.writableObjectMode then (.buffer (ofString encoding units), .buffer)
    else (.string units, .named encoding)
  | chunk => (chunk, .named encoding)

/-- The error with which `rejectWrite` refuses. -/
def rejectWrite : Option WritableError :=
  if !w.writableEnded && !w.destroyed then none
  else if w.writableEnded then some .writeAfterEnd
  else some .writeDestroyed

/-- `write` of a chunk that is not refused. -/
def acceptWrite (chunk : Chunk V) (encoding : Option BufferEncoding) (callback : Bool) (rest : Option EndRest) : Result V :=
  let decoded := w.decodeChunk ofString chunk encoding
  let entry : Entry V := ⟨w.accepted, decoded.1, decoded.2, callback⟩
  let w := { w with accepted := w.accepted + 1 }
  let b :=
    if 0 < w.writableCorked then
      let length := streamChunkLength w.writableObjectMode entry.chunk
      ({ w with writeQueue := w.writeQueue ++ [entry], writableLength := w.writableLength + length }).writeRest kind rest
    else w.performWrite (some entry) (.writing rest)
  { b with seen := .accepted entry.id :: b.seen }

/-- The rest of a refused `write`. -/
def refused (error : WritableError) : Result V :=
  let erred := w.errorOrDestroy error
  { state := erred.1, seen := erred.2 ++ [.writeReturned false] }

def write (chunk : Chunk V) (encoding : Option BufferEncoding) (callback : Bool) : Result V :=
  match w.rejectWrite with
  | some error =>
    if callback then { state := w, seen := [.writeCallback none (some error)], frames := [.refusing error] }
    else w.refused error
  | none => w.acceptWrite ofString kind chunk encoding callback none

/-- `end` -/
def callEnd (chunk : Option (Chunk V)) (encoding : Option BufferEncoding) (done : Option Nat) : Result V :=
  match chunk with
  | none => w.uncorkAll kind ⟨done, none⟩
  | some chunk =>
    match w.rejectWrite with
    | some error =>
      let erred := w.errorOrDestroy error
      let b := erred.1.uncorkAll kind ⟨done, some error⟩
      { b with seen := erred.2 ++ b.seen }
    | none => w.acceptWrite ofString kind chunk encoding false (some ⟨done, none⟩)

/-- The callback of `_write`, once the callback of `write` has returned. -/
def completed (error : Option WritableError) : Result V :=
  match error with
  | some error =>
    let erred := w.errorOrDestroy error
    { state := erred.1, seen := erred.2 }
  | none =>
    if w.writableNeedDrain && decide (w.writableLength < w.writableHighWaterMark) then
      { state := { w with writableNeedDrain := false }, seen := [.drain], frames := [.draining] }
    else if w.finalPending && w.writesInFlight == 0 then w.callFinal
    else { state := w }

/-- The callback of `_write`, for the outstanding call `o`. -/
def written (o : Outstanding V) (error : Option WritableError) : Result V :=
  let w :=
    { w with
      outstanding := w.outstanding.filter (fun o' => o'.call != o.call)
      writesInFlight := w.writesInFlight - 1
      writableLength := w.writableLength - o.length }
  match o.entry with
  | some ⟨id, _, _, true⟩ => { state := w, seen := [.writeCallback (some id) error], frames := [.completing error] }
  | _ => w.completed error

/-- The callback of `_final`. -/
def finalized (error : Option WritableError) : Result V :=
  let w := { w with finalOutstanding := false }
  match error with
  | some error =>
    let settled := w.settleFinish (some error)
    let erred := settled.1.errorOrDestroy error
    { state := erred.1, seen := settled.2 ++ erred.2 }
  | none =>
    let settled := ({ w with writableFinished := true }).settleFinish none
    let ends := match kind with
      | .writable => w.autoDestroy
      | .duplex => w.autoDestroy && w.readableEnded
    let gone := if ends then settled.1.destroy none else (settled.1, [])
    { state := gone.1, seen := settled.2 ++ .finish :: gone.2 }

def call : Call V → Option (Result V)
  | .cork => some { state := { w with writableCorked := w.writableCorked + 1 } }
  | .uncork => some (w.uncork kind)
  | .write chunk encoding callback => some (w.write ofString kind chunk encoding callback)
  | .callEnd chunk encoding done => some (w.callEnd ofString kind chunk encoding done)
  | .destroy error =>
    let gone := w.destroy error
    some { state := gone.1, seen := gone.2 }
  | .setDefaultEncoding encoding => some { state := { w with defaultEncoding := encoding } }
  | .written n error => (w.outstanding.find? (fun o => o.call == n)).map (fun o => w.written o error)
  | .finalized error => if w.finalOutstanding then some (w.finalized kind error) else none
  | .readableEnd => some { state := { w with readableEnded := true } }

/-- What a method does when the user code it waits for is done. -/
def goOn : Frame V → Result V
  | .writing rest => w.writeRest kind rest
  | .flushing (.taken (entry :: queue)) rest => w.performWrite (some entry) (.flushing (.taken queue) rest)
  | .flushing (.taken []) (some rest) => w.uncorkAll kind rest
  | .flushing (.taken []) none => { state := w }
  | .flushing (.indexed index queued) rest =>
    if index < queued then w.performWrite w.writeQueue[index]? (.flushing (.indexed (index + 1) queued) rest)
    else
      let w := { w with writeQueue := [] }
      match rest with
      | some rest => w.uncorkAll kind rest
      | none => { state := w }
  | .refusing error => w.refused error
  | .completing error => w.completed error
  | .draining => if w.finalPending && w.writesInFlight == 0 then w.callFinal else { state := w }
  | .final => { state := w }

def program : Reentrant (Writable V) (Call V) (Frame V) (Event V) where
  call := call ofString kind
  resume := goOn kind
  task _ := false

/-- The constructor. -/
def create (objectMode : Bool) (highWaterMark : Nat) (autoDestroy decodeStrings : Bool)
    (defaultEncoding : BufferEncoding) : Config (Writable V) (Frame V) (Event V) where
  state :=
    { autoDestroy, decodeStrings, defaultEncoding, writableHighWaterMark := highWaterMark,
      writableObjectMode := objectMode }

end Writable

end NodeCompat.Stream
