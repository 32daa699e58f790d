import NodeCompat.Stream.Writable

/-!
# `duplexPair`

Two `Duplex`es, each of which is the other's peer. `_write` pushes the chunk to the peer and then calls back; `_final` calls
back at once and leaves the peer alone. The halves of a side are the `Readable` and the `Writable` of before; user code runs
where it does in these.

Both sides are written to, ended and read from; nobody pushes to one, corks it or destroys it.
-/

namespace NodeCompat.Stream

inductive Side
  | first | second
  deriving DecidableEq

def Side.peer : Side → Side
  | .first => .second
  | .second => .first

/-- A `Duplex`: `destroyed`, `closed` and `readableEnded` are one field of both halves. -/
structure Duplex (V : Type) where
  readable : Readable V
  writable : Writable V
  deriving DecidableEq

namespace Duplex

variable {V : Type} (d : Duplex V)

def setReadable (r : Readable V) : Duplex V :=
  { readable := r, writable := { d.writable with readableEnded := r.readableEnded } }

def setWritable (w : Writable V) : Duplex V :=
  { readable := { d.readable with destroyed := w.destroyed, closed := w.closed }, writable := w }

/-- The constructor. -/
def create (objectMode : Bool) (highWaterMark : Nat) (autoDestroy decodeStrings : Bool) (defaultEncoding : BufferEncoding)
    (encoding : Option BufferEncoding) : Duplex V where
  readable := (Readable.create objectMode highWaterMark autoDestroy encoding : Config (Readable V) _ _).state
  writable := (Writable.create objectMode highWaterMark autoDestroy decodeStrings defaultEncoding : Config (Writable V) _ _).state

end Duplex

structure DuplexPair (V : Type) where
  first : Duplex V
  second : Duplex V
  deriving DecidableEq

namespace DuplexPair

/-- The points at which user code runs. -/
inductive Frame (V : Type)
  | readable (side : Side) (frame : Stream.Frame V)
  | writable (side : Side) (frame : Writable.Frame V)
  -- `_write` in `push` of the peer
  | pushing (side : Side) (call : Nat)
  deriving DecidableEq

inductive Event (V : Type)
  | readable (side : Side) (event : Stream.Event V)
  | writable (side : Side) (event : Writable.Event V)
  deriving DecidableEq

inductive Call (V : Type)
  | write (side : Side) (chunk : Chunk V) (encoding : Option BufferEncoding) (callback : Bool)
  | callEnd (side : Side) (chunk : Option (Chunk V)) (encoding : Option BufferEncoding) (done : Option Nat)
  | pause (side : Side)
  | resume (side : Side)
  | onData (side : Side)
  | read (side : Side)
  | setEncoding (side : Side) (encoding : BufferEncoding)
  -- a microtask checkpoint, as far as it concerns the side
  | checkpoint (side : Side)
  deriving DecidableEq

variable {V : Type} (toString : BufferEncoding → Bytes → List UInt16) (ofString : BufferEncoding → List UInt16 → Bytes)
  (p : DuplexPair V)

abbrev Result (V : Type) := Block (DuplexPair V) (Frame V) (Event V)

def side : Side → Duplex V
  | .first => p.first
  | .second => p.second

def setSide (s : Side) (d : Duplex V) : DuplexPair V :=
  match s with
  | .first => { p with first := d }
  | .second => { p with second := d }

/-- A block of a readable half. -/
def liftReadable (s : Side) (b : Readable.Result V) : Result V :=
  { state := p.setSide s ((p.side s).setReadable b.state)
    seen := b.seen.map (Event.readable s)
    frames := b.frames.map (Frame.readable s) }

/-- A block of a writable half, up to a call of `_write` or `_final`, and what these do. -/
def liftWritable (s : Side) (b : Writable.Result V) : Result V :=
  let q := p.setSide s ((p.side s).setWritable b.state)
  let seen := b.seen.map (Event.writable s)
  let frames := b.frames.map (Frame.writable s)
  match b.seen.getLast? with
  | some (.write (some entry)) =>
    let push := q.liftReadable s.peer ((q.side s.peer).readable.push (some entry.chunk))
    { push with seen := seen ++ push.seen, frames := push.frames ++ .pushing s (b.state.calls - 1) :: frames }
  | some .final =>
    let b := b.state.finalized .duplex none
    { state := q.setSide s ((q.side s).setWritable b.state)
      seen := seen ++ b.seen.map (Event.writable s)
      frames := b.frames.map (Frame.writable s) ++ frames }
  | _ => { state := q, seen, frames }

def call : Call V → Option (Result V)
  | .write s chunk encoding callback =>
    some (p.liftWritable s ((p.side s).writable.write ofString .duplex chunk encoding callback))
  | .callEnd s chunk encoding done => some (p.liftWritable s ((p.side s).writable.callEnd ofString .duplex chunk encoding done))
  | .pause s => some (p.liftReadable s (p.side s).readable.pause)
  | .resume s => some (p.liftReadable s (p.side s).readable.resume)
  | .onData s => some (p.liftReadable s (p.side s).readable.newListenerAdded)
  | .read s => some (p.liftReadable s ((p.side s).readable.read toString 0))
  | .setEncoding s encoding => ((p.side s).readable.call toString (.setEncoding encoding)).map (p.liftReadable s)
  | .checkpoint s => some (p.liftReadable s ((p.side s).readable.checkpoint (p.side s).writable.writableFinished))

/-- What a method does when the user code it waits for is done. -/
def goOn : Frame V → Result V
  | .readable s f => p.liftReadable s ((p.side s).readable.goOn toString f)
  | .writable s f => p.liftWritable s ((p.side s).writable.goOn .duplex f)
  | .pushing s n =>
    match (p.side s).writable.outstanding.find? (fun o => o.call == n) with
    | some o => p.liftWritable s ((p.side s).writable.written o none)
    | none => { state := p }

/-- The pair and the code that uses it. -/
def program : Reentrant (DuplexPair V) (Call V) (Frame V) (Event V) where
  call := call toString ofString
  resume := goOn toString
  task
    | .checkpoint _ => true
    | _ => false

/-- `duplexPair(options)` -/
def create (objectMode : Bool) (highWaterMark : Nat) (autoDestroy decodeStrings : Bool) (defaultEncoding : BufferEncoding)
    (encoding : Option BufferEncoding) : Config (DuplexPair V) (Frame V) (Event V) where
  state :=
    { first := .create objectMode highWaterMark autoDestroy decodeStrings defaultEncoding encoding
      second := .create objectMode highWaterMark autoDestroy decodeStrings defaultEncoding encoding }

end DuplexPair

end NodeCompat.Stream
