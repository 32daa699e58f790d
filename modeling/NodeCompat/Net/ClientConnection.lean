import NodeCompat.Bytes
import NodeCompat.Lib.Run

/-!
# The native TCP connection of node:net

`ClientConnection` with its flags, its two queues (`events`, `chunks`) and its output buffer. What the kernel answers to
`send`, `recv` and the socket-error option is part of the label of a step, so a run covers every order of partial
sends, interrupted calls and errors. `step` takes the connection from one point where TypeScript can run to the next:
`onReady` stops where it calls `notify_`, and `notified` is the return of that callback, so that every other call may
stand in between.

The `History` is not in the C++: it records what was pushed, sent, written and received.
-/

namespace NodeCompat.Net

/-- `ClientEvent`; `ended` is its `end`. -/
inductive ClientEvent
  | connect | data | error | close | drain | finish | ended
  deriving DecidableEq

/-- The system call an error names. -/
inductive Syscall
  | connect | read | write
  deriving DecidableEq

/-- What `send` returns: a count (`0` included) or an `errno`. -/
inductive SendResult
  | count (n : Nat) | eintr | eagain | errno (e : Nat)
  deriving DecidableEq

/-- What `recv` returns: the bytes it filled in (none when the peer has shut down) or an `errno`. -/
inductive RecvResult
  | bytes (b : Bytes) | eintr | eagain | errno (e : Nat)
  deriving DecidableEq

/-- Readiness bits of `poll`. -/
structure Revents where
  pollIn : Bool := false
  pollOut : Bool := false
  pollErr : Bool := false
  pollHup : Bool := false
  pollNval : Bool := false
  deriving DecidableEq

/-- The kernel's answers during one readiness pass. -/
structure Answers where
  -- `SO_ERROR` (or `errno` when it cannot be read) as `completeConnect` sees it, `0` for none
  connectError : Nat := 0
  sends : List SendResult := []
  recvs : List RecvResult := []
  -- `SO_ERROR` as the `POLLERR` branch sees it
  socketError : Nat := 0
  deriving DecidableEq

def epipe : Nat := 32
def eio : Nat := 5

/-- The buffer of `readAvailable`. -/
def recvSize : Nat := 65536

structure History where
  pushed : List ClientEvent := []
  taken : List ClientEvent := []
  -- data of the `write` calls that were not refused
  written : Bytes := []
  sent : Bytes := []
  received : Bytes := []
  read : List Bytes := []
  deriving DecidableEq

structure ClientConnection extends History where
  notify : Bool := true
  initialError : Nat := 0
  connecting : Bool := true
  connected : Bool := false
  closing : Bool := false
  paused : Bool := false
  referenced : Bool := true
  endRequested : Bool := false
  finishEmitted : Bool := false
  peerEnded : Bool := false
  events : List ClientEvent := []
  chunks : List Bytes := []
  errorNumber : Nat := 0
  errorSyscall : Option Syscall := none
  outBuffer : Bytes := []
  outSent : Nat := 0
  -- `loop_.close(this)` was called
  loopClosed : Bool := false
  -- microtasks queued by `notifySoon`
  soon : Nat := 0
  -- `notify_` callbacks of `deliverPending` that are running
  callbacks : Nat := 0
  deriving DecidableEq

namespace ClientConnection

/-- The constructor. -/
def create (notify : Bool) (initialError : Nat) (initiallyConnected : Bool) : ClientConnection :=
  { notify, initialError, connecting := !initiallyConnected, connected := initiallyConnected }

variable (c : ClientConnection)

def interestedIn : Bool := !c.connecting && !(c.paused || c.peerEnded)

def interestedOut : Bool := c.connecting || decide (c.outSent < c.outBuffer.length)

/-- The loop reports nothing that was not asked for, errors and hang-ups apart. -/
def interestedEvents (r : Revents) : Bool := (!r.pollIn || c.interestedIn) && (!r.pollOut || c.interestedOut)

def push (e : ClientEvent) : ClientConnection := { c with events := c.events ++ [e], pushed := c.pushed ++ [e] }

def fail (error : Nat) (syscall : Syscall) : ClientConnection :=
  if c.closing then c
  else { (({ c with errorNumber := error, errorSyscall := some syscall }).push .error).push .close with closing := true }

def finishWriteSideIfReady : ClientConnection :=
  if !c.connected || !c.endRequested || c.finishEmitted || decide (c.outSent < c.outBuffer.length) then c
  else
    let c := ({ c with finishEmitted := true }).push .finish
    if c.peerEnded then { c.push .close with closing := true } else c

def completeConnect (socketError : Nat) : ClientConnection :=
  let error := if c.initialError = 0 then socketError else c.initialError
  let c := { c with connecting := false }
  if error ≠ 0 then c.fail error .connect
  else (({ c with connected := true }).push .connect).finishWriteSideIfReady

/-- The end of `flushWrites`, with nothing left to send. -/
def flushed : ClientConnection :=
  let c := if c.outBuffer.isEmpty then c else c.push .drain
  ({ c with outBuffer := [], outSent := 0 }).finishWriteSideIfReady

/-- `send` took `n` more bytes. -/
def accept (n : Nat) : ClientConnection :=
  { c with outSent := c.outSent + n, sent := c.sent ++ (c.outBuffer.drop c.outSent).take n }

/-- `flushWrites` with the connection it leaves and what it returns. `none`: the calls it makes are not all answered, or
`send` claims more than it was given. -/
def flushWrites : ClientConnection → List SendResult → Option (ClientConnection × Bool)
  | c, [] => if c.outSent < c.outBuffer.length then none else some (c.flushed, true)
  | c, r :: rs =>
    if c.outSent < c.outBuffer.length then
      match r with
      | .count 0 => some (c.fail epipe .write, false)
      | .count (n + 1) => if c.outSent + (n + 1) ≤ c.outBuffer.length then (c.accept (n + 1)).flushWrites rs else none
      | .eintr => c.flushWrites rs
      | .eagain => some (c, true)
      | .errno e => some (c.fail e .write, false)
    else some (c.flushed, true)

def closeFromPeer : ClientConnection :=
  if c.closing || c.peerEnded then c
  else
    let c := ({ c with peerEnded := true }).push .ended
    if c.finishEmitted then { c.push .close with closing := true } else c

/-- `recv` filled in `b`. -/
def receive (b : Bytes) : ClientConnection :=
  ({ c with chunks := c.chunks ++ [b], received := c.received ++ b }).push .data

def readAvailable : ClientConnection → List RecvResult → Option ClientConnection
  | _, [] => none
  | c, .bytes b :: rs =>
    if b = [] then some c.closeFromPeer
    else if b.length < recvSize then some (c.receive b)
    else if b.length = recvSize then (c.receive b).readAvailable rs
    else none
  | c, .eintr :: rs => c.readAvailable rs
  | c, .eagain :: _ => some c
  | c, .errno e :: _ => some (c.fail e .read)

def loopClose : ClientConnection := { c with loopClosed := true }

def notifySoon : ClientConnection := if c.notify then { c with soon := c.soon + 1 } else c

/-- `onReady` on `POLLOUT`. -/
def sendReady (r : Revents) (sends : List SendResult) : Option ClientConnection :=
  if !c.closing && c.connected && r.pollOut then (c.flushWrites sends).map Prod.fst else some c

/-- `onReady` on `POLLIN`. -/
def recvReady (r : Revents) (recvs : List RecvResult) : Option ClientConnection :=
  if !c.closing && c.connected && r.pollIn then c.readAvailable recvs else some c

/-- The error and hang-up bits. -/
def hangUp (r : Revents) (a : Answers) : ClientConnection :=
  if !c.closing && (r.pollErr || r.pollNval) then c.fail (if a.socketError = 0 then eio else a.socketError) .read
  else if !c.closing && r.pollHup then c.closeFromPeer
  else c

/-- `deliverPending` up to the `notify_` callback, or the end of `onReady` when there is nothing to deliver. -/
def deliver : ClientConnection :=
  if !c.events.isEmpty && c.notify then { c with callbacks := c.callbacks + 1 }
  else if c.closing then c.loopClose
  else c

/-- `onReady` up to the callback. -/
def onReady (r : Revents) (a : Answers) : Option ClientConnection :=
  if c.closing then some c
  else
    let c := if c.connecting then c.completeConnect a.connectError else c
    (c.sendReady r a.sends).bind (fun c => (c.recvReady r a.recvs).map (fun c => (c.hangUp r a).deliver))

/-- The rest of `onReady`, after the callback. -/
def notified : ClientConnection :=
  let c := { c with callbacks := c.callbacks - 1 }
  if c.closing then c.loopClose else c

def nextEvent : ClientConnection :=
  match c.events with
  | [] => c
  | e :: es => { c with events := es, taken := c.taken ++ [e] }

def readChunk : ClientConnection :=
  match c.chunks with
  | [] => c
  | b :: bs => { c with chunks := bs, read := c.read ++ [b] }

def write (data : Bytes) (sends : List SendResult) : Option ClientConnection :=
  if c.closing || c.endRequested then some c
  else
    let c := { c with outBuffer := c.outBuffer ++ data, written := c.written ++ data }
    if c.connected then (c.flushWrites sends).map (fun (c, ok) =>
        if !ok then (if c.closing then c.notifySoon.loopClose else c.notifySoon)
        else if !c.events.isEmpty then c.notifySoon
        else c)
    else some c

def endWrites : ClientConnection :=
  if c.closing || c.endRequested then c
  else
    let c := ({ c with endRequested := true }).finishWriteSideIfReady
    if !c.events.isEmpty then c.notifySoon else c

/-- `destroy`, and `resetAndDestroy` apart from the socket option it sets. -/
def destroy : ClientConnection :=
  if c.closing then c else ({ c with closing := true }).loopClose

def setNotify : ClientConnection :=
  let c := { c with notify := true }
  if !c.events.isEmpty then c.notifySoon else c

end ClientConnection

/-- What runs next: the loop, a callback's return, a microtask, or a call from TypeScript. -/
inductive Label
  | ready (r : Revents) (a : Answers)
  | notified
  | microtask
  | nextEvent
  | readChunk
  | write (data : Bytes) (sends : List SendResult)
  | endWrites
  | destroy
  | setPaused (paused : Bool)
  | setReferenced (referenced : Bool)
  | setNotify
  deriving DecidableEq

open ClientConnection in
/-- One step. The consumer asks for a chunk once for each `data` event it has taken. -/
def step (c : ClientConnection) : Label → Option ClientConnection
  | .ready r a => if c.interestedEvents r then c.onReady r a else none
  | .notified => if 0 < c.callbacks then some c.notified else none
  | .microtask => if 0 < c.soon then some { c with soon := c.soon - 1 } else none
  | .nextEvent => some c.nextEvent
  | .readChunk => if c.read.length < c.taken.count .data then some c.readChunk else none
  | .write data sends => c.write data sends
  | .endWrites => some c.endWrites
  | .destroy => some c.destroy
  | .setPaused paused => some { c with paused }
  | .setReferenced referenced => some { c with referenced }
  | .setNotify => some c.setNotify

/-! ## The loops -/

namespace ClientConnection

variable (P Q : ClientConnection → Prop)

/-- What the flush loop starts with is kept by `accept`; it comes to an end in one of three ways. -/
theorem flushWrites_rule (here : ∀ {c}, P c → Q c) (fail : ∀ {c} (e : Nat), P c → Q (c.fail e .write))
    (flushed : ∀ {c}, P c → c.outBuffer.length ≤ c.outSent → Q c.flushed)
    (accept : ∀ {c n}, P c → c.outSent + n ≤ c.outBuffer.length → P (c.accept n)) :
    ∀ {rs : List SendResult} {c : ClientConnection} {r : ClientConnection × Bool}, P c → c.flushWrites rs = some r → Q r.1
  | [], c, r, h, hf => by
    rw [flushWrites] at hf
    split at hf
    · cases hf
    · cases hf; exact flushed h (by omega)
  | s :: rs, c, r, h, hf => by
    unfold flushWrites at hf
    split at hf
    · split at hf
      · cases hf; exact fail _ h
      · split at hf
        · next hn => exact flushWrites_rule here fail flushed accept (accept h hn) hf
        · cases hf
      · exact flushWrites_rule here fail flushed accept h hf
      · cases hf; exact here h
      · cases hf; exact fail _ h
    · cases hf; exact flushed h (by omega)

theorem readAvailable_rule (here : ∀ {c}, P c → Q c) (fail : ∀ {c} (e : Nat), P c → Q (c.fail e .read))
    (closed : ∀ {c}, P c → Q c.closeFromPeer) (receive : ∀ {c} (b : Bytes), P c → P (c.receive b)) :
    ∀ {rs : List RecvResult} {c d : ClientConnection}, P c → c.readAvailable rs = some d → Q d
  | [], c, d, _, hr => by cases hr
  | .bytes b :: rs, c, d, h, hr => by
    rw [readAvailable] at hr
    split at hr
    · cases hr; exact closed h
    split at hr
    · cases hr; exact here (receive b h)
    split at hr
    · exact readAvailable_rule here fail closed receive (receive b h) hr
    · cases hr
  | .eintr :: rs, c, d, h, hr => by rw [readAvailable] at hr; exact readAvailable_rule here fail closed receive h hr
  | .eagain :: rs, c, d, h, hr => by cases hr; exact here h
  | .errno e :: rs, c, d, h, hr => by cases hr; exact fail _ h

end ClientConnection

end NodeCompat.Net
