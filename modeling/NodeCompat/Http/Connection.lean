import NodeCompat.Http.Parser

/-!
# One accepted connection

`HttpConnection` with its socket. The socket is what the next `recv` and `send` calls return (`recvs`, `sends`, any
lists); a connection also keeps what has happened so far: the bytes received and sent, the responder calls, the status
of a parser-level error response, and whether it has been passed to `EventLoop::close`.

Everything queued is `Output.stream`: what the socket has taken, followed by what `outbuf_` still holds. Enqueued bytes
join its end (`stream_append`), and flushing moves bytes without changing it (`stream_flush`).
-/

namespace NodeCompat.Http

open List

/-- The size of the buffer that `readAvailable` passes to `recv`. -/
def kRecvBuffer : Nat := 65536

/-- What a `recv` call returns: at least one byte and at most a buffer of them, end of input, `EAGAIN`, or an error. -/
inductive RecvResult
  | data (d : Bytes) (pos : 0 < d.length) (le : d.length ≤ kRecvBuffer)
  | eof
  | again
  | error

/-- What a `send` call returns: how many bytes it took, `EAGAIN`, or an error. -/
inductive SendResult
  | took (n : Nat)
  | again
  | fail
deriving DecidableEq

/-- One responder call: the dispatch flags and the request. -/
structure Call where
  keepAlive : Bool
  first : Bool
  method : Bytes
  target : Bytes
  version : Bytes
  rawHead : Bytes
  body : Bytes
deriving DecidableEq

/-! ## The output side -/

/-- `outbuf_`, how much of it is sent, and the header block being serialized into it (`headMark` is where it starts until
body bytes release it); the socket's `send` results to come, and the bytes it has taken. -/
structure Output where
  outbuf : Bytes := []
  outsent : Nat := 0
  headMark : Option Nat := none
  headHasContentLength : Bool := false
  headHasTransferEncoding : Bool := false
  headHasDate : Bool := false
  headHasConnection : Bool := false
  headConnectionClose : Bool := false
  sends : List SendResult := []
  sent : Bytes := []
deriving DecidableEq

/-- How the loop of `flush` ends. -/
inductive SendEnd
  | all
  | again
  | fail
deriving DecidableEq

/-- The loop of `flush` over the unsent bytes: how many the socket took, how it ended, and the calls left. -/
def sendLoop : List SendResult → Bytes → Nat × SendEnd × List SendResult
  | sends, [] => (0, .all, sends)
  | [], _ :: _ => (0, .again, [])
  | .again :: rest, _ :: _ => (0, .again, rest)
  | .fail :: rest, _ :: _ => (0, .fail, rest)
  | .took n :: rest, c :: cs =>
    let n := min n (c :: cs).length
    if n = 0 then (0, .fail, rest)
    else (n + (sendLoop rest ((c :: cs).drop n)).1, (sendLoop rest ((c :: cs).drop n)).2)

theorem sendLoop_le : ∀ (sends : List SendResult) (pending : Bytes), (sendLoop sends pending).1 ≤ pending.length ∧
    ((sendLoop sends pending).2.1 = .all → (sendLoop sends pending).1 = pending.length)
  | sends, [] => by cases sends <;> simp [sendLoop]
  | [], c :: cs => by simp [sendLoop]
  | .again :: rest, c :: cs => by simp [sendLoop]
  | .fail :: rest, c :: cs => by simp [sendLoop]
  | .took n :: rest, c :: cs => by
    simp only [sendLoop]
    split
    · simp
    · have ih := sendLoop_le rest ((c :: cs).drop (min n (c :: cs).length))
      simp only [length_drop] at ih
      refine ⟨by omega, fun h => ?_⟩
      have := ih.2 h; omega

namespace Output

/-- Whether all of `outbuf_` has been sent. -/
def drained (o : Output) : Bool := o.outbuf.length ≤ o.outsent

/-- `flush`: `false` when the socket failed. Once everything is sent the buffer is cleared for reuse. -/
def flush (o : Output) : Bool × Output :=
  let pending := o.outbuf.drop o.outsent
  match sendLoop o.sends pending with
  | (_, .all, rest) =>
    (true, { o with outbuf := [], outsent := 0, headMark := none, sent := o.sent ++ pending, sends := rest })
  | (n, .again, rest) => (true, { o with outsent := o.outsent + n, sent := o.sent ++ pending.take n, sends := rest })
  | (n, .fail, rest) => (false, { o with outsent := o.outsent + n, sent := o.sent ++ pending.take n, sends := rest })

/-- Bytes that go straight behind what is buffered. -/
def append (o : Output) (data : Bytes) : Output := { o with outbuf := o.outbuf ++ data }

/-- Body bytes: they release the header block. -/
def enqueue (o : Output) (data : Bytes) : Output := { o with headMark := none, outbuf := o.outbuf ++ data }

/-- Everything queued so far: what the socket has taken, then what is still to be sent. -/
def stream (o : Output) : Bytes := o.sent ++ o.outbuf.drop o.outsent

/-- The unsent part of `outbuf_` starts inside it. -/
def Ok (o : Output) : Prop := o.outsent ≤ o.outbuf.length

variable {o : Output}

theorem ok_flush (h : o.Ok) : o.flush.2.Ok := by
  have hle := (sendLoop_le o.sends (o.outbuf.drop o.outsent)).1
  simp only [Ok, length_drop] at h hle ⊢
  simp only [flush]
  split
  · simp
  · next he => rw [he] at hle; simp only at hle ⊢; omega
  · next he => rw [he] at hle; simp only at hle ⊢; omega

theorem stream_flush : o.flush.2.stream = o.stream := by
  simp only [stream, flush]
  split
  · simp
  · simp only; rw [append_assoc, ← drop_drop, take_append_drop]
  · simp only; rw [append_assoc, ← drop_drop, take_append_drop]

theorem ok_append (h : o.Ok) (data : Bytes) : (o.append data).Ok := by
  simp only [Ok, append, length_append] at h ⊢; omega

theorem stream_append (h : o.Ok) (data : Bytes) : (o.append data).stream = o.stream ++ data := by
  simp only [stream, append]; rw [drop_append_of_le_length h, append_assoc]

theorem ok_enqueue (h : o.Ok) (data : Bytes) : (o.enqueue data).Ok := ok_append h data

theorem stream_enqueue (h : o.Ok) (data : Bytes) : (o.enqueue data).stream = o.stream ++ data := stream_append h data

end Output

/-! ## The connection -/

/-- `HttpConnection`: the parser, the buffers and the flags, with the socket's `recv` results to come and the history. -/
structure Conn where
  parser : Parser := {}
  inbuf : Bytes := []
  out : Output := {}
  busy : Bool := false
  closing : Bool := false
  peerClosed : Bool := false
  processing : Bool := false
  firstRequest : Bool := true
  deferred : Bool := false
  recvs : List RecvResult := []
  received : Bytes := []
  calls : List Call := []
  refused : Option Nat := none
  closed : Bool := false

/-- A parser-level error response: status line and `Connection: close`, nothing else. -/
def errorResponse (status : Nat) (reason : Bytes) : Bytes :=
  text "HTTP/1.1 " ++ decimal status ++ [sp] ++ reason ++ text "\r\nConnection: close\r\n\r\n"

/-- The event bits that `onReady` looks at. -/
structure Revents where
  pollin : Bool := false
  pollout : Bool := false
  pollhup : Bool := false
  pollerr : Bool := false
  pollnval : Bool := false
deriving DecidableEq

def Revents.broken (e : Revents) : Bool := e.pollerr || e.pollnval

def Revents.readable (e : Revents) : Bool := e.pollin || e.pollhup

/-- The loop of `readAvailable`: the bytes received, whether the peer is still there, and the calls left. A result
shorter than the buffer ends the loop ("likely drained"). -/
def recvLoop : List RecvResult → Bytes × Bool × List RecvResult
  | [] => ([], true, [])
  | .data d _ _ :: rest =>
    if d.length < kRecvBuffer then (d, true, rest)
    else (d ++ (recvLoop rest).1, (recvLoop rest).2)
  | .eof :: rest => ([], false, rest)
  | .again :: rest => ([], true, rest)
  | .error :: rest => ([], false, rest)

namespace Conn

/-- `EventLoop::close(this)` -/
def close (c : Conn) : Conn := { c with closed := true }

def readAvailable (c : Conn) : Bool × Conn :=
  let (d, ok, rest) := recvLoop c.recvs
  (ok, { c with inbuf := c.inbuf ++ d, received := c.received ++ d, recvs := rest })

/-- A failed flush closes; so does a drained buffer, when nothing is awaited and no request is to come. -/
def flushAndMaybeClose (c : Conn) : Conn :=
  let (ok, out) := c.out.flush
  { c with
    out
    closed := c.closed || !ok || (out.drained && !c.busy && (c.closing || c.peerClosed)) }

/-- Bytes enqueued outside the connection's own pass are flushed at once. -/
def flushUnlessProcessing (c : Conn) : Conn := if c.processing then c else c.flushAndMaybeClose

def enqueueResponseBytes (c : Conn) (data : Bytes) : Conn := { c with out := c.out.enqueue data }.flushUnlessProcessing

def sendErrorAndClose (c : Conn) (status : Nat) (reason : Bytes) : Conn :=
  { c.enqueueResponseBytes (errorResponse status reason) with busy := true, closing := true, refused := some status }

/-- `onReady` up to its call of `processInput`, and whether it makes one. -/
def startReady (c : Conn) (e : Revents) : Conn × Bool :=
  if e.broken then (c.close, false)
  else if e.readable then
    let (ok, c) := c.readAvailable
    if ok then ({ c with processing := true }, true)
    else
      let c := { c with peerClosed := true }
      if !c.busy && c.out.drained then (c.close, false) else ({ c with processing := true }, true)
  else (c.flushAndMaybeClose, false)

/-- The responder call for the current request: `runHandler`'s flags and the request fields. -/
def currentCall (c : Conn) : Call where
  keepAlive := c.parser.keepAlive
  first := c.firstRequest
  method := c.parser.method
  target := c.parser.target
  version := c.parser.version
  rawHead := c.parser.rawHead
  body := c.parser.body

/-- The responder is called with the current request. -/
def call (c : Conn) : Conn := { c with firstRequest := false, calls := c.calls ++ [c.currentCall] }

/-- The request fields are cleared when the responder has returned. -/
def clearRequest (c : Conn) : Conn :=
  { c with parser := { c.parser with method := [], target := [], version := [], rawHead := [], body := [] } }

variable {c : Conn}

theorem enqueueResponseBytes_frame (c : Conn) (data : Bytes) :
    ∃ out closed, c.enqueueResponseBytes data = { c with out, closed } := by
  unfold enqueueResponseBytes flushUnlessProcessing
  split <;> exact ⟨_, _, rfl⟩

theorem enqueueResponseBytes_processing (h : c.processing = true) (data : Bytes) :
    c.enqueueResponseBytes data = { c with out := c.out.enqueue data } := by
  simp [enqueueResponseBytes, flushUnlessProcessing, h]

end Conn

end NodeCompat.Http
