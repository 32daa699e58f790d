import NodeCompat.Http.Connection

/-!
# Writing a response

The operations of `HttpConnectionBase` that put response bytes into `outbuf_`. The header block is serialized piece by
piece (`headBegin`, `headField`, `headRaw`, `headEnd`) and leaves with the first body bytes; body bytes
(`enqueueResponseBytes`, `enqueueFinalChunk`) release it, and are flushed at once outside the connection's own pass.
Whatever the operation, the bytes it writes join the end of the stream (`Output.stream_apply`).
-/

namespace NodeCompat.Http

/-- The inputs of `headEnd`: the bits of `flags`. -/
structure HeadFlags where
  noBody : Bool := false
  http10 : Bool := false
  keepAliveAsked : Bool := false
  sendDate : Bool := false
deriving DecidableEq

/-- What `headEnd` answers. -/
structure Framed where
  chunked : Bool
  keepAlive : Bool
deriving DecidableEq

/-- The lines that `headEnd` writes. -/
def keepAliveLines : Bytes := text "Connection: keep-alive\r\nKeep-Alive: timeout=5\r\n"

def closeLine : Bytes := text "Connection: close\r\n"

def chunkedLine : Bytes := text "Transfer-Encoding: chunked\r\n"

def dateLine (date : Bytes) : Bytes := text "Date: " ++ date ++ crlf

def contentLengthLine (n : Nat) : Bytes := text "Content-Length: " ++ decimal n ++ crlf

/-- A chunk of a chunked body. -/
def chunkBytes (data : Bytes) : Bytes := hexText data.length ++ crlf ++ data ++ crlf

/-- The last chunk. -/
def lastChunk : Bytes := text "0\r\n\r\n"

/-- The status line. -/
def statusLine (status : Nat) (message : Bytes) : Bytes :=
  if status = 200 ∧ message = text "OK" then text "HTTP/1.1 200 OK\r\n"
  else text "HTTP/1.1 " ++ decimal status ++ [sp] ++ message ++ crlf

namespace Output

def headBegin (o : Output) (status : Nat) (message : Bytes) : Output := { o with
    headMark := some o.outbuf.length
    headHasContentLength := false
    headHasTransferEncoding := false
    headHasDate := false
    headHasConnection := false
    headConnectionClose := false }.append (statusLine status message)

/-- What the framing decision reads of a field: the four names, by their length first. -/
def noteField (o : Output) (name value : Bytes) : Output :=
  match name.length with
  | 4 => if asciiEqualsIgnoreCase name (text "date") then { o with headHasDate := true } else o
  | 10 =>
    if asciiEqualsIgnoreCase name (text "connection") then { o with
        headHasConnection := true
        headConnectionClose := o.headConnectionClose || asciiEqualsIgnoreCase value (text "close") }
    else o
  | 14 => if asciiEqualsIgnoreCase name (text "content-length") then { o with headHasContentLength := true } else o
  | 17 => if asciiEqualsIgnoreCase name (text "transfer-encoding") then { o with headHasTransferEncoding := true } else o
  | _ => o

def headField (o : Output) (name value : Bytes) : Output :=
  (o.noteField name value).append (name ++ text ": " ++ value ++ crlf)

def headRaw (o : Output) (s : Bytes) : Output :=
  { o with headMark := o.headMark.or (some o.outbuf.length) }.append s

/-- The framing decision: whether the body is chunked, whether it ends with the connection, and whether a Content-Length
is written. -/
def decideFraming (o : Output) (flags : HeadFlags) (autoContentLength : Option Nat) : Bool × Bool × Bool :=
  if flags.noBody || o.headHasContentLength || o.headHasTransferEncoding then (false, false, false)
  else if autoContentLength.isSome then (false, false, true)
  else if flags.http10 then (false, true, false)
  else (true, false, false)

/-- The text that `headEnd` appends, and its answer. `autoContentLength` is `none` for -1. -/
def headTail (o : Output) (flags : HeadFlags) (autoContentLength : Option Nat) (date : Bytes) : Bytes × Framed :=
  let (chunked, closeDelimited, writeContentLength) := o.decideFraming flags autoContentLength
  let keepAlive := flags.keepAliveAsked && !(o.headConnectionClose || closeDelimited)
  if chunked && keepAlive && !o.headHasConnection && !o.headHasDate && flags.sendDate then
    (dateLine date ++ keepAliveLines ++ chunkedLine ++ crlf, ⟨true, true⟩)
  else
    let d := if flags.sendDate && !o.headHasDate then dateLine date else []
    let c := if o.headHasConnection then [] else if keepAlive then keepAliveLines else closeLine
    let f := if writeContentLength then contentLengthLine (autoContentLength.getD 0)
      else if chunked then chunkedLine else []
    (d ++ c ++ f ++ crlf, ⟨chunked, keepAlive⟩)

def headEnd (o : Output) (flags : HeadFlags) (autoContentLength : Option Nat) (date : Bytes) : Framed × Output :=
  ((o.headTail flags autoContentLength date).2, o.append (o.headTail flags autoContentLength date).1)

/-- The bytes of `enqueueFinalChunk`. -/
def finalChunk (data : Bytes) : Bytes := (if data = [] then [] else chunkBytes data) ++ lastChunk

end Output

/-- One operation on a response. -/
inductive OutOp
  | body (data : Bytes)
  | finalChunk (data : Bytes)
  | headBegin (status : Nat) (message : Bytes)
  | headField (name value : Bytes)
  | headRaw (s : Bytes)
  | headEnd (flags : HeadFlags) (autoContentLength : Option Nat) (date : Bytes)
deriving DecidableEq

namespace OutOp

/-- Whether the operation writes body bytes: it releases the header block, and may flush. -/
def isBody : OutOp → Bool
  | body _ => true
  | finalChunk _ => true
  | _ => false

/-- What the operation appends. -/
def bytes (o : Output) : OutOp → Bytes
  | body data => data
  | finalChunk data => Output.finalChunk data
  | headBegin status message => statusLine status message
  | headField name value => name ++ text ": " ++ value ++ crlf
  | headRaw s => s
  | headEnd flags len date => (o.headTail flags len date).1

end OutOp

namespace Output

def apply (o : Output) : OutOp → Output
  | .body data => o.enqueue data
  | .finalChunk data => o.enqueue (Output.finalChunk data)
  | .headBegin status message => o.headBegin status message
  | .headField name value => o.headField name value
  | .headRaw s => o.headRaw s
  | .headEnd flags len date => (o.headEnd flags len date).2

theorem noteField_eq (o : Output) (name value : Bytes) : ∃ l t d c k, o.noteField name value =
    { o with headHasContentLength := l, headHasTransferEncoding := t, headHasDate := d, headHasConnection := c,
             headConnectionClose := k } := by
  unfold noteField
  split
  all_goals first
    | split <;> exact ⟨_, _, _, _, _, rfl⟩
    | exact ⟨_, _, _, _, _, rfl⟩

theorem apply_frame (o : Output) (op : OutOp) : (o.apply op).outbuf = o.outbuf ++ op.bytes o ∧
    (o.apply op).outsent = o.outsent ∧ (o.apply op).sent = o.sent ∧ (o.apply op).sends = o.sends := by
  cases op with
  | headField name value =>
    obtain ⟨l, t, d, c, k, h⟩ := o.noteField_eq name value; simp only [apply, headField, h]; exact ⟨rfl, rfl, rfl, rfl⟩
  | body data | finalChunk data | headBegin status message | headRaw s | headEnd flags len date => exact ⟨rfl, rfl, rfl, rfl⟩

/-- Body bytes release the header block; header bytes keep its start, or start it here. -/
theorem apply_headMark (o : Output) (op : OutOp) : (op.isBody = true → (o.apply op).headMark = none) ∧
    (op.isBody = false → (o.apply op).headMark = o.headMark ∨ (o.apply op).headMark = some o.outbuf.length) := by
  cases op with
  | headField name value =>
    obtain ⟨l, t, d, c, k, h⟩ := o.noteField_eq name value
    refine ⟨by rintro ⟨⟩, fun _ => .inl ?_⟩
    simp only [apply, headField, h]; rfl
  | body data | finalChunk data => exact ⟨fun _ => rfl, by rintro ⟨⟩⟩
  | headBegin status message => exact ⟨by rintro ⟨⟩, fun _ => .inr rfl⟩
  | headRaw s =>
    refine ⟨by rintro ⟨⟩, fun _ => ?_⟩
    cases h : o.headMark <;> simp [apply, headRaw, append, h]
  | headEnd flags len date => exact ⟨by rintro ⟨⟩, fun _ => .inl rfl⟩

variable {o : Output}

theorem ok_apply (h : o.Ok) (op : OutOp) : (o.apply op).Ok := by
  obtain ⟨h₁, h₂, -, -⟩ := o.apply_frame op
  simp only [Ok, h₁, h₂, List.length_append] at h ⊢; omega

/-- **Written bytes join the end of the stream.** -/
theorem stream_apply (h : o.Ok) (op : OutOp) : (o.apply op).stream = o.stream ++ op.bytes o := by
  obtain ⟨h₁, h₂, h₃, -⟩ := o.apply_frame op
  simp only [stream, h₁, h₂, h₃]; rw [List.drop_append_of_le_length h, List.append_assoc]

end Output

/-- An operation on the connection: body bytes are flushed at once, outside the connection's own pass. -/
def Conn.output (c : Conn) (op : OutOp) : Conn :=
  let c := { c with out := c.out.apply op }
  if op.isBody then c.flushUnlessProcessing else c

end NodeCompat.Http
