import NodeCompat.Http.Serialize
import NodeCompat.Http.Staged

/-!
# Server responses

`ServerResponse`: the calls by which an application answers a request. The header block is serialized when it is first
needed, by `writeHead`, `flushHeaders`, the first `write`, or `end`, which alone knows the length of the body then; the
answer of `headEnd` says how the body is framed. A response holds the connection that its id stands for (operations on a
connection that is gone do nothing, and no bytes are left to speak of).

An `Event` is a call of the application, or what the reactor does to the connection in between: a pass of its own while
the request is being answered, and the return of the handler.
-/

namespace NodeCompat.Http

/-! ## Texts -/

def STATUS_CODES : List (Nat × Bytes) :=
  [(100, text "Continue"), (101, text "Switching Protocols"), (102, text "Processing"), (103, text "Early Hints"),
   (200, text "OK"), (201, text "Created"), (202, text "Accepted"), (203, text "Non-Authoritative Information"),
   (204, text "No Content"), (205, text "Reset Content"), (206, text "Partial Content"), (207, text "Multi-Status"),
   (208, text "Already Reported"), (226, text "IM Used"), (300, text "Multiple Choices"),
   (301, text "Moved Permanently"), (302, text "Found"), (303, text "See Other"), (304, text "Not Modified"),
   (305, text "Use Proxy"), (307, text "Temporary Redirect"), (308, text "Permanent Redirect"),
   (400, text "Bad Request"), (401, text "Unauthorized"), (402, text "Payment Required"), (403, text "Forbidden"),
   (404, text "Not Found"), (405, text "Method Not Allowed"), (406, text "Not Acceptable"),
   (407, text "Proxy Authentication Required"), (408, text "Request Timeout"), (409, text "Conflict"),
   (410, text "Gone"), (411, text "Length Required"), (412, text "Precondition Failed"),
   (413, text "Payload Too Large"), (414, text "URI Too Long"), (415, text "Unsupported Media Type"),
   (416, text "Range Not Satisfiable"), (417, text "Expectation Failed"), (418, text "I'm a Teapot"),
   (421, text "Misdirected Request"), (422, text "Unprocessable Entity"), (423, text "Locked"),
   (424, text "Failed Dependency"), (425, text "Too Early"), (426, text "Upgrade Required"),
   (428, text "Precondition Required"), (429, text "Too Many Requests"),
   (431, text "Request Header Fields Too Large"), (451, text "Unavailable For Legal Reasons"),
   (500, text "Internal Server Error"), (501, text "Not Implemented"), (502, text "Bad Gateway"),
   (503, text "Service Unavailable"), (504, text "Gateway Timeout"), (505, text "HTTP Version Not Supported"),
   (506, text "Variant Also Negotiates"), (507, text "Insufficient Storage"), (508, text "Loop Detected"),
   (509, text "Bandwidth Limit Exceeded"), (510, text "Not Extended"), (511, text "Network Authentication Required")]

def statusText (code : Nat) : Bytes :=
  if code = 200 then text "OK"
  else if code = 404 then text "Not Found"
  else if code = 204 then text "No Content"
  else if code = 500 then text "Internal Server Error"
  else (STATUS_CODES.lookup code).getD (text "unknown")

/-- The fields of `tm` that the date is made of (`year` is the year itself). -/
structure UtcTime where
  wday : Fin 7
  mday : Nat
  mon : Fin 12
  year : Nat
  hour : Nat
  min : Nat
  sec : Nat

/-- `%d`, `%H`, `%M` and `%S` -/
def twoDigits (n : Nat) : Bytes := if n < 10 then text "0" ++ decimal n else decimal n

def dayNames : List Bytes := [text "Sun", text "Mon", text "Tue", text "Wed", text "Thu", text "Fri", text "Sat"]

def monthNames : List Bytes :=
  [text "Jan", text "Feb", text "Mar", text "Apr", text "May", text "Jun", text "Jul", text "Aug", text "Sep", text "Oct",
   text "Nov", text "Dec"]

/-- `strftime` with `"%a, %d %b %Y %H:%M:%S GMT"` -/
def httpDate (t : UtcTime) : Bytes :=
  dayNames.get t.wday ++ text ", " ++ twoDigits t.mday ++ [sp] ++ monthNames.get t.mon ++ [sp] ++ decimal t.year ++ [sp] ++
    twoDigits t.hour ++ [colon] ++ twoDigits t.min ++ [colon] ++ twoDigits t.sec ++ text " GMT"

/-! ## The response -/

/-- A body part: a string, or a `Uint8Array`. -/
inductive Payload
  | string (s : Bytes)
  | octets (b : Bytes)
deriving DecidableEq

def Payload.bytes : Payload → Bytes
  | string s => s
  | octets b => b

/-- The entries of `OutgoingHttpHeaders` in the order of `for ... in`; an entry may be `undefined`. -/
abbrev HeaderEntries := List (Bytes × Option HeaderValue)

structure Response where
  conn : Conn
  isHead : Bool
  http10 : Bool
  keepAliveRequested : Bool
  statusCode : Nat := 200
  statusMessage : Bytes := []
  sendDate : Bool := true
  finished : Bool := false
  destroyed : Bool := false
  headersCommitted : Bool := false
  headWritten : Bool := false
  chunked : Bool := false
  suppressBody : Bool := false
  keepAliveFinal : Bool := keepAliveRequested
  staged : Staged := {}

namespace Response

/-- An operation of the connection. -/
def emit (r : Response) (op : OutOp) : Response := { r with conn := r.conn.output op }

/-- HEAD, 204, 304 and 1xx -/
def noBody (r : Response) : Bool :=
  r.isHead || r.statusCode == 204 || r.statusCode == 304 || (100 ≤ r.statusCode && r.statusCode < 200)

def beginHead (r : Response) : Response := { r with headersCommitted := true }.emit
    (.headBegin r.statusCode (if r.statusMessage = [] then statusText r.statusCode else r.statusMessage))

/-- Fields of the header block, one after the other. -/
def headFields (r : Response) (fields : List (Bytes × Bytes)) : Response :=
  fields.foldl (fun r f => r.emit (.headField f.1 f.2)) r

def headFlags (r : Response) : HeadFlags where
  noBody := r.noBody
  http10 := r.http10
  keepAliveAsked := r.keepAliveRequested
  sendDate := r.sendDate

variable (now : UtcTime)

/-- `autoContentLength` is `none` for -1. -/
def endHead (r : Response) (autoContentLength : Option Nat) : Response :=
  let framing := (r.conn.out.headTail r.headFlags autoContentLength (httpDate now)).2
  { r.emit (.headEnd r.headFlags autoContentLength (httpDate now)) with
    suppressBody := r.suppressBody || r.noBody
    chunked := framing.chunked
    keepAliveFinal := framing.keepAlive }

def commitHeaders (r : Response) (autoContentLength : Option Nat) : Response :=
  if r.headersCommitted then r else (r.beginHead.headFields r.staged.fields).endHead now autoContentLength

/-- The first bytes reach the reactor even when there are none: they release the header block. -/
def emitPayload (r : Response) (data : Bytes) : Response :=
  if !r.headWritten then { r with headWritten := true }.emit (.body data)
  else if data.length > 0 then r.emit (.body data)
  else r

def emitPayloadBytes (r : Response) (start data suffix : Bytes) : Response :=
  let r := r.emitPayload start
  let r := if data.length > 0 then r.emit (.body data) else r
  if suffix.length > 0 then r.emit (.body suffix) else r

variable (toLowerCase : Bytes → Bytes)

def setHeader (r : Response) (name : Bytes) (value : HeaderValue) : Response :=
  { r with staged := r.staged.setHeader toLowerCase name value }

def appendHeader (r : Response) (name : Bytes) (value : HeaderValue) : Response :=
  { r with staged := r.staged.appendHeader toLowerCase name value }

def removeHeader (r : Response) (name : Bytes) : Response := { r with staged := r.staged.removeHeader toLowerCase name }

/-- The fields of the entries, in their order: an array is a field for each of its values. -/
def entryFields (headers : HeaderEntries) : List (Bytes × Bytes) := headers.flatMap fun
    | (_, none) => []
    | (key, some value) => value.toList.map (fun v => (key, v))

/-- Every entry that is not `undefined`, through `setHeader`. -/
def stageEntries (r : Response) (headers : HeaderEntries) : Response := headers.foldl
    (fun r entry =>
      match entry with
      | (_, none) => r
      | (key, some value) => r.setHeader toLowerCase key value) r

def writeHead (r : Response) (status : Nat) (headers : HeaderEntries) : Response :=
  let r := { r with statusCode := status }
  -- with nothing staged the entries go straight into the header block
  if !r.headersCommitted && !r.staged.firstHeaderPresent then
    (r.beginHead.headFields (entryFields headers)).endHead now none
  else (r.stageEntries toLowerCase headers).commitHeaders now none

def flushHeaders (r : Response) : Response := (r.commitHeaders now none).emitPayload []

def write (r : Response) (chunk : Payload) : Bool × Response :=
  if r.finished || r.destroyed then (false, r)
  else
    let r := r.commitHeaders now none
    match chunk with
    | .string s =>
      let payload :=
        if s.length > 0 && !r.suppressBody then if r.chunked then hexText s.length ++ crlf ++ s ++ crlf else s else []
      (true, r.emitPayload payload)
    | .octets b =>
      if b.length = 0 || r.suppressBody then (true, r.emitPayload [])
      else if r.chunked then (true, r.emitPayloadBytes (hexText b.length ++ crlf) b crlf)
      else (true, r.emitPayloadBytes [] b [])

/-- `responseComplete` up to its pass. -/
def done (r : Response) : Response :=
  { r with conn := { r.conn with busy := false, closing := r.conn.closing || !r.keepAliveFinal } }

/-- What `end` does behind `commitHeaders`: the last part, and the end of a chunked body. -/
def finish (r : Response) : Payload → Response
  | .string s =>
    if r.suppressBody then r.emitPayload []
    -- size line, text and terminator are appended by the reactor
    else if r.chunked then { r with headWritten := true }.emit (.finalChunk s)
    else r.emitPayload s
  | .octets b =>
    if r.suppressBody then r.emitPayload []
    else if r.chunked then r.emitPayloadBytes (if b.length > 0 then hexText b.length ++ crlf else []) b
        (if b.length > 0 then text "\r\n0\r\n\r\n" else text "0\r\n\r\n")
    else r.emitPayloadBytes [] b []

/-- `end(chunk)` -/
def endWith (r : Response) (chunk : Payload) : Response :=
  if r.finished || r.destroyed then r
  else (({ r with finished := true }.commitHeaders now (some chunk.bytes.length)).finish chunk).done

/-! ## Calls and what happens between them -/

inductive Event
  | setHeader (name : Bytes) (value : HeaderValue)
  | appendHeader (name : Bytes) (value : HeaderValue)
  | removeHeader (name : Bytes)
  | statusCode (code : Nat)
  | statusMessage (message : Bytes)
  | sendDate (on : Bool)
  | writeHead (status : Nat) (headers : HeaderEntries)
  | flushHeaders
  | write (chunk : Payload)
  | ready (e : Revents)
  | returns (wasProcessing : Bool)

/-- `onReady` while the request is being answered: `processInput` stops at once. -/
def ready (r : Response) (e : Revents) : Response :=
  if r.conn.processing then r
  else
    let (c, go) := r.conn.startReady e
    { r with conn := if go then { c with processing := false }.flushAndMaybeClose else c }

/-- The handler returns with its request unanswered, and the connection's pass ends. -/
def returns (r : Response) (wasProcessing : Bool) : Response := { r with
    conn := { r.conn with
        closing := r.conn.closing || (r.conn.busy && r.conn.peerClosed)
        processing := wasProcessing }.flushUnlessProcessing }

def apply (r : Response) : Event → Response
  | .setHeader name value => r.setHeader toLowerCase name value
  | .appendHeader name value => r.appendHeader toLowerCase name value
  | .removeHeader name => r.removeHeader toLowerCase name
  | .statusCode code => { r with statusCode := code }
  | .statusMessage message => { r with statusMessage := message }
  | .sendDate on => { r with sendDate := on }
  | .writeHead status headers => r.writeHead now toLowerCase status headers
  | .flushHeaders => r.flushHeaders now
  | .write chunk => (r.write now chunk).2
  | .ready e => r.ready e
  | .returns wasProcessing => r.returns wasProcessing

/-- The response to a request, as `listen` creates it. -/
def create (conn : Conn) (method httpVersion : Bytes) (keepAlive : Bool) : Response where
  conn
  isHead := method == text "HEAD"
  http10 := httpVersion == text "HTTP/1.0"
  keepAliveRequested := keepAlive

/-- A response from its first event to `end(last)`. -/
def answer (r : Response) (events : List Event) (last : Payload) : Response :=
  (events.foldl (fun r e => r.apply now toLowerCase e) r).endWith now last

end Response

end NodeCompat.Http
