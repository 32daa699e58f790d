import NodeCompat.Bytes

/-!
# The request head

`HttpConnection::parseHead`: the request line, then the field loop with its framing decisions. The parser is the part
of a connection that the parser loop works on (`state_` and the fields of the current request). A refused head leaves
no parser: the connection stops parsing, so what `parseHead` had assigned by then is never read.
-/

namespace NodeCompat.Http

/-- `ReadState` -/
inductive ReadState
  | head
  | bodyFixed
  | chunkSize
  | chunkData
  | chunkCrlf
  | trailers
deriving DecidableEq

/-- Node's `--max-http-header-size` default. -/
def kMaxHeadBytes : Nat := 16384

/-- Hard cap on a request body. -/
def kMaxBodyBytes : Nat := 64 * 1024 * 1024

/-- The parser's state and the current request being parsed. -/
structure Parser where
  state : ReadState := .head
  method : Bytes := []
  target : Bytes := []
  version : Bytes := []
  rawHead : Bytes := []
  body : Bytes := []
  bodyRemaining : Nat := 0
  chunkRemaining : Nat := 0
  chunked : Bool := false
  keepAlive : Bool := true
  expectContinue : Bool := false
deriving DecidableEq

/-- What the field loop has found so far; `fields` are the (name, value) pairs it has gone over. -/
structure FieldScan where
  contentLength : Option Bytes := none
  chunked : Bool := false
  keepAlive : Bool
  expectContinue : Bool := false
  fields : List (Bytes × Bytes) := []
deriving DecidableEq

/-- The framing decisions for one field; `none` is the 400. -/
def FieldScan.decide (s : FieldScan) (name value : Bytes) : Option FieldScan :=
  if asciiEqualsIgnoreCase name (text "content-length") then
    if s.contentLength.isSome && s.contentLength != some value then none
    else some { s with contentLength := some value }
  else if asciiEqualsIgnoreCase name (text "transfer-encoding") then
    if headerValueHasToken value (text "chunked") then some { s with chunked := true }
    else none
  else if asciiEqualsIgnoreCase name (text "connection") then
    if headerValueHasToken value (text "close") then some { s with keepAlive := false }
    else if headerValueHasToken value (text "keep-alive") then some { s with keepAlive := true }
    else some s
  else if asciiEqualsIgnoreCase name (text "expect") then
    if asciiEqualsIgnoreCase value (text "100-continue") then some { s with expectContinue := true }
    else some s
  else some s

/-- One non-empty field line: split at the first colon, no blank in the name, blanks around the value trimmed. -/
def FieldScan.line (s : FieldScan) (header : Bytes) : Option FieldScan :=
  match find [colon] header with
  | none => none
  | some 0 => none
  | some c =>
    let name := header.take c
    if name.any isBlank then none
    else
      let value := trimBlanks (header.drop (c + 1))
      { s with fields := s.fields ++ [(name, value)] }.decide name value

/-- The field loop over what is left of the head. -/
def FieldScan.loop (s : FieldScan) (rest : Bytes) : Option FieldScan :=
  if _h : rest = [] then some s
  else
    let eol := (find crlf rest).getD rest.length
    let header := rest.take eol
    if header = [] then s.loop (rest.drop (eol + 2))
    else
      match s.line header with
      | none => none
      | some s' => s'.loop (rest.drop (eol + 2))
termination_by rest.length
decreasing_by
  all_goals
    have := List.length_pos_iff.2 _h
    simp only [List.length_drop]
    omega

/-- The decimal value of a Content-Length, digit by digit; `none` is the 400. -/
def parseDecimal : Nat → Bytes → Option Nat
  | parsed, [] => some parsed
  | parsed, c :: cs =>
    if c < 48 || 57 < c then none
    else
      let parsed := parsed * 10 + (c.toNat - 48)
      if parsed > kMaxBodyBytes then none else parseDecimal parsed cs

/-- The length of a body that is not chunked: without a Content-Length there is none. -/
def FieldScan.bodyLength (s : FieldScan) : Option Nat :=
  if s.chunked then some 0
  else
    match s.contentLength with
    | none => some 0
    | some value => if value = [] then none else parseDecimal 0 value

/-- The request line: method, target and version. -/
def parseRequestLine (line : Bytes) : Option (Bytes × Bytes × Bytes) :=
  match find [sp] line with
  | none => none
  | some 0 => none
  | some sp1 =>
    match findFrom [sp] line (sp1 + 1) with
    | none => none
    | some sp2 =>
      if sp2 = sp1 + 1 then none
      else
        let version := line.drop (sp2 + 1)
        if version = text "HTTP/1.1" ∨ version = text "HTTP/1.0" then
          some (line.take sp1, (line.drop (sp1 + 1)).take (sp2 - sp1 - 1), version)
        else none

/-- `parseHead`: the parser with the fields of the request, or the status of the refusal. -/
def parseHead (head : Bytes) : Except Nat Parser :=
  let lineEnd := find crlf head
  match parseRequestLine (head.take (lineEnd.getD head.length)) with
  | none => .error 400
  | some (method, target, version) =>
    let rawHead := lineEnd.elim [] (fun e => head.drop (e + 2))
    match FieldScan.loop { keepAlive := version == text "HTTP/1.1" } rawHead with
    | none => .error 400
    | some s =>
      match s.bodyLength with
      | none => .error 400
      | some n => .ok {
          method, target, version, rawHead
          bodyRemaining := n
          chunked := s.chunked
          keepAlive := s.keepAlive
          expectContinue := s.expectContinue }

theorem parseHead_ok {head : Bytes} {p : Parser} (h : parseHead head = .ok p) :
    p.state = .head ∧ p.body = [] ∧ p.chunkRemaining = 0 ∧ (p.chunked = true → p.bodyRemaining = 0) := by
  unfold parseHead at h
  dsimp only at h
  split at h
  · cases h
  · split at h
    · cases h
    · split at h
      · cases h
      · rename_i s _ n hn
        cases h
        refine ⟨rfl, rfl, rfl, fun hc => ?_⟩
        simp only [FieldScan.bodyLength] at hn
        simp only at hc; rw [if_pos hc] at hn; exact (Option.some.inj hn).symm

end NodeCompat.Http
