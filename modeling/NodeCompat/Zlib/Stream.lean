import NodeCompat.Lib.Encoder
import NodeCompat.Zlib.Inflate

/-!
# The streams of `node:zlib`

`ZlibBase` is a `Transform` over a codec stream of the library. For each chunk that is written, and in the end, it takes the
codec's output piece by piece and pushes it (`drain`); when input is left over after the last stream it pushes `null`. The
streams are written and ended by one program whose listeners write nothing; `'data'`, `'end'`, `'finish'` and the automatic
`destroy` after them are not seen here, and of `push`, of `write` and of `end` only what `ZlibBase` depends on.
-/

namespace NodeCompat.Zlib

/-- What is used of the zlib library, to decompress and to compress at a level. -/
structure Codecs extends Library where
  Deflater : Type
  deflateInit2 : Framing → Int → Deflater
  deflate : Deflater → Bytes → Nat → Flush → Answer Deflater UInt8 Bytes

/-- The deflating streams of a framing and a level. -/
def Codecs.encoder (z : Codecs) (bits : Framing) (level : Int) : Encoder z.Deflater UInt8 UInt8 Bytes where
  init := z.deflateInit2 bits level
  call := z.deflate

section OfDecoders

variable (d : Framing → Decoder UInt8 UInt8) (e : Bytes) (whole : Framing → Bytes → Bytes)

/-- The library whose deflating streams keep their framing, and all that they have been fed. -/
def Codecs.ofDecoders : Codecs where
  toLibrary := .ofDecoders d e
  Deflater := Framing × (Bytes × Nat)
  deflateInit2 bits _ := (bits, (Encoder.ofWhole (ε := Bytes) (whole bits)).init)
  deflate s input room flush :=
    let a := (Encoder.ofWhole (ε := Bytes) (whole s.1)).call s.2 input room flush
    { code := a.code, consumed := a.consumed, output := a.output, state := (s.1, a.state) }

variable {d e whole}

theorem Codecs.ofDecoders_at {bits : Framing} {level : Int} {s : Framing × (Bytes × Nat)} {fed given : Bytes} {told : Flush}
    (h : ((Codecs.ofDecoders d e whole).encoder bits level).At s fed given told) :
    s.1 = bits ∧ (Encoder.ofWhole (ε := Bytes) (whole bits)).At s.2 fed given told := by
  induction h with
  | init => exact ⟨rfl, .init⟩
  | write input hroom _ ih => obtain ⟨rfl, hat⟩ := ih; exact ⟨rfl, .write input hroom hat⟩
  | finish hroom _ ih => obtain ⟨rfl, hat⟩ := ih; exact ⟨rfl, .finish hroom hat⟩

theorem Codecs.ofDecoders_encodes {bits : Framing} {u : Bytes}
    (h : (d bits).verdict (whole bits u) = .ended (whole bits u).length u) (level : Int) :
    ((Codecs.ofDecoders d e whole).encoder bits level).Encodes (d bits) u := by
  have hwhole := Encoder.ofWhole_encodes (ε := Bytes) h
  constructor
  · intro s fed given hs input room hfed hroom
    obtain ⟨rfl, hat⟩ := Codecs.ofDecoders_at hs
    have hw := hwhole.writes hat input hfed hroom; exact ⟨hw.code, hw.consumed_le, hw.full⟩
  · intro s given told hs room hroom
    obtain ⟨rfl, hat⟩ := Codecs.ofDecoders_at hs
    have hf := hwhole.finishes hat hroom; exact ⟨hf.consumed, hf.done⟩
  · obtain ⟨n, hn⟩ := hwhole.bounded; exact ⟨n, fun hs hfed htold => hn (Codecs.ofDecoders_at hs).2 hfed htold⟩

end OfDecoders

/-! ## Codec streams -/

/-- A `Stream`, inflating or deflating by the type of its `z_stream`. -/
structure Stream (σ : Type) where
  z : σ
  bits : Framing
  ended : Bool := false
  betweenMembers : Bool := false
  leftover : Bool := false
  stopped : Bool := false
  draining : Bool := false
  finishing : Bool := false
  finished : Bool := false
  input : Bytes := []
  offset : Nat := 0

def kChunk : Nat := 16 * 1024

namespace Stream

variable {σ : Type} (s : Stream σ)

def remainingOf : Nat := s.input.length - s.offset

/-- What `nextOf` points to. -/
def rest : Bytes := s.input.drop s.offset

/-- `*nextOf`, with the byte that it points to when nothing is left. -/
def nextOf : UInt8 := s.rest.headD 0

/-- What a call of the library changes: its `avail_out` was `room`. -/
def called (a : Answer σ UInt8 Bytes) (room : Nat) : Stream σ :=
  { s with z := a.state, offset := s.offset + a.consumed, draining := decide (room - a.output.length = 0) }

def write (bytes : Bytes) : Stream σ := { s with input := bytes, offset := 0, stopped := false, leftover := false }

end Stream

section Steps

variable (z : Codecs)

def deflateStep (s : Stream z.Deflater) (flush : Flush) : Except Bytes (Bytes × Stream z.Deflater) :=
  let take := min s.remainingOf uIntMax
  let a := z.deflate s.z (s.rest.take take) kChunk (if take = s.remainingOf then flush else .noFlush)
  match a.code with
  | .error message => .error message
  | code => .ok (a.output, { s.called a kChunk with finished := s.finished || decide (code = .streamEnd) })

/-- The next member is begun. -/
def Stream.begin (s : Stream z.Inflater) : Stream z.Inflater :=
  if s.betweenMembers then { s with z := z.inflateReset s.z, betweenMembers := false } else s

/-- The loop of `inflateStep`, with the output so far. -/
def inflateRounds : Nat → Stream z.Inflater → Bytes → Option (Except Bytes (Bytes × Stream z.Inflater))
  | 0, _, _ => none
  | fuel + 1, s, output =>
    if output.length < kChunk ∧ s.ended = false ∧ s.stopped = false then
      let remaining := s.remainingOf
      if remaining = 0 ∧ s.draining = false then some (.ok (output, s))
      else if s.betweenMembers = true ∧ s.nextOf = 0 then some (.ok (output, { s with stopped := true }))
      else
        let s := s.begin z
        let a := z.inflate s.z (s.rest.take (min remaining uIntMax)) (kChunk - output.length)
        match a.code with
        | .error message => some (.error message)
        | code =>
          let s' := s.called a (kChunk - output.length)
          if code = .streamEnd then
            if s.bits ≠ .gzip ∧ s.bits ≠ .detect then
              some (.ok (output ++ a.output, { s' with draining := false, ended := true }))
            else inflateRounds fuel { s' with draining := false, betweenMembers := true } (output ++ a.output)
          else if a.consumed = 0 ∧ a.output.length = 0 then
            if remaining = 0 then some (.ok (output ++ a.output, s'))
            else some (.error (text "unexpected end of file"))
          else inflateRounds fuel s' (output ++ a.output)
    else some (.ok (output, s))

def inflateStep (fuel : Nat) (s : Stream z.Inflater) : Option (Except Bytes (Bytes × Stream z.Inflater)) :=
  match inflateRounds z fuel s [] with
  | some (.ok (output, s)) =>
    some (.ok (output, if s.ended || s.stopped then { s with leftover := decide (0 < s.remainingOf) } else s))
  | r => r

/-- A `Stream` in the table, by its `deflating`. -/
inductive Handle
  | inflating (s : Stream z.Inflater)
  | deflating (s : Stream z.Deflater)

variable {z}

def streamWrite (bytes : Bytes) : Handle z → Handle z
  | .inflating s => .inflating (s.write bytes)
  | .deflating s => .deflating (s.write bytes)

def streamRead (fuel : Nat) : Handle z → Option (Except Bytes (Bytes × Handle z))
  | .inflating s => (inflateStep z fuel s).map (fun r => r.map (fun p => (p.1, .inflating p.2)))
  | .deflating s => some ((deflateStep z s .noFlush).map (fun p => (p.1, .deflating p.2)))

def streamPending : Handle z → Bool
  | .inflating s => !s.finishing && !s.ended && !s.stopped && (s.draining || decide (0 < s.remainingOf))
  | .deflating s => if s.finishing then !s.finished else s.draining || decide (0 < s.remainingOf)

def streamLeftover : Handle z → Bool
  | .inflating s => s.leftover
  | .deflating s => s.leftover

def streamFinish : Handle z → Except Bytes (Bytes × Handle z)
  | .inflating s =>
    if s.ended = false ∧ s.betweenMembers = false then .error (text "unexpected end of file")
    else .ok ([], .inflating { s with finishing := true })
  | .deflating s => (deflateStep z { s with finishing := true } .finish).map (fun p => (p.1, .deflating p.2))

end Steps

def deflateLevel (bits : Framing) (level : Int) : Except Bytes Int :=
  if bits = .detect then .error (text "Unsupported zlib framing")
  else if level < -1 ∨ 9 < level then
    .error (text "The value of \"options.level\" is out of range. It must be >= -1 and <= 9.")
  else .ok level

inductive Mode
  | inflate | deflate
deriving DecidableEq

def streamOpen (z : Codecs) (mode : Mode) (bits : Framing) (level : Int) : Except Bytes (Handle z) :=
  match mode with
  | .deflate => (deflateLevel bits level).map (fun compression => .deflating { z := z.deflateInit2 bits compression, bits })
  | .inflate => .ok (.inflating { z := z.inflateInit2 bits, bits })

/-! ## `ZlibBase` -/

/-- The stream: `handle` is `none` for the handle 0, and `pushed` is what `push` has taken. -/
structure ZlibBase (z : Codecs) where
  handle : Option (Handle z)
  pushed : List Bytes := []
  endPending : Bool := false
  destroyed : Bool := false
  errored : Option Bytes := none
  writableEnded : Bool := false
  writableFinished : Bool := false

namespace ZlibBase

/-- The constructor: `Inflate`, `Gunzip`, `InflateRaw` and `Unzip` in the one mode, `Deflate`, `Gzip` and `DeflateRaw` with their
level in the other. -/
def create (z : Codecs) (mode : Mode) (bits : Framing) (level : Int) : Except Bytes (ZlibBase z) :=
  (streamOpen z mode bits level).map (fun h => { handle := some h })

variable {z : Codecs} (b : ZlibBase z)

/-- `destroy(error)`, whose `_destroy` releases the handle. -/
def errorOrDestroy (error : Bytes) : ZlibBase z :=
  if b.destroyed then b else { b with destroyed := true, errored := some error, handle := none }

def push (chunk : Option Bytes) : ZlibBase z :=
  if b.destroyed then b
  else if b.endPending then
    match chunk with
    | some _ => b.errorOrDestroy (text "stream.push() after EOF")
    | none => b
  else
    match chunk with
    | some piece => { b with pushed := b.pushed ++ [piece] }
    | none => { b with endPending := true }

/-- A piece is pushed when there is something in it. -/
def pushPiece (piece : Bytes) : ZlibBase z := if 0 < piece.length then b.push (some piece) else b

def step (finishing : Bool) (fuel : Nat) : Option (Except Bytes (Bytes × Handle z)) :=
  match b.handle with
  | none => some (.error (text "zlib binding closed"))
  | some h => if finishing then some (streamFinish h) else streamRead fuel h

/-- `drain_`, with what its callback is given. -/
def drain (finishing : Bool) : Nat → ZlibBase z → Option (ZlibBase z × Option Bytes)
  | 0, _ => none
  | fuel + 1, b =>
    match b.step finishing fuel with
    | none => none
    | some (.error error) => some ({ b with handle := none }, some error)
    | some (.ok (piece, h)) =>
      let b := pushPiece { b with handle := some h } piece
      if b.destroyed then some (b, none)
      else if streamPending h then drain finishing fuel b
      else if finishing then some ({ b with handle := none }, none)
      else if streamLeftover h then some (b.push none, none)
      else some (b, none)

/-- `_transform` -/
def transform (chunk : Bytes) (fuel : Nat) : Option (ZlibBase z × Option Bytes) :=
  match b.handle with
  | none => some (b, some (text "zlib binding closed"))
  | some h => drain false fuel { b with handle := some (streamWrite chunk h) }

/-- `write`, which calls `_transform` at once when it is not refused. -/
def write (fuel : Nat) (chunk : Bytes) : Option (ZlibBase z) :=
  if b.writableEnded then some (b.errorOrDestroy (text "write after end"))
  else if b.destroyed then some b
  else
    match b.transform chunk fuel with
    | none => none
    | some (b, some error) => some (b.errorOrDestroy error)
    | some (b, none) => some b

/-- `_final`, whose callback is given what `_flush` gives. -/
def final (fuel : Nat) : Option (ZlibBase z × Option Bytes) :=
  match drain true fuel b with
  | none => none
  | some (b, some error) => some (b, some error)
  | some (b, none) => some (b.push none, none)

/-- `end()` -/
def callEnd (fuel : Nat) : Option (ZlibBase z) :=
  if b.errored = none ∧ b.writableEnded = false then
    let b := { b with writableEnded := true }
    if b.destroyed then some b
    else
      match b.final fuel with
      | none => none
      | some (b, some error) => some (b.errorOrDestroy error)
      | some (b, none) => some { b with writableFinished := true }
  else some b

/-- The chunks are written and the stream is ended. -/
def run (fuel : Nat) : List Bytes → ZlibBase z → Option (ZlibBase z)
  | [], b => b.callEnd fuel
  | chunk :: chunks, b =>
    match b.write fuel chunk with
    | none => none
    | some b => run fuel chunks b

end ZlibBase

end NodeCompat.Zlib
