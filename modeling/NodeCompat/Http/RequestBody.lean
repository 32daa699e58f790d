import NodeCompat.Stream.TextDelivery

/-!
# The body of a request

The constructor of `IncomingMessage` pushes the whole body as one string, a code unit for each octet. `emittedChunk` makes a `Buffer` of
it when no encoding is set; with an encoding it stays the string that it is. `read` takes what `emittedChunk` made for that string once
more, and its cast fails (`body_read_twice`). Else all that is handed out is the body (`body_reads_agree`).

What a program pushes or unshifts itself is not of the body.
-/

namespace NodeCompat.Http

open List
open NodeCompat.Stream (Readable BufferEncoding StreamError bufferToString streamChunkLength cutChunk)

/-- A string of the reactor, a code unit for each octet. -/
def bodyString (octets : Bytes) : List UInt16 := octets.map UInt8.toUInt16

/-- `__gea_http_body_bytes` -/
def bodyBytes (units : List UInt16) : Bytes := units.map UInt16.toUInt8

/-- `chunk as string`, a checked cast. -/
def asString : Stream.Chunk Empty → Option (List UInt16)
  | .string units => some units
  | _ => none

structure IncomingMessage extends Readable Empty where
  deliveryScheduled : Bool := false

/-- The methods that call `super.read`. -/
inductive Way
  | read (size : Nat)
  | readBody
  | readBodyBytes
  deriving DecidableEq

inductive Returned
  | chunk (value : Option (Stream.Chunk Empty))
  | text (units : List UInt16)
  | bytes (octets : Bytes)
  | castFails
  deriving DecidableEq

inductive MessageEvent
  /-- The `size` is that of the `Readable.read` that emits it; the flowing mode has none. -/
  | data (size : Option Nat) (value : Stream.Chunk Empty)
  | returned (value : Returned)
  | other (event : Stream.Event Empty)
  deriving DecidableEq

inductive MessageFrame
  | resumed
  | draining
  | fetching (way : Way)
  | reading (way : Way) (value : Stream.Chunk Empty)
  | inherited (frame : Stream.Frame Empty)
  deriving DecidableEq

inductive MessageCall
  /-- A listener for 'data' or 'end' is added. -/
  | listen
  /-- The microtask of `newListenerAdded`. -/
  | deliver
  | take (way : Way)
  | setEncoding (encoding : BufferEncoding)
  | pause
  | resume
  | destroy (error : Option StreamError)
  | destroyed (error : Option StreamError)
  | checkpoint
  deriving DecidableEq

def Way.size : Way → Nat
  | .read size => size
  | _ => 0

namespace IncomingMessage

abbrev Result := Block IncomingMessage MessageFrame MessageEvent

variable (m : IncomingMessage)

/-- What a method of `Readable` does that is not overridden. -/
def inherit (b : Readable.Result Empty) : Result :=
  { state := { m with toReadable := b.state }, seen := b.seen.map .other, frames := b.frames.map .inherited }

def emittedChunk (chunk : Stream.Chunk Empty) : Stream.Chunk Empty :=
  match Stream.emittedChunk bufferToString m.encoding chunk with
  | .string units => if m.encoding = none then .buffer (bodyBytes units) else .string units
  | emitted => emitted

def maybeEmitEnd : IncomingMessage := { m with toReadable := m.toReadable.maybeEmitEnd }

/-- `Readable.drainFlowing` -/
def drainFlowing : Result :=
  match m.paused, m.pending with
  | false, chunk :: rest =>
    { state :=
        { m with
          pending := rest
          pendingLength := m.pendingLength - streamChunkLength m.readableObjectMode chunk
          readableDidRead := true }
      seen := [.data none (m.emittedChunk chunk)]
      frames := [.draining] }
  | _, _ => { state := m.maybeEmitEnd }

/-- `Readable.resume` -/
def resume : Result :=
  if m.destroyed then { state := m }
  else { state := { m with paused := false, readableFlowing := some true }, seen := [.other .resume], frames := [.resumed] }

def newListenerAdded : Result :=
  if m.deliveryScheduled || m.readableFlowing == some true then { state := m } else { state := { m with deliveryScheduled := true } }

/-- The microtask of `newListenerAdded`. -/
def deliver : Result :=
  if m.readableFlowing = some false then { state := { m with deliveryScheduled := false } }
  else { m with deliveryScheduled := false }.resume

/-- `Readable.read`, once the chunk it hands out is off `pending_`. -/
def readChunk (way : Way) (chunk : Stream.Chunk Empty) (rest : List (Stream.Chunk Empty)) : Result :=
  { state :=
      { m with
        pending := rest
        pendingLength := m.pendingLength - streamChunkLength m.readableObjectMode chunk
        readableDidRead := true }
    seen := [.data (some way.size) (m.emittedChunk chunk)]
    frames := [.reading way (m.emittedChunk chunk)] }

/-- `Readable.read` -/
def superRead (way : Way) : Result :=
  match m.pending with
  | [] =>
    { state := m
      seen := [.other (.fetch (if 0 < way.size then way.size else m.readableHighWaterMark))]
      frames := [.fetching way] }
  | chunk :: rest =>
    match cutChunk m.readableObjectMode way.size chunk with
    | some (part, left) => m.readChunk way part (left :: rest)
    | none => m.readChunk way chunk rest

/-- What `read`, `readBody` and `readBodyBytes` make of what `super.read` returns. -/
def result (chunk : Option (Stream.Chunk Empty)) : Way → Returned
  | .read _ =>
    match chunk with
    | none => .chunk none
    | some chunk =>
      match asString chunk with
      | none => .castFails
      | some units => .chunk (some (if m.encoding = none then .buffer (bodyBytes units) else .string units))
  | .readBody =>
    match chunk with
    | some (.string units) => .text units
    | some (.buffer bytes) => .text (bufferToString .latin1 bytes)
    | none => .text []
  | .readBodyBytes =>
    match chunk with
    | some (.buffer bytes) => .bytes bytes
    | some (.string units) => .bytes (bodyBytes units)
    | none => .bytes (bodyBytes [])

/-- `Readable.read` returns. -/
def returns (way : Way) (chunk : Option (Stream.Chunk Empty)) : Result :=
  { state := m.maybeEmitEnd, seen := [.returned (m.maybeEmitEnd.result chunk way)] }

def call : MessageCall → Option Result
  | .listen => some m.newListenerAdded
  | .deliver => if m.deliveryScheduled then some m.deliver else none
  | .take way => some (m.superRead way)
  | .setEncoding encoding => some { state := { m with encoding := some encoding } }
  | .pause => some (m.inherit m.toReadable.pause)
  | .resume => some m.resume
  | .destroy error => some (m.inherit (m.toReadable.destroy error .nothing))
  | .destroyed error => if m.destroyed then some (m.inherit (m.toReadable.destroyCallback error)) else none
  | .checkpoint => some (m.inherit (m.toReadable.checkpoint true))

def goOn : MessageFrame → Result
  | .resumed => m.drainFlowing
  | .draining => m.drainFlowing
  | .fetching way => m.returns way none
  | .reading way value => m.returns way (some value)
  | .inherited frame => m.inherit (m.toReadable.goOn bufferToString frame)

/-- The message, its listeners and the microtasks. -/
def program : Reentrant IncomingMessage MessageCall MessageFrame MessageEvent where
  call := call
  resume := goOn
  task
    | .deliver => true
    | .checkpoint => true
    | _ => false

/-- The constructor; nobody listens yet. -/
def create (highWaterMark : Nat) (body : Bytes) : IncomingMessage :=
  let readable : Readable Empty := { readableHighWaterMark := highWaterMark, readableObjectMode := false }
  let pushed := if 0 < body.length then (readable.push (some (.string (bodyString body)))).state else readable
  { toReadable := (pushed.pushEnd .nothing).state }

end IncomingMessage

/-! ## What is handed out -/

def unitsOf : Stream.Chunk Empty → List UInt16
  | .buffer bytes => bodyString bytes
  | .string units => units

/-- The values of 'data'. -/
def dataValues (es : List MessageEvent) : List (Stream.Chunk Empty) :=
  es.filterMap fun
    | .data _ value => some value
    | _ => none

/-- What went out as 'data', one code unit for each octet of a `Buffer`. -/
def handed (es : List MessageEvent) : List UInt16 := (dataValues es).flatMap unitsOf

/-- What a method returns, after all that was seen before: what it handed out itself, or nothing when nothing was left. -/
def Returned.Of (body : Bytes) (pre : List MessageEvent) : Returned → Prop
  | .chunk none => handed pre = bodyString body
  | .chunk (some value) => ∃ size, .data (some size) value ∈ pre
  | .text units => units = [] ∧ handed pre = bodyString body ∨ ∃ value, .data (some 0) value ∈ pre ∧ unitsOf value = units
  | .bytes octets => octets = [] ∧ handed pre = bodyString body ∨ ∃ value, .data (some 0) value ∈ pre ∧ unitsOf value = bodyString octets
  | .castFails => False

/-- **An event of a message that hands out its body**: 'data' goes on in the body, and takes all that is left of it unless `read` was
given a size; at 'end' nothing is left. -/
def MessageEvent.Reads (body : Bytes) (pre : List MessageEvent) : MessageEvent → Prop
  | .data size value =>
    ∃ left, handed pre ++ unitsOf value ++ left = bodyString body ∧ (size = none ∨ size = some 0 → left = [])
  | .returned value => value.Of body pre
  | .other event => event = .ended → handed pre = bodyString body

/-- `IncomingMessage.read` is not called while no encoding is set and some of the body is left. -/
def spared (c : NodeCompat.Config IncomingMessage MessageFrame MessageEvent) : Move MessageCall → Bool
  | .call (.take (.read _)) => c.state.encoding.isSome || c.state.pending.isEmpty
  | _ => true

theorem handed_append (es es' : List MessageEvent) : handed (es ++ es') = handed es ++ handed es' := by
  unfold handed dataValues; rw [filterMap_append, flatMap_append]

theorem bodyBytes_bodyString (octets : Bytes) : bodyBytes (bodyString octets) = octets := by
  unfold bodyBytes bodyString
  rw [List.map_map]
  refine (map_congr_left (fun b _ => ?_)).trans (List.map_id octets)
  exact UInt8.toUInt8_toUInt16 b

theorem bodyString_bodyBytes {before units after : List UInt16} {body : Bytes} (h : before ++ units ++ after = bodyString body) :
    bodyString (bodyBytes units) = units := by
  obtain ⟨front, back, -, hfront, -⟩ := map_eq_append_iff.1 h.symm
  obtain ⟨first, octets, -, -, hoctets⟩ := map_eq_append_iff.1 hfront
  subst hoctets
  rw [show bodyBytes (octets.map UInt8.toUInt16) = octets from bodyBytes_bodyString octets]; rfl

theorem bufferToString_latin1 (octets : Bytes) : bufferToString .latin1 octets = bodyString octets := by
  rw [Stream.bufferToString_eq]
  show utf16 (octets.map Buffer.latin1Char) = octets.map UInt8.toUInt16
  unfold utf16
  rw [flatMap_map]
  have hchar : ∀ b : UInt8, utf16Char (Buffer.latin1Char b) = [b.toUInt16] := by
    have hall : ∀ n < 256, utf16Char (Buffer.latin1Char (UInt8.ofNat n)) = [(UInt8.ofNat n).toUInt16] := by decide +kernel
    intro b
    have := hall b.toNat b.toNat_lt; rwa [UInt8.ofNat_toNat] at this
  rw [map_eq_flatMap]; exact flatMap_congr (fun b _ => hchar b)

namespace IncomingMessage

/-- The frames of the inherited methods, none of which takes a chunk. -/
def quiet : Stream.Frame Empty → Bool
  | .paused | .ended _ | .destroying _ | .destroyError | .closing => true
  | _ => false

/-- What a frame waits for. -/
def Waits (body : Bytes) (m : IncomingMessage) (es : List MessageEvent) : MessageFrame → Prop
  | .fetching _ => handed es = bodyString body
  | .reading way value =>
    .data (some way.size) value ∈ es ∧ ∀ size, way = .read size → m.encoding.isSome = true ∧ ∃ units, value = .string units
  | .inherited frame => quiet frame = true
  | _ => True

/-- What was handed out and what is left are the body. -/
structure Whole (body : Bytes) (m : IncomingMessage) (es : List MessageEvent) : Prop where
  conserved : handed es ++ m.pending.flatMap unitsOf = bodyString body
  single : m.pending = [] ∨ ∃ units, m.pending = [.string units]
  reads : EachAfter (fun pre e => e.Reads body pre) es
  buffers : m.encoding = none → ∀ value ∈ dataValues es, ∃ bytes, value = .buffer bytes

structure Keeps (body : Bytes) (m : IncomingMessage) (es : List MessageEvent) (b : Result) : Prop where
  whole : Whole body b.state (es ++ b.seen)
  waits : ∀ f ∈ b.frames, Waits body b.state (es ++ b.seen) f
  encoding : m.encoding.isSome = true → b.state.encoding.isSome = true

variable {body : Bytes} {m : IncomingMessage} {es : List MessageEvent}

theorem Whole.done (h : Whole body m es) (hp : m.pending = []) : handed es = bodyString body := by
  have := h.conserved; rwa [hp, flatMap_nil, append_nil] at this

theorem keeps_other {b : Result} (h : Whole body m es) (hp : b.state.pending = m.pending)
    (he : b.state.encoding = m.encoding ∨ b.state.encoding.isSome = true)
    (hseen : b.seen = [] ∨ ∃ e, b.seen = [e] ∧ dataValues [e] = [] ∧ e.Reads body es)
    (hf : ∀ f ∈ b.frames, Waits body b.state (es ++ b.seen) f) :
    Keeps body m es b := by
  have hvalues : dataValues (es ++ b.seen) = dataValues es := by
    rcases hseen with hseen | ⟨e, hseen, hnone, -⟩ <;> rw [hseen]
    · rw [append_nil]
    · unfold dataValues at hnone ⊢; rw [filterMap_append, hnone, append_nil]
  refine ⟨⟨?_, hp ▸ h.single, ?_, fun hnone => ?_⟩, hf, fun hsome => ?_⟩
  · unfold handed; rw [hvalues, hp]; exact h.conserved
  · rcases hseen with hseen | ⟨e, hseen, -, hreads⟩ <;> rw [hseen]
    · rw [append_nil]; exact h.reads
    · exact h.reads.snoc hreads
  · rw [hvalues]
    rcases he with he | he
    · exact h.buffers (he ▸ hnone)
    · rw [hnone] at he; cases he
  · rcases he with he | he
    · rwa [he]
    · exact he

/-- **A chunk is handed out**, or a part of it. -/
theorem keeps_data {b : Result} {size : Option Nat} {chunk : Stream.Chunk Empty} {rest : List (Stream.Chunk Empty)} (h : Whole body m es)
    (hcut : ∃ units, chunk = .string units ∧ m.pending.flatMap unitsOf = units ++ rest.flatMap unitsOf)
    (hrest : rest = [] ∨ (∃ units, rest = [.string units]) ∧ size ≠ none ∧ size ≠ some 0) (hp : b.state.pending = rest)
    (he : b.state.encoding = m.encoding) (hseen : b.seen = [.data size (m.emittedChunk chunk)])
    (hf : ∀ f ∈ b.frames, Waits body b.state (es ++ b.seen) f) : Keeps body m es b := by
  obtain ⟨units, rfl, hpending⟩ := hcut
  have hconserved := h.conserved
  rw [hpending, ← append_assoc] at hconserved
  have hunits : unitsOf (m.emittedChunk (.string units)) = units := by
    unfold emittedChunk Stream.emittedChunk
    dsimp only
    split
    · exact bodyString_bodyBytes hconserved
    · rfl
  have hvalues : dataValues (es ++ b.seen) = dataValues es ++ [m.emittedChunk (.string units)] := by
    rw [hseen]; exact filterMap_append
  refine ⟨⟨?_, ?_, ?_, fun hnone value hvalue => ?_⟩, hf, fun hsome => he ▸ hsome⟩
  · unfold handed; rw [hvalues, flatMap_append, flatMap_singleton, hunits, hp]; exact hconserved
  · rw [hp]; exact hrest.imp_right (·.1)
  · rw [hseen]
    refine h.reads.snoc ⟨rest.flatMap unitsOf, ?_, fun hsize => ?_⟩
    · rw [hunits]; exact hconserved
    · rcases hrest with hrest | ⟨-, hne⟩
      · rw [hrest]; rfl
      · exact absurd hsize (not_or.2 hne)
  · rw [hvalues] at hvalue
    rcases mem_append.1 hvalue with hvalue | hvalue
    · exact h.buffers (he ▸ hnone) value hvalue
    · rw [he] at hnone
      refine ⟨bodyBytes units, ?_⟩
      rw [mem_singleton.1 hvalue]; simp [emittedChunk, Stream.emittedChunk, hnone]

/-! ## The methods -/

theorem maybeEmitEnd_same (m : IncomingMessage) : m.maybeEmitEnd.pending = m.pending ∧ m.maybeEmitEnd.encoding = m.encoding := by
  unfold maybeEmitEnd Readable.maybeEmitEnd
  split <;> exact ⟨rfl, rfl⟩

theorem keeps_drainFlowing (h : Whole body m es) : Keeps body m es m.drainFlowing := by
  unfold drainFlowing
  split
  · next chunk rest hpaused hpending =>
    rcases h.single with hnil | ⟨units, hone⟩
    · rw [hnil] at hpending; cases hpending
    · rw [hone] at hpending
      cases hpending
      refine keeps_data h ⟨units, rfl, by rw [hone]; rfl⟩ (.inl rfl) rfl rfl rfl (fun f hf => ?_)
      rw [mem_singleton.1 hf]; trivial
  · obtain ⟨hp, he⟩ := maybeEmitEnd_same m; exact keeps_other h hp (.inl he) (.inl rfl) (by simp)

theorem keeps_resume (h : Whole body m es) : Keeps body m es m.resume := by
  unfold resume
  split
  · exact keeps_other h rfl (.inl rfl) (.inl rfl) (by simp)
  · refine keeps_other h rfl (.inl rfl) (.inr ⟨_, rfl, rfl, nofun⟩) (fun f hf => ?_)
    rw [mem_singleton.1 hf]; trivial

theorem keeps_superRead {way : Way} (h : Whole body m es) (hspared : ∀ size, way = .read size → m.encoding.isSome = true ∨ m.pending = []) :
    Keeps body m es (m.superRead way) := by
  have hframe : ∀ (units : List UInt16) (b : Result), b.seen = [.data (some way.size) (m.emittedChunk (.string units))] →
      b.frames = [.reading way (m.emittedChunk (.string units))] → b.state.encoding = m.encoding → m.pending ≠ [] →
      ∀ f ∈ b.frames, Waits body b.state (es ++ b.seen) f := by
    intro units b hseen hframes he hne f hf
    rw [hframes] at hf
    rw [mem_singleton.1 hf, hseen]
    refine ⟨mem_append_right _ mem_cons_self, fun size hway => ?_⟩
    rcases hspared size hway with hsome | hnil
    · rw [he]
      obtain ⟨e, he⟩ := Option.isSome_iff_exists.1 hsome
      exact ⟨hsome, units, by simp [emittedChunk, Stream.emittedChunk, he]⟩
    · exact absurd hnil hne
  rcases h.single with hnil | ⟨units, hone⟩
  · have hread : m.superRead way =
        { state := m
          seen := [.other (.fetch (if 0 < way.size then way.size else m.readableHighWaterMark))]
          frames := [.fetching way] } := by
      simp [superRead, hnil]
    rw [hread]
    refine keeps_other h rfl (.inl rfl) (.inr ⟨_, rfl, rfl, nofun⟩) (fun f hf => ?_)
    rw [mem_singleton.1 hf]
    show handed (es ++ [.other _]) = _; rw [handed_append, h.done hnil]; exact append_nil _
  · have hne : m.pending ≠ [] := by simp [hone]
    cases hcut : cutChunk m.readableObjectMode way.size (.string units : Stream.Chunk Empty) with
    | none =>
      have hread : m.superRead way = m.readChunk way (.string units) [] := by simp [superRead, hone, hcut]
      rw [hread]
      exact keeps_data h ⟨units, rfl, by rw [hone]; rfl⟩ (.inl rfl) rfl rfl rfl (hframe units _ rfl rfl rfl hne)
    | some parts =>
      obtain ⟨part, left⟩ := parts
      have hread : m.superRead way = m.readChunk way part [left] := by simp [superRead, hone, hcut]
      rw [hread]
      unfold cutChunk at hcut
      dsimp only at hcut
      split at hcut
      · next hsize =>
        cases hcut
        rw [Bool.and_eq_true, Bool.and_eq_true] at hsize
        have hpos : 0 < way.size := of_decide_eq_true hsize.1.2
        refine keeps_data h ⟨units.take way.size, rfl, ?_⟩ (.inr ⟨⟨_, rfl⟩, by simp, ?_⟩) rfl rfl rfl (hframe _ _ rfl rfl rfl hne)
        · rw [hone]
          show units ++ [] = units.take way.size ++ (units.drop way.size ++ [])
          rw [append_nil, append_nil, take_append_drop]
        · intro hzero; rw [Option.some.inj hzero] at hpos; exact absurd hpos (Nat.lt_irrefl 0)
      · cases hcut

theorem result_none (m : IncomingMessage) {pre : List MessageEvent} (way : Way) (h : handed pre = bodyString body) :
    (m.result none way).Of body pre := by
  cases way with
  | read size => exact h
  | readBody | readBodyBytes => exact .inl ⟨rfl, h⟩

theorem result_some {pre : List MessageEvent} {way : Way} {value : Stream.Chunk Empty} (hin : .data (some way.size) value ∈ pre)
    (hread : ∀ size, way = .read size → m.encoding.isSome = true ∧ ∃ units, value = .string units)
    (hoctets : bodyString (bodyBytes (unitsOf value)) = unitsOf value) : (m.result (some value) way).Of body pre := by
  cases way with
  | read size =>
    obtain ⟨hsome, units, rfl⟩ := hread size rfl
    obtain ⟨e, he⟩ := Option.isSome_iff_exists.1 hsome
    have hvalue : m.result (some (.string units)) (.read size) = .chunk (some (.string units)) := by simp [result, asString, he]
    rw [hvalue]; exact ⟨size, hin⟩
  | readBody =>
    cases value with
    | buffer bytes => exact .inr ⟨_, hin, (bufferToString_latin1 bytes).symm⟩
    | string units => exact .inr ⟨_, hin, rfl⟩
    | other value => exact value.elim
  | readBodyBytes =>
    cases value with
    | buffer bytes => exact .inr ⟨_, hin, rfl⟩
    | string units => exact .inr ⟨_, hin, hoctets.symm⟩
    | other value => exact value.elim

theorem Whole.octets (h : Whole body m es) {value : Stream.Chunk Empty} (hin : value ∈ dataValues es) :
    bodyString (bodyBytes (unitsOf value)) = unitsOf value := by
  obtain ⟨before, after, hsplit⟩ := append_of_mem hin
  have hconserved := h.conserved
  unfold handed at hconserved
  rw [hsplit, flatMap_append, flatMap_cons, ← append_assoc, append_assoc] at hconserved
  exact bodyString_bodyBytes hconserved

theorem keeps_returns {way : Way} {chunk : Option (Stream.Chunk Empty)} (h : Whole body m es)
    (hresult : (m.maybeEmitEnd.result chunk way).Of body es) : Keeps body m es (m.returns way chunk) := by
  obtain ⟨hp, he⟩ := maybeEmitEnd_same m
  exact keeps_other h hp (.inl he) (.inr ⟨_, rfl, rfl, hresult⟩) (fun f hf => absurd hf not_mem_nil)

/-- An inherited method leaves the body, and sees its end when nothing is left. -/
structure Calm (r : Readable Empty) (b : Readable.Result Empty) : Prop where
  pending : b.state.pending = r.pending
  encoding : b.state.encoding = r.encoding
  seen : b.seen = [] ∨ ∃ e, b.seen = [e] ∧ (e = .ended → r.pending = [])
  frames : ∀ f ∈ b.frames, quiet f = true

section Calm

variable {r : Readable Empty}

theorem calm_destroy (error : Option StreamError) : Calm r (r.destroy error .nothing) := by
  unfold Readable.destroy
  split
  · exact ⟨rfl, rfl, .inl rfl, by simp [Readable.returned]⟩
  · exact ⟨rfl, rfl, .inl rfl, by simp [quiet]⟩

theorem calm_destroyCallback (error : Option StreamError) : Calm r (r.destroyCallback error) := by
  cases error with
  | none | some e => exact ⟨rfl, rfl, .inr ⟨_, rfl, (by simp)⟩, by simp [Readable.destroyCallback, quiet]⟩

theorem calm_checkpoint (side : Bool) : Calm r (r.checkpoint side) := by
  unfold Readable.checkpoint
  split
  · exact ⟨rfl, rfl, .inl rfl, by simp⟩
  · split
    · exact ⟨rfl, rfl, .inl rfl, by simp⟩
    · next hleft =>
      refine ⟨rfl, rfl, .inr ⟨_, rfl, fun _ => ?_⟩, by simp [quiet]⟩
      simp only [Bool.or_eq_true, Bool.not_eq_true', not_or, Bool.not_eq_false, List.isEmpty_iff] at hleft
      exact hleft.2

theorem calm_goOn {f : Stream.Frame Empty} (hf : quiet f = true) : Calm r (r.goOn bufferToString f) := by
  cases f with
  | paused | closing => exact ⟨rfl, rfl, .inl rfl, by simp [Readable.goOn]⟩
  | ended side =>
    unfold Readable.goOn
    dsimp only
    split
    · exact calm_destroy none
    · exact ⟨rfl, rfl, .inl rfl, by simp⟩
  | destroying ret =>
    cases ret with
    | nothing => exact ⟨rfl, rfl, .inl rfl, by simp [Readable.goOn, Readable.returned]⟩
    | length | refused => exact ⟨rfl, rfl, .inr ⟨_, rfl, (by simp)⟩, by simp [Readable.goOn, Readable.returned]⟩
  | destroyError => exact ⟨rfl, rfl, .inr ⟨_, rfl, (by simp)⟩, by simp [Readable.goOn, quiet]⟩
  | _ => cases hf

end Calm

theorem keeps_inherit {b : Readable.Result Empty} (h : Whole body m es) (hb : Calm m.toReadable b) : Keeps body m es (m.inherit b) := by
  refine keeps_other h hb.pending (.inl hb.encoding) ?_ (fun f hf => ?_)
  · rcases hb.seen with hseen | ⟨e, hseen, hended⟩
    · exact .inl (by simp [inherit, hseen])
    · exact .inr ⟨.other e, by simp [inherit, hseen], rfl, fun he => h.done (hended he)⟩
  · obtain ⟨frame, hframe, rfl⟩ := List.mem_map.1 hf; exact hb.frames frame hframe

theorem keeps_call {k : MessageCall} {b : Result} (h : Whole body m es)
    (hspared : ∀ size, k = .take (.read size) → m.encoding.isSome = true ∨ m.pending = []) (hb : m.call k = some b) : Keeps body m es b := by
  have hsame : ∀ {m' : IncomingMessage}, m'.pending = m.pending → m'.encoding = m.encoding → Keeps body m es { state := m' } :=
    fun hp he => keeps_other h hp (.inl he) (.inl rfl) (fun f hf => absurd hf not_mem_nil)
  cases k with
  | listen =>
    cases hb
    unfold newListenerAdded
    split <;> exact hsame rfl rfl
  | deliver =>
    rw [show m.call .deliver = if m.deliveryScheduled then some m.deliver else none from rfl] at hb
    split at hb
    · cases hb
      unfold deliver
      split
      · exact hsame rfl rfl
      · have hwhole : Whole body { m with deliveryScheduled := false } es := ⟨h.conserved, h.single, h.reads, h.buffers⟩
        have hresume := keeps_resume hwhole; exact ⟨hresume.whole, hresume.waits, hresume.encoding⟩
    · cases hb
  | take way => cases hb; exact keeps_superRead h (fun size hway => hspared size (by rw [hway]))
  | setEncoding encoding =>
    cases hb; exact keeps_other h rfl (.inr rfl) (.inl rfl) (fun f hf => absurd hf not_mem_nil)
  | pause => cases hb; exact keeps_inherit h ⟨rfl, rfl, .inr ⟨_, rfl, nofun⟩, by simp [Readable.pause, quiet]⟩
  | resume => cases hb; exact keeps_resume h
  | destroy error => cases hb; exact keeps_inherit h (calm_destroy error)
  | destroyed error =>
    rw [show m.call (.destroyed error) = if m.destroyed then some (m.inherit (m.toReadable.destroyCallback error)) else none from rfl] at hb
    split at hb
    · cases hb; exact keeps_inherit h (calm_destroyCallback error)
    · cases hb
  | checkpoint => cases hb; exact keeps_inherit h (calm_checkpoint true)

theorem keeps_goOn {f : MessageFrame} (h : Whole body m es) (hf : Waits body m es f) : Keeps body m es (m.goOn f) := by
  cases f with
  | resumed | draining => exact keeps_drainFlowing h
  | fetching way => exact keeps_returns h (result_none _ way hf)
  | reading way value =>
    obtain ⟨hin, hread⟩ := hf
    have hvalue : value ∈ dataValues es := mem_filterMap.2 ⟨_, hin, rfl⟩
    refine keeps_returns h (result_some hin (fun size hway => ?_) (h.octets hvalue))
    rw [(maybeEmitEnd_same m).2]; exact hread size hway
  | inherited frame => exact keeps_inherit h (calm_goOn hf)

/-! ## Runs -/

def Sound (body : Bytes) (c : NodeCompat.Config IncomingMessage MessageFrame MessageEvent) : Prop :=
  Whole body c.state c.trace ∧ ∀ f ∈ c.stack, Waits body c.state c.trace f

theorem Waits.mono {f : MessageFrame} {b : Result} (hb : Keeps body m es b) (hf : Waits body m es f) :
    Waits body b.state (es ++ b.seen) f := by
  cases f with
  | fetching way =>
    have hconserved := hb.whole.conserved
    rw [handed_append, show handed es = bodyString body from hf, append_assoc] at hconserved
    have hnil := append_eq_nil_iff.1 (append_right_eq_self.1 hconserved)
    show handed (es ++ b.seen) = _; rw [handed_append, hnil.1, append_nil]; exact hf
  | reading way value => exact ⟨mem_append_left _ hf.1, fun size hway => ⟨hb.encoding (hf.2 size hway).1, (hf.2 size hway).2⟩⟩
  | inherited frame => exact hf
  | resumed | draining => trivial

theorem Sound.onto {c : NodeCompat.Config IncomingMessage MessageFrame MessageEvent} {b : Result} {stack : List MessageFrame}
    (hb : Keeps body c.state c.trace b) (hstack : ∀ f ∈ stack, Waits body c.state c.trace f) : Sound body (b.onto stack c.trace) := by
  refine ⟨hb.whole, fun f hf => ?_⟩
  rcases mem_append.1 hf with hf | hf
  · exact hb.waits f hf
  · exact (hstack f hf).mono hb

theorem create_pending (highWaterMark : Nat) (body : Bytes) :
    (create highWaterMark body).pending = (if 0 < body.length then [.string (bodyString body)] else []) ∧
      (create highWaterMark body).encoding = none := by
  unfold create
  split <;> exact ⟨rfl, rfl⟩

theorem sound_create (highWaterMark : Nat) (body : Bytes) : Sound body { state := create highWaterMark body } := by
  obtain ⟨hp, -⟩ := create_pending highWaterMark body
  refine ⟨⟨?_, ?_, EachAfter.nil, fun _ value hvalue => absurd hvalue not_mem_nil⟩, fun f hf => absurd hf not_mem_nil⟩
  · show [] ++ (create highWaterMark body).pending.flatMap unitsOf = _
    rw [hp, nil_append]
    split
    · exact append_nil _
    · next hzero =>
      rw [length_eq_zero_iff.1 (Nat.eq_zero_of_not_pos hzero)]; rfl
  · rw [hp]
    split
    · exact .inr ⟨_, rfl⟩
    · exact .inl rfl

theorem sound_run {highWaterMark : Nat} {ls : List (Move MessageCall)} {c : NodeCompat.Config IncomingMessage MessageFrame MessageEvent}
    (h : Run program.step (fun c l => spared c l = true) { state := create highWaterMark body } ls c) : Sound body c := by
  refine Reentrant.invariant_of (I := Sound body) (fun c k b hI hP _ hcall => ?_) (fun c f fs hI _ hstack => ?_) h (sound_create highWaterMark body)
  · refine Sound.onto (keeps_call hI.1 (fun size hk => ?_) hcall) hI.2
    subst hk; simpa [spared] using hP
  · have hframes := hI.2
    rw [hstack] at hframes
    exact Sound.onto (keeps_goOn hI.1 (hframes f mem_cons_self)) (fun g hg => hframes g (mem_cons_of_mem _ hg))

end IncomingMessage

/-- **Every way of reading a body sees the same octets**, when `read` is not the one that takes a part of it without an encoding. The
strings that go out with an encoding are the body's code units, which is its text in some encodings and of some bodies. -/
theorem body_reads_agree {highWaterMark : Nat} {body : Bytes} {ls : List (Move MessageCall)}
    {c : NodeCompat.Config IncomingMessage MessageFrame MessageEvent}
    (h : Run IncomingMessage.program.step (fun c l => spared c l = true) { state := IncomingMessage.create highWaterMark body } ls c) :
    EachAfter (fun pre e => e.Reads body pre) c.trace ∧ (c.state.pending = [] → handed c.trace = bodyString body) ∧
      (c.state.encoding = none → ∃ chunks : List Bytes, dataValues c.trace = chunks.map .buffer ∧
        (c.state.pending = [] → chunks.flatten = body)) ∧
      ∀ e, c.state.encoding = some e → ∀ strings : List (List UInt16), dataValues c.trace = strings.map .string →
        c.state.pending = [] → (strings.flatten = bufferToString e body ↔ bufferToString e body = bodyString body) := by
  obtain ⟨hwhole, -⟩ := IncomingMessage.sound_run h
  refine ⟨hwhole.reads, hwhole.done, fun hnone => ?_, fun e _ strings hstrings hp => ?_⟩
  · have hbuffers : ∀ values : List (Stream.Chunk Empty), (∀ value ∈ values, ∃ bytes, value = .buffer bytes) →
        ∃ chunks : List Bytes, values = chunks.map .buffer := by
      intro values
      induction values with
      | nil => exact fun _ => ⟨[], rfl⟩
      | cons value values ih =>
        intro hall
        obtain ⟨bytes, rfl⟩ := hall value mem_cons_self
        obtain ⟨chunks, rfl⟩ := ih (fun value hvalue => hall value (mem_cons_of_mem _ hvalue))
        exact ⟨bytes :: chunks, rfl⟩
    obtain ⟨chunks, hchunks⟩ := hbuffers _ (hwhole.buffers hnone)
    refine ⟨chunks, hchunks, fun hp => ?_⟩
    have hbody := hwhole.done hp
    unfold handed at hbody
    rw [hchunks, flatMap_map] at hbody
    have hflat : bodyString chunks.flatten = bodyString body := by
      rw [← hbody, flatMap_def]; exact map_flatten
    rw [← bodyBytes_bodyString chunks.flatten, hflat, bodyBytes_bodyString]
  · have hbody := hwhole.done hp
    unfold handed at hbody
    rw [hstrings, flatMap_map] at hbody
    have hflat : strings.flatten = bodyString body := by
      rw [← hbody, flatMap_def]; exact congrArg List.flatten (List.map_id strings).symm
    rw [hflat]; exact eq_comm

/-- Two octets, of which the upper one is no UTF-8: `read` of one of them as latin1, the other one flows. -/
theorem body_reads_agree_latin1 : ∃ c : NodeCompat.Config IncomingMessage MessageFrame MessageEvent,
    Run IncomingMessage.program.step (fun c l => spared c l = true) { state := IncomingMessage.create 16384 [0x61, 0xFF] }
        [.call (.setEncoding .latin1), .call (.take (.read 1)), .ret, .call .listen, .call .deliver, .ret, .ret, .call .checkpoint] c ∧
      dataValues c.trace = [.string [0x61], .string [0xFF]] ∧ .other .ended ∈ c.trace ∧ handed c.trace = bodyString [0x61, 0xFF] ∧
      [[0x61], [0xFF]].flatten = bufferToString .latin1 [0x61, 0xFF] := by
  have hend : (runs (fun c l => if spared c l then IncomingMessage.program.step c l else none)
      { state := IncomingMessage.create 16384 [0x61, 0xFF] } [.call (.setEncoding .latin1), .call (.take (.read 1)), .ret, .call .listen,
        .call .deliver, .ret, .ret, .call .checkpoint]).any (fun c => decide (dataValues c.trace = [.string [0x61], .string [0xFF]]) &&
        decide (.other .ended ∈ c.trace) && decide (c.state.pending = []) && decide (c.state.encoding = some .latin1)) = true := by
    decide +kernel
  obtain ⟨c, hruns, hc⟩ := (Option.any_eq_true _ _).1 hend
  simp only [Bool.and_eq_true, decide_eq_true_eq] at hc
  obtain ⟨⟨⟨hvalues, hended⟩, hp⟩, he⟩ := hc
  have hrun := Run.of_guarded _ hruns
  obtain ⟨-, hhanded, -, hstrings⟩ := body_reads_agree hrun
  refine ⟨c, hrun, hvalues, hended, hhanded hp, ?_⟩
  exact (hstrings .latin1 he [[0x61], [0xFF]] hvalues hp).2 (bufferToString_latin1 _)

/-- `read` without an encoding takes the `Buffer` for a string; with an encoding the body goes out as it is, whatever the encoding. -/
theorem body_read_twice :
    (∃ c : NodeCompat.Config IncomingMessage MessageFrame MessageEvent,
      runs IncomingMessage.program.step { state := IncomingMessage.create 16384 [0x61] } [.call (.take (.read 0)), .ret] = some c ∧
      c.trace = [.data (some 0) (.buffer [0x61]), .returned .castFails]) ∧
    ∃ c : NodeCompat.Config IncomingMessage MessageFrame MessageEvent,
      runs IncomingMessage.program.step { state := IncomingMessage.create 16384 [0x61] }
        [.call (.setEncoding .hex), .call .listen, .call .deliver, .ret, .ret, .call .checkpoint] = some c ∧
      dataValues c.trace = [.string [0x61]] ∧ .other .ended ∈ c.trace ∧ bufferToString .hex [0x61] = [0x36, 0x31] :=
  ⟨⟨_, rfl, rfl⟩, ⟨_, rfl, rfl, by decide, by decide⟩⟩

end NodeCompat.Http
