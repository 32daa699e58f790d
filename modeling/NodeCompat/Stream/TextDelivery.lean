import NodeCompat.Net.SocketData
import NodeCompat.Stream.Delivery
import NodeCompat.Web.TextDecoderStream

/-!
# Text from chunks

A `Readable` or a `Socket` whose encoding is set, and a `TextDecoderStream`, call `toString` on each chunk (`Delivers`). So
the texts that go out are the text of all the bytes as long as no chunk ends inside a group of the encoding, and else they
are not: in UTF-8 and base64 just then (`text_of_chunks`).

A chunk is what goes out: of what is pushed into a `Readable`, a `read(size)` may hand out a part.
-/

namespace NodeCompat.Stream

open List Buffer

/-- The name that a program writes. -/
def BufferEncoding.name : BufferEncoding → Bytes
  | .utf8 => text "utf8"
  | .utf_8 => text "utf-8"
  | .hex => text "hex"
  | .base64 => text "base64"
  | .base64url => text "base64url"
  | .binary => text "binary"
  | .latin1 => text "latin1"
  | .ascii => text "ascii"
  | .ucs2 => text "ucs2"
  | .ucs_2 => text "ucs-2"
  | .utf16le => text "utf16le"
  | .utf_16le => text "utf-16le"

def bufferToString (e : BufferEncoding) (bytes : Bytes) : List UInt16 := (Buffer.toString e.name bytes).getD []

def BufferEncoding.codec : BufferEncoding → Buffer.Codec
  | .utf8 | .utf_8 => .utf8
  | .hex => .hex
  | .base64 => .base64
  | .base64url => .base64url
  | .binary | .latin1 => .latin1
  | .ascii => .ascii
  | .ucs2 | .ucs_2 | .utf16le | .utf_16le => .utf16le

theorem normalizeEncoding_name (e : BufferEncoding) : Buffer.normalizeEncoding e.name = some e.codec := by
  cases e <;> decide +kernel

theorem bufferToString_eq (e : BufferEncoding) (bytes : Bytes) :
    bufferToString e bytes = utf16 (Buffer.decode e.codec bytes) := by
  unfold bufferToString Buffer.toString; rw [normalizeEncoding_name]; rfl

/-! ## `Readable` -/

namespace Readable

variable {V : Type}

/-- Only buffers are pushed, and the encoding is set before the stream is asked for data. -/
def Textual (e : BufferEncoding) (c : Config (Readable V) (Frame V) (Event V)) : Move (Call V) → Prop
  | .call (.push (some (.buffer _))) => True
  | .call (.push (some _)) | .call (.unshift (some _)) => False
  | .call (.setEncoding e') => e' = e
  | .call .resume | .call .onData | .call (.read _) => c.state.encoding = some e
  | _ => True

def bytesOf : Chunk V → Bytes
  | .buffer bytes => bytes
  | _ => []

/-- The chunks that went out. -/
def handed (es : List (Event V)) : List Bytes := es.filterMap fun
    | .data _ chunk _ => some (bytesOf chunk)
    | _ => none

/-- The texts that went out. -/
def texts (es : List (Event V)) : List (List UInt16) := es.filterMap fun
    | .data _ _ (.string units) => some units
    | _ => none

def pushedBytes (es : List (Event V)) : Bytes := (es.filterMap fun
    | .pushed chunk => some (bytesOf chunk)
    | _ => none).flatten

theorem handed_append (es es' : List (Event V)) : handed (es ++ es') = handed es ++ handed es' := filterMap_append

theorem texts_append (es es' : List (Event V)) : texts (es ++ es') = texts es ++ texts es' := filterMap_append

theorem pushedBytes_append (es es' : List (Event V)) : pushedBytes (es ++ es') = pushedBytes es ++ pushedBytes es' := by
  unfold pushedBytes; rw [filterMap_append, flatten_append]

/-- What waits are buffers, and a flowing stream has the encoding. -/
structure Buffers (e : BufferEncoding) (r : Readable V) : Prop where
  waiting : ∀ chunk ∈ r.pending, ∃ bytes, chunk = .buffer bytes
  flowing : r.paused = false → r.encoding = some e

/-- What a block does: bytes go through, and chunks go out as their texts. -/
structure Carries (e : BufferEncoding) (r : Readable V) (b : Result V) : Prop where
  buffers : Buffers e b.state
  texts : texts b.seen = (handed b.seen).map (bufferToString e)
  bytes : (handed b.seen).flatten ++ b.state.pending.flatMap bytesOf = r.pending.flatMap bytesOf ++ pushedBytes b.seen

variable {e : BufferEncoding} {r : Readable V}

variable {c : Config (Readable V) (Frame V) (Event V)} {b : Result V}

variable (ret : Return)

theorem carries_quiet (hb : Buffers e b.state) (hp : b.state.pending = r.pending) (ht : Readable.texts b.seen = [])
    (hh : handed b.seen = []) (hs : pushedBytes b.seen = []) : Carries e r b := by
  refine ⟨hb, ?_, ?_⟩
  · rw [ht, hh]; rfl
  · rw [hh, hs, hp, append_nil]; rfl

theorem carries_returned (h : Buffers e r) : Carries e r (r.returned ret) := by
  cases ret <;> exact carries_quiet h rfl rfl rfl rfl

theorem buffers_maybeEmitEnd (h : Buffers e r) : Buffers e r.maybeEmitEnd ∧ r.maybeEmitEnd.pending = r.pending := by
  unfold maybeEmitEnd
  split
  · exact ⟨h, rfl⟩
  · exact ⟨⟨h.waiting, h.flowing⟩, rfl⟩

theorem carries_maybeEmitEnd (h : Buffers e r) : Carries e r (r.maybeEmitEnd.returned ret) := by
  obtain ⟨hb, hp⟩ := buffers_maybeEmitEnd h
  cases ret <;> exact carries_quiet hb hp rfl rfl rfl

theorem carries_destroy (error : Option StreamError) (ret : Return) (h : Buffers e r) : Carries e r (r.destroy error ret) := by
  unfold destroy
  split
  · exact carries_returned ret h
  · exact carries_quiet ⟨h.waiting, h.flowing⟩ rfl rfl rfl rfl

theorem carries_errorOrDestroy (error : StreamError) (ret : Return) (h : Buffers e r) :
    Carries e r (r.errorOrDestroy error ret) := by
  unfold errorOrDestroy
  split
  · exact carries_returned ret h
  · split
    · exact carries_destroy _ ret h
    · exact carries_quiet ⟨h.waiting, h.flowing⟩ rfl rfl rfl rfl

theorem carries_pushEnd (h : Buffers e r) : Carries e r (r.pushEnd ret) := by
  unfold pushEnd
  split
  · exact carries_returned ret h
  · exact carries_quiet ⟨h.waiting, h.flowing⟩ rfl rfl rfl rfl

theorem carries_push (bytes : Bytes) (h : Buffers e r) : Carries e r (r.push (some (.buffer bytes))) := by
  unfold push
  split
  · exact carries_returned _ h
  · split
    · exact carries_errorOrDestroy .pushAfterEof .refused h
    · refine ⟨⟨fun chunk hc => ?_, h.flowing⟩, rfl, ?_⟩
      · obtain hc | hc := mem_append.1 hc
        · exact h.waiting chunk hc
        · exact ⟨bytes, mem_singleton.1 hc⟩
      · simp [handed, pushedBytes, bytesOf]

theorem carries_data {size : Option Nat} {bytes : Bytes} {rest : List (Chunk V)} (he : r.encoding = some e)
    (hseen : b.seen = [.data size (.buffer bytes) (emittedChunk bufferToString r.encoding (.buffer bytes))])
    (hb : Buffers e b.state) (hp : b.state.pending = rest) (hr : r.pending.flatMap bytesOf = bytes ++ rest.flatMap bytesOf) :
    Carries e r b := by
  rw [he] at hseen
  refine ⟨hb, ?_, ?_⟩
  · rw [hseen]; rfl
  · rw [hseen, hp, hr]
    show (bytes ++ []) ++ _ = _ ++ []; rw [append_nil, append_nil]

theorem carries_drainFlowing (h : Buffers e r) : Carries e r (r.drainFlowing bufferToString ret) := by
  unfold drainFlowing
  split
  · next chunk rest hp hq =>
    obtain ⟨bytes, rfl⟩ := h.waiting chunk (hq ▸ mem_cons_self)
    have hrest : ∀ c ∈ rest, ∃ bytes, c = .buffer bytes := fun c hc => h.waiting c (hq ▸ mem_cons_of_mem _ hc)
    exact carries_data (h.flowing hp) rfl ⟨hrest, h.flowing⟩ rfl (by rw [hq, flatMap_cons]; rfl)
  · exact carries_maybeEmitEnd ret h

theorem carries_resume (he : r.encoding = some e) (h : Buffers e r) : Carries e r r.resume := by
  unfold resume
  split
  · exact carries_quiet h rfl rfl rfl rfl
  · exact carries_quiet ⟨h.waiting, fun _ => he⟩ rfl rfl rfl rfl

theorem carries_read (size : Nat) (he : r.encoding = some e) (h : Buffers e r) : Carries e r (r.read bufferToString size) := by
  unfold read
  split
  · exact carries_quiet h rfl rfl rfl rfl
  · next chunk rest hq =>
    obtain ⟨bytes, rfl⟩ := h.waiting chunk (hq ▸ mem_cons_self)
    have hrest : ∀ c ∈ rest, ∃ bytes, c = .buffer bytes := fun c hc => h.waiting c (hq ▸ mem_cons_of_mem _ hc)
    split
    · next part left hcut =>
      unfold cutChunk at hcut
      dsimp only at hcut
      split at hcut
      · cases hcut
        refine carries_data he rfl ⟨fun c hc => ?_, h.flowing⟩ rfl ?_
        · obtain rfl | hc := mem_cons.1 hc
          · exact ⟨_, rfl⟩
          · exact hrest c hc
        · show _ = _ ++ (Chunk.buffer (bytes.drop size) :: rest).flatMap bytesOf
          rw [hq, flatMap_cons, flatMap_cons, ← append_assoc]
          exact congrArg (· ++ rest.flatMap bytesOf) (take_append_drop size bytes).symm
      · cases hcut
    · exact carries_data he rfl ⟨hrest, h.flowing⟩ rfl (by rw [hq, flatMap_cons]; rfl)

theorem carries_checkpoint (side : Bool) (h : Buffers e r) : Carries e r (r.checkpoint side) := by
  unfold checkpoint
  split
  · exact carries_quiet h rfl rfl rfl rfl
  · split <;> exact carries_quiet ⟨h.waiting, h.flowing⟩ rfl rfl rfl rfl

theorem carries_call {k : Call V} (hP : Textual e c (.call k))
    (hb : c.state.call bufferToString k = some b) (h : Buffers e c.state) : Carries e c.state b := by
  cases k with
  | push chunk =>
    cases hb
    match chunk, hP with
    | some (.buffer bytes), _ => exact carries_push bytes h
    | none, _ =>
      have hE := carries_pushEnd .refused h
      unfold push
      split
      · exact carries_returned _ h
      · split
        · exact carries_returned _ h
        · exact hE
  | pushEnd => cases hb; exact carries_pushEnd _ h
  | unshift chunk =>
    cases hb
    cases chunk with
    | none => exact carries_quiet h rfl rfl rfl rfl
    | some chunk => exact hP.elim
  | pause => cases hb; exact carries_quiet ⟨h.waiting, nofun⟩ rfl rfl rfl rfl
  | resume => cases hb; exact carries_resume hP h
  | onData =>
    cases hb
    unfold newListenerAdded
    split
    · exact carries_quiet h rfl rfl rfl rfl
    · exact carries_resume hP h
  | read size => cases hb; exact carries_read size hP h
  | setEncoding encoding =>
    cases hb
    obtain rfl : encoding = e := hP; exact carries_quiet ⟨h.waiting, fun _ => rfl⟩ rfl rfl rfl rfl
  | destroy error => cases hb; exact carries_destroy _ _ h
  | destroyed error =>
    unfold Readable.call at hb
    dsimp only at hb
    split at hb
    · cases hb
      cases error <;> exact carries_quiet ⟨h.waiting, h.flowing⟩ rfl rfl rfl rfl
    · cases hb
  | checkpoint side => cases hb; exact carries_checkpoint side h

theorem carries_goOn (f : Frame V) (h : Buffers e r) : Carries e r (r.goOn bufferToString f) := by
  cases f with
  | pushed =>
    unfold goOn
    dsimp only
    split
    · exact carries_returned _ h
    · exact carries_drainFlowing _ h
  | endPushed ret =>
    unfold goOn
    dsimp only
    split
    · exact carries_returned _ h
    · exact carries_maybeEmitEnd _ h
  | draining ret | resumed => exact carries_drainFlowing _ h
  | fetching | reading value =>
    obtain ⟨hb, hp⟩ := buffers_maybeEmitEnd h; exact carries_quiet hb hp rfl rfl rfl
  | ended side =>
    unfold goOn
    dsimp only
    split
    · exact carries_destroy _ _ h
    · exact carries_quiet h rfl rfl rfl rfl
  | errorEmitted ret | destroying ret => exact carries_returned _ h
  | destroyError => exact carries_quiet ⟨h.waiting, h.flowing⟩ rfl rfl rfl rfl
  | paused | closing => exact carries_quiet h rfl rfl rfl rfl

structure Carried (e : BufferEncoding) (c : Config (Readable V) (Frame V) (Event V)) : Prop where
  buffers : Buffers e c.state
  texts : texts c.trace = (handed c.trace).map (bufferToString e)
  bytes : (handed c.trace).flatten ++ c.state.pending.flatMap bytesOf = pushedBytes c.trace

theorem carried_onto (stack : List (Frame V)) (h : Carried e c)
    (hb : Carries e c.state b) : Carried e (b.onto stack c.trace) := by
  refine ⟨hb.buffers, ?_, ?_⟩
  · rw [Block.onto_trace, texts_append, handed_append, map_append, h.texts, hb.texts]
  · rw [Block.onto_trace, Block.onto_state, handed_append, pushedBytes_append, flatten_append, append_assoc, hb.bytes,
      ← append_assoc, h.bytes]

/-- **Bytes go through in order, and chunks go out as their texts.** -/
theorem carried {objectMode autoDestroy : Bool} {highWaterMark : Nat} {encoding : Option BufferEncoding} {ls : List (Move (Call V))}
    (h : Run (program bufferToString).step (Textual e) (create objectMode highWaterMark autoDestroy encoding) ls c) : Carried e c := by
  refine Reentrant.invariant (fun c k b hI hP _ hb => ?_) (fun c f fs hI _ => ?_) h ⟨⟨nofun, nofun⟩, rfl, rfl⟩
  · exact carried_onto c.stack hI (carries_call hP hb hI.buffers)
  · exact carried_onto fs hI (carries_goOn f hI.buffers)

end Readable

/-! ## All three -/

/-- Which texts `ts` go out when the chunks `cs`, together `whole`, are decoded. -/
inductive Delivers : Buffer.Codec → Bytes → List Bytes → List (List UInt16) → Prop
  -- a `Readable` that has delivered what was pushed
  | readable {V : Type} {e : BufferEncoding} {objectMode autoDestroy : Bool} {highWaterMark : Nat}
      {encoding : Option BufferEncoding} {ls : List (Move (Call V))} {c : Config (Readable V) (Frame V) (Event V)} :
      Run (Readable.program bufferToString).step (Readable.Textual e)
        (Readable.create objectMode highWaterMark autoDestroy encoding) ls c → c.state.pending = [] →
      Delivers e.codec (Readable.pushedBytes c.trace) (Readable.handed c.trace) (Readable.texts c.trace)
  -- a `net.Socket` that has delivered what arrived
  | socket {e : BufferEncoding} {ls : List (Move Net.SocketData.Call)}
      {c : Config Net.SocketData Net.SocketData.Frame Net.SocketData.Event} :
      Run (Net.SocketData.program bufferToString).step (Net.SocketData.Textual e) { state := {} } ls c →
      c.state.pendingChunks = [] →
      Delivers e.codec (Net.SocketData.received c.trace).flatten (Net.SocketData.received c.trace)
        (Net.SocketData.texts c.trace)
  -- a `TextDecoderStream` whose readable side has been read
  | decoder {ε : Type} {label : Bytes} {codec : Buffer.Codec} {ks : List (Web.TextDecoderStream.Call ε)}
      {s : Web.WritableStream Web.TextDecoderStream.Chunk ε} :
      Buffer.normalizeEncoding label = some codec →
      Run (Web.TextDecoderStream.step label) Web.TextDecoderStream.ReadsProperly Web.TextDecoderStream.create ks s →
      s.readable.queue = [] →
      Delivers codec (Web.TextDecoderStream.written s).flatten (Web.TextDecoderStream.written s)
        (Web.TextDecoderStream.texts s)

theorem Delivers.parts {codec : Buffer.Codec} {whole : Bytes} {cs : List Bytes} {ts : List (List UInt16)}
    (h : Delivers codec whole cs ts) : whole = cs.flatten ∧ ts.flatten = utf16 (cs.flatMap (Buffer.decode codec)) := by
  have hparts : ∀ cs : List Bytes, (cs.map (fun bytes => utf16 (decode codec bytes))).flatten =
      utf16 (cs.flatMap (decode codec)) := by
    intro cs; rw [← flatMap_def, utf16_flatMap]
  cases h with
  | @readable V e objectMode autoDestroy highWaterMark encoding ls c hrun hpending =>
    have hc := Readable.carried hrun
    have hbytes := hc.bytes
    rw [hpending, flatMap_nil, append_nil] at hbytes
    refine ⟨hbytes.symm, ?_⟩
    rw [hc.texts, ← hparts, funext (bufferToString_eq e)]
  | @socket e ls c hrun hpending =>
    have hd := Net.SocketData.decoded hrun
    have ho := (Net.SocketData.inOrder hrun).order
    rw [hpending, append_nil] at ho
    refine ⟨rfl, ?_⟩
    rw [hd.texts, ho, ← hparts, funext (bufferToString_eq e)]
  | decoder hl hrun hqueue =>
    refine ⟨rfl, ?_⟩
    rw [Web.TextDecoderStream.texts_written (Web.TextDecoderStream.run_inv hl hrun) hqueue, hparts]

/-- **The texts are the text of the whole** when no chunk ends inside a group; in the encodings in which every cut shows,
only then. -/
theorem text_of_chunks {codec : Buffer.Codec} {whole : Bytes} {cs : List Bytes} {ts : List (List UInt16)}
    (h : Delivers codec whole cs ts) :
    ((Buffer.groups codec).Uncut cs → ts.flatten = utf16 (Buffer.decode codec whole)) ∧
      (codec.shows = true → (ts.flatten = utf16 (Buffer.decode codec whole) ↔ (Buffer.groups codec).Uncut cs)) := by
  obtain ⟨rfl, hts⟩ := h.parts
  rw [hts]
  have huncut : (groups codec).Uncut cs →
      utf16 (cs.flatMap (decode codec)) = utf16 (decode codec cs.flatten) := fun hu => by
    rw [decode_parts hu]
  refine ⟨huncut, fun hs => ⟨fun heq => ?_, huncut⟩⟩
  exact (decode_parts_iff hs cs).1 (utf16_injective heq)

/-- Five bytes of base64, three and two, each chunk as it arrives at a socket. -/
theorem text_of_chunks_socket : ∃ ts : List (List UInt16), ts.flatten = utf16 (Buffer.decode .base64 [1, 2, 3, 4, 5]) := by
  obtain ⟨c, hrun, hpending, hreceived⟩ : ∃ c : Config Net.SocketData Net.SocketData.Frame Net.SocketData.Event,
      Run (Net.SocketData.program bufferToString).step (Net.SocketData.Textual .base64) { state := {} }
        [.call (.setEncoding .base64), .call (.receive [1, 2, 3]), .ret, .call (.receive [4, 5]), .ret] c ∧
        c.state.pendingChunks = [] ∧ Net.SocketData.received c.trace = [[1, 2, 3], [4, 5]] :=
    ⟨_, .cons rfl rfl (.cons rfl rfl (.cons trivial rfl (.cons rfl rfl (.cons trivial rfl (.nil _))))), rfl, rfl⟩
  have hd := Delivers.socket hrun hpending
  rw [hreceived] at hd
  have hsize : ∀ x xs, (base64Groups false).size (x :: xs) = min (2 + 1) (x :: xs).length := fun _ _ => rfl
  have huncut : (base64Groups false).Uncut [[1, 2, 3], [4, 5]] :=
    ⟨Groups.boundary_of_dvd hsize _ _ (.inl ⟨1, rfl⟩), Groups.boundary_of_dvd hsize _ _ (.inr rfl), trivial⟩
  exact ⟨_, (text_of_chunks hd).1 huncut⟩

/-- The three bytes of one character, pushed as two and one and delivered as they come. -/
theorem delivers_cut : ∃ ts, Delivers .utf8 [0xE2, 0x82, 0xAC] [[0xE2, 0x82], [0xAC]] ts := by
  obtain ⟨c, hrun, hpending, hhanded⟩ : ∃ c : Config (Readable Nat) (Frame Nat) (Event Nat),
      Run (Readable.program bufferToString).step (Readable.Textual .utf8) (Readable.create false 16 true none)
        [.call (.setEncoding .utf8), .call .onData, .ret, .call (.push (some (.buffer [0xE2, 0x82]))), .ret, .ret,
          .call (.push (some (.buffer [0xAC]))), .ret, .ret] c ∧
        c.state.pending = [] ∧ Readable.handed c.trace = [[0xE2, 0x82], [0xAC]] :=
    ⟨_, .cons rfl rfl (.cons rfl rfl (.cons trivial rfl (.cons trivial rfl (.cons trivial rfl (.cons trivial rfl
      (.cons trivial rfl (.cons trivial rfl (.cons trivial rfl (.nil _))))))))), rfl, rfl⟩
  have hd := Delivers.readable hrun hpending
  have hwhole := hd.parts.1
  rw [hhanded] at hd hwhole; rw [hwhole] at hd; exact ⟨_, hd⟩

/-- Each part of the character is decoded to a replacement character. -/
theorem cut_decoded_twice : ¬ ∀ (codec : Buffer.Codec) (whole : Bytes) (cs : List Bytes) (ts : List (List UInt16)),
    Delivers codec whole cs ts → ts.flatten = utf16 (Buffer.decode codec whole) := by
  intro hall
  obtain ⟨ts, hd⟩ := delivers_cut
  have htexts := hd.parts.2
  rw [hall _ _ _ _ hd] at htexts
  revert htexts
  decide +kernel

end NodeCompat.Stream
