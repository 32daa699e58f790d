import NodeCompat.Http.Framing

/-!
# Header blocks

What `headBegin`, `headField` and `headEnd` make of any status, any fields and any flags: a `HeadBlock` and its bytes. The
framing decision is a function of the fields that have gone past (`Output.Noted`), so `headEnd` writes and answers what the
block says (`headTail_block`). A whole response is one block and a body that is framed as the block decides (`Fresh.answer`),
whatever the application has set.
-/

namespace NodeCompat.Http

open List Bool

open NodeCompat.Http.Client

/-! ## The block -/

/-- Whether a field has the name. -/
def named (name : Bytes) (fs : List (Bytes × Bytes)) : Bool := fs.any (fun f => asciiEqualsIgnoreCase f.1 name)

/-- Whether a `Connection` field says `close`, and nothing else. -/
def saysClose (fs : List (Bytes × Bytes)) : Bool :=
  fs.any (fun f => asciiEqualsIgnoreCase f.1 (text "connection") && asciiEqualsIgnoreCase f.2 (text "close"))

/-- A header block: the status line, the fields of the application, and the inputs of `headEnd`. -/
structure HeadBlock where
  status : Nat
  message : Bytes
  fields : List (Bytes × Bytes)
  flags : HeadFlags
  autoContentLength : Option Nat
  date : Bytes

namespace HeadBlock

/-- The framing is left to `headEnd`. -/
def unframed (b : HeadBlock) : Bool :=
  !(b.flags.noBody || named (text "content-length") b.fields || named (text "transfer-encoding") b.fields)

def writesLength (b : HeadBlock) : Bool := b.unframed && b.autoContentLength.isSome

def closeDelimited (b : HeadBlock) : Bool := b.unframed && b.autoContentLength.isNone && b.flags.http10

def chunked (b : HeadBlock) : Bool := b.unframed && b.autoContentLength.isNone && !b.flags.http10

def keepAlive (b : HeadBlock) : Bool := b.flags.keepAliveAsked && !(saysClose b.fields || b.closeDelimited)

/-- The fields that `headEnd` adds. -/
def auto (b : HeadBlock) : List (Bytes × Bytes) :=
  (if b.flags.sendDate && !named (text "date") b.fields then [(text "Date", b.date)] else []) ++
    (if named (text "connection") b.fields then [] else connectionFields b.keepAlive) ++
    (if b.writesLength then [(text "Content-Length", decimal (b.autoContentLength.getD 0))]
      else if b.chunked then [(text "Transfer-Encoding", text "chunked")] else [])

/-- The fields of the block, in their order. -/
def emitted (b : HeadBlock) : List (Bytes × Bytes) := b.fields ++ b.auto

def bytes (b : HeadBlock) : Bytes := statusLine b.status b.message ++ (fieldLines b.emitted ++ crlf)

end HeadBlock

/-! ## What `headField` notes -/

theorem asciiEquals_length {name n : Bytes} (h : name.length ≠ n.length) : asciiEqualsIgnoreCase name n = false := by
  unfold asciiEqualsIgnoreCase
  rw [beq_eq_false_iff_ne]
  intro he; exact h (by simpa using congrArg List.length he)

/-- The flags that the framing decision reads, for the fields gone past. -/
structure Output.Noted (o : Output) (fs : List (Bytes × Bytes)) : Prop where
  length : o.headHasContentLength = named (text "content-length") fs
  encoding : o.headHasTransferEncoding = named (text "transfer-encoding") fs
  date : o.headHasDate = named (text "date") fs
  connection : o.headHasConnection = named (text "connection") fs
  close : o.headConnectionClose = saysClose fs

theorem Output.noteField_noted (o : Output) (name value : Bytes) : o.noteField name value = { o with
      headHasContentLength := o.headHasContentLength || asciiEqualsIgnoreCase name (text "content-length")
      headHasTransferEncoding := o.headHasTransferEncoding || asciiEqualsIgnoreCase name (text "transfer-encoding")
      headHasDate := o.headHasDate || asciiEqualsIgnoreCase name (text "date")
      headHasConnection := o.headHasConnection || asciiEqualsIgnoreCase name (text "connection")
      headConnectionClose := o.headConnectionClose ||
        (asciiEqualsIgnoreCase name (text "connection") && asciiEqualsIgnoreCase value (text "close")) } := by
  have hd : (text "date").length = 4 := by decide
  have hc : (text "connection").length = 10 := by decide
  have hl : (text "content-length").length = 14 := by decide
  have ht : (text "transfer-encoding").length = 17 := by decide
  have hdate : name.length ≠ 4 → asciiEqualsIgnoreCase name (text "date") = false :=
    fun h => asciiEquals_length (by rwa [hd])
  have hconn : name.length ≠ 10 → asciiEqualsIgnoreCase name (text "connection") = false :=
    fun h => asciiEquals_length (by rwa [hc])
  have hlen : name.length ≠ 14 → asciiEqualsIgnoreCase name (text "content-length") = false :=
    fun h => asciiEquals_length (by rwa [hl])
  have henc : name.length ≠ 17 → asciiEqualsIgnoreCase name (text "transfer-encoding") = false :=
    fun h => asciiEquals_length (by rwa [ht])
  unfold noteField
  split
  · next h =>
    rw [hconn (by omega), hlen (by omega), henc (by omega)]
    cases asciiEqualsIgnoreCase name (text "date") <;> simp
  · next h =>
    rw [hdate (by omega), hlen (by omega), henc (by omega)]
    cases asciiEqualsIgnoreCase name (text "connection") <;> simp
  · next h =>
    rw [hdate (by omega), hconn (by omega), henc (by omega)]
    cases asciiEqualsIgnoreCase name (text "content-length") <;> simp
  · next h =>
    rw [hdate (by omega), hconn (by omega), hlen (by omega)]
    cases asciiEqualsIgnoreCase name (text "transfer-encoding") <;> simp
  · next h₄ h₁₀ h₁₄ h₁₇ =>
    rw [hdate h₄, hconn h₁₀, hlen h₁₄, henc h₁₇]; simp

theorem named_concat (name : Bytes) (fs : List (Bytes × Bytes)) (f : Bytes × Bytes) :
    named name (fs ++ [f]) = (named name fs || asciiEqualsIgnoreCase f.1 name) := by
  simp [named]

theorem Output.Noted.headField {o : Output} {fs : List (Bytes × Bytes)} (h : o.Noted fs) (f : Bytes × Bytes) :
    (o.headField f.1 f.2).Noted (fs ++ [f]) := by
  unfold Output.headField
  rw [o.noteField_noted]
  constructor
  · rw [named_concat, ← h.length]; rfl
  · rw [named_concat, ← h.encoding]; rfl
  · rw [named_concat, ← h.date]; rfl
  · rw [named_concat, ← h.connection]; rfl
  · have hs : saysClose (fs ++ [f]) = (saysClose fs ||
        (asciiEqualsIgnoreCase f.1 (text "connection") && asciiEqualsIgnoreCase f.2 (text "close"))) := by
      simp [saysClose]
    rw [hs, ← h.close]; rfl

open HeadBlock

/-- **What `headEnd` writes and answers**, whatever fields have gone past. -/
theorem headTail_block {o : Output} {b : HeadBlock} (h : o.Noted b.fields) :
    o.headTail b.flags b.autoContentLength b.date = (fieldLines b.auto ++ crlf, ⟨b.chunked, b.keepAlive⟩) := by
  have hf : o.decideFraming b.flags b.autoContentLength = (b.chunked, b.closeDelimited, b.writesLength) := by
    unfold Output.decideFraming chunked closeDelimited writesLength unframed
    rw [h.length, h.encoding]
    cases b.flags.noBody || named (text "content-length") b.fields || named (text "transfer-encoding") b.fields with
    | true => rfl
    | false =>
      cases b.autoContentLength with
      | some n => rfl
      | none => cases b.flags.http10 <;> rfl
  have hk : (b.flags.keepAliveAsked && !(o.headConnectionClose || b.closeDelimited)) = b.keepAlive := by
    rw [h.close]; rfl
  have hdate : fieldLines (if b.flags.sendDate && !named (text "date") b.fields then [(text "Date", b.date)] else []) =
      if b.flags.sendDate && !named (text "date") b.fields then dateLine b.date else [] := by
    split
    · exact (dateLine_eq b.date).symm
    · rfl
  have hconn : fieldLines (if named (text "connection") b.fields then [] else connectionFields b.keepAlive) =
      if named (text "connection") b.fields then [] else if b.keepAlive then keepAliveLines else closeLine := by
    split
    · rfl
    · exact connectionFields_eq b.keepAlive
  have hframe : fieldLines (if b.writesLength then [(text "Content-Length", decimal (b.autoContentLength.getD 0))]
      else if b.chunked then [(text "Transfer-Encoding", text "chunked")] else []) =
      if b.writesLength then contentLengthLine (b.autoContentLength.getD 0) else if b.chunked then chunkedLine else [] := by
    split
    · exact (contentLengthLine_eq _).symm
    · split
      · exact chunkedLine_eq.symm
      · rfl
  unfold Output.headTail auto
  rw [hf]
  dsimp only
  rw [hk, fieldLines_append, fieldLines_append, hdate, hconn, hframe, h.connection, h.date]
  split
  · next hc =>
    simp only [and_eq_true, not_eq_true'] at hc
    obtain ⟨⟨⟨⟨hch, hka⟩, hco⟩, hda⟩, hse⟩ := hc
    have hw : b.writesLength = false := by
      simp only [chunked, and_eq_true, Option.isNone_iff_eq_none] at hch; simp [writesLength, hch.1.2]
    simp [hch, hka, hco, hda, hse, hw]
  · rfl

/-! ## The block of a response -/

/-- What a part of the body puts into the stream behind the block. -/
def HeadBlock.piece (b : HeadBlock) (d : Bytes) : Bytes := if b.flags.noBody then [] else if b.chunked then chunkOf d else d

/-- What the last part puts into the stream. -/
def HeadBlock.lastPiece (b : HeadBlock) (d : Bytes) : Bytes :=
  if b.flags.noBody then [] else if b.chunked then chunkOf d ++ lastChunk else d

/-- The body carries the payload in the framing of the block, in some parts. -/
def HeadBlock.Carries (b : HeadBlock) (body payload : Bytes) : Prop :=
  ∃ (ds : List Bytes) (d : Bytes), ds.flatten ++ d = payload ∧ body = ds.flatMap b.piece ++ b.lastPiece d

/-- How the parts are sent: with no body, in chunks, or as they are. -/
def HeadBlock.sentAs (b : HeadBlock) : BodyEnd := if b.flags.noBody then .absent else if b.chunked then .chunked else .length 0

theorem HeadBlock.chunked_noBody {b : HeadBlock} (h : b.flags.noBody = true) : b.chunked = false := by
  simp [chunked, unframed, h]

open Response

theorem HeadBlock.piece_sentAs (b : HeadBlock) : Response.piece b.sentAs = b.piece ∧ Response.lastPiece b.sentAs = b.lastPiece := by
  constructor <;>
  · funext d
    unfold sentAs
    cases hn : b.flags.noBody with
    | true => simp [piece, lastPiece, Response.piece, Response.lastPiece, hn]
    | false =>
      cases hc : b.chunked <;> simp [piece, lastPiece, Response.piece, Response.lastPiece, hn, hc]

namespace Response

variable {r : Response} {s : Bytes} (now : UtcTime)

/-- The block that is serialized with these fields. -/
def block (r : Response) (fs : List (Bytes × Bytes)) (autoContentLength : Option Nat) : HeadBlock where
  status := r.statusCode
  message := if r.statusMessage = [] then statusText r.statusCode else r.statusMessage
  fields := fs
  flags := r.headFlags
  autoContentLength
  date := httpDate now

theorem holds_fields {c : Conn} {gs : List (Bytes × Bytes)} (fs : List (Bytes × Bytes)) (h : c.Holds s)
    (hn : c.out.Noted gs) : (fs.foldl (fun c f => c.output (.headField f.1 f.2)) c).Holds (s ++ fieldLines fs) ∧
      (fs.foldl (fun c f => c.output (.headField f.1 f.2)) c).out.Noted (gs ++ fs) := by
  induction fs generalizing c s gs with
  | nil => exact ⟨by simpa [fieldLines] using h, by simpa using hn⟩
  | cons f fs ih =>
    obtain ⟨h₁, h₂⟩ := ih (Conn.holds_output h (.headField f.1 f.2)) (hn.headField f)
    have hb : s ++ fieldLines (f :: fs) = s ++ (f.1 ++ text ": " ++ f.2 ++ crlf) ++ fieldLines fs := by
      simp [fieldLines, fieldText]
    have hf : gs ++ f :: fs = gs ++ [f] ++ fs := by simp
    rw [hb, hf]; exact ⟨h₁, h₂⟩

/-- **Serializing the header block**: its bytes join the stream, and the response has its answers. -/
theorem serialize_block (h : r.conn.Holds s) (fs : List (Bytes × Bytes)) (len : Option Nat) :
    ∃ c, (r.beginHead.headFields fs).endHead now len = { r with
          conn := c, headersCommitted := true, suppressBody := r.suppressBody || r.noBody,
          chunked := (r.block now fs len).chunked, keepAliveFinal := (r.block now fs len).keepAlive } ∧
      c.Holds (s ++ (r.block now fs len).bytes) := by
  obtain ⟨b, hb⟩ : ∃ b, b = r.block now fs len := ⟨_, rfl⟩
  have h₁ := Conn.holds_output h (.headBegin b.status b.message)
  have hn₁ : (r.conn.output (.headBegin b.status b.message)).out.Noted [] := ⟨rfl, rfl, rfl, rfl, rfl⟩
  obtain ⟨h₂, hn₂⟩ := holds_fields fs h₁ hn₁
  generalize hc₂ : fs.foldl (fun c f => c.output (.headField f.1 f.2)) (r.conn.output (.headBegin b.status b.message)) = c₂
    at h₂ hn₂
  have htail : c₂.out.headTail r.headFlags len (httpDate now) = (fieldLines b.auto ++ crlf, ⟨b.chunked, b.keepAlive⟩) := by
    subst hb; exact headTail_block (b := r.block now fs len) hn₂
  have h₃ := Conn.holds_output h₂ (.headEnd r.headFlags len (httpDate now))
  have hbytes : OutOp.bytes c₂.out (.headEnd r.headFlags len (httpDate now)) = fieldLines b.auto ++ crlf := by
    rw [OutOp.bytes, htail]
  have hbegin : r.beginHead.headFields fs = { r with headersCommitted := true, conn := c₂ } := by
    rw [headFields_eq, ← hc₂, hb]; rfl
  have hflags : ({ r with headersCommitted := true, conn := c₂ } : Response).headFlags = r.headFlags := rfl
  refine ⟨c₂.output (.headEnd r.headFlags len (httpDate now)), ?_, ?_⟩
  · rw [hbegin, endHead, hflags, htail, ← hb]; rfl
  · rw [← hb]
    rw [hbytes] at h₃
    have hfields : b.fields = fs := by rw [hb]; rfl
    simpa [bytes, emitted, fieldLines_append, OutOp.bytes, hfields] using h₃

/-- No header block has been serialized. -/
structure Fresh (r : Response) (s : Bytes) : Prop where
  uncommitted : r.headersCommitted = false
  live : (r.finished || r.destroyed) = false
  unsuppressed : r.suppressBody = false
  holds : r.conn.Holds s

/-- The block is out, and parts of the body behind it. -/
structure Behind (r : Response) (s : Bytes) (b : HeadBlock) (ds : List Bytes) : Prop where
  committed : r.headersCommitted = true
  live : (r.finished || r.destroyed) = false
  suppress : r.suppressBody = b.flags.noBody
  chunked : r.chunked = b.chunked
  keep : r.keepAliveFinal = b.keepAlive
  holds : r.conn.Holds (s ++ b.bytes ++ ds.flatMap b.piece)

variable {b : HeadBlock} {ds : List Bytes}

theorem frames_sentAs (h₁ : r.suppressBody = b.flags.noBody) (h₂ : r.chunked = b.chunked) : r.Frames b.sentAs := by
  unfold sentAs
  constructor
  · rw [h₁]
    cases b.flags.noBody with
    | true => rfl
    | false => cases b.chunked <;> rfl
  · rw [h₂]
    cases hn : b.flags.noBody with
    | true => rw [chunked_noBody hn]; rfl
    | false => cases b.chunked <;> rfl
  · intro h
    split at h
    · cases h
    · split at h <;> cases h

theorem Fresh.serialize (h : r.Fresh s) (fs : List (Bytes × Bytes)) (len : Option Nat) :
    ((r.beginHead.headFields fs).endHead now len).Behind s (r.block now fs len) [] := by
  obtain ⟨c, hr, hc⟩ := serialize_block now h.holds fs len
  rw [hr]; exact ⟨rfl, h.live, by rw [h.unsuppressed]; rfl, rfl, rfl, by simpa using hc⟩

theorem Fresh.commit (h : r.Fresh s) (len : Option Nat) :
    (r.commitHeaders now len).Behind s (r.block now r.staged.fields len) [] := by
  rw [commitHeaders, if_neg (by rw [h.uncommitted]; decide)]
  exact h.serialize now r.staged.fields len

variable (toLowerCase : Bytes → Bytes)

theorem Behind.apply (h : r.Behind s b ds) (ev : Event) :
    ∃ ds', (r.apply now toLowerCase ev).Behind s b ds' ∧ ds'.flatten = ds.flatten ++ written [ev] := by
  obtain ⟨c, w, st, code, message, date, ds', hr, hs, hw⟩ :=
    apply_committed now toLowerCase (frames_sentAs h.suppress h.chunked) h.committed h.live ev
  refine ⟨ds ++ ds', ?_, by rw [flatten_append, hw]⟩
  rw [hr]
  refine ⟨h.committed, h.live, h.suppress, h.chunked, h.keep, ?_⟩
  rw [flatMap_append, ← append_assoc, ← b.piece_sentAs.1]; exact hs _ (b.piece_sentAs.1 ▸ h.holds)

/-- **A response behind its block, to its end.** -/
theorem Behind.answer (es : List Event) (last : Payload) (h : r.Behind s b ds) :
    ∃ body, (r.answer now toLowerCase es last).conn.out.stream = s ++ (b.bytes ++ body) ∧
      (r.answer now toLowerCase es last).keepAliveFinal = b.keepAlive ∧
      b.Carries body (ds.flatten ++ (written es ++ last.bytes)) := by
  induction es generalizing r ds with
  | nil =>
    have hf : ({ r with finished := true } : Response).commitHeaders now (some last.bytes.length) = { r with finished := true } :=
      commitHeaders_committed (r := { r with finished := true }) now h.committed _
    obtain ⟨c, w, hr, hs⟩ := sends_finish (r := { r with finished := true })
      (frames_sentAs (r := { r with finished := true }) h.suppress h.chunked) last
    have hc := hs _ h.holds
    rw [answer, foldl_nil, endWith, if_neg (by rw [h.live]; decide), hf, hr]
    refine ⟨ds.flatMap b.piece ++ b.lastPiece last.bytes, ?_, h.keep, ds, last.bytes, by simp [written], rfl⟩
    show c.out.stream = _; rw [hc.2, b.piece_sentAs.2]; simp
  | cons ev es ih =>
    obtain ⟨ds', hb, hw⟩ := h.apply now toLowerCase ev
    have := ih hb
    rw [hw, append_assoc ds.flatten, ← append_assoc (written [ev]), ← written_cons] at this
    exact this

/-- The block that a response serializes: at the first event that needs it, or at `end`. -/
def blockOf (r : Response) (es : List Event) (last : Payload) : HeadBlock :=
  match es with
  | [] => r.block now r.staged.fields (some last.bytes.length)
  | .writeHead status headers :: _ =>
    let r := { r with statusCode := status }
    if !r.staged.firstHeaderPresent then r.block now (entryFields headers) none
    else (r.stageEntries toLowerCase headers).block now (r.stageEntries toLowerCase headers).staged.fields none
  | .flushHeaders :: _ => r.block now r.staged.fields none
  | .write _ :: _ => r.block now r.staged.fields none
  | ev :: es => (r.apply now toLowerCase ev).blockOf es last

theorem Fresh.update (h : r.Fresh s) {c : Conn} {st : Staged} {code : Nat} {message : Bytes} {date : Bool} (hc : c.Holds s) :
    ({ r with conn := c, staged := st, statusCode := code, statusMessage := message, sendDate := date } : Response).Fresh s :=
  ⟨h.uncommitted, h.live, h.unsuppressed, hc⟩

theorem Fresh.writeHead (h : r.Fresh s) (status : Nat) (headers : HeaderEntries) (es : List Event) (last : Payload) :
    (r.writeHead now toLowerCase status headers).Behind s
      (r.blockOf now toLowerCase (.writeHead status headers :: es) last) [] := by
  have h' : ({ r with statusCode := status } : Response).Fresh s := h.update h.holds
  have hst : (stageEntries toLowerCase { r with statusCode := status } headers).Fresh s := by
    obtain ⟨st, hst⟩ := stageEntries_eq toLowerCase headers { r with statusCode := status }; rw [hst]; exact h.update h.holds
  unfold Response.writeHead blockOf
  by_cases hp : r.staged.firstHeaderPresent = true
  · rw [if_neg (by simp [hp]), if_neg (by simp [hp])]; exact hst.commit now none
  · rw [if_pos (by simp [hp, h.uncommitted]), if_pos (by simp [hp])]; exact h'.serialize now (entryFields headers) none

theorem Fresh.answer_commit (h : r.Fresh s) {ev : Event} (hev : ev = .flushHeaders ∨ ∃ chunk, ev = .write chunk)
    (es : List Event) (last : Payload) :
    ∃ body, (r.answer now toLowerCase (ev :: es) last).conn.out.stream =
        s ++ ((r.block now r.staged.fields none).bytes ++ body) ∧
      (r.answer now toLowerCase (ev :: es) last).keepAliveFinal = (r.block now r.staged.fields none).keepAlive ∧
      (r.block now r.staged.fields none).Carries body (written (ev :: es) ++ last.bytes) := by
  have hc := h.commit now none
  have hcc := commitHeaders_committed now hc.committed none
  have hsame : r.apply now toLowerCase ev = (r.commitHeaders now none).apply now toLowerCase ev := by
    rcases hev with rfl | ⟨chunk, rfl⟩
    · rw [apply, apply, flushHeaders, flushHeaders, hcc]
    · rw [apply, apply, write, write, if_neg (by rw [h.live]; decide), if_neg (by rw [hc.live]; decide), hcc]
  rw [answer_cons, hsame, ← answer_cons]; exact hc.answer now toLowerCase (ev :: es) last

/-- **A response is its block and a body in the framing of the block**, and `end` passes on what the block says about the
connection. -/
theorem Fresh.answer (es : List Event) (last : Payload) (h : r.Fresh s) :
    ∃ body, (r.answer now toLowerCase es last).conn.out.stream = s ++ ((r.blockOf now toLowerCase es last).bytes ++ body) ∧
      (r.answer now toLowerCase es last).keepAliveFinal = (r.blockOf now toLowerCase es last).keepAlive ∧
      (r.blockOf now toLowerCase es last).Carries body (written es ++ last.bytes) := by
  induction es generalizing r with
  | nil =>
    obtain ⟨c, hr, hc⟩ := serialize_block (r := { r with finished := true }) now h.holds r.staged.fields (some last.bytes.length)
    obtain ⟨b, hb⟩ : ∃ b, b = r.block now r.staged.fields (some last.bytes.length) := ⟨_, rfl⟩
    have hu : ¬ ({ r with finished := true } : Response).headersCommitted = true := by simp [h.uncommitted]
    have hsup : (r.suppressBody || r.noBody) = b.flags.noBody := by rw [h.unsuppressed, hb]; rfl
    obtain ⟨c', w, hf, hs⟩ := sends_finish
      (r := { r with
        finished := true, conn := c, headersCommitted := true, suppressBody := r.suppressBody || r.noBody
        chunked := b.chunked, keepAliveFinal := b.keepAlive })
      (frames_sentAs (b := b) hsup rfl) last
    have hc' := hs _ hc
    have hfin : r.answer now toLowerCase [] last = (finish
        { r with
          finished := true, conn := c, headersCommitted := true, suppressBody := r.suppressBody || r.noBody
          chunked := b.chunked, keepAliveFinal := b.keepAlive } last).done := by
      rw [answer, foldl_nil, endWith, if_neg (by rw [h.live]; decide), commitHeaders, if_neg hu, hr, hb]
      rfl
    rw [hfin, hf]
    refine ⟨b.lastPiece last.bytes, ?_, ?_, [], last.bytes, by simp [written], ?_⟩
    · show c'.out.stream = _; rw [hc'.2, b.piece_sentAs.2, append_assoc, hb]; rfl
    · rw [hb]; rfl
    · rw [hb]; rfl
  | cons ev es ih =>
    cases ev with
    | setHeader name value | appendHeader name value | removeHeader name | statusCode code => exact ih (h.update h.holds)
    | statusMessage message | sendDate on => exact ih (h.update h.holds)
    | writeHead status headers => exact (h.writeHead now toLowerCase status headers es last).answer now toLowerCase es last
    | flushHeaders => exact h.answer_commit now toLowerCase (.inl rfl) es last
    | write chunk => exact h.answer_commit now toLowerCase (.inr ⟨chunk, rfl⟩) es last
    | ready ev =>
      obtain ⟨c, hr, hc⟩ := r.holds_ready ev
      have hf : (r.ready ev).Fresh s := by rw [hr]; exact h.update (hc s h.holds)
      exact ih hf
    | returns was =>
      obtain ⟨c, hr, hc⟩ := r.holds_returns was
      have hf : (r.returns was).Fresh s := by rw [hr]; exact h.update (hc s h.holds)
      exact ih hf

theorem fresh_create (c : Conn) (hc : c.out.Ok) (method httpVersion : Bytes) (keepAlive : Bool) :
    (create c method httpVersion keepAlive).Fresh c.out.stream :=
  ⟨rfl, rfl, rfl, ⟨hc, rfl⟩⟩

end Response

end NodeCompat.Http
