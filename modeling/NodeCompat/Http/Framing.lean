import NodeCompat.Http.Decode
import NodeCompat.Http.Response

/-!
# The framing of responses

Whatever calls an application makes, the client reads from the bytes of the response exactly what was written. The head
is serialized once, and says where the body ends (`commit_spec`); from there on every part of the body is framed as the
head says, and `end` closes the framing. A response that is not begun has put no byte into the stream (`Unbegun`).
-/

namespace NodeCompat.Http

open List

open NodeCompat.Http.Client Payload

/-! ## The head -/

variable {n : Bytes} {len : Option Nat} {o : Output}

/-- The fields that decide the framing, or are decided with it. -/
def framingNames : List Bytes := [text "content-length", text "transfer-encoding", text "connection"]

/-- A header that says nothing about the framing, and fits into a line. -/
structure Plain (name value : Bytes) : Prop where
  name_line : LineText name
  value_line : LineText value
  not_framing : ∀ n ∈ framingNames, asciiEqualsIgnoreCase (seenName name) n = false

theorem Plain.not_named {name value : Bytes} (h : Plain name value) (hn : n ∈ framingNames) :
    asciiEqualsIgnoreCase name n = false := by
  have hcolon : ∀ n ∈ framingNames, lowerByte colon ∉ n.map lowerByte := by decide
  by_contra hc
  have he : name.map lowerByte = n.map lowerByte := by
    simpa [asciiEqualsIgnoreCase] using hc
  have hname : colon ∉ name := by
    intro hm
    apply hcolon n hn
    rw [← he]; exact mem_map_of_mem hm
  have := h.not_framing n hn; rw [seenName_eq hname] at this; exact hc this

/-- No field that decides the framing has gone past. -/
structure Output.Unframed (o : Output) : Prop where
  length : o.headHasContentLength = false
  encoding : o.headHasTransferEncoding = false
  connection : o.headHasConnection = false
  close : o.headConnectionClose = false

theorem Output.unframed_headField (h : o.Unframed) {name value : Bytes} (hp : Plain name value) :
    (o.headField name value).Unframed := by
  have hl : asciiEqualsIgnoreCase name (text "content-length") = false := hp.not_named (by decide)
  have ht : asciiEqualsIgnoreCase name (text "transfer-encoding") = false := hp.not_named (by decide)
  have hc : asciiEqualsIgnoreCase name (text "connection") = false := hp.not_named (by decide)
  have hn : (o.noteField name value).Unframed := by
    unfold noteField
    split
    · split
      · exact ⟨h.length, h.encoding, h.connection, h.close⟩
      · exact h
    · rw [if_neg (by simp [hc])]; exact h
    · rw [if_neg (by simp [hl])]; exact h
    · rw [if_neg (by simp [ht])]; exact h
    · exact h
  exact ⟨hn.length, hn.encoding, hn.connection, hn.close⟩

/-- Where the body ends, by the inputs of `headEnd`. -/
def endOf (noBody http10 : Bool) (autoContentLength : Option Nat) : BodyEnd :=
  if noBody then .absent
  else
    match autoContentLength with
    | some n => .length n
    | none => if http10 then .close else .chunked

def connectionFields (keepAlive : Bool) : List (Bytes × Bytes) :=
  if keepAlive then [(text "Connection", text "keep-alive"), (text "Keep-Alive", text "timeout=5")]
  else [(text "Connection", text "close")]

def framingFields : BodyEnd → List (Bytes × Bytes)
  | .absent => []
  | .chunked => [(text "Transfer-Encoding", text "chunked")]
  | .length n => [(text "Content-Length", decimal n)]
  | .close => []

/-- The fields that `headEnd` adds. -/
def autoFields (date : List Bytes) (keepAlive : Bool) (e : BodyEnd) : List (Bytes × Bytes) :=
  date.map (fun d => (text "Date", d)) ++ connectionFields keepAlive ++ framingFields e

theorem fieldLines_append (fs gs : List (Bytes × Bytes)) : fieldLines (fs ++ gs) = fieldLines fs ++ fieldLines gs :=
  flatMap_append

theorem dateLine_eq (date : Bytes) : dateLine date = fieldLines [(text "Date", date)] := by
  have : text "Date: " = text "Date" ++ text ": " := by decide
  simp [dateLine, fieldLines, fieldText, this]

theorem contentLengthLine_eq (n : Nat) : contentLengthLine n = fieldLines [(text "Content-Length", decimal n)] := by
  have : text "Content-Length: " = text "Content-Length" ++ text ": " := by decide
  simp [contentLengthLine, fieldLines, fieldText, this]

theorem connectionFields_eq : ∀ k : Bool, fieldLines (connectionFields k) = if k then keepAliveLines else closeLine := by
  decide

theorem chunkedLine_eq : chunkedLine = fieldLines [(text "Transfer-Encoding", text "chunked")] := by decide

/-- The dates that `headEnd` writes: one, or none. -/
def autoDate (o : Output) (flags : HeadFlags) (date : Bytes) : List Bytes :=
  if flags.sendDate && !o.headHasDate then [date] else []

/-- Whether a Content-Length is written. -/
def Client.BodyEnd.isLength : BodyEnd → Bool
  | .length _ => true
  | _ => false

theorem decideFraming_eq (h : o.Unframed) {flags : HeadFlags} {e : BodyEnd}
    (he : endOf flags.noBody flags.http10 len = e) : o.decideFraming flags len = (e == .chunked, e == .close, e.isLength) := by
  obtain ⟨noBody, http10, asked, send⟩ := flags
  subst he
  simp only [Output.decideFraming, endOf, h.length, h.encoding]
  cases noBody with
  | true => rfl
  | false =>
    cases len with
    | some n => rfl
    | none => cases http10 <;> rfl

theorem endOf_length {noBody http10 : Bool} {n : Nat} (h : endOf noBody http10 len = .length n) : len = some n := by
  unfold endOf at h
  split at h
  · cases h
  · split at h
    · cases h; rfl
    · split at h <;> cases h

theorem headTail_eq (h : o.Unframed) {flags : HeadFlags} {e : BodyEnd}
    (he : endOf flags.noBody flags.http10 len = e) (date : Bytes) : o.headTail flags len date =
      (fieldLines (autoFields (autoDate o flags date) (flags.keepAliveAsked && !(e == .close)) e) ++ crlf,
        ⟨e == .chunked, flags.keepAliveAsked && !(e == .close)⟩) := by
  have hd := decideFraming_eq h he
  have hdate : fieldLines ((autoDate o flags date).map (fun d => (text "Date", d))) =
      if flags.sendDate && !o.headHasDate then dateLine date else [] := by
    unfold autoDate
    split
    · exact (dateLine_eq date).symm
    · rfl
  simp only [Output.headTail, hd, h.connection, h.close, autoFields, fieldLines_append, hdate, connectionFields_eq,
    Bool.false_or, Bool.not_false, Bool.and_true, Bool.false_eq_true, if_false]
  cases e with
  | absent | close => simp [BodyEnd.isLength, framingFields, fieldLines]
  | length n => cases endOf_length he; simp [BodyEnd.isLength, framingFields, contentLengthLine_eq]
  | chunked =>
    simp +contextual [BodyEnd.isLength, framingFields, chunkedLine_eq]

/-! ## What the client makes of the head -/

theorem values_append (n : Bytes) (fs gs : List (Bytes × Bytes)) : values n (fs ++ gs) = values n fs ++ values n gs := by
  simp [values]

theorem values_plain {fs : List (Bytes × Bytes)} (h : ∀ f ∈ fs, Plain f.1 f.2) (hn : n ∈ framingNames) :
    values n (fs.map seen) = [] := by
  simp only [values, map_eq_nil_iff, filter_eq_nil_iff, mem_map]
  rintro _ ⟨f, hf, rfl⟩; rw [(readField_fieldText f).2, (h f hf).not_framing n hn]; decide

theorem values_date (date : List Bytes) (hn : n ∈ framingNames) :
    values n ((date.map (fun d => (text "Date", d))).map seen) = [] := by
  have hname : ∀ n ∈ framingNames, asciiEqualsIgnoreCase (seenName (text "Date")) n = false := by decide
  simp only [values, map_map, map_eq_nil_iff, filter_eq_nil_iff, mem_map]
  rintro _ ⟨d, -, rfl⟩; rw [Function.comp_apply, (readField_fieldText _).2, hname n hn]; decide

theorem trimBlanks_decimal (n : Nat) : trimBlanks (decimal n) = decimal n := by
  have hb : ∀ c, isDigit c = true → isBlank c = false := by
    intro c hc
    simp only [isDigit, Bool.and_eq_true, decide_eq_true_eq] at hc
    rw [isBlank, Bool.or_eq_false_iff, beq_eq_false_iff_ne, beq_eq_false_iff_ne]
    constructor <;> (rintro rfl; exact absurd hc (by decide))
  apply trimBlanks_of_bare
  · intro c hc; exact hb c (isDigit_of_mem_decimal (mem_of_mem_head? hc))
  · intro c hc; exact hb c (isDigit_of_mem_decimal (mem_of_mem_getLast? hc))

theorem seen_framingFields (e : BodyEnd) : (framingFields e).map seen = framingFields e := by
  cases e with
  | absent | close => rfl
  | chunked => decide +kernel
  | length n =>
    have hn : colon ∉ text "Content-Length" := by decide
    rw [framingFields, map_singleton, seen_eq hn (trimBlanks_decimal n)]

theorem values_auto (date : List Bytes) (k : Bool) (e : BodyEnd)
    (hn : n = text "content-length" ∨ n = text "transfer-encoding") :
    values n ((autoFields date k e).map seen) = values n (framingFields e) := by
  have hk : ∀ k : Bool, values (text "content-length") ((connectionFields k).map seen) = [] ∧
      values (text "transfer-encoding") ((connectionFields k).map seen) = [] := by
    decide +kernel
  have hk' : values n ((connectionFields k).map seen) = [] := by
    rcases hn with rfl | rfl
    · exact (hk k).1
    · exact (hk k).2
  have hmem : n ∈ framingNames := by
    rcases hn with rfl | rfl <;> decide
  rw [autoFields, map_append, map_append, values_append, values_append, values_date date hmem, hk',
    seen_framingFields]
  rfl

/-- Whether a response to the request has no body, for its final status. -/
def Bodiless (isHead : Bool) (status : Nat) : Prop := isHead = true ∨ status = 204 ∨ status = 304

instance (isHead : Bool) (status : Nat) : Decidable (Bodiless isHead status) :=
  inferInstanceAs (Decidable (isHead = true ∨ status = 204 ∨ status = 304))

/-- **The client finds the end of the body where the head was meant to put it.** -/
theorem bodyEnd_eq {isHead : Bool} {status : Nat} (hs : 200 ≤ status) {fs : List (Bytes × Bytes)}
    (hfs : ∀ f ∈ fs, Plain f.1 f.2) (date : List Bytes) (k : Bool) {e : BodyEnd}
    (he : e = .absent ↔ Bodiless isHead status) :
    bodyEnd isHead status ((fs ++ autoFields date k e).map seen) = some e := by
  have hv : ∀ {n}, n = text "content-length" ∨ n = text "transfer-encoding" →
      values n ((fs ++ autoFields date k e).map seen) = values n (framingFields e) := by
    intro n hn
    have hmem : n ∈ framingNames := by
      rcases hn with rfl | rfl <;> decide
    rw [map_append, values_append, values_plain hfs hmem, values_auto date k e hn, nil_append]
  have hc : (isHead || status < 200 || status == 204 || status == 304) = true ↔ e = .absent := by
    have hlt : ¬ status < 200 := by omega
    simp [he, Bodiless, hlt, or_assoc]
  unfold bodyEnd
  split
  · next h => rw [hc.1 h]
  · next h =>
    rw [hv (.inr rfl), hv (.inl rfl)]
    cases e with
    | absent => exact absurd (hc.2 rfl) h
    | chunked => decide +kernel
    | close => rfl
    | length n =>
      have hl : values (text "content-length") (framingFields (.length n)) = [decimal n] := rfl
      have ht : values (text "transfer-encoding") (framingFields (.length n)) = [] := rfl
      simp [hl, ht, readDecimal_decimal]

/-! ## Texts that fit into a line -/

theorem statusText_line (code : Nat) : cr ∉ statusText code := by
  have htable : ∀ p ∈ STATUS_CODES, cr ∉ p.2 := by decide +kernel
  unfold statusText
  split
  · decide
  · split
    · decide
    · split
      · decide
      · split
        · decide
        · cases hl : STATUS_CODES.lookup code with
          | none => decide
          | some t =>
            obtain ⟨l₁, l₂, ht, -⟩ := lookup_eq_some_iff.1 hl; exact htable (code, t) (by rw [ht]; simp)

theorem twoDigits_line (n : Nat) : cr ∉ twoDigits n := by
  have hd : cr ∉ decimal n := not_mem_decimal (by decide) n
  have h0 : cr ∉ text "0" := by decide
  unfold twoDigits
  split
  · simp [h0, hd]
  · exact hd

theorem httpDate_line (t : UtcTime) : cr ∉ httpDate t := by
  have hday : ∀ i, cr ∉ dayNames.get i := by decide
  have hmonth : ∀ i, cr ∉ monthNames.get i := by decide
  have hyear : cr ∉ decimal t.year := not_mem_decimal (by decide) t.year
  have h₁ : cr ∉ text ", " := by decide
  have h₂ : cr ∉ [sp] := by decide
  have h₃ : cr ∉ [colon] := by decide
  have h₄ : cr ∉ text " GMT" := by decide
  simp only [httpDate, mem_append, not_or, and_assoc]
  exact ⟨hday _, h₁, twoDigits_line _, h₂, hmonth _, h₂, hyear, h₂, twoDigits_line _, h₃, twoDigits_line _, h₃,
    twoDigits_line _, h₄⟩

theorem autoFields_line {date : List Bytes} (hd : ∀ d ∈ date, cr ∉ d) (k : Bool) (e : BodyEnd) :
    ∀ f ∈ autoFields date k e, cr ∉ f.1 ∧ cr ∉ f.2 := by
  have hk : ∀ k : Bool, ∀ f ∈ connectionFields k, cr ∉ f.1 ∧ cr ∉ f.2 := by decide
  have he : ∀ f ∈ framingFields e, cr ∉ f.1 ∧ cr ∉ f.2 := by
    cases e with
    | absent | close | chunked => decide
    | length n =>
      intro f hf
      have hn : cr ∉ text "Content-Length" := by decide
      rw [mem_singleton.1 hf]; exact ⟨hn, not_mem_decimal (by decide) n⟩
  intro f hf
  simp only [autoFields, mem_append, mem_map] at hf
  rcases hf with (⟨d, hmem, rfl⟩ | hf) | hf
  · have hn : cr ∉ text "Date" := by decide
    exact ⟨hn, hd d hmem⟩
  · exact hk k f hf
  · exact he f hf

/-! ## Writing -/

/-- What has been queued on a connection. -/
def Conn.Holds (c : Conn) (s : Bytes) : Prop := c.out.Ok ∧ c.out.stream = s

variable {c : Conn} {s : Bytes}

theorem Conn.holds_flushAndMaybeClose (h : c.Holds s) : c.flushAndMaybeClose.Holds s :=
  ⟨Output.ok_flush h.1, Output.stream_flush.trans h.2⟩

theorem Conn.holds_flushUnlessProcessing (h : c.Holds s) : c.flushUnlessProcessing.Holds s := by
  unfold flushUnlessProcessing
  split
  · exact h
  · exact holds_flushAndMaybeClose h

theorem Conn.holds_output (h : c.Holds s) (op : OutOp) : (c.output op).Holds (s ++ op.bytes c.out) := by
  have ha : ({ c with out := c.out.apply op } : Conn).Holds (s ++ op.bytes c.out) :=
    ⟨Output.ok_apply h.1 op, by rw [← h.2]; exact Output.stream_apply h.1 op⟩
  unfold output
  split
  · exact holds_flushUnlessProcessing ha
  · exact ha

open Conn

namespace Response

variable {r : Response} (now : UtcTime)

/-- The response has put `data` into the stream, and nothing else has changed. -/
def Sends (r r' : Response) (data : Bytes) : Prop :=
  ∃ c w, r' = { r with conn := c, headWritten := w } ∧ ∀ s, r.conn.Holds s → c.Holds (s ++ data)

theorem sends_nil (r : Response) : r.Sends r [] := ⟨r.conn, r.headWritten, rfl, fun s h => by rwa [append_nil]⟩

theorem sends_emit (r : Response) (data : Bytes) : r.Sends (r.emit (.body data)) data :=
  ⟨_, r.headWritten, rfl, fun _ h => holds_output h (.body data)⟩

theorem Sends.trans {r₁ r₂ r₃ : Response} {a b : Bytes} (h₁ : r₁.Sends r₂ a) (h₂ : r₂.Sends r₃ b) : r₁.Sends r₃ (a ++ b) := by
  obtain ⟨c, w, rfl, hc⟩ := h₁
  obtain ⟨d, w', rfl, hd⟩ := h₂
  refine ⟨d, w', rfl, fun s h => ?_⟩
  rw [← append_assoc]; exact hd _ (hc s h)

theorem sends_body (r : Response) (data : Bytes) : r.Sends (if data.length > 0 then r.emit (.body data) else r) data := by
  split
  · exact r.sends_emit data
  · next h =>
    rw [eq_nil_of_length_eq_zero (by omega : data.length = 0)]; exact r.sends_nil

theorem sends_emitPayload (r : Response) (data : Bytes) : r.Sends (r.emitPayload data) data := by
  unfold emitPayload
  split
  · exact ⟨_, true, rfl, fun _ h => holds_output h (.body data)⟩
  · exact r.sends_body data

theorem sends_emitPayloadBytes (r : Response) (start data suffix : Bytes) :
    r.Sends (r.emitPayloadBytes start data suffix) (start ++ data ++ suffix) :=
  ((r.sends_emitPayload start).trans (sends_body _ data)).trans (sends_body _ suffix)

/-! ## Serializing the head -/

theorem headFields_eq (fs : List (Bytes × Bytes)) (r : Response) :
    r.headFields fs = { r with conn := fs.foldl (fun c f => c.output (.headField f.1 f.2)) r.conn } := by
  induction fs generalizing r with
  | nil => rfl
  | cons f fs ih => exact ih (r.emit (.headField f.1 f.2))

theorem holds_headFields {fs : List (Bytes × Bytes)} (hfs : ∀ f ∈ fs, Plain f.1 f.2) (h : c.Holds s)
    (hu : c.out.Unframed) : (fs.foldl (fun c f => c.output (.headField f.1 f.2)) c).Holds (s ++ fieldLines fs) ∧
      (fs.foldl (fun c f => c.output (.headField f.1 f.2)) c).out.Unframed := by
  induction fs generalizing c s with
  | nil => exact ⟨by simpa [fieldLines] using h, hu⟩
  | cons f fs ih =>
    have hf := hfs f mem_cons_self
    have := ih (fun g hg => hfs g (mem_cons_of_mem f hg)) (holds_output h (.headField f.1 f.2))
      (Output.unframed_headField hu hf)
    refine ⟨?_, this.2⟩
    have hb : s ++ fieldLines (f :: fs) = s ++ (f.1 ++ text ": " ++ f.2 ++ crlf) ++ fieldLines fs := by
      simp [fieldLines, fieldText]
    rw [hb]; exact this.1

theorem noBody_iff (hs : 200 ≤ r.statusCode) : r.noBody = true ↔ Bodiless r.isHead r.statusCode := by
  have hlt : ¬ r.statusCode < 200 := by omega
  simp [noBody, Bodiless, hlt, or_assoc]

theorem endOf_absent {noBody http10 : Bool} {len : Option Nat} : endOf noBody http10 len = .absent ↔ noBody = true := by
  cases noBody with
  | true => simp [endOf]
  | false =>
    cases len with
    | some n => simp [endOf]
    | none => cases http10 <;> simp [endOf]

/-- **What serializing the header block comes to**: a head that tells every client where the body ends, and flags that
say the same. -/
theorem commit_spec (h : r.conn.Holds s) (hsup : r.suppressBody = false) (hmsg : LineText r.statusMessage)
    (hs : 200 ≤ r.statusCode ∧ r.statusCode ≤ 999) {fs : List (Bytes × Bytes)} (hfs : ∀ f ∈ fs, Plain f.1 f.2)
    {len : Option Nat} {e : BodyEnd} (he : endOf r.noBody r.http10 len = e) :
    ∃ c head, (r.beginHead.headFields fs).endHead now len = { r with
          conn := c, headersCommitted := true, suppressBody := e == .absent, chunked := e == .chunked,
          keepAliveFinal := r.keepAliveRequested && !(e == .close) } ∧
      c.Holds (s ++ head) ∧ ∀ rest, readHead r.isHead (head ++ rest) = some (e, rest) := by
  obtain ⟨message, hmessage⟩ : ∃ m, m = if r.statusMessage = [] then statusText r.statusCode else r.statusMessage := ⟨_, rfl⟩
  have hcr : cr ∉ message := by
    rw [hmessage]
    split
    · exact statusText_line r.statusCode
    · exact hmsg.1
  have h₁ := holds_output h (.headBegin r.statusCode message)
  have hu : (r.conn.output (.headBegin r.statusCode message)).out.Unframed := ⟨rfl, rfl, rfl, rfl⟩
  obtain ⟨h₂, hu₂⟩ := holds_headFields hfs h₁ hu
  generalize hc₂ : fs.foldl (fun c f => c.output (.headField f.1 f.2)) (r.conn.output (.headBegin r.statusCode message)) = c₂
    at h₂ hu₂
  have he' : endOf r.headFlags.noBody r.headFlags.http10 len = e := he
  have htail := headTail_eq hu₂ he' (httpDate now)
  have h₃ := holds_output h₂ (.headEnd r.headFlags len (httpDate now))
  have hdate : ∀ d ∈ autoDate c₂.out r.headFlags (httpDate now), cr ∉ d := by
    intro d hd
    unfold autoDate at hd
    split at hd
    · rw [mem_singleton.1 hd]; exact httpDate_line now
    · cases hd
  generalize hau : autoFields (autoDate c₂.out r.headFlags (httpDate now)) (r.keepAliveRequested && !(e == .close)) e = auto
  have hlines : ∀ f ∈ fs ++ auto, cr ∉ f.1 ∧ cr ∉ f.2 := by
    intro f hf
    rcases mem_append.1 hf with hf | hf
    · exact ⟨(hfs f hf).name_line.1, (hfs f hf).value_line.1⟩
    · rw [← hau] at hf; exact autoFields_line hdate _ e f hf
  have hend : bodyEnd r.isHead r.statusCode ((fs ++ auto).map seen) = some e := by
    rw [← hau]
    apply bodyEnd_eq hs.1 hfs
    rw [← he, endOf_absent, noBody_iff hs.1]
  refine ⟨c₂.output (.headEnd r.headFlags len (httpDate now)),
    statusLine r.statusCode message ++ (fieldLines fs ++ (fieldLines auto ++ crlf)), ?_, ?_, ?_⟩
  · have hbegin : r.beginHead.headFields fs = { r with headersCommitted := true, conn := c₂ } := by
      rw [headFields_eq, ← hc₂, hmessage]; rfl
    have hflags : ({ r with headersCommitted := true, conn := c₂ } : Response).headFlags = r.headFlags := rfl
    have hnone : (r.suppressBody || r.noBody) = (e == .absent) := by
      rw [hsup, Bool.false_or, Bool.eq_iff_iff, beq_iff_eq, ← he, endOf_absent]
    rw [hbegin, endHead, hflags, htail, ← hnone]; rfl
  · rw [show OutOp.bytes c₂.out (.headEnd r.headFlags len (httpDate now)) = fieldLines auto ++ crlf by
      rw [OutOp.bytes, htail, ← hau]; rfl] at h₃
    simpa [OutOp.bytes] using h₃
  · intro rest
    have hhead : statusLine r.statusCode message ++ (fieldLines fs ++ (fieldLines auto ++ crlf)) ++ rest =
        statusLine r.statusCode message ++ (fieldLines (fs ++ auto) ++ (crlf ++ rest)) := by
      simp [fieldLines_append]
    rw [hhead, readHead_head (by omega) (by omega) hcr hlines, hend]; rfl

/-! ## A response that is begun -/

/-- What a part of the body puts into the stream. -/
def piece : BodyEnd → Bytes → Bytes
  | .absent, _ => []
  | .chunked, d => chunkOf d
  | .length _, d => d
  | .close, d => d

/-- What the last part puts into the stream. -/
def lastPiece : BodyEnd → Bytes → Bytes
  | .chunked, d => chunkOf d ++ lastChunk
  | e, d => piece e d

/-- The flags of the response are those of the head. -/
structure Frames (r : Response) (e : BodyEnd) : Prop where
  suppress : r.suppressBody = (e == .absent)
  chunked : r.chunked = (e == .chunked)
  keep : e = .close → r.keepAliveFinal = false

/-- The head is out, and so are some parts of a body whose length it does not give. -/
structure Begun (r : Response) (s : Bytes) (e : BodyEnd) (ds : List Bytes) : Prop where
  committed : r.headersCommitted = true
  live : (r.finished || r.destroyed) = false
  streams : e.isLength = false
  frames : r.Frames e
  holds : r.conn.Holds (s ++ ds.flatMap (piece e))

variable {e : BodyEnd} {ds : List Bytes}

theorem commitHeaders_committed (h : r.headersCommitted = true) (len : Option Nat) : r.commitHeaders now len = r := by
  rw [commitHeaders, if_pos h]

theorem piece_nil (e : BodyEnd) : piece e [] = [] := by
  cases e <;> rfl

theorem sends_write (hf : r.Frames e) (hc : r.headersCommitted = true) (hl : (r.finished || r.destroyed) = false)
    (chunk : Payload) : r.Sends (r.write now chunk).2 (piece e chunk.bytes) := by
  rw [write, if_neg (by rw [hl]; decide), commitHeaders_committed now hc]
  cases chunk with
  | string d =>
    have hp : (if d.length > 0 && !r.suppressBody then if r.chunked then hexText d.length ++ crlf ++ d ++ crlf else d
        else []) = piece e d := by
      rw [hf.suppress, hf.chunked]
      by_cases hd : d = []
      · simp [hd, piece_nil]
      · have hlen : 0 < d.length := length_pos_iff.2 hd
        cases e <;> simp [piece, chunkOf, chunkBytes, hd, hlen]
    simp only [hp]; exact r.sends_emitPayload (piece e d)
  | octets d =>
    simp only [hf.suppress, hf.chunked]
    by_cases hd : d = []
    · subst hd; rw [bytes, piece_nil]; exact r.sends_emitPayload []
    · have hlen : ¬ d.length = 0 := fun hz => hd (eq_nil_of_length_eq_zero hz)
      cases e with
      | absent => simpa [hlen, piece] using r.sends_emitPayload []
      | chunked =>
        simpa [hlen, piece, chunkOf, chunkBytes, hd, bytes] using
          r.sends_emitPayloadBytes (hexText d.length ++ crlf) d crlf
      | length n | close => simpa [hlen, piece, bytes] using r.sends_emitPayloadBytes [] d []

theorem sends_finish (hf : r.Frames e) (chunk : Payload) : r.Sends (r.finish chunk) (lastPiece e chunk.bytes) := by
  have hs := hf.suppress
  have hc := hf.chunked
  cases chunk with
  | string d =>
    cases e with
    | absent => simpa [finish, hs, lastPiece, piece] using r.sends_emitPayload []
    | chunked =>
      rw [finish, if_neg (by rw [hs]; decide), if_pos (by rw [hc]; decide)]
      exact ⟨_, true, rfl, fun _ h => holds_output h (.finalChunk d)⟩
    | length n | close => simpa [finish, hs, hc, lastPiece, piece, bytes] using r.sends_emitPayload d
  | octets d =>
    cases e with
    | absent => simpa [finish, hs, lastPiece, piece] using r.sends_emitPayload []
    | chunked =>
      have hp : (if d.length > 0 then hexText d.length ++ crlf else []) ++ d ++
          (if d.length > 0 then text "\r\n0\r\n\r\n" else text "0\r\n\r\n") = lastPiece .chunked d := by
        have htext : text "\r\n0\r\n\r\n" = crlf ++ lastChunk := by decide
        by_cases hd : d = []
        · simp [hd, lastPiece, chunkOf, lastChunk]
        · have hlen : 0 < d.length := length_pos_iff.2 hd; simp [hd, hlen, lastPiece, chunkOf, chunkBytes, htext]
      rw [finish, if_neg (by rw [hs]; decide), if_pos (by rw [hc]; decide), bytes, ← hp]
      exact r.sends_emitPayloadBytes _ d _
    | length n | close => simpa [finish, hs, hc, lastPiece, piece, bytes] using r.sends_emitPayloadBytes [] d []

/-! ## What the client reads -/

/-- The body that a client reads. -/
def bodyOf (e : BodyEnd) (body : Bytes) : Bytes := if e = .absent then [] else body

/-- What is in the stream behind `s` is a response with this body: it says itself where it ends, or it ends with the
connection, which is closed. -/
def Delivered (isHead : Bool) (s body : Bytes) (c : Conn) : Prop :=
  ∃ wire, c.out.stream = s ++ wire ∧ ((∀ next, Client.read isHead (wire ++ next) = some ⟨body, next, true⟩) ∨
    (Client.read isHead wire = some ⟨body, [], false⟩ ∧ c.closing = true))

theorem delivered_done {isHead : Bool} {head : Bytes} (hhead : ∀ rest, readHead isHead (head ++ rest) = some (e, rest))
    (hf : r.Frames e) {d : Bytes} (hlen : ∀ n, e = .length n → n = d.length ∧ ds = [])
    (h : r.conn.Holds (s ++ head ++ ds.flatMap (piece e) ++ lastPiece e d)) :
    Delivered isHead s (bodyOf e (ds.flatten ++ d)) r.done.conn := by
  refine ⟨head ++ (ds.flatMap (piece e) ++ lastPiece e d), ?_, ?_⟩
  · rw [← append_assoc, ← append_assoc]; exact h.2
  · cases e with
    | absent =>
      left
      intro next
      have hp : ds.flatMap (piece .absent) ++ lastPiece .absent d = [] := by
        simp [lastPiece, piece]
      rw [Client.read, hp, append_nil, hhead]; rfl
    | chunked =>
      left
      intro next
      have hp : ds.flatMap (piece .chunked) ++ lastPiece .chunked d ++ next = (ds ++ [d]).flatMap chunkOf ++ (lastChunk ++ next) := by
        simp [lastPiece, show piece .chunked = chunkOf from rfl]
      rw [Client.read, append_assoc, hhead, hp]
      simp only [readBody]; rw [readChunks_chunks]; simp [bodyOf]
    | length n =>
      left
      intro next
      obtain ⟨rfl, rfl⟩ := hlen n rfl
      rw [Client.read, append_assoc, hhead]; simp [readBody, lastPiece, piece, bodyOf]
    | close =>
      right
      have hp : ds.flatMap (piece .close) ++ lastPiece .close d = ds.flatten ++ d := by
        simp [lastPiece, show piece .close = id from rfl, flatMap_id]
      constructor
      · rw [Client.read, hhead, hp]; rfl
      · simp [done, hf.keep rfl]

theorem delivered_finish {isHead : Bool} {head : Bytes} (hhead : ∀ rest, readHead isHead (head ++ rest) = some (e, rest))
    (hf : r.Frames e) (last : Payload) (hlen : ∀ n, e = .length n → n = last.bytes.length ∧ ds = [])
    (h : r.conn.Holds (s ++ head ++ ds.flatMap (piece e))) :
    Delivered isHead s (bodyOf e (ds.flatten ++ last.bytes)) (r.finish last).done.conn := by
  obtain ⟨c, w, hr, hs⟩ := sends_finish hf last
  have hf' : (r.finish last).Frames e := by rw [hr]; exact ⟨hf.suppress, hf.chunked, hf.keep⟩
  apply delivered_done hhead hf' hlen
  rw [hr]; exact hs _ h

/-! ## Runs -/

/-- The bytes written before `end`. -/
def written : List Event → Bytes
  | [] => []
  | .write chunk :: es => chunk.bytes ++ written es
  | _ :: es => written es

/-- The status that the header block gets: the one set when it is serialized. -/
def sentStatus : Nat → List Event → Nat
  | status, [] => status
  | _, .statusCode code :: es => sentStatus code es
  | _, .writeHead code _ :: _ => code
  | status, .flushHeaders :: _ => status
  | status, .write _ :: _ => status
  | status, _ :: es => sentStatus status es

/-- The headers and the status message that an event stages fit into lines, and leave the framing alone. -/
def Event.Plain : Event → Prop
  | .setHeader name value => ∀ v ∈ value.toList, Http.Plain name v
  | .appendHeader name value => ∀ v ∈ value.toList, Http.Plain name v
  | .writeHead _ headers => ∀ entry ∈ headers, ∀ value ∈ entry.2, ∀ v ∈ value.toList, Http.Plain entry.1 v
  | .statusMessage message => LineText message
  | _ => True

theorem holds_ready (r : Response) (ev : Revents) :
    ∃ c, r.ready ev = { r with conn := c } ∧ ∀ s, r.conn.Holds s → c.Holds s := by
  have hstart : ∀ s, r.conn.Holds s → (r.conn.startReady ev).1.Holds s := by
    intro s h
    unfold startReady
    split
    · exact h
    · split
      · dsimp only
        split
        · exact h
        · split <;> exact h
      · exact holds_flushAndMaybeClose h
  unfold ready
  generalize r.conn.startReady ev = p at hstart
  obtain ⟨c, go⟩ := p
  split
  · exact ⟨r.conn, rfl, fun _ h => h⟩
  · cases go with
    | true => exact ⟨_, rfl, fun s h => holds_flushAndMaybeClose (hstart s h)⟩
    | false => exact ⟨_, rfl, hstart⟩

theorem holds_returns (r : Response) (was : Bool) :
    ∃ c, r.returns was = { r with conn := c } ∧ ∀ s, r.conn.Holds s → c.Holds s :=
  ⟨_, rfl, fun _ h => holds_flushUnlessProcessing h⟩

theorem stageEntries_eq (toLowerCase : Bytes → Bytes) (headers : HeaderEntries) (r : Response) :
    ∃ st, r.stageEntries toLowerCase headers = { r with staged := st } := by
  induction headers generalizing r with
  | nil => exact ⟨_, rfl⟩
  | cons entry headers ih =>
    obtain ⟨key, value⟩ := entry
    cases value with
    | none => exact ih r
    | some value => exact ih (r.setHeader toLowerCase key value)

theorem Begun.update (h : r.Begun s e ds) {c : Conn} {w : Bool} {st : Staged} {code : Nat} {message : Bytes} {date : Bool}
    {ds' : List Bytes} (hc : c.Holds (s ++ ds'.flatMap (piece e))) :
    ({ r with conn := c, headWritten := w, staged := st, statusCode := code, statusMessage := message,
              sendDate := date } : Response).Begun s e ds' :=
  ⟨h.committed, h.live, h.streams, ⟨h.frames.suppress, h.frames.chunked, h.frames.keep⟩, hc⟩

variable (toLowerCase : Bytes → Bytes)

/-- **One event behind the head**: the head stays as it is, and what is written joins the stream as the head says. -/
theorem apply_committed (hf : r.Frames e) (hc : r.headersCommitted = true) (hl : (r.finished || r.destroyed) = false)
    (ev : Event) : ∃ c w st code message date, ∃ ds : List Bytes, r.apply now toLowerCase ev =
        { r with conn := c, headWritten := w, staged := st, statusCode := code, statusMessage := message, sendDate := date } ∧
      (∀ s, r.conn.Holds s → c.Holds (s ++ ds.flatMap (piece e))) ∧ ds.flatten = written [ev] := by
  have hquiet : ∀ s, r.conn.Holds s → r.conn.Holds (s ++ ([] : List Bytes).flatMap (piece e)) := by
    intro s h; simpa using h
  cases ev with
  | setHeader name value | appendHeader name value | removeHeader name | statusCode code => exact ⟨_, _, _, _, _, _, [], rfl, hquiet, rfl⟩
  | statusMessage message | sendDate on => exact ⟨_, _, _, _, _, _, [], rfl, hquiet, rfl⟩
  | writeHead status headers =>
    obtain ⟨st, hst⟩ := stageEntries_eq toLowerCase headers { r with statusCode := status }
    refine ⟨r.conn, r.headWritten, st, status, r.statusMessage, r.sendDate, [], ?_, hquiet, rfl⟩
    rw [apply, writeHead, if_neg (by simp [hc]), hst]
    exact commitHeaders_committed (r := { r with statusCode := status, staged := st }) now hc none
  | flushHeaders =>
    obtain ⟨c, w, hr, hs⟩ := r.sends_emitPayload []
    have hw : r.apply now toLowerCase .flushHeaders = { r with conn := c, headWritten := w } := by
      rw [apply, flushHeaders, commitHeaders_committed now hc, hr]
    exact ⟨c, w, _, _, _, _, [], hw, by simpa using hs, rfl⟩
  | write chunk =>
    obtain ⟨c, w, hr, hs⟩ := sends_write now hf hc hl chunk
    exact ⟨c, w, _, _, _, _, [chunk.bytes], hr, by simpa using hs, by simp [written]⟩
  | ready ev =>
    obtain ⟨c, hr, hs⟩ := r.holds_ready ev; exact ⟨c, _, _, _, _, _, [], hr, by simpa using hs, rfl⟩
  | returns was =>
    obtain ⟨c, hr, hs⟩ := r.holds_returns was; exact ⟨c, _, _, _, _, _, [], hr, by simpa using hs, rfl⟩

/-- **One event of a begun response.** -/
theorem begun_apply (h : r.Begun s e ds) (ev : Event) :
    ∃ ds', (r.apply now toLowerCase ev).Begun s e ds' ∧ ds'.flatten = ds.flatten ++ written [ev] := by
  obtain ⟨c, w, st, code, message, date, ds', hr, hs, hw⟩ := apply_committed now toLowerCase h.frames h.committed h.live ev
  refine ⟨ds ++ ds', ?_, by rw [flatten_append, hw]⟩
  rw [hr]
  refine h.update ?_
  rw [flatMap_append, ← append_assoc]; exact hs _ h.holds

theorem written_cons (ev : Event) (es : List Event) : written (ev :: es) = written [ev] ++ written es := by
  cases ev <;> simp [written]

theorem answer_cons (r : Response) (ev : Event) (es : List Event) (last : Payload) :
    r.answer now toLowerCase (ev :: es) last = (r.apply now toLowerCase ev).answer now toLowerCase es last := rfl

/-- **A begun response to its end.** -/
theorem answer_begun {isHead : Bool} {head : Bytes} (hhead : ∀ rest, readHead isHead (head ++ rest) = some (e, rest))
    (es : List Event) (last : Payload) (h : r.Begun (s ++ head) e ds) :
    Delivered isHead s (bodyOf e (ds.flatten ++ written es ++ last.bytes)) (r.answer now toLowerCase es last).conn := by
  induction es generalizing r ds with
  | nil =>
    have hlen : ∀ n, e = .length n → n = last.bytes.length ∧ ds = [] := by rintro n rfl; cases h.streams
    have hc : ({ r with finished := true } : Response).commitHeaders now (some last.bytes.length) = { r with finished := true } :=
      commitHeaders_committed (r := { r with finished := true }) now h.committed _
    have hf : ({ r with finished := true } : Response).Frames e := ⟨h.frames.suppress, h.frames.chunked, h.frames.keep⟩
    rw [answer, foldl_nil, endWith, if_neg (by rw [h.live]; decide), hc, written, append_nil]
    exact delivered_finish hhead hf last hlen h.holds
  | cons ev es ih =>
    obtain ⟨ds', hb, hw⟩ := begun_apply now toLowerCase h ev
    have := ih hb; rw [hw, append_assoc ds.flatten, ← written_cons] at this; exact this

/-! ## A response that is not begun -/

/-- No byte of the response is out. -/
structure Unbegun (r : Response) (s : Bytes) (isHead : Bool) : Prop where
  uncommitted : r.headersCommitted = false
  live : (r.finished || r.destroyed) = false
  unsuppressed : r.suppressBody = false
  head : r.isHead = isHead
  message : LineText r.statusMessage
  staged : r.staged.Ok Http.Plain
  holds : r.conn.Holds s

theorem bodyOf_eq {isHead : Bool} {status : Nat} (h : e = .absent ↔ Bodiless isHead status) (body : Bytes) :
    bodyOf e body = if Bodiless isHead status then [] else body := by
  simp [bodyOf, h]

variable {isHead : Bool}

variable {headers : HeaderEntries}

theorem Unbegun.begin (h : r.Unbegun s isHead) (hs : 200 ≤ r.statusCode ∧ r.statusCode ≤ 999)
    {fs : List (Bytes × Bytes)} (hfs : ∀ f ∈ fs, Http.Plain f.1 f.2) :
    ∃ e head, (∀ rest, readHead isHead (head ++ rest) = some (e, rest)) ∧ (e = .absent ↔ Bodiless isHead r.statusCode) ∧
      ((r.beginHead.headFields fs).endHead now none).Begun (s ++ head) e [] := by
  obtain ⟨e, he⟩ : ∃ e, endOf r.noBody r.http10 none = e := ⟨_, rfl⟩
  obtain ⟨c, head, hr, hc, hread⟩ := commit_spec now h.holds h.unsuppressed h.message hs hfs he
  refine ⟨e, head, ?_, ?_, ?_⟩
  · rw [← h.head]; exact hread
  · rw [← he, endOf_absent, noBody_iff hs.1, h.head]
  · rw [hr]
    refine ⟨rfl, h.live, ?_, ⟨rfl, rfl, ?_⟩, ?_⟩
    · cases e with
      | length n => cases endOf_length he
      | _ => rfl
    · rintro rfl; simp
    · simpa using hc

theorem Unbegun.commit (h : r.Unbegun s isHead) (hs : 200 ≤ r.statusCode ∧ r.statusCode ≤ 999) :
    ∃ e head, (∀ rest, readHead isHead (head ++ rest) = some (e, rest)) ∧ (e = .absent ↔ Bodiless isHead r.statusCode) ∧
      (r.commitHeaders now none).Begun (s ++ head) e [] := by
  rw [commitHeaders, if_neg (by rw [h.uncommitted]; decide)]
  exact h.begin now hs h.staged.fields

theorem answer_commit (hl : (r.finished || r.destroyed) = false) (hc : (r.commitHeaders now none).Begun s e ds) {ev : Event}
    (hev : ev = .flushHeaders ∨ ∃ chunk, ev = .write chunk) (es : List Event) (last : Payload) :
    r.answer now toLowerCase (ev :: es) last = (r.commitHeaders now none).answer now toLowerCase (ev :: es) last := by
  have hcc := commitHeaders_committed now hc.committed none
  have : r.apply now toLowerCase ev = (r.commitHeaders now none).apply now toLowerCase ev := by
    rcases hev with rfl | ⟨chunk, rfl⟩
    · rw [apply, apply, flushHeaders, flushHeaders, hcc]
    · rw [apply, apply, write, write, if_neg (by rw [hl]; decide), if_neg (by rw [hc.live]; decide), hcc]
  rw [answer_cons, answer_cons, this]

theorem Unbegun.stageEntries (h : r.Unbegun s isHead)
    (hp : ∀ entry ∈ headers, ∀ value ∈ entry.2, ∀ v ∈ value.toList, Http.Plain entry.1 v) :
    (r.stageEntries toLowerCase headers).Unbegun s isHead := by
  induction headers generalizing r with
  | nil => exact h
  | cons entry headers ih =>
    have hp' := fun x hx => hp x (mem_cons_of_mem entry hx)
    obtain ⟨key, value⟩ := entry
    cases value with
    | none => exact ih h hp'
    | some value =>
      have hv := hp (key, some value) mem_cons_self value rfl
      exact ih (r := r.setHeader toLowerCase key value)
        ⟨h.uncommitted, h.live, h.unsuppressed, h.head, h.message, h.staged.setHeader hv, h.holds⟩ hp'

theorem plain_entryFields (hp : ∀ entry ∈ headers, ∀ value ∈ entry.2, ∀ v ∈ value.toList, Http.Plain entry.1 v) :
    ∀ f ∈ entryFields headers, Http.Plain f.1 f.2 := by
  intro f hf
  obtain ⟨⟨key, value⟩, hmem, hf⟩ := mem_flatMap.1 hf
  cases value with
  | none => cases hf
  | some value => obtain ⟨v, hv, rfl⟩ := mem_map.1 hf; exact hp (key, some value) hmem value rfl v hv

theorem Unbegun.writeHead (h : r.Unbegun s isHead) {status : Nat} (hs : 200 ≤ status ∧ status ≤ 999)
    (hp : ∀ entry ∈ headers, ∀ value ∈ entry.2, ∀ v ∈ value.toList, Http.Plain entry.1 v) :
    ∃ e head, (∀ rest, readHead isHead (head ++ rest) = some (e, rest)) ∧ (e = .absent ↔ Bodiless isHead status) ∧
      (r.writeHead now toLowerCase status headers).Begun (s ++ head) e [] := by
  have h' : ({ r with statusCode := status } : Response).Unbegun s isHead :=
    ⟨h.uncommitted, h.live, h.unsuppressed, h.head, h.message, h.staged, h.holds⟩
  unfold Response.writeHead
  dsimp only
  split
  · exact h'.begin now hs (plain_entryFields hp)
  · obtain ⟨st, hst⟩ := stageEntries_eq toLowerCase headers { r with statusCode := status }
    have hu := h'.stageEntries toLowerCase hp; rw [hst] at hu ⊢; exact hu.commit now hs

theorem Unbegun.endWith (h : r.Unbegun s isHead) (hs : 200 ≤ r.statusCode ∧ r.statusCode ≤ 999) (last : Payload) :
    Delivered isHead s (if Bodiless isHead r.statusCode then [] else last.bytes) (r.endWith now last).conn := by
  obtain ⟨e, he⟩ : ∃ e, endOf r.noBody r.http10 (some last.bytes.length) = e := ⟨_, rfl⟩
  obtain ⟨c, head, hr, hc, hread⟩ :=
    commit_spec (r := { r with finished := true }) now h.holds h.unsuppressed h.message hs h.staged.fields he
  have habs : e = .absent ↔ Bodiless isHead r.statusCode := by
    rw [← he, endOf_absent, noBody_iff hs.1, h.head]
  have hlen : ∀ n, e = .length n → n = last.bytes.length ∧ ([] : List Bytes) = [] := by
    rintro n rfl; exact ⟨(Option.some.inj (endOf_length he)).symm, rfl⟩
  have hu : ¬ ({ r with finished := true } : Response).headersCommitted = true := by simp [h.uncommitted]
  have hl : ¬ (r.finished || r.destroyed) = true := by simp [h.live]
  rw [Response.endWith, if_neg hl, commitHeaders, if_neg hu, hr, ← bodyOf_eq habs, ← h.head]
  refine delivered_finish hread ⟨rfl, rfl, ?_⟩ last hlen (by simpa using hc)
  rintro rfl; simp

/-- **A response that is not begun, to its end.** -/
theorem answer_unbegun (es : List Event) (last : Payload) (h : r.Unbegun s isHead) (hes : ∀ ev ∈ es, ev.Plain)
    (hs : 200 ≤ sentStatus r.statusCode es ∧ sentStatus r.statusCode es ≤ 999) :
    Delivered isHead s (if Bodiless isHead (sentStatus r.statusCode es) then [] else written es ++ last.bytes)
      (r.answer now toLowerCase es last).conn := by
  induction es generalizing r with
  | nil => exact h.endWith now hs last
  | cons ev es ih =>
    have hev := hes ev mem_cons_self
    have hes' := fun x hx => hes x (mem_cons_of_mem ev hx)
    cases ev with
    | setHeader name value =>
      exact ih (r := r.setHeader toLowerCase name value)
        ⟨h.uncommitted, h.live, h.unsuppressed, h.head, h.message, h.staged.setHeader hev, h.holds⟩ hes' hs
    | appendHeader name value =>
      exact ih (r := r.appendHeader toLowerCase name value)
        ⟨h.uncommitted, h.live, h.unsuppressed, h.head, h.message, h.staged.appendHeader hev, h.holds⟩ hes' hs
    | removeHeader name =>
      exact ih (r := r.removeHeader toLowerCase name)
        ⟨h.uncommitted, h.live, h.unsuppressed, h.head, h.message, h.staged.removeAllOfHeader _, h.holds⟩ hes' hs
    | statusCode code =>
      exact ih (r := { r with statusCode := code })
        ⟨h.uncommitted, h.live, h.unsuppressed, h.head, h.message, h.staged, h.holds⟩ hes' hs
    | statusMessage message =>
      exact ih (r := { r with statusMessage := message })
        ⟨h.uncommitted, h.live, h.unsuppressed, h.head, hev, h.staged, h.holds⟩ hes' hs
    | sendDate on =>
      exact ih (r := { r with sendDate := on })
        ⟨h.uncommitted, h.live, h.unsuppressed, h.head, h.message, h.staged, h.holds⟩ hes' hs
    | ready ev =>
      obtain ⟨c, hr, hc⟩ := r.holds_ready ev
      rw [answer_cons, apply, hr]
      exact ih ⟨h.uncommitted, h.live, h.unsuppressed, h.head, h.message, h.staged, hc s h.holds⟩ hes' hs
    | returns was =>
      obtain ⟨c, hr, hc⟩ := r.holds_returns was
      rw [answer_cons, apply, hr]
      exact ih ⟨h.uncommitted, h.live, h.unsuppressed, h.head, h.message, h.staged, hc s h.holds⟩ hes' hs
    | writeHead status headers =>
      obtain ⟨e, head, hread, habs, hb⟩ := h.writeHead now toLowerCase hs hev
      have := answer_begun now toLowerCase hread es last hb; rw [bodyOf_eq habs] at this; exact this
    | flushHeaders =>
      obtain ⟨e, head, hread, habs, hb⟩ := h.commit now hs
      rw [answer_commit now toLowerCase h.live hb (.inl rfl)]
      have := answer_begun now toLowerCase hread (.flushHeaders :: es) last hb
      rw [bodyOf_eq habs] at this; exact this
    | write chunk =>
      obtain ⟨e, head, hread, habs, hb⟩ := h.commit now hs
      rw [answer_commit now toLowerCase h.live hb (.inr ⟨chunk, rfl⟩)]
      have := answer_begun now toLowerCase hread (.write chunk :: es) last hb
      rw [bodyOf_eq habs] at this; exact this

end Response

open Response in
/-- **The framing of a response is read back.** Whatever the calls before `end`, whatever the reactor does in between and
whatever is already in the stream of the connection, the bytes that the response adds are read by a client as exactly the
body that was written, with nothing left and nothing taken of what follows; a response that does not say itself where it
ends closes the connection. -/
theorem response_round_trip (now : UtcTime) (toLowerCase : Bytes → Bytes) (c : Conn) (hc : c.out.Ok)
    (method httpVersion : Bytes) (keepAlive : Bool) (events : List Response.Event) (last : Payload)
    (hplain : ∀ ev ∈ events, ev.Plain) (hstatus : 200 ≤ sentStatus 200 events ∧ sentStatus 200 events ≤ 999) :
    let body := if Bodiless (method == text "HEAD") (sentStatus 200 events) then [] else written events ++ last.bytes
    let c' := ((create c method httpVersion keepAlive).answer now toLowerCase events last).conn
    ∃ wire, c'.out.stream = c.out.stream ++ wire ∧
      ((∀ next, Client.read (method == text "HEAD") (wire ++ next) = some ⟨body, next, true⟩) ∨
        (Client.read (method == text "HEAD") wire = some ⟨body, [], false⟩ ∧ c'.closing = true)) := by
  intro body c'
  have h : (create c method httpVersion keepAlive).Unbegun c.out.stream (method == text "HEAD") :=
    ⟨rfl, rfl, rfl, rfl, ⟨by rintro ⟨⟩, by rintro ⟨⟩⟩, Staged.ok_empty, ⟨hc, rfl⟩⟩
  exact answer_unbegun now toLowerCase events last h hplain hstatus

/-- A response in parts, some of them empty, with its handler returning in between. -/
def partsEvents : List Response.Event :=
  [.setHeader (text "X-Trace") (.many [text "a:1", text "b"]), .statusCode 201, .write (.string (text "hel")),
   .write (.octets []), .returns false, .write (.octets (text "lo"))]

def epoch : UtcTime := ⟨4, 1, 0, 1970, 0, 0, 0⟩

open Response in
theorem response_round_trip_parts : (∀ ev ∈ partsEvents, ev.Plain) ∧ 200 ≤ sentStatus 200 partsEvents ∧
    let c' := ((create {} (text "GET") (text "HTTP/1.1") true).answer epoch id partsEvents (.string (text "!"))).conn
    ∃ wire, c'.out.stream = wire ∧ ((∀ next, Client.read false (wire ++ next) = some ⟨text "hello!", next, true⟩) ∨
        (Client.read false wire = some ⟨text "hello!", [], false⟩ ∧ c'.closing = true)) := by
  have hplain : ∀ ev ∈ partsEvents, ev.Plain := by
    have ha : Plain (text "X-Trace") (text "a:1") := ⟨by decide, by decide, by decide⟩
    have hb : Plain (text "X-Trace") (text "b") := ⟨by decide, by decide, by decide⟩
    simp [partsEvents, Event.Plain, HeaderValue.toList, ha, hb]
  have hc : ({} : Conn).out.Ok := by show 0 ≤ 0; omega
  have hget : (text "GET" == text "HEAD") = false := by decide
  have hbody : written partsEvents ++ bytes (.string (text "!")) = text "hello!" := by decide
  have hstatus : sentStatus 200 partsEvents = 201 := rfl
  have hfree : ¬ Bodiless false 201 := by decide
  have h := response_round_trip epoch id {} hc (text "GET") (text "HTTP/1.1") true partsEvents (.string (text "!")) hplain
    (by rw [hstatus]; omega)
  simp only [hget, hstatus, if_neg hfree, hbody] at h; exact ⟨hplain, by rw [hstatus]; omega, h⟩

end NodeCompat.Http
