import NodeCompat.Http.Adapter
import Mathlib.Data.List.Nodup

/-!
# The adapter agrees with ServerResponse

Both write a status line, the application's fields, the fields they add, an empty line, and the body. Which fields are
added depends on four facts about the application's fields (`Facts`), which one of them reads off the names as they are
set on the way into the buffer (`noted_headFields`), and the other off its own `Headers` (`factsOf_given`). A client's
reading of the head depends on the order of the fields only for fields of one name, and that order is kept
(`bodyEnd_added`).
-/

namespace NodeCompat.Http

open List Option

open NodeCompat.Http.Client Response

/-! ## What a client reads -/

variable (k : Facts)

/-- A response as a client reads it, with its status line and its fields. -/
structure Client.Parsed where
  line : Bytes
  fields : List (Bytes × Bytes)
  bodyEnd : BodyEnd
  read : Read
deriving DecidableEq

def Client.parse (isHead : Bool) (s : Bytes) : Option Parsed :=
  match find crlf s with
  | none => none
  | some i =>
    match readStatusLine (s.take i), readFields (s.drop (i + 2)) with
    | some status, some (fields, rest) =>
      (bodyEnd isHead status fields).bind (fun e => (readBody rest e).map (fun r => ⟨s.take i, fields, e, r⟩))
    | _, _ => none

theorem Client.parse_head (isHead : Bool) {line : Bytes} (hline : find crlf line = none) {fs : List (Bytes × Bytes)}
    (hfs : ∀ f ∈ fs, cr ∉ f.1 ∧ cr ∉ f.2) (rest : Bytes) :
    parse isHead (line ++ (crlf ++ (fieldLines fs ++ (crlf ++ rest)))) =
      (readStatusLine line).bind (fun status => (bodyEnd isHead status (fs.map seen)).bind (fun e =>
        (readBody rest e).map (fun r => ⟨line, fs.map seen, e, r⟩))) := by
  have hfind : find crlf (line ++ (crlf ++ (fieldLines fs ++ (crlf ++ rest)))) = some line.length :=
    find_pair (by decide) hline
  have htake : (line ++ (crlf ++ (fieldLines fs ++ (crlf ++ rest)))).take line.length = line := take_left
  rw [parse, hfind]
  dsimp only
  rw [htake, drop_crlf, readFields_lines fs rest hfs]
  cases readStatusLine line <;> rfl

/-! ## The facts about the application's fields -/

/-- What the framing decision reads. -/
structure Facts where
  contentLength : Bool
  transferEncoding : Bool
  date : Bool
  connection : Bool
  close : Bool
deriving DecidableEq

def factsOf (fs : List (Bytes × Bytes)) : Facts where
  contentLength := fs.any (fun f => asciiEqualsIgnoreCase f.1 (text "content-length"))
  transferEncoding := fs.any (fun f => asciiEqualsIgnoreCase f.1 (text "transfer-encoding"))
  date := fs.any (fun f => asciiEqualsIgnoreCase f.1 (text "date"))
  connection := fs.any (fun f => asciiEqualsIgnoreCase f.1 (text "connection"))
  close := fs.any (fun f => asciiEqualsIgnoreCase f.1 (text "connection") && asciiEqualsIgnoreCase f.2 (text "close"))

def Output.facts (o : Output) : Facts where
  contentLength := o.headHasContentLength
  transferEncoding := o.headHasTransferEncoding
  date := o.headHasDate
  connection := o.headHasConnection
  close := o.headConnectionClose

theorem length_of_equalsIgnoreCase {a b : Bytes} (h : asciiEqualsIgnoreCase a b = true) : a.length = b.length := by
  have he : a.map lowerByte = b.map lowerByte := by simpa [asciiEqualsIgnoreCase] using h
  simpa using congrArg List.length he

theorem equalsIgnoreCase_false {a b : Bytes} (h : a.length ≠ b.length) : asciiEqualsIgnoreCase a b = false := by
  cases he : asciiEqualsIgnoreCase a b with
  | false => rfl
  | true => exact absurd (length_of_equalsIgnoreCase he) h

theorem Output.facts_noteField (o : Output) (name value : Bytes) : (o.noteField name value).facts =
    { contentLength := o.headHasContentLength || asciiEqualsIgnoreCase name (text "content-length")
      transferEncoding := o.headHasTransferEncoding || asciiEqualsIgnoreCase name (text "transfer-encoding")
      date := o.headHasDate || asciiEqualsIgnoreCase name (text "date")
      connection := o.headHasConnection || asciiEqualsIgnoreCase name (text "connection")
      close := o.headConnectionClose ||
        (asciiEqualsIgnoreCase name (text "connection") && asciiEqualsIgnoreCase value (text "close")) } := by
  have hl : (text "content-length").length = 14 := by decide
  have ht : (text "transfer-encoding").length = 17 := by decide
  have hd : (text "date").length = 4 := by decide
  have hc : (text "connection").length = 10 := by decide
  have other : ∀ {w : Bytes} {k : Nat}, w.length = k → name.length ≠ k → asciiEqualsIgnoreCase name w = false := by
    intro w k hw hn; exact equalsIgnoreCase_false (by omega)
  unfold noteField
  split
  · next h =>
    rw [other hl (by omega), other ht (by omega), other hc (by omega)]
    split <;> simp_all [facts]
  · next h =>
    rw [other hl (by omega), other ht (by omega), other hd (by omega)]
    split <;> simp_all [facts]
  · next h =>
    rw [other ht (by omega), other hd (by omega), other hc (by omega)]
    split <;> simp_all [facts]
  · next h =>
    rw [other hl (by omega), other hd (by omega), other hc (by omega)]
    split <;> simp_all [facts]
  · next h4 h10 h14 h17 =>
    rw [other hl (fun h => h14 h), other ht (fun h => h17 h), other hd (fun h => h4 h), other hc (fun h => h10 h)]
    simp [facts]

theorem noted_headFields {c : Conn} {s : Bytes} (fs : List (Bytes × Bytes)) (h : c.Holds s) {gs : List (Bytes × Bytes)}
    (hg : c.out.facts = factsOf gs) :
    (fs.foldl (fun c f => c.output (.headField f.1 f.2)) c).Holds (s ++ fieldLines fs) ∧
      (fs.foldl (fun c f => c.output (.headField f.1 f.2)) c).out.facts = factsOf (gs ++ fs) := by
  induction fs generalizing c s gs with
  | nil => exact ⟨by simpa [fieldLines] using h, by simpa using hg⟩
  | cons f fs ih =>
    have hnote : (c.output (.headField f.1 f.2)).out.facts = factsOf (gs ++ [f]) := by
      have hf : (c.output (.headField f.1 f.2)).out.facts = (c.out.noteField f.1 f.2).facts := rfl
      have hg' := hg
      simp only [Output.facts, factsOf, Facts.mk.injEq] at hg'
      rw [hf, Output.facts_noteField]; simp [factsOf, hg']
    obtain ⟨hh, hf⟩ := ih (Conn.holds_output h (.headField f.1 f.2)) hnote
    refine ⟨?_, by simpa using hf⟩
    have hb : s ++ fieldLines (f :: fs) = s ++ (f.1 ++ text ": " ++ f.2 ++ crlf) ++ fieldLines fs := by
      simp [fieldLines, fieldText]
    rw [hb]; exact hh

/-! ## The fields that are added -/

/-- The fields that either side adds, by what the application's fields say: the date, the connection, the length. -/
def dateFields (k : Facts) (date : Bytes) : List (Bytes × Bytes) := if k.date then [] else [(text "Date", date)]

def keepAliveFields (k : Facts) (asked : Bool) : List (Bytes × Bytes) :=
  if k.connection then [] else connectionFields (asked && !k.close)

def lengthFields (k : Facts) (noBody : Bool) (n : Nat) : List (Bytes × Bytes) :=
  if noBody || k.contentLength || k.transferEncoding then [] else [(text "Content-Length", decimal n)]

theorem lines_date (date : Bytes) : fieldLines (dateFields k date) = if k.date then [] else dateLine date := by
  unfold dateFields
  split
  · rfl
  · rw [dateLine_eq]

theorem lines_keepAlive (asked : Bool) : fieldLines (keepAliveFields k asked) =
    if k.connection then [] else if asked && !k.close then keepAliveLines else closeLine := by
  unfold keepAliveFields
  split
  · rfl
  · rw [connectionFields_eq]

theorem lines_length (noBody : Bool) (n : Nat) : fieldLines (lengthFields k noBody n) =
    if !(noBody || k.contentLength || k.transferEncoding) then contentLengthLine n else [] := by
  unfold lengthFields
  split
  · next h => rw [if_neg (by simp [h])]; rfl
  · next h => rw [if_pos (by simp [h]), contentLengthLine_eq]

theorem headTail_known (o : Output) (flags : HeadFlags) (hd : flags.sendDate = true) (n : Nat) (date : Bytes) :
    o.headTail flags (some n) date =
      (fieldLines (dateFields o.facts date ++ keepAliveFields o.facts flags.keepAliveAsked ++
        lengthFields o.facts flags.noBody n) ++ crlf, ⟨false, flags.keepAliveAsked && !o.facts.close⟩) := by
  have hframing : o.decideFraming flags (some n) =
      (false, false, !(flags.noBody || o.headHasContentLength || o.headHasTransferEncoding)) := by
    unfold Output.decideFraming
    split
    · next h => simp [h]
    · next h => simp_all
  simp only [Output.headTail, hframing, Bool.false_and, Bool.false_eq_true, if_false, Bool.or_false, hd, Bool.true_and,
    fieldLines_append, lines_date, lines_keepAlive, lines_length, getD_some, Output.facts]
  cases o.headHasDate <;> rfl

theorem added_line (asked noBody : Bool) (now : UtcTime) (n : Nat) :
    ∀ f ∈ dateFields k (httpDate now) ++ keepAliveFields k asked ++ lengthFields k noBody n, cr ∉ f.1 ∧ cr ∉ f.2 := by
  have hkeep : ∀ b : Bool, ∀ f ∈ connectionFields b, cr ∉ f.1 ∧ cr ∉ f.2 := by decide
  have hdate : cr ∉ text "Date" := by decide
  have hlength : cr ∉ text "Content-Length" := by decide
  intro f hf
  simp only [mem_append] at hf
  rcases hf with (hf | hf) | hf
  · unfold dateFields at hf
    split at hf
    · cases hf
    · rw [mem_singleton.1 hf]; exact ⟨hdate, httpDate_line now⟩
  · unfold keepAliveFields at hf
    split at hf
    · cases hf
    · exact hkeep _ f hf
  · unfold lengthFields at hf
    split at hf
    · cases hf
    · rw [mem_singleton.1 hf]; exact ⟨hlength, not_mem_decimal (by decide) n⟩

theorem values_unframing (asked : Bool) (now : UtcTime) {w : Bytes}
    (hw : w = text "content-length" ∨ w = text "transfer-encoding") :
    values w ((dateFields k (httpDate now)).map seen) = [] ∧ values w ((keepAliveFields k asked).map seen) = [] := by
  have hmem : w ∈ framingNames := by
    rcases hw with rfl | rfl <;> decide
  have hkeep : ∀ b : Bool, values (text "content-length") ((connectionFields b).map seen) = [] ∧
      values (text "transfer-encoding") ((connectionFields b).map seen) = [] := by
    decide +kernel
  constructor
  · unfold dateFields
    split
    · rfl
    · exact values_date [httpDate now] hmem
  · unfold keepAliveFields
    split
    · rfl
    · rcases hw with rfl | rfl
      · exact (hkeep _).1
      · exact (hkeep _).2

theorem bodyEnd_congr {isHead : Bool} {status : Nat} {fs gs : List (Bytes × Bytes)}
    (hl : values (text "content-length") fs = values (text "content-length") gs)
    (ht : values (text "transfer-encoding") fs = values (text "transfer-encoding") gs) :
    bodyEnd isHead status fs = bodyEnd isHead status gs := by
  unfold bodyEnd; rw [hl, ht]

/-- **Where the length stands among the added fields makes no difference.** -/
theorem bodyEnd_added {isHead : Bool} {status : Nat} {as bs : List (Bytes × Bytes)}
    (hab : ∀ w, w = text "content-length" ∨ w = text "transfer-encoding" → values w (as.map seen) = values w (bs.map seen))
    (k : Facts) (asked noBody : Bool) (now : UtcTime) (n : Nat) :
    bodyEnd isHead status ((as ++ (lengthFields k noBody n ++ dateFields k (httpDate now) ++ keepAliveFields k asked)).map seen) =
      bodyEnd isHead status
        ((bs ++ (dateFields k (httpDate now) ++ keepAliveFields k asked ++ lengthFields k noBody n)).map seen) := by
  have key : ∀ w, w = text "content-length" ∨ w = text "transfer-encoding" →
      values w ((as ++ (lengthFields k noBody n ++ dateFields k (httpDate now) ++ keepAliveFields k asked)).map seen) =
        values w ((bs ++ (dateFields k (httpDate now) ++ keepAliveFields k asked ++ lengthFields k noBody n)).map seen) := by
    intro w hw
    obtain ⟨hd, hk⟩ := values_unframing k asked now hw
    simp only [map_append, values_append, hd, hk, hab w hw, append_nil, nil_append]
  exact bodyEnd_congr (key _ (.inl rfl)) (key _ (.inr rfl))

/-! ## ServerResponse -/

section Server

variable (toLowerCase : Bytes → Bytes)

/-- The staged headers are `fs`, in their order. -/
inductive Staged.Lists : Staged → List (Bytes × Bytes) → Prop
  | nil : Staged.Lists {} []
  | cons (f : Bytes × Bytes) (fs : List (Bytes × Bytes)) : Staged.Lists
      { firstHeaderPresent := true
        firstHeaderName := lowerHeaderName toLowerCase f.1
        firstHeaderValue := f.2
        firstHeaderRawName := f.1
        extraHeaderNames := fs.map (fun g => lowerHeaderName toLowerCase g.1)
        extraHeaderValues := fs.map Prod.snd
        extraHeaderRawNames := fs.map Prod.fst } (f :: fs)

variable {toLowerCase}

theorem Staged.Lists.fields {h : Staged} {fs : List (Bytes × Bytes)} (hh : h.Lists toLowerCase fs) : h.fields = fs := by
  cases hh with
  | nil => rfl
  | cons f fs => simp [Staged.fields, zip_map', List.map_id']

theorem Staged.Lists.setHeader {h : Staged} {fs : List (Bytes × Bytes)} (hh : h.Lists toLowerCase fs) {f : Bytes × Bytes}
    (hf : lowerHeaderName toLowerCase f.1 ∉ fs.map (fun g => lowerHeaderName toLowerCase g.1)) :
    (h.setHeader toLowerCase f.1 (.one f.2)).Lists toLowerCase (fs ++ [f]) := by
  cases hh with
  | nil => exact Staged.Lists.cons f []
  | cons g fs =>
    rw [map_cons, mem_cons, not_or] at hf
    have hidx : (fs.map (fun g => lowerHeaderName toLowerCase g.1)).findIdx?
        (· == lowerHeaderName toLowerCase f.1) = none := by
      rw [findIdx?_eq_none_iff]
      intro n hn
      rw [beq_eq_false_iff_ne]
      rintro rfl; exact hf.2 hn
    have hfirst : (lowerHeaderName toLowerCase g.1 == lowerHeaderName toLowerCase f.1) = false := by
      rw [beq_eq_false_iff_ne]; exact fun hc => hf.1 hc.symm
    have hset := @Staged.Lists.cons toLowerCase g (fs ++ [f])
    simp only [Staged.setHeader, Staged.setHeaderString, Staged.indexOfHeader, hfirst, Bool.and_false, Bool.false_eq_true,
      if_false, hidx, map_none, Staged.appendHeaderNormalized, Bool.not_true]
    simpa using hset

/-- The calls that set a status, a message and headers. -/
def setEvents (status : Nat) (message : Bytes) (given : List (Bytes × Bytes)) : List Response.Event :=
  .statusCode status :: .statusMessage message :: given.map (fun f => .setHeader f.1 (.one f.2))

theorem setHeaders_lists (now : UtcTime) (given : List (Bytes × Bytes)) : ∀ {r : Response} {fs : List (Bytes × Bytes)},
    r.staged.Lists toLowerCase fs → ((fs ++ given).map (fun g => lowerHeaderName toLowerCase g.1)).Nodup →
      ∃ staged, (given.map (fun f => Response.Event.setHeader f.1 (.one f.2))).foldl
          (fun r e => r.apply now toLowerCase e) r = { r with staged } ∧ staged.Lists toLowerCase (fs ++ given) := by
  induction given with
  | nil => intro r fs h _; exact ⟨r.staged, rfl, by simpa using h⟩
  | cons f given ih =>
    intro r fs h hnd
    have hnew : lowerHeaderName toLowerCase f.1 ∉ fs.map (fun g => lowerHeaderName toLowerCase g.1) := by
      intro hm; rw [map_append, nodup_append] at hnd; exact hnd.2.2 _ hm _ (by simp) rfl
    obtain ⟨staged, hs, hl⟩ := ih (r := r.setHeader toLowerCase f.1 (.one f.2)) (h.setHeader hnew) (by simpa using hnd)
    exact ⟨staged, hs, by simpa using hl⟩

/-- What a response with the fields `fs` looks like on the wire, and the body behind them. -/
def wireOf (status : Nat) (message : Bytes) (fs : List (Bytes × Bytes)) (body : Bytes) : Bytes :=
  statusLine status (if message = [] then statusText status else message) ++ (fieldLines fs ++ (crlf ++ body))

/-- **What `end` puts on the wire** when nothing has been written before, and whether the connection is kept. -/
theorem wire_endWith (now : UtcTime) {r : Response} {s : Bytes} (hr : r.conn.Holds s) (hlive : (r.finished || r.destroyed) = false)
    (hcom : r.headersCommitted = false) (hwritten : r.headWritten = false) (hsup : r.suppressBody = false)
    (hdate : r.sendDate = true) (body : Bytes) :
    (r.endWith now (.string body)).conn.out.stream = s ++ wireOf r.statusCode r.statusMessage
        (r.staged.fields ++ (dateFields (factsOf r.staged.fields) (httpDate now) ++
          keepAliveFields (factsOf r.staged.fields) r.keepAliveRequested ++
          lengthFields (factsOf r.staged.fields) r.noBody body.length)) (if r.noBody then [] else body) ∧
      (r.endWith now (.string body)).keepAliveFinal = (r.keepAliveRequested && !(factsOf r.staged.fields).close) := by
  obtain ⟨m, hm⟩ : ∃ m, m = if r.statusMessage = [] then statusText r.statusCode else r.statusMessage := ⟨_, rfl⟩
  have h₁ := Conn.holds_output hr (.headBegin r.statusCode m)
  have hnone : (r.conn.output (.headBegin r.statusCode m)).out.facts = factsOf [] := rfl
  obtain ⟨h₂, hfacts⟩ := noted_headFields r.staged.fields h₁ hnone
  rw [nil_append] at hfacts
  generalize hc₂ : r.staged.fields.foldl (fun c f => c.output (.headField f.1 f.2))
    (r.conn.output (.headBegin r.statusCode m)) = c₂ at h₂ hfacts
  have htail := headTail_known c₂.out r.headFlags hdate body.length (httpDate now)
  rw [hfacts] at htail
  have h₃ := Conn.holds_output h₂ (.headEnd r.headFlags (some body.length) (httpDate now))
  have h₄ := Conn.holds_output h₃ (.body (if r.noBody then [] else body))
  have hcommit : ({ r with finished := true } : Response).commitHeaders now (some body.length) =
      { r with
        finished := true
        headersCommitted := true
        conn := c₂.output (.headEnd r.headFlags (some body.length) (httpDate now))
        suppressBody := r.noBody
        chunked := false
        keepAliveFinal := r.keepAliveRequested && !(factsOf r.staged.fields).close } := by
    have hbegin : ({ r with finished := true } : Response).beginHead.headFields r.staged.fields =
        { r with finished := true, headersCommitted := true, conn := c₂ } := by
      rw [headFields_eq, ← hc₂, hm]; rfl
    have hflags : ({ r with finished := true, headersCommitted := true, conn := c₂ } : Response).headFlags = r.headFlags := rfl
    rw [commitHeaders, if_neg (by simp [hcom]), hbegin, endHead, hflags, htail, hsup, Bool.false_or]
    rfl
  have hfinish : r.endWith now (.string body) =
      { r with
        finished := true
        headersCommitted := true
        headWritten := true
        conn := { (c₂.output (.headEnd r.headFlags (some body.length) (httpDate now))).output
            (.body (if r.noBody then [] else body)) with
          busy := false
          closing := ((c₂.output (.headEnd r.headFlags (some body.length) (httpDate now))).output
            (.body (if r.noBody then [] else body))).closing || !(r.keepAliveRequested && !(factsOf r.staged.fields).close) }
        suppressBody := r.noBody
        chunked := false
        keepAliveFinal := r.keepAliveRequested && !(factsOf r.staged.fields).close } := by
    rw [endWith, if_neg (by simp [hlive])]
    simp only [Payload.bytes]
    rw [hcommit]
    cases hn : r.noBody with
    | true | false => simp [finish, emitPayload, emit, done, hwritten]
  rw [hfinish]
  refine ⟨?_, rfl⟩
  refine h₄.2.trans ?_
  rw [show OutOp.bytes c₂.out (.headEnd r.headFlags (some body.length) (httpDate now)) = _ from congrArg Prod.fst htail]
  simp only [OutOp.bytes, wireOf, ← hm, fieldLines_append, append_assoc, headFlags]

theorem server_wire (now : UtcTime) {c : Conn} (hc : c.out.Ok) (method httpVersion : Bytes) (asked : Bool) (status : Nat)
    (message : Bytes) {given : List (Bytes × Bytes)}
    (hnd : (given.map (fun g => lowerHeaderName toLowerCase g.1)).Nodup) (body : Bytes) :
    let r := (Response.create c method httpVersion asked).answer now toLowerCase (setEvents status message given)
      (.string body)
    let noBody := method == text "HEAD" || status == 204 || status == 304 || (100 ≤ status && status < 200)
    r.conn.out.stream = c.out.stream ++ wireOf status message
        (given ++ (dateFields (factsOf given) (httpDate now) ++ keepAliveFields (factsOf given) asked ++
          lengthFields (factsOf given) noBody body.length)) (if noBody then [] else body) ∧
      r.keepAliveFinal = (asked && !(factsOf given).close) := by
  intro r noBody
  obtain ⟨staged, hset, hlists⟩ := setHeaders_lists now given
    (r := { create c method httpVersion asked with statusCode := status, statusMessage := message })
    Staged.Lists.nil (by simpa using hnd)
  rw [nil_append] at hlists
  have hr : r = endWith now _ (.string body) := congrArg (fun r => endWith now r (.string body)) hset
  have hwire := wire_endWith now (r := { create c method httpVersion asked with
    statusCode := status, statusMessage := message, staged }) ⟨hc, rfl⟩ rfl rfl rfl rfl rfl body
  simp only [hlists.fields] at hwire; rw [hr]; exact hwire

end Server

/-! ## The adapter -/

namespace Adapter

variable {toLowerCase : Bytes → Bytes}

theorem lowerByte_word {w : Bytes} (h : isPlainWord w = true) : w.map lowerByte = w := by
  have hbyte : ∀ c : UInt8, ((97 ≤ c && c ≤ 122 && c != 107) || c == 45) = true → lowerByte c = c := by
    intro c hc
    have hn : ¬ (65 ≤ c ∧ c ≤ 90) := by
      rintro ⟨h₁, h₂⟩
      simp only [Bool.or_eq_true, Bool.and_eq_true, decide_eq_true_eq, beq_iff_eq] at hc
      rcases hc with ⟨⟨h₃, -⟩, -⟩ | rfl
      · exact absurd (UInt8.le_trans h₃ h₂) (by decide)
      · exact absurd h₁ (by decide)
    simp [lowerByte, hn]
  refine (map_congr_left ?_).trans (List.map_id w)
  intro c hc; exact hbyte c (List.all_eq_true.1 h c hc)

theorem toLowerCase_word (hl : LowerCases toLowerCase) {w : Bytes} (h : isPlainWord w = true) : toLowerCase w = w :=
  (hl.word w w h).2 (lowerByte_word h)

/-- The reactor's comparison of a string with a word is a comparison of its lower case. -/
theorem equalsIgnoreCase_word (hl : LowerCases toLowerCase) {w : Bytes} (h : isPlainWord w = true) (s : Bytes) :
    asciiEqualsIgnoreCase s w = (toLowerCase s == w) := by
  rw [asciiEqualsIgnoreCase, lowerByte_word h, Bool.eq_iff_iff, beq_iff_eq, beq_iff_eq]
  exact (hl.word w s h).symm

variable {headers : Headers toLowerCase}

theorem equalsIgnoreCase_name (hl : LowerCases toLowerCase) {w : Bytes} (h : isPlainWord w = true) {f : Bytes × Bytes}
    (hf : f ∈ headers.entries) : asciiEqualsIgnoreCase f.1 w = (f.1 == w) := by
  rw [equalsIgnoreCase_word hl h, headers.lower f hf]

theorem has_eq (hl : LowerCases toLowerCase) {w : Bytes} (h : isPlainWord w = true) :
    headers.has w = headers.entries.any (fun f => asciiEqualsIgnoreCase f.1 w) := by
  have hany : headers.entries.any (fun f => asciiEqualsIgnoreCase f.1 w) = headers.entries.any (fun f => f.1 == w) := by
    rw [Bool.eq_iff_iff, List.any_eq_true, List.any_eq_true]
    exact exists_congr (fun f => and_congr_right (fun hf => by rw [equalsIgnoreCase_name hl h hf]))
  rw [hany, Headers.has, Headers.get, toLowerCase_word hl h, isSome_map, isSome_find?]

theorem any_find? {fs : List (Bytes × Bytes)} (hnd : (fs.map Prod.fst).Nodup) (w : Bytes) (q : Bytes → Bool) :
    fs.any (fun f => f.1 == w && q f.2) = ((fs.find? (fun f => f.1 == w)).map Prod.snd).any q := by
  induction fs with
  | nil => rfl
  | cons f fs ih =>
    rw [map_cons, nodup_cons] at hnd
    by_cases hf : f.1 = w
    · have hrest : fs.any (fun f => f.1 == w && q f.2) = false := by
        rw [List.any_eq_false]
        intro g hg hc
        simp only [Bool.and_eq_true, beq_iff_eq] at hc
        exact hnd.1 (by rw [hf, ← hc.1]; exact List.mem_map_of_mem hg)
      rw [any_cons, hrest, find?_cons_of_pos (by simp [hf])]; simp [hf]
    · rw [any_cons, ih hnd.2, find?_cons_of_neg (by simp [hf])]; simp [hf]

theorem close_eq (hl : LowerCases toLowerCase) :
    (factsOf headers.entries).close = (headers.get (text "connection")).any (fun v => toLowerCase v == text "close") := by
  rw [Headers.get, toLowerCase_word hl (by decide), ← any_find? headers.nodup, factsOf, Bool.eq_iff_iff, List.any_eq_true,
    List.any_eq_true]
  refine exists_congr (fun f => and_congr_right (fun hf => ?_))
  rw [equalsIgnoreCase_name hl (by decide) hf, equalsIgnoreCase_word hl (by decide)]

theorem keepAlive_eq (hl : LowerCases toLowerCase) (response : Response toLowerCase) (asked : Bool) :
    response.keepAlive asked = (asked && !(factsOf response.headers.entries).close) := by
  rw [close_eq hl, Response.keepAlive]
  cases response.headers.get (text "connection") <;> rfl

theorem holds_raw (pieces : List Bytes) : ∀ {c : Conn} {s : Bytes}, c.Holds s →
    (Response.raw c pieces).Holds (s ++ pieces.flatten) := by
  induction pieces with
  | nil => intro c s h; simpa [Response.raw] using h
  | cons p pieces ih =>
    intro c s h
    have := ih (Conn.holds_output h (.headRaw p)); rw [flatten_cons, ← append_assoc]; exact this

theorem holds_pieces {c : Conn} {s : Bytes} (h : c.Holds s) {p : Bool} {pieces : List Bytes} {fs : List (Bytes × Bytes)}
    (hp : (if p then pieces.flatten else []) = fieldLines fs) :
    (if p then Response.raw c pieces else c).Holds (s ++ fieldLines fs) := by
  cases p with
  | true =>
    have := holds_raw pieces h; rw [if_pos rfl] at hp ⊢; rwa [hp] at this
  | false =>
    rw [if_neg (by decide)] at hp ⊢; rwa [← hp, append_nil]

/-- **What `respond` puts on the wire.** -/
theorem adapter_wire (hl : LowerCases toLowerCase) (now : UtcTime) (response : Response toLowerCase) {c : Conn} {s : Bytes}
    (hc : c.Holds s) (asked isHead : Bool) :
    (response.respond now c asked isHead).out.stream = s ++ wireOf response.status response.statusText
      (response.headers.entries ++ (lengthFields (factsOf response.headers.entries) (response.noBody isHead)
          response.bodyText.length ++ dateFields (factsOf response.headers.entries) (httpDate now) ++
        keepAliveFields (factsOf response.headers.entries) asked))
      (if response.noBody isHead then [] else response.bodyText) := by
  generalize hk : factsOf response.headers.entries = k
  have hclose : response.keepAlive asked = (asked && !k.close) := by rw [keepAlive_eq hl, hk]
  have hlen : response.headers.has (text "content-length") = k.contentLength := by
    rw [has_eq hl (by decide), ← hk]; rfl
  have hte : response.headers.has (text "transfer-encoding") = k.transferEncoding := by
    rw [has_eq hl (by decide), ← hk]; rfl
  have hdate : response.headers.has (text "date") = k.date := by rw [has_eq hl (by decide), ← hk]; rfl
  have hconn : (response.headers.get (text "connection")).isNone = !k.connection := by
    have : response.headers.has (text "connection") = k.connection := by rw [has_eq hl (by decide), ← hk]; rfl
    rw [← this, Headers.has]
    cases response.headers.get (text "connection") <;> rfl
  have h₁ := Conn.holds_output hc (.headBegin response.status response.message)
  have h₂ := holds_raw [response.headers.wireLinesOf] h₁
  have hlength : (if response.writesLength isHead then
      [text "Content-Length: ", decimal response.bodyText.length, crlf].flatten else []) =
      fieldLines (lengthFields k (response.noBody isHead) response.bodyText.length) := by
    rw [lines_length, Response.writesLength, hlen, hte, contentLengthLine]; simp [Bool.and_assoc]
  have h₃ := holds_pieces h₂ hlength
  have hdates : (if !response.headers.has (text "date") then [text "Date: ", httpDate now, crlf].flatten else []) =
      fieldLines (dateFields k (httpDate now)) := by
    rw [lines_date, hdate, dateLine]
    cases k.date <;> simp
  have h₄ := holds_pieces h₃ hdates
  have h₅ := holds_raw [if (response.headers.get (text "connection")).isNone then
      if response.keepAlive asked then text "Connection: keep-alive\r\nKeep-Alive: timeout=5\r\n\r\n"
      else text "Connection: close\r\n\r\n"
    else crlf] h₄
  have h₆ := Conn.holds_output h₅ (.body (if response.noBody isHead then [] else response.bodyText))
  have hlast : (if (response.headers.get (text "connection")).isNone then
        if response.keepAlive asked then text "Connection: keep-alive\r\nKeep-Alive: timeout=5\r\n\r\n"
        else text "Connection: close\r\n\r\n"
      else crlf) = fieldLines (keepAliveFields k asked) ++ crlf := by
    have hkeep : text "Connection: keep-alive\r\nKeep-Alive: timeout=5\r\n\r\n" = keepAliveLines ++ crlf := by decide
    have hend : text "Connection: close\r\n\r\n" = closeLine ++ crlf := by decide
    rw [lines_keepAlive, hconn, hclose, hkeep, hend]
    cases k.connection <;> cases asked && !k.close <;> rfl
  have hlines : response.headers.wireLinesOf = fieldLines response.headers.entries := rfl
  have hout : (response.respond now c asked isHead).out.stream = _ := h₆.2
  rw [hout, hlast, hlines]; simp [wireOf, OutOp.bytes, fieldLines_append, Response.message]

/-! ## Agreement -/

/-- A header of the response, and the same header as it is handed to `setHeader`: under the name that `Headers` keeps, or
under another spelling of it. -/
def Spells (toLowerCase : Bytes → Bytes) (f g : Bytes × Bytes) : Prop :=
  f.2 = g.2 ∧ (g.1 = f.1 ∨ toLowerCase g.1 = f.1 ∧ colon ∉ f.1 ∧ colon ∉ g.1)

/-- A field with its name in lower case: names are compared without regard to case. -/
def lowerName (toLowerCase : Bytes → Bytes) (f : Bytes × Bytes) : Bytes × Bytes := (toLowerCase f.1, f.2)

/-- Two readings of a response that differ at most in the order of the fields and the case of their names. -/
structure SameReading (toLowerCase : Bytes → Bytes) (p q : Parsed) : Prop where
  line : p.line = q.line
  fields : (p.fields.map (lowerName toLowerCase)).Perm (q.fields.map (lowerName toLowerCase))
  bodyEnd : p.bodyEnd = q.bodyEnd
  read : p.read = q.read

theorem seen_name {f : Bytes × Bytes} (h : colon ∉ f.1) : seen f = (f.1, trimBlanks f.2) := by
  have ht : fieldText f = f.1 ++ colon :: ([sp] ++ f.2) := by
    rw [fieldText, show text ": " = colon :: [sp] by decide]
    simp
  rw [seen, ht, readField, find_single h, map_some, take_left, ← drop_drop, drop_left,
    getD_some]
  exact Prod.ext rfl (trimBlanks_append (by simp [isBlank]))

theorem Spells.lower {f g : Bytes × Bytes} (h : Spells toLowerCase f g) (hf : toLowerCase f.1 = f.1) :
    toLowerCase g.1 = f.1 := by
  rcases h.2 with hg | ⟨hg, -⟩
  · rw [hg, hf]
  · exact hg

theorem Spells.seen {f g : Bytes × Bytes} (h : Spells toLowerCase f g) (hf : toLowerCase f.1 = f.1) :
    lowerName toLowerCase (seen f) = lowerName toLowerCase (Http.seen g) := by
  rcases h.2 with hg | ⟨hg, hcf, hcg⟩
  · rw [show f = g from Prod.ext hg.symm h.1]
  · rw [seen_name hcf, seen_name hcg, lowerName, lowerName, h.1, hg, hf]

section Agreement

variable {fs given : List (Bytes × Bytes)} (hl : LowerCases toLowerCase)
include hl

omit hl in
theorem map_seen (h : List.Forall₂ (Spells toLowerCase) fs given) (hfs : ∀ f ∈ fs, toLowerCase f.1 = f.1) :
    (fs.map seen).map (lowerName toLowerCase) = (given.map seen).map (lowerName toLowerCase) := by
  induction h with
  | nil => rfl
  | cons hfg _ ih =>
    simp only [map_cons]; rw [hfg.seen (hfs _ mem_cons_self), ih (fun f hf => hfs f (mem_cons_of_mem _ hf))]

theorem values_lowerName {w : Bytes} (hw : isPlainWord w = true) (gs : List (Bytes × Bytes)) :
    values w gs = ((gs.map (lowerName toLowerCase)).filter (fun f => f.1 == w)).map Prod.snd := by
  rw [values, List.filter_map, List.map_map]
  congr 1
  refine filter_congr (fun f _ => ?_)
  exact equalsIgnoreCase_word hl hw f.1

section

variable (h : List.Forall₂ (Spells toLowerCase) fs given)
include h

omit hl in
theorem line_given (hfs : ∀ f ∈ fs, LineText f.2) :
    ∀ g ∈ given, LineText g.2 := by
  induction h with
  | nil => simp
  | cons hfg _ ih =>
    intro g hg
    rcases mem_cons.1 hg with rfl | hg
    · rw [← hfg.1]; exact hfs _ mem_cons_self
    · exact ih (fun f hf => hfs f (mem_cons_of_mem _ hf)) g hg

theorem factsOf_given (hfs : ∀ f ∈ fs, toLowerCase f.1 = f.1) :
    factsOf given = factsOf fs := by
  have hname : ∀ {w : Bytes}, isPlainWord w = true → ∀ {f g : Bytes × Bytes}, Spells toLowerCase f g →
      toLowerCase f.1 = f.1 → asciiEqualsIgnoreCase g.1 w = asciiEqualsIgnoreCase f.1 w := by
    intro w hw f g hfg hf
    rw [equalsIgnoreCase_word hl hw, equalsIgnoreCase_word hl hw, hfg.lower hf, hf]
  induction h with
  | nil => rfl
  | cons hfg _ ih =>
    have hf := hfs _ mem_cons_self
    have hrest := ih (fun f hf => hfs f (mem_cons_of_mem _ hf))
    simp only [factsOf, Facts.mk.injEq] at hrest
    simp only [factsOf, any_cons, hrest, ← hfg.1, hname (w := text "content-length") (by decide) hfg hf,
      hname (w := text "transfer-encoding") (by decide) hfg hf, hname (w := text "date") (by decide) hfg hf,
      hname (w := text "connection") (by decide) hfg hf]

theorem nodup_given (hfs : ∀ f ∈ fs, toLowerCase f.1 = f.1)
    (hnd : (fs.map Prod.fst).Nodup) : (given.map (fun g => lowerHeaderName toLowerCase g.1)).Nodup := by
  have hnames : (given.map (fun g => lowerHeaderName toLowerCase g.1)).map toLowerCase = fs.map Prod.fst := by
    clear hnd
    induction h with
    | nil => rfl
    | cons hfg _ ih =>
      have hg := hfg.lower (hfs _ mem_cons_self)
      simp only [map_cons]
      rw [ih (fun f hf => hfs f (mem_cons_of_mem _ hf))]
      congr 1
      unfold lowerHeaderName
      split
      · rw [hl.idem, hg]
      · exact hg
  rw [← hnames] at hnd; exact Nodup.of_map toLowerCase hnd

end

end Agreement

theorem find_none_of_not_infix {pat s : Bytes} (h : ¬ pat <:+: s) : find pat s = none := by
  cases hf : find pat s with
  | none => rfl
  | some i => exact absurd ((find_split hf).1.isInfix.trans (drop_suffix i s).isInfix) h

theorem lowerByte_idem (c : UInt8) : lowerByte (lowerByte c) = lowerByte c := by
  by_cases hc : 65 ≤ c ∧ c ≤ 90
  · have hn : ¬ (65 ≤ c + 32 ∧ c + 32 ≤ 90) := by
      have h₁ : 65 ≤ c.toNat := UInt8.le_iff_toNat_le.1 hc.1
      have h₂ : c.toNat ≤ 90 := UInt8.le_iff_toNat_le.1 hc.2
      have h₃ : (c + 32).toNat = c.toNat + 32 := by
        rw [UInt8.toNat_add]; exact Nat.mod_eq_of_lt (by show c.toNat + 32 < 256; omega)
      rintro ⟨-, h₄⟩
      have : (c + 32).toNat ≤ 90 := UInt8.le_iff_toNat_le.1 h₄
      omega
    simp [lowerByte, hc, hn]
  · simp [lowerByte, hc]

theorem lowerCases_ascii : LowerCases (List.map lowerByte) where
  idem s := by simp [Function.comp_def, lowerByte_idem]
  word _ _ _ := Iff.rfl

/-- A response with a header that the application frames itself, and one with another spelling. -/
def framedResponse : Response (List.map lowerByte) where
  status := 201
  headers :=
    { entries := [(text "x-trace", text "a"), (text "connection", text "Close")]
      nodup := by decide
      lower := by decide }
  bodyText := text "hi"

/-- A status text that ends its own line, and the head with it. -/
def splitResponse : Response (List.map lowerByte) where
  statusText := text "OK\r\n"
  headers := { entries := [], nodup := by decide, lower := by decide }
  bodyText := text "x"

end Adapter

end NodeCompat.Http
