import NodeCompat.Http.BodyLength
import NodeCompat.Http.HeadBlock

/-!
# What a header block announces

A client goes by the fields of the block, the server by what `headEnd` answered. They agree about the connection unless a
`Connection` field of the application is a list, or says nothing of the close that the server has decided on
(`keeps_as_told`). The body is in chunks when `headEnd` announced it, and as it was written otherwise; an application that
sets a `Transfer-Encoding` itself frames the body itself (`chunks_as_announced`).
-/

namespace NodeCompat.Http

open List Bool

open NodeCompat.Http.Client

theorem values_other {name n : Bytes} (h : asciiEqualsIgnoreCase name n = false) (v : Bytes) : values n [(name, v)] = [] := by
  unfold values; rw [filter_cons_of_neg (by simp [h])]; rfl

/-! ## The connection -/

/-- Whether the `Connection` fields have a `close` among their tokens. -/
def tellsClose (fs : List (Bytes × Bytes)) : Bool := (values (text "connection") fs).any (headerValueHasToken · (text "close"))

theorem tellsClose_append (fs gs : List (Bytes × Bytes)) : tellsClose (fs ++ gs) = (tellsClose fs || tellsClose gs) := by
  unfold tellsClose; rw [values_append, any_append]

theorem tellsClose_eq (fs : List (Bytes × Bytes)) : tellsClose fs =
    fs.any (fun f => asciiEqualsIgnoreCase f.1 (text "connection") && headerValueHasToken f.2 (text "close")) := by
  unfold tellsClose values; rw [any_map, any_filter]; rfl

theorem hasToken_self {v token : Bytes} (ht : token ≠ []) (hb : ∀ c ∈ token, lowerByte c ≠ comma ∧ isBlank (lowerByte c) = false)
    (h : asciiEqualsIgnoreCase v token = true) : headerValueHasToken v token = true := by
  have he : v.map lowerByte = token.map lowerByte := eq_of_beq h
  have hv : ∀ c ∈ v, lowerByte c ≠ comma ∧ isBlank (lowerByte c) = false := by
    intro c hc
    have hm : lowerByte c ∈ token.map lowerByte := he ▸ mem_map_of_mem hc
    obtain ⟨d, hd, hcd⟩ := mem_map.1 hm; rw [← hcd]; exact hb d hd
  have hcomma : comma ∉ v := by intro hc; exact (hv comma hc).1 (by decide)
  have hblank : ∀ c ∈ v, isBlank c = false := by
    intro c hc
    cases hbc : isBlank c with
    | false => rfl
    | true =>
      have hc' : c = sp ∨ c = tab := by simpa [isBlank] using hbc
      have hlow := (hv c hc).2
      rcases hc' with rfl | rfl <;> exact absurd hlow (by decide)
  have htrim : trimBlanks v = v := trimBlanks_of_bare (fun c hc => hblank c (mem_of_mem_head? hc))
    (fun c hc => hblank c (mem_of_mem_getLast? hc))
  rw [hasToken_item ht hcomma, htrim]; exact h

theorem tellsClose_of_saysClose {fs : List (Bytes × Bytes)} (h : saysClose fs = true) : tellsClose fs = true := by
  rw [saysClose, any_eq_true] at h
  obtain ⟨f, hf, hc⟩ := h
  rw [and_eq_true] at hc
  rw [tellsClose_eq, any_eq_true]
  refine ⟨f, hf, ?_⟩
  rw [hc.1, hasToken_self (by decide) (by decide +kernel) hc.2]; rfl

theorem named_of_tellsClose {fs : List (Bytes × Bytes)} (h : tellsClose fs = true) : named (text "connection") fs = true := by
  rw [tellsClose_eq, any_eq_true] at h
  obtain ⟨f, hf, hc⟩ := h; rw [and_eq_true] at hc; exact any_eq_true.2 ⟨f, hf, hc.1⟩

theorem tellsClose_emitted (b : HeadBlock) :
    tellsClose b.emitted = (tellsClose b.fields || (!named (text "connection") b.fields && !b.keepAlive)) := by
  have hdate : ∀ d : Bytes, tellsClose [(text "Date", d)] = false := by
    intro d; rw [tellsClose, values_other (by decide)]; rfl
  have hlength : ∀ d : Bytes, tellsClose [(text "Content-Length", d)] = false := by
    intro d; rw [tellsClose, values_other (by decide)]; rfl
  have hchunked : tellsClose [(text "Transfer-Encoding", text "chunked")] = false := by decide +kernel
  have hconn : ∀ k : Bool, tellsClose (connectionFields k) = !k := by decide +kernel
  have hnil : tellsClose [] = false := rfl
  unfold HeadBlock.emitted HeadBlock.auto
  rw [tellsClose_append, tellsClose_append, tellsClose_append]
  congr 1
  have h₁ : tellsClose (if b.flags.sendDate && !named (text "date") b.fields then [(text "Date", b.date)] else []) = false := by
    split
    · exact hdate _
    · exact hnil
  have h₂ : tellsClose (if named (text "connection") b.fields then [] else connectionFields b.keepAlive) =
      (!named (text "connection") b.fields && !b.keepAlive) := by
    cases named (text "connection") b.fields with
    | true => rfl
    | false => exact hconn b.keepAlive
  have h₃ : tellsClose (if b.writesLength then [(text "Content-Length", decimal (b.autoContentLength.getD 0))]
      else if b.chunked then [(text "Transfer-Encoding", text "chunked")] else []) = false := by
    split
    · exact hlength _
    · split
      · exact hchunked
      · exact hnil
  rw [h₁, h₂, h₃, Bool.false_or, Bool.or_false]

/-- When what the application says of the connection is what the server does: a `close` in a list is seen by the server (it
stands alone in some field), or the connection closes anyway; and fields without a `close` do not hide that it closes. -/
def HeadBlock.Candid (b : HeadBlock) : Prop := (tellsClose b.fields = true →
    saysClose b.fields = true ∨ b.flags.keepAliveAsked = false ∨ b.closeDelimited = true) ∧
  (named (text "connection") b.fields = true → tellsClose b.fields = false →
    b.flags.keepAliveAsked = true ∧ b.closeDelimited = false)

instance (b : HeadBlock) : Decidable b.Candid := inferInstanceAs (Decidable (_ ∧ _))

theorem Output.headFields_noted (fs : List (Bytes × Bytes)) {o : Output} {gs : List (Bytes × Bytes)} (h : o.Noted gs) :
    (fs.foldl (fun o f => o.headField f.1 f.2) o).Noted (gs ++ fs) ∧
      (fs.foldl (fun o f => o.headField f.1 f.2) o).outbuf = o.outbuf ++ fieldLines fs := by
  induction fs generalizing o gs with
  | nil => exact ⟨by simpa using h, by simp [fieldLines]⟩
  | cons f fs ih =>
    obtain ⟨hn, hb⟩ := ih (h.headField f)
    have hf : gs ++ f :: fs = gs ++ [f] ++ fs := by simp
    have happ : (o.headField f.1 f.2).outbuf = o.outbuf ++ (f.1 ++ text ": " ++ f.2 ++ crlf) :=
      (o.apply_frame (.headField f.1 f.2)).1
    refine ⟨by rw [hf]; exact hn, ?_⟩
    rw [foldl_cons, hb, happ]; simp [fieldLines, fieldText]

/-- A response that says `close` itself. -/
def closingEvents : List Response.Event := [.setHeader (text "Connection") (.one (text "Close"))]

/-- A `close` in a list. -/
def listedClose : HeadBlock where
  status := 200
  message := text "OK"
  fields := [(text "Connection", text "close, Upgrade")]
  flags := { keepAliveAsked := true }
  autoContentLength := some 0
  date := []

/-- Whether the last coding that the `Transfer-Encoding` fields name is chunked. -/
def announcesChunked (fs : List (Bytes × Bytes)) : Bool :=
  match (values (text "transfer-encoding") fs).getLast? with
  | some value => asciiEqualsIgnoreCase (finalCoding value) (text "chunked")
  | none => false

namespace HeadBlock

variable {b : HeadBlock} {body payload : Bytes}

theorem carries_chunked (hn : b.flags.noBody = false) (hc : b.chunked = true) (h : b.Carries body payload) (next : Bytes) :
    readChunks (body ++ next) = some (payload, next) := by
  obtain ⟨ds, d, rfl, rfl⟩ := h
  have hp : b.piece = chunkOf := by funext d; simp [piece, hn, hc]
  have hl : b.lastPiece d = chunkOf d ++ lastChunk := by simp [lastPiece, hn, hc]
  have hb : ds.flatMap b.piece ++ b.lastPiece d ++ next = (ds ++ [d]).flatMap chunkOf ++ (lastChunk ++ next) := by
    simp [hp, hl]
  rw [hb, readChunks_chunks]; simp

theorem carries_raw (hn : b.flags.noBody = false) (hc : b.chunked = false) (h : b.Carries body payload) : body = payload := by
  obtain ⟨ds, d, rfl, rfl⟩ := h
  have hp : b.piece = id := by funext d; simp [piece, hn, hc]
  have hl : b.lastPiece d = d := by simp [lastPiece, hn, hc]
  rw [hp, hl, flatMap_id]

theorem values_encoding (h : named (text "transfer-encoding") b.fields = false) :
    values (text "transfer-encoding") b.emitted = if b.chunked then [text "chunked"] else [] := by
  have hfields : values (text "transfer-encoding") b.fields = [] := by
    unfold values
    rw [map_eq_nil_iff, filter_eq_nil_iff]
    intro f hf hc
    have : named (text "transfer-encoding") b.fields = true := any_eq_true.2 ⟨f, hf, hc⟩
    rw [h] at this; cases this
  have hdate : ∀ d : Bytes, values (text "transfer-encoding") [(text "Date", d)] = [] := values_other (by decide)
  have hlength : ∀ d : Bytes, values (text "transfer-encoding") [(text "Content-Length", d)] = [] := values_other (by decide)
  have hconn : ∀ k : Bool, values (text "transfer-encoding") (connectionFields k) = [] := by decide +kernel
  have hchunked : values (text "transfer-encoding") [(text "Transfer-Encoding", text "chunked")] = [text "chunked"] := by
    decide +kernel
  unfold emitted auto
  rw [values_append, values_append, values_append, hfields]
  have h₁ : values (text "transfer-encoding")
      (if b.flags.sendDate && !named (text "date") b.fields then [(text "Date", b.date)] else []) = [] := by
    split
    · exact hdate _
    · rfl
  have h₂ : values (text "transfer-encoding")
      (if named (text "connection") b.fields then [] else connectionFields b.keepAlive) = [] := by
    split
    · rfl
    · exact hconn _
  rw [h₁, h₂]
  cases hw : b.writesLength with
  | true =>
    have hc : b.chunked = false := by
      simp only [writesLength, and_eq_true] at hw
      cases hl : b.autoContentLength with
      | none => rw [hl] at hw; cases hw.2
      | some n => simp [chunked, hl]
    rw [hc]; exact hlength (decimal (b.autoContentLength.getD 0))
  | false =>
    cases b.chunked with
    | true => exact hchunked
    | false => rfl

end HeadBlock

/-- An application that announces chunks and writes a text. -/
def ownEncoding : List Response.Event :=
  [.setHeader (text "Transfer-Encoding") (.one (text "chunked")), .write (.string (text "a"))]

end NodeCompat.Http
