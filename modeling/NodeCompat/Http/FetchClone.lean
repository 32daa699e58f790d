import NodeCompat.Http.FetchResponse
import NodeCompat.Http.HeaderViews

/-!
# `clone`

A `Response` and a `Request` are cloned through their constructors, and their headers are then set on the copy one by one.
The copy of a response is made of a string, so it starts with the content type of a string body: it has the headers of the
original if and only if that begins with a content type of its own. The copy of a request is made of the bytes it holds, so
a body that is still a stream is left behind.
-/

namespace NodeCompat.Http.Adapter

open List

open NodeCompat.Web

variable {toLowerCase : Bytes → Bytes} {σ : Type}

/-! ## Responses -/

namespace Response

/-- `clone` -/
def clone (hl : LowerCases toLowerCase) (response : Response toLowerCase) : Except Bytes (Response toLowerCase) :=
  (create hl (.string response.bodyText : BodyInit Empty)
    { status := some response.status, statusText := some response.statusText }).map
      (fun r => { r with headers := r.headers.setAll hl response.headers.entries })

/-- The same status, headers and body. -/
structure SameAs (response copy : Response toLowerCase) : Prop where
  status : copy.status = response.status
  statusText : copy.statusText = response.statusText
  headers : copy.headers.entries = response.headers.entries
  bodyText : copy.bodyText = response.bodyText

end Response

/-! ## Requests -/

structure RequestInit (toLowerCase : Bytes → Bytes) (σ : Type) where
  method : Option Bytes := none
  headers : Option (HeadersInit toLowerCase) := none
  body : BodyInit σ := .absent

structure Request (toLowerCase : Bytes → Bytes) (σ : Type) where
  url : Bytes
  method : Bytes := text "GET"
  headers_ : Option (Headers toLowerCase) := none
  rawHead_ : Option Bytes := none
  bodyBytes_ : Option Bytes := none
  bodyUsed : Bool := false
  body : Option σ := none

namespace Request

/-- `get headers()` -/
def headers (hl : LowerCases toLowerCase) (r : Request toLowerCase σ) : Headers toLowerCase :=
  r.headers_.getD (match r.rawHead_ with
    | none => Headers.empty
    | some rawHead => Headers.fromRawHead hl rawHead)

/-- `headers.set`, of some names and values. -/
def setHeaders (hl : LowerCases toLowerCase) (r : Request toLowerCase σ) (fields : List (Bytes × Bytes)) :
    Request toLowerCase σ :=
  if fields = [] then r else { r with headers_ := some ((r.headers hl).setAll hl fields) }

/-- A media type for a body whose `init` has not named one. -/
def supplyType (hl : LowerCases toLowerCase) (r : Request toLowerCase σ) (type : Bytes) : Request toLowerCase σ :=
  if !(r.headers hl).has (text "content-type") then r.setHeaders hl [(text "content-type", type)] else r

/-- The body of an `init`; `serial` is `geaFormDataBoundarySerial`. -/
def setBody (hl : LowerCases toLowerCase) (serial : Nat) (r : Request toLowerCase σ) : BodyInit σ → Request toLowerCase σ
  | .string s => { r with bodyBytes_ := some s }
  | .searchParams params =>
    supplyType hl { r with bodyBytes_ := some (utf8 params.toString) } (text "application/x-www-form-urlencoded;charset=UTF-8")
  | .blob blob =>
    let r := { r with bodyBytes_ := some (ofLatin1 blob.bytesString) }
    if 0 < blob.type.length then supplyType hl r (utf8 blob.type) else r
  | .formData form =>
    let encoded := form.encodeMultipart serial
    supplyType hl { r with bodyBytes_ := some (ofLatin1 encoded.body) }
      (text "multipart/form-data; boundary=" ++ utf8 encoded.boundary)
  | .view v => { r with bodyBytes_ := some v.bytes }
  | .stream stream => { r with body := some stream }
  | .arrayBuffer bytes => { r with bodyBytes_ := some bytes }
  | .absent => r

/-- `new Request(url, init)` -/
def create (hl : LowerCases toLowerCase) (serial : Nat) (url : Bytes) (init : RequestInit toLowerCase σ) :
    Request toLowerCase σ :=
  let r : Request toLowerCase σ := { url }
  let r := { r with method := init.method.getD r.method }
  let r := r.setHeaders hl ((init.headers.map HeadersInit.fields).getD [])
  r.setBody hl serial init.body

/-- `fromWire` -/
def fromWire (url method rawHead : Bytes) (body : Option Bytes) : Request toLowerCase σ :=
  { url, method, rawHead_ := some rawHead, bodyBytes_ := body }

/-- The bytes that the body readers start from; `drainRequestBody` of a stream has none when it fails or does not end. -/
def bytes (drainRequestBody : σ → Option Bytes) (r : Request toLowerCase σ) : Option Bytes :=
  match r.body with
  | some stream => drainRequestBody stream
  | none => some (r.bodyBytes_.getD [])

/-- A `Buffer` as a view. -/
def bufferOf (bytes : Bytes) : View where
  buffer := bytes
  byteLength := bytes.length
  within := by omega

/-- `clone` -/
def clone (hl : LowerCases toLowerCase) (serial : Nat) (r : Request toLowerCase σ) : Except Bytes (Request toLowerCase σ) :=
  if r.bodyUsed then .error (text "Body is unusable")
  else
    let copy := create hl serial r.url { method := some r.method, body := .view (bufferOf (r.bodyBytes_.getD [])) }
    .ok (copy.setHeaders hl (r.headers hl).entries)

/-- The same URL, method, headers and bytes of the body. -/
structure SameAs (hl : LowerCases toLowerCase) (drainRequestBody : σ → Option Bytes) (r copy : Request toLowerCase σ) :
    Prop where
  url : copy.url = r.url
  method : copy.method = r.method
  headers : (copy.headers hl).entries = (r.headers hl).entries
  bytes : copy.bytes drainRequestBody = r.bytes drainRequestBody

end Request

/-! ## Setting headers on a copy -/

theorem setEntry_new {lower : Bytes} (value : Bytes) {es : List (Bytes × Bytes)} (h : lower ∉ es.map Prod.fst) :
    Headers.setEntry lower value es = es ++ [(lower, value)] := by
  induction es with
  | nil => rfl
  | cons e es ih =>
    rw [map_cons, mem_cons, not_or] at h; rw [Headers.setEntry, if_neg (Ne.symm h.1), ih h.2]; rfl

theorem setAll_entries (hl : LowerCases toLowerCase) (fs : List (Bytes × Bytes)) : ∀ headers : Headers toLowerCase,
    (headers.setAll hl fs).entries = fs.foldl (fun es f => Headers.setEntry (toLowerCase f.1) f.2 es) headers.entries := by
  induction fs with
  | nil => exact fun _ => rfl
  | cons f fs ih => exact fun headers => ih (headers.set hl f.1 f.2)

theorem fold_new {fs : List (Bytes × Bytes)} (hlow : ∀ f ∈ fs, toLowerCase f.1 = f.1) :
    ∀ {es : List (Bytes × Bytes)}, ((es ++ fs).map Prod.fst).Nodup →
      fs.foldl (fun es f => Headers.setEntry (toLowerCase f.1) f.2 es) es = es ++ fs := by
  induction fs with
  | nil => exact fun _ => (append_nil _).symm
  | cons f fs ih =>
    intro es h
    have hf := forall_mem_cons.1 hlow
    have hassoc : es ++ f :: fs = es ++ [f] ++ fs := by simp
    have hnew : f.1 ∉ es.map Prod.fst := by
      rw [map_append, nodup_append] at h
      intro hmem; exact h.2.2 f.1 hmem f.1 mem_cons_self rfl
    rw [foldl_cons, hf.1, setEntry_new f.2 hnew, ih hf.2 (hassoc ▸ h), hassoc]

theorem fold_behind (headers : Headers toLowerCase) {name : Bytes} (h : name ∉ headers.entries.map Prod.fst) (value : Bytes) :
    headers.entries.foldl (fun es f => Headers.setEntry (toLowerCase f.1) f.2 es) [(name, value)] =
      (name, value) :: headers.entries := by
  refine fold_new headers.lower ?_
  rw [singleton_append, map_cons, nodup_cons]; exact ⟨h, headers.nodup⟩

theorem fold_first (headers : Headers toLowerCase) {name v : Bytes} {pre post : List (Bytes × Bytes)}
    (h : headers.entries = pre ++ (name, v) :: post) (value : Bytes) :
    headers.entries.foldl (fun es f => Headers.setEntry (toLowerCase f.1) f.2 es) [(name, value)] =
      (name, v) :: (pre ++ post) := by
  have hlow := headers.lower
  have hnd := headers.nodup
  rw [h] at hlow hnd ⊢
  rw [forall_mem_append, forall_mem_cons] at hlow
  obtain ⟨hpre, hname, hpost⟩ := hlow
  have hperm : ((name, v) :: (pre ++ post)).map Prod.fst |>.Nodup :=
    ((perm_middle.map Prod.fst).nodup_iff).1 hnd
  have hfront : ((([(name, value)] : List (Bytes × Bytes)) ++ pre).map Prod.fst).Nodup := by
    refine hperm.sublist ?_
    simp
  have hset : Headers.setEntry name v ((name, value) :: pre) = (name, v) :: pre := by
    rw [Headers.setEntry, if_pos rfl]
  rw [foldl_append, fold_new hpre hfront, foldl_cons, hname, singleton_append, hset]
  exact fold_new hpost hperm

/-! ## The copies -/

/-- The headers of a response's copy: those of the original, set on the content type of a string body. -/
theorem Response.clone_eq (hl : LowerCases toLowerCase) (response : Response toLowerCase) : ∃ copy,
    response.clone hl = .ok copy ∧ copy.status = response.status ∧ copy.statusText = response.statusText ∧
      copy.bodyText = response.bodyText ∧
      copy.headers.entries = response.headers.entries.foldl (fun es f => Headers.setEntry (toLowerCase f.1) f.2 es)
        [(text "content-type", text "text/plain; charset=UTF-8")] := by
  refine ⟨_, rfl, rfl, rfl, rfl, ?_⟩
  rw [setAll_entries]
  have hword : toLowerCase (text "content-type") = text "content-type" := toLowerCase_word hl (by decide)
  have hfresh : (Headers.empty.set hl (text "content-type") (text "text/plain; charset=UTF-8")).entries =
      [(text "content-type", text "text/plain; charset=UTF-8")] := by
    show [(toLowerCase (text "content-type"), _)] = _; rw [hword]
  rw [← hfresh]; rfl

theorem entries_split {headers : Headers toLowerCase} {name : Bytes} (h : name ∈ headers.entries.map Prod.fst) :
    ∃ pre v post, headers.entries = pre ++ (name, v) :: post := by
  obtain ⟨f, hf, rfl⟩ := mem_map.1 h
  obtain ⟨pre, post, hsplit⟩ := append_of_mem hf; exact ⟨pre, f.2, post, hsplit⟩

section

variable (hl : LowerCases toLowerCase)
include hl

/-- The copy of a response has its headers when a content type is the first of them, and has them in another order when it
is not the first. -/
theorem Response.clone_headers {response copy : Response toLowerCase}
    (h : response.clone hl = .ok copy) :
    (copy.headers.entries = response.headers.entries ↔
        (response.headers.entries.map Prod.fst).head? = some (text "content-type")) ∧
      (copy.headers.entries.Perm response.headers.entries ↔
        text "content-type" ∈ response.headers.entries.map Prod.fst) := by
  obtain ⟨copy', h', -, -, -, hentries⟩ := response.clone_eq hl
  obtain rfl : copy' = copy := Except.ok.inj (h'.symm.trans h)
  by_cases hmem : text "content-type" ∈ response.headers.entries.map Prod.fst
  · obtain ⟨pre, v, post, hsplit⟩ := entries_split hmem
    rw [fold_first _ hsplit] at hentries
    rw [hentries, hsplit]
    refine ⟨?_, iff_of_true perm_middle.symm (by simp)⟩
    cases pre with
    | nil => simp
    | cons f pre =>
      have hne : f.1 ≠ text "content-type" := by
        intro hf
        have hnd := response.headers.nodup
        rw [hsplit, cons_append, map_cons, nodup_cons, hf] at hnd; exact hnd.1 (by simp)
      refine iff_of_false ?_ ?_
      · intro heq; exact hne (congrArg Prod.fst (List.cons.inj heq).1).symm
      · simp [hne]
  · rw [fold_behind _ hmem] at hentries
    rw [hentries]
    have hlen : ¬ (response.headers.entries.length + 1 = response.headers.entries.length) := by omega
    refine ⟨iff_of_false (fun heq => hlen (congrArg List.length heq)) ?_, iff_of_false (fun hp => hlen hp.length_eq) hmem⟩
    exact fun hhead => hmem (mem_of_head? hhead)

theorem Request.headers_setHeaders (r : Request toLowerCase σ) (fields : List (Bytes × Bytes)) :
    (r.setHeaders hl fields).headers hl = (r.headers hl).setAll hl fields := by
  unfold setHeaders
  split
  · next hnil => rw [hnil]; rfl
  · rfl

theorem Request.clone_eq (serial : Nat) {r : Request toLowerCase σ} (h : r.bodyUsed = false) :
    ∃ copy, r.clone hl serial = .ok copy ∧ copy.url = r.url ∧ copy.method = r.method ∧
      (copy.headers hl).entries = (r.headers hl).entries ∧
      ∀ drainRequestBody : σ → Option Bytes, copy.bytes drainRequestBody = some (r.bodyBytes_.getD []) := by
  unfold clone
  rw [h, if_neg (by decide)]
  have hbytes : (bufferOf (r.bodyBytes_.getD [])).bytes = r.bodyBytes_.getD [] := by
    unfold bufferOf View.bytes; rw [drop_zero, take_length]
  refine ⟨_, rfl, ?_, ?_, ?_, ?_⟩
  · unfold setHeaders
    split <;> rfl
  · unfold setHeaders
    split <;> rfl
  · rw [headers_setHeaders, setAll_entries]; exact fold_new (r.headers hl).lower (r.headers hl).nodup
  · intro drain
    unfold setHeaders
    split <;> exact congrArg some hbytes

end

/-- **Clones.** The copy of any response has the same status, status text, body and headers if and only if a content type
is the first of these, and has them but for their order if and only if there is a content type. The copy of any request
whose body is unused has the same URL, method, headers and bytes of the body if and only if its body is not a stream, or the
stream gives the bytes that the request holds besides, which are none unless `body` was assigned. -/
theorem clone_same_iff (hl : LowerCases toLowerCase) (response : Response toLowerCase)
    (drainRequestBody : σ → Option Bytes) (serial : Nat) (request : Request toLowerCase σ) (hunused : request.bodyUsed = false) :
    (∃ copy, response.clone hl = .ok copy ∧
      (response.SameAs copy ↔ (response.headers.entries.map Prod.fst).head? = some (text "content-type")) ∧
      (copy.headers.entries.Perm response.headers.entries ↔
        text "content-type" ∈ response.headers.entries.map Prod.fst)) ∧
    ∃ copy, request.clone hl serial = .ok copy ∧
      (request.SameAs hl drainRequestBody copy ↔
        ∀ stream, request.body = some stream → drainRequestBody stream = some (request.bodyBytes_.getD [])) := by
  constructor
  · obtain ⟨copy, hcopy, hstatus, hstatusText, hbody, -⟩ := response.clone_eq hl
    obtain ⟨hsame, hperm⟩ := Response.clone_headers hl hcopy
    exact ⟨copy, hcopy, ⟨fun h => hsame.1 h.headers, fun h => ⟨hstatus, hstatusText, hsame.2 h, hbody⟩⟩, hperm⟩
  · obtain ⟨copy, hcopy, hurl, hmethod, hheaders, hbytes⟩ := request.clone_eq hl serial hunused
    have hgiven : request.SameAs hl drainRequestBody copy ↔
        request.bytes drainRequestBody = some (request.bodyBytes_.getD []) := by
      rw [← hbytes drainRequestBody]
      exact ⟨fun h => h.bytes.symm, fun h => ⟨hurl, hmethod, hheaders, h.symm⟩⟩
    refine ⟨copy, hcopy, hgiven.trans ?_⟩
    unfold Request.bytes
    cases request.body with
    | none | some stream => simp

/-- A response that begins with its content type. -/
def typedResponse : Response (List.map lowerByte) where
  status := 404
  headers :=
    { entries := [(text "content-type", text "text/css"), (text "x-a", text "1")]
      nodup := by decide
      lower := by decide }
  bodyText := text "p"

/-- A request with bytes for a body; a stream would be what it gives. -/
def bytesRequest : Request (List.map lowerByte) Bytes where
  url := text "http://a/"
  headers_ := some Headers.empty
  bodyBytes_ := some [0xFF]

theorem clone_same_typed :
    (∃ copy, typedResponse.clone lowerCases_ascii = .ok copy ∧ typedResponse.SameAs copy) ∧
      ∃ copy, bytesRequest.clone lowerCases_ascii 0 = .ok copy ∧ bytesRequest.SameAs lowerCases_ascii some copy := by
  obtain ⟨⟨copy, hcopy, hsame, -⟩, copy', hcopy', hsame'⟩ :=
    clone_same_iff lowerCases_ascii typedResponse some 0 bytesRequest rfl
  exact ⟨⟨copy, hcopy, hsame.2 rfl⟩, copy', hcopy', hsame'.2 (fun stream h => by cases h)⟩

/-- The copy of a response without a body has a content type, and the copy of a request has lost its stream. -/
theorem clone_differs :
    (∃ response copy, Response.create lowerCases_ascii (BodyInit.absent : BodyInit Empty) {} = .ok response ∧
      response.clone lowerCases_ascii = .ok copy ∧ ¬ response.SameAs copy) ∧
    ∃ copy, (Request.create lowerCases_ascii 0 (text "http://a/") { body := .stream (text "abc") }).clone
        lowerCases_ascii 0 = .ok copy ∧
      ¬ (Request.create lowerCases_ascii 0 (text "http://a/") { body := .stream (text "abc") }).SameAs
        lowerCases_ascii some copy := by
  constructor
  · refine ⟨_, _, rfl, rfl, fun h => ?_⟩
    have hlen := congrArg List.length h.headers; exact absurd hlen (by decide)
  · refine ⟨_, rfl, fun h => ?_⟩
    exact absurd h.bytes (by decide)

end NodeCompat.Http.Adapter
