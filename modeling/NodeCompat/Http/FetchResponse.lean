import NodeCompat.Buffer.ToString
import NodeCompat.Http.AdapterAgrees
import NodeCompat.Web.Multipart
import NodeCompat.Web.SearchParams

/-!
# The body of a `Response`

`new Response(body, init)` keeps its body as a string, and `respond` measures and writes the UTF-8 of that string. A string
body is its own UTF-8. The bytes of a view or an `ArrayBuffer` are made a string one character a byte (latin1), so a byte
from 0x80 on leaves as two octets: what is written is what was given if and only if there is none, or no body is written at
all (`octets_sent_iff`).
-/

namespace NodeCompat.Http

open List

open NodeCompat.Web

/-! ## Bodies -/

/-- An `ArrayBufferView`: a part of a buffer. -/
structure View where
  buffer : Bytes
  byteOffset : Nat := 0
  byteLength : Nat
  within : byteOffset + byteLength ≤ buffer.length

/-- The bytes that a view shows. -/
def View.bytes (v : View) : Bytes := (v.buffer.drop v.byteOffset).take v.byteLength

/-- `BodyInit`, and no body. A string is its UTF-8; `σ` are the streams. -/
inductive BodyInit (σ : Type)
  | absent
  | string (s : Bytes)
  | stream (stream : σ)
  | view (v : View)
  | arrayBuffer (bytes : Bytes)
  | searchParams (params : URLSearchParams)
  | formData (form : FormData)
  | blob (blob : Blob)

namespace BodyInit

variable {σ : Type}

/-- `toString("latin1")` -/
def latin1Text (bytes : Bytes) : Bytes := utf8 (Buffer.decode .latin1 bytes)

/-- `bodyText_` -/
def bodyText : BodyInit σ → Except Bytes Bytes
  | .string s => .ok s
  | .absent => .ok []
  | .stream _ => .error (text "ReadableStream response bodies are not implemented in node-compat")
  | .view v => .ok (latin1Text v.bytes)
  | .arrayBuffer bytes => .ok (latin1Text bytes)
  | .searchParams params => .ok (utf8 params.toString)
  | .formData _ => .error (text "FormData response bodies are not implemented in node-compat")
  | .blob _ => .error (text "Blob response bodies are not implemented in node-compat")

/-- The media type that comes with a body of a response. -/
def mediaType : BodyInit σ → Option Bytes
  | .string _ => some (text "text/plain; charset=UTF-8")
  | .searchParams _ => some (text "application/x-www-form-urlencoded;charset=UTF-8")
  | _ => none

/-- What a body that a response can have stands for. -/
def octets : BodyInit σ → Bytes
  | .string s => s
  | .view v => v.bytes
  | .arrayBuffer bytes => bytes
  | .searchParams params => utf8 params.toString
  | _ => []

/-- No byte of a view or an `ArrayBuffer` is above 0x7F. -/
def Seven : BodyInit σ → Prop
  | .view v => ∀ b ∈ v.bytes, b < 0x80
  | .arrayBuffer bytes => ∀ b ∈ bytes, b < 0x80
  | _ => True

end BodyInit

namespace Adapter

variable {toLowerCase : Bytes → Bytes}

/-! ## Headers -/

namespace Headers

/-- `set` of some names and values, in turn. -/
def setAll (hl : LowerCases toLowerCase) (headers : Headers toLowerCase) (fields : List (Bytes × Bytes)) :
    Headers toLowerCase :=
  fields.foldl (fun headers f => headers.set hl f.1 f.2) headers

end Headers

/-- The `headers` of an `init`: each of them is set, field by field. -/
inductive HeadersInit (toLowerCase : Bytes → Bytes)
  | headers (h : Headers toLowerCase)
  | pairs (fields : List (Bytes × Bytes))
  | record (fields : List (Bytes × Bytes))

def HeadersInit.fields : HeadersInit toLowerCase → List (Bytes × Bytes)
  | .headers h => h.entries
  | .pairs fields => fields
  | .record fields => fields

structure ResponseInit (toLowerCase : Bytes → Bytes) where
  -- `none` is `undefined`, `null` or `NaN`
  status : Option Nat := none
  statusText : Option Bytes := none
  headers : Option (HeadersInit toLowerCase) := none

/-! ## The constructor -/

namespace Response

variable {σ : Type}

/-- `new Response(body, init)` -/
def create (hl : LowerCases toLowerCase) (body : BodyInit σ) (init : ResponseInit toLowerCase) :
    Except Bytes (Response toLowerCase) :=
  body.bodyText.map (fun bodyText =>
    let headers := Headers.empty.setAll hl ((init.headers.map HeadersInit.fields).getD [])
    { status := init.status.getD 200
      statusText := init.statusText.getD []
      headers := match body.mediaType with
        | some type => if !headers.has (text "content-type") then headers.set hl (text "content-type") type else headers
        | none => headers
      bodyText })

/-- The response leaves on the connection with these octets: they come behind the head, which announces how many they are,
unless its own fields frame the body. No body at all leaves for HEAD, 1xx, 204 and 304. -/
def Sends (response : Response toLowerCase) (now : UtcTime) (c : Conn) (keepAliveRequested isHead : Bool) (octets : Bytes) :
    Prop :=
  let fields := response.headers.entries
  (response.respond now c keepAliveRequested isHead).out.stream = c.out.stream ++
    wireOf response.status response.statusText
      (fields ++ (lengthFields (factsOf fields) (response.noBody isHead) octets.length ++
        dateFields (factsOf fields) (httpDate now) ++ keepAliveFields (factsOf fields) keepAliveRequested))
      (if response.noBody isHead then [] else octets)

end Response

/-! ## The octets of a latin1 text -/

theorem utf8_latin1Char (b : UInt8) : (b < 0x80 → String.utf8EncodeChar (Buffer.latin1Char b) = [b]) ∧
      (¬ b < 0x80 → (String.utf8EncodeChar (Buffer.latin1Char b)).length = 2) := by
  have hall : ∀ n < 256, (UInt8.ofNat n < 0x80 → String.utf8EncodeChar (Buffer.latin1Char (UInt8.ofNat n)) = [UInt8.ofNat n]) ∧
      (¬ UInt8.ofNat n < 0x80 → (String.utf8EncodeChar (Buffer.latin1Char (UInt8.ofNat n))).length = 2) := by decide +kernel
  have := hall b.toNat b.toNat_lt; rwa [UInt8.ofNat_toNat] at this

theorem latin1Text_cons (b : UInt8) (bytes : Bytes) : BodyInit.latin1Text (b :: bytes) =
    String.utf8EncodeChar (Buffer.latin1Char b) ++ BodyInit.latin1Text bytes := rfl

theorem latin1Text_seven {bytes : Bytes} (h : ∀ b ∈ bytes, b < 0x80) : BodyInit.latin1Text bytes = bytes := by
  induction bytes with
  | nil => rfl
  | cons b bytes ih =>
    rw [latin1Text_cons, (utf8_latin1Char b).1 (h b mem_cons_self), ih (fun c hc => h c (mem_cons_of_mem b hc))]
    rfl

/-- A latin1 text has no fewer octets than characters, and no more of them only if all bytes are below 0x80. -/
theorem latin1Text_length (bytes : Bytes) : bytes.length ≤ (BodyInit.latin1Text bytes).length ∧
    ((BodyInit.latin1Text bytes).length ≤ bytes.length → ∀ b ∈ bytes, b < 0x80) := by
  induction bytes with
  | nil => exact ⟨Nat.le_refl 0, fun _ b hb => absurd hb not_mem_nil⟩
  | cons b bytes ih =>
    obtain ⟨hle, hall⟩ := ih
    rw [latin1Text_cons, length_append, length_cons]
    by_cases hb : b < 0x80
    · rw [(utf8_latin1Char b).1 hb, length_singleton]
      refine ⟨by omega, fun h => ?_⟩
      rw [forall_mem_cons]; exact ⟨hb, hall (by omega)⟩
    · rw [(utf8_latin1Char b).2 hb]; exact ⟨by omega, fun h => by omega⟩

theorem bodyText_octets {σ : Type} {body : BodyInit σ} {bodyText : Bytes} (h : body.bodyText = .ok bodyText) :
    (body.Seven → bodyText = body.octets) ∧ body.octets.length ≤ bodyText.length ∧
      (bodyText.length ≤ body.octets.length → body.Seven) := by
  cases body with
  | absent | string s | searchParams params => cases h; exact ⟨fun _ => rfl, Nat.le_refl _, fun _ => trivial⟩
  | stream s | formData f | blob b => cases h
  | view v => cases h; exact ⟨latin1Text_seven, latin1Text_length v.bytes⟩
  | arrayBuffer bytes => cases h; exact ⟨latin1Text_seven, latin1Text_length bytes⟩

/-! ## What leaves -/

theorem length_fieldLines_mono (k : Facts) (noBody : Bool) {m n : Nat} (h : m ≤ n) :
    (fieldLines (lengthFields k noBody m)).length ≤ (fieldLines (lengthFields k noBody n)).length := by
  unfold lengthFields
  split
  · exact Nat.le_refl _
  · have hdigits : (decimal m).length ≤ (decimal n).length := by
      unfold decimal; rw [length_map, length_map]; exact length_digitsOf_mono 10 h
    simp only [fieldLines, fieldText, flatMap_cons, flatMap_nil, length_append]; omega

namespace Response

variable {σ : Type}

/-- A response sends these octets if and only if it has no body, or its text has no more octets than them, and then is them. -/
theorem sends_iff (hl : LowerCases toLowerCase) (response : Response toLowerCase) (now : UtcTime) {c : Conn} (hc : c.out.Ok)
    (keepAliveRequested isHead : Bool) {octets : Bytes} (hle : octets.length ≤ response.bodyText.length)
    (heq : response.bodyText.length ≤ octets.length → response.bodyText = octets) :
    response.Sends now c keepAliveRequested isHead octets ↔
      response.noBody isHead = true ∨ response.bodyText = octets := by
  unfold Sends
  rw [adapter_wire hl now response ⟨hc, rfl⟩]
  cases hno : response.noBody isHead with
  | true => simp [lengthFields]
  | false =>
    simp only [Bool.false_eq_true, if_false, false_or]
    constructor
    · intro h
      -- neither the length that is announced nor the body is shorter than it should be
      refine heq ?_
      have hlen := congrArg List.length (append_cancel_left h)
      have hmono := length_fieldLines_mono (factsOf response.headers.entries) false hle
      simp only [wireOf, fieldLines_append, length_append] at hlen; omega
    · intro h; rw [h]

/-- **The octets of a body on the wire.** For every response that the constructor makes, sent on any connection: the body's
own octets are what leaves, with their number announced, if and only if no body leaves with the response, or no byte of a
view or an `ArrayBuffer` is above 0x7F. -/
theorem octets_sent_iff (hl : LowerCases toLowerCase) (body : BodyInit σ) (init : ResponseInit toLowerCase)
    {response : Response toLowerCase} (hr : create hl body init = .ok response) (now : UtcTime) {c : Conn} (hc : c.out.Ok)
    (keepAliveRequested isHead : Bool) :
    response.Sends now c keepAliveRequested isHead body.octets ↔ response.noBody isHead = true ∨ body.Seven := by
  unfold create at hr
  cases hb : body.bodyText with
  | error e => rw [hb] at hr; cases hr
  | ok bodyText =>
    rw [hb] at hr
    cases hr
    obtain ⟨hsame, hle, hseven⟩ := bodyText_octets hb
    rw [sends_iff hl _ now hc keepAliveRequested isHead hle (fun h => hsame (hseven h))]
    exact or_congr_right ⟨fun h => hseven (by rw [← h]), hsame⟩

/-- The middle of a buffer. -/
def shownPart : BodyInit Empty := .view { buffer := text "xabcy", byteOffset := 1, byteLength := 3, within := by decide }

theorem octets_sent_view : ∃ response, create lowerCases_ascii shownPart {} = .ok response ∧
    response.Sends epoch {} true false (text "abc") := by
  have hc : ({} : Conn).out.Ok := by show 0 ≤ 0; omega
  have hoctets : shownPart.octets = text "abc" := by decide
  have hseven : shownPart.Seven := by
    show ∀ b ∈ shownPart.octets, b < 0x80
    rw [hoctets]
    decide +kernel
  cases hr : create lowerCases_ascii shownPart {} with
  | error e => cases hr
  | ok response =>
    have hsent := (octets_sent_iff lowerCases_ascii shownPart {} hr epoch hc true false).2 (.inr hseven)
    rw [hoctets] at hsent; exact ⟨response, rfl, hsent⟩

/-- One byte 0xFF leaves as two octets. -/
theorem octet_doubled : ∃ response,
    create lowerCases_ascii (BodyInit.arrayBuffer [0xFF] : BodyInit Empty) {} = .ok response ∧
    ¬ response.Sends epoch {} true false [0xFF] := by
  refine ⟨_, rfl, fun h => ?_⟩
  have hc : ({} : Conn).out.Ok := by show 0 ≤ 0; omega
  unfold Sends at h
  rw [adapter_wire lowerCases_ascii epoch _ ⟨hc, rfl⟩] at h
  exact absurd (congrArg List.length h) (by decide +kernel)

end Response

end Adapter

end NodeCompat.Http
