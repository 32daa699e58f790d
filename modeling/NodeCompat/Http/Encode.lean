import NodeCompat.Http.Segments

/-!
# Encoding requests

Well-formed requests and their bytes on the wire: a request line, field lines, and a body framed by a Content-Length or
by chunks. The structures carry what makes a request well formed, so that there are no others.
-/

namespace NodeCompat.Http

open List

/-! ## Requests on the wire -/

/-- A field line `name:value`, with any blanks around the value. -/
structure Field where
  name : Bytes
  value : Bytes
  lead : Bytes
  trail : Bytes
  name_ne : name ≠ []
  name_ok : ∀ c ∈ name, c ≠ sp ∧ c ≠ tab ∧ c ≠ cr ∧ c ≠ lf ∧ c ≠ colon
  value_ok : ∀ c ∈ value, c ≠ cr ∧ c ≠ lf
  value_head : ∀ c ∈ value.head?, isBlank c = false
  value_last : ∀ c ∈ value.getLast?, isBlank c = false
  lead_ok : ∀ c ∈ lead, isBlank c = true
  trail_ok : ∀ c ∈ trail, isBlank c = true

def Field.line (f : Field) : Bytes := f.name ++ colon :: (f.lead ++ (f.value ++ f.trail))

/-- Whether a field decides the framing of the body. -/
def Field.frames (f : Field) : Bool :=
  asciiEqualsIgnoreCase f.name (text "content-length") || asciiEqualsIgnoreCase f.name (text "transfer-encoding")

/-- The value of decimal digits. -/
def decimalValue (n : Nat) (ds : Bytes) : Nat := ds.foldl (fun n c => n * 10 + (c.toNat - 48)) n

/-- The value of hexadecimal digits. -/
def hexValue (n : Nat) (ds : Bytes) : Nat := ds.foldl (fun n c => n * 16 + (hexDigit c).getD 0) n

/-- A chunk-size line without its CRLF: hexadecimal digits and any extension, 1023 bytes at most. -/
structure SizeLine where
  digits : Bytes
  ext : Bytes
  digits_ne : digits ≠ []
  digits_ok : ∀ c ∈ digits, (hexDigit c).isSome
  ext_ok : ext = [] ∨ ext.head? = some semicolon
  no_crlf : find crlf (digits ++ ext) = none
  length_lt : (digits ++ ext).length < 1024

def SizeLine.line (l : SizeLine) : Bytes := l.digits ++ l.ext

def SizeLine.size (l : SizeLine) : Nat := hexValue 0 l.digits

/-- A non-empty chunk. -/
structure Chunk where
  sizeLine : SizeLine
  data : Bytes
  data_ne : data ≠ []
  size_eq : sizeLine.size = data.length

def Chunk.bytes (c : Chunk) : Bytes := c.sizeLine.line ++ (crlf ++ (c.data ++ crlf))

/-- A trailer line, without its CRLF. -/
structure Trailer where
  line : Bytes
  line_ne : line ≠ []
  no_crlf : find crlf line = none

/-- How a body is framed: not at all (there is none), by one Content-Length, or by chunks in any partition, a last chunk
and any trailer lines. -/
inductive Framing
  | bare
  | length (field : Field) (body : Bytes)
  | chunked (field : Field) (chunks : List Chunk) (last : SizeLine) (trailers : List Trailer)

namespace Framing

def field? : Framing → List Field
  | bare => []
  | length f _ => [f]
  | chunked f _ _ _ => [f]

def body : Framing → Bytes
  | bare => []
  | length _ b => b
  | chunked _ cs _ _ => cs.flatMap (·.data)

/-- What follows the head. -/
def bytes : Framing → Bytes
  | bare => []
  | length _ b => b
  | chunked _ cs last ts =>
    cs.flatMap Chunk.bytes ++ (last.line ++ (crlf ++ (ts.flatMap (fun t => t.line ++ crlf) ++ crlf)))

/-- The framing field says what the framing is. -/
def Ok : Framing → Prop
  | bare => True
  | length f b => asciiEqualsIgnoreCase f.name (text "content-length") = true ∧ f.value ≠ [] ∧
      (∀ c ∈ f.value, 48 ≤ c ∧ c ≤ 57) ∧ decimalValue 0 f.value = b.length
  | chunked f _ last _ => asciiEqualsIgnoreCase f.name (text "transfer-encoding") = true ∧
      headerValueHasToken f.value (text "chunked") = true ∧ last.size = 0

end Framing

/-- Lines with CRLF between them. -/
def joinLines : List Bytes → Bytes
  | [] => []
  | [l] => l
  | l :: l' :: ls => l ++ (crlf ++ joinLines (l' :: ls))

/-- A request head: the request line, then each field line behind a CRLF. -/
def headBytes (method target version : Bytes) (fields : List Field) : Bytes :=
  method ++ sp :: (target ++ sp :: version) ++ fields.flatMap (fun f => crlf ++ f.line)

/-- A well-formed request; the framing field stands anywhere among the others. -/
structure Request where
  method : Bytes
  target : Bytes
  version : Bytes
  before : List Field
  framing : Framing
  after : List Field
  method_ne : method ≠ []
  method_ok : ∀ c ∈ method, c ≠ sp ∧ c ≠ cr
  target_ne : target ≠ []
  target_ok : ∀ c ∈ target, c ≠ sp ∧ c ≠ cr
  version_ok : version = text "HTTP/1.1" ∨ version = text "HTTP/1.0"
  before_ok : ∀ f ∈ before, f.frames = false
  after_ok : ∀ f ∈ after, f.frames = false
  framing_ok : framing.Ok
  head_le : (headBytes method target version (before ++ framing.field? ++ after)).length + 4 ≤ kMaxHeadBytes
  body_le : framing.body.length ≤ kMaxBodyBytes

namespace Request

def fields (r : Request) : List Field := r.before ++ r.framing.field? ++ r.after

def head (r : Request) : Bytes := headBytes r.method r.target r.version r.fields

/-- The raw header block. -/
def rawHead (r : Request) : Bytes := joinLines (r.fields.map Field.line)

/-- The bytes of the request on the wire. -/
def bytes (r : Request) : Bytes := r.head ++ (crlfcrlf ++ r.framing.bytes)

end Request

/-! ## Fields and lines -/

namespace Field

variable (f : Field)

theorem line_ne : f.line ≠ [] := by
  have := f.name_ne
  cases h : f.name with
  | nil => exact absurd h this
  | cons c cs => simp [line, h]

theorem cr_not_mem_line : cr ∉ f.line := by
  have hb : ∀ {c}, isBlank c = true → c ≠ cr := by
    intro c h e
    subst e
    revert h; decide
  simp only [line, mem_append, mem_cons, not_or]
  refine ⟨fun h => (f.name_ok _ h).2.2.1 rfl, by decide, fun h => hb (f.lead_ok _ h) rfl, fun h => (f.value_ok _ h).1 rfl,
    fun h => hb (f.trail_ok _ h) rfl⟩

theorem find_colon : find [colon] f.line = some f.name.length := find_single (fun h => (f.name_ok _ h).2.2.2.2 rfl)

theorem take_name : f.line.take f.name.length = f.name := take_left

theorem trim_value : trimBlanks (f.line.drop (f.name.length + 1)) = f.value := by
  have hd : f.line.drop (f.name.length + 1) = f.lead ++ (f.value ++ f.trail) := by
    rw [line, ← drop_drop, drop_left]; rfl
  rw [hd, trimBlanks_append f.lead_ok]
  cases hv : f.value with
  | nil => rw [nil_append, trimBlanks, dropWhile_eq_nil_iff.2 f.trail_ok]; rfl
  | cons c cs =>
    have hc : isBlank c = false := f.value_head c (by rw [hv]; rfl)
    have hdw : (c :: cs ++ f.trail).dropWhile isBlank = c :: cs ++ f.trail := by
      rw [cons_append, dropWhile_cons_of_neg (by simp [hc])]
    rw [trimBlanks, hdw, List.rdropWhile, reverse_append,
      dropWhile_append_of_pos (fun x hx => f.trail_ok x (mem_reverse.1 hx))]
    have := trimBlanks_of_bare (s := c :: cs) (fun x hx => f.value_head x (by rw [hv]; exact hx))
      (fun x hx => f.value_last x (by rw [hv]; exact hx))
    rwa [trimBlanks, dropWhile_cons_of_neg (by simp [hc]), List.rdropWhile] at this

theorem scan_line (s : FieldScan) : s.line f.line = { s with fields := s.fields ++ [(f.name, f.value)] }.decide f.name f.value := by
  have hlen : f.name.length ≠ 0 := fun h => f.name_ne (length_eq_zero_iff.1 h)
  have hnb : f.name.any isBlank = false := by
    rw [any_eq_false]
    intro c hc hb
    obtain ⟨h₁, h₂, -⟩ := f.name_ok c hc; simp [isBlank, h₁, h₂] at hb
  unfold FieldScan.line
  rw [f.find_colon]
  split
  · next h => cases h
  · next h => exact absurd (Option.some.inj h) hlen
  · next c _ h =>
    cases h; simp only [f.take_name, f.trim_value, hnb, Bool.false_eq_true, if_false]

end Field

end NodeCompat.Http
