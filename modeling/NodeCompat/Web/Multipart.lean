import NodeCompat.Bytes
import NodeCompat.Web.Text

/-!
# FormData and its multipart/form-data body

`encodeMultipart` and `parseMultipart` of `FormData`, with `File`, `Blob` and the scanners they use. The scanners of the
source walk one string with an index; here they work on the rest of the string from that index on.
-/

namespace NodeCompat.Web

open List

/-! ## Blobs and files -/

/-- A character that `normalizeBlobType` lets through. -/
def isPrintable (c : Char) : Bool := 0x20 ≤ c.toNat && c.toNat ≤ 0x7e

def normalizeBlobType (type : Text) : Text := if type.all isPrintable then toLowerCase type else []

structure Blob where
  data : Bytes
  type : Text
  type_printable : type.all isPrintable

theorem printable_toLower {c : Char} (h : isPrintable c = true) : isPrintable c.toLower = true := by
  simp only [isPrintable, Bool.and_eq_true, decide_eq_true_eq] at h ⊢
  unfold Char.toLower
  split
  · next hu =>
    obtain ⟨h1, h2⟩ := hu
    have h1' : 65 ≤ c.val.toNat := UInt32.le_iff_toNat_le.1 h1
    have h2' : c.val.toNat ≤ 90 := UInt32.le_iff_toNat_le.1 h2
    have hval : (c.val + ('a'.val - 'A'.val)).toNat = c.val.toNat + 32 := by
      rw [UInt32.toNat_add]
      have : ('a'.val - 'A'.val).toNat = 32 := rfl
      omega
    exact ⟨by show 0x20 ≤ (c.val + ('a'.val - 'A'.val)).toNat; omega,
      by show (c.val + ('a'.val - 'A'.val)).toNat ≤ 0x7e; omega⟩
  · exact h

theorem normalizeBlobType_printable (type : Text) : (normalizeBlobType type).all isPrintable := by
  unfold normalizeBlobType
  split
  · next h =>
    simp only [all_eq_true, toLowerCase, mem_map] at h ⊢
    rintro _ ⟨c, hc, rfl⟩; exact printable_toLower (h c hc)
  · rfl

def Blob.create (data : Bytes) (type : Text) : Blob :=
  { data, type := normalizeBlobType type, type_printable := normalizeBlobType_printable type }

/-- The constructor of `File` replaces `/` in the name. -/
def fileNameOf (fileName : Text) : Text := join [':'] (split ['/'] fileName)

theorem slash_not_mem_fileNameOf (fileName : Text) : '/' ∉ fileNameOf fileName := by
  rw [fileNameOf, join_split]
  intro h
  obtain ⟨c, -, hc⟩ := mem_flatMap.1 h
  split at hc
  · simp at hc
  · next hne => exact hne (mem_singleton.1 hc).symm

structure File extends Blob where
  name : Text
  name_flat : '/' ∉ name

def File.create (data : Bytes) (fileName type : Text) : File :=
  { Blob.create data type with name := fileNameOf fileName, name_flat := slash_not_mem_fileNameOf fileName }

/-- `bytesString` -/
def Blob.bytesString (b : Blob) : Text := latin1 b.data

/-! ## Entries -/

/-- `FormDataEntryValue` -/
inductive EntryValue
  | string (s : Text)
  | file (f : File)

/-- What `append` takes. -/
inductive AppendValue
  | string (s : Text)
  | blob (b : Blob)
  | file (f : File)

/-- The names and the values, in order. -/
abbrev FormData := List (Text × EntryValue)

namespace FormData

def normalizeEntry (value : AppendValue) (fileName : Option Text) : EntryValue :=
  match value with
  | .string s => .string s
  | .blob b => .file (File.create b.data (fileName.getD (chars "blob")) b.type)
  | .file f => .file (File.create f.data (fileName.getD f.name) f.type)

def append (form : FormData) (name : Text) (value : AppendValue) (fileName : Option Text) : FormData :=
  form ++ [(name, normalizeEntry value fileName)]

end FormData

/-! ## Encoding -/

def escapeMultipartQuoted (value : Text) : Text :=
  let value := join (chars "\\\\") (split ['\\'] value)
  let value := join (chars "\\\"") (split ['"'] value)
  let value := join (chars "%0D") (split ['\r'] value)
  join (chars "%0A") (split ['\n'] value)

/-- A number in decimal. -/
def numberText (n : Nat) : Text := latin1 (decimal n)

structure EncodedMultipart where
  boundary : Text
  body : Text
  deriving DecidableEq

namespace FormData

/-- The content of an entry as it stands in the body. -/
def content : EntryValue → Text
  | .string s => latin1 (utf8 s)
  | .file f => f.bytesString

/-- The header lines of an entry, without the CRLF CRLF behind them. -/
def headers (name : Text) : EntryValue → Text
  | .string _ => chars "Content-Disposition: form-data; name=\"" ++ escapeMultipartQuoted name ++ chars "\""
  | .file f =>
    chars "Content-Disposition: form-data; name=\"" ++ escapeMultipartQuoted name ++ chars "\"; filename=\"" ++
      escapeMultipartQuoted f.name ++ chars "\"" ++ crlf ++ chars "Content-Type: " ++
      (if 0 < f.type.length then f.type else chars "application/octet-stream")

/-- The boundary of the `serial`-th body. -/
def boundaryOf (serial : Nat) : Text := chars "----gea-formdata-" ++ numberText serial

/-- `encodeMultipart`; `serial` is `geaFormDataBoundarySerial` before the call. -/
def encodeMultipart (form : FormData) (serial : Nat) : EncodedMultipart :=
  let boundary := boundaryOf (serial + 1)
  let parts := form.flatMap (fun (name, value) =>
    chars "--" ++ boundary ++ crlf ++ headers name value ++ crlf ++ crlf ++ content value ++ crlf)
  { boundary, body := parts ++ chars "--" ++ boundary ++ chars "--" ++ crlf }

end FormData

/-! ## Parsing -/

/-- A quoted string after its opening quote: its value, and what follows the closing quote. -/
def quotedValue : Text → Text × Text
  | [] => ([], [])
  | '"' :: rest => ([], rest)
  | '\\' :: c :: rest => (c :: (quotedValue rest).1, (quotedValue rest).2)
  | c :: rest => (c :: (quotedValue rest).1, (quotedValue rest).2)

theorem quotedValue_length (s : Text) : (quotedValue s).2.length ≤ s.length := by
  fun_induction quotedValue s with
  | case1 | case2 rest => simp
  | case3 c rest ih | case4 c rest h₁ h₂ ih => simp only [List.length_cons]; omega

/-- The value of a parameter after its `=`, and what follows it. -/
def parameterValue (after : Text) : Text × Text :=
  match after with
  | '"' :: rest => quotedValue rest
  | _ =>
    match find [';'] after with
    | none => (trim after, [])
    | some stop => (trim (after.take stop), after.drop (stop + 1))

theorem parameterValue_length (after : Text) : (parameterValue after).2.length ≤ after.length := by
  unfold parameterValue
  split
  · next rest =>
    have := quotedValue_length rest; simp only [length_cons]; omega
  · split <;> simp

def isSeparator (c : Char) : Bool := c == ';' || c == ' ' || c == '\t'

/-- What one round of `multipartParameter` comes to. -/
inductive Round
  | done
  | again (rest : Text)
  | parameter (name value rest : Text)

/-- The parameter whose `=` is at `equals`. -/
def parameterAt (rest : Text) (equals : Nat) : Round :=
  let value := parameterValue (rest.drop (equals + 1))
  .parameter (toLowerCase (trim (rest.take equals))) value.1 value.2

def parameterRound (header : Text) : Round :=
  let rest := header.dropWhile isSeparator
  match find ['='] rest with
  | none => .done
  | some equals =>
    match find [';'] rest with
    | none => parameterAt rest equals
    | some semicolon => if semicolon < equals then .again (rest.drop (semicolon + 1)) else parameterAt rest equals

/-- What is left after a round is shorter than `n`. -/
def Round.Within (n : Nat) : Round → Prop
  | .done => True
  | .again rest => rest.length < n
  | .parameter _ _ rest => rest.length < n

theorem parameterAt_within {rest : Text} {equals : Nat} (h : equals < rest.length) :
    (parameterAt rest equals).Within rest.length := by
  have hv := parameterValue_length (rest.drop (equals + 1))
  simp only [length_drop] at hv; simp only [parameterAt, Round.Within]; omega

theorem Round.Within.mono {m n : Nat} (h : m ≤ n) : ∀ {r : Round}, r.Within m → r.Within n
  | .done, _ => trivial
  | .again _, hr => Nat.lt_of_lt_of_le hr h
  | .parameter _ _ _, hr => Nat.lt_of_lt_of_le hr h

theorem parameterRound_within (header : Text) : (parameterRound header).Within header.length := by
  have hd : (header.dropWhile isSeparator).length ≤ header.length := length_dropWhile_le _ _
  refine Round.Within.mono hd ?_
  unfold parameterRound
  dsimp only
  split
  · trivial
  · next equals he =>
    have hlt : equals + 1 ≤ (header.dropWhile isSeparator).length := find_le he
    split
    · exact parameterAt_within hlt
    · split
      · simp only [Round.Within, length_drop]; omega
      · exact parameterAt_within hlt

/-- `multipartParameter`, on the rest of the header. -/
def multipartParameter (header wantedName : Text) : Option Text :=
  match _h : parameterRound header with
  | .done => none
  | .again rest => multipartParameter rest wantedName
  | .parameter name value rest =>
    if name = toLowerCase wantedName then some value
    else
      match find [';'] rest with
      | none => none
      | some next => multipartParameter (rest.drop (next + 1)) wantedName
termination_by header.length
decreasing_by
  all_goals
    have hr := parameterRound_within header
    rw [_h] at hr
    simp only [Round.Within, length_drop] at hr ⊢
    omega

def multipartBoundary (contentType : Text) : Text := (multipartParameter contentType (chars "boundary")).getD []

/-- `findMultipartBoundary`, on the body from `start` on. -/
def findMultipartBoundary (body delimiter : Text) : Option Nat :=
  match _h : find (crlf ++ delimiter) body with
  | none => none
  | some i =>
    let suffix := (body.drop (i + 2 + delimiter.length)).take 2
    if suffix = crlf ∨ suffix = chars "--" then some (i + 2)
    else
      let next := i + (crlf ++ delimiter).length
      (findMultipartBoundary (body.drop next) delimiter).map (· + next)
termination_by body.length
decreasing_by
  have := find_le _h
  simp only [length_append, length_drop, crlf, length_cons, length_nil] at *
  omega

/-- One header line of a part. -/
def headerLine (found : Text × Text) (line : Text) : Text × Text :=
  match find [':'] line with
  | none => found
  | some colon =>
    let headerName := toLowerCase (trim (line.take colon))
    let headerValue := trim (line.drop (colon + 1))
    if colon = 0 then found
    else if headerName = chars "content-disposition" then (headerValue, found.2)
    else if headerName = chars "content-type" then (found.1, headerValue)
    else found

/-- The last `Content-Disposition` and `Content-Type` among header lines. -/
def partHeaders (rawHeaders : Text) : Text × Text := (split crlf rawHeaders).foldl headerLine ([], [])

namespace FormData

/-- One part of the body: its headers and its content. -/
def addPart (form : FormData) (rawHeaders partBody : Text) : FormData :=
  let disposition := (partHeaders rawHeaders).1
  let mediaType := (partHeaders rawHeaders).2
  match multipartParameter disposition (chars "name") with
  | none => form
  | some name =>
    if toLowerCase (trim ((split [';'] disposition).headD [])) = chars "form-data" then
      match multipartParameter disposition (chars "filename") with
      | some fileName => form.append name (.file (File.create (ofLatin1 partBody) fileName mediaType)) none
      | none => form.append name (.string (decodeUtf8 (ofLatin1 partBody))) none
    else form

/-- The errors of `parseMultipart`. -/
inductive ParseError
  | missing | notFound | boundary | unclosed | part
  deriving DecidableEq

def ParseError.message : ParseError → String
  | .missing => "Multipart boundary is missing"
  | .notFound => "Multipart boundary was not found in body"
  | .boundary => "Malformed multipart boundary"
  | .unclosed => "Multipart body has no closing boundary"
  | .part => "Malformed multipart part"

/-- The loop of `parseMultipart`; `rest` is the body behind a delimiter. -/
def parseParts (delimiter : Text) (form : FormData) (rest : Text) : Except ParseError FormData :=
  if rest.take 2 = chars "--" then .ok form
  else if _hc : rest.take 2 ≠ crlf then .error .boundary
  else
    match findMultipartBoundary (rest.drop 2) delimiter with
    | none => .error .unclosed
    | some next =>
      let part := (rest.drop 2).take (next - 2)
      match find (crlf ++ crlf) part with
      | none => .error .part
      | some headerEnd =>
        parseParts delimiter (form.addPart (part.take headerEnd) (part.drop (headerEnd + 4)))
          ((rest.drop 2).drop (next + delimiter.length))
termination_by rest.length
decreasing_by
  have h2 : 2 ≤ rest.length := by
    have := congrArg List.length (not_not.1 _hc)
    simp only [crlf, length_take, length_cons, length_nil] at this
    omega
  simp only [length_drop]
  omega

def parseMultipart (body contentType : Text) : Except ParseError FormData :=
  let boundary := multipartBoundary contentType
  if boundary = [] then .error .missing
  else
    let delimiter := chars "--" ++ boundary
    let boundaryAt := if delimiter <+: body then some 0 else findMultipartBoundary body delimiter
    match boundaryAt with
    | none => .error .notFound
    | some i => parseParts delimiter [] (body.drop (i + delimiter.length))

end FormData

end NodeCompat.Web
