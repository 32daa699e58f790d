import NodeCompat.Http.Parser

/-!
# A client that reads a response

What a conforming HTTP/1.x client makes of the bytes of a response: the status line, the fields up to the empty line, and
the body, which is absent, chunked, of a given length, or all that comes until the connection closes. This is no code of
the repository: it says what the bytes that the repository sends mean.
-/

namespace NodeCompat.Http.Client

open NodeCompat.Http

def isDigit (c : UInt8) : Bool := 48 ≤ c && c ≤ 57

/-- A number in decimal digits. -/
def readDecimal (s : Bytes) : Option Nat :=
  if s ≠ [] ∧ s.all isDigit then some (ofDigits 10 0 (s.map (fun c => c.toNat - 48))) else none

/-- The status code of a status line. -/
def readStatusLine (line : Bytes) : Option Nat :=
  if (line.take 9 = text "HTTP/1.1 " ∨ line.take 9 = text "HTTP/1.0 ") ∧ (line.drop 12).take 1 = [sp] then
    readDecimal ((line.drop 9).take 3)
  else none

/-- A field line: the name up to the first colon, and the value without the blanks around it. -/
def readField (line : Bytes) : Option (Bytes × Bytes) :=
  (find [colon] line).map (fun c => (line.take c, trimBlanks (line.drop (c + 1))))

theorem length_drop_line {s : Bytes} {i : Nat} (h : find crlf s = some (i + 1)) : (s.drop (i + 1 + 2)).length < s.length := by
  have := find_le h
  simp only [List.length_drop, length_crlf] at this ⊢
  omega

/-- The fields up to the empty line, and what follows it. -/
def readFields (s : Bytes) : Option (List (Bytes × Bytes) × Bytes) :=
  match _h : find crlf s with
  | none => none
  | some 0 => some ([], s.drop 2)
  | some (i + 1) =>
    match readField (s.take (i + 1)) with
    | none => none
    | some f => (readFields (s.drop (i + 1 + 2))).map (fun r => (f :: r.1, r.2))
termination_by s.length
decreasing_by
  exact length_drop_line ‹find crlf s = some (i + 1)›

/-- How the client knows where the body ends. -/
inductive BodyEnd
  | absent
  | chunked
  | length (n : Nat)
  | close
deriving DecidableEq

/-- The values of a field. -/
def values (name : Bytes) (fields : List (Bytes × Bytes)) : List Bytes :=
  (fields.filter (fun f => asciiEqualsIgnoreCase f.1 name)).map Prod.snd

/-- The last of the codings of a `Transfer-Encoding`. -/
def finalCoding (value : Bytes) : Bytes := trimBlanks (value.rtakeWhile (· ≠ comma))

/-- The rules for the length of a body, in their order. -/
def bodyEnd (isHead : Bool) (status : Nat) (fields : List (Bytes × Bytes)) : Option BodyEnd :=
  if isHead || status < 200 || status == 204 || status == 304 then some .absent
  else
    match (values (text "transfer-encoding") fields).getLast? with
    | some value => if asciiEqualsIgnoreCase (finalCoding value) (text "chunked") then some .chunked else some .close
    | none =>
      match values (text "content-length") fields with
      | [] => some .close
      | value :: others => if others.all (· = value) then (readDecimal value).map .length else none

/-- The head of a response: where its body ends, and the bytes behind the head. -/
def readHead (isHead : Bool) (s : Bytes) : Option (BodyEnd × Bytes) :=
  match find crlf s with
  | none => none
  | some i =>
    match readStatusLine (s.take i), readFields (s.drop (i + 2)) with
    | some status, some (fields, rest) => (bodyEnd isHead status fields).map (fun e => (e, rest))
    | _, _ => none

/-- The lines behind the last chunk, up to the empty one. -/
def skipTrailers (s : Bytes) : Option Bytes :=
  match _h : find crlf s with
  | none => none
  | some 0 => some (s.drop 2)
  | some (i + 1) => skipTrailers (s.drop (i + 1 + 2))
termination_by s.length
decreasing_by
  exact length_drop_line ‹find crlf s = some (i + 1)›

/-- The size in a chunk-size line, up to an extension. -/
def readSize (line : Bytes) : Option Nat :=
  let digits := line.takeWhile (fun c => (hexDigit c).isSome)
  if digits = [] then none else some (ofDigits 16 0 (digits.filterMap hexDigit))

/-- A chunked body: its bytes, and what follows it. -/
def readChunks (s : Bytes) : Option (Bytes × Bytes) :=
  match _h : find crlf s with
  | none => none
  | some i =>
    match readSize (s.take i) with
    | none => none
    | some 0 => (skipTrailers (s.drop (i + 2))).map (fun rest => ([], rest))
    | some (n + 1) =>
      let data := (s.drop (i + 2)).take (n + 1)
      let behind := (s.drop (i + 2)).drop (n + 1)
      if data.length = n + 1 ∧ behind.take 2 = crlf then
        (readChunks (behind.drop 2)).map (fun r => (data ++ r.1, r.2))
      else none
termination_by s.length
decreasing_by
  have := find_le ‹find crlf s = some i›
  simp only [List.length_drop, length_crlf] at this ⊢
  omega

/-- What the client reads: the body, the bytes behind the response, and whether the response says itself where it ends. -/
structure Read where
  body : Bytes
  rest : Bytes
  delimited : Bool
deriving DecidableEq

/-- The body behind a head. -/
def readBody (s : Bytes) : BodyEnd → Option Read
  | .absent => some ⟨[], s, true⟩
  | .chunked => (readChunks s).map (fun r => ⟨r.1, r.2, true⟩)
  | .length n => if n ≤ s.length then some ⟨s.take n, s.drop n, true⟩ else none
  | .close => some ⟨s, [], false⟩

/-- A whole response. -/
def read (isHead : Bool) (s : Bytes) : Option Read :=
  match readHead isHead s with
  | none => none
  | some (e, rest) => readBody rest e

end NodeCompat.Http.Client
