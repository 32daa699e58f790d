import NodeCompat.Lib.Digits
import NodeCompat.Lib.Find

/-!
# Byte strings

The reactor's `std::string`s are byte strings, and so are the strings of compiled TypeScript: both are lists of bytes
here. `text` is a string literal of the source.
-/

namespace NodeCompat

abbrev Bytes := List UInt8

/-- The bytes of a string literal. -/
def text (s : String) : Bytes := s.toUTF8.data.toList

def cr : UInt8 := 13
def lf : UInt8 := 10
def sp : UInt8 := 32
def tab : UInt8 := 9
def colon : UInt8 := 58
def comma : UInt8 := 44
def semicolon : UInt8 := 59

/-- `"\r\n"` -/
def crlf : Bytes := [cr, lf]

/-- `"\r\n\r\n"` -/
def crlfcrlf : Bytes := [cr, lf, cr, lf]

@[simp] theorem length_crlf : crlf.length = 2 := rfl

@[simp] theorem length_crlfcrlf : crlfcrlf.length = 4 := rfl

/-- A number in decimal digits. -/
def decimal (n : Nat) : Bytes := (digitsOf 10 n).map (fun d => UInt8.ofNat (48 + d))

/-- A number in lower-case hexadecimal digits. -/
def hexText (n : Nat) : Bytes := (digitsOf 16 n).map (fun d => UInt8.ofNat (if d < 10 then 48 + d else 87 + d))

/-- Optional whitespace around a field value: space or tab. -/
def isBlank (c : UInt8) : Bool := c == sp || c == tab

/-- A value without the blanks around it. -/
def trimBlanks (s : Bytes) : Bytes := (s.dropWhile isBlank).rdropWhile isBlank

/-- ASCII lower case. -/
def lowerByte (c : UInt8) : UInt8 := if 65 ≤ c && c ≤ 90 then c + 32 else c

def asciiEqualsIgnoreCase (a b : Bytes) : Bool := a.map lowerByte == b.map lowerByte

/-- Case-insensitive "does the comma-separated header value contain this token". -/
def headerValueHasToken (value token : Bytes) : Bool :=
  if h : value = [] then false
  else
    let next := (find [comma] value).getD value.length
    asciiEqualsIgnoreCase (trimBlanks (value.take next)) token || headerValueHasToken (value.drop (next + 1)) token
termination_by value.length
decreasing_by
  have := List.length_pos_iff.2 h
  simp only [List.length_drop]
  omega

theorem trimBlanks_of_bare {s : Bytes} (h₁ : ∀ c ∈ s.head?, isBlank c = false) (h₂ : ∀ c ∈ s.getLast?, isBlank c = false) :
    trimBlanks s = s := by
  have hd : s.dropWhile isBlank = s := by
    cases s with
    | nil => rfl
    | cons c s => simp [h₁ c rfl]
  rw [trimBlanks, hd]
  apply List.rdropWhile_eq_self_iff.2
  intro hne hb
  have := h₂ (s.getLast hne) (List.getLast?_eq_getLast_of_ne_nil hne ▸ rfl)
  rw [this] at hb; cases hb

theorem trimBlanks_append {a s : Bytes} (ha : ∀ c ∈ a, isBlank c = true) : trimBlanks (a ++ s) = trimBlanks s := by
  rw [trimBlanks, List.dropWhile_append_of_pos ha, trimBlanks]

end NodeCompat
