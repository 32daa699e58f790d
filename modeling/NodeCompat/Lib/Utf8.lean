import Mathlib.Algebra.Ring.Nat

/-!
# UTF-8

Strings of Unicode scalar values and their bytes. Encoding is the library's `String.utf8EncodeChar`. Decoding never
fails: a maximal part that cannot be continued to a character becomes one replacement character. What a decoder needs of
it is that it reads an encoded string back, whatever bytes follow (`decodeUtf8_append`).
-/

namespace NodeCompat

open List

/-- The UTF-8 bytes of a string. -/
def utf8 (s : List Char) : List UInt8 := s.flatMap String.utf8EncodeChar

def replacementChar : Char := '\uFFFD'

def isContinuation (b : UInt8) : Bool := 0x80 ≤ b && b ≤ 0xBF

/-- May `c` follow the lead byte `b` of a sequence of three or four bytes? -/
def followsLead (b c : UInt8) : Bool :=
  if b == 0xE0 then 0xA0 ≤ c && c ≤ 0xBF
  else if b == 0xED then 0x80 ≤ c && c ≤ 0x9F
  else if b == 0xF0 then 0x90 ≤ c && c ≤ 0xBF
  else if b == 0xF4 then 0x80 ≤ c && c ≤ 0x8F
  else 0xE1 ≤ b && b ≤ 0xF3 && isContinuation c

/-- How many bytes one replacement character stands for. -/
def malformed : List UInt8 → Nat
  | b :: c :: d :: _ => if followsLead b c then (if 0xF0 ≤ b && isContinuation d then 3 else 2) else 1
  | [b, c] => if followsLead b c then 2 else 1
  | _ => 1

/-- The decoder; `skip` bytes of the character it has just read are still to come. -/
def decodeUtf8Go : Nat → List UInt8 → List Char
  | _, [] => []
  | skip + 1, _ :: bs => decodeUtf8Go skip bs
  | 0, b :: bs =>
    match (b :: bs).toByteArray.utf8DecodeChar? 0 with
    | some c => c :: decodeUtf8Go (c.utf8Size - 1) bs
    | none => replacementChar :: decodeUtf8Go (malformed (b :: bs) - 1) bs

/-- The string that bytes decode to. -/
def decodeUtf8 (bs : List UInt8) : List Char := decodeUtf8Go 0 bs

theorem decodeUtf8Go_drop : ∀ (skip : Nat) (bs : List UInt8), decodeUtf8Go skip bs = decodeUtf8 (bs.drop skip)
  | 0, bs => rfl
  | skip + 1, [] => by simp [decodeUtf8Go, decodeUtf8]
  | skip + 1, b :: bs => by rw [decodeUtf8Go, drop_succ_cons]; exact decodeUtf8Go_drop skip bs

theorem decodeUtf8_char (c : Char) (bs : List UInt8) :
    decodeUtf8 (String.utf8EncodeChar c ++ bs) = c :: decodeUtf8 bs := by
  have hlen : (String.utf8EncodeChar c).length = c.utf8Size := String.length_utf8EncodeChar c
  have hpos := c.utf8Size_pos
  have hdec : (String.utf8EncodeChar c ++ bs).toByteArray.utf8DecodeChar? 0 = some c := by
    rw [toByteArray_append]; exact ByteArray.utf8DecodeChar?_utf8EncodeChar_append
  have hdrop : (String.utf8EncodeChar c ++ bs).drop c.utf8Size = bs := by
    rw [← hlen, drop_left]
  cases hs : String.utf8EncodeChar c ++ bs with
  | nil =>
    have := congrArg List.length hs; simp only [length_append, length_nil] at this; omega
  | cons b rest =>
    rw [hs] at hdec hdrop
    obtain ⟨n, hn⟩ : ∃ n, c.utf8Size = n + 1 := ⟨c.utf8Size - 1, by omega⟩
    rw [hn, drop_succ_cons] at hdrop
    simp only [decodeUtf8, decodeUtf8Go, hdec]
    rw [decodeUtf8Go_drop, hn, Nat.add_sub_cancel, hdrop]; rfl

theorem decodeUtf8_append (s : List Char) (bs : List UInt8) : decodeUtf8 (utf8 s ++ bs) = s ++ decodeUtf8 bs := by
  induction s with
  | nil => rfl
  | cons c s ih =>
    rw [utf8, flatMap_cons, append_assoc, decodeUtf8_char, cons_append]; exact congrArg (c :: ·) ih

theorem decodeUtf8_utf8 (s : List Char) : decodeUtf8 (utf8 s) = s := by
  have := decodeUtf8_append s []; simpa [decodeUtf8, decodeUtf8Go] using this

example : decodeUtf8 [0x61, 0xE2, 0x82, 0x41, 0xF0, 0x9F, 0x98, 0x80, 0xFF] =
    ['a', replacementChar, 'A', '😀', replacementChar] := by decide +kernel

end NodeCompat
