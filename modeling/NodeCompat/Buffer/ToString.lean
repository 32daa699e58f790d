import NodeCompat.Bytes
import NodeCompat.Lib.Utf16
import NodeCompat.Lib.Utf8Groups
import Mathlib.Data.List.GetD

/-!
# `Buffer.toString`

The text that bytes stand for in an encoding. Each encoding takes its bytes group by group: single bytes, three bytes of
base64, a code unit or a surrogate pair of UTF-16, a character of UTF-8 (`decode_groups`). The texts of parts are the text
of the whole when no group is cut. In UTF-8 and base64 a cut always shows; in base64url and UTF-16 some bytes hide it, as
a base64url group that is cut loses no `=`.

`toString` is that of the whole view, and a string is a list of UTF-16 code units.
-/

namespace NodeCompat.Buffer

open List Groups

/-- What `normalizeEncoding` answers. -/
inductive Codec
  | utf8 | hex | base64 | base64url | latin1 | ascii | utf16le
  deriving DecidableEq

def Codec.name : Codec → Bytes
  | .utf8 => text "utf8"
  | .hex => text "hex"
  | .base64 => text "base64"
  | .base64url => text "base64url"
  | .latin1 => text "latin1"
  | .ascii => text "ascii"
  | .utf16le => text "utf16le"

def Codec.names : List Codec := [.utf8, .hex, .base64, .base64url, .latin1, .ascii, .utf16le]

/-- `none` is `Unknown encoding`. -/
def normalizeEncoding (requested : Bytes) : Option Codec :=
  if requested = [] ∨ requested = text "utf8" ∨ requested = text "utf-8" then some .utf8
  else
    match Codec.names.find? (fun c => requested == c.name) with
    | some c => some c
    | none =>
      let encoding := requested.map lowerByte
      if encoding = text "utf-8" then some .utf8
      else if encoding = text "ucs2" ∨ encoding = text "ucs-2" ∨ encoding = text "utf-16le" then some .utf16le
      else if encoding = text "binary" then some .latin1
      else Codec.names.find? (fun c => encoding == c.name)

/-! ## The codecs -/

def hexDigits : List Char := "0123456789abcdef".toList

def hexByte (b : UInt8) : List Char := [hexDigits.getD (b >>> 4).toNat '0', hexDigits.getD (b &&& 15).toNat '0']

def base64Digits (url : Bool) : List Char :=
  if url then "ABCDEFGHIJKLMNOPQRSTUVWXYZabcdefghijklmnopqrstuvwxyz0123456789-_".toList
  else "ABCDEFGHIJKLMNOPQRSTUVWXYZabcdefghijklmnopqrstuvwxyz0123456789+/".toList

def base64Digit (url : Bool) (n : Nat) : Char := (base64Digits url).getD (n % 64) 'A'

def triple (a b c : UInt8) : Nat := a.toNat <<< 16 ||| b.toNat <<< 8 ||| c.toNat

/-- The loop of `encodeBase64`. -/
def encodeTriples (url : Bool) : Bytes → List Char
  | [] => []
  | [a] => [base64Digit url (triple a 0 0 >>> 18), base64Digit url (triple a 0 0 >>> 12), '=', '=']
  | [a, b] =>
    [base64Digit url (triple a b 0 >>> 18), base64Digit url (triple a b 0 >>> 12), base64Digit url (triple a b 0 >>> 6), '=']
  | a :: b :: c :: bytes =>
    base64Digit url (triple a b c >>> 18) :: base64Digit url (triple a b c >>> 12) :: base64Digit url (triple a b c >>> 6) ::
      base64Digit url (triple a b c) :: encodeTriples url bytes

def encodeBase64 (url : Bool) (bytes : Bytes) : List Char :=
  if url then (encodeTriples url bytes).rdropWhile (· == '=') else encodeTriples url bytes

def latin1Char (b : UInt8) : Char := Char.ofNat b.toNat

def asciiChar (b : UInt8) : Char := Char.ofNat (b &&& 0x7F).toNat

/-- A code unit, low byte first. -/
def unit (a b : UInt8) : Nat := a.toNat ||| b.toNat <<< 8

def isHigh (u : Nat) : Bool := 0xD800 ≤ u && u ≤ 0xDBFF

def isLow (u : Nat) : Bool := 0xDC00 ≤ u && u ≤ 0xDFFF

/-- The character of a unit that is not the first of a pair. -/
def unitChar (u : Nat) : Char := if 0xD800 ≤ u && u ≤ 0xDFFF then replacementChar else Char.ofNat u

def pairChar (high low : Nat) : Char := Char.ofNat (0x10000 + ((high - 0xD800) <<< 10) + (low - 0xDC00))

def decodeUtf16le : Bytes → List Char
  | a :: b :: c :: d :: bytes =>
    if isHigh (unit a b) && isLow (unit c d) then pairChar (unit a b) (unit c d) :: decodeUtf16le bytes
    else unitChar (unit a b) :: decodeUtf16le (c :: d :: bytes)
  | a :: b :: bytes => unitChar (unit a b) :: decodeUtf16le bytes
  | _ => []

def decode : Codec → Bytes → List Char
  | .hex, bytes => bytes.flatMap hexByte
  | .base64, bytes => encodeBase64 false bytes
  | .base64url, bytes => encodeBase64 true bytes
  | .latin1, bytes => bytes.map latin1Char
  | .ascii, bytes => bytes.map asciiChar
  | .utf16le, bytes => decodeUtf16le bytes
  | .utf8, bytes => decodeUtf8 bytes

def toString (requestedEncoding : Bytes) (view : Bytes) : Option (List UInt16) :=
  (normalizeEncoding requestedEncoding).map (fun codec => utf16 (decode codec view))

/-! ## The codecs, group by group -/

/-- Each byte stands for itself. -/
def bytewise (f : UInt8 → List Char) : Groups UInt8 Char where
  size _ := 1
  out bytes := bytes.head?.elim [] f
  pos _ _ := Nat.one_pos
  le b bytes := by simp
  stable b bytes n h := by
    obtain ⟨m, rfl⟩ : ∃ m, n = m + 1 := ⟨n - 1, by omega⟩
    exact ⟨rfl, rfl⟩

theorem decode_bytewise (f : UInt8 → List Char) (bytes : Bytes) : (bytewise f).decode bytes = bytes.flatMap f := by
  induction bytes with
  | nil => exact decode_nil
  | cons b bytes ih => rw [decode_cons, flatMap_cons, ← ih]; rfl

theorem uncut_bytewise (f : UInt8 → List Char) (cs : List Bytes) : (bytewise f).Uncut cs := by
  induction cs with
  | nil => trivial
  | cons c cs ih =>
    refine ⟨boundary_of_dvd (n := 0) (fun b bytes => ?_) c cs.flatten (.inl (Nat.one_dvd _)), ih⟩
    exact (Nat.min_eq_left (Nat.succ_pos _)).symm

/-- What three bytes of base64, or the last one or two, stand for. -/
def base64Out (url : Bool) : Bytes → List Char
  | [] => []
  | [a] =>
    [base64Digit url (triple a 0 0 >>> 18), base64Digit url (triple a 0 0 >>> 12)] ++ if url then [] else ['=', '=']
  | [a, b] =>
    [base64Digit url (triple a b 0 >>> 18), base64Digit url (triple a b 0 >>> 12), base64Digit url (triple a b 0 >>> 6)] ++
      if url then [] else ['=']
  | a :: b :: c :: _ =>
    [base64Digit url (triple a b c >>> 18), base64Digit url (triple a b c >>> 12), base64Digit url (triple a b c >>> 6),
      base64Digit url (triple a b c)]

def base64Groups (url : Bool) : Groups UInt8 Char where
  size bytes := min 3 bytes.length
  out := base64Out url
  pos b bytes := by rw [length_cons]; omega
  le b bytes := Nat.min_le_right _ _
  stable b bytes n h := by
    match bytes, n with
    | [], n + 1 => simp
    | [c], 1 => simp at h
    | [c], n + 2 => simp
    | c :: d :: bytes, 1 => simp at h
    | c :: d :: bytes, 2 => simp at h
    | c :: d :: bytes, n + 3 =>
      refine ⟨?_, rfl⟩
      simp only [take_succ_cons, length_cons]
      omega

def utf16Size : Bytes → Nat
  | a :: b :: c :: d :: _ => if isHigh (unit a b) && isLow (unit c d) then 4 else 2
  | _ :: _ :: _ => 2
  | bytes => bytes.length

def utf16Out : Bytes → List Char
  | a :: b :: c :: d :: _ =>
    if isHigh (unit a b) && isLow (unit c d) then [pairChar (unit a b) (unit c d)] else [unitChar (unit a b)]
  | a :: b :: _ => [unitChar (unit a b)]
  | _ => []

theorem utf16Size_pos (b : UInt8) (bytes : Bytes) : 0 < utf16Size (b :: bytes) := by
  unfold utf16Size
  split
  · split <;> omega
  · omega
  · simp

def utf16Groups : Groups UInt8 Char where
  size := utf16Size
  out := utf16Out
  pos := utf16Size_pos
  le b bytes := by
    unfold utf16Size
    split
    · next h =>
      rw [h]
      simp only [length_cons]
      split <;> omega
    · next h =>
      rw [h]
      simp only [length_cons]
      omega
    · exact Nat.le_refl _
  stable b bytes n h := by
    match bytes, n with
    | bytes, 0 => exact absurd (utf16Size_pos b bytes) (by omega)
    | [], n + 1 => simp
    | [c], 1 => simp [utf16Size] at h
    | [c], n + 2 => simp
    | [c, d], 1 => simp [utf16Size] at h
    | [c, d], 2 => exact ⟨rfl, rfl⟩
    | [c, d], n + 3 => simp
    | c :: d :: e :: bytes, 1 =>
      unfold utf16Size at h
      dsimp only at h
      split at h <;> omega
    | c :: d :: e :: bytes, 2 | c :: d :: e :: bytes, 3 =>
      unfold utf16Size at h
      dsimp only at h
      split at h
      · omega
      · next hp => simp [utf16Size, utf16Out, hp]
    | c :: d :: e :: bytes, n + 4 => exact ⟨rfl, rfl⟩

def groups : Codec → Groups UInt8 Char
  | .hex => bytewise hexByte
  | .base64 => base64Groups false
  | .base64url => base64Groups true
  | .latin1 => bytewise (fun b => [latin1Char b])
  | .ascii => bytewise (fun b => [asciiChar b])
  | .utf16le => utf16Groups
  | .utf8 => utf8Groups

theorem base64Digits_ne {url : Bool} {c : Char} (h : c ∈ base64Digits url) : c ≠ '=' := by
  have hall : (base64Digits url).all (fun c => c != '=') = true := by
    unfold base64Digits
    split <;> (rw [String.toList_ofList]; decide +kernel)
  simpa using all_eq_true.1 hall c h

theorem base64Digit_ne (url : Bool) (n : Nat) : base64Digit url n ≠ '=' := by
  have hlen : (base64Digits url).length = 64 := by
    unfold base64Digits
    split <;> (rw [String.toList_ofList]; rfl)
  have hlt : n % 64 < (base64Digits url).length := by omega
  unfold base64Digit; rw [getD_eq_getElem _ _ hlt]; exact base64Digits_ne (getElem_mem hlt)

theorem decode_base64Groups_false : ∀ bytes, (base64Groups false).decode bytes = encodeTriples false bytes
  | [] => Groups.decode_nil
  | [a] => by rw [Groups.decode_cons]; exact congrArg _ Groups.decode_nil
  | [a, b] => by rw [Groups.decode_cons]; exact congrArg _ Groups.decode_nil
  | a :: b :: c :: bytes => by
    have hsize : (base64Groups false).size (a :: b :: c :: bytes) = 3 := by
      simp only [base64Groups, length_cons]; omega
    rw [decode_cons, hsize, encodeTriples, ← decode_base64Groups_false bytes]
    rfl

theorem rdropWhile_cons {α : Type} (p : α → Bool) (a : α) (as : List α) (h : p a = false) :
    (a :: as).rdropWhile p = a :: as.rdropWhile p := by
  rw [List.rdropWhile, List.rdropWhile, reverse_cons, dropWhile_append]
  split
  · next he =>
    rw [List.isEmpty_iff.1 he]; simp [h]
  · simp

theorem decode_base64Groups_true : ∀ bytes, (base64Groups true).decode bytes = (encodeTriples true bytes).rdropWhile (· == '=')
  | [] => Groups.decode_nil
  | [a] => by
    have hd := base64Digit_ne true
    rw [Groups.decode_cons, encodeTriples, rdropWhile_cons _ _ _ (by simpa using hd _), rdropWhile_cons _ _ _ (by simpa using hd _)]
    exact congrArg _ Groups.decode_nil
  | [a, b] => by
    have hd := base64Digit_ne true
    rw [Groups.decode_cons, encodeTriples, rdropWhile_cons _ _ _ (by simpa using hd _), rdropWhile_cons _ _ _ (by simpa using hd _),
      rdropWhile_cons _ _ _ (by simpa using hd _)]
    exact congrArg _ Groups.decode_nil
  | a :: b :: c :: bytes => by
    have hd := base64Digit_ne true
    have hsize : (base64Groups true).size (a :: b :: c :: bytes) = 3 := by
      simp only [base64Groups, length_cons]; omega
    rw [decode_cons, hsize, encodeTriples, rdropWhile_cons _ _ _ (by simpa using hd _),
      rdropWhile_cons _ _ _ (by simpa using hd _), rdropWhile_cons _ _ _ (by simpa using hd _),
      rdropWhile_cons _ _ _ (by simpa using hd _), ← decode_base64Groups_true bytes]
    rfl

theorem decode_utf16Groups : ∀ bytes, utf16Groups.decode bytes = decodeUtf16le bytes
  | [] => decode_nil
  | [a] => by rw [decode_cons]; exact congrArg _ decode_nil
  | [a, b] => by rw [decode_cons]; exact congrArg _ decode_nil
  | [a, b, c] => by
    rw [decode_cons, decodeUtf16le, ← decode_utf16Groups [c]]
    · rfl
    · nofun
  | a :: b :: c :: d :: bytes => by
    have hsize : utf16Groups.size (a :: b :: c :: d :: bytes) = if isHigh (unit a b) && isLow (unit c d) then 4 else 2 := rfl
    have hout : utf16Groups.out (a :: b :: c :: d :: bytes) =
        if isHigh (unit a b) && isLow (unit c d) then [pairChar (unit a b) (unit c d)] else [unitChar (unit a b)] := rfl
    rw [decode_cons, hsize, hout, decodeUtf16le]
    split
    · rw [← decode_utf16Groups bytes]
      rfl
    · rw [← decode_utf16Groups (c :: d :: bytes)]
      rfl

/-- **Each encoding takes its bytes group by group.** -/
theorem decode_groups (codec : Codec) (bytes : Bytes) : (groups codec).decode bytes = decode codec bytes := by
  cases codec with
  | utf8 => exact decode_utf8Groups bytes
  | hex => exact decode_bytewise _ bytes
  | base64 => exact decode_base64Groups_false bytes
  | base64url => exact decode_base64Groups_true bytes
  | latin1 | ascii => exact (decode_bytewise _ bytes).trans (map_eq_flatMap).symm
  | utf16le => exact decode_utf16Groups bytes

/-! ## Cuts -/

theorem not_prefix_of_cut : ∀ (a b : Bytes), ¬ 3 ∣ a.length → b ≠ [] →
    ¬ encodeTriples false a <+: encodeTriples false (a ++ b)
  | [], _, h, _ => absurd (Nat.dvd_zero 3) h
  | _, [], _, hb => absurd rfl hb
  | [x], [y], _, _ | [x], y :: z :: b, _, _ => by
    intro hp
    obtain ⟨t, ht⟩ := hp
    have h₁ := (List.cons.inj (List.cons.inj (List.cons.inj ht).2).2).1
    exact base64Digit_ne _ _ h₁.symm
  | [x, y], z :: b, _, _ => by
    intro hp
    obtain ⟨t, ht⟩ := hp
    have h₁ := (List.cons.inj (List.cons.inj (List.cons.inj (List.cons.inj ht).2).2).2).1
    exact base64Digit_ne _ _ h₁.symm
  | x :: y :: z :: a, b, h, hb => by
    have ih := not_prefix_of_cut a b (fun hd => h (by simpa using Nat.dvd_add_self_right.2 hd)) hb
    intro hp
    refine ih ?_
    simpa only [cons_append, encodeTriples, cons_prefix_cons, true_and] using hp

theorem base64_tells : (base64Groups false).Tells := by
  intro a cs hcut heq
  have hsize : ∀ x xs, (base64Groups false).size (x :: xs) = min (2 + 1) (x :: xs).length := fun _ _ => rfl
  have hdvd : ¬ 3 ∣ a.length := fun hd => hcut (boundary_of_dvd hsize a cs.flatten (.inl hd))
  have hne : cs.flatten ≠ [] := fun hn => hcut (boundary_of_dvd hsize a cs.flatten (.inr hn))
  rw [decode_base64Groups_false, decode_base64Groups_false] at heq
  exact not_prefix_of_cut a cs.flatten hdvd hne ⟨_, heq⟩

/-- In which encodings every cut shows. -/
def Codec.shows : Codec → Bool
  | .base64url | .utf16le => false
  | _ => true

theorem decode_parts {codec : Codec} {cs : List Bytes} (h : (groups codec).Uncut cs) :
    cs.flatMap (decode codec) = decode codec cs.flatten := by
  have hdec : (groups codec).decode = decode codec := funext (decode_groups codec)
  rw [← hdec]; exact (decode_flatten h).symm

/-- **The texts of the parts are the text of the whole just when no group is cut.** -/
theorem decode_parts_iff {codec : Codec} (hs : codec.shows = true) (cs : List Bytes) :
    cs.flatMap (decode codec) = decode codec cs.flatten ↔ (groups codec).Uncut cs := by
  refine ⟨fun h => ?_, decode_parts⟩
  have hdec : (groups codec).decode = decode codec := funext (decode_groups codec)
  cases codec with
  | hex | latin1 | ascii => exact uncut_bytewise _ cs
  | utf8 => rw [← hdec] at h; exact (utf8_tells.decode_flatten_iff cs).1 h.symm
  | base64 => rw [← hdec] at h; exact (base64_tells.decode_flatten_iff cs).1 h.symm
  | base64url | utf16le => cases hs

end NodeCompat.Buffer
