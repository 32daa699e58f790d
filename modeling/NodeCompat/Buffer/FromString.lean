import NodeCompat.Buffer.ToString

/-!
# `Buffer.from` of a string

`encodeString` takes a string as the runtime stores it. Hex and base64 read the stored bytes; latin1 and UTF-16 read code points
with the runtime's decoder, which undoes its encoder (`Utf8.Inverse`). The base64 decoder never clears its register: what it
still has to give are the lowest `bits` of it (`Pending`), and the bits above do not matter.
-/

namespace NodeCompat.Buffer

open List Option

/-- `text::appendUtf8` and `text::decodeNextUtf8` of the runtime, and its encoder for UTF-8 itself. -/
structure Utf8 where
  append : Nat → Bytes
  /-- The next code point, and what is behind it. -/
  decodeNext : Bytes → Option (Nat × Bytes)
  visit : Bytes → Bytes

/-- The two are inverse on code points, and decoding goes forward. -/
structure Utf8.Inverse (u : Utf8) : Prop where
  decode_append : ∀ point < 0x110000, ∀ rest, u.decodeNext (u.append point ++ rest) = some (point, rest)
  forward : ∀ {s point rest}, u.decodeNext s = some (point, rest) → rest.length < s.length

/-! ## The decoders -/

def hexDigitOf (ch : UInt8) : Option Nat :=
  if 48 ≤ ch ∧ ch ≤ 57 then some (ch.toNat - 48)
  else if 97 ≤ ch ∧ ch ≤ 102 then some (ch.toNat - 97 + 10)
  else if 65 ≤ ch ∧ ch ≤ 70 then some (ch.toNat - 65 + 10)
  else none

def decodeHex : Bytes → Bytes
  | a :: b :: input =>
    match hexDigitOf a, hexDigitOf b with
    | some high, some low => UInt8.ofNat (high <<< 4 ||| low) :: decodeHex input
    | _, _ => []
  | _ => []

def base64DigitOf (ch : UInt8) : Option Nat :=
  if 65 ≤ ch ∧ ch ≤ 90 then some (ch.toNat - 65)
  else if 97 ≤ ch ∧ ch ≤ 122 then some (ch.toNat - 97 + 26)
  else if 48 ≤ ch ∧ ch ≤ 57 then some (ch.toNat - 48 + 52)
  else if ch = 43 ∨ ch = 45 then some 62
  else if ch = 47 ∨ ch = 95 then some 63
  else none

/-- The loop of `decodeBase64`. -/
def base64Loop : Bytes → UInt32 → Nat → Bytes
  | [], _, _ => []
  | ch :: input, accumulator, bits =>
    match base64DigitOf ch with
    | none => base64Loop input accumulator bits
    | some digit =>
      let accumulator := accumulator <<< 6 ||| UInt32.ofNat digit
      let bits := bits + 6
      if 8 ≤ bits then
        let bits := bits - 8
        UInt8.ofNat ((accumulator >>> UInt32.ofNat bits) &&& 0xff).toNat :: base64Loop input accumulator bits
      else base64Loop input accumulator bits

def decodeBase64 (input : Bytes) : Bytes := base64Loop input 0 0

/-- The loop of `codePointsOf`, as often as there are bytes. -/
def codePointsLoop (u : Utf8) : Nat → Bytes → List Nat
  | 0, _ => []
  | _ + 1, [] => []
  | n + 1, b :: input =>
    match u.decodeNext (b :: input) with
    | none => 0xFFFD :: codePointsLoop u n input
    | some (point, rest) => point :: codePointsLoop u n rest

def codePointsOf (u : Utf8) (input : Bytes) : List Nat := codePointsLoop u input.length input

def unitBytes (unit : Nat) : Bytes := [UInt8.ofNat (unit &&& 0xff), UInt8.ofNat (unit >>> 8)]

def encodeUtf16le (point : Nat) : Bytes :=
  let point := if 0x10ffff < point then 0xfffd else point
  if 0x10000 ≤ point then
    let adjusted := point - 0x10000
    unitBytes (0xd800 + adjusted >>> 10) ++ unitBytes (0xdc00 + (adjusted &&& 0x3ff))
  else [UInt8.ofNat (point &&& 0xff), UInt8.ofNat ((point >>> 8) &&& 0xff)]

def encodeString (u : Utf8) (input : Bytes) : Codec → Bytes
  | .hex => decodeHex input
  | .base64 | .base64url => decodeBase64 input
  | .latin1 => (codePointsOf u input).map fun point => UInt8.ofNat (point &&& 0xff)
  | .ascii => (codePointsOf u input).map fun point => UInt8.ofNat (point &&& 0x7f)
  | .utf16le => (codePointsOf u input).flatMap encodeUtf16le
  | .utf8 => u.visit input

/-- What `toString` writes: digits as they are, and characters with `appendUtf8`. -/
def stored (u : Utf8) (codec : Codec) (chars : List Char) : Bytes :=
  match codec with
  | .hex | .base64 | .base64url => chars.map fun c => UInt8.ofNat c.toNat
  | .latin1 | .ascii | .utf16le | .utf8 => chars.flatMap fun c => u.append c.toNat

/-- `Buffer.from(string, encoding)`; `none` is `Unknown encoding`. -/
def fromString (u : Utf8) (string requestedEncoding : Bytes) : Option Bytes :=
  (normalizeEncoding requestedEncoding).map (encodeString u string)

/-- `buffer.toString(encoding)` as it is stored. -/
def toStored (u : Utf8) (view requestedEncoding : Bytes) : Option Bytes :=
  (normalizeEncoding requestedEncoding).map fun codec => stored u codec (decode codec view)

theorem normalizeEncoding_codec (codec : Codec) : normalizeEncoding codec.name = some codec := by cases codec <;> decide +kernel

/-! ## Hex -/

theorem decodeHex_byte (b : UInt8) (rest : Bytes) :
    decodeHex ((hexByte b).map (fun c => UInt8.ofNat c.toNat) ++ rest) = b :: decodeHex rest := by
  have hall : ∀ n : Fin 256, decodeHex ((hexByte (UInt8.ofNat n)).map (fun c => UInt8.ofNat c.toNat)) = [UInt8.ofNat n] ∧
      (hexByte (UInt8.ofNat n)).length = 2 := by decide +kernel
  obtain ⟨hone, hlen⟩ := hall ⟨b.toNat, b.toNat_lt⟩
  simp only [UInt8.ofNat_toNat] at hone hlen
  obtain ⟨x, y, hxy⟩ := length_eq_two.1 hlen
  rw [hxy] at hone ⊢
  simp only [map_cons, map_nil, cons_append, nil_append] at hone ⊢
  rw [decodeHex] at hone ⊢
  split at hone
  · rw [(List.cons.inj hone).1]
  · cases hone

theorem decodeHex_hex (b : Bytes) : decodeHex ((b.flatMap hexByte).map fun c => UInt8.ofNat c.toNat) = b := by
  induction b with
  | nil => rfl
  | cons b bs ih => rw [flatMap_cons, map_append, decodeHex_byte, ih]

/-! ## Base64 -/

/-- The lowest `bits` of the register are still to be given. -/
structure Pending (accumulator : UInt32) (bits pending : Nat) : Prop where
  few : bits < 8
  eq : accumulator.toNat % 2 ^ bits = pending

theorem Pending.shift {accumulator : UInt32} {bits pending digit : Nat} (h : Pending accumulator bits pending) (hd : digit < 64) :
    (accumulator <<< 6 ||| UInt32.ofNat digit).toNat % 2 ^ (bits + 6) = pending * 64 + digit := by
  have hlow : accumulator.toNat <<< 6 % 2 ^ 32 = (accumulator.toNat % 2 ^ 26) <<< 6 := by
    rw [Nat.shiftLeft_eq, Nat.shiftLeft_eq]; omega
  have hor : (accumulator <<< 6 ||| UInt32.ofNat digit).toNat = accumulator.toNat % 2 ^ 26 * 64 + digit := by
    rw [UInt32.toNat_or, UInt32.toNat_shiftLeft, UInt32.toNat_ofNat', Nat.mod_eq_of_lt (show digit < 2 ^ 32 by omega)]
    show accumulator.toNat <<< 6 % 2 ^ 32 ||| digit = _
    rw [hlow, ← Nat.shiftLeft_add_eq_or_of_lt (by omega), Nat.shiftLeft_eq]
  rw [hor]
  obtain ⟨hfew, rfl⟩ := h
  have hcases : bits = 0 ∨ bits = 1 ∨ bits = 2 ∨ bits = 3 ∨ bits = 4 ∨ bits = 5 ∨ bits = 6 ∨ bits = 7 := by omega
  rcases hcases with rfl | rfl | rfl | rfl | rfl | rfl | rfl | rfl <;> omega

/-- What the digits give, from what is pending. -/
def give : List Nat → Nat → Nat → Bytes
  | [], _, _ => []
  | digit :: digits, bits, pending =>
    if 2 ≤ bits then
      UInt8.ofNat ((pending * 64 + digit) / 2 ^ (bits - 2)) :: give digits (bits - 2) ((pending * 64 + digit) % 2 ^ (bits - 2))
    else give digits (bits + 6) (pending * 64 + digit)

theorem base64DigitOf_lt {ch : UInt8} {digit : Nat} (h : base64DigitOf ch = some digit) : digit < 64 := by
  have hall : ∀ n : Fin 256, ∀ d ∈ base64DigitOf (UInt8.ofNat n), d < 64 := by decide +kernel
  have := hall ⟨ch.toNat, ch.toNat_lt⟩ digit; simp only [UInt8.ofNat_toNat] at this; exact this h

theorem base64Loop_give (input : Bytes) {accumulator : UInt32} {bits pending : Nat} (h : Pending accumulator bits pending) :
    base64Loop input accumulator bits = give (input.filterMap base64DigitOf) bits pending := by
  induction input generalizing accumulator bits pending with
  | nil => rfl
  | cons ch input ih =>
    rw [base64Loop]
    split
    · next hd => rw [filterMap_cons_none hd, ih h]
    · next digit hd =>
      have hfew := h.few
      have hshift := h.shift (base64DigitOf_lt hd)
      rw [filterMap_cons_some hd, give]
      dsimp only
      generalize accumulator <<< 6 ||| UInt32.ofNat digit = acc at hshift ⊢
      by_cases hbits : 2 ≤ bits
      · rw [if_pos (by omega), if_pos hbits]
        have hsplit : 2 ^ (bits + 6) = 2 ^ (bits - 2) * 256 := by
          rw [show bits + 6 = bits - 2 + 8 by omega, Nat.pow_add]
        rw [show bits + 6 - 8 = bits - 2 by omega, ← hshift, hsplit]
        refine congrArg₂ List.cons (congrArg UInt8.ofNat ?_) (ih ⟨by omega, ?_⟩)
        · rw [UInt32.toNat_and, UInt32.toNat_shiftRight, UInt32.toNat_ofNat', Nat.mod_eq_of_lt (show bits - 2 < 2 ^ 32 by omega),
            Nat.mod_eq_of_lt (show bits - 2 < 32 by omega), Nat.shiftRight_eq_div_pow]
          show acc.toNat / 2 ^ (bits - 2) &&& 255 = _
          rw [show (255 : Nat) = 2 ^ 8 - 1 from rfl, Nat.and_two_pow_sub_one_eq_mod, Nat.mod_mul_right_div_self]
        · rw [Nat.mod_mul_right_mod]
      · rw [if_neg (by omega), if_neg hbits]; exact ih ⟨by omega, hshift⟩

theorem decodeBase64_give (input : Bytes) : decodeBase64 input = give (input.filterMap base64DigitOf) 0 0 :=
  base64Loop_give input ⟨by omega, rfl⟩

theorem give_four {a b c d : Nat} (digits : List Nat) : give (a :: b :: c :: d :: digits) 0 0 =
    UInt8.ofNat ((a * 64 + b) / 16) :: UInt8.ofNat (((a * 64 + b) % 16 * 64 + c) / 4) ::
      UInt8.ofNat (((a * 64 + b) % 16 * 64 + c) % 4 * 64 + d) :: give digits 0 0 := by
  simp [give, Nat.mod_one]

theorem give_three (a b c : Nat) : give [a, b, c] 0 0 =
    [UInt8.ofNat ((a * 64 + b) / 16), UInt8.ofNat (((a * 64 + b) % 16 * 64 + c) / 4)] := by
  simp [give]

theorem give_two (a b : Nat) : give [a, b] 0 0 = [UInt8.ofNat ((a * 64 + b) / 16)] := by simp [give]

/-- The character of a digit, as it is stored. -/
abbrev digitByte (url : Bool) (n : Nat) : UInt8 := UInt8.ofNat (base64Digit url n).toNat

theorem base64DigitOf_digit (url : Bool) (n : Nat) : base64DigitOf (digitByte url n) = some (n % 64) := by
  have hall : ∀ n : Fin 64, base64DigitOf (digitByte url n) = some n.val := by
    unfold digitByte base64Digit base64Digits
    split <;> (rw [String.toList_ofList]; decide +kernel)
  have := hall ⟨n % 64, Nat.mod_lt _ (by omega)⟩
  rwa [show digitByte url (n % 64) = digitByte url n by simp [digitByte, base64Digit]] at this

theorem triple_eq (a b c : UInt8) : triple a b c = a.toNat * 65536 + b.toNat * 256 + c.toNat := by
  have hb := b.toNat_lt
  have hc := c.toNat_lt
  have htwo : a.toNat <<< 16 ||| b.toNat <<< 8 = (a.toNat * 256 + b.toNat) <<< 8 := by
    rw [← Nat.shiftLeft_add_eq_or_of_lt (by rw [Nat.shiftLeft_eq]; omega)]; simp only [Nat.shiftLeft_eq]; omega
  rw [triple, htwo, ← Nat.shiftLeft_add_eq_or_of_lt (by omega), Nat.shiftLeft_eq]; omega

def b64 (url : Bool) : Codec := if url then .base64url else .base64

theorem decode_b64 (url : Bool) (bytes : Bytes) : decode (b64 url) bytes = (base64Groups url).decode bytes := by
  cases url <;> exact (decode_groups _ bytes).symm

theorem decode_b64_small (url : Bool) {bytes : Bytes} (h : bytes.length < 3) : decode (b64 url) bytes = base64Out url bytes := by
  rw [decode_b64]
  cases bytes with
  | nil => exact Groups.decode_nil
  | cons a bytes =>
    have hsize : (base64Groups url).size (a :: bytes) = (a :: bytes).length := Nat.min_eq_right (by omega)
    rw [Groups.decode_cons, hsize, drop_length, Groups.decode_nil, append_nil]; rfl

theorem decode_b64_cons (url : Bool) (a b c : UInt8) (bytes : Bytes) :
    decode (b64 url) (a :: b :: c :: bytes) = base64Out url (a :: b :: c :: bytes) ++ decode (b64 url) bytes := by
  have hsize : (base64Groups url).size (a :: b :: c :: bytes) = 3 := by
    simp only [base64Groups, length_cons]; omega
  rw [decode_b64, decode_b64, Groups.decode_cons, hsize]; rfl

/-- The bytes of base64 text. -/
abbrev asciiBytes (chars : List Char) : Bytes := chars.map fun c => UInt8.ofNat c.toNat

theorem digits_cons (url : Bool) (n : Nat) (chars : List Char) : (asciiBytes (base64Digit url n :: chars)).filterMap base64DigitOf =
    n % 64 :: (asciiBytes chars).filterMap base64DigitOf := filterMap_cons_some (base64DigitOf_digit url n)

theorem digits_append (chars chars' : List Char) : (asciiBytes (chars ++ chars')).filterMap base64DigitOf =
    (asciiBytes chars).filterMap base64DigitOf ++ (asciiBytes chars').filterMap base64DigitOf := by simp

theorem digits_pad (url : Bool) (pad : List Char) (h : ∀ c ∈ pad, c = '=') :
    (asciiBytes (if url then [] else pad)).filterMap base64DigitOf = [] := by
  cases url with
  | true => rfl
  | false =>
    induction pad with
    | nil => rfl
    | cons c pad ih =>
      rw [h c mem_cons_self]; exact ih (fun d hd => h d (mem_cons_of_mem _ hd))

theorem ofNat_eq {n : Nat} {a : UInt8} (h : n = a.toNat) : UInt8.ofNat n = a := by rw [h, UInt8.ofNat_toNat]

theorem decodeBase64_encode (url : Bool) : ∀ b : Bytes, decodeBase64 (asciiBytes (decode (b64 url) b)) = b
  | [] => by
    rw [decode_b64_small url (by simp)]; rfl
  | [a] => by
    have ha := a.toNat_lt
    rw [decode_b64_small url (by simp), decodeBase64_give, base64Out, digits_append, digits_pad url _ (by simp), append_nil,
      digits_cons, digits_cons, asciiBytes, map_nil, filterMap_nil, give_two, triple_eq]
    refine congrArg₂ List.cons (ofNat_eq ?_) rfl
    simp only [Nat.shiftRight_eq_div_pow, UInt8.toNat_ofNat]; omega
  | [a, b] => by
    have ha := a.toNat_lt
    have hb := b.toNat_lt
    rw [decode_b64_small url (by simp), decodeBase64_give, base64Out, digits_append, digits_pad url _ (by simp), append_nil,
      digits_cons, digits_cons, digits_cons, asciiBytes, map_nil, filterMap_nil, give_three, triple_eq]
    refine congrArg₂ List.cons (ofNat_eq ?_) (congrArg₂ List.cons (ofNat_eq ?_) rfl) <;>
      simp only [Nat.shiftRight_eq_div_pow, UInt8.toNat_ofNat] <;> omega
  | a :: b :: c :: bytes => by
    have ha := a.toNat_lt
    have hb := b.toNat_lt
    have hc := c.toNat_lt
    have ih := decodeBase64_encode url bytes
    rw [decodeBase64_give] at ih
    rw [decode_b64_cons, decodeBase64_give, base64Out, digits_append, digits_cons, digits_cons, digits_cons, digits_cons,
      asciiBytes, map_nil, filterMap_nil]
    simp only [cons_append, nil_append]
    rw [give_four, ih, triple_eq]
    refine congrArg₂ List.cons (ofNat_eq ?_) (congrArg₂ List.cons (ofNat_eq ?_) (congrArg₂ List.cons (ofNat_eq ?_) rfl)) <;>
      simp only [Nat.shiftRight_eq_div_pow] <;> omega

/-- Canonical text: full groups of digits, and a last one with its spare bits zero and padded in base64. -/
inductive Canonical (url : Bool) : List Char → Prop
  | nil : Canonical url []
  | two {a b : Nat} (ha : a < 64) (hb : b < 64) (hspare : b % 16 = 0) :
      Canonical url ([base64Digit url a, base64Digit url b] ++ if url then [] else ['=', '='])
  | three {a b c : Nat} (ha : a < 64) (hb : b < 64) (hc : c < 64) (hspare : c % 4 = 0) :
      Canonical url ([base64Digit url a, base64Digit url b, base64Digit url c] ++ if url then [] else ['='])
  | four {a b c d : Nat} {chars : List Char} (ha : a < 64) (hb : b < 64) (hc : c < 64) (hd : d < 64) (h : Canonical url chars) :
      Canonical url (base64Digit url a :: base64Digit url b :: base64Digit url c :: base64Digit url d :: chars)

theorem digit_congr (url : Bool) {m n : Nat} (h : m % 64 = n) : base64Digit url m = base64Digit url n := by
  rw [base64Digit, base64Digit, ← h, Nat.mod_mod]

theorem encode_decodeBase64 {url : Bool} {chars : List Char} (h : Canonical url chars) :
    decode (b64 url) (decodeBase64 (asciiBytes chars)) = chars := by
  induction h with
  | nil =>
    rw [decodeBase64_give]; exact decode_b64_small url (by simp [give])
  | @two a b ha hb hspare =>
    rw [decodeBase64_give, digits_append, digits_pad url _ (by simp), digits_cons, digits_cons, asciiBytes, map_nil,
      filterMap_nil, append_nil, give_two, decode_b64_small url (by simp), base64Out, triple_eq]
    refine congrArg (· ++ _) (congrArg₂ List.cons (digit_congr url ?_) (congrArg₂ List.cons (digit_congr url ?_) rfl)) <;>
      simp only [Nat.shiftRight_eq_div_pow, UInt8.toNat_ofNat', UInt8.toNat_ofNat] <;> omega
  | @three a b c ha hb hc hspare =>
    rw [decodeBase64_give, digits_append, digits_pad url _ (by simp), digits_cons, digits_cons, digits_cons, asciiBytes,
      map_nil, filterMap_nil, append_nil, give_three, decode_b64_small url (by simp), base64Out, triple_eq]
    refine congrArg (· ++ _) (congrArg₂ List.cons (digit_congr url ?_) (congrArg₂ List.cons (digit_congr url ?_)
      (congrArg₂ List.cons (digit_congr url ?_) rfl))) <;>
      simp only [Nat.shiftRight_eq_div_pow, UInt8.toNat_ofNat', UInt8.toNat_ofNat] <;> omega
  | @four a b c d chars ha hb hc hd h ih =>
    rw [decodeBase64_give] at ih
    rw [decodeBase64_give, digits_cons, digits_cons, digits_cons, digits_cons, give_four, decode_b64_cons, ih, base64Out, triple_eq]
    refine congrArg₂ List.cons (digit_congr url ?_) (congrArg₂ List.cons (digit_congr url ?_) (congrArg₂ List.cons
      (digit_congr url ?_) (congrArg₂ List.cons (digit_congr url ?_) rfl))) <;>
      simp only [Nat.shiftRight_eq_div_pow, UInt8.toNat_ofNat'] <;> omega

/-! ## Code points -/

theorem codePointsLoop_append {u : Utf8} (hu : u.Inverse) (points : List Nat) (h : ∀ p ∈ points, p < 0x110000) {n : Nat}
    (hn : (points.flatMap u.append).length ≤ n) : codePointsLoop u n (points.flatMap u.append) = points := by
  induction points generalizing n with
  | nil => cases n <;> rfl
  | cons p points ih =>
    have hdec := hu.decode_append p (h p mem_cons_self) (points.flatMap u.append)
    have hlt := hu.forward hdec
    rw [flatMap_cons] at hn ⊢
    cases hs : u.append p ++ points.flatMap u.append with
    | nil => simp [hs] at hlt
    | cons b input =>
      rw [hs] at hdec hlt hn
      cases n with
      | zero => simp at hn
      | succ n =>
        rw [codePointsLoop, hdec]
        dsimp only; rw [ih (fun q hq => h q (mem_cons_of_mem _ hq)) (by omega)]

theorem codePointsOf_append {u : Utf8} (hu : u.Inverse) (points : List Nat) (h : ∀ p ∈ points, p < 0x110000) :
    codePointsOf u (points.flatMap u.append) = points := codePointsLoop_append hu points h (Nat.le_refl _)

theorem toNat_lt (c : Char) : c.toNat < 0x110000 := by
  rcases toNat_scalar c with h | h <;> omega

theorem codePointsOf_chars {u : Utf8} (hu : u.Inverse) (chars : List Char) :
    codePointsOf u (chars.flatMap fun c => u.append c.toNat) = chars.map Char.toNat := by
  have hpoints := codePointsOf_append hu (chars.map Char.toNat) (by
    intro p hp
    obtain ⟨c, -, rfl⟩ := List.mem_map.1 hp
    exact toNat_lt c)
  rwa [flatMap_map] at hpoints

theorem toNat_ofNat_char {n : Nat} (h : n < 0xD800 ∨ 0xDFFF < n ∧ n < 0x110000) : (Char.ofNat n).toNat = n := by
  rw [Char.ofNat, dif_pos (show n.isValidChar from h)]; rfl

/-! ## UTF-16 -/

/-- Bytes of whole units, with every surrogate in a pair. -/
def Paired : Bytes → Prop
  | a :: b :: c :: d :: bytes =>
    if isHigh (unit a b) then isLow (unit c d) ∧ Paired bytes else ¬ isLow (unit a b) ∧ Paired (c :: d :: bytes)
  | [a, b] => ¬ isHigh (unit a b) ∧ ¬ isLow (unit a b)
  | [] => True
  | _ => False

theorem unit_eq (a b : UInt8) : unit a b = a.toNat + b.toNat * 256 := by
  have ha := a.toNat_lt
  rw [unit, Nat.or_comm, ← Nat.shiftLeft_add_eq_or_of_lt (by omega), Nat.shiftLeft_eq]; omega

theorem unitBytes_unit (a b : UInt8) : unitBytes (unit a b) = [a, b] := by
  have ha := a.toNat_lt
  have hb := b.toNat_lt
  have hand : unit a b &&& 0xff = a.toNat := by
    rw [show (0xff : Nat) = 2 ^ 8 - 1 from rfl, Nat.and_two_pow_sub_one_eq_mod, unit_eq]; omega
  have hshift : unit a b >>> 8 = b.toNat := by
    rw [Nat.shiftRight_eq_div_pow, unit_eq]; omega
  rw [unitBytes, hand, hshift, UInt8.ofNat_toNat, UInt8.ofNat_toNat]

theorem encode_unitChar {a b : UInt8} (hh : ¬ isHigh (unit a b)) (hl : ¬ isLow (unit a b)) :
    encodeUtf16le (unitChar (unit a b)).toNat = [a, b] := by
  have ha := a.toNat_lt
  have hb := b.toNat_lt
  simp only [isHigh, isLow, Bool.and_eq_true, decide_eq_true_eq] at hh hl
  have hu := unit_eq a b
  have hle : ¬ 0x10ffff < unit a b := by omega
  have hone : ¬ 0x10000 ≤ unit a b := by omega
  have hhigh : unit a b >>> 8 &&& 0xff = unit a b >>> 8 := by
    rw [show (0xff : Nat) = 2 ^ 8 - 1 from rfl, Nat.and_two_pow_sub_one_eq_mod, Nat.shiftRight_eq_div_pow]; omega
  have hsurrogate : ¬ (0xD800 ≤ unit a b ∧ unit a b ≤ 0xDFFF) := by omega
  rw [unitChar, if_neg (by simpa only [Bool.and_eq_true, decide_eq_true_eq] using hsurrogate), toNat_ofNat_char (by omega)]
  simp only [encodeUtf16le, hle, hone, if_false, hhigh]; exact unitBytes_unit a b

theorem encode_pairChar {a b c d : UInt8} (hh : isHigh (unit a b)) (hl : isLow (unit c d)) :
    encodeUtf16le (pairChar (unit a b) (unit c d)).toNat = [a, b, c, d] := by
  simp only [isHigh, isLow, Bool.and_eq_true, decide_eq_true_eq] at hh hl
  have hpoint : (pairChar (unit a b) (unit c d)).toNat = 0x10000 + (unit a b - 0xD800) * 1024 + (unit c d - 0xDC00) := by
    rw [pairChar, Nat.shiftLeft_eq, toNat_ofNat_char (by omega)]
  have hhigh : 0xd800 + (0x10000 + (unit a b - 0xD800) * 1024 + (unit c d - 0xDC00) - 0x10000) >>> 10 = unit a b := by
    rw [Nat.shiftRight_eq_div_pow]; omega
  have hlow : 0xdc00 + ((0x10000 + (unit a b - 0xD800) * 1024 + (unit c d - 0xDC00) - 0x10000) &&& 0x3ff) = unit c d := by
    rw [show (0x3ff : Nat) = 2 ^ 10 - 1 from rfl, Nat.and_two_pow_sub_one_eq_mod]; omega
  have hle : ¬ 0x10ffff < 0x10000 + (unit a b - 0xD800) * 1024 + (unit c d - 0xDC00) := by omega
  have htwo : 0x10000 ≤ 0x10000 + (unit a b - 0xD800) * 1024 + (unit c d - 0xDC00) := by omega
  rw [hpoint]
  simp only [encodeUtf16le, hle, htwo, if_false, if_true, hhigh, hlow, unitBytes_unit]; rfl

theorem encode_decodeUtf16le : ∀ b : Bytes, Paired b → ((decodeUtf16le b).map Char.toNat).flatMap encodeUtf16le = b
  | [], _ => rfl
  | [_], h => False.elim h
  | [a, b], h => by
    have h : ¬ isHigh (unit a b) ∧ ¬ isLow (unit a b) := h
    have hdec : decodeUtf16le [a, b] = [unitChar (unit a b)] := by simp [decodeUtf16le]
    rw [hdec]; simpa using encode_unitChar h.1 h.2
  | [_, _, _], h => False.elim h
  | a :: b :: c :: d :: bytes, h => by
    change if isHigh (unit a b) then isLow (unit c d) ∧ Paired bytes else ¬ isLow (unit a b) ∧ Paired (c :: d :: bytes) at h
    rw [decodeUtf16le]
    by_cases hh : isHigh (unit a b) = true
    · rw [if_pos hh] at h
      rw [if_pos (by simp [hh, h.1]), map_cons, flatMap_cons, encode_pairChar hh h.1, encode_decodeUtf16le bytes h.2]
      rfl
    · rw [if_neg hh] at h
      rw [if_neg (by simp [hh]), map_cons, flatMap_cons, encode_unitChar hh h.1,
        encode_decodeUtf16le (c :: d :: bytes) h.2]
      rfl

/-! ## Round trips -/

theorem encode_decodeHex (chars : List Char) (h : ∀ c ∈ chars, c ∈ hexDigits) (heven : chars.length % 2 = 0) :
    (decodeHex (asciiBytes chars)).flatMap hexByte = chars := by
  match chars with
  | [] => rfl
  | [_] => simp at heven
  | x :: y :: chars =>
    have hall : (hexDigits.all fun x => hexDigits.all fun y => (hexDigitOf (UInt8.ofNat x.toNat)).any fun high =>
        (hexDigitOf (UInt8.ofNat y.toNat)).any fun low => hexByte (UInt8.ofNat (high <<< 4 ||| low)) == [x, y]) = true := by
      decide +kernel
    obtain ⟨high, hhigh, hany⟩ := (any_eq_true _ _).1 (List.all_eq_true.1 (List.all_eq_true.1 hall x (h x (by simp))) y (h y (by simp)))
    obtain ⟨low, hlow, hbyte⟩ := (any_eq_true _ _).1 hany
    have ih := encode_decodeHex chars (fun c hc => h c (by simp [hc])) (by simp only [length_cons] at heven; omega)
    rw [asciiBytes, map_cons, map_cons, decodeHex, hhigh, hlow]
    dsimp only; rw [flatMap_cons, eq_of_beq hbyte, ih]; rfl

theorem encode_decode_latin1 {u : Utf8} (hu : u.Inverse) (b : Bytes) :
    encodeString u (stored u .latin1 (decode .latin1 b)) .latin1 = b := by
  have hpoints : (b.map latin1Char).map Char.toNat = b.map UInt8.toNat := by
    rw [List.map_map]
    refine map_congr_left fun x _ => ?_
    have := x.toNat_lt; exact toNat_ofNat_char (.inl (by omega))
  rw [encodeString, stored, decode, codePointsOf_chars hu, hpoints, List.map_map]
  conv_rhs => rw [← List.map_id b]
  refine map_congr_left fun x _ => ?_
  have := x.toNat_lt
  show UInt8.ofNat (x.toNat &&& 0xff) = x
  rw [show (0xff : Nat) = 2 ^ 8 - 1 from rfl, Nat.and_two_pow_sub_one_eq_mod, Nat.mod_eq_of_lt (by omega), UInt8.ofNat_toNat]

theorem decode_encode_latin1 {u : Utf8} (hu : u.Inverse) (points : List Nat) (h : ∀ p ∈ points, p ≤ 255) :
    stored u .latin1 (decode .latin1 (encodeString u (points.flatMap u.append) .latin1)) = points.flatMap u.append := by
  rw [encodeString, codePointsOf_append hu points (fun p hp => by have := h p hp; omega), stored, decode, List.map_map,
    flatMap_map]
  refine congrArg List.flatten (map_congr_left fun p hp => ?_)
  have hle := h p hp
  have hand : p &&& 0xff = p := by
    rw [show (0xff : Nat) = 2 ^ 8 - 1 from rfl, Nat.and_two_pow_sub_one_eq_mod, Nat.mod_eq_of_lt (by omega)]
  show u.append (latin1Char (UInt8.ofNat (p &&& 0xff))).toNat = u.append p
  rw [hand, latin1Char, UInt8.toNat_ofNat', Nat.mod_eq_of_lt (by omega), toNat_ofNat_char (.inl (by omega))]

theorem toStored_name (u : Utf8) (b : Bytes) (codec : Codec) : toStored u b codec.name = some (stored u codec (decode codec b)) := by
  rw [toStored, normalizeEncoding_codec]; rfl

theorem fromString_name (u : Utf8) (s : Bytes) (codec : Codec) : fromString u s codec.name = some (encodeString u s codec) := by
  rw [fromString, normalizeEncoding_codec]; rfl

/-- **Text codecs round trip**, for the runtime's UTF-8. -/
theorem codecs_round_trip (u : Utf8) (hu : u.Inverse) : (∀ b, ∀ codec ∈ [Codec.hex, .base64, .base64url, .latin1],
      (toStored u b codec.name).bind (fun s => fromString u s codec.name) = some b) ∧
    (∀ b, Paired b → (toStored u b Codec.utf16le.name).bind (fun s => fromString u s Codec.utf16le.name) = some b) ∧
    (∀ chars : List Char, (∀ c ∈ chars, c ∈ hexDigits) → chars.length % 2 = 0 →
      (fromString u (asciiBytes chars) Codec.hex.name).bind (fun b => toStored u b Codec.hex.name) = some (asciiBytes chars)) ∧
    (∀ url chars, Canonical url chars → (fromString u (asciiBytes chars) (b64 url).name).bind (fun b => toStored u b (b64 url).name) =
      some (asciiBytes chars)) ∧
    ∀ points : List Nat, (∀ p ∈ points, p ≤ 255) →
      (fromString u (points.flatMap u.append) Codec.latin1.name).bind (fun b => toStored u b Codec.latin1.name) =
        some (points.flatMap u.append) := by
  simp only [toStored_name, fromString_name, bind_some, Option.some.injEq]
  refine ⟨fun b codec hc => ?_, fun b hb => ?_, fun chars h heven => ?_, fun url chars h => ?_, decode_encode_latin1 hu⟩
  · simp only [mem_cons, not_mem_nil, or_false] at hc
    obtain rfl | rfl | rfl | rfl := hc
    · exact decodeHex_hex b
    · exact decodeBase64_encode false b
    · exact decodeBase64_encode true b
    · exact encode_decode_latin1 hu b
  · rw [encodeString, stored, decode, codePointsOf_chars hu]; exact encode_decodeUtf16le b hb
  · exact congrArg asciiBytes (encode_decodeHex chars h heven)
  · have hdec := congrArg asciiBytes (encode_decodeBase64 h)
    cases url <;> exact hdec

/-- ASCII as it is, and everything else in three bytes behind a mark. -/
def marked : Utf8 where
  append point := if point < 128 then [UInt8.ofNat point]
    else [0xF8, UInt8.ofNat (point / 65536), UInt8.ofNat (point / 256), UInt8.ofNat point]
  decodeNext
    | [] => none
    | b :: rest =>
      if b < 128 then some (b.toNat, rest)
      else match rest with
        | x :: y :: z :: rest => some (x.toNat * 65536 + y.toNat * 256 + z.toNat, rest)
        | _ => none
  visit s := s

theorem marked_inverse : marked.Inverse where
  decode_append point hpoint rest := by
    show marked.decodeNext ((if point < 128 then _ else _) ++ rest) = _
    split
    · next h =>
      have hlt : UInt8.ofNat point < 128 := by
        rw [UInt8.lt_iff_toNat_lt, UInt8.toNat_ofNat']
        show point % 256 < 128; omega
      show (if UInt8.ofNat point < 128 then some ((UInt8.ofNat point).toNat, rest) else _) = _
      rw [if_pos hlt, UInt8.toNat_ofNat', Nat.mod_eq_of_lt (show point < 2 ^ 8 by omega)]
    · show some _ = _
      rw [UInt8.toNat_ofNat', UInt8.toNat_ofNat', UInt8.toNat_ofNat']
      congr 2
      omega
  forward {s point rest} h := by
    cases s with
    | nil => cases h
    | cons b s =>
      simp only [marked] at h
      split at h
      · cases h; simp
      · split at h
        · cases h; simp only [length_cons]; omega
        · cases h

/-- The byte `a`. -/
theorem codecs_round_trip_byte :
    (toStored marked [97] Codec.base64.name).bind (fun s => fromString marked s Codec.base64.name) = some [97] :=
  (codecs_round_trip marked marked_inverse).1 [97] .base64 (by simp)

end NodeCompat.Buffer
