import NodeCompat.Bytes
import NodeCompat.Lib.Utf8Groups
import NodeCompat.Web.Text

/-!
# `encodeURIComponent` and `decodeURIComponent`

The two functions of the language, on strings of Unicode scalar values. An escape is a byte, and the escapes of a character
are those of its UTF-8 bytes, in either case of the digits (`Spells`). What can be decoded is a string whose percent signs
all begin the escapes of a character (`Decodes`), and the decoder finds out which strings those are
(`decodeURIComponent_eq_some`).
-/

namespace NodeCompat.Web

open List Option

/-! ## Encoding -/

variable {bs : Bytes} {g s t : Text}

/-- A digit of an escape, in upper case. -/
def escapeDigit (n : Nat) : Char := Char.ofNat (if n < 10 then 48 + n else 55 + n)

/-- `%XX` -/
def escapeByte (b : UInt8) : Text := ['%', escapeDigit (b.toNat / 16), escapeDigit (b.toNat % 16)]

/-- The characters that are not escaped. -/
def isUnescaped (c : Char) : Bool := c.isAlphanum || (chars "-_.!~*'()").contains c

def encodeChar (c : Char) : Text := if isUnescaped c then [c] else (String.utf8EncodeChar c).flatMap escapeByte

def encodeURIComponent (s : Text) : Text := s.flatMap encodeChar

/-! ## Decoding -/

/-- A hexadecimal digit, in either case. -/
def digitValue (c : Char) : Option Nat :=
  if 48 ≤ c.toNat ∧ c.toNat ≤ 57 then some (c.toNat - 48)
  else if 65 ≤ c.toNat ∧ c.toNat ≤ 70 then some (c.toNat - 55)
  else if 97 ≤ c.toNat ∧ c.toNat ≤ 102 then some (c.toNat - 87)
  else none

/-- The byte of the escape at the front. -/
def escapedByte : Text → Option UInt8
  | c :: a :: b :: _ =>
    if c = '%' then (digitValue a).bind fun x => (digitValue b).map fun y => UInt8.ofNat (16 * x + y) else none
  | _ => none

/-- The bytes of the `n` escapes at the front. -/
def escapedBytes : Nat → Text → Option Bytes
  | 0, _ => some []
  | n + 1, s => (escapedByte s).bind fun b => (escapedBytes n (s.drop 3)).map (b :: ·)

/-- How many bytes a character has whose first byte is `b`: its leading ones, if there are any. -/
def sequenceLength (b : UInt8) : Option Nat :=
  if b < 0x80 then some 1 else if b < 0xC0 then none else if b < 0xE0 then some 2 else if b < 0xF0 then some 3
  else if b < 0xF8 then some 4 else none

/-- The character whose escapes are at the front. -/
def escapedChar (s : Text) : Option Char :=
  ((escapedByte s).bind sequenceLength).bind fun n => (escapedBytes n s).bind frontChar

/-- The decoder; `skip` characters of the escapes it has just read are still to be passed over. -/
def decodeGo : Nat → Text → Option Text
  | _, [] => some []
  | skip + 1, _ :: s => decodeGo skip s
  | 0, c :: s =>
    if c = '%' then (escapedChar (c :: s)).bind fun d => (decodeGo (3 * d.utf8Size - 1) s).map (d :: ·)
    else (decodeGo 0 s).map (c :: ·)

/-- No string is the `URIError`. -/
def decodeURIComponent (s : Text) : Option Text := decodeGo 0 s

/-! ## Escapes -/

/-- `g` is the escapes of these bytes. -/
inductive Spells : Bytes → Text → Prop
  | nil : Spells [] []
  | cons {a b : Char} {x y : Nat} {bs : Bytes} {g : Text} : digitValue a = some x → digitValue b = some y →
      Spells bs g → Spells (UInt8.ofNat (16 * x + y) :: bs) ('%' :: a :: b :: g)

theorem Spells.length (h : Spells bs g) : g.length = 3 * bs.length := by
  induction h with
  | nil => rfl
  | cons _ _ _ ih => simp only [length_cons, ih]; omega

theorem escapedByte_cons {a b : Char} {x y : Nat} (ha : digitValue a = some x) (hb : digitValue b = some y) (s : Text) :
    escapedByte ('%' :: a :: b :: s) = some (UInt8.ofNat (16 * x + y)) := by
  rw [escapedByte, if_pos rfl, ha, hb]; rfl

theorem escapedByte_eq_some {byte : UInt8} (h : escapedByte s = some byte) : ∃ a b x y rest,
    s = '%' :: a :: b :: rest ∧ digitValue a = some x ∧ digitValue b = some y ∧ byte = UInt8.ofNat (16 * x + y) := by
  unfold escapedByte at h
  split at h
  · next c a b rest =>
    split at h
    · next hc =>
      subst hc
      obtain ⟨x, hx, h⟩ := bind_eq_some_iff.1 h
      obtain ⟨y, hy, rfl⟩ := map_eq_some_iff.1 h; exact ⟨a, b, x, y, rest, rfl, hx, hy, rfl⟩
    · cases h
  · cases h

theorem Spells.escapedBytes (h : Spells bs g) (s : Text) : escapedBytes bs.length (g ++ s) = some bs := by
  induction h with
  | nil => rfl
  | cons ha hb _ ih =>
    rw [length_cons, cons_append, cons_append, cons_append, Web.escapedBytes, escapedByte_cons ha hb]
    simp only [drop_succ_cons, drop_zero, ih]; rfl

theorem escapedBytes_eq_some : ∀ {n : Nat} {s : Text} {bs : Bytes}, escapedBytes n s = some bs →
    ∃ g rest, s = g ++ rest ∧ Spells bs g ∧ bs.length = n
  | 0, s, bs, h => by cases h; exact ⟨[], s, rfl, .nil, rfl⟩
  | n + 1, s, bs, h => by
    rw [escapedBytes] at h
    obtain ⟨byte, hbyte, h⟩ := bind_eq_some_iff.1 h
    obtain ⟨tail, htail, rfl⟩ := map_eq_some_iff.1 h
    obtain ⟨a, b, x, y, rest, rfl, ha, hb, rfl⟩ := escapedByte_eq_some hbyte
    obtain ⟨g, rest', hrest, hg, hlen⟩ := escapedBytes_eq_some (n := n) htail
    simp only [drop_succ_cons, drop_zero] at hrest
    exact ⟨'%' :: a :: b :: g, rest', by rw [hrest]; rfl, .cons ha hb hg, by rw [length_cons, hlen]⟩

/-! ## Characters -/

theorem digitValue_escapeDigit {n : Nat} (h : n < 16) : digitValue (escapeDigit n) = some n := by
  have hall : ∀ k < 16, digitValue (escapeDigit k) = some k := by decide
  exact hall n h

theorem spells_escapeByte (bs : Bytes) : Spells bs (bs.flatMap escapeByte) := by
  induction bs with
  | nil => exact .nil
  | cons b bs ih =>
    have hb : b.toNat < 256 := b.toNat_lt
    have hval : 16 * (b.toNat / 16) + b.toNat % 16 = b.toNat := Nat.div_add_mod b.toNat 16
    have h := Spells.cons (digitValue_escapeDigit (n := b.toNat / 16) (by omega))
      (digitValue_escapeDigit (n := b.toNat % 16) (by omega)) ih
    rwa [hval, UInt8.ofNat_toNat] at h

theorem sequenceLength_encode (c : Char) : ∃ b bs, String.utf8EncodeChar c = b :: bs ∧
    sequenceLength b = some c.utf8Size := by
  have hlen := String.length_utf8EncodeChar c
  have hv : c.val.toNat < 0x110000 := by
    rcases c.valid with h | h <;> omega
  unfold String.utf8EncodeChar at hlen ⊢
  dsimp only at hlen ⊢
  split_ifs at hlen ⊢ with h₁ h₂ h₃ <;> refine ⟨_, _, rfl, ?_⟩ <;> rw [← hlen] <;>
    simp only [sequenceLength, UInt8.lt_iff_toNat_lt, UInt8.toNat_ofNat', UInt8.reduceToNat, Nat.reducePow,
      length_cons, length_nil]
  · rw [if_pos (by omega)]
  · rw [if_neg (by omega), if_neg (by omega), if_pos (by omega)]
  · rw [if_neg (by omega), if_neg (by omega), if_neg (by omega), if_pos (by omega)]
  · rw [if_neg (by omega), if_neg (by omega), if_neg (by omega), if_neg (by omega), if_pos (by omega)]

theorem escapedChar_append {c : Char} (h : Spells (String.utf8EncodeChar c) g) (s : Text) :
    escapedChar (g ++ s) = some c := by
  obtain ⟨b, bs, hc, hb⟩ := sequenceLength_encode c
  have hbytes := h.escapedBytes s
  rw [String.length_utf8EncodeChar] at hbytes
  have hfirst : escapedByte (g ++ s) = some b := by
    rw [hc] at h
    cases h with
    | cons hx hy _ => exact escapedByte_cons hx hy _
  have hfront : frontChar (String.utf8EncodeChar c) = some c := by
    have := frontChar_encode c []; rwa [append_nil] at this
  rw [escapedChar, hfirst, bind_some, hb, bind_some, hbytes, bind_some, hfront]

theorem escapedChar_eq_some {c : Char} (h : escapedChar s = some c) :
    ∃ g rest, s = g ++ rest ∧ Spells (String.utf8EncodeChar c) g := by
  obtain ⟨n, hn, h⟩ := bind_eq_some_iff.1 h
  obtain ⟨b, hb, hlen⟩ := bind_eq_some_iff.1 hn
  obtain ⟨bs, hbs, hfront⟩ := bind_eq_some_iff.1 h
  obtain ⟨g, rest, rfl, hg, hcount⟩ := escapedBytes_eq_some hbs
  have hbytes : bs = String.utf8EncodeChar c ++ bs.drop c.utf8Size := frontChar_eq_some hfront
  obtain ⟨b', bs', hc, hb'⟩ := sequenceLength_encode c
  -- the escape at the front is that of the first byte of the character, so it announces the length of this character
  have hsame : b = b' := by
    rw [hbytes, hc] at hg
    cases hg with
    | cons hx hy _ =>
      rw [cons_append, cons_append, cons_append, escapedByte_cons hx hy] at hb; exact (Option.some.inj hb).symm
  have hsize : n = c.utf8Size := by rw [hsame, hb'] at hlen; exact (Option.some.inj hlen).symm
  have hnone : bs.drop c.utf8Size = [] := drop_eq_nil_of_le (by omega)
  rw [hnone, append_nil] at hbytes; exact ⟨g, rest, rfl, hbytes ▸ hg⟩

/-! ## Decodable strings -/

/-- `s` is decoded to `t`: every percent sign of `s` begins the escapes of a character. -/
inductive Decodes : Text → Text → Prop
  | nil : Decodes [] []
  | plain {c : Char} {s t : Text} : c ≠ '%' → Decodes s t → Decodes (c :: s) (c :: t)
  | escape {c : Char} {g s t : Text} : Spells (String.utf8EncodeChar c) g → Decodes s t → Decodes (g ++ s) (c :: t)

theorem decodeGo_skip : ∀ (g s : Text), decodeGo g.length (g ++ s) = decodeGo 0 s
  | [], _ => rfl
  | _ :: g, s => decodeGo_skip g s

theorem Spells.eq_cons {c : Char} (h : Spells (String.utf8EncodeChar c) g) :
    ∃ g', g = '%' :: g' ∧ g'.length = 3 * c.utf8Size - 1 := by
  have hlen := h.length
  rw [String.length_utf8EncodeChar] at hlen
  obtain ⟨b, bs, hc, _⟩ := sequenceLength_encode c
  rw [hc] at h
  cases h with
  | cons _ _ _ =>
    refine ⟨_, rfl, ?_⟩
    simp only [length_cons] at hlen ⊢; omega

theorem decodeGo_escape {c : Char} (h : Spells (String.utf8EncodeChar c) g) (s : Text) :
    decodeGo 0 (g ++ s) = (decodeGo 0 s).map (c :: ·) := by
  obtain ⟨g', rfl, hlen⟩ := h.eq_cons
  have hchar := escapedChar_append h s
  rw [cons_append] at hchar ⊢; rw [decodeGo, if_pos rfl, hchar, bind_some, ← hlen, decodeGo_skip]

theorem decodeURIComponent_of_decodes (h : Decodes s t) : decodeURIComponent s = some t := by
  unfold decodeURIComponent
  induction h with
  | nil => rfl
  | plain hc _ ih => rw [decodeGo, if_neg hc, ih]; rfl
  | escape hg _ ih => rw [decodeGo_escape hg, ih]; rfl

theorem decodes_of_decodeURIComponent : ∀ {s t : Text}, decodeURIComponent s = some t → Decodes s t := by
  intro s
  induction hn : s.length using Nat.strongRecOn generalizing s with
  | ind n ih =>
    intro t h
    unfold decodeURIComponent at h ih
    cases s with
    | nil => cases h; exact .nil
    | cons c s =>
      by_cases hc : c = '%'
      · subst hc
        rw [decodeGo, if_pos rfl] at h
        obtain ⟨d, hd, -⟩ := bind_eq_some_iff.1 h
        obtain ⟨g, rest, hrest, hg⟩ := escapedChar_eq_some hd
        have hlen := congrArg List.length hrest
        obtain ⟨g', hg', _⟩ := hg.eq_cons
        have h' : decodeGo 0 (g ++ rest) = some t := by rw [← hrest, decodeGo, if_pos rfl]; exact h
        rw [decodeGo_escape hg] at h'
        obtain ⟨t', ht', rfl⟩ := map_eq_some_iff.1 h'
        rw [hrest]
        refine .escape hg (ih rest.length ?_ rfl ht')
        rw [hg'] at hlen; simp only [length_cons, length_append] at hlen hn; omega
      · rw [decodeGo, if_neg hc] at h
        obtain ⟨t', ht', rfl⟩ := map_eq_some_iff.1 h
        rw [length_cons] at hn; exact .plain hc (ih s.length (by omega) rfl ht')

theorem decodeURIComponent_eq_some : decodeURIComponent s = some t ↔ Decodes s t :=
  ⟨decodes_of_decodeURIComponent, decodeURIComponent_of_decodes⟩

/-! ## Parts -/

theorem Decodes.append {s' t' : Text} (h : Decodes s t) (h' : Decodes s' t') : Decodes (s ++ s') (t ++ t') := by
  induction h with
  | nil => exact h'
  | plain hc _ ih => exact .plain hc ih
  | escape hg _ ih => rw [append_assoc]; exact .escape hg ih

theorem Spells.mem {c : Char} (h : Spells bs g) (hc : c ∈ g) : c = '%' ∨ (digitValue c).isSome := by
  induction h with
  | nil => cases hc
  | cons ha hb _ ih =>
    simp only [mem_cons] at hc
    rcases hc with rfl | rfl | rfl | hc
    · exact .inl rfl
    · exact .inr (by rw [ha]; rfl)
    · exact .inr (by rw [hb]; rfl)
    · exact ih hc

/-- A character that is not part of an escape separates a decodable string into decodable strings. -/
theorem Decodes.split {c : Char} (hc : c ≠ '%') (hdigit : digitValue c = none) (h : Decodes s t) :
    ∀ {a b : Text}, s = a ++ c :: b → ∃ a' b', t = a' ++ c :: b' ∧ Decodes a a' ∧ Decodes b b' := by
  induction h with
  | nil => intro a b h; exact absurd h (by simp)
  | @plain d s t hd hs ih =>
    intro a b h
    cases a with
    | nil =>
      obtain ⟨rfl, rfl⟩ : d = c ∧ s = b := by simpa using h
      exact ⟨[], t, rfl, .nil, hs⟩
    | cons x a =>
      obtain ⟨rfl, hs'⟩ : d = x ∧ s = a ++ c :: b := by simpa using h
      obtain ⟨a', b', rfl, ha, hb⟩ := ih hs'; exact ⟨d :: a', b', rfl, .plain hd ha, hb⟩
  | @escape d g s t hg hs ih =>
    intro a b h
    have hout : c ∉ g := by
      intro hmem
      rcases hg.mem hmem with h' | h'
      · exact hc h'
      · rw [hdigit] at h'
        cases h'
    obtain ⟨a₁, rfl, hs'⟩ : ∃ a₁, a = g ++ a₁ ∧ s = a₁ ++ c :: b := by
      rcases append_eq_append_iff.1 h with ⟨a₁, ha, hs'⟩ | ⟨c₁, hg', hcb⟩
      · exact ⟨a₁, ha, hs'⟩
      · cases c₁ with
        | nil => exact ⟨[], by simpa using hg'.symm, by simpa using hcb.symm⟩
        | cons x c₁ =>
          obtain ⟨rfl, -⟩ : c = x ∧ b = c₁ ++ s := by simpa using hcb
          exact absurd (by rw [hg']; simp) hout
    obtain ⟨a', b', rfl, ha, hb⟩ := ih hs'; exact ⟨d :: a', b', rfl, .escape hg ha, hb⟩

/-- Every percent sign begins the escapes of a character, which are one to four escapes of UTF-8 bytes. -/
def WellEscaped (s : Text) : Prop := ∃ t, Decodes s t

theorem wellEscaped_iff : WellEscaped s ↔ (decodeURIComponent s).isSome := by
  rw [isSome_iff_exists]; exact exists_congr fun t => decodeURIComponent_eq_some.symm

theorem wellEscaped_append {c : Char} (hc : c ≠ '%') (hdigit : digitValue c = none) (a b : Text) :
    WellEscaped (a ++ c :: b) ↔ WellEscaped a ∧ WellEscaped b := by
  constructor
  · rintro ⟨t, h⟩
    obtain ⟨a', b', _, ha, hb⟩ := h.split hc hdigit rfl; exact ⟨⟨a', ha⟩, ⟨b', hb⟩⟩
  · rintro ⟨⟨a', ha⟩, ⟨b', hb⟩⟩; exact ⟨a' ++ c :: b', ha.append (.plain hc hb)⟩

theorem wellEscaped_nil : WellEscaped [] := ⟨[], .nil⟩

theorem wellEscaped_cons {c : Char} (hc : c ≠ '%') (hdigit : digitValue c = none) (s : Text) :
    WellEscaped (c :: s) ↔ WellEscaped s := by
  have h := wellEscaped_append hc hdigit [] s
  rw [nil_append] at h; exact h.trans (and_iff_right wellEscaped_nil)

theorem wellEscaped_split {c : Char} (hc : c ≠ '%') (hdigit : digitValue c = none) : ∀ (n : Nat) (s : Text),
    s.length = n → (WellEscaped s ↔ ∀ p ∈ split [c] s, WellEscaped p) := by
  intro n
  induction n using Nat.strongRecOn with
  | ind n ih =>
    intro s hn
    cases hf : find [c] s with
    | none => rw [split_none (by simp) hf]; simp
    | some i =>
      obtain ⟨hs, -⟩ := find_cut hf
      have hlen := find_le hf
      simp only [length_singleton] at hlen
      have htail := ih (s.drop (i + 1)).length (by rw [length_drop]; omega) _ rfl
      have hcut := wellEscaped_append hc hdigit (s.take i) (s.drop (i + 1))
      rw [← hs] at hcut
      rw [split_some (by simp) hf, hcut, forall_mem_cons, length_singleton, htail]

end NodeCompat.Web
