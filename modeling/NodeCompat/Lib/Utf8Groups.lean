import NodeCompat.Lib.Groups
import NodeCompat.Lib.Utf8

/-!
# UTF-8, group by group

A group is the bytes of one character, or those that one replacement character stands for. No byte inside a group begins a
character, so what is behind a cut is read byte by byte up to the end of the group, and a cut shows.
-/

namespace NodeCompat

open List

variable {bs : List UInt8} {b : UInt8}

/-- The character at the front, if there is one. -/
def frontChar (bs : List UInt8) : Option Char := bs.toByteArray.utf8DecodeChar? 0

theorem frontChar_encode (c : Char) (bs : List UInt8) : frontChar (String.utf8EncodeChar c ++ bs) = some c := by
  unfold frontChar; rw [toByteArray_append]; exact ByteArray.utf8DecodeChar?_utf8EncodeChar_append

theorem frontChar_eq_some {c : Char} (h : frontChar bs = some c) :
    bs = String.utf8EncodeChar c ++ bs.drop c.utf8Size := by
  obtain ⟨l, hl⟩ := ByteArray.exists_of_utf8DecodeChar?_eq_some h
  have hlist : bs = String.utf8EncodeChar c ++ l.data.toList := by
    have hd := congrArg (fun b : ByteArray => b.data.toList) hl
    simpa using hd
  have hlen : (String.utf8EncodeChar c).length = c.utf8Size := String.length_utf8EncodeChar c
  calc bs = String.utf8EncodeChar c ++ l.data.toList := hlist
    _ = String.utf8EncodeChar c ++ (String.utf8EncodeChar c ++ l.data.toList).drop c.utf8Size := by
      rw [← hlen, drop_left]
    _ = String.utf8EncodeChar c ++ bs.drop c.utf8Size := by rw [← hlist]

/-- The length of the first group. -/
def utf8Size (bs : List UInt8) : Nat :=
  match frontChar bs with
  | some c => c.utf8Size
  | none => malformed bs

theorem utf8Size_some {c : Char} (h : frontChar bs = some c) : utf8Size bs = c.utf8Size := by
  unfold utf8Size; rw [h]

theorem utf8Size_none (h : frontChar bs = none) : utf8Size bs = malformed bs := by
  unfold utf8Size; rw [h]

theorem malformed_pos (bs : List UInt8) : 0 < malformed bs := by
  unfold malformed
  split
  · split
    · split <;> omega
    · omega
  · split <;> omega
  · omega

theorem malformed_le (b : UInt8) : ∀ bs : List UInt8, malformed (b :: bs) ≤ (b :: bs).length
  | [] => Nat.le_refl 1
  | [c] => by
    unfold malformed
    dsimp only [length_cons, length_nil]
    split <;> omega
  | c :: d :: bs => by
    unfold malformed
    dsimp only [length_cons]
    split
    · split <;> omega
    · omega

theorem malformed_single (b : UInt8) : malformed [b] = 1 := rfl

theorem malformed_pair (b c : UInt8) : malformed [b, c] = if followsLead b c then 2 else 1 := rfl

theorem malformed_three (b c d : UInt8) (bs : List UInt8) : malformed (b :: c :: d :: bs) =
    if followsLead b c then (if 0xF0 ≤ b && isContinuation d then 3 else 2) else 1 := rfl

theorem malformed_take (b : UInt8) (bs : List UInt8) (n : Nat) (h : malformed (b :: bs) ≤ n) :
    malformed ((b :: bs).take n) = malformed (b :: bs) := by
  obtain ⟨m, rfl⟩ : ∃ m, n = m + 1 := ⟨n - 1, by have := malformed_pos (b :: bs); omega⟩
  rw [take_succ_cons]
  match bs, m with
  | [], m => rw [take_nil]
  | [c], 0 =>
    rw [malformed_pair] at h
    rw [take_zero, malformed_single, malformed_pair]
    split at h
    · omega
    · next hf => rw [if_neg hf]
  | [c], m + 1 => rw [take_of_length_le (by simp)]
  | c :: d :: bs, 0 =>
    rw [malformed_three] at h
    rw [take_zero, malformed_single, malformed_three]
    split at h
    · split at h <;> omega
    · next hf => rw [if_neg hf]
  | c :: d :: bs, 1 =>
    rw [malformed_three] at h
    rw [take_succ_cons, take_zero, malformed_pair, malformed_three]
    split
    · next hf =>
      rw [if_pos hf] at h
      split at h
      · omega
      · next hd => rw [if_neg hd]
    · rfl
  | c :: d :: bs, m + 2 => rw [take_succ_cons, take_succ_cons, malformed_three, malformed_three]

theorem frontChar_take {c : Char} {n : Nat} (h : frontChar (bs.take n) = some c) : frontChar bs = some c := by
  have hb := frontChar_eq_some h
  rw [← take_append_drop n bs, hb, append_assoc]; exact frontChar_encode c _

theorem utf8Size_pos (b : UInt8) (bs : List UInt8) : 0 < utf8Size (b :: bs) := by
  unfold utf8Size
  split
  · exact Char.utf8Size_pos _
  · exact malformed_pos _

theorem utf8Size_le (b : UInt8) (bs : List UInt8) : utf8Size (b :: bs) ≤ (b :: bs).length := by
  cases h : frontChar (b :: bs) with
  | some c =>
    have hl := congrArg List.length (frontChar_eq_some h)
    rw [length_append, String.length_utf8EncodeChar] at hl; rw [utf8Size_some h]; omega
  | none => rw [utf8Size_none h]; exact malformed_le b bs

theorem utf8Size_take (b : UInt8) (bs : List UInt8) (n : Nat) (h : utf8Size (b :: bs) ≤ n) :
    utf8Size ((b :: bs).take n) = utf8Size (b :: bs) ∧ frontChar ((b :: bs).take n) = frontChar (b :: bs) := by
  cases hf : frontChar (b :: bs) with
  | some c =>
    rw [utf8Size_some hf] at h
    have hlen : (String.utf8EncodeChar c).length = c.utf8Size := String.length_utf8EncodeChar c
    have htake : (b :: bs).take n = String.utf8EncodeChar c ++ ((b :: bs).drop c.utf8Size).take (n - c.utf8Size) := by
      have hb := frontChar_eq_some hf
      calc (b :: bs).take n = (String.utf8EncodeChar c ++ (b :: bs).drop c.utf8Size).take n := by rw [← hb]
        _ = _ := by rw [take_append, hlen, take_of_length_le (by omega)]
    have ht : frontChar ((b :: bs).take n) = some c := by rw [htake]; exact frontChar_encode c _
    exact ⟨by rw [utf8Size_some ht, utf8Size_some hf], ht⟩
  | none =>
    rw [utf8Size_none hf] at h
    have ht : frontChar ((b :: bs).take n) = none := by
      refine Option.eq_none_iff_forall_ne_some.2 (fun c hc => ?_)
      rw [frontChar_take hc] at hf; cases hf
    exact ⟨by rw [utf8Size_none ht, utf8Size_none hf, malformed_take b bs n h], ht⟩

/-- The decoder of UTF-8, as groups. -/
def utf8Groups : Groups UInt8 Char where
  size := utf8Size
  out bs := [(frontChar bs).getD replacementChar]
  pos := utf8Size_pos
  le := utf8Size_le
  stable b bs n h := ⟨(utf8Size_take b bs n h).1, by rw [(utf8Size_take b bs n h).2]⟩

theorem decodeUtf8_cons (b : UInt8) (bs : List UInt8) :
    decodeUtf8 (b :: bs) = (frontChar (b :: bs)).getD replacementChar :: decodeUtf8 ((b :: bs).drop (utf8Size (b :: bs))) := by
  have hpos := utf8Size_pos b bs
  have hdrop : ∀ n, 0 < n → decodeUtf8Go (n - 1) bs = decodeUtf8 ((b :: bs).drop n) := by
    intro n hn
    obtain ⟨m, rfl⟩ : ∃ m, n = m + 1 := ⟨n - 1, by omega⟩
    rw [decodeUtf8Go_drop, drop_succ_cons, Nat.add_sub_cancel]
  have hgo : decodeUtf8 (b :: bs) = match frontChar (b :: bs) with
      | some c => c :: decodeUtf8Go (c.utf8Size - 1) bs
      | none => replacementChar :: decodeUtf8Go (malformed (b :: bs) - 1) bs := rfl
  rw [hgo]
  cases h : frontChar (b :: bs) with
  | some c => exact congrArg _ ((hdrop _ (Char.utf8Size_pos c)).trans (by rw [utf8Size_some h]))
  | none => exact congrArg _ ((hdrop _ (malformed_pos _)).trans (by rw [utf8Size_none h]))

theorem decode_utf8Groups (bs : List UInt8) : utf8Groups.decode bs = decodeUtf8 bs := by
  induction hn : bs.length using Nat.strongRecOn generalizing bs with
  | ind n ih =>
    cases bs with
    | nil => rw [Groups.decode_nil]; rfl
    | cons b bs =>
      have hpos := utf8Size_pos b bs
      have hlen : ((b :: bs).drop (utf8Size (b :: bs))).length < n := by
        rw [length_drop, hn]; simp only [length_cons] at hn; omega
      rw [Groups.decode_cons, decodeUtf8_cons, ← ih _ hlen _ rfl]; rfl

/-! ## Inside a group -/

theorem not_lead (hb : ¬ b.IsUTF8FirstByte) (c : UInt8) : followsLead b c = false := by
  have hall : ∀ n : Fin 256, ¬ (UInt8.ofNat n).IsUTF8FirstByte → (UInt8.ofNat n == 0xE0) = false ∧
      (UInt8.ofNat n == 0xED) = false ∧ (UInt8.ofNat n == 0xF0) = false ∧ (UInt8.ofNat n == 0xF4) = false ∧
      (decide (0xE1 ≤ UInt8.ofNat n) && decide (UInt8.ofNat n ≤ 0xF3)) = false := by decide +kernel
  have h := hall ⟨b.toNat, b.toNat_lt⟩
  rw [UInt8.ofNat_toNat] at h
  obtain ⟨h₁, h₂, h₃, h₄, h₅⟩ := h hb
  unfold followsLead; rw [h₁, h₂, h₃, h₄, h₅]; rfl

theorem not_first_of_continuation (hb : isContinuation b = true) : ¬ b.IsUTF8FirstByte := by
  have hall : ∀ n : Fin 256, isContinuation (UInt8.ofNat n) = true → ¬ (UInt8.ofNat n).IsUTF8FirstByte := by decide +kernel
  have h := hall ⟨b.toNat, b.toNat_lt⟩; rw [UInt8.ofNat_toNat] at h; exact h hb

theorem continuation_of_followsLead {c : UInt8} (h : followsLead b c = true) : isContinuation c = true := by
  have hall : ∀ n : Fin 256,
      ((decide (0xA0 ≤ UInt8.ofNat n) && decide (UInt8.ofNat n ≤ 0xBF)) = true → isContinuation (UInt8.ofNat n) = true) ∧
      ((decide (0x80 ≤ UInt8.ofNat n) && decide (UInt8.ofNat n ≤ 0x9F)) = true → isContinuation (UInt8.ofNat n) = true) ∧
      ((decide (0x90 ≤ UInt8.ofNat n) && decide (UInt8.ofNat n ≤ 0xBF)) = true → isContinuation (UInt8.ofNat n) = true) ∧
      ((decide (0x80 ≤ UInt8.ofNat n) && decide (UInt8.ofNat n ≤ 0x8F)) = true → isContinuation (UInt8.ofNat n) = true) := by
    decide +kernel
  obtain ⟨h₁, h₂, h₃, h₄⟩ := hall ⟨c.toNat, c.toNat_lt⟩
  simp only [UInt8.ofNat_toNat] at h₁ h₂ h₃ h₄
  unfold followsLead at h
  split at h
  · exact h₁ h
  · split at h
    · exact h₂ h
    · split at h
      · exact h₃ h
      · split at h
        · exact h₄ h
        · exact (Bool.and_eq_true_iff.1 h).2

theorem utf8Size_inner (hb : ¬ b.IsUTF8FirstByte) (bs : List UInt8) : utf8Size (b :: bs) = 1 := by
  have hnone : frontChar (b :: bs) = none := by
    refine Option.eq_none_iff_forall_ne_some.2 (fun c hc => hb ?_)
    have hpos := c.utf8Size_pos
    have hlen : (String.utf8EncodeChar c).length = c.utf8Size := String.length_utf8EncodeChar c
    have hfirst : (String.utf8EncodeChar c)[0]? = some b := by
      rw [← getElem?_append_left (by omega), ← frontChar_eq_some hc]; rfl
    obtain ⟨hi, hget⟩ := List.getElem?_eq_some_iff.1 hfirst
    rw [← hget]; exact UInt8.isUTF8FirstByte_getElem_utf8EncodeChar.2 rfl
  rw [utf8Size_none hnone]
  match bs with
  | [] => rfl
  | [c] => simp [malformed, not_lead hb]
  | c :: d :: bs => simp [malformed, not_lead hb]

theorem inner_byte {i : Nat} (hi : 0 < i) (h : i < utf8Size (b :: bs)) :
    ∃ d, (b :: bs)[i]? = some d ∧ ¬ d.IsUTF8FirstByte := by
  cases hf : frontChar (b :: bs) with
  | some c =>
    rw [utf8Size_some hf] at h
    have hlt : i < (String.utf8EncodeChar c).length := by rw [String.length_utf8EncodeChar]; exact h
    refine ⟨(String.utf8EncodeChar c)[i], ?_, fun hfirst => ?_⟩
    · rw [frontChar_eq_some hf, getElem?_append_left hlt, getElem?_eq_getElem hlt]
    · have h0 := UInt8.isUTF8FirstByte_getElem_utf8EncodeChar.1 hfirst; omega
  | none =>
    rw [utf8Size_none hf] at h
    match bs with
    | [] =>
      have h1 : i < 1 := h; omega
    | [c] =>
      rw [malformed_pair] at h
      split at h
      · next hc =>
        obtain rfl : i = 1 := by omega
        exact ⟨c, rfl, not_first_of_continuation (continuation_of_followsLead hc)⟩
      · omega
    | c :: d :: bs =>
      rw [malformed_three] at h
      split at h
      · next hc =>
        by_cases h1 : i = 1
        · subst h1; exact ⟨c, rfl, not_first_of_continuation (continuation_of_followsLead hc)⟩
        · split at h
          · next hd =>
            obtain rfl : i = 2 := by omega
            exact ⟨d, rfl, not_first_of_continuation (Bool.and_eq_true_iff.1 hd).2⟩
          · omega
      · omega

theorem utf8_restarts : utf8Groups.Restarts := by
  intro b bs n hpos hn
  obtain ⟨k, hk⟩ : ∃ k, utf8Size (b :: bs) = n + 1 + k := ⟨utf8Size (b :: bs) - (n + 1), by
    have hn' : n < utf8Size (b :: bs) := hn
    omega⟩
  have hone : ∀ m, 0 < m → m < utf8Size (b :: bs) →
      (utf8Groups.decode ((b :: bs).drop m)).length = 1 + (utf8Groups.decode ((b :: bs).drop (m + 1))).length := by
    intro m hm hlt
    obtain ⟨d, hd, hfirst⟩ := inner_byte hm hlt
    obtain ⟨hi, rfl⟩ := List.getElem?_eq_some_iff.1 hd
    have hsize : utf8Groups.size ((b :: bs)[m] :: (b :: bs).drop (m + 1)) = 1 := utf8Size_inner hfirst _
    rw [drop_eq_getElem_cons hi, Groups.decode_cons, hsize, length_append]; rfl
  show (utf8Groups.decode ((b :: bs).drop (utf8Size (b :: bs)))).length < _
  induction k generalizing n with
  | zero => rw [hone n hpos hn, hk, Nat.add_zero]; omega
  | succ k ih =>
    have h := ih (n + 1) (Nat.succ_pos n) (by show n + 1 < utf8Size (b :: bs); omega) (by omega); rw [hone n hpos hn]; omega

/-- **Chunks of UTF-8 are decoded to what the whole is decoded to just when none cuts a group.** -/
theorem utf8_tells : utf8Groups.Tells := Groups.tells_of_restarts (fun _ _ => rfl) utf8_restarts

end NodeCompat
