import NodeCompat.Http.Client
import NodeCompat.Http.Serialize

/-!
# Reading back what is written

The client on the pieces that `HttpConnectionBase` writes: numbers, the status line, fields, and chunks. Each piece is
read back as what it was made of, whatever follows it.
-/

namespace NodeCompat.Http

open List Option Client

/-! ## Numbers -/

variable (n : Nat)

theorem digit_decimal : ∀ d < 10, Client.isDigit (UInt8.ofNat (48 + d)) = true ∧ (UInt8.ofNat (48 + d)).toNat - 48 = d := by
  decide

theorem digit_hex : ∀ d < 16, hexDigit (UInt8.ofNat (if d < 10 then 48 + d else 87 + d)) = some d := by decide

theorem isDigit_of_mem_decimal {n : Nat} {c : UInt8} (h : c ∈ decimal n) : Client.isDigit c = true := by
  obtain ⟨d, hd, rfl⟩ := List.mem_map.1 h
  exact (digit_decimal d (lt_of_mem_digitsOf (by omega) hd)).1

theorem decimal_ne_nil : decimal n ≠ [] := by
  simpa [decimal] using digitsOf_ne_nil 10 n

theorem not_mem_decimal {c : UInt8} (hc : Client.isDigit c = false) (n : Nat) : c ∉ decimal n := by
  intro h; rw [isDigit_of_mem_decimal h] at hc; cases hc

theorem readDecimal_decimal : Client.readDecimal (decimal n) = some n := by
  have hall : (decimal n).all isDigit = true := List.all_eq_true.2 (fun c hc => isDigit_of_mem_decimal hc)
  have hback : (decimal n).map (fun c => c.toNat - 48) = digitsOf 10 n := by
    rw [decimal, List.map_map]
    refine (map_congr_left ?_).trans (List.map_id _)
    intro d hd; exact (digit_decimal d (lt_of_mem_digitsOf (by omega) hd)).2
  rw [readDecimal, if_pos ⟨decimal_ne_nil n, hall⟩, hback, ofDigits_digitsOf]

theorem hexText_ne_nil : hexText n ≠ [] := by
  simpa [hexText] using digitsOf_ne_nil 16 n

theorem hexDigit_of_mem_hexText {n : Nat} {c : UInt8} (h : c ∈ hexText n) : (hexDigit c).isSome = true := by
  obtain ⟨d, hd, rfl⟩ := List.mem_map.1 h; rw [digit_hex d (lt_of_mem_digitsOf (by omega) hd)]; rfl

theorem cr_not_mem_hexText : cr ∉ hexText n := by
  intro h; exact absurd (hexDigit_of_mem_hexText h) (by decide)

theorem readSize_hexText : Client.readSize (hexText n) = some n := by
  have htake : (hexText n).takeWhile (fun c => (hexDigit c).isSome) = hexText n :=
    takeWhile_eq_self_iff.2 (fun c hc => hexDigit_of_mem_hexText hc)
  have hback : (hexText n).filterMap hexDigit = digitsOf 16 n := by
    rw [hexText, filterMap_map]
    refine (filterMap_congr ?_).trans filterMap_some
    intro d hd; exact digit_hex d (lt_of_mem_digitsOf (by omega) hd)
  simp only [readSize, htake, if_neg (hexText_ne_nil n), hback, ofDigits_digitsOf]

/-! ## Lines -/

theorem find_crlf {l : Bytes} (h : cr ∉ l) (s : Bytes) : find crlf (l ++ (crlf ++ s)) = some l.length := by
  have hz : find crlf (crlf ++ s) = some 0 := find_zero ⟨s, rfl⟩
  have := find_skip_of_ne (s := crlf ++ s) (p := [lf]) h; rw [← crlf, hz] at this; simpa using this

theorem drop_crlf (l s : Bytes) : (l ++ (crlf ++ s)).drop (l.length + 2) = s := by
  rw [← drop_drop, drop_left]; rfl

/-! ## Fields -/

/-- A text that fits into a line. -/
def LineText (s : Bytes) : Prop := cr ∉ s ∧ lf ∉ s

instance (s : Bytes) : Decidable (LineText s) := inferInstanceAs (Decidable (cr ∉ s ∧ lf ∉ s))

/-- A field, without the CRLF at its end. -/
def fieldText (f : Bytes × Bytes) : Bytes := f.1 ++ text ": " ++ f.2

/-- Fields on the wire. -/
def fieldLines (fs : List (Bytes × Bytes)) : Bytes := fs.flatMap (fun f => fieldText f ++ crlf)

/-- What the client makes of a field. -/
def seen (f : Bytes × Bytes) : Bytes × Bytes := (Client.readField (fieldText f)).getD ([], [])

/-- The name that the client sees ends at the first colon. -/
def seenName (name : Bytes) : Bytes := name.takeWhile (· ≠ colon)

theorem colon_not_mem_seenName (name : Bytes) : colon ∉ seenName name := by
  intro h
  have := mem_takeWhile_imp h; simp at this

theorem seenName_eq {name : Bytes} (h : colon ∉ name) : seenName name = name := by
  apply takeWhile_eq_self_iff.2
  intro c hc
  simp only [ne_eq, decide_not, Bool.not_eq_eq_eq_not, Bool.not_true, decide_eq_false_iff_not]
  rintro rfl; exact h hc

theorem fieldText_split (f : Bytes × Bytes) : ∃ t, fieldText f = seenName f.1 ++ colon :: t := by
  have hsplit : seenName f.1 ++ f.1.dropWhile (· ≠ colon) = f.1 := takeWhile_append_dropWhile
  have htext : text ": " = colon :: [sp] := by decide
  cases hd : f.1.dropWhile (· ≠ colon) with
  | nil =>
    rw [hd, append_nil] at hsplit
    refine ⟨[sp] ++ f.2, ?_⟩
    rw [fieldText, hsplit, htext]; simp
  | cons c t =>
    have hc : c = colon := by
      have := head?_dropWhile_not (· ≠ colon) f.1; rw [hd] at this; simpa using this
    subst hc
    refine ⟨t ++ (text ": " ++ f.2), ?_⟩
    rw [hd] at hsplit
    nth_rewrite 1 [fieldText, ← hsplit]
    simp

theorem readField_fieldText (f : Bytes × Bytes) : Client.readField (fieldText f) = some (seen f) ∧ (seen f).1 = seenName f.1 := by
  obtain ⟨t, ht⟩ := fieldText_split f
  have hr : readField (fieldText f) = some (seenName f.1, trimBlanks t) := by
    rw [readField, ht, find_single (colon_not_mem_seenName f.1), map_some, take_left, ← drop_drop, drop_left]; rfl
  rw [seen, hr]; exact ⟨rfl, rfl⟩

theorem seen_eq {f : Bytes × Bytes} (hn : colon ∉ f.1) (hv : trimBlanks f.2 = f.2) : seen f = f := by
  have ht : fieldText f = f.1 ++ colon :: ([sp] ++ f.2) := by
    rw [fieldText, show text ": " = colon :: [sp] by decide]
    simp
  rw [seen, ht, readField, find_single hn, map_some, take_left, ← drop_drop, drop_left, getD_some]
  have hsp : ∀ c ∈ [sp], isBlank c = true := by simp [isBlank]
  have hb : trimBlanks ([sp] ++ f.2) = f.2 := by
    rw [trimBlanks_append hsp, hv]
  exact Prod.ext rfl hb

theorem readFields_end (rest : Bytes) : Client.readFields (crlf ++ rest) = some ([], rest) := by
  have hz : find crlf (crlf ++ rest) = some 0 := find_zero ⟨rest, rfl⟩
  unfold readFields
  split
  · next h => rw [hz] at h; cases h
  · rfl
  · next h => rw [hz] at h; cases h

theorem readFields_cons {f : Bytes × Bytes} (h₁ : cr ∉ f.1) (h₂ : cr ∉ f.2) (s : Bytes) :
    Client.readFields (fieldText f ++ (crlf ++ s)) = (Client.readFields s).map (fun r => (seen f :: r.1, r.2)) := by
  have hcr : cr ∉ fieldText f := by
    have : cr ∉ text ": " := by decide
    simp [fieldText, h₁, h₂, this]
  have hlen : 0 < (fieldText f).length := by
    have : 0 < (text ": ").length := by decide
    simp only [fieldText, length_append]; omega
  have hf := find_crlf hcr s
  rw [readFields]
  split
  · next h => rw [hf] at h; cases h
  · next h =>
    rw [hf] at h
    have := Option.some.inj h; omega
  · next i h =>
    rw [hf] at h
    have hi : (fieldText f).length = i + 1 := Option.some.inj h
    rw [← hi, take_left, (readField_fieldText f).1, drop_crlf]

/-- **The fields are read back**, up to the empty line. -/
theorem readFields_lines : ∀ (fs : List (Bytes × Bytes)) (rest : Bytes), (∀ f ∈ fs, cr ∉ f.1 ∧ cr ∉ f.2) →
    Client.readFields (fieldLines fs ++ (crlf ++ rest)) = some (fs.map seen, rest)
  | [], rest, _ => readFields_end rest
  | f :: fs, rest, h => by
    have hf := h f mem_cons_self
    have ih := readFields_lines fs rest (fun g hg => h g (mem_cons_of_mem f hg))
    have hl : fieldLines (f :: fs) ++ (crlf ++ rest) = fieldText f ++ (crlf ++ (fieldLines fs ++ (crlf ++ rest))) := by
      simp [fieldLines]
    rw [hl, readFields_cons hf.1 hf.2, ih]; rfl

/-! ## The status line -/

theorem length_decimal {n : Nat} (h₁ : 100 ≤ n) (h₂ : n < 1000) : (decimal n).length = 3 := by
  have h₃ : digitsOf 10 n = [n / 10 / 10, n / 10 % 10, n % 10] := by
    rw [digitsOf, if_neg (by omega), digitsOf, if_neg (by omega), digitsOf, if_pos (by omega)]; rfl
  rw [decimal, h₃]; rfl

theorem statusLine_eq (status : Nat) (message : Bytes) :
    statusLine status message = text "HTTP/1.1 " ++ decimal status ++ [sp] ++ message ++ crlf := by
  unfold statusLine
  split
  · next h =>
    obtain ⟨rfl, rfl⟩ := h
    decide +kernel
  · rfl

theorem readStatusLine_ok {status : Nat} (h₁ : 100 ≤ status) (h₂ : status < 1000) (message : Bytes) :
    Client.readStatusLine (text "HTTP/1.1 " ++ decimal status ++ [sp] ++ message) = some status := by
  have hl := length_decimal h₁ h₂
  have ht : (text "HTTP/1.1 ").length = 9 := by decide
  have h9 : (text "HTTP/1.1 " ++ decimal status ++ [sp] ++ message).drop 9 = decimal status ++ ([sp] ++ message) := by
    rw [append_assoc, append_assoc, ← ht, drop_left]
  have h12 : (text "HTTP/1.1 " ++ decimal status ++ [sp] ++ message).drop 12 = [sp] ++ message := by
    rw [show 12 = 9 + 3 from rfl, ← drop_drop, h9, ← hl, drop_left]
  have h0 : (text "HTTP/1.1 " ++ decimal status ++ [sp] ++ message).take 9 = text "HTTP/1.1 " := by
    rw [append_assoc, append_assoc, ← ht, take_left]
  rw [readStatusLine, if_pos ⟨.inl h0, by rw [h12]; rfl⟩, h9, ← hl, take_left, readDecimal_decimal]

/-- The head as a whole: the client decides by the status and the fields that were written. -/
theorem readHead_head {status : Nat} (h₁ : 100 ≤ status) (h₂ : status < 1000) {message : Bytes} (hm : cr ∉ message)
    {fs : List (Bytes × Bytes)} (hfs : ∀ f ∈ fs, cr ∉ f.1 ∧ cr ∉ f.2) (isHead : Bool) (rest : Bytes) :
    Client.readHead isHead (statusLine status message ++ (fieldLines fs ++ (crlf ++ rest))) =
      (Client.bodyEnd isHead status (fs.map seen)).map (fun e => (e, rest)) := by
  have hcr : cr ∉ text "HTTP/1.1 " ++ decimal status ++ [sp] ++ message := by
    have ht : cr ∉ text "HTTP/1.1 " := by decide
    have hd : cr ∉ decimal status := not_mem_decimal (by decide) status
    have hs : cr ∉ [sp] := by decide
    simp only [mem_append, not_or]; exact ⟨⟨⟨ht, hd⟩, hs⟩, hm⟩
  rw [statusLine_eq, append_assoc _ crlf, readHead, find_crlf hcr]
  simp only [take_left, drop_crlf, readStatusLine_ok h₁ h₂, readFields_lines fs rest hfs]

/-! ## Chunks -/

theorem readChunks_last (rest : Bytes) : Client.readChunks (lastChunk ++ rest) = some ([], rest) := by
  have hl : lastChunk ++ rest = hexText 0 ++ (crlf ++ (crlf ++ rest)) := by
    have : lastChunk = hexText 0 ++ (crlf ++ crlf) := by decide +kernel
    rw [this]; simp
  have hz : find crlf (crlf ++ rest) = some 0 := find_zero ⟨rest, rfl⟩
  have hskip : skipTrailers (crlf ++ rest) = some rest := by
    unfold skipTrailers
    split
    · next h => rw [hz] at h; cases h
    · rfl
    · next h => rw [hz] at h; cases h
  have hf := find_crlf (cr_not_mem_hexText 0) (crlf ++ rest)
  rw [hl, readChunks]
  split
  · next h => rw [hf] at h; cases h
  · next i h =>
    rw [hf] at h
    cases h
    rw [take_left, readSize_hexText, drop_crlf]; simp only [hskip]; rfl

theorem readChunks_chunk {data : Bytes} (hd : data ≠ []) (rest : Bytes) :
    Client.readChunks (chunkBytes data ++ rest) = (Client.readChunks rest).map (fun r => (data ++ r.1, r.2)) := by
  have hl : chunkBytes data ++ rest = hexText data.length ++ (crlf ++ (data ++ (crlf ++ rest))) := by
    simp [chunkBytes]
  have hf := find_crlf (cr_not_mem_hexText data.length) (data ++ (crlf ++ rest))
  obtain ⟨n, hn⟩ : ∃ n, data.length = n + 1 := Nat.exists_eq_add_one.2 (length_pos_iff.2 hd)
  have hsize := readSize_hexText data.length
  rw [hl, readChunks]
  split
  · next h => rw [hf] at h; cases h
  · next i h =>
    rw [hf] at h
    cases h
    rw [take_left, drop_crlf]
    split
    · next h => rw [hsize] at h; cases h
    · next h =>
      rw [hsize] at h
      have := Option.some.inj h; omega
    · next m h =>
      rw [hsize] at h
      have hm : data.length = m + 1 := Option.some.inj h
      rw [← hm]
      simp only [take_left, drop_left]; rw [if_pos ⟨trivial, rfl⟩]; rfl

/-- What a part of a chunked body adds to the stream: nothing, if it is empty. -/
def chunkOf (data : Bytes) : Bytes := if data = [] then [] else chunkBytes data

/-- **A chunked body is read back**: the parts it consists of, and what stands behind the last chunk. -/
theorem readChunks_chunks (rest : Bytes) : ∀ ds : List Bytes,
    Client.readChunks (ds.flatMap chunkOf ++ (lastChunk ++ rest)) = some (ds.flatten, rest)
  | [] => readChunks_last rest
  | d :: ds => by
    have ih := readChunks_chunks rest ds
    rw [flatMap_cons, append_assoc, flatten_cons]
    by_cases hd : d = []
    · rw [chunkOf, if_pos hd, hd]; exact ih
    · rw [chunkOf, if_neg hd, readChunks_chunk hd, ih]; rfl

end NodeCompat.Http
