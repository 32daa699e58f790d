import NodeCompat.Http.Client
import NodeCompat.Http.FieldLines

/-!
# The length of a request body

What the fields of an accepted head say about its body. The field loop keeps `Scanned`: every `Transfer-Encoding` gone over
names chunked, and every `Content-Length` has the value that is kept. The value is computed digit by digit in a `size_t`, and
the bound is tested before the next digit, so nothing wraps (`parseWord_eq`). What the loop does not see is where in the list
chunked stands (`unambiguous_iff`).
-/

namespace NodeCompat.Http

open List Option Client

/-! ## The codings -/

variable {s s' : FieldScan}

/-- The items of a comma list. -/
def commaItems : Bytes → List Bytes
  | [] => [[]]
  | c :: s => if c = comma then [] :: commaItems s else (commaItems s).modifyHead (c :: ·)

theorem commaItems_item : ∀ {a : Bytes}, comma ∉ a → commaItems a = [a]
  | [], _ => rfl
  | c :: a, h => by
    rw [mem_cons, not_or] at h; rw [commaItems, if_neg (Ne.symm h.1), commaItems_item h.2]; rfl

theorem commaItems_head (w : Bytes) : ∀ {a : Bytes}, comma ∉ a → commaItems (a ++ comma :: w) = a :: commaItems w
  | [], _ => by simp [commaItems]
  | c :: a, h => by
    rw [mem_cons, not_or] at h; rw [cons_append, commaItems, if_neg (Ne.symm h.1), commaItems_head w h.2]; rfl

/-- **The token search looks at the items.** -/
theorem hasToken_items {token : Bytes} (ht : token ≠ []) (v : Bytes) :
    headerValueHasToken v token = (commaItems v).any (fun a => asciiEqualsIgnoreCase (trimBlanks a) token) := by
  by_cases hv : comma ∈ v
  · obtain ⟨a, b, rfl, ha⟩ := eq_append_cons_of_mem hv; rw [hasToken_head ha, commaItems_head b ha, hasToken_items ht b]; rfl
  · rw [hasToken_item ht hv, commaItems_item hv]; simp
termination_by v.length
decreasing_by
  subst_vars
  simp
  omega

/-- The codings that the `Transfer-Encoding` fields list, in order; empty items of a list do not count. -/
def codings (fs : List (Bytes × Bytes)) : List Bytes := (Client.values (text "transfer-encoding") fs).flatMap
    (fun v => ((commaItems v).map trimBlanks).filter (fun a => !a.isEmpty))

def isChunkedCoding (coding : Bytes) : Bool := asciiEqualsIgnoreCase coding (text "chunked")

/-- What the list names behind its first chunked. -/
def behindChunked (fs : List (Bytes × Bytes)) : List Bytes := ((codings fs).dropWhile (fun a => !isChunkedCoding a)).tail

/-! ## The field loop -/

/-- The fields of a head. -/
def headFields (head : Bytes) : List (Bytes × Bytes) :=
  ((headLines head).tail.filter (fun l => !l.isEmpty)).map fieldOf

theorem values_concat (name : Bytes) (fs : List (Bytes × Bytes)) (f : Bytes × Bytes) :
    Client.values name (fs ++ [f]) =
      Client.values name fs ++ (if asciiEqualsIgnoreCase f.1 name then [f.2] else []) := by
  unfold values
  rw [filter_append, map_append, filter_singleton]
  cases asciiEqualsIgnoreCase f.1 name <;> rfl

/-- What the field loop knows of the fields it has gone over. -/
structure FieldScan.Scanned (s : FieldScan) : Prop where
  encodings : ∀ v ∈ Client.values (text "transfer-encoding") s.fields, headerValueHasToken v (text "chunked") = true
  chunked : s.chunked = true ↔ Client.values (text "transfer-encoding") s.fields ≠ []
  lengths : ∀ v ∈ Client.values (text "content-length") s.fields, s.contentLength = some v
  present : s.contentLength.isSome = true → Client.values (text "content-length") s.fields ≠ []

theorem FieldScan.scanned_start (k : Bool) : FieldScan.Scanned { keepAlive := k } where
  encodings := by simp [values]
  chunked := by simp [values]
  lengths := by simp [values]
  present := by simp

theorem FieldScan.Scanned.other {f : Bytes × Bytes} (hs : s.Scanned)
    (hcl : asciiEqualsIgnoreCase f.1 (text "content-length") = false)
    (hte : asciiEqualsIgnoreCase f.1 (text "transfer-encoding") = false)
    (hf : s'.fields = s.fields ++ [f]) (hc : s'.chunked = s.chunked) (hl : s'.contentLength = s.contentLength) :
    s'.Scanned := by
  have hvc : values (text "content-length") s'.fields = values (text "content-length") s.fields := by
    rw [hf, values_concat, hcl]; simp
  have hvt : values (text "transfer-encoding") s'.fields = values (text "transfer-encoding") s.fields := by
    rw [hf, values_concat, hte]; simp
  constructor
  · rw [hvt]; exact hs.encodings
  · rw [hvt, hc]; exact hs.chunked
  · rw [hvc, hl]; exact hs.lengths
  · rw [hvc, hl]; exact hs.present

/-- **One field keeps what the loop knows.** -/
theorem FieldScan.Scanned.decide {name value : Bytes} (hs : s.Scanned)
    (h : ({ s with fields := s.fields ++ [(name, value)] } : FieldScan).decide name value = some s') :
    s'.Scanned ∧ s'.fields = s.fields ++ [(name, value)] := by
  unfold FieldScan.decide at h
  cases hcl : asciiEqualsIgnoreCase name (text "content-length") with
  | true =>
    have hte := asciiEquals_unique (b := text "transfer-encoding") hcl (by decide)
    rw [hcl, if_pos rfl] at h
    split at h
    · cases h
    · next hv =>
      cases h
      refine ⟨⟨?_, ?_, ?_, ?_⟩, rfl⟩
      · intro v hv'; rw [values_concat, hte] at hv'; exact hs.encodings v (by simpa using hv')
      · rw [values_concat, hte]; simpa using hs.chunked
      · intro v hv'
        rw [values_concat, hcl, if_pos rfl, mem_append, mem_singleton] at hv'
        rcases hv' with hv' | rfl
        · have hk := hs.lengths v hv'
          simp only [hk, isSome_some, Bool.true_and, bne_iff_ne, ne_eq, not_not] at hv
          exact congrArg some (Option.some.inj hv).symm
        · rfl
      · intro _; rw [values_concat, hcl]; simp
  | false =>
    cases hte : asciiEqualsIgnoreCase name (text "transfer-encoding") with
    | true =>
      rw [hcl, hte] at h
      simp only [Bool.false_eq_true, if_false, if_true] at h
      split at h
      · next ht =>
        cases h
        refine ⟨⟨?_, ?_, ?_, ?_⟩, rfl⟩
        · intro v hv
          rw [values_concat, hte, if_pos rfl, mem_append, mem_singleton] at hv
          rcases hv with hv | rfl
          · exact hs.encodings v hv
          · exact ht
        · rw [values_concat, hte]; simp
        · rw [values_concat, hcl]; simpa using hs.lengths
        · rw [values_concat, hcl]; simpa using hs.present
      · cases h
    | false =>
      rw [hcl, hte] at h
      simp only [Bool.false_eq_true, if_false] at h
      have hother : s'.fields = s.fields ++ [(name, value)] ∧ s'.chunked = s.chunked ∧ s'.contentLength = s.contentLength := by
        split at h
        · split at h
          · cases h; exact ⟨rfl, rfl, rfl⟩
          · split at h <;> (cases h; exact ⟨rfl, rfl, rfl⟩)
        · split at h
          · split at h <;> (cases h; exact ⟨rfl, rfl, rfl⟩)
          · cases h; exact ⟨rfl, rfl, rfl⟩
      exact ⟨hs.other (f := (name, value)) hcl hte hother.1 hother.2.1 hother.2.2, hother.1⟩

theorem FieldScan.Scanned.line {l : Bytes} (hs : s.Scanned) (h : s.line l = some s') :
    s'.Scanned ∧ s'.fields = s.fields ++ [fieldOf l] := by
  match hf : find [colon] l with
  | none =>
    unfold FieldScan.line at h; rw [hf] at h; cases h
  | some 0 =>
    unfold FieldScan.line at h; rw [hf] at h; cases h
  | some (c + 1) =>
    rw [s.line_eq hf] at h
    split at h
    · cases h
    · exact hs.decide h

/-- **Every accepted run of the loop knows its fields.** -/
theorem FieldScan.Scanned.scanLines {ls : List Bytes} (hs : s.Scanned) (h : s.scanLines ls = some s') :
    s'.Scanned ∧ s'.fields = s.fields ++ (ls.filter (fun l => !l.isEmpty)).map fieldOf := by
  induction ls generalizing s with
  | nil => cases h; exact ⟨hs, by simp⟩
  | cons l ls ih =>
    by_cases hl : l = []
    · subst hl; exact ih hs h
    · rw [FieldScan.scanLines_cons s hl, bind_eq_some_iff] at h
      obtain ⟨s₁, h₁, h₂⟩ := h
      obtain ⟨hs₁, hf₁⟩ := hs.line h₁
      obtain ⟨hs', hf'⟩ := ih hs₁ h₂
      refine ⟨hs', ?_⟩
      rw [hf', hf₁, filter_cons_of_pos (by simpa using hl)]; simp

/-! ## The decimal value -/

/-- The value as the code computes it, in a `size_t`. -/
def parseWord : UInt64 → Bytes → Option UInt64
  | parsed, [] => some parsed
  | parsed, c :: cs =>
    if c < 48 || 57 < c then none
    else
      let parsed := parsed * 10 + (c.toUInt64 - 48)
      if parsed > UInt64.ofNat kMaxBodyBytes then none else parseWord parsed cs

theorem word_digit {n : Nat} {c : UInt8} (hn : n ≤ kMaxBodyBytes) (hc : 48 ≤ c.toNat) (hc' : c.toNat ≤ 57) :
    UInt64.ofNat n * 10 + (c.toUInt64 - 48) = UInt64.ofNat (n * 10 + (c.toNat - 48)) ∧
      n * 10 + (c.toNat - 48) < 2 ^ 64 := by
  unfold kMaxBodyBytes at hn
  have hlt : n * 10 + (c.toNat - 48) < 2 ^ 64 := by omega
  refine ⟨?_, hlt⟩
  apply UInt64.toNat_inj.1
  have h48 : (48 : UInt64) ≤ c.toUInt64 := by rw [UInt64.le_iff_toNat_le, UInt8.toNat_toUInt64]; exact hc
  rw [UInt64.toNat_add, UInt64.toNat_mul, UInt64.toNat_sub_of_le _ _ h48, UInt8.toNat_toUInt64, UInt64.toNat_ofNat',
    UInt64.toNat_ofNat']
  simp only [UInt64.reduceToNat]; omega

/-- **The value is computed without wrap-around**, whatever the number of digits. -/
theorem parseWord_eq (v : Bytes) : ∀ {n : Nat}, n ≤ kMaxBodyBytes →
    parseWord (UInt64.ofNat n) v = (parseDecimal n v).map UInt64.ofNat := by
  induction v with
  | nil => intro n _; rfl
  | cons c cs ih =>
    intro n hn
    rw [parseWord, parseDecimal]
    by_cases hd : (c < 48 || 57 < c) = true
    · rw [if_pos hd, if_pos hd]; rfl
    · rw [if_neg hd, if_neg hd]
      simp only [Bool.or_eq_true, decide_eq_true_eq, not_or, UInt8.lt_iff_toNat_lt, UInt8.reduceToNat, Nat.not_lt] at hd
      obtain ⟨hw, hlt⟩ := word_digit hn hd.1 hd.2
      rw [hw]
      have hgt : UInt64.ofNat (n * 10 + (c.toNat - 48)) > UInt64.ofNat kMaxBodyBytes ↔
          n * 10 + (c.toNat - 48) > kMaxBodyBytes := by
        rw [gt_iff_lt, UInt64.lt_iff_toNat_lt, UInt64.toNat_ofNat_of_lt' hlt, UInt64.toNat_ofNat_of_lt' (by decide)]
      by_cases hm : n * 10 + (c.toNat - 48) > kMaxBodyBytes
      · rw [if_pos (hgt.2 hm), if_pos hm]; rfl
      · rw [if_neg (fun h => hm (hgt.1 h)), if_neg hm]
        exact ih (Nat.not_lt.1 hm)

theorem parseDecimal_digits {v : Bytes} : ∀ {n m : Nat}, n ≤ kMaxBodyBytes → parseDecimal n v = some m →
    v.all Client.isDigit = true ∧ ofDigits 10 n (v.map (fun c => c.toNat - 48)) = m ∧ m ≤ kMaxBodyBytes := by
  induction v with
  | nil =>
    intro n m hn h
    cases h; exact ⟨rfl, rfl, hn⟩
  | cons c cs ih =>
    intro n m hn h
    rw [parseDecimal] at h
    split at h
    · cases h
    · next hd =>
      dsimp only at h
      split at h
      · cases h
      · next hm =>
        obtain ⟨ha, ho, hle⟩ := ih (Nat.not_lt.1 hm) h
        have hdigit : isDigit c = true := by unfold isDigit; simpa using hd
        exact ⟨by rw [all_cons, hdigit, ha]; rfl, ho, hle⟩

/-! ## Unambiguous bodies -/

/-- The length of the body is unambiguous: with a `Transfer-Encoding`, chunked is its last coding and is named once; with a
`Content-Length`, all lines have one value, of digits only, and it is the length; and otherwise there is no body. -/
structure Unambiguous (fs : List (Bytes × Bytes)) (bodyRemaining : Nat) (chunked : Bool) : Prop where
  encoded : Client.values (text "transfer-encoding") fs ≠ [] →
    chunked = true ∧ ∃ before last, codings fs = before ++ [last] ∧ isChunkedCoding last = true ∧
      ∀ coding ∈ before, isChunkedCoding coding = false
  measured : Client.values (text "transfer-encoding") fs = [] → Client.values (text "content-length") fs ≠ [] →
    chunked = false ∧ bodyRemaining ≤ kMaxBodyBytes ∧ ∃ v, (∀ w ∈ Client.values (text "content-length") fs, w = v) ∧
      Client.readDecimal v = some bodyRemaining ∧ (parseWord 0 v).map UInt64.toNat = some bodyRemaining
  bare : Client.values (text "transfer-encoding") fs = [] → Client.values (text "content-length") fs = [] →
    bodyRemaining = 0 ∧ chunked = false

/-- A list that names chunked ends with the only one exactly when nothing stands behind the first. -/
theorem chunked_last_iff {l : List Bytes} (h : ∃ a ∈ l, isChunkedCoding a = true) :
    (∃ before last, l = before ++ [last] ∧ isChunkedCoding last = true ∧ ∀ a ∈ before, isChunkedCoding a = false) ↔
      (l.dropWhile (fun a => !isChunkedCoding a)).tail = [] := by
  induction l with
  | nil => obtain ⟨a, ha, -⟩ := h; cases ha
  | cons a l ih =>
    cases hc : isChunkedCoding a with
    | true =>
      rw [dropWhile_cons_of_neg (by simp [hc]), tail_cons]
      constructor
      · rintro ⟨before, last, he, -, hb⟩
        cases before with
        | nil => exact (List.cons.inj he).2
        | cons b before =>
          have hba := hb b (by simp); rw [← (List.cons.inj he).1, hc] at hba; cases hba
      · rintro rfl; exact ⟨[], a, rfl, hc, by simp⟩
    | false =>
      rw [dropWhile_cons_of_pos (by simp [hc])]
      obtain ⟨x, hx, hxc⟩ := h
      have hl : ∃ a ∈ l, isChunkedCoding a = true := by
        rcases mem_cons.1 hx with rfl | hx
        · rw [hc] at hxc; cases hxc
        · exact ⟨x, hx, hxc⟩
      rw [← ih hl]
      constructor
      · rintro ⟨before, last, he, hlast, hb⟩
        cases before with
        | nil => rw [← (List.cons.inj he).1, hc] at hlast; cases hlast
        | cons b before => exact ⟨before, last, (List.cons.inj he).2, hlast, fun y hy => hb y (mem_cons_of_mem _ hy)⟩
      · rintro ⟨before, last, rfl, hlast, hb⟩
        refine ⟨a :: before, last, rfl, hlast, fun y hy => ?_⟩
        rcases mem_cons.1 hy with rfl | hy
        · exact hc
        · exact hb y hy

theorem FieldScan.Scanned.names_chunked (hs : s.Scanned)
    (h : Client.values (text "transfer-encoding") s.fields ≠ []) : ∃ a ∈ codings s.fields, isChunkedCoding a = true := by
  obtain ⟨v, vs, hv⟩ := exists_cons_of_ne_nil h
  have hm : v ∈ values (text "transfer-encoding") s.fields := hv ▸ mem_cons_self
  have ht := hs.encodings v hm
  rw [hasToken_items (by decide), List.any_eq_true] at ht
  obtain ⟨a, ha, hc⟩ := ht
  refine ⟨trimBlanks a, mem_flatMap.2 ⟨v, hm, mem_filter.2 ⟨List.mem_map_of_mem ha, ?_⟩⟩, hc⟩
  cases ht : trimBlanks a with
  | nil => rw [ht] at hc; exact absurd hc (by decide)
  | cons _ _ => rfl

theorem parseHead_scan {head : Bytes} {p : Parser} (h : parseHead head = .ok p) :
    ∃ s : FieldScan, s.Scanned ∧ s.fields = headFields head ∧ s.chunked = p.chunked ∧ s.bodyLength = some p.bodyRemaining := by
  have ho : outcome head = some (p.bodyRemaining, p.chunked, p.keepAlive) := by unfold outcome; rw [h]
  rw [outcome_eq] at ho
  unfold headFields
  cases hl : headLines head with
  | nil => exact absurd hl (splitLines_ne_nil head)
  | cons line ls =>
    rw [hl, outcomeOf, bind_eq_some_iff] at ho
    obtain ⟨r, -, ho⟩ := ho
    obtain ⟨s, hs, ho⟩ := bind_eq_some_iff.1 ho
    obtain ⟨n, hn, ho⟩ := map_eq_some_iff.1 ho
    obtain ⟨hscan, hf⟩ := (FieldScan.scanned_start _).scanLines hs
    simp only [Prod.mk.injEq] at ho; exact ⟨s, hscan, hf, ho.2.1, ho.1 ▸ hn⟩

/-- **An accepted head is unambiguous exactly when nothing is listed behind its first chunked.** -/
theorem unambiguous_iff (head : Bytes) (p : Parser) (h : parseHead head = .ok p) :
    Unambiguous (headFields head) p.bodyRemaining p.chunked ↔ behindChunked (headFields head) = [] := by
  obtain ⟨s, hs, hf, hc, hb⟩ := parseHead_scan h
  rw [← hf, ← hc]
  constructor
  · intro hu
    by_cases hte : values (text "transfer-encoding") s.fields = []
    · simp [behindChunked, codings, hte]
    · exact (chunked_last_iff (hs.names_chunked hte)).1 (hu.encoded hte).2
  · intro hbehind
    refine ⟨fun hte => ⟨hs.chunked.2 hte, (chunked_last_iff (hs.names_chunked hte)).2 hbehind⟩, ?_, ?_⟩
    · intro hte hcl
      have hnc : s.chunked = false := by rw [← Bool.not_eq_true, hs.chunked]; exact fun hne => hne hte
      obtain ⟨v, vs, hv⟩ := exists_cons_of_ne_nil hcl
      have hkept := hs.lengths v (hv ▸ mem_cons_self)
      unfold FieldScan.bodyLength at hb
      rw [hnc, hkept] at hb
      simp only [Bool.false_eq_true, if_false] at hb
      split at hb
      · cases hb
      · next hne =>
        obtain ⟨hd, ho, hle⟩ := parseDecimal_digits (Nat.zero_le _) hb
        refine ⟨hnc, hle, v, fun w hw => ?_, ?_, ?_⟩
        · exact Option.some.inj ((hs.lengths w hw).symm.trans hkept)
        · unfold readDecimal; rw [if_pos ⟨hne, hd⟩, ho]
        · have hw := parseWord_eq v (Nat.zero_le kMaxBodyBytes)
          rw [hb] at hw
          refine (congrArg (Option.map UInt64.toNat) hw).trans ?_
          have hlt : p.bodyRemaining < 2 ^ 64 := by unfold kMaxBodyBytes at hle; omega
          simp [UInt64.toNat_ofNat_of_lt' hlt]
    · intro hte hcl
      have hnc : s.chunked = false := by rw [← Bool.not_eq_true, hs.chunked]; exact fun hne => hne hte
      have hno : s.contentLength = none := by rw [← not_isSome_iff_eq_none]; exact fun hp => hs.present hp hcl
      unfold FieldScan.bodyLength at hb; rw [hnc, hno] at hb; exact ⟨(Option.some.inj hb).symm, hnc⟩

/-- A head with two equal lengths. -/
def twoLengths : Bytes := text "POST / HTTP/1.1\r\nContent-Length: 5\r\ncontent-length:5"

theorem unambiguous_iff_two_lengths : ∃ p, parseHead twoLengths = .ok p ∧ p.bodyRemaining = 5 ∧
    Unambiguous (headFields twoLengths) p.bodyRemaining p.chunked := by
  have hp : (parseHead twoLengths).isOk = true := by decide +kernel
  cases h : parseHead twoLengths with
  | error e => rw [h] at hp; cases hp
  | ok p =>
    have h5 : outcome twoLengths = some (5, false, true) := by decide +kernel
    unfold outcome at h5
    rw [h] at h5
    simp only [Option.some.injEq, Prod.mk.injEq] at h5
    exact ⟨p, rfl, h5.1, (unambiguous_iff twoLengths p h).2 (by decide +kernel)⟩

/-- A head whose codings go on behind chunked. -/
def gzipBehindChunked : Bytes := text "POST / HTTP/1.1\r\nTransfer-Encoding: chunked, gzip"

/-- A list that does not end with chunked is accepted. -/
theorem gzip_behind_chunked_accepted : ¬ ∀ head p, parseHead head = .ok p →
    Unambiguous (headFields head) p.bodyRemaining p.chunked := by
  intro hall
  have hp : (parseHead gzipBehindChunked).isOk = true := by decide +kernel
  cases h : parseHead gzipBehindChunked with
  | error e => rw [h] at hp; cases hp
  | ok p =>
    have hu := ((hall _ p h).encoded (by decide +kernel)).2
    have hb := (chunked_last_iff (by decide +kernel)).1 hu
    revert hb
    decide +kernel

end NodeCompat.Http
