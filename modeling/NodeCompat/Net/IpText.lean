import NodeCompat.Bytes

/-!
# Addresses as text

`net_is_ip` scans for a dotted IPv4 address itself, and has `inet_pton` look at what is before a zone. `inet_pton` reads a C
string: it sees the text up to its first NUL. So the answer is the grammar's, but for a text whose address is cut short by a NUL
(`is_ip_grammar`).
-/

namespace NodeCompat.Net

open List

variable (s : Bytes)

def dot : UInt8 := 46
def percent : UInt8 := 37
def hyphen : UInt8 := 45

/-! ## The grammars -/

/-- A decimal number from 0 to 255 without leading zeros. -/
def Octet (s : Bytes) : Prop := ∃ n < 256, s = decimal n

instance (s : Bytes) : Decidable (Octet s) := inferInstanceAs (Decidable (∃ n < 256, s = decimal n))

/-- Four of them with dots between. -/
def Ipv4Text (s : Bytes) : Prop := (s.splitOn dot).length = 4 ∧ ∀ p ∈ s.splitOn dot, Octet p

instance (s : Bytes) : Decidable (Ipv4Text s) := inferInstanceAs (Decidable (_ ∧ _))

def isHexDigit (c : UInt8) : Bool := (48 ≤ c && c ≤ 57) || (97 ≤ c && c ≤ 102) || (65 ≤ c && c ≤ 70)

/-- One to four hexadecimal digits. -/
def isHexGroup (s : Bytes) : Bool := 1 ≤ s.length && s.length ≤ 4 && s.all isHexDigit

/-- The 16-bit groups that the fields between colons stand for; the last field may be an IPv4 address if `quad` says so. -/
def groupCount (quad : Bool) : List Bytes → Option Nat
  | [] => some 0
  | [s] => if isHexGroup s then some 1 else if quad && decide (Ipv4Text s) then some 2 else none
  | s :: rest => if isHexGroup s then (groupCount quad rest).map (· + 1) else none

/-- One side of a `::`, which may be empty. -/
def sideCount (quad : Bool) (s : Bytes) : Option Nat := if s = [] then some 0 else groupCount quad (s.splitOn colon)

/-- Eight groups, or a `::` that stands for one or more of them. -/
def Ipv6Text (s : Bytes) : Prop :=
  match find [colon, colon] s with
  | none => groupCount true (s.splitOn colon) = some 8
  | some i => ∃ m ∈ sideCount false (s.take i), ∃ n ∈ sideCount true (s.drop (i + 2)), m + n ≤ 7

instance (s : Bytes) : Decidable (Ipv6Text s) := by
  unfold Ipv6Text
  split <;> infer_instance

def isZoneCharacter (c : UInt8) : Bool :=
  (48 ≤ c && c ≤ 57) || (97 ≤ c && c ≤ 122) || (65 ≤ c && c ≤ 90) || c == hyphen || c == dot || c == colon

/-- A `%` and one or more characters, or nothing. -/
def ZoneText (s : Bytes) : Prop := s = [] ∨ ∃ z, s = percent :: z ∧ z ≠ [] ∧ z.all isZoneCharacter = true

theorem zoneText_cons (c : UInt8) (z : Bytes) : ZoneText (c :: z) ↔ c = percent ∧ z ≠ [] ∧ z.all isZoneCharacter = true := by
  simp [ZoneText, and_assoc]

instance : ∀ s : Bytes, Decidable (ZoneText s)
  | [] => .isTrue (.inl rfl)
  | c :: z => decidable_of_iff _ (zoneText_cons c z).symm

/-- An IPv6 address with or without a zone. -/
def ScopedText (s : Bytes) : Prop := ∃ a z, s = a ++ z ∧ Ipv6Text a ∧ ZoneText z

/-! ## The code -/

/-- The platform's conversions. -/
structure Inet where
  pton4 : Bytes → Option Bytes
  pton6 : Bytes → Option Bytes
  ntop6 : Bytes → Bytes

/-- `c_str()`, as a reader of it sees it. -/
def cString (s : Bytes) : Bytes := s.takeWhile (· ≠ 0)

/-- The value of the digits of a component; `none` at a character that is none. -/
def digitsValue : Nat → Bytes → Option Nat
  | value, [] => some value
  | value, c :: rest => if c < 48 || c > 57 then none else digitsValue (value * 10 + (c.toNat - 48)) rest

def validComponent (component : Bytes) : Bool :=
  let length := component.length
  if length = 0 || length > 3 || (length > 1 && component.head? == some 48) then false
  else
    match digitsValue 0 component with
    | none => false
    | some value => !(value > 255)

/-- The loop of `net_is_ip` over the characters, with the component it is in and `componentCount`. -/
def scanIpv4 : Bytes → Nat → Bytes → Option Nat
  | component, componentCount, [] => if validComponent component then some (componentCount + 1) else none
  | component, componentCount, c :: rest =>
    if c ≠ dot then scanIpv4 (component ++ [c]) componentCount rest
    else if validComponent component then scanIpv4 [] (componentCount + 1) rest
    else none

/-- `net_is_ip` -/
def netIsIp (inet : Inet) (input : Bytes) : Nat :=
  if !input.isEmpty && scanIpv4 [] 0 input == some 4 then 4
  else
    match find [percent] input with
    | none => if (inet.pton6 (cString input)).isSome then 6 else 0
    | some zoneStart =>
      if zoneStart + 1 ≥ input.length then 0
      else if !(input.drop (zoneStart + 1)).all isZoneCharacter then 0
      else if (inet.pton6 (cString (input.take zoneStart))).isSome then 6
      else 0

/-! ## IPv4 -/

theorem digitsValue_digits {ds : List Nat} (h : ∀ d ∈ ds, d < 10) (value : Nat) :
    digitsValue value (ds.map (fun d => UInt8.ofNat (48 + d))) = some (ofDigits 10 value ds) := by
  induction ds generalizing value with
  | nil => rfl
  | cons d ds ih =>
    have hd : d < 10 := h d (by simp)
    have hnat : (UInt8.ofNat (48 + d)).toNat = 48 + d := by rw [UInt8.toNat_ofNat']; omega
    have hrange : ¬ (UInt8.ofNat (48 + d) < 48 || UInt8.ofNat (48 + d) > 57) := by
      simp only [UInt8.lt_iff_toNat_lt, gt_iff_lt, hnat, Bool.or_eq_true, decide_eq_true_eq, not_or]
      exact ⟨by simp, by simp; omega⟩
    rw [map_cons, digitsValue, if_neg hrange, hnat, Nat.add_sub_cancel_left, ih (fun e he => h e (by simp [he]))]
    rfl

theorem digits_of_digitsValue {s : Bytes} : ∀ {value n : Nat}, digitsValue value s = some n →
    ∃ ds : List Nat, (∀ d ∈ ds, d < 10) ∧ s = ds.map (fun d => UInt8.ofNat (48 + d)) ∧ n = ofDigits 10 value ds := by
  induction s with
  | nil =>
    intro value n h
    cases h; exact ⟨[], by simp, rfl, rfl⟩
  | cons c s ih =>
    intro value n h
    rw [digitsValue] at h
    split at h
    · cases h
    · next hc =>
      simp only [UInt8.lt_iff_toNat_lt, gt_iff_lt, Bool.or_eq_true, decide_eq_true_eq, not_or, Nat.not_lt] at hc
      have hlow : 48 ≤ c.toNat := hc.1
      have hhigh : c.toNat ≤ 57 := hc.2
      obtain ⟨ds, hds, rfl, rfl⟩ := ih h
      refine ⟨(c.toNat - 48) :: ds, ?_, ?_, rfl⟩
      · intro d hd
        rcases mem_cons.1 hd with rfl | hd
        · omega
        · exact hds d hd
      · rw [map_cons, Nat.add_sub_cancel' hlow, UInt8.ofNat_toNat]

theorem head?_digits {ds : List Nat} (h : ∀ d ∈ ds, d < 10) :
    (ds.map (fun d => UInt8.ofNat (48 + d))).head? = some 48 ↔ ds.head? = some 0 := by
  cases ds with
  | nil => simp
  | cons d ds =>
    have hd : d < 10 := h d (by simp)
    simp only [map_cons, head?_cons, Option.some.injEq, ← UInt8.toNat_inj, UInt8.toNat_ofNat']
    show (48 + d) % 256 = 48 ↔ d = 0; omega

theorem validComponent_iff : validComponent s = true ↔ Octet s := by
  unfold validComponent
  dsimp only
  constructor
  · intro h
    split at h
    · cases h
    next hlength =>
    split at h
    · cases h
    next n hn =>
    obtain ⟨ds, hds, rfl, rfl⟩ := digits_of_digitsValue hn
    simp only [length_map, Bool.or_eq_true, decide_eq_true_eq, Bool.and_eq_true, not_or, not_and, beq_iff_eq,
      head?_digits hds] at hlength
    have hne : ds ≠ [] := by intro hnil; simp [hnil] at hlength
    have hhead : ds.head? = some 0 → ds.length = 1 := by
      intro h0
      have hpos := length_pos_iff.2 hne
      by_contra hone
      exact hlength.2 (by omega) h0
    refine ⟨ofDigits 10 0 ds, by simp at h; omega, ?_⟩
    rw [decimal, digitsOf_ofDigits (by omega) hne hds hhead]
  · rintro ⟨n, hn, rfl⟩
    have hds : ∀ d ∈ digitsOf 10 n, d < 10 := fun d hd => lt_of_mem_digitsOf (by omega) hd
    have hvalue : digitsValue 0 (decimal n) = some n := by
      rw [decimal, digitsValue_digits hds, ofDigits_digitsOf]
    have hshort : (digitsOf 10 n).length ≤ 3 := by
      have h255 : digitsOf 10 (ofDigits 10 0 [2, 5, 5]) = [2, 5, 5] := digitsOf_ofDigits (by omega) (by simp) (by simp) (by simp)
      have hle := length_digitsOf_mono 10 (show n ≤ ofDigits 10 0 [2, 5, 5] by simp only [ofDigits, List.foldl]; omega)
      rwa [h255] at hle
    have hlong : (digitsOf 10 n).length ≠ 0 := by simp [digitsOf_ne_nil]
    have hcheck : ¬ ((decimal n).length = 0 ∨ (decimal n).length > 3 ∨ (decimal n).length > 1 ∧ (decimal n).head? = some 48) := by
      simp only [decimal, length_map, head?_digits hds]
      rintro (h | h | ⟨h, h0⟩)
      · exact hlong h
      · omega
      · have := head?_digitsOf (by omega) h0; omega
    rw [if_neg (by simpa [or_assoc] using hcheck), hvalue]
    simp only [Bool.not_eq_true', decide_eq_false_iff_not]; omega

theorem scanIpv4_eq (component : Bytes) (n : Nat) (h : dot ∉ component) : scanIpv4 component n s =
      if ∀ p ∈ (component ++ s).splitOn dot, Octet p then some (n + ((component ++ s).splitOn dot).length) else none := by
  induction s generalizing component n with
  | nil => rw [append_nil, splitOn_eq_singleton h, scanIpv4]; simp [validComponent_iff]
  | cons c s ih =>
    rw [scanIpv4]
    by_cases hc : c = dot
    · subst hc
      rw [if_neg (by simp), ih [] (n + 1) (by simp), splitOn_append_cons_self_of_not_mem h]
      by_cases hv : Octet component
      · simp [validComponent_iff, hv, Nat.add_comm, Nat.add_left_comm]
      · simp [validComponent_iff, hv]
    · rw [if_pos hc, ih (component ++ [c]) n (by simp [h, Ne.symm hc]), append_assoc, singleton_append]

theorem isIpv4_iff : (!s.isEmpty && scanIpv4 [] 0 s == some 4) = true ↔ Ipv4Text s := by
  rw [scanIpv4_eq s [] 0 (by simp), nil_append, Ipv4Text]
  by_cases hall : ∀ p ∈ s.splitOn dot, Octet p
  · rw [if_pos hall]
    have hne : (s.splitOn dot).length = 4 → s ≠ [] := by rintro hl rfl; simp at hl
    simp only [Bool.and_eq_true, Bool.not_eq_true', beq_iff_eq, Nat.zero_add, Option.some.injEq]
    constructor
    · exact fun h => ⟨h.2, hall⟩
    · exact fun h => ⟨by simpa using hne h.1, h.1⟩
  · rw [if_neg hall]; simp [hall]

/-! ## IPv6 -/

/-- Characters of an address without a zone. -/
def plainCharacter (c : UInt8) : Bool := isHexDigit c || c == colon || c == dot

theorem mem_splitOn (sep : UInt8) {c : UInt8} {s : Bytes} (h : c ∈ s) : c = sep ∨ ∃ p ∈ s.splitOn sep, c ∈ p := by
  induction s with
  | nil => simp at h
  | cons x s ih =>
    rw [splitOn_cons_eq_if_modifyHead]
    split
    · next hx =>
      rcases mem_cons.1 h with rfl | h
      · exact .inl (by simpa using hx)
      · rcases ih h with rfl | ⟨p, hp, hc⟩
        · exact .inl rfl
        · exact .inr ⟨p, by simp [hp], hc⟩
    · obtain ⟨q, qs, hs⟩ := exists_cons_of_ne_nil (splitOn_ne_nil sep s)
      rw [hs, modifyHead_cons]
      rcases mem_cons.1 h with rfl | h
      · exact .inr ⟨c :: q, by simp, by simp⟩
      · rcases ih h with rfl | ⟨p, hp, hc⟩
        · exact .inl rfl
        · rw [hs] at hp
          rcases mem_cons.1 hp with rfl | hp
          · exact .inr ⟨x :: p, by simp, by simp [hc]⟩
          · exact .inr ⟨p, by simp [hp], hc⟩

theorem digit_of_octet {s : Bytes} (h : Octet s) {c : UInt8} (hc : c ∈ s) : isHexDigit c = true ∧ c ≠ colon := by
  obtain ⟨n, -, rfl⟩ := h
  obtain ⟨d, hd, rfl⟩ := mem_map.1 hc
  have hlt : d < 10 := lt_of_mem_digitsOf (by omega) hd
  revert hlt
  clear hd hc
  revert d; decide

theorem Ipv4Text.plain {s : Bytes} (h : Ipv4Text s) {c : UInt8} (hc : c ∈ s) : plainCharacter c = true ∧ c ≠ colon := by
  rcases mem_splitOn dot hc with rfl | ⟨p, hp, hc⟩
  · decide
  · obtain ⟨hd, hn⟩ := digit_of_octet (h.2 p hp) hc; exact ⟨by simp [plainCharacter, hd], hn⟩

theorem groupCount_plain {quad : Bool} {ps : List Bytes} {n : Nat} (h : groupCount quad ps = some n) :
    ∀ p ∈ ps, ∀ c ∈ p, plainCharacter c = true := by
  have hgroup : ∀ {p : Bytes}, isHexGroup p = true → ∀ c ∈ p, plainCharacter c = true := by
    intro p hp c hc; simp only [isHexGroup, Bool.and_eq_true, all_eq_true] at hp; simp [plainCharacter, hp.2 c hc]
  fun_induction groupCount quad ps generalizing n with
  | case1 => simp
  | case2 s hs => simpa using hgroup hs
  | case3 s hs hq =>
    simp only [Bool.and_eq_true, decide_eq_true_eq] at hq; simpa using fun c hc => (hq.2.plain hc).1
  | case4 | case6 => cases h
  | case5 s rest hrest hs ih =>
    obtain ⟨m, hm, -⟩ := Option.map_eq_some_iff.1 h
    intro p hp
    rcases mem_cons.1 hp with rfl | hp
    · exact hgroup hs
    · exact ih hm p hp

theorem plain_of_groupCount {quad : Bool} {s : Bytes} {n : Nat} (h : groupCount quad (s.splitOn colon) = some n) :
    ∀ c ∈ s, plainCharacter c = true := by
  intro c hc
  rcases mem_splitOn colon hc with rfl | ⟨p, hp, hc⟩
  · decide
  · exact groupCount_plain h p hp c hc

theorem plain_of_sideCount {quad : Bool} {s : Bytes} {n : Nat} (h : sideCount quad s = some n) : ∀ c ∈ s, plainCharacter c = true := by
  unfold sideCount at h
  split at h
  · next hs => simp [hs]
  · exact plain_of_groupCount h

theorem Ipv6Text.plain {s : Bytes} (h : Ipv6Text s) : ∀ c ∈ s, plainCharacter c = true := by
  unfold Ipv6Text at h
  split at h
  · exact plain_of_groupCount h
  · next i hi =>
    obtain ⟨m, hm, n, hn, -⟩ := h
    obtain ⟨hat, -⟩ := find_split hi
    obtain ⟨rest, hrest⟩ := hat
    have hdrop : s.drop (i + 2) = rest := by rw [← drop_drop, ← hrest]; rfl
    intro c hc
    rw [← take_append_drop i s, ← hrest] at hc
    rcases mem_append.1 hc with hc | hc
    · exact plain_of_sideCount hm c hc
    · rcases mem_append.1 hc with hc | hc
      · simp only [mem_cons, not_mem_nil, or_false, or_self] at hc; subst hc; decide
      · exact plain_of_sideCount hn c (hdrop ▸ hc)

theorem Ipv6Text.colon_mem {s : Bytes} (h : Ipv6Text s) : colon ∈ s := by
  unfold Ipv6Text at h
  split at h
  · by_contra hc
    rw [splitOn_eq_singleton hc, groupCount] at h
    split at h
    · simp at h
    · split at h <;> simp at h
  · next i hi =>
    obtain ⟨hat, -⟩ := find_split hi; exact mem_of_mem_drop (hat.subset (by simp))

theorem Ipv6Text.not_mem {s : Bytes} (h : Ipv6Text s) {c : UInt8} (hc : plainCharacter c = false) : c ∉ s := by
  intro hm; rw [h.plain c hm] at hc; cases hc

theorem Ipv6Text.not_ipv4 {s z : Bytes} (h : Ipv6Text s) : ¬ Ipv4Text (s ++ z) := by
  intro h4; exact (h4.plain (mem_append_left z h.colon_mem)).2 rfl

/-! ## The answer -/

/-- What is before the first `%`, and from there on. -/
def beforeZone (s : Bytes) : Bytes := s.takeWhile (· ≠ percent)
def zone (s : Bytes) : Bytes := s.dropWhile (· ≠ percent)

theorem beforeZone_append_zone : beforeZone s ++ zone s = s := takeWhile_append_dropWhile

theorem not_mem_cString : 0 ∉ cString s := by
  intro h; simpa using mem_takeWhile_imp h

theorem cString_eq {s : Bytes} (h : 0 ∉ s) : cString s = s := by
  refine takeWhile_eq_self_iff.2 (fun c hc => ?_)
  have : c ≠ 0 := fun h0 => h (h0 ▸ hc)
  simpa using this

theorem cut_of_find : match find [percent] s with
    | none => beforeZone s = s ∧ zone s = []
    | some i => beforeZone s = s.take i ∧ zone s = percent :: s.drop (i + 1) := by
  split
  · next h =>
    have hall : ∀ c ∈ s, decide (c ≠ percent) = true := by
      intro c hc
      have : c ≠ percent := fun heq => not_mem_of_find h (heq ▸ hc)
      simpa using this
    exact ⟨takeWhile_eq_self_iff.2 hall, dropWhile_eq_nil_iff.2 hall⟩
  · next i h =>
    obtain ⟨hcut, hi⟩ := find_cut h
    have hall : ∀ c ∈ s.take i, decide (c ≠ percent) = true := by
      intro c hc
      have : c ≠ percent := fun heq => hi (heq ▸ hc)
      simpa using this
    constructor
    · conv_lhs => rw [beforeZone, hcut]
      rw [takeWhile_append_of_pos hall]; simp
    · conv_lhs => rw [zone, hcut]
      rw [dropWhile_append_of_pos hall]; simp

/-- What the platform must do: it accepts the IPv6 texts among those without a NUL. -/
def Inet.Accepts (inet : Inet) : Prop := ∀ t : Bytes, 0 ∉ t → ((inet.pton6 t).isSome = true ↔ Ipv6Text t)

variable {inet : Inet}

theorem netIsIp_eq (h : inet.Accepts) (s : Bytes) :
    netIsIp inet s = if Ipv4Text s then 4 else if Ipv6Text (cString (beforeZone s)) ∧ ZoneText (zone s) then 6 else 0 := by
  have hpton : ∀ t, (inet.pton6 (cString t)).isSome = true ↔ Ipv6Text (cString t) := fun t => h _ (not_mem_cString t)
  have hcut := cut_of_find s
  unfold netIsIp
  by_cases h4 : Ipv4Text s
  · rw [if_pos ((isIpv4_iff s).2 h4), if_pos h4]
  rw [if_neg (fun h => h4 ((isIpv4_iff s).1 h)), if_neg h4]
  split at hcut
  · next hf =>
    obtain ⟨hb, hz⟩ := hcut
    rw [hb, hz]
    have hzone : ZoneText [] := .inl rfl
    simp only [hpton, hzone, and_true]
  · next i hf =>
    obtain ⟨hb, hz⟩ := hcut
    rw [hb, hz]
    have hzone : ZoneText (percent :: s.drop (i + 1)) ↔ ¬ i + 1 ≥ s.length ∧ (s.drop (i + 1)).all isZoneCharacter = true := by
      have hnil : s.drop (i + 1) = [] ↔ i + 1 ≥ s.length := by simp
      rw [← hnil]
      constructor
      · rintro (h | ⟨z, hz, hne, hall⟩)
        · cases h
        · cases hz; exact ⟨hne, hall⟩
      · rintro ⟨hne, hall⟩; exact .inr ⟨_, rfl, hne, hall⟩
    by_cases hend : i + 1 ≥ s.length
    · rw [if_pos hend, if_neg (fun h => (hzone.1 h.2).1 hend)]
    rw [if_neg hend]
    by_cases hall : (s.drop (i + 1)).all isZoneCharacter = true
    · have hz : ZoneText (percent :: s.drop (i + 1)) := hzone.2 ⟨hend, hall⟩
      simp only [hall, Bool.not_true, Bool.false_eq_true, if_false, hpton, hz, and_true]
    · rw [if_pos (by simpa using hall), if_neg (fun h => hall (hzone.1 h.2).2)]

theorem scopedText_iff (s : Bytes) : ScopedText s ↔ Ipv6Text (beforeZone s) ∧ ZoneText (zone s) := by
  constructor
  · rintro ⟨a, z, rfl, ha, hz⟩
    have hplain : ∀ c ∈ a, decide (c ≠ percent) = true := by
      intro c hc
      have : c ≠ percent := fun heq => ha.not_mem (c := percent) (by decide) (heq ▸ hc)
      simpa using this
    rw [beforeZone, zone, takeWhile_append_of_pos hplain, dropWhile_append_of_pos hplain]
    rcases hz with rfl | ⟨z, rfl, hne, hall⟩
    · simp [ha, ZoneText]
    · simp only [ne_eq, decide_not, takeWhile_cons, decide_true, Bool.not_true, Bool.false_eq_true, if_false, append_nil,
        dropWhile_cons]
      exact ⟨ha, .inr ⟨z, rfl, hne, hall⟩⟩
  · rintro ⟨ha, hz⟩; exact ⟨beforeZone s, zone s, (beforeZone_append_zone s).symm, ha, hz⟩

/-- What `net_is_ip` is to answer. -/
def Answers4Or6 (answer : Nat) (s : Bytes) : Prop :=
  (answer = 4 ↔ Ipv4Text s) ∧ (answer = 6 ↔ ScopedText s) ∧ (answer = 0 ↔ ¬ Ipv4Text s ∧ ¬ ScopedText s)

/-- A NUL before the zone, if there is one, cuts an address off. -/
def CutShort (s : Bytes) : Prop := ∃ a cut z, s = a ++ (0 :: cut) ++ z ∧ percent ∉ cut ∧ Ipv6Text a ∧ ZoneText z

theorem cutShort_iff (s : Bytes) : CutShort s ↔ 0 ∈ beforeZone s ∧ Ipv6Text (cString (beforeZone s)) ∧ ZoneText (zone s) := by
  constructor
  · rintro ⟨a, cut, z, rfl, hcut, ha, hz⟩
    have hplain : ∀ c ∈ a ++ 0 :: cut, decide (c ≠ percent) = true := by
      intro c hc
      have : c ≠ percent := by
        rintro rfl
        rcases mem_append.1 hc with hc | hc
        · exact ha.not_mem (by decide) hc
        · rcases mem_cons.1 hc with hc | hc
          · exact absurd hc (by decide)
          · exact hcut hc
      simpa using this
    have hzero : ∀ c ∈ a, decide (c ≠ 0) = true := by
      intro c hc
      have : c ≠ 0 := fun heq => ha.not_mem (c := 0) (by decide) (heq ▸ hc)
      simpa using this
    have hbefore : beforeZone (a ++ 0 :: cut ++ z) = a ++ 0 :: cut ∧ zone (a ++ 0 :: cut ++ z) = z := by
      rw [beforeZone, zone, takeWhile_append_of_pos hplain, dropWhile_append_of_pos hplain]
      rcases hz with rfl | ⟨z, rfl, -, -⟩ <;> simp
    rw [hbefore.1, hbefore.2, cString, takeWhile_append_of_pos hzero]; simp [ha, hz]
  · rintro ⟨hmem, ha, hz⟩
    obtain ⟨cut, hcut⟩ : ∃ cut, beforeZone s = cString (beforeZone s) ++ 0 :: cut := by
      have hsplit : cString (beforeZone s) ++ (beforeZone s).dropWhile (· ≠ 0) = beforeZone s := takeWhile_append_dropWhile
      cases hd : (beforeZone s).dropWhile (· ≠ 0) with
      | nil => rw [hd, append_nil] at hsplit; exact absurd (hsplit ▸ hmem) (not_mem_cString _)
      | cons c cut =>
        have hc : c = 0 := by
          have := head?_dropWhile_not (· ≠ (0 : UInt8)) (beforeZone s); rw [hd] at this; simpa using this
        exact ⟨cut, by rw [← hc, ← hd, hsplit]⟩
    refine ⟨cString (beforeZone s), cut, zone s, by rw [← hcut, beforeZone_append_zone], fun hm => ?_, ha, hz⟩
    have hin : percent ∈ beforeZone s := hcut ▸ by simp [hm]
    simpa using mem_takeWhile_imp hin

/-- **`net_is_ip` answers by the grammars**, just when no NUL cuts an address off. -/
theorem is_ip_grammar (h : inet.Accepts) (s : Bytes) : Answers4Or6 (netIsIp inet s) s ↔ ¬ CutShort s := by
  rw [netIsIp_eq h, cutShort_iff, Answers4Or6, scopedText_iff]
  by_cases h4 : Ipv4Text s
  · have hno : ¬ Ipv6Text (cString (beforeZone s)) ∧ ¬ Ipv6Text (beforeZone s) := by
      constructor <;> intro h6
      · obtain ⟨rest, hrest⟩ := takeWhile_prefix (l := beforeZone s) (· ≠ (0 : UInt8))
        have hs : cString (beforeZone s) ++ (rest ++ zone s) = s := by
          rw [← append_assoc, show cString (beforeZone s) ++ rest = beforeZone s from hrest, beforeZone_append_zone]
        exact h6.not_ipv4 (hs.symm ▸ h4)
      · exact h6.not_ipv4 ((beforeZone_append_zone s).symm ▸ h4)
    simp [h4, hno]
  by_cases h0 : 0 ∈ beforeZone s
  · have hno : ¬ Ipv6Text (beforeZone s) := fun h6 => h6.not_mem (by decide) h0
    simp only [h4, h0, hno, if_false, false_and, iff_false, true_and, not_false_eq_true, iff_true]
    split <;> next hc => simp [hc]
  · rw [cString_eq h0]
    simp only [h4, h0, if_false, false_and, not_false_eq_true, iff_true, true_and, iff_false]
    split <;> next hc => simp [hc]

/-- Conversions that know the texts, and of the addresses `::1` and `127.0.0.1`. -/
def localhost : Inet where
  pton4 s := if Ipv4Text s then some [127, 0, 0, 1] else none
  pton6 s := if Ipv6Text s then some [0, 0, 0, 0, 0, 0, 0, 0, 0, 0, 0, 0, 0, 0, 0, 1] else none
  ntop6 _ := [colon, colon, 49]

theorem accepts_localhost : localhost.Accepts := by
  intro t _
  simp only [localhost]
  split <;> simp [*]

theorem ipv6Text_localhost : Ipv6Text [colon, colon, 49] := by
  have hsplit : [(49 : UInt8)].splitOn colon = [[49]] := splitOn_eq_singleton (by decide)
  simp only [Ipv6Text, show find [colon, colon] [colon, colon, 49] = some 0 from rfl]
  refine ⟨0, rfl, 1, ?_, by omega⟩
  simp [sideCount, hsplit, groupCount, isHexGroup, isHexDigit]

/-- `::1%a` -/
theorem is_ip_grammar_zone :
    Answers4Or6 (netIsIp localhost [colon, colon, 49, percent, 97]) [colon, colon, 49, percent, 97] ∧
      ScopedText [colon, colon, 49, percent, 97] := by
  refine ⟨(is_ip_grammar accepts_localhost _).2 ?_, [colon, colon, 49], [percent, 97], rfl, ipv6Text_localhost, by decide⟩
  rw [cutShort_iff]
  rintro ⟨h, -⟩; exact absurd h (by decide)

/-- `::1`, a NUL and an `x`. -/
theorem is_ip_grammar_nul : localhost.Accepts ∧ netIsIp localhost [colon, colon, 49, 0, 120] = 6 ∧
    ¬ Ipv4Text [colon, colon, 49, 0, 120] ∧ ¬ ScopedText [colon, colon, 49, 0, 120] := by
  have hno : ¬ Ipv4Text [colon, colon, 49, 0, 120] := Ipv6Text.not_ipv4 (z := [0, 120]) ipv6Text_localhost
  refine ⟨accepts_localhost, ?_, hno, ?_⟩
  · have hcut : cString (beforeZone [colon, colon, 49, 0, 120]) = [colon, colon, 49] := by decide
    rw [netIsIp_eq accepts_localhost, if_neg hno, hcut, if_pos ⟨ipv6Text_localhost, by decide⟩]
  · rw [scopedText_iff]
    rintro ⟨h, -⟩; exact h.not_mem (c := 0) (by decide) (by decide)

end NodeCompat.Net
