import NodeCompat.Web.UriComponent

/-!
# `URLSearchParams`

The parameters of a query: a list of names and values, read from text and written to it. The writer replaces in what
`encodeURIComponent` returns, one character after the other, and no replacement meets what another has written
(`encode_eq`), so what is written is read back (`create_toString`). The reader takes every text whose percent signs begin
the escapes of characters, and no other (`create_isSome`).
-/

namespace NodeCompat.Web

open List

/-- The entries: `paramNames` and `paramValues`, pair by pair. -/
abbrev URLSearchParams := List (Text × Text)

namespace URLSearchParams

/-! ## Reading and writing -/

variable {c : Char}

variable (params : URLSearchParams)

variable (s : Text)

def decode (value : Text) : Option Text := decodeURIComponent (join [' '] (split ['+'] value))

def encode (value : Text) : Text :=
  let value := join ['+'] (split (chars "%20") (encodeURIComponent value))
  let value := join (chars "%21") (split ['!'] value)
  let value := join (chars "%27") (split ['\''] value)
  let value := join (chars "%28") (split ['('] value)
  let value := join (chars "%29") (split [')'] value)
  join (chars "%7E") (split ['~'] value)

/-- One round of the constructor's loop. -/
def pushPart (params : URLSearchParams) (part : Text) : Option URLSearchParams :=
  if part = [] then some params
  else
    match find ['='] part with
    | none => (decode part).map fun name => params ++ [(name, [])]
    | some eq => (decode (part.take eq)).bind fun name =>
        (decode (part.drop (eq + 1))).map fun value => params ++ [(name, value)]

/-- `new URLSearchParams(query)`; no object is the `URIError` that `decode` throws. -/
def create (query : Text) : Option URLSearchParams :=
  let q := if query.head? = some '?' then query.tail else query
  if q = [] then some [] else (split ['&'] q).foldlM pushPart []

def partOf (entry : Text × Text) : Text := encode entry.1 ++ ['='] ++ encode entry.2

def toString (params : URLSearchParams) : Text := join ['&'] (params.map partOf)

/-! ## One character of a component -/

/-- What `encode` writes for a character. -/
def formChar (c : Char) : Text :=
  if c = ' ' then ['+']
  else if (chars "!'()~").contains c then (String.utf8EncodeChar c).flatMap escapeByte
  else encodeChar c

theorem replace_escapes : ∀ {bs : Bytes}, 0x20 ∉ bs → ∀ s : Text,
    join ['+'] (split (chars "%20") (bs.flatMap escapeByte ++ s)) =
      bs.flatMap escapeByte ++ join ['+'] (split (chars "%20") s)
  | [], _, s => rfl
  | b :: bs, hbs, s => by
    simp only [mem_cons, not_or] at hbs
    have hb : b.toNat < 256 := b.toNat_lt
    have hx : digitValue (escapeDigit (b.toNat / 16)) = some (b.toNat / 16) := digitValue_escapeDigit (by omega)
    have hy : digitValue (escapeDigit (b.toNat % 16)) = some (b.toNat % 16) := digitValue_escapeDigit (by omega)
    have hpercent : digitValue '%' = none := by decide
    have hne : ∀ {c : Char} {n : Nat}, digitValue c = some n → c ≠ '%' := by
      rintro c n hc rfl; rw [hpercent] at hc; cases hc
    rw [flatMap_cons, escapeByte, append_assoc]
    simp only [cons_append, nil_append]
    rw [replace_skip (by decide), replace_skip (by decide), replace_skip (by decide), replace_escapes hbs.2]
    · exact fun h => hne hy (cons_prefix_cons.1 h).1.symm
    · exact fun h => hne hx (cons_prefix_cons.1 h).1.symm
    · intro h
      have h₂ := (cons_prefix_cons.1 (cons_prefix_cons.1 h).2)
      have hhi : b.toNat / 16 = 2 := by rw [← h₂.1] at hx; exact (Option.some.inj hx).symm
      have hlo : b.toNat % 16 = 0 := by
        rw [← (cons_prefix_cons.1 h₂.2).1] at hy; exact (Option.some.inj hy).symm
      exact hbs.1 (UInt8.toNat_inj.1 (show (0x20 : UInt8).toNat = b.toNat by
        have : (0x20 : UInt8).toNat = 32 := rfl
        omega))

theorem blank_not_mem (hc : c ≠ ' ') : 0x20 ∉ String.utf8EncodeChar c := by
  have hv : c.val.toNat < 0x110000 := by
    rcases c.valid with h | h <;> omega
  have hne : c.val.toNat ≠ 32 := fun h => hc (Char.toNat_inj.1 h)
  have hlt : ∀ n : Nat, 32 < n → n < 256 → (0x20 : UInt8) ≠ UInt8.ofNat n := by
    intro n h₁ h₂ h
    have := congrArg UInt8.toNat h
    rw [UInt8.toNat_ofNat', Nat.mod_eq_of_lt h₂] at this
    have hblank : (0x20 : UInt8).toNat = 32 := rfl
    omega
  unfold String.utf8EncodeChar
  dsimp only
  split_ifs <;> simp only [mem_cons, not_mem_nil, or_false, not_or]
  · intro h
    have := congrArg UInt8.toNat h
    rw [UInt8.toNat_ofNat', Nat.mod_eq_of_lt (by omega)] at this; exact hne this.symm
  · exact ⟨hlt _ (by omega) (by omega), hlt _ (by omega) (by omega)⟩
  · exact ⟨hlt _ (by omega) (by omega), hlt _ (by omega) (by omega), hlt _ (by omega) (by omega)⟩
  · exact ⟨hlt _ (by omega) (by omega), hlt _ (by omega) (by omega), hlt _ (by omega) (by omega),
      hlt _ (by omega) (by omega)⟩

theorem replace_blanks : join ['+'] (split (chars "%20") (encodeURIComponent s)) =
    s.flatMap (fun c => if c = ' ' then ['+'] else encodeChar c) := by
  unfold encodeURIComponent
  induction s with
  | nil => rfl
  | cons c s ih =>
    rw [flatMap_cons, flatMap_cons, ← ih]
    by_cases hc : c = ' '
    · have hblank : encodeChar ' ' = chars "%20" := by decide
      rw [hc, if_pos rfl, hblank, replace_here (by decide)]
    · rw [if_neg hc, encodeChar]
      split
      · next hu =>
        refine replace_skip (by decide) _ ?_
        intro h; rw [← (cons_prefix_cons.1 h).1] at hu; exact absurd hu (by decide)
      · exact replace_escapes (blank_not_mem hc) _

theorem not_mem_escapes (hc : c ≠ '%') (hdigit : digitValue c = none) (bs : Bytes) : c ∉ bs.flatMap escapeByte := by
  intro h
  rcases (spells_escapeByte bs).mem h with h | h
  · exact hc h
  · rw [hdigit] at h; cases h

theorem encode_eq : encode s = s.flatMap formChar := by
  unfold encode
  rw [replace_blanks]
  simp only [join_split, flatMap_assoc]
  refine congrArg (fun f => s.flatMap f) (funext fun c => ?_)
  by_cases hspecial : c = ' ' ∨ c ∈ chars "!'()~"
  · rcases hspecial with rfl | h
    · decide
    · have hall : (chars "!'()~").all (fun c => formChar c =
          (((((if c = ' ' then ['+'] else encodeChar c).flatMap (fun d => if d = '!' then chars "%21" else [d])).flatMap
            (fun d => if d = '\'' then chars "%27" else [d])).flatMap
            (fun d => if d = '(' then chars "%28" else [d])).flatMap
            (fun d => if d = ')' then chars "%29" else [d])).flatMap (fun d => if d = '~' then chars "%7E" else [d])) := by
        decide
      have := of_decide_eq_true (all_eq_true.1 hall c h); simpa only [flatMap_assoc] using this.symm
  · rw [not_or] at hspecial
    have hout : (chars "!'()~").contains c = false := by simpa using hspecial.2
    have hnot : ∀ d ∈ chars "!'()~", d ∉ encodeChar c := by
      intro d hd hmem
      have hall : (chars "!'()~").all (fun d => d ≠ '%' ∧ digitValue d = none) := by decide
      obtain ⟨h₁, h₂⟩ := of_decide_eq_true (all_eq_true.1 hall d hd)
      rw [encodeChar] at hmem
      split at hmem
      · rw [mem_singleton] at hmem; exact hspecial.2 (hmem ▸ hd)
      · exact not_mem_escapes h₁ h₂ _ hmem
    rw [if_neg hspecial.1, formChar, if_neg hspecial.1, hout]
    simp only [← flatMap_assoc, Bool.false_eq_true, if_false]
    rw [replace_not_mem (hnot _ (by decide)), replace_not_mem (hnot _ (by decide)), replace_not_mem (hnot _ (by decide)),
      replace_not_mem (hnot _ (by decide)), replace_not_mem (hnot _ (by decide))]

/-! ## The round trip -/

/-- `+` read as a blank. -/
def unplus (s : Text) : Text := s.map (fun c => if c = '+' then ' ' else c)

theorem decode_eq (value : Text) : decode value = decodeURIComponent (unplus value) := by
  have h : join [' '] (split ['+'] value) = unplus value := by
    rw [join_split, unplus]
    induction value with
    | nil => rfl
    | cons c value ih =>
      rw [flatMap_cons, map_cons, ih]
      split <;> rfl
  rw [decode, h]

theorem unplus_not_mem {s : Text} (h : '+' ∉ s) : unplus s = s := by
  have hid : ∀ c ∈ s, (if c = '+' then ' ' else c) = c := by
    intro c hc
    rw [if_neg]
    rintro rfl; exact h hc
  exact (map_congr_left hid).trans (map_id _)

theorem decodes_formChar (c : Char) : Decodes (unplus (formChar c)) [c] := by
  have hdigit : digitValue '+' = none := by decide
  have hescapes : ∀ bs : Bytes, unplus (bs.flatMap escapeByte) = bs.flatMap escapeByte := fun bs =>
    unplus_not_mem (not_mem_escapes (by decide) hdigit bs)
  have hescape := Decodes.escape (c := c) (spells_escapeByte _) Decodes.nil
  rw [append_nil] at hescape
  unfold formChar
  split_ifs with h₁
  · subst h₁; exact .plain (by decide) .nil
  · rw [hescapes]; exact hescape
  · rw [encodeChar]
    split
    · next hu =>
      have hne : c ≠ '+' ∧ c ≠ '%' := by
        constructor <;> (rintro rfl; exact absurd hu (by decide))
      rw [unplus, map_singleton, if_neg hne.1]; exact .plain hne.2 .nil
    · rw [hescapes]; exact hescape

theorem decode_encode : decode (encode s) = some s := by
  rw [decode_eq, encode_eq, decodeURIComponent_eq_some]
  induction s with
  | nil => exact .nil
  | cons c s ih => rw [flatMap_cons, unplus, map_append]; exact (decodes_formChar c).append ih

/-- The characters of an encoded component. -/
def isFormChar (c : Char) : Bool := c.isAlphanum || (chars "-_.*+%").contains c

theorem isFormChar_of_digit (h : (digitValue c).isSome) : isFormChar c = true := by
  have halnum : c.isAlphanum = true := by
    unfold digitValue at h
    delta Char.isAlphanum Char.isAlpha Char.isUpper Char.isLower Char.isDigit
    simp only [Bool.or_eq_true, Bool.and_eq_true, decide_eq_true_eq]
    simp only [UInt32.le_iff_toNat_le, ge_iff_le]
    split_ifs at h with h₁ h₂ h₃
    · exact .inr h₁
    · exact .inl (.inl ⟨h₂.1, Nat.le_trans h₂.2 (by decide)⟩)
    · exact .inl (.inr ⟨h₃.1, Nat.le_trans h₃.2 (by decide)⟩)
    · cases h
  rw [isFormChar, halnum, Bool.true_or]

theorem isFormChar_encode : (encode s).all isFormChar = true := by
  rw [encode_eq, all_eq_true]
  intro d hd
  obtain ⟨c, -, hd⟩ := mem_flatMap.1 hd
  have hescapes : ∀ bs : Bytes, d ∈ bs.flatMap escapeByte → isFormChar d = true := by
    intro bs h
    rcases (spells_escapeByte bs).mem h with rfl | h
    · decide
    · exact isFormChar_of_digit h
  unfold formChar at hd
  split_ifs at hd with h₁ h₂
  · rw [mem_singleton.1 hd]; decide
  · exact hescapes _ hd
  · rw [encodeChar] at hd
    split at hd
    · next hu =>
      rw [mem_singleton.1 hd]
      rcases Bool.or_eq_true _ _ |>.mp hu with hu | hu
      · rw [isFormChar, hu, Bool.true_or]
      · have hall : (chars "-_.!~*'()").all (fun c => (chars "!'()~").contains c || isFormChar c) = true := by decide
        have := all_eq_true.1 hall c (contains_iff_mem.1 hu)
        exact (Bool.or_eq_true _ _ |>.mp this).resolve_left h₂
    · exact hescapes _ hd

theorem not_mem_encode (hc : isFormChar c = false) (s : Text) : c ∉ encode s := by
  intro h; rw [all_eq_true.1 (isFormChar_encode s) c h] at hc; cases hc

theorem not_mem_partOf (hc : isFormChar c = false) (heq : c ≠ '=') (e : Text × Text) : c ∉ partOf e := by
  simp only [partOf, mem_append, mem_singleton, not_or]
  exact ⟨⟨not_mem_encode hc _, heq⟩, not_mem_encode hc _⟩

theorem not_mem_toString (hc : isFormChar c = false) (heq : c ≠ '=') (hamp : c ≠ '&') (params : URLSearchParams) :
    c ∉ params.toString := by
  intro h
  rcases mem_join h with h | ⟨p, hp, h⟩
  · exact hamp (mem_singleton.1 h)
  · obtain ⟨e, -, rfl⟩ := mem_map.1 hp; exact not_mem_partOf hc heq e h

theorem partOf_ne_nil (e : Text × Text) : partOf e ≠ [] := by simp [partOf]

theorem pushPart_partOf (e : Text × Text) : pushPart params (partOf e) = some (params ++ [e]) := by
  have hfind : find ['='] (partOf e) = some (encode e.1).length := by
    rw [partOf, append_assoc]; exact find_single (not_mem_encode (by decide) _)
  have htake : (partOf e).take (encode e.1).length = encode e.1 := by
    rw [partOf, append_assoc, take_left]
  have hdrop : (partOf e).drop ((encode e.1).length + 1) = encode e.2 := by
    exact drop_left' (by simp)
  rw [pushPart, if_neg (partOf_ne_nil e), hfind]
  dsimp only; rw [htake, hdrop, decode_encode, decode_encode]; rfl

theorem pushParts_partOf (entries : List (Text × Text)) : ∀ params : URLSearchParams,
    (entries.map partOf).foldlM pushPart params = some (params ++ entries) := by
  induction entries with
  | nil =>
    intro params; rw [append_nil]; rfl
  | cons e entries ih =>
    intro params; rw [map_cons, foldlM_cons, pushPart_partOf]; exact (ih _).trans (by rw [append_assoc]; rfl)

theorem toString_eq_nil {params : URLSearchParams} : params.toString = [] ↔ params = [] := by
  constructor
  · intro h
    cases params with
    | nil => rfl
    | cons e es =>
      have hne := partOf_ne_nil e
      cases es <;> simp [toString, join, hne] at h
  · rintro rfl; rfl

theorem pushParts_toString {params : URLSearchParams} (h : params ≠ []) :
    (split ['&'] params.toString).foldlM pushPart [] = some params := by
  have hne : params.map partOf ≠ [] := fun hnil => h (map_eq_nil_iff.1 hnil)
  have hamp : ∀ p ∈ params.map partOf, '&' ∉ p := by
    intro p hp
    obtain ⟨e, -, rfl⟩ := mem_map.1 hp; exact not_mem_partOf (by decide) (by decide) e
  rw [toString, split_join hne hamp, pushParts_partOf]; rfl

theorem toString_head : params.toString.head? ≠ some '?' := fun h =>
  not_mem_toString (by decide) (by decide) (by decide) params (mem_of_head? h)

/-- What is written is read back: the same pairs, in the same order. -/
theorem create_toString (params : URLSearchParams) : create params.toString = some params := by
  unfold create
  rw [if_neg (toString_head params)]
  dsimp only
  split
  · next h => rw [toString_eq_nil.1 h]
  · next h => exact pushParts_toString fun hnil => h (toString_eq_nil.2 hnil)

example : create (chars "?%26=1+2&&a%3D~=%C3%A9=") = some [(chars "&", chars "1 2"), (chars "a=~", chars "é=")] := by
  decide +kernel

/-! ## What is accepted -/

theorem wellEscaped_unplus {s : Text} : WellEscaped (unplus s) ↔ WellEscaped s := by
  have hplus : digitValue '+' = none := by decide
  have hblank : digitValue ' ' = none := by decide
  constructor
  · rintro ⟨t, h⟩
    generalize hu : unplus s = u at h
    induction h generalizing s with
    | nil => rw [map_eq_nil_iff.1 hu]; exact ⟨[], .nil⟩
    | @plain c u t hc _ ih =>
      obtain ⟨d, s', rfl, hd, hs'⟩ := map_eq_cons_iff.1 hu
      obtain ⟨t', ht'⟩ := ih hs'
      refine ⟨d :: t', .plain ?_ ht'⟩
      rintro rfl; exact hc (hd.symm.trans (if_neg (by decide)))
    | @escape c g u t hg _ ih =>
      obtain ⟨g', s', rfl, hg', hs'⟩ := map_eq_append_iff.1 hu
      obtain ⟨t', ht'⟩ := ih hs'
      have hno : '+' ∉ g' := by
        intro hmem
        have hmem' : ' ' ∈ g := hg' ▸ mem_map.2 ⟨'+', hmem, rfl⟩
        rcases hg.mem hmem' with h | h
        · exact absurd h (by decide)
        · rw [hblank] at h; cases h
      have hsame : g' = g := (unplus_not_mem hno).symm.trans hg'
      exact ⟨c :: t', .escape (hsame ▸ hg) ht'⟩
  · rintro ⟨t, h⟩
    induction h with
    | nil => exact ⟨[], .nil⟩
    | @plain c s t hc hs ih =>
      obtain ⟨t', ih⟩ := ih
      refine ⟨_, .plain (c := if c = '+' then ' ' else c) ?_ ih⟩
      split
      · decide
      · exact hc
    | @escape c g s t hg hs ih =>
      obtain ⟨t', ih⟩ := ih
      have hg' : unplus g = g := unplus_not_mem fun hmem => by
        rcases hg.mem hmem with h | h
        · exact absurd h (by decide)
        · rw [hplus] at h; cases h
      refine ⟨c :: t', ?_⟩
      rw [unplus, map_append]
      have := Decodes.escape hg ih; rwa [← hg'] at this

theorem decode_isSome (value : Text) : (decode value).isSome ↔ WellEscaped value := by
  rw [decode_eq, ← wellEscaped_iff, wellEscaped_unplus]

theorem pushPart_isSome (part : Text) : (pushPart params part).isSome ↔ WellEscaped part := by
  unfold pushPart
  split
  · next h =>
    subst h; exact iff_of_true rfl wellEscaped_nil
  · cases hf : find ['='] part with
    | none => rw [Option.isSome_map, decode_isSome]
    | some eq =>
      obtain ⟨hs, -⟩ := find_cut hf
      have hcut := wellEscaped_append (c := '=') (by decide) (by decide) (part.take eq) (part.drop (eq + 1))
      rw [← hs, ← decode_isSome (part.take eq), ← decode_isSome (part.drop (eq + 1))] at hcut
      rw [hcut]
      dsimp only
      generalize decode (part.take eq) = name
      generalize decode (part.drop (eq + 1)) = value
      cases name <;> cases value <;> simp

theorem pushParts_isSome (parts : List Text) : ∀ params : URLSearchParams,
    (parts.foldlM pushPart params).isSome ↔ ∀ p ∈ parts, WellEscaped p := by
  induction parts with
  | nil => intro params; exact iff_of_true rfl (by simp)
  | cons part parts ih =>
    intro params
    have hpart := pushPart_isSome params part
    rw [foldlM_cons, forall_mem_cons]
    cases hp : pushPart params part with
    | none => rw [hp] at hpart; exact iff_of_false (by simp) fun h => absurd (hpart.2 h.1) (by simp)
    | some params' => rw [hp] at hpart; exact (ih params').trans (and_iff_right (hpart.1 rfl)).symm

theorem create_isSome (query : Text) : (create query).isSome ↔ WellEscaped query := by
  have hstrip : WellEscaped (if query.head? = some '?' then query.tail else query) ↔ WellEscaped query := by
    split
    · next h =>
      obtain ⟨q, rfl⟩ := head?_eq_some_iff.1 h; exact (wellEscaped_cons (by decide) (by decide) q).symm
    · rfl
  rw [← hstrip]
  unfold create
  generalize (if query.head? = some '?' then query.tail else query) = q
  dsimp only
  split
  · next h =>
    rw [h]; exact iff_of_true rfl wellEscaped_nil
  · rw [pushParts_isSome, ← wellEscaped_split (by decide) (by decide) _ _ rfl]

end URLSearchParams
end NodeCompat.Web
