import NodeCompat.Web.Multipart

/-!
# The multipart body is read back

The decoder looks for delimiters, header ends and parameters in one flat string. What makes it the inverse of the encoder:

- an escaped name ends at its closing quote and unescapes to itself, but for CR and LF, whose escapes stay
  (`escapeMultipartQuoted_eq`, `quotedValue_escape`), so both parameters of a disposition are found
  (`multipartParameter_name`, `multipartParameter_filename`);
- a delimiter starts with the only CR in it, so the search neither accepts a place inside the header lines nor passes
  over the real delimiter after rejecting one (`findMultipartBoundary_at`);
- the rest is the induction over the entries (`parseParts_entries`).
-/

namespace NodeCompat.Web

open List Option

/-! ## Escaped names -/

variable {header rest s wanted : Text}

variable (name : Text)

variable (fileName : Option Text)

/-- The escape that the scanner of quoted strings takes off. -/
def escapeChar (c : Char) : Text := if c = '\\' ∨ c = '"' then ['\\', c] else [c]

/-- The escape of CR and LF, which nobody takes off. -/
def percentChar (c : Char) : Text := if c = '\r' then chars "%0D" else if c = '\n' then chars "%0A" else [c]

def percentCrlf (s : Text) : Text := s.flatMap percentChar

theorem escapeMultipartQuoted_eq (s : Text) : escapeMultipartQuoted s = (percentCrlf s).flatMap escapeChar := by
  simp only [escapeMultipartQuoted, percentCrlf, join_split, List.flatMap_assoc]
  refine congrArg (s.flatMap ·) (funext fun c => ?_)
  by_cases hb : c = '\\'
  · subst hb; decide
  by_cases hq : c = '"'
  · subst hq; decide
  by_cases hr : c = '\r'
  · subst hr; decide
  by_cases hn : c = '\n'
  · subst hn; decide
  simp [escapeChar, percentChar, hb, hq, hr, hn]

theorem percentCrlf_eq_self (hr : '\r' ∉ s) (hn : '\n' ∉ s) : percentCrlf s = s := by
  unfold percentCrlf
  induction s with
  | nil => rfl
  | cons c s ih =>
    rw [mem_cons, not_or] at hr hn
    rw [flatMap_cons, ih hr.2 hn.2, percentChar, if_neg (Ne.symm hr.1), if_neg (Ne.symm hn.1)]; rfl

theorem not_mem_percentCrlf {c : Char} (hc : c = '\r' ∨ c ∉ s ∧ c ∉ chars "%0D%0A") : c ∉ percentCrlf s := by
  intro h
  obtain ⟨d, hd, hcd⟩ := mem_flatMap.1 h
  have hall : c ∉ percentChar d := by
    obtain rfl | ⟨hs, hp⟩ := hc
    · unfold percentChar
      split
      · decide
      · split
        · decide
        · next hne _ => exact fun hmem => hne (mem_singleton.1 hmem).symm
    · unfold percentChar
      split
      · exact fun hmem => hp (mem_append_left (chars "%0A") hmem)
      · split
        · exact fun hmem => hp (mem_append_right (chars "%0D") hmem)
        · exact fun hmem => hs (mem_singleton.1 hmem ▸ hd)
  exact hall hcd

theorem cr_not_mem_escape (h : '\r' ∉ s) : '\r' ∉ s.flatMap escapeChar := by
  intro hr
  obtain ⟨d, hd, hcd⟩ := mem_flatMap.1 hr
  unfold escapeChar at hcd
  split at hcd
  · obtain hcd | hcd := mem_cons.1 hcd
    · exact absurd hcd (by decide)
    · exact h (mem_singleton.1 hcd ▸ hd)
  · exact h (mem_singleton.1 hcd ▸ hd)

theorem quotedValue_escape (rest : Text) : ∀ s : Text, quotedValue (s.flatMap escapeChar ++ '"' :: rest) = (s, rest)
  | [] => rfl
  | c :: s => by
    have ih := quotedValue_escape rest s
    rw [List.flatMap_cons, escapeChar]
    split
    · rw [List.append_assoc, List.cons_append, List.cons_append, List.nil_append]; simp only [quotedValue, ih]
    · next hc =>
      rw [not_or] at hc
      rw [List.append_assoc, List.cons_append, List.nil_append, quotedValue, ih]
      · exact hc.2
      · intro d r hd; exact absurd hd hc.1

/-! ## Parameters -/

theorem parameterValue_quoted (s rest : Text) :
    parameterValue ('"' :: (s.flatMap escapeChar ++ '"' :: rest)) = (s, rest) := quotedValue_escape rest s

theorem parameterRound_named {word after : Text} (hsep : word.head?.any isSeparator = false) (hword : word ≠ [])
    (heq : '=' ∉ word) (hsemi : ';' ∉ word) :
    parameterRound (' ' :: word ++ '=' :: after) =
      .parameter (toLowerCase (trim word)) (parameterValue after).1 (parameterValue after).2 := by
  have hdrop : (' ' :: word ++ '=' :: after).dropWhile isSeparator = word ++ '=' :: after := by
    obtain ⟨c, w, rfl⟩ := List.exists_cons_of_ne_nil hword
    have hc : isSeparator c = false := hsep
    rw [List.cons_append, List.dropWhile_cons_of_pos (by decide), List.cons_append,
      List.dropWhile_cons_of_neg (by simp [hc])]
  have he : find ['='] (word ++ '=' :: after) = some word.length := find_single heq
  have htake : (word ++ '=' :: after).take word.length = word := List.take_left
  have hafter : (word ++ '=' :: after).drop (word.length + 1) = after := by
    rw [← List.drop_drop, List.drop_left]; rfl
  unfold parameterRound
  dsimp only
  rw [hdrop, he]
  dsimp only
  have hskip := find_skip_of_ne (p := []) (s := '=' :: after) hsemi
  split
  · rw [parameterAt, htake, hafter]
  · next k hk =>
    rw [hskip] at hk
    obtain ⟨j, -, rfl⟩ := Option.map_eq_some_iff.1 hk
    rw [if_neg (by omega), parameterAt, htake, hafter]

theorem parameterRound_passed {word : Text} {e : Nat} (hsep : word.head?.any isSeparator = false) (hword : word ≠ [])
    (hsemi : ';' ∉ word) (heq : '=' ∉ word) (he : find ['='] rest = some e) :
    parameterRound (word ++ ';' :: rest) = .again rest := by
  have hdrop : (word ++ ';' :: rest).dropWhile isSeparator = word ++ ';' :: rest := by
    obtain ⟨c, w, rfl⟩ := List.exists_cons_of_ne_nil hword
    have hc : isSeparator c = false := hsep
    rw [List.cons_append, List.dropWhile_cons_of_neg (by simp [hc])]
  have hf : find ['='] (word ++ ';' :: rest) = some (e + (word ++ [';']).length) := by
    have hnot : '=' ∉ word ++ [';'] := by simpa using heq
    have := find_skip_of_ne (p := []) (s := rest) hnot; rw [he] at this; simpa using this
  have hrest : (word ++ ';' :: rest).drop (word.length + 1) = rest := by
    rw [← List.drop_drop, List.drop_left]; rfl
  unfold parameterRound
  dsimp only
  rw [hdrop, hf, find_single hsemi]
  simp only [List.length_append, List.length_singleton]; rw [if_pos (by omega), hrest]

theorem multipartParameter_again (h : parameterRound header = .again rest) :
    multipartParameter header wanted = multipartParameter rest wanted := by
  rw [multipartParameter]
  split <;> rename_i hr <;> rw [h] at hr <;> cases hr
  rfl

theorem multipartParameter_found {name value : Text}
    (h : parameterRound header = .parameter name value rest) (hn : name = toLowerCase wanted) :
    multipartParameter header wanted = some value := by
  rw [multipartParameter]
  split <;> rename_i hr <;> rw [h] at hr <;> cases hr
  rw [if_pos hn]

theorem multipartParameter_other {name value : Text}
    (h : parameterRound header = .parameter name value rest) (hn : name ≠ toLowerCase wanted) :
    multipartParameter header wanted =
      match find [';'] rest with
      | none => none
      | some next => multipartParameter (rest.drop (next + 1)) wanted := by
  rw [multipartParameter]
  split <;> rename_i hr <;> rw [h] at hr <;> cases hr
  cases find [';'] rest with
  | none | some next => exact if_neg hn

/-- The parameter ` filename="..."`, or nothing. -/
def filenameParameter : Option Text → Text
  | none => []
  | some f => ';' :: (' ' :: chars "filename" ++ '=' :: '"' :: (f.flatMap escapeChar ++ '"' :: []))

/-- The value of a `Content-Disposition` header. -/
def dispositionOf (name : Text) (fileName : Option Text) : Text :=
  chars "form-data" ++ ';' :: (' ' :: chars "name" ++ '=' :: '"' ::
    (name.flatMap escapeChar ++ '"' :: filenameParameter fileName))

theorem parameterRound_name (rest : Text) :
    parameterRound (' ' :: chars "name" ++ '=' :: '"' :: (name.flatMap escapeChar ++ '"' :: rest)) =
      .parameter (chars "name") name rest := by
  rw [parameterRound_named (by decide) (by decide) (by decide) (by decide), parameterValue_quoted]
  rfl

theorem parameterRound_filename (f rest : Text) :
    parameterRound (' ' :: chars "filename" ++ '=' :: '"' :: (f.flatMap escapeChar ++ '"' :: rest)) =
      .parameter (chars "filename") f rest := by
  rw [parameterRound_named (by decide) (by decide) (by decide) (by decide), parameterValue_quoted]
  rfl

theorem multipartParameter_disposition (wanted : Text) : multipartParameter (dispositionOf name fileName) wanted =
      multipartParameter (' ' :: chars "name" ++ '=' :: '"' ::
        (name.flatMap escapeChar ++ '"' :: filenameParameter fileName)) wanted := by
  have he : find ['='] (' ' :: chars "name" ++ '=' :: '"' :: (name.flatMap escapeChar ++ '"' :: filenameParameter fileName))
      = some 5 := find_single (a := ' ' :: chars "name") (by decide)
  exact multipartParameter_again (parameterRound_passed (by decide) (by decide) (by decide) (by decide) he)

theorem multipartParameter_name : multipartParameter (dispositionOf name fileName) (chars "name") = some name := by
  rw [multipartParameter_disposition]
  exact multipartParameter_found (parameterRound_name _ _) (by decide)

theorem multipartParameter_filename :
    multipartParameter (dispositionOf name fileName) (chars "filename") = fileName := by
  rw [multipartParameter_disposition, multipartParameter_other (parameterRound_name _ _) (by decide)]
  cases fileName with
  | none => rfl
  | some f =>
    have hf : find [';'] (filenameParameter (some f)) = some 0 := find_zero (by simp [filenameParameter])
    rw [hf]; exact multipartParameter_found (parameterRound_filename f []) (by decide)

theorem disposition_type :
    toLowerCase (trim ((split [';'] (dispositionOf name fileName)).headD [])) = chars "form-data" := by
  have hf : find [';'] (dispositionOf name fileName) = some 9 := find_single (a := chars "form-data") (by decide)
  rw [split_some (by decide) hf, List.headD_cons]
  have htake : (dispositionOf name fileName).take 9 = chars "form-data" := rfl
  rw [htake]; decide

/-! ## The boundary -/

theorem numberText_digit {n : Nat} {c : Char} (h : c ∈ numberText n) : ∃ d < 10, c = Char.ofNat (48 + d) := by
  obtain ⟨b, hb, rfl⟩ := List.mem_map.1 h
  obtain ⟨d, hd, rfl⟩ := List.mem_map.1 hb
  have hlt := lt_of_mem_digitsOf (by omega) hd
  refine ⟨d, hlt, ?_⟩
  have hmod : (UInt8.ofNat (48 + d)).toNat = 48 + d := by rw [UInt8.toNat_ofNat']; omega
  rw [hmod]

theorem not_mem_boundaryOf {c : Char} (n : Nat) (hc : c ∉ chars "----gea-formdata-")
    (hd : ∀ d < 10, Char.ofNat (48 + d) ≠ c) : c ∉ FormData.boundaryOf n := by
  intro h
  rcases mem_append.1 h with h | h
  · exact hc h
  · obtain ⟨d, hlt, rfl⟩ := numberText_digit h; exact hd d hlt rfl

open FormData

theorem trim_boundaryOf (n : Nat) : trim (FormData.boundaryOf n) = FormData.boundaryOf n := by
  have hne : numberText n ≠ [] := by
    simpa [numberText, latin1, decimal] using digitsOf_ne_nil 10 n
  obtain ⟨t, c, ht⟩ : ∃ t c, numberText n = t ++ [c] := ⟨_, _, (dropLast_append_getLast hne).symm⟩
  obtain ⟨d, hlt, hc⟩ := numberText_digit (show c ∈ numberText n by simp [ht])
  have hdigit : ∀ d < 10, isSpace (Char.ofNat (48 + d)) = false := by decide
  have hspace : isSpace c = false := by rw [hc]; exact hdigit d hlt
  have hshape : boundaryOf n = (chars "----gea-formdata-" ++ t) ++ [c] := by
    rw [boundaryOf, ht, append_assoc]
  have hdrop : (boundaryOf n).dropWhile isSpace = boundaryOf n := rfl
  rw [trim, hdrop, hshape, rdropWhile_concat_neg _ _ _ (by simp [hspace])]

theorem multipartBoundary_boundaryOf (n : Nat) :
    multipartBoundary (chars "multipart/form-data; boundary=" ++ FormData.boundaryOf n) = FormData.boundaryOf n := by
  have hsplit : chars "multipart/form-data; boundary=" ++ boundaryOf n =
      chars "multipart/form-data" ++ ';' :: (' ' :: chars "boundary" ++ '=' :: boundaryOf n) := rfl
  have hround : parameterRound (chars "multipart/form-data" ++ ';' :: (' ' :: chars "boundary" ++ '=' ::
      boundaryOf n)) = .again (' ' :: chars "boundary" ++ '=' :: boundaryOf n) :=
    parameterRound_passed (by decide) (by decide) (by decide) (by decide)
      (find_single (a := ' ' :: chars "boundary") (by decide))
  have hvalue : parameterValue (boundaryOf n) = (boundaryOf n, []) := by
    have hsemi : find [';'] (boundaryOf n) = none := by
      have hnot : ';' ∉ boundaryOf n := not_mem_boundaryOf n (by decide) (by decide)
      have := find_skip_of_ne (p := []) (s := []) hnot; simpa [find] using this
    have hstart : boundaryOf n = '-' :: (chars "---gea-formdata-" ++ numberText n) := rfl
    unfold parameterValue
    split
    · next rest hq =>
      rw [hstart] at hq; exact absurd hq (by simp)
    · rw [hsemi, trim_boundaryOf]
  have hnamed : parameterRound (' ' :: chars "boundary" ++ '=' :: boundaryOf n) = _ :=
    parameterRound_named (by decide) (by decide) (by decide) (by decide)
  rw [hvalue] at hnamed
  rw [hsplit, multipartBoundary, multipartParameter_again hround, multipartParameter_found hnamed (by decide)]
  rfl

/-! ## One part -/

namespace FormData

variable (name : Text)

variable (found : Text × Text)

variable (form : FormData)

def dispositionLine (name : Text) (fileName : Option Text) : Text :=
  chars "Content-Disposition" ++ ':' :: ' ' :: dispositionOf name fileName

def typeLine (type : Text) : Text :=
  chars "Content-Type" ++ ':' :: ' ' :: (if 0 < type.length then type else chars "application/octet-stream")

theorem headers_string (s : Text) : headers name (.string s) = dispositionLine (percentCrlf name) none := by
  rw [headers, escapeMultipartQuoted_eq, append_assoc]; rfl

theorem headers_file (f : File) :
    headers name (.file f) = dispositionLine (percentCrlf name) (some (percentCrlf f.name)) ++ crlf ++ typeLine f.type := by
  rw [headers, escapeMultipartQuoted_eq, escapeMultipartQuoted_eq]
  simp only [dispositionLine, dispositionOf, filenameParameter, typeLine, append_assoc, cons_append, nil_append]
  rfl

theorem cr_not_mem_dispositionLine {name : Text} {fileName : Option Text} (hn : '\r' ∉ name) (hf : ∀ f ∈ fileName, '\r' ∉ f) :
    '\r' ∉ dispositionLine name fileName := by
  have hfile : '\r' ∉ filenameParameter fileName := by
    cases fileName with
    | none => exact not_mem_nil
    | some f => have hesc := cr_not_mem_escape (hf f rfl); simp [filenameParameter, hesc, chars]
  have hesc := cr_not_mem_escape hn; simp [dispositionLine, dispositionOf, hesc, hfile, chars]

theorem cr_not_mem_disposition (fileName : Option Text) :
    '\r' ∉ dispositionLine (percentCrlf name) (fileName.map percentCrlf) := by
  refine cr_not_mem_dispositionLine (not_mem_percentCrlf (.inl rfl)) (fun f hf => ?_)
  obtain ⟨g, -, rfl⟩ := map_eq_some_iff.1 hf; exact not_mem_percentCrlf (.inl rfl)

theorem typeLine_printable (f : File) : (typeLine f.type).all isPrintable := by
  have hword : (chars "Content-Type").all isPrintable := by decide
  have hdefault : (chars "application/octet-stream").all isPrintable := by decide
  simp only [typeLine, all_cons, all_append, hword]
  split
  · rw [f.type_printable]; decide
  · rw [hdefault]; decide

theorem cr_not_mem {s : Text} (h : s.all isPrintable) : '\r' ∉ s := by
  intro hr
  have := List.all_eq_true.1 h _ hr; exact absurd this (by decide)

theorem headerLine_colon {name value : Text} (hne : name ≠ []) (hc : ':' ∉ name) :
    headerLine found (name ++ ':' :: value) =
      if toLowerCase (trim name) = chars "content-disposition" then (trim value, found.2)
      else if toLowerCase (trim name) = chars "content-type" then (found.1, trim value)
      else found := by
  have hf : find [':'] (name ++ ':' :: value) = some name.length := find_single hc
  have hpos := length_pos_iff.2 hne
  have hdrop : (name ++ ':' :: value).drop (name.length + 1) = value := by rw [← drop_drop, drop_left]; rfl
  unfold headerLine
  rw [hf]
  dsimp only; rw [if_neg (by omega), take_left, hdrop]

theorem trim_disposition (fileName : Option Text) :
    trim (' ' :: dispositionOf name fileName) = dispositionOf name fileName := by
  have hlast : (dispositionOf name fileName).getLast? = some '"' := by
    cases fileName with
    | none | some f => simp [dispositionOf, filenameParameter, List.getLast?_cons]
  exact trim_blank (by decide) (by decide) rfl hlast

theorem headerLine_disposition (name : Text) (fileName : Option Text) :
    headerLine found (dispositionLine name fileName) = (dispositionOf name fileName, found.2) := by
  rw [dispositionLine, headerLine_colon found (by decide) (by decide), if_pos (by decide), trim_disposition]

theorem headerLine_type (type : Text) : ∃ mediaType, headerLine found (typeLine type) = (found.1, mediaType) := by
  rw [typeLine, headerLine_colon found (by decide) (by decide), if_neg (by decide), if_pos (by decide)]
  exact ⟨_, rfl⟩

theorem find_crlf_none {s : Text} (h : '\r' ∉ s) : find crlf s = none := by
  have := find_skip_of_ne (p := ['\n']) (s := []) h; simpa [find, crlf] using this

theorem partHeaders_headers (value : EntryValue) : (partHeaders (headers name value)).1 =
    dispositionOf (percentCrlf name) (match value with | .string _ => none | .file f => some (percentCrlf f.name)) := by
  cases value with
  | string s =>
    have hr : '\r' ∉ dispositionLine (percentCrlf name) none := cr_not_mem_disposition name none
    rw [headers_string, partHeaders, split_none (by decide) (find_crlf_none hr), List.foldl_cons, List.foldl_nil,
      headerLine_disposition]
  | file f =>
    have hr : '\r' ∉ dispositionLine (percentCrlf name) (some (percentCrlf f.name)) := cr_not_mem_disposition name (some f.name)
    have ht : '\r' ∉ typeLine f.type := cr_not_mem (typeLine_printable f)
    have hfind : find crlf (dispositionLine (percentCrlf name) (some (percentCrlf f.name)) ++ crlf ++ typeLine f.type) =
        some (dispositionLine (percentCrlf name) (some (percentCrlf f.name))).length := by
      have := find_skip_of_ne (p := ['\n']) (s := crlf ++ typeLine f.type) hr
      have hzero : find ['\r', '\n'] (crlf ++ typeLine f.type) = some 0 := find_zero ⟨_, rfl⟩
      rw [hzero] at this; rw [List.append_assoc]; exact this.trans (by simp)
    have hsplit : split crlf (dispositionLine (percentCrlf name) (some (percentCrlf f.name)) ++ crlf ++ typeLine f.type) =
        [dispositionLine (percentCrlf name) (some (percentCrlf f.name)), typeLine f.type] := by
      rw [split_some (by decide) hfind, List.append_assoc, List.take_left, ← List.drop_drop, List.drop_left]
      rw [List.drop_left, split_none (by decide) (find_crlf_none ht)]
    obtain ⟨mediaType, hm⟩ := headerLine_type (dispositionOf (percentCrlf name) (some (percentCrlf f.name)), []) f.type
    rw [headers_file, partHeaders, hsplit, List.foldl_cons, List.foldl_cons, List.foldl_nil, headerLine_disposition, hm]

/-- Two values with the same text, or the same file name and bytes. -/
def Same : EntryValue → EntryValue → Prop
  | .string s, .string t => s = t
  | .file f, .file g => f.name = g.name ∧ f.data = g.data
  | _, _ => False

/-- How an entry is read back. -/
def ReadBack : Text × EntryValue → Text × EntryValue → Prop
  | (name, .string s), (name', .string t) => name' = percentCrlf name ∧ t = s
  | (name, .file f), (name', .file g) => name' = percentCrlf name ∧ g.name = percentCrlf f.name ∧ g.data = f.data
  | _, _ => False

theorem fileNameOf_flat {name : Text} (h : '/' ∉ name) : fileNameOf name = name := by
  rw [fileNameOf, join_split]
  induction name with
  | nil => rfl
  | cons c s ih =>
    simp only [List.mem_cons, not_or] at h
    rw [List.flatMap_cons, if_neg (fun hc => h.1 hc.symm), ih h.2]
    rfl

theorem addPart_entry (name : Text) (value : EntryValue) :
    ∃ entry, addPart form (headers name value) (content value) = form ++ [entry] ∧ ReadBack (name, value) entry := by
  have hd := partHeaders_headers name value
  unfold addPart
  dsimp only
  rw [hd, multipartParameter_name]
  dsimp only
  rw [if_pos (disposition_type _ _), multipartParameter_filename]
  cases value with
  | string s =>
    refine ⟨_, rfl, rfl, ?_⟩
    show decodeUtf8 (ofLatin1 (latin1 (utf8 s))) = s; rw [ofLatin1_latin1, decodeUtf8_utf8]
  | file f =>
    have hflat : '/' ∉ percentCrlf f.name := not_mem_percentCrlf (.inr ⟨f.name_flat, by decide⟩)
    refine ⟨_, rfl, rfl, ?_, ?_⟩
    · show fileNameOf (fileNameOf (percentCrlf f.name)) = percentCrlf f.name
      rw [fileNameOf_flat hflat, fileNameOf_flat hflat]
    · show ofLatin1 (latin1 f.data) = f.data; rw [ofLatin1_latin1]

/-! ## Delimiters -/

/-- What makes a delimiter line of a marker. -/
abbrev Closes (w : Text) : Prop := w = crlf ∨ w = chars "--"

theorem Closes.length {w : Text} (h : Closes w) : w.length = 2 := by
  rcases h with rfl | rfl <;> rfl

/-- No delimiter line starts in the first `k` characters of `s`. -/
def Clear (delimiter s : Text) (k : Nat) : Prop := ∀ n < k, ∀ w, Closes w → ¬ crlf ++ delimiter ++ w <+: s.drop n

/-- A marker in front of something that begins with CR cannot reach into it: its own CR is its first character. -/
theorem marker_stops {delimiter a s : Text} (hd : '\r' ∉ delimiter) (ha : a ≠ [])
    (h : crlf ++ delimiter <+: a ++ '\r' :: s) : (crlf ++ delimiter).length ≤ a.length := by
  by_contra hlt
  obtain ⟨r, hr⟩ : a <+: crlf ++ delimiter := prefix_of_prefix_length_le (prefix_append _ _) h (by omega)
  rw [← hr] at h
  have hrs : r <+: '\r' :: s := (prefix_append_right_inj a).1 h
  have hne : r ≠ [] := by
    rintro rfl; rw [append_nil] at hr; rw [hr] at hlt; exact hlt (Nat.le_refl _)
  obtain ⟨x, r', rfl⟩ := exists_cons_of_ne_nil hne
  obtain ⟨y, a', rfl⟩ := exists_cons_of_ne_nil ha
  have hx : x = '\r' := (cons_prefix_cons.1 hrs).1
  have htail : a' ++ x :: r' = '\n' :: delimiter := (List.cons.inj hr).2
  have hmem : '\r' ∈ '\n' :: delimiter := by rw [← htail, hx]; simp
  rcases mem_cons.1 hmem with hc | hc
  · exact absurd hc (by decide)
  · exact hd hc

/-- The search stops at the first delimiter line, whatever markers it rejects on the way. -/
theorem findMultipartBoundary_at {delimiter tail : Text} (hd : '\r' ∉ delimiter) (ht : Closes (tail.take 2)) :
    ∀ (k : Nat) (p : Text), p.length = k → Clear delimiter (p ++ (crlf ++ delimiter ++ tail)) p.length →
      findMultipartBoundary (p ++ (crlf ++ delimiter ++ tail)) delimiter = some (p.length + 2) := by
  intro k
  induction k using Nat.strongRecOn with
  | ind k ih =>
    intro p hp hclear
    set body := p ++ (crlf ++ delimiter ++ tail) with hbody
    have hreal : crlf ++ delimiter <+: body.drop p.length := by rw [hbody, drop_left]; exact prefix_append _ _
    have hlen : p.length ≤ body.length := by simp [hbody]
    obtain ⟨i, hi, hf⟩ := find_of_prefix hreal hlen
    have hocc := (find_split hf).1
    rw [findMultipartBoundary]
    split
    · next hn =>
      rw [hf] at hn; cases hn
    next j hj =>
    rw [hf] at hj
    cases hj
    dsimp only
    have hmark : i + 2 + delimiter.length = i + (crlf ++ delimiter).length := by
      simp only [crlf, length_append, length_cons, length_nil]; omega
    rw [hmark]
    rcases Nat.lt_or_eq_of_le hi with hlt | rfl
    · have hshort : (crlf ++ delimiter).length ≤ (p.drop i).length := by
        refine marker_stops (s := '\n' :: (delimiter ++ tail)) hd ?_ ?_
        · intro hc
          have := congrArg List.length hc; simp only [length_drop, length_nil] at this; omega
        · rw [hbody, drop_append_of_le_length hi] at hocc; exact hocc
      rw [length_drop] at hshort
      have hnot : ¬ Closes ((body.drop (i + (crlf ++ delimiter).length)).take 2) := by
        intro hc
        apply hclear i hlt _ hc
        obtain ⟨t, ht'⟩ := hocc
        rw [← drop_drop, ← ht', drop_left]
        exact (prefix_append_right_inj _).2 (List.take_prefix _ _)
      have hdrop : body.drop (i + (crlf ++ delimiter).length) =
          p.drop (i + (crlf ++ delimiter).length) ++ (crlf ++ delimiter ++ tail) := by
        rw [hbody, drop_append_of_le_length (by omega)]
      have hpos : 0 < (crlf ++ delimiter).length := by simp [crlf]
      have hrest : Clear delimiter (p.drop (i + (crlf ++ delimiter).length) ++ (crlf ++ delimiter ++ tail))
          (p.drop (i + (crlf ++ delimiter).length)).length := by
        intro n hn w hw
        rw [← hdrop, drop_drop]; rw [length_drop] at hn; exact hclear _ (by omega) w hw
      rw [if_neg hnot, hdrop, ih _ (by rw [length_drop]; omega) _ rfl hrest]
      simp only [map_some, length_drop]
      congr 1
      omega
    · have hdrop : body.drop (p.length + (crlf ++ delimiter).length) = tail := by
        rw [hbody, ← drop_drop, drop_left, drop_left]
      rw [hdrop, if_pos ht]

theorem Clear.line {delimiter line rest : Text} {k : Nat} (hl : '\r' ∉ line) (hr : rest.head? ≠ some '-')
    (h : Clear ('-' :: delimiter) rest k) : Clear ('-' :: delimiter) (line ++ (crlf ++ rest)) (line.length + 2 + k) := by
  intro n hn w hw hp
  rcases Nat.lt_or_ge n line.length with hlt | hge
  · rw [drop_append_of_le_length (by omega), drop_eq_getElem_cons hlt] at hp
    have hc : '\r' = line.get ⟨n, hlt⟩ := (cons_prefix_cons.1 hp).1
    exact hl (hc ▸ getElem_mem hlt)
  · obtain ⟨m, rfl⟩ : ∃ m, n = line.length + m := ⟨n - line.length, by omega⟩
    rw [← drop_drop, drop_left] at hp
    match m with
    | 0 =>
      have hdash : '-' :: (delimiter ++ w) <+: rest := by
        simpa [crlf, cons_prefix_cons] using hp
      obtain ⟨t, ht⟩ := hdash; exact hr (by rw [← ht]; rfl)
    | 1 => have hc : '\r' = '\n' := (cons_prefix_cons.1 hp).1; exact absurd hc (by decide)
    | m + 2 => exact h m (by omega) w hw hp

theorem Clear.content {delimiter v tail : Text} (hd : '\r' ∉ delimiter)
    (hv : ∀ w, Closes w → ¬ crlf ++ delimiter ++ w <:+: crlf ++ v ++ crlf) :
    Clear delimiter (crlf ++ v ++ (crlf ++ delimiter ++ tail)) (crlf ++ v).length := by
  intro n hn w hw hp
  rw [drop_append_of_le_length (by omega)] at hp
  have hne : (crlf ++ v).drop n ≠ [] := by
    intro hc
    have := congrArg List.length hc; simp only [length_drop, length_nil] at this; omega
  have hmark : (crlf ++ delimiter).length ≤ ((crlf ++ v).drop n).length :=
    marker_stops (s := '\n' :: (delimiter ++ tail)) hd hne ((prefix_append _ _).trans hp)
  have hin : crlf ++ delimiter ++ w <+: (crlf ++ v).drop n ++ crlf := by
    refine prefix_of_prefix_length_le hp ⟨delimiter ++ tail, by simp⟩ ?_
    have hc : crlf.length = 2 := rfl
    simp only [length_append, hw.length, hc] at hmark ⊢; omega
  apply hv w hw
  refine hin.isInfix.trans ?_
  exact ⟨(crlf ++ v).take n, [], by rw [append_nil, ← append_assoc, take_append_drop]⟩

/-- The header end of a part is the one the encoder wrote, and no delimiter line starts before the content's end. -/
structure Part (delimiter name : Text) (value : EntryValue) (tail : Text) : Prop where
  headerEnd : find (crlf ++ crlf) (headers name value ++ (crlf ++ (crlf ++ content value))) =
    some (headers name value).length
  clear : Clear delimiter (headers name value ++ (crlf ++ (crlf ++ content value ++ (crlf ++ delimiter ++ tail))))
    (headers name value ++ (crlf ++ (crlf ++ content value))).length

/-- What the encoder needs of an entry: printable names, and no delimiter line in the content. -/
structure Encodable (boundary : Text) (entry : Text × EntryValue) : Prop where
  name : entry.1.all isPrintable
  fileName : ∀ f, entry.2 = .file f → f.name.all isPrintable
  unframed : ∀ w, Closes w → ¬ crlf ++ (chars "--" ++ boundary) ++ w <:+: crlf ++ content entry.2 ++ crlf

/-- No delimiter line stands in the content of an entry. -/
def Unframed (boundary : Text) (value : EntryValue) : Prop :=
  ∀ w, Closes w → ¬ crlf ++ (chars "--" ++ boundary) ++ w <:+: crlf ++ content value ++ crlf

theorem find_emptyLine {line rest : Text} (hl : '\r' ∉ line) :
    find (crlf ++ crlf) (line ++ (crlf ++ (crlf ++ rest))) = some line.length := by
  have hskip := find_skip_of_ne (p := '\n' :: crlf) (s := crlf ++ (crlf ++ rest)) hl
  have hzero : find (crlf ++ crlf) (crlf ++ (crlf ++ rest)) = some 0 := find_zero ⟨rest, by simp⟩
  refine hskip.trans ?_
  rw [show find ('\r' :: '\n' :: crlf) (crlf ++ (crlf ++ rest)) = some 0 from hzero]; simp

theorem Unframed.part {boundary : Text} {value : EntryValue} (h : Unframed boundary value) (hb : '\r' ∉ boundary)
    (name tail : Text) : Part (chars "--" ++ boundary) name value tail := by
  have hd : '\r' ∉ chars "--" ++ boundary := by
    rw [mem_append, not_or]; exact ⟨by decide, hb⟩
  have hcrlf : crlf.length = 2 := rfl
  have hcontent := @Clear.content _ _ tail hd h
  cases value with
  | string s =>
    have hr : '\r' ∉ dispositionLine (percentCrlf name) none := cr_not_mem_disposition name none
    rw [show (chars "--" ++ boundary) = '-' :: ('-' :: boundary) from rfl] at hcontent ⊢
    constructor
    · rw [headers_string]; exact find_emptyLine hr
    · rw [headers_string]
      have hlen : (dispositionLine (percentCrlf name) none ++ (crlf ++ (crlf ++ content (.string s)))).length =
          (dispositionLine (percentCrlf name) none).length + 2 + (crlf ++ content (.string s)).length := by
        simp only [length_append, hcrlf]; omega
      rw [hlen]; exact hcontent.line hr (by simp [crlf])
  | file f =>
    have hr : '\r' ∉ dispositionLine (percentCrlf name) (some (percentCrlf f.name)) := cr_not_mem_disposition name (some f.name)
    have ht : '\r' ∉ typeLine f.type := cr_not_mem (typeLine_printable f)
    rw [show (chars "--" ++ boundary) = '-' :: ('-' :: boundary) from rfl] at hcontent ⊢
    constructor
    · rw [headers_file, append_assoc, append_assoc]
      have hskip := find_skip_of_ne (p := '\n' :: crlf)
        (s := crlf ++ (typeLine f.type ++ (crlf ++ (crlf ++ content (.file f))))) hr
      have hline : find (crlf ++ crlf) (crlf ++ (typeLine f.type ++ (crlf ++ (crlf ++ content (.file f))))) =
          some ((typeLine f.type).length + 2) := by
        rw [find_skip, find_emptyLine ht]
        · rfl
        · intro n hn hp
          match n, hn with
          | 0, _ =>
            have hc : '\r' = 'C' := by
              have := (cons_prefix_cons.1 ((cons_prefix_cons.1 hp).2)).2; exact (cons_prefix_cons.1 this).1
            exact absurd hc (by decide)
          | 1, _ => have hc : '\r' = '\n' := (cons_prefix_cons.1 hp).1; exact absurd hc (by decide)
      refine hskip.trans ?_
      rw [show find ('\r' :: '\n' :: crlf) (crlf ++ (typeLine f.type ++ (crlf ++ (crlf ++ content (.file f))))) = _ from
        hline]
      simp only [map_some, length_append, hcrlf]
      congr 1
      omega
    · rw [headers_file]
      have hlen : (dispositionLine (percentCrlf name) (some (percentCrlf f.name)) ++ crlf ++ typeLine f.type ++
            (crlf ++ (crlf ++ content (.file f)))).length =
          (dispositionLine (percentCrlf name) (some (percentCrlf f.name))).length + 2 +
            ((typeLine f.type).length + 2 + (crlf ++ content (.file f)).length) := by
        simp only [length_append, hcrlf]; omega
      rw [hlen, append_assoc, append_assoc]
      exact (hcontent.line ht (by simp [crlf])).line hr (by simp [typeLine, chars])

/-! ## The whole body -/

/-- What stands behind a delimiter, when `form` is still to come. -/
def afterDelimiter (boundary : Text) : FormData → Text
  | [] => chars "--" ++ crlf
  | (name, value) :: form =>
    crlf ++ (headers name value ++ (crlf ++ (crlf ++ content value ++
      (crlf ++ (chars "--" ++ boundary) ++ afterDelimiter boundary form))))

theorem encodeMultipart_body (serial : Nat) : (encodeMultipart form serial).body =
    chars "--" ++ boundaryOf (serial + 1) ++ afterDelimiter (boundaryOf (serial + 1)) form := by
  simp only [encodeMultipart]
  induction form with
  | nil => simp [afterDelimiter]
  | cons entry form ih =>
    simp only [flatMap_cons, append_assoc] at ih ⊢; rw [ih]; simp [afterDelimiter]

theorem closes_afterDelimiter (boundary : Text) : ∀ form : FormData, Closes ((afterDelimiter boundary form).take 2)
  | [] => .inr rfl
  | _ :: _ => .inl rfl

theorem parseParts_entries {boundary : Text} (hb : '\r' ∉ boundary) (form : FormData) : ∀ acc : FormData,
    (∀ e ∈ form, Unframed boundary e.2) →
      ∃ form', parseParts (chars "--" ++ boundary) acc (afterDelimiter boundary form) = .ok (acc ++ form') ∧
        List.Forall₂ ReadBack form form' := by
  induction form with
  | nil =>
    intro acc _
    refine ⟨[], ?_, .nil⟩
    have hdash : (afterDelimiter boundary []).take 2 = chars "--" := rfl
    rw [parseParts, if_pos hdash, append_nil]
  | cons entry form ih =>
    intro acc h
    obtain ⟨name, value⟩ := entry
    have hentry := h _ mem_cons_self
    have hd : '\r' ∉ chars "--" ++ boundary := by
      rw [mem_append, not_or]; exact ⟨by decide, hb⟩
    obtain ⟨hend, hclear⟩ := hentry.part hb name (afterDelimiter boundary form)
    set part := headers name value ++ (crlf ++ (crlf ++ content value)) with hpart
    have hsplit : headers name value ++ (crlf ++ (crlf ++ content value ++
        (crlf ++ (chars "--" ++ boundary) ++ afterDelimiter boundary form))) =
        part ++ (crlf ++ (chars "--" ++ boundary) ++ afterDelimiter boundary form) := by
      simp [hpart]
    rw [hsplit] at hclear
    have hnext := findMultipartBoundary_at hd (closes_afterDelimiter boundary form) _ part rfl hclear
    have hdrop : (part ++ (crlf ++ (chars "--" ++ boundary) ++ afterDelimiter boundary form)).drop
        (part.length + 2 + (chars "--" ++ boundary).length) = afterDelimiter boundary form := by
      have hlen : part.length + 2 + (chars "--" ++ boundary).length =
          part.length + (crlf ++ (chars "--" ++ boundary)).length := by
        simp only [length_append, show crlf.length = 2 from rfl]; omega
      rw [hlen, ← drop_drop, drop_left, drop_left]
    have hbody : part.drop ((headers name value).length + 4) = content value := by
      rw [hpart, ← drop_drop, drop_left]; rfl
    obtain ⟨entry, hadd, hback⟩ := addPart_entry acc name value
    obtain ⟨form', hparse, hall⟩ := ih (acc ++ [entry]) (fun e he => h e (mem_cons_of_mem _ he))
    refine ⟨entry :: form', ?_, .cons hback hall⟩
    rw [afterDelimiter, hsplit, parseParts, if_neg (by simp [crlf, chars]), dif_neg (by simp [crlf])]
    rw [show (crlf ++ (part ++ (crlf ++ (chars "--" ++ boundary) ++ afterDelimiter boundary form))).drop 2 =
      part ++ (crlf ++ (chars "--" ++ boundary) ++ afterDelimiter boundary form) from rfl, hnext]
    dsimp only
    rw [Nat.add_sub_cancel, take_left, hend]
    dsimp only
    rw [hdrop, hbody, show part.take (headers name value).length = headers name value from take_left, hadd, hparse,
      append_assoc]
    rfl

theorem parseMultipart_encode (serial : Nat) (h : ∀ e ∈ form, Unframed (boundaryOf (serial + 1)) e.2) :
    ∃ form', parseMultipart (encodeMultipart form serial).body
        (chars "multipart/form-data; boundary=" ++ (encodeMultipart form serial).boundary) = .ok form' ∧
      List.Forall₂ ReadBack form form' := by
  have hb : '\r' ∉ boundaryOf (serial + 1) := not_mem_boundaryOf _ (by decide) (by decide)
  obtain ⟨form', hparse, hall⟩ := parseParts_entries hb form [] h
  refine ⟨form', ?_, hall⟩
  rw [encodeMultipart_body, show (encodeMultipart form serial).boundary = boundaryOf (serial + 1) from rfl, parseMultipart]
  simp only [multipartBoundary_boundaryOf]
  rw [if_neg (by simp [boundaryOf, chars]), if_pos (prefix_append _ _)]
  dsimp only; rw [Nat.zero_add, drop_left]; exact hparse

theorem percentCrlf_printable {s : Text} (h : s.all isPrintable) : percentCrlf s = s := by
  have hn : '\n' ∉ s := by
    intro hn
    have := List.all_eq_true.1 h _ hn; exact absurd this (by decide)
  exact percentCrlf_eq_self (cr_not_mem h) hn

theorem ReadBack.same {boundary : Text} {e e' : Text × EntryValue} (h : ReadBack e e') (he : Encodable boundary e) :
    e.1 = e'.1 ∧ Same e.2 e'.2 := by
  obtain ⟨name, value⟩ := e
  obtain ⟨name', value'⟩ := e'
  cases value with
  | string s =>
    cases value' with
    | string t => exact ⟨(h.1.trans (percentCrlf_printable he.name)).symm, h.2.symm⟩
    | file g => exact h.elim
  | file f =>
    cases value' with
    | string t => exact h.elim
    | file g =>
      obtain ⟨hn, hf, hd⟩ := h
      exact ⟨(hn.trans (percentCrlf_printable he.name)).symm, (hf.trans (percentCrlf_printable (he.fileName f rfl))).symm, hd.symm⟩

/-- **The multipart round trip.** -/
theorem multipart_round_trip (form : FormData) (serial : Nat)
    (h : ∀ e ∈ form, Encodable (encodeMultipart form serial).boundary e) :
    ∃ form', parseMultipart (encodeMultipart form serial).body
        (chars "multipart/form-data; boundary=" ++ (encodeMultipart form serial).boundary) = .ok form' ∧
      List.Forall₂ (fun a b => a.1 = b.1 ∧ Same a.2 b.2) form form' := by
  obtain ⟨form', hparse, hall⟩ := parseMultipart_encode form serial (fun e he => (h e he).unframed)
  refine ⟨form', hparse, ?_⟩
  clear hparse
  induction hall with
  | nil => exact .nil
  | @cons e e' form form' hback _ ih =>
    exact .cons (hback.same (h e mem_cons_self)) (ih (fun e' he' => h e' (mem_cons_of_mem _ he')))

/-- A name full of delimiters, a value that begins and ends like framing, and a file with a boundary-like line. -/
def trickyForm : FormData :=
  [(chars "a\";=:\\b", .string (chars "\r\n------gea-formdata-1x\r\né--\r\n")),
    ([], .file (File.create [13, 10, 45, 45, 255, 13] (chars "c:\\\"d\".txt") (chars "Text/Plain"))),
    (chars "z", .string [])]

theorem multipart_round_trip_tricky : ∃ form', parseMultipart (encodeMultipart trickyForm 0).body
        (chars "multipart/form-data; boundary=" ++ (encodeMultipart trickyForm 0).boundary) = .ok form' ∧
      List.Forall₂ (fun a b => a.1 = b.1 ∧ Same a.2 b.2) trickyForm form' := by
  refine multipart_round_trip trickyForm 0 (fun e he => ?_)
  simp only [trickyForm, mem_cons, not_mem_nil, or_false] at he
  rcases he with rfl | rfl | rfl
  · refine ⟨by decide, (fun f hf => by cases hf), ?_⟩
    rintro w (rfl | rfl) <;> decide +kernel
  · refine ⟨by decide, fun f hf => ?_, ?_⟩
    · cases hf; decide
    · rintro w (rfl | rfl) <;> decide +kernel
  · refine ⟨by decide, (fun f hf => by cases hf), ?_⟩
    rintro w (rfl | rfl) <;> decide +kernel

end FormData

end NodeCompat.Web
