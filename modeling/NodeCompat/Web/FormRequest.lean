import NodeCompat.Web.MultipartFraming

/-!
# A form as the body of a request

`new Request(url, { body: form })` writes the multipart text down byte by byte, as latin1, and `formData` reads it back so. The
contents are latin1 texts of UTF-8 bytes, but the names are the names: what is above U+00FF in them is cut to one byte, and
their line breaks stay escaped. So exactly the names without these survive (`names_survive`).
-/

namespace NodeCompat.Web

open List

/-- A request, as far as `formData` reads it. -/
structure FormRequest where
  contentType : Option Text
  bodyBytes : Bytes
  bodyUsed : Bool := false

inductive FormDataError
  | unusable
  | contentType
  | parse (error : FormData.ParseError)
  deriving DecidableEq

def FormDataError.message : FormDataError → String
  | .unusable => "Body is unusable"
  | .contentType => "Request.formData requires a form content-type"
  | .parse error => error.message

namespace FormRequest

/-- The constructor with a `FormData` body; `contentType` is the one of `init.headers`. -/
def create (form : FormData) (serial : Nat) (contentType : Option Text) : FormRequest :=
  let encoded := form.encodeMultipart serial
  { contentType := some (contentType.getD (chars "multipart/form-data; boundary=" ++ encoded.boundary))
    bodyBytes := ofLatin1 encoded.body }

/-- `formData`; `params` is `URLSearchParams`. -/
def formData (params : Text → List (Text × Text)) (r : FormRequest) : Except FormDataError FormData × FormRequest :=
  let contentType := r.contentType.getD []
  if r.bodyUsed then (.error .unusable, r)
  else
    let r := { r with bodyUsed := true }
    if chars "application/x-www-form-urlencoded" <+: toLowerCase contentType then
      let pairs := params (decodeUtf8 r.bodyBytes)
      (.ok (pairs.foldl (fun form (name, value) => form.append name (.string value) none) []), r)
    else if chars "multipart/form-data" <+: toLowerCase contentType then
      ((FormData.parseMultipart (latin1 r.bodyBytes) contentType).mapError .parse, r)
    else (.error .contentType, r)

end FormRequest

namespace FormData

variable {form : FormData} {s t : Text}

def fileName? : EntryValue → Option Text
  | .string _ => none
  | .file f => some f.name

/-- What is read back has the names and file names of the form. -/
def NamesSurvive (params : Text → List (Text × Text)) (form : FormData) (serial : Nat) : Prop :=
  ∃ form', ((FormRequest.create form serial none).formData params).1 = .ok form' ∧
    List.Forall₂ (fun e e' => e.1 = e'.1 ∧ fileName? e.2 = fileName? e'.2) form form'

/-- A name of one byte a character and one line. -/
def Carried (name : Text) : Prop := ∀ c ∈ name, c.toNat < 256 ∧ c ≠ '\r' ∧ c ≠ '\n'

/-! ## What a parameter is made of -/

theorem quotedValue_subset (s : Text) : (quotedValue s).1 ⊆ s ∧ (quotedValue s).2 ⊆ s := by
  fun_induction quotedValue s with
  | case1 => exact ⟨fun _ h => h, fun _ h => h⟩
  | case2 rest => exact ⟨nil_subset _, subset_cons_self _ _⟩
  | case3 c rest ih =>
    have hrest : rest ⊆ '\\' :: c :: rest := fun _ h => mem_cons_of_mem _ (mem_cons_of_mem _ h)
    exact ⟨cons_subset.2 ⟨mem_cons_of_mem _ mem_cons_self, Subset.trans ih.1 hrest⟩, Subset.trans ih.2 hrest⟩
  | case4 c rest h₁ h₂ ih =>
    have hrest : rest ⊆ c :: rest := subset_cons_self _ _
    exact ⟨cons_subset.2 ⟨mem_cons_self, Subset.trans ih.1 hrest⟩, Subset.trans ih.2 hrest⟩

theorem trim_subset (s : Text) : trim s ⊆ s :=
  Subset.trans (List.rdropWhile_prefix isSpace _).subset (dropWhile_suffix isSpace).subset

theorem parameterValue_subset (after : Text) : (parameterValue after).1 ⊆ after ∧ (parameterValue after).2 ⊆ after := by
  unfold parameterValue
  split
  · next rest =>
    have hrest : rest ⊆ '"' :: rest := List.subset_cons_self _ _
    exact ⟨List.Subset.trans (quotedValue_subset rest).1 hrest, List.Subset.trans (quotedValue_subset rest).2 hrest⟩
  · split
    · exact ⟨trim_subset after, List.nil_subset _⟩
    · exact ⟨List.Subset.trans (trim_subset _) (List.take_subset _ _), List.drop_subset _ _⟩

/-- What a round finds and leaves. -/
def Round.Inside (header : Text) : Round → Prop
  | .done => True
  | .again rest => rest ⊆ header
  | .parameter _ value rest => value ⊆ header ∧ rest ⊆ header

theorem parameterAt_inside (rest : Text) (equals : Nat) : Round.Inside rest (parameterAt rest equals) := by
  have hdrop : rest.drop (equals + 1) ⊆ rest := List.drop_subset _ _
  exact ⟨List.Subset.trans (parameterValue_subset _).1 hdrop, List.Subset.trans (parameterValue_subset _).2 hdrop⟩

theorem Round.Inside.mono (h : s ⊆ t) : ∀ {r : Round}, Round.Inside s r → Round.Inside t r
  | .done, _ => trivial
  | .again _, hr => List.Subset.trans hr h
  | .parameter _ _ _, hr => ⟨List.Subset.trans hr.1 h, List.Subset.trans hr.2 h⟩

theorem parameterRound_inside (header : Text) : Round.Inside header (parameterRound header) := by
  have hd : header.dropWhile isSeparator ⊆ header := (List.dropWhile_suffix isSeparator).subset
  refine Round.Inside.mono hd ?_
  unfold parameterRound
  dsimp only
  split
  · trivial
  · split
    · exact parameterAt_inside _ _
    · split
      · exact List.drop_subset _ _
      · exact parameterAt_inside _ _

theorem multipartParameter_subset (wanted : Text) : ∀ (n : Nat) (header value : Text), header.length = n →
    multipartParameter header wanted = some value → value ⊆ header := by
  intro n
  induction n using Nat.strongRecOn with
  | ind n ih =>
    intro header value hn h
    have hin := parameterRound_inside header
    have hlt := parameterRound_within header
    rw [multipartParameter] at h
    split at h
    · cases h
    · next rest hr =>
      rw [hr] at hin hlt
      have hlt : rest.length < n := hn ▸ hlt
      exact List.Subset.trans (ih _ hlt rest value rfl h) hin
    · next name found rest hr =>
      rw [hr] at hin hlt
      split at h
      · cases h; exact hin.1
      · split at h
        · cases h
        · next i _ =>
          have hlt : (rest.drop (i + 1)).length < n := by
            have hrest : rest.length < n := hn ▸ hlt; rw [List.length_drop]; omega
          exact List.Subset.trans (ih _ hlt _ value rfl h) (List.Subset.trans (List.drop_subset _ _) hin.2)

/-! ## Texts of single bytes -/

/-- A text of one byte a character. -/
def Low (s : Text) : Prop := ∀ c ∈ s, c.toNat < 256

theorem Low.subset (h : Low t) (hst : s ⊆ t) : Low s := fun c hc => h c (hst hc)

theorem Low.append (hs : Low s) (ht : Low t) : Low (s ++ t) := fun c hc =>
  (List.mem_append.1 hc).elim (hs c) (ht c)

theorem Low.flatMap {α : Type} {as : List α} {f : α → Text} (h : ∀ a ∈ as, Low (f a)) : Low (as.flatMap f) := by
  intro c hc
  obtain ⟨a, ha, hc⟩ := List.mem_flatMap.1 hc; exact h a ha c hc

theorem low_latin1 (bs : Bytes) : Low (latin1 bs) := by
  intro c hc
  obtain ⟨b, -, rfl⟩ := List.mem_map.1 hc
  have hb : b.toNat < 256 := b.toNat_lt
  have hv : b.toNat.isValidChar := Or.inl (by omega)
  rw [Char.ofNat, dif_pos hv]; exact hb

theorem latin1_ofLatin1 (h : Low s) : latin1 (ofLatin1 s) = s := by
  unfold latin1 ofLatin1
  rw [List.map_map]
  refine (List.map_congr_left (fun c hc => ?_)).trans (List.map_id s)
  have hmod : (UInt8.ofNat c.toNat).toNat = c.toNat := by
    rw [UInt8.toNat_ofNat']; exact Nat.mod_eq_of_lt (h c hc)
  show Char.ofNat (UInt8.ofNat c.toNat).toNat = c; rw [hmod]; exact Char.ofNat_toNat c

theorem low_chars (h : s.all isPrintable) : Low s := by
  intro c hc
  have hp := List.all_eq_true.1 h c hc
  simp only [isPrintable, Bool.and_eq_true, decide_eq_true_eq] at hp; omega

theorem low_escape (h : Low s) : Low (escapeMultipartQuoted s) := by
  rw [escapeMultipartQuoted_eq]
  refine Low.flatMap (fun c hc => ?_)
  have hc : c.toNat < 256 := by
    obtain ⟨d, hd, hcd⟩ := List.mem_flatMap.1 hc
    have hpercent : Low (percentChar d) := by
      unfold percentChar
      split
      · exact low_chars (by decide)
      · split
        · exact low_chars (by decide)
        · exact fun x hx => List.mem_singleton.1 hx ▸ h d hd
    exact hpercent c hcd
  unfold escapeChar
  split
  · intro x hx
    obtain rfl | hx := List.mem_cons.1 hx
    · decide
    · exact List.mem_singleton.1 hx ▸ hc
  · exact fun x hx => List.mem_singleton.1 hx ▸ hc

/-! ## What the decoder finds in a text of single bytes -/

theorem headerLine_subset {raw line : Text} {found : Text × Text} (hf : found.1 ⊆ raw) (hl : line ⊆ raw) :
    (headerLine found line).1 ⊆ raw := by
  unfold headerLine
  split
  · exact hf
  · dsimp only
    split
    · exact hf
    · split
      · exact List.Subset.trans (trim_subset _) (List.Subset.trans (List.drop_subset _ _) hl)
      · split <;> exact hf

theorem partHeaders_subset (raw : Text) : (partHeaders raw).1 ⊆ raw := by
  have hlines : ∀ line ∈ split crlf raw, line ⊆ raw := fun line h => split_subset h
  have hrun : ∀ (lines : List Text) (found : Text × Text), (∀ line ∈ lines, line ⊆ raw) → found.1 ⊆ raw →
      (lines.foldl headerLine found).1 ⊆ raw := by
    intro lines
    induction lines with
    | nil => exact fun _ _ hf => hf
    | cons line lines ih =>
      intro found hl hf
      exact ih _ (fun l h => hl l (List.mem_cons_of_mem _ h)) (headerLine_subset hf (hl line List.mem_cons_self))
  exact hrun _ _ hlines (List.nil_subset _)

theorem low_fileNameOf (h : Low s) : Low (fileNameOf s) := by
  rw [fileNameOf, join_split]
  refine Low.flatMap (fun c hc => ?_)
  split
  · exact fun x hx => by rw [List.mem_singleton.1 hx]; decide
  · exact fun x hx => List.mem_singleton.1 hx ▸ h c hc

/-- The names of an entry are of one byte a character. -/
def LowNames (entry : Text × EntryValue) : Prop := Low entry.1 ∧ ∀ f ∈ fileName? entry.2, Low f

theorem addPart_low {raw : Text} (partBody : Text) (hform : ∀ e ∈ form, LowNames e) (hraw : Low raw) :
    ∀ e ∈ addPart form raw partBody, LowNames e := by
  have hvalue : ∀ {wanted value : Text}, multipartParameter (partHeaders raw).1 wanted = some value → Low value :=
    fun h => hraw.subset (List.Subset.trans (multipartParameter_subset _ _ _ _ rfl h) (partHeaders_subset raw))
  unfold addPart
  dsimp only
  split
  · exact hform
  · next name hname =>
    have happend : ∀ value : EntryValue, (∀ f ∈ fileName? value, Low f) → ∀ e ∈ form ++ [(name, value)], LowNames e := by
      intro value hv e he
      obtain he | he := List.mem_append.1 he
      · exact hform e he
      · rw [List.mem_singleton.1 he]; exact ⟨hvalue hname, hv⟩
    split
    · split
      · next fileName hfile =>
        refine happend _ (fun f hf => ?_)
        cases hf; exact low_fileNameOf (low_fileNameOf (hvalue hfile))
      · exact happend _ (fun f hf => nomatch hf)
    · exact hform

theorem parseParts_low (delimiter : Text) : ∀ (n : Nat) (form : FormData) (rest : Text), rest.length = n →
    (∀ e ∈ form, LowNames e) → Low rest → ∀ form', parseParts delimiter form rest = .ok form' → ∀ e ∈ form', LowNames e := by
  intro n
  induction n using Nat.strongRecOn with
  | ind n ih =>
    intro form rest hn hform hrest form' h
    rw [parseParts] at h
    split at h
    · cases h; exact hform
    · split at h
      · cases h
      · next hc =>
        have h2 : 2 ≤ rest.length := by
          have hlen := congrArg List.length (not_not.1 hc)
          simp only [crlf, List.length_take, List.length_cons, List.length_nil] at hlen; omega
        have hdrop : rest.drop 2 ⊆ rest := List.drop_subset _ _
        split at h
        · cases h
        · next next _ =>
          dsimp only at h
          split at h
          · cases h
          · next headerEnd _ =>
            have hlt : ((rest.drop 2).drop (next + delimiter.length)).length < n := by
              simp only [List.length_drop]; omega
            have hraw : Low (((rest.drop 2).take (next - 2)).take headerEnd) :=
              hrest.subset (List.Subset.trans (List.take_subset _ _) (List.Subset.trans (List.take_subset _ _) hdrop))
            exact ih _ hlt _ _ rfl (addPart_low _ hform hraw) (hrest.subset (List.Subset.trans (List.drop_subset _ _) hdrop)) form' h

theorem parseMultipart_low {body contentType : Text} {form' : FormData} (hbody : Low body)
    (h : parseMultipart body contentType = .ok form') : ∀ e ∈ form', LowNames e := by
  have hnone : ∀ e ∈ ([] : FormData), LowNames e := fun _ he => absurd he List.not_mem_nil
  unfold parseMultipart at h
  dsimp only at h
  split at h
  · cases h
  · split at h
    · cases h
    · exact parseParts_low _ _ _ _ rfl hnone (hbody.subset (List.drop_subset _ _)) _ h

/-! ## The request -/

theorem low_boundaryOf (n : Nat) : Low (boundaryOf n) := (low_chars (by decide)).append (low_latin1 _)

theorem low_content (value : EntryValue) : Low (content value) := by
  cases value with
  | string s | file f => exact low_latin1 _

theorem low_of_all (h : s.all (fun c => c.toNat < 256)) : Low s := fun c hc =>
  of_decide_eq_true (List.all_eq_true.1 h c hc)

theorem low_crlf : Low crlf := low_of_all (by decide)

theorem low_headers {name : Text} {value : EntryValue} (h : LowNames (name, value)) : Low (headers name value) := by
  obtain ⟨hn, hf⟩ := h
  have hstart : Low (chars "Content-Disposition: form-data; name=\"") := low_chars (by decide)
  cases value with
  | string s => exact (hstart.append (low_escape hn)).append (low_chars (by decide))
  | file f =>
    have htype : Low (if 0 < f.type.length then f.type else chars "application/octet-stream") := by
      split
      · exact low_chars f.type_printable
      · exact low_chars (by decide)
    have hfile : Low (chars "\"; filename=\"") := low_chars (by decide)
    have hword : Low (chars "Content-Type: ") := low_chars (by decide)
    have hquote : Low (chars "\"") := low_chars (by decide)
    exact ((((((hstart.append (low_escape hn)).append hfile).append (low_escape (hf _ rfl))).append hquote).append
      low_crlf).append hword).append htype

theorem low_body (serial : Nat) (h : ∀ e ∈ form, LowNames e) : Low (encodeMultipart form serial).body := by
  have hdash : Low (chars "--") := low_chars (by decide)
  have hb := low_boundaryOf (serial + 1)
  have hparts : Low (form.flatMap (fun e =>
      chars "--" ++ boundaryOf (serial + 1) ++ crlf ++ headers e.1 e.2 ++ crlf ++ crlf ++ content e.2 ++ crlf)) := by
    refine Low.flatMap (fun e he => ?_)
    exact ((((((hdash.append hb).append low_crlf).append (low_headers (h e he))).append low_crlf).append low_crlf).append
      (low_content e.2)).append low_crlf
  exact (((hparts.append hdash).append hb).append hdash).append low_crlf

theorem formData_create (params : Text → List (Text × Text)) (form : FormData) (serial : Nat) :
    ((FormRequest.create form serial none).formData params).1 =
      (parseMultipart (latin1 (ofLatin1 (encodeMultipart form serial).body))
        (chars "multipart/form-data; boundary=" ++ (encodeMultipart form serial).boundary)).mapError .parse := by
  have hlower : toLowerCase (chars "multipart/form-data; boundary=" ++ (encodeMultipart form serial).boundary) =
      chars "multipart/form-data" ++ (chars "; boundary=" ++ toLowerCase (encodeMultipart form serial).boundary) := by
    rw [toLowerCase, map_append]; rfl
  have hother : ¬ chars "application/x-www-form-urlencoded" <+: chars "multipart/form-data" ++
      (chars "; boundary=" ++ toLowerCase (encodeMultipart form serial).boundary) := by
    intro hp; exact absurd (cons_prefix_cons.1 hp).1 (by decide)
  unfold FormRequest.formData FormRequest.create
  dsimp only [Option.getD]
  rw [if_neg (by decide), hlower, if_neg hother, if_pos (prefix_append _ _)]

theorem NamesSurvive.low {params : Text → List (Text × Text)} {serial : Nat}
    (h : NamesSurvive params form serial) : ∀ e ∈ form, LowNames e := by
  obtain ⟨form', hform', hall⟩ := h
  rw [formData_create] at hform'
  have hlow : ∀ e' ∈ form', LowNames e' := by
    cases hp : parseMultipart (latin1 (ofLatin1 (encodeMultipart form serial).body))
        (chars "multipart/form-data; boundary=" ++ (encodeMultipart form serial).boundary) with
    | error e =>
      rw [hp] at hform'
      cases hform'
    | ok read =>
      rw [hp] at hform'
      cases hform'; exact parseMultipart_low (low_latin1 _) hp
  clear hform'
  induction hall with
  | nil => exact fun _ he => nomatch he
  | @cons a b form form' hab _ ih =>
    intro e he
    obtain rfl | he := mem_cons.1 he
    · have hb := hlow b mem_cons_self
      refine ⟨?_, ?_⟩
      · rw [hab.1]; exact hb.1
      · rw [hab.2]; exact hb.2
    · exact ih (fun e' he' => hlow e' (mem_cons_of_mem _ he')) e he

theorem lf_not_mem_percentCrlf (s : Text) : '\n' ∉ percentCrlf s := by
  intro h
  obtain ⟨c, -, hc⟩ := mem_flatMap.1 h
  unfold percentChar at hc
  split at hc
  · exact absurd hc (by decide)
  · split at hc
    · exact absurd hc (by decide)
    · next hne => exact hne (mem_singleton.1 hc).symm

theorem carried_iff (h : Low s) : Carried s ↔ percentCrlf s = s := by
  constructor
  · intro hc; exact percentCrlf_eq_self (fun hr => (hc _ hr).2.1 rfl) (fun hn => (hc _ hn).2.2 rfl)
  · intro he c hc
    refine ⟨h c hc, ?_, ?_⟩
    · rintro rfl; rw [← he] at hc; exact not_mem_percentCrlf (.inl rfl) hc
    · rintro rfl; rw [← he] at hc; exact lf_not_mem_percentCrlf s hc

theorem carried_of_all (h : s.all (fun c => c.toNat < 256 ∧ c ≠ '\r' ∧ c ≠ '\n')) : Carried s := fun c hc =>
  of_decide_eq_true (all_eq_true.1 h c hc)

theorem Carried.low (h : Carried s) : Low s := fun c hc => (h c hc).1

theorem ReadBack.names {e e' : Text × EntryValue} (h : ReadBack e e') (hlow : LowNames e) :
    (e.1 = e'.1 ∧ fileName? e.2 = fileName? e'.2) ↔ Carried e.1 ∧ ∀ f ∈ fileName? e.2, Carried f := by
  obtain ⟨name, value⟩ := e
  obtain ⟨name', value'⟩ := e'
  cases value with
  | string s =>
    cases value' with
    | file g => exact h.elim
    | string t =>
      obtain ⟨rfl, -⟩ := h
      rw [carried_iff hlow.1]
      exact ⟨fun hn => ⟨hn.1.symm, fun _ hf => nomatch hf⟩, fun hn => ⟨hn.1.symm, rfl⟩⟩
  | file f =>
    cases value' with
    | string t => exact h.elim
    | file g =>
      obtain ⟨rfl, hf, -⟩ := h
      have hfile : Low f.name := hlow.2 _ rfl
      rw [carried_iff hlow.1]
      constructor
      · rintro ⟨hn, hg⟩
        refine ⟨hn.symm, fun x hx => ?_⟩
        cases hx; rw [carried_iff hfile, ← hf]; exact (Option.some.inj hg).symm
      · rintro ⟨hn, hg⟩
        refine ⟨hn.symm, congrArg some ?_⟩
        rw [hf]; exact ((carried_iff hfile).1 (hg _ rfl)).symm

theorem ReadBack.all_names {form' : FormData} (h : List.Forall₂ ReadBack form form') (hlow : ∀ e ∈ form, LowNames e) :
    List.Forall₂ (fun e e' => e.1 = e'.1 ∧ fileName? e.2 = fileName? e'.2) form form' ↔
      ∀ e ∈ form, Carried e.1 ∧ ∀ f ∈ fileName? e.2, Carried f := by
  induction h with
  | nil => exact iff_of_true .nil (fun _ he => nomatch he)
  | @cons a b form form' hab _ ih =>
    rw [forall₂_cons, forall_mem_cons, ih (fun e he => hlow e (mem_cons_of_mem _ he)),
      hab.names (hlow a mem_cons_self)]

/-- **The names in the body**: the names and the file names are read back if and only if each character of them is one byte
and no line break. The contents are not to act as framing, or they hide and make names. -/
theorem names_survive (params : Text → List (Text × Text)) (form : FormData) (serial : Nat)
    (hframing : ∀ e ∈ form, ¬ Guesses serial e.2) :
    NamesSurvive params form serial ↔ ∀ e ∈ form, Carried e.1 ∧ ∀ f ∈ fileName? e.2, Carried f := by
  have hunframed : ∀ e ∈ form, Unframed (boundaryOf (serial + 1)) e.2 :=
    fun e he => (unframed_iff serial e.2).2 (hframing e he)
  obtain ⟨form', hparse, hall⟩ := parseMultipart_encode form serial hunframed
  have hread : (∀ e ∈ form, LowNames e) → ((FormRequest.create form serial none).formData params).1 = .ok form' := by
    intro hlow; rw [formData_create, latin1_ofLatin1 (low_body serial hlow), hparse]; rfl
  constructor
  · intro h
    have hlow := h.low
    obtain ⟨read, hread', hnames⟩ := h
    cases hread'.symm.trans (hread hlow)
    exact (ReadBack.all_names hall hlow).1 hnames
  · intro h
    have hlow : ∀ e ∈ form, LowNames e := fun e he => ⟨(h e he).1.low, fun f hf => ((h e he).2 f hf).low⟩
    exact ⟨form', hread hlow, (ReadBack.all_names hall hlow).2 h⟩

/-- Quotes, a backslash, a percent sign and characters of latin1. -/
def latinForm : FormData :=
  [(chars "é\"\\%0D", .string (chars "ж")), (chars "a", .file (File.create [13, 10] (chars "ü/\t.txt") []))]

theorem names_survive_latin : NamesSurvive (fun _ => []) latinForm 0 := by
  refine (names_survive (fun _ => []) latinForm 0 (fun e he => ?_)).2 (fun e he => ?_)
  · simp only [latinForm, mem_cons, not_mem_nil, or_false] at he
    rintro ⟨w, hw, hin⟩
    revert hin
    rcases he with rfl | rfl <;> rcases hw with rfl | rfl <;> decide +kernel
  · simp only [latinForm, mem_cons, not_mem_nil, or_false] at he
    rcases he with rfl | rfl
    · exact ⟨carried_of_all (by decide), fun f hf => nomatch hf⟩
    · refine ⟨carried_of_all (by decide), fun f hf => ?_⟩
      cases hf; exact carried_of_all (by decide +kernel)

/-- The name U+0436 is read back as its low byte, U+0036. -/
theorem name_cut : ¬ ∀ (params : Text → List (Text × Text)) (form : FormData) (serial : Nat), NamesSurvive params form serial := by
  intro h
  have hlow := (h (fun _ => []) [(chars "ж", .string [])] 0).low _ mem_cons_self
  have hcut : ('ж' : Char).toNat < 256 := hlow.1 'ж' mem_cons_self
  exact absurd hcut (by decide)

end FormData

end NodeCompat.Web
