import NodeCompat.Http.Encode

/-!
# Decoding undoes encoding

On the bytes of a well-formed request the reader goes from one request boundary to the next and makes exactly one call,
with the request's own method, target, version, header block and body (`reader_request`); it comes to no long
chunk-size line on the way. So the calls for a list of requests are that list, however the bytes are cut into reads.
-/

namespace NodeCompat.Http

open List Option Framing FieldScan

/-! ## The head -/

theorem joinLines_cons (f : Field) (fs : List Field) :
    (f :: fs).flatMap (fun f => crlf ++ f.line) = crlf ++ joinLines ((f :: fs).map Field.line) := by
  induction fs generalizing f with
  | nil => simp [joinLines]
  | cons g gs ih => rw [flatMap_cons, ih]; simp [joinLines]

theorem find_headEnd (fs : List Field) (y : Bytes) :
    find crlfcrlf (fs.flatMap (fun f => crlf ++ f.line) ++ (crlfcrlf ++ y)) =
      some (fs.flatMap (fun f => crlf ++ f.line)).length := by
  induction fs with
  | nil => exact find_zero ⟨y, by simp⟩
  | cons f fs ih =>
    rw [flatMap_cons, append_assoc]
    generalize fs.flatMap (fun f => crlf ++ f.line) ++ (crlfcrlf ++ y) = z at ih
    obtain ⟨c, cs, hl⟩ := exists_cons_of_ne_nil f.line_ne
    have hc : c ≠ cr := fun e => f.cr_not_mem_line (by rw [hl, e]; simp)
    -- no empty line starts at the CR or the LF before a field line, or inside it
    have h₁ : ¬ crlfcrlf <+: crlf ++ f.line ++ z := by
      rw [hl]
      simp only [crlfcrlf, crlf, cons_append, nil_append, cons_prefix_cons, true_and]
      exact fun h => hc h.1.symm
    have h₂ : ¬ crlfcrlf <+: lf :: (f.line ++ z) := fun h => by simp [crlfcrlf, cr, lf] at h
    have e₁ : crlf ++ f.line ++ z = cr :: lf :: (f.line ++ z) := by simp [crlf]
    rw [e₁] at h₁ ⊢
    rw [find_cons_of_not h₁, find_cons_of_not h₂, crlfcrlf, find_skip_of_ne f.cr_not_mem_line]
    rw [crlfcrlf] at ih
    rw [ih]
    simp
    omega

section Head

variable {method target version : Bytes}

theorem cr_not_mem_requestLine (hm : ∀ c ∈ method, c ≠ sp ∧ c ≠ cr) (ht : ∀ c ∈ target, c ≠ sp ∧ c ≠ cr)
    (hv : version = text "HTTP/1.1" ∨ version = text "HTTP/1.0") : cr ∉ method ++ sp :: (target ++ sp :: version) := by
  have hver : cr ∉ version := by rcases hv with rfl | rfl <;> decide
  simp only [mem_append, mem_cons, not_or]
  exact ⟨fun h => (hm _ h).2 rfl, by decide, fun h => (ht _ h).2 rfl, by decide, hver⟩

theorem find_lineEnd (fields : List Field) (hl : cr ∉ method ++ sp :: (target ++ sp :: version)) :
    (headBytes method target version fields).take
        ((find crlf (headBytes method target version fields)).getD (headBytes method target version fields).length) =
        method ++ sp :: (target ++ sp :: version) ∧
      (find crlf (headBytes method target version fields)).elim []
        (fun e => (headBytes method target version fields).drop (e + 2)) = joinLines (fields.map Field.line) := by
  generalize hr : method ++ sp :: (target ++ sp :: version) = r at hl
  simp only [headBytes, hr]
  cases fields with
  | nil =>
    have hn : find crlf (r ++ ([] : List Field).flatMap (fun f => crlf ++ f.line)) = none := by
      rw [crlf, find_skip_of_ne hl]; rfl
    rw [hn]; simp [joinLines]
  | cons f fs =>
    have hs : find crlf (r ++ (f :: fs).flatMap (fun f => crlf ++ f.line)) = some r.length := by
      rw [joinLines_cons, crlf, find_skip_of_ne hl, find_zero ⟨_, rfl⟩]; simp
    rw [hs]
    refine ⟨by simp, ?_⟩
    rw [elim_some, joinLines_cons, ← drop_drop, drop_left]; rfl

theorem parseRequestLine_ok (hme : method ≠ []) (hm : ∀ c ∈ method, c ≠ sp ∧ c ≠ cr) (hte : target ≠ [])
    (ht : ∀ c ∈ target, c ≠ sp ∧ c ≠ cr) (hv : version = text "HTTP/1.1" ∨ version = text "HTTP/1.0") :
    parseRequestLine (method ++ sp :: (target ++ sp :: version)) = some (method, target, version) := by
  have h₁ : find [sp] (method ++ sp :: (target ++ sp :: version)) = some method.length :=
    find_single (fun h => (hm _ h).1 rfl)
  have hd : (method ++ sp :: (target ++ sp :: version)).drop (method.length + 1) = target ++ sp :: version := by
    rw [← drop_drop, drop_left]; rfl
  have h₂ : findFrom [sp] (method ++ sp :: (target ++ sp :: version)) (method.length + 1) =
      some (target.length + (method.length + 1)) := by
    rw [findFrom, hd, find_single (fun h => (ht _ h).1 rfl)]; rfl
  have hd₂ : (method ++ sp :: (target ++ sp :: version)).drop (target.length + (method.length + 1) + 1) = version := by
    rw [show target.length + (method.length + 1) + 1 = (method.length + 1) + (target.length + 1) by omega,
      ← drop_drop, hd, ← drop_drop, drop_left]
    rfl
  have hml : method.length ≠ 0 := fun h => hme (length_eq_zero_iff.1 h)
  have htl : target.length ≠ 0 := fun h => hte (length_eq_zero_iff.1 h)
  unfold parseRequestLine
  rw [h₁]
  split
  · next h => cases h
  · next h => exact absurd (Option.some.inj h) hml
  · next i _ h =>
    cases h
    rw [h₂]
    dsimp only
    rw [if_neg (by omega), hd₂, if_pos hv, hd, take_left]
    rw [show target.length + (method.length + 1) - method.length - 1 = target.length by omega, take_left]

end Head

/-! ## The field loop -/

variable (s : FieldScan)

theorem loop_joinLines (f : Field) (fs : List Field) : s.loop (joinLines ((f :: fs).map Field.line)) =
      (s.line f.line).bind (fun s' => s'.loop (joinLines (fs.map Field.line))) := by
  have hne := f.line_ne
  have hcr := f.cr_not_mem_line
  rw [loop]
  cases fs with
  | nil =>
    have hn : find crlf f.line = none := by
      have := find_skip_of_ne (p := [lf]) (s := []) hcr; simpa [crlf, find] using this
    simp only [map_cons, map_nil, joinLines, hne, hn, getD_none, take_length, dite_false, if_false]
    have hd : f.line.drop (f.line.length + 2) = [] := by simp
    rw [hd]
    cases s.line f.line <;> rfl
  | cons g gs =>
    have hf : find crlf (f.line ++ (crlf ++ joinLines (g.line :: gs.map Field.line))) = some f.line.length := by
      rw [crlf, find_skip_of_ne hcr, find_zero ⟨_, rfl⟩]; simp
    have hne' : f.line ++ (crlf ++ joinLines (g.line :: gs.map Field.line)) ≠ [] := by simp [crlf]
    simp only [map_cons, joinLines, hne', hf, getD_some, take_left, hne, dite_false, if_false]
    have hd : (f.line ++ (crlf ++ joinLines (g.line :: gs.map Field.line))).drop (f.line.length + 2) =
        joinLines (g.line :: gs.map Field.line) := by
      rw [← drop_drop, drop_left]; rfl
    rw [hd]
    cases s.line f.line <;> rfl

theorem loop_nil : s.loop [] = some s := by
  rw [loop]; simp

theorem decide_unframed {name : Bytes} (value : Bytes)
    (h : (asciiEqualsIgnoreCase name (text "content-length") ||
      asciiEqualsIgnoreCase name (text "transfer-encoding")) = false) :
    ∃ s', s.decide name value = some s' ∧ s'.contentLength = s.contentLength ∧ s'.chunked = s.chunked := by
  rw [Bool.or_eq_false_iff] at h
  simp only [FieldScan.decide, h.1, h.2, Bool.false_eq_true, if_false]
  split
  · split
    · exact ⟨_, rfl, rfl, rfl⟩
    · split <;> exact ⟨_, rfl, rfl, rfl⟩
  · split
    · split <;> exact ⟨_, rfl, rfl, rfl⟩
    · exact ⟨_, rfl, rfl, rfl⟩

theorem loop_unframed : ∀ (fs : List Field) (gs : List Field) (s : FieldScan), (∀ f ∈ fs, f.frames = false) →
    ∃ s' : FieldScan, s.loop (joinLines ((fs ++ gs).map Field.line)) = s'.loop (joinLines (gs.map Field.line)) ∧
      s'.contentLength = s.contentLength ∧ s'.chunked = s.chunked
  | [], gs, s, _ => ⟨s, rfl, rfl, rfl⟩
  | f :: fs, gs, s, h => by
    obtain ⟨s₁, h₁, hl, hc⟩ := decide_unframed { s with fields := s.fields ++ [(f.name, f.value)] } f.value
      (h f mem_cons_self)
    obtain ⟨s₂, h₂, hl₂, hc₂⟩ := loop_unframed fs gs s₁ (fun g hg => h g (mem_cons_of_mem _ hg))
    refine ⟨s₂, ?_, hl₂.trans hl, hc₂.trans hc⟩
    rw [cons_append, loop_joinLines, f.scan_line, h₁, bind_some, h₂]

theorem decimalValue_ge (ds : Bytes) (n : Nat) : n ≤ decimalValue n ds := by
  induction ds generalizing n with
  | nil => exact le_rfl
  | cons c cs ih =>
    exact le_trans (by omega) (ih (n * 10 + (c.toNat - 48)))

theorem parseDecimal_ok : ∀ (ds : Bytes) (n : Nat), (∀ c ∈ ds, 48 ≤ c ∧ c ≤ 57) → decimalValue n ds ≤ kMaxBodyBytes →
    parseDecimal n ds = some (decimalValue n ds)
  | [], n, _, _ => rfl
  | c :: cs, n, hd, hv => by
    obtain ⟨h₁, h₂⟩ := hd c mem_cons_self
    have hc : (c < 48 || 57 < c) = false := by
      rw [Bool.or_eq_false_iff, decide_eq_false_iff_not, decide_eq_false_iff_not]
      exact ⟨UInt8.not_lt.2 h₁, UInt8.not_lt.2 h₂⟩
    have hge := decimalValue_ge cs (n * 10 + (c.toNat - 48))
    have hv' : decimalValue (n * 10 + (c.toNat - 48)) cs ≤ kMaxBodyBytes := hv
    simp only [parseDecimal, hc, Bool.false_eq_true, if_false]
    rw [if_neg (by omega)]; exact parseDecimal_ok cs _ (fun x hx => hd x (mem_cons_of_mem _ hx)) hv'

namespace Request

variable (r : Request)

theorem loop_fields (s : FieldScan) (hl : s.contentLength = none) (hc : s.chunked = false) :
    ∃ s', s.loop r.rawHead = some s' ∧ (match r.framing with
        | .bare => s'.contentLength = none ∧ s'.chunked = false
        | .length f _ => s'.contentLength = some f.value ∧ s'.chunked = false
        | .chunked _ _ _ _ => s'.chunked = true) := by
  obtain ⟨s₁, h₁, hl₁, hc₁⟩ := loop_unframed r.before (r.framing.field? ++ r.after) s r.before_ok
  have hraw : s.loop r.rawHead = s₁.loop (joinLines ((r.framing.field? ++ r.after).map Field.line)) := by
    rw [rawHead, fields, append_assoc, h₁]
  have hok := r.framing_ok
  have hafter := fun s₂ => loop_unframed r.after [] s₂ r.after_ok
  simp only [append_nil, map_nil, joinLines, loop_nil] at hafter
  rw [hraw]
  cases hf : r.framing with
  | bare =>
    obtain ⟨s₂, h₂, hl₂, hc₂⟩ := hafter s₁; exact ⟨s₂, h₂, hl₂.trans (hl₁.trans hl), hc₂.trans (hc₁.trans hc)⟩
  | length f b =>
    rw [hf] at hok
    simp only [field?, cons_append, nil_append]
    rw [loop_joinLines, f.scan_line]
    simp only [FieldScan.decide, hok.1, if_true, hl₁, hl, isSome_none, Bool.false_and, Bool.false_eq_true,
      if_false, bind_some]
    obtain ⟨s₂, h₂, hl₂, hc₂⟩ := hafter { s₁ with fields := s₁.fields ++ [(f.name, f.value)], contentLength := some f.value }
    exact ⟨s₂, h₂, hl₂, hc₂.trans (hc₁.trans hc)⟩
  | chunked f cs last ts =>
    rw [hf] at hok
    have hn : asciiEqualsIgnoreCase f.name (text "content-length") = false := by
      have h₁ := hok.1
      simp only [asciiEqualsIgnoreCase, beq_iff_eq] at h₁
      simp only [asciiEqualsIgnoreCase, h₁]; decide
    simp only [field?, cons_append, nil_append]
    rw [loop_joinLines, f.scan_line]
    simp only [FieldScan.decide, hn, hok.1, hok.2.1, if_true, Bool.false_eq_true, if_false, bind_some]
    obtain ⟨s₂, h₂, -, hc₂⟩ := hafter { s₁ with fields := s₁.fields ++ [(f.name, f.value)], chunked := true }
    exact ⟨s₂, h₂, hc₂⟩

/-- `q` has the head of `r` and nothing of its body. -/
structure Heads (q : Parser) : Prop where
  state : q.state = .head
  method : q.method = r.method
  target : q.target = r.target
  version : q.version = r.version
  rawHead : q.rawHead = r.rawHead
  body : q.body = []
  framing : match r.framing with
    | .bare => q.chunked = false ∧ q.bodyRemaining = 0
    | .length _ b => q.chunked = false ∧ q.bodyRemaining = b.length
    | .chunked _ _ _ _ => q.chunked = true

/-- **Parsing the head of a well-formed request.** -/
theorem parseHead_head : ∃ q, parseHead r.head = .ok q ∧ r.Heads q := by
  have hcr := cr_not_mem_requestLine r.method_ok r.target_ok r.version_ok
  obtain ⟨hline, hraw⟩ := find_lineEnd r.fields hcr
  obtain ⟨s, hs, hfr⟩ := r.loop_fields { keepAlive := r.version == text "HTTP/1.1" } rfl rfl
  have hreq := parseRequestLine_ok r.method_ne r.method_ok r.target_ne r.target_ok r.version_ok
  have hok := r.framing_ok
  have hle := r.body_le
  have hbl : ∃ n, s.bodyLength = some n ∧ (match r.framing with
      | .bare => s.chunked = false ∧ n = 0
      | .length _ b => s.chunked = false ∧ n = b.length
      | .chunked _ _ _ _ => s.chunked = true) := by
    cases hf : r.framing with
    | bare => rw [hf] at hfr; exact ⟨0, by simp [bodyLength, hfr.1], hfr.2, rfl⟩
    | length f b =>
      rw [hf] at hfr hok hle
      refine ⟨b.length, ?_, hfr.2, rfl⟩
      simp only [bodyLength, hfr.1, hfr.2, hok.2.1, Bool.false_eq_true, if_false]
      rw [parseDecimal_ok _ _ hok.2.2.1 (by rw [hok.2.2.2]; exact hle), hok.2.2.2]
    | chunked f cs last ts => rw [hf] at hfr; exact ⟨0, by simp [bodyLength, hfr], hfr⟩
  obtain ⟨n, hn, hfr'⟩ := hbl
  refine ⟨{ method := r.method, target := r.target, version := r.version, rawHead := r.rawHead, bodyRemaining := n,
            chunked := s.chunked, keepAlive := s.keepAlive, expectContinue := s.expectContinue },
    ?_, rfl, rfl, rfl, rfl, rfl, rfl, ?_⟩
  · rw [← rawHead] at hraw; simp only [parseHead, head, hline, hreq, hraw, hs, hn]
  · cases hf : r.framing <;> rw [hf] at hfr' <;> exact hfr'

theorem find_head (y : Bytes) : find crlfcrlf (r.bytes ++ y) = some r.head.length := by
  have hcr := cr_not_mem_requestLine r.method_ok r.target_ok r.version_ok
  have he : r.bytes ++ y = (r.method ++ sp :: (r.target ++ sp :: r.version)) ++
      (r.fields.flatMap (fun f => crlf ++ f.line) ++ (crlfcrlf ++ (r.framing.bytes ++ y))) := by
    simp [bytes, head, headBytes]
  have hskip := find_skip_of_ne (p := [lf, cr, lf])
    (s := r.fields.flatMap (fun f => crlf ++ f.line) ++ (crlfcrlf ++ (r.framing.bytes ++ y))) hcr
  rw [he]
  refine hskip.trans ?_
  rw [show [cr, lf, cr, lf] = crlfcrlf from rfl, find_headEnd]; simp [head, headBytes]; omega

theorem iterate_head {p : Parser} (hp : p.state = .head) (y : Bytes) :
    ∃ q, r.Heads q ∧ p.iterate (r.bytes ++ y) = q.startBody (r.framing.bytes ++ y) := by
  obtain ⟨q, hq, hr⟩ := r.parseHead_head
  refine ⟨q, hr, ?_⟩
  have he : r.bytes ++ y = r.head ++ (crlfcrlf ++ (r.framing.bytes ++ y)) := by simp [bytes]
  have htake : (r.bytes ++ y).take r.head.length = r.head := by rw [he, take_left]
  have hdrop : (r.bytes ++ y).drop (r.head.length + 4) = r.framing.bytes ++ y := by
    rw [he, ← drop_drop, drop_left]; rfl
  have hle : ¬ r.head.length + 4 > kMaxHeadBytes := Nat.not_lt.2 r.head_le
  simp only [Parser.iterate, hp, Parser.iterateHead, r.find_head, if_neg hle, htake, hq, hdrop]

end Request

/-! ## Chunks -/

theorem hexValue_ge (ds : Bytes) (n : Nat) : n ≤ hexValue n ds := by
  induction ds generalizing n with
  | nil => exact le_rfl
  | cons c cs ih =>
    exact le_trans (by omega) (ih (n * 16 + (hexDigit c).getD 0))

theorem parseSizeLine_digits : ∀ (ds : Bytes) (n : Nat) (saw : Bool) (rest : Bytes), (∀ c ∈ ds, (hexDigit c).isSome) →
    hexValue n ds ≤ kMaxBodyBytes →
    parseSizeLine n saw (ds ++ rest) = parseSizeLine (hexValue n ds) (saw || !ds.isEmpty) rest
  | [], n, saw, rest, _, _ => by simp [hexValue]
  | c :: cs, n, saw, rest, hd, hv => by
    obtain ⟨d, hc⟩ := isSome_iff_exists.1 (hd c mem_cons_self)
    have hne : c ≠ semicolon := by
      rintro rfl
      revert hc
      decide +revert
    have hv' : hexValue (n * 16 + d) cs = hexValue n (c :: cs) := by
      show _ = hexValue (n * 16 + (hexDigit c).getD 0) cs; rw [hc]; rfl
    have hge := hexValue_ge cs (n * 16 + d)
    rw [cons_append, parseSizeLine, if_neg hne, hc]
    dsimp only
    rw [if_neg (by omega), parseSizeLine_digits cs _ true rest (fun x hx => hd x (mem_cons_of_mem _ hx)) (by omega),
      hv']
    simp

theorem SizeLine.parse (l : SizeLine) (h : l.size ≤ kMaxBodyBytes) : parseSizeLine 0 false l.line = .ok l.size := by
  rw [SizeLine.line, parseSizeLine_digits l.digits 0 false l.ext l.digits_ok h]
  have hne : (!l.digits.isEmpty) = true := by simp [l.digits_ne]
  rw [hne, Bool.or_true, ← SizeLine.size]
  rcases l.ext_ok with he | he
  · rw [he]; rfl
  · cases hx : l.ext with
    | nil => rfl
    | cons c cs =>
      rw [hx] at he
      cases he; simp [parseSizeLine]

section Body

variable {k : Nat → Call → Bool}

theorem leads_more {p p' : Parser} {n : Nat} {b r : Bytes} (out : Bytes) (h : p.iterate b = .more p' r out)
    (hl : ShortSizeLine p b) : (reader k).Leads (p, n) b [] (p', n) r := by
  have hr : (reader k).round (p, n) b = .go (p', n) r [] := by simp only [reader_round, readerRound, h]
  exact .of_go hr (round_ne_halt hr hl)

theorem leads_dispatch {p p' : Parser} {n : Nat} {b r out : Bytes} (h : p.iterate b = .dispatch p' r out)
    (hl : ShortSizeLine p b) (hk : k n (p'.call (n == 0)) = true) :
    (reader k).Leads (p, n) b [p'.call (n == 0)] (p'.clear, n + 1) r := by
  have hr : (reader k).round (p, n) b = .go (p'.clear, n + 1) r [p'.call (n == 0)] := by
    simp only [reader_round, readerRound, h, hk, if_true]
  exact .of_go hr (round_ne_halt hr hl)

theorem shortSizeLine_of_ne {p : Parser} (h : p.state ≠ .chunkSize) (b : Bytes) : ShortSizeLine p b :=
  fun hs => absurd hs h

theorem leads_sizeLine {p : Parser} (hp : p.state = .chunkSize) (l : SizeLine) (h : l.size ≤ kMaxBodyBytes) (n : Nat)
    (y : Bytes) : (reader k).Leads (p, n) (l.line ++ (crlf ++ y)) []
      ({ p with chunkRemaining := l.size, state := if l.size = 0 then .trailers else .chunkData }, n) y := by
  have hf : find crlf (l.line ++ (crlf ++ y)) = some l.line.length := find_pair (by decide) l.no_crlf
  have hd : (l.line ++ (crlf ++ y)).drop (l.line.length + 2) = y := by rw [← drop_drop, drop_left]; rfl
  apply leads_more []
  · simp only [Parser.iterate, hp, Parser.iterateChunkSize, hf, take_left, l.parse h, hd]
  · intro _ eol he
    rw [hf] at he
    cases he; exact l.length_lt

theorem leads_chunk {p : Parser} (hp : p.state = .chunkSize) (c : Chunk)
    (h : p.body.length + c.data.length ≤ kMaxBodyBytes) (n : Nat) (y : Bytes) :
    (reader k).Leads (p, n) (c.bytes ++ y) [] ({ p with body := p.body ++ c.data, chunkRemaining := 0 }, n) y := by
  have hne : c.sizeLine.size ≠ 0 := by rw [c.size_eq]; exact fun e => c.data_ne (length_eq_zero_iff.1 e)
  have he : c.bytes ++ y = c.sizeLine.line ++ (crlf ++ (c.data ++ (crlf ++ y))) := by simp [Chunk.bytes]
  have h₁ := leads_sizeLine (k := k) hp c.sizeLine (by rw [c.size_eq]; omega) n (c.data ++ (crlf ++ y))
  rw [if_neg hne, c.size_eq] at h₁
  have h₂ : (reader k).Leads ({ p with chunkRemaining := c.data.length, state := .chunkData }, n)
      (c.data ++ (crlf ++ y)) [] ({ p with body := p.body ++ c.data, chunkRemaining := 0, state := .chunkCrlf }, n)
      (crlf ++ y) := by
    refine leads_more [] ?_ (shortSizeLine_of_ne (by simp) _)
    have hm : min c.data.length (c.data ++ (crlf ++ y)).length = c.data.length := by simp
    have hb : ¬ (p.body ++ c.data).length > kMaxBodyBytes := by simp; omega
    simp only [Parser.iterate, Parser.iterateChunkData, hm, take_left, drop_left, if_neg hb, Nat.sub_self,
      gt_iff_lt, lt_irrefl, if_false]
  have h₃ : (reader k).Leads ({ p with body := p.body ++ c.data, chunkRemaining := 0, state := .chunkCrlf }, n)
      (crlf ++ y) [] ({ p with body := p.body ++ c.data, chunkRemaining := 0 }, n) y := by
    refine leads_more [] ?_ (shortSizeLine_of_ne (by simp) _)
    simp [Parser.iterate, Parser.iterateChunkCrlf, crlf, hp]
  rw [he]; exact h₁.trans (h₂.trans h₃)

theorem leads_chunks : ∀ (cs : List Chunk) {p : Parser} (n : Nat) (y : Bytes), p.state = .chunkSize →
    p.body.length + (cs.flatMap (·.data)).length ≤ kMaxBodyBytes →
    ∃ q : Parser, q = { p with body := p.body ++ cs.flatMap (·.data), chunkRemaining := q.chunkRemaining } ∧
      (reader k).Leads (p, n) (cs.flatMap Chunk.bytes ++ y) [] (q, n) y
  | [], p, n, y, _, _ => ⟨p, by simp, .refl _ _⟩
  | c :: cs, p, n, y, hp, h => by
    rw [flatMap_cons, length_append] at h
    have h₁ := leads_chunk (k := k) hp c (by omega) n (cs.flatMap Chunk.bytes ++ y)
    obtain ⟨q, hq, h₂⟩ := leads_chunks cs (p := { p with body := p.body ++ c.data, chunkRemaining := 0 }) n y hp
      (by simp only [length_append]; omega)
    refine ⟨q, ?_, ?_⟩
    · rw [flatMap_cons, ← append_assoc]; exact hq
    · rw [flatMap_cons, append_assoc]; exact h₁.trans h₂

theorem leads_trailers : ∀ (ts : List Trailer) {p : Parser} (n : Nat) (y : Bytes), p.state = .trailers →
    (reader k).Leads (p, n) (ts.flatMap (fun t => t.line ++ crlf) ++ y) [] (p, n) y
  | [], p, n, y, _ => .refl _ _
  | t :: ts, p, n, y, hp => by
    have he : (t :: ts).flatMap (fun t => t.line ++ crlf) ++ y =
        t.line ++ (crlf ++ (ts.flatMap (fun t => t.line ++ crlf) ++ y)) := by simp
    have h₁ : (reader k).Leads (p, n) (t.line ++ (crlf ++ (ts.flatMap (fun t => t.line ++ crlf) ++ y))) []
        (p, n) (ts.flatMap (fun t => t.line ++ crlf) ++ y) := by
      have hf : find crlf (t.line ++ (crlf ++ (ts.flatMap (fun t => t.line ++ crlf) ++ y))) = some t.line.length :=
        find_pair (by decide) t.no_crlf
      have hl : t.line.length ≠ 0 := fun e => t.line_ne (length_eq_zero_iff.1 e)
      have hd : (t.line ++ (crlf ++ (ts.flatMap (fun t => t.line ++ crlf) ++ y))).drop (t.line.length + 2) =
          ts.flatMap (fun t => t.line ++ crlf) ++ y := by
        rw [← drop_drop, drop_left]; rfl
      refine leads_more [] ?_ (shortSizeLine_of_ne (by simp [hp]) _)
      simp only [Parser.iterate, hp, Parser.iterateTrailers, hf, if_neg hl, hd]
    rw [he]; exact h₁.trans (leads_trailers ts n y hp)

end Body

/-! ## Requests -/

/-- What a responder call says about the request: method, target, version, header block and body. -/
def Call.request (c : Call) : Bytes × Bytes × Bytes × Bytes × Bytes := (c.method, c.target, c.version, c.rawHead, c.body)

/-- What a request says. -/
def Request.parts (r : Request) : Bytes × Bytes × Bytes × Bytes × Bytes :=
  (r.method, r.target, r.version, r.rawHead, r.framing.body)

section Requests

variable {k : Nat → Call → Bool} (hk : ∀ n c, k n c = true)

theorem round_boundary {p : Parser} (hp : p.state = .head) (n : Nat) : (reader k).round (p, n) [] = .wait (p, n) [] := by
  have hf : find crlfcrlf ([] : Bytes) = none := rfl
  simp [reader_round, readerRound, Parser.iterate, hp, Parser.iterateHead, hf]

theorem Request.Heads.call_request {r : Request} {q : Parser} (h : r.Heads q) {p : Parser} (first : Bool)
    (hp : p = { q with state := p.state, body := r.framing.body, bodyRemaining := p.bodyRemaining, chunkRemaining := p.chunkRemaining }) :
    (p.call first).request = r.parts := by
  rw [hp]
  simp only [Call.request, Parser.call, Request.parts, h.method, h.target, h.version, h.rawHead]

include hk

/-- **A well-formed request is one call**, from a request boundary to the next. -/
theorem reader_request (r : Request) {p : Parser} (hp : p.state = .head) (n : Nat) (y : Bytes) :
    ∃ (c : Call) (p' : Parser), c.request = r.parts ∧ p'.state = .head ∧
      (reader k).Leads (p, n) (r.bytes ++ y) [c] (p', n + 1) y := by
  obtain ⟨q, hq, hit⟩ := r.iterate_head hp y
  have hfr := hq.framing
  have hhead : ShortSizeLine p (r.bytes ++ y) := shortSizeLine_of_ne (by simp [hp]) _
  cases hf : r.framing with
  | bare =>
    rw [hf] at hfr hit
    have hd : p.iterate (r.bytes ++ y) = .dispatch q y (if q.expectContinue then continueLine else []) := by
      rw [hit, Parser.startBody]; simp [hfr.1, hfr.2, bytes]
    refine ⟨_, q.clear, ?_, hq.state, leads_dispatch hd hhead (hk _ _)⟩
    apply hq.call_request
    rw [hf, body, ← hq.body]
  | length f b =>
    rw [hf] at hfr hit
    by_cases hb : b = []
    · have hd : p.iterate (r.bytes ++ y) = .dispatch q y (if q.expectContinue then continueLine else []) := by
        rw [hit, Parser.startBody]; simp [hfr.1, hfr.2, bytes, hb]
      refine ⟨_, q.clear, ?_, hq.state, leads_dispatch hd hhead (hk _ _)⟩
      apply hq.call_request
      rw [hf, body, hb, ← hq.body]
    · have hle := r.body_le
      rw [hf] at hle
      simp only [body] at hle
      have hpos : q.bodyRemaining > 0 := by rw [hfr.2]; exact length_pos_iff.2 hb
      have h₁ : (reader k).Leads (p, n) (r.bytes ++ y) [] ({ q with state := .bodyFixed }, n) (b ++ y) := by
        refine leads_more (if q.expectContinue then continueLine else []) ?_ hhead
        rw [hit, Parser.startBody]; simp [hfr.1, hpos, bytes]
      have hd : ({ q with state := .bodyFixed } : Parser).iterate (b ++ y) =
          .dispatch { q with state := .head, body := b, bodyRemaining := 0 } y [] := by
        have hm : min b.length (b ++ y).length = b.length := by simp
        have hb : ¬ b.length > kMaxBodyBytes := by omega
        simp only [Parser.iterate, Parser.iterateBodyFixed, hfr.2, hm, take_left, drop_left, hq.body,
          nil_append, if_neg hb, Nat.sub_self, gt_iff_lt, lt_irrefl, if_false]
      refine ⟨_, _, ?_, ?_, h₁.trans (leads_dispatch hd (shortSizeLine_of_ne (by simp) _) (hk _ _))⟩
      · apply hq.call_request
        rw [hf]; rfl
      · rfl
  | chunked f cs last ts =>
    have hok := r.framing_ok
    have hle := r.body_le
    rw [hf] at hfr hit hok hle
    simp only [body] at hle
    have h₁ : (reader k).Leads (p, n) (r.bytes ++ y) [] ({ q with state := .chunkSize }, n)
        ((chunked f cs last ts).bytes ++ y) := by
      refine leads_more (if q.expectContinue then continueLine else []) ?_ hhead
      rw [hit, Parser.startBody]; simp [hfr]
    have hbytes : (chunked f cs last ts).bytes ++ y = cs.flatMap Chunk.bytes ++
        (last.line ++ (crlf ++ (ts.flatMap (fun t => t.line ++ crlf) ++ (crlf ++ y)))) := by
      simp [bytes]
    obtain ⟨q₂, hq₂, h₂⟩ := leads_chunks (k := k) cs (p := { q with state := .chunkSize }) n
      (last.line ++ (crlf ++ (ts.flatMap (fun t => t.line ++ crlf) ++ (crlf ++ y)))) rfl (by simp [hq.body]; simpa using hle)
    have h₃ := leads_sizeLine (k := k) (p := q₂) (by rw [hq₂]) last (by rw [hok.2.2]; omega) n
      (ts.flatMap (fun t => t.line ++ crlf) ++ (crlf ++ y))
    rw [if_pos hok.2.2] at h₃
    have h₄ := leads_trailers (k := k) ts (p := { q₂ with chunkRemaining := last.size, state := .trailers }) n (crlf ++ y) rfl
    have hd : ({ q₂ with chunkRemaining := last.size, state := .trailers } : Parser).iterate (crlf ++ y) =
        .dispatch { q₂ with chunkRemaining := last.size, state := .head } y [] := by
      have hz : find crlf (crlf ++ y) = some 0 := find_zero ⟨y, rfl⟩
      simp only [Parser.iterate, Parser.iterateTrailers, hz, if_true]; rfl
    have h₅ := leads_dispatch (k := k) (n := n) hd (shortSizeLine_of_ne (by simp) _) (hk _ _)
    rw [← hbytes] at h₂
    refine ⟨_, _, ?_, rfl, h₁.trans (h₂.trans (h₃.trans (h₄.trans h₅)))⟩
    apply hq.call_request
    rw [hf, hq₂]; simp [hq.body, body]

theorem reader_requests : ∀ (rs : List Request) {p : Parser} (n : Nat) (y : Bytes), p.state = .head →
    ∃ (cs : List Call) (p' : Parser), cs.map Call.request = rs.map Request.parts ∧ p'.state = .head ∧
      (reader k).Leads (p, n) (rs.flatMap Request.bytes ++ y) cs (p', n + rs.length) y
  | [], p, n, y, hp => ⟨[], p, rfl, hp, .refl _ _⟩
  | r :: rs, p, n, y, hp => by
    obtain ⟨c, p₁, hc, hp₁, h₁⟩ := reader_request hk r hp n (rs.flatMap Request.bytes ++ y)
    obtain ⟨cs, p₂, hcs, hp₂, h₂⟩ := reader_requests rs (n + 1) y hp₁
    refine ⟨c :: cs, p₂, by simp [hc, hcs], hp₂, ?_⟩
    rw [flatMap_cons, append_assoc, length_cons, show n + (rs.length + 1) = n + 1 + rs.length by omega]
    exact h₁.trans h₂

theorem feedAll_requests (rs : List Request) (xs : List Bytes) (hxs : xs.flatten = rs.flatMap Request.bytes) :
    ∃ (cs : List Call) (p : Parser), cs.map Call.request = rs.map Request.parts ∧ p.state = .head ∧
      (reader k).feedAll ({}, 0) [] xs = (cs, .waiting (p, rs.length) []) := by
  obtain ⟨cs, p, hcs, hp, hl⟩ := reader_requests hk rs (p := {}) 0 [] rfl
  rw [append_nil, Nat.zero_add] at hl
  have hend := round_boundary (k := k) hp rs.length
  have hstable : (reader k).HaltStable ({}, 0) (rs.flatMap Request.bytes) := by
    refine hl.stable (.of_wait hend fun x y hxy o e => ?_)
    obtain ⟨rfl, rfl⟩ := append_eq_nil_iff.1 hxy.symm; rw [hend]; simp
  refine ⟨cs, p, hcs, hp, ?_⟩
  rw [Consumer.feedAll_eq_feed reader_local (round_boundary rfl 0) (by rw [hxs]; exact hstable), nil_append, hxs,
    Consumer.feed_goes hl.goes, Consumer.feed_wait hend, append_nil]

end Requests

/-- A field with one blank in front of its value. -/
def Field.ofText (name value : String) (h₁ : text name ≠ [] := by decide +kernel)
    (h₂ : ∀ c ∈ text name, c ≠ sp ∧ c ≠ tab ∧ c ≠ cr ∧ c ≠ lf ∧ c ≠ colon := by decide +kernel)
    (h₃ : ∀ c ∈ text value, c ≠ cr ∧ c ≠ lf := by decide +kernel)
    (h₄ : ∀ c ∈ (text value).head?, isBlank c = false := by decide +kernel)
    (h₅ : ∀ c ∈ (text value).getLast?, isBlank c = false := by decide +kernel) : Field :=
  ⟨text name, text value, [sp], [], h₁, h₂, h₃, h₄, h₅, by simp [isBlank], by simp⟩

/-- A request with a Content-Length. -/
def postRequest : Request where
  method := text "POST"
  target := text "/a"
  version := text "HTTP/1.1"
  before := [.ofText "Host" "h"]
  framing := .length (.ofText "Content-Length" "2") (text "hi")
  after := []
  method_ne := by decide +kernel
  method_ok := by decide +kernel
  target_ne := by decide +kernel
  target_ok := by decide +kernel
  version_ok := by decide +kernel
  before_ok := by decide +kernel
  after_ok := by decide +kernel
  framing_ok := by
    simp only [Framing.Ok, Field.ofText]
    decide +kernel
  head_le := by decide +kernel
  body_le := by decide +kernel

/-- A request in one chunk, with an extension and a trailer line. -/
def chunkedRequest : Request where
  method := text "PUT"
  target := text "/b"
  version := text "HTTP/1.1"
  before := []
  framing := .chunked (.ofText "Transfer-Encoding" "chunked")
    [⟨⟨text "3", text ";x", by decide +kernel, by decide +kernel, by decide +kernel, by decide +kernel, by decide +kernel⟩, text "abc", by decide +kernel, by decide +kernel⟩]
    ⟨text "0", [], by decide +kernel, by decide +kernel, by decide +kernel, by decide +kernel, by decide +kernel⟩ [⟨text "T: t", by decide +kernel, by decide +kernel⟩]
  after := []
  method_ne := by decide +kernel
  method_ok := by decide +kernel
  target_ne := by decide +kernel
  target_ok := by decide +kernel
  version_ok := by decide +kernel
  before_ok := by decide +kernel
  after_ok := by decide +kernel
  framing_ok := by
    simp only [Framing.Ok, Field.ofText]
    decide +kernel
  head_le := by decide +kernel
  body_le := by decide +kernel

end NodeCompat.Http
