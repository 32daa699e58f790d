import NodeCompat.Http.FieldLines

/-!
# Field lines and comma lists

`parseHead` takes each `Connection` and `Transfer-Encoding` line for itself: the last `Connection` line with one of the two
tokens wins, and every `Transfer-Encoding` line needs its own `chunked`. A comma list is searched as a whole: `close` wins,
and one `chunked` is enough. So a list and the lines with its items mean the same only when the lines agree
(`lists_mean_lines`).
-/

namespace NodeCompat.Http

open List Option FieldScan

/-! ## Lines of a known name -/

/-- The field names that this is about. -/
inductive ListField
  | connection
  | transferEncoding
deriving DecidableEq

def ListField.name : ListField → Bytes
  | connection => text "connection"
  | transferEncoding => text "transfer-encoding"

/-- A field line. -/
def fieldLine (f : Bytes × Bytes) : Bytes := f.1 ++ colon :: f.2

section
variable {field : ListField} {name : Bytes}

theorem not_mem_name {c : UInt8} (hc : ∀ field : ListField, lowerByte c ∉ field.name.map lowerByte)
    (h : asciiEqualsIgnoreCase name field.name = true) : c ∉ name := by
  intro hm
  have := List.mem_map_of_mem (f := lowerByte) hm; rw [eq_of_beq h] at this; exact hc field this

theorem colon_not_mem_name (h : asciiEqualsIgnoreCase name field.name = true) : colon ∉ name :=
  not_mem_name (by rintro (_ | _) <;> decide) h

theorem name_no_blank (field : ListField) (h : asciiEqualsIgnoreCase name field.name = true) : name.any isBlank = false := by
  refine List.any_eq_false.2 (fun c hc hb => ?_)
  rcases Bool.or_eq_true_iff.1 hb with hb | hb
  · rw [eq_of_beq hb] at hc
    exact not_mem_name (by rintro (_ | _) <;> decide) h hc
  · rw [eq_of_beq hb] at hc
    exact not_mem_name (by rintro (_ | _) <;> decide) h hc

theorem name_ne_nil (h : asciiEqualsIgnoreCase name field.name = true) : name ≠ [] := by
  rintro rfl
  cases field <;> exact absurd h (by decide)

theorem find_fieldLine (field : ListField) (h : asciiEqualsIgnoreCase name field.name = true) (v : Bytes) :
    ∃ c, find [colon] (fieldLine (name, v)) = some (c + 1) ∧ fieldOf (fieldLine (name, v)) = (name, trimBlanks v) := by
  have hf : find [colon] (fieldLine (name, v)) = some name.length := find_single (colon_not_mem_name h)
  have hd : (name ++ colon :: v).drop (name.length + 1) = v := by rw [← drop_drop, drop_left]; rfl
  obtain ⟨c, cs, rfl⟩ := exists_cons_of_ne_nil (name_ne_nil h)
  refine ⟨cs.length, hf, ?_⟩
  unfold fieldOf; rw [hf]; exact Prod.ext take_left (congrArg trimBlanks hd)

theorem fieldLine_ne_nil (f : Bytes × Bytes) : fieldLine f ≠ [] := by
  simp [fieldLine]

end

/-! ## What the lines do -/

variable {fs : List (Bytes × Bytes)}

variable (vs : List Bytes)

variable (k : Bool)

theorem text_ne_nil : text "close" ≠ [] ∧ text "keep-alive" ≠ [] ∧ text "chunked" ≠ [] := by decide

theorem bareScan_connection {name : Bytes} (h : asciiEqualsIgnoreCase name (text "connection") = true) (v : Bytes)
    (s : FieldScan) : s.bareScan [fieldLine (name, v)] = some s.core := by
  obtain ⟨c, hf, hfo⟩ := find_fieldLine .connection h v
  have hl := asciiEquals_unique (b := text "content-length") h (by decide)
  have ht := asciiEquals_unique (b := text "transfer-encoding") h (by decide)
  rw [FieldScan.bareScan_line s (fieldLine_ne_nil _), s.core.line_eq hf, hfo]
  rw [name_no_blank .connection h]
  unfold FieldScan.decide
  simp only [hl, ht, h, Bool.false_eq_true, if_false, if_true]
  split
  · rfl
  · split <;> rfl

theorem bareScan_encoding {name : Bytes} (h : asciiEqualsIgnoreCase name (text "transfer-encoding") = true) (v : Bytes)
    (s : FieldScan) : s.bareScan [fieldLine (name, v)] =
      if headerValueHasToken v (text "chunked") then some { s.core with chunked := true } else none := by
  obtain ⟨c, hf, hfo⟩ := find_fieldLine .transferEncoding h v
  have hl := asciiEquals_unique (b := text "content-length") h (by decide)
  rw [FieldScan.bareScan_line s (fieldLine_ne_nil _), s.core.line_eq hf, hfo]
  rw [name_no_blank .transferEncoding h]
  unfold FieldScan.decide
  simp only [hl, h, Bool.false_eq_true, if_false, if_true, hasToken_trimBlanks text_ne_nil.2.2]
  split <;> rfl

theorem keepAfter_encoding {name : Bytes} (h : asciiEqualsIgnoreCase name (text "transfer-encoding") = true) (v : Bytes)
    (k : Bool) : keepAfter k [fieldLine (name, v)] = k := by
  obtain ⟨c, -, hfo⟩ := find_fieldLine .transferEncoding h v
  have hn : isConnection name = false := asciiEquals_unique h (by decide)
  unfold keepAfter
  rw [filter_cons_of_pos (by simp [fieldLine_ne_nil])]
  show keepOf k (fieldLine (name, v)) = k
  unfold keepOf; rw [hfo, if_neg (by simp [hn])]

theorem persists_trimBlanks (v : Bytes) (k : Bool) : persists (trimBlanks v) k = persists v k := by
  unfold persists; rw [hasToken_trimBlanks text_ne_nil.1, hasToken_trimBlanks text_ne_nil.2.1]

theorem keepAfter_connection {name : Bytes} (h : asciiEqualsIgnoreCase name (text "connection") = true) (v : Bytes)
    (k : Bool) : keepAfter k [fieldLine (name, v)] = persists v k := by
  obtain ⟨c, -, hfo⟩ := find_fieldLine .connection h v
  have hn : isConnection name = true := h
  unfold keepAfter
  rw [filter_cons_of_pos (by simp [fieldLine_ne_nil])]
  show keepOf k (fieldLine (name, v)) = persists v k
  unfold keepOf; rw [hfo, if_pos hn, persists_trimBlanks]

/-! ## Several lines -/

/-- Whether a value settles `keepAlive_`. -/
def decides (value : Bytes) : Bool := headerValueHasToken value (text "close") || headerValueHasToken value (text "keep-alive")

/-- Whether the last value that settles `keepAlive_` has `close`. -/
def lastCloses (values : List Bytes) : Bool :=
  match values.reverse.find? decides with
  | some value => headerValueHasToken value (text "close")
  | none => false

theorem persists_decides {v : Bytes} (h : decides v = true) (k : Bool) :
    persists v k = !headerValueHasToken v (text "close") := by
  unfold decides at h
  unfold persists
  cases hc : headerValueHasToken v (text "close") with
  | true => rfl
  | false => rw [hc, Bool.false_or] at h; simp [h]

theorem persists_of_not {v : Bytes} (h : decides v = false) (k : Bool) : persists v k = k := by
  obtain ⟨hc, ha⟩ := Bool.or_eq_false_iff.1 h; simp [persists, hc, ha]

theorem foldl_persists : vs.foldl (fun k v => persists v k) k =
    match vs.reverse.find? decides with
    | some v => !headerValueHasToken v (text "close")
    | none => k := by
  induction vs using List.reverseRecOn with
  | nil => rfl
  | append_singleton vs v ih =>
    rw [foldl_append, reverse_append, reverse_singleton, singleton_append]
    show persists v (vs.foldl _ k) = _
    cases hd : decides v with
    | true =>
      rw [persists_decides hd, find?_cons_of_pos hd]
    | false =>
      rw [persists_of_not hd, ih, find?_cons_of_neg (by simp [hd])]

theorem persists_joined : persists (joined [comma] vs) k =
    if vs.any (headerValueHasToken · (text "close")) then false else if vs.any decides then true else k := by
  unfold persists
  rw [hasToken_joined text_ne_nil.1, hasToken_joined text_ne_nil.2.1]
  split
  · rfl
  · next hc =>
    have hcc : ∀ v ∈ vs, headerValueHasToken v (text "close") = false := by simpa using hc
    have heq : vs.any decides = vs.any (headerValueHasToken · (text "keep-alive")) := by
      rw [Bool.eq_iff_iff, List.any_eq_true, List.any_eq_true]
      refine exists_congr (fun v => and_congr_right (fun hv => ?_))
      simp [decides, hcc v hv]
    rw [heq]

/-- **When lines and list settle `keepAlive_` alike.** -/
theorem persists_agree : vs.foldl (fun k v => persists v k) k = persists (joined [comma] vs) k ↔
    vs.all (fun v => !headerValueHasToken v (text "close")) = true ∨ lastCloses vs = true := by
  rw [foldl_persists, persists_joined]
  unfold lastCloses
  cases hf : vs.reverse.find? decides with
  | none =>
    have hnone : ∀ v ∈ vs, decides v = false := by simpa using hf
    have hclose : ∀ v ∈ vs, headerValueHasToken v (text "close") = false := fun v hv =>
      (Bool.or_eq_false_iff.1 (hnone v hv)).1
    have h₁ : vs.any (headerValueHasToken · (text "close")) = false := List.any_eq_false.2 (fun v hv => by simp [hclose v hv])
    have h₂ : vs.any decides = false := List.any_eq_false.2 (fun v hv => by simp [hnone v hv])
    have h₃ : vs.all (fun v => !headerValueHasToken v (text "close")) = true :=
      List.all_eq_true.2 (fun v hv => by simp [hclose v hv])
    rw [h₁, h₂, h₃]; simp
  | some v =>
    have hm : v ∈ vs := by simpa using mem_of_find?_eq_some hf
    have hd : decides v = true := find?_some hf
    have hany : vs.any decides = true := List.any_eq_true.2 ⟨v, hm, hd⟩
    cases hc : headerValueHasToken v (text "close") with
    | true =>
      have : vs.any (headerValueHasToken · (text "close")) = true := List.any_eq_true.2 ⟨v, hm, hc⟩
      simp [hc, this]
    | false =>
      cases ha : vs.any (headerValueHasToken · (text "close")) with
      | true =>
        obtain ⟨u, hu, huc⟩ := List.any_eq_true.1 ha
        have hall : vs.all (fun v => !headerValueHasToken v (text "close")) = false := by
          rw [List.all_eq_false]; exact ⟨u, hu, by simp [huc]⟩
        simp [hc, hall]
      | false =>
        have hall : vs.all (fun v => !headerValueHasToken v (text "close")) = true := by
          simpa using ha
        simp [hc, hall, hany]

/-- Whether a line settles `keepAlive_`. -/
def decisive (line : Bytes) : Bool := isConnection (fieldOf line).1 && decides (fieldOf line).2

theorem keepAfter_cons {l : Bytes} (hl : l ≠ []) (ls : List Bytes) :
    keepAfter k (l :: ls) = keepAfter (keepOf k l) ls := by
  unfold keepAfter; rw [filter_cons_of_pos (by simpa using hl)]; rfl

theorem keepAfter_eq_iff (ls : List Bytes) (k₁ k₂ : Bool) :
    keepAfter k₁ ls = keepAfter k₂ ls ↔ k₁ = k₂ ∨ ls.any decisive = true := by
  induction ls generalizing k₁ k₂ with
  | nil => simp [keepAfter]
  | cons l ls ih =>
    by_cases hl : l = []
    · subst hl
      have hn : decisive [] = false := by decide
      show keepAfter k₁ ls = keepAfter k₂ ls ↔ _; rw [ih, any_cons, hn, Bool.false_or]
    · rw [keepAfter_cons k₁ hl, keepAfter_cons k₂ hl, ih, any_cons, Bool.or_eq_true]
      unfold keepOf decisive
      cases hc : isConnection (fieldOf l).1 with
      | false => simp
      | true =>
        cases hd : decides (fieldOf l).2 with
        | true => simp [persists_decides hd]
        | false => simp [persists_of_not hd]

theorem keepAfter_connections (h : ∀ f ∈ fs, asciiEqualsIgnoreCase f.1 (text "connection") = true)
    (k : Bool) : keepAfter k (fs.map fieldLine) = (fs.map Prod.snd).foldl (fun k v => persists v k) k := by
  induction fs generalizing k with
  | nil => rfl
  | cons f fs ih =>
    rw [map_cons, ← singleton_append, keepAfter_append,
      keepAfter_connection (h f mem_cons_self) f.2 k, ih (fun g hg => h g (mem_cons_of_mem f hg))]
    rfl

theorem keepAfter_encodings (h : ∀ f ∈ fs, asciiEqualsIgnoreCase f.1 (text "transfer-encoding") = true) (k : Bool) :
    keepAfter k (fs.map fieldLine) = k := by
  induction fs with
  | nil => rfl
  | cons f fs ih =>
    rw [map_cons, ← singleton_append, keepAfter_append, keepAfter_encoding (h f mem_cons_self) f.2 k,
      ih (fun g hg => h g (mem_cons_of_mem f hg))]

theorem bareScan_connections (h : ∀ f ∈ fs, asciiEqualsIgnoreCase f.1 (text "connection") = true)
    (s : FieldScan) : s.bareScan (fs.map fieldLine) = some s.core := by
  induction fs generalizing s with
  | nil => rfl
  | cons f fs ih =>
    rw [map_cons, ← singleton_append, bareScan_append, bareScan_connection (h f mem_cons_self),
      bind_some, ih (fun g hg => h g (mem_cons_of_mem f hg))]
    rfl

theorem bareScan_encodings
    (h : ∀ f ∈ fs, asciiEqualsIgnoreCase f.1 (text "transfer-encoding") = true) (hne : fs ≠ []) (s : FieldScan) :
    s.bareScan (fs.map fieldLine) =
      if (fs.map Prod.snd).all (headerValueHasToken · (text "chunked")) then some { s.core with chunked := true } else none := by
  induction fs generalizing s with
  | nil => exact absurd rfl hne
  | cons f fs ih =>
    rw [map_cons, ← singleton_append, bareScan_append, bareScan_encoding (h f mem_cons_self), map_cons, all_cons]
    cases hf : headerValueHasToken f.2 (text "chunked") with
    | false => rfl
    | true =>
      cases fs with
      | nil => rfl
      | cons g fs =>
        rw [if_pos rfl, bind_some, ih (fun g hg => h g (mem_cons_of_mem f hg)) (by simp), Bool.true_and]
        rfl

/-! ## Lists and lines -/

/-- The head with lines `line`, `before`, the given ones, and `after`. -/
def headOf (line : Bytes) (before given after : List Bytes) : Bytes := joined crlf (line :: (before ++ (given ++ after)))

/-- When the lines mean what the list means: every line has `chunked`; or the lines do not disagree on `keepAlive_`, or a
later line settles it. -/
def LinesAgree (field : ListField) (values after : List Bytes) : Bool :=
  match field with
  | .transferEncoding => values.all (headerValueHasToken · (text "chunked"))
  | .connection => values.all (fun v => !headerValueHasToken v (text "close")) || lastCloses values || after.any decisive

theorem outcome_headOf {line : Bytes} {before given after : List Bytes}
    (h : ∀ l ∈ line :: (before ++ (given ++ after)), find crlf l = none) :
    outcome (headOf line before given after) = outcomeOf (line :: (before ++ (given ++ after))) := by
  have hsplit : headLines (headOf line before given after) = (line :: (before ++ (given ++ after))).flatMap (splitLines cr lf) :=
    splitLines_joined cr_ne_lf (by simp)
  rw [outcome_eq, hsplit]
  congr 1
  generalize line :: (before ++ (given ++ after)) = ls at h ⊢
  induction ls with
  | nil => rfl
  | cons l ls ih =>
    rw [flatMap_cons, splitLines_line (h l mem_cons_self), ih (fun m hm => h m (mem_cons_of_mem l hm))]
    rfl

theorem connection_forms {name : Bytes} (line : Bytes) (before after : List Bytes)
    (hname : asciiEqualsIgnoreCase name (text "connection") = true)
    (hfs : ∀ f ∈ fs, asciiEqualsIgnoreCase f.1 (text "connection") = true) :
    outcomeOf (line :: (before ++ ([fieldLine (name, joined [comma] (fs.map Prod.snd))] ++ after))) = none ∧
        outcomeOf (line :: (before ++ (fs.map fieldLine ++ after))) = none ∨
      ∃ n chunked k,
        outcomeOf (line :: (before ++ ([fieldLine (name, joined [comma] (fs.map Prod.snd))] ++ after))) =
          some (n, chunked, keepAfter (persists (joined [comma] (fs.map Prod.snd)) k) after) ∧
        outcomeOf (line :: (before ++ (fs.map fieldLine ++ after))) =
          some (n, chunked, keepAfter ((fs.map Prod.snd).foldl (fun k v => persists v k) k) after) := by
  rw [outcomeOf_cons, outcomeOf_cons]
  cases parseRequestLine line with
  | none => exact .inl ⟨rfl, rfl⟩
  | some r =>
    simp only [bind_some, bareScan_append, keepAfter_append, keepAfter_connection hname, keepAfter_connections hfs]
    cases bareScan { keepAlive := true } before with
    | none => exact .inl ⟨rfl, rfl⟩
    | some s =>
      simp only [bind_some, bareScan_connection hname, bareScan_connections hfs]
      cases s.core.bareScan after with
      | none => exact .inl ⟨rfl, rfl⟩
      | some s' =>
        simp only [bind_some]
        cases s'.bodyLength with
        | none => exact .inl ⟨rfl, rfl⟩
        | some n => exact .inr ⟨n, s'.chunked, _, rfl, rfl⟩

theorem encoding_forms {name : Bytes} (line : Bytes) (before after : List Bytes)
    (hname : asciiEqualsIgnoreCase name (text "transfer-encoding") = true)
    (hfs : ∀ f ∈ fs, asciiEqualsIgnoreCase f.1 (text "transfer-encoding") = true) (hne : fs ≠ []) :
    outcomeOf (line :: (before ++ (fs.map fieldLine ++ after))) =
      if (fs.map Prod.snd).all (headerValueHasToken · (text "chunked")) then
        outcomeOf (line :: (before ++ ([fieldLine (name, joined [comma] (fs.map Prod.snd))] ++ after)))
      else none := by
  rw [outcomeOf_cons, outcomeOf_cons]
  cases parseRequestLine line with
  | none => simp
  | some r =>
    simp only [bind_some, bareScan_append, keepAfter_append, keepAfter_encoding hname, keepAfter_encodings hfs]
    cases bareScan { keepAlive := true } before with
    | none => simp
    | some s =>
      simp only [bind_some, bareScan_encoding hname, bareScan_encodings hfs hne, hasToken_joined text_ne_nil.2.2]
      cases hall : (fs.map Prod.snd).all (headerValueHasToken · (text "chunked")) with
      | false => rfl
      | true =>
        obtain ⟨f, fs', rfl⟩ := exists_cons_of_ne_nil hne
        have hany : ((f :: fs').map Prod.snd).any (headerValueHasToken · (text "chunked")) = true :=
          List.any_eq_true.2 ⟨f.2, by simp, List.all_eq_true.1 hall f.2 (by simp)⟩
        rw [hany]; rfl

/-- **Field lines and comma lists.** A head in which a `Connection` or `Transfer-Encoding` field is one list, and the head in
which it is several lines: when the list is refused, so are the lines; when it is accepted, the lines have the same outcome
exactly when they agree. -/
theorem lists_mean_lines (field : ListField) (line : Bytes) (before after : List Bytes) (name : Bytes)
    (fs : List (Bytes × Bytes)) (hname : asciiEqualsIgnoreCase name field.name = true)
    (hfs : ∀ f ∈ fs, asciiEqualsIgnoreCase f.1 field.name = true) (hne : fs ≠ [])
    (hlist : ∀ l ∈ line :: (before ++ ([fieldLine (name, joined [comma] (fs.map Prod.snd))] ++ after)), find crlf l = none)
    (hlines : ∀ l ∈ line :: (before ++ (fs.map fieldLine ++ after)), find crlf l = none) :
    let asList := outcome (headOf line before [fieldLine (name, joined [comma] (fs.map Prod.snd))] after)
    let asLines := outcome (headOf line before (fs.map fieldLine) after)
    (asList = none → asLines = none) ∧
      (asList ≠ none → (asLines = asList ↔ LinesAgree field (fs.map Prod.snd) after = true)) := by
  intro asList asLines
  have h₁ : asList = _ := outcome_headOf hlist
  have h₂ : asLines = _ := outcome_headOf hlines
  cases field with
  | connection =>
    rcases connection_forms line before after hname hfs with ⟨hn₁, hn₂⟩ | ⟨n, chunked, k, hs₁, hs₂⟩
    · rw [h₁, h₂, hn₁, hn₂]; exact ⟨fun _ => rfl, fun h => absurd rfl h⟩
    · rw [h₁, h₂, hs₁, hs₂]
      refine ⟨nofun, fun _ => ?_⟩
      simp only [Option.some.injEq, Prod.mk.injEq, true_and]
      rw [keepAfter_eq_iff, persists_agree]; simp only [LinesAgree, Bool.or_eq_true]
  | transferEncoding =>
    have hform := encoding_forms line before after hname hfs hne
    rw [h₁, h₂, hform]
    constructor
    · intro h
      rw [h]
      split <;> rfl
    · intro h
      unfold LinesAgree
      cases (fs.map Prod.snd).all (headerValueHasToken · (text "chunked")) with
      | true => simp
      | false => simp only [Bool.false_eq_true, if_false, iff_false]; exact Ne.symm h

def getLine : Bytes := text "GET / HTTP/1.1"

/-- A list and lines in which the last word is `close`. -/
theorem lists_mean_lines_close :
    outcome (headOf getLine [] [fieldLine (text "Connection", text "keep-alive,close")] []) = some (0, false, false) ∧
      outcome (headOf getLine [] [fieldLine (text "Connection", text "keep-alive"), fieldLine (text "connection", text "close")]
        []) = some (0, false, false) := by
  have h := (lists_mean_lines .connection getLine [] [] (text "Connection")
    [(text "Connection", text "keep-alive"), (text "connection", text "close")] (by decide) (by decide) (by decide)
    (by decide) (by decide)).2
  have hl : outcome (headOf getLine [] [fieldLine (text "Connection", text "keep-alive,close")] []) = some (0, false, false) := by
    decide +kernel
  exact ⟨hl, ((h (by decide +kernel)).2 (by decide +kernel)).trans hl⟩

/-- `close` on an earlier line does not win. -/
theorem close_line_loses : ¬ ∀ (line : Bytes) (before after : List Bytes) (fs : List (Bytes × Bytes)), fs ≠ [] →
    (∀ f ∈ fs, f.1 = text "Connection") →
    outcome (headOf line before (fs.map fieldLine) after) =
      outcome (headOf line before [fieldLine (text "Connection", joined [comma] (fs.map Prod.snd))] after) := by
  intro h
  have := h getLine [] [] [(text "Connection", text "close"), (text "Connection", text "keep-alive")] (by decide) (by decide)
  revert this
  decide +kernel

end NodeCompat.Http
