import NodeCompat.Http.Head
import NodeCompat.Lib.Lines

/-!
# The field loop, line by line

`parseHead` goes over the lines of a head. What a line does to `keepAlive_` depends on nothing but that
flag, and nothing else depends on it (`scanLines_split`), so the two can be followed apart. A list of tokens is searched item
by item (`hasToken_joined`).
-/

namespace NodeCompat.Http

open List Option Bool

theorem cr_ne_lf : cr ≠ lf := by decide

/-- The lines of a head. -/
abbrev headLines (head : Bytes) : List Bytes := splitLines cr lf head

/-! ## Tokens of a list -/

section
variable {token : Bytes}

theorem asciiEquals_nil (ht : token ≠ []) : asciiEqualsIgnoreCase [] token = false := by
  cases token with
  | nil => exact absurd rfl ht
  | cons c cs => rfl

theorem trimBlanks_blank {c : UInt8} (hc : isBlank c = true) (s : Bytes) : trimBlanks (c :: s) = trimBlanks s :=
  trimBlanks_append (a := [c]) (by simpa using hc)

theorem trimBlanks_concat {c : UInt8} (hc : isBlank c = true) (s : Bytes) : trimBlanks (s ++ [c]) = trimBlanks s := by
  unfold trimBlanks
  rw [dropWhile_append]
  split
  · next h =>
    have hnil : s.dropWhile isBlank = [] := by simpa using h
    rw [hnil]; simp [hc]
  · exact rdropWhile_concat_pos _ _ _ hc

theorem hasToken_head {a : Bytes} (ha : comma ∉ a) (w : Bytes) : headerValueHasToken (a ++ comma :: w) token =
      (asciiEqualsIgnoreCase (trimBlanks a) token || headerValueHasToken w token) := by
  have hd : (a ++ comma :: w).drop (a.length + 1) = w := by rw [← drop_drop, drop_left]; rfl
  rw [headerValueHasToken, dif_neg (by simp)]
  dsimp only; rw [find_single ha, getD_some, take_left, hd]

theorem hasToken_item (ht : token ≠ []) {a : Bytes} (ha : comma ∉ a) :
    headerValueHasToken a token = asciiEqualsIgnoreCase (trimBlanks a) token := by
  have hn : find [comma] a = none := by
    cases h : find [comma] a with
    | none => rfl
    | some i =>
      obtain ⟨⟨t, hd⟩, -⟩ := find_split h
      have hm : comma ∈ a.drop i := by simp [← hd]
      exact absurd (mem_of_mem_drop hm) ha
  rw [headerValueHasToken]
  split
  · next h =>
    subst h; exact (asciiEquals_nil ht).symm
  · dsimp only; rw [hn, getD_none, take_length, drop_eq_nil_of_le (by omega), headerValueHasToken]; simp

theorem hasToken_comma (ht : token ≠ []) (v w : Bytes) :
    headerValueHasToken (v ++ comma :: w) token = (headerValueHasToken v token || headerValueHasToken w token) := by
  by_cases hv : comma ∈ v
  · obtain ⟨a, b, rfl, ha⟩ := eq_append_cons_of_mem hv
    have ih := hasToken_comma ht b w
    rw [append_assoc, cons_append, hasToken_head ha, hasToken_head ha, ih, Bool.or_assoc]
  · rw [hasToken_head hv, hasToken_item ht hv]
termination_by v.length
decreasing_by
  subst_vars
  simp
  omega

/-- **A list is searched item by item.** -/
theorem hasToken_joined (ht : token ≠ []) (vs : List Bytes) :
    headerValueHasToken (joined [comma] vs) token = vs.any (headerValueHasToken · token) := by
  induction vs with
  | nil => rw [joined, headerValueHasToken]; rfl
  | cons v vs ih =>
    cases vs with
    | nil => simp [joined]
    | cons w vs => rw [joined_cons _ _ (by simp), singleton_append, hasToken_comma ht, ih]; rfl

theorem hasToken_blank (ht : token ≠ []) {c : UInt8} (hc : isBlank c = true) (v : Bytes) :
    headerValueHasToken (c :: v) token = headerValueHasToken v token := by
  have hcc : c ≠ comma := by rintro rfl; exact absurd hc (by decide)
  by_cases hv : comma ∈ v
  · obtain ⟨a, b, rfl, ha⟩ := eq_append_cons_of_mem hv
    have hca : comma ∉ c :: a := by simp [ha, Ne.symm hcc]
    rw [← cons_append, hasToken_head hca, hasToken_head ha, trimBlanks_blank hc]
  · rw [hasToken_item ht (by simp [hv, Ne.symm hcc]), hasToken_item ht hv, trimBlanks_blank hc]

theorem hasToken_concat (ht : token ≠ []) {c : UInt8} (hc : isBlank c = true) (v : Bytes) :
    headerValueHasToken (v ++ [c]) token = headerValueHasToken v token := by
  have hcc : c ≠ comma := by rintro rfl; exact absurd hc (by decide)
  by_cases hv : comma ∈ v
  · obtain ⟨a, b, rfl, ha⟩ := eq_append_cons_of_mem hv
    rw [append_assoc, cons_append, hasToken_head ha, hasToken_head ha, hasToken_concat ht hc b]
  · rw [hasToken_item ht (by simp [hv, Ne.symm hcc]), hasToken_item ht hv, trimBlanks_concat hc]
termination_by v.length
decreasing_by
  subst_vars
  simp
  omega

theorem hasToken_trimBlanks (ht : token ≠ []) (v : Bytes) :
    headerValueHasToken (trimBlanks v) token = headerValueHasToken v token := by
  have hr : ∀ v : Bytes, headerValueHasToken (v.rdropWhile isBlank) token = headerValueHasToken v token := by
    intro v
    induction v using List.reverseRecOn with
    | nil => rfl
    | append_singleton v c ih =>
      by_cases hc : isBlank c = true
      · rw [rdropWhile_concat_pos _ _ _ hc, ih, hasToken_concat ht hc]
      · rw [rdropWhile_concat_neg _ _ _ hc]
  rw [trimBlanks, hr]
  induction v with
  | nil => rfl
  | cons c v ih =>
    by_cases hc : isBlank c = true
    · rw [dropWhile_cons_of_pos hc, ih, hasToken_blank ht hc]
    · rw [dropWhile_cons_of_neg hc]

end

/-! ## Lines -/

variable (s : FieldScan)

/-- The field loop over lines; empty ones are skipped. -/
def FieldScan.scanLines (s : FieldScan) (ls : List Bytes) : Option FieldScan :=
  (ls.filter (fun l => !l.isEmpty)).foldlM FieldScan.line s

theorem FieldScan.scanLines_nil : s.scanLines [] = some s := rfl

open FieldScan

theorem FieldScan.scanLines_cons {l : Bytes} (hl : l ≠ []) (ls : List Bytes) :
    s.scanLines (l :: ls) = (s.line l).bind (fun s' => s'.scanLines ls) := by
  unfold scanLines; rw [filter_cons_of_pos (by simpa using hl)]; rfl

theorem FieldScan.scanLines_append (ls ms : List Bytes) :
    s.scanLines (ls ++ ms) = (s.scanLines ls).bind (fun s' => s'.scanLines ms) := by
  unfold scanLines; rw [filter_append, foldlM_append]; rfl

theorem FieldScan.scanLines_rest (rest : Bytes) :
    s.scanLines (headLines rest) = s.scanLines (rest.take ((find crlf rest).getD rest.length) ::
      headLines (rest.drop ((find crlf rest).getD rest.length + 2))) := by
  cases hf : find crlf rest with
  | none =>
    have hl : headLines rest = [rest] := splitLines_line hf
    rw [hl, getD_none, take_length, drop_eq_nil_of_le (by omega)]
    unfold scanLines; rw [filter_cons, filter_cons]; rfl
  | some i => exact congrArg s.scanLines (splitLines_find cr_ne_lf hf)

/-- **The field loop goes over the lines.** -/
theorem FieldScan.loop_eq (rest : Bytes) : s.loop rest = s.scanLines (headLines rest) := by
  fun_induction loop s rest with
  | case1 s => rfl
  | case2 s rest hr eol header hh ih =>
    rw [ih, scanLines_rest s rest, show rest.take ((find crlf rest).getD rest.length) = [] from hh]; rfl
  | case3 s rest hr eol header hh hl =>
    rw [scanLines_rest s rest, scanLines_cons s hh, hl]; rfl
  | case4 s rest hr eol header hh s₁ hl ih =>
    rw [ih, scanLines_rest s rest, scanLines_cons s hh, hl]; rfl

/-- What an accepted head says about the body and the connection: the length, whether it is chunked, and `keepAlive_`. -/
def outcome (head : Bytes) : Option (Nat × Bool × Bool) :=
  match parseHead head with
  | .ok p => some (p.bodyRemaining, p.chunked, p.keepAlive)
  | .error _ => none

/-- The same, from the lines of the head. -/
def outcomeOf : List Bytes → Option (Nat × Bool × Bool)
  | [] => none
  | line :: ls =>
    (parseRequestLine line).bind fun r =>
      (FieldScan.scanLines { keepAlive := r.2.2 == text "HTTP/1.1" } ls).bind fun s =>
        s.bodyLength.map fun n => (n, s.chunked, s.keepAlive)

/-- **`parseHead` goes over the lines of the head.** -/
theorem outcome_eq (head : Bytes) : outcome head = outcomeOf (headLines head) := by
  have hlines : ∃ ls, headLines head = head.take ((find crlf head).getD head.length) :: ls ∧
      ∀ s : FieldScan, s.loop ((find crlf head).elim [] (fun e => head.drop (e + 2))) = s.scanLines ls := by
    cases hf : find crlf head with
    | none => exact ⟨[], by rw [getD_none, take_length]; exact splitLines_line hf, fun s => loop_eq s []⟩
    | some i => exact ⟨_, splitLines_find cr_ne_lf hf, fun s => loop_eq s _⟩
  obtain ⟨ls, hl, hloop⟩ := hlines
  rw [hl]
  unfold outcome outcomeOf parseHead
  dsimp only
  cases parseRequestLine (head.take ((find crlf head).getD head.length)) with
  | none => rfl
  | some r =>
    dsimp only [bind_some]
    rw [hloop]
    cases scanLines { keepAlive := r.2.2 == text "HTTP/1.1" } ls with
    | none => rfl
    | some s =>
      dsimp only [bind_some]
      cases s.bodyLength <;> rfl

/-! ## `keepAlive_` apart from the rest -/

def isConnection (name : Bytes) : Bool := asciiEqualsIgnoreCase name (text "connection")

/-- What a `Connection` field makes of `keepAlive_`. -/
def persists (value : Bytes) (keepAlive : Bool) : Bool :=
  if headerValueHasToken value (text "close") then false
  else if headerValueHasToken value (text "keep-alive") then true
  else keepAlive

/-- The name and the value of a field line. -/
def fieldOf (header : Bytes) : Bytes × Bytes :=
  let c := (find [colon] header).getD 0
  (header.take c, trimBlanks (header.drop (c + 1)))

/-- What a line makes of `keepAlive_`. -/
def keepOf (keepAlive : Bool) (header : Bytes) : Bool :=
  if isConnection (fieldOf header).1 then persists (fieldOf header).2 keepAlive else keepAlive

/-- What the loop has found, without `keepAlive_` and the fields gone over. -/
def FieldScan.core (s : FieldScan) : FieldScan := { s with keepAlive := true, fields := [] }

theorem asciiEquals_unique {name a b : Bytes} (h : asciiEqualsIgnoreCase name a = true) (hab : a.map lowerByte ≠ b.map lowerByte) :
    asciiEqualsIgnoreCase name b = false := by
  unfold asciiEqualsIgnoreCase at h ⊢; rw [eq_of_beq h]; simpa using hab

theorem FieldScan.decide_split (name value : Bytes) (k : Bool) (fs : List (Bytes × Bytes)) :
    ({ s with keepAlive := k, fields := fs } : FieldScan).decide name value =
      (({ s with keepAlive := true, fields := [] } : FieldScan).decide name value).map (fun s' =>
        { s' with keepAlive := if isConnection name then persists value k else k, fields := fs }) := by
  unfold decide isConnection persists
  cases hl : asciiEqualsIgnoreCase name (text "content-length") with
  | true =>
    have hn := asciiEquals_unique (b := text "connection") hl (by decide)
    simp only [hn, if_true, false_eq_true, if_false]
    split <;> rfl
  | false =>
    cases ht : asciiEqualsIgnoreCase name (text "transfer-encoding") with
    | true =>
      have hn := asciiEquals_unique (b := text "connection") ht (by decide)
      simp only [hn, if_true, false_eq_true, if_false]
      split <;> rfl
    | false =>
      cases hc : asciiEqualsIgnoreCase name (text "connection") with
      | true =>
        simp only [if_true, false_eq_true, if_false]
        split
        · rfl
        · split <;> rfl
      | false =>
        simp only [false_eq_true, if_false]
        split
        · split <;> rfl
        · rfl

theorem FieldScan.line_eq {header : Bytes} {c : Nat} (hf : find [colon] header = some (c + 1)) :
    s.line header = if (fieldOf header).1.any isBlank then none
      else ({ s with fields := s.fields ++ [fieldOf header] } : FieldScan).decide (fieldOf header).1 (fieldOf header).2 := by
  unfold line fieldOf; rw [hf]; rfl

theorem FieldScan.line_split (header : Bytes) : s.line header = (s.core.line header).map (fun s' =>
      { s' with keepAlive := keepOf s.keepAlive header, fields := s.fields ++ s'.fields }) := by
  match hf : find [colon] header with
  | none =>
    unfold line; rw [hf]; rfl
  | some 0 =>
    unfold line; rw [hf]; rfl
  | some (c + 1) =>
    rw [s.line_eq hf, s.core.line_eq hf]
    split
    · rfl
    · have h₁ := decide_split s (fieldOf header).1 (fieldOf header).2 s.keepAlive (s.fields ++ [fieldOf header])
      have h₂ := decide_split s (fieldOf header).1 (fieldOf header).2 true [fieldOf header]
      refine h₁.trans (Eq.trans ?_ (congrArg (Option.map _) h₂).symm)
      rw [Option.map_map]; rfl

/-- **What the lines make of `keepAlive_`, and of the rest.** -/
theorem FieldScan.scanLines_split (ls : List Bytes) : s.scanLines ls = (s.core.scanLines ls).map (fun s' =>
      { s' with
        keepAlive := (ls.filter (fun l => !l.isEmpty)).foldl keepOf s.keepAlive
        fields := s.fields ++ s'.fields }) := by
  induction ls generalizing s with
  | nil => simp [scanLines_nil, core]
  | cons l ls ih =>
    by_cases hl : l = []
    · subst hl; exact ih s
    · rw [scanLines_cons s hl, scanLines_cons s.core hl, s.line_split l,
        filter_cons_of_pos (by simpa using hl), foldl_cons]
      cases hline : s.core.line l with
      | none => rfl
      | some s₁ =>
        simp only [map_some, bind_some]
        rw [ih, ih s₁, Option.map_map]
        congr 1
        funext s'
        simp

/-- What the lines make of all but `keepAlive_`. -/
def FieldScan.bareScan (s : FieldScan) (ls : List Bytes) : Option FieldScan := (s.scanLines ls).map FieldScan.core

theorem FieldScan.bareScan_core (ls : List Bytes) : s.core.bareScan ls = s.bareScan ls := by
  unfold bareScan; rw [s.scanLines_split ls, Option.map_map]; rfl

theorem FieldScan.bareScan_append (ls ms : List Bytes) :
    s.bareScan (ls ++ ms) = (s.bareScan ls).bind (fun s' => s'.bareScan ms) := by
  unfold bareScan
  rw [scanLines_append]
  cases s.scanLines ls with
  | none => rfl
  | some s' => exact (s'.bareScan_core ms).symm

theorem FieldScan.bareScan_line {l : Bytes} (hl : l ≠ []) :
    s.bareScan [l] = (s.core.line l).map FieldScan.core := by
  rw [← bareScan_core]
  unfold bareScan
  rw [scanLines_cons s.core hl]
  cases s.core.line l <;> rfl

/-- What the lines make of `keepAlive_`. -/
def keepAfter (keepAlive : Bool) (ls : List Bytes) : Bool := (ls.filter (fun l => !l.isEmpty)).foldl keepOf keepAlive

theorem keepAfter_append (keepAlive : Bool) (ls ms : List Bytes) :
    keepAfter keepAlive (ls ++ ms) = keepAfter (keepAfter keepAlive ls) ms := by
  unfold keepAfter; rw [filter_append, foldl_append]

/-- **The outcome, with `keepAlive_` apart.** -/
theorem outcomeOf_cons (line : Bytes) (ls : List Bytes) :
    outcomeOf (line :: ls) = (parseRequestLine line).bind fun r =>
      (FieldScan.bareScan { keepAlive := true } ls).bind fun s =>
        s.bodyLength.map fun n => (n, s.chunked, keepAfter (r.2.2 == text "HTTP/1.1") ls) := by
  refine congrArg (Option.bind (parseRequestLine line)) (funext fun r => ?_)
  have hs := scanLines_split { keepAlive := r.2.2 == text "HTTP/1.1" } ls
  rw [hs]
  unfold bareScan core
  cases scanLines { keepAlive := true } ls <;> rfl

end NodeCompat.Http
