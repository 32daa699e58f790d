import NodeCompat.Http.AdapterAgrees
import NodeCompat.Http.JoinedHeaders

/-!
# The request's headers, as each adapter reads them

The header block of a request is read by three scanners: `IncomingMessage.headers` builds an object and keeps the first value
of a singleton header, `Headers.fromRawHead` joins every repeated field, and `hostOf` looks for the first `Host` line by its
code units. The last one finds what the first one keeps (`hostOf_headers`). The other two differ on a block if and only if a
singleton header is repeated in it, or a name without an ASCII upper-case letter has another lower case
(`views_agree_iff`).
-/

namespace NodeCompat.Http

open List Option

/-! ## `Headers.fromRawHead` -/

/-- What is put between the values of a repeated field. -/
def separator (lower : Bytes) : Bytes := if lower = text "cookie" then text "; " else text ", "

namespace Adapter.Headers

variable {toLowerCase : Bytes → Bytes}

/-- A field of the block: a new entry comes last, a repeated one is joined to the value that is there. -/
def joinEntry (lower value : Bytes) : List (Bytes × Bytes) → List (Bytes × Bytes)
  | [] => [(lower, value)]
  | f :: fs => if f.1 = lower then (f.1, f.2 ++ separator lower ++ value) :: fs else f :: joinEntry lower value fs

theorem joinEntry_names (lower value w : Bytes) (fs : List (Bytes × Bytes)) :
    (joinEntry lower value fs).map Prod.fst = (setEntry lower w fs).map Prod.fst := by
  induction fs with
  | nil => rfl
  | cons f fs ih =>
    rw [joinEntry, setEntry]
    split
    · rfl
    · rw [map_cons, map_cons, ih]

/-- One field of the block. -/
def join (hl : LowerCases toLowerCase) (headers : Headers toLowerCase) (name value : Bytes) : Headers toLowerCase where
  entries := joinEntry (toLowerCase name) value headers.entries
  nodup := by rw [joinEntry_names _ _ value]; exact nodup_setEntry _ _ headers.nodup
  lower := by
    intro f hf
    have hmem : f.1 ∈ (setEntry (toLowerCase name) value headers.entries).map Prod.fst := by
      rw [← joinEntry_names _ value]; exact List.mem_map_of_mem hf
    obtain ⟨g, hg, hgf⟩ := List.mem_map.1 hmem
    rw [← hgf]
    exact lower_setEntry hl name value headers.lower g hg

/-- The loop of `fromRawHead` over what is left of the block: the colon is looked for in all that is left of it. -/
def rawHeadLoop (hl : LowerCases toLowerCase) (headers : Headers toLowerCase) (rest : Bytes) : Headers toLowerCase :=
  if _h : rest = [] then headers
  else
    let eol := (find crlf rest).getD rest.length
    match find [colon] rest with
    | none => rawHeadLoop hl headers (rest.drop (eol + 2))
    | some c =>
      if 0 < c ∧ c < eol then
        rawHeadLoop hl (headers.join hl (rest.take c) (trimBlanks ((rest.take eol).drop (c + 1)))) (rest.drop (eol + 2))
      else rawHeadLoop hl headers (rest.drop (eol + 2))
termination_by rest.length
decreasing_by
  all_goals
    have := length_pos_iff.2 ‹¬rest = []›
    simp only [length_drop]
    omega

def fromRawHead (hl : LowerCases toLowerCase) (head : Bytes) : Headers toLowerCase := rawHeadLoop hl empty head

end Adapter.Headers

/-! ## `hostOf` -/

/-- The code units of `host:` at the front, letters in either case. -/
def isHostLine : Bytes → Bool
  | a :: b :: c :: d :: e :: _ => a ||| 32 == 104 && b ||| 32 == 111 && c ||| 32 == 115 && d ||| 32 == 116 && e == 58
  | _ => false

def hostOf (rest : Bytes) : Bytes :=
  if _h : rest = [] then text "localhost"
  else
    let eol := (find crlf rest).getD rest.length
    if isHostLine rest then
      let value := trimBlanks ((rest.take eol).drop 5)
      if value ≠ [] then value else text "localhost"
    else hostOf (rest.drop (eol + 2))
termination_by rest.length
decreasing_by
  have := length_pos_iff.2 ‹¬rest = []›
  simp only [length_drop]
  omega

/-! ## Folding the fields -/

/-- The value of a name that is read with these values: joined, or the first one. -/
def gathered (first : Bytes → Bool) (lower : Bytes) : List Bytes → Option Bytes
  | [] => none
  | v :: vs => some (if first lower then v else (separator lower).intercalate (v :: vs))

/-- A repeated value is dropped or joined to the one that is there. -/
def Gathers (first : Bytes → Bool) (add : List (Bytes × Bytes) → Bytes → Bytes → List (Bytes × Bytes)) : Prop :=
  ∀ es lower value k, (add es lower value).lookup k =
    if k = lower then some (match es.lookup lower with
      | none => value
      | some old => if first lower then old else old ++ separator lower ++ value)
    else es.lookup k

theorem lookup_gathers {first : Bytes → Bool} {add : List (Bytes × Bytes) → Bytes → Bytes → List (Bytes × Bytes)}
    (hadd : Gathers first add) (k : Bytes) (fs : List (Bytes × Bytes)) : ∀ es : List (Bytes × Bytes),
    (fs.foldl (fun es f => add es f.1 f.2) es).lookup k = gathered first k ((es.lookup k).toList ++ Multimap.values k fs) := by
  induction fs with
  | nil =>
    intro es
    cases h : es.lookup k with
    | none => simp [h, Multimap.values, gathered]
    | some v => simp [h, Multimap.values, gathered, List.intercalate]
  | cons f fs ih =>
    intro es
    rw [foldl_cons, ih, hadd]
    by_cases hf : f.1 = k
    · rw [if_pos hf.symm, Multimap.values_cons_self hf, hf]
      cases es.lookup k with
      | none => rfl
      | some v =>
        simp only [toList_some, singleton_append, gathered]
        split
        · rfl
        · rw [intercalate_step]
    · rw [if_neg (Ne.symm hf), Multimap.values_cons_ne hf]

theorem gathers_addIncomingHeader : Gathers isSingletonHeader addIncomingHeader := by
  intro es lower value k
  unfold addIncomingHeader
  rw [HeaderMap.hasOwnProperty_eq]
  cases hold : es.lookup lower with
  | none =>
    rw [if_pos (by simp), HeaderMap.lookup_set]
  | some old =>
    rw [if_neg (by simp)]
    cases hs : isSingletonHeader lower with
    | true =>
      rw [if_neg (by simp)]
      split
      · next hk => rw [hk, hold]; rfl
      · rfl
    | false => rw [if_pos (by simp), HeaderMap.lookup_set, HeaderMap.get, hold]; rfl

theorem gathers_joinEntry : Gathers (fun _ => false) (fun es lower value => Adapter.Headers.joinEntry lower value es) := by
  intro es lower value k
  dsimp only
  induction es with
  | nil =>
    by_cases hk : k = lower
    · simp [Adapter.Headers.joinEntry, hk]
    · have hkey : (k == lower) = false := beq_eq_false_iff_ne.2 hk; simp [Adapter.Headers.joinEntry, hk, hkey, lookup_cons]
  | cons f es ih =>
    rw [Adapter.Headers.joinEntry]
    by_cases hf : f.1 = lower
    · have hself : (lower == f.1) = true := beq_iff_eq.2 hf.symm
      rw [if_pos hf, lookup_cons, lookup_cons, lookup_cons, hself]
      by_cases hk : k = lower
      · rw [if_pos hk, hk, hself]; rfl
      · have hkey : (k == f.1) = false := beq_eq_false_iff_ne.2 (hf ▸ hk); rw [if_neg hk, hkey]
    · have hkey : (lower == f.1) = false := beq_eq_false_iff_ne.2 (Ne.symm hf)
      rw [if_neg hf, lookup_cons, ih, lookup_cons, lookup_cons, hkey]
      by_cases hk : k = lower
      · simp [hk, hkey]
      · cases k == f.1 <;> simp [hk]

/-! ## The fields of an accepted block -/

/-- The names and values that `rawHeaders` finds, in pairs. -/
def pairs : List Bytes → List (Bytes × Bytes)
  | name :: value :: raw => (name, value) :: pairs raw
  | _ => []

section Views

variable {toLowerCase : Bytes → Bytes}

variable {k : Bytes} {vs ws : List Bytes}

theorem headersOfRaw_fold (raw : List Bytes) (headers : HeaderMap) : headersOfRaw toLowerCase headers raw =
    ((pairs raw).map (fun f => (lowerHeaderName toLowerCase f.1, f.2))).foldl (fun es f => addIncomingHeader es f.1 f.2)
      headers := by
  fun_induction pairs raw generalizing headers with
  | case1 name value raw ih => exact ih _
  | case2 raw hraw =>
    unfold headersOfRaw
    split
    · next name value rest => exact absurd rfl (hraw name value rest)
    · rfl

theorem rawHeadLoop_fold (hl : LowerCases toLowerCase) (headers : Adapter.Headers toLowerCase) (rest : Bytes) :
    (Adapter.Headers.rawHeadLoop hl headers rest).entries =
      ((pairs (rawHeadersLoop rest)).map (fun f => (toLowerCase f.1, f.2))).foldl
        (fun es f => Adapter.Headers.joinEntry f.1 f.2 es) headers.entries := by
  fun_induction Adapter.Headers.rawHeadLoop hl headers rest with
  | case1 headers => simp [rawHeadersLoop, pairs]
  | case2 headers rest hr eol hf ih =>
    rw [ih, rawHeadersLoop_skip hr rfl]
    intro c hc; rw [(find_line.1 hc).1] at hf; cases hf
  | case3 headers rest hr eol c hf hc ih =>
    rw [ih, rawHeadersLoop_field hr rfl (find_line.2 ⟨hf, hc.2⟩) (by omega), take_take, Nat.min_eq_left hc.2.le]; rfl
  | case4 headers rest hr eol c hf hc ih =>
    rw [ih, rawHeadersLoop_skip hr rfl]
    intro i hi
    obtain ⟨hi, hlt⟩ := find_line.1 hi
    obtain rfl : c = i := Option.some.inj (hf.symm.trans hi); omega

/-! ## `hostOf` finds the first `Host` -/

theorem hostLetters (c : UInt8) : (c ||| 32 == 104) = (lowerByte c == 104) ∧ (c ||| 32 == 111) = (lowerByte c == 111) ∧
    (c ||| 32 == 115) = (lowerByte c == 115) ∧ (c ||| 32 == 116) = (lowerByte c == 116) := by
  have hall : ∀ n < 256, (UInt8.ofNat n ||| 32 == 104) = (lowerByte (UInt8.ofNat n) == 104) ∧
      (UInt8.ofNat n ||| 32 == 111) = (lowerByte (UInt8.ofNat n) == 111) ∧
      (UInt8.ofNat n ||| 32 == 115) = (lowerByte (UInt8.ofNat n) == 115) ∧
      (UInt8.ofNat n ||| 32 == 116) = (lowerByte (UInt8.ofNat n) == 116) := by decide +kernel
  have := hall c.toNat c.toNat_lt; rwa [UInt8.ofNat_toNat] at this

theorem isHostLine_iff (rest : Bytes) : isHostLine rest = true ↔
    ∃ name t, rest = name ++ colon :: t ∧ name.map lowerByte = text "host" := by
  have htext : text "host" = [104, 111, 115, 116] := by decide
  rw [htext]
  constructor
  · intro h
    unfold isHostLine at h
    split at h
    · next a b c d e t =>
      rw [(hostLetters a).1, (hostLetters b).2.1, (hostLetters c).2.2.1, (hostLetters d).2.2.2] at h
      simp only [Bool.and_eq_true, beq_iff_eq] at h
      obtain ⟨⟨⟨⟨ha, hb⟩, hc⟩, hd⟩, rfl⟩ := h
      exact ⟨[a, b, c, d], t, rfl, by simp [ha, hb, hc, hd]⟩
    · cases h
  · rintro ⟨name, t, rfl, hname⟩
    have hlen := congrArg List.length hname
    rw [length_map] at hlen
    obtain ⟨a, b, c, d, rfl⟩ := length_eq_four.1 hlen
    simp only [map_cons, map_nil, List.cons.injEq, and_true] at hname
    obtain ⟨ha, hb, hc, hd⟩ := hname
    have hcolon : colon = 58 := rfl
    simp only [cons_append, nil_append, isHostLine, (hostLetters a).1, (hostLetters b).2.1,
      (hostLetters c).2.2.1, (hostLetters d).2.2.2, ha, hb, hc, hd, hcolon, beq_self_eq_true, Bool.and_self]

theorem isHostLine_name {rest : Bytes} {n c : Nat} (hf : find [colon] (rest.take n) = some c) :
    isHostLine rest = (((rest.take n).take c).map lowerByte == text "host") ∧ (isHostLine rest = true → c = 4) := by
  obtain ⟨hcut, -⟩ := find_cut hf
  have hlen := find_le hf
  rw [length_singleton] at hlen
  have hfour : ∀ name : Bytes, name.map lowerByte = text "host" → name.length = 4 ∧ colon ∉ name := by
    intro name hname
    have hl := congrArg List.length hname
    rw [length_map] at hl
    refine ⟨hl, fun hmem => ?_⟩
    have : lowerByte colon ∈ text "host" := hname ▸ List.mem_map_of_mem hmem
    exact absurd this (by decide)
  have himp : isHostLine rest = true → c = 4 ∧ ((rest.take n).take c).map lowerByte = text "host" := by
    intro h
    obtain ⟨name, t, rfl, hname⟩ := (isHostLine_iff rest).1 h
    obtain ⟨hl, hno⟩ := hfour name hname
    obtain ⟨hrest, hlt⟩ := find_line.1 hf
    rw [find_single hno, Option.some.injEq] at hrest
    subst hrest
    refine ⟨hl, ?_⟩
    rw [take_take, Nat.min_eq_left hlt.le, take_left, hname]
  refine ⟨?_, fun h => (himp h).1⟩
  rw [Bool.eq_iff_iff, beq_iff_eq]
  constructor
  · exact fun h => (himp h).2
  · intro hname
    rw [isHostLine_iff]
    refine ⟨(rest.take n).take c, (rest.take n).drop (c + 1) ++ rest.drop n, ?_, hname⟩
    rw [← cons_append, ← append_assoc, ← hcut, take_append_drop]

theorem hostOf_fields {s s' : FieldScan} {rest : Bytes} (h : s.loop rest = some s') :
    hostOf rest = ((pairs (rawHeadersLoop rest)).find? (fun f => f.1.map lowerByte == text "host")).elim (text "localhost")
      (fun f => if f.2 ≠ [] then f.2 else text "localhost") := by
  fun_induction FieldScan.loop s rest with
  | case1 s => simp [hostOf, rawHeadersLoop, pairs]
  | case2 s rest hr eol header hh ih =>
    have hskip : isHostLine rest = false := by
      have hzero : eol = 0 := by
        have hlen := congrArg List.length (show rest.take eol = [] from hh)
        have := length_pos_iff.2 hr; rw [length_take, length_nil] at hlen; omega
      cases hf : find crlf rest with
      | none =>
        have heol : eol = rest.length := by simp only [eol, hf, getD_none]
        have := length_pos_iff.2 hr; omega
      | some i =>
        have heol : eol = i := by simp only [eol, hf, getD_some]
        obtain ⟨hp, -⟩ := find_split hf
        rw [← heol, hzero, drop_zero] at hp
        obtain ⟨t, ht⟩ := hp
        rw [← Bool.not_eq_true, isHostLine_iff]
        rintro ⟨name, u, hu, hname⟩
        rw [← ht] at hu
        cases name with
        | nil => exact absurd hname (by decide)
        | cons a name =>
          obtain rfl : cr = a := (List.cons.inj hu).1
          have hfirst : lowerByte cr = 104 := (List.cons.inj (hname.trans (by decide : text "host" = [104, 111, 115, 116]))).1
          exact absurd hfirst (by decide)
    rw [hostOf, dif_neg hr, hskip, if_neg (by simp), ih h, rawHeadersLoop_skip hr rfl]
    intro c hc; rw [show rest.take eol = [] from hh] at hc; cases hc
  | case3 s rest hr eol header hh hl => cases h
  | case4 s rest hr eol header hh s₁ hl ih =>
    obtain ⟨c, hf, hc, -⟩ := FieldScan.line_fields hl
    obtain ⟨hprobe, hfour⟩ := isHostLine_name hf
    rw [hostOf, dif_neg hr, rawHeadersLoop_field hr rfl hf hc, pairs, find?_cons]
    rw [← hprobe]
    cases hhost : isHostLine rest with
    | true => rw [hfour hhost]; rfl
    | false => rw [if_neg (by simp)]; exact ih h

/-! ## What differs between the two readings -/

theorem intercalate_length (sep v : Bytes) (vs : List Bytes) : (sep.intercalate (v :: vs)).length + sep.length =
    ((v :: vs).map (fun w => w.length + sep.length)).sum := by
  induction vs generalizing v with
  | nil => simp [List.intercalate]
  | cons w vs ih =>
    have hstep : (sep.intercalate (v :: w :: vs)).length = v.length + sep.length + (sep.intercalate (w :: vs)).length := by
      simp [List.intercalate, Nat.add_assoc]
    rw [hstep, map_cons, sum_cons, ← ih w]; omega

theorem sum_sublist {sep : Bytes} (hsep : sep ≠ []) (h : ws.Sublist vs) :
    (ws.map (fun w => w.length + sep.length)).sum ≤ (vs.map (fun w => w.length + sep.length)).sum ∧
      ((ws.map (fun w => w.length + sep.length)).sum = (vs.map (fun w => w.length + sep.length)).sum → ws = vs) := by
  have hpos := length_pos_iff.2 hsep
  induction h with
  | slnil => exact ⟨Nat.le_refl _, fun _ => rfl⟩
  | cons v h ih =>
    rw [map_cons, sum_cons]
    obtain ⟨hle, -⟩ := ih
    refine ⟨by omega, fun heq => ?_⟩
    omega
  | cons_cons v h ih =>
    rw [map_cons, sum_cons, map_cons, sum_cons]
    obtain ⟨hle, heq⟩ := ih
    refine ⟨by omega, fun h => ?_⟩
    rw [heq (by omega)]

theorem intercalate_sublist {sep : Bytes} (hsep : sep ≠ []) (h : ws.Sublist vs) (hws : ws ≠ [])
    (heq : sep.intercalate ws = sep.intercalate vs) : ws = vs := by
  obtain ⟨w, ws, rfl⟩ := exists_cons_of_ne_nil hws
  cases vs with
  | nil => cases h
  | cons v vs =>
    refine (sum_sublist hsep h).2 ?_
    rw [← intercalate_length, ← intercalate_length, heq]

theorem separator_ne (lower : Bytes) : separator lower ≠ [] := by
  unfold separator
  split <;> decide

theorem gathered_sublist {first : Bytes → Bool} (h : ws.Sublist vs)
    (heq : gathered (fun _ => false) k vs = gathered first k ws) : ws = vs ∧ (first k = true → vs.length ≤ 1) := by
  cases ws with
  | nil =>
    cases vs with
    | nil => exact ⟨rfl, fun _ => Nat.zero_le 1⟩
    | cons v vs => cases heq
  | cons w ws =>
    cases vs with
    | nil => cases h
    | cons v vs =>
      simp only [gathered, Bool.false_eq_true, if_false, Option.some.injEq] at heq
      split at heq
      · have hone : [w].Sublist (v :: vs) := (cons_sublist_cons.2 (nil_sublist ws)).trans h
        have heq' : (separator k).intercalate [w] = (separator k).intercalate (v :: vs) := by
          rw [heq, intercalate_singleton]
        obtain ⟨rfl, rfl⟩ := List.cons.inj (intercalate_sublist (separator_ne k) hone (by simp) heq')
        have hws : ws = [] := sublist_nil.1 (cons_sublist_cons.1 h)
        exact ⟨by rw [hws], fun _ => Nat.le_refl 1⟩
      · next hfirst =>
        exact ⟨intercalate_sublist (separator_ne k) h (by simp) heq.symm, fun hk => absurd hk hfirst⟩

theorem gathered_single {first : Bytes → Bool} (h : first k = true → vs.length ≤ 1) :
    gathered (fun _ => false) k vs = gathered first k vs := by
  cases vs with
  | nil => rfl
  | cons v vs =>
    simp only [gathered, Bool.false_eq_true, if_false, Option.some.injEq]
    split
    · next hk =>
      have hlen := h hk
      rw [length_cons] at hlen
      rw [length_eq_zero_iff.1 (by omega : vs.length = 0), intercalate_singleton]
    · rfl

/-! ## The three views -/

theorem lookup_find (k : Bytes) (fs : List (Bytes × Bytes)) :
    fs.lookup k = (fs.find? (fun f => f.1 == k)).map Prod.snd := by
  induction fs with
  | nil => rfl
  | cons f fs ih =>
    have hcomm : (f.1 == k) = (k == f.1) := Bool.beq_comm
    rw [lookup_cons, find?_cons, ih, hcomm]
    cases k == f.1 <;> rfl

theorem values_map (g : Bytes → Bytes) (k : Bytes) (fs : List (Bytes × Bytes)) :
    Multimap.values k (fs.map (fun f => (g f.1, f.2))) = (fs.filter (fun f => g f.1 == k)).map Prod.snd := by
  unfold Multimap.values; rw [List.filter_map, List.map_map]; rfl

/-- The names and values of a block. -/
def fieldsOf (block : Bytes) : List (Bytes × Bytes) := pairs (rawHeadersLoop block)

theorem get_fromRawHead (hl : LowerCases toLowerCase) (block n : Bytes) : (Adapter.Headers.fromRawHead hl block).get n =
    gathered (fun _ => false) (toLowerCase n)
      (((fieldsOf block).filter (fun f => toLowerCase f.1 == toLowerCase n)).map Prod.snd) := by
  rw [Adapter.Headers.get, ← lookup_find, Adapter.Headers.fromRawHead, rawHeadLoop_fold,
    lookup_gathers gathers_joinEntry, values_map]
  rfl

/-- The property of `IncomingMessage.headers`: the values of the name, joined or the first. -/
theorem lookup_headers (accesses : List Access) (block k : Bytes) :
    (((Incoming.mk block none none).after toLowerCase accesses).getHeaders toLowerCase).1.lookup k =
      gathered isSingletonHeader k
        (((fieldsOf block).filter (fun f => lowerHeaderName toLowerCase f.1 == k)).map Prod.snd) := by
  have hfresh : (Incoming.mk block none none).Reads toLowerCase block := ⟨rfl, by rintro raw ⟨⟩, by rintro headers ⟨⟩⟩
  rw [(Incoming.reads_getHeaders (Incoming.reads_after accesses hfresh)).1, headersOfRaw_fold,
    lookup_gathers gathers_addIncomingHeader, values_map]
  rfl

theorem isPlainWord_singleton (h : isSingletonHeader k = true) : isPlainWord k = true := by
  have hall : ∀ w ∈ [text "age", text "authorization", text "content-length", text "content-type", text "etag",
      text "expires", text "from", text "host", text "if-modified-since", text "if-unmodified-since",
      text "last-modified", text "location", text "max-forwards", text "proxy-authorization", text "referer",
      text "retry-after", text "server", text "user-agent"], isPlainWord w = true := by decide +kernel
  exact hall k (contains_iff_mem.1 h)

theorem lowerHeaderName_word (hl : LowerCases toLowerCase) {w : Bytes} (h : isPlainWord w = true) (name : Bytes) :
    lowerHeaderName toLowerCase name = w ↔ name.map lowerByte = w := by
  unfold lowerHeaderName
  split
  · exact hl.word w name h
  · next hno =>
    have hsame : name.map lowerByte = name := by
      refine (map_congr_left ?_).trans (List.map_id name)
      intro c hc
      have hc' : ¬ (65 ≤ c ∧ c ≤ 90) := fun hup => hno (List.any_eq_true.2 ⟨c, hc, by simp [hup]⟩)
      simp [lowerByte, hc']
    rw [hsame]

/-- All readers say the same of the block, whatever has been read before: `Headers.fromRawHead` and
`IncomingMessage.headers` of any name, and `hostOf` of a host that is there. -/
def SameViews (hl : LowerCases toLowerCase) (block : Bytes) : Prop := ∀ accesses : List Access,
    let headers := (((Incoming.mk block none none).after toLowerCase accesses).getHeaders toLowerCase).1
    (∀ n, (Adapter.Headers.fromRawHead hl block).get n = headers.lookup (toLowerCase n)) ∧
      ∀ v, headers.lookup (text "host") = some v → v ≠ [] → hostOf block = v

theorem hostOf_headers (hl : LowerCases toLowerCase) {s s' : FieldScan} {block : Bytes} (h : s.loop block = some s')
    (accesses : List Access) {v : Bytes}
    (hv : (((Incoming.mk block none none).after toLowerCase accesses).getHeaders toLowerCase).1.lookup (text "host") = some v)
    (hne : v ≠ []) : hostOf block = v := by
  have hword : isPlainWord (text "host") = true := by decide
  have hfilter : (fieldsOf block).filter (fun f => lowerHeaderName toLowerCase f.1 == text "host") =
      (fieldsOf block).filter (fun f => f.1.map lowerByte == text "host") := by
    refine filter_congr (fun f _ => ?_)
    rw [Bool.eq_iff_iff, beq_iff_eq, beq_iff_eq]; exact lowerHeaderName_word hl hword f.1
  rw [lookup_headers, hfilter] at hv
  rw [hostOf_fields h]
  change ((fieldsOf block).find? _).elim _ _ = v
  rw [← head?_filter]
  cases hfs : (fieldsOf block).filter (fun f => f.1.map lowerByte == text "host") with
  | nil => rw [hfs] at hv; cases hv
  | cons f fs =>
    rw [hfs] at hv
    have hfirst : isSingletonHeader (text "host") = true := by decide
    simp only [map_cons, gathered, hfirst, if_true, Option.some.injEq] at hv; simp [hv, hne]

/-- **The views of a request's headers.** For every accepted head, all readers say the same if and only if the two
conversions to lower case do on its names, and no header of which a request keeps the first value is repeated. -/
theorem views_agree_iff (hl : LowerCases toLowerCase) {head : Bytes} {p : Parser} (h : parseHead head = .ok p) :
    SameViews hl p.rawHead ↔ (∀ f ∈ fieldsOf p.rawHead, lowerHeaderName toLowerCase f.1 = toLowerCase f.1) ∧
        ∀ k, isSingletonHeader k = true → ((fieldsOf p.rawHead).filter (fun f => toLowerCase f.1 == k)).length ≤ 1 := by
  obtain ⟨s, hs⟩ := parseHead_fields h
  constructor
  · intro hsame
    -- the name in lower case is looked up: of its values the object has some, in order
    have hvalues : ∀ n, (fieldsOf p.rawHead).filter (fun f => lowerHeaderName toLowerCase f.1 == toLowerCase n) =
          (fieldsOf p.rawHead).filter (fun f => toLowerCase f.1 == toLowerCase n) ∧
        (isSingletonHeader (toLowerCase n) = true →
          ((fieldsOf p.rawHead).filter (fun f => toLowerCase f.1 == toLowerCase n)).length ≤ 1) := by
      intro n
      have hn := (hsame []).1 n
      rw [get_fromRawHead, lookup_headers] at hn
      have hsub : ((fieldsOf p.rawHead).filter (fun f => lowerHeaderName toLowerCase f.1 == toLowerCase n)).Sublist
          ((fieldsOf p.rawHead).filter (fun f => toLowerCase f.1 == toLowerCase n)) := by
        refine monotone_filter_right _ (fun f hf => ?_)
        rw [beq_iff_eq] at hf ⊢
        unfold lowerHeaderName at hf
        split at hf
        · exact hf
        · rw [hf, hl.idem]
      obtain ⟨heq, hlen⟩ := gathered_sublist (hsub.map Prod.snd) hn
      refine ⟨hsub.eq_of_length (by simpa only [length_map] using congrArg List.length heq), fun hk => ?_⟩
      have := hlen hk; rwa [length_map] at this
    constructor
    · intro f hf
      have hmem : f ∈ (fieldsOf p.rawHead).filter (fun g => toLowerCase g.1 == toLowerCase f.1) :=
        mem_filter.2 ⟨hf, beq_self_eq_true _⟩
      rw [← (hvalues f.1).1] at hmem; exact beq_iff_eq.1 (mem_filter.1 hmem).2
    · intro k hk
      have hlow := Adapter.toLowerCase_word hl (isPlainWord_singleton hk)
      have := (hvalues k).2; rw [hlow] at this; exact this hk
  · rintro ⟨hnames, hsingle⟩ accesses
    refine ⟨fun n => ?_, fun v hv hne => hostOf_headers hl hs accesses hv hne⟩
    have hfilter : (fieldsOf p.rawHead).filter (fun f => lowerHeaderName toLowerCase f.1 == toLowerCase n) =
        (fieldsOf p.rawHead).filter (fun f => toLowerCase f.1 == toLowerCase n) :=
      filter_congr (fun f hf => by rw [hnames f hf])
    rw [get_fromRawHead, lookup_headers, hfilter]
    refine gathered_single (fun hk => ?_)
    rw [length_map]; exact hsingle _ hk

end Views

/-- A block with one `Host`, and cookies on two lines. -/
def plainHead : Bytes := text "GET / HTTP/1.1\r\nHOST:\t a \r\nCookie: x=1\r\ncookie: y=2"

theorem views_agree_plain : ∃ p, parseHead plainHead = .ok p ∧ SameViews Adapter.lowerCases_ascii p.rawHead := by
  have hok : (parseHead plainHead).toOption.map Parser.rawHead =
      some (text "HOST:\t a \r\nCookie: x=1\r\ncookie: y=2") := by decide +kernel
  cases hp : parseHead plainHead with
  | error e => rw [hp] at hok; cases hok
  | ok p =>
    rw [hp] at hok
    have hraw : p.rawHead = text "HOST:\t a \r\nCookie: x=1\r\ncookie: y=2" := Option.some.inj hok
    have hfields : fieldsOf (text "HOST:\t a \r\nCookie: x=1\r\ncookie: y=2") =
        [(text "HOST", text "a"), (text "Cookie", text "x=1"), (text "cookie", text "y=2")] := by decide +kernel
    refine ⟨p, rfl, (views_agree_iff Adapter.lowerCases_ascii hp).2 ?_⟩
    rw [hraw, hfields]
    refine ⟨by decide, fun k hk => ?_⟩
    have hhost : ¬ text "cookie" = k := by rintro rfl; exact absurd hk (by decide)
    have htwo : List.map lowerByte (text "Cookie") = text "cookie" ∧ List.map lowerByte (text "cookie") = text "cookie" :=
      by decide
    rw [filter_cons]
    simp only [filter_cons, filter_nil, htwo.1, htwo.2, beq_eq_false_iff_ne.2 hhost]
    split <;> simp

/-- The views part on two `Host` lines: joined, and the first. -/
def twoHosts : Bytes := text "GET / HTTP/1.1\r\nHost: a\r\nHost: b"

theorem views_differ : ∃ p, parseHead twoHosts = .ok p ∧ ¬ SameViews Adapter.lowerCases_ascii p.rawHead := by
  have hok : (parseHead twoHosts).toOption.map Parser.rawHead = some (text "Host: a\r\nHost: b") := by decide +kernel
  cases hp : parseHead twoHosts with
  | error e => rw [hp] at hok; cases hok
  | ok p =>
    rw [hp] at hok
    have hraw : p.rawHead = text "Host: a\r\nHost: b" := Option.some.inj hok
    refine ⟨p, rfl, fun hsame => ?_⟩
    have hget := (hsame []).1 (text "host")
    rw [get_fromRawHead, lookup_headers, hraw] at hget
    have hfields : fieldsOf (text "Host: a\r\nHost: b") = [(text "Host", text "a"), (text "Host", text "b")] := by
      decide +kernel
    rw [hfields] at hget; exact absurd hget (by decide)

end NodeCompat.Http
