import NodeCompat.Http.Head

/-!
# The request's headers, as the application reads them

`IncomingMessage` gets the raw header block of an accepted head and reads it again, in TypeScript: `rawHeaders` splits it
into names and values, and `headers` joins them into an object, from `rawHeaders` when that has been read and straight off
the block when it has not. Both readers find the fields that `parseHead` went over (`header_readers_agree`).
-/

namespace NodeCompat.Http

open FieldScan

/-! ## The object -/

/-- An object whose keys and values are strings, in the order in which the keys were set. -/
abbrev HeaderMap := List (Bytes × Bytes)

namespace HeaderMap

def hasOwnProperty (headers : HeaderMap) (key : Bytes) : Bool := headers.any (·.1 == key)

/-- The value of a key that is there. -/
def get (headers : HeaderMap) (key : Bytes) : Bytes := (headers.lookup key).getD []

def set (headers : HeaderMap) (key value : Bytes) : HeaderMap :=
  if headers.hasOwnProperty key then headers.map (fun p => if p.1 == key then (key, value) else p)
  else headers ++ [(key, value)]

end HeaderMap

/-- The headers of which a request keeps the first value. -/
def isSingletonHeader (lower : Bytes) : Bool :=
  [text "age", text "authorization", text "content-length", text "content-type", text "etag", text "expires", text "from",
    text "host", text "if-modified-since", text "if-unmodified-since", text "last-modified", text "location",
    text "max-forwards", text "proxy-authorization", text "referer", text "retry-after", text "server",
    text "user-agent"].contains lower

/-- Singleton headers keep the first value, `cookie` joins with "; ", everything else with ", ". -/
def addIncomingHeader (headers : HeaderMap) (lower value : Bytes) : HeaderMap :=
  if !headers.hasOwnProperty lower then headers.set lower value
  else if !isSingletonHeader lower then
    headers.set lower (headers.get lower ++ (if lower = text "cookie" then text "; " else text ", ") ++ value)
  else headers

section Readers

variable (toLowerCase : Bytes → Bytes)

/-- Only a name with an ASCII upper-case letter is converted, by `String.prototype.toLowerCase`. -/
def lowerHeaderName (name : Bytes) : Bytes := if name.any (fun c => 65 ≤ c && c ≤ 90) then toLowerCase name else name

/-! ## The readers -/

/-- The loop of `rawHeaders` over what is left of the block: names and values in turn. -/
def rawHeadersLoop (rest : Bytes) : List Bytes :=
  if _h : rest = [] then []
  else
    let eol := (find crlf rest).getD rest.length
    let line := rest.take eol
    if line = [] then rawHeadersLoop (rest.drop (eol + 2))
    else
      match find [colon] line with
      | none => rawHeadersLoop (rest.drop (eol + 2))
      | some 0 => rawHeadersLoop (rest.drop (eol + 2))
      | some c => line.take c :: trimBlanks (line.drop (c + 1)) :: rawHeadersLoop (rest.drop (eol + 2))
termination_by rest.length
decreasing_by
  all_goals
    have := List.length_pos_iff.2 ‹¬rest = []›
    simp only [List.length_drop]
    omega

/-- `headers` from the array that `rawHeaders` has built. -/
def headersOfRaw : HeaderMap → List Bytes → HeaderMap
  | headers, name :: value :: raw => headersOfRaw (addIncomingHeader headers (lowerHeaderName toLowerCase name) value) raw
  | headers, _ => headers

/-- `headers` straight off the block: the colon is looked for in all that is left of it. -/
def headersOfHead (headers : HeaderMap) (rest : Bytes) : HeaderMap :=
  if _h : rest = [] then headers
  else
    let eol := (find crlf rest).getD rest.length
    match find [colon] rest with
    | none => headersOfHead headers (rest.drop (eol + 2))
    | some c =>
      if c = 0 ∨ eol ≤ c then headersOfHead headers (rest.drop (eol + 2))
      else headersOfHead (addIncomingHeader headers (lowerHeaderName toLowerCase (rest.take c))
          (trimBlanks ((rest.take eol).drop (c + 1)))) (rest.drop (eol + 2))
termination_by rest.length
decreasing_by
  all_goals
    have := List.length_pos_iff.2 ‹¬rest = []›
    simp only [List.length_drop]
    omega

/-- What `IncomingMessage` keeps of the headers: the block, and what has been read off it. -/
structure Incoming where
  rawHead : Bytes
  rawHeaders : Option (List Bytes) := none
  headersMap : Option HeaderMap := none
deriving DecidableEq

namespace Incoming

/-- `get rawHeaders()` -/
def getRawHeaders (m : Incoming) : List Bytes × Incoming :=
  match m.rawHeaders with
  | some raw => (raw, m)
  | none => (rawHeadersLoop m.rawHead, { m with rawHeaders := some (rawHeadersLoop m.rawHead) })

/-- `get headers()` -/
def getHeaders (m : Incoming) : HeaderMap × Incoming :=
  match m.headersMap with
  | some headers => (headers, m)
  | none =>
    let headers := match m.rawHeaders with
      | some raw => headersOfRaw toLowerCase [] raw
      | none => headersOfHead toLowerCase [] m.rawHead
    (headers, { m with headersMap := some headers })

end Incoming

/-! ## They agree -/

variable {rest : Bytes} {s s' : FieldScan}

/-- A byte of a line is found where it is found in all that follows, if that is inside the line. -/
theorem find_line {c : UInt8} {s : Bytes} {n i : Nat} : find [c] (s.take n) = some i ↔ find [c] s = some i ∧ i < n := by
  cases hf : find [c] s with
  | none =>
    have hn : find [c] (s.take n) = none := find_none_of_append (by rw [List.take_append_drop]; exact hf); simp [hn]
  | some j =>
    by_cases hj : j < n
    · rw [find_take hf n hj]
      constructor
      · rintro ⟨⟩; exact ⟨rfl, hj⟩
      · exact And.left
    · rw [find_take_none hf (by simp; omega)]
      constructor
      · rintro ⟨⟩
      · rintro ⟨⟨⟩, h⟩; exact absurd h hj

theorem rawHeadersLoop_skip {eol : Nat} (hr : ¬ rest = []) (he : (find crlf rest).getD rest.length = eol)
    (hf : ∀ c, find [colon] (rest.take eol) = some c → c = 0) :
    rawHeadersLoop rest = rawHeadersLoop (rest.drop (eol + 2)) := by
  rw [rawHeadersLoop, dif_neg hr]
  dsimp only
  rw [he]
  split
  · rfl
  · split
    · rfl
    · rfl
    · next c hc hfc => exact absurd (hf c hfc) hc

theorem rawHeadersLoop_field {eol c : Nat} (hr : ¬ rest = [])
    (he : (find crlf rest).getD rest.length = eol) (hf : find [colon] (rest.take eol) = some c) (hc : c ≠ 0) :
    rawHeadersLoop rest = (rest.take eol).take c :: trimBlanks ((rest.take eol).drop (c + 1)) ::
      rawHeadersLoop (rest.drop (eol + 2)) := by
  have hline : ¬ rest.take eol = [] := by
    intro h; rw [h] at hf; cases hf
  rw [rawHeadersLoop, dif_neg hr]
  rw [he, if_neg hline, hf]
  split
  · next h => cases h
  · next h => exact absurd (Option.some.inj h) hc
  · next h =>
    cases h; rfl

/-- **The two ways to `headers`**: off the block, or by way of `rawHeaders`. -/
theorem headersOfHead_eq (headers : HeaderMap) (rest : Bytes) :
    headersOfHead toLowerCase headers rest = headersOfRaw toLowerCase headers (rawHeadersLoop rest) := by
  fun_induction headersOfHead toLowerCase headers rest with
  | case1 headers => simp [rawHeadersLoop, headersOfRaw]
  | case2 headers rest hr eol hf ih =>
    rw [ih, rawHeadersLoop_skip hr rfl]
    intro c hc; rw [(find_line.1 hc).1] at hf; cases hf
  | case3 headers rest hr eol c hf hc ih =>
    rw [ih, rawHeadersLoop_skip hr rfl]
    intro i hi
    obtain ⟨hi, hlt⟩ := find_line.1 hi
    obtain rfl : c = i := Option.some.inj (hf.symm.trans hi)
    exact hc.resolve_right (Nat.not_le.2 hlt)
  | case4 headers rest hr eol c hf hc ih =>
    obtain ⟨hc₀, hlt⟩ := not_or.1 hc
    have hlt' : c < eol := Nat.not_le.1 hlt
    rw [ih, rawHeadersLoop_field hr rfl (find_line.2 ⟨hf, hlt'⟩) hc₀, List.take_take, Nat.min_eq_left hlt'.le]
    rfl

/-! ## They read what `parseHead` read -/

theorem FieldScan.decide_fields {name value : Bytes} (h : s.decide name value = some s') :
    s'.fields = s.fields := by
  unfold decide at h
  repeat' split at h
  all_goals first
    | cases h; rfl
    | cases h

theorem FieldScan.line_fields {header : Bytes} (h : s.line header = some s') :
    ∃ c, find [colon] header = some c ∧ c ≠ 0 ∧
      s'.fields = s.fields ++ [(header.take c, trimBlanks (header.drop (c + 1)))] := by
  unfold line at h
  split at h
  · cases h
  · cases h
  · next c hc hf =>
    dsimp only at h
    split at h
    · cases h
    · exact ⟨c, hf, hc, decide_fields h⟩

theorem FieldScan.loop_fields (h : s.loop rest = some s') :
    ∃ fields, s'.fields = s.fields ++ fields ∧ rawHeadersLoop rest = fields.flatMap (fun f => [f.1, f.2]) := by
  fun_induction loop s rest with
  | case1 s => cases h; exact ⟨[], by simp, by simp [rawHeadersLoop]⟩
  | case2 s rest hr eol header hh ih =>
    obtain ⟨fields, h₁, h₂⟩ := ih h
    refine ⟨fields, h₁, ?_⟩
    rw [← h₂, rawHeadersLoop_skip hr rfl]
    intro c hc; rw [show rest.take eol = [] from hh] at hc; cases hc
  | case3 s rest hr eol header hh hl => cases h
  | case4 s rest hr eol header hh s₁ hl ih =>
    obtain ⟨c, hf, hc, hs₁⟩ := line_fields hl
    obtain ⟨fields, h₁, h₂⟩ := ih h
    refine ⟨(header.take c, trimBlanks (header.drop (c + 1))) :: fields, ?_, ?_⟩
    · rw [h₁, hs₁, List.append_assoc]; rfl
    · rw [rawHeadersLoop_field hr rfl hf hc, h₂]; rfl

theorem parseHead_fields {head : Bytes} {p : Parser} (h : parseHead head = .ok p) :
    ∃ s, FieldScan.loop { keepAlive := p.version == text "HTTP/1.1" } p.rawHead = some s := by
  unfold parseHead at h
  dsimp only at h
  split at h
  · cases h
  · split at h
    · cases h
    · next s hs =>
      split at h
      · cases h
      · cases h; exact ⟨s, hs⟩

/-! ## Reading in any order -/

/-- What the application reads. -/
inductive Access
  | rawHeaders
  | headers
deriving DecidableEq

namespace Incoming

/-- The message after some reads. -/
def after (m : Incoming) : List Access → Incoming
  | [] => m
  | .rawHeaders :: as => m.getRawHeaders.2.after as
  | .headers :: as => (m.getHeaders toLowerCase).2.after as

/-- What has been read off the block is what the block says. -/
structure Reads (head : Bytes) (m : Incoming) : Prop where
  rawHead : m.rawHead = head
  rawHeaders : ∀ raw, m.rawHeaders = some raw → raw = rawHeadersLoop head
  headersMap : ∀ headers, m.headersMap = some headers → headers = headersOfRaw toLowerCase [] (rawHeadersLoop head)

variable {toLowerCase} {m : Incoming} {head : Bytes}

theorem reads_getRawHeaders (h : m.Reads toLowerCase head) :
    m.getRawHeaders.1 = rawHeadersLoop head ∧ m.getRawHeaders.2.Reads toLowerCase head := by
  unfold getRawHeaders
  split
  · next raw hraw => exact ⟨h.rawHeaders raw hraw, h⟩
  · rw [h.rawHead]
    refine ⟨rfl, rfl, ?_, h.headersMap⟩
    rintro raw ⟨⟩; rfl

theorem reads_getHeaders (h : m.Reads toLowerCase head) :
    (m.getHeaders toLowerCase).1 = headersOfRaw toLowerCase [] (rawHeadersLoop head) ∧
      (m.getHeaders toLowerCase).2.Reads toLowerCase head := by
  unfold getHeaders
  split
  · next headers hmap => exact ⟨h.headersMap headers hmap, h⟩
  · split
    · next raw hraw =>
      rw [h.rawHeaders raw hraw]
      refine ⟨rfl, h.rawHead, h.rawHeaders, ?_⟩
      rintro headers ⟨⟩; rfl
    · rw [h.rawHead, headersOfHead_eq]
      refine ⟨rfl, rfl, h.rawHeaders, ?_⟩
      rintro headers ⟨⟩; rfl

theorem reads_after (as : List Access) (h : m.Reads toLowerCase head) : (m.after toLowerCase as).Reads toLowerCase head := by
  induction as generalizing m with
  | nil => exact h
  | cons a as ih =>
    cases a with
    | rawHeaders => exact ih (reads_getRawHeaders h).2
    | headers => exact ih (reads_getHeaders h).2

end Incoming

end Readers

/-- **The header readers agree.** For every accepted head, whatever has been read before: `rawHeaders` is the names and
values that the loop of `parseHead` went over, in order, and `headers` is the object built from them, which is also the
one built straight off the block. -/
theorem header_readers_agree (toLowerCase : Bytes → Bytes) {head : Bytes} {p : Parser} (h : parseHead head = .ok p) :
    ∃ s, FieldScan.loop { keepAlive := p.version == text "HTTP/1.1" } p.rawHead = some s ∧ ∀ accesses : List Access,
        ((Incoming.mk p.rawHead none none).after toLowerCase accesses).getRawHeaders.1 = s.fields.flatMap (fun f => [f.1, f.2]) ∧
          (((Incoming.mk p.rawHead none none).after toLowerCase accesses).getHeaders toLowerCase).1 =
            headersOfRaw toLowerCase [] (s.fields.flatMap (fun f => [f.1, f.2])) ∧
          headersOfHead toLowerCase [] p.rawHead = headersOfRaw toLowerCase [] (s.fields.flatMap (fun f => [f.1, f.2])) := by
  obtain ⟨s, hs⟩ := parseHead_fields h
  obtain ⟨fields, h₁, h₂⟩ := loop_fields hs
  obtain rfl : s.fields = fields := h₁
  refine ⟨s, hs, fun accesses => ?_⟩
  have hfresh : (Incoming.mk p.rawHead none none).Reads toLowerCase p.rawHead := ⟨rfl, by rintro raw ⟨⟩, by rintro headers ⟨⟩⟩
  have hreads := Incoming.reads_after accesses hfresh
  rw [← h₂]
  exact ⟨(Incoming.reads_getRawHeaders hreads).1, (Incoming.reads_getHeaders hreads).1, headersOfHead_eq toLowerCase [] p.rawHead⟩

/-- A head with a repeated field, a repeated singleton, blanks around values and a bare CR. -/
def oddHead : Bytes :=
  text "GET / HTTP/1.1\r\nHost: a\r\nX-Odd:\t\t \r\nCookie: x=1\r\ncookie:y=2 \r\nHOST: b\r\nX-Cr: p\rq"

theorem header_readers_agree_odd : ∃ p, parseHead oddHead = .ok p ∧
    ((Incoming.mk p.rawHead none none).after (List.map lowerByte) [.headers]).getRawHeaders.1 =
      [text "Host", text "a", text "X-Odd", [], text "Cookie", text "x=1", text "cookie", text "y=2", text "HOST", text "b",
        text "X-Cr", text "p\rq"] ∧
    ((Incoming.mk p.rawHead none none).getHeaders (List.map lowerByte)).1 =
      [(text "host", text "a"), (text "x-odd", []), (text "cookie", text "x=1; y=2"), (text "x-cr", text "p\rq")] ∧
    (((Incoming.mk p.rawHead none none).after (List.map lowerByte) [.rawHeaders]).getHeaders (List.map lowerByte)).1 =
      ((Incoming.mk p.rawHead none none).getHeaders (List.map lowerByte)).1 := by
  have hok : (parseHead oddHead).toOption.isSome = true := by decide +kernel
  cases hp : parseHead oddHead with
  | error e => rw [hp] at hok; cases hok
  | ok p =>
    obtain ⟨s, hs, hall⟩ := header_readers_agree (List.map lowerByte) hp
    have hfields : ((parseHead oddHead).toOption.bind (fun p =>
        loop { keepAlive := p.version == text "HTTP/1.1" } p.rawHead)).map fields =
        some [(text "Host", text "a"), (text "X-Odd", []), (text "Cookie", text "x=1"), (text "cookie", text "y=2"),
          (text "HOST", text "b"), (text "X-Cr", text "p\rq")] := by
      decide +kernel
    rw [hp] at hfields
    simp only [Except.toOption, Option.bind_some, hs, Option.map_some, Option.some.injEq] at hfields
    rw [hfields] at hall
    refine ⟨p, rfl, (hall [.headers]).1, (hall []).2.1.trans ?_, (hall [.rawHeaders]).2.1.trans (hall []).2.1.symm⟩
    decide +kernel

end NodeCompat.Http
