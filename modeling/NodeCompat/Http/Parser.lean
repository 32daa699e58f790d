import NodeCompat.Http.Head

/-!
# The parser loop

One iteration of the `for (;;)` of `HttpConnection::processInput`, from the parser and the buffer `inbuf_`: it waits for
more bytes, refuses the request with a parser-level error, goes on, or has a complete request to dispatch. `weight`
drops with every iteration that goes on or dispatches, so the loop ends.

The rest of the module says how an iteration depends on the buffer: one that goes on or dispatches only depends on the
bytes it uses, one that waits loses nothing (`Settles`), and a refusal stands for every longer buffer (`iterate_reject_append`)
unless it is about a chunk-size line that has not ended within the first 1024 buffered bytes.
-/

namespace NodeCompat.Http

open List

/-- What one iteration of the parser loop does. `out` is what it appends to `outbuf_` besides. -/
inductive Iter
  | wait (p : Parser) (inbuf : Bytes)
  | reject (status : Nat) (reason : Bytes)
  | more (p : Parser) (inbuf : Bytes) (out : Bytes)
  | dispatch (p : Parser) (inbuf : Bytes) (out : Bytes)
deriving DecidableEq

def hexDigit (c : UInt8) : Option Nat :=
  if 48 ≤ c && c ≤ 57 then some (c.toNat - 48)
  else if 97 ≤ c && c ≤ 102 then some (c.toNat - 97 + 10)
  else if 65 ≤ c && c ≤ 70 then some (c.toNat - 65 + 10)
  else none

/-- The size of a chunk-size line up to its extension, or the status of the refusal. -/
def parseSizeLine : Nat → Bool → Bytes → Except Nat Nat
  | size, sawDigit, [] => if sawDigit then .ok size else .error 400
  | size, sawDigit, c :: cs =>
    if c = semicolon then if sawDigit then .ok size else .error 400
    else
      match hexDigit c with
      | none => .error 400
      | some digit =>
        let size := size * 16 + digit
        if size > kMaxBodyBytes then .error 413 else parseSizeLine size true cs

/-- `parseStatus` other than 0, as `processInput` answers it. -/
def rejectHead (status : Nat) : Iter :=
  if status = 501 then .reject 501 (text "Not Implemented") else .reject 400 (text "Bad Request")

/-- The refusals of the body states. -/
def rejectBody (status : Nat) : Iter :=
  if status = 413 then .reject 413 (text "Payload Too Large") else .reject 400 (text "Bad Request")

def rejectHeadTooLarge : Iter := .reject 431 (text "Request Header Fields Too Large")

def continueLine : Bytes := text "HTTP/1.1 100 Continue\r\n\r\n"

namespace Parser

variable {b out r : Bytes} {n : Nat} {p p' : Parser}

/-- A parsed head: the body comes chunked, with a length, or not at all. -/
def startBody (p : Parser) (inbuf : Bytes) : Iter :=
  let out := if p.expectContinue then continueLine else []
  if p.chunked then .more { p with state := .chunkSize } inbuf out
  else if p.bodyRemaining > 0 then .more { p with state := .bodyFixed } inbuf out
  else .dispatch p inbuf out

def iterateHead (p : Parser) (inbuf : Bytes) : Iter :=
  match find crlfcrlf inbuf with
  | none => if inbuf.length > kMaxHeadBytes then rejectHeadTooLarge else .wait p inbuf
  | some headEnd =>
    if headEnd + 4 > kMaxHeadBytes then rejectHeadTooLarge
    else
      match parseHead (inbuf.take headEnd) with
      | .error status => rejectHead status
      | .ok p => p.startBody (inbuf.drop (headEnd + 4))

def iterateBodyFixed (p : Parser) (inbuf : Bytes) : Iter :=
  let take := min p.bodyRemaining inbuf.length
  let p := { p with body := p.body ++ inbuf.take take, bodyRemaining := p.bodyRemaining - take }
  let inbuf := inbuf.drop take
  if p.body.length > kMaxBodyBytes then rejectBody 413
  else if p.bodyRemaining > 0 then .wait p inbuf
  else .dispatch { p with state := .head } inbuf []

def iterateChunkSize (p : Parser) (inbuf : Bytes) : Iter :=
  match find crlf inbuf with
  | none => if inbuf.length > 1024 then rejectBody 400 else .wait p inbuf
  | some eol =>
    match parseSizeLine 0 false (inbuf.take eol) with
    | .error status => rejectBody status
    | .ok size =>
      .more { p with chunkRemaining := size, state := if size = 0 then .trailers else .chunkData }
        (inbuf.drop (eol + 2)) []

def iterateChunkData (p : Parser) (inbuf : Bytes) : Iter :=
  let take := min p.chunkRemaining inbuf.length
  let p := { p with body := p.body ++ inbuf.take take, chunkRemaining := p.chunkRemaining - take }
  let inbuf := inbuf.drop take
  if p.body.length > kMaxBodyBytes then rejectBody 413
  else if p.chunkRemaining > 0 then .wait p inbuf
  else .more { p with state := .chunkCrlf } inbuf []

def iterateChunkCrlf (p : Parser) (inbuf : Bytes) : Iter :=
  if inbuf.length < 2 then .wait p inbuf
  else if inbuf.take 2 = crlf then .more { p with state := .chunkSize } (inbuf.drop 2) []
  else rejectBody 400

/-- Trailer lines are parsed and discarded; the empty line ends the section. -/
def iterateTrailers (p : Parser) (inbuf : Bytes) : Iter :=
  match find crlf inbuf with
  | none => .wait p inbuf
  | some eol =>
    if eol = 0 then .dispatch { p with state := .head } (inbuf.drop (eol + 2)) []
    else .more p (inbuf.drop (eol + 2)) []

/-- One iteration of the loop of `processInput`, on a connection that is neither busy nor closing. -/
def iterate (p : Parser) (inbuf : Bytes) : Iter :=
  match p.state with
  | .head => p.iterateHead inbuf
  | .bodyFixed => p.iterateBodyFixed inbuf
  | .chunkSize => p.iterateChunkSize inbuf
  | .chunkData => p.iterateChunkData inbuf
  | .chunkCrlf => p.iterateChunkCrlf inbuf
  | .trailers => p.iterateTrailers inbuf

/-- The states that may be left without using a byte weigh one more. -/
def weight (p : Parser) (inbuf : Bytes) : Nat :=
  2 * inbuf.length + if p.state = .bodyFixed ∨ p.state = .chunkData then 1 else 0

/-! ## Outcomes -/

/-- What `i` says about an iteration that came to it: waiting keeps the state, and the buffer too at a request boundary;
going on stays inside the request, and dispatching ends it; both make the weight drop, and append nothing or the interim
line. -/
def Outcome (p : Parser) (b : Bytes) : Iter → Prop
  | .wait q r => q.state = p.state ∧ (p.state = .head → r = b)
  | .reject _ _ => True
  | .more q r out => q.state ≠ .head ∧ q.weight r < p.weight b ∧ (out = [] ∨ out = continueLine)
  | .dispatch q r out => q.state = .head ∧ q.weight r < p.weight b ∧ (out = [] ∨ out = continueLine)

theorem weight_le (p : Parser) (b : Bytes) : p.weight b ≤ 2 * b.length + 1 := by
  unfold weight
  split <;> omega

theorem weight_of_body (h : p.state = .bodyFixed ∨ p.state = .chunkData) (b : Bytes) :
    p.weight b = 2 * b.length + 1 := by
  rw [weight, if_pos h]

theorem weight_of_not_body (h : ¬ (p.state = .bodyFixed ∨ p.state = .chunkData)) (b : Bytes) :
    p.weight b = 2 * b.length := by
  rw [weight, if_neg h, Nat.add_zero]

theorem outcome_rejectBody (p : Parser) (b : Bytes) (status : Nat) : Outcome p b (rejectBody status) := by
  unfold rejectBody
  split <;> trivial

theorem outcome_startBody {q : Parser} (hq : q.state = .head) (hlt : 2 * r.length + 1 < p.weight b) :
    Outcome p b (q.startBody r) := by
  have hw : ∀ q' : Parser, q'.weight r < p.weight b := fun q' => Nat.lt_of_le_of_lt (weight_le q' r) hlt
  have hout : (if q.expectContinue then continueLine else []) = [] ∨
      (if q.expectContinue then continueLine else []) = continueLine := by
    cases q.expectContinue with
    | true => exact .inr rfl
    | false => exact .inl rfl
  simp only [startBody]
  split
  · exact ⟨by rintro ⟨⟩, hw _, hout⟩
  · split
    · exact ⟨by rintro ⟨⟩, hw _, hout⟩
    · exact ⟨hq, hw _, hout⟩

theorem outcome_head (hs : p.state = .head) (b : Bytes) : Outcome p b (p.iterateHead b) := by
  simp only [iterateHead]
  split
  · split
    · trivial
    · exact ⟨rfl, fun _ => rfl⟩
  · next headEnd hf =>
    split
    · trivial
    · split
      · simp only [rejectHead]
        split <;> trivial
      · next q hq =>
        have hle := find_le hf
        refine outcome_startBody (parseHead_ok hq).1 ?_
        rw [weight_of_not_body (by simp [hs]), length_drop]; rw [length_crlfcrlf] at hle; omega

theorem outcome_bodyFixed (hs : p.state = .bodyFixed) (b : Bytes) : Outcome p b (p.iterateBodyFixed b) := by
  simp only [iterateBodyFixed]
  split
  · exact outcome_rejectBody p b 413
  · split
    · exact ⟨rfl, fun h => by rw [hs] at h; cases h⟩
    · refine ⟨rfl, ?_, .inl rfl⟩
      rw [weight_of_body (.inl hs), weight_of_not_body (by simp), length_drop]; omega

theorem outcome_chunkSize (hs : p.state = .chunkSize) (b : Bytes) : Outcome p b (p.iterateChunkSize b) := by
  simp only [iterateChunkSize]
  split
  · split
    · exact outcome_rejectBody p b 400
    · exact ⟨rfl, fun _ => rfl⟩
  · next eol hf =>
    have hle := find_le hf
    rw [length_crlf] at hle
    split
    · exact outcome_rejectBody p b _
    · next size _ =>
      have hw := weight_le { p with chunkRemaining := size, state := if size = 0 then .trailers else .chunkData }
        (b.drop (eol + 2))
      rw [length_drop] at hw
      refine ⟨?_, ?_, .inl rfl⟩
      · split <;> rintro ⟨⟩
      · rw [weight_of_not_body (by simp [hs]) b]; omega

theorem outcome_chunkData (hs : p.state = .chunkData) (b : Bytes) : Outcome p b (p.iterateChunkData b) := by
  simp only [iterateChunkData]
  split
  · exact outcome_rejectBody p b 413
  · split
    · exact ⟨rfl, fun h => by rw [hs] at h; cases h⟩
    · refine ⟨by rintro ⟨⟩, ?_, .inl rfl⟩
      rw [weight_of_body (.inr hs), weight_of_not_body (by simp), length_drop]; omega

theorem outcome_chunkCrlf (hs : p.state = .chunkCrlf) (b : Bytes) : Outcome p b (p.iterateChunkCrlf b) := by
  simp only [iterateChunkCrlf]
  split
  · exact ⟨rfl, fun _ => rfl⟩
  · split
    · refine ⟨by rintro ⟨⟩, ?_, .inl rfl⟩
      rw [weight_of_not_body (by simp [hs]) b, weight_of_not_body (by simp), length_drop]; omega
    · exact outcome_rejectBody p b 400

theorem outcome_trailers (hs : p.state = .trailers) (b : Bytes) : Outcome p b (p.iterateTrailers b) := by
  simp only [iterateTrailers]
  split
  · exact ⟨rfl, fun _ => rfl⟩
  · next eol hf =>
    have hle := find_le hf
    rw [length_crlf] at hle
    split
    · refine ⟨rfl, ?_, .inl rfl⟩
      rw [weight_of_not_body (by simp [hs]) b, weight_of_not_body (by simp), length_drop]; omega
    · refine ⟨by rw [hs]; rintro ⟨⟩, ?_, .inl rfl⟩
      rw [weight_of_not_body (by simp [hs]) b, weight_of_not_body (by simp [hs]), length_drop]
      omega

/-- **What an iteration can come to.** -/
theorem outcome_iterate (p : Parser) (b : Bytes) : Outcome p b (p.iterate b) := by
  cases hs : p.state with
  | head => simpa only [iterate, hs] using outcome_head hs b
  | bodyFixed => simpa only [iterate, hs] using outcome_bodyFixed hs b
  | chunkSize => simpa only [iterate, hs] using outcome_chunkSize hs b
  | chunkData => simpa only [iterate, hs] using outcome_chunkData hs b
  | chunkCrlf => simpa only [iterate, hs] using outcome_chunkCrlf hs b
  | trailers => simpa only [iterate, hs] using outcome_trailers hs b

section

variable (h : p.iterate b = .more p' r out ∨ p.iterate b = .dispatch p' r out)
include h

theorem weight_lt : p'.weight r < p.weight b := by
  have ho := outcome_iterate p b
  rcases h with h | h <;> (rw [h] at ho; exact ho.2.1)

theorem iterate_out : out = [] ∨ out = continueLine := by
  have ho := outcome_iterate p b
  rcases h with h | h <;> (rw [h] at ho; exact ho.2.2)

end

theorem iterate_more_state (h : p.iterate b = .more p' r out) : p'.state ≠ .head := by
  have ho := outcome_iterate p b; rw [h] at ho; exact ho.1

theorem iterate_wait_head (h : p.iterate b = .wait p' r) (hp : p'.state = .head) : p.state = .head ∧ r = b := by
  have ho := outcome_iterate p b
  rw [h] at ho
  have hs : p.state = .head := ho.1.symm.trans hp
  exact ⟨hs, ho.2 hs⟩

theorem iterate_dispatch_state (h : p.iterate b = .dispatch p' r out) : p'.state = .head := by
  have ho := outcome_iterate p b; rw [h] at ho; exact ho.1

/-! ## What an iteration depends on -/

/-- `i` is what `f` does on the buffer `b`, for an `f` that looks at no byte behind the ones it uses and loses none when
it waits. -/
def Settles (f : Bytes → Iter) (b : Bytes) : Iter → Prop
  | .more p r out => ∃ u, b = u ++ r ∧ ∀ y, f (u ++ y) = .more p y out
  | .dispatch p r out => ∃ u, b = u ++ r ∧ ∀ y, f (u ++ y) = .dispatch p y out
  | .wait p r => ∀ y, p.iterate (r ++ y) = f (b ++ y)
  | .reject _ _ => True

theorem find_used {pat : Bytes} {i : Nat} (h : find pat b = some i) :
    b = b.take (i + pat.length) ++ b.drop (i + pat.length) ∧
      ∀ y, find pat (b.take (i + pat.length) ++ y) = some i ∧ (b.take (i + pat.length) ++ y).take i = b.take i ∧
        (b.take (i + pat.length) ++ y).drop (i + pat.length) = y := by
  have hle := find_le h
  refine ⟨(take_append_drop _ _).symm, fun y => ⟨find_append (find_take h _ le_rfl) y, ?_, ?_⟩⟩
  · rw [take_append_of_le_length (by simp; omega), take_take, Nat.min_eq_left (by omega)]
  · exact drop_left' (by simp; omega)

theorem settles_head (hs : p.state = .head) (b : Bytes) : Settles p.iterate b (p.iterateHead b) := by
  have hit : p.iterate = p.iterateHead := by funext x; simp only [iterate, hs]
  simp only [iterateHead]
  split
  · split
    · trivial
    · exact fun y => rfl
  · next headEnd hf =>
    obtain ⟨hb, hy⟩ := find_used hf
    split
    · trivial
    · next hle =>
      split
      · simp only [rejectHead]
        split <;> trivial
      · next p' hp =>
        have key : ∀ y, p.iterate (b.take (headEnd + 4) ++ y) = p'.startBody y := by
          intro y
          obtain ⟨h₁, h₂, h₃⟩ := hy y
          simp only [length_crlfcrlf] at h₁ h₂ h₃
          simp only [hit, iterateHead, h₁, if_neg hle, h₂, hp, h₃]
        simp only [startBody]
        split
        · next hc => exact ⟨_, hb, fun y => by rw [length_crlfcrlf, key, startBody, if_pos hc]⟩
        · next hc =>
          split
          · next hr => exact ⟨_, hb, fun y => by rw [length_crlfcrlf, key, startBody, if_neg hc, if_pos hr]⟩
          · next hr => exact ⟨_, hb, fun y => by rw [length_crlfcrlf, key, startBody, if_neg hc, if_neg hr]⟩

/-- A body state that takes what it still needs from the buffer: both body states are this, with their own counter. -/
theorem take_resume (h : b.length < n) (body y : Bytes) :
    (body ++ b.take (min n b.length)) ++ y.take (min (n - min n b.length) y.length) =
        body ++ (b ++ y).take (min n (b ++ y).length) ∧
      n - min n b.length - min (n - min n b.length) y.length = n - min n (b ++ y).length ∧
      y.drop (min (n - min n b.length) y.length) = (b ++ y).drop (min n (b ++ y).length) := by
  have h₁ : min n b.length = b.length := by omega
  have h₂ : min n (b ++ y).length = b.length + min (n - b.length) y.length := by simp; omega
  refine ⟨?_, ?_, ?_⟩
  · rw [h₁, h₂, take_length, take_length_add_append, append_assoc]
  · rw [h₁, h₂]; omega
  · rw [h₁, h₂, drop_length_add_append]

theorem take_used (h : n ≤ b.length) (y : Bytes) :
    min n (b.take n ++ y).length = n ∧ (b.take n ++ y).take n = b.take n ∧ (b.take n ++ y).drop n = y := by
  refine ⟨by simp; omega, ?_, ?_⟩
  · rw [take_append_of_le_length (by simp; omega), take_take, Nat.min_self]
  · exact drop_left' (by simp; omega)

theorem settles_bodyFixed (hs : p.state = .bodyFixed) (b : Bytes) : Settles p.iterate b (p.iterateBodyFixed b) := by
  have hit : p.iterate = p.iterateBodyFixed := by funext x; simp only [iterate, hs]
  rw [hit]
  simp only [iterateBodyFixed, rejectBody]
  split
  · trivial
  · next hm =>
    split
    · next hr =>
      intro y
      obtain ⟨h₁, h₂, h₃⟩ := take_resume (n := p.bodyRemaining) (b := b) (by omega) p.body y
      have hd : b.drop (min p.bodyRemaining b.length) = [] := by simp; omega
      simp only [hd, nil_append, iterate, hs, iterateBodyFixed, rejectBody, h₁, h₂, h₃]
    · next hr =>
      have hle : p.bodyRemaining ≤ b.length := by simp at hr; omega
      refine ⟨b.take p.bodyRemaining, ?_, fun y => ?_⟩
      · rw [Nat.min_eq_left hle, take_append_drop]
      · obtain ⟨h₁, h₂, h₃⟩ := take_used hle y
        rw [Nat.min_eq_left hle] at hm hr
        simp only [iterateBodyFixed, rejectBody, h₁, h₂, h₃, if_neg hm, if_neg hr, Nat.min_eq_left hle]

theorem settles_chunkData (hs : p.state = .chunkData) (b : Bytes) : Settles p.iterate b (p.iterateChunkData b) := by
  have hit : p.iterate = p.iterateChunkData := by funext x; simp only [iterate, hs]
  rw [hit]
  simp only [iterateChunkData, rejectBody]
  split
  · trivial
  · next hm =>
    split
    · next hr =>
      intro y
      obtain ⟨h₁, h₂, h₃⟩ := take_resume (n := p.chunkRemaining) (b := b) (by omega) p.body y
      have hd : b.drop (min p.chunkRemaining b.length) = [] := by simp; omega
      simp only [hd, nil_append, iterate, hs, iterateChunkData, rejectBody, h₁, h₂, h₃]
    · next hr =>
      have hle : p.chunkRemaining ≤ b.length := by simp at hr; omega
      refine ⟨b.take p.chunkRemaining, ?_, fun y => ?_⟩
      · rw [Nat.min_eq_left hle, take_append_drop]
      · obtain ⟨h₁, h₂, h₃⟩ := take_used hle y
        rw [Nat.min_eq_left hle] at hm hr
        simp only [iterateChunkData, rejectBody, h₁, h₂, h₃, if_neg hm, if_neg hr, Nat.min_eq_left hle]

theorem settles_chunkSize (hs : p.state = .chunkSize) (b : Bytes) : Settles p.iterate b (p.iterateChunkSize b) := by
  have hit : p.iterate = p.iterateChunkSize := by funext x; simp only [iterate, hs]
  rw [hit]
  simp only [iterateChunkSize, rejectBody]
  split
  · split
    · trivial
    · exact fun y => by rw [hit]
  · next eol hf =>
    obtain ⟨hb, hy⟩ := find_used hf
    split
    · split <;> trivial
    · next size hp =>
      refine ⟨_, hb, fun y => ?_⟩
      obtain ⟨h₁, h₂, h₃⟩ := hy y
      rw [length_crlf] at h₁ h₂ h₃ ⊢; simp only [iterateChunkSize, h₁, h₂, hp, h₃]

theorem settles_chunkCrlf (hs : p.state = .chunkCrlf) (b : Bytes) : Settles p.iterate b (p.iterateChunkCrlf b) := by
  have hit : p.iterate = p.iterateChunkCrlf := by funext x; simp only [iterate, hs]
  rw [hit]
  simp only [iterateChunkCrlf, rejectBody]
  split
  · exact fun y => by rw [hit]
  · next hl =>
    split
    · next ht =>
      refine ⟨b.take 2, (take_append_drop _ _).symm, fun y => ?_⟩
      obtain ⟨h₁, h₂, h₃⟩ := take_used (n := 2) (b := b) (by omega) y
      rw [iterateChunkCrlf, if_neg (by omega), if_pos (h₂.trans ht), h₃]
    · trivial

theorem settles_trailers (hs : p.state = .trailers) (b : Bytes) : Settles p.iterate b (p.iterateTrailers b) := by
  have hit : p.iterate = p.iterateTrailers := by funext x; simp only [iterate, hs]
  rw [hit]
  simp only [iterateTrailers]
  split
  · exact fun y => by rw [hit]
  · next eol hf =>
    obtain ⟨hb, hy⟩ := find_used hf
    split
    · next he =>
      refine ⟨_, hb, fun y => ?_⟩
      obtain ⟨h₁, -, h₃⟩ := hy y
      rw [length_crlf] at h₁ h₃ ⊢; simp only [iterateTrailers, h₁, if_pos he, h₃]
    · next he =>
      refine ⟨_, hb, fun y => ?_⟩
      obtain ⟨h₁, -, h₃⟩ := hy y
      rw [length_crlf] at h₁ h₃ ⊢; simp only [iterateTrailers, h₁, if_neg he, h₃]

/-- **An iteration only depends on the bytes it uses, and waiting loses nothing.** -/
theorem settles_iterate (p : Parser) (b : Bytes) : Settles p.iterate b (p.iterate b) := by
  cases hs : p.state with
  | head => simpa only [iterate, hs] using settles_head hs b
  | bodyFixed => simpa only [iterate, hs] using settles_bodyFixed hs b
  | chunkSize => simpa only [iterate, hs] using settles_chunkSize hs b
  | chunkData => simpa only [iterate, hs] using settles_chunkData hs b
  | chunkCrlf => simpa only [iterate, hs] using settles_chunkCrlf hs b
  | trailers => simpa only [iterate, hs] using settles_trailers hs b

/-! ## Refusals -/

theorem reject_append_head {status : Nat} {reason : Bytes}
    (h : p.iterateHead b = .reject status reason) (y : Bytes) : p.iterateHead (b ++ y) = .reject status reason := by
  simp only [iterateHead] at h ⊢
  split at h
  · next hn =>
    split at h
    · next hl =>
      split
      · rwa [if_pos (by simp; omega)]
      · next i hi =>
        have := find_none_append hn hi; rw [length_crlfcrlf] at this; rwa [if_pos (by omega)]
    · cases h
  · next i hi =>
    have hle := find_le hi
    rw [length_crlfcrlf] at hle
    rw [find_append hi y]
    dsimp only
    rw [take_append_of_le_length (by omega)]
    split at h
    · next hl => rwa [if_pos hl]
    · next hl =>
      rw [if_neg hl]
      split at h
      · exact h
      · next p' _ =>
        simp only [startBody] at h
        split at h
        · cases h
        · split at h <;> cases h

theorem reject_append_body {body : Bytes} (h : (body ++ b.take (min n b.length)).length > kMaxBodyBytes)
    (y : Bytes) : (body ++ (b ++ y).take (min n (b ++ y).length)).length > kMaxBodyBytes := by
  simp only [length_append, length_take] at h ⊢; omega

/-- A refusal stands for every longer buffer, unless it is about a chunk-size line that has not ended yet. -/
theorem iterate_reject_append {status : Nat} {reason : Bytes}
    (h : p.iterate b = .reject status reason) (hc : p.state = .chunkSize → find crlf b ≠ none) (y : Bytes) :
    p.iterate (b ++ y) = .reject status reason := by
  unfold iterate at h ⊢
  split at h
  · exact reject_append_head h y
  · simp only [iterateBodyFixed] at h ⊢
    split at h
    · next hm => rwa [if_pos (reject_append_body hm y)]
    · split at h <;> cases h
  · next hs =>
    simp only [iterateChunkSize] at h ⊢
    split at h
    · next hn => exact absurd hn (hc hs)
    · next eol hf =>
      have hle := find_le hf
      rw [find_append hf y]
      dsimp only
      rw [take_append_of_le_length (by omega)]
      split at h
      · exact h
      · cases h
  · simp only [iterateChunkData] at h ⊢
    split at h
    · next hm => rwa [if_pos (reject_append_body hm y)]
    · split at h <;> cases h
  · simp only [iterateChunkCrlf] at h ⊢
    split at h
    · cases h
    · next hl =>
      rw [if_neg (by simp; omega), take_append_of_le_length (by omega)]
      split at h
      · cases h
      · next ht => rwa [if_neg ht]
  · simp only [iterateTrailers] at h
    split at h
    · cases h
    · split at h <;> cases h

/-- The refusal that depends on how much is buffered: a chunk-size line that has not ended within 1024 bytes. -/
theorem iterate_size_unended (hs : p.state = .chunkSize) (hn : find crlf b = none) :
    p.iterate b = if b.length > 1024 then .reject 400 (text "Bad Request") else .wait p b := by
  simp only [iterate, hs, iterateChunkSize, hn]; rfl

end Parser

end NodeCompat.Http
