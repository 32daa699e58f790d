import NodeCompat.Http.Acts
import NodeCompat.Http.BodyLength
import NodeCompat.Http.EndOfInput

/-!
# The cap on request bodies

Every body that is dispatched is within `kMaxBodyBytes`, in every run, and the sizes are computed without wrap-around. A request
over the cap (`LargeRequest`) is never dispatched; what it is answered depends on how its size is told. A size told by chunks is
answered 413, unless a read leaves more than 1024 bytes of a size line that has not ended; a `Content-Length` is answered 400.
-/

namespace NodeCompat.Http

open List Consumer

/-! ## Size lines of any length -/

/-- A chunk-size line without its CRLF: hexadecimal digits and any extension. -/
structure ChunkLine where
  digits : Bytes
  ext : Bytes
  digits_ne : digits ≠ []
  digits_ok : ∀ c ∈ digits, (hexDigit c).isSome
  ext_ok : ext = [] ∨ ext.head? = some semicolon
  no_crlf : find crlf (digits ++ ext) = none

def ChunkLine.line (l : ChunkLine) : Bytes := l.digits ++ l.ext

/-- The size that the line declares, however large it is. -/
def ChunkLine.size (l : ChunkLine) : Nat := hexValue 0 l.digits

theorem parseSizeLine_over (ds : Bytes) : ∀ {n : Nat} (saw : Bool) (rest : Bytes), (∀ c ∈ ds, (hexDigit c).isSome) →
    n ≤ kMaxBodyBytes → kMaxBodyBytes < hexValue n ds → parseSizeLine n saw (ds ++ rest) = .error 413 := by
  induction ds with
  | nil => intro n saw rest _ hn hv; exact absurd hv (Nat.not_lt.2 hn)
  | cons c cs ih =>
    intro n saw rest hd hn hv
    obtain ⟨d, hc⟩ := Option.isSome_iff_exists.1 (hd c mem_cons_self)
    have hne : c ≠ semicolon := by
      rintro rfl
      revert hc
      decide +revert
    have hv' : hexValue (n * 16 + d) cs = hexValue n (c :: cs) := by
      show _ = hexValue (n * 16 + (hexDigit c).getD 0) cs; rw [hc]; rfl
    rw [cons_append, parseSizeLine, if_neg hne, hc]
    dsimp only
    by_cases hm : n * 16 + d > kMaxBodyBytes
    · rw [if_pos hm]
    · rw [if_neg hm]; exact ih true rest (fun x hx => hd x (mem_cons_of_mem _ hx)) (Nat.not_lt.1 hm) (hv' ▸ hv)

theorem parseSizeLine_ext {n : Nat} {ext : Bytes} (h : ext = [] ∨ ext.head? = some semicolon) :
    parseSizeLine n true ext = .ok n := by
  cases ext with
  | nil => rfl
  | cons c cs =>
    obtain h | h := h
    · cases h
    · cases h; rfl

theorem ChunkLine.parse (l : ChunkLine) :
    parseSizeLine 0 false l.line = if l.size ≤ kMaxBodyBytes then .ok l.size else .error 413 := by
  unfold ChunkLine.line
  split
  · next h =>
    rw [parseSizeLine_digits l.digits 0 false l.ext l.digits_ok h]
    have hne : (!l.digits.isEmpty) = true := by simp [l.digits_ne]
    rw [hne, Bool.or_true]; exact parseSizeLine_ext l.ext_ok
  · next h => exact parseSizeLine_over l.digits false l.ext l.digits_ok (Nat.zero_le _) (Nat.not_le.1 h)

/-! ## Sizes in a `size_t` -/

/-- The size as the code computes it. -/
def parseSizeWord : UInt64 → Bool → Bytes → Except Nat UInt64
  | size, sawDigit, [] => if sawDigit then .ok size else .error 400
  | size, sawDigit, c :: cs =>
    if c = semicolon then if sawDigit then .ok size else .error 400
    else
      match hexDigit c with
      | none => .error 400
      | some digit =>
        let size := size * 16 + UInt64.ofNat digit
        if size > UInt64.ofNat kMaxBodyBytes then .error 413 else parseSizeWord size true cs

theorem hexDigit_lt {c : UInt8} {d : Nat} (h : hexDigit c = some d) : d < 16 := by
  unfold hexDigit at h
  simp only [Bool.and_eq_true, decide_eq_true_eq, UInt8.le_iff_toNat_le, UInt8.reduceToNat] at h
  split at h
  · cases h; omega
  · split at h
    · cases h; omega
    · split at h
      · cases h; omega
      · cases h

theorem word_hexDigit {n d : Nat} (hn : n ≤ kMaxBodyBytes) (hd : d < 16) :
    UInt64.ofNat n * 16 + UInt64.ofNat d = UInt64.ofNat (n * 16 + d) ∧ n * 16 + d < 2 ^ 64 := by
  unfold kMaxBodyBytes at hn
  refine ⟨?_, by omega⟩
  apply UInt64.toNat_inj.1
  rw [UInt64.toNat_add, UInt64.toNat_mul, UInt64.toNat_ofNat', UInt64.toNat_ofNat', UInt64.toNat_ofNat']
  simp only [UInt64.reduceToNat]; omega

/-- **The size is computed without wrap-around**, whatever the number of digits. -/
theorem parseSizeWord_eq (line : Bytes) : ∀ {n : Nat} (saw : Bool), n ≤ kMaxBodyBytes →
    (parseSizeWord (UInt64.ofNat n) saw line).map UInt64.toNat = parseSizeLine n saw line := by
  have hsaw : ∀ {n : Nat} (saw : Bool), n ≤ kMaxBodyBytes →
      (if saw then (.ok (UInt64.ofNat n) : Except Nat UInt64) else .error 400).map UInt64.toNat =
        if saw then .ok n else .error 400 := by
    intro n saw hn
    have hlt : n < 2 ^ 64 := Nat.lt_of_le_of_lt hn (by decide)
    cases saw with
    | true => exact congrArg Except.ok (UInt64.toNat_ofNat_of_lt' hlt)
    | false => rfl
  induction line with
  | nil => exact hsaw
  | cons c cs ih =>
    intro n saw hn
    rw [parseSizeWord, parseSizeLine]
    by_cases hc : c = semicolon
    · rw [if_pos hc, if_pos hc]; exact hsaw saw hn
    · rw [if_neg hc, if_neg hc]
      cases hd : hexDigit c with
      | none => rfl
      | some d =>
        obtain ⟨hw, hlt⟩ := word_hexDigit hn (hexDigit_lt hd)
        have hgt : UInt64.ofNat (n * 16 + d) > UInt64.ofNat kMaxBodyBytes ↔ n * 16 + d > kMaxBodyBytes := by
          rw [gt_iff_lt, UInt64.lt_iff_toNat_lt, UInt64.toNat_ofNat_of_lt' hlt, UInt64.toNat_ofNat_of_lt' (by decide)]
        dsimp only
        rw [hw]
        by_cases hm : n * 16 + d > kMaxBodyBytes
        · rw [if_pos (hgt.2 hm), if_pos hm]; rfl
        · rw [if_neg (fun h => hm (hgt.1 h)), if_neg hm]
          exact ih true (Nat.not_lt.1 hm)

theorem parseWord_toNat (v : Bytes) : (parseWord 0 v).map UInt64.toNat = parseDecimal 0 v := by
  have h := parseWord_eq v (Nat.zero_le kMaxBodyBytes)
  rw [show (0 : UInt64) = UInt64.ofNat 0 from rfl, h]
  cases hp : parseDecimal 0 v with
  | none => rfl
  | some m =>
    have hle := (parseDecimal_digits (Nat.zero_le kMaxBodyBytes) hp).2.2
    exact congrArg some (UInt64.toNat_ofNat_of_lt' (Nat.lt_of_le_of_lt hle (by decide)))

/-! ## What is dispatched -/

/-- The parser that an iteration leaves. -/
def Iter.parser? : Iter → Option Parser
  | .wait p _ | .more p _ _ | .dispatch p _ _ => some p
  | .reject _ _ => none

theorem parser?_rejectBody (status : Nat) : (rejectBody status).parser? = none := by
  unfold rejectBody
  split <;> rfl

theorem iterate_body_le {p q : Parser} {b : Bytes} (hb : p.body.length ≤ kMaxBodyBytes)
    (h : (p.iterate b).parser? = some q) : q.body.length ≤ kMaxBodyBytes := by
  unfold Parser.iterate at h
  split at h
  · unfold Parser.iterateHead at h
    split at h
    · split at h <;> cases h
      exact hb
    · split at h
      · cases h
      · split at h
        · unfold rejectHead at h
          split at h <;> cases h
        · next q' hq =>
          have hnil : q'.body.length ≤ kMaxBodyBytes := by rw [(parseHead_ok hq).2.1]; exact Nat.zero_le _
          unfold Parser.startBody at h
          dsimp only at h
          split at h
          · cases h; exact hnil
          · split at h <;> cases h <;> exact hnil
  · unfold Parser.iterateBodyFixed at h
    dsimp only at h
    split at h
    · rw [parser?_rejectBody] at h; cases h
    · next hle => split at h <;> cases h <;> exact Nat.not_lt.1 hle
  · unfold Parser.iterateChunkSize at h
    split at h
    · split at h
      · rw [parser?_rejectBody] at h; cases h
      · cases h; exact hb
    · split at h
      · rw [parser?_rejectBody] at h; cases h
      · cases h; exact hb
  · unfold Parser.iterateChunkData at h
    dsimp only at h
    split at h
    · rw [parser?_rejectBody] at h; cases h
    · next hle => split at h <;> cases h <;> exact Nat.not_lt.1 hle
  · unfold Parser.iterateChunkCrlf at h
    split at h
    · cases h; exact hb
    · split at h
      · cases h; exact hb
      · rw [parser?_rejectBody] at h; cases h
  · unfold Parser.iterateTrailers at h
    split at h
    · cases h; exact hb
    · split at h <;> cases h <;> exact hb

namespace Session

/-- Every body that was dispatched, and the one being read, is within the cap. -/
structure Capped (s : Session) : Prop where
  reading : s.parser.body.length ≤ kMaxBodyBytes
  called : ∀ c ∈ s.calls, c.body.length ≤ kMaxBodyBytes

variable {s s' : Session}

theorem Capped.congr (h : s.Capped) (hp : s'.parser.body = s.parser.body) (hc : s'.calls = s.calls) : s'.Capped :=
  ⟨hp ▸ h.reading, hc ▸ h.called⟩

theorem Capped.call (h : s.Capped) : s.call.Capped := by
  refine ⟨h.reading, fun c hc => ?_⟩
  obtain hc | hc := mem_append.1 hc
  · exact h.called c hc
  · obtain rfl := mem_singleton.1 hc; exact h.reading

theorem Capped.stop (h : s.Capped) (hp : s.parse = .stop s') : s'.Capped := by
  obtain ⟨rfl, -⟩ | ⟨-, -, ⟨p, b, hi, rfl⟩ | ⟨status, reason, -, rfl⟩⟩ := parse_stop hp
  · exact h
  · exact ⟨iterate_body_le h.reading (congrArg Iter.parser? hi), h.called⟩
  · obtain ⟨closed, heq⟩ := sendErrorAndClose_frame s.toConn status reason; rw [heq]; exact h.congr rfl rfl

theorem Capped.request (h : s.Capped) (hp : s.parse = .request s') : s'.Capped := by
  obtain ⟨-, -, p, b, out, hi, rfl⟩ := parse_request hp
  exact ⟨iterate_body_le h.reading (congrArg Iter.parser? hi), h.called⟩

theorem Capped.returned (h : s.Capped) (hp : s.processing = true) (throws : Bool) : (s.returned throws).Capped := by
  have hclear : ({ s with toConn := s.toConn.clearRequest } : Session).Capped := ⟨Nat.zero_le _, h.called⟩
  unfold Session.returned
  dsimp only
  split
  · rw [recover_frame (s := { s with toConn := s.toConn.clearRequest }) hp]; exact hclear.congr rfl rfl
  · exact hclear.congr rfl rfl

end Session

theorem capped_acts {m : Machine} {id : Nat} {l : Label} {s s' : Session} (ha : m.Acts id l s s') (h : s.Capped) :
    s'.Capped := by
  cases ha with
  | @stop _ s' _ hst hp hparse =>
    obtain ⟨closed, heq⟩ := Session.flush_frame { s'.toConn with processing := false }
    unfold Session.endPass; rw [heq]; exact (h.stop hparse).congr rfl rfl
  | more hst hp hparse =>
    obtain ⟨-, -, p, b, out, hi, rfl⟩ := Session.parse_more hparse
    exact ⟨iterate_body_le h.reading (congrArg Iter.parser? hi), h.called⟩
  | call hst hp hparse => exact (h.request hparse).call
  | park hst hp hparse => exact (h.request hparse).congr rfl rfl
  | resume hd =>
    have hs : s.resume.Capped := h.congr rfl rfl; exact hs.call
  | ret hp hr => exact h.returned hp _
  | @ready _ e hp =>
    obtain ⟨out, closed, peerClosed, processing, d, recvs, heq, -, -⟩ := s.startReady_frame e; rw [heq]; exact h.congr rfl rfl
  | @out _ i op hi =>
    obtain ⟨closed, heq⟩ := s.output_frame i op; rw [heq]; exact h.congr rfl rfl
  | doneInside hi hn hp | donePass hi hn hp | destroy => exact h.congr rfl rfl

theorem capped {P : Machine → Label → Prop} {ls : List Label} {m : Machine} (h : Run Machine.step P {} ls m) {id : Nat}
    {s : Session} (hs : m.sessions id = some s) : s.Capped :=
  Machine.session_invariant (fun _ _ => ⟨Nat.zero_le _, nofun⟩) (fun _ _ _ _ _ _ _ ha hQ => capped_acts ha hQ) h hs

/-! ## Requests over the cap -/

/-- A non-empty chunk, with a size line of any length. -/
structure SizedChunk where
  sizeLine : ChunkLine
  data : Bytes
  data_ne : data ≠ []
  size_eq : sizeLine.size = data.length

def SizedChunk.bytes (c : SizedChunk) : Bytes := c.sizeLine.line ++ (crlf ++ (c.data ++ crlf))

/-- How a body is over the cap, and what comes behind what tells it: a `Content-Length` says so, or the size line of a chunk, or
the data of a chunk on top of the chunks before it. -/
inductive LargeBody
  | length (value : Bytes) (rest : Bytes)
  | chunked (chunks : List SizedChunk) (line : ChunkLine) (rest : Bytes)

/-- What `parseHead` finds in the fields of a head whose request line it takes. -/
def scanHead (head : Bytes) : Option FieldScan :=
  let lineEnd := find crlf head
  (parseRequestLine (head.take (lineEnd.getD head.length))).bind fun line =>
    FieldScan.loop { keepAlive := line.2.2 == text "HTTP/1.1" } (lineEnd.elim [] (fun e => head.drop (e + 2)))

namespace LargeBody

def isChunked : LargeBody → Bool
  | length _ _ => false
  | chunked _ _ _ => true

/-- What follows the head. -/
def bytes : LargeBody → Bytes
  | length _ rest => rest
  | chunked chunks line rest => chunks.flatMap SizedChunk.bytes ++ (line.line ++ (crlf ++ rest))

/-- The body is over the cap, and framed as the fields say. -/
def Ok (s : FieldScan) : LargeBody → Prop
  | length value _ => s.chunked = false ∧ s.contentLength = some value ∧ value ≠ [] ∧ (∀ c ∈ value, 48 ≤ c ∧ c ≤ 57) ∧
      kMaxBodyBytes < decimalValue 0 value
  | chunked chunks line rest => s.chunked = true ∧ (chunks.flatMap (·.data)).length ≤ kMaxBodyBytes ∧
      (kMaxBodyBytes < line.size ∨ kMaxBodyBytes < (chunks.flatMap (·.data)).length + min line.size rest.length)

end LargeBody

/-- A request over the cap, with any bytes behind it. -/
structure LargeRequest where
  head : Bytes
  scan : FieldScan
  body : LargeBody
  head_end : find crlfcrlf (head ++ crlfcrlf) = some head.length
  head_le : head.length + 4 ≤ kMaxHeadBytes
  scan_eq : scanHead head = some scan
  body_ok : body.Ok scan

def LargeRequest.bytes (r : LargeRequest) : Bytes := r.head ++ (crlfcrlf ++ r.body.bytes)

/-! ### Where a part of it leads -/

/-- The first `m` bytes end inside a size line, more than 1024 bytes behind its start. -/
def Unended (last : ChunkLine) : List SizedChunk → Nat → Prop
  | [], m => 1024 < m ∧ m < last.line.length + 2
  | c :: cs, m => (1024 < m ∧ m < c.sizeLine.line.length + 2) ∨ (c.bytes.length ≤ m ∧ Unended last cs (m - c.bytes.length))

/-- How many bytes tell that the body is over the cap, on top of `n` bytes of it. -/
def toldAfter (last : ChunkLine) : List SizedChunk → Nat → Nat
  | [], n => last.line.length + 2 + if kMaxBodyBytes < last.size then 0 else kMaxBodyBytes + 1 - n
  | c :: cs, n => c.bytes.length + toldAfter last cs (n + c.data.length)

theorem Unended.lt {last : ChunkLine} {cs : List SizedChunk} {m : Nat} (h : Unended last cs m) (n : Nat) :
    m < toldAfter last cs n := by
  induction cs generalizing m n with
  | nil =>
    have hlt := h.2
    unfold toldAfter; omega
  | cons c cs ih =>
    have hlen : c.sizeLine.line.length + 2 ≤ c.bytes.length := by
      simp only [SizedChunk.bytes, length_append, length_crlf]; omega
    unfold toldAfter
    obtain h | h := h
    · omega
    · have hlt := ih h.2 (n + c.data.length); omega

section Parts
variable {k : Nat → Call → Bool} {p q : Parser} {b r : Bytes}

theorem feed_more {out : Bytes} (h : p.iterate b = .more q r out) (n : Nat) :
    (reader k).feed (p, n) b = (reader k).feed (q, n) r := by
  have hr : (reader k).round (p, n) b = .go (q, n) r [] := by simp only [reader_round, readerRound, h]
  rw [feed_go hr, nil_append]

theorem feed_refused {status : Nat} {reason : Bytes} (h : p.iterate b = .reject status reason) (n : Nat) :
    (reader k).feed (p, n) b = ([], .halted (.refused status)) := by
  apply feed_halt
  simp only [reader_round, readerRound, h]

/-- The reader needs more bytes. -/
def Waits (k : Nat → Call → Bool) (s : Parser × Nat) (b : Bytes) : Prop := ∃ s' r, (reader k).feed s b = ([], .waiting s' r)

theorem waits_of (h : p.iterate b = .wait q r) (n : Nat) : Waits k (p, n) b := by
  refine ⟨(q, n), r, feed_wait ?_⟩
  simp only [reader_round, readerRound, h]

theorem feed_line_part (hp : p.state = .chunkSize) (l : ChunkLine) (tail : Bytes) (n : Nat) {m : Nat}
    (hm : m < l.line.length + 2) :
    (1024 < m → (reader k).feed (p, n) ((l.line ++ (crlf ++ tail)).take m) = ([], .halted (.refused 400))) ∧
      (m ≤ 1024 → Waits k (p, n) ((l.line ++ (crlf ++ tail)).take m)) := by
  have hf : find crlf (l.line ++ (crlf ++ tail)) = some l.line.length := find_pair (by decide) l.no_crlf
  have hn : find crlf ((l.line ++ (crlf ++ tail)).take m) = none := find_take_none hf hm
  have hlen : ((l.line ++ (crlf ++ tail)).take m).length = m := by
    simp only [length_take, length_append, length_crlf]; omega
  have hi := Parser.iterate_size_unended hp hn
  rw [hlen] at hi
  constructor
  · intro h; rw [if_pos h] at hi; exact feed_refused hi n
  · intro h; rw [if_neg (Nat.not_lt.2 h)] at hi; exact waits_of hi n

theorem iterate_line (hp : p.state = .chunkSize) (l : ChunkLine) (tail : Bytes) {m : Nat} (hm : l.line.length + 2 ≤ m) :
    p.iterate ((l.line ++ (crlf ++ tail)).take m) =
      if l.size ≤ kMaxBodyBytes then
        .more { p with chunkRemaining := l.size, state := if l.size = 0 then .trailers else .chunkData }
          (tail.take (m - (l.line.length + 2))) []
      else rejectBody 413 := by
  have hf : find crlf (l.line ++ (crlf ++ tail)) = some l.line.length := find_pair (by decide) l.no_crlf
  have hft := find_take hf m (by rw [length_crlf]; exact hm)
  have htake : ((l.line ++ (crlf ++ tail)).take m).take l.line.length = l.line := by
    rw [take_take, Nat.min_eq_left (by omega), take_left]
  have hdrop : ((l.line ++ (crlf ++ tail)).take m).drop (l.line.length + 2) = tail.take (m - (l.line.length + 2)) := by
    rw [drop_take, ← drop_drop, drop_left]; rfl
  by_cases hle : l.size ≤ kMaxBodyBytes
  · simp only [Parser.iterate, hp, Parser.iterateChunkSize, hft, htake, l.parse, hdrop, if_pos hle]
  · simp only [Parser.iterate, hp, Parser.iterateChunkSize, hft, htake, l.parse, if_neg hle]

theorem waits_data (hp : p.state = .chunkData) (hb : p.body.length + b.length ≤ kMaxBodyBytes)
    (hr : b.length < p.chunkRemaining) (n : Nat) : Waits k (p, n) b := by
  have hall : b.take (min p.chunkRemaining b.length) = b := take_of_length_le (by omega)
  have hcap : ¬ (p.body ++ b).length > kMaxBodyBytes := by rw [length_append]; omega
  have hi : ∃ q r, p.iterate b = .wait q r := by
    simp only [Parser.iterate, hp, Parser.iterateChunkData, hall, if_neg hcap]; rw [if_pos (by omega)]; exact ⟨_, _, rfl⟩
  obtain ⟨q, r, hi⟩ := hi; exact waits_of hi n

theorem waits_crlf (hp : p.state = .chunkCrlf) (hb : b.length < 2) (n : Nat) : Waits k (p, n) b := by
  have hi : p.iterate b = .wait p b := by simp only [Parser.iterate, hp, Parser.iterateChunkCrlf, if_pos hb]
  exact waits_of hi n

theorem feed_crlf (hp : p.state = .chunkCrlf) (tail : Bytes) {m : Nat} (hm : 2 ≤ m) (n : Nat) :
    (reader k).feed (p, n) ((crlf ++ tail).take m) = (reader k).feed ({ p with state := .chunkSize }, n) (tail.take (m - 2)) := by
  have hlong : ¬ ((crlf ++ tail).take m).length < 2 := by
    simp only [length_take, length_append, length_crlf]; omega
  have htwo : ((crlf ++ tail).take m).take 2 = crlf := by rw [take_take, Nat.min_eq_left hm]; rfl
  have hdrop : ((crlf ++ tail).take m).drop 2 = tail.take (m - 2) := by rw [drop_take]; rfl
  have hi : p.iterate ((crlf ++ tail).take m) = .more { p with state := .chunkSize } (tail.take (m - 2)) [] := by
    simp only [Parser.iterate, hp, Parser.iterateChunkCrlf, if_neg hlong, if_pos htwo, hdrop]
  exact feed_more hi n

theorem feed_data (hp : p.state = .chunkData) (data tail : Bytes) (hr : p.chunkRemaining = data.length)
    (hb : p.body.length + data.length ≤ kMaxBodyBytes) (n m : Nat) :
    (m < data.length + 2 → Waits k (p, n) ((data ++ (crlf ++ tail)).take m)) ∧
      (data.length + 2 ≤ m → (reader k).feed (p, n) ((data ++ (crlf ++ tail)).take m) =
        (reader k).feed ({ p with body := p.body ++ data, chunkRemaining := 0, state := .chunkSize }, n)
          (tail.take (m - (data.length + 2)))) := by
  have hlen : ((data ++ (crlf ++ tail)).take m).length = min m (data.length + 2 + tail.length) := by
    simp only [length_take, length_append, length_crlf]; omega
  by_cases hm : m < data.length
  · refine ⟨fun _ => ?_, fun h => by omega⟩
    exact waits_data hp (by omega) (by omega) n
  · have htake : min data.length (min m (data.length + 2 + tail.length)) = data.length := by omega
    have hdata : ((data ++ (crlf ++ tail)).take m).take data.length = data := by
      rw [take_take, Nat.min_eq_left (by omega), take_left]
    have hrest : ((data ++ (crlf ++ tail)).take m).drop data.length = (crlf ++ tail).take (m - data.length) := by
      rw [drop_take, drop_left]
    have hcap : ¬ (p.body ++ data).length > kMaxBodyBytes := by rw [length_append]; omega
    have hi : p.iterate ((data ++ (crlf ++ tail)).take m) =
        .more { p with body := p.body ++ data, chunkRemaining := 0, state := .chunkCrlf }
          ((crlf ++ tail).take (m - data.length)) [] := by
      simp only [Parser.iterate, hp, Parser.iterateChunkData, hr, hlen, htake, hdata, hrest, if_neg hcap, Nat.sub_self,
        gt_iff_lt, Nat.lt_irrefl, if_false]
    unfold Waits
    rw [feed_more hi]
    refine ⟨fun hlt => waits_crlf rfl ?_ n, fun hle => ?_⟩
    · rw [length_take]; omega
    · rw [feed_crlf rfl tail (by omega), Nat.sub_sub]

theorem feed_over (hp : p.state = .chunkData) (tail : Bytes)
    (hr : kMaxBodyBytes < p.body.length + min p.chunkRemaining tail.length) (n m : Nat) :
    (p.body.length + m ≤ kMaxBodyBytes → Waits k (p, n) (tail.take m)) ∧
      (kMaxBodyBytes < p.body.length + m → (reader k).feed (p, n) (tail.take m) = ([], .halted (.refused 413))) := by
  constructor
  · intro hm
    have hlen := length_take_le m tail; exact waits_data hp (by omega) (by omega) n
  · intro hm
    have hi : p.iterate (tail.take m) = rejectBody 413 := by
      simp only [Parser.iterate, hp, Parser.iterateChunkData, length_take]
      rw [if_pos]; simp only [length_append, length_take]; omega
    exact feed_refused hi n

/-- What the first `m` bytes of `b` lead to: 400 where they are unended, else to wait, until they tell the size. -/
structure Told (k : Nat → Call → Bool) (s : Parser × Nat) (b : Bytes) (unended : Nat → Prop) (told status : Nat) : Prop where
  early : ∀ m, unended m → (reader k).feed s (b.take m) = ([], .halted (.refused 400))
  waits : ∀ m, ¬ unended m → m < told → Waits k s (b.take m)
  late : ∀ m, told ≤ m → (reader k).feed s (b.take m) = ([], .halted (.refused status))

theorem told_last (hp : p.state = .chunkSize) (l : ChunkLine) (rest : Bytes) (hb : p.body.length ≤ kMaxBodyBytes)
    (hl : kMaxBodyBytes < l.size ∨ kMaxBodyBytes < p.body.length + min l.size rest.length) (n : Nat) :
    Told k (p, n) (l.line ++ (crlf ++ rest)) (Unended l []) (toldAfter l [] p.body.length) 413 := by
  have hpart := fun m => feed_line_part (k := k) hp l rest n (m := m)
  by_cases hle : l.size ≤ kMaxBodyBytes
  · have hl := hl.resolve_left (Nat.not_lt.2 hle)
    have hne : l.size ≠ 0 := by omega
    have htold : toldAfter l [] p.body.length = l.line.length + 2 + (kMaxBodyBytes + 1 - p.body.length) := by
      unfold toldAfter; rw [if_neg (Nat.not_lt.2 hle)]
    have hdata : ∀ m, l.line.length + 2 ≤ m → (reader k).feed (p, n) ((l.line ++ (crlf ++ rest)).take m) =
        (reader k).feed ({ p with chunkRemaining := l.size, state := .chunkData }, n) (rest.take (m - (l.line.length + 2))) := by
      intro m hm
      have hi := iterate_line hp l rest hm; rw [if_pos hle, if_neg hne] at hi; exact feed_more hi n
    have hover := feed_over (k := k) (p := { p with chunkRemaining := l.size, state := .chunkData }) rfl rest hl n
    refine ⟨fun m hm => (hpart m hm.2).1 hm.1, fun m hu hm => ?_, fun m hm => ?_⟩
    · by_cases hline : m < l.line.length + 2
      · exact (hpart m hline).2 (Nat.not_lt.1 (fun h => hu ⟨h, hline⟩))
      · unfold Waits
        rw [hdata m (by omega)]
        exact (hover (m - (l.line.length + 2))).1 (by show p.body.length + _ ≤ _; omega)
    · rw [hdata m (by omega)]; exact (hover (m - (l.line.length + 2))).2 (by show _ < p.body.length + _; omega)
  · have htold : toldAfter l [] p.body.length = l.line.length + 2 := by
      unfold toldAfter; rw [if_pos (Nat.not_le.1 hle)]
    refine ⟨fun m hm => (hpart m hm.2).1 hm.1, fun m hu hm => ?_, fun m hm => ?_⟩
    · rw [htold] at hm; exact (hpart m hm).2 (Nat.not_lt.1 (fun h => hu ⟨h, hm⟩))
    · rw [htold] at hm
      have hi := iterate_line hp l rest hm; rw [if_neg hle] at hi; exact feed_refused hi n

theorem told_chunks (l : ChunkLine) (rest : Bytes) (n : Nat) : ∀ (cs : List SizedChunk) {p : Parser}, p.state = .chunkSize →
    p.body.length + (cs.flatMap (·.data)).length ≤ kMaxBodyBytes →
    (kMaxBodyBytes < l.size ∨ kMaxBodyBytes < p.body.length + (cs.flatMap (·.data)).length + min l.size rest.length) →
    Told k (p, n) (cs.flatMap SizedChunk.bytes ++ (l.line ++ (crlf ++ rest))) (Unended l cs) (toldAfter l cs p.body.length) 413
  | [], p, hp, hb, hl => told_last hp l rest hb hl n
  | c :: cs, p, hp, hb, hl => by
    rw [flatMap_cons, length_append] at hb hl
    rw [flatMap_cons, append_assoc]
    generalize hmore : cs.flatMap SizedChunk.bytes ++ (l.line ++ (crlf ++ rest)) = more
    have hbytes : c.bytes ++ more = c.sizeLine.line ++ (crlf ++ (c.data ++ (crlf ++ more))) := by simp [SizedChunk.bytes]
    have hlen : c.bytes.length = c.sizeLine.line.length + 2 + (c.data.length + 2) := by
      simp only [SizedChunk.bytes, length_append, length_crlf]; omega
    have hsize : c.sizeLine.size ≤ kMaxBodyBytes := by rw [c.size_eq]; omega
    have hne : c.sizeLine.size ≠ 0 := by rw [c.size_eq]; exact fun h => c.data_ne (length_eq_zero_iff.1 h)
    have hpart := fun m => feed_line_part (k := k) hp c.sizeLine (c.data ++ (crlf ++ more)) n (m := m)
    have hdata : ∀ m, c.sizeLine.line.length + 2 ≤ m → (reader k).feed (p, n) ((c.bytes ++ more).take m) =
        (reader k).feed ({ p with chunkRemaining := c.data.length, state := .chunkData }, n)
          ((c.data ++ (crlf ++ more)).take (m - (c.sizeLine.line.length + 2))) := by
      intro m hm
      have hi := iterate_line hp c.sizeLine (c.data ++ (crlf ++ more)) hm
      rw [if_pos hsize, if_neg hne, c.size_eq] at hi; rw [hbytes]; exact feed_more hi n
    have hnext := fun m => feed_data (k := k) (p := { p with chunkRemaining := c.data.length, state := .chunkData }) rfl c.data
      more rfl (by show p.body.length + _ ≤ _; omega) n m
    have ih := told_chunks l rest n cs (p := { p with body := p.body ++ c.data, chunkRemaining := 0, state := .chunkSize }) rfl
      (by rw [length_append]; omega) (by rw [length_append, Nat.add_assoc p.body.length]; exact hl)
    rw [hmore, length_append] at ih
    have hbehind : ∀ m, c.bytes.length ≤ m → (reader k).feed (p, n) ((c.bytes ++ more).take m) =
        (reader k).feed ({ p with body := p.body ++ c.data, chunkRemaining := 0, state := .chunkSize }, n)
          (more.take (m - c.bytes.length)) := by
      intro m hm; rw [hdata m (by omega), (hnext _).2 (by omega), hlen, Nat.sub_sub]
    refine ⟨fun m hm => ?_, fun m hu hm => ?_, fun m hm => ?_⟩
    · obtain hm | ⟨hle, hm⟩ := hm
      · rw [hbytes]; exact (hpart m hm.2).1 hm.1
      · rw [hbehind m hle]; exact ih.early _ hm
    · obtain ⟨hu₁, hu₂⟩ := not_or.1 hu
      by_cases hline : m < c.sizeLine.line.length + 2
      · rw [hbytes]; exact (hpart m hline).2 (Nat.not_lt.1 (fun h => hu₁ ⟨h, hline⟩))
      · by_cases hchunk : m < c.bytes.length
        · unfold Waits; rw [hdata m (by omega)]; exact (hnext _).1 (by omega)
        · unfold Waits
          rw [hbehind m (by omega)]
          refine ih.waits _ (fun h => hu₂ ⟨by omega, h⟩) ?_
          unfold toldAfter at hm; omega
    · unfold toldAfter at hm; rw [hbehind m (by omega)]; exact ih.late _ (by omega)

/-! ### The head -/

theorem parseDecimal_over (ds : Bytes) : ∀ {n : Nat}, (∀ c ∈ ds, 48 ≤ c ∧ c ≤ 57) → n ≤ kMaxBodyBytes →
    kMaxBodyBytes < decimalValue n ds → parseDecimal n ds = none := by
  induction ds with
  | nil => intro n _ hn hv; exact absurd hv (Nat.not_lt.2 hn)
  | cons c cs ih =>
    intro n hd hn hv
    obtain ⟨h₁, h₂⟩ := hd c mem_cons_self
    have hdigit : ¬ ((c < 48 || 57 < c) = true) := by
      simp only [Bool.or_eq_true, decide_eq_true_eq, not_or, UInt8.not_lt]; exact ⟨h₁, h₂⟩
    rw [parseDecimal, if_neg hdigit]
    by_cases hm : n * 10 + (c.toNat - 48) > kMaxBodyBytes
    · rw [if_pos hm]
    · rw [if_neg hm]; exact ih (fun x hx => hd x (mem_cons_of_mem _ hx)) (Nat.not_lt.1 hm) hv

theorem parseHead_of_scan {head : Bytes} {s : FieldScan} (h : scanHead head = some s) :
    (s.bodyLength = none → parseHead head = .error 400) ∧
      (s.chunked = true → ∃ q, parseHead head = .ok q ∧ q.chunked = true) := by
  obtain ⟨⟨method, target, version⟩, hline, hloop⟩ := Option.bind_eq_some_iff.1 h
  unfold parseHead
  simp only [hline, hloop]
  constructor
  · intro hn; rw [hn]
  · intro hc
    have hlen : s.bodyLength = some 0 := by unfold FieldScan.bodyLength; rw [if_pos hc]
    rw [hlen]; exact ⟨_, rfl, hc⟩

namespace LargeRequest

variable (r : LargeRequest)

/-- The first `m` bytes end inside a size line, more than 1024 bytes behind its start. -/
def Unended (r : LargeRequest) (m : Nat) : Prop :=
  match r.body with
  | .length _ _ => False
  | .chunked chunks line _ => r.head.length + 4 ≤ m ∧ Http.Unended line chunks (m - (r.head.length + 4))

/-- How many bytes tell that the request is over the cap. -/
def told (r : LargeRequest) : Nat :=
  match r.body with
  | .length _ _ => r.head.length + 4
  | .chunked chunks line _ => r.head.length + 4 + toldAfter line chunks 0

/-- What it is answered. -/
def status (r : LargeRequest) : Nat := if r.body.isChunked then 413 else 400

theorem Unended.lt {r : LargeRequest} {m : Nat} (h : r.Unended m) : m < r.told := by
  unfold LargeRequest.Unended at h
  unfold told
  split at h
  · exact h.elim
  · have hlt := h.2.lt 0; omega

theorem told_le : r.told ≤ r.bytes.length := by
  have hlen : r.bytes.length = r.head.length + 4 + r.body.bytes.length := by
    simp only [bytes, length_append, length_crlfcrlf]; omega
  have hok := r.body_ok
  unfold told
  rw [hlen]
  cases hb : r.body with
  | length value rest => exact Nat.le_add_right _ _
  | chunked chunks line rest =>
    rw [hb] at hok
    obtain ⟨-, hcap, hover⟩ := hok
    have hchunks : ∀ (cs : List SizedChunk) (n : Nat), n + (cs.flatMap (·.data)).length ≤ kMaxBodyBytes →
        (kMaxBodyBytes < line.size ∨ kMaxBodyBytes < n + (cs.flatMap (·.data)).length + min line.size rest.length) →
        toldAfter line cs n ≤ (cs.flatMap SizedChunk.bytes ++ (line.line ++ (crlf ++ rest))).length := by
      intro cs
      induction cs with
      | nil =>
        intro n hn hl
        simp only [flatMap_nil, length_nil, nil_append, length_append, length_crlf] at hn hl ⊢
        unfold toldAfter
        split <;> omega
      | cons c cs ih =>
        intro n hn hl
        simp only [flatMap_cons, length_append] at hn hl
        have hi := ih (n + c.data.length) (by omega) (by rw [Nat.add_assoc n]; exact hl)
        simp only [flatMap_cons, length_append] at hi ⊢
        unfold toldAfter; omega
    have hle := hchunks chunks 0 (by omega) (by rw [Nat.zero_add]; exact hover)
    exact Nat.add_le_add_left hle _

/-- **Where a part of the request leads**, from a request boundary. -/
theorem feed_part (hp : p.state = .head) (n : Nat) : Told k (p, n) r.bytes r.Unended r.told r.status := by
  have hf : find crlfcrlf r.bytes = some r.head.length := by
    have happ := find_append r.head_end r.body.bytes; rw [append_assoc] at happ; exact happ
  have hlen : r.bytes.length = r.head.length + 4 + r.body.bytes.length := by
    simp only [bytes, length_append, length_crlfcrlf]; omega
  have hle := r.head_le
  have hwait : ∀ m, m < r.head.length + 4 → Waits k (p, n) (r.bytes.take m) := by
    intro m hm
    have hn : find crlfcrlf (r.bytes.take m) = none := find_take_none hf (by rw [length_crlfcrlf]; exact hm)
    have hshort : ¬ (r.bytes.take m).length > kMaxHeadBytes := by rw [length_take]; omega
    have hi : p.iterate (r.bytes.take m) = .wait p (r.bytes.take m) := by
      simp only [Parser.iterate, hp, Parser.iterateHead, hn, if_neg hshort]
    exact waits_of hi n
  have hhead : ∀ m, r.head.length + 4 ≤ m →
      (∀ status, parseHead r.head = .error status → p.iterate (r.bytes.take m) = rejectHead status) ∧
      ∀ q, parseHead r.head = .ok q →
        p.iterate (r.bytes.take m) = q.startBody (r.body.bytes.take (m - (r.head.length + 4))) := by
    intro m hm
    have hft := find_take hf m (by rw [length_crlfcrlf]; exact hm)
    have htake : (r.bytes.take m).take r.head.length = r.head := by
      rw [take_take, Nat.min_eq_left (by omega), bytes, take_left]
    have hdrop : (r.bytes.take m).drop (r.head.length + 4) = r.body.bytes.take (m - (r.head.length + 4)) := by
      rw [drop_take, bytes, ← drop_drop, drop_left]
      rfl
    constructor
    · intro status hs; simp only [Parser.iterate, hp, Parser.iterateHead, hft, if_neg (Nat.not_lt.2 hle), htake, hs]
    · intro q hq; simp only [Parser.iterate, hp, Parser.iterateHead, hft, if_neg (Nat.not_lt.2 hle), htake, hdrop, hq]
  obtain ⟨hnone, hchunked⟩ := parseHead_of_scan r.scan_eq
  have hok := r.body_ok
  unfold LargeRequest.Unended told status
  cases hb : r.body with
  | length value rest =>
    rw [hb] at hok
    obtain ⟨hc, hv, hne, hdigits, hover⟩ := hok
    have hlength : r.scan.bodyLength = none := by
      unfold FieldScan.bodyLength
      rw [if_neg (by rw [hc]; exact Bool.false_ne_true), hv]
      dsimp only; rw [if_neg hne]; exact parseDecimal_over value hdigits (Nat.zero_le _) hover
    refine ⟨(by simp), fun m _ hm => hwait m hm, fun m hm => ?_⟩
    exact feed_refused ((hhead m hm).1 400 (hnone hlength)) n
  | chunked chunks line rest =>
    rw [hb] at hok
    obtain ⟨hc, hcap, hover⟩ := hok
    obtain ⟨q, hq, hqc⟩ := hchunked hc
    have hqb : q.body = [] := (parseHead_ok hq).2.1
    have hbody : ∀ m, r.head.length + 4 ≤ m → (reader k).feed (p, n) (r.bytes.take m) =
        (reader k).feed ({ q with state := .chunkSize }, n) (r.body.bytes.take (m - (r.head.length + 4))) := by
      intro m hm
      have hi := (hhead m hm).2 q hq
      unfold Parser.startBody at hi
      dsimp only at hi; rw [if_pos hqc] at hi; exact feed_more hi n
    have ht := told_chunks (k := k) line rest n chunks (p := { q with state := .chunkSize }) rfl
      (by simp only [hqb]; simpa using hcap) (by simp only [hqb]; simpa using hover)
    have hbytes : r.body.bytes = chunks.flatMap SizedChunk.bytes ++ (line.line ++ (crlf ++ rest)) := by
      rw [hb]; rfl
    rw [show ({ q with state := .chunkSize } : Parser).body.length = 0 by simp [hqb], ← hbytes] at ht
    dsimp only
    refine ⟨fun m hu => ?_, fun m hu hm => ?_, fun m hm => ?_⟩
    · rw [hbody m hu.1]; exact ht.early _ hu.2
    · by_cases hlt : m < r.head.length + 4
      · exact hwait m hlt
      · unfold Waits; rw [hbody m (by omega)]; exact ht.waits _ (fun h => hu ⟨by omega, h⟩) (by omega)
    · rw [hbody m (by omega)]; exact ht.late _ (by omega)

/-- No read ends inside a size line, more than 1024 bytes behind its start. -/
def Uncut (r : LargeRequest) (xs : List Bytes) : Prop := ∀ ys zs, xs = ys ++ zs → ¬ r.Unended ys.flatten.length

/-- **Where its pieces lead.** -/
theorem feed_pieces (hp : p.state = .head) (n : Nat) {xs : List Bytes} (hxs : xs.flatten = r.bytes) :
    ∃ status, (reader k).feedAll (p, n) [] xs = ([], .halted (.refused status)) ∧
      (status = 413 ↔ r.body.isChunked = true ∧ r.Uncut xs) := by
  have ht := r.feed_part (k := k) hp n
  obtain ⟨ys, zs, rfl, hrun, hend, hall⟩ := feedAll_shortest (reader_local (k := k)) xs
    (feed_wait (round_boundary hp n))
  rw [nil_append, nil_append] at hrun
  have hpart : ∀ ys' zs' : List Bytes, ys ++ zs = ys' ++ zs' → r.bytes.take ys'.flatten.length = ys'.flatten := by
    intro ys' zs' h; rw [← hxs, h, flatten_append, take_left]
  have hys := hpart ys zs rfl
  by_cases hu : r.Unended ys.flatten.length
  · have hearly := ht.early _ hu
    rw [hys, hrun] at hearly
    exact ⟨400, hearly, fun h => absurd h (by decide), fun h => absurd hu (h.2 ys zs rfl)⟩
  · by_cases hlt : ys.flatten.length < r.told
    · obtain ⟨s', q, hw⟩ := ht.waits _ hu hlt
      rw [hys, hrun] at hw
      obtain rfl | ⟨e, he⟩ := hend
      · rw [append_nil] at hxs; rw [hxs] at hlt; exact absurd r.told_le (Nat.not_le.2 hlt)
      · exact absurd (he.symm.trans (congrArg Prod.snd hw)) nofun
    · have hlate := ht.late _ (Nat.not_lt.1 hlt)
      rw [hys, hrun] at hlate
      refine ⟨r.status, hlate, fun h => ?_, fun h => ?_⟩
      · have hchunked : r.body.isChunked = true := by
          unfold status at h
          split at h
          · assumption
          · cases h
        refine ⟨hchunked, fun ys' zs' hsplit hu' => ?_⟩
        obtain ⟨a, rfl, -⟩ | ⟨a, rfl, rfl⟩ := append_eq_append_iff.1 hsplit
        · have hlt' := hu'.lt; rw [flatten_append, length_append] at hlt'; omega
        · cases a with
          | nil => rw [append_nil] at hlt; exact hlt hu'.lt
          | cons x a =>
            obtain ⟨out', t, q, hw⟩ := hall ys' x a rfl
            have hearly := ht.early _ hu'
            rw [hpart ys' _ hsplit, ← nil_append ys'.flatten, hw] at hearly; cases hearly
      · unfold status; rw [if_pos h.1]

end LargeRequest

end Parts

/-! ## A connection -/

theorem buffered_feedAll (R : Responder) (c : Conn) (hc : c.Idle) (xs : List Bytes) :
    ((c.processInput R).reads R xs).calls =
        c.calls ++ ((reader R.keeps).feedAll (c.parser, c.calls.length) [] (c.inbuf :: xs)).1 ∧
      ((c.processInput R).reads R xs).Shows ((reader R.keeps).feedAll (c.parser, c.calls.length) [] (c.inbuf :: xs)).2 := by
  obtain ⟨h₁, h₂⟩ := processInput_feed R c hc
  unfold feedAll
  rw [nil_append]
  rcases hf : (reader R.keeps).feed (c.parser, c.calls.length) c.inbuf with ⟨es, f⟩
  rw [hf] at h₁ h₂
  cases f with
  | waiting s b =>
    obtain ⟨hi, hp, hn, hb⟩ := h₂
    have ih := reads_feedAll R xs (c.processInput R) hi
    rw [hp, hn, hb, h₁, append_assoc] at ih; exact ih
  | halted e =>
    have hcl : (c.processInput R).closing = true := by cases e <;> exact h₂.1
    obtain ⟨g₁, g₂, g₃⟩ := reads_closing R xs (c.processInput R) hcl
    refine ⟨g₁.trans h₁, ?_⟩
    cases e with
    | refused status | closing => exact ⟨g₂, g₃.trans h₂.2⟩

/-- **The cap on bodies.** Every body that is dispatched is within it, in every run, and the sizes are those that the code
computes in a `size_t`. A request over the cap is never dispatched, and the connection stops; it is answered 413 when its size
is told by chunks and no read ends inside a size line, more than 1024 bytes behind its start, and only then. -/
theorem body_cap (r : LargeRequest) (R : Responder) (c : Conn) (xs : List Bytes) (hc : c.Idle) (hp : c.parser.state = .head)
    (hxs : c.inbuf ++ xs.flatten = r.bytes) :
    (∀ ls m id s, Run Machine.step (fun _ _ => True) {} ls m → m.sessions id = some s →
      ∀ call ∈ s.calls, call.body.length ≤ kMaxBodyBytes) ∧
    (∀ value, (parseWord 0 value).map UInt64.toNat = parseDecimal 0 value) ∧
    (∀ line, (parseSizeWord 0 false line).map UInt64.toNat = parseSizeLine 0 false line) ∧
    ((c.processInput R).reads R xs).calls = c.calls ∧ ((c.processInput R).reads R xs).closing = true ∧
    (((c.processInput R).reads R xs).refused = some 413 ↔ r.body.isChunked = true ∧ r.Uncut (c.inbuf :: xs)) := by
  obtain ⟨hcalls, hshows⟩ := buffered_feedAll R c hc xs
  have hpieces : (c.inbuf :: xs).flatten = r.bytes := hxs
  obtain ⟨status, hfeed, hiff⟩ := r.feed_pieces (k := R.keeps) hp c.calls.length hpieces
  rw [hfeed, append_nil] at hcalls
  rw [hfeed] at hshows
  refine ⟨fun ls m id s h hs => (capped h hs).called, parseWord_toNat, fun line => ?_, hcalls, hshows.1, ?_⟩
  · exact parseSizeWord_eq line false (Nat.zero_le _)
  · rw [hshows.2, Option.some.injEq]; exact hiff

theorem ext_nil : ([] : Bytes) = [] ∨ ([] : Bytes).head? = some semicolon := .inl rfl

/-- A chunk of 5000000 (hexadecimal) bytes, cut behind the head. -/
def largeChunk : LargeRequest where
  head := text "POST / HTTP/1.1\r\nTransfer-Encoding: chunked"
  scan := { keepAlive := true, chunked := true, fields := [(text "Transfer-Encoding", text "chunked")] }
  body := .chunked [] ⟨text "5000000", [], by decide, by decide +kernel, ext_nil, by decide +kernel⟩ []
  head_end := by decide +kernel
  head_le := by decide
  scan_eq := by decide +kernel
  body_ok := ⟨rfl, by decide +kernel, .inl (by decide +kernel)⟩

theorem body_cap_chunk : ((Conn.accepted []).processInput (fun _ _ => {}) |>.reads (fun _ _ => {})
    [largeChunk.head ++ crlfcrlf, largeChunk.body.bytes]).refused = some 413 := by
  have h := body_cap largeChunk (fun _ _ => {}) (Conn.accepted []) [largeChunk.head ++ crlfcrlf, largeChunk.body.bytes]
    (Conn.accepted_idle []) rfl (by decide +kernel)
  refine h.2.2.2.2.2.2 ⟨rfl, fun ys zs _ hu => ?_⟩
  have hline : 1024 < ys.flatten.length - (largeChunk.head.length + 4) ∧
    ys.flatten.length - (largeChunk.head.length + 4) < 7 + 2 := hu.2
  omega

/-- A `Content-Length` of one byte more than the cap. -/
def largeLength : LargeRequest where
  head := text "POST / HTTP/1.1\r\nContent-Length: 67108865"
  scan := { keepAlive := true, contentLength := some (text "67108865"), fields := [(text "Content-Length", text "67108865")] }
  body := .length (text "67108865") []
  head_end := by decide +kernel
  head_le := by decide
  scan_eq := by decide +kernel
  body_ok := ⟨rfl, rfl, by decide, by decide +kernel, by decide +kernel⟩

theorem large_length_400 : ¬ ∀ (r : LargeRequest) (R : Responder) (c : Conn) (xs : List Bytes), c.Idle → c.parser.state = .head →
    c.inbuf ++ xs.flatten = r.bytes → ((c.processInput R).reads R xs).refused = some 413 := by
  intro h
  have hrun := h largeLength (fun _ _ => {}) (Conn.accepted []) [largeLength.bytes] (Conn.accepted_idle []) rfl (by decide +kernel)
  revert hrun
  decide +kernel

end NodeCompat.Http
