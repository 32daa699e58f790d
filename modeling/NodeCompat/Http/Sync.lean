import NodeCompat.Lib.Feed
import NodeCompat.Http.Connection

/-!
# Responders that complete synchronously

The loop of `processInput` on one connection, with a responder that completes each response before it returns. `reader`
is the same loop as a consumer of bytes: its events are the responder calls, and it halts on a parser-level error or on
a response that does not keep the connection. `processInput_feed` says that the code does what `reader` does, so what
is proved about consumers holds of the code.
-/

namespace NodeCompat.Http

/-- What the responder does before it returns: it enqueues bytes and completes the response. -/
structure Reply where
  out : Bytes := []
  keepAlive : Bool := true
deriving DecidableEq

/-- A responder, by the number of the call. -/
abbrev Responder := Nat → Call → Reply

namespace Conn

/-- `dispatchCurrent` with no handler on the stack, and a handler that completes its response: `responseComplete` finds
the connection in its own pass and only takes back `busy_`. -/
def respond (R : Responder) (c : Conn) : Conn :=
  let reply := R c.calls.length c.currentCall
  let c := { c with busy := true }.call.enqueueResponseBytes reply.out
  { c with busy := false, closing := c.closing || !reply.keepAlive }.clearRequest

theorem respond_frame (R : Responder) (c : Conn) : (c.respond R).inbuf = c.inbuf ∧
    (c.respond R).parser.state = c.parser.state := by
  obtain ⟨out, closed, h⟩ := enqueueResponseBytes_frame ({ c with busy := true } : Conn).call
    (R c.calls.length c.currentCall).out
  simp only [respond, h]; exact ⟨rfl, rfl⟩

/-- `processInput`: parse what is buffered, dispatch each complete request while idle. -/
def processInput (R : Responder) (c : Conn) : Conn :=
  if c.busy || c.closing then c
  else
    match _ : c.parser.iterate c.inbuf with
    | .wait p b => { c with parser := p, inbuf := b }
    | .reject status reason => c.sendErrorAndClose status reason
    | .more p b out => processInput R { c with parser := p, inbuf := b, out := c.out.append out }
    | .dispatch p b out => processInput R ({ c with parser := p, inbuf := b, out := c.out.append out }.respond R)
termination_by c.parser.weight c.inbuf
decreasing_by
  · exact Parser.weight_lt (.inl ‹_›)
  · obtain ⟨h₁, h₂⟩ := respond_frame R { c with parser := p, inbuf := b, out := c.out.append out }
    have := Parser.weight_lt (.inr ‹c.parser.iterate c.inbuf = .dispatch p b out›)
    simp only [Parser.weight] at this ⊢
    rw [h₁, h₂]
    exact this

/-- One read that brings `x`, and the pass of the connection it causes. -/
def read (R : Responder) (c : Conn) (x : Bytes) : Conn :=
  let c := { c with inbuf := c.inbuf ++ x, received := c.received ++ x, processing := true }.processInput R
  { c with processing := false }.flushAndMaybeClose

/-- Reads, one after the other. -/
def reads (R : Responder) (c : Conn) (xs : List Bytes) : Conn := xs.foldl (read R) c

end Conn

/-! ## The reader -/

/-- Why the reader stops: a parser-level error, or a response that does not keep the connection. -/
inductive Stop
  | refused (status : Nat)
  | closing
deriving DecidableEq

/-- The responder call for a parsed request. -/
def Parser.call (p : Parser) (first : Bool) : Call where
  keepAlive := p.keepAlive
  first := first
  method := p.method
  target := p.target
  version := p.version
  rawHead := p.rawHead
  body := p.body

/-- The request fields after the responder call. -/
def Parser.clear (p : Parser) : Parser := { p with method := [], target := [], version := [], rawHead := [], body := [] }

/-- One iteration as a round; `k` tells which calls keep the connection. -/
def readerRound (k : Nat → Call → Bool) (s : Parser × Nat) (b : Bytes) : Round (Parser × Nat) UInt8 Call Stop :=
  match s.1.iterate b with
  | .wait p r => .wait (p, s.2) r
  | .reject status _ => .halt [] (.refused status)
  | .more p r _ => .go (p, s.2) r []
  | .dispatch p r _ =>
    if k s.2 (p.call (s.2 == 0)) then .go (p.clear, s.2 + 1) r [p.call (s.2 == 0)]
    else .halt [p.call (s.2 == 0)] .closing

/-- The parser loop as a consumer: state, and number of calls so far. -/
def reader (k : Nat → Call → Bool) : Consumer (Parser × Nat) UInt8 Call Stop where
  round := readerRound k
  weight s b := s.1.weight b
  weight_lt := by
    intro s b s' r out h
    unfold readerRound at h
    split at h
    · cases h
    · cases h
    · next hi => cases h; exact Parser.weight_lt (.inl hi)
    · next hi =>
      split at h
      · cases h; exact (Parser.weight_lt (.inr hi) :)
      · cases h

variable {k : Nat → Call → Bool}

theorem reader_round (s : Parser × Nat) (b : Bytes) : (reader k).round s b = readerRound k s b := rfl

theorem reader_local : (reader k).Local where
  go_used := by
    intro s b s' r out h
    have hset := Parser.settles_iterate s.1 b
    simp only [reader_round, readerRound] at h ⊢
    split at h
    · cases h
    · cases h
    · next hi =>
      cases h
      rw [hi] at hset
      obtain ⟨u, hu, hy⟩ := hset; exact ⟨u, hu, fun y => by rw [hy]⟩
    · next hi =>
      rw [hi] at hset
      obtain ⟨u, hu, hy⟩ := hset
      split at h
      · next hk =>
        cases h; exact ⟨u, hu, fun y => by rw [hy]; simp only [if_pos hk]⟩
      · cases h
  wait_resume := by
    intro s b s' r h y
    have hset := Parser.settles_iterate s.1 b
    simp only [reader_round, readerRound] at h ⊢
    split at h
    · next hi =>
      cases h; rw [hi] at hset; rw [hset y]
    · cases h
    · cases h
    · split at h <;> cases h

/-! ## The code does what the reader does -/

/-- The calls of a responder that keep the connection. -/
def Responder.keeps (R : Responder) (n : Nat) (call : Call) : Bool := (R n call).keepAlive

/-- A connection that waits for input. -/
structure Conn.Idle (c : Conn) : Prop where
  busy : c.busy = false
  closing : c.closing = false
  refused : c.refused = none
  first : c.firstRequest = (c.calls.length == 0)

/-- What a connection shows of how the reader ended. -/
def Conn.Shows (c : Conn) : Final (Parser × Nat) UInt8 Stop → Prop
  | .waiting s b => c.Idle ∧ c.parser = s.1 ∧ c.calls.length = s.2 ∧ c.inbuf = b
  | .halted (.refused status) => c.closing = true ∧ c.refused = some status
  | .halted .closing => c.closing = true ∧ c.refused = none

open Conn

theorem sendErrorAndClose_shows (c : Conn) (status : Nat) (reason : Bytes) :
    (c.sendErrorAndClose status reason).calls = c.calls ∧
      (c.sendErrorAndClose status reason).Shows (.halted (.refused status)) := by
  simp only [sendErrorAndClose]
  obtain ⟨out, closed, h⟩ := enqueueResponseBytes_frame c (errorResponse status reason)
  rw [h]; exact ⟨rfl, rfl, rfl⟩

theorem respond_shows (R : Responder) (c : Conn) (hc : c.Idle) :
    (c.respond R).calls = c.calls ++ [c.parser.call (c.calls.length == 0)] ∧
      (c.respond R).parser = c.parser.clear ∧ (c.respond R).inbuf = c.inbuf ∧
      (R.keeps c.calls.length (c.parser.call (c.calls.length == 0)) = true → (c.respond R).Idle) ∧
      (R.keeps c.calls.length (c.parser.call (c.calls.length == 0)) = false → (c.respond R).Shows (.halted .closing)) := by
  obtain ⟨out, closed, h⟩ := enqueueResponseBytes_frame ({ c with busy := true } : Conn).call
    (R c.calls.length c.currentCall).out
  have hcall : c.currentCall = c.parser.call (c.calls.length == 0) := by
    simp only [currentCall, Parser.call, hc.first]
  have hcalls : (c.respond R).calls = c.calls ++ [c.currentCall] := by simp only [respond, h]; rfl
  refine ⟨by rw [hcalls, hcall], ?_, ?_, fun hk => ⟨?_, ?_, ?_, ?_⟩, fun hk => ⟨?_, ?_⟩⟩
  all_goals simp only [respond, h]
  · rfl
  · rfl
  · rfl
  · simp only [clearRequest, call, hc.closing, hcall, Bool.false_or]; simpa [Responder.keeps] using hk
  · exact hc.refused
  · simp [clearRequest, call]
  · simp only [clearRequest, call, hc.closing, hcall, Bool.false_or]; simpa [Responder.keeps] using hk
  · exact hc.refused

theorem processInput_closing (R : Responder) {c : Conn} (h : c.closing = true) : c.processInput R = c := by
  rw [processInput]; simp [h]

/-- **`processInput` is the reader.** -/
theorem processInput_feed (R : Responder) (c : Conn) (hc : c.Idle) :
    (c.processInput R).calls = c.calls ++ ((reader R.keeps).feed (c.parser, c.calls.length) c.inbuf).1 ∧
      (c.processInput R).Shows ((reader R.keeps).feed (c.parser, c.calls.length) c.inbuf).2 := by
  induction hn : c.parser.weight c.inbuf using Nat.strongRecOn generalizing c with
  | ind n ih =>
    rw [processInput, if_neg (by simp [hc.busy, hc.closing])]
    split
    · next p b hi =>
      have hr : (reader R.keeps).round (c.parser, c.calls.length) c.inbuf = .wait (p, c.calls.length) b := by
        simp only [reader_round, readerRound, hi]
      rw [Consumer.feed_wait hr]
      exact ⟨by simp, ⟨hc.busy, hc.closing, hc.refused, hc.first⟩, rfl, rfl, rfl⟩
    · next status reason hi =>
      have hr : (reader R.keeps).round (c.parser, c.calls.length) c.inbuf = .halt [] (.refused status) := by
        simp only [reader_round, readerRound, hi]
      rw [Consumer.feed_halt hr, List.append_nil]; exact sendErrorAndClose_shows c status reason
    · next p b out hi =>
      have hr : (reader R.keeps).round (c.parser, c.calls.length) c.inbuf = .go (p, c.calls.length) b [] := by
        simp only [reader_round, readerRound, hi]
      rw [Consumer.feed_go hr]
      exact ih _ (hn ▸ Parser.weight_lt (.inl hi)) { c with parser := p, inbuf := b, out := c.out.append out }
        ⟨hc.busy, hc.closing, hc.refused, hc.first⟩ rfl
    · next p b out hi =>
      set d : Conn := { c with parser := p, inbuf := b, out := c.out.append out } with hd
      have hdi : d.Idle := ⟨hc.busy, hc.closing, hc.refused, hc.first⟩
      obtain ⟨h₁, h₂, h₃, h₄, h₅⟩ := respond_shows R d hdi
      have hw : p.weight b < n := hn ▸ Parser.weight_lt (.inr hi)
      cases hk : R.keeps c.calls.length (p.call (c.calls.length == 0)) with
      | true =>
        have hr : (reader R.keeps).round (c.parser, c.calls.length) c.inbuf =
            .go (p.clear, c.calls.length + 1) b [p.call (c.calls.length == 0)] := by
          simp only [reader_round, readerRound, hi, hk, if_true]
        rw [Consumer.feed_go hr]
        have := ih (p.clear.weight b) hw (d.respond R) (h₄ hk) (by rw [h₂, h₃])
        rw [h₁, h₂, h₃, List.length_append, List.length_singleton, List.append_assoc] at this
        exact this
      | false =>
        have hr : (reader R.keeps).round (c.parser, c.calls.length) c.inbuf =
            .halt [p.call (c.calls.length == 0)] .closing := by
          simp only [reader_round, readerRound, hi, hk, Bool.false_eq_true, if_false]
        rw [Consumer.feed_halt hr, processInput_closing R (h₅ hk).1]; exact ⟨h₁, h₅ hk⟩

/-! ## Reads -/

/-- A connection that has just been accepted, with the `send` results to come. -/
def Conn.accepted (sends : List SendResult) : Conn := { out := { sends } }

theorem Conn.accepted_idle (sends : List SendResult) : (Conn.accepted sends).Idle := ⟨rfl, rfl, rfl, rfl⟩

theorem Conn.Shows.read {c : Conn} {f : Final (Parser × Nat) UInt8 Stop} (h : c.Shows f) :
    ({ c with processing := false } : Conn).flushAndMaybeClose.Shows f := by
  cases f with
  | waiting s b => exact ⟨⟨h.1.busy, h.1.closing, h.1.refused, h.1.first⟩, h.2.1, h.2.2.1, h.2.2.2⟩
  | halted e => cases e <;> exact h

theorem reads_closing (R : Responder) : ∀ (xs : List Bytes) (c : Conn), c.closing = true →
    (c.reads R xs).calls = c.calls ∧ (c.reads R xs).closing = true ∧ (c.reads R xs).refused = c.refused
  | [], c, h => ⟨rfl, h, rfl⟩
  | x :: xs, c, h => by
    have hp := processInput_closing R
      (c := { c with inbuf := c.inbuf ++ x, received := c.received ++ x, processing := true }) h
    have hr : (c.read R x).calls = c.calls ∧ (c.read R x).closing = true ∧ (c.read R x).refused = c.refused := by
      simp only [Conn.read, hp]; exact ⟨rfl, h, rfl⟩
    obtain ⟨h₁, h₂, h₃⟩ := reads_closing R xs (c.read R x) hr.2.1
    exact ⟨h₁.trans hr.1, h₂, h₃.trans hr.2.2⟩

/-- **Reads are pieces fed to the reader.** -/
theorem reads_feedAll (R : Responder) : ∀ (xs : List Bytes) (c : Conn), c.Idle →
    (c.reads R xs).calls = c.calls ++ ((reader R.keeps).feedAll (c.parser, c.calls.length) c.inbuf xs).1 ∧
      (c.reads R xs).Shows ((reader R.keeps).feedAll (c.parser, c.calls.length) c.inbuf xs).2
  | [], c, hc => ⟨by simp [Conn.reads, Consumer.feedAll], hc, rfl, rfl, rfl⟩
  | x :: xs, c, hc => by
    obtain ⟨h₁, h₂⟩ := processInput_feed R
      { c with inbuf := c.inbuf ++ x, received := c.received ++ x, processing := true }
      ⟨hc.busy, hc.closing, hc.refused, hc.first⟩
    have h₁' : (c.read R x).calls = c.calls ++ ((reader R.keeps).feed (c.parser, c.calls.length) (c.inbuf ++ x)).1 := h₁
    have h₂' : (c.read R x).Shows ((reader R.keeps).feed (c.parser, c.calls.length) (c.inbuf ++ x)).2 := h₂.read
    rw [show c.reads R (x :: xs) = (c.read R x).reads R xs from rfl]
    unfold Consumer.feedAll
    rcases hf : (reader R.keeps).feed (c.parser, c.calls.length) (c.inbuf ++ x) with ⟨es, f⟩
    rw [hf] at h₁' h₂'
    cases f with
    | waiting s b =>
      obtain ⟨hi, hp, hn, hb⟩ := h₂'
      have ih := reads_feedAll R xs (c.read R x) hi
      rw [hp, hn, hb, h₁', List.append_assoc] at ih; exact ih
    | halted e =>
      have hcl : (c.read R x).closing = true := by cases e <;> exact h₂'.1
      obtain ⟨g₁, g₂, g₃⟩ := reads_closing R xs (c.read R x) hcl
      refine ⟨g₁.trans h₁', ?_⟩
      cases e with
      | refused status | closing => exact ⟨g₂, g₃.trans h₂'.2⟩

end NodeCompat.Http
