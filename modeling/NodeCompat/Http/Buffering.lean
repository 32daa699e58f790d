import NodeCompat.Http.BodyCap

/-!
# What a connection buffers

When a pass ends because the parser needs more bytes, most states have used what was buffered, or have a limit of their own
(`iterate_wait_le`). The trailer section has none: a trailer line is kept until it ends. So the buffer of a connection that waits
for input is bounded in the runs whose trailer lines are (`buffer_bounded`).
-/

namespace NodeCompat.Http

open List Conn

/-! ## One iteration -/

/-- A trailer line that has not ended within `kMaxHeadBytes`. -/
def Parser.LongTrailer (p : Parser) (b : Bytes) : Prop :=
  p.state = .trailers ∧ find crlf b = none ∧ kMaxHeadBytes < b.length

/-- **What is buffered when the parser waits** is within the limit, except of a long trailer line. -/
theorem iterate_wait_le {p q : Parser} {b r : Bytes} (h : p.iterate b = .wait q r) :
    r.length ≤ kMaxHeadBytes ↔ ¬ p.LongTrailer b := by
  have hother : p.state ≠ .trailers → r.length ≤ kMaxHeadBytes → (r.length ≤ kMaxHeadBytes ↔ ¬ p.LongTrailer b) :=
    fun hs hr => ⟨fun _ hl => hs hl.1, fun _ => hr⟩
  have hreject : ∀ status, rejectBody status ≠ .wait q r := by
    intro status hr
    unfold rejectBody at hr
    split at hr <;> cases hr
  unfold Parser.iterate at h
  split at h
  · next hs =>
    refine hother (by rw [hs]; nofun) ?_
    unfold Parser.iterateHead at h
    split at h
    · split at h
      · cases h
      · next hle =>
        cases h; exact Nat.not_lt.1 hle
    · split at h
      · cases h
      · split at h
        · unfold rejectHead at h
          split at h <;> cases h
        · unfold Parser.startBody at h
          dsimp only at h
          split at h
          · cases h
          · split at h <;> cases h
  · next hs =>
    refine hother (by rw [hs]; simp) ?_
    unfold Parser.iterateBodyFixed at h
    dsimp only at h
    split at h
    · exact absurd h (hreject _)
    · split at h
      · next hrem =>
        cases h; rw [length_drop]; omega
      · cases h
  · next hs =>
    refine hother (by rw [hs]; simp) ?_
    unfold Parser.iterateChunkSize at h
    split at h
    · split at h
      · exact absurd h (hreject _)
      · next hle =>
        cases h; exact Nat.le_trans (Nat.not_lt.1 hle) (by decide)
    · split at h
      · exact absurd h (hreject _)
      · cases h
  · next hs =>
    refine hother (by rw [hs]; simp) ?_
    unfold Parser.iterateChunkData at h
    dsimp only at h
    split at h
    · exact absurd h (hreject _)
    · split at h
      · next hrem =>
        cases h; rw [length_drop]; omega
      · cases h
  · next hs =>
    refine hother (by rw [hs]; simp) ?_
    unfold Parser.iterateChunkCrlf at h
    split at h
    · next hlt =>
      cases h; exact Nat.le_trans (Nat.le_of_lt hlt) (by decide)
    · split at h
      · cases h
      · exact absurd h (hreject _)
  · next hs =>
    unfold Parser.iterateTrailers at h
    split at h
    · next hn =>
      cases h; exact ⟨fun hle hl => Nat.not_lt.2 hle hl.2.2, fun hl => Nat.not_lt.1 (fun hlt => hl ⟨hs, hn, hlt⟩)⟩
    · split at h <;> cases h

/-! ## Runs -/

namespace Session

/-- The connection waits for input. -/
structure Awaits (s : Session) : Prop where
  processing : s.processing = false
  busy : s.busy = false
  closing : s.closing = false
  closed : s.closed = false

/-- The parser is about to run, and comes to a long trailer line. -/
def LongTrailer (s : Session) : Prop := s.busy = false ∧ s.closing = false ∧ s.parser.LongTrailer s.inbuf

variable {s s' : Session}

theorem parse_stop_le (hp : s.parse = .stop s') (hb : s'.busy = false) (hc : s'.closing = false) :
    s'.inbuf.length ≤ kMaxHeadBytes ↔ ¬ s.LongTrailer := by
  obtain ⟨rfl, hbc⟩ | ⟨hb', hc', ⟨p, b, hi, rfl⟩ | ⟨status, reason, -, rfl⟩⟩ := parse_stop hp
  · rw [hb, hc] at hbc; cases hbc
  · rw [iterate_wait_le hi]; exact not_congr ⟨fun h => ⟨hb', hc', h⟩, fun h => h.2.2⟩
  · obtain ⟨closed, heq⟩ := sendErrorAndClose_frame s.toConn status reason; rw [heq] at hc; cases hc

theorem startReady_awaits {e : Revents} (hp : s.processing = false) (h : (s.startReady e).1.Awaits) :
    s.Awaits ∧ (s.startReady e).1.inbuf = s.inbuf := by
  obtain ⟨h₁, h₂, h₃, h₄⟩ := h
  unfold startReady Conn.startReady Conn.readAvailable Conn.close at h₁ h₂ h₃ h₄ ⊢
  split at h₁
  · next he =>
    rw [if_pos he] at h₄; cases h₄
  · next he =>
    rw [if_neg he] at h₂ h₃ h₄ ⊢
    split at h₁
    · next hr =>
      rw [if_pos hr] at h₄
      rcases recvLoop s.recvs with ⟨d, ok, rest⟩
      dsimp only at h₁ h₄
      split at h₁
      · cases h₁
      · next hok =>
        rw [if_neg hok] at h₄
        split at h₁
        · next hd =>
          rw [if_pos hd] at h₄; cases h₄
        · cases h₁
    · next hr =>
      rw [if_neg hr] at h₂ h₃ h₄ ⊢
      have hopen : s.closed = false := by
        simp only [Conn.flushAndMaybeClose, Bool.or_eq_false_iff] at h₄; exact h₄.1.1
      exact ⟨⟨hp, h₂, h₃, hopen⟩, rfl⟩

end Session

/-- The pass on top does not come to a long trailer line. -/
def Machine.ShortTrailers (m : Machine) : Label → Prop
  | .tau =>
    match m.stack with
    | .pass id _ :: _ =>
      match m.sessions id with
      | some s => ¬ s.LongTrailer
      | none => True
    | _ => True
  | _ => True

theorem awaits_acts {m : Machine} {id : Nat} {l : Label} {s s' : Session} (hP : m.ShortTrailers l)
    (hs : m.sessions id = some s) (hv : s.Valid) (ha : m.Acts id l s s') (h : s.Awaits → s.inbuf.length ≤ kMaxHeadBytes)
    (hw : s'.Awaits) : s'.inbuf.length ≤ kMaxHeadBytes := by
  have hbusy : s'.processing ≠ true := by rw [hw.processing]; exact Bool.false_ne_true
  cases ha with
  | @stop _ s' rest hst hp hparse =>
    obtain ⟨closed, heq⟩ := Session.flush_frame { s'.toConn with processing := false }
    have hb := hw.busy
    have hc := hw.closing
    unfold Session.endPass at hb hc ⊢
    rw [heq] at hb hc ⊢
    unfold Machine.ShortTrailers at hP
    simp only [hst, hs] at hP; exact (Session.parse_stop_le hparse hb hc).2 hP
  | more hst hp hparse => exact absurd ((hv.more hparse).2.1.trans hp) hbusy
  | call hst hp hparse => exact absurd ((hv.request_call hparse).2.1.trans hp) hbusy
  | park hst hp hparse => exact absurd ((hv.request_park hparse).2.1.trans hp) hbusy
  | resume hd | donePass hi hn hp => exact absurd rfl hbusy
  | ret hp hr => exact absurd (hv.returned hr hp _).2.1 hbusy
  | ready hp =>
    obtain ⟨hs', hin⟩ := Session.startReady_awaits hp hw; rw [hin]; exact h hs'
  | @out _ i op hi =>
    obtain ⟨closed, heq⟩ := s.output_frame i op
    have hopen : s.closed = false := by
      have hcl := hw.closed
      simp only [Session.output, Session.log, output, flushUnlessProcessing, flushAndMaybeClose] at hcl
      split at hcl
      · split at hcl
        · exact hcl
        · simp only [Bool.or_eq_false_iff] at hcl; exact hcl.1.1
      · exact hcl
    obtain ⟨h₁, h₂, h₃, -⟩ := hw; rw [heq] at h₁ h₂ h₃ ⊢; exact h ⟨h₁, h₂, h₃, hopen⟩
  | doneInside hi hn hp => exact absurd hp hbusy
  | destroy => exact absurd hw.closing (by rintro ⟨⟩)

/-- **The buffer of a connection that waits for input is bounded**, in the runs in which no pass comes to a trailer line of more
than `kMaxHeadBytes` bytes that has not ended; and a pass that does come to one leaves the connection with more. -/
theorem buffer_bounded {ls : List Label} {m : Machine} (h : Run Machine.step Machine.ShortTrailers {} ls m) :
    (∀ id s, m.sessions id = some s → s.Awaits → s.inbuf.length ≤ kMaxHeadBytes) ∧
    ∀ s s' : Session, s.parse = .stop s' → s'.busy = false → s'.closing = false →
      (s'.inbuf.length ≤ kMaxHeadBytes ↔ ¬ s.LongTrailer) := by
  refine ⟨fun id s hs hw => ?_, fun s s' hp hb hc => Session.parse_stop_le hp hb hc⟩
  refine Machine.session_invariant (Q := fun s => s.Awaits → s.inbuf.length ≤ kMaxHeadBytes) (fun _ _ _ => Nat.zero_le _) ?_ h hs hw
  exact fun _ _ _ _ hP hs hv ha hQ hw => awaits_acts hP hs hv ha hQ hw

instance (m : Machine) (l : Label) : Decidable (m.ShortTrailers l) := by
  unfold Machine.ShortTrailers Session.LongTrailer Parser.LongTrailer
  cases l with
  | tau =>
    dsimp only
    split
    · split <;> infer_instance
    · infer_instance
  | _ => exact .isTrue trivial

/-- A trailer line that comes in two reads. -/
def trailerRun : List Label :=
  [.accept [.data (text "POST / HTTP/1.1\r\nTransfer-Encoding: chunked\r\n\r\n0\r\nX-A:") (by decide) (by decide)] [],
    .ready 0 { pollin := true }, .tau, .tau, .tau]

theorem buffer_bounded_trailer : ∃ m s, Run Machine.step Machine.ShortTrailers {} trailerRun m ∧ m.sessions 0 = some s ∧
    s.parser.state = .trailers ∧ s.Awaits ∧ s.inbuf.length ≤ kMaxHeadBytes := by
  have h : ((runs (fun (m : Machine) l => if decide (m.ShortTrailers l) then m.step l else none) {} trailerRun).bind (fun m =>
      (m.sessions 0).map (fun s => (s.parser.state, s.processing, s.busy, s.closing, s.closed)))) =
      some (.trailers, false, false, false, false) := by
    decide +kernel
  obtain ⟨m, hm, h⟩ := Option.bind_eq_some_iff.1 h
  obtain ⟨s, hs, h⟩ := Option.map_eq_some_iff.1 h
  simp only [Prod.mk.injEq] at h
  have hrun := (Run.of_guarded (fun (m : Machine) l => decide (m.ShortTrailers l)) hm).mono (fun _ _ => of_decide_eq_true)
  have hw : s.Awaits := ⟨h.2.1, h.2.2.1, h.2.2.2.1, h.2.2.2.2⟩
  exact ⟨m, s, hrun, hs, h.1, hw, (buffer_bounded hrun).1 0 s hs hw⟩

/-! ## A trailer line without an end -/

theorem iterate_more_append {p q : Parser} {b r out : Bytes} (h : p.iterate b = .more q r out) (y : Bytes) :
    p.iterate (b ++ y) = .more q (r ++ y) out := by
  have hset := Parser.settles_iterate p b
  rw [h] at hset
  obtain ⟨u, rfl, hgo⟩ := hset; rw [append_assoc]; exact hgo (r ++ y)

theorem find_crlf_replicate {c : UInt8} (hc : c ≠ cr) (n : Nat) : find crlf (List.replicate n c) = none := by
  induction n with
  | zero => rfl
  | succ n ih =>
    have hnot : ¬ crlf <+: c :: List.replicate n c := fun h => hc (cons_prefix_cons.1 h).1.symm
    rw [replicate_succ, find_cons_of_not hnot, ih]; rfl

/-- The parser in the trailer section of a chunked request. -/
def trailerParser : Parser where
  state := .trailers
  method := text "POST"
  target := text "/"
  version := text "HTTP/1.1"
  rawHead := text "Transfer-Encoding: chunked"
  chunked := true

def trailerHead : Bytes := text "POST / HTTP/1.1\r\nTransfer-Encoding: chunked\r\n\r\n0\r\n"

theorem trailer_kept (R : Responder) {line : Bytes} (hn : find crlf line = none) :
    ((Conn.accepted []).reads R [trailerHead ++ line]).Idle ∧ ((Conn.accepted []).reads R [trailerHead ++ line]).inbuf = line := by
  have h₁ : Parser.iterate {} trailerHead = .more { trailerParser with state := .chunkSize } (text "0\r\n") [] := by
    decide +kernel
  have h₂ : Parser.iterate { trailerParser with state := .chunkSize } (text "0\r\n") = .more trailerParser [] [] := by
    decide +kernel
  have h₃ : trailerParser.iterate line = .wait trailerParser line := by
    simp only [Parser.iterate, Parser.iterateTrailers, trailerParser, hn]
  have hfeed : (reader R.keeps).feed ({}, 0) (trailerHead ++ line) = ([], .waiting (trailerParser, 0) line) := by
    rw [feed_more (iterate_more_append h₁ line), feed_more (iterate_more_append h₂ line), nil_append]
    apply Consumer.feed_wait
    simp only [reader_round, readerRound, h₃]
  have hall : (reader R.keeps).feedAll ({}, 0) [] [trailerHead ++ line] = ([], .waiting (trailerParser, 0) line) := by
    unfold Consumer.feedAll; rw [nil_append, hfeed]; rfl
  obtain ⟨-, hshows⟩ := reads_feedAll R [trailerHead ++ line] (accepted []) (accepted_idle [])
  have hstart : ((accepted []).parser, (accepted []).calls.length) = (({}, 0) : Parser × Nat) := rfl
  rw [hstart, show (accepted []).inbuf = [] from rfl, hall] at hshows
  exact ⟨hshows.1, hshows.2.2.2⟩

theorem trailer_unbounded : ¬ ∀ (R : Responder) (xs : List Bytes), ((Conn.accepted []).reads R xs).Idle →
    ((Conn.accepted []).reads R xs).inbuf.length ≤ kMaxHeadBytes := by
  intro h
  have hn : find crlf (List.replicate (kMaxHeadBytes + 1) (120 : UInt8)) = none := find_crlf_replicate (by decide) _
  obtain ⟨hidle, hin⟩ := trailer_kept (fun _ _ => {}) hn
  have hle := h _ _ hidle; rw [hin, length_replicate] at hle; exact Nat.not_succ_le_self _ hle

end NodeCompat.Http
