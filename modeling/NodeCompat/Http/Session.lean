import NodeCompat.Http.Moves

/-!
# The states of one connection

`Session.Valid` says how `busy_`, `closing_`, `deferred_` and the history of a connection go together: it is idle with
every request completed, or it waits for the one response that is not completed, or its next request is parked, or it
has refused its next request. `Session.Running` holds while the connection's handler is on the stack. Every operation of
the machine on a session keeps it valid.
-/

namespace NodeCompat.Http

open Conn Output

namespace Session

structure Valid (s : Session) : Prop where
  out_ok : s.out.Ok
  first : s.firstRequest = (s.calls.length == 0)
  idle : s.busy = false → s.deferred = false ∧ s.refused = none ∧ s.completed = s.calls.length
  waiting : s.busy = true → s.deferred = false → s.refused = none → s.completed + 1 = s.calls.length
  parked : s.deferred = true → s.refused = none ∧ s.completed = s.calls.length ∧ s.parser.state = .head
  stopped : s.refused ≠ none → s.closing = true ∧ s.completed = s.calls.length
  unfinished : ∀ i, i < s.calls.length → i ∉ s.finished →
    i + 1 = s.calls.length ∧ s.deferred = false ∧ s.refused = none ∧ (s.busy = true ∨ s.closing = true)

/-- The connection's handler is on the stack. -/
structure Running (s : Session) : Prop where
  deferred : s.deferred = false
  refused : s.refused = none
  head : s.parser.state = .head
  called : s.calls ≠ []

variable {s s' : Session}

/-! ## The operations, field by field -/

theorem flush_frame (c : Conn) : ∃ closed, c.flushUnlessProcessing =
    { c with out := if c.processing then c.out else c.out.flush.2, closed } := by
  unfold flushUnlessProcessing
  split <;> exact ⟨_, rfl⟩

theorem ok_flushed {o : Output} (h : o.Ok) (p : Bool) : (if p = true then o else o.flush.2).Ok := by
  split
  · exact h
  · exact ok_flush h

theorem sendErrorAndClose_frame (c : Conn) (status : Nat) (reason : Bytes) : ∃ closed,
    c.sendErrorAndClose status reason = { c with
        out := if c.processing then c.out.enqueue (errorResponse status reason)
          else (c.out.enqueue (errorResponse status reason)).flush.2
        closed
        busy := true
        closing := true
        refused := some status } := by
  obtain ⟨closed, h⟩ := flush_frame { c with out := c.out.enqueue (errorResponse status reason) }
  refine ⟨closed, ?_⟩
  rw [sendErrorAndClose, enqueueResponseBytes, h]

/-- The three ways an iteration ends the loop: the connection is busy or closing, it waits, or it refuses. -/
theorem parse_stop (hp : s.parse = .stop s') : (s' = s ∧ (s.busy || s.closing) = true) ∨
    (s.busy = false ∧ s.closing = false ∧
      ((∃ p b, s.parser.iterate s.inbuf = .wait p b ∧ s' = { s with parser := p, inbuf := b }) ∨
        ∃ status reason, s.parser.iterate s.inbuf = .reject status reason ∧
          s' = { s with toConn := s.toConn.sendErrorAndClose status reason }.log s.calls.length
            (errorResponse status reason))) := by
  unfold parse at hp
  split at hp
  · next hb =>
    cases hp; exact .inl ⟨rfl, hb⟩
  · next hb =>
    rw [Bool.or_eq_true, not_or, Bool.not_eq_true, Bool.not_eq_true] at hb
    refine .inr ⟨hb.1, hb.2, ?_⟩
    split at hp
    · next p b hi =>
      cases hp; exact .inl ⟨p, b, hi, rfl⟩
    · next status reason hi =>
      cases hp; exact .inr ⟨status, reason, hi, rfl⟩
    · cases hp
    · cases hp

theorem parse_more (hp : s.parse = .more s') : s.busy = false ∧ s.closing = false ∧ ∃ p b out,
    s.parser.iterate s.inbuf = .more p b out ∧
      s' = { s with parser := p, inbuf := b, out := s.out.append out }.log s.calls.length out := by
  unfold parse at hp
  split at hp
  · cases hp
  · next hb =>
    rw [Bool.or_eq_true, not_or, Bool.not_eq_true, Bool.not_eq_true] at hb
    refine ⟨hb.1, hb.2, ?_⟩
    split at hp
    · cases hp
    · cases hp
    · next p b out hi =>
      cases hp; exact ⟨p, b, out, hi, rfl⟩
    · cases hp

theorem parse_request (hp : s.parse = .request s') : s.busy = false ∧ s.closing = false ∧ ∃ p b out,
    s.parser.iterate s.inbuf = .dispatch p b out ∧
      s' = { s with parser := p, inbuf := b, out := s.out.append out, busy := true }.log s.calls.length out := by
  unfold parse at hp
  split at hp
  · cases hp
  · next hb =>
    rw [Bool.or_eq_true, not_or, Bool.not_eq_true, Bool.not_eq_true] at hb
    refine ⟨hb.1, hb.2, ?_⟩
    split at hp
    · cases hp
    · cases hp
    · cases hp
    · next p b out hi =>
      cases hp; exact ⟨p, b, out, hi, rfl⟩

theorem output_frame (s : Session) (i : Nat) (op : OutOp) : ∃ closed, s.output i op = ({ s with
      out := if s.processing || !op.isBody then s.out.apply op else (s.out.apply op).flush.2
      closed } : Session).log i (op.bytes s.out) := by
  unfold output Conn.output
  cases hb : op.isBody with
  | false =>
    refine ⟨s.closed, ?_⟩
    simp
  | true =>
    obtain ⟨closed, h⟩ := flush_frame { s.toConn with out := s.out.apply op }
    refine ⟨closed, ?_⟩
    simp only [if_true, h]; simp

theorem recover_frame (hp : s.processing = true) : s.recover = { s with
      out := (unsentHead s.out).enqueue internalError
      busy := false
      closing := true
      completed := s.calls.length
      enqueued := fun j => if j = s.calls.length - 1 then
        (s.enqueued (s.calls.length - 1)).take ((s.enqueued (s.calls.length - 1)).length -
          (s.out.outbuf.length - (unsentHead s.out).outbuf.length)) ++ internalError else s.enqueued j } := by
  unfold recover
  dsimp only
  rw [enqueueResponseBytes_processing (c := { s.toConn with out := unsentHead s.out }) hp]

theorem recover_calls (s : Session) :
    s.recover.calls = s.calls ∧ s.recover.deferred = s.deferred ∧ s.recover.refused = s.refused := by
  obtain ⟨closed, h⟩ := flush_frame { s.toConn with out := (unsentHead s.out).enqueue internalError }
  unfold recover enqueueResponseBytes
  dsimp only; rw [h]; exact ⟨rfl, rfl, rfl⟩

theorem returned_calls (s : Session) (throws : Bool) : (s.returned throws).calls = s.calls := by
  unfold returned
  dsimp only
  split
  · exact (recover_calls _).1
  · rfl

theorem returned_deferred (s : Session) (throws : Bool) : (s.returned throws).deferred = s.deferred := by
  unfold returned
  dsimp only
  split
  · exact (recover_calls _).2.1
  · rfl

theorem returned_refused (s : Session) (throws : Bool) : (s.returned throws).refused = s.refused := by
  unfold returned
  dsimp only
  split
  · exact (recover_calls _).2.2
  · rfl

theorem startReady_frame (s : Session) (e : Revents) :
    ∃ (out : Output) (closed peerClosed processing : Bool) (d : Bytes) (recvs : List RecvResult),
      (s.startReady e).1 = { s with out, closed, peerClosed, processing, recvs, inbuf := s.inbuf ++ d,
                                    received := s.received ++ d } ∧
        (out = s.out ∨ out = s.out.flush.2) ∧
        processing = ((s.startReady e).2 || s.processing) := by
  unfold startReady Conn.startReady Conn.readAvailable Conn.close
  split
  · exact ⟨s.out, true, s.peerClosed, s.processing, [], s.recvs, by simp, .inl rfl, rfl⟩
  · split
    · rcases recvLoop s.recvs with ⟨d, ok, rest⟩
      dsimp only
      split
      · exact ⟨s.out, s.closed, s.peerClosed, true, d, rest, rfl, .inl rfl, rfl⟩
      · split
        · exact ⟨s.out, true, true, s.processing, d, rest, rfl, .inl rfl, rfl⟩
        · exact ⟨s.out, s.closed, true, true, d, rest, rfl, .inl rfl, rfl⟩
    · refine ⟨s.out.flush.2, (s.toConn.flushAndMaybeClose).closed, s.peerClosed, s.processing, [], s.recvs, ?_, .inr rfl, rfl⟩
      simp [Conn.flushAndMaybeClose]

/-! ## Valid sessions -/

theorem valid_accept (recvs : List RecvResult) (sends : List SendResult) : (accept recvs sends).Valid where
  out_ok := Nat.le_refl 0
  first := rfl
  idle _ := ⟨rfl, rfl, rfl⟩
  waiting := by rintro ⟨⟩
  parked := by rintro ⟨⟩
  stopped h := absurd rfl h
  unfinished _ hi := absurd hi (Nat.not_lt_zero _)

namespace Valid

theorem all_finished (h : s.Valid) (hb : s.busy = false) (hc : s.closing = false) (i : Nat) (hi : i < s.calls.length) :
    i ∈ s.finished := by
  by_contra hn
  rcases (h.unfinished i hi hn).2.2.2 with h' | h'
  · rw [hb] at h'; cases h'
  · rw [hc] at h'; cases h'

theorem stop (h : s.Valid) (hp : s.parse = .stop s') :
    s'.Valid ∧ s'.processing = s.processing ∧ s'.deferred = s.deferred ∧ s'.calls = s.calls := by
  rcases parse_stop hp with ⟨rfl, -⟩ | ⟨hb, hc, ⟨p, b, -, rfl⟩ | ⟨status, reason, -, rfl⟩⟩
  · exact ⟨h, rfl, rfl, rfl⟩
  · exact ⟨⟨h.out_ok, h.first, h.idle, h.waiting, fun hd => absurd ((h.idle hb).1.symm.trans hd) (by decide), h.stopped,
      h.unfinished⟩, rfl, rfl, rfl⟩
  · obtain ⟨closed, heq⟩ := sendErrorAndClose_frame s.toConn status reason
    rw [heq]
    obtain ⟨hd, -, hcomp⟩ := h.idle hb
    refine ⟨⟨?_, h.first, by rintro ⟨⟩, ?_, ?_, fun _ => ⟨rfl, hcomp⟩, ?_⟩, rfl, rfl, rfl⟩
    · exact ok_flushed (ok_enqueue h.out_ok (errorResponse status reason)) s.processing
    · rintro - - ⟨⟩
    · intro hd'; exact absurd (hd.symm.trans hd') (by decide)
    · intro i hi hn; exact absurd (h.all_finished hb hc i hi) hn

theorem more (h : s.Valid) (hp : s.parse = .more s') :
    s'.Valid ∧ s'.processing = s.processing ∧ s'.deferred = s.deferred := by
  obtain ⟨hb, -, p, b, out, -, rfl⟩ := parse_more hp
  exact ⟨⟨ok_append h.out_ok out, h.first, h.idle, h.waiting,
    fun hd => absurd ((h.idle hb).1.symm.trans hd) (by decide), h.stopped, h.unfinished⟩, rfl, rfl⟩

theorem call (ho : s.out.Ok) (hb : s.busy = true) (hd : s.deferred = false) (hr : s.refused = none)
    (hc : s.completed = s.calls.length) (hall : ∀ i, i < s.calls.length → i ∈ s.finished) : s.call.Valid := by
  have hlen : s.call.calls.length = s.calls.length + 1 := by simp [Session.call, Conn.call]
  refine ⟨ho, ?_, ?_, ?_, ?_, fun h => absurd hr h, ?_⟩
  · rw [hlen]; simp [Session.call, Conn.call]
  · intro h; exact absurd (hb.symm.trans h) (by decide)
  · intro _ _ _; rw [hlen]; exact congrArg (· + 1) hc
  · intro h; exact absurd (hd.symm.trans h) (by decide)
  · intro i hi hn
    rw [hlen] at hi ⊢
    have : ¬ i < s.calls.length := fun h => hn (hall i h)
    exact ⟨by omega, hd, hr, .inl hb⟩

theorem request_call (h : s.Valid) (hp : s.parse = .request s') :
    s'.call.Valid ∧ s'.call.processing = s.processing ∧ s'.call.Running := by
  obtain ⟨hb, hc, p, b, out, hi, rfl⟩ := parse_request hp
  obtain ⟨hd, hr, hcomp⟩ := h.idle hb
  refine ⟨call (ok_append h.out_ok out) rfl hd hr hcomp (h.all_finished hb hc), rfl, hd, hr,
    Parser.iterate_dispatch_state hi, ?_⟩
  simp [Session.call, Conn.call]

theorem request_park (h : s.Valid) (hp : s.parse = .request s') :
    s'.park.Valid ∧ s'.park.processing = s.processing ∧ s.deferred = false ∧ s'.calls = s.calls := by
  obtain ⟨hb, hc, p, b, out, hi, rfl⟩ := parse_request hp
  obtain ⟨hd, hr, hcomp⟩ := h.idle hb
  refine ⟨⟨ok_append h.out_ok out, h.first, by rintro ⟨⟩, ?_,
    fun _ => ⟨hr, hcomp, Parser.iterate_dispatch_state hi⟩, fun h => absurd hr h, ?_⟩, rfl, hd, rfl⟩
  · rintro - ⟨⟩
  · intro i hi hn; exact absurd (h.all_finished hb hc i hi) hn

theorem resume_call (h : s.Valid) (hd : s.deferred = true) :
    s.resume.call.Valid ∧ s.resume.call.processing = true ∧ s.resume.call.Running := by
  obtain ⟨hr, hc, hh⟩ := h.parked hd
  refine ⟨call h.out_ok rfl rfl hr hc ?_, rfl, rfl, hr, hh, by simp [Session.call, Conn.call]⟩
  intro i hi
  by_contra hn
  exact absurd (hd.symm.trans (h.unfinished i hi hn).2.1) (by decide)

theorem endPass (h : s.Valid) (was : Bool) :
    (s.endPass was).Valid ∧ (s.endPass was).processing = was ∧ (s.endPass was).deferred = s.deferred := by
  obtain ⟨closed, heq⟩ := flush_frame { s.toConn with processing := was }
  unfold Session.endPass
  rw [heq]
  exact ⟨⟨ok_flushed h.out_ok was, h.first, h.idle, h.waiting, h.parked, h.stopped, h.unfinished⟩, rfl, rfl⟩

theorem ok_unsentHead {o : Output} (h : o.Ok) : (unsentHead o).Ok := by
  unfold unsentHead
  split
  · exact h
  · split
    · next hm =>
      simp only [Output.Ok, List.length_take] at h ⊢; omega
    · exact h

theorem returned (h : s.Valid) (hr : s.Running) (hp : s.processing = true) (throws : Bool) :
    (s.returned throws).Valid ∧ (s.returned throws).processing = true ∧ (s.returned throws).Running := by
  unfold Session.returned
  cases hb : s.busy with
  | false =>
    have hcond : (throws && (clearRequest s.toConn).busy) = false := by simp [clearRequest, hb]
    dsimp only
    rw [if_neg (by simp [hcond])]
    obtain ⟨hd, href, hcomp⟩ := h.idle hb
    refine ⟨⟨h.out_ok, h.first, fun _ => ⟨hd, href, hcomp⟩, ?_, h.parked, fun h => absurd href h, ?_⟩, hp, hr.deferred, hr.refused,
      hr.head, hr.called⟩
    · intro hb'; exact absurd (hb.symm.trans hb') (by decide)
    · intro i hi hn
      obtain ⟨h₁, h₂, h₃, h₄⟩ := h.unfinished i hi hn
      refine ⟨h₁, h₂, h₃, .inr ?_⟩
      rcases h₄ with h₄ | h₄
      · exact absurd (hb.symm.trans h₄) (by decide)
      · simp [clearRequest, h₄]
  | true =>
    cases throws with
    | false =>
      refine ⟨⟨h.out_ok, h.first, ?_, h.waiting, h.parked, fun h => absurd hr.refused h, ?_⟩, hp, hr.deferred,
        hr.refused, hr.head, hr.called⟩
      · intro hb'; exact absurd (hb.symm.trans hb') (by decide)
      · intro i hi hn
        obtain ⟨h₁, h₂, h₃, -⟩ := h.unfinished i hi hn; exact ⟨h₁, h₂, h₃, .inl hb⟩
    | true =>
      have hcond : (true && (clearRequest s.toConn).busy) = true := by simp [clearRequest, hb]
      dsimp only
      rw [if_pos hcond, recover_frame (s := { s with toConn := s.toConn.clearRequest }) hp]
      refine ⟨⟨ok_enqueue (ok_unsentHead h.out_ok) internalError, h.first,
        fun _ => ⟨hr.deferred, hr.refused, rfl⟩, by rintro ⟨⟩, fun hd => ?_, fun h => absurd hr.refused h, ?_⟩, hp, hr.deferred,
        hr.refused, hr.head, hr.called⟩
      · exact absurd (hr.deferred.symm.trans hd) (by decide)
      · intro i hi hn
        obtain ⟨h₁, h₂, h₃, -⟩ := h.unfinished i hi hn; exact ⟨h₁, h₂, h₃, .inr rfl⟩

theorem complete (h : s.Valid) {i : Nat} (hi : i < s.calls.length) (hn : i ∉ s.finished) (keepAlive : Bool) :
    (s.complete i keepAlive).Valid := by
  obtain ⟨h₁, h₂, h₃, h₄⟩ := h.unfinished i hi hn
  have hle : s.completed ≤ s.calls.length := by
    cases hb : s.busy with
    | false => exact (h.idle hb).2.2.le
    | true => have := h.waiting hb h₂ h₃; omega
  refine ⟨h.out_ok, h.first, fun _ => ⟨h₂, h₃, ?_⟩, by rintro ⟨⟩, fun hd => ?_, fun h => absurd h₃ h, ?_⟩
  · show max s.completed (i + 1) = s.calls.length; omega
  · exact absurd (h₂.symm.trans hd) (by decide)
  · intro j hj hjn
    have hne : j ≠ i := fun e => hjn (e ▸ List.mem_cons_self)
    have hjf : j ∉ s.finished := fun hm => hjn (List.mem_cons_of_mem _ hm)
    obtain ⟨g₁, -⟩ := h.unfinished j hj hjf; omega

theorem output (h : s.Valid) (i : Nat) (op : OutOp) : (s.output i op).Valid ∧
    (s.output i op).processing = s.processing ∧ (s.output i op).deferred = s.deferred ∧
    (s.Running → (s.output i op).Running) := by
  obtain ⟨closed, heq⟩ := s.output_frame i op
  rw [heq]
  refine ⟨⟨?_, h.first, h.idle, h.waiting, h.parked, h.stopped, h.unfinished⟩, rfl, rfl,
    fun hr => ⟨hr.deferred, hr.refused, hr.head, hr.called⟩⟩
  exact ok_flushed (ok_apply h.out_ok op) (s.processing || !op.isBody)

theorem hardDestroy (h : s.Valid) : s.hardDestroy.Valid := by
  refine ⟨h.out_ok, h.first, h.idle, h.waiting, h.parked, fun hr => ⟨rfl, (h.stopped hr).2⟩, ?_⟩
  intro i hi hn
  obtain ⟨h₁, h₂, h₃, -⟩ := h.unfinished i hi hn; exact ⟨h₁, h₂, h₃, .inr rfl⟩

theorem startReady (h : s.Valid) (e : Revents) : (s.startReady e).1.Valid ∧
    (s.startReady e).1.processing = ((s.startReady e).2 || s.processing) ∧ (s.startReady e).1.deferred = s.deferred := by
  obtain ⟨out, closed, peerClosed, processing, d, recvs, heq, hout, hproc⟩ := s.startReady_frame e
  rw [heq]
  refine ⟨⟨?_, h.first, h.idle, h.waiting, h.parked, h.stopped, h.unfinished⟩, hproc, rfl⟩
  rcases hout with rfl | rfl
  · exact h.out_ok
  · exact ok_flush h.out_ok

end Valid

end Session

end NodeCompat.Http
