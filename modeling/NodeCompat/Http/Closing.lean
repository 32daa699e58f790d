import NodeCompat.Http.Acts

/-!
# Closing

A connection that is closing, or whose peer has closed, and that has sent everything and awaits no response is closed by
`flushAndMaybeClose` at the latest when its pass ends: `Conn.Closes` holds in every state. It speaks of `busy_`,
though. `sendErrorAndClose` sets `busy_` to stop the parser, with no response to come that would take it back, so a
connection that has refused a request is not closed that way (`refused_stays_open`). Without a refusal `busy_` says
that a response is awaited, and finished connections are closed (`finished_closed`).
-/

namespace NodeCompat.Http

namespace Conn

/-- Outside its pass, a connection that is not busy, has sent everything and is to close is closed. -/
def Closes (c : Conn) : Prop :=
  c.processing = false → c.busy = false → c.out.drained = true → c.closing = true ∨ c.peerClosed = true → c.closed = true

variable {c : Conn}

theorem closes_flush (c : Conn) : c.flushAndMaybeClose.Closes := by
  intro _ hb hd hc
  have hb' : c.busy = false := hb
  have hd' : c.out.flush.2.drained = true := hd
  have hc' : (c.closing || c.peerClosed) = true := Bool.or_eq_true_iff.2 hc
  show (c.closed || !c.out.flush.1 || (c.out.flush.2.drained && !c.busy && (c.closing || c.peerClosed))) = true
  rw [hb', hd', hc']; simp

theorem closes_of_processing (h : c.processing = true) : c.Closes := fun hp => absurd (h.symm.trans hp) (by decide)

/-- Header bytes may be written outside a pass: they can only undo that everything is sent. -/
theorem Closes.output (h : c.Closes) (op : OutOp) : (c.output op).Closes := by
  unfold Conn.output
  split
  · unfold flushUnlessProcessing
    dsimp only
    split
    · next hp => exact closes_of_processing hp
    · exact closes_flush _
  · intro hp hbusy hd hc
    obtain ⟨h₁, h₂, -, -⟩ := c.out.apply_frame op
    refine h hp hbusy ?_ hc
    have hd' : (c.out.apply op).outbuf.length ≤ (c.out.apply op).outsent := of_decide_eq_true hd
    rw [h₁, h₂, List.length_append] at hd'; exact decide_eq_true (by omega)

theorem closes_startReady (c : Conn) (e : Revents) : (c.startReady e).1.Closes := by
  unfold startReady
  split
  · exact fun _ _ _ _ => rfl
  · split
    · rcases c.readAvailable with ⟨ok, d⟩
      dsimp only
      split
      · exact closes_of_processing rfl
      · split
        · exact fun _ _ _ _ => rfl
        · exact closes_of_processing rfl
    · exact closes_flush c

end Conn

namespace Machine

variable {m m' : Machine}

theorem closes_acts {id : Nat} {l : Label} {s s' : Session} (hv : s.Valid) (ha : Acts m id l s s') (h : s.Closes) :
    s'.Closes := by
  cases ha with
  | @stop _ s' rest hst hp hparse => exact Conn.closes_flush { s'.toConn with processing := false }
  | more hst hp hparse => exact Conn.closes_of_processing ((hv.more hparse).2.1.trans hp)
  | call hst hp hparse => exact Conn.closes_of_processing ((hv.request_call hparse).2.1.trans hp)
  | park hst hp hparse => exact Conn.closes_of_processing ((hv.request_park hparse).2.1.trans hp)
  | resume hd | donePass hi hn hp => exact Conn.closes_of_processing rfl
  | ret hp hr => exact Conn.closes_of_processing (hv.returned hr hp _).2.1
  | ready hp => exact s.toConn.closes_startReady _
  | out hi => exact h.output _
  | doneInside hi hn hp => exact Conn.closes_of_processing hp
  | destroy => exact fun _ _ _ _ => rfl

/-- The code of the top frame answers connection `id` with a parser-level error. -/
def refuses (m : Machine) (id : Nat) : Bool :=
  match m.stack, m.sessions id with
  | .pass j _ :: _, some s =>
    j == id && !s.busy && !s.closing &&
      match s.parser.iterate s.inbuf with
      | .reject _ _ => true
      | _ => false
  | _, _ => false

theorem refused_acts {id : Nat} {l : Label} {s s' : Session} (hr : m.refuses id = false) (hs : m.sessions id = some s)
    (ha : Acts m id l s s') (h : s.refused = none) : s'.refused = none := by
  cases ha with
  | @stop _ s' rest hst hp hparse =>
    obtain ⟨closed, heq⟩ := Session.flush_frame { s'.toConn with processing := false }
    unfold Session.endPass
    rw [heq]
    rcases Session.parse_stop hparse with ⟨rfl, -⟩ | ⟨hb, hc, ⟨p, b, -, rfl⟩ | ⟨status, reason, hi, -⟩⟩
    · exact h
    · exact h
    · simp [refuses, hst, hs, hb, hc, hi] at hr
  | more hst hp hparse => obtain ⟨-, -, p, b, out, -, rfl⟩ := Session.parse_more hparse; exact h
  | call hst hp hparse | park hst hp hparse => obtain ⟨-, -, p, b, out, -, rfl⟩ := Session.parse_request hparse; exact h
  | resume hd | doneInside hi hn hp | donePass hi hn hp | destroy => exact h
  | ret hp hrun => exact (s.returned_refused _).trans h
  | @ready _ e hp =>
    obtain ⟨out, closed, peerClosed, processing, d, recvs, heq, -, -⟩ := s.startReady_frame e; rw [heq]; exact h
  | @out _ i op hi =>
    obtain ⟨closed, heq⟩ := s.output_frame i op; rw [heq]; exact h

end Machine

/-- A session that has refused nothing is busy exactly while a request is dispatched or parked and not completed. -/
theorem Session.Valid.busy_of_refused {s : Session} (h : s.Valid) (hr : s.refused = none) (hb : s.busy = true) :
    s.completed < s.accepted := by
  unfold Session.accepted
  cases hd : s.deferred with
  | true =>
    have := (h.parked hd).2.1
    simp
    omega
  | false =>
    have := h.waiting hb hd hr
    simp
    omega

open Machine

/-- **A finished connection is closed, if it has refused nothing.** In every run that answers connection `id` with no
parser-level error, and in every state of it in which the connection is not inside its own pass: if it is to close or
its peer has closed, everything queued has been sent, and no request is dispatched or parked and not completed, it has
been passed to `EventLoop::close`. -/
theorem finished_closed {id : Nat} {ls : List Label} {m : Machine} {s : Session}
    (h : Run Machine.step (fun m _ => m.refuses id = false) {} ls m) (hs : m.sessions id = some s) (hp : s.processing = false)
    (hc : s.closing = true ∨ s.peerClosed = true) (hd : s.out.drained = true) (ho : s.accepted ≤ s.completed) :
    s.closed = true := by
  have hcl : s.Closes := session_invariant (fun _ _ => by rintro - - - (hc | hc) <;> cases hc)
    (fun _ _ _ _ _ _ hv ha hq => closes_acts hv ha hq) h hs
  have href : s.refused = none := session_invariant (fun _ _ => rfl)
    (fun _ _ _ _ hr hs _ ha hq => refused_acts hr hs ha hq) h hs
  have hv : s.Valid := (reachable h).1.valid id s hs
  refine hcl hp ?_ hd hc
  rw [Bool.eq_false_iff]
  intro hb; exact absurd (hv.busy_of_refused href hb) (Nat.not_lt.2 ho)

/-- One request, answered in its handler; then the peer half-closes. -/
def servedRun : List Label :=
  [.accept [.data (text "GET / HTTP/1.1\r\n\r\n") (by decide) (by decide), .eof] [.took 99],
    .ready 0 { pollin := true }, .tau, .out 0 0 (.body (text "reply")), .done 0 0 true, .ret false, .tau, .tau,
    .ready 0 { pollin := true }]

theorem finished_closed_served : ∃ m s, Run Machine.step (fun m _ => m.refuses 0 = false) {} servedRun m ∧
    m.sessions 0 = some s ∧ s.peerClosed = true ∧ s.out.sent = text "reply" ∧ s.closed = true := by
  have h : ((runs (fun (m : Machine) l => if !m.refuses 0 then m.step l else none) {} servedRun).bind (fun m =>
      (m.sessions 0).map (fun s => (s.processing, s.peerClosed, s.out.drained, s.out.sent, decide (s.accepted ≤ s.completed))))) =
      some (false, true, true, text "reply", true) := by
    decide +kernel
  simp only [Option.bind_eq_some_iff, Option.map_eq_some_iff, Prod.mk.injEq, decide_eq_true_eq] at h
  obtain ⟨m, hm, s, hs, h₁, h₂, h₃, h₄, h₅⟩ := h
  have hrun : Run step (fun m _ => m.refuses 0 = false) {} servedRun m :=
    (Run.of_guarded (fun m _ => !m.refuses 0) hm).mono (fun _ _ h => by simpa using h)
  exact ⟨m, s, hrun, hs, h₂, h₄, finished_closed hrun hs h₁ (.inr h₂) h₃ h₅⟩

/-- A malformed head: the error response is sent, nothing is awaited, and the connection stays open. -/
theorem refused_stays_open : ¬ ∀ (ls : List Label) (m : Machine) (id : Nat) (s : Session),
    Run Machine.step (fun _ _ => True) {} ls m → m.sessions id = some s → s.processing = false →
    s.closing = true ∨ s.peerClosed = true → s.out.drained = true → s.accepted ≤ s.completed → s.closed = true := by
  intro hall
  have h : ((runs step {} [.accept [.data (text "GARBAGE\r\n\r\n") (by decide) (by decide)] [.took 99],
      .ready 0 { pollin := true }, .tau]).bind (fun m => (m.sessions 0).map (fun s =>
        (s.processing, s.closing, s.out.drained, decide (s.accepted ≤ s.completed), s.closed)))) =
      some (false, true, true, true, false) := by
    decide +kernel
  simp only [Option.bind_eq_some_iff, Option.map_eq_some_iff, Prod.mk.injEq, decide_eq_true_eq] at h
  obtain ⟨m, hm, s, hs, h₁, h₂, h₃, h₄, h₅⟩ := h
  have := hall _ m 0 s (.of_runs hm) hs h₁ (.inl h₂) h₃ h₄; rw [h₅] at this; cases this

end NodeCompat.Http
