import NodeCompat.Net.EventProtocol

/-!
# What the native calls leave alone

Sending, receiving and failing only add to the queues of a connection: nothing is taken out of them, and no one is told
(`Appends`). A readiness pass tells TypeScript by its callback, a call from TypeScript by a microtask, so events that nobody was
told of are there only as long as one of the two is under way.
-/

namespace NodeCompat.Net

open List Option

open ClientConnection

/-- `d` is `c` after a pass, a write or an end of the writes: what TypeScript has taken out is the same. -/
structure Works (c d : ClientConnection) : Prop where
  taken : d.taken = c.taken
  read : d.read = c.read
  notify : d.notify = c.notify
  paused : d.paused = c.paused
  events : c.events <+: d.events
  chunks : ∃ bs, d.chunks = c.chunks ++ bs ∧ d.received = c.received ++ bs.flatten
  sent : c.sent <+: d.sent
  finishes : c.finishEmitted = true → d.finishEmitted = true
  finished : d.finishEmitted = true → c.finishEmitted = true ∨ .finish ∈ d.events
  stays : c.closing = true → d.closing = true
  closing : d.closing = true → c.closing = true ∨ .error ∈ d.events ∨ d.finishEmitted = true
  closes : d.closing = true → c.closing = true ∨ .close ∈ d.events
  loopClosed : (c.loopClosed = true → c.closing = true) → d.loopClosed = true → d.closing = true

namespace Works

variable {c d : ClientConnection}

theorem refl (c : ClientConnection) : Works c c where
  taken := rfl
  read := rfl
  notify := rfl
  paused := rfl
  events := prefix_refl _
  chunks := ⟨[], by simp, by simp⟩
  sent := prefix_refl _
  finishes := id
  finished := .inl
  stays := id
  closing := .inl
  closes := .inl
  loopClosed h := h

theorem trans {e : ClientConnection} (h : Works c d) (h' : Works d e) : Works c e where
  taken := h'.taken.trans h.taken
  read := h'.read.trans h.read
  notify := h'.notify.trans h.notify
  paused := h'.paused.trans h.paused
  events := IsPrefix.trans h.events h'.events
  chunks := by
    obtain ⟨bs, hb, hr⟩ := h.chunks
    obtain ⟨bs', hb', hr'⟩ := h'.chunks
    exact ⟨bs ++ bs', by rw [hb', hb, append_assoc], by rw [hr', hr, flatten_append, append_assoc]⟩
  sent := IsPrefix.trans h.sent h'.sent
  finishes hf := h'.finishes (h.finishes hf)
  finished hf := by
    obtain hd | hm := h'.finished hf
    · exact (h.finished hd).imp id (fun hm => h'.events.subset hm)
    · exact .inr hm
  stays hc := h'.stays (h.stays hc)
  closing hc := by
    obtain hd | hm := h'.closing hc
    · obtain h₁ | h₂ | h₃ := h.closing hd
      · exact .inl h₁
      · exact .inr (.inl (h'.events.subset h₂))
      · exact .inr (.inr (h'.finishes h₃))
    · exact .inr hm
  closes hc := by
    obtain hd | hm := h'.closes hc
    · exact (h.closes hd).imp id (fun hm => h'.events.subset hm)
    · exact .inr hm
  loopClosed hc hl := h'.loopClosed (fun hl => h.loopClosed hc hl) hl

end Works

/-- `d` is `c` after some work of the native side alone. -/
structure Appends (c d : ClientConnection) : Prop where
  taken : d.taken = c.taken
  read : d.read = c.read
  written : d.written = c.written
  notify : d.notify = c.notify
  soon : d.soon = c.soon
  callbacks : d.callbacks = c.callbacks
  paused : d.paused = c.paused
  endRequested : d.endRequested = c.endRequested
  loopClosed : d.loopClosed = c.loopClosed
  events : c.events <+: d.events
  chunks : ∃ bs, d.chunks = c.chunks ++ bs ∧ d.received = c.received ++ bs.flatten
  sent : c.sent <+: d.sent
  finishes : c.finishEmitted = true → d.finishEmitted = true
  finished : d.finishEmitted = true → c.finishEmitted = true ∨ .finish ∈ d.events
  stays : c.closing = true → d.closing = true
  closing : d.closing = true → c.closing = true ∨ .error ∈ d.events ∨ d.finishEmitted = true
  closes : d.closing = true → c.closing = true ∨ .close ∈ d.events

namespace Appends

variable {c d e : ClientConnection}

theorem refl (c : ClientConnection) : Appends c c :=
  ⟨rfl, rfl, rfl, rfl, rfl, rfl, rfl, rfl, rfl, prefix_refl _, ⟨[], by simp, by simp⟩, prefix_refl _, id, .inl, id, .inl, .inl⟩

theorem works (h : Appends c d) : Works c d :=
  ⟨h.taken, h.read, h.notify, h.paused, h.events, h.chunks, h.sent, h.finishes, h.finished, h.stays, h.closing, h.closes,
    fun hc hl => h.stays (hc (h.loopClosed.symm.trans hl))⟩

theorem trans (h : Appends c d) (h' : Appends d e) : Appends c e :=
  have hw := h.works.trans h'.works
  { hw with
    written := h'.written.trans h.written
    soon := h'.soon.trans h.soon
    callbacks := h'.callbacks.trans h.callbacks
    endRequested := h'.endRequested.trans h.endRequested
    loopClosed := h'.loopClosed.trans h.loopClosed }

theorem silent (c : ClientConnection) (connecting connected peerEnded : Bool) :
    Appends c { c with connecting, connected, peerEnded } :=
  ⟨rfl, rfl, rfl, rfl, rfl, rfl, rfl, rfl, rfl, prefix_refl _, ⟨[], by simp, by simp⟩, prefix_refl _, id, .inl, id, .inl, .inl⟩

theorem push (c : ClientConnection) (e : ClientEvent) : Appends c (c.push e) :=
  ⟨rfl, rfl, rfl, rfl, rfl, rfl, rfl, rfl, rfl, prefix_append _ _, ⟨[], by simp [ClientConnection.push], by simp [ClientConnection.push]⟩,
    prefix_refl _, id, .inl, id, .inl, .inl⟩

theorem fail (c : ClientConnection) (error : Nat) (syscall : Syscall) : Appends c (c.fail error syscall) := by
  unfold ClientConnection.fail
  split
  · exact refl c
  · have h := (push c .error).trans (push (c.push .error) .close)
    exact ⟨rfl, rfl, rfl, rfl, rfl, rfl, rfl, rfl, rfl, h.events, h.chunks, h.sent, id, .inl, fun _ => rfl,
      fun _ => .inr (.inl (by simp [ClientConnection.push])), fun _ => .inr (by simp [ClientConnection.push])⟩

theorem finishWriteSideIfReady (c : ClientConnection) : Appends c c.finishWriteSideIfReady := by
  unfold ClientConnection.finishWriteSideIfReady
  split
  · exact refl c
  have h := push c .finish
  have hfinish : Appends c (({ c with finishEmitted := true }).push .finish) :=
    ⟨rfl, rfl, rfl, rfl, rfl, rfl, rfl, rfl, rfl, h.events, h.chunks, h.sent, fun _ => rfl,
      fun _ => .inr (by simp [ClientConnection.push]), id, .inl, .inl⟩
  dsimp only
  split
  · have hclose := hfinish.trans (push _ .close)
    exact ⟨rfl, rfl, rfl, rfl, rfl, rfl, rfl, rfl, rfl, hclose.events, hclose.chunks, hclose.sent, fun _ => rfl,
      hclose.finished, fun _ => rfl, fun _ => .inr (.inr rfl), fun _ => .inr (by simp [ClientConnection.push])⟩
  · exact hfinish

theorem completeConnect (c : ClientConnection) (error : Nat) : Appends c (c.completeConnect error) := by
  unfold ClientConnection.completeConnect
  generalize (if c.initialError = 0 then error else c.initialError) = error
  dsimp only
  split
  · exact (silent c false c.connected c.peerEnded).trans (fail _ _ _)
  · exact ((silent c false true c.peerEnded).trans (push _ .connect)).trans (finishWriteSideIfReady _)

theorem flushed (c : ClientConnection) : Appends c c.flushed := by
  have hdrain : Appends c (if c.outBuffer.isEmpty then c else c.push .drain) := by
    split
    · exact refl c
    · exact push c .drain
  refine Appends.trans ?_ (finishWriteSideIfReady _)
  exact ⟨hdrain.1, hdrain.2, hdrain.3, hdrain.4, hdrain.5, hdrain.6, hdrain.7, hdrain.8, hdrain.9, hdrain.10, hdrain.11, hdrain.12,
    hdrain.13, hdrain.14, hdrain.15, hdrain.16, hdrain.17⟩

theorem accept (c : ClientConnection) (n : Nat) : Appends c (c.accept n) :=
  ⟨rfl, rfl, rfl, rfl, rfl, rfl, rfl, rfl, rfl, prefix_refl _, ⟨[], by simp [ClientConnection.accept], by simp [ClientConnection.accept]⟩,
    prefix_append _ _, id, .inl, id, .inl, .inl⟩

theorem flushWrites {sends : List SendResult} {r : ClientConnection × Bool} : c.flushWrites sends = some r → Appends c r.1 :=
  ClientConnection.flushWrites_rule (Appends c) (Appends c) id (fun _ h => h.trans (fail _ _ _)) (fun h _ => h.trans (flushed _))
    (fun h _ => h.trans (accept _ _)) (refl c)

theorem closeFromPeer (c : ClientConnection) : Appends c c.closeFromPeer := by
  unfold ClientConnection.closeFromPeer
  split
  · exact refl c
  have hended := (silent c c.connecting c.connected true).trans (push _ .ended)
  dsimp only
  split
  · next hf =>
    have hclose := hended.trans (push _ .close)
    exact ⟨rfl, rfl, rfl, rfl, rfl, rfl, rfl, rfl, rfl, hclose.events, hclose.chunks, hclose.sent, id, .inl,
      fun _ => rfl, fun _ => .inr (.inr hf), fun _ => .inr (by simp [ClientConnection.push])⟩
  · exact hended

theorem receive (c : ClientConnection) (b : Bytes) : Appends c (c.receive b) :=
  ⟨rfl, rfl, rfl, rfl, rfl, rfl, rfl, rfl, rfl, prefix_append _ _,
    ⟨[b], by simp [ClientConnection.receive, ClientConnection.push], by simp [ClientConnection.receive, ClientConnection.push]⟩,
    prefix_refl _, id, .inl, id, .inl, .inl⟩

theorem readAvailable {recvs : List RecvResult} : c.readAvailable recvs = some d → Appends c d :=
  ClientConnection.readAvailable_rule (Appends c) (Appends c) id (fun _ h => h.trans (fail _ _ _))
    (fun h => h.trans (closeFromPeer _)) (fun b h => h.trans (receive _ b)) (refl c)

theorem hangUp (c : ClientConnection) (r : Revents) (a : Answers) : Appends c (c.hangUp r a) := by
  unfold ClientConnection.hangUp
  split
  · exact fail _ _ _
  · split
    · exact closeFromPeer c
    · exact refl c

end Appends

/-! ## Telling TypeScript -/

namespace ClientConnection

/-- What a poll may report: what it was asked for, though the socket may have been paused or its buffer sent since. -/
def reports (c : ClientConnection) (r : Revents) : Bool := !r.pollIn || (!c.connecting && !c.peerEnded)

variable {c d : ClientConnection}

theorem onReady_sound {accepted : Bool} (h : Sound accepted c) {r : Revents} {a : Answers} (hr : c.reports r = true)
    (hc : c.onReady r a = some d) : Sound accepted d := by
  refine h.onReady_of_open (fun hp => ?_) hc
  simp only [reports, hp, Bool.not_true, Bool.false_or, Bool.and_eq_true, Bool.not_eq_true'] at hr
  exact hr.2

theorem sendReady_appends {r : Revents} {sends : List SendResult} (h : c.sendReady r sends = some d) : Appends c d := by
  unfold sendReady at h
  split at h
  · obtain ⟨q, hq, rfl⟩ := map_eq_some_iff.1 h; exact Appends.flushWrites hq
  · cases h; exact Appends.refl _

theorem recvReady_appends {r : Revents} {recvs : List RecvResult} (h : c.recvReady r recvs = some d) : Appends c d := by
  unfold recvReady at h
  split at h
  · exact Appends.readAvailable h
  · cases h; exact Appends.refl _

theorem onReady_appends {r : Revents} {a : Answers} (h : c.onReady r a = some d) :
    d = c ∧ c.closing = true ∨ ∃ e, Appends c e ∧ d = e.deliver := by
  unfold onReady at h
  split at h
  · next hc =>
    cases h; exact .inl ⟨rfl, hc⟩
  right
  obtain ⟨e, he, h⟩ := bind_eq_some_iff.1 h
  obtain ⟨f, hf, rfl⟩ := map_eq_some_iff.1 h
  have hconnect : Appends c (if c.connecting then c.completeConnect a.connectError else c) := by
    split
    · exact Appends.completeConnect c _
    · exact Appends.refl c
  exact ⟨f.hangUp r a, ((hconnect.trans (sendReady_appends he)).trans (recvReady_appends hf)).trans (Appends.hangUp f r a), rfl⟩

theorem deliver_cases (hn : c.notify = true) : c.events ≠ [] ∧ c.deliver = { c with callbacks := c.callbacks + 1 } ∨
      c.events = [] ∧ (c.deliver = c ∨ c.closing = true ∧ c.deliver = c.loopClose) := by
  unfold deliver
  cases he : c.events with
  | nil =>
    right
    refine ⟨rfl, ?_⟩
    simp only [isEmpty_nil, Bool.not_true, Bool.false_and, Bool.false_eq_true, if_false]
    split
    · next hc => exact .inr ⟨hc, rfl⟩
    · exact .inl rfl
  | cons e es => left; simp [hn]

theorem write_cases {data : Bytes} {sends : List SendResult} (hn : c.notify = true) (h : c.write data sends = some d) :
    d = c ∧ (c.closing || c.endRequested) = true ∨ (c.closing || c.endRequested) = false ∧
      ∃ e, Appends { c with outBuffer := c.outBuffer ++ data, written := c.written ++ data } e ∧
        (d = e ∧ (e.events = [] ∨ e.events = c.events) ∨
          d = { e with soon := e.soon + 1 } ∨ e.closing = true ∧ d = { e with soon := e.soon + 1, loopClosed := true }) := by
  unfold write at h
  split at h
  · next hg =>
    cases h; exact .inl ⟨rfl, hg⟩
  next hg =>
  simp only [Bool.not_eq_true] at hg
  refine .inr ⟨hg, ?_⟩
  dsimp only at h
  split at h
  · obtain ⟨⟨e, ok⟩, he, rfl⟩ := map_eq_some_iff.1 h
    have ha : Appends _ e := Appends.flushWrites he
    have hne : e.notify = true := ha.notify.trans hn
    refine ⟨e, ha, ?_⟩
    dsimp only [notifySoon]
    rw [hne]
    split
    · split
      · next hc => exact .inr (.inr ⟨hc, rfl⟩)
      · exact .inr (.inl rfl)
    · split
      · exact .inr (.inl rfl)
      · next hev => exact .inl ⟨rfl, .inl (by simpa using hev)⟩
  · cases h; exact ⟨_, Appends.refl _, .inl ⟨rfl, .inr rfl⟩⟩

theorem endWrites_cases (hn : c.notify = true) : c.endWrites = c ∨ ∃ e, Appends { c with endRequested := true } e ∧
      (c.endWrites = e ∧ e.events = [] ∨ c.endWrites = { e with soon := e.soon + 1 }) := by
  unfold endWrites
  split
  · exact .inl rfl
  right
  have ha : Appends { c with endRequested := true } _ := Appends.finishWriteSideIfReady { c with endRequested := true }
  refine ⟨_, ha, ?_⟩
  dsimp only
  split
  · right
    unfold notifySoon; rw [if_pos (ha.notify.trans hn)]
  · next hev => exact .inl ⟨rfl, by simpa using hev⟩

theorem setNotify_cases (c : ClientConnection) : ∃ n, c.setNotify = { c with notify := true, soon := n } ∧ (c.events ≠ [] → 0 < n) := by
  unfold setNotify notifySoon
  dsimp only
  split
  · exact ⟨c.soon + 1, rfl, fun _ => Nat.succ_pos _⟩
  · next hnil => exact ⟨c.soon, rfl, fun hne => absurd (by simpa using hnil) hne⟩

end ClientConnection

/-! ## Calls and passes alike -/

/-- Events that wait were there, or a microtask tells of them. -/
def Told (c d : ClientConnection) : Prop := d.events ≠ [] → d.events = c.events ∧ c.soon ≤ d.soon ∨ 0 < d.soon

namespace Works

variable {c d : ClientConnection}

theorem of_appends {e : ClientConnection} {outBuffer written : Bytes} {endRequested loopClosed : Bool} {soon callbacks : Nat}
    (h : Appends { c with outBuffer, written, endRequested } e) (hl : loopClosed = e.loopClosed ∨ e.closing = true) :
    Works c { e with loopClosed, soon, callbacks } :=
  ⟨h.taken, h.read, h.notify, h.paused, h.events, h.chunks, h.sent, h.finishes, h.finished, h.stays, h.closing, h.closes,
    fun hc hcl => hl.elim (fun hl => h.stays (hc (h.loopClosed.symm.trans (hl.symm.trans hcl)))) id⟩

theorem onReady {r : Revents} {a : Answers} (h : c.onReady r a = some d) : Works c d := by
  obtain ⟨rfl, -⟩ | ⟨e, he, rfl⟩ := onReady_appends h
  · exact refl d
  unfold deliver
  split
  · exact of_appends he (.inl rfl)
  · split
    · next hc => exact of_appends he (.inr hc)
    · exact of_appends he (.inl rfl)

theorem write {data : Bytes} {sends : List SendResult} (hn : c.notify = true) (h : c.write data sends = some d) : Works c d := by
  obtain ⟨rfl, -⟩ | ⟨-, e, he, hcases⟩ := write_cases hn h
  · exact refl d
  obtain ⟨rfl, -⟩ | rfl | ⟨hc, rfl⟩ := hcases
  · exact of_appends he (.inl rfl)
  · exact of_appends he (.inl rfl)
  · exact of_appends he (.inr hc)

theorem setNotify (hn : c.notify = true) : Works c c.setNotify := by
  have hset : Works c { c with notify := true } :=
    ⟨rfl, rfl, hn.symm, rfl, prefix_refl _, ⟨[], by simp, by simp⟩, prefix_refl _, id, .inl, id, .inl, .inl, id⟩
  unfold ClientConnection.setNotify ClientConnection.notifySoon
  dsimp only
  split
  · exact ⟨rfl, rfl, hn.symm, rfl, hset.events, hset.chunks, hset.sent, id, .inl, id, .inl, .inl, id⟩
  · exact hset

theorem endWrites (hn : c.notify = true) : Works c c.endWrites := by
  obtain heq | ⟨e, he, hcases⟩ := endWrites_cases hn
  · rw [heq]; exact refl c
  obtain ⟨heq, -⟩ | heq := hcases <;> (rw [heq]; exact of_appends he (.inl rfl))

end Works

theorem Told.trans {c d e : ClientConnection} (h : Told c d) (h' : Told d e) : Told c e := by
  intro hne
  obtain ⟨he', hs'⟩ | hs' := h' hne
  · obtain ⟨he, hs⟩ | hs := h (fun hnil => hne (he'.trans hnil))
    · exact .inl ⟨he'.trans he, Nat.le_trans hs hs'⟩
    · exact .inr (Nat.lt_of_lt_of_le hs hs')
  · exact .inr hs'

theorem told_write {c d : ClientConnection} {data : Bytes} {sends : List SendResult} (hn : c.notify = true)
    (h : c.write data sends = some d) : Told c d := by
  intro hne
  obtain ⟨rfl, -⟩ | ⟨-, e, he, hcases⟩ := write_cases hn h
  · exact .inl ⟨rfl, Nat.le_refl _⟩
  obtain ⟨rfl, hev⟩ | rfl | ⟨-, rfl⟩ := hcases
  · exact .inl ⟨hev.resolve_left hne, Nat.le_of_eq he.soon.symm⟩
  · exact .inr (Nat.succ_pos _)
  · exact .inr (Nat.succ_pos _)

theorem told_endWrites {c : ClientConnection} (hn : c.notify = true) : Told c c.endWrites := by
  intro hne
  obtain heq | ⟨e, he, ⟨heq, hev⟩ | heq⟩ := endWrites_cases hn
  · exact .inl (by rw [heq]; exact ⟨rfl, Nat.le_refl _⟩)
  · exact absurd (heq ▸ hev) hne
  · exact .inr (by rw [heq]; exact Nat.succ_pos _)

/-! ## What is read -/

/-- Nothing was read. -/
structure KeepsInput (c d : ClientConnection) : Prop where
  chunks : d.chunks = c.chunks
  received : d.received = c.received
  peerEnded : d.peerEnded = c.peerEnded

namespace KeepsInput

variable {c d e : ClientConnection}

theorem refl (c : ClientConnection) : KeepsInput c c := ⟨rfl, rfl, rfl⟩

theorem trans (h : KeepsInput c d) (h' : KeepsInput d e) : KeepsInput c e :=
  ⟨h'.chunks.trans h.chunks, h'.received.trans h.received, h'.peerEnded.trans h.peerEnded⟩

theorem after (h : KeepsInput d e) (hc : d.chunks = c.chunks) (hr : d.received = c.received) (hp : d.peerEnded = c.peerEnded) :
    KeepsInput c e := trans ⟨hc, hr, hp⟩ h

theorem fail (c : ClientConnection) (error : Nat) (syscall : Syscall) : KeepsInput c (c.fail error syscall) := by
  unfold ClientConnection.fail
  split <;> exact ⟨rfl, rfl, rfl⟩

theorem finishWriteSideIfReady (c : ClientConnection) : KeepsInput c c.finishWriteSideIfReady := by
  unfold ClientConnection.finishWriteSideIfReady
  split
  · exact refl c
  · dsimp only
    split <;> exact ⟨rfl, rfl, rfl⟩

theorem completeConnect (c : ClientConnection) (error : Nat) : KeepsInput c (c.completeConnect error) := by
  unfold ClientConnection.completeConnect
  generalize (if c.initialError = 0 then error else c.initialError) = error
  dsimp only
  split
  · exact (fail _ _ _).after rfl rfl rfl
  · exact (finishWriteSideIfReady _).after rfl rfl rfl

theorem flushed (c : ClientConnection) : KeepsInput c c.flushed := by
  refine trans ?_ (finishWriteSideIfReady _)
  split <;> exact ⟨rfl, rfl, rfl⟩

theorem flushWrites {sends : List SendResult} {r : ClientConnection × Bool} : c.flushWrites sends = some r → KeepsInput c r.1 :=
  ClientConnection.flushWrites_rule (KeepsInput c) (KeepsInput c) id (fun _ h => h.trans (fail _ _ _))
    (fun h _ => h.trans (flushed _)) (fun h _ => h.trans ⟨rfl, rfl, rfl⟩) (refl c)

theorem write {data : Bytes} {sends : List SendResult} (h : c.write data sends = some d) : KeepsInput c d := by
  unfold ClientConnection.write at h
  split at h
  · cases h; exact refl c
  dsimp only at h
  split at h
  · obtain ⟨⟨e, ok⟩, he, rfl⟩ := map_eq_some_iff.1 h
    have hkeep : KeepsInput c e := (flushWrites he).after rfl rfl rfl
    unfold notifySoon
    dsimp only
    split
    · split <;> split <;> exact trans hkeep ⟨rfl, rfl, rfl⟩
    · split
      · split <;> exact trans hkeep ⟨rfl, rfl, rfl⟩
      · exact hkeep
  · cases h; exact ⟨rfl, rfl, rfl⟩

theorem endWrites (c : ClientConnection) : KeepsInput c c.endWrites := by
  unfold ClientConnection.endWrites
  split
  · exact refl c
  have hkeep : KeepsInput c ({ c with endRequested := true }).finishWriteSideIfReady :=
    (finishWriteSideIfReady { c with endRequested := true }).after rfl rfl rfl
  unfold notifySoon
  dsimp only
  split
  · split <;> exact trans hkeep ⟨rfl, rfl, rfl⟩
  · exact hkeep

theorem sendReady {r : Revents} {sends : List SendResult} (h : c.sendReady r sends = some d) : KeepsInput c d := by
  unfold ClientConnection.sendReady at h
  split at h
  · obtain ⟨q, hq, rfl⟩ := map_eq_some_iff.1 h; exact flushWrites hq
  · cases h; exact refl c

theorem deliver (c : ClientConnection) : KeepsInput c c.deliver := by
  unfold ClientConnection.deliver
  split
  · exact ⟨rfl, rfl, rfl⟩
  · split
    · exact ⟨rfl, rfl, rfl⟩
    · exact refl c

end KeepsInput

theorem hangUp_input (c : ClientConnection) (r : Revents) (a : Answers) : (c.hangUp r a).received = c.received ∧
    ((c.hangUp r a).peerEnded = true → c.peerEnded = true ∨
      c.closing = false ∧ r.pollHup = true ∧ r.pollErr = false ∧ r.pollNval = false) := by
  unfold ClientConnection.hangUp
  split
  · have hfail := KeepsInput.fail c (if a.socketError = 0 then eio else a.socketError) .read
    exact ⟨hfail.received, fun hp => .inl (hfail.peerEnded.symm.trans hp)⟩
  next herr =>
  split
  · next hhup =>
    simp only [Bool.and_eq_true, Bool.not_eq_true', Bool.or_eq_true, not_and, not_or, Bool.not_eq_true] at herr hhup
    refine ⟨?_, fun _ => .inr ⟨hhup.1, hhup.2, herr hhup.1⟩⟩
    unfold ClientConnection.closeFromPeer
    split
    · rfl
    · dsimp only
      split <;> rfl
  · exact ⟨rfl, .inl⟩

end NodeCompat.Net
