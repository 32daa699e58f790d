import NodeCompat.Http.RoundTrip

/-!
# End of input

`HttpConnection::onReady` on one connection, with a responder that completes synchronously, and runs of it. A result of
`recv` shorter than the buffer ends a pass, so the results themselves say how they fall into passes: `again` behind a
full buffer is where a pass ends early.

* `drops`: a pass that gets bytes and the end of input at once, on a connection with nothing left to send. `onReady`
  closes it on its early path, before `processInput` sees the bytes.
* A run serves every request that was sent before the end of input exactly when no pass of it is such a pass
  (`served_iff_not_drops`).
-/

namespace NodeCompat.Http

open List Bool Http.Parser Output

namespace Conn

/-- `processInput` as a pass of its own, then the flush. -/
def pass (R : Responder) (c : Conn) : Conn :=
  { ({ c with processing := true } : Conn).processInput R with processing := false }.flushAndMaybeClose

def onReady (R : Responder) (c : Conn) (e : Revents) : Conn :=
  let (c, go) := c.startReady e
  if go then c.pass R else c

/-- The loop calls `onReady` until the connection has been closed. -/
def onReadys (R : Responder) : Conn → List Revents → Conn
  | c, [] => c
  | c, e :: es => if c.closed then c else onReadys R (c.onReady R e) es

/-- A pass that gets bytes and the end of input at once, with nothing left to send. -/
def drops (c : Conn) (e : Revents) : Bool :=
  e.readable && !(recvLoop c.recvs).2.1 && !(recvLoop c.recvs).1.isEmpty && !c.busy && c.out.drained

/-- The connection after its reads. -/
def got (c : Conn) (peerClosed : Bool) : Conn := { c with
    inbuf := c.inbuf ++ (recvLoop c.recvs).1
    received := c.received ++ (recvLoop c.recvs).1
    recvs := (recvLoop c.recvs).2.2
    peerClosed }

/-- What `onReady` does on an event without an error: it flushes, or it reads and parses, or it reads the end of input
and closes early, or it reads the end of input and still parses. -/
theorem onReady_cases (R : Responder) (c : Conn) {e : Revents} (he : e.broken = false) :
    (e.readable = false ∧ c.onReady R e = c.flushAndMaybeClose) ∨
    (e.readable = true ∧ (recvLoop c.recvs).2.1 = true ∧ c.onReady R e = (c.got c.peerClosed).pass R) ∨
    (e.readable = true ∧ (recvLoop c.recvs).2.1 = false ∧ (!c.busy && c.out.drained) = true ∧
      c.onReady R e = (c.got true).close) ∨
    (e.readable = true ∧ (recvLoop c.recvs).2.1 = false ∧ (!c.busy && c.out.drained) = false ∧
      c.onReady R e = (c.got true).pass R) := by
  unfold onReady startReady readAvailable got
  rcases recvLoop c.recvs with ⟨d, ok, rest⟩
  cases hr : e.readable <;> cases ok <;> cases hq : (!c.busy && c.out.drained) <;> simp [he, hq, pass]

/-- Whether a run has such a pass. -/
def dropsIn (R : Responder) : Conn → List Revents → Bool
  | _, [] => false
  | c, e :: es => !c.closed && (c.drops e || dropsIn R (c.onReady R e) es)

end Conn

/-! ## What `recv` brings -/

/-- The bytes of the results. -/
def recvBytes : List RecvResult → Bytes
  | [] => []
  | .data d _ _ :: rest => d ++ recvBytes rest
  | _ :: rest => recvBytes rest

/-- Bytes, then the end of input; no errors. -/
def HalfCloses : List RecvResult → Prop
  | [] => True
  | .data _ _ _ :: rest => HalfCloses rest
  | .again :: rest => HalfCloses rest
  | .eof :: rest => ∀ x ∈ rest, x = .eof
  | .error :: _ => False

theorem recvBytes_eofs : ∀ {rs : List RecvResult}, (∀ x ∈ rs, x = .eof) → recvBytes rs = []
  | [], _ => rfl
  | x :: xs, h => by
    rw [h x mem_cons_self, recvBytes]
    · exact recvBytes_eofs (fun y hy => h y (mem_cons_of_mem _ hy))
    · rintro d h₁ h₂ ⟨⟩

theorem halfCloses_eofs : ∀ {rs : List RecvResult}, (∀ x ∈ rs, x = .eof) → HalfCloses rs
  | [], _ => trivial
  | x :: xs, h => by rw [h x mem_cons_self]; exact fun y hy => h y (mem_cons_of_mem _ hy)

/-- One call of `readAvailable`: it takes its bytes from the front, and behind the end of input there are none. -/
theorem recvLoop_spec : ∀ {rs : List RecvResult}, HalfCloses rs →
    recvBytes rs = (recvLoop rs).1 ++ recvBytes (recvLoop rs).2.2 ∧ HalfCloses (recvLoop rs).2.2 ∧
      ((recvLoop rs).2.1 = false → ∀ x ∈ (recvLoop rs).2.2, x = .eof)
  | [], _ => ⟨rfl, trivial, by simp [recvLoop]⟩
  | .data d h₁ h₂ :: rest, h => by
    simp only [recvLoop, recvBytes]
    split
    · exact ⟨rfl, h, by simp⟩
    · obtain ⟨ih₁, ih₂, ih₃⟩ := recvLoop_spec (show HalfCloses rest from h); exact ⟨by rw [append_assoc, ← ih₁], ih₂, ih₃⟩
  | .again :: rest, h => ⟨rfl, h, by simp [recvLoop]⟩
  | .eof :: rest, h => ⟨rfl, halfCloses_eofs h, fun _ => h⟩
  | .error :: rest, h => h.elim

theorem recvLoop_mem : ∀ {rs : List RecvResult} {x : RecvResult}, x ∈ (recvLoop rs).2.2 → x ∈ rs
  | [], x, h => h
  | .data d h₁ h₂ :: rest, x, h => by
    simp only [recvLoop] at h
    split at h
    · exact mem_cons_of_mem _ h
    · exact mem_cons_of_mem _ (recvLoop_mem h)
  | .again :: _, _, h => mem_cons_of_mem _ h
  | .eof :: _, _, h => mem_cons_of_mem _ h
  | .error :: _, _, h => mem_cons_of_mem _ h

/-- A call of `readAvailable` uses up results, and stops before the end of input or right behind it. -/
theorem recvLoop_progress : ∀ (rs : List RecvResult), rs ≠ [] → (recvLoop rs).2.2.length < rs.length ∧
    ((recvLoop rs).2.1 = true → .eof ∈ rs → .eof ∈ (recvLoop rs).2.2)
  | [], h => absurd rfl h
  | .data d h₁ h₂ :: rest, _ => by
    simp only [recvLoop]
    split
    · exact ⟨by simp, fun _ h => by simpa using h⟩
    · by_cases hr : rest = []
      · subst hr; simp [recvLoop]
      · obtain ⟨ih₁, ih₂⟩ := recvLoop_progress rest hr
        refine ⟨by simp only [length_cons]; omega, fun ht h => ih₂ ht (by simpa using h)⟩
  | .again :: rest, _ => ⟨by simp [recvLoop], fun _ h => by simpa [recvLoop] using h⟩
  | .eof :: rest, _ => ⟨by simp [recvLoop], fun h => by simp [recvLoop] at h⟩
  | .error :: rest, _ => ⟨by simp [recvLoop], fun h => by simp [recvLoop] at h⟩

/-! ## What is queued -/

/-- `s` is the replies to the calls from the `n`-th on, in order, with interim `100 Continue` lines between them. -/
inductive Answers (R : Responder) : Nat → List Call → Bytes → Prop
  | nil (n : Nat) : Answers R n [] []
  | interim {n cs s} : Answers R n cs s → Answers R n cs (continueLine ++ s)
  | reply {n cs s} (c : Call) : Answers R (n + 1) cs s → Answers R n (c :: cs) ((R n c).out ++ s)

theorem Answers.append {R : Responder} {n : Nat} {cs cs' : List Call} {s s' : Bytes} (h : Answers R n cs s)
    (h' : Answers R (n + cs.length) cs' s') : Answers R n (cs ++ cs') (s ++ s') := by
  induction h with
  | nil n => exact h'
  | interim _ ih => rw [append_assoc]; exact .interim (ih h')
  | reply c _ ih =>
    rw [append_assoc]
    refine .reply c (ih ?_)
    rwa [length_cons, Nat.add_comm _ 1, ← Nat.add_assoc] at h'

/-- What a pass leaves alone before its flush. -/
structure Conn.SameSocket (c d : Conn) : Prop where
  recvs : d.recvs = c.recvs
  received : d.received = c.received
  peerClosed : d.peerClosed = c.peerClosed
  processing : d.processing = c.processing
  closed : d.closed = c.closed
  sends : d.out.sends = c.out.sends

theorem Conn.SameSocket.trans {c d e : Conn} (h : c.SameSocket d) (h' : d.SameSocket e) : c.SameSocket e :=
  ⟨h'.recvs.trans h.recvs, h'.received.trans h.received, h'.peerClosed.trans h.peerClosed,
    h'.processing.trans h.processing, h'.closed.trans h.closed, h'.sends.trans h.sends⟩

open Conn

theorem respond_answers (R : Responder) (c : Conn) (hc : c.Idle) (hp : c.processing = true) (ho : c.out.Ok) :
    c.SameSocket (c.respond R) ∧ (c.respond R).out.Ok ∧
      (c.respond R).out.stream = c.out.stream ++ (R c.calls.length (c.parser.call (c.calls.length == 0))).out := by
  have hcall : c.currentCall = c.parser.call (c.calls.length == 0) := by
    simp only [currentCall, Parser.call, hc.first]
  have henq := enqueueResponseBytes_processing (c := ({ c with busy := true } : Conn).call) hp
    (R c.calls.length c.currentCall).out
  have hresp : (c.respond R).out = c.out.enqueue (R c.calls.length c.currentCall).out := by
    simp only [respond, henq]; rfl
  refine ⟨?_, ?_, ?_⟩
  · simp only [respond, henq]; exact ⟨rfl, rfl, rfl, rfl, rfl, rfl⟩
  · rw [hresp]; exact ok_enqueue ho _
  · rw [hresp, stream_enqueue ho, hcall]

/-- **`processInput` queues a reply for every call it makes**, in order, if it refuses nothing. -/
theorem processInput_answers (R : Responder) (hR : ∀ n c, (R n c).keepAlive = true) (c : Conn) (hc : c.Idle)
    (hp : c.processing = true) (ho : c.out.Ok) (hr : (c.processInput R).refused = none) :
    c.SameSocket (c.processInput R) ∧ (c.processInput R).out.Ok ∧
      ∃ cs s, (c.processInput R).calls = c.calls ++ cs ∧ (c.processInput R).out.stream = c.out.stream ++ s ∧
        Answers R c.calls.length cs s := by
  induction hn : c.parser.weight c.inbuf using Nat.strongRecOn generalizing c with
  | ind n ih =>
    rw [processInput, if_neg (by simp [hc.busy, hc.closing])] at hr ⊢
    have happ : ∀ {p p' : Parser} {b r out : Bytes},
        p.iterate b = .more p' r out ∨ p.iterate b = .dispatch p' r out → ∀ {m cs s}, Answers R m cs s →
        Answers R m cs (out ++ s) := by
      intro p p' b r out h m cs s ha
      rcases iterate_out h with rfl | rfl
      · exact ha
      · exact .interim ha
    split at hr
    · next p b hi =>
      simp only; exact ⟨⟨rfl, rfl, rfl, rfl, rfl, rfl⟩, ho, [], [], by simp, by simp, .nil _⟩
    · next status reason hi =>
      simp [sendErrorAndClose] at hr
    · next p b out hi =>
      obtain ⟨h₁, h₂, cs, s, h₃, h₄, h₅⟩ := ih _ (hn ▸ weight_lt (.inl hi))
        { c with parser := p, inbuf := b, out := c.out.append out }
        ⟨hc.busy, hc.closing, hc.refused, hc.first⟩ hp (ok_append ho _) hr rfl
      have hcd : c.SameSocket { c with parser := p, inbuf := b, out := c.out.append out } := ⟨rfl, rfl, rfl, rfl, rfl, rfl⟩
      refine ⟨hcd.trans h₁, h₂, cs, out ++ s, h₃, ?_, happ (.inl hi) h₅⟩
      rw [h₄, stream_append ho, append_assoc]
    · next p b out hi =>
      set d : Conn := { c with parser := p, inbuf := b, out := c.out.append out } with hd
      have hdi : d.Idle := ⟨hc.busy, hc.closing, hc.refused, hc.first⟩
      have hcd : c.SameSocket d := ⟨rfl, rfl, rfl, rfl, rfl, rfl⟩
      obtain ⟨g₁, g₂, g₃, g₄, -⟩ := respond_shows R d hdi
      obtain ⟨e₁, e₂, e₃⟩ := respond_answers R d hdi hp (ok_append ho _)
      have hw : p.weight b < n := hn ▸ weight_lt (.inr hi)
      obtain ⟨h₁, h₂, cs, s, h₃, h₄, h₅⟩ := ih (p.clear.weight b) hw (d.respond R) (g₄ (hR _ _)) (e₁.processing.trans hp) e₂
        hr (by rw [g₂, g₃])
      refine ⟨(hcd.trans e₁).trans h₁, h₂, d.parser.call (d.calls.length == 0) :: cs,
        out ++ ((R d.calls.length (d.parser.call (d.calls.length == 0))).out ++ s), ?_, ?_, happ (.inr hi) (.reply _ ?_)⟩
      · rw [h₃, g₁, append_assoc]; rfl
      · rw [h₄, e₃, hd, stream_append ho, append_assoc, append_assoc]
      · rw [g₁, length_append, length_singleton] at h₅; exact h₅

/-! ## Runs -/

/-- The socket fails no `send`: the peer has closed its own side only. -/
def TakesAll (sends : List SendResult) : Prop := ∀ s ∈ sends, s ≠ .fail ∧ s ≠ .took 0

theorem sendLoop_takes : ∀ {sends : List SendResult} (pending : Bytes), TakesAll sends →
    (sendLoop sends pending).2.1 ≠ .fail ∧ TakesAll (sendLoop sends pending).2.2
  | sends, [], h => by cases sends <;> simpa [sendLoop] using h
  | [], c :: cs, h => by simpa [sendLoop] using h
  | .again :: rest, c :: cs, h => ⟨by simp [sendLoop], fun s hs => h s (mem_cons_of_mem _ hs)⟩
  | .fail :: rest, c :: cs, h => absurd rfl (h _ mem_cons_self).1
  | .took n :: rest, c :: cs, h => by
    have hn : n ≠ 0 := by rintro rfl; exact (h _ mem_cons_self).2 rfl
    simp only [sendLoop]
    rw [if_neg (by simp; omega)]
    exact sendLoop_takes _ (fun s hs => h s (mem_cons_of_mem _ hs))

theorem flush_takes {o : Output} (h : TakesAll o.sends) : o.flush.1 = true ∧ TakesAll o.flush.2.sends := by
  obtain ⟨h₁, h₂⟩ := sendLoop_takes (o.outbuf.drop o.outsent) h
  simp only [flush]
  split
  · next he => rw [he] at h₂; exact ⟨rfl, h₂⟩
  · next he => rw [he] at h₂; exact ⟨rfl, h₂⟩
  · next he => rw [he] at h₁; exact absurd rfl h₁

/-- A connection that has parsed what it has received of `rs`, and answered it. -/
structure Conn.Parsed (R : Responder) (rs : List Request) (c : Conn) : Prop where
  idle : c.Idle
  ok : c.out.Ok
  takes : TakesAll c.out.sends
  recvs : HalfCloses c.recvs
  bytes : c.received ++ recvBytes c.recvs = rs.flatMap Request.bytes
  fed : (reader R.keeps).feed ({}, 0) c.received = (c.calls, .waiting (c.parser, c.calls.length) c.inbuf)
  answers : Answers R 0 c.calls c.out.stream
  ended : c.peerClosed = true → ∀ x ∈ c.recvs, x = .eof
  closed : c.closed = true → c.peerClosed = true

section Runs

variable {R : Responder} {rs : List Request} {c : Conn}

theorem Conn.Parsed.flush (h : c.Parsed R rs) : c.flushAndMaybeClose.Parsed R rs := by
  obtain ⟨h₁, h₂⟩ := flush_takes h.takes
  refine ⟨⟨h.idle.busy, h.idle.closing, h.idle.refused, h.idle.first⟩, ok_flush h.ok, h₂, h.recvs, h.bytes, h.fed,
    ?_, h.ended, ?_⟩
  · exact stream_flush.symm ▸ h.answers
  · intro hc
    simp only [flushAndMaybeClose, h₁, h.idle.closing, Bool.not_true, Bool.or_false, Bool.false_or, or_eq_true,
      and_eq_true] at hc
    rcases hc with hc | hc
    · exact h.closed hc
    · exact hc.2

variable (hR : ∀ n c, (R n c).keepAlive = true)

include hR

theorem feed_part {x y : Bytes} (h : x ++ y = rs.flatMap Request.bytes) :
    ∃ cs s r, (reader R.keeps).feed ({}, 0) x = (cs, .waiting s r) := by
  obtain ⟨cs, p, -, -, hf⟩ := feedAll_requests (k := R.keeps) hR rs [x, y] (by simpa using h)
  cases hx : (reader R.keeps).feed ({}, 0) x with
  | mk es f =>
    cases f with
    | waiting s r => exact ⟨es, s, r, rfl⟩
    | halted e => simp [Consumer.feedAll, hx] at hf

theorem Conn.Parsed.pass (h : c.Parsed R rs) {d : Bytes} {rest : List RecvResult} {pc : Bool} (hc : c.closed = false)
    (hd : recvBytes c.recvs = d ++ recvBytes rest) (hrest : HalfCloses rest) (hpc : pc = true → ∀ x ∈ rest, x = .eof) :
    Conn.Parsed R rs (Conn.pass R
      { c with inbuf := c.inbuf ++ d, received := c.received ++ d, recvs := rest, peerClosed := pc }) := by
  set e : Conn := { c with inbuf := c.inbuf ++ d, received := c.received ++ d, recvs := rest, peerClosed := pc,
                           processing := true } with he
  have hidle : e.Idle := ⟨h.idle.busy, h.idle.closing, h.idle.refused, h.idle.first⟩
  have hbytes : (c.received ++ d) ++ recvBytes rest = rs.flatMap Request.bytes := by
    rw [append_assoc, ← hd, h.bytes]
  obtain ⟨cs, s, r, hfeed⟩ := feed_part hR hbytes
  obtain ⟨h₁, h₂⟩ := processInput_feed R e hidle
  have happ := Consumer.feed_append reader_local h.fed d
  rw [hfeed] at happ
  obtain ⟨hcs, hsr⟩ := Prod.mk.inj happ
  rw [show e.parser = c.parser from rfl, show e.calls = c.calls from rfl, show e.inbuf = c.inbuf ++ d from rfl] at h₁ h₂
  rw [← hcs] at h₁
  rw [← hsr] at h₂
  obtain ⟨hi, hp, hn, hb⟩ := h₂
  obtain ⟨hsame, hok, cs', s', g₁, g₂, g₃⟩ := processInput_answers R hR e hidle rfl h.ok hi.refused
  have hparsed : Conn.Parsed R rs { e.processInput R with processing := false } := by
    refine ⟨⟨hi.busy, hi.closing, hi.refused, hi.first⟩, hok, ?_, ?_, ?_, ?_, ?_, ?_, ?_⟩
    · exact hsame.sends ▸ h.takes
    · exact hsame.recvs ▸ hrest
    · rw [hsame.received, hsame.recvs]; exact hbytes
    · show (reader R.keeps).feed ({}, 0) (e.processInput R).received =
        ((e.processInput R).calls, .waiting ((e.processInput R).parser, (e.processInput R).calls.length) (e.processInput R).inbuf)
      rw [hsame.received, h₁, hp, hb]
      rw [h₁] at hn; rw [hn]; exact hfeed
    · rw [g₁, g₂]; exact h.answers.append (by rw [Nat.zero_add]; exact g₃)
    · intro hpeer; rw [hsame.recvs]; exact hpc (hsame.peerClosed.symm.trans hpeer)
    · intro hcl
      have : c.closed = true := by rw [← hcl]; exact hsame.closed.symm
      rw [hc] at this; cases this
  exact hparsed.flush

/-- **One event** that drops nothing keeps a connection parsed. -/
theorem Conn.Parsed.onReady (h : c.Parsed R rs) {e : Revents} (hc : c.closed = false) (he : e.broken = false)
    (hd : c.drops e = false) : (c.onReady R e).Parsed R rs := by
  obtain ⟨h₁, h₂, h₃⟩ := recvLoop_spec h.recvs
  rcases c.onReady_cases R he with ⟨hr, heq⟩ | ⟨hr, hok, heq⟩ | ⟨hr, hok, hq, heq⟩ | ⟨hr, hok, hq, heq⟩
  · rw [heq]; exact h.flush
  · rw [heq]; exact h.pass hR hc h₁ h₂ (fun hp x hx => h.ended hp x (recvLoop_mem hx))
  · have hnil : (recvLoop c.recvs).1 = [] := by
      by_contra hne
      simp only [and_eq_true, not_eq_true'] at hq; simp [drops, hr, hok, hq.1, hq.2, hne] at hd
    rw [heq, got, hnil]
    simp only [append_nil]
    refine ⟨⟨h.idle.busy, h.idle.closing, h.idle.refused, h.idle.first⟩, h.ok, h.takes, h₂, ?_, h.fed, h.answers,
      fun _ => h₃ hok, fun _ => rfl⟩
    rw [hnil, nil_append] at h₁
    show c.received ++ recvBytes (recvLoop c.recvs).2.2 = _; rw [← h₁, h.bytes]
  · rw [heq]; exact h.pass hR hc h₁ h₂ (fun _ => h₃ hok)

omit hR in
theorem goes_boundary {k : Nat → Call → Bool} {s s' : Parser × Nat} {b r : Bytes} {es : List Call}
    (h : (reader k).Goes s b es s' r) (hs : s'.1.state = .head) (he : es = []) : s' = s ∧ r = b := by
  induction h with
  | refl s b => exact ⟨rfl, rfl⟩
  | step hr _ ih =>
    obtain ⟨rfl, rfl⟩ := append_eq_nil_iff.1 he
    obtain ⟨rfl, -⟩ := ih hs rfl
    simp only [reader_round, readerRound] at hr
    split at hr
    · cases hr
    · cases hr
    · next hi => cases hr; exact absurd hs (iterate_more_state hi)
    · split at hr <;> cases hr

theorem calls_of_part {x d : Bytes} (h : x ++ d = rs.flatMap Request.bytes) (hd : d ≠ []) {cs : List Call}
    {s : Parser × Nat} {r : Bytes} (hf : (reader R.keeps).feed ({}, 0) x = (cs, .waiting s r)) :
    cs.map Call.request ≠ rs.map Request.parts := by
  intro hcs
  obtain ⟨cs', p, hcs', hp, hall⟩ := feedAll_requests (k := R.keeps) hR rs [x, d] (by simpa using h)
  cases hg : (reader R.keeps).feed s (r ++ d) with
  | mk es f =>
    cases f with
    | halted e => simp [Consumer.feedAll, hf, hg] at hall
    | waiting s₂ r₂ =>
      simp only [Consumer.feedAll, nil_append, hf, hg, append_nil, Prod.mk.injEq, Final.waiting.injEq] at hall
      obtain ⟨rfl, rfl, rfl⟩ := hall
      have hes : es = [] := by
        have := congrArg List.length hcs'; rw [← hcs] at this; simpa using this
      obtain ⟨t, q, hgo, hw⟩ := Consumer.goes_of_waiting hg
      have hwait : t.1.iterate q = .wait p [] := by
        simp only [reader_round, readerRound] at hw
        split at hw
        · next hi =>
          simp only [Round.wait.injEq, Prod.mk.injEq] at hw
          obtain ⟨⟨rfl, -⟩, rfl⟩ := hw; exact hi
        · cases hw
        · cases hw
        · split at hw <;> cases hw
      obtain ⟨ht, hq⟩ := iterate_wait_head hwait hp
      obtain ⟨-, hb⟩ := goes_boundary hgo ht hes
      rw [hb] at hq; exact hd (append_eq_nil_iff.1 hq.symm).2

theorem Conn.Parsed.served (h : c.Parsed R rs) (hp : c.peerClosed = true) :
    c.calls.map Call.request = rs.map Request.parts := by
  have hb := h.bytes
  rw [recvBytes_eofs (h.ended hp), append_nil] at hb
  obtain ⟨cs, p, hcs, -, hall⟩ := feedAll_requests (k := R.keeps) hR rs [c.received] (by simpa using hb)
  simp only [Consumer.feedAll, nil_append, h.fed, append_nil, Prod.mk.injEq] at hall
  rw [hall.1, hcs]

theorem Conn.Parsed.onReady_drops (h : c.Parsed R rs) {e : Revents} (he : e.broken = false) (hd : c.drops e = true) :
    (c.onReady R e).closed = true ∧ (c.onReady R e).calls.map Call.request ≠ rs.map Request.parts := by
  simp only [drops, and_eq_true, not_eq_true', isEmpty_eq_false_iff] at hd
  obtain ⟨⟨⟨⟨hr, hok⟩, hne⟩, hb⟩, hq⟩ := hd
  have heq : c.onReady R e = (c.got true).close := by
    rcases c.onReady_cases R he with h | h | h | h
    · rw [h.1] at hr; cases hr
    · rw [h.2.1] at hok; cases hok
    · exact h.2.2.2
    · simp [hb, hq] at h
  obtain ⟨h₁, h₂, h₃⟩ := recvLoop_spec h.recvs
  have hpart : c.received ++ (recvLoop c.recvs).1 = rs.flatMap Request.bytes := by
    rw [recvBytes_eofs (h₃ hok), append_nil] at h₁; rw [← h₁, h.bytes]
  rw [heq]; exact ⟨rfl, calls_of_part hR hpart hne h.fed⟩

omit hR in
theorem onReadys_closed (h : c.closed = true) (es : List Revents) : c.onReadys R es = c := by
  cases es with
  | nil => rfl
  | cons e es => simp [onReadys, h]

theorem Conn.Parsed.onReadys : ∀ {es : List Revents} {c : Conn}, c.Parsed R rs → (∀ e ∈ es, e.broken = false) →
    c.dropsIn R es = false → (c.onReadys R es).Parsed R rs
  | [], _, h, _, _ => h
  | e :: es, c, h, he, hd => by
    cases hc : c.closed with
    | true => rwa [onReadys_closed hc]
    | false =>
      simp only [Conn.dropsIn, hc, Bool.not_false, Bool.true_and, or_eq_false_iff] at hd
      have := Conn.Parsed.onReadys (h.onReady hR hc (he e mem_cons_self) hd.1)
        (fun e' h' => he e' (mem_cons_of_mem _ h')) hd.2
      simpa [Conn.onReadys, hc] using this

theorem Conn.Parsed.onReadys_drops : ∀ {es : List Revents} {c : Conn}, c.Parsed R rs → (∀ e ∈ es, e.broken = false) →
    c.dropsIn R es = true →
    (c.onReadys R es).closed = true ∧ (c.onReadys R es).calls.map Call.request ≠ rs.map Request.parts
  | [], _, _, _, hd => by simp [Conn.dropsIn] at hd
  | e :: es, c, h, he, hd => by
    simp only [Conn.dropsIn, and_eq_true, not_eq_true'] at hd
    obtain ⟨hc, hd⟩ := hd
    have hstep : c.onReadys R (e :: es) = (c.onReady R e).onReadys R es := by simp [Conn.onReadys, hc]
    rw [hstep]
    cases hde : c.drops e with
    | true =>
      obtain ⟨h₁, h₂⟩ := h.onReady_drops hR (he e mem_cons_self) hde; rw [onReadys_closed h₁]; exact ⟨h₁, h₂⟩
    | false =>
      rw [hde, Bool.false_or] at hd
      exact Conn.Parsed.onReadys_drops (h.onReady hR hc (he e mem_cons_self) hde)
        (fun e' h' => he e' (mem_cons_of_mem _ h')) hd

omit hR in
theorem processInput_reads (c : Conn) :
    (c.processInput R).recvs = c.recvs ∧ (c.processInput R).peerClosed = c.peerClosed := by
  induction hn : c.parser.weight c.inbuf using Nat.strongRecOn generalizing c with
  | ind n ih =>
    rw [processInput]
    split
    · exact ⟨rfl, rfl⟩
    · split
      · exact ⟨rfl, rfl⟩
      · next status reason _ =>
        simp only [sendErrorAndClose]
        obtain ⟨out, closed, h⟩ := c.enqueueResponseBytes_frame (errorResponse status reason)
        rw [h]; exact ⟨rfl, rfl⟩
      · next p b out hi =>
        exact ih _ (hn ▸ weight_lt (.inl hi)) { c with parser := p, inbuf := b, out := c.out.append out } rfl
      · next p b out hi =>
        set d : Conn := { c with parser := p, inbuf := b, out := c.out.append out } with hd
        obtain ⟨g₁, g₂⟩ := respond_frame R d
        have hw : (d.respond R).parser.weight (d.respond R).inbuf < n := by
          rw [← hn, weight, g₁, g₂]; exact weight_lt (.inr hi)
        obtain ⟨h₁, h₂⟩ := ih _ hw (d.respond R) rfl
        obtain ⟨out', closed, h⟩ := enqueueResponseBytes_frame ({ d with busy := true } : Conn).call
          (R d.calls.length d.currentCall).out
        have hr : (d.respond R).recvs = d.recvs ∧ (d.respond R).peerClosed = d.peerClosed := by
          simp only [respond, h]; exact ⟨rfl, rfl⟩
        exact ⟨h₁.trans hr.1, h₂.trans hr.2⟩

omit hR in
theorem onReady_reads {e : Revents} (he : e.broken = false) :
    (c.onReady R e).recvs = (if e.readable then (recvLoop c.recvs).2.2 else c.recvs) ∧
      (c.onReady R e).peerClosed = (c.peerClosed || e.readable && !(recvLoop c.recvs).2.1) := by
  have hpass : ∀ d : Conn, (d.pass R).recvs = d.recvs ∧ (d.pass R).peerClosed = d.peerClosed :=
    fun d => processInput_reads (R := R) { d with processing := true }
  rcases c.onReady_cases R he with ⟨hr, heq⟩ | ⟨hr, hok, heq⟩ | ⟨hr, hok, -, heq⟩ | ⟨hr, hok, -, heq⟩
  · rw [heq, hr]; simp [flushAndMaybeClose]
  · rw [heq, (hpass _).1, (hpass _).2, hr, hok]; simp [got]
  · rw [heq, hr, hok]; simp [got, close]
  · rw [heq, (hpass _).1, (hpass _).2, hr, hok]; simp [got]

theorem Conn.Parsed.peerClosed_of_reads : ∀ {es : List Revents} {c : Conn}, c.Parsed R rs →
    (∀ e ∈ es, e.broken = false) → c.dropsIn R es = false → .eof ∈ c.recvs ∨ c.peerClosed = true →
    c.recvs.length ≤ es.countP Revents.readable → (c.onReadys R es).peerClosed = true
  | [], c, h, _, _, hm, hl => by
    rcases hm with hm | hm
    · simp only [countP_nil, Nat.le_zero] at hl; rw [length_eq_zero_iff.1 hl] at hm; cases hm
    · exact hm
  | e :: es, c, h, he, hd, hm, hl => by
    cases hc : c.closed with
    | true => rw [onReadys_closed hc]; exact h.closed hc
    | false =>
      have hb := he e mem_cons_self
      simp only [Conn.dropsIn, hc, Bool.not_false, Bool.true_and, or_eq_false_iff] at hd
      have hstep : c.onReadys R (e :: es) = (c.onReady R e).onReadys R es := by simp [Conn.onReadys, hc]
      rw [hstep]
      refine Conn.Parsed.peerClosed_of_reads (h.onReady hR hc hb hd.1) (fun e' h' => he e' (mem_cons_of_mem _ h')) hd.2
        ?_ ?_
      · obtain ⟨h₁, h₂⟩ := onReady_reads (R := R) (c := c) hb
        rw [h₁, h₂]
        rcases hm with hm | hm
        · cases hr : e.readable with
          | false => simpa using .inl hm
          | true =>
            cases hok : (recvLoop c.recvs).2.1 with
            | false => simp
            | true => exact .inl ((recvLoop_progress c.recvs (ne_nil_of_mem hm)).2 hok hm)
        · simp [hm]
      · rw [(onReady_reads (R := R) (c := c) hb).1]
        rw [countP_cons] at hl
        cases hr : e.readable with
        | false => simpa [hr] using hl
        | true =>
          simp only [hr, if_true] at hl ⊢
          by_cases hn : c.recvs = []
          · simp [hn, recvLoop]
          · have := (recvLoop_progress c.recvs hn).1; omega

end Runs

/-- Every request has been dispatched exactly once, in order, and its reply is queued. -/
def Conn.Served (R : Responder) (rs : List Request) (c : Conn) : Prop :=
  c.calls.map Call.request = rs.map Request.parts ∧ Answers R 0 c.calls c.out.stream

/-- An accepted connection on a socket. -/
def Conn.acceptedOn (recvs : List RecvResult) (sends : List SendResult) : Conn := { Conn.accepted sends with recvs }

/-- **Requests are lost exactly when a pass drops bytes.** Well-formed requests are sent before the peer half-closes,
and come in any pieces. When the end of input has been seen or the connection has been closed, every request is served
iff no pass of the run got bytes and the end of input at once with nothing left to send. Enough passes that read do see
the end of input. -/
theorem served_iff_not_drops (R : Responder) (hR : ∀ n c, (R n c).keepAlive = true) (rs : List Request)
    (recvs : List RecvResult) (hrecvs : HalfCloses recvs) (hbytes : recvBytes recvs = rs.flatMap Request.bytes)
    (sends : List SendResult) (hsends : TakesAll sends) (es : List Revents) (hes : ∀ e ∈ es, e.broken = false) :
    (((Conn.acceptedOn recvs sends).onReadys R es).peerClosed = true ∨
          ((Conn.acceptedOn recvs sends).onReadys R es).closed = true →
        ((Conn.acceptedOn recvs sends).onReadys R es).Served R rs) ∧
      (.eof ∈ recvs → recvs.length ≤ es.countP Revents.readable →
        ((Conn.acceptedOn recvs sends).onReadys R es).peerClosed = true) ↔
    (Conn.acceptedOn recvs sends).dropsIn R es = false := by
  have hstart : (acceptedOn recvs sends).Parsed R rs := by
    refine ⟨⟨rfl, rfl, rfl, rfl⟩, Nat.le_refl 0, hsends, hrecvs, hbytes, ?_, .nil 0, by rintro ⟨⟩, by rintro ⟨⟩⟩
    exact Consumer.feed_wait (round_boundary rfl 0)
  constructor
  · intro h
    by_contra hd
    obtain ⟨h₁, h₂⟩ := hstart.onReadys_drops hR hes (by simpa using hd); exact h₂ (h.1 (.inr h₁)).1
  · intro hd
    have hrun := hstart.onReadys hR hes hd
    refine ⟨fun hp => ⟨hrun.served hR ?_, hrun.answers⟩, fun heof hl => ?_⟩
    · exact hp.elim id hrun.closed
    · exact hstart.peerClosed_of_reads hR hes hd (.inl heof) hl

/-- A request that comes in one read, with the end of input in the next. -/
theorem served_post : ((Conn.acceptedOn [.data postRequest.bytes (by decide) (by decide), .eof] [.took 9]).onReadys
    (fun _ _ => { out := text "reply" }) [{ pollin := true }, { pollin := true }]).Served
      (fun _ _ => { out := text "reply" }) [postRequest] :=
  ((served_iff_not_drops (fun _ _ => { out := text "reply" }) (fun _ _ => rfl) [postRequest]
    [.data postRequest.bytes (by decide) (by decide), .eof] (by intro x hx; cases hx) (by decide) [.took 9]
    (by intro s hs; cases hs with | head => decide | tail _ h => cases h)
    [{ pollin := true }, { pollin := true }] (by decide)).2 (by decide +kernel)).1 (.inl (by decide +kernel))

theorem contentLength_ne : text "Content-Length" ≠ [] := by decide +kernel

theorem contentLength_ok : ∀ c ∈ text "Content-Length", c ≠ sp ∧ c ≠ tab ∧ c ≠ cr ∧ c ≠ lf ∧ c ≠ colon := by decide +kernel

/-- A request of exactly one receive buffer: 42 bytes of head, then the body. -/
def bufferRequest : Request where
  method := text "POST"
  target := text "/"
  version := text "HTTP/1.1"
  before := []
  framing := .length (.ofText "Content-Length" "65494" contentLength_ne contentLength_ok) (List.replicate 65494 120)
  after := []
  method_ne := postRequest.method_ne
  method_ok := postRequest.method_ok
  target_ne := by decide +kernel
  target_ok := by decide +kernel
  version_ok := postRequest.version_ok
  before_ok := postRequest.after_ok
  after_ok := postRequest.after_ok
  framing_ok := by
    simp only [Framing.Ok, Field.ofText, length_replicate]
    decide +kernel
  head_le := by decide +kernel
  body_le := length_replicate.trans_le (by decide +kernel)

theorem length_bufferRequest : bufferRequest.bytes.length = kRecvBuffer := by
  have hh : bufferRequest.head.length = 38 := by decide +kernel
  have hb : bufferRequest.framing.bytes.length = 65494 := length_replicate
  rw [Request.bytes, length_append, length_append, hh, hb]; rfl

theorem onReadys_eof (R : Responder) {recvs : List RecvResult} (h : (recvLoop recvs).2.1 = false) :
    (Conn.acceptedOn recvs []).onReadys R [{ pollin := true }] = ((Conn.acceptedOn recvs []).got true).close := by
  rcases (acceptedOn recvs []).onReady_cases R (e := { pollin := true }) rfl with h' | h' | h' | h'
  · cases h'.1
  · rw [show (acceptedOn recvs []).recvs = recvs from rfl, h] at h'
    cases h'.2.1
  · exact h'.2.2.2
  · cases h'.2.2.1

/-- The only request fills the receive buffer, and the next `recv` of the same pass is the end of input. -/
theorem bufferRequest_lost : ¬ ∀ (R : Responder) (rs : List Request) (recvs : List RecvResult) (es : List Revents),
    (∀ n c, (R n c).keepAlive = true) → HalfCloses recvs → recvBytes recvs = rs.flatMap Request.bytes →
    (∀ e ∈ es, e.broken = false) → ((Conn.acceptedOn recvs []).onReadys R es).closed = true →
    ((Conn.acceptedOn recvs []).onReadys R es).Served R rs := by
  intro h
  have hpos : 0 < bufferRequest.bytes.length := by rw [length_bufferRequest]; decide
  have hlen := length_bufferRequest
  have hparts : [bufferRequest].map Request.parts ≠ [] := cons_ne_nil _ _
  have hb : [bufferRequest].flatMap Request.bytes = bufferRequest.bytes := append_nil _
  generalize [bufferRequest] = rs at hparts hb
  generalize bufferRequest.bytes = b at hpos hlen hb
  have hloop : (recvLoop [.data b hpos hlen.le, .eof]).2.1 = false := by
    simp [recvLoop, hlen]
  have hrun := onReadys_eof (fun _ _ => {}) hloop
  have := h (fun _ _ => {}) rs [.data b hpos hlen.le, .eof] [{ pollin := true }] (fun _ _ => rfl)
    (by intro x hx; cases hx) (by simp [recvBytes, hb]) (by decide) (by rw [hrun]; rfl)
  rw [hrun] at this; exact hparts this.1.symm

end NodeCompat.Http
