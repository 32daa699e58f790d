import NodeCompat.Net.ClientConnection

/-!
# The event protocol of a connection

What a consumer of a connection may rely on is an automaton over its events (`Phase.next`), and the logs the automaton
accepts have a fixed shape (`grammar`). A connection drives it: every push is a move of the automaton whose phase the
flags of the connection tell (`Speaks`), and `Account` ties the buffers to the history. Both are kept by each function
of the connection, and so by every step and every run.
-/

namespace NodeCompat.Net

open List Option

/-! ## The protocol -/

/-- Where a conversation is: may it carry events yet, and what has it already said. -/
structure Phase where
  opened : Bool
  finished : Bool := false
  ended : Bool := false
  failed : Bool := false
  closed : Bool := false
  deriving DecidableEq

namespace Phase

/-- Nothing but `close` may follow any more. -/
def isOver (p : Phase) : Bool := p.failed || p.closed

/-- The phase after an event, if the event is allowed. -/
def next (p : Phase) : ClientEvent → Option Phase
  | .connect => if !p.opened && !p.isOver then some { p with opened := true } else none
  | .data => if p.opened && !p.ended && !p.isOver then some p else none
  | .drain => if p.opened && !p.isOver then some p else none
  | .finish => if p.opened && !p.finished && !p.isOver then some { p with finished := true } else none
  | .ended => if p.opened && !p.ended && !p.isOver then some { p with ended := true } else none
  | .error => if !p.isOver then some { p with failed := true } else none
  | .close => if !p.closed && (p.failed || p.finished && p.ended) then some { p with closed := true } else none

/-- The phase after a log of events. -/
def after : Phase → List ClientEvent → Option Phase
  | p, [] => some p
  | p, e :: es => (p.next e).bind (fun q => q.after es)

theorem after_append (p : Phase) (a b : List ClientEvent) :
    p.after (a ++ b) = (p.after a).bind (fun q => q.after b) := by
  induction a generalizing p with
  | nil => rfl
  | cons e es ih => simp only [cons_append, after, bind_assoc]; exact Option.bind_congr (fun q _ => ih q)

theorem after_snoc {p q : Phase} {log : List ClientEvent} (e : ClientEvent) (h : p.after log = some q) :
    p.after (log ++ [e]) = q.next e := by
  rw [after_append, h]; simp [after]

theorem not_next_of_closed {p : Phase} {e : ClientEvent} (hc : p.closed = true) : p.next e = none := by
  cases e <;> simp [next, isOver, hc]

theorem next_closed {p q : Phase} {e : ClientEvent} (hold : p.closed = true → p.failed = true) (h : p.next e = some q)
    (hc : q.closed = true) : q.failed = true ∨ p.finished = true := by
  cases e <;> simp only [next] at h <;> split at h <;> cases h <;> rename_i hg
  case close =>
    simp only [Bool.and_eq_true, Bool.or_eq_true] at hg; exact hg.2.imp id And.left
  case error => exact .inl rfl
  all_goals exact .inl (hold hc)

theorem after_close {p q : Phase} {a b : List ClientEvent} (h : p.after (a ++ .close :: b) = some q) : b = [] := by
  rw [after_append] at h
  obtain ⟨r, -, h⟩ := bind_eq_some_iff.1 h
  obtain ⟨r', hr', h⟩ := bind_eq_some_iff.1 h
  have hclosed : r'.closed = true := by
    simp only [next] at hr'
    split at hr' <;> cases hr'
    rfl
  cases b with
  | nil => rfl
  | cons e es =>
    simp only [after] at h; rw [not_next_of_closed hclosed] at h; cases h

theorem next_ended {p q : Phase} {e : ClientEvent} (hp : p.ended = true) (h : p.next e = some q) : e ≠ .data ∧ q.ended = true := by
  cases e <;> simp only [next] at h <;> split at h <;> cases h
  case data.isTrue.refl hg => simp [hp] at hg
  all_goals exact ⟨nofun, by first | exact hp | rfl⟩

theorem no_data_of_ended : ∀ {log : List ClientEvent} {p q : Phase}, p.ended = true → p.after log = some q → .data ∉ log
  | [], _, _, _, _ => nofun
  | e :: es, p, q, hp, h => by
    obtain ⟨r, hr, h⟩ := bind_eq_some_iff.1 h
    obtain ⟨hne, hended⟩ := next_ended hp hr
    intro hm
    obtain heq | hm := mem_cons.1 hm
    · exact hne heq.symm
    · exact no_data_of_ended hended h hm

theorem after_ended {p q : Phase} {a b : List ClientEvent} (h : p.after (a ++ .ended :: b) = some q) : .data ∉ b := by
  rw [after_append] at h
  obtain ⟨r, -, h⟩ := bind_eq_some_iff.1 h
  obtain ⟨r', hr', h⟩ := bind_eq_some_iff.1 h
  refine no_data_of_ended ?_ h
  simp only [next] at hr'
  split at hr' <;> cases hr'
  rfl

end Phase

/-- The events between `connect` and the close. -/
def ClientEvent.ordinary : ClientEvent → Bool
  | .data | .drain | .finish | .ended => true
  | _ => false

/-- `[connect] (data | drain | finish | end)* [error] [close]`, each of `finish` and `end` at most once and no data after
`end`; an error is followed by the close, and nothing ordinary comes without the `connect` of a connection that was not
accepted. -/
def Grammar (accepted : Bool) (log : List ClientEvent) : Prop := ∃ head body tail, log = head ++ body ++ tail ∧
    (head = [] ∨ accepted = false ∧ head = [.connect]) ∧
    (∀ e ∈ body, e.ordinary) ∧
    (body ≠ [] → accepted = false → head = [.connect]) ∧
    body.count .finish ≤ 1 ∧ body.count .ended ≤ 1 ∧
    (∀ a b, body = a ++ .ended :: b → .data ∉ b) ∧
    (tail = [] ∨ tail = [.close] ∨ tail = [.error, .close])

/-- `Grammar`, but the close that an error announces may still be missing. -/
structure Shape (accepted : Bool) (log : List ClientEvent) (p : Phase) (head body tail : List ClientEvent) : Prop where
  split : log = head ++ body ++ tail
  headed : head = if p.opened && !accepted then [.connect] else []
  opened : accepted → p.opened
  ordinary : ∀ e ∈ body, e.ordinary
  needs : p.opened = false → body = []
  finishes : body.count .finish = if p.finished then 1 else 0
  ends : body.count .ended = if p.ended then 1 else 0
  quiet : ∀ a b, body = a ++ .ended :: b → .data ∉ b
  closes : tail = (if p.failed then [.error] else []) ++ if p.closed then [.close] else []

open Phase

namespace Shape

variable {accepted : Bool} {log head body tail : List ClientEvent} {p : Phase}

theorem start (accepted : Bool) : Shape accepted [] { opened := accepted } [] [] [] where
  split := rfl
  headed := by cases accepted <;> rfl
  opened h := h
  ordinary := by simp
  needs _ := rfl
  finishes := rfl
  ends := rfl
  quiet a b h := by simp at h
  closes := rfl

section

variable (h : Shape accepted log p head body tail)
include h

theorem tail_nil (ho : p.isOver = false) : tail = [] := by
  simp only [isOver, Bool.or_eq_false_iff] at ho; rw [h.closes, ho.1, ho.2]; rfl

theorem not_ended (he : p.ended = false) : .ended ∉ body := by
  have := h.ends; simp only [he, Bool.false_eq_true, if_false] at this; exact count_eq_zero.1 this

/-- Nothing after an `end` in a longer body, if what is added is not data or there was no `end`. -/
theorem quiet_snoc {e : ClientEvent} (he : e = .data → p.ended = false)
    (a b : List ClientEvent) (hab : body ++ [e] = a ++ .ended :: b) : .data ∉ b := by
  rcases eq_nil_or_concat b with rfl | ⟨b', x, rfl⟩
  · simp
  · have hsplit : body ++ [e] = (a ++ .ended :: b') ++ [x] := by simpa using hab
    obtain ⟨hbody, hx⟩ := append_inj' hsplit rfl
    cases hx
    have hold := h.quiet a b' hbody
    simp only [concat_eq_append, mem_append, mem_singleton, not_or]
    refine ⟨hold, fun hd => ?_⟩
    exact h.not_ended (he hd.symm) (hbody ▸ by simp)

theorem finished_of_mem (hf : .finish ∈ log) : p.finished = true := by
  have hbody : .finish ∈ body := by
    rw [h.split, h.headed, h.closes] at hf
    simp only [mem_append] at hf
    rcases hf with (hf | hf) | hf | hf
    · split at hf <;> simp at hf
    · exact hf
    · split at hf <;> simp at hf
    · split at hf <;> simp at hf
  cases hp : p.finished with
  | true => rfl
  | false =>
    have hcount := h.finishes
    simp only [hp, Bool.false_eq_true, if_false] at hcount
    exact absurd hbody (count_eq_zero.1 hcount)

theorem failed_of_mem (hm : .error ∈ log) : p.failed = true := by
  rw [h.split, mem_append, mem_append] at hm
  obtain (hm | hm) | hm := hm
  · rw [h.headed] at hm
    split at hm <;> simp at hm
  · exact absurd (h.ordinary _ hm) (by decide)
  · rw [h.closes] at hm
    cases hf : p.failed with
    | true => rfl
    | false =>
      simp only [hf, Bool.false_eq_true, if_false, nil_append] at hm
      split at hm <;> simp at hm

theorem closed_of_mem (hm : .close ∈ log) : p.closed = true := by
  rw [h.split, mem_append, mem_append] at hm
  obtain (hm | hm) | hm := hm
  · rw [h.headed] at hm
    split at hm <;> simp at hm
  · exact absurd (h.ordinary _ hm) (by decide)
  · rw [h.closes] at hm
    cases hc : p.closed with
    | true => rfl
    | false =>
      rw [hc] at hm
      split at hm <;> simp at hm

theorem ended_of_mem (hm : .ended ∈ log) : p.ended = true := by
  rw [h.split, h.headed, h.closes] at hm
  simp only [mem_append] at hm
  cases he : p.ended with
  | true => rfl
  | false =>
    obtain (hm | hm) | hm | hm := hm
    · split at hm <;> simp at hm
    · exact absurd hm (h.not_ended he)
    · split at hm <;> simp at hm
    · split at hm <;> simp at hm

theorem opened_of_mem (hm : .connect ∈ log) : p.opened = true := by
  rw [h.split, h.headed, h.closes] at hm
  simp only [mem_append] at hm
  cases ho : p.opened with
  | true => rfl
  | false =>
    obtain (hm | hm) | hm | hm := hm
    · simp [ho] at hm
    · rw [h.needs ho] at hm; cases hm
    · split at hm <;> simp at hm
    · split at hm <;> simp at hm

theorem mem_error (hf : p.failed = true) : .error ∈ log := by
  rw [h.split, h.closes, hf]; simp

theorem mem_close (hc : p.closed = true) : .close ∈ log := by
  rw [h.split, h.closes, hc]; simp

theorem mem_finish (hf : p.finished = true) : .finish ∈ log := by
  have hcount := h.finishes
  rw [hf, if_pos rfl] at hcount
  have hbody : .finish ∈ body := count_pos_iff.1 (by omega)
  rw [h.split]; simp [hbody]

end

theorem next (h : Shape accepted log p head body tail) {e : ClientEvent} {q : Phase} (hq : p.next e = some q) :
    ∃ head body tail, Shape accepted (log ++ [e]) q head body tail := by
  -- an ordinary event goes to the end of the body; the rest of the shape is read off the new phase
  have body_case : p.isOver = false → p.opened = true → e.ordinary = true → (e = .data → p.ended = false) →
      q.opened = p.opened → q.failed = p.failed → q.closed = p.closed →
      (body ++ [e]).count .finish = (if q.finished then 1 else 0) →
      (body ++ [e]).count .ended = (if q.ended then 1 else 0) →
      ∃ head body tail, Shape accepted (log ++ [e]) q head body tail := by
    intro ho hop hord hd hqo hqf hqc hfin hend
    refine ⟨head, body ++ [e], [], ?_, ?_, ?_, ?_, ?_, hfin, hend, h.quiet_snoc hd, ?_⟩
    · rw [h.split, h.tail_nil ho]; simp
    · rw [hqo]; exact h.headed
    · intro _; rw [hqo, hop]
    · intro x hx
      rcases mem_append.1 hx with hx | hx
      · exact h.ordinary x hx
      · rw [mem_singleton.1 hx]; exact hord
    · intro hc; rw [hqo, hop] at hc; cases hc
    · rw [hqf, hqc, ← h.closes]; exact (h.tail_nil ho).symm
  have hfin := h.finishes
  have hend := h.ends
  cases e <;> simp only [Phase.next] at hq <;> split at hq <;> cases hq <;> rename_i hc <;>
    simp only [Bool.and_eq_true, Bool.not_eq_true'] at hc
  case connect =>
    obtain ⟨hop, ho⟩ := hc
    have hacc : accepted = false := by
      cases accepted with
      | false => rfl
      | true => rw [h.opened rfl] at hop; cases hop
    have hhead := h.headed
    simp only [hop, Bool.false_and, Bool.false_eq_true, if_false] at hhead
    refine ⟨[.connect], [], [], ?_, by simp [hacc], fun _ => rfl, by simp, fun _ => rfl, ?_, ?_, by simp, ?_⟩
    · rw [h.split, hhead, h.needs hop, h.tail_nil ho]; rfl
    · rw [h.needs hop] at hfin; exact hfin
    · rw [h.needs hop] at hend; exact hend
    · exact (h.tail_nil ho).symm.trans h.closes
  case data =>
    exact body_case hc.2 hc.1.1 rfl (fun _ => hc.1.2) rfl rfl rfl (by simpa using hfin) (by simpa using hend)
  case drain =>
    exact body_case hc.2 hc.1 rfl (fun hd => by cases hd) rfl rfl rfl (by simpa using hfin) (by simpa using hend)
  case finish =>
    refine body_case hc.2 hc.1.1 rfl (fun hd => by cases hd) rfl rfl rfl ?_ (by simpa using hend)
    simpa [hc.1.2] using hfin
  case ended =>
    refine body_case hc.2 hc.1.1 rfl (fun hd => by cases hd) rfl rfl rfl (by simpa using hfin) ?_
    simpa [hc.1.2] using hend
  case error =>
    refine ⟨head, body, [.error], ?_, h.headed, h.opened, h.ordinary, h.needs, hfin, hend, h.quiet, ?_⟩
    · rw [h.split, h.tail_nil hc]; simp
    · simp only [Phase.isOver, Bool.or_eq_false_iff] at hc; simp [hc.2]
  case close =>
    refine ⟨head, body, tail ++ [.close], ?_, h.headed, h.opened, h.ordinary, h.needs, hfin, hend, h.quiet, ?_⟩
    · rw [h.split]; simp
    · rw [h.closes, hc.1]; simp

end Shape

theorem exists_shape (accepted : Bool) (log : List ClientEvent) : ∀ {p : Phase},
    Phase.after { opened := accepted } log = some p → ∃ head body tail, Shape accepted log p head body tail := by
  induction log using List.reverseRecOn with
  | nil =>
    intro p h
    cases h; exact ⟨[], [], [], Shape.start accepted⟩
  | append_singleton log e ih =>
    intro p h
    rw [Phase.after_append] at h
    obtain ⟨q, hq, hp⟩ := bind_eq_some_iff.1 h
    obtain ⟨head, body, tail, hs⟩ := ih hq; exact hs.next (by simpa [Phase.after] using hp)

theorem Phase.failed_of_closed {accepted : Bool} : ∀ {log : List ClientEvent} {q : Phase},
    Phase.after { opened := accepted } log = some q → .finish ∉ log → q.closed = true → q.failed = true := by
  intro log
  induction log using List.reverseRecOn with
  | nil =>
    intro q h _ hc
    cases h; cases hc
  | append_singleton log e ih =>
    intro q h hfin hc
    rw [after_append] at h
    obtain ⟨p, hp, h⟩ := bind_eq_some_iff.1 h
    have hnext : p.next e = some q := by simpa [after] using h
    have hold : p.closed = true → p.failed = true := ih hp (fun hm => hfin (mem_append_left _ hm))
    obtain ⟨head, body, tail, hs⟩ := exists_shape accepted log hp
    obtain hf | hf := next_closed hold hnext hc
    · exact hf
    · exact absurd (mem_append_left _ (hs.mem_finish hf)) hfin

/-- **The language of the automaton**, for logs that do not stop between an error and its close. -/
theorem grammar {accepted : Bool} {log : List ClientEvent} {p : Phase}
    (h : Phase.after { opened := accepted } log = some p) (hp : p.failed → p.closed) : Grammar accepted log := by
  obtain ⟨head, body, tail, hs⟩ := exists_shape accepted log h
  refine ⟨head, body, tail, hs.split, ?_, hs.ordinary, ?_, ?_, ?_, hs.quiet, ?_⟩
  · rw [hs.headed]
    split
    · next hc => exact .inr ⟨by simp_all, rfl⟩
    · exact .inl rfl
  · intro hb hacc
    have hop : p.opened = true := by
      cases hop : p.opened with
      | true => rfl
      | false => exact absurd (hs.needs hop) hb
    rw [hs.headed, hop, hacc]; rfl
  · rw [hs.finishes]
    split <;> omega
  · rw [hs.ends]
    split <;> omega
  · rw [hs.closes]
    cases hf : p.failed with
    | true => rw [hp hf]; exact .inr (.inr rfl)
    | false => cases p.closed <;> simp

/-! ## What a connection keeps -/

/-- The flags of a connection tell the phase of its log. -/
structure Speaks (accepted : Bool) (c : ClientConnection) (p : Phase) : Prop where
  log : Phase.after { opened := accepted } c.pushed = some p
  opened : p.opened = c.connected
  finished : p.finished = c.finishEmitted
  ended : p.ended = c.peerEnded
  live : c.closing = false → p.isOver = false
  settled : p.failed → p.closed
  connecting : c.connecting → c.connected = false
  reached : c.connecting = false → c.closing = false → c.connected = true

/-- The buffers of a connection against its history. -/
structure Account (c : ClientConnection) : Prop where
  queue : c.pushed = c.taken ++ c.events
  bound : c.outSent ≤ c.outBuffer.length
  out : c.written = c.sent ++ c.outBuffer.drop c.outSent
  flushed : c.finishEmitted → c.endRequested = true ∧ c.outBuffer.length ≤ c.outSent
  chunks : (c.read ++ c.chunks).flatten = c.received
  counted : c.pushed.count .data = (c.read ++ c.chunks).length

structure Sound (accepted : Bool) (c : ClientConnection) : Prop where
  speaks : ∃ p, Speaks accepted c p
  account : Account c

open ClientConnection

namespace Account

variable {c : ClientConnection}

theorem readChunk_data (h : Account c) {es : List ClientEvent} (he : c.events = .data :: es)
    (hread : c.read.length = c.taken.count .data) : ∃ b bs, c.chunks = b :: bs ∧ c.nextEvent.readChunk =
      { c with events := es, taken := c.taken ++ [.data], chunks := bs, read := c.read ++ [b] } ∧
      c.nextEvent.chunks.headD [] = b := by
  obtain ⟨b, bs, hb⟩ : ∃ b bs, c.chunks = b :: bs := by
    refine exists_cons_of_ne_nil (fun hnil => ?_)
    have hcount := h.counted
    rw [h.queue, he, hnil, append_nil, count_append, count_cons_self] at hcount; omega
  refine ⟨b, bs, hb, ?_, ?_⟩ <;> simp [ClientConnection.nextEvent, ClientConnection.readChunk, he, hb]

theorem push (h : Account c) {e : ClientEvent} (he : e ≠ .data) : Account (c.push e) where
  queue := by simp [ClientConnection.push, h.queue]
  bound := h.bound
  out := h.out
  flushed := h.flushed
  chunks := h.chunks
  counted := by
    have := h.counted; simp only [ClientConnection.push, count_append]; rw [count_singleton]; simpa [he] using this

theorem receive (h : Account c) (b : Bytes) : Account (c.receive b) where
  queue := by simp [ClientConnection.receive, ClientConnection.push, h.queue]
  bound := h.bound
  out := h.out
  flushed := h.flushed
  chunks := by
    have := h.chunks; simp only [ClientConnection.receive, ClientConnection.push]; rw [← this]; simp
  counted := by
    have := h.counted
    simp only [ClientConnection.receive, ClientConnection.push, count_append, length_append] at this ⊢
    simp
    omega

theorem accept (h : Account c) {n : Nat} (hn : c.outSent + n ≤ c.outBuffer.length) : Account (c.accept n) where
  queue := h.queue
  bound := hn
  out := by
    have := h.out; simp only [ClientConnection.accept]; rw [this, append_assoc, ← drop_drop, take_append_drop]
  flushed hf := by obtain ⟨hr, hl⟩ := h.flushed hf; exact ⟨hr, Nat.le_trans hl (Nat.le_add_right _ _)⟩
  chunks := h.chunks
  counted := h.counted

theorem clear (h : Account c) (hs : c.outBuffer.length ≤ c.outSent) :
    Account { c with outBuffer := [], outSent := 0 } where
  queue := h.queue
  bound := Nat.le_refl _
  out := by
    have := h.out; rw [drop_eq_nil_of_le hs] at this; simpa using this
  flushed hf := ⟨(h.flushed hf).1, Nat.le_refl _⟩
  chunks := h.chunks
  counted := h.counted

end Account

namespace Sound

variable {accepted : Bool} {c c' : ClientConnection}

theorem speaks_push {p q : Phase} {e : ClientEvent} (h : Speaks accepted c p) (hq : p.next e = some q) :
    Phase.after { opened := accepted } (c.pushed ++ [e]) = some q := by
  rw [← hq]; exact after_snoc e h.log

section

variable (h : Sound accepted c)
include h

theorem fail (error : Nat) (syscall : Syscall) : Sound accepted (c.fail error syscall) := by
  unfold ClientConnection.fail
  split
  · exact h
  · next hc =>
    obtain ⟨⟨p, hp⟩, ha⟩ := h
    have hover := hp.live (by simpa using hc)
    simp only [isOver, Bool.or_eq_false_iff] at hover
    have h1 : p.next .error = some { p with failed := true } := by simp [Phase.next, isOver, hover]
    have h2 : Phase.next { p with failed := true } .close = some { p with failed := true, closed := true } := by
      simp [Phase.next, hover]
    refine ⟨⟨{ p with failed := true, closed := true }, ?_, hp.opened, hp.finished, hp.ended, ?_, fun _ => rfl, ?_, ?_⟩,
      ?_⟩
    · have := speaks_push hp h1; exact (after_snoc .close this).trans h2
    · intro hcl; cases hcl
    · exact hp.connecting
    · intro _ hcl; cases hcl
    · have hb : Account { c with errorNumber := error, errorSyscall := some syscall } := ⟨ha.1, ha.2, ha.3, ha.4, ha.5, ha.6⟩
      have hd := (hb.push (e := .error) (by decide)).push (e := .close) (by decide)
      exact ⟨hd.1, hd.2, hd.3, hd.4, hd.5, hd.6⟩

section

variable (hc : c.closing = false)
include hc

theorem close (hf : c.finishEmitted = true) (hp : c.peerEnded = true) :
    Sound accepted { c.push .close with closing := true } := by
  obtain ⟨⟨p, hs⟩, ha⟩ := h
  have hover := hs.live hc
  simp only [isOver, Bool.or_eq_false_iff] at hover
  have hn : p.next .close = some { p with closed := true } := by
    simp [Phase.next, hover, hs.finished, hs.ended, hf, hp]
  have hb := ha.push (e := .close) (by decide)
  have hlog := speaks_push hs hn
  exact ⟨⟨{ p with closed := true }, hlog, hs.opened, hs.finished, hs.ended, by simp, fun _ => rfl,
    hs.connecting, by simp⟩, ⟨hb.1, hb.2, hb.3, hb.4, hb.5, hb.6⟩⟩

theorem finishWriteSideIfReady : Sound accepted c.finishWriteSideIfReady := by
  unfold ClientConnection.finishWriteSideIfReady
  split
  · exact h
  · next hg =>
    simp only [Bool.or_eq_true, Bool.not_eq_true', decide_eq_true_eq, not_or, Bool.not_eq_false, Nat.not_lt,
      Bool.not_eq_true] at hg
    obtain ⟨⟨⟨hconn, hreq⟩, hfin⟩, hsent⟩ := hg
    have hpushed : Sound accepted (({ c with finishEmitted := true }).push .finish) := by
      obtain ⟨⟨p, hs⟩, ha⟩ := h
      have hover := hs.live hc
      have hn : p.next .finish = some { p with finished := true } := by
        simp [Phase.next, hover, hs.opened, hs.finished, hconn, hfin]
      have hb := ha.push (e := .finish) (by decide)
      have hlog := speaks_push hs hn
      exact ⟨⟨{ p with finished := true }, hlog, hs.opened, rfl, hs.ended, hs.live, hs.settled,
        hs.connecting, hs.reached⟩, ⟨hb.1, hb.2, hb.3, fun _ => ⟨hreq, hsent⟩, hb.5, hb.6⟩⟩
    dsimp only
    split
    · next hp => exact hpushed.close hc rfl hp
    · exact hpushed

theorem completeConnect (hcon : c.connecting = true) (error : Nat) : Sound accepted (c.completeConnect error) := by
  unfold ClientConnection.completeConnect
  dsimp only
  generalize (if c.initialError = 0 then error else c.initialError) = n
  split
  · have hfail : ({ c with connecting := false }).fail n .connect = { c.fail n .connect with connecting := false } := by
      simp [ClientConnection.fail, ClientConnection.push, hc]
    have hclosing : (c.fail n .connect).closing = true := by simp [ClientConnection.fail, hc]
    obtain ⟨⟨p, hs⟩, ha⟩ := h.fail n .connect
    rw [hfail]
    refine ⟨⟨p, hs.1, hs.2, hs.3, hs.4, hs.5, hs.6, by simp, ?_⟩, ⟨ha.1, ha.2, ha.3, ha.4, ha.5, ha.6⟩⟩
    intro _ hcl; rw [hclosing] at hcl; cases hcl
  · refine finishWriteSideIfReady ?_ hc
    obtain ⟨⟨p, hs⟩, ha⟩ := h
    have hn : p.next .connect = some { p with opened := true } := by
      simp [Phase.next, hs.live hc, hs.opened, hs.connecting hcon]
    have hb := ha.push (e := .connect) (by decide)
    have hlog := speaks_push hs hn
    exact ⟨⟨{ p with opened := true }, hlog, rfl, hs.finished, hs.ended, hs.live, hs.settled,
      by simp [ClientConnection.push], fun _ _ => rfl⟩, ⟨hb.1, hb.2, hb.3, hb.4, hb.5, hb.6⟩⟩

theorem drain (hconn : c.connected = true) : Sound accepted (c.push .drain) := by
  obtain ⟨⟨p, hs⟩, ha⟩ := h
  have hn : p.next .drain = some p := by simp [Phase.next, hs.live hc, hs.opened, hconn]
  have hlog := speaks_push hs hn
  exact ⟨⟨p, hlog, hs.2, hs.3, hs.4, hs.5, hs.6, hs.7, hs.8⟩, ha.push (by decide)⟩

theorem flushed (hconn : c.connected = true)
    (hs : c.outBuffer.length ≤ c.outSent) : Sound accepted c.flushed := by
  have clear : ∀ {d : ClientConnection}, Sound accepted d → d.outBuffer.length ≤ d.outSent →
      Sound accepted { d with outBuffer := [], outSent := 0 } := by
    rintro d ⟨⟨p, hp⟩, ha⟩ hd
    exact ⟨⟨p, hp.1, hp.2, hp.3, hp.4, hp.5, hp.6, hp.7, hp.8⟩, ha.clear hd⟩
  unfold ClientConnection.flushed
  split
  · exact (clear h hs).finishWriteSideIfReady hc
  · exact (clear (h.drain hc hconn) hs).finishWriteSideIfReady hc

end

end

theorem accept (h : Sound accepted c) {n : Nat} (hn : c.outSent + n ≤ c.outBuffer.length) :
    Sound accepted (c.accept n) := by
  obtain ⟨⟨p, hs⟩, ha⟩ := h
  exact ⟨⟨p, hs.1, hs.2, hs.3, hs.4, hs.5, hs.6, hs.7, hs.8⟩, ha.accept hn⟩

theorem flushWrites {rs : List SendResult} {ok : Bool} (h : Sound accepted c) (hc : c.closing = false) (hconn : c.connected = true) :
    c.flushWrites rs = some (c', ok) → Sound accepted c' :=
  ClientConnection.flushWrites_rule (fun c => Sound accepted c ∧ c.closing = false ∧ c.connected = true) (Sound accepted) And.left
    (fun _ h => h.1.fail _ _) (fun h => h.1.flushed h.2.1 h.2.2) (fun h hn => ⟨h.1.accept hn, h.2⟩) ⟨h, hc, hconn⟩

theorem closeFromPeer (h : Sound accepted c) (hconn : c.connected = true) : Sound accepted c.closeFromPeer := by
  unfold ClientConnection.closeFromPeer
  split
  · exact h
  · next hg =>
    simp only [Bool.or_eq_true, not_or, Bool.not_eq_true] at hg
    obtain ⟨hc, hend⟩ := hg
    have hpushed : Sound accepted (({ c with peerEnded := true }).push .ended) := by
      obtain ⟨⟨p, hs⟩, ha⟩ := h
      have hn : p.next .ended = some { p with ended := true } := by
        simp [Phase.next, hs.live hc, hs.opened, hs.ended, hconn, hend]
      have hb := ha.push (e := .ended) (by decide)
      have hlog := speaks_push hs hn
      exact ⟨⟨{ p with ended := true }, hlog, hs.opened, hs.finished, rfl, hs.live, hs.settled,
        hs.connecting, hs.reached⟩, ⟨hb.1, hb.2, hb.3, hb.4, hb.5, hb.6⟩⟩
    dsimp only
    split
    · next hf => exact hpushed.close hc hf rfl
    · exact hpushed

theorem receive (h : Sound accepted c) (hc : c.closing = false) (hconn : c.connected = true)
    (hend : c.peerEnded = false) (b : Bytes) : Sound accepted (c.receive b) := by
  obtain ⟨⟨p, hs⟩, ha⟩ := h
  have hn : p.next .data = some p := by simp [Phase.next, hs.live hc, hs.opened, hs.ended, hconn, hend]
  have hlog := speaks_push hs hn
  exact ⟨⟨p, hlog, hs.2, hs.3, hs.4, hs.5, hs.6, hs.7, hs.8⟩, ha.receive b⟩

theorem readAvailable {rs : List RecvResult} (h : Sound accepted c) (hc : c.closing = false) (hconn : c.connected = true)
    (hend : c.peerEnded = false) : c.readAvailable rs = some c' → Sound accepted c' :=
  ClientConnection.readAvailable_rule
    (fun c => Sound accepted c ∧ c.closing = false ∧ c.connected = true ∧ c.peerEnded = false) (Sound accepted) And.left
    (fun _ h => h.1.fail _ _) (fun h => h.1.closeFromPeer h.2.2.1) (fun b h => ⟨h.1.receive h.2.1 h.2.2.1 h.2.2.2 b, h.2⟩)
    ⟨h, hc, hconn, hend⟩

end Sound

/-! ## Steps -/

namespace ClientConnection

variable (c : ClientConnection)

/-- `c'` has come from `c` without the peer's end or the connect phase being touched. -/
def Keeps (c' : ClientConnection) : Prop := c'.peerEnded = c.peerEnded ∧ c'.connecting = c.connecting

theorem keeps_fail (error : Nat) (syscall : Syscall) : c.Keeps (c.fail error syscall) := by
  unfold fail
  split <;> exact ⟨rfl, rfl⟩

theorem keeps_finishWriteSideIfReady : c.Keeps c.finishWriteSideIfReady := by
  unfold finishWriteSideIfReady
  dsimp only
  split
  · exact ⟨rfl, rfl⟩
  · split <;> exact ⟨rfl, rfl⟩

theorem keeps_flushed : c.Keeps c.flushed := by
  unfold flushed
  split <;> exact keeps_finishWriteSideIfReady _

theorem Keeps.trans {c d e : ClientConnection} (h : c.Keeps d) (h' : d.Keeps e) : c.Keeps e := ⟨h'.1.trans h.1, h'.2.trans h.2⟩

theorem keeps_flushWrites {rs : List SendResult} {c c' : ClientConnection} {ok : Bool} :
    c.flushWrites rs = some (c', ok) → c.Keeps c' :=
  flushWrites_rule c.Keeps c.Keeps id (fun _ h => h.trans (keeps_fail _ _ _)) (fun h _ => h.trans (keeps_flushed _)) (fun h _ => h)
    ⟨rfl, rfl⟩

theorem completeConnect_frame (error : Nat) :
    (c.completeConnect error).peerEnded = c.peerEnded ∧ (c.completeConnect error).connecting = false := by
  unfold completeConnect
  dsimp only
  generalize (if c.initialError = 0 then error else c.initialError) = n
  split
  · exact keeps_fail { c with connecting := false } n .connect
  · exact keeps_finishWriteSideIfReady _

theorem closeFromPeer_connecting : c.closeFromPeer.connecting = c.connecting := by
  unfold closeFromPeer
  dsimp only
  split
  · rfl
  · split <;> rfl

theorem readAvailable_connecting {rs : List RecvResult} {c c' : ClientConnection} :
    c.readAvailable rs = some c' → c'.connecting = c.connecting :=
  readAvailable_rule (·.connecting = c.connecting) (·.connecting = c.connecting) id (fun _ h => (keeps_fail _ _ _).2.trans h)
    (closeFromPeer_connecting _).trans (fun _ h => h) rfl

end ClientConnection

namespace Sound

variable {accepted : Bool} {c c' : ClientConnection}

section

variable (h : Sound accepted c)
include h

theorem of_eq {notify paused referenced loopClosed : Bool} {soon callbacks : Nat} :
    Sound accepted { c with notify, paused, referenced, loopClosed, soon, callbacks } := by
  obtain ⟨⟨p, hs⟩, ha⟩ := h
  exact ⟨⟨p, hs.1, hs.2, hs.3, hs.4, hs.5, hs.6, hs.7, hs.8⟩, ⟨ha.1, ha.2, ha.3, ha.4, ha.5, ha.6⟩⟩

theorem notifySoon : Sound accepted c.notifySoon := by
  unfold ClientConnection.notifySoon
  split
  · exact h.of_eq
  · exact h

theorem reached (hcon : c.connecting = false) (hc : c.closing = false) : c.connected = true := by
  obtain ⟨⟨p, hs⟩, -⟩ := h; exact hs.reached hcon hc

theorem peerEnded_of_mem (hm : .ended ∈ c.pushed) : c.peerEnded = true := by
  obtain ⟨⟨p, hs⟩, -⟩ := h
  obtain ⟨head, body, tail, hshape⟩ := exists_shape accepted c.pushed hs.log
  rw [← hs.ended]; exact hshape.ended_of_mem hm

/-- An accepted connection, or one that has told of its `connect`, is past the connect phase. -/
theorem not_connecting (hm : accepted = true ∨ .connect ∈ c.pushed) : c.connecting = false := by
  obtain ⟨⟨p, hs⟩, -⟩ := h
  obtain ⟨head, body, tail, hshape⟩ := exists_shape accepted c.pushed hs.log
  have hopened : c.connected = true := by rw [← hs.opened]; exact hm.elim hshape.opened hshape.opened_of_mem
  cases hcon : c.connecting with
  | false => rfl
  | true => exact absurd ((hs.connecting hcon).symm.trans hopened) (by decide)

theorem sendReady {r : Revents} {sends : List SendResult}
    (hs : c.sendReady r sends = some c') : Sound accepted c' ∧ c.Keeps c' := by
  unfold ClientConnection.sendReady at hs
  split at hs
  · next hg =>
    simp only [Bool.and_eq_true, Bool.not_eq_true'] at hg
    obtain ⟨⟨d, ok⟩, hd, rfl⟩ := map_eq_some_iff.1 hs
    exact ⟨h.flushWrites hg.1.1 hg.1.2 hd, ClientConnection.keeps_flushWrites hd⟩
  · cases hs; exact ⟨h, rfl, rfl⟩

theorem recvReady {r : Revents} {recvs : List RecvResult}
    (hin : r.pollIn = true → c.peerEnded = false) (hr : c.recvReady r recvs = some c') :
    Sound accepted c' ∧ c'.connecting = c.connecting := by
  unfold ClientConnection.recvReady at hr
  split at hr
  · next hg =>
    simp only [Bool.and_eq_true, Bool.not_eq_true'] at hg
    exact ⟨h.readAvailable hg.1.1 hg.1.2 (hin hg.2) hr, ClientConnection.readAvailable_connecting hr⟩
  · cases hr; exact ⟨h, rfl⟩

theorem hangUp (hcon : c.connecting = false) (r : Revents) (a : Answers) : Sound accepted (c.hangUp r a) := by
  unfold ClientConnection.hangUp
  split
  · exact h.fail _ _
  · split
    · next hg =>
      simp only [Bool.and_eq_true, Bool.not_eq_true'] at hg; exact h.closeFromPeer (h.reached hcon hg.1)
    · exact h

theorem deliver : Sound accepted c.deliver := by
  unfold ClientConnection.deliver
  split
  · exact h.of_eq
  · split
    · exact h.of_eq
    · exact h

/-- A readiness pass: the connect phase, sending, receiving, the error bits. It does not read on after the peer's end. -/
theorem onReady_of_open {r : Revents} {a : Answers} (hin : r.pollIn = true → c.peerEnded = false)
    (hr : c.onReady r a = some c') : Sound accepted c' := by
  unfold onReady at hr
  split at hr
  · cases hr; exact h
  next hc =>
  simp only [Bool.not_eq_true] at hc
  have hconnect : ∃ d, Sound accepted d ∧ d.connecting = false ∧ d.peerEnded = c.peerEnded ∧
      (if c.connecting then c.completeConnect a.connectError else c) = d := by
    split
    · next hcon => exact ⟨_, h.completeConnect hc hcon _, (c.completeConnect_frame _).2, (c.completeConnect_frame _).1, rfl⟩
    · next hcon => exact ⟨c, h, by simpa using hcon, rfl, rfl⟩
  obtain ⟨d, hd, hdcon, hdend, heq⟩ := hconnect
  rw [heq] at hr
  obtain ⟨e, he, hr⟩ := bind_eq_some_iff.1 hr
  obtain ⟨f, hf, rfl⟩ := map_eq_some_iff.1 hr
  obtain ⟨hes, hekeep⟩ := hd.sendReady he
  obtain ⟨hfs, hfcon⟩ := hes.recvReady (fun hp => by rw [hekeep.1, hdend, hin hp]) hf
  exact (hfs.hangUp (by rw [hfcon, hekeep.2, hdcon]) r a).deliver

theorem onReady {r : Revents} {a : Answers} (hint : c.interestedEvents r = true)
    (hr : c.onReady r a = some c') : Sound accepted c' := by
  refine h.onReady_of_open (fun hp => ?_) hr
  simp only [interestedEvents, Bool.and_eq_true] at hint
  have := hint.1
  simp only [hp, interestedIn, Bool.not_true, Bool.false_or, Bool.and_eq_true, Bool.not_eq_true',
    Bool.or_eq_false_iff] at this
  exact this.2.2

theorem write {data : Bytes} {sends : List SendResult} (hw : c.write data sends = some c') : Sound accepted c' := by
  unfold ClientConnection.write at hw
  split at hw
  · cases hw; exact h
  next hg =>
  simp only [Bool.or_eq_true, not_or, Bool.not_eq_true] at hg
  obtain ⟨hc, hreq⟩ := hg
  have hadd : Sound accepted { c with outBuffer := c.outBuffer ++ data, written := c.written ++ data } := by
    obtain ⟨⟨p, hs⟩, ha⟩ := h
    refine ⟨⟨p, hs.1, hs.2, hs.3, hs.4, hs.5, hs.6, hs.7, hs.8⟩, ha.queue, ?_, ?_, ?_, ha.chunks, ha.counted⟩
    · have := ha.bound; simp only [length_append]; omega
    · simp only; rw [ha.out, drop_append_of_le_length ha.bound, append_assoc]
    · intro hf; rw [(ha.flushed hf).1] at hreq; cases hreq
  dsimp only at hw
  split at hw
  · next hconn =>
    obtain ⟨⟨d, ok⟩, hd, rfl⟩ := map_eq_some_iff.1 hw
    have hds := hadd.flushWrites hc hconn hd
    split
    · split
      · exact hds.notifySoon.of_eq
      · exact hds.notifySoon
    · split
      · exact hds.notifySoon
      · exact hds
  · cases hw; exact hadd

theorem endWrites : Sound accepted c.endWrites := by
  unfold ClientConnection.endWrites
  split
  · exact h
  next hg =>
  simp only [Bool.or_eq_true, not_or, Bool.not_eq_true] at hg
  have hreq : Sound accepted { c with endRequested := true } := by
    obtain ⟨⟨p, hs⟩, ha⟩ := h
    exact ⟨⟨p, hs.1, hs.2, hs.3, hs.4, hs.5, hs.6, hs.7, hs.8⟩, ha.1, ha.2, ha.3, fun hf => ⟨rfl, (ha.flushed hf).2⟩, ha.5,
      ha.6⟩
  have hfin := hreq.finishWriteSideIfReady hg.1
  dsimp only
  split
  · exact hfin.notifySoon
  · exact hfin

end

theorem destroy (h : Sound accepted c) : Sound accepted c.destroy := by
  unfold ClientConnection.destroy
  split
  · exact h
  · obtain ⟨⟨p, hs⟩, ha⟩ := h
    refine ⟨⟨p, hs.1, hs.2, hs.3, hs.4, ?_, hs.6, hs.7, ?_⟩, ⟨ha.1, ha.2, ha.3, ha.4, ha.5, ha.6⟩⟩
    · intro hc; cases hc
    · intro _ hc; cases hc

section

variable (h : Sound accepted c)
include h

theorem setNotify : Sound accepted c.setNotify := by
  have hset : Sound accepted { c with notify := true } := h.of_eq
  unfold ClientConnection.setNotify
  dsimp only
  split
  · exact hset.notifySoon
  · exact hset

theorem nextEvent : Sound accepted c.nextEvent := by
  obtain ⟨⟨p, hs⟩, ha⟩ := h
  have hq := ha.queue
  unfold ClientConnection.nextEvent
  split
  · exact ⟨⟨p, hs⟩, ha⟩
  · next e es he =>
    rw [he] at hq; exact ⟨⟨p, hs.1, hs.2, hs.3, hs.4, hs.5, hs.6, hs.7, hs.8⟩, by simp [hq], ha.2, ha.3, ha.4, ha.5, ha.6⟩

theorem readChunk : Sound accepted c.readChunk := by
  obtain ⟨⟨p, hs⟩, ha⟩ := h
  have hc := ha.chunks
  have hn := ha.counted
  unfold ClientConnection.readChunk
  split
  · exact ⟨⟨p, hs⟩, ha⟩
  · next b bs hb =>
    rw [hb] at hc hn
    exact ⟨⟨p, hs.1, hs.2, hs.3, hs.4, hs.5, hs.6, hs.7, hs.8⟩, ha.1, ha.2, ha.3, ha.4, by simpa using hc,
      by simpa using hn⟩

theorem step {l : Label} (hs : step c l = some c') : Sound accepted c' := by
  cases l with
  | ready r a =>
    simp only [Net.step] at hs
    split at hs
    · next hint => exact h.onReady hint hs
    · cases hs
  | notified =>
    simp only [Net.step, notified] at hs
    split at hs
    · cases hs
      split <;> exact h.of_eq
    · cases hs
  | microtask =>
    simp only [Net.step] at hs
    split at hs
    · cases hs; exact h.of_eq
    · cases hs
  | nextEvent => cases hs; exact h.nextEvent
  | readChunk =>
    simp only [Net.step] at hs
    split at hs
    · cases hs; exact h.readChunk
    · cases hs
  | write data sends => exact h.write hs
  | endWrites => cases hs; exact h.endWrites
  | destroy => cases hs; exact h.destroy
  | setPaused paused | setReferenced referenced => cases hs; exact h.of_eq
  | setNotify => cases hs; exact h.setNotify

end

theorem create (notify : Bool) (initialError : Nat) (accepted : Bool) :
    Sound accepted (ClientConnection.create notify initialError accepted) where
  speaks := ⟨{ opened := accepted }, rfl, rfl, rfl, rfl, fun _ => rfl, by simp, by simp [ClientConnection.create],
    by simp [ClientConnection.create]⟩
  account := ⟨rfl, Nat.le_refl _, rfl, by simp [ClientConnection.create], rfl, rfl⟩

end Sound

/-! ## Runs -/

/-- What a consumer can rely on. -/
structure Conforms (accepted : Bool) (c : ClientConnection) : Prop where
  grammar : Grammar accepted c.pushed
  queue : c.pushed = c.taken ++ c.events
  sent : c.sent <+: c.written
  finished : .finish ∈ c.pushed → c.sent = c.written
  chunks : (c.read ++ c.chunks).flatten = c.received
  counted : c.pushed.count .data = (c.read ++ c.chunks).length

theorem Sound.conforms {accepted : Bool} {c : ClientConnection} (h : Sound accepted c) : Conforms accepted c := by
  obtain ⟨⟨p, hs⟩, ha⟩ := h
  refine ⟨Net.grammar hs.log hs.settled, ha.queue, ?_, ?_, ha.chunks, ha.counted⟩
  · rw [ha.out]; exact prefix_append _ _
  · intro hf
    obtain ⟨head, body, tail, hshape⟩ := exists_shape accepted c.pushed hs.log
    have hfin := hshape.finished_of_mem hf
    rw [hs.finished] at hfin; rw [ha.out, drop_eq_nil_of_le (ha.flushed hfin).2, append_nil]

theorem step_closing {c c' : ClientConnection} {l : Label} (hc : c.closing = true) (hs : step c l = some c') :
    c'.closing = true ∧ c'.pushed = c.pushed := by
  cases l with
  | ready r a =>
    simp only [step, onReady, hc, if_true] at hs
    split at hs <;> cases hs
    exact ⟨hc, rfl⟩
  | notified =>
    simp only [step, notified, hc, if_true] at hs
    split at hs <;> cases hs
    exact ⟨rfl, rfl⟩
  | microtask =>
    simp only [step] at hs
    split at hs <;> cases hs
    exact ⟨hc, rfl⟩
  | nextEvent =>
    cases hs
    unfold nextEvent
    split <;> exact ⟨hc, rfl⟩
  | readChunk =>
    simp only [step, readChunk] at hs
    split at hs <;> cases hs
    split <;> exact ⟨hc, rfl⟩
  | write data sends =>
    simp only [step, write, hc, Bool.true_or, if_true] at hs
    cases hs; exact ⟨hc, rfl⟩
  | endWrites =>
    simp only [step, endWrites, hc, Bool.true_or, if_true] at hs
    cases hs; exact ⟨hc, rfl⟩
  | destroy =>
    simp only [step, destroy, hc, if_true] at hs
    cases hs; exact ⟨hc, rfl⟩
  | setPaused paused | setReferenced referenced => cases hs; exact ⟨hc, rfl⟩
  | setNotify =>
    cases hs
    unfold setNotify notifySoon
    dsimp only
    split <;> exact ⟨hc, rfl⟩

/-- **The event protocol of a connection**: in every state a run reaches, and nothing is pushed after a `destroy`. -/
theorem event_protocol (notify : Bool) (initialError : Nat) (accepted : Bool) {as : List Label} {c : ClientConnection}
    (h : Run step (fun _ _ => True) (ClientConnection.create notify initialError accepted) as c) :
    Conforms accepted c ∧
      ∀ {bs : List Label} {d e : ClientConnection}, step c .destroy = some d → Run step (fun _ _ => True) d bs e →
        e.pushed = c.pushed := by
  constructor
  · have hsound : Sound accepted c :=
      h.invariant (fun _ _ _ hs _ hst => hs.step hst) (Sound.create notify initialError accepted)
    exact hsound.conforms
  · intro bs d e hd hr
    have hdc : d.closing = true ∧ d.pushed = c.pushed := by
      cases hd
      unfold destroy
      split
      · next hc => exact ⟨hc, rfl⟩
      · exact ⟨rfl, rfl⟩
    have hinv : e.closing = true ∧ e.pushed = c.pushed := by
      refine hr.invariant (I := fun x => x.closing = true ∧ x.pushed = c.pushed) ?_ hdc
      intro x l y hx _ hst
      obtain ⟨hy, hp⟩ := step_closing hx.1 hst; exact ⟨hy, hp.trans hx.2⟩
    exact hinv.2

/-- A connection that sends a request in two pieces, half-closes, and reads the answer and the end of it. -/
def exchange : List Label :=
  [.write [71, 69, 84] [], .ready { pollOut := true } { sends := [.count 2, .eintr, .eagain] }, .nextEvent,
    .notified, .endWrites, .ready { pollOut := true } { sends := [.count 1] }, .nextEvent, .nextEvent, .notified,
    .ready { pollIn := true } { recvs := [.bytes [79, 75]] }, .nextEvent, .readChunk, .notified,
    .ready { pollIn := true } { recvs := [.eintr, .bytes []] }]

theorem event_protocol_exchange :
    ∃ c, Run step (fun _ _ => True) (ClientConnection.create true 0 false) exchange c ∧ Conforms false c ∧
      c.pushed = [.connect, .drain, .finish, .data, .ended, .close] ∧ c.sent = [71, 69, 84] ∧ c.received = [79, 75] := by
  obtain ⟨c, hc⟩ : ∃ c, runs step (create true 0 false) exchange = some c ∧
      c.pushed = [.connect, .drain, .finish, .data, .ended, .close] ∧ c.sent = [71, 69, 84] ∧
      c.received = [79, 75] := ⟨_, rfl, rfl, rfl, rfl⟩
  exact ⟨c, Run.of_runs hc.1, (event_protocol true 0 false (Run.of_runs hc.1)).1, hc.2⟩

end NodeCompat.Net
