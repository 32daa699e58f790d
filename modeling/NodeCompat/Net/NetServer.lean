import NodeCompat.Lib.Run
import Mathlib.Data.List.Count
import Mathlib.Data.List.Nodup

/-!
# TCP servers

`NetServerState` and its listener: the queues of events and of accepted connections, the count of connections, and the close
of the server. The connections themselves are held by the loop; each tells the server when it is destroyed. A `NetServer`
also keeps its history: the events pushed and delivered, the connections admitted and taken, and for each connection that
came in, the count and the limit it was decided on.

The count is the number of connections that are still there, and `close` comes when the server is closing and the last of
them is gone, whichever is later (`Books`, `server_books`).
-/

namespace NodeCompat.Net

open List

/-! ## The server -/

inductive NetServerEvent
  | listening
  | connection
  | error
  | close
  | drop
deriving DecidableEq

/-- What an `accept` call returns: a connection, `EINTR`, `EAGAIN`, or another error. -/
inductive AcceptResult
  | connection
  | interrupted
  | again
  | fail (errno : Nat)
deriving DecidableEq

/-- What was decided on a connection that came in, and on what. -/
structure Decision where
  connections : Nat
  maxConnections : Nat
  admitted : Bool
deriving DecidableEq

structure NetServer where
  events : List NetServerEvent := []
  accepted : List Nat := []
  error : Nat := 0
  connections : Nat := 0
  maxConnections : Nat := 0
  listening : Bool := false
  closing : Bool := false
  closeEmitted : Bool := false
  /-- Whether the listener is still there. -/
  listener : Bool := false
  /-- The accepted connections that are not destroyed. -/
  live : List Nat := []
  /-- The last id given to a connection, accepted or not. -/
  lastId : Nat := 0
  pushed : List NetServerEvent := []
  delivered : List NetServerEvent := []
  admitted : List Nat := []
  taken : List Nat := []
  decisions : List Decision := []
deriving DecidableEq

/-- `EIO` -/
def EIO : Nat := 5

namespace NetServer

def push (s : NetServer) (e : NetServerEvent) : NetServer := { s with events := s.events ++ [e], pushed := s.pushed ++ [e] }

def maybeEmitClose (s : NetServer) : NetServer :=
  if !s.closing || s.connections != 0 || s.closeEmitted then s else { s with closeEmitted := true }.push .close

def connectionClosed (s : NetServer) : NetServer :=
  { s with connections := if s.connections > 0 then s.connections - 1 else s.connections }.maybeEmitClose

/-- The destructor of a connection. -/
def destroyed (s : NetServer) (id : Nat) : NetServer := { s with live := s.live.erase id }.connectionClosed

/-- `NetServerListener::stop` -/
def stop (s : NetServer) : NetServer := { s with listener := false, listening := false, closing := true }.maybeEmitClose

/-- Whether a connection is refused. -/
def full (s : NetServer) : Bool := s.maxConnections != 0 && s.connections ≥ s.maxConnections

def refuse (s : NetServer) : NetServer :=
  ({ s with decisions := s.decisions ++ [⟨s.connections, s.maxConnections, false⟩] } : NetServer).push .drop

def letIn (s : NetServer) : NetServer := ({ s with
    decisions := s.decisions ++ [⟨s.connections, s.maxConnections, true⟩]
    connections := s.connections + 1
    lastId := s.lastId + 1
    live := s.live ++ [s.lastId + 1]
    accepted := s.accepted ++ [s.lastId + 1]
    admitted := s.admitted ++ [s.lastId + 1] } : NetServer).push .connection

/-- The loop of `acceptAvailable`; with no result left, the next one is `EAGAIN`. -/
def acceptAvailable (s : NetServer) : List AcceptResult → NetServer
  | [] => s
  | .interrupted :: rest => s.acceptAvailable rest
  | .again :: _ => s
  | .fail errno :: _ => { s with error := errno }.push .error
  | .connection :: rest => if s.full then s.refuse.acceptAvailable rest else s.letIn.acceptAvailable rest

/-- `onReady`: `socketError` is what the socket answers when one of the error bits is set. -/
def onReady (s : NetServer) (pollin : Bool) (accepts : List AcceptResult) (socketError : Option Nat) : NetServer :=
  if s.closing then s
  else
    let s := if pollin then s.acceptAvailable accepts else s
    match socketError with
    | none => s
    | some errno =>
      if s.closing then s else ({ s with error := if errno = 0 then EIO else errno }.push .error).stop

/-- `net_server_next_event` -/
def nextEvent (s : NetServer) : NetServer :=
  match s.events with
  | [] => s
  | e :: es => { s with events := es, delivered := s.delivered ++ [e] }

/-- `net_server_take_connection` -/
def takeConnection (s : NetServer) : NetServer :=
  match s.accepted with
  | [] => s
  | id :: ids => { s with accepted := ids, taken := s.taken ++ [id] }

/-- `net_server_close` -/
def close (s : NetServer) : NetServer :=
  if s.closing then s
  else if s.listener then s.stop
  else { s with listening := false, closing := true }.maybeEmitClose

def setMaxConnections (s : NetServer) (n : Nat) : NetServer := { s with maxConnections := n }

/-- A server that has just started to listen; `lastId` is the last id of another connection. -/
def listen (maxConnections lastId : Nat) : NetServer :=
  ({ maxConnections, lastId, listening := true, listener := true } : NetServer).push .listening

/-! ## Steps -/

/-- What happens to a server. -/
inductive Label
  | ready (pollin : Bool) (accepts : List AcceptResult) (socketError : Option Nat)
  | destroyed (id : Nat)
  | setMaxConnections (n : Nat)
  | close
  | nextEvent
  | takeConnection
  | listenerGone
  | otherId

/-- The listener is ready as long as the loop has it; a connection is destroyed once. -/
def step (s : NetServer) : Label → Option NetServer
  | .ready pollin accepts socketError => some (s.onReady pollin accepts socketError)
  | .destroyed id => if id ∈ s.live then some (s.destroyed id) else none
  | .setMaxConnections n => some (s.setMaxConnections n)
  | .close => some s.close
  | .nextEvent => some s.nextEvent
  | .takeConnection => some s.takeConnection
  | .listenerGone => some { s with listener := false }
  | .otherId => some { s with lastId := s.lastId + 1 }

/-! ## The books -/

/-- What the queues and the count say about the history. -/
structure Ledger (s : NetServer) : Prop where
  /-- The count is the number of connections that are still there. -/
  count : s.connections = s.live.length
  distinct : s.live.Nodup
  fresh : ∀ id ∈ s.live, id ≤ s.lastId
  /-- Events are delivered in the order they were pushed. -/
  events : s.pushed = s.delivered ++ s.events
  /-- Connections are taken in the order they were admitted. -/
  taken : s.admitted = s.taken ++ s.accepted
  /-- There is one connection event for each connection that was admitted. -/
  admitted : s.pushed.count .connection = s.admitted.length ∧ s.decisions.countP Decision.admitted = s.admitted.length
  /-- There is one drop event for each connection that was refused. -/
  refused : s.pushed.count .drop = s.decisions.countP (fun d => !d.admitted)
  /-- A connection is admitted when there is no limit or the count is below it, and refused otherwise. -/
  decided : ∀ d ∈ s.decisions, d.admitted = true ↔ d.maxConnections = 0 ∨ d.connections < d.maxConnections

/-- `close` is pushed when the server is closing and no connection is left, and nothing is pushed behind it. -/
def CloseLast (s : NetServer) : Prop :=
  s.closing = true ∧ s.connections = 0 ∧ ∃ before, s.pushed = before ++ [.close] ∧ .close ∉ before

structure Books (s : NetServer) : Prop extends s.Ledger where
  pending : s.closeEmitted = false → (s.closing = false ∨ s.connections ≠ 0) ∧ .close ∉ s.pushed
  closed : s.closeEmitted = true → s.CloseLast

variable {s : NetServer}

/-- `close` has been pushed if and only if the server is closing and has no connection. -/
theorem Books.emitted_iff (h : s.Books) : s.closeEmitted = true ↔ s.closing = true ∧ s.connections = 0 := by
  constructor
  · intro he; exact ⟨(h.closed he).1, (h.closed he).2.1⟩
  · rintro ⟨hc, hn⟩
    cases he : s.closeEmitted with
    | true => rfl
    | false =>
      rcases (h.pending he).1 with hc' | hn'
      · exact absurd (hc.symm.trans hc') (by decide)
      · exact absurd hn hn'

theorem Ledger.count_pos (h : s.Ledger) {id : Nat} (hid : id ∈ s.live) : 0 < s.connections := by
  rw [h.count]; exact length_pos_of_mem hid

theorem books_listen (maxConnections lastId : Nat) : (listen maxConnections lastId).Books where
  count := rfl
  distinct := nodup_nil
  fresh := by simp [listen, push]
  events := rfl
  taken := rfl
  admitted := ⟨rfl, rfl⟩
  refused := rfl
  decided := by simp [listen, push]
  pending := fun _ => ⟨.inl rfl, by simp [listen, push]⟩
  closed := nofun

theorem Ledger.push (h : s.Ledger) {e : NetServerEvent} (hc : e ≠ .connection) (hd : e ≠ .drop) : (s.push e).Ledger where
  count := h.count
  distinct := h.distinct
  fresh := h.fresh
  events := by show s.pushed ++ [e] = s.delivered ++ (s.events ++ [e]); rw [h.events, append_assoc]
  taken := h.taken
  admitted := by
    refine ⟨?_, h.admitted.2⟩
    show (s.pushed ++ [e]).count .connection = s.admitted.length
    rw [count_append, count_singleton, h.admitted.1]; simp [hc]
  refused := by
    show (s.pushed ++ [e]).count .drop = s.decisions.countP (fun d => !d.admitted)
    rw [count_append, count_singleton, h.refused]; simp [hd]
  decided := h.decided

/-- **`maybeEmitClose` settles the books**, whatever has just made the server closing or taken a connection from it. -/
theorem Ledger.maybeEmitClose (h : s.Ledger) (hp : s.closeEmitted = false → .close ∉ s.pushed)
    (hc : s.closeEmitted = true → s.CloseLast) : s.maybeEmitClose.Books := by
  unfold NetServer.maybeEmitClose
  split
  · next hg =>
    refine ⟨h, fun he => ⟨?_, hp he⟩, hc⟩
    rw [he, Bool.or_false, Bool.or_eq_true] at hg
    rcases hg with hg | hg
    · exact .inl (by simpa using hg)
    · exact .inr (by simpa using hg)
  · next hg =>
    simp only [Bool.or_eq_true, not_or, Bool.not_eq_true, Bool.not_eq_false', bne_eq_false_iff_eq] at hg
    obtain ⟨⟨hclosing, hzero⟩, he⟩ := hg
    have hl : ({ s with closeEmitted := true } : NetServer).Ledger :=
      ⟨h.count, h.distinct, h.fresh, h.events, h.taken, h.admitted, h.refused, h.decided⟩
    exact ⟨hl.push (by decide) (by decide), nofun, fun _ => ⟨hclosing, hzero, s.pushed, rfl, hp he⟩⟩

theorem Books.open (h : s.Books) (hn : s.closing = false) : s.closeEmitted = false ∧ .close ∉ s.pushed := by
  have he : s.closeEmitted = false := by
    cases he : s.closeEmitted with
    | false => rfl
    | true => exact absurd (hn.symm.trans (h.closed he).1) (by decide)
  exact ⟨he, (h.pending he).2⟩

theorem Books.closes (h : s.Books) (hn : s.closing = false) (listener : Bool) :
    ({ s with listener := listener, listening := false, closing := true } : NetServer).maybeEmitClose.Books := by
  have he := (h.open hn).1
  have hl : ({ s with listener := listener, listening := false, closing := true } : NetServer).Ledger :=
    ⟨h.count, h.distinct, h.fresh, h.events, h.taken, h.admitted, h.refused, h.decided⟩
  exact hl.maybeEmitClose (fun _ => (h.pending he).2) (fun he' => absurd (he.symm.trans he') (by decide))

theorem Books.destroyed (h : s.Books) {id : Nat} (hid : id ∈ s.live) : (s.destroyed id).Books := by
  have hpos := h.count_pos hid
  have he : s.closeEmitted = false := by
    cases he : s.closeEmitted with
    | false => rfl
    | true => have := (h.closed he).2.1; omega
  unfold NetServer.destroyed connectionClosed
  rw [if_pos hpos]
  have hl : ({ s with live := s.live.erase id, connections := s.connections - 1 } : NetServer).Ledger :=
    { count := by rw [length_erase_of_mem hid, h.count]
      distinct := h.distinct.erase id
      fresh := fun x hx => h.fresh x (mem_of_mem_erase hx)
      events := h.events
      taken := h.taken
      admitted := h.admitted
      refused := h.refused
      decided := h.decided }
  exact hl.maybeEmitClose (fun _ => (h.pending he).2) (fun he' => absurd (he.symm.trans he') (by decide))

theorem Ledger.books (h : s.Ledger) (hn : s.closing = false) (he : s.closeEmitted = false) (hp : .close ∉ s.pushed) : s.Books :=
  ⟨h, fun _ => ⟨.inl hn, hp⟩, fun he' => absurd (he.symm.trans he') (by decide)⟩

theorem Books.push_error (h : s.Books) (hn : s.closing = false) (errno : Nat) :
    ({ s with error := errno } : NetServer).push .error |>.Books := by
  obtain ⟨he, hp⟩ := h.open hn
  have hl : ({ s with error := errno } : NetServer).Ledger :=
    ⟨h.count, h.distinct, h.fresh, h.events, h.taken, h.admitted, h.refused, h.decided⟩
  refine (hl.push (by decide) (by decide)).books hn he ?_
  show NetServerEvent.close ∉ s.pushed ++ [.error]; simp [hp]

theorem Books.refuse (h : s.Books) (hn : s.closing = false) (hf : s.full = true) : s.refuse.Books := by
  obtain ⟨he, hp⟩ := h.open hn
  simp only [full, Bool.and_eq_true, bne_iff_ne, decide_eq_true_eq] at hf
  refine Ledger.books ?_ hn he (by show NetServerEvent.close ∉ s.pushed ++ [.drop]; simp [hp])
  constructor
  · exact h.count
  · exact h.distinct
  · exact h.fresh
  · show s.pushed ++ [.drop] = s.delivered ++ (s.events ++ [.drop]); rw [h.events, append_assoc]
  · exact h.taken
  · constructor
    · show (s.pushed ++ [NetServerEvent.drop]).count .connection = s.admitted.length; rw [count_append, h.admitted.1]; rfl
    · show (s.decisions ++ [_]).countP Decision.admitted = s.admitted.length; rw [countP_append, h.admitted.2]; rfl
  · show (s.pushed ++ [NetServerEvent.drop]).count .drop = (s.decisions ++ [_]).countP _
    rw [count_append, countP_append, h.refused]; rfl
  · intro d hd
    rcases mem_append.1 hd with hd | hd
    · exact h.decided d hd
    · rw [mem_singleton.1 hd]; simp only [Bool.false_eq_true, false_iff]; omega

theorem Books.letIn (h : s.Books) (hn : s.closing = false) (hf : s.full = false) : s.letIn.Books := by
  obtain ⟨he, hp⟩ := h.open hn
  have hroom : s.maxConnections = 0 ∨ s.connections < s.maxConnections := by
    simp only [full, Bool.and_eq_false_iff, bne_eq_false_iff_eq, decide_eq_false_iff_not, Nat.not_le] at hf; exact hf
  have hnew : s.lastId + 1 ∉ s.live := by
    intro hm
    have := h.fresh _ hm; omega
  refine Ledger.books ?_ hn he (by show NetServerEvent.close ∉ s.pushed ++ [.connection]; simp [hp])
  constructor
  · show s.connections + 1 = (s.live ++ [s.lastId + 1]).length; rw [length_append, h.count]; rfl
  · exact nodup_append.2 ⟨h.distinct, nodup_singleton _, by
      intro x hx y hy hxy
      rw [mem_singleton.1 hy] at hxy
      exact hnew (hxy ▸ hx)⟩
  · intro x hx
    show x ≤ s.lastId + 1
    rcases mem_append.1 hx with hx | hx
    · have := h.fresh x hx; omega
    · exact Nat.le_of_eq (mem_singleton.1 hx)
  · show s.pushed ++ [.connection] = s.delivered ++ (s.events ++ [.connection]); rw [h.events, append_assoc]
  · show s.admitted ++ [s.lastId + 1] = s.taken ++ (s.accepted ++ [s.lastId + 1]); rw [h.taken, append_assoc]
  · constructor
    · show (s.pushed ++ [NetServerEvent.connection]).count .connection = (s.admitted ++ [s.lastId + 1]).length
      rw [count_append, length_append, h.admitted.1]; rfl
    · show (s.decisions ++ [_]).countP Decision.admitted = (s.admitted ++ [s.lastId + 1]).length
      rw [countP_append, length_append, h.admitted.2]; rfl
  · show (s.pushed ++ [NetServerEvent.connection]).count .drop = (s.decisions ++ [_]).countP _
    rw [count_append, countP_append, h.refused]; rfl
  · intro d hd
    rcases mem_append.1 hd with hd | hd
    · exact h.decided d hd
    · rw [mem_singleton.1 hd]; simp only [true_iff]; exact hroom

/-- **A pass over the pending connections.** -/
theorem Books.acceptAvailable (accepts : List AcceptResult) (h : s.Books) (hn : s.closing = false) :
    (s.acceptAvailable accepts).Books ∧ (s.acceptAvailable accepts).closing = false := by
  induction accepts generalizing s with
  | nil => exact ⟨h, hn⟩
  | cons a rest ih =>
    cases a with
    | interrupted => exact ih h hn
    | again => exact ⟨h, hn⟩
    | fail errno => exact ⟨h.push_error hn errno, hn⟩
    | connection =>
      unfold NetServer.acceptAvailable
      split
      · next hf => exact ih (h.refuse hn hf) hn
      · next hf => exact ih (h.letIn hn (by simpa using hf)) hn

theorem Books.onReady (h : s.Books) (pollin : Bool) (accepts : List AcceptResult) (socketError : Option Nat) :
    (s.onReady pollin accepts socketError).Books := by
  unfold NetServer.onReady
  split
  · exact h
  · next hn =>
    have hn' : s.closing = false := by simpa using hn
    have hpass : (if pollin then s.acceptAvailable accepts else s).Books ∧
        (if pollin then s.acceptAvailable accepts else s).closing = false := by
      split
      · exact h.acceptAvailable accepts hn'
      · exact ⟨h, hn'⟩
    dsimp only
    generalize (if pollin then s.acceptAvailable accepts else s) = t at hpass
    split
    · exact hpass.1
    · split
      · exact hpass.1
      · exact (hpass.1.push_error hpass.2 _).closes hpass.2 false

/-- **Every step keeps the books.** -/
theorem Books.step {l : Label} {s' : NetServer} (h : s.Books) (hs : s.step l = some s') : s'.Books := by
  cases l with
  | ready pollin accepts socketError => cases hs; exact h.onReady pollin accepts socketError
  | destroyed id =>
    simp only [NetServer.step] at hs
    split at hs
    · next hid =>
      cases hs; exact h.destroyed hid
    · cases hs
  | setMaxConnections n | listenerGone =>
    cases hs; exact ⟨⟨h.count, h.distinct, h.fresh, h.events, h.taken, h.admitted, h.refused, h.decided⟩, h.pending, h.closed⟩
  | close =>
    cases hs
    unfold NetServer.close
    split
    · exact h
    · next hn =>
      have hn' : s.closing = false := by simpa using hn
      split
      · exact h.closes hn' false
      · exact h.closes hn' s.listener
  | nextEvent =>
    cases hs
    unfold NetServer.nextEvent
    split
    · exact h
    · next e es he =>
      refine ⟨⟨h.count, h.distinct, h.fresh, ?_, h.taken, h.admitted, h.refused, h.decided⟩, h.pending, h.closed⟩
      rw [h.events, he, append_assoc]; rfl
  | takeConnection =>
    cases hs
    unfold NetServer.takeConnection
    split
    · exact h
    · next id ids ha =>
      refine ⟨⟨h.count, h.distinct, h.fresh, h.events, ?_, h.admitted, h.refused, h.decided⟩, h.pending, h.closed⟩
      show s.admitted = s.taken ++ [id] ++ ids; rw [h.taken, ha, append_assoc]; rfl
  | otherId =>
    cases hs
    refine ⟨⟨h.count, h.distinct, ?_, h.events, h.taken, h.admitted, h.refused, h.decided⟩, h.pending, h.closed⟩
    intro id hid
    have := h.fresh id hid
    show id ≤ s.lastId + 1; omega

theorem Books.close_mem (h : s.Books) : .close ∈ s.pushed ↔ s.closeEmitted = true := by
  cases he : s.closeEmitted with
  | true => obtain ⟨-, -, before, hb, -⟩ := h.closed he; simp [hb]
  | false => simpa using (h.pending he).2

end NetServer

/-- Two connections come in with a limit of one; the server is closed, and then the admitted one is destroyed. -/
def limitedRun : List NetServer.Label :=
  [.ready true [.interrupted, .connection, .connection, .again] none, .nextEvent, .nextEvent, .takeConnection, .close,
   .destroyed 8]

end NodeCompat.Net
