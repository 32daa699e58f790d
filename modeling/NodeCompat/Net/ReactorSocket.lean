import NodeCompat.Net.ConnectionFrame

/-!
# `ReactorSocket` of node:net

The typed client hands the events of its connection to four handlers. Its `dispatch` runs from the callback of a readiness pass
or from a microtask, and calls the handlers one at a time; a handler may write. A connection that the loop has closed is purged
between two passes, and then answers no call any more.

`drain`, `finish` and `end` have no handler, and the socket never ends its own side. So the shutdown of the peer alone is told
to nobody (`learns`), and neither is a failure whose microtask is still waiting when the connection is purged.
-/

namespace NodeCompat.Net

open List Option ClientConnection

/-- A call of the handlers; an error by its number. -/
inductive HandlerCall
  | connect
  | data (chunk : Bytes)
  | error (errno : Nat)
  | close
  deriving DecidableEq

def HandlerCall.event : HandlerCall → ClientEvent
  | .connect => .connect
  | .data _ => .data
  | .error _ => .error
  | .close => .close

def HandlerCall.chunk? : HandlerCall → Option Bytes
  | .data chunk => some chunk
  | _ => none

/-- The events that have a handler. -/
def ClientEvent.handled : ClientEvent → Bool
  | .connect | .data | .error | .close => true
  | _ => false

/-- Where `dispatch` is: it does not run, it asks for the next event, or it has called a handler. -/
inductive Dispatch
  | idle
  | loop
  | handler (closing : Bool)
  deriving DecidableEq

/-- How far `dispatch` is from its return. -/
def Dispatch.weight : Dispatch → Nat
  | .idle => 0
  | .loop => 1
  | .handler _ => 2

structure ReactorSocket where
  native : ClientConnection
  -- the connection is not purged, so a call finds it
  alive : Bool := true
  -- `nativeId_` and `handlers_` are set
  attached : Bool := true
  dispatch : Dispatch := .idle
  calls : List HandlerCall := []
  deriving DecidableEq

namespace ReactorSocket

/-- `connect`, when the native side has made a connection. -/
def connect (initialError : Nat) : ReactorSocket := { native := ClientConnection.create true initialError false }

variable (s : ReactorSocket)

/-- `dispatch` returns, and with it the callback of the pass that has called it. -/
def leave : ReactorSocket :=
  { s with dispatch := .idle, native := if 0 < s.native.callbacks then s.native.notified else s.native }

/-- `dispatch` up to its loop. -/
def enter : ReactorSocket := if s.attached then { s with dispatch := .loop } else s.leave

def handle (call : HandlerCall) : ReactorSocket :=
  { s with calls := s.calls ++ [call], dispatch := .handler (decide (call = .close)) }

/-- A round of the loop, up to the handler. -/
def next : ReactorSocket :=
  if !s.alive then s.leave
  else
    match s.native.events with
    | [] => s.leave
    | e :: _ =>
      let s := { s with native := s.native.nextEvent }
      match e with
      | .connect => s.handle .connect
      | .data => { s with native := s.native.readChunk }.handle (.data (s.native.chunks.headD []))
      | .error => s.handle (.error s.native.errorNumber)
      | .close => s.handle .close
      | _ => s

/-- A handler returns. -/
def ret (closing : Bool) : ReactorSocket :=
  if closing then { s with attached := false }.leave else { s with dispatch := .loop }

inductive Label
  | ready (r : Revents) (a : Answers)
  | microtask
  | next
  | ret
  -- called by a handler, or when nothing runs
  | write (data : Bytes) (sends : List SendResult)
  | purge
  deriving DecidableEq

def step : Label → Option ReactorSocket
  | .ready r a =>
    if s.dispatch = .idle ∧ s.alive ∧ s.native.loopClosed = false ∧ s.native.reports r then
      (s.native.onReady r a).map (fun c =>
        if s.native.callbacks < c.callbacks then { s with native := c }.enter else { s with native := c })
    else none
  | .microtask =>
    if s.dispatch = .idle ∧ 0 < s.native.soon then
      some { s with native := { s.native with soon := s.native.soon - 1 } }.enter
    else none
  | .next => if s.dispatch = .loop then some s.next else none
  | .ret =>
    match s.dispatch with
    | .handler closing => some (s.ret closing)
    | _ => none
  | .write data sends =>
    if s.dispatch = .loop then none
    else if s.attached ∧ s.alive then (s.native.write data sends).map (fun c => { s with native := c })
    else some s
  | .purge => if s.dispatch = .idle ∧ s.native.loopClosed then some { s with alive := false } else none

/-! ## What the handlers are told -/

/-- The chunks that were handed to `data`. -/
def chunks (calls : List HandlerCall) : List Bytes := calls.filterMap HandlerCall.chunk?

/-- `connect` at most once and first, then the chunks, then an error and the close. -/
def WellTold (calls : List HandlerCall) : Prop :=
  ∃ head body tail, calls = head ++ body.map HandlerCall.data ++ tail ∧ (head = [] ∨ head = [.connect]) ∧
    (body ≠ [] → head = [.connect]) ∧ (tail = [] ∨ ∃ e, tail = [.error e] ∨ tail = [.error e, .close])

/-- The native side has reported an error. -/
def Failed : Prop := .error ∈ s.native.pushed

/-- The connection is over for the peer, or has failed. -/
def Over : Prop := s.native.peerEnded = true ∨ s.Failed

/-- No handler runs and none is about to run, until the loop polls again. -/
def AtRest : Prop := s.dispatch = .idle ∧ s.native.soon = 0

/-- No connection is purged while a microtask is waiting to tell of it. -/
def Heard (s : ReactorSocket) (l : Label) : Prop := l = .purge → s.native.soon = 0

instance (s : ReactorSocket) (l : Label) : Decidable (s.Heard l) := inferInstanceAs (Decidable (_ → _))

/-- Steps that need nothing from outside. -/
def Label.inner : Label → Bool
  | .microtask | .next | .ret => true
  | _ => false

end ReactorSocket

namespace ReactorSocket

variable {s s' : ReactorSocket}

/-! ## What every step keeps -/

/-- The calls follow the events that were taken. -/
structure Follows (s : ReactorSocket) : Prop where
  sound : Sound false s.native
  notify : s.native.notify = true
  writable : s.native.endRequested = false
  handled : s.calls.map HandlerCall.event = s.native.taken.filter ClientEvent.handled
  chunks : chunks s.calls = s.native.read
  counted : s.native.read.length = s.native.taken.count .data
  detached : s.attached = false ∨ s.dispatch = .handler true → .close ∈ s.native.taken
  gone : s.alive = false → s.native.events = []

/-- And outside `dispatch`, an event that waits has its microtask. -/
structure Queued (s : ReactorSocket) : Prop extends Follows s where
  queued : s.dispatch = .idle → s.native.events ≠ [] → 0 < s.native.soon

namespace Follows

theorem native (h : Follows s) {c : ClientConnection} (hs : Sound false c) (hn : c.notify = s.native.notify)
    (hr : c.endRequested = s.native.endRequested) (ht : c.taken = s.native.taken) (hrd : c.read = s.native.read)
    (hg : s.alive = false → c.events = []) : Follows { s with native := c } where
  sound := hs
  notify := hn.trans h.notify
  writable := hr.trans h.writable
  handled := by rw [ht]; exact h.handled
  chunks := by rw [hrd]; exact h.chunks
  counted := by rw [ht, hrd]; exact h.counted
  detached := by rw [ht]; exact h.detached
  gone := hg

theorem events_nil (h : Follows s) (hc : .close ∈ s.native.taken) : s.native.events = [] := by
  obtain ⟨⟨p, hp⟩, ha⟩ := h.sound
  obtain ⟨a, b, hab⟩ := append_of_mem hc
  have hlog := hp.log
  rw [ha.queue, hab, append_assoc, cons_append] at hlog
  exact (append_eq_nil_iff.1 (Phase.after_close hlog)).2

theorem leave (h : Follows s) (he : s.native.events = []) : Queued s.leave := by
  have hidle : ∀ c : ClientConnection, Follows { s with native := c } → c.events = [] →
      Queued { s with dispatch := .idle, native := c } := by
    intro c hc hev
    refine ⟨⟨hc.sound, hc.notify, hc.writable, hc.handled, hc.chunks, hc.counted, ?_, hc.gone⟩, fun _ hne => absurd hev hne⟩
    rintro (hd | hd)
    · exact hc.detached (.inl hd)
    · cases hd
  unfold ReactorSocket.leave
  split
  · next hpos =>
    have hs : Sound false s.native.notified := h.sound.step (l := .notified) (by simp [Net.step, hpos])
    have hev : s.native.notified.events = [] := by
      unfold notified
      dsimp only
      split <;> exact he
    refine hidle _ (h.native hs ?_ ?_ ?_ ?_ (fun _ => hev)) hev <;> unfold notified <;> dsimp only <;> split <;> rfl
  · exact hidle _ h he

theorem enter (h : Follows s) : Queued s.enter := by
  unfold ReactorSocket.enter
  split
  · next ha =>
    refine ⟨⟨h.sound, h.notify, h.writable, h.handled, h.chunks, h.counted, ?_, h.gone⟩, nofun⟩
    rintro (hd | hd)
    · exact absurd (ha.symm.trans hd) (by decide)
    · cases hd
  · next ha => exact h.leave (h.events_nil (h.detached (.inl (by simpa using ha))))

theorem skip (h : Follows s) (hl : s.dispatch = .loop) {e : ClientEvent} {es : List ClientEvent} (he : s.native.events = e :: es)
    (hh : e.handled = false) : Queued { s with native := s.native.nextEvent } := by
  have hnext : s.native.nextEvent = { s.native with events := es, taken := s.native.taken ++ [e] } := by
    unfold nextEvent; rw [he]
  refine ⟨⟨h.sound.nextEvent, ?_, ?_, ?_, ?_, ?_, ?_, ?_⟩, fun hd => ?_⟩
  · rw [hnext]; exact h.notify
  · rw [hnext]; exact h.writable
  · rw [hnext]; rw [h.handled, filter_append, filter_singleton, hh]; simp
  · rw [hnext]; exact h.chunks
  · rw [hnext]
    have hne : e ≠ .data := by rintro rfl; cases hh
    rw [count_append, count_singleton, h.counted]; simp [hne]
  · rw [hnext]
    intro hd; exact mem_append_left _ (h.detached hd)
  · intro ha; rw [h.gone ha] at he; cases he
  · rw [hl] at hd; cases hd

theorem call (h : Follows s) {e : ClientEvent} {es : List ClientEvent} (he : s.native.events = e :: es) {k : HandlerCall}
    (hk : k.event = e) (hne : e ≠ .data) (hha : e.handled = true) :
    Queued ({ s with native := s.native.nextEvent }.handle k) := by
  have hnext : s.native.nextEvent = { s.native with events := es, taken := s.native.taken ++ [e] } := by
    unfold nextEvent; rw [he]
  refine ⟨⟨h.sound.nextEvent, ?_, ?_, ?_, ?_, ?_, ?_, ?_⟩, nofun⟩
  · simp only [handle, hnext]; exact h.notify
  · simp only [handle, hnext]; exact h.writable
  · simp only [handle, hnext]; rw [map_append, h.handled, filter_append, filter_singleton, hha]; simp [hk]
  · simp only [handle, hnext]
    have hk' : k.chunk? = none := by
      cases k with
      | data => exact absurd hk.symm hne
      | _ => rfl
    rw [ReactorSocket.chunks, filterMap_append, ← ReactorSocket.chunks, h.chunks]; simp [hk']
  · simp only [handle, hnext]; rw [count_append, count_singleton, h.counted]; simp [hne]
  · simp only [handle, hnext]
    rintro (hd | hd)
    · exact mem_append_left _ (h.detached (.inl hd))
    · have hclose : k = .close := by simpa using hd
      rw [← hk, hclose]; exact mem_append_right _ (by simp [HandlerCall.event])
  · intro ha; rw [h.gone ha] at he; cases he

theorem data (h : Follows s) {es : List ClientEvent} (he : s.native.events = .data :: es) :
    Queued ({ s with native := s.native.nextEvent.readChunk }.handle (.data (s.native.nextEvent.chunks.headD []))) := by
  obtain ⟨b, bs, hb, hread, hhead⟩ := h.sound.account.readChunk_data he h.counted
  refine ⟨⟨h.sound.nextEvent.readChunk, ?_, ?_, ?_, ?_, ?_, ?_, ?_⟩, nofun⟩
  · simp only [handle, hread]; exact h.notify
  · simp only [handle, hread]; exact h.writable
  · simp only [handle, hread]; rw [map_append, h.handled, filter_append]; rfl
  · simp only [handle, hread, hhead]; rw [ReactorSocket.chunks, filterMap_append, ← ReactorSocket.chunks, h.chunks]; rfl
  · simp only [handle, hread]; simp [h.counted]
  · simp only [handle, hread]
    rintro (hd | hd)
    · exact mem_append_left _ (h.detached (.inl hd))
    · cases hd
  · intro ha; rw [h.gone ha] at he; cases he

theorem next (h : Follows s) (hl : s.dispatch = .loop) : Queued s.next := by
  unfold ReactorSocket.next
  split
  · next ha => exact h.leave (h.gone (by simpa using ha))
  · split
    · next he => exact h.leave he
    · next e es he =>
      cases e with
      | connect | error | close => exact h.call he rfl (by decide) rfl
      | data => exact h.data he
      | drain | finish | ended => exact h.skip hl he rfl

end Follows

namespace Queued

theorem ret (h : Queued s) {closing : Bool} (hd : s.dispatch = .handler closing) : Queued (s.ret closing) := by
  unfold ReactorSocket.ret
  split
  · next hc =>
    have hclose : .close ∈ s.native.taken := h.detached (.inr (by rw [hd, hc]))
    have hdetached : Follows { s with attached := false } :=
      ⟨h.sound, h.notify, h.writable, h.handled, h.chunks, h.counted, fun _ => hclose, h.gone⟩
    exact hdetached.leave (h.events_nil hclose)
  · refine ⟨⟨h.sound, h.notify, h.writable, h.handled, h.chunks, h.counted, ?_, h.gone⟩, nofun⟩
    rintro (ha | ha)
    · exact h.detached (.inl ha)
    · cases ha

theorem ready (h : Queued s) (ha : s.alive = true) {r : Revents} {a : Answers} {c : ClientConnection}
    (hr : s.native.reports r = true) (hc : s.native.onReady r a = some c) :
    Queued (if s.native.callbacks < c.callbacks then { s with native := c }.enter else { s with native := c }) := by
  have hsound : Sound false c := onReady_sound h.sound hr hc
  obtain ⟨rfl, -⟩ | ⟨d, hd, rfl⟩ := onReady_appends hc
  · rw [if_neg (Nat.lt_irrefl _)]; exact h
  have hcb : d.callbacks = s.native.callbacks := hd.callbacks
  have hgone : s.alive = false → d.events = [] := fun hg => absurd (ha.symm.trans hg) (by decide)
  obtain ⟨-, heq⟩ | ⟨he, heq | ⟨-, heq⟩⟩ := deliver_cases (hd.notify.trans h.notify)
  · rw [heq] at hsound ⊢
    rw [if_pos (by simp [hcb])]
    exact (h.toFollows.native hsound hd.notify hd.endRequested hd.taken hd.read hgone).enter
  · rw [heq] at hsound ⊢
    rw [if_neg (by simp [hcb])]
    exact ⟨h.toFollows.native hsound hd.notify hd.endRequested hd.taken hd.read hgone, fun _ hne => absurd he hne⟩
  · rw [heq] at hsound ⊢
    rw [if_neg (by simp [loopClose, hcb])]
    exact ⟨h.toFollows.native hsound hd.notify hd.endRequested hd.taken hd.read hgone, fun _ hne => absurd he hne⟩

theorem write (h : Queued s) (ha : s.alive = true) {data : Bytes} {sends : List SendResult} {c : ClientConnection}
    (hc : s.native.write data sends = some c) : Queued { s with native := c } := by
  have hsound : Sound false c := h.sound.write hc
  have hgone : s.alive = false → c.events = [] := fun hg => absurd (ha.symm.trans hg) (by decide)
  obtain ⟨rfl, -⟩ | ⟨-, d, hd, hcases⟩ := write_cases h.notify hc
  · exact h
  have hfollows : c.notify = d.notify → c.endRequested = d.endRequested → c.taken = d.taken → c.read = d.read →
      Follows { s with native := c } := fun hn hr ht hrd =>
    h.toFollows.native hsound (hn.trans hd.notify) (hr.trans hd.endRequested) (ht.trans hd.taken) (hrd.trans hd.read) hgone
  obtain ⟨rfl, hev⟩ | rfl | ⟨-, rfl⟩ := hcases
  · refine ⟨hfollows rfl rfl rfl rfl, fun hi hne => ?_⟩
    have hold : c.events = s.native.events := hev.resolve_left hne
    have hsoon : c.soon = s.native.soon := hd.soon
    rw [hsoon]; exact h.queued hi (fun hnil => hne (hold.trans hnil))
  · exact ⟨hfollows rfl rfl rfl rfl, fun _ _ => Nat.succ_pos _⟩
  · exact ⟨hfollows rfl rfl rfl rfl, fun _ _ => Nat.succ_pos _⟩

theorem step {l : Label} (h : Queued s) (hp : Heard s l) (hs : s.step l = some s') : Queued s' := by
  cases l with
  | ready r a =>
    simp only [ReactorSocket.step] at hs
    split at hs
    · next hg =>
      obtain ⟨c, hc, rfl⟩ := map_eq_some_iff.1 hs; exact h.ready hg.2.1 hg.2.2.2 hc
    · cases hs
  | microtask =>
    simp only [ReactorSocket.step] at hs
    split at hs
    · next hg =>
      cases hs
      have hsound : Sound false { s.native with soon := s.native.soon - 1 } :=
        h.sound.step (l := .microtask) (by simp [Net.step, hg.2])
      exact (h.toFollows.native hsound rfl rfl rfl rfl h.gone).enter
    · cases hs
  | next =>
    simp only [ReactorSocket.step] at hs
    split at hs
    · next hl =>
      cases hs; exact h.toFollows.next hl
    · cases hs
  | ret =>
    simp only [ReactorSocket.step] at hs
    split at hs
    · next hd =>
      cases hs; exact h.ret hd
    · cases hs
  | write data sends =>
    simp only [ReactorSocket.step] at hs
    split at hs
    · cases hs
    · split at hs
      · next hg =>
        obtain ⟨c, hc, rfl⟩ := map_eq_some_iff.1 hs; exact h.write hg.2 hc
      · cases hs; exact h
  | purge =>
    simp only [ReactorSocket.step] at hs
    split at hs
    · next hg =>
      cases hs
      have hnil : s.native.events = [] := by
        by_contra hne
        have hpos := h.queued hg.1 hne; rw [hp rfl] at hpos; exact Nat.lt_irrefl 0 hpos
      exact ⟨⟨h.sound, h.notify, h.writable, h.handled, h.chunks, h.counted, h.detached, fun _ => hnil⟩, h.queued⟩
    · cases hs

theorem connect (initialError : Nat) : Queued (connect initialError) where
  sound := Sound.create true initialError false
  notify := rfl
  writable := rfl
  handled := rfl
  chunks := rfl
  counted := rfl
  detached := by rintro (hd | hd) <;> cases hd
  gone ha := by cases ha
  queued _ hne := absurd rfl hne

end Queued

/-! ## The order of the calls -/

namespace Follows

/-- The events that were taken have a shape of their own, and no `finish` is among them. -/
theorem shape (h : Follows s) : ∃ p head body tail, Shape false s.native.taken p head body tail ∧ .finish ∉ s.native.taken ∧
    (p.closed = true → p.failed = true) := by
  obtain ⟨⟨p, hp⟩, ha⟩ := h.sound
  have hfin : .finish ∉ s.native.pushed := by
    intro hm
    obtain ⟨head, body, tail, hs⟩ := exists_shape false s.native.pushed hp.log
    have hemitted := hp.finished.symm.trans (hs.finished_of_mem hm)
    exact absurd ((ha.flushed hemitted).1.symm.trans h.writable) (by decide)
  rw [ha.queue] at hfin
  have hfin' : .finish ∉ s.native.taken := fun hm => hfin (mem_append_left _ hm)
  have hlog := hp.log
  rw [ha.queue, Phase.after_append] at hlog
  obtain ⟨q, hq, -⟩ := bind_eq_some_iff.1 hlog
  obtain ⟨head, body, tail, hs⟩ := exists_shape false s.native.taken hq
  exact ⟨q, head, body, tail, hs, hfin', Phase.failed_of_closed hq hfin'⟩

theorem eq_map_data : ∀ {calls : List HandlerCall}, (∀ k ∈ calls, k.event = .data) →
    ∃ body : List Bytes, calls = body.map HandlerCall.data
  | [], _ => ⟨[], rfl⟩
  | k :: ks, h => by
    obtain ⟨body, rfl⟩ := eq_map_data (fun k hk => h k (mem_cons_of_mem _ hk))
    cases k with
    | data chunk => exact ⟨chunk :: body, rfl⟩
    | connect | close => exact absurd (h _ mem_cons_self) (by decide)
    | error e => exact absurd (h _ mem_cons_self) (by simp [HandlerCall.event])

theorem eq_connect {calls : List HandlerCall} (h : calls.map HandlerCall.event = [.connect]) : calls = [.connect] := by
  obtain ⟨k, rfl, hk⟩ := map_eq_singleton_iff.1 h
  cases k with
  | connect => rfl
  | _ => cases hk

theorem eq_tail {calls : List HandlerCall} {failed closed : Bool} (hc : closed = true → failed = true)
    (h : calls.map HandlerCall.event = (if failed then [.error] else []) ++ if closed then [.close] else []) :
    calls = [] ∨ ∃ e, calls = [.error e] ∨ calls = [.error e, .close] := by
  cases failed with
  | false =>
    have : closed = false := by simpa using hc
    subst this; exact .inl (map_eq_nil_iff.1 h)
  | true =>
    obtain ⟨k, ks, rfl, hk, hks⟩ := map_eq_cons_iff.1 h
    cases k with
    | error e =>
      refine .inr ⟨e, ?_⟩
      cases closed with
      | false => exact .inl (by rw [map_eq_nil_iff.1 hks])
      | true =>
        obtain ⟨k', rfl, hk'⟩ := map_eq_singleton_iff.1 hks
        cases k' with
        | close => exact .inr rfl
        | _ => cases hk'
    | _ => cases hk

theorem wellTold (h : Follows s) : WellTold s.calls := by
  obtain ⟨p, head, body, tail, hs, hfin, hclosed⟩ := h.shape
  have hsplit : s.calls.map HandlerCall.event = head ++ body.filter ClientEvent.handled ++ tail := by
    have hhead : head.filter ClientEvent.handled = head := by
      rw [hs.headed]
      split <;> rfl
    have htail : tail.filter ClientEvent.handled = tail := by
      rw [hs.closes]
      cases p.failed <;> cases p.closed <;> rfl
    rw [h.handled, hs.split, filter_append, filter_append, hhead, htail]
  obtain ⟨front, last, hfl, hfront, hlast⟩ := map_eq_append_iff.1 hsplit
  obtain ⟨first, middle, hfm, hfirst, hmiddle⟩ := map_eq_append_iff.1 hfront
  obtain ⟨bs, rfl⟩ : ∃ bs : List Bytes, middle = bs.map HandlerCall.data := by
    refine eq_map_data (fun k hk => ?_)
    have hmem : k.event ∈ body.filter ClientEvent.handled := hmiddle ▸ List.mem_map_of_mem hk
    obtain ⟨hb, hh⟩ := mem_filter.1 hmem
    have hord := hs.ordinary _ hb
    cases hke : k.event <;> rw [hke] at hord hh <;> simp [ClientEvent.ordinary, ClientEvent.handled] at hord hh ⊢
  have hconnect : p.opened = true → first = [.connect] := by
    intro ho; rw [hs.headed, ho] at hfirst; exact eq_connect hfirst
  refine ⟨first, bs, last, ?_, ?_, ?_, ?_⟩
  · rw [hfl, hfm]
  · cases ho : p.opened with
    | true => exact .inr (hconnect ho)
    | false => rw [hs.headed, ho] at hfirst; exact .inl (map_eq_nil_iff.1 hfirst)
  · intro hbs
    cases ho : p.opened with
    | true => exact hconnect ho
    | false => rw [hs.needs ho] at hmiddle; exact absurd (map_eq_nil_iff.1 (map_eq_nil_iff.1 hmiddle)) hbs
  · rw [hs.closes] at hlast; exact eq_tail hclosed hlast

theorem delivered (h : Follows s) : (ReactorSocket.chunks s.calls ++ s.native.chunks).flatten = s.native.received := by
  rw [h.chunks]; exact h.sound.account.chunks

end Follows

/-! ## The end of a connection -/

namespace Queued

theorem taken (h : Queued s) (hr : s.AtRest) : s.native.events = [] ∧ s.native.taken = s.native.pushed := by
  have hnil : s.native.events = [] := by
    by_contra hne
    exact absurd (h.queued hr.1 hne) (by simp [hr.2])
  refine ⟨hnil, ?_⟩
  have hqueue := h.sound.account.queue; rw [hnil, append_nil] at hqueue; exact hqueue.symm

theorem mem_calls (h : Queued s) (hr : s.AtRest) : .close ∈ s.calls ↔ s.Failed := by
  obtain ⟨hnil, htaken⟩ := h.taken hr
  obtain ⟨⟨q, hq⟩, -⟩ := h.sound
  obtain ⟨p, head, body, tail, hs, hfin, hclosed⟩ := h.toFollows.shape
  have hmem : .close ∈ s.calls ↔ .close ∈ s.native.taken := by
    have hiff : .close ∈ s.calls.map HandlerCall.event ↔ .close ∈ s.native.taken.filter ClientEvent.handled := by rw [h.handled]
    rw [mem_filter] at hiff
    refine ⟨fun hc => (hiff.1 (List.mem_map_of_mem hc)).1, fun hc => ?_⟩
    obtain ⟨k, hk, hke⟩ := List.mem_map.1 (hiff.2 ⟨hc, rfl⟩)
    cases k with
    | close => exact hk
    | _ => cases hke
  rw [hmem]
  constructor
  · intro hc
    have hf := hclosed (hs.closed_of_mem hc)
    show .error ∈ s.native.pushed; rw [← htaken]; exact hs.mem_error hf
  · intro hf
    obtain ⟨head, body, tail, hs'⟩ := exists_shape false s.native.pushed hq.log
    have hc := hs'.mem_close (hq.settled (hs'.failed_of_mem hf)); rw [htaken]; exact hc

theorem chunks_nil (h : Queued s) (hr : s.AtRest) : s.native.chunks = [] := by
  have hcount := h.sound.account.counted
  rw [← (h.taken hr).2, length_append] at hcount
  have := h.counted; exact length_eq_zero_iff.1 (by omega)

end Queued

/-! ## Coming to rest -/

/-- What is left to do. -/
def left (s : ReactorSocket) : Nat := 3 * s.native.soon + 3 * s.native.events.length + s.dispatch.weight

theorem left_leave (s : ReactorSocket) : s.leave.left = 3 * s.native.soon + 3 * s.native.events.length := by
  unfold leave
  split
  · unfold notified
    dsimp only
    split <;> rfl
  · rfl

theorem left_enter (s : ReactorSocket) : s.enter.left ≤ 3 * s.native.soon + 3 * s.native.events.length + 1 := by
  unfold enter
  split
  · exact Nat.le_refl _
  · rw [left_leave]; omega

theorem left_next (hl : s.dispatch = .loop) : s.next.left < s.left := by
  have hleave : s.leave.left < s.left := by rw [left_leave, left, hl]; exact Nat.lt_succ_self _
  unfold next
  split
  · exact hleave
  · split
    · exact hleave
    · next e es he =>
      have hlen : s.native.nextEvent.events.length + 1 = s.native.events.length := by
        unfold nextEvent; rw [he]; rfl
      have hsoon : s.native.nextEvent.soon = s.native.soon := by unfold nextEvent; rw [he]
      have hread : s.native.nextEvent.readChunk.events = s.native.nextEvent.events ∧
          s.native.nextEvent.readChunk.soon = s.native.nextEvent.soon := by
        unfold readChunk
        split <;> exact ⟨rfl, rfl⟩
      cases e <;> simp only [left, handle, Dispatch.weight, hl, hread.1, hread.2, hsoon] <;> omega

theorem left_ret {closing : Bool} (hd : s.dispatch = .handler closing) : (s.ret closing).left < s.left := by
  have hleft : s.left = 3 * s.native.soon + 3 * s.native.events.length + 2 := by rw [left, hd]; rfl
  rw [hleft]
  unfold ret
  split
  · rw [left_leave]; simp
  · simp [left, Dispatch.weight]

/-- **A socket comes to rest** by itself. -/
theorem comes_to_rest (s : ReactorSocket) : ∃ ls s', (∀ l ∈ ls, l.inner = true) ∧ Run step Heard s ls s' ∧ s'.AtRest := by
  have hstep : ∀ {l : Label} {t : ReactorSocket}, l.inner = true → s.step l = some t → t.left < s.left →
      ∃ ls s', (∀ l ∈ ls, l.inner = true) ∧ Run step Heard s ls s' ∧ s'.AtRest := by
    intro l t hl ht hlt
    obtain ⟨ls, s', hls, hrun, hrest⟩ := comes_to_rest t
    refine ⟨l :: ls, s', ?_, .cons (fun hp => ?_) ht hrun, hrest⟩
    · intro k hk
      obtain rfl | hk := mem_cons.1 hk
      · exact hl
      · exact hls k hk
    · rw [hp] at hl; cases hl
  match hd : s.dispatch with
  | .loop => exact hstep (l := .next) rfl (by simp [step, hd]) (left_next hd)
  | .handler closing => exact hstep (l := .ret) rfl (by simp only [step, hd]) (left_ret hd)
  | .idle =>
    by_cases hs : s.native.soon = 0
    · exact ⟨[], s, nofun, .nil s, hd, hs⟩
    · refine hstep (l := .microtask) (t := { s with native := { s.native with soon := s.native.soon - 1 } }.enter) rfl ?_ ?_
      · simp [step, hd, Nat.pos_of_ne_zero hs]
      · refine Nat.lt_of_le_of_lt (left_enter _) ?_
        simp only [left, hd, Dispatch.weight]; omega
termination_by s.left

/-! ## What a `ReactorSocket` learns -/

/-- **What a socket learns of its connection.** -/
theorem learns (initialError : Nat) {ls : List Label} {s : ReactorSocket} (h : Run step Heard (connect initialError) ls s) :
    WellTold s.calls ∧ (chunks s.calls ++ s.native.chunks).flatten = s.native.received ∧
      (s.AtRest → s.native.chunks = [] ∧ ((s.Over → .close ∈ s.calls) ↔ (s.native.peerEnded = true → s.Failed))) ∧
      ∃ ls' s', (∀ l ∈ ls', l.inner = true) ∧ Run step Heard s ls' s' ∧ s'.AtRest := by
  have hq : Queued s := h.invariant (fun _ _ _ hI hp hst => hI.step hp hst) (Queued.connect initialError)
  refine ⟨hq.wellTold, hq.delivered, fun hr => ⟨hq.chunks_nil hr, ?_⟩, comes_to_rest s⟩
  rw [hq.mem_calls hr]
  constructor
  · exact fun hl hp => hl (.inl hp)
  · rintro hl (hp | hf)
    · exact hl hp
    · exact hf

/-- The connection is made, and `connect` returns. -/
def opening : List Label := [.ready { pollOut := true } {}, .next, .ret, .next]

/-- Two bytes come, and then a reset. -/
def reset : List Label :=
  opening ++ [.ready { pollIn := true } { recvs := [.bytes [1, 2]] }, .next, .write [3] [.count 1], .ret, .next, .next,
    .ready { pollIn := true, pollErr := true } { recvs := [.errno 104] }, .next, .ret, .next, .ret, .microtask, .purge]

theorem learns_reset : ∃ s, Run step Heard (connect 0) reset s ∧ WellTold s.calls ∧ s.AtRest ∧ s.Over ∧ .close ∈ s.calls ∧
    s.calls = [.connect, .data [1, 2], .error 104, .close] := by
  obtain ⟨s, hs, hcalls, hrest, hpushed⟩ :
      ∃ s, runs (fun s l => if decide (Heard s l) then step s l else none) (connect 0) reset = some s ∧
        s.calls = [.connect, .data [1, 2], .error 104, .close] ∧ s.AtRest ∧
        s.native.pushed = [.connect, .data, .drain, .error, .close] := ⟨_, rfl, rfl, ⟨rfl, rfl⟩, rfl⟩
  have hfailed : s.Failed := by simp [Failed, hpushed]
  have hrun : Run step Heard (connect 0) reset s := (Run.of_guarded _ hs).mono (fun _ _ => of_decide_eq_true)
  obtain ⟨htold, -, hend, -⟩ := learns 0 hrun
  exact ⟨s, hrun, htold, hrest, .inr hfailed, (hend hrest).2.2 (fun _ => hfailed) (.inr hfailed), hcalls⟩

/-- The peer sends two bytes and shuts down. -/
def shutdown : List Label := opening ++ [.ready { pollIn := true } { recvs := [.bytes [1, 2]] }, .next, .ret, .next,
    .ready { pollIn := true } { recvs := [.bytes []] }, .next, .next]

/-- A write fails when nothing else runs, and the connection is purged before its microtask. -/
def purged : List Label := opening ++ [.write [3] [.errno epipe], .purge, .microtask, .next]

theorem learns_shutdown :
    (∃ s, Run step (fun _ _ => True) (connect 0) shutdown s ∧ s.AtRest ∧ s.native.peerEnded = true ∧
      s.calls = [.connect, .data [1, 2]]) ∧
      ∃ s, Run step (fun _ _ => True) (connect 0) purged s ∧ s.AtRest ∧ s.Failed ∧ s.calls = [.connect] := by
  constructor
  · obtain ⟨s, hs, h⟩ : ∃ s, runs step (connect 0) shutdown = some s ∧ s.AtRest ∧ s.native.peerEnded = true ∧
        s.calls = [.connect, .data [1, 2]] := ⟨_, rfl, ⟨rfl, rfl⟩, rfl, rfl⟩
    exact ⟨s, Run.of_runs hs, h⟩
  · obtain ⟨s, hs, hrest, hpushed, hcalls⟩ : ∃ s, runs step (connect 0) purged = some s ∧ s.AtRest ∧
        s.native.pushed = [.connect, .error, .close] ∧ s.calls = [.connect] := ⟨_, rfl, ⟨rfl, rfl⟩, rfl, rfl⟩
    exact ⟨s, Run.of_runs hs, hrest, by simp [Failed, hpushed], hcalls⟩

end ReactorSocket

end NodeCompat.Net
