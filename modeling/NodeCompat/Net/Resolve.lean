import NodeCompat.Bytes
import NodeCompat.Lib.Run

/-!
# Name resolution off the loop

A lookup is shared by three parties: the thread that resolves (it holds a raw pointer to the state), the registry entry that
the accessors go through, and the watcher of the wake pipe, which the loop holds. The state is destroyed when neither the
entry nor the watcher is left. Without a pipe there is no watcher, and the callback is a microtask.

`Handoff` says who holds what, at every point of the thread. The callback of a lookup without a pipe does not look at the
registry, so releasing such a lookup does not stop it (`released_lookup_notifies`); otherwise the hand-off is as it should be
(`hands_off`).
-/

namespace NodeCompat.Net

/-! ## The lookup -/

/-- How a lookup is started: on a thread, inline after the thread could not be started, or inline without a wake pipe. -/
inductive StartMode
  | thread
  | noThread
  | noPipe
deriving DecidableEq

inductive AddressFamily
  | inet
  | inet6
  | other
deriving DecidableEq

/-- An entry of the resolver's list: its family and its numeric form, if it has one. -/
structure Candidate where
  family : AddressFamily
  numeric : Option Bytes
deriving DecidableEq

/-- What `getaddrinfo` answers; a status other than 0 is a failure. -/
structure Resolution where
  status : Nat
  list : List Candidate
deriving DecidableEq

/-- How far `ResolveState::resolve` has got. -/
inductive ThreadPoint
  | started
  | stored
  | announced
  | ended
deriving DecidableEq

/-- `ResolveState`, who holds it, and what has happened: how often the callback ran and whether it ran behind the release,
and how often the list was collected and freed. -/
structure Lookup where
  mode : StartMode
  answer : Resolution
  point : ThreadPoint := .started
  status : Nat := 0
  resolved : Option (List Candidate) := none
  done : Bool := false
  byte : Bool := false
  addresses : List (Bytes × Nat) := []
  /-- The registry has an entry, and the entry a watcher. -/
  entry : Bool := true
  entryWatcher : Bool := false
  /-- The loop has the watcher. -/
  watcher : Bool := false
  finished : Bool := false
  cancelled : Bool := false
  notify : Bool := false
  microtask : Bool := false
  alive : Bool := true
  notified : Nat := 0
  late : Bool := false
  collected : Nat := 0
  freed : Nat := 0
deriving DecidableEq

namespace Lookup

variable {s : Lookup}

/-- `resolve`, in its three steps. -/
def store (s : Lookup) : Lookup := { s with
    point := .stored
    status := s.answer.status
    resolved := if s.answer.status ≠ 0 then none else some s.answer.list }

def setDone (s : Lookup) : Lookup := { s with point := .announced, done := true }

/-- Without a pipe there is nothing to write to. -/
def writeByte (s : Lookup) : Lookup := { s with point := .ended, byte := s.mode != .noPipe }

def resolve (s : Lookup) : Lookup := s.store.setDone.writeByte

/-- The numeric addresses of a list. -/
def numericAddresses (list : List Candidate) : List (Bytes × Nat) := list.filterMap fun c =>
    match c.family, c.numeric with
    | .inet, some numeric => some (numeric, 4)
    | .inet6, some numeric => some (numeric, 6)
    | _, _ => none

/-- The answer as numeric addresses, once; the list is freed. -/
def collect (s : Lookup) : Lookup :=
  match s.resolved with
  | none => s
  | some list =>
    if s.done then { s with
        addresses := s.addresses ++ numericAddresses list
        resolved := none
        collected := s.collected + 1
        freed := s.freed + 1 }
    else s

/-- The destructor of the state frees a list that was not collected; it runs when the last holder is gone. -/
def drop (s : Lookup) : Lookup :=
  if s.alive && !s.entry && !s.watcher then
    { s with alive := false, resolved := none, freed := s.freed + if s.resolved.isSome then 1 else 0 }
  else s

/-- The callback runs. -/
def callback (s : Lookup) : Lookup := { s with notified := s.notified + 1, late := s.late || !s.entry }

/-- `ResolveWatcher::onReady`, for a readable wake pipe. -/
def onReady (s : Lookup) : Lookup :=
  if s.finished || !s.done then s
  else
    let s := { s with finished := true }.collect
    if s.cancelled then s
    else
      let s := if s.entry then { s with entryWatcher := false } else s
      if s.notify then { s with notify := false }.callback else s

/-- `ResolveWatcher::cancel` -/
def cancel (s : Lookup) : Lookup := if s.finished then s else { s with cancelled := true, notify := false }

/-- `net_resolve_native` -/
def start (mode : StartMode) (answer : Resolution) : Lookup :=
  match mode with
  | .thread => { mode, answer, entryWatcher := true, watcher := true, notify := true }
  | .noThread => ({ mode, answer, entryWatcher := true, watcher := true, notify := true } : Lookup).resolve
  | .noPipe => { ({ mode, answer } : Lookup).resolve.collect with microtask := true }

/-- `findResolveState`: every accessor collects. -/
def access (s : Lookup) : Lookup := if s.entry then s.collect else s

/-- `net_resolve_release` -/
def release (s : Lookup) : Lookup :=
  if s.entry then
    let s := if s.entryWatcher then s.cancel else s
    { s with entry := false }.drop
  else s

/-- `net_resolve_count` -/
def count (s : Lookup) : Int :=
  if !s.entry || !s.access.done || s.access.status != 0 then -1 else s.access.addresses.length

/-- `net_resolve_address` and `net_resolve_family` -/
def address (s : Lookup) (index : Nat) : Option (Bytes × Nat) := if s.entry then s.access.addresses[index]? else none

/-! ## Steps -/

/-- The next step of the thread, the watcher on a readable pipe, the loop destroying a watcher that it has closed, the
microtask, an accessor, and the release. -/
inductive Label
  | thread
  | ready
  | purge
  | microtask
  | access
  | release
deriving DecidableEq

def step (s : Lookup) : Label → Option Lookup
  | .thread =>
    if s.mode = .thread then
      match s.point with
      | .started => some s.store
      | .stored => some s.setDone
      | .announced => some s.writeByte
      | .ended => none
    else none
  | .ready => if s.watcher ∧ s.byte then some s.onReady else none
  | .purge => if s.watcher ∧ s.finished then some { s with watcher := false }.drop else none
  | .microtask => if s.microtask then some { s with microtask := false }.callback else none
  | .access => some s.access
  | .release => some s.release

/-- A lookup without a pipe is not released before its callback has run. -/
def Stays (s : Lookup) (l : Label) : Prop := l = .release → s.microtask = false

instance (s : Lookup) (l : Label) : Decidable (s.Stays l) := inferInstanceAs (Decidable (l = .release → s.microtask = false))

/-- How many lists the resolver has made. -/
def made (s : Lookup) : Nat := if s.point = .started ∨ s.answer.status ≠ 0 then 0 else 1

/-- What the loop has processed: the watcher has fired without having been cancelled, or the microtask has run. -/
def processed (s : Lookup) : Bool := if s.mode = .noPipe then !s.microtask else s.finished && !s.cancelled

/-- **The hand-off of a lookup.** -/
structure HandedOff (s : Lookup) : Prop where
  /-- The callback runs at most once, when the answer is there, and not behind the release. -/
  once : s.notified ≤ 1
  answered : 0 < s.notified → s.done = true
  inTime : s.late = false
  /-- It has run when the loop has processed the completion of a lookup that was not released before. -/
  delivered : s.processed = true → s.notified = 1
  /-- The state outlives the thread, and goes with its last holder. -/
  outlives : s.alive = false → s.point = .ended
  destroyed : s.entry = false → s.watcher = false → s.alive = false
  /-- The list is collected at most once and freed once: at most, and exactly when the state is gone. -/
  collectedOnce : s.collected ≤ 1
  freedOnce : s.freed ≤ s.made
  freedAll : s.alive = false → s.freed = s.made
  /-- No address is seen before the answer is there. -/
  unseen : s.done = false → ∀ index, s.address index = none

/-! ## Who holds what -/

/-- The state of the callback with a wake pipe: the watcher has it until it fires or is cancelled. -/
structure Watched (s : Lookup) : Prop where
  idle : s.microtask = false
  armed : s.notify = (!s.finished && !s.cancelled)
  told : s.notified = if s.finished && !s.cancelled then 1 else 0
  kept : s.watcher = false → s.finished = true
  fired : s.finished = true → s.byte = true
  entered : s.entry = true → s.cancelled = false ∧ (s.finished = false → s.entryWatcher = true)
  left : s.entry = false → s.finished = false → s.cancelled = true

/-- The state of the callback without one. -/
structure Inline (s : Lookup) : Prop where
  unwatched : s.watcher = false ∧ s.entryWatcher = false ∧ s.finished = false
  quiet : s.point = .ended
  told : s.notified = if s.microtask then 0 else 1
  stays : s.entry = false → s.microtask = false

/-- The list is with the state or freed, and the callback is where it should be. -/
structure Placed (s : Lookup) : Prop where
  announced : s.done = true ↔ s.point = .announced ∨ s.point = .ended
  written : s.byte = true → s.point = .ended
  list : s.freed + (if s.resolved.isSome then 1 else 0) = s.made
  emptied : s.alive = false → s.resolved = none
  collected : s.collected ≤ s.freed
  unfilled : s.done = false → s.addresses = []
  inTime : s.late = false
  piped : s.mode ≠ .noPipe → s.Watched
  inline : s.mode = .noPipe → s.Inline

/-- The invariant: the state is there as long as it has a holder. -/
structure Handoff (s : Lookup) : Prop extends s.Placed where
  held : s.alive = true ↔ s.entry = true ∨ s.watcher = true

/-! ## Each step keeps the hand-off -/

theorem collect_eq (s : Lookup) : s.collect = s ∨ ∃ list, s.resolved = some list ∧ s.done = true ∧
      s.collect = { s with
        addresses := s.addresses ++ numericAddresses list
        resolved := none
        collected := s.collected + 1
        freed := s.freed + 1 } := by
  unfold collect
  split
  · exact .inl rfl
  · next list hlist =>
    split
    · next hdone => exact .inr ⟨list, hlist, hdone, rfl⟩
    · exact .inl rfl

theorem Handoff.collect (h : s.Handoff) : s.collect.Handoff := by
  obtain heq | ⟨list, hlist, hdone, heq⟩ := s.collect_eq
  · rw [heq]; exact h
  · rw [heq]
    have hl := h.list
    have hc := h.collected
    simp only [hlist, Option.isSome_some, if_true] at hl
    refine ⟨⟨?_, ?_, ?_, ?_, ?_, ?_, ?_, ?_, ?_⟩, h.held⟩
    · exact h.announced
    · exact h.written
    · exact hl
    · exact fun _ => rfl
    · exact Nat.succ_le_succ hc
    · simp [hdone]
    · exact h.inTime
    · exact fun hm => ⟨(h.piped hm).idle, (h.piped hm).armed, (h.piped hm).told, (h.piped hm).kept, (h.piped hm).fired,
        (h.piped hm).entered, (h.piped hm).left⟩
    · exact fun hm => ⟨(h.inline hm).unwatched, (h.inline hm).quiet, (h.inline hm).told, (h.inline hm).stays⟩

theorem made_of_stored (h : s.point ≠ .started) : s.made = if s.answer.status ≠ 0 then 0 else 1 := by
  simp [made, h]

theorem Handoff.store (h : s.Handoff) (hmode : s.mode ≠ .noPipe) (hpoint : s.point = .started) :
    s.store.Handoff := by
  have hpiped := h.piped hmode
  have hdone : s.done = false := by have := h.announced; simpa [hpoint] using this
  have hbyte : s.byte = false := by have := h.written; simpa [hpoint] using this
  have hlist : s.freed = 0 := by
    have := h.list; simp only [made, hpoint, true_or, if_true] at this; omega
  have halive : s.alive = true := by
    rw [h.held]
    cases hw : s.watcher
    · have := hpiped.fired (hpiped.kept hw); simp [hbyte] at this
    · exact .inr rfl
  refine ⟨⟨?_, ?_, ?_, ?_, ?_, ?_, ?_, ?_, ?_⟩, h.held⟩
  · simp [Lookup.store, hdone]
  · simp [Lookup.store, hbyte]
  · by_cases hstatus : s.answer.status = 0 <;> simp [Lookup.store, made, hstatus, hlist]
  · simp [Lookup.store, halive]
  · exact h.collected
  · exact h.unfilled
  · exact h.inTime
  · exact fun _ => ⟨hpiped.idle, hpiped.armed, hpiped.told, hpiped.kept, hpiped.fired, hpiped.entered, hpiped.left⟩
  · simp [Lookup.store, hmode]

theorem Handoff.setDone (h : s.Handoff) (hmode : s.mode ≠ .noPipe) (hpoint : s.point = .stored) :
    s.setDone.Handoff := by
  have hpiped := h.piped hmode
  have hbyte : s.byte = false := by have := h.written; simpa [hpoint] using this
  have hlist := h.list
  refine ⟨⟨?_, ?_, ?_, ?_, ?_, ?_, ?_, ?_, ?_⟩, h.held⟩
  · simp [Lookup.setDone]
  · simp [Lookup.setDone, hbyte]
  · rw [made_of_stored (by simp [Lookup.setDone])]; rwa [made_of_stored (by simp [hpoint])] at hlist
  · exact h.emptied
  · exact h.collected
  · simp [Lookup.setDone]
  · exact h.inTime
  · exact fun _ => ⟨hpiped.idle, hpiped.armed, hpiped.told, hpiped.kept, hpiped.fired, hpiped.entered, hpiped.left⟩
  · simp [Lookup.setDone, hmode]

theorem Handoff.writeByte (h : s.Handoff) (hmode : s.mode ≠ .noPipe) (hpoint : s.point = .announced) :
    s.writeByte.Handoff := by
  have hpiped := h.piped hmode
  have hdone : s.done = true := h.announced.2 (.inl hpoint)
  have hlist := h.list
  refine ⟨⟨?_, ?_, ?_, ?_, ?_, ?_, ?_, ?_, ?_⟩, h.held⟩
  · simp [Lookup.writeByte, hdone]
  · simp [Lookup.writeByte]
  · rw [made_of_stored (by simp [Lookup.writeByte])]
    rwa [made_of_stored (by simp [hpoint])] at hlist
  · exact h.emptied
  · exact h.collected
  · exact h.unfilled
  · exact h.inTime
  · exact fun _ => ⟨hpiped.idle, hpiped.armed, hpiped.told, hpiped.kept, by simp [Lookup.writeByte, hmode],
      hpiped.entered, hpiped.left⟩
  · simp [Lookup.writeByte, hmode]

/-- The watcher has fired: whoever waits for the lookup is told. -/
def fire (s : Lookup) : Lookup :=
  let s := { s with finished := true }
  if s.cancelled then s
  else
    let s := if s.entry then { s with entryWatcher := false } else s
    if s.notify then { s with notify := false }.callback else s

theorem onReady_eq (s : Lookup) : s.onReady = if s.finished || !s.done then s else s.fire.collect := by
  unfold onReady fire collect callback
  rcases s.resolved with _ | list <;> cases s.done <;> cases s.cancelled <;> cases s.entry <;> cases s.notify <;> rfl

/-- The watcher that has not fired yet tells at once, and to a lookup that is still entered. -/
theorem Handoff.fire (h : s.Handoff) (hbyte : s.byte = true) (hwatcher : s.watcher = true)
    (hfin : s.finished = false) : s.fire.Handoff := by
  have hmode : s.mode ≠ .noPipe := by intro hm; simp [(h.inline hm).unwatched] at hwatcher
  have hpiped := h.piped hmode
  have harmed := hpiped.armed
  have htold := hpiped.told
  have hinTime := h.inTime
  unfold Lookup.fire
  cases hc : s.cancelled with
  | true =>
    simp only [if_true]
    simp only [hfin, hc] at harmed htold
    exact ⟨⟨h.announced, h.written, h.list, h.emptied, h.collected, h.unfilled, h.inTime,
      fun _ => ⟨hpiped.idle, by simpa [hc] using harmed, by simpa [hc] using htold, fun _ => rfl, fun _ => hbyte,
        fun he => absurd (hpiped.entered he).1 (by simp [hc]), fun _ => by simp⟩,
      fun hm => absurd hm hmode⟩, h.held⟩
  | false =>
    have hentry : s.entry = true := by
      by_contra he
      have := hpiped.left (by simpa using he) hfin; simp [hc] at this
    simp only [hfin, hc] at harmed htold
    simp only [hentry, harmed, if_true, Bool.false_eq_true, if_false]
    refine ⟨⟨h.announced, h.written, h.list, h.emptied, h.collected, h.unfilled, ?_, fun _ => ⟨hpiped.idle, ?_, ?_, ?_,
      fun _ => hbyte, ?_, ?_⟩, fun hm => absurd hm hmode⟩, ?_⟩
    · simp [callback, hinTime]
    · simp [callback]
    · simp [callback, htold]
    · simp [callback]
    · simp [callback]
    · simp [callback]
    · simpa [callback, hentry] using h.held

theorem Handoff.onReady (h : s.Handoff) (hbyte : s.byte = true) (hwatcher : s.watcher = true) :
    s.onReady.Handoff := by
  rw [onReady_eq]
  split
  · exact h
  · next hnot =>
    obtain ⟨hfin, -⟩ : s.finished = false ∧ s.done = true := by simpa using hnot
    exact (h.fire hbyte hwatcher hfin).collect

theorem Placed.drop (h : s.Placed) (hheld : s.alive = false → s.entry = false ∧ s.watcher = false) :
    s.drop.Handoff := by
  unfold Lookup.drop
  split
  · next hlast =>
    simp only [Bool.and_eq_true, Bool.not_eq_true'] at hlast
    obtain ⟨⟨-, hentry⟩, hwatcher⟩ := hlast
    refine ⟨⟨h.announced, h.written, h.list, fun _ => rfl, ?_, h.unfilled, h.inTime, fun hm => ?_, fun hm => ?_⟩, ?_⟩
    · have := h.collected
      dsimp only; omega
    · have hp := h.piped hm; exact ⟨hp.idle, hp.armed, hp.told, hp.kept, hp.fired, hp.entered, hp.left⟩
    · have hi := h.inline hm; exact ⟨hi.unwatched, hi.quiet, hi.told, hi.stays⟩
    · simp [hentry, hwatcher]
  · next hnot =>
    refine ⟨h, ?_⟩
    cases ha : s.alive with
    | false => simp [hheld ha]
    | true => cases he : s.entry <;> cases hw : s.watcher <;> simp [ha, he, hw] at hnot ⊢

theorem Handoff.purge (h : s.Handoff) (hwatcher : s.watcher = true) (hfin : s.finished = true) :
    ({ s with watcher := false } : Lookup).drop.Handoff := by
  have halive : s.alive = true := h.held.2 (.inr hwatcher)
  refine Placed.drop ⟨h.announced, h.written, h.list, h.emptied, h.collected, h.unfilled, h.inTime, fun hm => ?_,
    fun hm => ?_⟩ (by simp [halive])
  · have hp := h.piped hm; exact ⟨hp.idle, hp.armed, hp.told, fun _ => hfin, hp.fired, hp.entered, hp.left⟩
  · have hi := h.inline hm; simp [hi.unwatched] at hfin

/-- The release, of a lookup whose callback is not a pending microtask: the watcher is cancelled if it has not fired. -/
theorem Handoff.release (h : s.Handoff) (hstays : s.microtask = false) : s.release.Handoff := by
  unfold Lookup.release
  split
  · next hentry =>
    have halive : s.alive = true := h.held.2 (.inl hentry)
    by_cases hm : s.mode = .noPipe
    · have hi := h.inline hm
      simp only [hi.unwatched, Bool.false_eq_true, if_false]
      exact Placed.drop ⟨h.announced, h.written, h.list, h.emptied, h.collected, h.unfilled, h.inTime,
        fun hm' => absurd hm hm', fun _ => ⟨by simp, hi.quiet, hi.told, fun _ => hstays⟩⟩ (by simp [halive])
    · have hp := h.piped hm
      obtain ⟨hcancelled, harmed⟩ := hp.entered hentry
      have htold := hp.told
      cases hfin : s.finished with
      | true =>
        have hsame : (if s.entryWatcher = true then s.cancel else s) = s := by simp [cancel, hfin]
        rw [hsame]
        exact Placed.drop ⟨h.announced, h.written, h.list, h.emptied, h.collected, h.unfilled, h.inTime,
          fun _ => ⟨hp.idle, hp.armed, hp.told, hp.kept, hp.fired, by simp, by simp [hfin]⟩,
          fun hm' => absurd hm' hm⟩ (by simp [halive])
      | false =>
        have hcancel : (if s.entryWatcher = true then s.cancel else s) = { s with cancelled := true, notify := false } := by
          simp [cancel, hfin, harmed hfin]
        rw [hcancel]
        simp only [hfin, hcancelled] at htold
        exact Placed.drop ⟨h.announced, h.written, h.list, h.emptied, h.collected, h.unfilled, h.inTime,
          fun _ => ⟨hp.idle, by simp, by simpa using htold, hp.kept, hp.fired, by simp, by simp⟩,
          fun hm' => absurd hm' hm⟩ (by simp [halive])
  · exact h

theorem Handoff.microtask (h : s.Handoff) (hmicro : s.microtask = true) :
    ({ s with microtask := false } : Lookup).callback.Handoff := by
  have hmode : s.mode = .noPipe := by
    by_contra hm
    simp [(h.piped hm).idle] at hmicro
  have hi := h.inline hmode
  have hentry : s.entry = true := by
    by_contra he
    simp [hi.stays (by simpa using he)] at hmicro
  have htold := hi.told
  simp only [hmicro, if_true] at htold
  exact ⟨⟨h.announced, h.written, h.list, h.emptied, h.collected, h.unfilled, by simp [callback, h.inTime, hentry],
    fun hm => absurd hmode hm, fun _ => ⟨hi.unwatched, hi.quiet, by simp [callback, htold], fun _ => rfl⟩⟩, h.held⟩

/-! ## Every run -/

theorem Handoff.adopted {mode : StartMode} (answer : Resolution) (hmode : mode ≠ .noPipe) :
    ({ mode, answer, entryWatcher := true, watcher := true, notify := true } : Lookup).Handoff :=
  ⟨⟨by simp, by simp, by simp [made], by simp, by simp, by simp, rfl,
    fun _ => ⟨rfl, rfl, rfl, by simp, by simp, by simp, by simp⟩, fun hm => absurd hm hmode⟩, by simp⟩

theorem Handoff.inlined (answer : Resolution) :
    ({ ({ mode := .noPipe, answer } : Lookup).resolve with microtask := true } : Lookup).Handoff := by
  refine ⟨⟨?_, fun _ => rfl, ?_, ?_, Nat.le_refl _, fun _ => rfl, rfl, ?_, fun _ => ⟨⟨rfl, rfl, rfl⟩, rfl, rfl, ?_⟩⟩, ?_⟩
  · simp [resolve, Lookup.setDone, Lookup.writeByte]
  · by_cases hstatus : answer.status = 0 <;>
      simp [resolve, Lookup.store, Lookup.setDone, Lookup.writeByte, made, hstatus]
  · simp [resolve, Lookup.store, Lookup.setDone, Lookup.writeByte]
  · simp [resolve, Lookup.store, Lookup.setDone, Lookup.writeByte]
  · simp [resolve, Lookup.store, Lookup.setDone, Lookup.writeByte]
  · simp [resolve, Lookup.store, Lookup.setDone, Lookup.writeByte]

theorem Handoff.start (mode : StartMode) (answer : Resolution) : (start mode answer).Handoff := by
  cases mode with
  | thread => exact Handoff.adopted answer (by simp)
  | noThread =>
    have h := @Handoff.adopted .noThread answer (by simp)
    exact ((h.store (by simp) rfl).setDone (by simp [Lookup.store]) rfl).writeByte (by simp [Lookup.store, Lookup.setDone]) rfl
  | noPipe =>
    have h := (Handoff.inlined answer).collect
    have heq : Lookup.start .noPipe answer =
        ({ ({ mode := .noPipe, answer } : Lookup).resolve with microtask := true } : Lookup).collect := by
      by_cases hstatus : answer.status = 0 <;>
        simp [Lookup.start, resolve, Lookup.store, Lookup.setDone, Lookup.writeByte, Lookup.collect, hstatus]
    rw [heq]; exact h

theorem Handoff.step {s' : Lookup} {l : Label} (h : s.Handoff) (hstays : s.Stays l) (hstep : s.step l = some s') :
    s'.Handoff := by
  cases l with
  | thread =>
    simp only [Lookup.step] at hstep
    split at hstep
    · next hmode =>
      split at hstep
      · next hpoint =>
        cases hstep; exact h.store (by simp [hmode]) hpoint
      · next hpoint =>
        cases hstep; exact h.setDone (by simp [hmode]) hpoint
      · next hpoint =>
        cases hstep; exact h.writeByte (by simp [hmode]) hpoint
      · cases hstep
    · cases hstep
  | ready =>
    simp only [Lookup.step, Option.ite_none_right_eq_some, Option.some.injEq] at hstep
    obtain ⟨⟨hwatcher, hbyte⟩, rfl⟩ := hstep; exact h.onReady hbyte hwatcher
  | purge =>
    simp only [Lookup.step, Option.ite_none_right_eq_some, Option.some.injEq] at hstep
    obtain ⟨⟨hwatcher, hfin⟩, rfl⟩ := hstep; exact h.purge hwatcher hfin
  | microtask =>
    simp only [Lookup.step, Option.ite_none_right_eq_some, Option.some.injEq] at hstep
    obtain ⟨hmicro, rfl⟩ := hstep; exact h.microtask hmicro
  | access =>
    cases hstep
    unfold Lookup.access
    split
    · exact h.collect
    · exact h
  | release => cases hstep; exact h.release (hstays rfl)

theorem Handoff.unseen (h : s.Handoff) (hdone : s.done = false) (index : Nat) : s.address index = none := by
  have hcollect : s.collect = s := by
    obtain heq | ⟨-, -, hd, -⟩ := s.collect_eq
    · exact heq
    · simp [hdone] at hd
  unfold address access
  split
  · simp [hcollect, h.unfilled hdone]
  · rfl

theorem Handoff.ended {s : Lookup} (h : s.Handoff) (halive : s.alive = false) : s.point = .ended := by
  have hwatcher : s.watcher = false := by
    by_contra hw
    simp [h.held.2 (.inr (by simpa using hw))] at halive
  by_cases hm : s.mode = .noPipe
  · exact (h.inline hm).quiet
  · have hp := h.piped hm; exact h.written (hp.fired (hp.kept hwatcher))

theorem Handoff.answered (h : s.Handoff) (htold : 0 < s.notified) : s.done = true := by
  refine h.announced.2 (.inr ?_)
  by_cases hm : s.mode = .noPipe
  · exact (h.inline hm).quiet
  · have hp := h.piped hm
    cases hfin : s.finished with
    | true => exact h.written (hp.fired hfin)
    | false => simp [hp.told, hfin] at htold

theorem Handoff.once (h : s.Handoff) : s.notified ≤ 1 := by
  by_cases hm : s.mode = .noPipe
  · rw [(h.inline hm).told]
    split <;> omega
  · rw [(h.piped hm).told]
    split <;> omega

theorem Handoff.delivered (h : s.Handoff) (hproc : s.processed = true) : s.notified = 1 := by
  unfold processed at hproc
  by_cases hm : s.mode = .noPipe
  · rw [if_pos hm] at hproc; rw [(h.inline hm).told]; simpa using hproc
  · rw [if_neg hm] at hproc; simp [(h.piped hm).told, hproc]

theorem Handoff.handedOff (h : s.Handoff) : s.HandedOff := by
  have hlist := h.list
  have hcollected := h.collected
  have hmade : s.made ≤ 1 := by
    unfold made
    split <;> omega
  have hfreed : s.freed ≤ s.made := by omega
  constructor
  · exact h.once
  · exact h.answered
  · exact h.inTime
  · exact h.delivered
  · exact h.ended
  · intro hentry hwatcher
    have hheld := h.held; simpa [hentry, hwatcher] using hheld
  · omega
  · exact hfreed
  · intro halive; simpa [h.emptied halive] using hlist
  · exact h.unseen

end Lookup

open Lookup

/-- **A lookup is handed off**: however the lookup is started and answered, and in whatever order the thread, the loop, the
accessors and the release take their steps, if only a lookup without a pipe is not released before its microtask has run:
whoever asked is told at most once, with the answer there, and never behind the release; the state outlives the thread, and
the list is freed once. -/
theorem hands_off (mode : StartMode) (answer : Resolution) {as : List Lookup.Label} {s : Lookup}
    (h : Run Lookup.step Stays (start mode answer) as s) : s.HandedOff :=
  (Run.invariant (I := Handoff) (fun _ _ _ hi hp hs => hi.step hp hs) h (Handoff.start mode answer)).handedOff

/-- A lookup on a thread: the accessors look early, the thread answers, the watcher fires, and the lookup is released. -/
theorem hands_off_thread : ∃ s, Run Lookup.step Stays (start .thread ⟨0, [⟨.inet6, some [58, 58, 49]⟩, ⟨.other, none⟩]⟩)
    [.access, .thread, .access, .thread, .thread, .ready, .access, .release, .purge] s ∧
    s.notified = 1 ∧ s.alive = false ∧ s.HandedOff := by
  have hruns : runs (fun s l => if decide (Stays s l) then s.step l else none)
      (start .thread ⟨0, [⟨.inet6, some [58, 58, 49]⟩, ⟨.other, none⟩]⟩)
      [.access, .thread, .access, .thread, .thread, .ready, .access, .release, .purge] = some _ := rfl
  have hrun := (Run.of_guarded _ hruns).mono fun _ _ => of_decide_eq_true
  exact ⟨_, hrun, rfl, rfl, hands_off _ _ hrun⟩

/-- Without a pipe, the microtask calls back also when the lookup has been released before. -/
theorem released_lookup_notifies : ∃ s, Run Lookup.step (fun _ _ => True) (start .noPipe ⟨0, [⟨.inet, some [49]⟩]⟩)
    [.release, .microtask] s ∧ s.notified = 1 ∧ s.late = true ∧ ¬ s.HandedOff := by
  refine ⟨_, Run.of_runs rfl, rfl, rfl, ?_⟩
  intro h; exact absurd h.inTime (by decide)

end NodeCompat.Net
