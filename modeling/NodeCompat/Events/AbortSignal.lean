import NodeCompat.Bytes
import NodeCompat.Lib.Run
import Mathlib.Data.List.Nodup

/-!
# AbortSignal

A registration is an object that the list of a signal and the snapshots of dispatches share: what changes of it is its
`removed`, which is kept apart, as the serial numbers of the registrations that have it set; likewise the events whose
propagation has been stopped. Listeners run in the middle of `dispatchEvent` and may call everything again. The
dispatches under way are a stack, and the listener of the top one is running.

`signal_promises`: in every state of every run the signal keeps what it promises to its listeners.
-/

namespace NodeCompat.Events.Abort

open List Option

variable {L V : Type}

/-- An object made by `new Event(type)`. -/
structure Event where
  serial : Nat
  type : Bytes
deriving DecidableEq

/-- `"abort"` -/
def abortType : Bytes := text "abort"

inductive Callback (L : Type)
  | user (fn : L)
  | onabortListener
deriving DecidableEq

structure Registration (L : Type) where
  serial : Nat
  type : Bytes
  callback : Callback L
  capture : Bool
  once : Bool
deriving DecidableEq

/-- What makes two registrations the same. -/
def Registration.key (entry : Registration L) : Bytes × Callback L × Bool := (entry.type, entry.callback, entry.capture)

inductive ListenerOptions
  | boolean (capture : Bool)
  | object (capture once : Option Bool)

def ListenerOptions.capture : ListenerOptions → Bool
  | .boolean capture => capture
  | .object capture _ => capture.getD false

def ListenerOptions.once : ListenerOptions → Bool
  | .boolean _ => false
  | .object _ once => once.getD false

/-- A value of the program, or a new `DOMException`. -/
inductive Reason (V : Type)
  | value (v : V)
  | domException (message name : Bytes)
deriving DecidableEq

structure AbortSignal (L V : Type) where
  abortedValue : Bool := false
  reasonValue : Option (Reason V) := none
  listeners : List (Registration L) := []
  onabortValue : Option L := none
  /-- The next serial number of a registration or an event. -/
  serial : Nat := 0
  removed : List Nat := []
  events : List Event := []
  stopped : List Nat := []
  /-- The errors that are going to be thrown. -/
  microtasks : List V := []

namespace AbortSignal

variable [DecidableEq L]

def addEventListener (s : AbortSignal L V) (type : Bytes) (callback : Callback L) (options : ListenerOptions) :
    AbortSignal L V :=
  if s.listeners.any (fun entry => entry.serial ∉ s.removed && entry.key = (type, callback, options.capture)) then s
  else { s with
      listeners := s.listeners ++ [⟨s.serial, type, callback, options.capture, options.once⟩]
      serial := s.serial + 1 }

def removeEventListener (s : AbortSignal L V) (type : Bytes) (callback : Callback L) (capture : Bool) : AbortSignal L V :=
  let removed := s.removed ++ (s.listeners.filter (fun entry => entry.key = (type, callback, capture))).map (·.serial)
  { s with removed, listeners := s.listeners.filter (fun entry => entry.serial ∉ removed) }

/-- The setter. -/
def onabort (s : AbortSignal L V) (callback : Option L) : AbortSignal L V :=
  let s :=
    if callback ≠ none ∧ s.onabortValue = none then s.addEventListener abortType .onabortListener (.boolean false) else s
  let s := if callback = none then s.removeEventListener abortType .onabortListener false else s
  { s with onabortValue := callback }

theorem onabort_abortedValue (s : AbortSignal L V) (callback : Option L) :
    (s.onabort callback).abortedValue = s.abortedValue := by
  have hadd : (s.addEventListener abortType .onabortListener (.boolean false)).abortedValue = s.abortedValue := by
    unfold addEventListener
    split <;> rfl
  cases callback with
  | none => simp [onabort, removeEventListener]
  | some fn =>
    by_cases hv : s.onabortValue = none
    · simpa [onabort, hv] using hadd
    · simp [onabort, hv]

/-- `new Event(type)` -/
def newEvent (s : AbortSignal L V) (type : Bytes) : AbortSignal L V × Event :=
  ({ s with events := s.events ++ [⟨s.serial, type⟩], serial := s.serial + 1 }, ⟨s.serial, type⟩)

end AbortSignal

/-! ## Dispatches -/

/-- The turn of a registration in a dispatch: whether it was removed then, and whether it was called. -/
structure Turn (L : Type) where
  entry : Registration L
  removed : Bool
  called : Bool
deriving DecidableEq

/-- A dispatch, with the registrations of its type that were present when it started, and their turns so far. -/
structure Dispatch (L : Type) where
  event : Event
  byAbort : Bool
  present : List (Registration L)
  turns : List (Turn L) := []

def Dispatch.turn (d : Dispatch L) (entry : Registration L) (removed called : Bool) : Dispatch L :=
  { d with turns := d.turns ++ [⟨entry, removed, called⟩] }

/-- A dispatch under way: the listener that is running and the rest of the snapshot. -/
structure Frame (L : Type) where
  dispatch : Dispatch L
  running : L
  rest : List (Registration L)

/-- The function that calling a registration's callback runs. -/
def AbortSignal.target (s : AbortSignal L V) : Callback L → Option L
  | .user fn => some fn
  | .onabortListener => s.onabortValue

/-- The loop of `dispatchEvent` up to the next listener, with it and the rest of the snapshot, or to its end. -/
def advance [DecidableEq L] (s : AbortSignal L V) (d : Dispatch L) :
    List (Registration L) → AbortSignal L V × Dispatch L × Option (L × List (Registration L))
  | [] => (s, d, none)
  | entry :: rest =>
    if d.event.serial ∈ s.stopped then (s, d, none)
    else if entry.type ≠ d.event.type then advance s d rest
    else if entry.serial ∈ s.removed then advance s (d.turn entry true false) rest
    else
      let s := if entry.once then s.removeEventListener entry.type entry.callback entry.capture else s
      match s.target entry.callback with
      | some fn => (s, d.turn entry false true, some (fn, rest))
      -- an `onabort` that has no handler calls nothing
      | none => advance s (d.turn entry false false) rest

structure Config (L V : Type) where
  signal : AbortSignal L V := {}
  stack : List (Frame L) := []
  finished : List (Dispatch L) := []

/-- All dispatches. -/
def Config.dispatches (c : Config L V) : List (Dispatch L) := c.stack.map Frame.dispatch ++ c.finished

variable [DecidableEq L]

/-- The loop goes on with the rest of a snapshot. -/
def resume (s : AbortSignal L V) (d : Dispatch L) (rest : List (Registration L)) (stack : List (Frame L))
    (finished : List (Dispatch L)) : Config L V :=
  match advance s d rest with
  | (s, d, some (fn, rest)) => { signal := s, stack := ⟨d, fn, rest⟩ :: stack, finished }
  | (s, d, none) => { signal := s, stack, finished := d :: finished }

def dispatchEvent (c : Config L V) (event : Event) (byAbort : Bool) : Config L V :=
  resume c.signal { event, byAbort, present := c.signal.listeners.filter (fun entry => entry.type = event.type) }
    c.signal.listeners c.stack c.finished

/-- The reason for an abort; `undefined` is `none`. -/
def reasonFor (reason : Option V) : Reason V :=
  match reason with
  | some v => .value v
  | none => .domException (text "This operation was aborted") (text "AbortError")

def signalAbort (c : Config L V) (reason : Option V) : Config L V :=
  if c.signal.abortedValue then c
  else
    let s := { c.signal with reasonValue := some (reasonFor reason), abortedValue := true }
    dispatchEvent { c with signal := (s.newEvent abortType).1 } (s.newEvent abortType).2 true

/-! ## Runs -/

/-- What a program can do with a signal and its events; `null` for a callback is `none`. -/
inductive Op (L V : Type)
  | addEventListener (type : Bytes) (callback : Option L) (options : ListenerOptions)
  | removeEventListener (type : Bytes) (callback : Option L) (options : ListenerOptions)
  | onabort (callback : Option L)
  | signalAbort (reason : Option V)
  | newEvent (type : Bytes)
  | dispatchEvent (event : Event)
  | stopImmediatePropagation (event : Event)

/-- An operation, or the end of the running listener, by an error or not. -/
inductive Move (L V : Type)
  | call (op : Op L V)
  | ret (thrown : Option V)

def call (c : Config L V) : Op L V → Option (Config L V)
  | .addEventListener _ none _ => some c
  | .addEventListener type (some fn) options =>
    some { c with signal := c.signal.addEventListener type (.user fn) options }
  -- no registration has the callback `null`
  | .removeEventListener _ none _ => some c
  | .removeEventListener type (some fn) options =>
    some { c with signal := c.signal.removeEventListener type (.user fn) options.capture }
  | .onabort callback => some { c with signal := c.signal.onabort callback }
  | .signalAbort reason => some (signalAbort c reason)
  | .newEvent type => some { c with signal := (c.signal.newEvent type).1 }
  | .dispatchEvent event => if event ∈ c.signal.events then some (dispatchEvent c event false) else none
  | .stopImmediatePropagation event =>
    if event ∈ c.signal.events then
      some { c with signal := { c.signal with stopped := c.signal.stopped ++ [event.serial] } }
    else none

def step (c : Config L V) : Move L V → Option (Config L V)
  | .call op => call c op
  | .ret thrown =>
    match c.stack with
    | [] => none
    | f :: fs =>
      some (resume { c.signal with microtasks := c.signal.microtasks ++ thrown.toList } f.dispatch f.rest fs c.finished)

/-! ## What a signal promises -/

/-- The registrations that the list holds: no two are the same, and they are not removed. -/
structure Distinct (s : AbortSignal L V) : Prop where
  keys : (s.listeners.map Registration.key).Nodup
  live : ∀ entry ∈ s.listeners, entry.serial ∉ s.removed

/-- The turns of a dispatch come in the order of its registrations, each of which is called when its turn comes unless it
has been removed, and one that is called and has `once` is gone then. -/
structure Fair (s : AbortSignal L V) (d : Dispatch L) : Prop where
  order : d.turns.map Turn.entry <+: d.present
  nodup : d.present.Nodup
  called : ∀ t ∈ d.turns, t.called = !t.removed
  once : ∀ t ∈ d.turns, t.called = true → t.entry.once = true → t.entry.serial ∈ s.removed ∧ t.entry ∉ s.listeners

structure Promises (c : Config L V) : Prop where
  distinct : Distinct c.signal
  fair : ∀ d ∈ c.dispatches, Fair c.signal d
  /-- A dispatch ends when each of its registrations has had its turn, or its event has been stopped. -/
  complete : ∀ d ∈ c.finished, d.turns.map Turn.entry = d.present ∨ d.event.serial ∈ c.signal.stopped
  /-- The handler is registered while there is one. -/
  handler : c.signal.onabortValue ≠ none ↔ ∃ entry ∈ c.signal.listeners, entry.callback = .onabortListener
  /-- One abort event, or none. -/
  aborts : (c.dispatches.filter (·.byAbort)).length = if c.signal.abortedValue then 1 else 0
  type : ∀ d ∈ c.dispatches, d.byAbort = true → d.event.type = abortType
  /-- The first abort dispatches a new event, which has not been stopped, to the registrations that are there. -/
  first : ∀ reason, c.signal.abortedValue = false → ∃ event d,
    event ∉ c.signal.events ∧ event.serial ∉ c.signal.stopped ∧ d.event = event ∧ d.byAbort = true ∧
    d.present = c.signal.listeners.filter (fun entry => entry.type = abortType) ∧
    d ∈ (signalAbort c reason).dispatches ∧ (signalAbort c reason).signal.reasonValue = some (reasonFor reason) ∧
    (signalAbort c reason).signal.abortedValue = true
  /-- The later ones do nothing. -/
  later : ∀ reason, c.signal.abortedValue = true → signalAbort c reason = c

/-! ## The signal -/

/-- What the list of registrations keeps. -/
structure SignalInv (s : AbortSignal L V) : Prop extends Distinct s where
  serials : (s.listeners.map Registration.serial).Nodup
  fresh : ∀ entry ∈ s.listeners, entry.serial < s.serial
  removedFresh : ∀ n ∈ s.removed, n < s.serial
  eventsFresh : ∀ event ∈ s.events, event.serial < s.serial
  stoppedFresh : ∀ n ∈ s.stopped, n < s.serial

/-- The registration that the setter of `onabort` makes. -/
def handlerKey : Bytes × Callback L × Bool := (abortType, .onabortListener, false)

/-- The handler is registered while there is one. -/
structure Handled (s : AbortSignal L V) : Prop where
  handler : s.onabortValue ≠ none ↔ ∃ entry ∈ s.listeners, entry.callback = .onabortListener
  plain : ∀ entry ∈ s.listeners, entry.callback = .onabortListener → entry.key = handlerKey ∧ entry.once = false

/-- What everything that happens leaves of a signal. -/
structure Grows (s s' : AbortSignal L V) : Prop where
  removed : s.removed ⊆ s'.removed
  stopped : s.stopped ⊆ s'.stopped
  kept : ∀ entry ∈ s.listeners, entry.serial ∉ s'.removed → entry ∈ s'.listeners
  aborted : s.abortedValue = true → s'.abortedValue = true ∧ s'.reasonValue = s.reasonValue

namespace Grows

variable {s s' s'' : AbortSignal L V}

omit [DecidableEq L] in
theorem refl (s : AbortSignal L V) : Grows s s := ⟨Subset.refl _, Subset.refl _, fun _ h _ => h, fun h => ⟨h, rfl⟩⟩

omit [DecidableEq L] in
theorem trans (h : Grows s s') (h' : Grows s' s'') : Grows s s'' := by
  refine ⟨Subset.trans h.removed h'.removed, Subset.trans h.stopped h'.stopped, fun entry he hn => ?_, fun ha => ?_⟩
  · exact h'.kept entry (h.kept entry he (fun hr => hn (h'.removed hr))) hn
  · obtain ⟨ha', hreason⟩ := h.aborted ha; exact ⟨(h'.aborted ha').1, (h'.aborted ha').2.trans hreason⟩

end Grows

open AbortSignal

namespace SignalInv

variable {s : AbortSignal L V} {type : Bytes} {callback : Callback L} {options : ListenerOptions} {capture : Bool}
  {entry : Registration L}

omit [DecidableEq L] in
theorem init : SignalInv ({} : AbortSignal L V) where
  keys := nodup_nil
  live := fun _ h => absurd h not_mem_nil
  serials := nodup_nil
  fresh := fun _ h => absurd h not_mem_nil
  removedFresh := fun _ h => absurd h not_mem_nil
  eventsFresh := fun _ h => absurd h not_mem_nil
  stoppedFresh := fun _ h => absurd h not_mem_nil

section

variable (h : SignalInv s)
include h

omit [DecidableEq L] in
theorem nodup : s.listeners.Nodup := h.keys.of_map _

theorem addEventListener_cases (type : Bytes) (callback : Callback L) (options : ListenerOptions) :
    (s.addEventListener type callback options = s ∧ ∃ entry ∈ s.listeners, entry.key = (type, callback, options.capture)) ∨
    ((∀ entry ∈ s.listeners, entry.key ≠ (type, callback, options.capture)) ∧
      s.addEventListener type callback options = { s with
        listeners := s.listeners ++ [⟨s.serial, type, callback, options.capture, options.once⟩], serial := s.serial + 1 }) := by
  unfold addEventListener
  split
  · next hany =>
    obtain ⟨entry, he, hk⟩ := List.any_eq_true.1 hany
    rw [Bool.and_eq_true, decide_eq_true_eq, decide_eq_true_eq] at hk
    exact .inl ⟨rfl, entry, he, hk.2⟩
  · next hany =>
    refine .inr ⟨fun entry he hk => hany (List.any_eq_true.2 ⟨entry, he, ?_⟩), rfl⟩
    rw [Bool.and_eq_true, decide_eq_true_eq, decide_eq_true_eq]; exact ⟨h.live entry he, hk⟩

omit [DecidableEq L] in
theorem push (hserial : entry.serial = s.serial) (hkey : ∀ other ∈ s.listeners, other.key ≠ entry.key) :
    SignalInv { s with listeners := s.listeners ++ [entry], serial := s.serial + 1 } := by
  have hlt : ∀ n, n < s.serial → n < s.serial + 1 := fun n hn => Nat.lt_succ_of_lt hn
  have hall : ∀ {P : Registration L → Prop}, (∀ other ∈ s.listeners, P other) → P entry →
      ∀ other ∈ s.listeners ++ [entry], P other := by
    intro P hP he other hm
    rcases mem_append.1 hm with hm | hm
    · exact hP other hm
    · exact mem_singleton.1 hm ▸ he
  refine ⟨⟨?_, ?_⟩, ?_, ?_, ?_, ?_, ?_⟩
  · rw [map_append]
    refine Nodup.append h.keys (nodup_singleton _) (disjoint_singleton.2 fun hm => ?_)
    obtain ⟨other, ho, hk⟩ := List.mem_map.1 hm; exact hkey other ho hk
  · exact hall h.live (fun hr => absurd (h.removedFresh _ hr) (hserial ▸ Nat.lt_irrefl _))
  · rw [map_append]
    refine Nodup.append h.serials (nodup_singleton _) (disjoint_singleton.2 fun hm => ?_)
    obtain ⟨other, ho, hk⟩ := List.mem_map.1 hm
    have := h.fresh other ho; omega
  · exact hall (fun other ho => hlt _ (h.fresh other ho)) (hserial ▸ Nat.lt_succ_self _)
  · exact fun n hn => hlt n (h.removedFresh n hn)
  · exact fun event he => hlt _ (h.eventsFresh event he)
  · exact fun n hn => hlt n (h.stoppedFresh n hn)

theorem addEventListener (type : Bytes) (callback : Callback L) (options : ListenerOptions) :
    SignalInv (s.addEventListener type callback options) ∧ Grows s (s.addEventListener type callback options) := by
  rcases h.addEventListener_cases type callback options with ⟨heq, _⟩ | ⟨hnew, heq⟩
  · rw [heq]; exact ⟨h, Grows.refl s⟩
  · rw [heq]; exact ⟨h.push rfl hnew, Subset.refl _, Subset.refl _, fun _ he _ => mem_append_left _ he, fun ha => ⟨ha, rfl⟩⟩

/-- The registrations with the key are taken out, and their serial numbers are removed then. -/
theorem removeEventListener_listeners : (s.removeEventListener type callback capture).listeners =
      s.listeners.filter (fun entry => entry.key ≠ (type, callback, capture)) := by
  apply filter_congr
  intro entry he
  rw [decide_eq_decide, mem_append, not_or]
  constructor
  · rintro ⟨_, hn⟩ hk; exact hn (List.mem_map_of_mem (mem_filter.2 ⟨he, decide_eq_true hk⟩))
  · intro hk
    refine ⟨h.live entry he, fun hm => ?_⟩
    obtain ⟨other, ho, hserial⟩ := List.mem_map.1 hm
    obtain ⟨hmem, hkey⟩ := mem_filter.1 ho
    have hsame : other = entry := inj_on_of_nodup_map h.serials hmem he hserial
    exact hk (hsame ▸ of_decide_eq_true hkey)

theorem removeEventListener (type : Bytes) (callback : Callback L) (capture : Bool) :
    SignalInv (s.removeEventListener type callback capture) ∧ Grows s (s.removeEventListener type callback capture) := by
  have hsub : (s.removeEventListener type callback capture).listeners.Sublist s.listeners := filter_sublist
  refine ⟨⟨⟨h.keys.sublist (hsub.map _), ?_⟩, h.serials.sublist (hsub.map _), fun entry he => h.fresh entry (hsub.subset he),
    ?_, h.eventsFresh, h.stoppedFresh⟩, subset_append_left _ _, Subset.refl _, ?_, fun ha => ⟨ha, rfl⟩⟩
  · intro entry he; exact of_decide_eq_true (mem_filter.1 he).2
  · intro n hn
    rcases mem_append.1 hn with hn | hn
    · exact h.removedFresh n hn
    · obtain ⟨entry, he, rfl⟩ := List.mem_map.1 hn; exact h.fresh entry (mem_of_mem_filter he)
  · exact fun entry he hn => mem_filter.2 ⟨he, decide_eq_true hn⟩

end

theorem removeEventListener_self (he : entry ∈ s.listeners) :
    entry.serial ∈ (s.removeEventListener entry.type entry.callback entry.capture).removed := by
  apply mem_append_right
  exact List.mem_map_of_mem (mem_filter.2 ⟨he, decide_eq_true rfl⟩)

omit [DecidableEq L] in
theorem setHandler (h : SignalInv s) (handler : Option L) : SignalInv { s with onabortValue := handler } :=
  ⟨⟨h.keys, h.live⟩, h.serials, h.fresh, h.removedFresh, h.eventsFresh, h.stoppedFresh⟩

omit [DecidableEq L] in
theorem newEvent (h : SignalInv s) (type : Bytes) : SignalInv (s.newEvent type).1 ∧ Grows s (s.newEvent type).1 := by
  refine ⟨⟨⟨h.keys, h.live⟩, h.serials, fun entry he => Nat.lt_succ_of_lt (h.fresh entry he),
    fun n hn => Nat.lt_succ_of_lt (h.removedFresh n hn), fun event he => ?_,
    fun n hn => Nat.lt_succ_of_lt (h.stoppedFresh n hn)⟩, Subset.refl _, Subset.refl _, fun _ he _ => he,
    fun ha => ⟨ha, rfl⟩⟩
  rcases mem_append.1 he with he | he
  · exact Nat.lt_succ_of_lt (h.eventsFresh event he)
  · rw [mem_singleton.1 he]; exact Nat.lt_succ_self _

end SignalInv

/-! ## The handler -/

namespace Handled

variable {s : AbortSignal L V} {type : Bytes} {fn : L} {options : ListenerOptions} {capture : Bool}

omit [DecidableEq L] in
theorem init : Handled ({} : AbortSignal L V) := ⟨by simp, fun _ h => absurd h not_mem_nil⟩

theorem addEventListener (hs : SignalInv s) (h : Handled s) : Handled (s.addEventListener type (.user fn) options) := by
  rcases hs.addEventListener_cases type (.user fn) options with ⟨heq, _⟩ | ⟨_, heq⟩
  · rw [heq]; exact h
  · rw [heq]
    constructor
    · refine h.handler.trans ⟨fun ⟨e, he, hc⟩ => ⟨e, mem_append_left _ he, hc⟩, fun ⟨e, he, hc⟩ => ?_⟩
      rcases mem_append.1 he with he | he
      · exact ⟨e, he, hc⟩
      · rw [mem_singleton.1 he] at hc; cases hc
    · intro e he hc
      rcases mem_append.1 he with he | he
      · exact h.plain e he hc
      · rw [mem_singleton.1 he] at hc; cases hc

theorem removeEventListener (hs : SignalInv s) (h : Handled s) {callback : Callback L} (hc : callback ≠ .onabortListener) :
    Handled (s.removeEventListener type callback capture) := by
  have hl : (s.removeEventListener type callback capture).listeners =
      s.listeners.filter (fun entry => entry.key ≠ (type, callback, capture)) := hs.removeEventListener_listeners
  constructor
  · rw [hl]
    refine h.handler.trans ⟨fun ⟨e, he, hec⟩ => ⟨e, mem_filter.2 ⟨he, ?_⟩, hec⟩, fun ⟨e, he, hec⟩ => ?_⟩
    · refine decide_eq_true fun hk => hc ?_
      rw [← hec]; exact (congrArg (·.2.1) hk).symm
    · exact ⟨e, mem_of_mem_filter he, hec⟩
  · intro e he; rw [hl] at he; exact h.plain e (mem_of_mem_filter he)

theorem onabort (hs : SignalInv s) (h : Handled s) (callback : Option L) :
    SignalInv (s.onabort callback) ∧ Handled (s.onabort callback) ∧ Grows s (s.onabort callback) := by
  cases callback with
  | none =>
    obtain ⟨hi, hg⟩ := hs.removeEventListener abortType .onabortListener false
    have heq : s.onabort none = { s.removeEventListener abortType .onabortListener false with onabortValue := none } := by
      simp [AbortSignal.onabort]
    have hgone : ∀ e ∈ (s.removeEventListener abortType .onabortListener false).listeners, e.callback ≠ .onabortListener := by
      intro e he hc
      rw [hs.removeEventListener_listeners] at he
      obtain ⟨hmem, hk⟩ := mem_filter.1 he; exact of_decide_eq_true hk (h.plain e hmem hc).1
    rw [heq]
    refine ⟨hi.setHandler none, ⟨?_, ?_⟩, hg.removed, hg.stopped, hg.kept, hg.aborted⟩
    · exact ⟨fun hn => absurd rfl hn, fun ⟨e, he, hc⟩ => absurd hc (hgone e he)⟩
    · exact fun e he hc => absurd hc (hgone e he)
  | some fn =>
    by_cases hv : s.onabortValue = none
    · have heq : s.onabort (some fn) =
          { s.addEventListener abortType .onabortListener (.boolean false) with onabortValue := some fn } := by
        simp [AbortSignal.onabort, hv]
      have hnone : ∀ e ∈ s.listeners, e.callback ≠ .onabortListener := fun e he hc => h.handler.2 ⟨e, he, hc⟩ hv
      obtain ⟨hi, hg⟩ := hs.addEventListener abortType .onabortListener (.boolean false)
      rw [heq]
      refine ⟨hi.setHandler _, ?_, hg.removed, hg.stopped, hg.kept, hg.aborted⟩
      rcases hs.addEventListener_cases abortType .onabortListener (.boolean false) with ⟨_, e, he, hk⟩ | ⟨_, hadd⟩
      · exact absurd (congrArg (·.2.1) hk) (hnone e he)
      · rw [hadd]
        refine ⟨⟨fun _ => ⟨_, mem_append_right _ mem_cons_self, rfl⟩, fun _ => some_ne_none fn⟩, ?_⟩
        intro e he hc
        rcases mem_append.1 he with he | he
        · exact absurd hc (hnone e he)
        · rw [mem_singleton.1 he]; exact ⟨rfl, rfl⟩
    · have heq : s.onabort (some fn) = { s with onabortValue := some fn } := by simp [AbortSignal.onabort, hv]
      rw [heq]
      refine ⟨hs.setHandler _, ⟨?_, h.plain⟩, Subset.refl _, Subset.refl _, fun _ he _ => he, fun ha => ⟨ha, rfl⟩⟩
      exact ⟨fun _ => h.handler.1 hv, fun _ => some_ne_none fn⟩

end Handled

/-! ## One dispatch -/

omit [DecidableEq L] in
theorem Fair.mono {s s' : AbortSignal L V} {d : Dispatch L} (h : Fair s d) (hg : Grows s s') (hd : Distinct s') : Fair s' d := by
  refine ⟨h.order, h.nodup, h.called, fun t ht hc ho => ?_⟩
  have hr := hg.removed (h.once t ht hc ho).1; exact ⟨hr, fun hl => hd.live _ hl hr⟩

omit [DecidableEq L] in
theorem Fair.turn {s : AbortSignal L V} {d : Dispatch L} {entry : Registration L} {rest : List (Registration L)}
    {removed called : Bool} (h : Fair s d) (hd : Distinct s)
    (horder : d.turns.map Turn.entry ++ entry :: rest = d.present) (hcalled : called = !removed)
    (honce : called = true → entry.once = true → entry.serial ∈ s.removed) : Fair s (d.turn entry removed called) := by
  refine ⟨⟨rest, ?_⟩, h.nodup, ?_, ?_⟩
  · simpa [Dispatch.turn] using horder
  · intro t ht
    rcases mem_append.1 ht with ht | ht
    · exact h.called t ht
    · rw [mem_singleton.1 ht]; exact hcalled
  · intro t ht hc ho
    rcases mem_append.1 ht with ht | ht
    · exact h.once t ht hc ho
    · obtain rfl := mem_singleton.1 ht; exact ⟨honce hc ho, fun hl => hd.live _ hl (honce hc ho)⟩

/-- A dispatch under way, before the rest of its snapshot. -/
structure Going (s : AbortSignal L V) (d : Dispatch L) (rest : List (Registration L)) : Prop where
  fair : Fair s d
  order : d.turns.map Turn.entry ++ rest.filter (fun entry => entry.type = d.event.type) = d.present
  known : ∀ entry ∈ rest, entry.serial ∉ s.removed → entry ∈ s.listeners

/-- A dispatch that has ended. -/
structure Ended (s : AbortSignal L V) (d : Dispatch L) : Prop where
  fair : Fair s d
  complete : d.turns.map Turn.entry = d.present ∨ d.event.serial ∈ s.stopped

omit [DecidableEq L] in
theorem Dispatch.turn_order (d : Dispatch L) (entry : Registration L) (removed called : Bool)
    (rest : List (Registration L)) :
    (d.turn entry removed called).turns.map Turn.entry ++
        rest.filter (fun other => other.type = (d.turn entry removed called).event.type) =
      d.turns.map Turn.entry ++ entry :: rest.filter (fun other => other.type = d.event.type) := by
  rw [Dispatch.turn, map_append, append_assoc]; rfl

omit [DecidableEq L] in
theorem Going.mono {s s' : AbortSignal L V} {d : Dispatch L} {rest : List (Registration L)} (h : Going s d rest)
    (hg : Grows s s') (hd : Distinct s') : Going s' d rest := by
  refine ⟨h.fair.mono hg hd, h.order, fun entry he hn => ?_⟩
  exact hg.kept entry (h.known entry he (fun hr => hn (hg.removed hr))) hn

omit [DecidableEq L] in
theorem Ended.mono {s s' : AbortSignal L V} {d : Dispatch L} (h : Ended s d) (hg : Grows s s') (hd : Distinct s') :
    Ended s' d := ⟨h.fair.mono hg hd, h.complete.imp_right (fun hm => hg.stopped hm)⟩

/-- What the loop leaves. -/
structure Advanced (s : AbortSignal L V) (d : Dispatch L) (s' : AbortSignal L V) (d' : Dispatch L)
    (next : Option (L × List (Registration L))) : Prop where
  inv : SignalInv s'
  handled : Handled s'
  grows : Grows s s'
  abortedValue : s'.abortedValue = s.abortedValue
  event : d'.event = d.event
  byAbort : d'.byAbort = d.byAbort
  present : d'.present = d.present
  going : ∀ p ∈ next, Going s' d' p.2
  ended : next = none → Ended s' d'

/-- The registration whose turn it is has not been removed: the signal and the dispatch when it is called. -/
theorem Going.called {s : AbortSignal L V} {d : Dispatch L} {entry : Registration L} {rest : List (Registration L)}
    (h : Going s d (entry :: rest)) (hs : SignalInv s) (hh : Handled s) (htype : entry.type = d.event.type)
    (hlive : entry.serial ∉ s.removed) {s' : AbortSignal L V}
    (hs' : s' = if entry.once then s.removeEventListener entry.type entry.callback entry.capture else s) :
    SignalInv s' ∧ Handled s' ∧ Grows s s' ∧ s'.abortedValue = s.abortedValue ∧ s'.onabortValue = s.onabortValue ∧
      Going s' (d.turn entry false true) rest := by
  have hmem := h.known entry mem_cons_self hlive
  have horder : d.turns.map Turn.entry ++ entry :: rest.filter (fun entry => entry.type = d.event.type) = d.present := by
    rw [← h.order, filter_cons_of_pos (by simpa using htype)]
  have hsignal : SignalInv s' ∧ Handled s' ∧ Grows s s' ∧ s'.abortedValue = s.abortedValue ∧
      s'.onabortValue = s.onabortValue ∧ (entry.once = true → entry.serial ∈ s'.removed) := by
    cases honce : entry.once with
    | false =>
      rw [honce, if_neg Bool.false_ne_true] at hs'
      subst hs'; exact ⟨hs, hh, Grows.refl s', rfl, rfl, fun h => absurd h Bool.false_ne_true⟩
    | true =>
      rw [honce, if_pos rfl] at hs'
      subst hs'
      obtain ⟨hi, hg⟩ := hs.removeEventListener entry.type entry.callback entry.capture
      have hother : entry.callback ≠ .onabortListener := by
        intro hc
        have := (hh.plain entry hmem hc).2; rw [honce] at this; cases this
      exact ⟨hi, hh.removeEventListener hs hother, hg, rfl, rfl, fun _ => SignalInv.removeEventListener_self hmem⟩
  obtain ⟨hi, hh', hg, ha, hv, hgone⟩ := hsignal
  refine ⟨hi, hh', hg, ha, hv, (h.fair.mono hg hi.toDistinct).turn hi.toDistinct horder rfl (fun _ => hgone), ?_, ?_⟩
  · rw [Dispatch.turn_order]; exact horder
  · exact fun other ho => (h.mono hg hi.toDistinct).known other (mem_cons_of_mem _ ho)

theorem advance_spec {s : AbortSignal L V} {d : Dispatch L} {rest : List (Registration L)} (hs : SignalInv s)
    (hh : Handled s) (h : Going s d rest) :
    Advanced s d (advance s d rest).1 (advance s d rest).2.1 (advance s d rest).2.2 := by
  fun_induction advance s d rest with
  | case1 s d =>
    refine ⟨hs, hh, Grows.refl s, rfl, rfl, rfl, rfl, fun p hp => (by cases hp), fun _ => ⟨h.fair, .inl ?_⟩⟩
    simpa using h.order
  | case2 s d entry rest hstop =>
    exact ⟨hs, hh, Grows.refl s, rfl, rfl, rfl, rfl, fun p hp => (by cases hp), fun _ => ⟨h.fair, .inr hstop⟩⟩
  | case3 s d entry rest hstop htype ih =>
    apply ih hs hh
    refine ⟨h.fair, ?_, fun other ho => h.known other (mem_cons_of_mem _ ho)⟩
    rw [← h.order, filter_cons_of_neg (by simpa using htype)]
  | case4 s d entry rest hstop htype hremoved ih =>
    have horder : d.turns.map Turn.entry ++ entry :: rest.filter (fun entry => entry.type = d.event.type) = d.present := by
      rw [← h.order, filter_cons_of_pos (by simpa using htype)]
    have hgoing : Going s (d.turn entry true false) rest := by
      refine ⟨h.fair.turn hs.toDistinct horder rfl (fun hc => absurd hc Bool.false_ne_true), ?_,
        fun other ho => h.known other (mem_cons_of_mem _ ho)⟩
      rw [Dispatch.turn_order]; exact horder
    have := ih hs hh hgoing
    exact ⟨this.inv, this.handled, this.grows, this.abortedValue, this.event, this.byAbort, this.present, this.going,
      this.ended⟩
  | case5 s d entry rest hstop htype hremoved s' fn htarget =>
    obtain ⟨hi, hh', hg, ha, _, hgoing⟩ := h.called hs hh (by simpa using htype) hremoved rfl
    refine ⟨hi, hh', hg, ha, rfl, rfl, rfl, fun p hp => ?_, fun hn => (by cases hn)⟩
    cases hp; exact hgoing
  | case6 s d entry rest hstop htype hremoved s' htarget ih =>
    obtain ⟨_, _, _, _, hv, _⟩ := h.called hs hh (by simpa using htype) hremoved rfl
    have hmem := h.known entry mem_cons_self hremoved
    cases hc : entry.callback with
    | user fn => simp [target, hc] at htarget
    | onabortListener =>
      rw [hc, target, hv] at htarget; exact absurd htarget (hh.handler.2 ⟨entry, hmem, hc⟩)

/-! ## All dispatches -/

section Dispatches

variable {c c' : Config L V} {s s' : AbortSignal L V} {d : Dispatch L} {rest : List (Registration L)}

structure Inv (c : Config L V) : Prop where
  signal : SignalInv c.signal
  handled : Handled c.signal
  going : ∀ f ∈ c.stack, Going c.signal f.dispatch f.rest
  ended : ∀ d ∈ c.finished, Ended c.signal d
  aborts : (c.dispatches.filter (·.byAbort)).length = if c.signal.abortedValue then 1 else 0
  type : ∀ d ∈ c.dispatches, d.byAbort = true → d.event.type = abortType

omit [DecidableEq L] in
theorem Inv.init : Inv ({} : Config L V) :=
  ⟨SignalInv.init, Handled.init, fun _ h => absurd h not_mem_nil, fun _ h => absurd h not_mem_nil, rfl,
    fun _ h => absurd h not_mem_nil⟩

omit [DecidableEq L] in
theorem Inv.change (h : Inv c) (hs : SignalInv s) (hh : Handled s) (hg : Grows c.signal s)
    (ha : s.abortedValue = c.signal.abortedValue) : Inv { c with signal := s } :=
  ⟨hs, hh, fun f hf => (h.going f hf).mono hg hs.toDistinct, fun d hd => (h.ended d hd).mono hg hs.toDistinct,
    by rw [ha]; exact h.aborts, h.type⟩

/-- Where a dispatch has got to when the next listener runs, or when it has ended. -/
structure Resumed (s : AbortSignal L V) (d : Dispatch L) (stack : List (Frame L)) (finished : List (Dispatch L))
    (c : Config L V) (d' : Dispatch L) : Prop where
  inv : SignalInv c.signal
  handled : Handled c.signal
  grows : Grows s c.signal
  abortedValue : c.signal.abortedValue = s.abortedValue
  event : d'.event = d.event
  byAbort : d'.byAbort = d.byAbort
  present : d'.present = d.present
  dispatches : c.dispatches.Perm (d' :: (stack.map Frame.dispatch ++ finished))
  going : ∀ f ∈ c.stack, f ∈ stack ∨ Going c.signal f.dispatch f.rest
  ended : ∀ d ∈ c.finished, d ∈ finished ∨ Ended c.signal d

theorem resume_spec (hs : SignalInv s) (hh : Handled s) (h : Going s d rest) (stack : List (Frame L))
    (finished : List (Dispatch L)) : ∃ d', Resumed s d stack finished (resume s d rest stack finished) d' := by
  have hadv := advance_spec hs hh h
  obtain ⟨s', d', next, heq⟩ : ∃ s' d' next, advance s d rest = (s', d', next) := ⟨_, _, _, rfl⟩
  unfold resume
  rw [heq] at hadv ⊢
  rcases next with _ | ⟨fn, rest'⟩
  · refine ⟨d', hadv.inv, hadv.handled, hadv.grows, hadv.abortedValue, hadv.event, hadv.byAbort, hadv.present, ?_,
      fun f hf => .inl hf, fun e he => ?_⟩
    · exact perm_middle
    · rcases mem_cons.1 he with rfl | he
      · exact .inr (hadv.ended rfl)
      · exact .inl he
  · refine ⟨d', hadv.inv, hadv.handled, hadv.grows, hadv.abortedValue, hadv.event, hadv.byAbort, hadv.present,
      List.Perm.refl _, fun f hf => ?_, fun e he => .inl he⟩
    rcases mem_cons.1 hf with rfl | hf
    · exact .inr (hadv.going _ rfl)
    · exact .inl hf

omit [DecidableEq L] in
theorem Resumed.inv_of {stack : List (Frame L)} {finished : List (Dispatch L)} {d' : Dispatch L}
    (h : Resumed s d stack finished c d') (hstack : ∀ f ∈ stack, Going s f.dispatch f.rest)
    (hfinished : ∀ e ∈ finished, Ended s e)
    (haborts : ((d :: (stack.map Frame.dispatch ++ finished)).filter (·.byAbort)).length = if s.abortedValue then 1 else 0)
    (htype : ∀ e ∈ d :: (stack.map Frame.dispatch ++ finished), e.byAbort = true → e.event.type = abortType) : Inv c := by
  have hd := h.inv.toDistinct
  refine ⟨h.inv, h.handled, fun f hf => ?_, fun e he => ?_, ?_, fun e he hb => ?_⟩
  · exact (h.going f hf).elim (fun hm => (hstack f hm).mono h.grows hd) id
  · exact (h.ended e he).elim (fun hm => (hfinished e hm).mono h.grows hd) id
  · rw [(h.dispatches.filter _).length_eq, h.abortedValue, ← haborts, filter_cons, filter_cons, h.byAbort]
    split <;> rfl
  · rcases mem_cons.1 (h.dispatches.mem_iff.1 he) with rfl | he
    · rw [h.byAbort] at hb; rw [h.event]; exact htype d mem_cons_self hb
    · exact htype e (mem_cons_of_mem _ he) hb

omit [DecidableEq L] in
theorem Going.start (hs : SignalInv s) (event : Event) (byAbort : Bool) :
    Going s { event, byAbort, present := s.listeners.filter (fun entry => entry.type = event.type) } s.listeners := by
  refine ⟨⟨List.nil_prefix, hs.nodup.filter _, fun t ht => absurd ht not_mem_nil,
    fun t ht => absurd ht not_mem_nil⟩, ?_, fun entry he _ => he⟩
  rw [map_nil, nil_append]

theorem Inv.dispatchEvent (h : Inv c) (event : Event) :
    Inv (Abort.dispatchEvent c event false) ∧ Grows c.signal (Abort.dispatchEvent c event false).signal := by
  obtain ⟨d', hr⟩ := resume_spec h.signal h.handled (Going.start h.signal event false) c.stack c.finished
  refine ⟨hr.inv_of h.going h.ended h.aborts (fun e he hb => ?_), hr.grows⟩
  rcases mem_cons.1 he with rfl | he
  · cases hb
  · exact h.type e he hb

/-- The signal as the dispatch of its abort finds it. -/
def aborting (s : AbortSignal L V) (reason : Option V) : AbortSignal L V :=
  (({ s with reasonValue := some (reasonFor reason), abortedValue := true } : AbortSignal L V).newEvent abortType).1

theorem signalAbort_eq (reason : Option V) (ha : c.signal.abortedValue = false) : signalAbort c reason =
    Abort.dispatchEvent { c with signal := aborting c.signal reason } ⟨c.signal.serial, abortType⟩ true := by
  rw [signalAbort, if_neg (by simp [ha])]; rfl

omit [DecidableEq L] in
theorem aborting_spec (hs : SignalInv s) (hh : Handled s) (ha : s.abortedValue = false) (reason : Option V) :
    SignalInv (aborting s reason) ∧ Handled (aborting s reason) ∧ Grows s (aborting s reason) := by
  have hset : SignalInv ({ s with reasonValue := some (reasonFor reason), abortedValue := true } : AbortSignal L V) :=
    ⟨⟨hs.keys, hs.live⟩, hs.serials, hs.fresh, hs.removedFresh, hs.eventsFresh, hs.stoppedFresh⟩
  refine ⟨(hset.newEvent abortType).1, ⟨hh.handler, hh.plain⟩, Subset.refl _, Subset.refl _, fun _ he _ => he,
    fun h => ?_⟩
  rw [ha] at h; cases h

theorem signalAbort_resumed (h : Inv c) (ha : c.signal.abortedValue = false) (reason : Option V) :
    ∃ d', Resumed (aborting c.signal reason)
      { event := ⟨c.signal.serial, abortType⟩, byAbort := true
        present := c.signal.listeners.filter (fun entry => entry.type = abortType) }
      c.stack c.finished (signalAbort c reason) d' := by
  obtain ⟨hi, hh, _⟩ := aborting_spec h.signal h.handled ha reason
  rw [signalAbort_eq reason ha]
  exact resume_spec hi hh (Going.start hi ⟨c.signal.serial, abortType⟩ true) c.stack c.finished

theorem Inv.signalAbort (h : Inv c) (reason : Option V) :
    Inv (Abort.signalAbort c reason) ∧ Grows c.signal (Abort.signalAbort c reason).signal := by
  cases ha : c.signal.abortedValue with
  | true => rw [Abort.signalAbort, if_pos ha]; exact ⟨h, Grows.refl _⟩
  | false =>
    obtain ⟨d', hr⟩ := signalAbort_resumed h ha reason
    obtain ⟨hi, _, hg⟩ := aborting_spec h.signal h.handled ha reason
    refine ⟨hr.inv_of (fun f hf => (h.going f hf).mono hg hi.toDistinct)
      (fun e he => (h.ended e he).mono hg hi.toDistinct) ?_ (fun e he hb => ?_), hg.trans hr.grows⟩
    · have hnone := h.aborts
      rw [ha, if_neg Bool.false_ne_true] at hnone
      rw [filter_cons_of_pos rfl, length_cons]; exact congrArg (· + 1) hnone
    · rcases mem_cons.1 he with rfl | he
      · rfl
      · exact h.type e he hb

theorem Inv.call (h : Inv c) {op : Op L V} (hcall : Abort.call c op = some c') : Inv c' ∧ Grows c.signal c'.signal := by
  cases op with
  | addEventListener type callback options =>
    cases callback with
    | none => cases hcall; exact ⟨h, Grows.refl _⟩
    | some fn =>
      cases hcall
      obtain ⟨hi, hg⟩ := h.signal.addEventListener type (.user fn) options
      refine ⟨h.change hi (h.handled.addEventListener h.signal) hg ?_, hg⟩
      unfold addEventListener
      split <;> rfl
  | removeEventListener type callback options =>
    cases callback with
    | none => cases hcall; exact ⟨h, Grows.refl _⟩
    | some fn =>
      cases hcall
      obtain ⟨hi, hg⟩ := h.signal.removeEventListener type (.user fn) options.capture
      exact ⟨h.change hi (h.handled.removeEventListener h.signal (fun hc => by cases hc)) hg rfl, hg⟩
  | onabort callback =>
    cases hcall
    obtain ⟨hi, hh, hg⟩ := h.handled.onabort h.signal callback
    exact ⟨h.change hi hh hg (onabort_abortedValue _ _), hg⟩
  | signalAbort reason => cases hcall; exact h.signalAbort reason
  | newEvent type =>
    cases hcall
    obtain ⟨hi, hg⟩ := h.signal.newEvent type
    exact ⟨h.change hi ⟨h.handled.handler, h.handled.plain⟩ hg rfl, hg⟩
  | dispatchEvent event =>
    obtain ⟨_, hc⟩ := ite_none_right_eq_some.1 hcall
    cases hc; exact h.dispatchEvent event
  | stopImmediatePropagation event =>
    obtain ⟨hmem, hc⟩ := ite_none_right_eq_some.1 hcall
    cases hc
    have hs := h.signal
    have hg : Grows c.signal { c.signal with stopped := c.signal.stopped ++ [event.serial] } :=
      ⟨Subset.refl _, subset_append_left _ _, fun _ he _ => he, fun ha => ⟨ha, rfl⟩⟩
    refine ⟨h.change ⟨⟨hs.keys, hs.live⟩, hs.serials, hs.fresh, hs.removedFresh, hs.eventsFresh, fun n hn => ?_⟩
      ⟨h.handled.handler, h.handled.plain⟩ hg rfl, hg⟩
    rcases mem_append.1 hn with hn | hn
    · exact hs.stoppedFresh n hn
    · rw [mem_singleton.1 hn]; exact hs.eventsFresh event hmem

theorem Inv.ret (h : Inv c) {f : Frame L} {fs : List (Frame L)} (hstack : c.stack = f :: fs) (thrown : Option V) :
    Inv (resume { c.signal with microtasks := c.signal.microtasks ++ thrown.toList } f.dispatch f.rest fs c.finished) ∧
      Grows c.signal (resume { c.signal with microtasks := c.signal.microtasks ++ thrown.toList }
        f.dispatch f.rest fs c.finished).signal := by
  have hs := h.signal
  have hg : Grows c.signal { c.signal with microtasks := c.signal.microtasks ++ thrown.toList } :=
    ⟨Subset.refl _, Subset.refl _, fun _ he _ => he, fun ha => ⟨ha, rfl⟩⟩
  have hi : SignalInv { c.signal with microtasks := c.signal.microtasks ++ thrown.toList } :=
    ⟨⟨hs.keys, hs.live⟩, hs.serials, hs.fresh, hs.removedFresh, hs.eventsFresh, hs.stoppedFresh⟩
  have hgoing : ∀ g ∈ f :: fs, Going _ g.dispatch g.rest := fun g hm => (h.going g (hstack ▸ hm)).mono hg hi.toDistinct
  have hdispatches : c.dispatches = f.dispatch :: (fs.map Frame.dispatch ++ c.finished) := by
    rw [Config.dispatches, hstack]; rfl
  obtain ⟨d', hr⟩ := resume_spec hi ⟨h.handled.handler, h.handled.plain⟩ (hgoing f mem_cons_self) fs c.finished
  refine ⟨hr.inv_of (fun g hm => hgoing g (mem_cons_of_mem _ hm)) (fun e he => (h.ended e he).mono hg hi.toDistinct)
    ?_ ?_, hg.trans hr.grows⟩
  · rw [← hdispatches]; exact h.aborts
  · rw [← hdispatches]; exact h.type

theorem Inv.step (h : Inv c) {move : Move L V} (hstep : Abort.step c move = some c') : Inv c' ∧ Grows c.signal c'.signal := by
  cases move with
  | call op => exact h.call hstep
  | ret thrown =>
    cases hs : c.stack with
    | nil => simp [Abort.step, hs] at hstep
    | cons f fs =>
      simp only [Abort.step, hs, Option.some.injEq] at hstep; subst hstep; exact h.ret hs thrown

theorem Inv.promises (h : Inv c) : Promises c := by
  refine ⟨h.signal.toDistinct, fun d hd => ?_, fun d hd => (h.ended d hd).complete, h.handled.handler, h.aborts, h.type,
    fun reason ha => ?_, fun reason ha => if_pos ha⟩
  · rcases mem_append.1 hd with hd | hd
    · obtain ⟨f, hf, rfl⟩ := List.mem_map.1 hd; exact (h.going f hf).fair
    · exact (h.ended d hd).fair
  · obtain ⟨d', hr⟩ := signalAbort_resumed h ha reason
    have haborted := hr.grows.aborted rfl
    refine ⟨⟨c.signal.serial, abortType⟩, d', fun he => ?_, fun hs => ?_, hr.event, hr.byAbort, hr.present,
      hr.dispatches.mem_iff.2 mem_cons_self, haborted.2, haborted.1⟩
    · exact Nat.lt_irrefl _ (h.signal.eventsFresh _ he)
    · exact Nat.lt_irrefl _ (h.signal.stoppedFresh _ hs)

end Dispatches

/-! ## Runs of a program -/

/-- In every state of every run the signal keeps its promises, and once it has been aborted it stays so, for the same
reason. -/
theorem signal_promises {ls ls' : List (Move L V)} {c c' : Config L V} (h : Run step (fun _ _ => True) {} ls c)
    (h' : Run step (fun _ _ => True) c ls' c') :
    Promises c ∧ (c.signal.abortedValue = true →
      c'.signal.abortedValue = true ∧ c'.signal.reasonValue = c.signal.reasonValue) := by
  have hinv : Inv c := h.invariant (fun _ _ _ hi _ hs => (hi.step hs).1) Inv.init
  have hgrows : Inv c' ∧ Grows c.signal c'.signal := by
    refine h'.invariant (I := fun x => Inv x ∧ Grows c.signal x.signal) (fun x a x' hi _ hx => ?_) ⟨hinv, Grows.refl _⟩
    obtain ⟨hi', hg⟩ := hi.1.step hx; exact ⟨hi', hi.2.trans hg⟩
  exact ⟨hinv.promises, hgrows.2.aborted⟩

/-- Listeners 1 (with `once`) and 3 around the handler 2; the first one removes listener 3, adds it again and throws. -/
def session : List (Move Nat Nat) :=
  [.call (.addEventListener abortType (some 1) (.object none (some true))), .call (.onabort (some 2)),
    .call (.addEventListener abortType (some 3) (.boolean false)), .call (.signalAbort none),
    .call (.removeEventListener abortType (some 3) (.boolean false)),
    .call (.addEventListener abortType (some 3) (.boolean false)), .ret (some 9), .call (.signalAbort (some 7)), .ret none]

theorem signal_promises_session : ∃ c : Config Nat Nat, runs step {} session = some c ∧ Promises c ∧
    (c.signal.abortedValue, c.finished.map (fun d => d.turns.map Turn.called)) = (true, [[true, true, false]]) := by
  have hrun : (runs step ({} : Config Nat Nat) session).map
      (fun c => (c.signal.abortedValue, c.finished.map (fun d => d.turns.map Turn.called))) =
        some (true, [[true, true, false]]) := by decide +kernel
  obtain ⟨c, hc, hturns⟩ := map_eq_some_iff.1 hrun
  exact ⟨c, hc, (signal_promises (Run.of_runs hc) (.nil c)).1, hturns⟩

end NodeCompat.Events.Abort
