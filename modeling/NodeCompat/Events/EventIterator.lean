import Mathlib.Data.List.Perm.Basic
import NodeCompat.Events.Emitter
import NodeCompat.Lib.Reentrant

/-!
# `EventIterator`

The iterator of `events.on`. It queues the events that nobody waits for. One pair of resolvers serves all `next` calls that wait,
and an error reaches only a caller that waits: a second `next` displaces the first, and an error that nobody waits for is lost
(`iterator_loses`). Where neither happens, the iterator loses nothing (`iterator_loses_nothing`).

`removeListener` calls the listeners of 'removeListener', and the emitter's `pause` and `resume` are user code as well; the promises
of `next` are numbered.
-/

namespace NodeCompat.Events

open List Option

/-- Where a listener of the iterator is registered. -/
inductive Target
  | emitter (name : EventName)
  | signal
  deriving DecidableEq

/-- `eventListener_`, `errorListener_` and `closeListener_` -/
inductive IteratorListener
  | event | error | close
  deriving DecidableEq

/-- Defaults are in place; no `highWaterMark` is an infinite one. `signal` is its `aborted`. -/
structure StaticEventEmitterIteratorOptions where
  close : List EventName := []
  highWaterMark : Option Int := none
  lowWaterMark : Int := 1
  signal : Option Bool := none
  deriving DecidableEq

variable {V E : Type}

structure EventIterator (V : Type) where
  eventName : EventName
  options : StaticEventEmitterIteratorOptions := {}
  pause : Bool := false
  resume : Bool := false
  queue : List V := []
  done : Bool := false
  /-- The promise of `nextResolve_` and `nextReject_`. -/
  nextResolve : Option Nat := none
  registered : List (Target × IteratorListener) := []
  calls : Nat := 0
  deriving DecidableEq

inductive IteratorCall (V E : Type)
  /-- The listeners are called. -/
  | event (values : V)
  | error (error : E)
  | close
  | abort
  | next
  | return_
  | throw (error : E)
  deriving DecidableEq

inductive IteratorFrame (E : Type)
  /-- `pause` or `resume` is called, as the last thing. -/
  | calling
  /-- `cleanup` goes on with these listeners; then a `next` that waits gets the end, or an error. -/
  | cleaning (left : List (EventName × IteratorListener)) (error : Option E)
  deriving DecidableEq

/-- What is seen: events and errors that come before the end, and what the promises of `next` settle to. -/
inductive Iterated (V E : Type)
  | event (values : V)
  | raised (error : E)
  | value (id : Nat) (values : V)
  | ended (id : Nat)
  | rejected (id : Nat) (error : E)
  deriving DecidableEq

namespace EventIterator

abbrev Result (V E : Type) := Block (EventIterator V) (IteratorFrame E) (Iterated V E)

/-- The listeners that the constructor registers on the emitter, and `cleanup` removes. -/
def listeners (p : EventIterator V) : List (EventName × IteratorListener) :=
  (p.eventName, .event) :: (if p.eventName ≠ .error then [(.error, .error)] else []) ++ p.options.close.map (fun name => (name, .close))

/-- `removeListener` looks from the end. -/
def remove (p : EventIterator V) (target : Target) (listener : IteratorListener) : EventIterator V :=
  { p with registered := (p.registered.reverse.erase (target, listener)).reverse }

/-- The end of `finish` and `fail`. -/
def settle (p : EventIterator V) (error : Option E) : Result V E :=
  match p.nextResolve, error with
  | none, _ => { state := p }
  | some id, none => { state := { p with nextResolve := none }, seen := [.ended id] }
  | some id, some error => { state := { p with nextResolve := none }, seen := [.rejected id error] }

def cleanup (p : EventIterator V) (error : Option E) : List (EventName × IteratorListener) → Result V E
  | (name, listener) :: left => { state := p.remove (.emitter name) listener, frames := [.cleaning left error] }
  | [] => (if p.options.signal.isSome then p.remove .signal .close else p).settle error

/-- `finish`, and `fail` with an error. -/
def finish (p : EventIterator V) (error : Option E) : Result V E :=
  if p.done then { state := p } else cleanup { p with done := true } error p.listeners

/-- The constructor. -/
def create (eventName : EventName) (options : StaticEventEmitterIteratorOptions) (pause resume : Bool) (aborted : E) : Result V E :=
  let p : EventIterator V := { eventName, options, pause, resume }
  let p := { p with registered := p.listeners.map (fun l => (.emitter l.1, l.2)) }
  match options.signal with
  | none => { state := p }
  | some true => p.finish (some aborted)
  | some false => { state := { p with registered := p.registered ++ [(.signal, .close)] } }

def pushEvent (p : EventIterator V) (values : V) : Result V E :=
  if p.done then { state := p }
  else
    match p.nextResolve with
    | some id => { state := { p with nextResolve := none }, seen := [.event values, .value id values] }
    | none =>
      let queue := p.queue ++ [values]
      { state := { p with queue }, seen := [.event values],
        frames := if p.options.highWaterMark.any (fun mark => (queue.length : Int) > mark) && p.pause then [.calling] else [] }

def next (p : EventIterator V) : Result V E :=
  let p' := { p with calls := p.calls + 1 }
  match p.queue with
  | value :: queue =>
    { state := { p' with queue }, seen := [.value p.calls value],
      frames := if (queue.length : Int) < p.options.lowWaterMark && p.resume then [.calling] else [] }
  | [] => if p.done then { state := p', seen := [.ended p.calls] } else { state := { p' with nextResolve := some p.calls } }

def call (p : EventIterator V) : IteratorCall V E → Option (Result V E)
  | .event values => some (p.pushEvent values)
  | .error error =>
    if p.eventName = .error then none
    else
      let b := p.finish (some error)
      some { b with seen := if p.done then b.seen else .raised error :: b.seen }
  | .close => some (p.finish none)
  -- A listener of the signal is registered for one event.
  | .abort => if p.options.signal.isSome then some ((p.remove .signal .close).finish none) else none
  | .next => some p.next
  | .return_ => some (p.finish none)
  | .throw error => some (p.finish (some error))

def resumeFrame (p : EventIterator V) : IteratorFrame E → Result V E
  | .calling => { state := p }
  | .cleaning left error => p.cleanup error left

/-- The iterator and whoever calls it. -/
def program (V E : Type) : Reentrant (EventIterator V) (IteratorCall V E) (IteratorFrame E) (Iterated V E) where
  call := call
  resume := resumeFrame
  task _ := false

end EventIterator

/-! ## What is seen -/

def Iterated.event? : Iterated V E → Option V
  | .event values => some values
  | _ => none

def Iterated.value? : Iterated V E → Option (Nat × V)
  | .value id values => some (id, values)
  | _ => none

def Iterated.settled? : Iterated V E → Option Nat
  | .value id _ => some id
  | .ended id => some id
  | .rejected id _ => some id
  | _ => none

def IteratorFrame.ending? : IteratorFrame E → Option (List (EventName × IteratorListener) × Option E)
  | .calling => none
  | .cleaning left error => some (left, error)

/-- The ends under way. -/
def endings (stack : List (IteratorFrame E)) : List (List (EventName × IteratorListener) × Option E) := stack.filterMap IteratorFrame.ending?

/-- The iterator, the ends under way, and what has been seen. -/
abbrev IteratorRun (V E : Type) := NodeCompat.Config (EventIterator V) (IteratorFrame E) (Iterated V E)

/-- **The iterator loses nothing**: each event is the value of one `next`, in order, or queued; a `next` stays unsettled only as long as
there is nothing for it; after an error no `next` gets the end before one is rejected with the error; and no listener is left at the
end. -/
structure LosesNothing (c : IteratorRun V E) : Prop where
  events : c.trace.filterMap Iterated.event? = (c.trace.filterMap Iterated.value?).map Prod.snd ++ c.state.queue
  ordered : ((c.trace.filterMap Iterated.value?).map Prod.fst).Pairwise (· < ·)
  settles : endings c.stack = [] → ∀ id < c.state.calls, id ∈ c.trace.filterMap Iterated.settled? ∨ c.state.queue = [] ∧ c.state.done = false
  rejects : endings c.stack = [] → ∀ before e after, c.trace = before ++ .raised e :: after → (∃ id, .ended id ∈ after) →
    ∃ id, .rejected id e ∈ after ∧ ∀ id', .ended id' ∈ after → id < id'
  removed : endings c.stack = [] → c.state.done = true → c.state.registered = []

/-- No `next` is called while another one waits, and no error comes while none waits. -/
def heard (c : IteratorRun V E) : Move (IteratorCall V E) → Bool
  | .call .next => c.state.done || c.state.nextResolve.isNone
  | .call (.error _) => c.state.done || c.state.nextResolve.isSome
  | _ => true

/-! ## The invariant -/

/-- What the iterator has on the emitter and the signal: the listeners it still has to remove, and perhaps the signal's. -/
def Holds (p : EventIterator V) (left : List (EventName × IteratorListener)) : Prop :=
  ∃ signals : List (Target × IteratorListener), (signals = [] ∨ p.options.signal.isSome = true ∧ signals = [(.signal, .close)]) ∧
    p.registered.Perm (left.map (fun l => (.emitter l.1, l.2)) ++ signals)

structure Keeps (p : EventIterator V) (ends : List (List (EventName × IteratorListener) × Option E)) (trace : List (Iterated V E)) : Prop where
  events : trace.filterMap Iterated.event? = (trace.filterMap Iterated.value?).map Prod.snd ++ p.queue
  ordered : ((trace.filterMap Iterated.value?).map Prod.fst).Pairwise (· < ·)
  below : ∀ id ∈ (trace.filterMap Iterated.value?).map Prod.fst, id < p.calls ∧ ∀ waiting ∈ p.nextResolve, id < waiting
  waits : ∀ waiting ∈ p.nextResolve, waiting < p.calls ∧ p.queue = []
  settled : ∀ id < p.calls, id ∈ trace.filterMap Iterated.settled? ∨ p.nextResolve = some id
  active : p.done = false → ends = [] ∧ Holds p p.listeners ∧ ∀ e, .raised e ∉ trace
  ended : p.done = true → (∃ left error, ends = [(left, error)] ∧ Holds p left) ∨ ends = [] ∧ p.nextResolve = none ∧ p.registered = []
  unrejected : ends ≠ [] ∨ p.done = false → ∀ id e, .rejected id e ∉ trace
  raised : ∀ before e after, trace = before ++ .raised e :: after → ∃ id < p.calls, (∀ id', .ended id' ∈ after → id < id') ∧
    ((p.nextResolve = some id ∧ ∃ left, (left, some e) ∈ ends) ∨ .rejected id e ∈ after)

theorem Keeps.losesNothing {c : IteratorRun V E} (h : Keeps c.state (endings c.stack) c.trace) : LosesNothing c where
  events := h.events
  ordered := h.ordered
  settles hrest id hid := by
    rcases h.settled id hid with hset | hwait
    · exact .inl hset
    · refine .inr ⟨(h.waits id hwait).2, ?_⟩
      by_contra hdone
      rcases h.ended (by simpa using hdone) with ⟨left, error, hends, -⟩ | ⟨-, hnone, -⟩
      · rw [hrest] at hends; cases hends
      · rw [hwait] at hnone; cases hnone
  rejects hrest before e after htrace _ := by
    obtain ⟨id, -, hbefore, ⟨-, left, hmem⟩ | hrej⟩ := h.raised before e after htrace
    · rw [hrest] at hmem; cases hmem
    · exact ⟨id, hrej, hbefore⟩
  removed hrest hdone := by
    rcases h.ended hdone with ⟨left, error, hends, -⟩ | ⟨-, -, hnone⟩
    · rw [hrest] at hends; cases hends
    · exact hnone

theorem split_append {α : Type} {a : α} {t s before after : List α} (h : t ++ s = before ++ a :: after) :
    (∃ rest, t = before ++ a :: rest ∧ after = rest ++ s) ∨ ∃ front, s = front ++ a :: after ∧ before = t ++ front := by
  rcases append_eq_append_iff.1 h with ⟨mid, hbefore, hs⟩ | ⟨mid, ht, hafter⟩
  · exact .inr ⟨mid, hs, hbefore⟩
  · cases mid with
    | nil => exact .inr ⟨[], by simpa using hafter.symm, by simpa using ht.symm⟩
    | cons x mid =>
      rw [cons_append] at hafter
      cases hafter; exact .inl ⟨mid, ht, rfl⟩

/-! ## Every step -/

namespace EventIterator

theorem remove_perm {p : EventIterator V} {target : Target} {listener : IteratorListener} {rest : List (Target × IteratorListener)}
    (h : p.registered.Perm ((target, listener) :: rest)) : (p.remove target listener).registered.Perm rest := by
  have hrev : p.registered.reverse.Perm ((target, listener) :: rest) := (reverse_perm _).trans h
  have herase := hrev.erase (target, listener)
  rw [erase_cons_head] at herase; exact (reverse_perm _).trans herase

theorem remove_of_not_mem {p : EventIterator V} {target : Target} {listener : IteratorListener}
    (h : (target, listener) ∉ p.registered) : p.remove target listener = p := by
  have : p.registered.reverse.erase (target, listener) = p.registered.reverse := erase_of_not_mem (by simpa using h)
  rw [remove, this, reverse_reverse]

end EventIterator

open EventIterator

theorem Holds.removed {p : EventIterator V} {left : List (EventName × IteratorListener)} {name : EventName} {listener : IteratorListener}
    (h : Holds p ((name, listener) :: left)) : Holds (p.remove (.emitter name) listener) left := by
  obtain ⟨signals, hsignals, hperm⟩ := h; exact ⟨signals, hsignals, remove_perm hperm⟩

theorem Holds.signal {p : EventIterator V} {left : List (EventName × IteratorListener)} (h : Holds p left) :
    (p.remove .signal .close).registered.Perm (left.map (fun l => (.emitter l.1, l.2))) := by
  obtain ⟨signals, rfl | ⟨-, rfl⟩, hperm⟩ := h
  · have hno : (Target.signal, IteratorListener.close) ∉ p.registered := by
      intro hmem; simpa using hperm.mem_iff.1 hmem
    rw [remove_of_not_mem hno]; simpa using hperm
  · exact remove_perm (hperm.trans (perm_append_singleton _ _))

open Iterated

namespace Keeps

variable {p : EventIterator V} {ends : List (List (EventName × IteratorListener) × Option E)} {trace : List (Iterated V E)}

theorem begin (h : Keeps p [] trace) (hactive : p.done = false) (error : Option E) :
    Keeps { p with done := true } [(p.listeners, error)] trace where
  events := h.events
  ordered := h.ordered
  below := h.below
  waits := h.waits
  settled := h.settled
  active hdone := by cases hdone
  ended _ := .inl ⟨p.listeners, error, rfl, (h.active hactive).2.1⟩
  unrejected _ := h.unrejected (.inr hactive)
  raised before e after htrace := absurd (by simp [htrace]) ((h.active hactive).2.2 e)

theorem begin_raised (h : Keeps p [] trace) (hactive : p.done = false) (e : E) {id : Nat} (hid : p.nextResolve = some id) :
    Keeps { p with done := true } [(p.listeners, some e)] (trace ++ [.raised e]) where
  events := by simpa [Iterated.event?, Iterated.value?, filterMap_cons] using h.events
  ordered := by simpa [Iterated.value?, filterMap_cons] using h.ordered
  below := by simpa [Iterated.value?] using h.below
  waits := h.waits
  settled := by simpa [Iterated.settled?] using h.settled
  active hdone := by cases hdone
  ended _ := .inl ⟨p.listeners, some e, rfl, (h.active hactive).2.1⟩
  unrejected _ := by simpa using h.unrejected (.inr hactive)
  raised before e' after htrace := by
    rcases split_append htrace with ⟨rest, hrest, -⟩ | ⟨front, hfront, -⟩
    · exact absurd (by simp [hrest]) ((h.active hactive).2.2 e')
    · obtain ⟨rfl, hcons⟩ : front = [] ∧ [.raised e] = .raised e' :: after := by
        cases front with
        | nil => exact ⟨rfl, hfront⟩
        | cons x front => have hlen := congrArg List.length hfront; simp at hlen
      cases hcons; exact ⟨id, (h.waits id hid).1, by simp, .inl ⟨hid, p.listeners, by simp⟩⟩

/-- **An end goes on.** -/
theorem cleanup {left : List (EventName × IteratorListener)} {error : Option E} (h : Keeps p [(left, error)] trace) (hdone : p.done = true) :
    Keeps (p.cleanup error left).state (endings (p.cleanup error left).frames) (trace ++ (p.cleanup error left).seen) := by
  have hholds : Holds p left := by
    rcases h.ended hdone with ⟨left', error', heq, hholds⟩ | ⟨heq, -⟩
    · cases heq; exact hholds
    · cases heq
  have hunrej := h.unrejected (.inl (by simp))
  have hwaits : ∀ {before e after}, trace = before ++ .raised e :: after → error = some e ∧ ∃ id < p.calls, p.nextResolve = some id ∧
      ∀ id', .ended id' ∈ after → id < id' := by
    intro before e after htrace
    obtain ⟨id, hlt, hbefore, ⟨hid, left', hmem⟩ | hrej⟩ := h.raised before e after htrace
    · cases mem_singleton.1 hmem; exact ⟨rfl, id, hlt, hid, hbefore⟩
    · exact absurd (by simp [htrace, hrej]) (hunrej id e)
  cases left with
  | cons l left =>
    obtain ⟨name, listener⟩ := l
    rw [EventIterator.cleanup, append_nil]
    exact
      { events := h.events
        ordered := h.ordered
        below := h.below
        waits := h.waits
        settled := h.settled
        active := fun hactive => absurd (hdone.symm.trans hactive) (by simp)
        ended := fun _ => .inl ⟨left, error, rfl, hholds.removed⟩
        unrejected := fun _ => hunrej
        raised := fun before e after htrace => by
          obtain ⟨rfl, id, hlt, hid, hbefore⟩ := hwaits htrace
          exact ⟨id, hlt, hbefore, .inl ⟨hid, left, by simp [endings, IteratorFrame.ending?]⟩⟩ }
  | nil =>
    obtain ⟨q, hq⟩ : ∃ q, q = if p.options.signal.isSome then p.remove .signal .close else p := ⟨_, rfl⟩
    have hsame : q.queue = p.queue ∧ q.calls = p.calls ∧ q.nextResolve = p.nextResolve ∧ q.done = p.done := by
      rw [hq]
      split <;> exact ⟨rfl, rfl, rfl, rfl⟩
    obtain ⟨hqueue, hcalls, hnext, hqdone⟩ := hsame
    have hnone : q.registered = [] := by
      rw [hq]
      split
      · exact perm_nil.1 hholds.signal
      · next hno =>
        obtain ⟨signals, rfl | ⟨hsome, -⟩, hperm⟩ := hholds
        · exact perm_nil.1 hperm
        · exact absurd hsome hno
    rw [EventIterator.cleanup, ← hq]
    unfold EventIterator.settle
    cases hwait : q.nextResolve with
    | none =>
      rw [append_nil]
      exact
        { events := by rw [hqueue]; exact h.events
          ordered := h.ordered
          below := by rw [hcalls, hnext]; exact h.below
          waits := by simp [hwait]
          settled := by rw [hcalls, hnext]; exact h.settled
          active := fun hactive => absurd ((hqdone.trans hdone).symm.trans hactive) (by simp)
          ended := fun _ => .inr ⟨rfl, hwait, hnone⟩
          unrejected := fun _ => hunrej
          raised := fun before e after htrace => by
            obtain ⟨-, id, -, hid, -⟩ := hwaits htrace
            rw [← hnext, hwait] at hid
            cases hid }
    | some id =>
      have hid : p.nextResolve = some id := hnext ▸ hwait
      have hlast : ∀ x : Iterated V E, x.event? = none → x.value? = none → x.settled? = some id → (∀ e, x ≠ .raised e) →
          (∀ e, error = some e → x = .rejected id e) → Keeps { q with nextResolve := none } [] (trace ++ [x]) := by
        intro x hevent hvalue hsettled hno hrej
        exact
          { events := by simpa [filterMap_cons, hevent, hvalue, hqueue] using h.events
            ordered := by simpa [filterMap_cons, hvalue] using h.ordered
            below := fun i hi => by
              simp only [filterMap_append, filterMap_cons, hvalue, filterMap_nil, append_nil] at hi
              exact ⟨hcalls ▸ (h.below i hi).1, by simp⟩
            waits := by simp
            settled := fun i hi => by
              rcases h.settled i (hcalls ▸ hi) with hset | heq
              · exact .inl (by simp only [filterMap_append, mem_append]; exact .inl hset)
              · rw [hid] at heq
                cases heq; exact .inl (by simp [hsettled])
            active := fun hactive => absurd ((hqdone.trans hdone).symm.trans hactive) (by simp)
            ended := fun _ => .inr ⟨rfl, rfl, hnone⟩
            unrejected := fun hor => by
              rcases hor with hends | hactive
              · exact absurd rfl hends
              · exact absurd ((hqdone.trans hdone).symm.trans hactive) (by simp)
            raised := fun before e after htrace => by
              rcases split_append htrace with ⟨rest, hrest, rfl⟩ | ⟨front, hfront, -⟩
              · obtain ⟨heq, id', hlt, hid', hbefore⟩ := hwaits hrest
                rw [hid] at hid'
                cases hid'
                rw [hrej e heq]
                refine ⟨id, hcalls.symm ▸ hlt, fun i hi => hbefore i ?_, .inr (by simp)⟩
                simpa using hi
              · have hmem : .raised e ∈ [x] := by simp [hfront]
                exact absurd (mem_singleton.1 hmem).symm (hno e) }
      cases error with
      | none => exact hlast (.ended id) rfl rfl rfl (by simp) (by simp)
      | some e => exact hlast (.rejected id e) rfl rfl rfl (by simp) (by simp)

theorem finish (h : Keeps p ends trace) (error : Option E) :
    Keeps (p.finish error).state (endings (p.finish error).frames ++ ends) (trace ++ (p.finish error).seen) := by
  unfold EventIterator.finish
  split
  · simpa [endings] using h
  · next hactive =>
    have hactive : p.done = false := by simpa using hactive
    obtain ⟨rfl, -⟩ := h.active hactive; rw [append_nil]; exact (h.begin hactive error).cleanup rfl

theorem abort (h : Keeps p ends trace) : Keeps (p.remove .signal .close) ends trace where
  events := h.events
  ordered := h.ordered
  below := h.below
  waits := h.waits
  settled := h.settled
  active hactive := by
    obtain ⟨hends, hholds, hno⟩ := h.active hactive
    exact ⟨hends, ⟨[], .inl rfl, by rw [append_nil]; exact hholds.signal⟩, hno⟩
  ended hdone := by
    rcases h.ended hdone with ⟨left, error, hends, hholds⟩ | ⟨hends, hnone, hempty⟩
    · exact .inl ⟨left, error, hends, [], .inl rfl, by rw [append_nil]; exact hholds.signal⟩
    · refine .inr ⟨hends, hnone, ?_⟩
      rw [remove_of_not_mem (by simp [hempty])]; exact hempty
  unrejected := h.unrejected
  raised := h.raised

theorem no_raised (h : Keeps p ends trace) (hactive : p.done = false) {seen : List (Iterated V E)} (hno : ∀ e, .raised e ∉ seen)
    {before after : List (Iterated V E)} {e : E} : trace ++ seen ≠ before ++ .raised e :: after := by
  intro htrace
  have hmem : .raised e ∈ trace ++ seen := by simp [htrace]
  rcases mem_append.1 hmem with hmem | hmem
  · exact (h.active hactive).2.2 e hmem
  · exact hno e hmem

theorem endings_calling (q : Bool) : endings (if q then [.calling] else [] : List (IteratorFrame E)) = [] := by
  cases q <;> rfl

theorem settled_call (h : Keeps p ends trace) {x : Iterated V E} (hx : x.settled? = some p.calls) :
    ∀ id < p.calls + 1, id ∈ (trace ++ [x]).filterMap Iterated.settled? ∨ p.nextResolve = some id := by
  intro id hid
  rw [filterMap_append]
  rcases Nat.lt_succ_iff_lt_or_eq.1 hid with hlt | rfl
  · exact (h.settled id hlt).imp_left (mem_append_left _)
  · exact .inl (mem_append_right _ (by simp [hx]))

theorem raised_call (h : Keeps p ends trace) {x : Iterated V E} (hx : ∀ e, x ≠ .raised e) (hend : ∀ id, x = .ended id → id = p.calls)
    (before : List (Iterated V E)) (e : E) (after : List (Iterated V E)) (htrace : trace ++ [x] = before ++ .raised e :: after) :
    ∃ id < p.calls + 1, (∀ id', .ended id' ∈ after → id < id') ∧
      ((p.nextResolve = some id ∧ ∃ left, (left, some e) ∈ ends) ∨ .rejected id e ∈ after) := by
  rcases split_append htrace with ⟨rest, hrest, rfl⟩ | ⟨front, hfront, -⟩
  · obtain ⟨id, hlt, hbefore, hor⟩ := h.raised before e rest hrest
    refine ⟨id, Nat.lt_succ_of_lt hlt, fun i hi => ?_, hor.imp_right (mem_append_left _)⟩
    rcases mem_append.1 hi with hi | hi
    · exact hbefore i hi
    · rw [hend i (mem_singleton.1 hi).symm]; exact hlt
  · have hmem : .raised e ∈ [x] := by simp [hfront]
    exact absurd (mem_singleton.1 hmem).symm (hx e)

/-- **An event.** -/
theorem pushEvent (h : Keeps p ends trace) (values : V) :
    Keeps (p.pushEvent values : EventIterator.Result V E).state (endings (p.pushEvent values : EventIterator.Result V E).frames ++ ends)
      (trace ++ (p.pushEvent values).seen) := by
  unfold EventIterator.pushEvent
  split
  · simpa [endings] using h
  · next hactive =>
    have hactive : p.done = false := by simpa using hactive
    obtain ⟨rfl, hholds, hno⟩ := h.active hactive
    cases hwait : p.nextResolve with
    | some id =>
      obtain ⟨hid, hqueue⟩ := h.waits id hwait
      exact
        { events := by simpa [event?, value?, filterMap_cons, hqueue] using h.events
          ordered := by
            simp only [filterMap_append, map_append]
            refine pairwise_append.2 ⟨h.ordered, by simp [value?, filterMap_cons], fun i hi i' hi' => ?_⟩
            obtain rfl : i' = id := by simpa [value?, filterMap_cons] using hi'
            exact (h.below i hi).2 i' hwait
          below := fun i hi => by
            rw [filterMap_append, map_append, mem_append] at hi
            refine ⟨?_, by simp⟩
            rcases hi with hi | hi
            · exact (h.below i hi).1
            · obtain rfl : i = id := by simpa [value?, filterMap_cons] using hi
              exact hid
          waits := by simp
          settled := fun i hi => by
            rcases h.settled i hi with hset | heq
            · exact .inl (by rw [filterMap_append]; exact mem_append_left _ hset)
            · rw [hwait] at heq
              cases heq; exact .inl (by simp [settled?, filterMap_cons])
          active := fun _ => ⟨rfl, hholds, by simpa using hno⟩
          ended := fun hdone => absurd (hactive.symm.trans hdone) (by simp)
          unrejected := fun _ => by simpa using h.unrejected (.inr hactive)
          raised := fun before e after htrace => absurd htrace (h.no_raised hactive (by simp)) }
    | none =>
      rw [endings_calling]
      exact
        { events := by simp [event?, value?, filterMap_cons, h.events]
          ordered := by simpa [value?, filterMap_cons] using h.ordered
          below := by simpa [value?, filterMap_cons, hwait] using h.below
          waits := by simp
          settled := by simpa [settled?, filterMap_cons, hwait] using h.settled
          active := fun _ => ⟨rfl, hholds, by simpa using hno⟩
          ended := fun hdone => absurd (hactive.symm.trans hdone) (by simp)
          unrejected := fun _ => by simpa using h.unrejected (.inr hactive)
          raised := fun before e after htrace => absurd htrace (h.no_raised hactive (by simp)) }

/-- **A `next`**, while no other one waits. -/
theorem next (h : Keeps p ends trace) (hone : p.done = true ∨ p.nextResolve = none) :
    Keeps (p.next : EventIterator.Result V E).state (endings (p.next : EventIterator.Result V E).frames ++ ends) (trace ++ p.next.seen) := by
  unfold EventIterator.next
  cases hqueue : p.queue with
  | cons value queue =>
    have hwait : p.nextResolve = none := by
      by_contra hne
      obtain ⟨w, hw⟩ := ne_none_iff_exists'.1 hne; rw [(h.waits w hw).2] at hqueue; cases hqueue
    rw [endings_calling]
    exact
      { events := by simp [event?, value?, filterMap_cons, h.events, hqueue]
        ordered := by
          simp only [filterMap_append, map_append]
          refine pairwise_append.2 ⟨h.ordered, by simp [value?], fun i hi i' hi' => ?_⟩
          obtain rfl : i' = p.calls := by simpa [value?, filterMap_cons] using hi'
          exact (h.below i hi).1
        below := fun i hi => by
          rw [filterMap_append, map_append, mem_append] at hi
          refine ⟨?_, by simp [hwait]⟩
          rcases hi with hi | hi
          · exact Nat.lt_succ_of_lt (h.below i hi).1
          · obtain rfl : i = p.calls := by simpa [value?, filterMap_cons] using hi
            exact Nat.lt_succ_self _
        waits := by simp [hwait]
        settled := h.settled_call rfl
        active := fun hactive => by
          obtain ⟨hnil, hholds, hno⟩ := h.active hactive; exact ⟨hnil, hholds, by simpa using hno⟩
        ended := h.ended
        unrejected := fun hor => by simpa using h.unrejected hor
        raised := h.raised_call (by simp) (by simp) }
  | nil =>
    dsimp only
    split
    · next hdone =>
      dsimp only
      exact
        { events := by simpa [event?, value?, filterMap_cons, hqueue] using h.events
          ordered := by simpa [value?, filterMap_cons] using h.ordered
          below := fun i hi => by
            have hi : i ∈ (trace.filterMap value?).map Prod.fst := by
              rw [filterMap_append, map_append, mem_append] at hi
              rcases hi with hi | hi
              · exact hi
              · cases hi
            exact ⟨Nat.lt_succ_of_lt (h.below i hi).1, (h.below i hi).2⟩
          waits := fun w hw => ⟨Nat.lt_succ_of_lt (h.waits w hw).1, rfl⟩
          settled := h.settled_call rfl
          active := fun hactive => absurd (hdone.symm.trans hactive) (by simp)
          ended := h.ended
          unrejected := fun hor => by simpa using h.unrejected hor
          raised := h.raised_call (by simp) (by simp) }
    · next hactive =>
      have hactive : p.done = false := by simpa using hactive
      obtain ⟨rfl, hholds, hno⟩ := h.active hactive
      have hwait : p.nextResolve = none := hone.resolve_left (by simp [hactive])
      show Keeps _ [] (trace ++ [])
      rw [append_nil]
      exact
        { events := by simpa [hqueue] using h.events
          ordered := h.ordered
          below := fun i hi => ⟨Nat.lt_succ_of_lt (h.below i hi).1, fun w hw => by
            cases hw; exact (h.below i hi).1⟩
          waits := fun w hw => by cases hw; exact ⟨Nat.lt_succ_self _, rfl⟩
          settled := fun i hi => by
            rcases Nat.lt_succ_iff_lt_or_eq.1 hi with hlt | rfl
            · rcases h.settled i hlt with hset | heq
              · exact .inl hset
              · rw [hwait] at heq; cases heq
            · exact .inr rfl
          active := fun _ => ⟨rfl, hholds, hno⟩
          ended := fun hdone => absurd (hactive.symm.trans hdone) (by simp)
          unrejected := h.unrejected
          raised := fun before e after htrace => absurd (by simp [htrace]) (hno e) }

end Keeps

/-! ## Every run -/

theorem endings_append (a b : List (IteratorFrame E)) : endings (a ++ b) = endings a ++ endings b := filterMap_append

theorem keeps_new {p : EventIterator V} (hqueue : p.queue = []) (hdone : p.done = false) (hnext : p.nextResolve = none) (hcalls : p.calls = 0)
    (hholds : Holds p p.listeners) : Keeps p [] ([] : List (Iterated V E)) where
  events := by simp [hqueue]
  ordered := by simp
  below := by simp
  waits := by simp [hnext]
  settled := by simp [hcalls]
  active _ := ⟨rfl, hholds, by simp⟩
  ended h := absurd (hdone.symm.trans h) (by simp)
  unrejected _ := by simp
  raised := by simp

theorem keeps_create (eventName : EventName) (options : StaticEventEmitterIteratorOptions) (pause resume : Bool) (aborted : E) :
    Keeps (EventIterator.create eventName options pause resume aborted : EventIterator.Result V E).state
      (endings (EventIterator.create eventName options pause resume aborted : EventIterator.Result V E).frames)
      (EventIterator.create eventName options pause resume aborted : EventIterator.Result V E).seen := by
  unfold create
  split
  · exact keeps_new rfl rfl rfl rfl ⟨[], .inl rfl, by rw [append_nil]; exact List.Perm.refl _⟩
  · next hsignal =>
    have h : Keeps (mk eventName options pause resume [] false none
        (({ eventName, options, pause, resume } : EventIterator V).listeners.map (fun l => (.emitter l.1, l.2))) 0) []
        ([] : List (Iterated V E)) :=
      keeps_new rfl rfl rfl rfl ⟨[], .inl rfl, by rw [append_nil]; exact List.Perm.refl _⟩
    have hfinish := h.finish (some aborted); rw [append_nil, nil_append] at hfinish; exact hfinish
  · next hsignal =>
    exact keeps_new rfl rfl rfl rfl ⟨[(.signal, .close)], .inr ⟨by simp [hsignal], rfl⟩, List.Perm.refl _⟩

/-- **One step.** -/
theorem keeps_call {c : IteratorRun V E} {k : IteratorCall V E} {b : EventIterator.Result V E}
    (h : Keeps c.state (endings c.stack) c.trace) (hheard : heard c (.call k) = true) (hcall : c.state.call k = some b) :
    Keeps b.state (endings (b.frames ++ c.stack)) (c.trace ++ b.seen) := by
  rw [endings_append]
  cases k with
  | event values => cases hcall; exact h.pushEvent values
  | error error =>
    simp only [call] at hcall
    split at hcall
    · cases hcall
    · cases hcall
      split
      · exact h.finish (some error)
      · next hactive =>
        have hactive : c.state.done = false := by simpa using hactive
        have hwait : c.state.nextResolve.isSome = true := by simpa [heard, hactive] using hheard
        obtain ⟨id, hid⟩ := isSome_iff_exists.1 hwait
        have hends := (h.active hactive).1
        rw [hends] at h ⊢
        have hstep := (h.begin_raised hactive error hid).cleanup rfl
        rw [append_assoc] at hstep; rw [append_nil]; simpa [finish, hactive] using hstep
  | close | return_ => cases hcall; exact h.finish none
  | abort =>
    simp only [call, ite_none_right_eq_some, Option.some.injEq] at hcall
    obtain ⟨-, rfl⟩ := hcall; exact h.abort.finish none
  | next =>
    cases hcall
    refine h.next ?_
    simpa [heard] using hheard
  | throw error => cases hcall; exact h.finish (some error)

/-- **`events.on` loses nothing**: in every run in which no `next` is called while another one waits, and no error comes while none
waits. -/
theorem iterator_loses_nothing (eventName : EventName) (options : StaticEventEmitterIteratorOptions) (pause resume : Bool) (aborted : E)
    {ms : List (Move (IteratorCall V E))} {c : IteratorRun V E}
    (h : Run (EventIterator.program V E).step (fun c m => heard c m = true)
      ((EventIterator.create eventName options pause resume aborted).onto [] []) ms c) : LosesNothing c := by
  refine Keeps.losesNothing (Reentrant.invariant_of (I := fun c => Keeps c.state (endings c.stack) c.trace) ?_ ?_ h ?_)
  · intro c k b hI hP _ hcall; exact keeps_call hI hP hcall
  · intro c f fs hI _ hstack
    rw [hstack] at hI
    show Keeps (c.state.resumeFrame f).state (endings ((c.state.resumeFrame f).frames ++ fs)) (c.trace ++ (c.state.resumeFrame f).seen)
    cases f with
    | calling =>
      have hI : Keeps c.state (endings fs) c.trace := hI; simpa [resumeFrame] using hI
    | cleaning left error =>
      have hdone : c.state.done = true := by
        by_contra hactive
        have hends := (hI.active (by simpa using hactive)).1; cases hends
      have hrest : endings fs = [] := by
        rcases hI.ended hdone with ⟨left', error', hends, -⟩ | ⟨hends, -⟩
        · exact (List.cons.inj hends).2
        · cases hends
      have hI : Keeps c.state [(left, error)] c.trace := by
        have hends : endings (.cleaning left error :: fs) = [(left, error)] := congrArg ((left, error) :: ·) hrest
        rwa [hends] at hI
      rw [endings_append, hrest, append_nil]; exact hI.cleanup hdone
  · simpa using keeps_create eventName options pause resume aborted

/-- An iterator of the event `a` that a 'close' event ends. -/
def iteratorOfA : IteratorRun Nat Nat :=
  (EventIterator.create (.string [97]) { close := [.string [98]] } false false 0).onto [] []

/-- Two events, one of them awaited, an error that is awaited, and what is left. -/
theorem iterator_loses_nothing_awaited : ∃ c : IteratorRun Nat Nat,
    Run (EventIterator.program Nat Nat).step (fun c m => heard c m = true) iteratorOfA
      [.call .next, .call (.event 1), .call (.event 2), .call .next, .call .next, .call (.error 7), .ret, .ret, .ret, .call .next] c ∧
    c.trace = [.event 1, .value 0 1, .event 2, .value 1 2, .raised 7, .rejected 2 7, .ended 3] ∧ LosesNothing c := by
  have hruns : runs (fun c m => if heard c m then (program Nat Nat).step c m else none) iteratorOfA
      [.call .next, .call (.event 1), .call (.event 2), .call .next, .call .next, .call (.error 7), .ret, .ret, .ret, .call .next] =
      some _ := rfl
  have hrun := Run.of_guarded _ hruns; exact ⟨_, hrun, rfl, iterator_loses_nothing _ _ _ _ _ hrun⟩

/-- Of two `next` calls that wait, the first is never settled; and of an error that nobody waits for, the next `next` does not hear. -/
theorem iterator_loses :
    (∃ c : IteratorRun Nat Nat, Run (EventIterator.program Nat Nat).step (fun _ _ => True) iteratorOfA
      [.call .next, .call .next, .call (.event 1), .call (.event 2)] c ∧ c.stack = [] ∧ ¬ LosesNothing c) ∧
    ∃ c : IteratorRun Nat Nat, Run (EventIterator.program Nat Nat).step (fun _ _ => True) iteratorOfA
      [.call (.error 7), .ret, .ret, .ret, .call .next] c ∧ c.stack = [] ∧ c.trace = [.raised 7, .ended 0] ∧ ¬ LosesNothing c := by
  constructor
  · have hruns : runs (program Nat Nat).step iteratorOfA
        [.call .next, .call .next, .call (.event 1), .call (.event 2)] = some _ := rfl
    refine ⟨_, Run.of_runs hruns, rfl, fun h => ?_⟩
    rcases h.settles rfl 0 (by decide) with hset | ⟨hqueue, -⟩
    · exact absurd hset (by decide)
    · exact absurd hqueue (by decide)
  · have hruns : runs (program Nat Nat).step iteratorOfA [.call (.error 7), .ret, .ret, .ret, .call .next] = some _ := rfl
    refine ⟨_, Run.of_runs hruns, rfl, rfl, fun h => ?_⟩
    obtain ⟨id, hrej, -⟩ := h.rejects rfl [] 7 [.ended 0] rfl ⟨0, by simp⟩
    simp at hrej

end NodeCompat.Events
