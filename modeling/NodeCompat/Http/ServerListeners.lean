import NodeCompat.Events.Emission
import NodeCompat.Lib.Reentrant

/-!
# The listeners of a server

`http.Server` keeps its 'request' and 'connection' listeners in arrays of its own, and so does `net.Server` with its 'connection'
listeners. A dispatch goes through the live arrays by index. What a listener prepends shifts the entries under the index, so that one
that was called comes up again (`prepended_calls_twice`). Else each listener is called once (`listeners_run_once`).

A dispatch is called by the reactor, when nothing else runs. What it has called is kept for the statements.
-/

namespace NodeCompat.Http

open List Bool Function
open NodeCompat.Events (Registration)

inductive ServerEvent
  | request | connection
  deriving DecidableEq

variable {F : Type}

/-- `requestListeners_` and `requestOnce_`, or those of 'connection'. -/
structure ListenerArrays (F : Type) where
  fns : List (Registration F) := []
  once : List Bool := []
  deriving DecidableEq

/-- A dispatch: whose listeners it calls, what these were when it began, and since then what was called and cleared. -/
structure Dispatch (F : Type) where
  events : List ServerEvent := []
  began : ServerEvent → List (Registration F) := fun _ => []
  called : ServerEvent → List (Registration F) := fun _ => []
  cleared : ServerEvent → Bool := fun _ => false
  /-- Calls of the `requestListener` of the constructor. -/
  listener : Nat := 0

structure Server (F : Type) where
  arrays : ServerEvent → ListenerArrays F := fun _ => {}
  /-- Calls that have registered a listener. -/
  registrations : Nat := 0
  /-- The dispatch under way, or the last one. -/
  dispatch : Dispatch F := {}

/-- A part of a dispatch. -/
inductive Phase
  | loop (ev : ServerEvent)
  | listener
  deriving DecidableEq

inductive ServerCall (F : Type)
  | addServerListener (ev : ServerEvent) (fn : F) (once prepend : Bool)
  | removeAllListeners (ev : Option ServerEvent)
  /-- The closure of `http.Server.listen`, for a request that may be the first on its connection. -/
  | request (first : Bool)
  /-- `SERVER_EVENT_CONNECTION` of `net.Server` -/
  | connection
  deriving DecidableEq

/-- A listener runs: the index that its loop looks at next, and what comes after the loop. -/
inductive Turn
  | turn (ev : ServerEvent) (index : Nat) (rest : List Phase)
  | listener (rest : List Phase)
  deriving DecidableEq

namespace ListenerArrays

def add (a : ListenerArrays F) (r : Registration F) (prepend : Bool) : ListenerArrays F :=
  if prepend then { fns := r :: a.fns, once := r.once :: a.once } else { fns := a.fns ++ [r], once := a.once ++ [r.once] }

/-- A round of the loop: the listener that it calls, and the index of the next round. -/
def take (a : ListenerArrays F) (index : Nat) : Option (Registration F × ListenerArrays F × Nat) :=
  match a.fns[index]? with
  | none => none
  | some r =>
    if a.once[index]? = some true then some (r, { fns := a.fns.eraseIdx index, once := a.once.eraseIdx index }, index)
    else some (r, a, index + 1)

end ListenerArrays

namespace Server

abbrev Result (F : Type) := Block (Server F) Turn (Registration F)

/-- A listener is called. -/
def calls (s : Server F) (ev : ServerEvent) (r : Registration F) (a : ListenerArrays F) : Server F :=
  { s with
    arrays := Function.update s.arrays ev a
    dispatch := { s.dispatch with called := Function.update s.dispatch.called ev (s.dispatch.called ev ++ [r]) } }

/-- The phases of a dispatch. -/
def proceed (s : Server F) : List Phase → Result F
  | [] => { state := s }
  | .listener :: rest =>
    { state := { s with dispatch := { s.dispatch with listener := s.dispatch.listener + 1 } }, frames := [.listener rest] }
  | .loop ev :: rest =>
    match (s.arrays ev).take 0 with
    | none => s.proceed rest
    | some (r, a, index) => { state := s.calls ev r a, seen := [r], frames := [.turn ev index rest] }

/-- A listener has returned. -/
def resume (s : Server F) : Turn → Result F
  | .listener rest => s.proceed rest
  | .turn ev index rest =>
    match (s.arrays ev).take index with
    | none => s.proceed rest
    | some (r, a, index) => { state := s.calls ev r a, seen := [r], frames := [.turn ev index rest] }

/-- A dispatch begins. -/
def start (s : Server F) (phases : List Phase) : Result F :=
  { s with
    dispatch :=
      { events := phases.filterMap fun
          | .loop ev => some ev
          | .listener => none
        began := fun ev => (s.arrays ev).fns } : Server F }.proceed phases

def addServerListener (s : Server F) (ev : ServerEvent) (fn : F) (once prepend : Bool) : Server F :=
  { s with
    arrays := Function.update s.arrays ev ((s.arrays ev).add ⟨fn, s.registrations, once⟩ prepend)
    registrations := s.registrations + 1 }

def removeAllListeners (s : Server F) (ev : Option ServerEvent) : Server F :=
  { s with
    arrays := fun ev' => if ev.all (fun ev => ev = ev') then {} else s.arrays ev'
    dispatch := { s.dispatch with cleared := fun ev' => s.dispatch.cleared ev' || ev.all (fun ev => ev = ev') } }

def call (s : Server F) : ServerCall F → Option (Result F)
  | .addServerListener ev fn once prepend => some { state := s.addServerListener ev fn once prepend }
  | .removeAllListeners ev => some { state := s.removeAllListeners ev }
  | .request first => some (s.start ((if first then [.loop .connection] else []) ++ [.listener, .loop .request]))
  | .connection => some (s.start [.loop .connection])

/-- The server, its listeners and the reactor. -/
def program (F : Type) : Reentrant (Server F) (ServerCall F) Turn (Registration F) where
  call := call
  resume := resume
  task
    | .request _ => true
    | .connection => true
    | _ => false

end Server

/-- **The listeners of an event are served once**: none is called twice, and those that were registered when the dispatch began are
called in order; when it has `ended`, all of them, but for those that were cleared before their turn. -/
def Dispatch.Serves [DecidableEq F] (d : Dispatch F) (ev : ServerEvent) (ended : Bool) : Prop :=
  (d.called ev).Nodup ∧ ∃ left, (d.called ev).filter (fun r => r ∈ d.began ev) ++ left = d.began ev ∧
    (ended = true → left = [] ∨ d.cleared ev = true)

/-- No listener prepends one of the event whose loop it is called from, while the array holds one that the loop has called. -/
def unshifted [DecidableEq F] (c : Config (Server F) Turn (Registration F)) : Move (ServerCall F) → Bool
  | .call (.addServerListener ev _ _ true) =>
    c.stack.all fun
      | .turn ev' _ _ => ev' != ev || (c.state.arrays ev).fns.all (fun r => r ∉ c.state.dispatch.called ev)
      | .listener _ => true
  | _ => true

/-! ## The arrays -/

/-- The arrays go together, and hold known registrations, each once. -/
structure Server.Sound (s : Server F) : Prop where
  flags : ∀ ev, (s.arrays ev).once = (s.arrays ev).fns.map (·.once)
  nodup : ∀ ev, (s.arrays ev).fns.Nodup
  known : ∀ ev r, r ∈ (s.arrays ev).fns ∨ r ∈ s.dispatch.began ev ∨ r ∈ s.dispatch.called ev → r.id < s.registrations

theorem ListenerArrays.take_cases {a a' : ListenerArrays F} {i i' : Nat} {r : Registration F} (hflags : a.once = a.fns.map (·.once))
    (h : a.take i = some (r, a', i')) : a.fns.drop i = r :: a'.fns.drop i' ∧ a'.once = a'.fns.map (·.once) ∧
      a'.fns.Sublist a.fns ∧ (r.once = true → ∃ front back, a.fns = front ++ r :: back ∧ a'.fns = front ++ back) := by
  unfold take at h
  split at h
  · cases h
  · next r₀ hget =>
    obtain ⟨hlt, hr⟩ := List.getElem?_eq_some_iff.1 hget
    have hdrop : a.fns.drop i = r₀ :: a.fns.drop (i + 1) := by rw [drop_eq_getElem_cons hlt, hr]
    have honce : a.once[i]? = some true ↔ r₀.once = true := by simp [hflags, hget]
    split at h
    · cases h
      have herase : (a.fns.eraseIdx i).drop i = a.fns.drop (i + 1) := by
        rw [eraseIdx_eq_take_drop_succ, drop_append_of_le_length (by simp; omega), drop_take]; simp
      refine ⟨by rw [herase, hdrop], ?_, eraseIdx_sublist _ _, fun _ => ⟨a.fns.take i, a.fns.drop (i + 1), ?_, ?_⟩⟩
      · simp [hflags, eraseIdx_eq_take_drop_succ]
      · rw [← hdrop, take_append_drop]
      · rw [eraseIdx_eq_take_drop_succ]
    · next hno =>
      cases h; exact ⟨hdrop, hflags, Sublist.refl _, fun hon => absurd (honce.2 hon) hno⟩

theorem ListenerArrays.take_none {a : ListenerArrays F} {i : Nat} (h : a.take i = none) : a.fns.drop i = [] := by
  unfold take at h
  split at h
  · next hnone => exact drop_eq_nil_of_le (List.getElem?_eq_none_iff.1 hnone)
  · split at h <;> cases h

open ListenerArrays

namespace Server

variable {s : Server F} {ev ev' : ServerEvent} {fn : F} {once prepend : Bool}

theorem addServerListener_fns : ((s.addServerListener ev fn once prepend).arrays ev').fns =
    if ev' = ev then
      if prepend then ⟨fn, s.registrations, once⟩ :: (s.arrays ev).fns else (s.arrays ev).fns ++ [⟨fn, s.registrations, once⟩]
    else (s.arrays ev').fns := by
  by_cases hev : ev' = ev
  · subst hev
    cases prepend <;> simp [addServerListener, add]
  · simp [addServerListener, hev]

theorem addServerListener_once : ((s.addServerListener ev fn once prepend).arrays ev').once =
    if ev' = ev then if prepend then once :: (s.arrays ev).once else (s.arrays ev).once ++ [once] else (s.arrays ev').once := by
  by_cases hev : ev' = ev
  · subst hev
    cases prepend <;> simp [addServerListener, add]
  · simp [addServerListener, hev]

theorem Sound.addServerListener (hs : s.Sound) : (s.addServerListener ev fn once prepend).Sound := by
  have hnew : ∀ ev', (⟨fn, s.registrations, once⟩ : Registration F) ∉ (s.arrays ev').fns := by
    intro ev' hin; exact absurd (hs.known ev' _ (.inl hin)) (by simp)
  constructor
  · intro ev'
    rw [addServerListener_fns, addServerListener_once, hs.flags, hs.flags]
    cases prepend <;> split <;> simp
  · intro ev'
    rw [addServerListener_fns]
    split
    · split
      · exact nodup_cons.2 ⟨hnew ev, hs.nodup ev⟩
      · rw [nodup_append]
        refine ⟨hs.nodup ev, nodup_singleton _, fun x hx y hy hxy => hnew ev ?_⟩
        rw [← mem_singleton.1 hy, ← hxy]; exact hx
    · exact hs.nodup ev'
  · intro ev' x hx
    have hor : x = ⟨fn, s.registrations, once⟩ ∨ x ∈ (s.arrays ev').fns ∨ x ∈ s.dispatch.began ev' ∨ x ∈ s.dispatch.called ev' := by
      rcases hx with hx | hx
      · rw [addServerListener_fns] at hx
        split at hx
        · next hev =>
          subst hev
          split at hx
          · exact (mem_cons.1 hx).imp_right .inl
          · exact (mem_append.1 hx).symm.imp mem_singleton.1 .inl
        · exact .inr (.inl hx)
      · exact .inr (.inr hx)
    rcases hor with rfl | hor
    · exact Nat.lt_succ_self _
    · exact Nat.lt_succ_of_lt (hs.known ev' x hor)

theorem Sound.removeAllListeners {cleared : Option ServerEvent} (hs : s.Sound) : (s.removeAllListeners cleared).Sound := by
  have hsub : ∀ ev, (s.removeAllListeners cleared).arrays ev = {} ∨ (s.removeAllListeners cleared).arrays ev = s.arrays ev := by
    intro ev
    unfold Server.removeAllListeners
    dsimp only
    split
    · exact .inl rfl
    · exact .inr rfl
  refine ⟨fun ev => ?_, fun ev => ?_, fun ev r hr => ?_⟩
  · rcases hsub ev with h | h <;> rw [h]
    · rfl
    · exact hs.flags ev
  · rcases hsub ev with h | h <;> rw [h]
    · exact nodup_nil
    · exact hs.nodup ev
  · rcases hsub ev with h | h <;> rw [h] at hr
    · exact hs.known ev r (hr.elim (fun hr => absurd hr not_mem_nil) .inr)
    · exact hs.known ev r hr

end Server

/-! ## A loop over a live array -/

section Loop

variable {R : Type} [DecidableEq R] {began called fns fns' left : List R} {cleared : Bool} {index index' : Nat} {r : R}

/-- A loop is about to look at `index`: what it has called does not come again, and what was there when the dispatch began has been
called or comes next, unless it has been cleared. -/
def Turning (began called : List R) (cleared : Bool) (fns : List R) (index : Nat) : Prop :=
  called.Nodup ∧ (∀ r ∈ called, r ∉ fns.drop index) ∧ ∃ left, called.filter (fun r => r ∈ began) ++ left = began ∧
    ((fns.drop index).filter (fun r => r ∈ began) = left ∨ cleared = true ∧ ∀ r ∈ fns, r ∉ began)

section

variable (h : Turning began called cleared fns index)
include h

theorem Turning.done (hnil : fns.drop index = []) :
    called.Nodup ∧ ∃ left, called.filter (fun r => r ∈ began) ++ left = began ∧ (left = [] ∨ cleared = true) := by
  obtain ⟨hnodup, -, left, hleft, hor⟩ := h
  refine ⟨hnodup, left, hleft, ?_⟩
  rcases hor with heq | ⟨hcleared, -⟩
  · rw [hnil] at heq; exact .inl heq.symm
  · exact .inr hcleared

/-- **The next one is called.** -/
theorem Turning.take (hnodup : fns.Nodup) (hdrop : fns.drop index = r :: fns'.drop index')
    (hsub : fns'.Sublist fns) : Turning began (called ++ [r]) cleared fns' index' := by
  obtain ⟨hcalled, hback, left, hleft, hor⟩ := h
  have hrest : (r :: fns'.drop index').Nodup := hdrop ▸ hnodup.sublist (drop_sublist _ _)
  rw [hdrop] at hback hor
  have hr : r ∉ called := fun hmem => hback r hmem mem_cons_self
  refine ⟨?_, ?_, ?_⟩
  · refine nodup_append.2 ⟨hcalled, nodup_singleton r, fun x hx y hy hxy => hr ?_⟩
    rw [← mem_singleton.1 hy, ← hxy]; exact hx
  · intro x hx
    rcases mem_append.1 hx with hx | hx
    · exact fun hmem => hback x hx (mem_cons_of_mem _ hmem)
    · rw [mem_singleton.1 hx]; exact (nodup_cons.1 hrest).1
  · by_cases hin : r ∈ began
    · rcases hor with heq | ⟨-, hno⟩
      · rw [filter_cons_of_pos (by simpa using hin)] at heq
        refine ⟨(fns'.drop index').filter (fun r => r ∈ began), ?_, .inl rfl⟩
        rw [filter_append, filter_cons_of_pos (by simpa using hin), filter_nil, append_assoc, singleton_append,
          heq, hleft]
      · have hmem : r ∈ fns := mem_of_mem_drop (i := index) (hdrop ▸ mem_cons_self); exact absurd hin (hno r hmem)
    · refine ⟨left, ?_, hor.imp (fun heq => ?_) (fun hc => ⟨hc.1, fun x hx => hc.2 x (hsub.subset hx)⟩)⟩
      · rw [filter_append, filter_cons_of_neg (by simpa using hin), filter_nil, append_nil, hleft]
      · rwa [filter_cons_of_neg (by simpa using hin)] at heq

theorem Turning.push (hbegan : r ∉ began) (hcalled : r ∉ called) :
    Turning began called cleared (fns ++ [r]) index := by
  obtain ⟨hnodup, hback, left, hleft, hor⟩ := h
  have hdrop : ∀ x ∈ (fns ++ [r]).drop index, x ∈ fns.drop index ∨ x = r := by
    intro x hx
    rw [drop_append] at hx
    rcases mem_append.1 hx with hx | hx
    · exact .inl hx
    · exact .inr (mem_singleton.1 (mem_of_mem_drop hx))
  refine ⟨hnodup, fun x hx hmem => ?_, left, hleft, hor.imp (fun heq => ?_) (fun hc => ⟨hc.1, fun x hx => ?_⟩)⟩
  · rcases hdrop x hmem with hmem | rfl
    · exact hback x hx hmem
    · exact hcalled hx
  · have hnew : ([r].drop (index - fns.length)).filter (fun r => r ∈ began) = [] := by
      refine filter_eq_nil_iff.2 (fun x hx => ?_)
      rw [mem_singleton.1 (mem_of_mem_drop hx)]; simpa using hbegan
    rw [drop_append, filter_append, hnew, append_nil, heq]
  · rcases mem_append.1 hx with hx | hx
    · exact hc.2 x hx
    · rw [mem_singleton.1 hx]; exact hbegan

theorem Turning.unshift (hnodup : fns.Nodup) (hbegan : r ∉ began) (hcalled : r ∉ called)
    (hnone : ∀ x ∈ fns, x ∉ called) : Turning began called cleared (r :: fns) index := by
  obtain ⟨hcn, hback, left, hleft, hor⟩ := h
  refine ⟨hcn, fun x hx hmem => ?_, left, hleft, hor.imp (fun heq => ?_) (fun hc => ⟨hc.1, fun x hx => ?_⟩)⟩
  · rcases mem_cons.1 (mem_of_mem_drop hmem) with rfl | hmem
    · exact hcalled hx
    · exact hnone x hmem hx
  · cases index with
    | zero => rwa [drop_zero, filter_cons_of_neg (by simpa using hbegan)]
    | succ i =>
      rw [drop_succ_cons]
      by_cases hlt : i < fns.length
      · have hold : fns[i] ∉ began := by
          intro hin
          rw [← hleft] at hin
          rcases mem_append.1 hin with hin | hin
          · exact hnone _ (getElem_mem hlt) (mem_filter.1 hin).1
          · rw [← heq] at hin
            have hmem := (mem_filter.1 hin).1
            have hsplit : (fns.drop i).Nodup := hnodup.sublist (drop_sublist _ _)
            rw [drop_eq_getElem_cons hlt] at hsplit; exact (nodup_cons.1 hsplit).1 hmem
        rw [drop_eq_getElem_cons hlt, filter_cons_of_neg (by simpa using hold), heq]
      · rw [drop_eq_nil_of_le (by omega)] at heq ⊢; exact heq
  · rcases mem_cons.1 hx with rfl | hx
    · exact hbegan
    · exact hc.2 x hx

theorem Turning.clear : Turning began called true [] index := by
  obtain ⟨hnodup, -, left, hleft, -⟩ := h; exact ⟨hnodup, by simp, left, hleft, .inr ⟨rfl, by simp⟩⟩

end

theorem turning_new (fns : List R) : Turning fns [] false fns 0 := by
  refine ⟨nodup_nil, by simp, fns, rfl, .inl ?_⟩
  exact filter_eq_self.2 (fun x hx => by simpa using hx)

end Loop

/-! ## A dispatch -/

namespace Server

/-- How often the arrays hold a registration. -/
def held [DecidableEq F] (s : Server F) (r : Registration F) : Nat :=
  (s.arrays .request).fns.count r + (s.arrays .connection).fns.count r

variable [DecidableEq F] {s : Server F} {ev : ServerEvent} {index : Nat} {rest : List Phase}

/-- The loop of `ev` is about to look at `index`. -/
def At (s : Server F) (ev : ServerEvent) (index : Nat) : Prop :=
  Turning (s.dispatch.began ev) (s.dispatch.called ev) (s.dispatch.cleared ev) (s.arrays ev).fns index

/-- The phases that are still to come, beside a loop under way: the listeners of the other events wait for theirs, or have been served. -/
structure Ahead (s : Server F) (under : Option ServerEvent) (rest : List Phase) : Prop where
  nodup : rest.Nodup
  loops : ∀ ev, .loop ev ∈ rest → ev ∈ s.dispatch.events
  other : ∀ ev ∈ under, .loop ev ∉ rest
  events : ∀ ev ∈ s.dispatch.events, under ≠ some ev →
    .loop ev ∈ rest ∧ s.At ev 0 ∧ s.dispatch.called ev = [] ∨ .loop ev ∉ rest ∧ s.dispatch.Serves ev true
  listener : .request ∈ s.dispatch.events → s.dispatch.listener = if .listener ∈ rest then 0 else 1

/-- Where a dispatch is. -/
def Going (s : Server F) : List Turn → Prop
  | [] => s.Ahead none []
  | [.turn ev index rest] => s.At ev index ∧ s.Ahead (some ev) rest
  | [.listener rest] => s.Ahead none rest
  | _ :: _ :: _ => False

/-- A block keeps the arrays sound, and moves `once` listeners from the arrays to what is seen. -/
structure Moves (s : Server F) (b : Result F) : Prop where
  sound : b.state.Sound
  going : b.state.Going b.frames
  held : ∀ r : Registration F, r.once = true → b.seen.count r + b.state.held r ≤ s.held r
  known : ∀ r ∈ b.seen, r.id < b.state.registrations
  registrations : b.state.registrations = s.registrations

theorem At.done (h : s.At ev index) (hnil : (s.arrays ev).fns.drop index = []) : s.dispatch.Serves ev true := by
  obtain ⟨hnodup, left, hleft, hor⟩ := Turning.done h hnil
  exact ⟨hnodup, left, hleft, fun _ => hor⟩

theorem At.congr {s' : Server F} (h : s.At ev index) (hfns : (s'.arrays ev).fns = (s.arrays ev).fns)
    (hbegan : s'.dispatch.began ev = s.dispatch.began ev) (hcalled : s'.dispatch.called ev = s.dispatch.called ev)
    (hcleared : s'.dispatch.cleared ev = s.dispatch.cleared ev) : s'.At ev index := by
  unfold At at h ⊢; rwa [hfns, hbegan, hcalled, hcleared]

theorem serves_congr {d d' : Dispatch F} {ended : Bool} (h : d.Serves ev ended) (hbegan : d'.began ev = d.began ev)
    (hcalled : d'.called ev = d.called ev) (hcleared : d'.cleared ev = d.cleared ev) : d'.Serves ev ended := by
  unfold Dispatch.Serves at h ⊢; rwa [hbegan, hcalled, hcleared]

/-- **A listener is called.** -/
theorem moves_take (hs : s.Sound) (hat : s.At ev index) (hahead : s.Ahead (some ev) rest) {r : Registration F} {a : ListenerArrays F}
    {index' : Nat} (htake : (s.arrays ev).take index = some (r, a, index')) :
    s.Moves { state := s.calls ev r a, seen := [r], frames := [.turn ev index' rest] } := by
  obtain ⟨hdrop, hflags, hsub, honce⟩ := take_cases (hs.flags ev) htake
  have hother : ∀ ev', ev' ≠ ev → (s.calls ev r a).arrays ev' = s.arrays ev' ∧ (s.calls ev r a).dispatch.called ev' = s.dispatch.called ev' :=
    fun ev' hne => ⟨update_of_ne hne _ _, update_of_ne hne _ _⟩
  have hsame : (s.calls ev r a).arrays ev = a ∧ (s.calls ev r a).dispatch.called ev = s.dispatch.called ev ++ [r] :=
    ⟨update_self _ _ _, update_self _ _ _⟩
  have hr : r ∈ (s.arrays ev).fns := mem_of_mem_drop (i := index) (hdrop ▸ mem_cons_self)
  constructor
  · constructor
    · intro ev'
      by_cases hev : ev' = ev
      · subst hev; rw [hsame.1]; exact hflags
      · rw [(hother ev' hev).1]; exact hs.flags ev'
    · intro ev'
      by_cases hev : ev' = ev
      · subst hev; rw [hsame.1]; exact (hs.nodup ev').sublist hsub
      · rw [(hother ev' hev).1]; exact hs.nodup ev'
    · intro ev' x hx
      by_cases hev : ev' = ev
      · subst hev
        rw [hsame.1, hsame.2] at hx
        rcases hx with hx | hx | hx
        · exact hs.known ev' x (.inl (hsub.subset hx))
        · exact hs.known ev' x (.inr (.inl hx))
        · rcases mem_append.1 hx with hx | hx
          · exact hs.known ev' x (.inr (.inr hx))
          · rw [mem_singleton.1 hx]; exact hs.known ev' r (.inl hr)
      · rw [(hother ev' hev).1, (hother ev' hev).2] at hx; exact hs.known ev' x hx
  · refine ⟨?_, hahead.nodup, hahead.loops, hahead.other, fun ev' hev' hne => ?_, hahead.listener⟩
    · show Turning (s.dispatch.began ev) ((s.calls ev r a).dispatch.called ev) (s.dispatch.cleared ev) ((s.calls ev r a).arrays ev).fns index'
      rw [hsame.1, hsame.2]; exact Turning.take hat (hs.nodup ev) hdrop hsub
    · have hne' : ev' ≠ ev := fun heq => hne (by rw [heq])
      obtain ⟨harr, hcalled⟩ := hother ev' hne'
      refine (hahead.events ev' hev' hne).imp (fun hw => ⟨hw.1, hw.2.1.congr (by rw [harr]) rfl hcalled rfl, hcalled.trans hw.2.2⟩)
        (fun ho => ⟨ho.1, @serves_congr _ _ _ s.dispatch (s.calls ev r a).dispatch true ho.2 rfl hcalled rfl⟩)
  · intro x hx
    have hcount : [r].count x + a.fns.count x ≤ (s.arrays ev).fns.count x := by
      by_cases hxr : x = r
      · subst hxr
        obtain ⟨front, back, hfns, hfns'⟩ := honce hx
        rw [hfns, hfns']
        simp
        omega
      · have hzero : [r].count x = 0 := count_eq_zero.2 (by simpa using hxr)
        have := hsub.count_le x; omega
    show [r].count x + (((s.calls ev r a).arrays .request).fns.count x + ((s.calls ev r a).arrays .connection).fns.count x) ≤
      (s.arrays .request).fns.count x + (s.arrays .connection).fns.count x
    cases ev with
    | request => rw [hsame.1, (hother .connection (by simp)).1]; omega
    | connection => rw [hsame.1, (hother .request (by simp)).1]; omega
  · intro x hx; rw [mem_singleton.1 hx]; exact hs.known ev r (.inl hr)
  · rfl

/-- **A dispatch goes on** to its next listener, or ends. -/
theorem moves_proceed : ∀ {rest : List Phase} {s : Server F}, s.Sound → s.Ahead none rest → s.Moves (s.proceed rest)
  | [], s, hs, hahead => ⟨hs, hahead, fun r _ => by simp [proceed], by simp [proceed], rfl⟩
  | .listener :: rest, s, hs, hahead => by
    have hnodup := nodup_cons.1 hahead.nodup
    have hloops : ∀ ev, .loop ev ∈ rest → ev ∈ s.dispatch.events := fun ev hin => hahead.loops ev (mem_cons_of_mem _ hin)
    refine ⟨⟨hs.flags, hs.nodup, hs.known⟩, ⟨hnodup.2, hloops, by simp, fun ev hev hne => ?_, fun hreq => ?_⟩, fun r _ => ?_,
      by simp [proceed], rfl⟩
    · rcases hahead.events ev hev hne with ⟨hin, hat, hcalled⟩ | ⟨hout, hserves⟩
      · refine .inl ⟨?_, hat, hcalled⟩
        simpa using hin
      · exact .inr ⟨fun hin => hout (mem_cons_of_mem _ hin), hserves⟩
    · have hzero := hahead.listener hreq
      rw [if_pos mem_cons_self] at hzero
      show s.dispatch.listener + 1 = _; rw [if_neg hnodup.1, hzero]
    · show [].count r + s.held r ≤ s.held r; simp
  | .loop ev :: rest, s, hs, hahead => by
    have hnodup := nodup_cons.1 hahead.nodup
    have hrest : ∀ ev', ev' ≠ ev → (.loop ev' ∈ Phase.loop ev :: rest ↔ .loop ev' ∈ rest) := by
      intro ev' hne; simp [hne]
    have hlistener : Phase.listener ∈ Phase.loop ev :: rest ↔ Phase.listener ∈ rest := by simp
    have hloops : ∀ ev, .loop ev ∈ rest → ev ∈ s.dispatch.events := fun ev hin => hahead.loops ev (mem_cons_of_mem _ hin)
    have hreq : .request ∈ s.dispatch.events → s.dispatch.listener = if .listener ∈ rest then 0 else 1 := by
      intro hreq; rw [hahead.listener hreq]; simp only [hlistener]
    cases htake : (s.arrays ev).take 0 with
    | none =>
      have hproceed : s.proceed (.loop ev :: rest) = s.proceed rest := by simp [proceed, htake]
      rw [hproceed]
      refine moves_proceed hs ⟨hnodup.2, hloops, by simp, fun ev' hev' hne => ?_, hreq⟩
      rcases hahead.events ev' hev' hne with ⟨hin, hat, hcalled⟩ | ⟨hout, hserves⟩
      · by_cases heq : ev' = ev
        · subst heq; exact .inr ⟨hnodup.1, hat.done (take_none htake)⟩
        · exact .inl ⟨(hrest ev' heq).1 hin, hat, hcalled⟩
      · exact .inr ⟨fun hin => hout (mem_cons_of_mem _ hin), hserves⟩
    | some taken =>
      obtain ⟨r, a, index⟩ := taken
      have hproceed : s.proceed (.loop ev :: rest) = { state := s.calls ev r a, seen := [r], frames := [.turn ev index rest] } := by
        simp [proceed, htake]
      rw [hproceed]
      have hat : s.At ev 0 := by
        rcases hahead.events ev (hahead.loops ev mem_cons_self) (by simp) with ⟨-, hat, -⟩ | ⟨hout, -⟩
        · exact hat
        · exact absurd mem_cons_self hout
      refine moves_take hs hat ⟨hnodup.2, hloops, by simpa using hnodup.1, fun ev' hev' hne => ?_, hreq⟩ htake
      have heq : ev' ≠ ev := fun h => hne (by rw [h])
      rcases hahead.events ev' hev' (by simp) with ⟨hin, hwaits⟩ | ⟨hout, hserves⟩
      · exact .inl ⟨(hrest ev' heq).1 hin, hwaits⟩
      · exact .inr ⟨fun hin => hout (mem_cons_of_mem _ hin), hserves⟩

theorem moves_resume {f : Turn} (hs : s.Sound) (hgoing : s.Going [f]) : s.Moves (s.resume f) := by
  cases f with
  | listener rest => exact moves_proceed hs hgoing
  | turn ev index rest =>
    obtain ⟨hat, hahead⟩ := hgoing
    cases htake : (s.arrays ev).take index with
    | none =>
      have hresume : s.resume (.turn ev index rest) = s.proceed rest := by simp [resume, htake]
      rw [hresume]
      refine moves_proceed hs ⟨hahead.nodup, hahead.loops, by simp, fun ev' hev' _ => ?_, hahead.listener⟩
      by_cases heq : ev' = ev
      · subst heq; exact .inr ⟨hahead.other ev' rfl, hat.done (take_none htake)⟩
      · exact hahead.events ev' hev' (fun h => heq (Option.some.inj h).symm)
    | some taken =>
      obtain ⟨r, a, index'⟩ := taken
      have hresume : s.resume (.turn ev index rest) = { state := s.calls ev r a, seen := [r], frames := [.turn ev index' rest] } := by
        simp [resume, htake]
      rw [hresume]; exact moves_take hs hat hahead htake

theorem moves_start {phases : List Phase} (hs : s.Sound) (hnodup : phases.Nodup)
    (hrequest : .loop .request ∈ phases → .listener ∈ phases) : s.Moves (s.start phases) := by
  have hmem : ∀ ev, ev ∈ (phases.filterMap fun
      | .loop ev => some ev
      | .listener => none) ↔ .loop ev ∈ phases := by
    intro ev
    rw [mem_filterMap]
    constructor
    · rintro ⟨phase, hin, hphase⟩
      cases phase with
      | loop ev' => cases hphase; exact hin
      | listener => cases hphase
    · exact fun hin => ⟨_, hin, rfl⟩
  have hnew : ∀ b : Result F, Moves { s with dispatch := {
      events := phases.filterMap fun
        | .loop ev => some ev
        | .listener => none
      began := fun ev => (s.arrays ev).fns } } b → s.Moves b :=
    fun b hb => ⟨hb.sound, hb.going, hb.held, hb.known, hb.registrations⟩
  refine hnew _ (moves_proceed ⟨hs.flags, hs.nodup, fun ev r hr => ?_⟩
    ⟨hnodup, fun ev => (hmem ev).2, by simp, fun ev hev _ => ?_, fun hev => ?_⟩)
  · rcases hr with hr | hr | hr
    · exact hs.known ev r (.inl hr)
    · exact hs.known ev r (.inl hr)
    · cases hr
  · exact .inl ⟨(hmem ev).1 hev, turning_new _, rfl⟩
  · rw [if_pos (hrequest ((hmem .request).1 hev))]

/-! ## The calls of the listeners -/

section Add

variable {ev' : ServerEvent} {fn : F} {once prepend : Bool}

theorem At.addServerListener (hs : s.Sound) (h : s.At ev' index)
    (hun : prepend = true → ev' = ev → ∀ r ∈ (s.arrays ev).fns, r ∉ s.dispatch.called ev) :
    (s.addServerListener ev fn once prepend).At ev' index := by
  show Turning (s.dispatch.began ev') (s.dispatch.called ev') (s.dispatch.cleared ev')
    ((s.addServerListener ev fn once prepend).arrays ev').fns index
  have hnew : (⟨fn, s.registrations, once⟩ : Registration F) ∉ s.dispatch.began ev' ∧
      (⟨fn, s.registrations, once⟩ : Registration F) ∉ s.dispatch.called ev' := by
    constructor
    · exact fun hin => absurd (hs.known ev' _ (.inr (.inl hin))) (by simp)
    · exact fun hin => absurd (hs.known ev' _ (.inr (.inr hin))) (by simp)
  rw [addServerListener_fns]
  split
  · next hev =>
    subst hev
    split
    · next hprepend => exact Turning.unshift h (hs.nodup ev') hnew.1 hnew.2 (hun hprepend rfl)
    · exact Turning.push h hnew.1 hnew.2
  · exact h

theorem Ahead.addServerListener {under : Option ServerEvent} (hs : s.Sound) (h : s.Ahead under rest) :
    (s.addServerListener ev fn once prepend).Ahead under rest := by
  refine ⟨h.nodup, h.loops, h.other, fun ev' hev' hne => ?_, h.listener⟩
  refine (h.events ev' hev' hne).imp_left (fun hw => ⟨hw.1, hw.2.1.addServerListener hs ?_, hw.2.2⟩)
  rintro - rfl r -; rw [hw.2.2]; exact not_mem_nil

theorem Going.addServerListener {fs : List Turn} (hs : s.Sound) (h : s.Going fs)
    (hun : prepend = true → ∀ index rest, .turn ev index rest ∈ fs → ∀ r ∈ (s.arrays ev).fns, r ∉ s.dispatch.called ev) :
    (s.addServerListener ev fn once prepend).Going fs := by
  match fs with
  | [] => exact Ahead.addServerListener hs h
  | [.listener _] => exact Ahead.addServerListener hs h
  | [.turn ev' index rest] =>
    refine ⟨At.addServerListener hs h.1 ?_, Ahead.addServerListener hs h.2⟩
    rintro hprepend rfl; exact hun hprepend index rest mem_cons_self

theorem held_addServerListener (r : Registration F) : (s.addServerListener ev fn once prepend).held r =
    s.held r + if r = ⟨fn, s.registrations, once⟩ then 1 else 0 := by
  unfold held
  rw [addServerListener_fns, addServerListener_fns]
  have hcons : ∀ (l : List (Registration F)) (x : Registration F), (x :: l).count r = l.count r + if r = x then 1 else 0 := by
    intro l x
    rw [count_cons]
    congr 1
    exact if_congr (by rw [beq_iff_eq, eq_comm]) rfl rfl
  have hsnoc : ∀ (l : List (Registration F)) (x : Registration F), (l ++ [x]).count r = l.count r + if r = x then 1 else 0 := by
    intro l x; rw [count_append, hcons, count_nil, Nat.zero_add]
  cases ev <;> cases prepend <;> simp only [reduceCtorEq, if_true, if_false, false_eq_true, hcons, hsnoc] <;> omega

end Add

section Clear

variable {cleared : Option ServerEvent}

theorem At.removeAllListeners (h : s.At ev index) : (s.removeAllListeners cleared).At ev index := by
  show Turning (s.dispatch.began ev) (s.dispatch.called ev) (s.dispatch.cleared ev || cleared.all (fun ev' => ev' = ev))
    (if cleared.all (fun ev' => ev' = ev) then ({} : ListenerArrays F) else s.arrays ev).fns index
  split
  · next hall =>
    rw [hall, Bool.or_true]; exact Turning.clear h
  · next hall =>
    rw [not_eq_true] at hall; rw [hall, Bool.or_false]; exact h

theorem serves_removeAllListeners {ended : Bool} (h : s.dispatch.Serves ev ended) : (s.removeAllListeners cleared).dispatch.Serves ev ended := by
  obtain ⟨hnodup, left, hleft, hover⟩ := h
  exact ⟨hnodup, left, hleft, fun ho => (hover ho).imp_right (fun hc => or_eq_true_iff.2 (.inl hc))⟩

theorem Ahead.removeAllListeners {under : Option ServerEvent} (h : s.Ahead under rest) : (s.removeAllListeners cleared).Ahead under rest := by
  refine ⟨h.nodup, h.loops, h.other, fun ev hev hne => ?_, h.listener⟩
  exact (h.events ev hev hne).imp (fun hw => ⟨hw.1, hw.2.1.removeAllListeners, hw.2.2⟩) (fun ho => ⟨ho.1, serves_removeAllListeners ho.2⟩)

theorem Going.removeAllListeners {fs : List Turn} (h : s.Going fs) : (s.removeAllListeners cleared).Going fs := by
  match fs with
  | [] => exact Ahead.removeAllListeners h
  | [.listener _] => exact Ahead.removeAllListeners h
  | [.turn _ _ _] => exact ⟨h.1.removeAllListeners, h.2.removeAllListeners⟩

theorem held_removeAllListeners (r : Registration F) : (s.removeAllListeners cleared).held r ≤ s.held r := by
  have hle : ∀ ev, ((s.removeAllListeners cleared).arrays ev).fns.count r ≤ (s.arrays ev).fns.count r := by
    intro ev
    unfold Server.removeAllListeners
    dsimp only
    split
    · exact Nat.zero_le _
    · exact Nat.le_refl _
  exact Nat.add_le_add (hle .request) (hle .connection)

end Clear

/-! ## Runs -/

/-- What every run keeps: a `once` listener is called or held, and not both. -/
structure Keeps (c : NodeCompat.Config (Server F) Turn (Registration F)) : Prop where
  sound : c.state.Sound
  going : c.state.Going c.stack
  once : ∀ r : Registration F, r.once = true → c.trace.count r + c.state.held r ≤ 1
  known : ∀ r ∈ c.trace, r.id < c.state.registrations

variable {c c' : NodeCompat.Config (Server F) Turn (Registration F)}

theorem Keeps.moves (h : Keeps c) {b : Result F} (hb : c.state.Moves b) : Keeps (b.onto [] c.trace) := by
  refine ⟨hb.sound, ?_, fun r hr => ?_, fun r hr => ?_⟩
  · rw [Block.onto_stack, append_nil]; exact hb.going
  · have := hb.held r hr
    have := h.once r hr; rw [Block.onto_trace, count_append, Block.onto_state]; omega
  · rw [Block.onto_trace] at hr
    rw [Block.onto_state]
    rcases mem_append.1 hr with hr | hr
    · rw [hb.registrations]; exact h.known r hr
    · exact hb.known r hr

theorem Keeps.addServerListener (h : Keeps c) {fn : F} {once prepend : Bool}
    (hun : unshifted c (.call (.addServerListener ev fn once prepend)) = true) :
    Keeps (Block.onto { state := c.state.addServerListener ev fn once prepend } c.stack c.trace) := by
  refine ⟨h.sound.addServerListener, h.going.addServerListener h.sound ?_, fun r hr => ?_, fun r hr => ?_⟩
  · rintro rfl index rest hin
    have hall := all_eq_true.1 hun _ hin; simpa using hall
  · rw [Block.onto_trace, append_nil, Block.onto_state, held_addServerListener]
    split
    · next hnew =>
      have hzero : c.trace.count r = 0 := by
        refine count_eq_zero.2 (fun hin => ?_)
        have := h.known r hin; rw [hnew] at this; exact absurd this (Nat.lt_irrefl _)
      have hheld : c.state.held r = 0 := by
        have hout : ∀ ev, (c.state.arrays ev).fns.count r = 0 := by
          intro ev
          refine count_eq_zero.2 (fun hin => ?_)
          have := h.sound.known ev r (.inl hin)
          rw [hnew] at this; exact absurd this (Nat.lt_irrefl _)
        unfold held; rw [hout, hout]
      omega
    · exact h.once r hr
  · rw [Block.onto_trace, append_nil] at hr; exact Nat.lt_succ_of_lt (h.known r hr)

theorem Keeps.removeAllListeners (h : Keeps c) (cleared : Option ServerEvent) :
    Keeps (Block.onto { state := c.state.removeAllListeners cleared } c.stack c.trace) := by
  refine ⟨h.sound.removeAllListeners, h.going.removeAllListeners, fun r hr => ?_, fun r hr => ?_⟩
  · have : (c.state.removeAllListeners cleared).held r ≤ c.state.held r := held_removeAllListeners r
    rw [Block.onto_trace, append_nil, Block.onto_state]
    exact (Nat.add_le_add_left this _).trans (h.once r hr)
  · rw [Block.onto_trace, append_nil] at hr; exact h.known r hr

theorem keeps_run {ls : List (Move (ServerCall F))} (h : Run (program F).step (fun c l => unshifted c l = true) { state := {} } ls c) : Keeps c := by
  refine Reentrant.invariant_of (I := Keeps) (fun c k b hI hP ht hcall => ?_) (fun c f fs hI _ hstack => ?_) h ?_
  · cases k with
    | addServerListener ev fn once prepend => cases hcall; exact hI.addServerListener hP
    | removeAllListeners ev => cases hcall; exact hI.removeAllListeners ev
    | request first =>
      cases hcall
      rw [ht rfl]
      refine hI.moves (moves_start hI.sound ?_ ?_)
      · cases first <;> decide
      · cases first <;> decide
    | connection =>
      cases hcall; rw [ht rfl]; exact hI.moves (moves_start hI.sound (by decide) (by decide))
  · have hgoing := hI.going
    rw [hstack] at hgoing
    cases fs with
    | cons g gs => cases f <;> exact hgoing.elim
    | nil => exact hI.moves (moves_resume hI.sound hgoing)
  · refine ⟨⟨fun _ => rfl, fun _ => nodup_nil, by simp⟩, ⟨nodup_nil, by simp, by simp, by simp, by simp⟩, by simp [held], by simp⟩

/-- Between two of its turns a dispatch has served nobody twice, and no other before the one whose turn it was. -/
theorem Going.serves {fs : List Turn} (h : s.Going fs) (hev : ev ∈ s.dispatch.events) : s.dispatch.Serves ev fs.isEmpty := by
  have hat : ∀ {ev index}, s.At ev index → s.dispatch.Serves ev false := by
    rintro ev index ⟨hnodup, -, left, hleft, -⟩; exact ⟨hnodup, left, hleft, nofun⟩
  have hahead : ∀ {under rest}, s.Ahead under rest → under ≠ some ev → s.dispatch.Serves ev false := by
    intro under rest h hne
    rcases h.events ev hev hne with ⟨-, hw, -⟩ | ⟨-, hnodup, left, hleft, -⟩
    · exact hat hw
    · exact ⟨hnodup, left, hleft, nofun⟩
  match fs with
  | [] =>
    rcases h.events ev hev (by simp) with ⟨hin, -⟩ | ⟨-, hserves⟩
    · exact absurd hin not_mem_nil
    · exact hserves
  | [.listener _] => exact hahead h (by simp)
  | [.turn ev' _ _] =>
    by_cases heq : ev' = ev
    · subst heq; exact hat h.1
    · exact hahead h.2 (fun hsome => heq (Option.some.inj hsome))

end Server

section Runs

variable [DecidableEq F]

/-- **Server listeners run once per request**, when none is prepended behind the back of the loop that calls it. -/
theorem listeners_run_once {ls : List (Move (ServerCall F))} {c : NodeCompat.Config (Server F) Turn (Registration F)}
    (h : Run (Server.program F).step (fun c l => unshifted c l = true) { state := {} } ls c) :
    (∀ r, r.once = true → c.trace.count r ≤ 1) ∧
      (∀ ev ∈ c.state.dispatch.events, c.state.dispatch.Serves ev c.stack.isEmpty) ∧
      (c.stack = [] → .request ∈ c.state.dispatch.events → c.state.dispatch.listener = 1) := by
  have hkeeps := Server.keeps_run h
  refine ⟨fun r hr => (Nat.le_add_right _ _).trans (hkeeps.once r hr), fun ev hev => hkeeps.going.serves hev, fun hstack hreq => ?_⟩
  have hgoing := hkeeps.going; rw [hstack] at hgoing; exact hgoing.listener hreq

/-- A listener and a `once` one, for the first request on a connection, of which the former adds a third. -/
theorem listeners_run_once_added : ∃ c : NodeCompat.Config (Server Nat) Turn (Registration Nat),
    Run (Server.program Nat).step (fun c l => unshifted c l = true) { state := {} }
        [.call (.addServerListener .request 1 false false), .call (.addServerListener .request 2 true true), .call (.request true), .ret, .ret,
          .call (.addServerListener .request 3 false false), .ret, .ret] c ∧
      c.stack = [] ∧ c.state.dispatch.events = [.connection, .request] ∧ c.state.dispatch.listener = 1 ∧
      c.state.dispatch.called .request = [⟨2, 1, true⟩, ⟨1, 0, false⟩, ⟨3, 2, false⟩] ∧ c.state.dispatch.Serves .request true := by
  have hend : (runs (fun c l => if unshifted c l then (Server.program Nat).step c l else none) { state := {} }
      [.call (.addServerListener .request 1 false false), .call (.addServerListener .request 2 true true), .call (.request true), .ret, .ret,
        .call (.addServerListener .request 3 false false), .ret, .ret]).any
      (fun c => decide (c.stack = []) && decide (c.state.dispatch.events = [.connection, .request]) &&
        decide (c.state.dispatch.called .request = [⟨2, 1, true⟩, ⟨1, 0, false⟩, ⟨3, 2, false⟩])) = true := by
    decide +kernel
  obtain ⟨c, hruns, hc⟩ := (Option.any_eq_true _ _).1 hend
  rw [and_eq_true, and_eq_true] at hc
  obtain ⟨⟨hstack, hevents⟩, hcalled⟩ := hc
  have hstack' := of_decide_eq_true hstack
  have hevents' := of_decide_eq_true hevents
  have hrun := Run.of_guarded _ hruns
  obtain ⟨-, hserves, hlistener⟩ := listeners_run_once hrun
  have hrequest : ServerEvent.request ∈ c.state.dispatch.events := by simp [hevents']
  refine ⟨c, hrun, hstack', hevents', hlistener hstack' hrequest, of_decide_eq_true hcalled, ?_⟩
  have hdone := hserves .request hrequest; rwa [hstack'] at hdone

/-- A listener that prepends one while it runs is called a second time: for a request, and for a connection of a `net.Server`. -/
theorem prepended_calls_twice :
    (∃ c : NodeCompat.Config (Server Nat) Turn (Registration Nat),
      runs (Server.program Nat).step { state := {} } [.call (.addServerListener .request 1 false false), .call (.request false), .ret,
        .call (.addServerListener .request 2 false true), .ret, .ret] = some c ∧
      c.stack = [] ∧ c.state.dispatch.began .request = [⟨1, 0, false⟩] ∧
      c.state.dispatch.called .request = [⟨1, 0, false⟩, ⟨1, 0, false⟩]) ∧
    ∃ c : NodeCompat.Config (Server Nat) Turn (Registration Nat),
      runs (Server.program Nat).step { state := {} } [.call (.addServerListener .connection 1 false false), .call .connection,
        .call (.addServerListener .connection 2 false true), .ret, .ret] = some c ∧
      c.stack = [] ∧ c.state.dispatch.began .connection = [⟨1, 0, false⟩] ∧
      c.state.dispatch.called .connection = [⟨1, 0, false⟩, ⟨1, 0, false⟩] :=
  ⟨⟨_, rfl, rfl, rfl, rfl⟩, ⟨_, rfl, rfl, rfl, rfl⟩⟩

end Runs

end NodeCompat.Http
