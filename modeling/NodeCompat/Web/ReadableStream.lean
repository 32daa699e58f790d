import NodeCompat.Lib.Reentrant

/-!
# `ReadableStream` of the web streams

A stream has a queue of chunks and one place for a `read` that waits: the resolvers of its promise. `read` takes a queued
chunk, or the outcome of a stream that is over; else it calls `pull`, which may use the controller at once, looks again,
and waits.

`reads` holds the promises that `read` has returned, in the order of the calls, and `enqueued` the chunks the controller
took. In the runs in which a `read` that has to wait finds the place free, and in which no `read` is called from the `pull`
of another, the promises are fulfilled with the chunks in order, then with the outcome, and when the stream is over none
stays pending (`reads_deliver`). A second `read` that waits takes the place of the first, which then stays pending
for ever (`waiting_read_overwritten`).
-/

namespace NodeCompat.Web

open List

/-- `state_`, with `error_` where there is one. -/
inductive StreamState (ε : Type)
  | readable
  | closed
  | errored (reason : ε)
  deriving DecidableEq

/-- How a `read` settles. -/
inductive ReadResult (α ε : Type)
  | value (chunk : α)
  | done
  | rejected (reason : ε)
  deriving DecidableEq

/-- How a `read` settles that finds the stream over. -/
def StreamState.outcome {α ε : Type} : StreamState ε → Option (ReadResult α ε)
  | .readable => none
  | .closed => some .done
  | .errored reason => some (.rejected reason)

structure ReadableStream (α ε : Type) where
  state : StreamState ε := .readable
  queue : List α := []
  pull : Bool
  -- the `read` whose resolvers are stored
  waiting : Option Nat := none
  -- the promise behind `closed`
  closed : Option (Except ε Unit) := none
  reads : List (Option (ReadResult α ε)) := []
  enqueued : List α := []

namespace ReadableStream

/-- `read`, waiting for `pull` to return. -/
inductive Frame
  | pulling (read : Nat)
  deriving DecidableEq

inductive Call (α ε : Type)
  | enqueue (chunk : α)
  | close
  | error (reason : ε)
  | read
  deriving DecidableEq

/-- `enqueue` throws when the stream is not readable. -/
inductive Event
  | notReadable
  deriving DecidableEq

variable {α ε : Type} (s : ReadableStream α ε)

abbrev Result (α ε : Type) := Block (ReadableStream α ε) Frame Event

def settle (read : Nat) (result : ReadResult α ε) : ReadableStream α ε := { s with reads := s.reads.set read (some result) }

/-- The `read` that waits is settled, and its resolvers are cleared. -/
def settleWaiting (result : ReadResult α ε) : ReadableStream α ε :=
  match s.waiting with
  | some read => { s.settle read result with waiting := none }
  | none => s

def enqueueFromController (chunk : α) : Result α ε :=
  match s.state with
  | .readable =>
    let s := { s with enqueued := s.enqueued ++ [chunk] }
    { state := if s.waiting.isSome then s.settleWaiting (.value chunk) else { s with queue := s.queue ++ [chunk] } }
  | _ => { state := s, seen := [.notReadable] }

def closeFromController : ReadableStream α ε :=
  match s.state with
  | .readable => { ({ s with state := .closed }).settleWaiting .done with closed := some (.ok ()) }
  | _ => s

def errorFromController (reason : ε) : ReadableStream α ε :=
  match s.state with
  | .readable =>
    { ({ s with state := .errored reason }).settleWaiting (.rejected reason) with closed := some (.error reason) }
  | _ => s

/-- What a `read` can take: a queued chunk, or the outcome of a stream that is over. -/
def take : Option (ReadableStream α ε × ReadResult α ε) :=
  match s.queue with
  | chunk :: queue => some ({ s with queue }, .value chunk)
  | [] => s.state.outcome.map (fun result => (s, result))

/-- `readInternal`, up to the call of `pull`. -/
def readInternal : Result α ε :=
  let read := s.reads.length
  match s.take with
  | some (s, result) => { state := { s with reads := s.reads ++ [some result] } }
  | none =>
    let s := { s with reads := s.reads ++ [none] }
    if s.pull then { state := s, frames := [.pulling read] } else { state := { s with waiting := some read } }

/-- `readInternal`, after `pull` has returned. -/
def pulled (read : Nat) : ReadableStream α ε :=
  match s.take with
  | some (s, result) => s.settle read result
  | none => { s with waiting := some read }

def call : Call α ε → Result α ε
  | .enqueue chunk => s.enqueueFromController chunk
  | .close => { state := s.closeFromController }
  | .error reason => { state := s.errorFromController reason }
  | .read => s.readInternal

/-- The stream with its source and its reader. -/
def program : Reentrant (ReadableStream α ε) (Call α ε) Frame Event where
  call s k := some (s.call k)
  resume s
    | .pulling read => { state := s.pulled read }
  task _ := false

/-! ## Delivery -/

/-- The promises in call order: those fulfilled with the chunks `vs`, `n` settled with the outcome, `w` pending. -/
def promises (outcome : Option (ReadResult α ε)) (vs : List α) (n w : Nat) : List (Option (ReadResult α ε)) :=
  vs.map (fun v => some (.value v)) ++ List.replicate n outcome ++ List.replicate w none

/-- The first promises are fulfilled with the chunks, each once and in order; those behind them are settled with the outcome
of a stream that is over and has no chunk left; and none is left pending by a stream that is over. -/
def Delivered (c : Config (ReadableStream α ε) Frame Event) : Prop :=
  ∃ vs n w, c.state.reads = promises c.state.state.outcome vs n w ∧ c.state.enqueued = vs ++ c.state.queue ∧
    (n ≠ 0 → c.state.state ≠ .readable ∧ c.state.queue = []) ∧ (c.state.state ≠ .readable → c.stack = [] → w = 0)

/-- A `read` would have to wait, and its place is taken. -/
def Occupied : Prop := s.state = .readable ∧ s.queue = [] ∧ s.waiting ≠ none

/-- No `read` is called from a `pull`, and a `read` that has to wait finds its place free. -/
def Proper (c : Config (ReadableStream α ε) Frame Event) : Move (Call α ε) → Prop
  | .call .read => c.stack = [] ∧ (c.state.pull = true ∨ ¬ c.state.Occupied)
  | .ret => ¬ c.state.Occupied
  | _ => True

/-- The promise that waits for the controller. -/
def held : Nat := if s.waiting.isSome then 1 else 0

structure Inv (stack : List Frame) (vs : List α) (n : Nat) : Prop where
  reads : s.reads = promises s.state.outcome vs n (s.held + stack.length)
  enqueued : s.enqueued = vs ++ s.queue
  atEnd : n ≠ 0 → s.state ≠ .readable ∧ s.queue = []
  waiting : ∀ i, s.waiting = some i → i = vs.length ∧ s.state = .readable ∧ s.queue = []
  pulling : stack = [] ∨ stack = [.pulling (vs.length + n + s.held)]

variable {s} {stack : List Frame} {vs : List α} {n : Nat} {o : Option (ReadResult α ε)}

theorem set_pending {A : List (Option (ReadResult α ε))} (r : ReadResult α ε) (k : Nat) {i : Nat} (hi : i = A.length) :
    (A ++ List.replicate (k + 1) none).set i (some r) = A ++ [some r] ++ List.replicate k none := by
  subst hi
  rw [set_append_right _ _ (Nat.le_refl _), Nat.sub_self, replicate_succ, set_cons_zero,
    append_assoc, singleton_append]

theorem promises_set_value (v : α) (k : Nat) {i : Nat} (hi : i = vs.length) :
    (promises o vs 0 (k + 1)).set i (some (.value v)) = promises o (vs ++ [v]) 0 k := by
  unfold promises
  rw [replicate_zero, append_nil, set_pending _ _ (by simpa using hi), map_append, append_nil]; rfl

theorem promises_set_outcome (r : ReadResult α ε) (k : Nat) {i : Nat} (hi : i = vs.length + n) :
    (promises (some r) vs n (k + 1)).set i (some r) = promises (some r) vs (n + 1) k := by
  unfold promises
  rw [set_pending _ _ (by simpa using hi), replicate_succ']; simp only [append_assoc]

theorem promises_zero (o' : Option (ReadResult α ε)) (w : Nat) : promises o vs 0 w = promises o' vs 0 w := rfl

theorem length_promises (w : Nat) : (promises o vs n w).length = vs.length + n + w := by
  simp [promises, Nat.add_assoc]

section

variable (h : Inv s stack vs n)
include h

theorem Inv.none_over (hs : s.state = .readable) : n = 0 := by
  by_contra hn
  exact (h.atEnd hn).1 hs

theorem Inv.none_over_of_queue {chunk : α} {queue : List α} (hq : s.queue = chunk :: queue) : n = 0 := by
  by_contra hn
  have hnil := (h.atEnd hn).2; simp [hq] at hnil

theorem Inv.not_waiting_of_queue {chunk : α} {queue : List α} (hq : s.queue = chunk :: queue) :
    s.waiting = none := by
  cases hw : s.waiting with
  | none => rfl
  | some i => have hnil := (h.waiting i hw).2.2; simp [hq] at hnil

theorem Inv.not_waiting_of_over (hs : s.state ≠ .readable) : s.waiting = none := by
  cases hw : s.waiting with
  | none => rfl
  | some i => exact absurd (h.waiting i hw).2.1 hs

theorem Inv.reads_waiting {i : Nat} (hw : s.waiting = some i) :
    s.reads = promises s.state.outcome vs n (stack.length + 1) := by
  rw [h.reads, held, hw]; exact congrArg (promises s.state.outcome vs n) (Nat.add_comm 1 _)

theorem Inv.reads_not_waiting (hw : s.waiting = none) : s.reads = promises s.state.outcome vs n stack.length := by
  rw [h.reads, held, hw]; exact congrArg (promises s.state.outcome vs n) (Nat.zero_add _)

theorem Inv.pulling_waiting {i : Nat} (hw : s.waiting = some i) :
    stack = [] ∨ stack = [.pulling (vs.length + n + 1)] := by
  have hp := h.pulling; rwa [held, hw] at hp

theorem Inv.pulling_not_waiting (hw : s.waiting = none) : stack = [] ∨ stack = [.pulling (vs.length + n)] := by
  have hp := h.pulling; rwa [held, hw] at hp

end

theorem inv_of_not_waiting (hw : s.waiting = none) (hr : s.reads = promises s.state.outcome vs n stack.length)
    (he : s.enqueued = vs ++ s.queue) (ho : n ≠ 0 → s.state ≠ .readable ∧ s.queue = [])
    (hp : stack = [] ∨ stack = [.pulling (vs.length + n)]) : Inv s stack vs n := by
  refine ⟨?_, he, ho, ?_, ?_⟩
  · rw [hr, held, hw]; exact congrArg (promises s.state.outcome vs n) (Nat.zero_add _).symm
  · simp [hw]
  · rwa [held, hw]

theorem enqueueFromController_inv (chunk : α) (h : Inv s stack vs n) :
    (s.enqueueFromController chunk).frames = [] ∧ ∃ vs' n', Inv (s.enqueueFromController chunk).state stack vs' n' := by
  unfold enqueueFromController
  split
  · next hs =>
    obtain rfl := h.none_over hs
    refine ⟨rfl, ?_⟩
    cases hw : s.waiting with
    | some i =>
      obtain ⟨hi, -, hq⟩ := h.waiting i hw
      have hr := h.reads_waiting hw
      refine ⟨vs ++ [chunk], 0, inv_of_not_waiting ?_ ?_ ?_ nofun ?_⟩
      · simp [settleWaiting, settle]
      · simp only [Option.isSome_some, if_true, settleWaiting, settle, hr, promises_set_value chunk stack.length hi]
      · simp [settleWaiting, settle, h.enqueued, hq]
      · simpa using h.pulling_waiting hw
    | none =>
      refine ⟨vs, 0, inv_of_not_waiting ?_ ?_ ?_ nofun ?_⟩
      · simp
      · exact h.reads_not_waiting hw
      · simp [h.enqueued]
      · simpa using h.pulling_not_waiting hw
  · exact ⟨rfl, vs, n, h⟩

theorem over_inv {state : StreamState ε} {r : ReadResult α ε} {closed : Option (Except ε Unit)} (hs : s.state = .readable)
    (hne : state ≠ .readable) (hr : state.outcome = some r) (h : Inv s stack vs n) :
    ∃ n', Inv { ({ s with state } : ReadableStream α ε).settleWaiting r with closed } stack vs n' := by
  obtain rfl := h.none_over hs
  cases hw : s.waiting with
  | some i =>
    obtain ⟨hi, -, hq⟩ := h.waiting i hw
    have hreads := h.reads_waiting hw
    refine ⟨1, inv_of_not_waiting ?_ ?_ ?_ (fun _ => ⟨?_, ?_⟩) ?_⟩
    · simp [settleWaiting]
    · have hset := promises_set_outcome r stack.length (hi.trans (Nat.add_zero _).symm)
      have ho : s.reads.set i (some r) = promises (some r) vs 1 stack.length := by
        rw [hreads, promises_zero (some r)]; exact hset
      simpa [settleWaiting, settle, hr] using ho
    · simp [settleWaiting, settle, h.enqueued]
    · simpa [settleWaiting, settle] using hne
    · simpa [settleWaiting, settle] using hq
    · simpa using h.pulling_waiting hw
  | none =>
    refine ⟨0, inv_of_not_waiting ?_ ?_ ?_ nofun ?_⟩
    · simp [settleWaiting]
    · exact h.reads_not_waiting hw
    · simp [settleWaiting, h.enqueued]
    · simpa using h.pulling_not_waiting hw

theorem closeFromController_inv (h : Inv s stack vs n) : ∃ n', Inv s.closeFromController stack vs n' := by
  unfold closeFromController
  split
  · next hs => exact over_inv hs nofun rfl h
  · exact ⟨n, h⟩

theorem errorFromController_inv (reason : ε) (h : Inv s stack vs n) :
    ∃ n', Inv (s.errorFromController reason) stack vs n' := by
  unfold errorFromController
  split
  · next hs => exact over_inv hs nofun rfl h
  · exact ⟨n, h⟩

section Frame

variable (r : ReadResult α ε)

@[simp] theorem settleWaiting_enqueued : (s.settleWaiting r).enqueued = s.enqueued := by
  unfold settleWaiting
  split <;> rfl

@[simp] theorem settleWaiting_state : (s.settleWaiting r).state = s.state := by
  unfold settleWaiting
  split <;> rfl

theorem enqueueFromController_enqueued (chunk : α) (hs : s.state = .readable) :
    (s.enqueueFromController chunk).state.enqueued = s.enqueued ++ [chunk] := by
  simp only [enqueueFromController, hs]
  split
  · exact settleWaiting_enqueued _
  · rfl

@[simp] theorem closeFromController_enqueued : s.closeFromController.enqueued = s.enqueued := by
  unfold closeFromController
  split
  · exact settleWaiting_enqueued _
  · rfl

@[simp] theorem errorFromController_enqueued (reason : ε) : (s.errorFromController reason).enqueued = s.enqueued := by
  unfold errorFromController
  split
  · exact settleWaiting_enqueued _
  · rfl

@[simp] theorem settleWaiting_pull : (s.settleWaiting r).pull = s.pull := by
  unfold settleWaiting
  split <;> rfl

@[simp] theorem enqueueFromController_state (chunk : α) : (s.enqueueFromController chunk).state.state = s.state := by
  unfold enqueueFromController
  split
  · dsimp only
    split
    · exact settleWaiting_state _
    · rfl
  · rfl

@[simp] theorem enqueueFromController_pull (chunk : α) : (s.enqueueFromController chunk).state.pull = s.pull := by
  unfold enqueueFromController
  split
  · dsimp only
    split
    · exact settleWaiting_pull _
    · rfl
  · rfl

@[simp] theorem closeFromController_pull : s.closeFromController.pull = s.pull := by
  unfold closeFromController
  split
  · exact settleWaiting_pull _
  · rfl

@[simp] theorem errorFromController_pull (reason : ε) : (s.errorFromController reason).pull = s.pull := by
  unfold errorFromController
  split
  · exact settleWaiting_pull _
  · rfl

theorem closed_of_errorFromController {reason : ε} (h : (s.errorFromController reason).state = .closed) :
    s.state = .closed := by
  unfold errorFromController at h
  split at h
  · rw [settleWaiting_state] at h; cases h
  · exact h

end Frame

theorem take_cases (s : ReadableStream α ε) :
    (∃ chunk queue, s.queue = chunk :: queue ∧ s.take = some ({ s with queue }, .value chunk)) ∨
    (∃ r, s.queue = [] ∧ s.state ≠ .readable ∧ s.state.outcome = some r ∧ s.take = some (s, r)) ∨
    (s.queue = [] ∧ s.state = .readable ∧ s.take = none) := by
  unfold take
  cases hq : s.queue with
  | cons chunk queue => exact .inl ⟨chunk, queue, rfl, rfl⟩
  | nil =>
    cases hs : s.state with
    | readable => exact .inr (.inr ⟨rfl, rfl, rfl⟩)
    | closed => exact .inr (.inl ⟨.done, rfl, nofun, rfl, rfl⟩)
    | errored reason => exact .inr (.inl ⟨.rejected reason, rfl, nofun, rfl, rfl⟩)

/-- After `pull`, or without one, a `read` whose promise is the last one takes what it can or waits. -/
theorem pulled_inv {i : Nat} (ho : ¬ s.Occupied) (h : Inv s [.pulling i] vs n) :
    ∃ vs' n', Inv (s.pulled i) [] vs' n' := by
  have hi : s.waiting = none → i = vs.length + n := by intro hw; simpa using h.pulling_not_waiting hw
  unfold pulled
  obtain ⟨chunk, queue, hq, ht⟩ | ⟨r, hq, hs, hr, ht⟩ | ⟨hq, hs, ht⟩ := take_cases s
  · obtain rfl := h.none_over_of_queue hq
    have hw := h.not_waiting_of_queue hq
    refine ⟨vs ++ [chunk], 0, ?_⟩
    simp only [ht]
    refine inv_of_not_waiting hw ?_ ?_ nofun (.inl rfl)
    · simp only [settle, h.reads_not_waiting hw]; exact promises_set_value chunk 0 (hi hw)
    · simp [settle, h.enqueued, hq]
  · have hw := h.not_waiting_of_over hs
    refine ⟨vs, n + 1, ?_⟩
    simp only [ht]
    refine inv_of_not_waiting hw ?_ h.enqueued (fun _ => ⟨hs, hq⟩) (.inl rfl)
    have hset := promises_set_outcome r 0 (hi hw)
    rw [← hr] at hset; rw [settle, h.reads_not_waiting hw, ← hr]; exact hset
  · obtain rfl := h.none_over hs
    have hw : s.waiting = none := by
      by_contra hne
      exact ho ⟨hs, hq, hne⟩
    refine ⟨vs, 0, ?_⟩
    simp only [ht]
    exact ⟨h.reads_not_waiting hw, h.enqueued, nofun, fun j hj => ⟨(Option.some.inj hj).symm.trans (hi hw), hs, hq⟩, .inl rfl⟩

theorem opened_inv (h : Inv s [] vs n) :
    Inv ({ s with reads := s.reads ++ [none] } : ReadableStream α ε) [.pulling s.reads.length] vs n := by
  refine ⟨?_, h.enqueued, h.atEnd, h.waiting, .inr ?_⟩
  · calc s.reads ++ [none] = promises s.state.outcome vs n s.held ++ [none] := by rw [h.reads]; rfl
      _ = promises s.state.outcome vs n (s.held + 1) := by
          unfold promises; rw [replicate_succ', append_assoc _ _ [none]]
  · rw [h.reads, length_promises]; rfl

theorem readInternal_cases (s : ReadableStream α ε) :
    (s.readInternal = { state := { s with reads := s.reads ++ [none] }, frames := [.pulling s.reads.length] }) ∨
    ((s.pull = false ∨ ¬ s.Occupied) ∧
      s.readInternal = { state := ({ s with reads := s.reads ++ [none] } : ReadableStream α ε).pulled s.reads.length }) := by
  obtain ⟨chunk, queue, hq, ht⟩ | ⟨r, hq, hs, hr, ht⟩ | ⟨hq, hs, ht⟩ := take_cases s
  · refine .inr ⟨.inr (fun ho => by simpa [hq] using ho.2.1), ?_⟩
    simp [readInternal, pulled, settle, take, hq]
  · refine .inr ⟨.inr (fun ho => hs ho.1), ?_⟩
    simp [readInternal, pulled, settle, take, hq, hr]
  · cases hp : s.pull with
    | true => left; simp [readInternal, ht, hp]
    | false =>
      refine .inr ⟨.inl rfl, ?_⟩
      simp [readInternal, pulled, take, hq, hs, hp, StreamState.outcome]

@[simp] theorem pulled_enqueued (i : Nat) : (s.pulled i).enqueued = s.enqueued := by
  unfold pulled
  obtain ⟨_, _, _, ht⟩ | ⟨_, _, _, _, ht⟩ | ⟨_, _, ht⟩ := take_cases s <;> rw [ht] <;> rfl

@[simp] theorem pulled_state (i : Nat) : (s.pulled i).state = s.state := by
  unfold pulled
  obtain ⟨_, _, _, ht⟩ | ⟨_, _, _, _, ht⟩ | ⟨_, _, ht⟩ := take_cases s <;> rw [ht] <;> rfl

@[simp] theorem pulled_pull (i : Nat) : (s.pulled i).pull = s.pull := by
  unfold pulled
  obtain ⟨_, _, _, ht⟩ | ⟨_, _, _, _, ht⟩ | ⟨_, _, ht⟩ := take_cases s <;> rw [ht] <;> rfl

@[simp] theorem readInternal_state : s.readInternal.state.state = s.state := by
  obtain he | ⟨-, he⟩ := readInternal_cases s
  · rw [he]
  · rw [he]; exact pulled_state _

@[simp] theorem readInternal_pull : s.readInternal.state.pull = s.pull := by
  obtain he | ⟨-, he⟩ := readInternal_cases s
  · rw [he]
  · rw [he]; exact pulled_pull _

theorem readInternal_frames (hp : s.pull = false) : s.readInternal.frames = [] := by
  unfold readInternal
  split
  · rfl
  · rw [hp]; rfl

@[simp] theorem readInternal_enqueued : s.readInternal.state.enqueued = s.enqueued := by
  obtain he | ⟨-, he⟩ := readInternal_cases s
  · rw [he]
  · rw [he]; exact pulled_enqueued _

theorem readInternal_inv (hc : s.pull = true ∨ ¬ s.Occupied) (h : Inv s [] vs n) :
    ∃ vs' n', Inv s.readInternal.state s.readInternal.frames vs' n' := by
  obtain he | ⟨ho, he⟩ := readInternal_cases s
  · rw [he]; exact ⟨vs, n, opened_inv h⟩
  · have hocc : ¬ s.Occupied := by
      obtain hp | hn := ho
      · obtain hc | hc := hc
        · simp [hp] at hc
        · exact hc
      · exact hn
    rw [he]; exact pulled_inv hocc (opened_inv h)

theorem inv_step {c c' : Config (ReadableStream α ε) Frame Event} {l : Move (Call α ε)} (hP : Proper c l)
    (h : ∃ vs n, Inv c.state c.stack vs n) (hst : program.step c l = some c') :
    ∃ vs n, Inv c'.state c'.stack vs n := by
  obtain ⟨vs, n, h⟩ := h
  cases l with
  | call k =>
    obtain ⟨-, b, hb, rfl⟩ := Reentrant.step_call hst
    cases hb
    cases k with
    | enqueue chunk => obtain ⟨hf, hI⟩ := enqueueFromController_inv chunk h; simpa [call, hf] using hI
    | close => exact ⟨vs, closeFromController_inv h⟩
    | error reason => exact ⟨vs, errorFromController_inv reason h⟩
    | read =>
      obtain ⟨hs, hc⟩ := hP; rw [hs] at h; simpa [call, hs] using readInternal_inv hc h
  | ret =>
    obtain ⟨f, fs, hs, rfl⟩ := Reentrant.step_ret hst
    obtain ⟨i⟩ := f
    rw [hs] at h
    have hfs : fs = [] := by
      obtain hn | hn := h.pulling
      · cases hn
      · exact (List.cons.inj hn).2
    subst hfs; exact pulled_inv hP h

theorem delivered_of_inv {c : Config (ReadableStream α ε) Frame Event} (h : ∃ vs n, Inv c.state c.stack vs n) :
    Delivered c := by
  obtain ⟨vs, n, h⟩ := h
  refine ⟨vs, n, _, h.reads, h.enqueued, h.atEnd, fun hs hst => ?_⟩
  rw [held, h.not_waiting_of_over hs, hst]; rfl

/-- **Delivery**, in the runs in which a `read` that has to wait finds its place free and none is called from a `pull`. -/
theorem reads_deliver (pull : Bool) (ls : List (Move (Call α ε))) (c : Config (ReadableStream α ε) Frame Event)
    (h : Run program.step Proper ⟨{ pull }, [], []⟩ ls c) : Delivered c := by
  have hI := h.invariant (I := fun c => ∃ vs n, Inv c.state c.stack vs n) (fun _ _ _ hI hP hst => inv_step hP hI hst)
  refine delivered_of_inv (hI ?_)
  exact ⟨[], 0, inv_of_not_waiting rfl rfl rfl nofun (.inl rfl)⟩

/-- A source without `pull`: the first `read` gets the chunk that comes later, and the second the end. -/
theorem reads_deliver_two : ∃ c : Config (ReadableStream Nat Nat) Frame Event,
    c.state.reads = [some (.value 7), some .done] ∧ Delivered c := by
  have h : Run program.step Proper (⟨{ pull := false }, [], []⟩ : Config (ReadableStream Nat Nat) Frame Event)
      [.call .read, .call (.enqueue 7), .call .read, .call .close] _ :=
    .cons ⟨rfl, .inr (fun h => h.2.2 rfl)⟩ rfl (.cons trivial rfl
      (.cons ⟨rfl, .inr (fun h => h.2.2 rfl)⟩ rfl (.cons trivial rfl (.nil _))))
  exact ⟨_, rfl, reads_deliver false _ _ h⟩

/-- Two reads wait, and the second is fulfilled with the chunk; the first is still pending when the stream is closed. -/
theorem waiting_read_overwritten :
    ¬ ∀ (pull : Bool) (ls : List (Move (Call Nat Nat))) (c : Config (ReadableStream Nat Nat) Frame Event),
      Run program.step (fun _ _ => True) ⟨{ pull }, [], []⟩ ls c → Delivered c := by
  intro h
  obtain ⟨vs, n, w, hr, -, -, hw⟩ := h false [.call .read, .call .read, .call (.enqueue 7), .call .close] _
    (Run.of_runs rfl)
  obtain rfl := hw nofun rfl
  cases vs with
  | cons v vs => cases hr
  | nil => cases n <;> cases hr

end ReadableStream

end NodeCompat.Web
