import NodeCompat.Web.ReadableStream

/-!
# The lifecycle of a `ReadableStream`

The stream with its readers and the `cancel` of its source. `cancel` is reached through the stream, a reader and the `return`
of an iterator, whether or not the stream is over: it empties the queue, closes the stream as the controller does, and calls
the source. The promise behind `closed` is settled when the state leaves `'readable'`, whatever is queued.

So the state and the promise do what they should in every run, and the rest holds exactly in the runs in which the controller
closes with an empty queue and nobody cancels a stream that is over (`lifecycle`).
-/

namespace NodeCompat.Web

open List ReadableStream

/-- What `getReader` and `values` make. -/
inductive ReaderKind
  | reader
  -- a `ReadableStreamIterator`, whose reader nobody else has
  | iterator
  deriving DecidableEq

structure Reader where
  kind : ReaderKind
  -- `stream_` is not `null`
  attached : Bool := true
  deriving DecidableEq

structure Cancellable (α ε : Type) where
  stream : ReadableStream α ε
  cancel : Bool
  readers : List Reader := []
  -- `reader_`, and `locked` when it is there
  reader : Option Nat := none

namespace Cancellable

inductive Event (α ε : Type)
  -- `state_` is no longer `'readable'`
  | left
  -- the promise behind `closed` settles, while these chunks are queued
  | settled (result : Except ε Unit) (unread : List α)
  -- `cancel` of the source is called, for a stream that was in this state
  | cancelled (reason : Option ε) (state : StreamState ε)
  | notReadable
  | locked
  | noStream

inductive Call (α ε : Type)
  | enqueue (chunk : α)
  | close
  | error (reason : ε)
  -- `getReader` and `values`
  | acquire (kind : ReaderKind)
  -- `read` of a reader, `next` of an iterator
  | read (i : Nat)
  | cancel (reason : Option ε)
  | cancelReader (i : Nat) (reason : Option ε)
  -- `return` of an iterator
  | finish (i : Nat)

variable {α ε : Type} (s : Cancellable α ε)

abbrev Result (α ε : Type) := Block (Cancellable α ε) ReadableStream.Frame (Event α ε)

abbrev Conf (α ε : Type) := Config (Cancellable α ε) ReadableStream.Frame (Event α ε)

def enqueueFromController (chunk : α) : Result α ε :=
  let b := s.stream.enqueueFromController chunk
  { state := { s with stream := b.state }, seen := b.seen.map (fun _ => .notReadable) }

def closeFromController : Result α ε :=
  match s.stream.state with
  | .readable =>
    { state := { s with stream := s.stream.closeFromController }, seen := [.left, .settled (.ok ()) s.stream.queue] }
  | _ => { state := s }

def errorFromController (reason : ε) : Result α ε :=
  match s.stream.state with
  | .readable =>
    { state := { s with stream := s.stream.errorFromController reason }
      seen := [.left, .settled (.error reason) s.stream.queue] }
  | _ => { state := s }

/-- `queue_.length = 0` -/
def dropQueue : Cancellable α ε := { s with stream := { s.stream with queue := [] } }

/-- `cancel` of the stream. -/
def cancelStream (reason : Option ε) : Result α ε :=
  let b := s.dropQueue.closeFromController
  { b with seen := b.seen ++ if s.cancel then [.cancelled reason s.stream.state] else [] }

def acquire (kind : ReaderKind) : Result α ε :=
  if s.reader.isSome then { state := s, seen := [.locked] }
  else { state := { s with readers := s.readers ++ [{ kind }], reader := some s.readers.length } }

def read (r : Reader) : Result α ε :=
  if r.attached then
    let b := s.stream.readInternal
    { state := { s with stream := b.state }, frames := b.frames }
  else { state := s, seen := [.noStream] }

/-- `cancel` of a reader. -/
def cancelReader (r : Reader) (reason : Option ε) : Result α ε :=
  if r.attached then s.cancelStream reason else { state := s, seen := [.noStream] }

/-- `releaseLock` of a reader that has its stream. -/
def releaseLock (i : Nat) (r : Reader) : Cancellable α ε := { s with
    readers := s.readers.set i { r with attached := false }
    reader := if s.reader = some i then none else s.reader }

def cancelAndRelease (i : Nat) (r : Reader) : Result α ε :=
  if r.attached then (s.releaseLock i r).cancelStream none else { state := s }

def call : Call α ε → Option (Result α ε)
  | .enqueue chunk => some (s.enqueueFromController chunk)
  | .close => some s.closeFromController
  | .error reason => some (s.errorFromController reason)
  | .acquire kind => some (s.acquire kind)
  | .read i => s.readers[i]?.map s.read
  | .cancel reason => some (s.cancelStream reason)
  | .cancelReader i reason =>
    match s.readers[i]? with
    | some r => if r.kind = .reader then some (s.cancelReader r reason) else none
    | none => none
  | .finish i =>
    match s.readers[i]? with
    | some r => if r.kind = .iterator then some (s.cancelAndRelease i r) else none
    | none => none

/-- The stream with its source, its readers and its iterators. -/
def program : Reentrant (Cancellable α ε) (Call α ε) ReadableStream.Frame (Event α ε) where
  call := call
  resume s
    | .pulling read => { state := { s with stream := s.stream.pulled read } }
  task _ := false

/-- `closed` of a reader. -/
def closed (r : Reader) : Option (Except ε Unit) := if r.attached then s.stream.closed else some (.ok ())

/-! ## The lifecycle -/

def leaves (es : List (Event α ε)) : Nat := (es.filter (fun | .left => true | _ => false)).length

/-- How the promise behind `closed` was settled, and what was queued then. -/
def settlements (es : List (Event α ε)) : List (Except ε Unit × List α) :=
  es.filterMap (fun | .settled result unread => some (result, unread) | _ => none)

/-- The states of the stream for which the source's `cancel` was called. -/
def cancels (es : List (Event α ε)) : List (StreamState ε) :=
  es.filterMap (fun | .cancelled _ state => some state | _ => none)

/-- How the promise behind `closed` is settled in a state. -/
def settledAs : StreamState ε → Option (Except ε Unit)
  | .readable => none
  | .closed => some (.ok ())
  | .errored reason => some (.error reason)

/-- The state leaves `'readable'` at most once; `closed` of a reader is pending before and settled once then, and is fulfilled
when nothing is queued (what `cancel` drops is not queued any more); and the source's `cancel` is called at most once, and for
a readable stream. -/
structure Lifecycle (c : Conf α ε) : Prop where
  leaves : leaves c.trace ≤ 1
  pending : c.state.stream.state = .readable → settlements c.trace = [] ∧
    ∀ (i : Nat) (r : Reader), c.state.readers[i]? = some r → r.kind = .reader → c.state.closed r = none
  settled : c.state.stream.state ≠ .readable → ∃ result unread, settlements c.trace = [(result, unread)] ∧
    ∀ (i : Nat) (r : Reader), c.state.readers[i]? = some r → r.kind = .reader → c.state.closed r = some result
  fulfilled : ∀ unread, (.ok (), unread) ∈ settlements c.trace → unread = []
  cancels : (cancels c.trace).length ≤ 1
  cancelled : ∀ state ∈ Cancellable.cancels c.trace, state = .readable

/-- The source is not called back for a stream that is over. -/
def Cancels : Prop := s.cancel = true → s.stream.state = .readable

/-- The controller closes when nothing is queued, and the stream is cancelled while it is readable. -/
def Proper (c : Conf α ε) : Move (Call α ε) → Prop
  | .call .close => c.state.stream.state = .readable → c.state.stream.queue = []
  | .call (.cancel _) => Cancels c.state
  | .call (.cancelReader i _) | .call (.finish i) => ∀ r, c.state.readers[i]? = some r → r.attached = true → Cancels c.state
  | _ => True

/-- What the trace may say: the part of the lifecycle that a run can miss. -/
def Event.Fine : Event α ε → Prop
  | .settled (.ok _) unread => unread = []
  | .cancelled _ state => state = .readable
  | _ => True

/-! ## What a block does -/

variable {s}

variable (r : ReadableStream α ε)

/-- An event of none of the three kinds. -/
def Event.quiet : Event α ε → Bool
  | .left | .settled _ _ | .cancelled _ _ => false
  | _ => true

/-- What a block does to the stream, and what it tells; `fine` when it is one of the blocks in which the lifecycle holds. -/
inductive Effect (fine : Prop) (r r' : ReadableStream α ε) : List (Event α ε) → Prop
  | quiet {seen} : fine → r'.state = r.state → r'.closed = r.closed → (∀ e ∈ seen, e.quiet = true) → Effect fine r r' seen
  | ended {result unread} : (fine ↔ (Event.settled result unread : Event α ε).Fine) → r.state = .readable →
      settledAs r'.state = some result → r'.closed = some result → Effect fine r r' [.left, .settled result unread]
  | cancelled {reason} : fine → r.state = .readable → r'.state = .closed → r'.closed = some (.ok ()) →
      Effect fine r r' [.left, .settled (.ok ()) [], .cancelled reason .readable]
  | late {reason} : ¬ fine → r.state ≠ .readable → r'.state = r.state → r'.closed = r.closed →
      Effect fine r r' [.cancelled reason r.state]

theorem closed_closeFromController {r : ReadableStream α ε} (h : r.state = .readable) :
    r.closeFromController.state = .closed ∧ r.closeFromController.closed = some (.ok ()) := by
  simp [ReadableStream.closeFromController, h]

theorem closed_errorFromController {r : ReadableStream α ε} (reason : ε) (h : r.state = .readable) :
    (r.errorFromController reason).state = .errored reason ∧ (r.errorFromController reason).closed = some (.error reason) := by
  simp [ReadableStream.errorFromController, h]

theorem settleWaiting_closed (result : ReadResult α ε) : (r.settleWaiting result).closed = r.closed := by
  unfold settleWaiting
  split <;> rfl

theorem enqueueFromController_closed (chunk : α) : (r.enqueueFromController chunk).state.closed = r.closed := by
  unfold ReadableStream.enqueueFromController
  split
  · dsimp only
    split
    · exact settleWaiting_closed _ _
    · rfl
  · rfl

theorem pulled_closed (i : Nat) : (r.pulled i).closed = r.closed := by
  unfold pulled
  obtain ⟨_, _, _, ht⟩ | ⟨_, _, _, _, ht⟩ | ⟨_, _, ht⟩ := take_cases r <;> rw [ht] <;> rfl

theorem readInternal_closed : r.readInternal.state.closed = r.closed := by
  obtain he | ⟨-, he⟩ := readInternal_cases r
  · rw [he]
  · rw [he]; exact pulled_closed _ _

theorem closeFromController_effect : Effect (s.stream.state = .readable → s.stream.queue = []) s.stream
    s.closeFromController.state.stream s.closeFromController.seen := by
  unfold closeFromController
  split
  · next hs =>
    obtain ⟨h1, h2⟩ := closed_closeFromController hs; exact .ended ⟨fun h => h hs, fun h _ => h⟩ hs (congrArg settledAs h1) h2
  · next hs => exact .quiet (fun h => absurd h hs) rfl rfl (fun _ he => nomatch he)

theorem errorFromController_effect (reason : ε) : Effect True s.stream (s.errorFromController reason).state.stream
    (s.errorFromController reason).seen := by
  unfold errorFromController
  split
  · next hs =>
    obtain ⟨h1, h2⟩ := closed_errorFromController reason hs; exact .ended Iff.rfl hs (congrArg settledAs h1) h2
  · exact .quiet trivial rfl rfl (fun _ he => nomatch he)

theorem enqueueFromController_effect (chunk : α) : Effect True s.stream (s.enqueueFromController chunk).state.stream
    (s.enqueueFromController chunk).seen := by
  refine .quiet trivial (enqueueFromController_state _) (enqueueFromController_closed _ _) (fun e he => ?_)
  obtain ⟨_, -, rfl⟩ := mem_map.1 he; rfl

theorem read_effect (r : Reader) : Effect True s.stream (s.read r).state.stream (s.read r).seen := by
  unfold read
  split
  · exact .quiet trivial readInternal_state (readInternal_closed _) (fun _ he => nomatch he)
  · exact .quiet trivial rfl rfl (by simp [Event.quiet])

theorem acquire_free (hfree : ¬ s.reader.isSome = true) (kind : ReaderKind) :
    (s.acquire kind).state = { s with readers := s.readers ++ [{ kind }], reader := some s.readers.length } := by
  rw [acquire, if_neg hfree]

theorem acquire_effect (kind : ReaderKind) : Effect True s.stream (s.acquire kind).state.stream (s.acquire kind).seen := by
  unfold acquire
  split
  · exact .quiet trivial rfl rfl (by simp [Event.quiet])
  · exact .quiet trivial rfl rfl (fun _ he => nomatch he)

theorem cancelStream_effect (reason : Option ε) : Effect (Cancels s) s.stream (s.cancelStream reason).state.stream
    (s.cancelStream reason).seen := by
  by_cases hs : s.stream.state = .readable
  · have hclose : s.dropQueue.closeFromController =
        { state := { s with stream := s.dropQueue.stream.closeFromController }
          seen := [.left, .settled (.ok ()) []] } := by
      have hd : s.dropQueue.stream.state = .readable := hs
      unfold closeFromController; rw [hd]; rfl
    obtain ⟨h1, h2⟩ := closed_closeFromController (r := s.dropQueue.stream) hs
    unfold cancelStream
    rw [hclose]
    cases hc : s.cancel with
    | true => rw [if_pos rfl, hs]; exact .cancelled (fun _ => hs) hs h1 h2
    | false =>
      rw [if_neg Bool.false_ne_true]; exact .ended (iff_of_true (fun _ => hs) rfl) hs (congrArg settledAs h1) h2
  · have hclose : s.dropQueue.closeFromController = { state := s.dropQueue } := by
      have hd : s.dropQueue.stream.state ≠ .readable := hs
      unfold closeFromController
      split
      · next h => exact absurd h hd
      · rfl
    unfold cancelStream
    rw [hclose]
    cases hc : s.cancel with
    | true => rw [if_pos rfl]; exact .late (fun h => hs (h hc)) hs rfl rfl
    | false =>
      rw [if_neg Bool.false_ne_true]; exact .quiet (fun h => absurd h (by simp [hc])) rfl rfl (fun _ he => nomatch he)

theorem Effect.iff {fine fine' : Prop} {r r' : ReadableStream α ε} {seen : List (Event α ε)} (h : Effect fine r r' seen)
    (hf : fine ↔ fine') : Effect fine' r r' seen := propext hf ▸ h

theorem reader_effect {i : Nat} {r : Reader} {b : Result α ε} (hr : s.readers[i]? = some r)
    (hb : r.attached = true → Effect (Cancels s) s.stream b.state.stream b.seen)
    (hn : r.attached = false → b.state = s ∧ ∀ e ∈ b.seen, e.quiet = true) :
    Effect (∀ r, s.readers[i]? = some r → r.attached = true → Cancels s) s.stream b.state.stream b.seen := by
  cases ha : r.attached with
  | true =>
    refine (hb ha).iff ⟨fun h _ _ _ => h, fun h => h r hr ha⟩
  | false =>
    obtain ⟨he, hq⟩ := hn ha
    rw [he]
    refine .quiet (fun r' hr' ha' => ?_) rfl rfl hq
    cases hr.symm.trans hr'
    rw [ha] at ha'
    cases ha'

theorem call_effect {c : Conf α ε} {k : Call α ε} {b : Result α ε} (hb : call c.state k = some b) :
    Effect (Proper c (.call k)) c.state.stream b.state.stream b.seen := by
  cases k with
  | enqueue chunk => cases hb; exact enqueueFromController_effect chunk
  | close => cases hb; exact closeFromController_effect
  | error reason => cases hb; exact errorFromController_effect reason
  | acquire kind => cases hb; exact acquire_effect kind
  | read i => obtain ⟨r, -, rfl⟩ := Option.map_eq_some_iff.1 hb; exact read_effect r
  | cancel reason => cases hb; exact cancelStream_effect reason
  | cancelReader i reason =>
    unfold call at hb
    dsimp only at hb
    split at hb
    · next r hr =>
      split at hb
      · cases hb
        refine reader_effect hr (fun ha => ?_) (fun ha => ?_)
        · rw [cancelReader, if_pos ha]; exact cancelStream_effect reason
        · rw [cancelReader, if_neg (by simp [ha])]; exact ⟨rfl, by simp [Event.quiet]⟩
      · cases hb
    · cases hb
  | finish i =>
    unfold call at hb
    dsimp only at hb
    split at hb
    · next r hr =>
      split at hb
      · cases hb
        refine reader_effect hr (fun ha => ?_) (fun ha => ?_)
        · rw [cancelAndRelease, if_pos ha]; exact cancelStream_effect (s := c.state.releaseLock i r) none
        · rw [cancelAndRelease, if_neg (by simp [ha])]; exact ⟨rfl, fun _ he => nomatch he⟩
      · cases hb
    · cases hb

theorem step_effect {c c' : Conf α ε} {l : Move (Call α ε)} (hst : program.step c l = some c') :
    ∃ seen, c'.trace = c.trace ++ seen ∧ Effect (Proper c l) c.state.stream c'.state.stream seen := by
  cases l with
  | call k => obtain ⟨-, b, hb, rfl⟩ := Reentrant.step_call hst; exact ⟨b.seen, rfl, call_effect hb⟩
  | ret =>
    obtain ⟨⟨i⟩, fs, -, rfl⟩ := Reentrant.step_ret hst
    exact ⟨[], rfl, .quiet trivial (pulled_state _) (pulled_closed _ _) (fun _ he => nomatch he)⟩

/-! ## The readers -/

/-- A reader keeps its stream; only an iterator gives it up. -/
def Attached (readers : List Reader) : Prop := ∀ r ∈ readers, r.kind = .reader → r.attached = true

@[simp] theorem closeFromController_readers : s.closeFromController.state.readers = s.readers := by
  unfold closeFromController
  split <;> rfl

@[simp] theorem errorFromController_readers (reason : ε) : (s.errorFromController reason).state.readers = s.readers := by
  unfold errorFromController
  split <;> rfl

@[simp] theorem cancelStream_readers (reason : Option ε) : (s.cancelStream reason).state.readers = s.readers :=
  closeFromController_readers (s := s.dropQueue)

theorem acquire_attached (kind : ReaderKind) (h : Attached s.readers) : Attached (s.acquire kind).state.readers := by
  unfold acquire
  split
  · exact h
  · intro r hr hk
    obtain hr | hr := mem_append.1 hr
    · exact h r hr hk
    · rw [mem_singleton.1 hr]

theorem cancelAndRelease_attached {i : Nat} {r : Reader} (hk : r.kind = .iterator) (h : Attached s.readers) :
    Attached (s.cancelAndRelease i r).state.readers := by
  unfold cancelAndRelease
  split
  · rw [cancelStream_readers]
    intro r' hr' hk'
    obtain hr' | rfl := mem_or_eq_of_mem_set hr'
    · exact h r' hr' hk'
    · exact absurd (hk.symm.trans hk') nofun
  · exact h

theorem read_readers (r : Reader) : (s.read r).state.readers = s.readers := by
  unfold read
  split <;> rfl

theorem cancelReader_readers (r : Reader) (reason : Option ε) : (s.cancelReader r reason).state.readers = s.readers := by
  unfold cancelReader
  split
  · exact cancelStream_readers reason
  · rfl

theorem call_attached {k : Call α ε} {b : Result α ε} (hb : s.call k = some b) (h : Attached s.readers) :
    Attached b.state.readers := by
  cases k with
  | enqueue chunk => cases hb; exact h
  | close =>
    cases hb; rwa [closeFromController_readers]
  | error reason =>
    cases hb; rwa [errorFromController_readers]
  | acquire kind => cases hb; exact acquire_attached kind h
  | read i =>
    obtain ⟨r, -, rfl⟩ := Option.map_eq_some_iff.1 hb; rwa [read_readers]
  | cancel reason =>
    cases hb; rwa [cancelStream_readers]
  | cancelReader i reason =>
    unfold call at hb
    dsimp only at hb
    split at hb
    · split at hb
      · cases hb; rwa [cancelReader_readers]
      · cases hb
    · cases hb
  | finish i =>
    unfold call at hb
    dsimp only at hb
    split at hb
    · split at hb
      · next hk =>
        cases hb; exact cancelAndRelease_attached hk h
      · cases hb
    · cases hb

/-! ## Runs -/

/-- What holds of the state and the promise in every run. -/
structure Inv (c : Conf α ε) : Prop where
  attached : Attached c.state.readers
  readable : c.state.stream.state = .readable → leaves c.trace = 0 ∧ settlements c.trace = [] ∧ c.state.stream.closed = none
  ended : c.state.stream.state ≠ .readable → leaves c.trace = 1 ∧
    ∃ result unread, settlements c.trace = [(result, unread)] ∧ c.state.stream.closed = some result
  cancels : (∀ state ∈ cancels c.trace, state = .readable) → (cancels c.trace).length ≤ leaves c.trace

@[simp] theorem leaves_append (es es' : List (Event α ε)) : leaves (es ++ es') = leaves es + leaves es' := by
  simp [leaves]

@[simp] theorem settlements_append (es es' : List (Event α ε)) : settlements (es ++ es') = settlements es ++ settlements es' :=
  filterMap_append

@[simp] theorem cancels_append (es es' : List (Event α ε)) : cancels (es ++ es') = cancels es ++ cancels es' :=
  filterMap_append

theorem quiet_counts {es : List (Event α ε)} (h : ∀ e ∈ es, e.quiet = true) :
    leaves es = 0 ∧ settlements es = [] ∧ cancels es = [] := by
  induction es with
  | nil => exact ⟨rfl, rfl, rfl⟩
  | cons e es ih =>
    obtain ⟨h1, h2, h3⟩ := ih (fun e' he' => h e' (mem_cons_of_mem _ he'))
    have he := h e mem_cons_self
    cases e with
    | left | settled result unread | cancelled reason state => cases he
    | notReadable | locked | noStream => exact ⟨h1, h2, h3⟩

theorem Inv.step {c c' : Conf α ε} {fine : Prop} {seen : List (Event α ε)} (h : Inv c) (ha : Attached c'.state.readers)
    (ht : c'.trace = c.trace ++ seen) (he : Effect fine c.state.stream c'.state.stream seen) : Inv c' := by
  obtain ⟨state', stack', trace'⟩ := c'
  subst ht
  refine ⟨ha, ?_, ?_, ?_⟩
  all_goals dsimp only
  all_goals simp only [leaves_append, settlements_append, cancels_append]
  · intro hs
    cases he with
    | quiet _ hst hcl hq =>
      obtain ⟨h1, h2, -⟩ := quiet_counts hq
      obtain ⟨h4, h5, h6⟩ := h.readable (hst.symm.trans hs)
      exact ⟨by omega, by rw [h2, h5]; rfl, hcl.trans h6⟩
    | ended _ _ has hcl => rw [hs] at has; cases has
    | cancelled _ _ hst _ => exact nomatch hst.symm.trans hs
    | late _ hn hst _ => exact absurd (hst.symm.trans hs) hn
  · intro hs
    cases he with
    | quiet _ hst hcl hq =>
      obtain ⟨h1, h2, -⟩ := quiet_counts hq
      obtain ⟨h4, result, unread, h5, h6⟩ := h.ended (fun hr => hs (hst.trans hr))
      exact ⟨by omega, result, unread, by rw [h2, h5]; rfl, hcl.trans h6⟩
    | ended _ hr has hcl | cancelled _ hr hst hcl =>
      obtain ⟨h4, h5, -⟩ := h.readable hr; rw [h4, h5]; exact ⟨rfl, _, _, rfl, hcl⟩
    | late _ hn hst hcl =>
      obtain ⟨h4, result, unread, h5, h6⟩ := h.ended hn; rw [h4, h5]; exact ⟨rfl, result, unread, rfl, hcl.trans h6⟩
  · intro hall
    have hold := h.cancels (fun st hst => hall st (mem_append_left _ hst))
    cases he with
    | quiet _ _ _ hq =>
      obtain ⟨h1, -, h3⟩ := quiet_counts hq; rw [h1, h3, append_nil]; exact hold
    | ended => rw [length_append]; exact Nat.add_le_add hold (Nat.zero_le 1)
    | cancelled _ hr _ _ =>
      obtain ⟨h4, -, -⟩ := h.readable hr; rw [length_append]; exact Nat.add_le_add hold (Nat.le_refl 1)
    | late _ hn _ _ => exact absurd (hall _ (mem_append_right _ mem_cons_self)) hn

theorem inv_step {c c' : Conf α ε} {l : Move (Call α ε)} (h : Inv c) (hst : program.step c l = some c') : Inv c' := by
  obtain ⟨seen, ht, he⟩ := step_effect hst
  refine h.step ?_ ht he
  cases l with
  | call k => obtain ⟨-, b, hb, rfl⟩ := Reentrant.step_call hst; exact call_attached hb h.attached
  | ret => obtain ⟨⟨i⟩, fs, -, rfl⟩ := Reentrant.step_ret hst; exact h.attached

theorem Effect.fine_iff {fine : Prop} {r r' : ReadableStream α ε} {seen : List (Event α ε)} (h : Effect fine r r' seen) :
    fine ↔ ∀ e ∈ seen, e.Fine := by
  cases h with
  | quiet hf _ _ hq =>
    refine iff_of_true hf (fun e he => ?_)
    have hquiet := hq e he
    cases e with
    | left | notReadable | locked | noStream => trivial
    | settled result unread | cancelled reason state => cases hquiet
  | ended hf _ _ _ | cancelled hf _ _ _ => simp [hf, Event.Fine]
  | late hf hn _ _ => simp [hf, Event.Fine, hn]

theorem fine_iff_proper {c c' : Conf α ε} {ls : List (Move (Call α ε))} (h : Run program.step (fun _ _ => True) c ls c') :
    (∀ e ∈ c'.trace, e.Fine) ↔ (∀ e ∈ c.trace, e.Fine) ∧ Run program.step Proper c ls c' := by
  induction h with
  | nil c => exact ⟨fun hf => ⟨hf, .nil c⟩, fun hf => hf.1⟩
  | @cons c c₁ c₂ l ls _ hst _ ih =>
    obtain ⟨seen, ht, he⟩ := step_effect hst
    rw [ih, ht, forall_mem_append, ← he.fine_iff, and_assoc]
    refine and_congr_right (fun _ => ⟨fun ⟨hp, hrun⟩ => .cons hp hst hrun, fun hrun => ?_⟩)
    cases hrun with
    | cons hp hst' hrun =>
      cases hst.symm.trans hst'
      exact ⟨hp, hrun⟩

theorem mem_settlements {es : List (Event α ε)} {result : Except ε Unit} {unread : List α} :
    (result, unread) ∈ settlements es ↔ .settled result unread ∈ es := by
  refine mem_filterMap.trans ⟨?_, fun h => ⟨_, h, rfl⟩⟩
  rintro ⟨e, he, heq⟩
  cases e <;> cases heq
  exact he

theorem mem_cancels {es : List (Event α ε)} {state : StreamState ε} :
    state ∈ cancels es ↔ ∃ reason, .cancelled reason state ∈ es := by
  refine mem_filterMap.trans ⟨?_, fun ⟨reason, h⟩ => ⟨_, h, rfl⟩⟩
  rintro ⟨e, he, heq⟩
  cases e <;> cases heq
  exact ⟨_, he⟩

theorem closed_of_attached {r : Reader} (h : r.attached = true) : s.closed r = s.stream.closed := if_pos h

theorem Inv.lifecycle_iff {c : Conf α ε} (h : Inv c) : Lifecycle c ↔ ∀ e ∈ c.trace, e.Fine := by
  have hclosed : ∀ {i : Nat} {r : Reader}, c.state.readers[i]? = some r → r.kind = .reader →
      c.state.closed r = c.state.stream.closed :=
    fun hr hk => closed_of_attached (h.attached _ (mem_of_getElem? hr) hk)
  constructor
  · intro hl e he
    match e with
    | .left => trivial
    | .settled (.ok ()) unread => exact hl.fulfilled unread (mem_settlements.2 he)
    | .settled (.error reason) unread => trivial
    | .cancelled reason state => exact hl.cancelled state (mem_cancels.2 ⟨reason, he⟩)
    | .notReadable => trivial
    | .locked => trivial
    | .noStream => trivial
  · intro hf
    have hcancelled : ∀ state ∈ Cancellable.cancels c.trace, state = .readable := by
      intro state hst
      obtain ⟨reason, hmem⟩ := mem_cancels.1 hst; exact hf _ hmem
    have hleaves : Cancellable.leaves c.trace ≤ 1 := by
      by_cases hs : c.state.stream.state = .readable
      · exact Nat.le_trans (Nat.le_of_eq (h.readable hs).1) (Nat.zero_le 1)
      · exact Nat.le_of_eq (h.ended hs).1
    refine ⟨hleaves, fun hs => ?_, fun hs => ?_, fun unread hu => hf _ (mem_settlements.1 hu),
      Nat.le_trans (h.cancels hcancelled) hleaves, hcancelled⟩
    · obtain ⟨-, hset, hpending⟩ := h.readable hs; exact ⟨hset, fun i r hr hk => (hclosed hr hk).trans hpending⟩
    · obtain ⟨-, result, unread, hset, hdone⟩ := h.ended hs
      exact ⟨result, unread, hset, fun i r hr hk => (hclosed hr hk).trans hdone⟩

/-- **The lifecycle** holds after exactly the runs in which the controller closes when nothing is queued and the stream is
cancelled while it is readable, if its source has a `cancel`. -/
theorem lifecycle (pull cancel : Bool) (ls : List (Move (Call α ε))) (c : Conf α ε)
    (h : Run program.step (fun _ _ => True) ⟨{ stream := { pull }, cancel }, [], []⟩ ls c) :
    Lifecycle c ↔ Run program.step Proper ⟨{ stream := { pull }, cancel }, [], []⟩ ls c := by
  have hstart : Inv (⟨{ stream := { pull }, cancel }, [], []⟩ : Conf α ε) :=
    ⟨(fun _ hr => nomatch hr), fun _ => ⟨rfl, rfl, rfl⟩, fun hn => absurd rfl hn, fun _ => Nat.le_refl 0⟩
  have hinv : Inv c := h.invariant (fun _ _ _ hI _ hst => inv_step hI hst) hstart
  rw [hinv.lifecycle_iff, fine_iff_proper h]; exact and_iff_right (fun _ he => nomatch he)

/-- A chunk is read, and then the reader cancels. -/
theorem lifecycle_read : ∃ c : Conf Nat Nat, cancels c.trace = [.readable] ∧ Lifecycle c := by
  have h : Run program.step Proper (⟨{ stream := { pull := false }, cancel := true }, [], []⟩ : Conf Nat Nat)
      [.call (.acquire .reader), .call (.enqueue 7), .call (.read 0), .call (.cancelReader 0 none)] _ :=
    .cons trivial rfl (.cons trivial rfl (.cons trivial rfl (.cons (fun _ _ _ _ => rfl) rfl (.nil _))))
  exact ⟨_, rfl, (lifecycle false true _ _ (h.mono (fun _ _ _ => trivial))).2 h⟩

/-- A chunk is queued when the stream is closed, and `closed` is fulfilled. -/
theorem closed_before_read : ¬ ∀ (pull cancel : Bool) (ls : List (Move (Call Nat Nat))) (c : Conf Nat Nat),
    Run program.step (fun _ _ => True) ⟨{ stream := { pull }, cancel }, [], []⟩ ls c → Lifecycle c := by
  intro h
  have hl := h false false [.call (.enqueue 7), .call .close] _ (Run.of_runs rfl)
  have hunread : [7] = [] := hl.fulfilled [7] mem_cons_self
  cases hunread

end Cancellable

end NodeCompat.Web
