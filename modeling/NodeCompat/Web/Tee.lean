import NodeCompat.Web.PipeTo

/-!
# `tee`

The pump of `tee` reads the source to its end, whether or not the branches are read, and enqueues each chunk to the left and
then to the right branch. A branch that was cancelled is closed, so `enqueue` throws and the pump stops: the right branch does
not get the chunk when the left one was cancelled, and neither gets any later one, nor the end.

When a branch is cancelled only after its end is there, both yield the chunks of the source and its close or error
(`tee_yields`).
-/

namespace NodeCompat.Web

open List Option ReadableStream

/-- A branch: `new ReadableStream()`. -/
structure Branch (α ε : Type) where
  stream : Cancellable α ε := { stream := { pull := false }, cancel := false }
  cancelled : Bool := false

inductive TeePump
  -- the promise of this `read` is awaited
  | reading (i : Nat)
  | stopped
  -- the handler threw
  | thrown
  deriving DecidableEq

structure Tee (α ε : Type) where
  source : Cancellable α ε
  -- the reader that `tee` has got
  reader : Nat
  left : Branch α ε := {}
  right : Branch α ε := {}
  pump : TeePump

namespace Branch

variable {α ε : Type} (b : Branch α ε)

abbrev Result (α ε : Type) := Block (Branch α ε) ReadableStream.Frame (Cancellable.Event α ε)

def ofStream (r : Cancellable.Result α ε) : Result α ε :=
  { state := { b with stream := r.state }, seen := r.seen, frames := r.frames }

def enqueue (chunk : α) : Result α ε := b.ofStream (b.stream.enqueueFromController chunk)

def close : Result α ε := b.ofStream b.stream.closeFromController

def error (reason : ε) : Result α ε := b.ofStream (b.stream.errorFromController reason)

/-- A call that cancels the branch. -/
def Cancels (k : Cancellable.Call α ε) : Bool :=
  match k with
  | .cancel _ => true
  | .cancelReader i _ | .finish i => b.stream.readers[i]?.any (·.attached)
  | _ => false

/-- What who has the branch can do with it; its controller is with the pump. -/
def call : Cancellable.Call α ε → Option (Result α ε)
  | .enqueue _ | .close | .error _ => none
  | k =>
    (b.stream.call k).map (fun r =>
      { state := { stream := r.state, cancelled := b.cancelled || b.Cancels k }, seen := r.seen, frames := r.frames })

end Branch

namespace Tee

inductive Event (α ε : Type)
  | source (e : Cancellable.Event α ε)
  | left (e : Cancellable.Event α ε)
  | right (e : Cancellable.Event α ε)

inductive Call (α ε : Type)
  -- the controller of the source, and its `cancel`
  | enqueue (chunk : α)
  | close
  | error (reason : ε)
  | cancel (reason : Option ε)
  | left (k : Cancellable.Call α ε)
  | right (k : Cancellable.Call α ε)
  | tick

variable {α ε : Type} (s : Tee α ε)

abbrev Result (α ε : Type) := Block (Tee α ε) ReadableStream.Frame (Event α ε)

abbrev Conf (α ε : Type) := Config (Tee α ε) ReadableStream.Frame (Event α ε)

def ofSource (b : Cancellable.Result α ε) : Result α ε :=
  { state := { s with source := b.state }, seen := b.seen.map .source, frames := b.frames }

def ofLeft (b : Branch.Result α ε) : Result α ε :=
  { state := { s with left := b.state }, seen := b.seen.map .left, frames := b.frames }

def ofRight (b : Branch.Result α ε) : Result α ε :=
  { state := { s with right := b.state }, seen := b.seen.map .right, frames := b.frames }

/-- `pump`: `reader.read()` -/
def read : Result α ε :=
  let s := { s with pump := .reading s.source.stream.reads.length }
  match s.source.readers[s.reader]? with
  | some r => s.ofSource (s.source.read r)
  | none => { state := s }

/-- The rest of a handler that has not thrown. -/
def andThen (b : Result α ε) (k : Tee α ε → Result α ε) : Result α ε :=
  let b' := k b.state
  { b' with seen := b.seen ++ b'.seen }

/-- `enqueue` of a branch, which throws when it is not readable. -/
def enqueueTo (b : Result α ε) (k : Tee α ε → Result α ε) : Result α ε :=
  if b.seen.isEmpty then andThen b k else { b with state := { b.state with pump := .thrown } }

def pass (chunk : α) : Result α ε :=
  enqueueTo (s.ofLeft (s.left.enqueue chunk)) fun s =>
    enqueueTo (s.ofRight (s.right.enqueue chunk)) read

def releaseReader : Tee α ε :=
  match s.source.readers[s.reader]? with
  | some r => if r.attached then { s with source := s.source.releaseLock s.reader r } else s
  | none => s

def finish : Result α ε :=
  andThen (s.ofLeft s.left.close) fun s =>
    andThen (s.ofRight s.right.close) fun s => { state := { s.releaseReader with pump := .stopped } }

def fail (reason : ε) : Result α ε :=
  andThen (s.ofLeft (s.left.error reason)) fun s =>
    andThen (s.ofRight (s.right.error reason)) fun s => { state := { s with pump := .stopped } }

/-- The handlers of the promise that the pump waits for. -/
def tick : Option (Result α ε) :=
  match s.pump with
  | .reading i =>
    match s.source.stream.reads[i]? with
    | some (some (.value chunk)) => some (s.pass chunk)
    | some (some .done) => some s.finish
    | some (some (.rejected reason)) => some (s.fail reason)
    | _ => none
  | .stopped | .thrown => none

def call : Call α ε → Option (Result α ε)
  | .enqueue chunk => some (s.ofSource (s.source.enqueueFromController chunk))
  | .close => some (s.ofSource s.source.closeFromController)
  | .error reason => some (s.ofSource (s.source.errorFromController reason))
  | .cancel reason => some (s.ofSource (s.source.cancelStream reason))
  | .left k => (s.left.call k).map s.ofLeft
  | .right k => (s.right.call k).map s.ofRight
  | .tick => s.tick

def program : Reentrant (Tee α ε) (Call α ε) ReadableStream.Frame (Event α ε) where
  call := call
  -- only the source has a `pull`
  resume s f := s.ofSource (Cancellable.program.resume s.source f)
  task k := k matches .tick

/-- `source.tee()`; `none` when it throws. -/
def start (source : Cancellable α ε) : Option (Result α ε) :=
  if source.reader.isSome then none
  else
    some (read
      { source := (source.acquire .reader).state
        reader := source.readers.length
        pump := .reading source.stream.reads.length })

/-! ## What `tee` is for -/

/-- No handler is running, and the pump has nothing to react to. -/
def Idle (c : Conf α ε) : Prop := c.stack = [] ∧ c.state.tick = none

/-- What a branch yields of a source of which `before` was taken: the chunks, in order and none left out, then its end when
the branch has all of them; and all of it comes to the branch. -/
structure Follows (before : List α) (source : ReadableStream α ε) (idle : Prop) (b : Branch α ε) : Prop where
  delivered : ReadableStream.Delivered ⟨b.stream.stream, [], []⟩
  order : before ++ b.stream.stream.enqueued <+: source.enqueued
  ended : b.stream.stream.state ≠ .readable →
    b.stream.stream.state = source.state ∧ before ++ b.stream.stream.enqueued = source.enqueued
  passed : idle → b.stream.stream.state = source.state ∧ before ++ b.stream.stream.enqueued = source.enqueued

/-- Each branch follows the source, until it is cancelled. -/
structure Tees (before : List α) (c : Conf α ε) : Prop where
  left : c.state.left.cancelled = false → Follows before c.state.source.stream (Idle c) c.state.left
  right : c.state.right.cancelled = false → Follows before c.state.source.stream (Idle c) c.state.right

/-- A branch is cancelled when its end is there, and no `read` of it takes the place of another that waits. -/
def Consumes (b : Branch α ε) (k : Cancellable.Call α ε) : Prop :=
  (b.Cancels k = true → b.stream.stream.state ≠ .readable) ∧ ((∃ i, k = .read i) → ¬ b.stream.stream.Occupied)

/-- The branches are used so, and nobody else cancels the source before it is read to its end. -/
def Proper (c : Conf α ε) : Move (Call α ε) → Prop
  | .call (.left k) => Consumes c.state.left k
  | .call (.right k) => Consumes c.state.right k
  | .call (.cancel _) => c.state.source.stream.state ≠ .readable ∧ c.state.source.stream.queue = []
  | _ => True

/-! ## A branch -/

section Branch

variable {b : Branch α ε} {ys : List α} {st : StreamState ε}

/-- The branch has got the chunks `ys` and is in the state `st`. -/
structure Got (b : Branch α ε) (ys : List α) (st : StreamState ε) : Prop where
  pull : b.stream.stream.pull = false
  enqueued : b.stream.stream.enqueued = ys
  state : b.stream.stream.state = st
  yields : b.cancelled = false → ∃ vs n, ReadableStream.Inv b.stream.stream [] vs n

theorem Got.enqueue (chunk : α) (h : Got b ys .readable) :
    (b.enqueue chunk).seen = [] ∧ (b.enqueue chunk).frames = [] ∧ Got (b.enqueue chunk).state (ys ++ [chunk]) .readable := by
  have hs : b.stream.stream.state = .readable := h.state
  refine ⟨?_, rfl, ?_, ?_, ?_, fun hc => ?_⟩
  · have hseen : (b.stream.stream.enqueueFromController chunk).seen = [] := by
      simp [enqueueFromController, hs]
    show ((b.stream.stream.enqueueFromController chunk).seen.map _) = []; rw [hseen]; rfl
  · exact (enqueueFromController_pull chunk).trans h.pull
  · rw [← h.enqueued]; exact enqueueFromController_enqueued chunk hs
  · exact (enqueueFromController_state chunk).trans hs
  · obtain ⟨vs, n, hI⟩ := h.yields hc; exact (enqueueFromController_inv chunk hI).2

theorem Got.stream {r : ReadableStream α ε} {st' : StreamState ε} (h : Got b ys st) (hp : r.pull = b.stream.stream.pull)
    (he : r.enqueued = b.stream.stream.enqueued) (hs : r.state = st')
    (hi : ∀ vs n, ReadableStream.Inv b.stream.stream [] vs n → ∃ n', ReadableStream.Inv r [] vs n') :
    Got { b with stream := { b.stream with stream := r } } ys st' := by
  refine ⟨hp.trans h.pull, he.trans h.enqueued, hs, fun hc => ?_⟩
  obtain ⟨vs, n, hI⟩ := h.yields hc; exact ⟨vs, hi vs n hI⟩

theorem Got.close (h : Got b ys .readable) : b.close.frames = [] ∧ Got b.close.state ys .closed := by
  have hstate : b.close.state = { b with stream := { b.stream with stream := b.stream.stream.closeFromController } } :=
    congrArg (fun t => { b with stream := t }) b.stream.closeFromController_eq
  rw [hstate]
  refine ⟨b.stream.closeFromController_frames, h.stream closeFromController_pull
    closeFromController_enqueued ?_ (fun _ _ hI => closeFromController_inv hI)⟩
  exact (Cancellable.closed_closeFromController h.state).1

theorem Got.error (reason : ε) (h : Got b ys .readable) :
    (b.error reason).frames = [] ∧ Got (b.error reason).state ys (.errored reason) := by
  have hstate : (b.error reason).state =
      { b with stream := { b.stream with stream := b.stream.stream.errorFromController reason } } :=
    congrArg (fun t => { b with stream := t }) (b.stream.errorFromController_eq reason)
  rw [hstate]
  refine ⟨b.stream.errorFromController_frames reason, h.stream (errorFromController_pull reason)
    (errorFromController_enqueued reason) ?_ (fun _ _ hI => errorFromController_inv reason hI)⟩
  exact (Cancellable.closed_errorFromController reason h.state).1

theorem Got.cancel (reason : Option ε) {t : Cancellable α ε} (ht : t.stream = b.stream.stream) (hs : st ≠ .readable)
    (h : Got b ys st) : Got { stream := (t.cancelStream reason).state, cancelled := true } ys st := by
  have hover : t.stream.state ≠ .readable := by rw [ht, h.state]; exact hs
  rw [t.cancelStream_drop reason hover]
  refine ⟨?_, ?_, ?_, nofun⟩
  · exact (congrArg ReadableStream.pull ht).trans h.pull
  · exact (congrArg ReadableStream.enqueued ht).trans h.enqueued
  · exact (congrArg ReadableStream.state ht).trans h.state

theorem Got.same {t : Cancellable α ε} {cancelled : Bool} (ht : t.stream = b.stream.stream)
    (hc : cancelled = false → b.cancelled = false) (h : Got b ys st) : Got { stream := t, cancelled } ys st := by
  refine ⟨?_, ?_, ?_, fun hn => ?_⟩
  · exact (congrArg ReadableStream.pull ht).trans h.pull
  · exact (congrArg ReadableStream.enqueued ht).trans h.enqueued
  · exact (congrArg ReadableStream.state ht).trans h.state
  · obtain ⟨vs, n, hI⟩ := h.yields (hc hn); exact ⟨vs, n, ht ▸ hI⟩

theorem Got.read (hocc : ¬ b.stream.stream.Occupied) (r : Reader) (h : Got b ys st) :
    (b.stream.read r).frames = [] ∧ Got { b with stream := (b.stream.read r).state } ys st := by
  unfold Cancellable.read
  split
  · refine ⟨readInternal_frames h.pull, readInternal_pull.trans h.pull,
      readInternal_enqueued.trans h.enqueued, readInternal_state.trans h.state, fun hc => ?_⟩
    obtain ⟨vs, n, hI⟩ := h.yields hc
    obtain ⟨vs', n', hI'⟩ := readInternal_inv (.inr hocc) hI
    rw [readInternal_frames h.pull] at hI'; exact ⟨vs', n', hI'⟩
  · exact ⟨rfl, h⟩

theorem acquire_stream (t : Cancellable α ε) (kind : ReaderKind) :
    (t.acquire kind).state.stream = t.stream ∧ (t.acquire kind).frames = [] := by
  unfold Cancellable.acquire
  split <;> exact ⟨rfl, rfl⟩

theorem Got.call {k : Cancellable.Call α ε} {b' : Branch.Result α ε} (h : Got b ys st) (hP : Consumes b k)
    (hb : b.call k = some b') : b'.frames = [] ∧ Got b'.state ys st := by
  have hkeep : ∀ {cancelled : Bool}, (b.cancelled || cancelled) = false → b.cancelled = false :=
    fun h => (Bool.or_eq_false_iff.1 h).1
  have hover : b.Cancels k = true → st ≠ .readable := fun hc => h.state ▸ hP.1 hc
  cases k with
  | enqueue chunk | close | error reason => cases hb
  | acquire kind =>
    cases hb
    obtain ⟨hstream, hframes⟩ := acquire_stream b.stream kind; exact ⟨hframes, h.same hstream hkeep⟩
  | read i =>
    obtain ⟨b', hr, rfl⟩ := map_eq_some_iff.1 hb
    obtain ⟨r, -, rfl⟩ := map_eq_some_iff.1 hr
    obtain ⟨hframes, hgot⟩ := h.read (hP.2 ⟨i, rfl⟩) r
    exact ⟨hframes, Got.same (b := { b with stream := (b.stream.read r).state }) rfl hkeep hgot⟩
  | cancel reason =>
    cases hb
    refine ⟨b.stream.cancelStream_frames reason, ?_⟩
    rw [show (b.cancelled || b.Cancels (.cancel reason)) = true from Bool.or_true _]
    exact h.cancel reason rfl (hover rfl)
  | cancelReader i reason =>
    obtain ⟨b', hr, rfl⟩ := map_eq_some_iff.1 hb
    unfold Cancellable.call at hr
    dsimp only at hr
    split at hr
    · next r hreader =>
      split at hr
      · cases hr
        have hcancels : b.Cancels (.cancelReader i reason) = r.attached := by
          show b.stream.readers[i]?.any (·.attached) = r.attached; rw [hreader]; rfl
        unfold Cancellable.cancelReader
        split
        · next ha =>
          refine ⟨b.stream.cancelStream_frames reason, ?_⟩
          dsimp only
          rw [hcancels, ha, Bool.or_true]; exact h.cancel reason rfl (hover (hcancels.trans ha))
        · exact ⟨rfl, h.same rfl hkeep⟩
      · cases hr
    · cases hr
  | finish i =>
    obtain ⟨b', hr, rfl⟩ := map_eq_some_iff.1 hb
    unfold Cancellable.call at hr
    dsimp only at hr
    split at hr
    · next r hreader =>
      split at hr
      · cases hr
        have hcancels : b.Cancels (.finish i) = r.attached := by
          show b.stream.readers[i]?.any (·.attached) = r.attached; rw [hreader]; rfl
        unfold Cancellable.cancelAndRelease
        split
        · next ha =>
          refine ⟨(b.stream.releaseLock i r).cancelStream_frames none, ?_⟩
          dsimp only
          rw [hcancels, ha, Bool.or_true]; exact h.cancel none rfl (hover (hcancels.trans ha))
        · exact ⟨rfl, h.same rfl hkeep⟩
      · cases hr
    · cases hr

theorem Got.fresh : Got ({} : Branch α ε) [] .readable :=
  ⟨rfl, rfl, rfl, fun _ => ⟨[], 0, inv_of_not_waiting rfl rfl rfl nofun (.inl rfl)⟩⟩

theorem Got.delivered (hc : b.cancelled = false) (h : Got b ys st) : ReadableStream.Delivered ⟨b.stream.stream, [], []⟩ :=
  delivered_of_inv (h.yields hc)

end Branch

/-! ## The phases of the pump -/

variable {s} {before ys : List α} {stack : List ReadableStream.Frame} {n : Nat}

variable {r : ReadableStream α ε}

/-- The pump has the lock of the source. -/
def Held (s : Tee α ε) : Prop := s.source.readers[s.reader]? = some { kind := .reader }

/-- What the pump waits for. -/
inductive Phase (before ys : List α) (s : Tee α ε) : List ReadableStream.Frame → Prop
  | reading {i stack} : s.pump = .reading i → s.source.stream.Reads i stack (before ++ ys) → Held s → Got s.left ys .readable →
      Got s.right ys .readable → Phase before ys s stack
  | stopped {st} : s.pump = .stopped → s.source.stream.Rests (before ++ ys) → s.source.stream.state = st → st ≠ .readable →
      s.source.stream.queue = [] → Got s.left ys st → Got s.right ys st → Phase before ys s []

section

variable (h : Phase before ys s stack)
include h

theorem Phase.source
    (hreads : ∀ i fs passed, s.source.stream.Reads i fs passed → r.Reads i fs passed)
    (hover : s.source.stream.state ≠ .readable → r = s.source.stream) :
    Phase before ys { s with source := { s.source with stream := r } } stack := by
  cases h with
  | reading hp hr hl hleft hright => exact .reading hp (hreads _ _ _ hr) hl hleft hright
  | stopped hp hr hst hne hq hleft hright =>
    rw [hover (hst ▸ hne)]; exact .stopped hp hr hst hne hq hleft hright

theorem Phase.branches : (∃ st, Got s.left ys st) ∧ ∃ st, Got s.right ys st := by
  cases h with
  | reading _ _ _ hleft hright | stopped _ _ _ _ _ hleft hright => exact ⟨⟨_, hleft⟩, _, hright⟩

theorem Phase.left {b : Branch α ε}
    (hb : ∀ st, Got s.left ys st → Got b ys st) : Phase before ys { s with left := b } stack := by
  cases h with
  | reading hp hr hl hleft hright => exact .reading hp hr hl (hb _ hleft) hright
  | stopped hp hr hst hne hq hleft hright => exact .stopped hp hr hst hne hq (hb _ hleft) hright

theorem Phase.right {b : Branch α ε}
    (hb : ∀ st, Got s.right ys st → Got b ys st) : Phase before ys { s with right := b } stack := by
  cases h with
  | reading hp hr hl hleft hright => exact .reading hp hr hl hleft (hb _ hright)
  | stopped hp hr hst hne hq hleft hright => exact .stopped hp hr hst hne hq hleft (hb _ hright)

end

theorem read_held (h : Held s) : s.read =
    { state :=
        { s with
          pump := .reading s.source.stream.reads.length
          source := { s.source with stream := s.source.stream.readInternal.state } }
      frames := s.source.stream.readInternal.frames } := by
  unfold read
  dsimp only; rw [h]; rfl

theorem Phase.read (hr : s.source.stream.Rests (before ++ ys)) (hl : Held s) (hleft : Got s.left ys .readable)
    (hright : Got s.right ys .readable) : Phase before ys s.read.state s.read.frames := by
  rw [read_held hl]; exact .reading rfl hr.read hl hleft hright

theorem enqueueTo_taken {b : Result α ε} {k : Tee α ε → Result α ε} (h : b.seen = []) : enqueueTo b k = k b.state := by
  unfold enqueueTo
  rw [h]; exact congrArg (fun seen => { k b.state with seen }) (congrArg (· ++ (k b.state).seen) h)

theorem Phase.pass {chunk : α} (hr : s.source.stream.Rests (before ++ ys ++ [chunk])) (hl : Held s)
    (hleft : Got s.left ys .readable) (hright : Got s.right ys .readable) :
    Phase before (ys ++ [chunk]) (s.pass chunk).state (s.pass chunk).frames := by
  obtain ⟨hseen, -, hleft'⟩ := hleft.enqueue chunk
  obtain ⟨hseen', -, hright'⟩ := hright.enqueue chunk
  have hpass : s.pass chunk = ((s.ofLeft (s.left.enqueue chunk)).state.ofRight (s.right.enqueue chunk)).state.read :=
    (enqueueTo_taken (congrArg (List.map Event.left) hseen)).trans (enqueueTo_taken (congrArg (List.map Event.right) hseen'))
  rw [hpass]
  refine Phase.read ?_ hl hleft' hright'
  rw [← append_assoc]; exact hr

theorem Phase.tick {b : Result α ε} (h : Phase before ys s []) (hb : s.tick = some b) :
    ∃ ys', Phase before ys' b.state b.frames := by
  unfold Tee.tick at hb
  cases h with
  | @reading i _ hp hr hl hleft hright =>
    rw [hp] at hb
    dsimp only at hb
    split at hb
    · next chunk hchunk =>
      cases hb; exact ⟨_, Phase.pass (hr.value hchunk).2 hl hleft hright⟩
    · next hdone =>
      cases hb
      obtain ⟨-, hrests, hover, hq⟩ := hr.outcome hdone nofun
      have hclosed : s.source.stream.state = .closed := by
        cases hs : s.source.stream.state with
        | closed => rfl
        | readable | errored reason => rw [hs] at hover; cases hover
      have hrelease : ∀ t : Tee α ε, t.releaseReader.source.stream = t.source.stream ∧ t.releaseReader.left = t.left ∧
          t.releaseReader.right = t.right := by
        intro t
        unfold releaseReader
        split
        · split <;> exact ⟨rfl, rfl, rfl⟩
        · exact ⟨rfl, rfl, rfl⟩
      obtain ⟨h1, h2, h3⟩ := hrelease ((s.ofLeft s.left.close).state.ofRight s.right.close).state
      have hne : (StreamState.closed : StreamState ε) ≠ .readable := nofun
      refine ⟨ys, .stopped rfl ?_ ?_ hne ?_ ?_ ?_⟩
      · exact h1.symm ▸ hrests
      · exact (congrArg state h1).trans hclosed
      · exact (congrArg queue h1).trans hq
      · exact h2.symm ▸ hleft.close.2
      · exact h3.symm ▸ hright.close.2
    · next reason hrejected =>
      cases hb
      obtain ⟨-, hrests, hover, hq⟩ := hr.outcome hrejected nofun
      have herrored : s.source.stream.state = .errored reason := by
        cases hs : s.source.stream.state with
        | readable | closed => rw [hs] at hover; cases hover
        | errored reason' =>
          rw [hs] at hover
          cases hover; rfl
      exact ⟨ys, .stopped rfl hrests herrored nofun hq (hleft.error reason).2 (hright.error reason).2⟩
    · cases hb
  | stopped hp => rw [hp] at hb; cases hb

/-! ## Runs -/

theorem Phase.call {c : Conf α ε} {k : Call α ε} {b : Result α ε} (h : Phase before ys c.state c.stack)
    (hP : Proper c (.call k)) (ht : (program (α := α) (ε := ε)).task k = true → c.stack = []) (hb : c.state.call k = some b) :
    ∃ ys', Phase before ys' b.state (b.frames ++ c.stack) := by
  cases k with
  | enqueue chunk =>
    cases hb; exact ⟨ys, h.source (fun _ _ _ hr => hr.enqueue chunk) (enqueueFromController_over chunk)⟩
  | close =>
    cases hb
    have hstate : (c.state.ofSource c.state.source.closeFromController).state =
        { c.state with source := { c.state.source with stream := c.state.source.stream.closeFromController } } :=
      congrArg (fun t => { c.state with source := t }) c.state.source.closeFromController_eq
    rw [hstate, show (c.state.ofSource c.state.source.closeFromController).frames = [] from
      c.state.source.closeFromController_frames]
    exact ⟨ys, h.source (fun _ _ _ hr => hr.close) closeFromController_over⟩
  | error reason =>
    cases hb
    have hstate : (c.state.ofSource (c.state.source.errorFromController reason)).state =
        { c.state with source := { c.state.source with stream := c.state.source.stream.errorFromController reason } } :=
      congrArg (fun t => { c.state with source := t }) (c.state.source.errorFromController_eq reason)
    rw [hstate, show (c.state.ofSource (c.state.source.errorFromController reason)).frames = [] from
      c.state.source.errorFromController_frames reason]
    exact ⟨ys, h.source (fun _ _ _ hr => hr.error reason) (errorFromController_over reason)⟩
  | cancel reason =>
    cases hb
    have hstate : (c.state.ofSource (c.state.source.cancelStream reason)).state = c.state :=
      congrArg (fun t => { c.state with source := t }) (c.state.source.cancelStream_over reason hP.1 hP.2)
    rw [hstate, show (c.state.ofSource (c.state.source.cancelStream reason)).frames = [] from
      c.state.source.cancelStream_frames reason]
    exact ⟨ys, h⟩
  | left k =>
    obtain ⟨b', hb', rfl⟩ := map_eq_some_iff.1 hb
    obtain ⟨⟨_, hleft⟩, -⟩ := h.branches
    rw [show (c.state.ofLeft b').frames = [] from (hleft.call hP hb').1]
    exact ⟨ys, h.left (fun st hgot => (hgot.call hP hb').2)⟩
  | right k =>
    obtain ⟨b', hb', rfl⟩ := map_eq_some_iff.1 hb
    obtain ⟨-, _, hright⟩ := h.branches
    rw [show (c.state.ofRight b').frames = [] from (hright.call hP hb').1]
    exact ⟨ys, h.right (fun st hgot => (hgot.call hP hb').2)⟩
  | tick =>
    have hs := ht rfl; rw [hs] at h ⊢; rw [append_nil]; exact h.tick hb

theorem Phase.ret {f : ReadableStream.Frame} {fs : List ReadableStream.Frame} (h : Phase before ys s (f :: fs)) :
    Phase before ys (program.resume s f).state ((program.resume s f).frames ++ fs) := by
  cases h with
  | reading hp hr hl hleft hright =>
    obtain ⟨rfl, rfl⟩ := PipeTo.Reads_pulling hr; exact .reading hp hr.pulled hl hleft hright

theorem phase_start {source : Cancellable α ε} {b : Result α ε} (h : source.stream.Rests before)
    (hb : start source = some b) : Phase before [] b.state b.frames := by
  unfold start at hb
  split at hb
  · cases hb
  · next hfree =>
    cases hb
    rw [Cancellable.acquire_free hfree]
    refine Phase.read ?_ ?_ .fresh .fresh
    · rw [append_nil]; exact h
    · show (source.readers ++ [_])[source.readers.length]? = _; simp

theorem Got.follows_reading {i : Nat} {idle : Prop} {b : Branch α ε} (hc : b.cancelled = false)
    (hr : r.Reads i stack (before ++ ys)) (hidle : idle → stack = [] ∧ ∀ result, r.reads[i]? ≠ some (some result))
    (h : Got b ys .readable) : Follows before r idle b := by
  refine ⟨h.delivered hc, ?_, fun hne => absurd h.state hne, fun hi => ?_⟩
  · rw [h.enqueued]; exact hr.in_order
  · obtain ⟨hstack, hpending⟩ := hidle hi
    obtain hne | ⟨hreadable, he⟩ := hr.pending hpending
    · exact absurd hstack hne
    · rw [h.enqueued]; exact ⟨h.state.trans hreadable.symm, he.symm⟩

theorem Got.follows_stopped {st : StreamState ε} {idle : Prop} {b : Branch α ε}
    (hc : b.cancelled = false) (hr : r.Rests (before ++ ys)) (hs : r.state = st) (hq : r.queue = []) (h : Got b ys st) :
    Follows before r idle b := by
  have he := hr.enqueued
  rw [hq, append_nil, ← h.enqueued] at he
  have hstate := h.state.trans hs.symm
  exact ⟨h.delivered hc, he ▸ prefix_refl _, fun _ => ⟨hstate, he.symm⟩, fun _ => ⟨hstate, he.symm⟩⟩

theorem tees_of_phase {c : Conf α ε} (h : Phase before ys c.state c.stack) : Tees before c := by
  obtain ⟨state, stack, trace⟩ := c
  cases h with
  | @reading i _ hp hr hl hleft hright =>
    have hidle : Idle (⟨state, stack, trace⟩ : Conf α ε) →
        stack = [] ∧ ∀ result, state.source.stream.reads[i]? ≠ some (some result) := by
      rintro ⟨hstack, htick⟩
      refine ⟨hstack, fun result hres => ?_⟩
      unfold Tee.tick at htick
      rw [hp] at htick
      dsimp only at htick
      rw [hres] at htick
      cases result <;> cases htick
    exact ⟨fun hc => hleft.follows_reading hc hr hidle, fun hc => hright.follows_reading hc hr hidle⟩
  | stopped hp hr hst hne hq hleft hright =>
    exact ⟨fun hc => hleft.follows_stopped hc hr hst hq, fun hc => hright.follows_stopped hc hr hst hq⟩

/-- `tee` does what it is for, in the runs whose steps meet `P`. -/
def Sound (P : Conf α ε → Move (Call α ε) → Prop) : Prop :=
  ∀ (before : List α) (source : Cancellable α ε) (b : Result α ε), source.stream.Rests before → start source = some b →
    ∀ (ls : List (Move (Call α ε))) (c : Conf α ε), Run program.step P (b.onto [] []) ls c → Tees before c

/-- **`tee`**, in the runs in which a branch is cancelled only when its end is there. -/
theorem tee_yields : Sound (Proper (α := α) (ε := ε)) := by
  intro before source b h hb ls c hrun
  have hI := Reentrant.invariant (I := fun c => ∃ ys, Phase before ys c.state c.stack)
    (fun c k b hI hP ht hb => by obtain ⟨ys, hI⟩ := hI; exact hI.call hP ht hb)
    (fun c f fs hI hs => by
      obtain ⟨ys, hI⟩ := hI
      rw [hs] at hI
      exact ⟨ys, hI.ret⟩) hrun
  obtain ⟨ys, hphase⟩ := hI ⟨[], by
    have hstart := phase_start h hb
    rwa [← append_nil b.frames] at hstart⟩
  exact tees_of_phase hphase

theorem cancel_stops_other : ¬ Sound (fun (_ : Conf Nat Nat) _ => True) := by
  intro h
  have htees := h [] { stream := { pull := false }, cancel := false } _ ⟨rfl, rfl⟩ rfl
    [.call (.left (.cancel none)), .call (.enqueue 7), .call .tick] _ (Run.of_runs rfl)
  obtain ⟨-, he⟩ := (htees.right rfl).passed ⟨rfl, rfl⟩; cases he

end Tee

end NodeCompat.Web
