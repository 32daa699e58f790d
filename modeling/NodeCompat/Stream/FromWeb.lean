import NodeCompat.Stream.ToWeb
import NodeCompat.Web.Pump

/-!
# A web stream as a `Readable`

`Readable.fromWeb` reads the web stream with a pump: the reaction to the promise of one `read` pushes its chunk and calls the next
`read`. The `Readable` then goes through a run of its own (`follows`), in which what is pushed is what the web stream enqueued, in order.
The pump does not ask whether the `Readable` is destroyed, so it reads on when it is.

The reader holds the lock: nobody else reads. `asError` says which reason is an `Error`.
-/

namespace NodeCompat.Stream

open List Option
open NodeCompat.Web (ReadableStream StreamState ReadResult)

variable {V ε : Type}

inductive Pump (ε : Type)
  | reading (read : Nat)
  /-- In `push` of a chunk. -/
  | passing
  | ended
  /-- `destroyed` says whether the `Readable` was destroyed before. -/
  | failed (reason : ε) (destroyed : Bool)
  deriving DecidableEq

/-- A chunk of the web stream may be `null`. -/
structure FromWeb (V ε : Type) where
  destination : Readable V
  source : ReadableStream (Option (Chunk V)) ε
  pump : Pump ε
  /-- What the promises that the pump has seen had in them. -/
  passed : List (Option (Chunk V)) := []

namespace FromWeb

inductive Frame (V : Type)
  | readable (frame : Stream.Frame V)
  /-- In the `push` of the pump; then comes `next`. -/
  | next (frame : Stream.Frame V)
  | source (frame : ReadableStream.Frame)
  deriving DecidableEq

inductive Event (V : Type)
  | readable (event : Stream.Event V)
  /-- A `read` of the web stream is called; whether the `Readable` is destroyed. -/
  | read (destroyed : Bool)
  /-- `controller.enqueue` throws. -/
  | notReadable
  deriving DecidableEq

inductive Call (V ε : Type)
  | readable (call : Stream.Call V)
  | enqueue (chunk : Option (Chunk V))
  | close
  | error (reason : ε)
  /-- The microtask that sees the promise of the pump. -/
  | tick
  deriving DecidableEq

variable (toString : BufferEncoding → Bytes → List UInt16) (asError : ε → Option StreamError) (s : FromWeb V ε)

abbrev Result (V ε : Type) := Block (FromWeb V ε) (Frame V) (Event V)

/-- A block of the `Readable`. -/
def through (b : Readable.Result V) : Result V ε :=
  { state := { s with destination := b.state }, seen := b.seen.map .readable, frames := b.frames.map .readable }

def next : Result V ε :=
  let b := s.source.readInternal
  { state := { s with source := b.state, pump := .reading s.source.reads.length }
    seen := [.read s.destination.destroyed]
    frames := b.frames.map .source }

/-- A block of the `push` of the pump, with `next` when it has returned. -/
def passing (b : Readable.Result V) : Result V ε :=
  let s := { s with destination := b.state }
  match b.frames.getLast? with
  | none => { s.next with seen := b.seen.map .readable ++ s.next.seen }
  | some f => { state := s, seen := b.seen.map .readable, frames := b.frames.dropLast.map .readable ++ [.next f] }

/-- The reaction to what a `read` came to. -/
def react : ReadResult (Option (Chunk V)) ε → Result V ε
  | .value chunk => { s with pump := .passing, passed := s.passed ++ [chunk] }.passing (s.destination.push chunk)
  | .done => { s with pump := .ended }.through (s.destination.push none)
  | .rejected reason =>
    { s with pump := .failed reason s.destination.destroyed }.through (s.destination.destroy (asError reason) .nothing)

/-- What the promise that the pump waits for has come to. -/
def settled : Option (ReadResult (Option (Chunk V)) ε) :=
  match s.pump with
  | .reading i => s.source.reads[i]?.join
  | _ => none

def call : Call V ε → Option (Result V ε)
  | .readable k => (s.destination.call toString k).map s.through
  | .enqueue chunk =>
    let b := s.source.enqueueFromController chunk
    some { state := { s with source := b.state }, seen := b.seen.map (fun _ => .notReadable) }
  | .close => some { state := { s with source := s.source.closeFromController } }
  | .error reason => some { state := { s with source := s.source.errorFromController reason } }
  | .tick => s.settled.map (s.react asError)

def goOn : Frame V → Result V ε
  | .readable f => s.through (s.destination.goOn toString f)
  | .next f => s.passing (s.destination.goOn toString f)
  | .source (.pulling i) => { state := { s with source := s.source.pulled i } }

/-- The web stream, the `Readable` and the code that uses them. -/
def program : Reentrant (FromWeb V ε) (Call V ε) (Frame V) (Event V) where
  call := call toString asError
  resume := goOn toString
  task
    | .tick | .readable (.checkpoint _) => true
    | _ => false

/-- `readableFromWeb`, of a web stream in any state. -/
def create (objectMode : Bool) (highWaterMark : Nat) (source : ReadableStream (Option (Chunk V)) ε) :
    Config (FromWeb V ε) (Frame V) (Event V) :=
  let destination := (Readable.create objectMode highWaterMark true none).state
  ({ destination, source, pump := .passing } : FromWeb V ε).next.onto [] []

end FromWeb

/-! ## A `Readable` that only the pump feeds -/

/-- The chunks that are pushed. -/
def pushes (es : List (Event V)) : List (Chunk V) :=
  es.filterMap fun
    | .pushed chunk => some chunk
    | _ => none

theorem pushes_append (es es' : List (Event V)) : pushes (es ++ es') = pushes es ++ pushes es' := filterMap_append

namespace FromWeb

/-- Nothing is fed, and `_destroy` is the one of `Readable`, which calls back with the error. -/
def Consumes (r : Readable V) : Stream.Call V → Prop
  | .push _ | .pushEnd | .unshift _ => False
  | .destroyed error => error = r.errored
  | _ => True

end FromWeb

namespace Readable

variable {toString : BufferEncoding → Bytes → List UInt16} {r : Readable V} {b : Result V} {stack : List (Stream.Frame V)}

variable (f : Stream.Frame V)

variable (ret : Return)

/-- When it is flowing and holds chunks, a frame drains it. -/
def Drained (r : Readable V) (stack : List (Stream.Frame V)) : Prop :=
  r.paused = false → r.pending = [] ∨ ∃ f ∈ stack, f.drains = true

/-- A block that feeds nothing. -/
structure Steady (r : Readable V) (b : Result V) : Prop where
  endPending : b.state.endPending = r.endPending
  errored : r.destroyed = true → b.state.errored = r.errored
  pushes : pushes b.seen = []
  flow : ∀ {stack : List (Stream.Frame V)}, Drained r stack → Drained b.state (b.frames ++ stack)

theorem Drained.push {fs : List (Stream.Frame V)} (h : Drained r stack) : Drained r (fs ++ stack) := by
  intro hp
  obtain he | ⟨f, hf, hd⟩ := h hp
  · exact .inl he
  · exact .inr ⟨f, mem_append_right _ hf, hd⟩

theorem Drained.of_frame {f : Stream.Frame V} (hf : f ∈ stack) (hd : f.drains = true) : Drained r stack := fun _ => .inr ⟨f, hf, hd⟩

theorem steady_same (he : b.state.endPending = r.endPending) (hr : b.state.errored = r.errored) (hs : pushes b.seen = [])
    (hp : b.state.paused = r.paused) (hq : b.state.pending = r.pending) : Steady r b := by
  refine ⟨he, fun _ => hr, hs, fun {stack} h => ?_⟩
  have hb : Drained b.state stack := by
    unfold Drained; rw [hp, hq]; exact h
  exact hb.push

theorem steady_returned : Steady r (r.returned ret) := by
  cases ret <;> exact steady_same rfl rfl rfl rfl rfl

theorem maybeEmitEnd_same (r : Readable V) : r.maybeEmitEnd.endPending = r.endPending ∧ r.maybeEmitEnd.errored = r.errored ∧
    r.maybeEmitEnd.paused = r.paused ∧ r.maybeEmitEnd.pending = r.pending := by
  unfold maybeEmitEnd
  split <;> exact ⟨rfl, rfl, rfl, rfl⟩

theorem steady_maybeEmitEnd : Steady r (r.maybeEmitEnd.returned ret) := by
  obtain ⟨he, hr, hp, hq⟩ := maybeEmitEnd_same r
  cases ret <;> exact steady_same he hr rfl hp hq

theorem steady_resume : Steady r r.resume := by
  unfold resume
  split
  · exact steady_same rfl rfl rfl rfl rfl
  · exact ⟨rfl, fun _ => rfl, rfl, fun _ => .of_frame (mem_cons_self) rfl⟩

theorem steady_destroy (error : Option StreamError) (ret : Return) : Steady r (r.destroy error ret) := by
  unfold destroy
  split
  · exact steady_returned ret
  · next hd => exact ⟨rfl, fun h => absurd h hd, rfl, fun h => Drained.push (show Drained _ _ from h)⟩

theorem steady_read (size : Nat) : Steady r (r.read toString size) := by
  unfold read
  split
  · exact steady_same rfl rfl rfl rfl rfl
  · next chunk rest hp =>
    have hflow : ∀ {part : Chunk V} {left : List (Chunk V)}, Steady r (r.readChunk toString size part left) := by
      refine ⟨rfl, fun _ => rfl, rfl, fun h hf => ?_⟩
      rcases h hf with he | ⟨f, hf, hd⟩
      · cases hp.symm.trans he
      · exact .inr ⟨f, mem_append_right _ hf, hd⟩
    split <;> exact hflow

theorem steady_checkpoint (side : Bool) : Steady r (r.checkpoint side) := by
  unfold checkpoint
  split
  · exact steady_same rfl rfl rfl rfl rfl
  · split <;> exact steady_same rfl rfl rfl rfl rfl

theorem steady_call {k : Stream.Call V} (hk : FromWeb.Consumes r k) (hb : r.call toString k = some b) : Steady r b := by
  cases k with
  | push _ | pushEnd | unshift _ => cases hk
  | pause => cases hb; exact ⟨rfl, fun _ => rfl, rfl, nofun⟩
  | resume => cases hb; exact steady_resume
  | onData =>
    cases hb
    unfold newListenerAdded
    split
    · exact steady_same rfl rfl rfl rfl rfl
    · exact steady_resume
  | read size => cases hb; exact steady_read size
  | setEncoding encoding => cases hb; exact steady_same rfl rfl rfl rfl rfl
  | destroy error => cases hb; exact steady_destroy error _
  | destroyed error =>
    rw [show r.call toString (.destroyed error) = if r.destroyed then some (r.destroyCallback error) else none from rfl] at hb
    split at hb
    · cases hb
      cases error with
      | none => exact steady_same rfl rfl rfl rfl rfl
      | some e => exact steady_same rfl hk rfl rfl rfl
    · cases hb
  | checkpoint side => cases hb; exact steady_checkpoint side

theorem drained_drainFlowing : Drained (r.drainFlowing toString ret).state (r.drainFlowing toString ret).frames := by
  unfold drainFlowing
  split
  · exact .of_frame mem_cons_self rfl
  · next hnot =>
    have hstate : (r.maybeEmitEnd.returned ret).state = r.maybeEmitEnd := by cases ret <;> rfl
    obtain ⟨-, -, hp, hq⟩ := maybeEmitEnd_same r
    intro hflowing
    rw [hstate, hp] at hflowing
    rw [hstate, hq]
    cases hpending : r.pending with
    | nil => exact .inl rfl
    | cons chunk rest => exact absurd hpending (hnot chunk rest hflowing)

/-- What `goOn` does to a `Readable` that only the pump feeds: the frame that leaves may be the one that drains it. -/
structure SteadyOn (r : Readable V) (f : Stream.Frame V) (b : Result V) : Prop where
  endPending : b.state.endPending = r.endPending
  errored : r.destroyed = true → b.state.errored = r.errored
  pushes : pushes b.seen = []
  flow : ∀ {stack : List (Stream.Frame V)}, Drained r (f :: stack) → Drained b.state (b.frames ++ stack)

theorem Steady.on {f : Stream.Frame V} (h : Steady r b) (hf : f.drains = false ∨ r.paused = true) : SteadyOn r f b := by
  refine ⟨h.endPending, h.errored, h.pushes, fun {stack} hd => h.flow fun hp => ?_⟩
  obtain hf | hpaused := hf
  · obtain he | ⟨g, hg, hgd⟩ := hd hp
    · exact .inl he
    · obtain rfl | hg := mem_cons.1 hg
      · cases hf.symm.trans hgd
      · exact .inr ⟨g, hg, hgd⟩
  · cases hp.symm.trans hpaused

theorem steadyOn_drainFlowing : SteadyOn r f (r.drainFlowing toString ret) := by
  have hflow : ∀ {stack : List (Stream.Frame V)},
      Drained (r.drainFlowing toString ret).state ((r.drainFlowing toString ret).frames ++ stack) := by
    intro stack hp
    obtain he | ⟨g, hg, hd⟩ := drained_drainFlowing ret hp
    · exact .inl he
    · exact .inr ⟨g, mem_append_left _ hg, hd⟩
  have hsame : (r.drainFlowing toString ret).state.endPending = r.endPending ∧ (r.drainFlowing toString ret).state.errored = r.errored ∧
      Stream.pushes (r.drainFlowing toString ret).seen = [] := by
    unfold drainFlowing
    split
    · exact ⟨rfl, rfl, rfl⟩
    · obtain ⟨he, hr, -, -⟩ := maybeEmitEnd_same r
      cases ret <;> exact ⟨he, hr, rfl⟩
  exact ⟨hsame.1, fun _ => hsame.2.1, hsame.2.2, fun _ => hflow⟩

theorem steady_goOn : SteadyOn r f (r.goOn toString f) := by
  obtain ⟨he, hr, hp, hq⟩ := maybeEmitEnd_same r
  cases f with
  | pushed =>
    unfold goOn
    dsimp only
    split
    · next hpaused => exact (steady_returned _).on (.inr hpaused)
    · exact steadyOn_drainFlowing _ _
  | endPushed ret =>
    unfold goOn
    dsimp only
    split
    · exact (steady_returned _).on (.inl rfl)
    · exact (steady_maybeEmitEnd _).on (.inl rfl)
  | draining ret => exact steadyOn_drainFlowing _ ret
  | resumed => exact steadyOn_drainFlowing _ _
  | fetching | reading value => exact Steady.on (steady_same he hr rfl hp hq) (.inl rfl)
  | ended side =>
    unfold goOn
    dsimp only
    split
    · exact (steady_destroy none _).on (.inl rfl)
    · exact Steady.on (steady_same rfl rfl rfl rfl rfl) (.inl rfl)
  | errorEmitted ret | destroying ret => exact (steady_returned ret).on (.inl rfl)
  | destroyError | paused | closing => exact Steady.on (steady_same rfl rfl rfl rfl rfl) (.inl rfl)

theorem push_none (h : r.endPending = false) : r.destroyed = true ∧ r.push none = { state := r, seen := [.pushReturned false] } ∨
    r.destroyed = false ∧
      r.push none = { state := { r with endPending := true }, seen := [.endPushed, .readable], frames := [.endPushed .refused] } := by
  cases hd : r.destroyed with
  | true => exact .inl ⟨rfl, by simp [push, hd, returned]⟩
  | false => exact .inr ⟨rfl, by simp [push, pushEnd, hd, h]⟩

theorem destroyed_of_returns (h : (r.goOn toString f).frames = []) : (r.goOn toString f).state.destroyed = r.destroyed := by
  have hreturned : ∀ (r : Readable V) (ret : Return), (r.returned ret).state = r := fun _ ret => by cases ret <;> rfl
  have hmaybe : ∀ ret, (r.maybeEmitEnd.returned ret).state.destroyed = r.destroyed := fun ret => by
    rw [hreturned]
    unfold maybeEmitEnd
    split <;> rfl
  have hdrain : ∀ ret, (r.drainFlowing toString ret).state.destroyed = r.destroyed := fun ret => by
    unfold drainFlowing
    split
    · rfl
    · exact hmaybe ret
  have hdestroy : ∀ error ret, (r.destroy error ret).frames = [] → (r.destroy error ret).state.destroyed = r.destroyed := fun error ret h => by
    unfold destroy at h ⊢
    split
    · rw [hreturned]
    · next hd =>
      rw [if_neg hd] at h; cases h
  cases f with
  | pushed =>
    unfold goOn
    dsimp only
    split
    · rw [hreturned]
    · exact hdrain _
  | endPushed ret =>
    unfold goOn
    dsimp only
    split
    · rw [hreturned]
    · exact hmaybe _
  | draining ret => exact hdrain ret
  | resumed => exact hdrain _
  | fetching | reading value => exact hmaybe .nothing
  | ended side =>
    unfold goOn at h ⊢
    dsimp only at h ⊢
    split
    · next hd =>
      rw [if_pos hd] at h; exact hdestroy _ _ h
    · rfl
  | errorEmitted ret | destroying ret => exact congrArg _ (hreturned r ret)
  | destroyError | paused | closing => rfl

end Readable

open FromWeb

open Readable

namespace FromWeb

variable (fs : List ReadableStream.Frame)

variable (stack : List (Frame V))

/-- A chunk is not `null` and comes while the `Readable` is not destroyed; a reason is an `Error`. -/
def Suits (asError : ε → Option StreamError) (s : FromWeb V ε) : Option (ReadResult (Option (Chunk V)) ε) → Prop
  | some (.value chunk) => chunk.isSome = true ∧ s.destination.destroyed = false
  | some (.rejected reason) => (asError reason).isSome = true
  | _ => True

/-- When the `push` of the pump goes on, the `Readable` is not destroyed. -/
def GoesOn (s : FromWeb V ε) : List (Frame V) → Prop
  | .next _ :: _ => s.destination.destroyed = false
  | _ => True

/-- Nobody but the pump feeds the `Readable`, what the web stream gives suits it, and while chunks come it is not destroyed. -/
def Proper (asError : ε → Option StreamError) (c : Config (FromWeb V ε) (Frame V) (Event V)) : Move (Call V ε) → Prop
  | .call (.readable k) => Consumes c.state.destination k
  | .call .tick => Suits asError c.state c.state.settled
  | .ret => GoesOn c.state c.stack
  | _ => True

instance (r : Readable V) : (k : Stream.Call V) → Decidable (Consumes r k)
  | .push _ | .pushEnd | .unshift _ => .isFalse nofun
  | .destroyed error => inferInstanceAs (Decidable (error = r.errored))
  | .pause | .resume | .onData | .read _ | .setEncoding _ | .destroy _ | .checkpoint _ => .isTrue trivial

instance (asError : ε → Option StreamError) (s : FromWeb V ε) :
    (result : Option (ReadResult (Option (Chunk V)) ε)) → Decidable (Suits asError s result)
  | some (.value _) => inferInstanceAs (Decidable (_ ∧ _))
  | some (.rejected reason) => inferInstanceAs (Decidable ((asError reason).isSome = true))
  | some .done | none => .isTrue trivial

instance (s : FromWeb V ε) : (stack : List (Frame V)) → Decidable (GoesOn s stack)
  | .next _ :: _ => inferInstanceAs (Decidable (s.destination.destroyed = false))
  | .readable _ :: _ | .source _ :: _ | [] => .isTrue trivial

instance (asError : ε → Option StreamError) (c : Config (FromWeb V ε) (Frame V) (Event V)) :
    (l : Move (Call V ε)) → Decidable (Proper asError c l)
  | .call (.readable k) => inferInstanceAs (Decidable (Consumes c.state.destination k))
  | .call .tick => inferInstanceAs (Decidable (Suits asError c.state c.state.settled))
  | .ret => inferInstanceAs (Decidable (GoesOn c.state c.stack))
  | .call (.enqueue _) | .call .close | .call (.error _) => .isTrue trivial

/-! ## The two sides of a configuration -/

def nodeFrames (stack : List (Frame V)) : List (Stream.Frame V) :=
  stack.filterMap fun
    | .readable f | .next f => some f
    | .source _ => none

def sourceFrames (stack : List (Frame V)) : List ReadableStream.Frame :=
  stack.filterMap fun
    | .source f => some f
    | _ => none

/-- The `push` calls of the pump. -/
def nexts (stack : List (Frame V)) : List (Stream.Frame V) :=
  stack.filterMap fun
    | .next f => some f
    | _ => none

def nodeEvents (es : List (Event V)) : List (Stream.Event V) :=
  es.filterMap fun
    | .readable e => some e
    | _ => none

/-- What there is of the `Readable`. -/
def node (c : Config (FromWeb V ε) (Frame V) (Event V)) : Config (Readable V) (Stream.Frame V) (Stream.Event V) :=
  { state := c.state.destination, stack := nodeFrames c.stack, trace := nodeEvents c.trace }

theorem nodeFrames_readable (fs : List (Stream.Frame V)) (stack : List (Frame V)) :
    nodeFrames (fs.map .readable ++ stack) = fs ++ nodeFrames stack := by
  induction fs with
  | nil => rfl
  | cons f fs ih => exact congrArg (f :: ·) ih

theorem nodeFrames_source :
    nodeFrames (fs.map .source ++ stack) = nodeFrames stack := by
  induction fs with
  | nil => rfl
  | cons f fs ih => exact ih

theorem sourceFrames_readable (fs : List (Stream.Frame V)) (stack : List (Frame V)) :
    sourceFrames (fs.map .readable ++ stack) = sourceFrames stack := by
  induction fs with
  | nil => rfl
  | cons f fs ih => exact ih

theorem sourceFrames_source :
    sourceFrames (fs.map .source ++ stack) = fs ++ sourceFrames stack := by
  induction fs with
  | nil => rfl
  | cons f fs ih => exact congrArg (f :: ·) ih

theorem nexts_readable (fs : List (Stream.Frame V)) (stack : List (Frame V)) : nexts (fs.map .readable ++ stack) = nexts stack := by
  induction fs with
  | nil => rfl
  | cons f fs ih => exact ih

theorem nexts_source : nexts (fs.map .source ++ stack) = nexts stack := by
  induction fs with
  | nil => rfl
  | cons f fs ih => exact ih

theorem nodeEvents_append (es es' : List (Event V)) : nodeEvents (es ++ es') = nodeEvents es ++ nodeEvents es' := filterMap_append

theorem nodeEvents_readable (es : List (Stream.Event V)) : nodeEvents (es.map .readable) = es := by
  induction es with
  | nil => rfl
  | cons e es ih => exact congrArg (e :: ·) ih

/-! ## The pump -/

variable {toString : BufferEncoding → Bytes → List UInt16} (asError : ε → Option StreamError) {s : FromWeb V ε} {stack : List (Frame V)}

/-- The web stream is over, and the pump has seen it. -/
structure Over (s : FromWeb V ε) (stack : List (Frame V)) (state : StreamState ε) : Prop where
  rests : s.source.Rests s.passed
  frames : sourceFrames stack = []
  nexts : nexts stack = []
  state : s.source.state = state
  queue : s.source.queue = []

/-- Where the pump stands. -/
inductive Pumps (s : FromWeb V ε) (stack : List (Frame V)) : Prop
  | reading {i} : s.pump = .reading i → s.source.Reads i (sourceFrames stack) s.passed → nexts stack = [] →
      s.destination.endPending = false → Pumps s stack
  | passing : s.pump = .passing → s.source.Rests s.passed → sourceFrames stack = [] → (nexts stack).length = 1 →
      s.destination.endPending = false → Pumps s stack
  | ended : s.pump = .ended → Over s stack .closed → s.destination.destroyed = true ∨ s.destination.endPending = true → Pumps s stack
  | failed {reason destroyed} : s.pump = .failed reason destroyed → Over s stack (.errored reason) → s.destination.destroyed = true →
      (destroyed = false → s.destination.errored = asError reason) → (asError reason).isSome = true → Pumps s stack

/-- What holds in the runs that meet the condition. -/
structure Inv (c : Config (FromWeb V ε) (Frame V) (Event V)) : Prop where
  pumps : Pumps asError c.state c.stack
  drained : c.state.destination.Drained (nodeFrames c.stack)
  passed : (pushes (nodeEvents c.trace)).map some = c.state.passed
  quiet : .read true ∉ c.trace

variable {asError}

theorem Pumps.through {r : Readable V} {fs : List (Stream.Frame V)} (h : Pumps asError s stack)
    (he : r.endPending = s.destination.endPending) (hd : s.destination.destroyed = true → r.destroyed = true)
    (hr : s.destination.destroyed = true → r.errored = s.destination.errored) :
    Pumps asError { s with destination := r } (fs.map .readable ++ stack) := by
  have hsource := sourceFrames_readable fs stack
  have hnexts := nexts_readable fs stack
  cases h with
  | reading hp hreads hn hopen => exact .reading hp (hsource ▸ hreads) (hnexts.trans hn) (he.trans hopen)
  | passing hp hrests hs hn hopen => exact .passing hp hrests (hsource.trans hs) (hnexts ▸ hn) (he.trans hopen)
  | ended hp hover hend =>
    exact .ended hp ⟨hover.rests, hsource.trans hover.frames, hnexts.trans hover.nexts, hover.state, hover.queue⟩ (hend.imp hd he.trans)
  | failed hp hover hdestroyed herror hsome =>
    exact .failed hp ⟨hover.rests, hsource.trans hover.frames, hnexts.trans hover.nexts, hover.state, hover.queue⟩ (hd hdestroyed)
      (fun h => (hr hdestroyed).trans (herror h)) hsome

theorem Pumps.control {source : ReadableStream (Option (Chunk V)) ε} (h : Pumps asError s stack)
    (hreads : ∀ {i fs passed}, s.source.Reads i fs passed → source.Reads i fs passed)
    (hrests : ∀ {passed}, s.source.Rests passed → source.Rests passed) (hover : s.source.state ≠ .readable → source = s.source) :
    Pumps asError { s with source } stack := by
  cases h with
  | reading hp h hn hopen => exact .reading hp (hreads h) hn hopen
  | passing hp h hs hn hopen => exact .passing hp (hrests h) hs hn hopen
  | ended hp h hend => obtain rfl := hover (by simp [h.state]); exact .ended hp h hend
  | failed hp h hdestroyed herror hsome =>
    obtain rfl := hover (by simp [h.state]); exact .failed hp h hdestroyed herror hsome

theorem Inv.control {trace : List (Event V)} (source : ReadableStream (Option (Chunk V)) ε) (seen : List (Event V))
    (h : Inv asError ⟨s, stack, trace⟩)
    (hreads : ∀ {i fs passed}, s.source.Reads i fs passed → source.Reads i fs passed)
    (hrests : ∀ {passed}, s.source.Rests passed → source.Rests passed) (hover : s.source.state ≠ .readable → source = s.source)
    (hseen : ∀ e ∈ seen, e = .notReadable) :
    Inv asError ((⟨{ s with source }, seen, []⟩ : Result V ε).onto stack trace) ∧
      node ((⟨{ s with source }, seen, []⟩ : Result V ε).onto stack trace) = node ⟨s, stack, trace⟩ := by
  have hnone : nodeEvents (trace ++ seen) = nodeEvents trace := by
    rw [nodeEvents_append, show nodeEvents seen = [] from filterMap_eq_nil_iff.2 fun e he => by rw [hseen e he], append_nil]
  refine ⟨⟨h.pumps.control hreads hrests hover, h.drained, ?_, fun hin => ?_⟩, ?_⟩
  · rw [Block.onto_trace, hnone]; exact h.passed
  · rcases mem_append.1 hin with hin | hin
    · exact h.quiet hin
    · cases hseen _ hin
  · exact congrArg (fun es => (⟨s.destination, nodeFrames stack, es⟩ : Config (Readable V) (Stream.Frame V) (Stream.Event V))) hnone

/-! ## The blocks of the `Readable` -/

theorem node_through (b : Readable.Result V) (trace : List (Event V)) :
    node ((s.through b).onto stack trace) = b.onto (nodeFrames stack) (nodeEvents trace) := by
  unfold node through Block.onto
  simp only [nodeFrames_readable, nodeEvents_append, nodeEvents_readable]

theorem inv_through {b : Readable.Result V} {trace : List (Event V)} (hpumps : Pumps asError (s.through b).state ((s.through b).frames ++ stack))
    (hdrained : b.state.Drained (b.frames ++ nodeFrames stack)) (hpushes : pushes b.seen = [])
    (hpassed : (pushes (nodeEvents trace)).map some = s.passed) (hquiet : .read true ∉ trace) :
    Inv asError ((s.through b).onto stack trace) := by
  refine ⟨hpumps, ?_, ?_, ?_⟩
  · rw [Block.onto_stack, through, nodeFrames_readable]; exact hdrained
  · rw [Block.onto_trace, through, nodeEvents_append, nodeEvents_readable, pushes_append, hpushes, append_nil]; exact hpassed
  · rw [Block.onto_trace, through]; simpa using hquiet

theorem inv_next {trace : List (Event V)} (hp : s.source.Rests s.passed) (hs : sourceFrames stack = []) (hn : nexts stack = [])
    (hopen : s.destination.endPending = false) (hlive : s.destination.destroyed = false) (hdrained : s.destination.Drained (nodeFrames stack))
    (hpassed : (pushes (nodeEvents trace)).map some = s.passed) (hquiet : .read true ∉ trace) :
    Inv asError (s.next.onto stack trace) ∧ node (s.next.onto stack trace) = node ⟨s, stack, trace⟩ := by
  have htrace : nodeEvents (trace ++ [Event.read s.destination.destroyed]) = nodeEvents trace := by
    rw [nodeEvents_append]; exact append_nil _
  refine ⟨⟨.reading rfl ?_ ?_ hopen, ?_, ?_, ?_⟩, ?_⟩
  · rw [Block.onto_stack, next, sourceFrames_source, hs, append_nil]; exact hp.read
  · rw [Block.onto_stack, next, nexts_source, hn]
  · rw [Block.onto_stack, next, nodeFrames_source]; exact hdrained
  · rw [Block.onto_trace, next, htrace]; exact hpassed
  · rw [Block.onto_trace, next, hlive]; simpa using hquiet
  · unfold node next Block.onto; simp only [nodeFrames_source, htrace]

theorem nodeFrames_next (fs : List (Stream.Frame V)) (f : Stream.Frame V) (stack : List (Frame V)) :
    nodeFrames ((fs.map .readable ++ [.next f]) ++ stack) = fs ++ [f] ++ nodeFrames stack := by
  rw [append_assoc, nodeFrames_readable, append_assoc]; rfl

theorem inv_passing {b : Readable.Result V} {trace : List (Event V)} (hpump : s.pump = .passing) (hp : s.source.Rests s.passed)
    (hs : sourceFrames stack = []) (hn : nexts stack = []) (hopen : b.state.endPending = false)
    (hlive : b.frames = [] → b.state.destroyed = false) (hdrained : b.state.Drained (b.frames ++ nodeFrames stack))
    (hpassed : (pushes (nodeEvents trace) ++ pushes b.seen).map some = s.passed) (hquiet : .read true ∉ trace) :
    Inv asError ((s.passing b).onto stack trace) ∧
      node ((s.passing b).onto stack trace) = b.onto (nodeFrames stack) (nodeEvents trace) := by
  have htrace : nodeEvents (trace ++ b.seen.map Event.readable) = nodeEvents trace ++ b.seen := by
    rw [nodeEvents_append, nodeEvents_readable]
  have hpassed' : (pushes (nodeEvents (trace ++ b.seen.map Event.readable))).map some = s.passed := by
    rw [htrace, pushes_append]; exact hpassed
  have hquiet' : Event.read true ∉ trace ++ b.seen.map Event.readable := by simpa using hquiet
  unfold passing
  split
  · next hlast =>
    have hframes : b.frames = [] := getLast?_eq_none_iff.1 hlast
    rw [hframes] at hdrained
    obtain ⟨hinv, hnode⟩ := @inv_next V ε asError { s with destination := b.state } stack _ hp hs hn hopen (hlive hframes) hdrained hpassed'
      hquiet'
    have honto : (⟨({ s with destination := b.state } : FromWeb V ε).next.state,
          b.seen.map .readable ++ ({ s with destination := b.state } : FromWeb V ε).next.seen,
          ({ s with destination := b.state } : FromWeb V ε).next.frames⟩ : Result V ε).onto stack trace =
        ({ s with destination := b.state } : FromWeb V ε).next.onto stack (trace ++ b.seen.map .readable) := by
      simp [Block.onto, append_assoc]
    rw [honto]
    refine ⟨hinv, hnode.trans ?_⟩
    unfold node Block.onto; simp only [htrace, hframes, nil_append]
  · next f hlast =>
    obtain ⟨before, hframes⟩ := getLast?_eq_some_iff.1 hlast
    have hstack : nodeFrames ((b.frames.dropLast.map Frame.readable ++ [Frame.next f]) ++ stack) = b.frames ++ nodeFrames stack := by
      rw [nodeFrames_next, hframes, dropLast_concat]
    refine ⟨⟨.passing hpump hp ?_ ?_ hopen, ?_, hpassed', hquiet'⟩, ?_⟩
    · show sourceFrames ((b.frames.dropLast.map Frame.readable ++ [Frame.next f]) ++ stack) = []
      rw [append_assoc, sourceFrames_readable]; exact hs
    · show (nexts ((b.frames.dropLast.map Frame.readable ++ [Frame.next f]) ++ stack)).length = 1
      rw [append_assoc, nexts_readable]
      show (f :: nexts stack).length = 1; rw [hn]; rfl
    · show b.state.Drained (nodeFrames ((b.frames.dropLast.map Frame.readable ++ [Frame.next f]) ++ stack))
      rw [hstack]; exact hdrained
    · unfold node Block.onto; simp only [hstack, htrace]

/-! ## Runs -/

theorem Pumps.congr {stack' : List (Frame V)} (h : Pumps asError s stack) (hs : sourceFrames stack' = sourceFrames stack)
    (hn : nexts stack' = nexts stack) : Pumps asError s stack' := by
  cases h with
  | reading hp hreads hnone hopen => exact .reading hp (hs ▸ hreads) (hn.trans hnone) hopen
  | passing hp hrests hnone hone hopen => exact .passing hp hrests (hs.trans hnone) (hn ▸ hone) hopen
  | ended hp h hend => exact .ended hp ⟨h.rests, hs.trans h.frames, hn.trans h.nexts, h.state, h.queue⟩ hend
  | failed hp h hdestroyed herror hsome =>
    exact .failed hp ⟨h.rests, hs.trans h.frames, hn.trans h.nexts, h.state, h.queue⟩ hdestroyed herror hsome

variable {c c' : Config (FromWeb V ε) (Frame V) (Event V)} {trace : List (Event V)} {i : Nat}

variable (toString asError) in
/-- What a step comes to: the invariant holds after it, and the `Readable` has taken steps of a run of its own. -/
def Follows (c : Config (FromWeb V ε) (Frame V) (Event V)) (ls : List (Move (Call V ε))) (c' : Config (FromWeb V ε) (Frame V) (Event V)) :
    Prop :=
  Inv asError c' ∧ ∃ ls', Run (Readable.program toString).step Readable.Proper (node c) ls' (node c') ∧
    ∀ side, .call (.readable (.checkpoint side)) ∈ ls → .call (.checkpoint side) ∈ ls'

theorem follows_still {l : Move (Call V ε)} (h : Inv asError c') (hnode : node c' = node c)
    (hl : ∀ side, l ≠ .call (.readable (.checkpoint side))) : Follows toString asError c [l] c' :=
  ⟨h, [], hnode ▸ .nil _, fun side hin => absurd (mem_singleton.1 hin).symm (hl side)⟩

theorem follows_step {l : Move (Call V ε)} {m : Move (Stream.Call V)} (h : Inv asError c')
    (hP : Readable.Proper (node c) m) (hst : (Readable.program toString).step (node c) m = some (node c'))
    (hl : ∀ side, l = .call (.readable (.checkpoint side)) → m = .call (.checkpoint side)) : Follows toString asError c [l] c' := by
  refine ⟨h, [m], .cons hP hst (.nil _), fun side hin => ?_⟩
  rw [hl side (mem_singleton.1 hin).symm]; exact mem_singleton_self _

theorem follows_readable {k : Stream.Call V} {b : Readable.Result V} (h : Inv asError ⟨s, stack, trace⟩)
    (hk : Consumes s.destination k)
    (ht : (program toString asError : Reentrant (FromWeb V ε) _ _ _).task (.readable k) = true → stack = [])
    (hb : s.destination.call toString k = some b) :
    Follows toString asError ⟨s, stack, trace⟩ [.call (.readable k)] ((s.through b).onto stack trace) := by
  have hsteady := Readable.steady_call hk hb
  have hinv : Inv asError ((s.through b).onto stack trace) :=
    inv_through (h.pumps.through hsteady.endPending (Readable.call_keeps hb).destroyed hsteady.errored) (hsteady.flow h.drained)
      hsteady.pushes h.passed h.quiet
  refine follows_step hinv (m := .call k) ?_ ?_ (fun side hl => ?_)
  · cases k <;> trivial
  · have hidle : (Readable.program toString).task k = true → nodeFrames stack = [] := by
      intro hcheck
      have hstack : stack = [] := ht (by cases k <;> first | rfl | cases hcheck)
      rw [hstack]; rfl
    rw [node_through]
    unfold Reentrant.step
    dsimp only
    rw [if_neg (by simpa [node] using hidle), show (Readable.program toString).call (node ⟨s, stack, trace⟩).state k = some b from hb]
    rfl
  · cases hl; rfl

section

variable (h : Inv asError ⟨s, [], trace⟩)
include h

section

variable (hreads : s.source.Reads i [] s.passed)
include hreads

theorem follows_value {chunk : Chunk V} (hr : s.source.reads[i]? = some (some (.value (some chunk))))
    (hopen : s.destination.endPending = false) (hlive : s.destination.destroyed = false) :
    Follows toString asError ⟨s, [], trace⟩ [.call .tick] ((s.react asError (.value (some chunk))).onto [] trace) := by
  obtain ⟨-, hrests⟩ := hreads.value hr
  have hpush : s.destination.push (some chunk) =
      { state :=
          { s.destination with
            pending := s.destination.pending ++ [chunk]
            pendingLength := s.destination.pendingLength + streamChunkLength s.destination.readableObjectMode chunk }
        seen := [.pushed chunk, .readable]
        frames := [.pushed] } := by
    simp [push, hlive, hopen]
  obtain ⟨hinv, hnode⟩ := @inv_passing V ε asError { s with pump := .passing, passed := s.passed ++ [some chunk] } []
    (s.destination.push (some chunk)) trace rfl hrests rfl rfl (by rw [hpush]; exact hopen) (by rw [hpush]; exact (by simp))
    (by rw [hpush]; exact .of_frame mem_cons_self rfl)
    (by rw [hpush, map_append, h.passed]; rfl) h.quiet
  refine follows_step hinv (m := .call (.push (some chunk))) ?_ ?_ (by rintro _ ⟨⟩)
  · intro hend
    cases hopen.symm.trans hend
  · rw [show (s.react asError (.value (some chunk))) =
      ({ s with pump := .passing, passed := s.passed ++ [some chunk] } : FromWeb V ε).passing (s.destination.push (some chunk)) from rfl, hnode]
    rfl

theorem follows_done
    (hr : s.source.reads[i]? = some (some .done)) (hopen : s.destination.endPending = false) :
    Follows toString asError ⟨s, [], trace⟩ [.call .tick] ((s.react asError .done).onto [] trace) := by
  obtain ⟨-, hrests, houtcome, hqueue⟩ := hreads.outcome hr nofun
  have hstate : s.source.state = .closed := by
    cases hs : s.source.state with
    | closed => rfl
    | readable | errored => cases (hs ▸ houtcome)
  have hidle : s.destination.paused = true ∨ s.destination.pending = [] := by
    cases hp : s.destination.paused with
    | true => exact .inl rfl
    | false =>
      obtain he | ⟨f, hf, -⟩ := h.drained hp
      · exact .inr he
      · cases hf
  have hinv : Inv asError ((s.react asError .done).onto [] trace) := by
    obtain ⟨hd, hpush⟩ | ⟨-, hpush⟩ := push_none hopen
    · have hover : Over (({ s with pump := .ended } : FromWeb V ε).through (s.destination.push none)).state [] .closed :=
        ⟨hrests, rfl, rfl, hstate, hqueue⟩
      refine inv_through (.ended rfl (hpush ▸ hover) (.inl ?_)) ?_ ?_ h.passed h.quiet
      · rw [hpush]; exact hd
      · rw [hpush]; exact h.drained
      · rw [hpush]; rfl
    · refine inv_through ?_ ?_ ?_ h.passed h.quiet
      · rw [hpush]; exact .ended rfl ⟨hrests, rfl, rfl, hstate, hqueue⟩ (.inr rfl)
      · rw [hpush]; exact Readable.Drained.push (show s.destination.Drained [] from h.drained)
      · rw [hpush]; rfl
  refine follows_step hinv (m := .call (.push none)) (.inr (hidle.imp_right .inl)) ?_ (by rintro _ ⟨⟩)
  rw [show s.react asError .done = ({ s with pump := .ended } : FromWeb V ε).through (s.destination.push none) from rfl, node_through]
  rfl

theorem follows_rejected {reason : ε} (hr : s.source.reads[i]? = some (some (.rejected reason))) (hsome : (asError reason).isSome = true) :
    Follows toString asError ⟨s, [], trace⟩ [.call .tick] ((s.react asError (.rejected reason)).onto [] trace) := by
  obtain ⟨-, hrests, houtcome, hqueue⟩ := hreads.outcome hr nofun
  have hstate : s.source.state = .errored reason := by
    cases hs : s.source.state with
    | readable | closed => cases (hs ▸ houtcome)
    | errored e => rw [hs] at houtcome; cases houtcome; rfl
  have hsteady := steady_destroy (r := s.destination) (asError reason) .nothing
  have hinv : Inv asError ((s.react asError (.rejected reason)).onto [] trace) := by
    refine inv_through ?_ (hsteady.flow h.drained) hsteady.pushes h.passed h.quiet
    refine Pumps.failed rfl ⟨hrests, sourceFrames_readable _ [], nexts_readable _ [], hstate, hqueue⟩ (destroy_destroyed _ _)
      (fun hlive => ?_) hsome
    show (s.destination.destroy (asError reason) .nothing).state.errored = asError reason
    unfold destroy; rw [if_neg (by simp [show s.destination.destroyed = false from hlive])]
  refine follows_step hinv (m := .call (.destroy (asError reason))) trivial ?_ (by rintro _ ⟨⟩)
  rw [show s.react asError (.rejected reason) = ({ s with pump := .failed reason s.destination.destroyed } : FromWeb V ε).through
    (s.destination.destroy (asError reason) .nothing) from rfl, node_through]
  rfl

end

end

theorem follows_call {k : Call V ε} {b : Result V ε} (h : Inv asError ⟨s, stack, trace⟩)
    (hP : Proper asError ⟨s, stack, trace⟩ (.call k)) (ht : (program toString asError).task k = true → stack = [])
    (hb : s.call toString asError k = some b) : Follows toString asError ⟨s, stack, trace⟩ [.call k] (b.onto stack trace) := by
  cases k with
  | readable k => obtain ⟨b', hb', rfl⟩ := map_eq_some_iff.1 hb; exact follows_readable h hP ht hb'
  | enqueue chunk =>
    cases hb
    obtain ⟨hinv, hnode⟩ := h.control (s.source.enqueueFromController chunk).state
      ((s.source.enqueueFromController chunk).seen.map fun _ => .notReadable) (fun h => h.enqueue chunk) (fun h => h.enqueue chunk)
      (ReadableStream.enqueueFromController_over chunk) (fun e he => by simpa using (List.mem_map.1 he).choose_spec.2.symm)
    exact follows_still hinv hnode nofun
  | close =>
    cases hb
    obtain ⟨hinv, hnode⟩ := h.control s.source.closeFromController [] (fun h => h.close) (fun h => h.close)
      ReadableStream.closeFromController_over nofun
    exact follows_still hinv hnode nofun
  | error reason =>
    cases hb
    obtain ⟨hinv, hnode⟩ := h.control (s.source.errorFromController reason) [] (fun h => h.error reason) (fun h => h.error reason)
      (ReadableStream.errorFromController_over reason) nofun
    exact follows_still hinv hnode nofun
  | tick =>
    obtain rfl := ht rfl
    obtain ⟨result, hset, rfl⟩ := map_eq_some_iff.1 (show s.settled.map (s.react asError) = some b from hb)
    rw [Proper, show (⟨s, [], trace⟩ : Config (FromWeb V ε) (Frame V) (Event V)).state.settled = some result from hset] at hP
    have hset' := hset
    unfold settled at hset'
    cases h.pumps with
    | @reading i hp hreads _ hopen =>
      rw [hp] at hset'
      have hr : s.source.reads[i]? = some (some result) := join_eq_some_iff.1 hset'
      cases result with
      | value chunk =>
        obtain ⟨chunk, rfl⟩ := isSome_iff_exists.1 hP.1; exact follows_value h hreads hr hopen hP.2
      | done => exact follows_done h hreads hr hopen
      | rejected reason => exact follows_rejected h hreads hr hP
    | passing hp | ended hp | failed hp =>
      rw [hp] at hset'
      cases hset'

theorem follows_ret {f : Frame V} {fs : List (Frame V)} (h : Inv asError ⟨s, f :: fs, trace⟩)
    (hP : Proper asError ⟨s, f :: fs, trace⟩ .ret) :
    Follows toString asError ⟨s, f :: fs, trace⟩ [.ret] ((s.goOn toString f).onto fs trace) := by
  cases f with
  | readable f =>
    have hsteady : Readable.SteadyOn s.destination f (s.destination.goOn toString f) := steady_goOn f
    have hpumps : Pumps asError s fs := h.pumps.congr rfl rfl
    have hinv : Inv asError ((s.through (s.destination.goOn toString f)).onto fs trace) :=
      inv_through (hpumps.through hsteady.endPending (goOn_keeps f).destroyed hsteady.errored) (hsteady.flow h.drained)
        hsteady.pushes h.passed h.quiet
    refine follows_step hinv (m := .ret) trivial ?_ nofun
    rw [show s.goOn toString (.readable f) = s.through (s.destination.goOn toString f) from rfl, node_through]
    rfl
  | next f =>
    have hsteady : Readable.SteadyOn s.destination f (s.destination.goOn toString f) := steady_goOn f
    cases h.pumps with
    | passing hp hrests hs hn hopen =>
      have hnone : nexts fs = [] := length_eq_zero_iff.1 (Nat.succ.inj hn)
      obtain ⟨hinv, hnode⟩ := @inv_passing V ε asError s fs (s.destination.goOn toString f) trace hp hrests hs hnone
        (hsteady.endPending.trans hopen) (fun hframes => (destroyed_of_returns f hframes).trans hP) (hsteady.flow h.drained)
        (by rw [hsteady.pushes, append_nil]; exact h.passed) h.quiet
      refine follows_step hinv (m := .ret) trivial ?_ nofun
      rw [show s.goOn toString (.next f) = s.passing (s.destination.goOn toString f) from rfl, hnode]
      rfl
    | reading _ _ hn => cases hn
    | ended _ hover | failed _ hover => cases hover.nexts
  | source g =>
    obtain ⟨j⟩ := g
    cases h.pumps with
    | @reading i hp hreads hn hopen =>
      have hframes : ReadableStream.Frame.pulling j :: sourceFrames fs = [.pulling i] := by
        obtain ⟨taken, hone, -⟩ := hreads
        generalize hf : sourceFrames (Frame.source (.pulling j) :: fs) = frames at hone
        have hcons : ReadableStream.Frame.pulling j :: sourceFrames fs = frames := hf
        cases hone with
        | pulling => exact hcons
        | waiting | value | ended => cases hcons
      obtain ⟨hij, hrest⟩ := List.cons.inj hframes
      cases hij
      have hreads' : s.source.Reads j [.pulling j] s.passed := by rw [← hframes]; exact hreads
      have hinv : Inv asError ((⟨{ s with source := s.source.pulled j }, [], []⟩ : Result V ε).onto fs trace) := by
        refine ⟨.reading hp ?_ hn hopen, h.drained, ?_, ?_⟩
        · show (s.source.pulled j).Reads j (sourceFrames fs) s.passed; rw [hrest]; exact hreads'.pulled
        · rw [Block.onto_trace, append_nil]; exact h.passed
        · rw [Block.onto_trace, append_nil]; exact h.quiet
      refine follows_still hinv ?_ nofun
      show (⟨s.destination, nodeFrames fs, nodeEvents (trace ++ [])⟩ : Config (Readable V) (Stream.Frame V) (Stream.Event V)) = _
      rw [append_nil]; rfl
    | passing _ _ hs => cases hs
    | ended _ hover | failed _ hover => cases hover.frames

theorem follows_run {ls : List (Move (Call V ε))}
    (h : Run (program toString asError).step (Proper asError) c ls c') (hI : Inv asError c) : Follows toString asError c ls c' := by
  induction h with
  | nil c => exact ⟨hI, [], .nil _, nofun⟩
  | @cons c c₁ c₂ l ls hP hst _ ih =>
    have hfirst : Follows toString asError c [l] c₁ := by
      cases l with
      | call k => obtain ⟨ht, b, hb, rfl⟩ := Reentrant.step_call hst; exact follows_call hI hP ht hb
      | ret =>
        obtain ⟨f, fs, hs, rfl⟩ := Reentrant.step_ret hst
        obtain ⟨s, stack, trace⟩ := c
        obtain rfl : stack = f :: fs := hs; exact follows_ret hI hP
    obtain ⟨hI₁, ls₁, hrun₁, hcheck₁⟩ := hfirst
    obtain ⟨hI₂, ls₂, hrun₂, hcheck₂⟩ := ih hI₁
    refine ⟨hI₂, ls₁ ++ ls₂, hrun₁.append hrun₂, fun side hin => ?_⟩
    obtain rfl | hin := mem_cons.1 hin
    · exact mem_append_left _ (hcheck₁ side (mem_singleton_self _))
    · exact mem_append_right _ (hcheck₂ side hin)

end FromWeb

/-! ## What is delivered -/

/-- Events of a stream whose chunks go out as they came in: no encoding is set, nothing is put back, and no `read` has a size. -/
def Event.whole : Event V → Bool
  | .unshifted _ | .encodingSet _ => false
  | .data (some size) _ _ => size = 0
  | _ => true

theorem emittedChunk_none (toString : BufferEncoding → Bytes → List UInt16) (chunk : Chunk V) : emittedChunk toString none chunk = chunk := by
  cases chunk <;> rfl

theorem Queue.Next.whole {toString : BufferEncoding → Bytes → List UInt16} {q q' : Queue V} {e : Event V} (h : Queue.Next toString q e q')
    (he : e.whole = true) (hq : q.encoding = none) :
    q'.encoding = none ∧ q'.delivered = q.delivered ++ dataOf [e] ∧ q'.order = q.order ++ pushes [e] := by
  cases h with
  | unshifted | encodingSet => cases he
  | pushed hopen => exact ⟨hq, (append_nil _).symm, (append_assoc _ _ _).symm⟩
  | @data first rest hfirst =>
    rw [hq, emittedChunk_none]
    cases hfirst with
    | flowing hw => exact ⟨rfl, rfl, by simp [Queue.order, hw, pushes]⟩
  | @dataRead size first rest hfirst =>
    obtain rfl : size = 0 := of_decide_eq_true he
    rw [hq, emittedChunk_none]
    cases hfirst with
    | whole hw => exact ⟨rfl, rfl, by simp [Queue.order, hw, pushes]⟩
    | cut hw hcut => cases (cutChunk_zero _ _).symm.trans hcut
  | _ => exact ⟨hq, (append_nil _).symm, (append_nil _).symm⟩

theorem Queue.Accepts.whole {toString : BufferEncoding → Bytes → List UInt16} {q q' : Queue V} {es : List (Event V)}
    (h : Queue.Accepts toString q es q') (hq : q.encoding = none) (hes : ∀ e ∈ es, e.whole = true) :
    q'.delivered = q.delivered ++ dataOf es ∧ q'.order = q.order ++ pushes es := by
  induction h with
  | nil q => exact ⟨(append_nil _).symm, (append_nil _).symm⟩
  | @cons q q₁ q₂ e es hnext _ ih =>
    obtain ⟨hq₁, hdelivered, horder⟩ := hnext.whole (hes e mem_cons_self) hq
    obtain ⟨hdelivered₂, horder₂⟩ := ih hq₁ (fun e' he => hes e' (mem_cons_of_mem _ he))
    rw [← singleton_append, ToWeb.dataOf_append, pushes_append, hdelivered₂, horder₂, hdelivered, horder, append_assoc,
      append_assoc]
    exact ⟨rfl, rfl⟩

namespace FromWeb

/-- **`fromWeb` delivers what the web stream enqueued**, in order; it pushes the end when the web stream is closed, destroys the `Readable`
with the error of a web stream that failed, stops for nothing else, and does not read once the `Readable` is destroyed. -/
structure Fed (toString : BufferEncoding → Bytes → List UInt16) (asError : ε → Option StreamError) (objectMode : Bool)
    (c : Config (FromWeb V ε) (Frame V) (Event V)) : Prop where
  inOrder : (pushes (nodeEvents c.trace)).map some <+: c.state.source.enqueued
  exact : Readable.Exact toString objectMode none (node c)
  plain : (∀ e ∈ nodeEvents c.trace, e.whole = true) →
    dataOf (nodeEvents c.trace) ++ c.state.destination.pending = pushes (nodeEvents c.trace)
  ended : c.state.pump = .ended → c.state.source.state = .closed ∧ (pushes (nodeEvents c.trace)).map some = c.state.source.enqueued ∧
    (c.state.destination.destroyed = true ∨ c.state.destination.endPending = true)
  failed : ∀ reason destroyed, c.state.pump = .failed reason destroyed → c.state.source.state = .errored reason ∧
    (pushes (nodeEvents c.trace)).map some = c.state.source.enqueued ∧ c.state.destination.destroyed = true ∧
    (destroyed = false → ∃ error, asError reason = some error ∧ c.state.destination.errored = some error)
  idle : c.stack = [] → c.state.settled = none → c.state.pump = .ended ∨ (∃ reason destroyed, c.state.pump = .failed reason destroyed) ∨
    c.state.source.state = .readable ∧ (pushes (nodeEvents c.trace)).map some = c.state.source.enqueued
  quiet : .read true ∉ c.trace

variable {toString : BufferEncoding → Bytes → List UInt16} {asError : ε → Option StreamError} {s : FromWeb V ε} {stack : List (Frame V)}

theorem inv_create {objectMode : Bool} {highWaterMark : Nat} {source : ReadableStream (Option (Chunk V)) ε} (hw : source.waiting = none)
    (he : source.enqueued = source.queue) : Inv asError (create objectMode highWaterMark source) ∧
      node (create objectMode highWaterMark source) = Readable.create objectMode highWaterMark true none :=
  inv_next ⟨hw, he⟩ rfl rfl rfl rfl nofun rfl nofun

theorem Inv.fed {c : Config (FromWeb V ε) (Frame V) (Event V)} {objectMode : Bool} (h : Inv asError c)
    (ha : Readable.Accepted toString { objectMode, encoding := none } (node c)) : Fed toString asError objectMode c := by
  have hpassed := h.passed
  have hover : ∀ {state}, Over c.state c.stack state → (pushes (nodeEvents c.trace)).map some = c.state.source.enqueued := by
    intro state hover; rw [hover.rests.enqueued, hover.queue, append_nil]; exact hpassed
  refine ⟨?_, exact_of_accepted ha, fun hwhole => ?_, fun hp => ?_, fun reason destroyed hp => ?_, fun hstack hset => ?_, h.quiet⟩
  · rw [hpassed]
    cases h.pumps with
    | reading _ hreads => exact hreads.in_order
    | passing _ hrests => exact hrests.in_order
    | ended _ hover | failed _ hover => exact hover.rests.in_order
  · obtain ⟨q, haccepts, hmatches⟩ := ha
    obtain ⟨hdelivered, horder⟩ := haccepts.whole rfl hwhole
    have hd : q.delivered = dataOf (nodeEvents c.trace) := hdelivered
    have ho : q.delivered ++ q.waiting = pushes (nodeEvents c.trace) := horder
    rwa [hd, hmatches.waiting] at ho
  · cases h.pumps with
    | ended _ ho hend => exact ⟨ho.state, hover ho, hend⟩
    | reading hp' | passing hp' | failed hp' => cases hp.symm.trans hp'
  · cases h.pumps with
    | failed hp' ho hdestroyed herror hsome =>
      cases hp.symm.trans hp'
      obtain ⟨error, herr⟩ := isSome_iff_exists.1 hsome
      exact ⟨ho.state, hover ho, hdestroyed, fun hlive => ⟨error, herr, (herror hlive).trans herr⟩⟩
    | reading hp' | passing hp' | ended hp' => cases hp.symm.trans hp'
  · cases h.pumps with
    | ended hp => exact .inl hp
    | failed hp => exact .inr (.inl ⟨_, _, hp⟩)
    | passing _ _ _ hone => rw [hstack] at hone; cases hone
    | reading hp hreads =>
      unfold settled at hset
      rw [hp] at hset
      obtain hframes | ⟨hstate, henqueued⟩ := hreads.pending fun result hr => absurd ((join_eq_some_iff.2 hr).symm.trans hset) (by simp)
      · rw [hstack] at hframes; exact absurd rfl hframes
      · exact .inr (.inr ⟨hstate, hpassed.trans henqueued.symm⟩)

end FromWeb

/-! ## Both bridges -/

/-- Content and termination are preserved, in the runs whose steps all meet the conditions: `toWeb` yields what is emitted; a cancelled web
stream has destroyed its `Readable`, and a `push` into that returns; `fromWeb` delivers what the web stream enqueued, and once its end is
pushed and due, 'end' has come, or the `Readable` is destroyed, after the next microtask checkpoint. -/
def Bridges (V : Type)
    (P : (BufferEncoding → Bytes → List UInt16) → Config (ToWeb V) (ToWeb.Frame V) (ToWeb.Event V) → Move (ToWeb.Call V) → Prop)
    (Q : ∀ {ε : Type}, (ε → Option StreamError) → Config (FromWeb V ε) (FromWeb.Frame V) (FromWeb.Event V) →
      Move (FromWeb.Call V ε) → Prop) : Prop :=
  ∀ toString : BufferEncoding → Bytes → List UInt16,
    (∀ (r : Readable V) (ls : List (Move (ToWeb.Call V))) (c : Config (ToWeb V) (ToWeb.Frame V) (ToWeb.Event V)),
      Run (ToWeb.program toString).step (P toString) { state := { readable := r } } ls c → c.state.attached = true →
      c.state.cancelled = false → c.state.Bridged) ∧
    (∀ (r : Readable V) (ls : List (Move (ToWeb.Call V))) (c : Config (ToWeb V) (ToWeb.Frame V) (ToWeb.Event V)),
      Run (ToWeb.program toString).step (fun _ _ => True) { state := { readable := r } } ls c → c.state.cancelled = true →
      c.state.readable.destroyed = true ∧ ∀ chunk, ∃ b, c.state.call toString (.readable (.push chunk)) = some b ∧
        b.seen = [.readable (.pushReturned false)] ∧ b.frames = []) ∧
    ∀ (ε : Type) (asError : ε → Option StreamError) (objectMode : Bool) (highWaterMark : Nat)
      (source : ReadableStream (Option (Chunk V)) ε) (ls : List (Move (FromWeb.Call V ε)))
      (c : Config (FromWeb V ε) (FromWeb.Frame V) (FromWeb.Event V)), source.waiting = none → source.enqueued = source.queue →
      Run (FromWeb.program toString asError).step (Q asError) (FromWeb.create objectMode highWaterMark source) ls c →
      FromWeb.Fed toString asError objectMode c ∧
        (Readable.EndDue (FromWeb.node c) → ∀ (ls' : List (Move (FromWeb.Call V ε)))
          (c' : Config (FromWeb V ε) (FromWeb.Frame V) (FromWeb.Event V)) (side : Bool),
          Run (FromWeb.program toString asError).step (Q asError) c ls' c' → .call (.readable (.checkpoint side)) ∈ ls' →
          .ended ∈ FromWeb.nodeEvents c'.trace ∨ c'.state.destination.destroyed = true)

/-- **The bridges preserve content and termination**, in the runs that the web stream can follow, and those in which the `Readable` is not
destroyed while chunks come. -/
theorem readable_bridges (V : Type) : Bridges V ToWeb.Followed FromWeb.Proper := by
  intro toString
  refine ⟨fun r ls c h ha hc => ?_, fun r ls c h hc => ?_, fun ε asError objectMode highWaterMark source ls c hw he h => ?_⟩
  · exact (ToWeb.sound_run h hc).bridged ha
  · have hd := ToWeb.cancelled_destroyed h hc; exact ⟨hd, fun chunk => ToWeb.push_destroyed chunk hd⟩
  · obtain ⟨hstart, hnode⟩ := @inv_create V ε asError objectMode highWaterMark source hw he
    obtain ⟨hI, ls₁, hrun₁, -⟩ := follows_run h hstart
    rw [hnode] at hrun₁
    refine ⟨hI.fed (accepted hrun₁), fun hdue ls' c' side h' hin => ?_⟩
    obtain ⟨-, ls₂, hrun₂, hcheck⟩ := follows_run h' hI
    exact (delivers_exactly V toString objectMode true highWaterMark none ls₁ (node c) hrun₁).2 hdue ls₂ (node c')
      side hrun₂ (hcheck side hin)

/-- A chunk and the end go over either bridge, and a third web stream is cancelled. -/
theorem readable_bridges_once :
    (∃ c : Config (ToWeb Nat) (ToWeb.Frame Nat) (ToWeb.Event Nat), c.state.web.reads = [some (.value (.other 1)), some .done] ∧
      c.state.Bridged) ∧
    (∃ c : Config (ToWeb Nat) (ToWeb.Frame Nat) (ToWeb.Event Nat), c.state.cancelled = true ∧ c.state.readable.destroyed = true) ∧
    ∃ c c' : Config (FromWeb Nat Nat) (FromWeb.Frame Nat) (FromWeb.Event Nat),
      dataOf (FromWeb.nodeEvents c.trace) = [.other 1] ∧ FromWeb.Fed (fun _ _ => []) (fun i => some (.given i)) true c ∧
        (.ended ∈ FromWeb.nodeEvents c'.trace ∨ c'.state.destination.destroyed = true) := by
  obtain ⟨hto, hcancel, hfrom⟩ := readable_bridges Nat (fun _ _ => [])
  have htoEnd : (runs (fun c l => if decide (ToWeb.Followed (fun _ _ => []) c l) then (ToWeb.program fun _ _ => []).step c l else none)
      { state := { readable := (create true 16 true none).state } }
      [.call .toWeb, .ret, .ret, .call .read, .call (.readable (.push (some (.other 1)))), .ret, .ret, .call (.readable (.push none)), .ret,
        .call (.readable (.checkpoint true)), .ret, .ret, .call .read]).any
      (fun c => decide (c.state.web.reads = [some (.value (.other 1)), some .done] ∧ c.state.attached = true ∧ c.state.cancelled = false)) =
      true := by
    decide +kernel
  have hcancelEnd : (runs (ToWeb.program fun _ _ => []).step
      ({ state := { readable := (create true 16 true none).state } } : Config (ToWeb Nat) (ToWeb.Frame Nat) (ToWeb.Event Nat))
      [.call .toWeb, .ret, .ret, .call (.cancel none)]).any (fun c => decide (c.state.cancelled = true)) = true := by
    decide +kernel
  have hfromEnd : (runs (fun c l => if decide (FromWeb.Proper (fun i => some (.given i)) c l) then
        (program (fun _ _ => []) fun i => some (.given i)).step c l else none)
      (create true 16 ({ pull := false } : ReadableStream (Option (Chunk Nat)) Nat))
      [.call (.enqueue (some (.other 1))), .call .tick, .ret, .call .close, .call .tick, .ret, .call (.readable .onData), .ret, .ret]).any
      (fun c => decide (dataOf (nodeEvents c.trace) = [.other 1] ∧ c.state.destination.endPending = true ∧ c.stack = [] ∧
        c.state.destination.paused = false) &&
        (runs (fun c l => if decide (FromWeb.Proper (fun i => some (.given i)) c l) then
          (program (fun _ _ => []) fun i => some (.given i)).step c l else none) c [.call (.readable (.checkpoint true))]).isSome) =
      true := by
    decide +kernel
  obtain ⟨c₁, hruns₁, hc₁⟩ := (Option.any_eq_true _ _).1 htoEnd
  obtain ⟨c₂, hruns₂, hc₂⟩ := (Option.any_eq_true _ _).1 hcancelEnd
  obtain ⟨c₃, hruns₃, hc₃⟩ := (Option.any_eq_true _ _).1 hfromEnd
  rw [Bool.and_eq_true] at hc₃
  obtain ⟨c₄, hruns₄⟩ := isSome_iff_exists.1 hc₃.2
  obtain ⟨hreads, hattached, hkept⟩ := of_decide_eq_true hc₁
  obtain ⟨hdata, hend, hstack, hflows⟩ := of_decide_eq_true hc₃.1
  have hrun₁ := (Run.of_guarded _ hruns₁).mono (fun _ _ => of_decide_eq_true)
  have hrun₃ := (Run.of_guarded _ hruns₃).mono (fun _ _ => of_decide_eq_true)
  have hrun₄ := (Run.of_guarded _ hruns₄).mono (fun _ _ => of_decide_eq_true)
  obtain ⟨hfed, hends⟩ := hfrom Nat (fun i => some (.given i)) true 16 { pull := false } _ c₃ rfl rfl hrun₃
  refine ⟨⟨c₁, hreads, hto _ _ c₁ hrun₁ hattached hkept⟩, ⟨c₂, of_decide_eq_true hc₂, ?_⟩, c₃, c₄, hdata, hfed, ?_⟩
  · exact (hcancel _ _ c₂ (Run.of_runs hruns₂) (of_decide_eq_true hc₂)).1
  · have hnode : (node c₃).stack = [] := by
      show nodeFrames c₃.stack = []; rw [hstack]; rfl
    exact hends ⟨hend, .inl ⟨hnode, hflows⟩⟩ _ c₄ true hrun₄ (mem_singleton_self _)

/-- A `Readable` that is destroyed without an error leaves a `read` of its web stream pending, and the pump reads on for one that is
destroyed. -/
theorem destroyed_unnoticed : (∃ c : Config (ToWeb Nat) (ToWeb.Frame Nat) (ToWeb.Event Nat),
      Run (ToWeb.program fun _ _ => []).step (fun _ _ => True) { state := { readable := (Readable.create true 16 true none).state } }
        [.call .toWeb, .ret, .ret, .call .read, .call (.readable (.destroy none)), .ret, .call (.readable (.destroyed none)), .ret] c ∧
      c.stack = [] ∧ c.state.readable.closed = true ∧ c.state.web.state = .readable ∧ c.state.web.reads = [none]) ∧
    ∃ c : Config (FromWeb Nat Nat) (FromWeb.Frame Nat) (FromWeb.Event Nat),
      Run (FromWeb.program (fun _ _ => []) fun i => some (.given i)).step (fun _ _ => True) (FromWeb.create true 16 { pull := false })
        [.call (.readable (.destroy none)), .ret, .call (.readable (.destroyed none)), .ret, .call (.enqueue (some (.other 1))), .call .tick] c ∧
      .read true ∈ c.trace := by
  have htoEnd : (runs (ToWeb.program fun _ _ => []).step
      ({ state := { readable := (create true 16 true none).state } } : Config (ToWeb Nat) (ToWeb.Frame Nat) (ToWeb.Event Nat))
      [.call .toWeb, .ret, .ret, .call .read, .call (.readable (.destroy none)), .ret, .call (.readable (.destroyed none)), .ret]).any
      (fun c => decide (c.stack = [] ∧ c.state.readable.closed = true ∧ c.state.web.state = .readable ∧ c.state.web.reads = [none])) =
      true := by
    decide +kernel
  have hfromEnd : (runs (program (fun _ _ => []) fun i => some (.given i)).step
      (create true 16 ({ pull := false } : ReadableStream (Option (Chunk Nat)) Nat))
      [.call (.readable (.destroy none)), .ret, .call (.readable (.destroyed none)), .ret, .call (.enqueue (some (.other 1))),
        .call .tick]).any (fun c => decide (.read true ∈ c.trace)) = true := by
    decide +kernel
  obtain ⟨c₁, hruns₁, hc₁⟩ := (Option.any_eq_true _ _).1 htoEnd
  obtain ⟨c₂, hruns₂, hc₂⟩ := (Option.any_eq_true _ _).1 hfromEnd
  exact ⟨⟨c₁, Run.of_runs hruns₁, of_decide_eq_true hc₁⟩, c₂, Run.of_runs hruns₂, of_decide_eq_true hc₂⟩

end NodeCompat.Stream
