import NodeCompat.Web.Pump
import NodeCompat.Web.WritableStream

/-!
# `pipeTo`

The pump of `pipeTo` waits for one promise at a time: that of a `read`, then that of the `write` of its chunk, and at the end
that of `close`. It has no handler for a rejection, so neither does the destination hear of an error of the source nor the
source of an error of the destination: the pump just stops, and both locks stay.

In the runs in which the source is not errored and the destination not ended by anyone else, and the sink's promises are
fulfilled, the chunks are written in order, each when the `write` before is settled, and then the destination is closed and
both locks are released (`pipe_writes`).
-/

namespace NodeCompat.Web

open List WritableStream ReadableStream

/-- The promise that the pump of `pipeTo` waits for. -/
inductive Pump (ε : Type)
  | reading (i : Nat)
  | writing (j : Nat)
  | closing (k : Nat)
  | finished
  -- the promise of `pipeTo` is rejected
  | failed (result : Settled ε)
  deriving DecidableEq

structure PipeTo (α ε : Type) where
  source : Cancellable α ε
  -- the reader that `pipeTo` has got
  reader : Nat
  destination : WritableStream α ε
  -- `locked` of the destination
  locked : Bool
  pump : Pump ε

namespace PipeTo

inductive Frame
  | source (f : ReadableStream.Frame)
  | destination (f : WritableStream.Frame)
  deriving DecidableEq

inductive Event (α ε : Type)
  | source (e : Cancellable.Event α ε)
  | destination (e : WritableStream.Event α ε)

inductive Call (α ε : Type)
  -- the controller of the source, and its `cancel`, which does not ask for the lock
  | enqueue (chunk : α)
  | close
  | error (reason : ε)
  | cancel (reason : Option ε)
  -- the destination, less its writer, which only the pump has
  | sink (k : WritableStream.Call α ε)
  -- the reaction of the pump to its promise; `async` when the sink's function that it calls returns a promise
  | tick (async : Bool)

variable {α ε : Type} (s : PipeTo α ε)

abbrev Result (α ε : Type) := Block (PipeTo α ε) Frame (Event α ε)

abbrev Conf (α ε : Type) := Config (PipeTo α ε) Frame (Event α ε)

def ofSource (b : Cancellable.Result α ε) : Result α ε :=
  { state := { s with source := b.state }, seen := b.seen.map .source, frames := b.frames.map .source }

def ofDestination (b : WritableStream.Result α ε) : Result α ε :=
  { state := { s with destination := b.state }, seen := b.seen.map .destination, frames := b.frames.map .destination }

/-- `pump`: `reader.read()` -/
def read : Result α ε :=
  let s := { s with pump := .reading s.source.stream.reads.length }
  match s.source.readers[s.reader]? with
  | some r => s.ofSource (s.source.read r)
  | none => { state := s }

/-- `writer.write(result.value)` -/
def write (chunk : α) (async : Bool) : Result α ε :=
  let s := { s with pump := .writing s.destination.writes.length }
  s.ofDestination (s.destination.writeInternal chunk async)

/-- `reader.releaseLock()` -/
def releaseReader : PipeTo α ε :=
  match s.source.readers[s.reader]? with
  | some r => if r.attached then { s with source := s.source.releaseLock s.reader r } else s
  | none => s

/-- `reader.releaseLock()` and `writer.close()` -/
def finish (async : Bool) : Result α ε :=
  let s := { s.releaseReader with pump := .closing s.destination.closes.length }
  s.ofDestination (s.destination.closeInternal async)

/-- How the `j`-th `write` of a stream is settled. -/
def resultOf (d : WritableStream α ε) (j : Nat) : Option (Settled ε) := d.writes[j]?.bind (·.result)

def fail (result : Settled ε) : Result α ε := { state := { s with pump := .failed result } }

/-- The pump, when the promise it waits for is settled. -/
def tick (async : Bool) : Option (Result α ε) :=
  match s.pump with
  | .reading i =>
    match s.source.stream.reads[i]? with
    | some (some (.value chunk)) => some (s.write chunk async)
    | some (some .done) => some (s.finish async)
    | some (some (.rejected reason)) => some (s.fail (.rejected reason))
    | _ => none
  | .writing j =>
    match resultOf s.destination j with
    | some .fulfilled => some s.read
    | some result => some (s.fail result)
    | none => none
  | .closing k =>
    match s.destination.closes[k]? with
    -- `writer.releaseLock()`
    | some (some .fulfilled) => some { state := { s with locked := false, pump := .finished } }
    | some (some result) => some (s.fail result)
    | _ => none
  | .finished | .failed _ => none

def call : Call α ε → Option (Result α ε)
  | .enqueue chunk => some (s.ofSource (s.source.enqueueFromController chunk))
  | .close => some (s.ofSource s.source.closeFromController)
  | .error reason => some (s.ofSource (s.source.errorFromController reason))
  | .cancel reason => some (s.ofSource (s.source.cancelStream reason))
  | .sink (.write _ _) => none
  | .sink k => (s.destination.call k).map s.ofDestination
  | .tick async => s.tick async

def program : Reentrant (PipeTo α ε) (Call α ε) Frame (Event α ε) where
  call := call
  resume s
    | .source f => s.ofSource (Cancellable.program.resume s.source f)
    | .destination f => s.ofDestination (s.destination.goOn f)
  task k := k matches .tick _

/-- `source.pipeTo(destination)`, with `locked` of the destination; `none` when it throws. -/
def start (source : Cancellable α ε) (destination : WritableStream α ε) (locked : Bool) : Option (Result α ε) :=
  if source.reader.isSome || locked then none
  else
    some (read
      { source := (source.acquire .reader).state
        reader := source.readers.length
        destination
        locked := true
        pump := .reading source.stream.reads.length })

/-! ## What `pipeTo` is for -/

/-- The chunks written since there were `n` writes. -/
def written (n : Nat) : List α := (s.destination.writes.map (·.chunk)).drop n

/-- No handler is running, and the pump has nothing to react to. -/
def Idle (c : Conf α ε) : Prop := c.stack = [] ∧ ∀ async, c.state.tick async = none

/-- The pump waits for a promise of the sink. -/
def AwaitsSink : Prop :=
  (∃ j, s.pump = .writing j ∧ s.destination.writePending j = true) ∨
  (∃ k, s.pump = .closing k ∧ s.destination.asyncClose = true ∧ s.destination.closes[k]? = some none)

/-- The pipe of a source of which `before` was taken into a destination with `n` writes. -/
structure Pipes (before : List α) (n : Nat) (c : Conf α ε) : Prop where
  -- in order and none left out
  order : before ++ c.state.written n <+: c.state.source.stream.enqueued
  -- each after the one before
  settled : ∀ j, n ≤ j → j + 1 < c.state.destination.writes.length → resultOf c.state.destination j = some .fulfilled
  -- the destination is closed when everything is written
  closed : c.state.destination.state ≠ .writable → c.state.source.stream.state = .closed ∧
    c.state.source.stream.enqueued = before ++ c.state.written n ∧
    ∀ j, n ≤ j → j < c.state.destination.writes.length → resultOf c.state.destination j = some .fulfilled
  -- and it gets so far, and the locks are released
  ended : Idle c → c.state.source.stream.state = .closed → c.state.AwaitsSink ∨
    c.state.pump = .finished ∧ c.state.destination.state = .closed ∧ c.state.source.reader = none ∧ c.state.locked = false
  aborted : Idle c → ∀ reason, c.state.source.stream.state = .errored reason → c.state.destination.state = .errored reason
  cancelled : Idle c → ∀ j reason, n ≤ j → resultOf c.state.destination j = some (.rejected reason) →
    c.state.source.stream.state ≠ .readable ∧
      (c.state.source.cancel = true → ∃ state, .source (.cancelled (some reason) state) ∈ c.trace)

/-- A `write` is not refused: the readable side of an identity transform takes the chunk. -/
structure Open (d : WritableStream α ε) : Prop where
  writable : d.state = .writable
  readable : ∀ flush, d.sink = .transformer false flush → d.readable.state = .readable

/-- The two streams when `pipeTo` is called: no `read` is left waiting in the source, of which the chunks `before` are gone,
and the destination can be written. -/
structure Ready (before : List α) (source : Cancellable α ε) (destination : WritableStream α ε) : Prop where
  rests : source.stream.Rests before
  sound : ∀ reason, source.stream.state ≠ .errored reason
  isOpen : Open destination

/-- The source is not errored, nor cancelled before it is read to its end; the sink's promises that the pump waits for are not
rejected; and nobody else closes, aborts or errors the destination, or the readable side of an identity transform. -/
def Proper (c : Conf α ε) : Move (Call α ε) → Prop
  | .call (.error _) => c.state.source.stream.state ≠ .readable
  | .call (.cancel _) => c.state.source.stream.state ≠ .readable ∧ c.state.source.stream.queue = []
  | .call (.sink (.settleWrite j (.error _))) => c.state.pump ≠ .writing j
  | .call (.sink (.settleClose k (.error _))) => c.state.pump ≠ .closing k
  | .call (.sink (.close _)) | .call (.sink (.abort _)) | .call (.sink (.controllerError _)) => False
  | .call (.sink (.error _)) | .call (.sink .terminate) => ∀ flush, c.state.destination.sink ≠ .transformer false flush
  | _ => True

/-! ## The destination -/

variable {s} {d d' : WritableStream α ε} {j k n : Nat} {fs : List WritableStream.Frame}

/-- The last `write`: in the sink, waiting for its promise, or done. -/
inductive OneWrite (d : WritableStream α ε) (j : Nat) : List WritableStream.Frame → Prop
  | calling {w async} : d.writes[j]? = some w → w.called = true → w.async = async →
      (w.result = none ∨ w.result = some .fulfilled) → OneWrite d j [.writing j async]
  | pending : d.writePending j = true → OneWrite d j []
  | fulfilled : resultOf d j = some .fulfilled → OneWrite d j []

/-- The `close` of the pump. -/
inductive OneClose (d : WritableStream α ε) (k : Nat) : List WritableStream.Frame → Prop
  | calling {async} : d.asyncClose = async → (d.closes[k]? = some none ∨ d.closes[k]? = some (some .fulfilled)) →
      OneClose d k [.closing k async]
  | pending : d.asyncClose = true → d.closes[k]? = some none → OneClose d k []
  | fulfilled : d.closes[k]? = some (some .fulfilled) → OneClose d k []

theorem OneWrite.congr (h : OneWrite d j fs) (hw : d'.writes = d.writes) : OneWrite d' j fs := by
  cases h with
  | calling h1 h2 h3 h4 => exact .calling (hw ▸ h1) h2 h3 h4
  | pending h1 => exact .pending (by rwa [writePending, hw])
  | fulfilled h1 => exact .fulfilled (by rwa [resultOf, hw])

theorem OneClose.congr (h : OneClose d k fs) (ha : d'.asyncClose = d.asyncClose) (hc : d'.closes = d.closes) : OneClose d' k fs := by
  cases h with
  | calling h1 h2 => exact .calling (ha.trans h1) (hc ▸ h2)
  | pending h1 h2 => exact .pending (ha.trans h1) (hc ▸ h2)
  | fulfilled h1 => exact .fulfilled (hc ▸ h1)

/-- What is written stays written. -/
structure Keeps (d d' : WritableStream α ε) : Prop where
  state : d'.state = d.state
  isOpen : Open d → Open d'
  chunks : d'.writes.map (·.chunk) = d.writes.map (·.chunk)
  fulfilled : ∀ j, resultOf d j = some .fulfilled → resultOf d' j = some .fulfilled

/-- What others may do to the destination while the pump waits for `pump`. -/
structure Benign (pump : Pump ε) (d d' : WritableStream α ε) : Prop extends Keeps d d' where
  oneWrite : ∀ j fs, pump = .writing j → OneWrite d j fs → OneWrite d' j fs
  oneClose : ∀ k fs, pump = .closing k → OneClose d k fs → OneClose d' k fs

theorem Benign.readable {r : ReadableStream α ε} {pump : Pump ε} (h : Open d → Open { d with readable := r }) :
    Benign pump d { d with readable := r } :=
  ⟨⟨rfl, h, rfl, fun _ hj => hj⟩, fun _ _ _ hw => hw.congr rfl, fun _ _ _ hc => hc.congr rfl rfl⟩

theorem map_modify_chunk (ws : List (WriteCall α ε)) (i : Nat) (r : Settled ε) :
    (ws.modify i (fun w => { w with result := some r })).map (·.chunk) = ws.map (·.chunk) := by
  induction ws generalizing i with
  | nil => cases i <;> rfl
  | cons w ws ih =>
    cases i with
    | zero => rfl
    | succ i => rw [modify_succ_cons, map_cons, ih]; rfl

theorem setWrite_same {w : WriteCall α ε} (r : Settled ε) (h : d.writes[j]? = some w) :
    (d.setWrite j r).writes[j]? = some { w with result := some r } := by
  simp [setWrite, h]

theorem setWrite_other {i : Nat} (r : Settled ε) (h : i ≠ j) : (d.setWrite i r).writes[j]? = d.writes[j]? := by
  simp [setWrite, h]

theorem writePending_iff : d.writePending j = true ↔
    ∃ w, d.writes[j]? = some w ∧ w.called = true ∧ w.async = true ∧ w.result = none := by
  unfold writePending
  cases d.writes[j]? with
  | none => simp
  | some w => simp [and_assoc]

theorem Benign.settleWrite {i : Nat} {result : Except ε Unit} {pump : Pump ε} (hp : d.writePending i = true)
    (hr : ∀ reason, result = .error reason → pump ≠ .writing i) :
    Benign pump d (d.setWrite i (WritableStream.settledOf result)) := by
  obtain ⟨w, hw, hcalled, hasync, hnone⟩ := writePending_iff.1 hp
  have hother : ∀ j, resultOf d j = some .fulfilled → i ≠ j := by
    rintro j hj rfl; rw [resultOf, hw] at hj; exact absurd (hnone.symm.trans hj) nofun
  refine ⟨⟨rfl, fun h => ⟨h.writable, h.readable⟩, map_modify_chunk _ _ _, fun j hj => ?_⟩, fun j fs hpump hone => ?_,
    fun _ _ _ hc => hc.congr rfl rfl⟩
  · rwa [resultOf, setWrite_other _ (hother j hj)]
  · by_cases hij : i = j
    · subst hij
      have hset : (d.setWrite i (settledOf result)).writes[i]? = some { w with result := some .fulfilled } := by
        rw [setWrite_same _ hw]
        cases result with
        | ok _ => rfl
        | error reason => exact absurd hpump (hr reason rfl)
      cases hone with
      | calling h1 h2 h3 _ => cases h1.symm.trans hw; exact .calling hset h2 h3 (.inr rfl)
      | pending => exact .fulfilled (by rw [resultOf, hset]; rfl)
      | fulfilled h1 => exact absurd rfl (hother i h1)
    · cases hone with
      | calling h1 h2 h3 h4 => exact .calling ((setWrite_other _ hij).trans h1) h2 h3 h4
      | pending h1 =>
        refine .pending ?_
        rw [writePending_iff, setWrite_other _ hij, ← writePending_iff]; exact h1
      | fulfilled h1 => exact .fulfilled (by rwa [resultOf, setWrite_other _ hij])

theorem Benign.settleClose {i : Nat} {result : Except ε Unit} {pump : Pump ε} (hp : d.closes[i]? = some none) (hr : ∀ reason, result = .error reason → pump ≠ .closing i) :
    Benign pump d (d.setClose i (WritableStream.settledOf result)) := by
  have hlt : i < d.closes.length := (List.getElem?_eq_some_iff.1 hp).1
  refine ⟨⟨rfl, fun h => ⟨h.writable, h.readable⟩, rfl, fun j hj => hj⟩, fun _ _ _ hw => hw.congr rfl, fun k fs hpump hone => ?_⟩
  by_cases hik : i = k
  · subst hik
    have hset : (d.setClose i (settledOf result)).closes[i]? = some (some .fulfilled) := by
      show (d.closes.set i _)[i]? = _
      rw [getElem?_set_self hlt]
      cases result with
      | ok _ => rfl
      | error reason => exact absurd hpump (hr reason rfl)
    cases hone with
    | calling h1 _ => exact .calling h1 (.inr hset)
    | pending | fulfilled => exact .fulfilled hset
  · have hset : (d.setClose i (settledOf result)).closes[k]? = d.closes[k]? := getElem?_set_ne hik
    cases hone with
    | calling h1 h2 => exact .calling h1 (by rwa [hset])
    | pending h1 h2 => exact .pending h1 (by rwa [hset])
    | fulfilled h1 => exact .fulfilled (by rwa [hset])

theorem sink_benign {c : Conf α ε} {k : WritableStream.Call α ε} {b : WritableStream.Result α ε}
    (hP : Proper c (.call (.sink k))) (hw : ∀ chunk async, k ≠ .write chunk async) (hb : c.state.destination.call k = some b) :
    b.frames = [] ∧ Benign c.state.pump c.state.destination b.state := by
  cases k with
  | write chunk async => exact absurd rfl (hw chunk async)
  | close async | abort reason | controllerError reason => exact hP.elim
  | settleWrite i result =>
    unfold WritableStream.call at hb
    dsimp only at hb
    split at hb
    · next hp =>
      cases hb
      refine ⟨rfl, .settleWrite hp ?_⟩
      rintro reason rfl; exact hP
    · cases hb
  | settleClose i result =>
    unfold WritableStream.call at hb
    dsimp only at hb
    split at hb
    · next hp =>
      cases hb
      obtain ⟨-, hp⟩ := Bool.and_eq_true_iff.1 hp
      have hnone : c.state.destination.closes[i]? = some none := by
        cases hi : c.state.destination.closes[i]? with
        | none => simp [hi] at hp
        | some result' => cases result' <;> simp_all
      refine ⟨rfl, .settleClose hnone ?_⟩
      rintro reason rfl; exact hP
    · cases hb
  | enqueue chunk =>
    unfold WritableStream.call at hb
    dsimp only at hb
    split at hb
    · cases hb
    · cases hb
      refine ⟨rfl, .readable (fun h => ⟨h.writable, fun flush hs => ?_⟩)⟩
      exact (enqueueFromController_state chunk).trans (h.readable flush hs)
  | error reason | terminate =>
    unfold WritableStream.call at hb
    dsimp only at hb
    split at hb
    · cases hb
    · cases hb; exact ⟨rfl, .readable (fun h => ⟨h.writable, fun flush hs => absurd hs (hP flush)⟩)⟩
  | read =>
    cases hb
    refine ⟨rfl, .readable (fun h => ⟨h.writable, fun flush hs => ?_⟩)⟩
    exact readInternal_state.trans (h.readable flush hs)

theorem OneWrite.goOn {async : Bool} (h : OneWrite d j [.writing j async]) :
    (d.goOn (.writing j async)).frames = [] ∧ OneWrite (d.goOn (.writing j async)).state j [] ∧
      Keeps d (d.goOn (.writing j async)).state := by
  cases h with
  | @calling w async h1 h2 h3 h4 =>
    cases async with
    | true =>
      refine ⟨rfl, ?_, ⟨rfl, id, rfl, fun _ hj => hj⟩⟩
      obtain h4 | h4 := h4
      · exact .pending (writePending_iff.2 ⟨w, h1, h2, h3, h4⟩)
      · refine .fulfilled ?_
        show resultOf d j = _; rw [resultOf, h1]; exact h4
    | false =>
      have hset := setWrite_same (r := Settled.fulfilled) h1
      refine ⟨rfl, .fulfilled ?_, ⟨rfl, fun h => ⟨h.writable, h.readable⟩, map_modify_chunk _ _ _, fun j' hj' => ?_⟩⟩
      · show resultOf (d.setWrite j .fulfilled) j = _; rw [resultOf, hset]; rfl
      · show resultOf (d.setWrite j .fulfilled) j' = _
        by_cases hjj : j = j'
        · subst hjj; rw [resultOf, hset]; rfl
        · rwa [resultOf, setWrite_other _ hjj]

theorem OneClose.goOn {async : Bool} (hs : d.state = .closed) (h : OneClose d k [.closing k async]) :
    (d.goOn (.closing k async)).frames = [] ∧ OneClose (d.goOn (.closing k async)).state k [] ∧
      Keeps d (d.goOn (.closing k async)).state := by
  have hopen : ∀ {d' : WritableStream α ε}, Open d → Open d' := fun h => nomatch hs.symm.trans h.writable
  cases h with
  | @calling async h1 h2 =>
    cases async with
    | true =>
      have hone : ∀ r : ReadableStream α ε, OneClose { d with readable := r } k [] := by
        intro r
        obtain h2 | h2 := h2
        · exact .pending h1 h2
        · exact .fulfilled h2
      unfold WritableStream.goOn
      dsimp only [if_true]
      split
      · exact ⟨rfl, hone d.readable, ⟨rfl, id, rfl, fun _ hj => hj⟩⟩
      · exact ⟨rfl, hone _, ⟨rfl, hopen, rfl, fun _ hj => hj⟩⟩
    | false =>
      have hlt : k < d.closes.length := by
        obtain h2 | h2 := h2 <;> exact (List.getElem?_eq_some_iff.1 h2).1
      have hset : (d.closes.set k (some .fulfilled))[k]? = some (some .fulfilled) := getElem?_set_self hlt
      unfold WritableStream.goOn
      dsimp only [if_false]
      split
      · exact ⟨rfl, .fulfilled hset, ⟨rfl, fun h => ⟨h.writable, h.readable⟩, rfl, fun _ hj => hj⟩⟩
      · exact ⟨rfl, .fulfilled hset, ⟨rfl, hopen, rfl, fun _ hj => hj⟩⟩

theorem resultOf_addWrite {ws : List (WriteCall α ε)} {w : WriteCall α ε} (hd : d.writes = ws ++ [w]) :
    resultOf d ws.length = w.result ∧ ∀ j, j < ws.length → resultOf d j = ws[j]?.bind (·.result) := by
  refine ⟨?_, fun j hj => ?_⟩
  · rw [resultOf, hd, getElem?_append_right (Nat.le_refl _), Nat.sub_self]; rfl
  · rw [resultOf, hd, getElem?_append_left hj]

theorem writeInternal_open (chunk : α) (async : Bool) (h : Open d) :
    Open (d.writeInternal chunk async).state ∧
      (∃ w, (d.writeInternal chunk async).state.writes = d.writes ++ [w] ∧ w.chunk = chunk) ∧
      OneWrite (d.writeInternal chunk async).state d.writes.length (d.writeInternal chunk async).frames := by
  have hcall : ∀ w : WriteCall α ε, w.called = true → w.async = async → w.result = none →
      OneWrite (d.addWrite w) d.writes.length [.writing d.writes.length async] := by
    intro w h1 h2 h3
    refine .calling (w := w) ?_ h1 h2 (.inl h3)
    simp [addWrite]
  have hdone : ∀ (d' : WritableStream α ε) (w : WriteCall α ε), d'.writes = d.writes → w.result = some .fulfilled →
      OneWrite (d'.addWrite w) d.writes.length [] := by
    intro d' w hw h3
    refine .fulfilled ?_
    rw [(resultOf_addWrite (d := d'.addWrite w) (congrArg (· ++ [w]) hw)).1]; exact h3
  unfold writeInternal
  rw [h.writable]
  dsimp only
  split
  · exact ⟨⟨h.writable, h.readable⟩, ⟨_, rfl, rfl⟩, hcall _ rfl rfl rfl⟩
  · exact ⟨⟨h.writable, h.readable⟩, ⟨_, rfl, rfl⟩, hdone d _ rfl rfl⟩
  · exact ⟨⟨h.writable, h.readable⟩, ⟨_, rfl, rfl⟩, hcall _ rfl rfl rfl⟩
  · next flush hs =>
    have hr := h.readable flush hs
    have hr' : (d.enqueue chunk).state.readable.state = .readable :=
      (enqueueFromController_state chunk).trans hr
    refine ⟨⟨h.writable, fun _ _ => hr'⟩, ⟨_, rfl, rfl⟩, hdone _ _ rfl ?_⟩
    rw [hr]; rfl

theorem closeInternal_open (async : Bool) (h : d.state = .writable) :
    (d.closeInternal async).state.state = .closed ∧ (d.closeInternal async).state.writes = d.writes ∧
      OneClose (d.closeInternal async).state d.closes.length (d.closeInternal async).frames := by
  have hget : ∀ x : Option (Settled ε), (d.closes ++ [x])[d.closes.length]? = some x := by intro x; simp
  unfold closeInternal
  rw [h]
  dsimp only
  split
  · exact ⟨rfl, rfl, .calling rfl (.inl (hget none))⟩
  · exact ⟨rfl, rfl, .fulfilled (hget _)⟩
  · exact ⟨rfl, rfl, .calling rfl (.inl (hget none))⟩
  · exact ⟨rfl, rfl, .fulfilled (hget _)⟩

/-! ## The phases of the pump -/

/-- The writes from the `n`-th to before the `m`-th are done. -/
def DoneTo (d : WritableStream α ε) (n m : Nat) : Prop := ∀ j, n ≤ j → j < m → resultOf d j = some .fulfilled

/-- The pump has the lock of the source. -/
def Held (s : PipeTo α ε) : Prop :=
  s.source.reader = some s.reader ∧ s.source.readers[s.reader]? = some { kind := .reader }

/-- Everything is written, and the source is let go. -/
structure Wrote (before : List α) (n : Nat) (s : PipeTo α ε) : Prop where
  rests : s.source.stream.Rests (before ++ s.written n)
  ended : s.source.stream.state = .closed
  drained : s.source.stream.queue = []
  closed : s.destination.state = .closed
  done : DoneTo s.destination n s.destination.writes.length
  released : s.source.reader = none

/-- What the pump waits for, with the handlers that are running. -/
inductive Phase (before : List α) (n : Nat) (s : PipeTo α ε) : List Frame → Prop
  | reading {i} {l : List ReadableStream.Frame} : s.pump = .reading i → s.source.stream.Reads i l (before ++ s.written n) → Open s.destination → Held s →
      DoneTo s.destination n s.destination.writes.length → Phase before n s (l.map .source)
  | writing {j : Nat} {l : List WritableStream.Frame} : s.pump = .writing j → s.source.stream.Rests (before ++ s.written n) → Open s.destination → Held s →
      j + 1 = s.destination.writes.length → DoneTo s.destination n j → OneWrite s.destination j l →
      Phase before n s (l.map .destination)
  | closing {k : Nat} {l : List WritableStream.Frame} : s.pump = .closing k → Wrote before n s → OneClose s.destination k l → Phase before n s (l.map .destination)
  | finished : s.pump = .finished → Wrote before n s → s.locked = false → Phase before n s []

structure Inv (before : List α) (n : Nat) (s : PipeTo α ε) (stack : List Frame) : Prop where
  sound : ∀ reason, s.source.stream.state ≠ .errored reason
  count : n ≤ s.destination.writes.length
  phase : Phase before n s stack

variable {before : List α} {stack : List Frame}

theorem length_of_chunks (h : d'.writes.map (·.chunk) = d.writes.map (·.chunk)) : d'.writes.length = d.writes.length := by
  have := congrArg List.length h; simpa using this

theorem written_of_chunks (h : d'.writes.map (·.chunk) = s.destination.writes.map (·.chunk)) :
    ({ s with destination := d' } : PipeTo α ε).written n = s.written n := congrArg (List.drop n) h

theorem Keeps.doneTo {m : Nat} (h : Keeps d d') (hd : DoneTo d n m) : DoneTo d' n m := fun j hn hm => h.fulfilled j (hd j hn hm)

theorem Wrote.keep (hk : Keeps s.destination d') (h : Wrote before n s) : Wrote before n { s with destination := d' } := by
  obtain ⟨h1, h2, h3, h4, h5, h6⟩ := h
  refine ⟨?_, h2, h3, hk.state.trans h4, ?_, h6⟩
  · rw [written_of_chunks hk.chunks]; exact h1
  · have := hk.doneTo h5; rwa [← length_of_chunks hk.chunks] at this

theorem Inv.benign (hb : Benign s.pump s.destination d') (h : Inv before n s stack) :
    Inv before n { s with destination := d' } stack := by
  have hlen := length_of_chunks hb.chunks
  have hwritten := written_of_chunks (n := n) hb.chunks
  refine ⟨h.sound, hlen.symm ▸ h.count, ?_⟩
  cases h.phase with
  | reading hp hr ho hl hd =>
    refine .reading hp ?_ (hb.isOpen ho) hl ?_
    · rw [hwritten]; exact hr
    · have := hb.doneTo hd; rwa [← hlen] at this
  | writing hp hr ho hl hj hd hone =>
    refine .writing hp ?_ (hb.isOpen ho) hl (hj.trans hlen.symm) (hb.doneTo hd) (hb.oneWrite _ _ hp hone)
    rw [hwritten]; exact hr
  | closing hp hw hone => exact .closing hp (hw.keep hb.toKeeps) (hb.oneClose _ _ hp hone)
  | finished hp hw hl => exact .finished hp (hw.keep hb.toKeeps) hl

theorem Inv.source {r : ReadableStream α ε} (h : Inv before n s stack) (hsound : ∀ reason, r.state ≠ .errored reason)
    (hreads : ∀ i fs passed, s.source.stream.Reads i fs passed → r.Reads i fs passed)
    (hrests : ∀ passed, s.source.stream.Rests passed → r.Rests passed)
    (hover : s.source.stream.state ≠ .readable → r = s.source.stream) :
    Inv before n { s with source := { s.source with stream := r } } stack := by
  refine ⟨hsound, h.count, ?_⟩
  cases h.phase with
  | reading hp hr ho hl hd => exact .reading hp (hreads _ _ _ hr) ho hl hd
  | writing hp hr ho hl hj hd hone => exact .writing hp (hrests _ hr) ho hl hj hd hone
  | closing hp hw hone =>
    have hne : s.source.stream.state ≠ .readable := by simp [hw.ended]
    rw [hover hne]; exact .closing hp hw hone
  | finished hp hw hl =>
    have hne : s.source.stream.state ≠ .readable := by simp [hw.ended]
    rw [hover hne]; exact .finished hp hw hl

theorem Inv.enqueue (chunk : α) (h : Inv before n s stack) :
    Inv before n (s.ofSource (s.source.enqueueFromController chunk)).state stack := by
  refine h.source (fun reason hr => h.sound reason ?_) (fun _ _ _ hr => hr.enqueue chunk) (fun _ hr => hr.enqueue chunk)
    (enqueueFromController_over chunk)
  exact (enqueueFromController_state chunk).symm.trans hr

theorem Inv.close (h : Inv before n s stack) : Inv before n (s.ofSource s.source.closeFromController).state stack := by
  have hstate : (s.ofSource s.source.closeFromController).state =
      { s with source := { s.source with stream := s.source.stream.closeFromController } } :=
    congrArg (fun t => { s with source := t }) s.source.closeFromController_eq
  rw [hstate]
  refine h.source (fun reason hr => ?_) (fun _ _ _ hr => hr.close) (fun _ hr => hr.close)
    closeFromController_over
  unfold closeFromController at hr
  split at hr
  · rw [settleWaiting_state] at hr; cases hr
  · exact h.sound reason hr

/-! ## The reactions -/

section

variable (h : Phase before n s stack)
include h

theorem Phase.of_reading {i : Nat} (hp : s.pump = .reading i) :
    ∃ gs : List ReadableStream.Frame, stack = gs.map .source ∧ s.source.stream.Reads i gs (before ++ s.written n) ∧
      Open s.destination ∧ Held s ∧ DoneTo s.destination n s.destination.writes.length := by
  cases h with
  | reading hp' hr ho hl hd =>
    cases hp.symm.trans hp'
    exact ⟨_, rfl, hr, ho, hl, hd⟩
  | writing hp' | closing hp' | finished hp' => cases hp.symm.trans hp'

theorem Phase.of_writing {j : Nat} (hp : s.pump = .writing j) :
    ∃ gs : List WritableStream.Frame, stack = gs.map .destination ∧ s.source.stream.Rests (before ++ s.written n) ∧
      Open s.destination ∧ Held s ∧ j + 1 = s.destination.writes.length ∧ DoneTo s.destination n j ∧
      OneWrite s.destination j gs := by
  cases h with
  | reading hp' | closing hp' | finished hp' => cases hp.symm.trans hp'
  | writing hp' hr ho hl hj hd hone =>
    cases hp.symm.trans hp'
    exact ⟨_, rfl, hr, ho, hl, hj, hd, hone⟩

theorem Phase.of_closing {k : Nat} (hp : s.pump = .closing k) :
    ∃ gs : List WritableStream.Frame, stack = gs.map .destination ∧ Wrote before n s ∧ OneClose s.destination k gs := by
  cases h with
  | reading hp' | writing hp' | finished hp' => cases hp.symm.trans hp'
  | closing hp' hw hone =>
    cases hp.symm.trans hp'
    exact ⟨_, rfl, hw, hone⟩

theorem Phase.of_finished (hp : s.pump = .finished) : Wrote before n s ∧ s.locked = false := by
  cases h with
  | reading hp' | writing hp' | closing hp' => cases hp.symm.trans hp'
  | finished _ hw hl => exact ⟨hw, hl⟩

theorem Phase.not_failed {result : Settled ε} : s.pump ≠ .failed result := by
  cases h with
  | reading hp | writing hp | closing hp | finished hp => simp [hp]

end

theorem read_held (h : Held s) : s.read =
    { state :=
        { s with
          pump := .reading s.source.stream.reads.length
          source := { s.source with stream := s.source.stream.readInternal.state } }
      frames := s.source.stream.readInternal.frames.map .source } := by
  unfold read
  dsimp only; rw [h.2]; rfl

theorem Inv.read (hsound : ∀ reason, s.source.stream.state ≠ .errored reason) (hn : n ≤ s.destination.writes.length)
    (hr : s.source.stream.Rests (before ++ s.written n)) (ho : Open s.destination) (hl : Held s)
    (hd : DoneTo s.destination n s.destination.writes.length) : Inv before n s.read.state s.read.frames := by
  rw [read_held hl]
  refine ⟨fun reason hs => hsound reason ?_, hn, .reading rfl hr.read ho hl hd⟩
  exact readInternal_state.symm.trans hs

theorem Inv.write {chunk : α} (async : Bool) (h : Inv before n s stack) (ho : Open s.destination) (hl : Held s)
    (hd : DoneTo s.destination n s.destination.writes.length)
    (hr : s.source.stream.Rests (before ++ s.written n ++ [chunk])) :
    Inv before n (s.write chunk async).state (s.write chunk async).frames := by
  obtain ⟨ho', ⟨w, hw, rfl⟩, hone⟩ := writeInternal_open chunk async ho
  have hcount := h.count
  have hlen : s.destination.writes.length + 1 = (s.destination.writeInternal w.chunk async).state.writes.length := by
    rw [hw, length_append, length_singleton]
  have hwritten : (s.write w.chunk async).state.written n = s.written n ++ [w.chunk] := by
    show ((s.destination.writeInternal w.chunk async).state.writes.map (·.chunk)).drop n = _
    rw [hw, map_append, drop_append_of_le_length (by rwa [length_map])]; rfl
  refine ⟨h.sound, ?_, .writing rfl ?_ ho' hl hlen (fun j hn hj => ?_) hone⟩
  · exact Nat.le_trans (Nat.le_succ_of_le hcount) (Nat.le_of_eq hlen)
  · rw [hwritten, ← append_assoc]; exact hr
  · exact ((resultOf_addWrite hw).2 j hj).trans (hd j hn hj)

theorem releaseReader_held (h : Held s) :
    s.releaseReader = { s with source := s.source.releaseLock s.reader { kind := .reader } } := by
  unfold releaseReader; rw [h.2]; rfl

theorem Inv.finish (async : Bool) (h : Inv before n s stack) (ho : Open s.destination) (hl : Held s)
    (hd : DoneTo s.destination n s.destination.writes.length) (hr : s.source.stream.Rests (before ++ s.written n))
    (hs : s.source.stream.state = .closed) (hq : s.source.stream.queue = []) :
    Inv before n (s.finish async).state (s.finish async).frames := by
  obtain ⟨hclosed, hwrites, hone⟩ := closeInternal_open async ho.writable
  have hfinish : s.finish async =
      { state :=
          { s with
            source := s.source.releaseLock s.reader { kind := .reader }
            pump := .closing s.destination.closes.length
            destination := (s.destination.closeInternal async).state }
        seen := (s.destination.closeInternal async).seen.map .destination
        frames := (s.destination.closeInternal async).frames.map .destination } := by
    unfold PipeTo.finish; rw [releaseReader_held hl]; rfl
  have hreleased : (s.source.releaseLock s.reader { kind := .reader }).reader = none := if_pos hl.1
  rw [hfinish]
  refine ⟨h.sound, hwrites.symm ▸ h.count, .closing rfl ⟨?_, hs, hq, hclosed, ?_, hreleased⟩ hone⟩
  · have hwritten : ((s.destination.closeInternal async).state.writes.map (·.chunk)).drop n = s.written n := by
      rw [hwrites]; rfl
    show s.source.stream.Rests (before ++ ((s.destination.closeInternal async).state.writes.map (·.chunk)).drop n)
    rwa [hwritten]
  · intro j hn hj; rw [hwrites] at hj; rw [resultOf, hwrites]; exact hd j hn hj

theorem Inv.tick {async : Bool} {b : Result α ε} (h : Inv before n s []) (hb : s.tick async = some b) :
    Inv before n b.state b.frames := by
  unfold PipeTo.tick at hb
  split at hb
  · next i hp =>
    obtain ⟨gs, -, hr, ho, hl, hd⟩ := h.phase.of_reading hp
    split at hb
    · next chunk hchunk =>
      cases hb; exact h.write async ho hl hd (hr.value hchunk).2
    · next hdone =>
      cases hb
      obtain ⟨-, hrests, hover, hq⟩ := hr.outcome hdone nofun
      have hclosed : s.source.stream.state = .closed := by
        cases hs : s.source.stream.state with
        | readable => rw [hs] at hover; cases hover
        | closed => rfl
        | errored reason => exact absurd hs (h.sound reason)
      exact h.finish async ho hl hd hrests hclosed hq
    · next reason hrejected =>
      obtain ⟨-, -, hover, -⟩ := hr.outcome hrejected nofun
      cases hs : s.source.stream.state with
      | readable | closed => rw [hs] at hover; cases hover
      | errored reason' => exact absurd hs (h.sound reason')
    · cases hb
  · next j hp =>
    obtain ⟨gs, hgs, hr, ho, hl, hj, hd, hone⟩ := h.phase.of_writing hp
    obtain rfl : gs = [] := map_eq_nil_iff.1 hgs.symm
    have hresult : ∀ {result : Settled ε}, resultOf s.destination j = some result → result = .fulfilled := by
      intro result hres
      cases hone with
      | pending hpend =>
        obtain ⟨w, hw, -, -, hnone⟩ := writePending_iff.1 hpend
        rw [resultOf, hw] at hres; exact absurd (hnone.symm.trans hres) nofun
      | fulfilled hful => exact Option.some.inj (hres.symm.trans hful)
    split at hb
    · next hful =>
      cases hb
      refine Inv.read h.sound h.count hr ho hl (fun j' hn hj' => ?_)
      obtain hlt | rfl := Nat.lt_or_eq_of_le (Nat.le_of_lt_succ (hj ▸ hj'))
      · exact hd j' hn hlt
      · exact hful
    · next result hne hres => exact absurd (hresult hres) hne
    · cases hb
  · next k hp =>
    obtain ⟨gs, hgs, hw, hone⟩ := h.phase.of_closing hp
    obtain rfl : gs = [] := map_eq_nil_iff.1 hgs.symm
    split at hb
    · cases hb; exact ⟨h.sound, h.count, .finished rfl ⟨hw.rests, hw.ended, hw.drained, hw.closed, hw.done, hw.released⟩ rfl⟩
    · next result hne hres =>
      cases hone with
      | pending _ hnone => cases hnone.symm.trans hres
      | fulfilled hful => cases hful.symm.trans hres; exact absurd rfl hne
    · cases hb
  · cases hb
  · next result hp => exact absurd hp h.phase.not_failed

/-! ## Runs -/

theorem Inv.call {c : Conf α ε} {k : Call α ε} {b : Result α ε} (h : Inv before n c.state c.stack) (hP : Proper c (.call k))
    (ht : (program (α := α) (ε := ε)).task k = true → c.stack = []) (hb : c.state.call k = some b) :
    Inv before n b.state (b.frames ++ c.stack) := by
  cases k with
  | enqueue chunk => cases hb; exact h.enqueue chunk
  | close =>
    cases hb
    have hnil : (c.state.ofSource c.state.source.closeFromController).frames = [] :=
      congrArg (List.map Frame.source) c.state.source.closeFromController_frames
    rw [hnil]; exact h.close
  | error reason =>
    cases hb; rw [c.state.source.errorFromController_over reason hP]; exact h
  | cancel reason =>
    cases hb
    have hstate : (c.state.ofSource (c.state.source.cancelStream reason)).state = c.state :=
      congrArg (fun t => { c.state with source := t }) (c.state.source.cancelStream_over reason hP.1 hP.2)
    have hnil : (c.state.ofSource (c.state.source.cancelStream reason)).frames = [] :=
      congrArg (List.map Frame.source) (c.state.source.cancelStream_frames reason)
    rw [hstate, hnil]; exact h
  | sink k =>
    have hnot : ∀ chunk async, k ≠ .write chunk async := by rintro chunk async rfl; cases hb
    have hb : (c.state.destination.call k).map c.state.ofDestination = some b := by
      cases k <;> first | exact hb | cases hb
    obtain ⟨b', hb', rfl⟩ := Option.map_eq_some_iff.1 hb
    obtain ⟨hframes, hbenign⟩ := sink_benign hP hnot hb'
    have hnil : (c.state.ofDestination b').frames = [] := congrArg (List.map Frame.destination) hframes
    rw [hnil]; exact h.benign hbenign
  | tick async =>
    have hs := ht rfl; rw [hs] at h ⊢; rw [append_nil]; exact h.tick hb

theorem Reads_pulling {r : ReadableStream α ε} {i : Nat} {g : ReadableStream.Frame} {gs : List ReadableStream.Frame}
    {passed : List α} (h : r.Reads i (g :: gs) passed) : g = .pulling i ∧ gs = [] := by
  obtain ⟨taken, hone, -⟩ := h
  cases hone; exact ⟨rfl, rfl⟩

theorem Inv.ret {f : Frame} {gs : List Frame} (h : Inv before n s (f :: gs)) :
    Inv before n (program.resume s f).state ((program.resume s f).frames ++ gs) := by
  obtain ⟨hsound, hcount, hphase⟩ := h
  generalize hst : f :: gs = stack at hphase
  cases hphase with
  | @reading i fs hp hr ho hl hd =>
    obtain _ | ⟨g, fs⟩ := fs
    · cases hst
    · cases hst
      obtain ⟨rfl, rfl⟩ := Reads_pulling hr
      refine ⟨fun reason hs => hsound reason ?_, hcount, .reading (l := []) hp hr.pulled ho hl hd⟩
      exact (pulled_state _).symm.trans hs
  | @writing j fs hp hr ho hl hj hd hone =>
    obtain _ | ⟨g, fs⟩ := fs
    · cases hst
    · cases hst
      obtain ⟨async, rfl, rfl⟩ : ∃ async, g = .writing j async ∧ fs = [] := by cases hone; exact ⟨_, rfl, rfl⟩
      obtain ⟨hframes, hone', hkeeps⟩ := hone.goOn
      have hlen := length_of_chunks hkeeps.chunks
      have hnil : (program.resume s (.destination (.writing j async))).frames = [] :=
        congrArg (List.map Frame.destination) hframes
      rw [hnil]
      refine ⟨hsound, hlen.symm ▸ hcount, .writing (l := []) hp ?_ (hkeeps.isOpen ho) hl (hj.trans hlen.symm)
        (hkeeps.doneTo hd) hone'⟩
      have hwritten := written_of_chunks (s := s) (n := n) hkeeps.chunks; exact hwritten.symm ▸ hr
  | @closing k fs hp hw hone =>
    obtain _ | ⟨g, fs⟩ := fs
    · cases hst
    · cases hst
      obtain ⟨async, rfl, rfl⟩ : ∃ async, g = .closing k async ∧ fs = [] := by cases hone; exact ⟨_, rfl, rfl⟩
      obtain ⟨hframes, hone', hkeeps⟩ := hone.goOn hw.closed
      have hlen := length_of_chunks hkeeps.chunks
      have hnil : (program.resume s (.destination (.closing k async))).frames = [] :=
        congrArg (List.map Frame.destination) hframes
      rw [hnil]; exact ⟨hsound, hlen.symm ▸ hcount, .closing (l := []) hp (hw.keep hkeeps) hone'⟩
  | finished => cases hst

theorem inv_start {source : Cancellable α ε} {destination : WritableStream α ε} {locked : Bool} {b : Result α ε}
    (h : Ready before source destination) (hb : start source destination locked = some b) :
    Inv before destination.writes.length b.state b.frames := by
  unfold start at hb
  split at hb
  · cases hb
  · next hfree =>
    cases hb
    rw [Cancellable.acquire_free fun h => hfree (by simp [h])]
    refine Inv.read h.sound (Nat.le_refl _) ?_ h.isOpen ⟨rfl, ?_⟩ (fun j hn hj => absurd hj (Nat.not_lt.2 hn))
    · have hnone : (destination.writes.map (·.chunk)).drop destination.writes.length = [] :=
        drop_eq_nil_of_le (Nat.le_of_eq (length_map _))
      show source.stream.Rests (before ++ (destination.writes.map (·.chunk)).drop destination.writes.length)
      rw [hnone, append_nil]; exact h.rests
    · show (source.readers ++ [_])[source.readers.length]? = _; simp

section

variable (h : Phase before n s stack)
include h

theorem Phase.in_order : before ++ s.written n <+: s.source.stream.enqueued := by
  cases h with
  | reading _ hr | writing _ hr => exact hr.in_order
  | closing _ hw | finished _ hw => exact hw.rests.in_order

theorem Phase.settled :
    ∀ j, n ≤ j → j + 1 < s.destination.writes.length → resultOf s.destination j = some .fulfilled := by
  intro j hn hj
  cases h with
  | reading _ _ _ _ hd => exact hd j hn (Nat.lt_of_succ_lt hj)
  | writing _ _ _ _ hlen hd => exact hd j hn (by omega)
  | closing _ hw | finished _ hw => exact hw.done j hn (Nat.lt_of_succ_lt hj)

theorem Phase.wrote (hs : s.destination.state ≠ .writable) : Wrote before n s := by
  cases h with
  | reading _ _ ho | writing _ _ ho => exact absurd ho.writable hs
  | closing _ hw | finished _ hw => exact hw

end

theorem Inv.idle (h : Inv before n s []) (hidle : ∀ async, s.tick async = none) (hs : s.source.stream.state = .closed) :
    s.AwaitsSink ∨ s.pump = .finished ∧ s.destination.state = .closed ∧ s.source.reader = none ∧ s.locked = false := by
  have htick := hidle false
  unfold PipeTo.tick at htick
  split at htick
  · next i hp =>
    obtain ⟨gs, hgs, hr, -⟩ := h.phase.of_reading hp
    obtain rfl : gs = [] := map_eq_nil_iff.1 hgs.symm
    have hpending : ∀ result, s.source.stream.reads[i]? ≠ some (some result) := by
      intro result hres
      rw [hres] at htick
      cases result <;> cases htick
    obtain hne | ⟨hreadable, -⟩ := hr.pending hpending
    · exact absurd rfl hne
    · rw [hs] at hreadable; cases hreadable
  · next j hp =>
    obtain ⟨gs, hgs, -, -, -, -, -, hone⟩ := h.phase.of_writing hp
    obtain rfl : gs = [] := map_eq_nil_iff.1 hgs.symm
    cases hone with
    | pending hpend => exact .inl (.inl ⟨j, hp, hpend⟩)
    | fulfilled hful => rw [hful] at htick; cases htick
  · next k hp =>
    obtain ⟨gs, hgs, -, hone⟩ := h.phase.of_closing hp
    obtain rfl : gs = [] := map_eq_nil_iff.1 hgs.symm
    cases hone with
    | pending ha hnone => exact .inl (.inr ⟨k, hp, ha, hnone⟩)
    | fulfilled hful => rw [hful] at htick; cases htick
  · next hp =>
    obtain ⟨hw, hl⟩ := h.phase.of_finished hp; exact .inr ⟨hp, hw.closed, hw.released, hl⟩
  · next result hp => exact absurd hp h.phase.not_failed

theorem Inv.not_rejected {j : Nat} {reason : ε} (h : Inv before n s stack) (hn : n ≤ j) :
    resultOf s.destination j ≠ some (.rejected reason) := by
  intro hres
  have hlt : j < s.destination.writes.length := by
    by_contra hge
    rw [resultOf, getElem?_eq_none (Nat.le_of_not_lt hge)] at hres; cases hres
  have hdone : ∀ m, j < m → ¬ DoneTo s.destination n m := fun m hm hd => nomatch (hd j hn hm).symm.trans hres
  cases h.phase with
  | reading _ _ _ _ hd => exact hdone _ hlt hd
  | @writing j' gs hp _ _ _ hj hd hone =>
    obtain hj' | rfl := Nat.lt_or_eq_of_le (Nat.le_of_lt_succ (hj ▸ hlt))
    · exact hdone _ hj' hd
    · cases hone with
      | calling hw _ _ hr =>
        rw [resultOf, hw] at hres
        obtain hr | hr := hr <;> exact nomatch hr.symm.trans hres
      | pending hpend =>
        obtain ⟨w, hw, -, -, hnone⟩ := writePending_iff.1 hpend
        rw [resultOf, hw] at hres; exact nomatch hnone.symm.trans hres
      | fulfilled hful => exact nomatch hful.symm.trans hres
  | closing _ hw _ | finished _ hw _ => exact hdone _ hlt hw.done

theorem pipes_of_inv {c : Conf α ε} (h : Inv before n c.state c.stack) : Pipes before n c := by
  refine ⟨h.phase.in_order, h.phase.settled, fun hs => ?_, fun hidle hs => ?_, fun _ reason hs => ?_,
    fun _ j reason hn hres => ?_⟩
  · have hw := h.phase.wrote hs
    refine ⟨hw.ended, ?_, hw.done⟩
    have he := hw.rests.enqueued; rwa [hw.drained, append_nil] at he
  · obtain ⟨hstack, htick⟩ := hidle; rw [hstack] at h; exact h.idle htick hs
  · exact absurd hs (h.sound reason)
  · exact absurd hres (h.not_rejected hn)

/-- `pipeTo` does what it is for, in the runs whose steps meet `P`. -/
def Sound (P : Conf α ε → Move (Call α ε) → Prop) : Prop :=
  ∀ (before : List α) (source : Cancellable α ε) (destination : WritableStream α ε) (locked : Bool) (b : Result α ε),
    Ready before source destination → start source destination locked = some b →
      ∀ (ls : List (Move (Call α ε))) (c : Conf α ε), Run program.step P (b.onto [] []) ls c →
        Pipes before destination.writes.length c

/-- **`pipeTo`**, in the runs in which neither end fails. -/
theorem pipe_writes : Sound (Proper (α := α) (ε := ε)) := by
  intro before source destination locked b h hb ls c hrun
  refine pipes_of_inv (Reentrant.invariant (I := fun c => Inv before destination.writes.length c.state c.stack)
    (fun c k b hI hP ht hb => hI.call hP ht hb) (fun c f fs hI hs => ?_) hrun ?_)
  · rw [hs] at hI; exact hI.ret
  · have hstart := inv_start h hb; rwa [← append_nil b.frames] at hstart

theorem ready_new (pull cancel : Bool) (sink : Sink) :
    Ready [] ({ stream := { pull }, cancel } : Cancellable α ε) { sink } :=
  ⟨⟨rfl, rfl⟩, fun _ => nofun, ⟨rfl, fun _ _ => rfl⟩⟩

theorem error_not_passed : ¬ Sound (fun (_ : Conf Nat Nat) _ => True) := by
  intro h
  have hpipes := h [] { stream := { pull := false }, cancel := true } { sink := .plain true true true } false _
    (ready_new false true _) rfl [.call (.error 3), .call (.tick false)] _ (Run.of_runs rfl)
  cases hpipes.aborted ⟨rfl, fun _ => rfl⟩ 3 rfl

end PipeTo

end NodeCompat.Web
