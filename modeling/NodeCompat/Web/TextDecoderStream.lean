import NodeCompat.Buffer.ToString
import NodeCompat.Web.WritableStream

/-!
# `TextDecoderStream`

A `TransformStream` whose transformer decodes each chunk on its own. What is written are bytes (an array of numbers or a
view is copied to a buffer first), and the readable side holds their texts. The transformer runs no user code, so a `write`
is one step here: `writeInternal`, `transform` and what follows it. A `transform` that throws, for an unknown encoding, is
not followed.
-/

namespace NodeCompat.Web

open List ReadableStream

namespace TextDecoderStream

/-- What goes through the stream. -/
inductive Chunk
  | bytes (bytes : Bytes)
  | string (units : List UInt16)
  deriving DecidableEq

inductive Call (ε : Type)
  | write (bytes : Bytes)
  | close
  | abort (reason : ε)
  | read

variable {ε : Type} (label : Bytes) (s : WritableStream Chunk ε)

/-- `transform`: `none` when it throws. -/
def transform (bytes : Bytes) : Option (WritableStream Chunk ε) :=
  match Buffer.toString label bytes, s.readable.state with
  | some decoded, .readable => some (s.enqueue (.string decoded)).state
  | _, _ => none

def step : Call ε → Option (WritableStream Chunk ε)
  | .write bytes =>
    let b := s.writeInternal (.bytes bytes) false
    match b.frames with
    | [] => some b.state
    | f :: _ => (transform label b.state bytes).map (fun s => (s.goOn f).state)
  | .close => some (s.closeInternal false).state
  | .abort reason => some (s.abort reason).state
  | .read => some { s with readable := s.readable.readInternal.state }

/-- The constructor. -/
def create : WritableStream Chunk ε := { sink := .transformer true false }

/-! ## What is read -/

/-- The bytes of a `write` that reached `transform`. -/
def bytesOf (w : WriteCall Chunk ε) : Option Bytes :=
  match w.chunk with
  | .bytes bytes => if w.called then some bytes else none
  | .string _ => none

/-- The bytes that reached `transform`, write by write. -/
def written : List Bytes := s.writes.filterMap bytesOf

/-- The text that a promise is fulfilled with. -/
def textOf : Option (ReadResult Chunk ε) → Option (List UInt16)
  | some (.value (.string units)) => some units
  | _ => none

/-- The texts that `read`s were fulfilled with. -/
def texts : List (List UInt16) := s.readable.reads.filterMap textOf

/-- No `read` has to wait while another one waits. -/
def ReadsProperly (s : WritableStream Chunk ε) : Call ε → Prop
  | .read => ¬ s.readable.Occupied
  | _ => True

structure Inv (codec : Buffer.Codec) (s : WritableStream Chunk ε) : Prop where
  sink : s.sink = .transformer true false
  pull : s.readable.pull = false
  enqueued : s.readable.enqueued = (written s).map (fun bytes => .string (utf16 (Buffer.decode codec bytes)))
  read : ∃ vs n, ReadableStream.Inv s.readable [] vs n

variable {label : Bytes} {codec : Buffer.Codec} {s : WritableStream Chunk ε}

variable {s' : WritableStream Chunk ε}

theorem filterMap_modify {α β : Type} {f : α → Option β} {g : α → α} (h : ∀ a, f (g a) = f a) :
    ∀ (as : List α) (i : Nat), (as.modify i g).filterMap f = as.filterMap f
  | [], _ => by rw [modify_nil]
  | a :: as, 0 => by rw [modify_zero_cons, filterMap_cons, filterMap_cons, h]
  | a :: as, i + 1 => by rw [modify_succ_cons, filterMap_cons, filterMap_cons, filterMap_modify h as i]

theorem written_setWrite (i : Nat) (result : Settled ε) : written (s.setWrite i result) = written s := by
  have hkeep : ∀ w : WriteCall Chunk ε, bytesOf { w with result := some result } = bytesOf w := fun _ => rfl
  exact filterMap_modify hkeep s.writes i

theorem written_addWrite (bytes : Bytes) (called async : Bool) (result : Option (Settled ε)) :
    written (s.addWrite { chunk := .bytes bytes, called, async, result }) = written s ++ if called then [bytes] else [] := by
  show (s.writes ++ [_]).filterMap _ = _
  rw [filterMap_append]
  cases called <;> rfl

theorem refused_inv {bytes : Bytes} {result : Option (Settled ε)} (h : Inv codec s) :
    Inv codec (s.addWrite { chunk := .bytes bytes, called := false, async := false, result }) := by
  refine ⟨h.sink, h.pull, ?_, h.read⟩
  rw [written_addWrite]; exact h.enqueued.trans (by rw [if_neg Bool.false_ne_true, append_nil])

theorem transform_spec {bytes : Bytes} (hl : Buffer.normalizeEncoding label = some codec)
    (h : transform label s bytes = some s') :
    s.readable.state = .readable ∧ s' = (s.enqueue (.string (utf16 (Buffer.decode codec bytes)))).state := by
  unfold transform Buffer.toString at h
  rw [hl, Option.map_some] at h
  cases hs : s.readable.state with
  | readable => rw [hs] at h; exact ⟨rfl, (Option.some.inj h).symm⟩
  | closed | errored reason => rw [hs] at h; cases h

theorem write_inv {bytes : Bytes} (hl : Buffer.normalizeEncoding label = some codec)
    (h : Inv codec s) (hst : step label s (.write bytes) = some s') : Inv codec s' := by
  unfold step at hst
  dsimp only at hst
  cases hs : s.state with
  | errored reason | closed =>
    simp only [WritableStream.writeInternal, hs] at hst
    cases hst; exact refused_inv h
  | writable =>
    have hcall : s.writeInternal (.bytes bytes) false = s.callSinkWrite (.bytes bytes) false := by
      simp only [WritableStream.writeInternal, hs, h.sink]
    rw [hcall] at hst
    obtain ⟨s₁, ht, rfl⟩ := Option.map_eq_some_iff.1 hst
    obtain ⟨hr, rfl⟩ := transform_spec hl ht
    have hread : s.readable.state = .readable := hr
    obtain ⟨vs, n, hI⟩ := h.read
    refine ⟨h.sink, (enqueueFromController_pull _).trans h.pull, ?_, (enqueueFromController_inv _ hI).2⟩
    show (s.readable.enqueueFromController _).state.enqueued = (written (WritableStream.setWrite _ _ _)).map _
    rw [enqueueFromController_enqueued _ hread, written_setWrite]
    show _ = (written (s.addWrite _)).map _
    rw [written_addWrite, if_pos rfl, map_append, h.enqueued]; rfl

theorem close_inv (h : Inv codec s) : Inv codec (s.closeInternal false).state := by
  obtain ⟨vs, n, hI⟩ := h.read
  have hkeep : (s.closeInternal false).state.sink = s.sink ∧ (s.closeInternal false).state.writes = s.writes ∧
      ((s.closeInternal false).state.readable = s.readable ∨
        (s.closeInternal false).state.readable = s.readable.closeFromController) := by
    obtain ⟨state, sink, readable, writes, closes, asyncClose⟩ := s
    obtain rfl : sink = .transformer true false := h.sink
    cases state with
    | writable => exact ⟨rfl, rfl, .inr rfl⟩
    | closed | errored reason => exact ⟨rfl, rfl, .inl rfl⟩
  obtain ⟨hsink, hw, hr⟩ := hkeep
  have hwritten : written (s.closeInternal false).state = written s := by unfold written; rw [hw]
  obtain hr | hr := hr
  · exact ⟨hsink.trans h.sink, by rw [hr]; exact h.pull, by rw [hr, hwritten]; exact h.enqueued, by rw [hr]; exact h.read⟩
  · refine ⟨hsink.trans h.sink, ?_, ?_, ?_⟩
    · rw [hr, closeFromController_pull, h.pull]
    · rw [hr, closeFromController_enqueued, hwritten, h.enqueued]
    · rw [hr]; exact ⟨vs, closeFromController_inv hI⟩

theorem abort_inv (reason : ε) (h : Inv codec s) : Inv codec (s.abort reason).state := by
  obtain ⟨vs, n, hI⟩ := h.read
  have hs : (s.abort reason).state =
      { s with state := .errored reason, readable := s.readable.errorFromController reason } := by
    obtain ⟨state, sink, readable, writes, closes, asyncClose⟩ := s
    obtain rfl : sink = .transformer true false := h.sink; rfl
  rw [hs]
  refine ⟨h.sink, (errorFromController_pull reason).trans h.pull, ?_, vs, errorFromController_inv reason hI⟩
  exact (errorFromController_enqueued reason).trans h.enqueued

theorem step_inv (hl : Buffer.normalizeEncoding label = some codec) {k : Call ε}
    (h : Inv codec s) (hP : ReadsProperly s k) (hst : step label s k = some s') : Inv codec s' := by
  cases k with
  | write bytes => exact write_inv hl h hst
  | close => cases hst; exact close_inv h
  | abort reason => cases hst; exact abort_inv reason h
  | read =>
    cases hst
    obtain ⟨vs, n, hI⟩ := h.read
    refine ⟨h.sink, (readInternal_pull).trans h.pull, (readInternal_enqueued).trans h.enqueued, ?_⟩
    obtain ⟨vs', n', hI'⟩ := readInternal_inv (.inr hP) hI
    rw [readInternal_frames h.pull] at hI'; exact ⟨vs', n', hI'⟩

theorem run_inv (hl : Buffer.normalizeEncoding label = some codec) {ks : List (Call ε)}
    (h : Run (step label) ReadsProperly create ks s) : Inv codec s := by
  refine h.invariant (fun _ _ _ hI hP hst => step_inv hl hI hP hst) ⟨rfl, rfl, rfl, [], 0, ?_⟩
  exact inv_of_not_waiting rfl rfl rfl nofun (.inl rfl)

theorem textOf_outcome (state : StreamState ε) : textOf (state.outcome : Option (ReadResult Chunk ε)) = none := by
  cases state <;> rfl

theorem filterMap_replicate_none {α β : Type} {f : α → Option β} {a : α} (h : f a = none) (n : Nat) :
    (List.replicate n a).filterMap f = [] := by
  refine filterMap_eq_nil_iff.2 (fun b hb => ?_)
  rw [eq_of_mem_replicate hb, h]

/-- **Each chunk is read as its text**, once nothing is queued. -/
theorem texts_written (h : Inv codec s) (hq : s.readable.queue = []) :
    texts s = (written s).map (fun bytes => utf16 (Buffer.decode codec bytes)) := by
  obtain ⟨vs, n, hI⟩ := h.read
  have hvs : vs = (written s).map (fun bytes => .string (utf16 (Buffer.decode codec bytes))) := by
    rw [← h.enqueued, hI.enqueued, hq, append_nil]
  have hvalues : ∀ bs : List Bytes, ((bs.map fun b => Chunk.string (utf16 (Buffer.decode codec b))).map
      (fun v => some (ReadResult.value v))).filterMap (textOf (ε := ε)) =
        bs.map (fun bytes => utf16 (Buffer.decode codec bytes)) := by
    intro bs
    induction bs with
    | nil => rfl
    | cons b bs ih => rw [map_cons, map_cons, filterMap_cons, ih]; rfl
  show s.readable.reads.filterMap textOf = _
  rw [hI.reads]
  unfold promises
  rw [filterMap_append, filterMap_append, filterMap_replicate_none (textOf_outcome _), filterMap_replicate_none rfl,
    append_nil, append_nil, hvs, hvalues]

end TextDecoderStream

end NodeCompat.Web
