import NodeCompat.Stream.Delivery
import NodeCompat.Stream.Shown
import NodeCompat.Web.ReadableStream

/-!
# A `Readable` as a web stream

`Readable.toWeb` listens for 'data', 'end' and 'error' and passes them to the controller of a `ReadableStream`; `cancel` destroys the
`Readable`. Its listeners are the first that are called. Nothing listens for 'close': a `Readable` that is destroyed without an error
before its end leaves the web stream open. Else the web stream yields what is emitted (`Bridged`).

What `on('data')` lets flow comes before the other two listeners are added (`starting`).
-/

namespace NodeCompat.Stream

open List
open NodeCompat.Web (ReadableStream StreamState)
open Readable (call_keeps destroy goOn_keeps newListenerAdded push resume_keeps shows_call shows_goOn)

variable {V : Type}

structure ToWeb (V : Type) where
  readable : Readable V
  web : ReadableStream (Chunk V) StreamError := { pull := false }
  /-- The 'data' listener is there. -/
  attached : Bool := false
  /-- Whether it is `objectReadableToWeb` that was called. -/
  objectMode : Bool := false
  /-- The 'end' and 'error' listeners are there. -/
  watching : Bool := false
  cancelled : Bool := false
  /-- What was emitted since the 'data' listener is there. -/
  heard : List (Event V) := []

namespace ToWeb

inductive Frame (V : Type)
  | readable (frame : Stream.Frame V)
  /-- In `on('data')` of `start`. -/
  | starting (frame : Stream.Frame V)
  deriving DecidableEq

inductive Event (V : Type)
  | readable (event : Stream.Event V)
  /-- `controller.enqueue`, or the cast of its argument, throws, and with it the method that emits. -/
  | threw
  deriving DecidableEq

inductive Call (V : Type)
  | readable (call : Stream.Call V)
  | toWeb
  /-- A reader of the web stream. -/
  | read
  /-- The reason is `none` when it is not an `Error`. -/
  | cancel (reason : Option StreamError)
  deriving DecidableEq

variable (toString : BufferEncoding → Bytes → List UInt16) (s : ToWeb V)

abbrev Result (V : Type) := Block (ToWeb V) (Frame V) (Event V)

/-- `chunk as Uint8Array` in byte mode, a checked cast. -/
def castable (objectMode : Bool) : Chunk V → Bool
  | .buffer _ => true
  | _ => objectMode

def throws : Stream.Event V → Bool
  | .data _ _ value => s.attached && !(castable s.objectMode value && s.web.state = .readable)
  | _ => false

/-- The listeners. -/
def hear (event : Stream.Event V) : ToWeb V :=
  if s.attached then { s with
      heard := s.heard ++ [event]
      web :=
        match event with
        | .data _ _ value => if s.throws event then s.web else (s.web.enqueueFromController value).state
        | .ended => if s.watching then s.web.closeFromController else s.web
        | .error e => if s.watching then s.web.errorFromController e else s.web
        | _ => s.web }
  else s

/-- What the listeners do, and whether one throws. -/
def hearAll (s : ToWeb V) : List (Stream.Event V) → ToWeb V × Bool
  | [] => (s, false)
  | e :: es => if s.throws e then (s.hear e, true) else hearAll (s.hear e) es

/-- A block of the `Readable`, with what the listeners do. -/
def through (b : Readable.Result V) (wait : Stream.Frame V → Frame V) : Result V :=
  match hearAll { s with readable := b.state } b.seen with
  | (s, true) => { state := s, seen := b.seen.map .readable ++ [.threw] }
  | (s, false) => { state := s, seen := b.seen.map .readable, frames := b.frames.map wait }

/-- `start` after `on('data')`, when that has returned. -/
def startRest (b : Result V) : Result V :=
  if b.frames.isEmpty && !b.seen.any (fun | .threw => true | _ => false) then
    let b' := { b.state with watching := true }.through b.state.readable.resume .readable
    { b' with seen := b.seen ++ b'.seen }
  else b

def start : Result V :=
  let s := { s with attached := true, objectMode := s.readable.readableObjectMode }
  startRest (s.through s.readable.newListenerAdded .starting)

def cancel (reason : Option StreamError) : Result V :=
  let s := { s with web := ({ s.web with queue := [] } : ReadableStream (Chunk V) StreamError).closeFromController, cancelled := true }
  s.through (s.readable.destroy reason .nothing) .readable

def call : Call V → Option (Result V)
  | .readable k => (s.readable.call toString k).map (fun b => s.through b .readable)
  | .toWeb => if s.attached then none else some s.start
  | .read => some { state := { s with web := s.web.readInternal.state } }
  | .cancel reason => some (s.cancel reason)

def goOn : Frame V → Result V
  | .readable f => s.through (s.readable.goOn toString f) .readable
  | .starting f => startRest (s.through (s.readable.goOn toString f) .starting)

/-- The `Readable`, the web stream and the code that uses them. -/
def program : Reentrant (ToWeb V) (Call V) (Frame V) (Event V) where
  call := call toString
  resume := goOn toString
  task
    | .readable (.checkpoint _) => true
    | _ => false

/-- What the `Readable` emits in the next block. -/
def emits (c : Config (ToWeb V) (Frame V) (Event V)) : Move (Call V) → List (Stream.Event V)
  | .call (.readable k) => ((c.state.readable.call toString k).map (·.seen)).getD []
  | .call _ => []
  | .ret =>
    match c.stack with
    | .readable f :: _ | .starting f :: _ => (c.state.readable.goOn toString f).seen
    | [] => []

end ToWeb

/-! ## What the web stream is to yield -/

/-- The chunks that are emitted. -/
def dataOf (es : List (Event V)) : List (Chunk V) := es.filterMap fun
    | .data _ _ value => some value
    | _ => none

/-- How a stream ends that emits these: with 'end' or 'error', whichever comes first. -/
def fate : List (Event V) → StreamState StreamError
  | [] => .readable
  | .ended :: _ => .closed
  | .error e :: _ => .errored e
  | _ :: es => fate es

namespace ToWeb

variable (toString : BufferEncoding → Bytes → List UInt16)

/-- What the web stream can follow: a `Buffer` in byte mode, no 'data' after the fate, no 'error' before its listener is there, and no
'close' before the fate. -/
def Follows (s : ToWeb V) : Stream.Event V → Prop
  | .data _ _ value => castable s.objectMode value = true ∧ fate s.heard = .readable
  | .ended | .error _ => s.watching = true
  | .close => fate s.heard ≠ .readable
  | _ => True

def FollowsAll (s : ToWeb V) : List (Stream.Event V) → Prop
  | [] => True
  | e :: es => s.Follows e ∧ FollowsAll (s.hear e) es

/-- What the web stream hears it can follow; `toWeb` is called while the `Readable` has not ended, failed or been closed; and a `read` that
has to wait is not called while another one waits. -/
def Followed (c : Config (ToWeb V) (Frame V) (Event V)) (l : Move (Call V)) : Prop :=
  (c.state.attached = true → c.state.cancelled = false → FollowsAll c.state (emits toString c l)) ∧
    (l = .call .toWeb → c.state.attached = false → c.state.readable.endEmitted = false ∧ c.state.readable.errored = none ∧
      c.state.readable.closed = false) ∧
    (l = .call .read → ¬ c.state.web.Occupied)

instance (s : ToWeb V) : (e : Stream.Event V) → Decidable (s.Follows e)
  | .data _ _ value => inferInstanceAs (Decidable (castable s.objectMode value = true ∧ fate s.heard = .readable))
  | .ended | .error _ => inferInstanceAs (Decidable (s.watching = true))
  | .close => inferInstanceAs (Decidable (fate s.heard ≠ .readable))
  | .pushed _ | .unshifted _ | .endPushed | .encodingSet _ | .readable | .pause | .resume | .fetch _ | .readReturned _ | .pushReturned _ =>
    .isTrue trivial

def FollowsAll.decidable : (s : ToWeb V) → (es : List (Stream.Event V)) → Decidable (s.FollowsAll es)
  | _, [] => .isTrue trivial
  | s, e :: es =>
    have := FollowsAll.decidable (s.hear e) es
    inferInstanceAs (Decidable (s.Follows e ∧ (s.hear e).FollowsAll es))

instance (s : ToWeb V) (es : List (Stream.Event V)) : Decidable (s.FollowsAll es) := FollowsAll.decidable s es

instance [DecidableEq V] (c : Config (ToWeb V) (Frame V) (Event V)) (l : Move (Call V)) : Decidable (Followed toString c l) :=
  have : Decidable c.state.web.Occupied :=
    decidable_of_iff (c.state.web.state = .readable ∧ c.state.web.queue.isEmpty = true ∧ c.state.web.waiting ≠ none)
      (by simp [ReadableStream.Occupied])
  inferInstanceAs (Decidable (_ ∧ _ ∧ _))

variable {toString} {s : ToWeb V}

/-! ## The listeners -/

/-- The web stream yields what was heard. -/
structure Yields (s : ToWeb V) : Prop where
  pull : s.web.pull = false
  delivered : ∃ vs n, ReadableStream.Inv s.web [] vs n
  enqueued : s.web.enqueued = dataOf s.heard
  state : s.web.state = fate s.heard
  closes : .close ∈ s.heard → fate s.heard ≠ .readable

theorem dataOf_append (es es' : List (Stream.Event V)) : dataOf (es ++ es') = dataOf es ++ dataOf es' := filterMap_append

theorem fate_append (es es' : List (Stream.Event V)) : fate (es ++ es') = if fate es = .readable then fate es' else fate es := by
  induction es with
  | nil => rfl
  | cons e es ih =>
    cases e with
    | ended | error e => rfl
    | _ => exact ih

theorem Yields.other {e : Stream.Event V} (h : Yields s) (hdata : dataOf [e] = []) (hfate : fate [e] = .readable)
    (hclose : e = .close → fate s.heard ≠ .readable) : Yields { s with heard := s.heard ++ [e] } := by
  have hsame : fate (s.heard ++ [e]) = fate s.heard := by
    rw [fate_append, hfate]
    split
    · next hreadable => exact hreadable.symm
    · rfl
  refine ⟨h.pull, h.delivered, ?_, h.state.trans hsame.symm, fun hin => ?_⟩
  · rw [dataOf_append, hdata, append_nil]; exact h.enqueued
  · rw [hsame]
    rcases mem_append.1 hin with hin | hin
    · exact h.closes hin
    · exact hclose (mem_singleton.1 hin).symm

theorem Yields.fated {e : Stream.Event V} {web : ReadableStream (Chunk V) StreamError} (h : Yields s) (hdata : dataOf [e] = [])
    (hclose : e ≠ .close) (hpull : web.pull = s.web.pull) (hinv : ∃ vs n, ReadableStream.Inv web [] vs n)
    (henqueued : web.enqueued = s.web.enqueued) (hstate : web.state = if s.web.state = .readable then fate [e] else s.web.state) :
    Yields { s with heard := s.heard ++ [e], web } := by
  refine ⟨hpull.trans h.pull, hinv, ?_, ?_, fun hin => ?_⟩
  · rw [dataOf_append, hdata, append_nil]; exact henqueued.trans h.enqueued
  · rw [fate_append, ← h.state]; exact hstate
  · have hold : .close ∈ s.heard := by
      rcases mem_append.1 hin with hin | hin
      · exact hin
      · exact absurd (mem_singleton.1 hin).symm hclose
    rw [fate_append, if_neg (h.closes hold)]; exact h.closes hold

theorem Yields.hear {e : Stream.Event V} (h : Yields s) (hf : s.attached = true → s.Follows e) : s.throws e = false ∧ Yields (s.hear e) := by
  obtain ⟨vs, n, hinv⟩ := h.delivered
  cases hattached : s.attached with
  | false =>
    rw [show s.hear e = s by simp [ToWeb.hear, hattached]]
    refine ⟨?_, h⟩
    cases e <;> simp [throws, hattached]
  | true =>
    have hfollows := hf hattached
    have hhear : ∀ {web : ReadableStream (Chunk V) StreamError}, Yields { s with heard := s.heard ++ [e], web } → (s.hear e).web = web →
        Yields (s.hear e) := by
      intro web hyields hweb
      have heq : s.hear e = { s with heard := s.heard ++ [e], web } := by
        rw [← hweb]; simp [ToWeb.hear, hattached]
      rwa [heq]
    cases e with
    | data size chunk value =>
      obtain ⟨hcast, hfate⟩ := hfollows
      have hreadable : s.web.state = .readable := h.state.trans hfate
      have hno : s.throws (.data size chunk value) = false := by simp [throws, hcast, hreadable]
      refine ⟨hno, @hhear (s.web.enqueueFromController value).state ?_ (by simp [ToWeb.hear, hattached, hno])⟩
      obtain ⟨-, vs', n', hinv'⟩ := ReadableStream.enqueueFromController_inv value hinv
      refine ⟨by simpa using h.pull, ⟨vs', n', hinv'⟩, ?_, ?_, fun hin => ?_⟩
      · rw [dataOf_append, ReadableStream.enqueueFromController_enqueued value hreadable, h.enqueued]; rfl
      · rw [fate_append, if_pos hfate, ReadableStream.enqueueFromController_state]; exact hreadable
      · have hold : .close ∈ s.heard := by simpa using hin
        exact absurd hfate (h.closes hold)
    | ended =>
      refine ⟨rfl, @hhear s.web.closeFromController ?_ (by simp [ToWeb.hear, hattached, show s.watching = true from hfollows])⟩
      refine h.fated rfl nofun (ReadableStream.closeFromController_pull) ?_ (ReadableStream.closeFromController_enqueued) ?_
      · obtain ⟨n', hinv'⟩ := ReadableStream.closeFromController_inv hinv; exact ⟨vs, n', hinv'⟩
      · unfold ReadableStream.closeFromController
        split
        · next hs => simp [hs, fate]
        · next hs => rw [if_neg hs]
    | error error =>
      refine ⟨rfl, @hhear (s.web.errorFromController error) ?_ (by simp [ToWeb.hear, hattached, show s.watching = true from hfollows])⟩
      refine h.fated rfl nofun (ReadableStream.errorFromController_pull error) ?_ (ReadableStream.errorFromController_enqueued error) ?_
      · obtain ⟨n', hinv'⟩ := ReadableStream.errorFromController_inv error hinv; exact ⟨vs, n', hinv'⟩
      · unfold ReadableStream.errorFromController
        split
        · next hs => simp [hs, fate]
        · next hs => rw [if_neg hs]
    | close => exact ⟨rfl, hhear (h.other rfl rfl (fun _ => hfollows)) (by simp [ToWeb.hear, hattached])⟩
    | _ => exact ⟨rfl, hhear (h.other rfl rfl nofun) (by simp [ToWeb.hear, hattached])⟩

theorem Yields.hearAll : ∀ {es : List (Stream.Event V)} {s : ToWeb V}, Yields s → (s.attached = true → s.FollowsAll es) →
    ∃ s', s.hearAll es = (s', false) ∧ Yields s' ∧ s'.attached = s.attached ∧ (s.attached = true → s'.heard = s.heard ++ es)
  | [], s, h, _ => ⟨s, rfl, h, rfl, fun _ => (append_nil _).symm⟩
  | e :: es, s, h, hf => by
    obtain ⟨hno, hyields⟩ := h.hear (fun ha => (hf ha).1)
    have hattached : (s.hear e).attached = s.attached := by
      unfold ToWeb.hear
      split <;> rfl
    obtain ⟨s', hs', hyields', hsame, hheard⟩ := hyields.hearAll (fun ha => (hf (hattached ▸ ha)).2)
    refine ⟨s', by simp [ToWeb.hearAll, hno, hs'], hyields', hsame.trans hattached, fun ha => ?_⟩
    have hhear : (s.hear e).heard = s.heard ++ [e] := by simp [ToWeb.hear, ha]
    rw [hheard (hattached.trans ha), hhear, append_assoc, singleton_append]

/-! ## The methods -/

theorem hear_readable (r : Readable V) (e : Stream.Event V) : { s with readable := r }.hear e = { s.hear e with readable := r } := by
  obtain ⟨readable, web, attached, objectMode, watching, cancelled, heard⟩ := s
  cases attached <;> cases e <;> rfl

theorem followsAll_readable (r : Readable V) : ∀ {es : List (Stream.Event V)} {s : ToWeb V}, s.FollowsAll es →
    ({ s with readable := r } : ToWeb V).FollowsAll es
  | [], _, _ => trivial
  | e :: es, s, h => by
    refine ⟨?_, ?_⟩
    · cases e <;> exact h.1
    · rw [hear_readable]; exact followsAll_readable r h.2

theorem hear_same (s : ToWeb V) (e : Stream.Event V) : (s.hear e).readable = s.readable ∧ (s.hear e).cancelled = s.cancelled := by
  unfold ToWeb.hear
  split <;> exact ⟨rfl, rfl⟩

theorem hearAll_same : ∀ (es : List (Stream.Event V)) (s : ToWeb V),
    (s.hearAll es).1.readable = s.readable ∧ (s.hearAll es).1.cancelled = s.cancelled
  | [], _ => ⟨rfl, rfl⟩
  | e :: es, s => by
    unfold ToWeb.hearAll
    split
    · exact hear_same s e
    · obtain ⟨hr, hc⟩ := hearAll_same es (s.hear e); exact ⟨hr.trans (hear_same s e).1, hc.trans (hear_same s e).2⟩

/-- What became of the `Readable` since the 'data' listener is there was heard. -/
def Caught (s : ToWeb V) : Prop := s.attached = true → (s.readable.endEmitted = true → .ended ∈ s.heard) ∧
    (s.readable.errored ≠ none → s.readable.destroyed = true ∨ ∃ e, .error e ∈ s.heard) ∧
      (s.readable.closed = true → .close ∈ s.heard)

/-- The web stream follows. -/
def Sound (s : ToWeb V) : Prop := Yields s ∧ Caught s

theorem Sound.through {b : Readable.Result V} {wait : Stream.Frame V → Frame V} (h : Sound s) (hb : Readable.Shows s.readable b)
    (hd : s.readable.destroyed = true → b.state.destroyed = true) (hf : s.attached = true → s.FollowsAll b.seen) :
    Sound (s.through b wait).state ∧ .threw ∉ (s.through b wait).seen := by
  obtain ⟨hyields, hcaught⟩ := h
  have hr : Yields ({ s with readable := b.state } : ToWeb V) :=
    ⟨hyields.pull, hyields.delivered, hyields.enqueued, hyields.state, hyields.closes⟩
  obtain ⟨s', hs', hyields', hattached, hheard⟩ := @Yields.hearAll V b.seen _ hr (fun ha => followsAll_readable b.state (hf ha))
  have hreadable : s'.readable = b.state := by
    have := (hearAll_same b.seen ({ s with readable := b.state } : ToWeb V)).1; rwa [hs'] at this
  unfold ToWeb.through
  rw [hs']
  refine ⟨⟨hyields', fun ha => ?_⟩, by simp⟩
  have ha' : s.attached = true := hattached.symm.trans ha
  obtain ⟨hended, herrored, hclosed⟩ := hcaught ha'
  rw [hreadable, show s'.heard = s.heard ++ b.seen from hheard ha']
  refine ⟨fun h => ?_, fun h => ?_, fun h => ?_⟩
  · rcases hb.ended h with h | h
    · exact mem_append_left _ (hended h)
    · exact mem_append_right _ h
  · rcases hb.errored h with h | h | ⟨e, h⟩
    · exact (herrored h).imp hd (fun ⟨e, he⟩ => ⟨e, mem_append_left _ he⟩)
    · exact .inl h
    · exact .inr ⟨e, mem_append_right _ h⟩
  · rcases hb.closed h with h | h
    · exact mem_append_left _ (hclosed h)
    · exact mem_append_right _ h

theorem Sound.resume {wait : Stream.Frame V → Frame V} (h : Sound s) : Sound (s.through s.readable.resume wait).state := by
  refine (h.through Readable.shows_resume resume_keeps.destroyed (fun _ => ?_)).1
  unfold Readable.resume
  split
  · trivial
  · exact ⟨trivial, trivial⟩

theorem Sound.startRest {b : Result V} (h : Sound b.state) : Sound (ToWeb.startRest b).state := by
  unfold ToWeb.startRest
  split
  · have hw : Sound { b.state with watching := true } := ⟨⟨h.1.pull, h.1.delivered, h.1.enqueued, h.1.state, h.1.closes⟩, h.2⟩
    exact hw.resume
  · exact h

theorem Sound.start (h : Sound s) (hnew : s.readable.endEmitted = false ∧ s.readable.errored = none ∧ s.readable.closed = false) :
    Sound s.start.state := by
  have ha : Sound { s with attached := true, objectMode := s.readable.readableObjectMode } := by
    refine ⟨⟨h.1.pull, h.1.delivered, h.1.enqueued, h.1.state, h.1.closes⟩, fun _ => ⟨fun he => ?_, fun he => ?_, fun he => ?_⟩⟩
    · cases hnew.1.symm.trans he
    · exact absurd hnew.2.1 he
    · cases hnew.2.2.symm.trans he
  have hcall : (s.readable.call (fun _ _ => []) .onData) = some s.readable.newListenerAdded := rfl
  refine Sound.startRest (ha.through (shows_call hcall) (call_keeps hcall).destroyed (fun _ => ?_)).1
  unfold newListenerAdded Readable.resume
  split
  · trivial
  · split
    · trivial
    · exact ⟨trivial, trivial⟩

theorem Yields.read (h : Yields s) (ho : ¬ s.web.Occupied) : Yields { s with web := s.web.readInternal.state } := by
  obtain ⟨vs, n, hinv⟩ := h.delivered
  have hinv' := ReadableStream.readInternal_inv (.inr ho) hinv
  rw [ReadableStream.readInternal_frames h.pull] at hinv'
  exact ⟨(ReadableStream.readInternal_pull).trans h.pull, hinv', (ReadableStream.readInternal_enqueued).trans h.enqueued,
    (ReadableStream.readInternal_state).trans h.state, h.closes⟩

/-! ## What stays -/

theorem through_same (s : ToWeb V) (b : Readable.Result V) (wait : Stream.Frame V → Frame V) :
    (s.through b wait).state.readable = b.state ∧ (s.through b wait).state.cancelled = s.cancelled := by
  have h := hearAll_same b.seen ({ s with readable := b.state } : ToWeb V)
  unfold ToWeb.through
  split
  · next s' heq =>
    rw [heq] at h; exact h
  · next s' heq =>
    rw [heq] at h; exact h

/-- A block that leaves a destroyed `Readable` destroyed, and a cancelled web stream cancelled. -/
def Stays (s : ToWeb V) (b : Result V) : Prop :=
  (s.readable.destroyed = true → b.state.readable.destroyed = true) ∧ b.state.cancelled = s.cancelled

theorem stays_through {b : Readable.Result V} (wait : Stream.Frame V → Frame V) (hb : s.readable.destroyed = true → b.state.destroyed = true) :
    Stays s (s.through b wait) := by
  obtain ⟨hr, hc⟩ := through_same s b wait; exact ⟨fun hd => hr ▸ hb hd, hc⟩

theorem stays_startRest {b : Result V} (h : Stays s b) : Stays s (ToWeb.startRest b) := by
  unfold ToWeb.startRest
  split
  · obtain ⟨hd, hc⟩ := stays_through (s := { b.state with watching := true }) .readable
      (resume_keeps (r := b.state.readable)).destroyed
    exact ⟨fun hs => hd (h.1 hs), hc.trans h.2⟩
  · exact h

theorem stays_start (s : ToWeb V) : Stays s s.start := by
  refine stays_startRest (stays_through (s := { s with attached := true, objectMode := s.readable.readableObjectMode }) .starting ?_)
  unfold newListenerAdded
  split
  · exact id
  · exact resume_keeps.destroyed

theorem cancel_destroys (reason : Option StreamError) : (s.cancel reason).state.readable.destroyed = true := by
  unfold ToWeb.cancel
  rw [(through_same _ _ _).1]
  unfold destroy
  split
  · next hd => exact hd
  · rfl

theorem push_destroyed (chunk : Option (Chunk V)) (hd : s.readable.destroyed = true) :
    ∃ b, s.call toString (.readable (.push chunk)) = some b ∧ b.seen = [.readable (.pushReturned false)] ∧ b.frames = [] := by
  have hpush : s.readable.push chunk = { state := s.readable, seen := [.pushReturned false] } := by
    simp [push, hd, Readable.returned]
  refine ⟨_, rfl, ?_, ?_⟩
  · rw [hpush]; rfl
  · rw [hpush]; rfl

/-! ## Runs -/

theorem stays_call {k : Call V} {b : Result V} (hb : s.call toString k = some b) :
    (s.readable.destroyed = true → b.state.readable.destroyed = true) ∧
      (b.state.cancelled = s.cancelled ∨ b.state.readable.destroyed = true) := by
  cases k with
  | readable k =>
    obtain ⟨b', hb', rfl⟩ := Option.map_eq_some_iff.1 hb
    obtain ⟨hd, hc⟩ := stays_through (s := s) .readable (call_keeps hb').destroyed
    exact ⟨hd, .inl hc⟩
  | toWeb =>
    rw [show s.call toString .toWeb = if s.attached then none else some s.start from rfl] at hb
    split at hb
    · cases hb
    · cases hb
      obtain ⟨hd, hc⟩ := stays_start s; exact ⟨hd, .inl hc⟩
  | read => cases hb; exact ⟨id, .inl rfl⟩
  | cancel reason => cases hb; exact ⟨fun _ => cancel_destroys reason, .inr (cancel_destroys reason)⟩

theorem stays_goOn (f : Frame V) : Stays s (s.goOn toString f) := by
  cases f with
  | readable f => exact stays_through .readable (goOn_keeps f).destroyed
  | starting f => exact stays_startRest (stays_through .starting (goOn_keeps f).destroyed)

/-- **A cancelled web stream has destroyed its `Readable`**, in every run. -/
theorem cancelled_destroyed {r : Readable V} {P : Config (ToWeb V) (Frame V) (Event V) → Move (Call V) → Prop} {ls : List (Move (Call V))}
    {c : Config (ToWeb V) (Frame V) (Event V)} (h : Run (program toString).step P { state := { readable := r } } ls c) :
    c.state.cancelled = true → c.state.readable.destroyed = true := by
  refine Reentrant.invariant (I := fun c => c.state.cancelled = true → c.state.readable.destroyed = true) (fun c k b hI _ _ hcall => ?_)
    (fun c f fs hI _ => ?_) h nofun
  · obtain ⟨hd, hc⟩ := stays_call hcall
    rcases hc with hc | hc
    · exact fun hcancelled => hd (hI (hc ▸ hcancelled))
    · exact fun _ => hc
  · obtain ⟨hd, hc⟩ := @stays_goOn V toString c.state f; exact fun hcancelled => hd (hI (hc ▸ hcancelled))

theorem sound_run {r : Readable V} {ls : List (Move (Call V))} {c : Config (ToWeb V) (Frame V) (Event V)}
    (h : Run (program toString).step (Followed toString) { state := { readable := r } } ls c) : c.state.cancelled = false → Sound c.state := by
  refine Reentrant.invariant_of (I := fun c => c.state.cancelled = false → Sound c.state) (fun c k b hI hP _ hcall => ?_)
    (fun c f fs hI hP hstack => ?_) h
    (fun _ => ⟨⟨rfl, ⟨[], 0, ReadableStream.inv_of_not_waiting rfl rfl rfl nofun (.inl rfl)⟩, rfl, rfl, nofun⟩, nofun⟩)
  · obtain ⟨hfollows, hstart, hread⟩ := hP
    cases k with
    | readable k =>
      obtain ⟨b', hb', rfl⟩ := Option.map_eq_some_iff.1 hcall
      intro hc
      have hc' : c.state.cancelled = false := (through_same _ _ _).2 ▸ hc
      refine ((hI hc').through (shows_call hb') (call_keeps hb').destroyed (fun ha => ?_)).1
      have hemits := hfollows ha hc'
      rwa [show emits toString c (.call (.readable k)) = b'.seen by simp [emits, hb']] at hemits
    | toWeb =>
      rw [show (program toString).call c.state .toWeb = if c.state.attached then none else some c.state.start from rfl] at hcall
      split at hcall
      · cases hcall
      · next hattached =>
        cases hcall
        intro hc
        exact (hI ((stays_start c.state).2 ▸ hc)).start (hstart rfl (Bool.eq_false_iff.2 hattached))
    | read => cases hcall; exact fun hc => ⟨(hI hc).1.read (hread rfl), (hI hc).2⟩
    | cancel reason =>
      cases hcall
      intro hc; rw [Block.onto_state, ToWeb.cancel, (through_same _ _ _).2] at hc; cases hc
  · intro hc
    have hc' : c.state.cancelled = false := (@stays_goOn V toString c.state f).2 ▸ hc
    have hemits := fun ha => hP.1 ha hc'
    unfold emits at hemits
    rw [hstack] at hemits
    cases f with
    | readable f => exact ((hI hc').through (shows_goOn f) (goOn_keeps f).destroyed hemits).1
    | starting f => exact Sound.startRest ((hI hc').through (shows_goOn f) (goOn_keeps f).destroyed hemits).1

theorem fate_of_mem {e : Stream.Event V} {es : List (Stream.Event V)} (h : e ∈ es) (he : fate [e] ≠ .readable) : fate es ≠ .readable := by
  obtain ⟨before, after, rfl⟩ := append_of_mem h
  have htail : fate (e :: after) ≠ .readable := by rw [← singleton_append, fate_append, if_neg he]; exact he
  rw [fate_append]
  split
  · exact htail
  · assumption

/-- **`toWeb` yields what is emitted**: the reads get the chunks in order, then the fate of the `Readable`, and none stays pending once it
has ended, failed or been closed. -/
structure Bridged (s : ToWeb V) : Prop where
  reads : ReadableStream.Delivered ⟨s.web, [], []⟩
  enqueued : s.web.enqueued = dataOf s.heard
  state : s.web.state = fate s.heard
  ended : s.readable.endEmitted = true → .ended ∈ s.heard
  errored : s.readable.errored ≠ none → s.readable.destroyed = true ∨ ∃ e, .error e ∈ s.heard
  finished : s.readable.endEmitted = true ∨ s.readable.closed = true → s.web.state ≠ .readable

theorem Sound.bridged (h : Sound s) (ha : s.attached = true) : Bridged s := by
  obtain ⟨hyields, hcaught⟩ := h
  obtain ⟨hended, herrored, hclosed⟩ := hcaught ha
  refine ⟨ReadableStream.delivered_of_inv hyields.delivered, hyields.enqueued, hyields.state, hended, herrored, fun h => ?_⟩
  rw [hyields.state]
  rcases h with h | h
  · exact fate_of_mem (hended h) nofun
  · exact hyields.closes (hclosed h)

end ToWeb

end NodeCompat.Stream
