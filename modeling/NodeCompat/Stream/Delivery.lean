import NodeCompat.Stream.Readable

/-!
# What a `Readable` delivers

`Queue` says what a readable stream is for: chunks wait in the order in which `push` and `unshift` put them, each `'data'`
takes the first of them (a `read` with a size may cut it), a `read` returns the value it emitted, and `'end'` comes once,
after the end was pushed and nothing waits. Whatever is called, and from whichever handler, what is seen of a stream is
accepted by the queue and `pending_` is what waits in it (`accepted`).

`'end'` also has to come. It does in the runs in which the end is not pushed onto a flowing stream that holds chunks and is
not draining them (`delivers_exactly`). `unshift` does not drain what it puts into a flowing stream, as `push` does, and
`pushEnd` does not either: in such a stream the end stays away (`unshift_withholds_end`).
-/

namespace NodeCompat.Stream

open List Option Reentrant

variable {V : Type} (toString : BufferEncoding → Bytes → List UInt16)

/-! ## The queue -/

structure Queue (V : Type) where
  objectMode : Bool
  encoding : Option BufferEncoding
  delivered : List (Chunk V) := []
  waiting : List (Chunk V) := []
  closed : Bool := false
  finished : Bool := false
  -- the values of the `read` calls that have emitted theirs and not returned it
  reads : List (Chunk V) := []

/-- The chunks in queue order. -/
def Queue.order (q : Queue V) : List (Chunk V) := q.delivered ++ q.waiting

/-- `first` is the chunk that goes next, or the part of it that `read(size)` cuts off; `rest` waits behind it. -/
inductive Queue.First (q : Queue V) : Option Nat → Chunk V → List (Chunk V) → Prop
  | flowing {first rest} : q.waiting = first :: rest → First q none first rest
  | whole {size first rest} : q.waiting = first :: rest → cutChunk q.objectMode size first = none →
      First q (some size) first rest
  | cut {size chunk rest part left} : q.waiting = chunk :: rest →
      cutChunk q.objectMode size chunk = some (part, left) → First q (some size) part (left :: rest)

inductive Queue.Next : Queue V → Event V → Queue V → Prop
  | pushed {q chunk} : q.closed = false → Next q (.pushed chunk) { q with waiting := q.waiting ++ [chunk] }
  | unshifted {q chunk} : Next q (.unshifted chunk) { q with waiting := chunk :: q.waiting }
  | endPushed {q} : q.closed = false → Next q .endPushed { q with closed := true }
  | encodingSet {q encoding} : Next q (.encodingSet encoding) { q with encoding := some encoding }
  | data {q first rest} : q.First none first rest →
      Next q (.data none first (emittedChunk toString q.encoding first))
        { q with delivered := q.delivered ++ [first], waiting := rest }
  | dataRead {q size first rest} : q.First (some size) first rest →
      Next q (.data (some size) first (emittedChunk toString q.encoding first))
        { q with
          delivered := q.delivered ++ [first]
          waiting := rest
          reads := emittedChunk toString q.encoding first :: q.reads }
  | readReturned {q value values} : q.reads = value :: values →
      Next q (.readReturned (some value)) { q with reads := values }
  | readNothing {q} : Next q (.readReturned none) q
  | ended {q} : q.closed = true → q.waiting = [] → q.finished = false → Next q .ended { q with finished := true }
  | readable {q} : Next q .readable q
  | pause {q} : Next q .pause q
  | resume {q} : Next q .resume q
  | error {q e} : Next q (.error e) q
  | close {q} : Next q .close q
  | fetch {q size} : Next q (.fetch size) q
  | pushReturned {q more} : Next q (.pushReturned more) q

/-- The queue accepts a trace. -/
inductive Queue.Accepts : Queue V → List (Event V) → Queue V → Prop
  | nil (q : Queue V) : Accepts q [] q
  | cons {q q' q'' : Queue V} {e : Event V} {es : List (Event V)} : Queue.Next toString q e q' → Accepts q' es q'' →
      Accepts q (e :: es) q''

/-- The chunks that went out as `'data'`. -/
def deliveredChunks (es : List (Event V)) : List (Chunk V) := es.filterMap fun
    | .data _ chunk _ => some chunk
    | _ => none

namespace Queue

variable {toString} {q q' q'' : Queue V} {es es' : List (Event V)}

theorem Accepts.append (h : Accepts toString q es q') (h' : Accepts toString q' es' q'') :
    Accepts toString q (es ++ es') q'' := by
  induction h with
  | nil q => exact h'
  | cons hn _ ih => exact .cons hn (ih h')

theorem Accepts.single {e : Event V} (h : Next toString q e q') : Accepts toString q [e] q' := .cons h (.nil _)

theorem Next.data_of_encoding {encoding : Option BufferEncoding} {first : Chunk V} {rest : List (Chunk V)}
    (he : q.encoding = encoding) (h : q.First none first rest) :
    Next toString q (.data none first (emittedChunk toString encoding first))
      { q with delivered := q.delivered ++ [first], waiting := rest } := by
  subst he; exact .data h

theorem Next.dataRead_of_encoding {encoding : Option BufferEncoding} {size : Nat} {first : Chunk V}
    {rest : List (Chunk V)} (he : q.encoding = encoding) (h : q.First (some size) first rest) :
    Next toString q (.data (some size) first (emittedChunk toString encoding first))
      { q with
        delivered := q.delivered ++ [first]
        waiting := rest
        reads := emittedChunk toString encoding first :: q.reads } := by
  subst he; exact .dataRead h

theorem Next.delivered {e : Event V} (h : Next toString q e q') : q'.delivered = q.delivered ++ deliveredChunks [e] := by
  cases h <;> simp [deliveredChunks]

theorem Accepts.delivered (h : Accepts toString q es q') : q'.delivered = q.delivered ++ deliveredChunks es := by
  induction h with
  | nil q => simp [deliveredChunks]
  | @cons q q' q'' e es hn _ ih =>
    have happ : deliveredChunks (e :: es) = deliveredChunks [e] ++ deliveredChunks es := by
      unfold deliveredChunks; rw [← filterMap_append, singleton_append]
    rw [ih, hn.delivered, happ, append_assoc]

theorem Next.finished {e : Event V} (h : Next toString q e q') (hf : q'.finished = true) :
    q.finished = true ∨ e = .ended := by
  cases h <;> simp_all

theorem Accepts.finished (h : Accepts toString q es q') (hf : q'.finished = true) :
    q.finished = true ∨ Event.ended ∈ es := by
  induction h with
  | nil q => exact .inl hf
  | cons hn _ ih =>
    obtain hq | he := ih hf
    · obtain hq | rfl := hn.finished hq
      · exact .inl hq
      · exact .inr (mem_cons_self)
    · exact .inr (mem_cons_of_mem _ he)

end Queue

/-! ## The stream refines the queue -/

/-- The values that the `read` calls under way will return. -/
def readValues (stack : List (Frame V)) : List (Chunk V) := stack.filterMap fun
    | .reading value => some value
    | _ => none

structure Matches (q : Queue V) (r : Readable V) (stack : List (Frame V)) : Prop where
  objectMode : q.objectMode = r.readableObjectMode
  encoding : q.encoding = r.encoding
  waiting : q.waiting = r.pending
  closed : q.closed = r.endPending
  finished : q.finished = r.endEmitted
  reads : q.reads = readValues stack
  scheduled : r.endScheduled = true → r.endPending = true

/-- What the block shows is accepted, and the queue matches what it leaves. -/
def Refines (q : Queue V) (b : Readable.Result V) (stack : List (Frame V)) : Prop :=
  ∃ q', Queue.Accepts toString q b.seen q' ∧ Matches q' b.state (b.frames ++ stack)

open Readable

namespace Readable

variable {toString} {q : Queue V} {r : Readable V} {stack : List (Frame V)}

theorem matches_maybeEmitEnd (h : Matches q r stack) : Matches q r.maybeEmitEnd stack := by
  unfold maybeEmitEnd
  split
  · exact h
  · next hn =>
    refine ⟨h.objectMode, h.encoding, h.waiting, h.closed, h.finished, h.reads, fun _ => ?_⟩
    simp only [Bool.or_eq_true, Bool.not_eq_true', not_or, Bool.not_eq_false] at hn; exact hn.1.1.1

theorem refines_of_seen_nil {r' : Readable V} (h : Matches q r' stack) : Refines toString q { state := r' } stack :=
  ⟨q, .nil q, h⟩

theorem returned_refines (ret : Return) (h : Matches q r stack) : Refines toString q (r.returned ret) stack := by
  cases ret with
  | nothing => exact ⟨q, .nil q, h⟩
  | length | refused => exact ⟨q, .single .pushReturned, h⟩

theorem destroy_refines (error : Option StreamError) (ret : Return) (h : Matches q r stack) :
    Refines toString q (r.destroy error ret) stack := by
  unfold destroy
  split
  · exact returned_refines ret h
  · exact ⟨q, .nil q, h.objectMode, h.encoding, h.waiting, h.closed, h.finished, h.reads, h.scheduled⟩

theorem closing_refines (h : Matches q r stack) :
    Refines toString q { state := { r with closed := true }, seen := [.close], frames := [.closing] } stack :=
  ⟨q, .single .close, h.objectMode, h.encoding, h.waiting, h.closed, h.finished, h.reads, h.scheduled⟩

theorem destroyCallback_refines (error : Option StreamError) (h : Matches q r stack) :
    Refines toString q (r.destroyCallback error) stack := by
  cases error with
  | none => exact closing_refines h
  | some e => exact ⟨q, .single .error, h.objectMode, h.encoding, h.waiting, h.closed, h.finished, h.reads, h.scheduled⟩

theorem errorOrDestroy_refines (error : StreamError) (ret : Return) (h : Matches q r stack) :
    Refines toString q (r.errorOrDestroy error ret) stack := by
  unfold errorOrDestroy
  split
  · exact returned_refines ret h
  · split
    · exact destroy_refines _ ret h
    · exact ⟨q, .single .error, h.objectMode, h.encoding, h.waiting, h.closed, h.finished, h.reads, h.scheduled⟩

theorem drainFlowing_refines (ret : Return) (h : Matches q r stack) :
    Refines toString q (r.drainFlowing toString ret) stack := by
  unfold drainFlowing
  split
  · next chunk rest _ hp =>
    exact ⟨_, .single (.data_of_encoding h.encoding (.flowing (h.waiting.trans hp))), h.objectMode, h.encoding, rfl,
      h.closed, h.finished, h.reads, h.scheduled⟩
  · exact returned_refines ret (matches_maybeEmitEnd h)

theorem pushEnd_refines (ret : Return) (h : Matches q r stack) : Refines toString q (r.pushEnd ret) stack := by
  unfold pushEnd
  split
  · exact returned_refines ret h
  · next hd =>
    have hc : q.closed = false := by
      rw [h.closed]
      simp_all
    exact ⟨_, .cons (.endPushed hc) (.single .readable), h.objectMode, h.encoding, h.waiting, rfl, h.finished, h.reads,
      fun _ => rfl⟩

theorem push_refines (chunk : Option (Chunk V)) (h : Matches q r stack) :
    Refines toString q (r.push chunk) stack := by
  unfold push
  split
  · exact returned_refines .refused h
  · split
    · cases chunk with
      | none => exact returned_refines .refused h
      | some chunk => exact errorOrDestroy_refines _ _ h
    · next he =>
      cases chunk with
      | none => exact pushEnd_refines .refused h
      | some chunk =>
        have hc : q.closed = false := by rw [h.closed]; simpa using he
        refine ⟨_, .cons (.pushed hc) (.single .readable), h.objectMode, h.encoding, ?_, h.closed, h.finished, h.reads, h.scheduled⟩
        rw [h.waiting]

theorem unshift_refines (chunk : Option (Chunk V)) (h : Matches q r stack) :
    Refines toString q (r.unshift chunk) stack := by
  unfold unshift
  split
  · exact refines_of_seen_nil h
  · split
    · exact refines_of_seen_nil h
    · refine ⟨_, .single .unshifted, h.objectMode, h.encoding, ?_, h.closed, h.finished, h.reads, h.scheduled⟩
      rw [h.waiting]

theorem readChunk_refines {size : Nat} {chunk : Chunk V} {rest : List (Chunk V)} (hq : q.First (some size) chunk rest)
    (h : Matches q r stack) : Refines toString q (r.readChunk toString size chunk rest) stack := by
  refine ⟨_, .single (.dataRead_of_encoding h.encoding hq), h.objectMode, h.encoding, rfl, h.closed, h.finished, ?_, h.scheduled⟩
  rw [h.reads]; rfl

theorem read_refines (size : Nat) (h : Matches q r stack) : Refines toString q (r.read toString size) stack := by
  unfold read
  split
  · exact ⟨q, .single .fetch, h.objectMode, h.encoding, h.waiting, h.closed, h.finished, h.reads, h.scheduled⟩
  · next chunk rest hp =>
    have hw : q.waiting = chunk :: rest := h.waiting.trans hp
    split
    · next part left hc =>
      rw [← h.objectMode] at hc; exact readChunk_refines (.cut hw hc) h
    · next hc =>
      rw [← h.objectMode] at hc; exact readChunk_refines (.whole hw hc) h

theorem pause_refines (h : Matches q r stack) : Refines toString q r.pause stack :=
  ⟨q, .single .pause, h.objectMode, h.encoding, h.waiting, h.closed, h.finished, h.reads, h.scheduled⟩

theorem resume_refines (h : Matches q r stack) : Refines toString q r.resume stack := by
  unfold resume
  split
  · exact refines_of_seen_nil h
  · exact ⟨q, .single .resume, h.objectMode, h.encoding, h.waiting, h.closed, h.finished, h.reads, h.scheduled⟩

theorem checkpoint_refines (side : Bool) (h : Matches q r stack) : Refines toString q (r.checkpoint side) stack := by
  unfold checkpoint
  split
  · exact refines_of_seen_nil h
  · split
    · exact refines_of_seen_nil ⟨h.objectMode, h.encoding, h.waiting, h.closed, h.finished, h.reads, nofun⟩
    · next hs he =>
      simp only [Bool.or_eq_true, Bool.not_eq_true', not_or, Bool.not_eq_true, Bool.not_eq_false, List.isEmpty_iff] at hs he
      obtain ⟨⟨⟨he, -⟩, -⟩, hp⟩ := he
      have hn : Queue.Next toString q .ended { q with finished := true } :=
        .ended (h.closed.trans (h.scheduled hs)) (h.waiting.trans hp) (h.finished.trans he)
      exact ⟨_, .single hn, h.objectMode, h.encoding, h.waiting, h.closed, rfl, h.reads, nofun⟩

theorem call_refines {k : Call V} {b : Result V} (hb : r.call toString k = some b) (h : Matches q r stack) :
    Refines toString q b stack := by
  cases k with
  | push chunk => cases hb; exact push_refines chunk h
  | pushEnd => cases hb; exact pushEnd_refines .nothing h
  | unshift chunk => cases hb; exact unshift_refines chunk h
  | pause => cases hb; exact pause_refines h
  | resume => cases hb; exact resume_refines h
  | onData =>
    cases hb
    unfold newListenerAdded
    split
    · exact refines_of_seen_nil h
    · exact resume_refines h
  | read size => cases hb; exact read_refines size h
  | setEncoding encoding =>
    cases hb; exact ⟨_, .single .encodingSet, h.objectMode, rfl, h.waiting, h.closed, h.finished, h.reads, h.scheduled⟩
  | destroy error => cases hb; exact destroy_refines error .nothing h
  | destroyed error =>
    unfold call at hb
    dsimp only at hb
    split at hb
    · cases hb; exact destroyCallback_refines error h
    · cases hb
  | checkpoint side => cases hb; exact checkpoint_refines side h

theorem matches_pop {f : Frame V} (hf : readValues [f] = []) (h : Matches q r (f :: stack)) : Matches q r stack := by
  refine ⟨h.objectMode, h.encoding, h.waiting, h.closed, h.finished, ?_, h.scheduled⟩
  have happ : readValues (f :: stack) = readValues [f] ++ readValues stack := by
    unfold readValues; rw [← filterMap_append, singleton_append]
  rw [h.reads, happ, hf, nil_append]

theorem goOn_refines {f : Frame V} (h : Matches q r (f :: stack)) : Refines toString q (r.goOn toString f) stack := by
  cases f with
  | reading value =>
    have hr : q.reads = value :: readValues stack := h.reads
    refine ⟨_, .single (.readReturned hr), matches_maybeEmitEnd ?_⟩
    exact ⟨h.objectMode, h.encoding, h.waiting, h.closed, h.finished, rfl, h.scheduled⟩
  | fetching => exact ⟨q, .single .readNothing, matches_maybeEmitEnd (matches_pop rfl h)⟩
  | pushed =>
    unfold goOn
    dsimp only
    split
    · exact returned_refines .length (matches_pop rfl h)
    · exact drainFlowing_refines .length (matches_pop rfl h)
  | endPushed ret =>
    unfold goOn
    dsimp only
    split
    · exact returned_refines ret (matches_pop rfl h)
    · exact returned_refines ret (matches_maybeEmitEnd (matches_pop rfl h))
  | draining ret => exact drainFlowing_refines ret (matches_pop rfl h)
  | resumed => exact drainFlowing_refines .nothing (matches_pop rfl h)
  | ended side =>
    unfold goOn
    dsimp only
    split
    · exact destroy_refines none .nothing (matches_pop rfl h)
    · exact refines_of_seen_nil (matches_pop rfl h)
  | errorEmitted ret | destroying ret => exact returned_refines ret (matches_pop rfl h)
  | destroyError => exact closing_refines (matches_pop rfl h)
  | paused | closing => exact refines_of_seen_nil (matches_pop rfl h)

variable (toString) in
/-- What was seen of the stream is accepted by the queue that starts as `q`. -/
def Accepted (q : Queue V) (c : Config (Readable V) (Frame V) (Event V)) : Prop :=
  ∃ q', Queue.Accepts toString q c.trace q' ∧ Matches q' c.state c.stack

theorem accepted_onto {q : Queue V} {b : Result V} {stack : List (Frame V)} {trace : List (Event V)} {q' : Queue V}
    (ha : Queue.Accepts toString q trace q') (h : Refines toString q' b stack) :
    Accepted toString q (b.onto stack trace) := by
  obtain ⟨q'', hb, hm⟩ := h; exact ⟨q'', ha.append hb, hm⟩

/-- **The stream refines the queue**, in every run. -/
theorem accepted {P : Config (Readable V) (Frame V) (Event V) → Move (Call V) → Prop} {objectMode autoDestroy : Bool}
    {highWaterMark : Nat} {encoding : Option BufferEncoding} {ls : List (Move (Call V))}
    {c : Config (Readable V) (Frame V) (Event V)}
    (h : Run (program toString).step P (create objectMode highWaterMark autoDestroy encoding) ls c) :
    Accepted toString { objectMode, encoding } c := by
  refine invariant (fun c k b hI _ _ hb => ?_) (fun c f fs hI hs => ?_) h ?_
  · obtain ⟨q, ha, hm⟩ := hI; exact accepted_onto ha (call_refines hb hm)
  · obtain ⟨q, ha, hm⟩ := hI; rw [hs] at hm; exact accepted_onto ha (goOn_refines hm)
  · exact ⟨_, .nil _, rfl, rfl, rfl, rfl, rfl, rfl, nofun⟩

end Readable

/-! ## The end comes -/

/-- The frames that go on with `drainFlowing` if the stream is flowing then. -/
def Frame.drains : Frame V → Bool
  | .pushed | .draining _ | .resumed => true
  | _ => false

/-- The frames that go on with `maybeEmitEnd` if the stream is flowing then. -/
def Frame.settles : Frame V → Bool
  | .endPushed _ | .fetching | .reading _ => true
  | _ => false

namespace Readable

variable {toString} {q : Queue V} {r : Readable V} {stack : List (Frame V)}

variable {chunk : Chunk V} {f : Frame V} {b : Result V}

variable (ret : Return)

/-- `'end'` was emitted or its microtask is queued. -/
def EndSettled (r : Readable V) : Prop := r.endEmitted = true ∨ r.endScheduled = true

/-- What every block keeps. -/
structure Keeps (r : Readable V) (b : Result V) : Prop where
  destroyed : r.destroyed = true → b.state.destroyed = true
  endEmitted : r.endEmitted = true → b.state.endEmitted = true
  quiet : b.seen = [] → b.state.pending = r.pending ∧ b.state.endPending = r.endPending
  exhausted : ∀ v, b.seen.getLast? = some (.readReturned v) → b.state.endPending = true → b.state.pending = [] →
    b.state.EndSettled
  settled : r.errored = none → (r.endScheduled = true → r.pending = []) → r.EndSettled →
    b.state.destroyed = true ∨ b.state.EndSettled

theorem maybeEmitEnd_eq (r : Readable V) :
    r.maybeEmitEnd = r ∨ r.endPending = true ∧ r.pending = [] ∧ r.endEmitted = false ∧ r.endScheduled = false ∧
      r.maybeEmitEnd = { r with endScheduled := true } := by
  unfold maybeEmitEnd
  split
  · exact .inl rfl
  · next hn =>
    simp only [Bool.or_eq_true, Bool.not_eq_true', not_or, Bool.not_eq_true, Bool.not_eq_false, List.isEmpty_iff] at hn
    obtain ⟨⟨⟨he, hp⟩, hm⟩, hs⟩ := hn; exact .inr ⟨he, hp, hm, hs, rfl⟩

theorem endSettled_maybeEmitEnd (he : r.endPending = true) (hp : r.pending = []) : r.maybeEmitEnd.EndSettled := by
  unfold maybeEmitEnd
  split
  · next hn =>
    simp only [he, hp, isEmpty_nil, Bool.not_true, Bool.false_or, Bool.or_eq_true] at hn; exact hn
  · exact .inr rfl

theorem EndSettled.maybeEmitEnd (h : r.EndSettled) : r.maybeEmitEnd.EndSettled := by
  obtain he | ⟨-, -, -, -, he⟩ := maybeEmitEnd_eq r
  · rwa [he]
  · rw [he]; exact .inr rfl

theorem returned_keeps : Keeps r (r.returned ret) := by
  cases ret <;> exact ⟨id, id, by simp [returned], by simp [returned], fun _ _ => .inr⟩

theorem maybeEmitEnd_keeps : Keeps r (r.maybeEmitEnd.returned ret) := by
  obtain he | ⟨-, -, -, -, he⟩ := maybeEmitEnd_eq r
  · rw [he]; exact returned_keeps ret
  · rw [he]
    cases ret <;> exact ⟨id, id, by simp [returned], by simp [returned], fun _ _ _ => .inr (.inr rfl)⟩

theorem destroy_keeps (error : Option StreamError) (ret : Return) : Keeps r (r.destroy error ret) := by
  unfold destroy
  split
  · exact returned_keeps ret
  · exact ⟨fun _ => rfl, id, fun _ => ⟨rfl, rfl⟩, by simp, fun _ _ => .inr⟩

theorem errorOrDestroy_keeps (error : StreamError) (ret : Return) : Keeps r (r.errorOrDestroy error ret) := by
  unfold errorOrDestroy
  split
  · exact returned_keeps ret
  · split
    · exact destroy_keeps _ ret
    · exact ⟨id, id, by simp, by simp, fun _ _ => .inr⟩

theorem drainFlowing_keeps : Keeps r (r.drainFlowing toString ret) := by
  unfold drainFlowing
  split
  · exact ⟨id, id, by simp, by simp, fun _ _ => .inr⟩
  · exact maybeEmitEnd_keeps ret

theorem resume_keeps : Keeps r r.resume := by
  unfold resume
  split
  · exact ⟨id, id, fun _ => ⟨rfl, rfl⟩, by simp, fun _ _ => .inr⟩
  · exact ⟨id, id, by simp, by simp, fun _ _ => .inr⟩

theorem pushEnd_keeps : Keeps r (r.pushEnd ret) := by
  unfold pushEnd
  split
  · exact returned_keeps ret
  · exact ⟨id, id, by simp, by simp, fun _ _ => .inr⟩

theorem push_keeps (chunk : Option (Chunk V)) : Keeps r (r.push chunk) := by
  unfold push
  split
  · exact returned_keeps .refused
  · split
    · cases chunk with
      | none => exact returned_keeps .refused
      | some chunk => exact errorOrDestroy_keeps _ _
    · cases chunk with
      | none => exact pushEnd_keeps .refused
      | some chunk => exact ⟨id, id, by simp, by simp, fun _ _ => .inr⟩

theorem unshift_keeps (chunk : Option (Chunk V)) : Keeps r (r.unshift chunk) := by
  unfold unshift
  split
  · exact ⟨id, id, fun _ => ⟨rfl, rfl⟩, by simp, fun _ _ => .inr⟩
  · split
    · exact ⟨id, id, fun _ => ⟨rfl, rfl⟩, by simp, fun _ _ => .inr⟩
    · exact ⟨id, id, by simp, by simp, fun _ _ => .inr⟩

theorem read_keeps (size : Nat) : Keeps r (r.read toString size) := by
  unfold read
  split
  · exact ⟨id, id, by simp, by simp, fun _ _ => .inr⟩
  · split <;> exact ⟨id, id, by simp [readChunk], by simp [readChunk], fun _ _ => .inr⟩

theorem checkpoint_keeps (side : Bool) : Keeps r (r.checkpoint side) := by
  unfold checkpoint
  split
  · exact ⟨id, id, fun _ => ⟨rfl, rfl⟩, by simp, fun _ _ => .inr⟩
  · split
    · next hs he =>
      refine ⟨id, id, fun _ => ⟨rfl, rfl⟩, by simp, fun hn hp _ => ?_⟩
      simp only [Bool.not_eq_true', Bool.not_eq_false] at hs
      simp only [hn, hp hs, isSome_none, isEmpty_nil, Bool.not_true, Bool.or_false, Bool.or_eq_true] at he
      obtain he | hd := he
      · exact .inr (.inl he)
      · exact .inl hd
    · exact ⟨id, fun _ => rfl, by simp, by simp, fun _ _ _ => .inr (.inl rfl)⟩

theorem call_keeps {k : Call V} (hb : r.call toString k = some b) : Keeps r b := by
  cases k with
  | push chunk => cases hb; exact push_keeps chunk
  | pushEnd => cases hb; exact pushEnd_keeps .nothing
  | unshift chunk => cases hb; exact unshift_keeps chunk
  | pause => cases hb; exact ⟨id, id, by simp [pause], by simp [pause], fun _ _ => .inr⟩
  | resume => cases hb; exact resume_keeps
  | onData =>
    cases hb
    unfold newListenerAdded
    split
    · exact ⟨id, id, fun _ => ⟨rfl, rfl⟩, by simp, fun _ _ => .inr⟩
    · exact resume_keeps
  | read size => cases hb; exact read_keeps size
  | setEncoding encoding => cases hb; exact ⟨id, id, by simp, by simp, fun _ _ => .inr⟩
  | destroy error => cases hb; exact destroy_keeps error .nothing
  | destroyed error =>
    unfold call at hb
    dsimp only at hb
    split at hb
    · cases hb
      cases error <;> exact ⟨id, id, by simp [destroyCallback], by simp [destroyCallback], fun _ _ => .inr⟩
    · cases hb
  | checkpoint side => cases hb; exact checkpoint_keeps side

theorem goOn_keeps (f : Frame V) : Keeps r (r.goOn toString f) := by
  have hread : ∀ v, Keeps r { state := r.maybeEmitEnd, seen := [.readReturned v] } := by
    intro v
    obtain he | ⟨-, -, -, -, he⟩ := maybeEmitEnd_eq r
    · refine ⟨by rw [he]; exact id, by rw [he]; exact id, by simp, fun _ _ hp hq => ?_, fun _ _ hs => .inr hs.maybeEmitEnd⟩
      rw [he] at hp hq; exact endSettled_maybeEmitEnd hp hq
    · rw [he]; exact ⟨id, id, by simp, fun _ _ _ _ => .inr rfl, fun _ _ _ => .inr (.inr rfl)⟩
  cases f with
  | reading value => exact hread (some value)
  | fetching => exact hread none
  | pushed =>
    unfold goOn
    dsimp only
    split
    · exact returned_keeps .length
    · exact drainFlowing_keeps .length
  | endPushed ret =>
    unfold goOn
    dsimp only
    split
    · exact returned_keeps ret
    · exact maybeEmitEnd_keeps ret
  | draining ret => exact drainFlowing_keeps ret
  | resumed => exact drainFlowing_keeps .nothing
  | ended side =>
    unfold goOn
    dsimp only
    split
    · exact destroy_keeps none .nothing
    · exact returned_keeps .nothing
  | errorEmitted ret | destroying ret => exact returned_keeps ret
  | destroyError => exact ⟨id, id, by simp [goOn], by simp [goOn], fun _ _ => .inr⟩
  | paused | closing => exact returned_keeps .nothing

/-- What holds in a run that meets the condition, as long as the stream is not destroyed. -/
structure Live (r : Readable V) (stack : List (Frame V)) : Prop where
  unharmed : r.errored = none
  scheduled : r.endScheduled = true → r.endPending = true ∧ r.pending = [] ∧ r.endEmitted = false
  -- on the way to `'end'` of a flowing stream there is always a frame that sees to it
  due : r.endPending = true → r.paused = false →
    r.EndSettled ∨ ∃ f ∈ stack, f.drains = true ∨ f.settles = true ∧ r.pending = []

def LiveUnlessDestroyed (r : Readable V) (stack : List (Frame V)) : Prop := r.destroyed = true ∨ Live r stack

theorem Live.push {fs : List (Frame V)} (h : Live r stack) : Live r (fs ++ stack) := by
  refine ⟨h.unharmed, h.scheduled, fun he hp => ?_⟩
  obtain hs | ⟨f, hf, hd⟩ := h.due he hp
  · exact .inl hs
  · exact .inr ⟨f, mem_append_right _ hf, hd⟩

theorem Live.pop (hd : f.drains = false) (hs : f.settles = false) (h : Live r (f :: stack)) : Live r stack := by
  refine ⟨h.unharmed, h.scheduled, fun he hp => ?_⟩
  obtain hs | ⟨g, hg, hgd⟩ := h.due he hp
  · exact .inl hs
  · obtain rfl | hg := mem_cons.1 hg
    · simp [hd, hs] at hgd
    · exact .inr ⟨g, hg, hgd⟩

theorem Live.pop_paused (hp : r.paused = true) (h : Live r (f :: stack)) : Live r stack :=
  ⟨h.unharmed, h.scheduled, fun _ hn => by simp [hp] at hn⟩

theorem Live.pop_maybeEmitEnd (hf : f.drains = true → r.paused = true ∨ r.pending = [])
    (h : Live r (f :: stack)) : Live r.maybeEmitEnd stack := by
  obtain he | ⟨he, hp, hm, -, heq⟩ := maybeEmitEnd_eq r
  · rw [he]
    refine ⟨h.unharmed, h.scheduled, fun hend hp => ?_⟩
    obtain hs | ⟨g, hg, hgd⟩ := h.due hend hp
    · exact .inl hs
    · obtain rfl | hg := mem_cons.1 hg
      · have hnil : r.pending = [] := by
          obtain hd | ⟨-, hn⟩ := hgd
          · obtain hpa | hn := hf hd
            · simp [hp] at hpa
            · exact hn
          · exact hn
        have hset := endSettled_maybeEmitEnd hend hnil; rw [he] at hset; exact .inl hset
      · exact .inr ⟨g, hg, hgd⟩
  · rw [heq]; exact ⟨h.unharmed, fun _ => ⟨he, hp, hm⟩, fun _ _ => .inl (.inr rfl)⟩

theorem destroy_destroyed (error : Option StreamError) (ret : Return) : (r.destroy error ret).state.destroyed = true := by
  unfold destroy
  split
  · next hd => cases ret <;> exact hd
  · rfl

@[simp] theorem returned_state : (r.returned ret).state = r := by cases ret <;> rfl

@[simp] theorem returned_frames : (r.returned ret).frames = [] := by cases ret <;> rfl

theorem returned_live {ret : Return} (h : Live r stack) :
    LiveUnlessDestroyed (r.returned ret).state ((r.returned ret).frames ++ stack) := by
  rw [returned_state, returned_frames]; exact .inr h

theorem drainFlowing_live {ret : Return} (h : Live r (f :: stack)) :
    LiveUnlessDestroyed (r.drainFlowing toString ret).state ((r.drainFlowing toString ret).frames ++ stack) := by
  unfold drainFlowing
  split
  · next chunk rest hpa hp =>
    refine .inr ⟨h.unharmed, fun hs => ?_, fun _ _ => .inr ⟨.draining ret, mem_cons_self, .inl rfl⟩⟩
    have hn := (h.scheduled hs).2.1; simp [hp] at hn
  · next hn =>
    refine returned_live (h.pop_maybeEmitEnd (fun _ => ?_))
    cases hpa : r.paused with
    | true => exact .inl rfl
    | false =>
      cases hp : r.pending with
      | nil => exact .inr rfl
      | cons chunk rest => exact absurd hp (hn chunk rest hpa)

theorem resume_live (h : Live r stack) : LiveUnlessDestroyed r.resume.state (r.resume.frames ++ stack) := by
  unfold resume
  split
  · exact .inr h
  · exact .inr ⟨h.unharmed, h.scheduled, fun _ _ => .inr ⟨.resumed, mem_cons_self, .inl rfl⟩⟩

theorem pushEnd_live {ret : Return}
    (hc : r.endPending = true ∨ r.paused = true ∨ r.pending = [] ∨ ∃ f ∈ stack, f.drains = true) (h : Live r stack) :
    LiveUnlessDestroyed (r.pushEnd ret).state ((r.pushEnd ret).frames ++ stack) := by
  unfold pushEnd
  split
  · exact returned_live h
  · next hn =>
    simp only [Bool.or_eq_true, not_or, Bool.not_eq_true] at hn
    refine .inr ⟨h.unharmed, fun hs => ⟨rfl, (h.scheduled hs).2⟩, fun _ hp => .inr ?_⟩
    obtain he | hpa | hnil | ⟨f, hf, hd⟩ := hc
    · simp [hn.2] at he
    · exact absurd hpa (Bool.eq_false_iff.1 hp)
    · exact ⟨.endPushed ret, mem_cons_self, .inr ⟨rfl, hnil⟩⟩
    · exact ⟨f, mem_append_right _ hf, .inl hd⟩

theorem push_live (hc : r.endPending = true → r.autoDestroy = true) (h : Live r stack) :
    LiveUnlessDestroyed (r.push (some chunk)).state ((r.push (some chunk)).frames ++ stack) := by
  unfold push
  split
  · exact returned_live h
  · split
    · next hd he =>
      unfold errorOrDestroy; rw [if_neg hd, if_pos (hc he)]; exact .inl (destroy_destroyed _ _)
    · next he =>
      refine .inr ⟨h.unharmed, fun hs => ?_, fun hend => absurd hend he⟩
      exact absurd (h.scheduled hs).1 he

theorem unshift_live (hc : r.endPending = false) (h : Live r stack) :
    LiveUnlessDestroyed (r.unshift (some chunk)).state ((r.unshift (some chunk)).frames ++ stack) := by
  unfold unshift
  dsimp only
  split
  · exact .inr h
  · refine .inr ⟨h.unharmed, fun hs => ?_, fun hend => ?_⟩
    · have he := (h.scheduled hs).1; simp [hc] at he
    · simp [hc] at hend

theorem readChunk_live {size : Nat} {first : Chunk V} {rest rest' : List (Chunk V)} (hp : r.pending = first :: rest)
    (h : Live r stack) :
    LiveUnlessDestroyed (r.readChunk toString size chunk rest').state
      ((r.readChunk toString size chunk rest').frames ++ stack) := by
  refine .inr ⟨h.unharmed, fun hs => ?_, fun hend hpa => ?_⟩
  · have hn := (h.scheduled hs).2.1; simp [hp] at hn
  · cases rest' with
    | nil => exact .inr ⟨_, mem_cons_self, .inr ⟨rfl, rfl⟩⟩
    | cons chunk' rest' =>
      obtain hs | ⟨f, hf, hd | ⟨-, hn⟩⟩ := h.due hend hpa
      · exact .inl hs
      · exact .inr ⟨f, mem_append_right _ hf, .inl hd⟩
      · simp [hp] at hn

theorem read_live (size : Nat) (h : Live r stack) :
    LiveUnlessDestroyed (r.read toString size).state ((r.read toString size).frames ++ stack) := by
  unfold read
  split
  · exact .inr h.push
  · next hp =>
    split <;> exact readChunk_live hp h

/-- **The checkpoint emits** what is due. -/
theorem checkpoint_emits (side : Bool) (h : LiveUnlessDestroyed r stack) (hs : r.EndSettled) :
    (r.checkpoint side).state.destroyed = true ∨ (r.checkpoint side).state.endEmitted = true := by
  obtain hd | hl := h
  · exact .inl ((checkpoint_keeps side).destroyed hd)
  · obtain he | hs := hs
    · exact .inr ((checkpoint_keeps side).endEmitted he)
    · obtain ⟨-, hp, he⟩ := hl.scheduled hs
      unfold checkpoint
      rw [if_neg (by simp [hs])]
      split
      · next hc =>
        simp only [he, hl.unharmed, hp, isSome_none, isEmpty_nil, Bool.not_true, Bool.or_false, Bool.false_or] at hc
        exact .inl hc
      · exact .inr rfl

theorem checkpoint_live (side : Bool) (h : Live r stack) :
    LiveUnlessDestroyed (r.checkpoint side).state ((r.checkpoint side).frames ++ stack) := by
  unfold checkpoint
  split
  · exact .inr h
  · next hs =>
    simp only [Bool.not_eq_true', Bool.not_eq_false] at hs
    obtain ⟨-, hp, he⟩ := h.scheduled hs
    split
    · next hc =>
      simp only [he, h.unharmed, hp, isSome_none, isEmpty_nil, Bool.not_true, Bool.or_false, Bool.false_or] at hc
      exact .inl hc
    · exact .inr ⟨h.unharmed, nofun, fun _ _ => .inl (.inl rfl)⟩

/-- `unshift` is used before the end only. -/
def Domain (c : Config (Readable V) (Frame V) (Event V)) : Move (Call V) → Prop
  | .call (.unshift (some _)) => c.state.endPending = false
  | _ => True

/-- The end is not pushed onto a flowing stream that holds chunks when no `drainFlowing` is under way or about to start,
and no chunk is pushed after the end onto a stream that is not destroyed by that. -/
def Proper (c : Config (Readable V) (Frame V) (Event V)) : Move (Call V) → Prop
  | .call (.unshift (some _)) => c.state.endPending = false
  | .call (.push (some _)) => c.state.endPending = true → c.state.autoDestroy = true
  | .call (.push none) | .call .pushEnd =>
    c.state.endPending = true ∨ c.state.paused = true ∨ c.state.pending = [] ∨ ∃ f ∈ c.stack, f.drains = true
  | _ => True

theorem call_live {c : Config (Readable V) (Frame V) (Event V)} {k : Call V}
    (hb : c.state.call toString k = some b) (hP : Proper c (.call k)) (h : Live c.state c.stack) :
    LiveUnlessDestroyed b.state (b.frames ++ c.stack) := by
  cases k with
  | push chunk =>
    cases hb
    cases chunk with
    | some chunk => exact push_live hP h
    | none =>
      have hE : LiveUnlessDestroyed (c.state.pushEnd .refused).state ((c.state.pushEnd .refused).frames ++ c.stack) :=
        pushEnd_live hP h
      unfold push
      split
      · exact returned_live h
      · split
        · exact returned_live h
        · exact hE
  | pushEnd => cases hb; exact pushEnd_live hP h
  | unshift chunk =>
    cases hb
    cases chunk with
    | none => exact .inr h
    | some chunk => exact unshift_live hP h
  | pause => cases hb; exact .inr ⟨h.unharmed, h.scheduled, nofun⟩
  | resume => cases hb; exact resume_live h
  | onData =>
    cases hb
    unfold newListenerAdded
    split
    · exact .inr h
    · exact resume_live h
  | read size => cases hb; exact read_live size h
  | setEncoding encoding => cases hb; exact .inr ⟨h.unharmed, h.scheduled, h.due⟩
  | destroy error => cases hb; exact .inl (destroy_destroyed _ _)
  | destroyed error =>
    unfold call at hb
    dsimp only at hb
    split at hb
    · next hd =>
      cases hb
      cases error <;> exact .inl hd
    · cases hb
  | checkpoint side => cases hb; exact checkpoint_live side h

theorem goOn_live (h : Live r (f :: stack)) :
    LiveUnlessDestroyed (r.goOn toString f).state ((r.goOn toString f).frames ++ stack) := by
  cases f with
  | reading value | fetching => exact .inr (h.pop_maybeEmitEnd (by simp [Frame.drains]))
  | pushed =>
    unfold goOn
    dsimp only
    split
    · next hp => exact returned_live (h.pop_paused hp)
    · exact drainFlowing_live h
  | endPushed ret =>
    unfold goOn
    dsimp only
    split
    · next hp => exact returned_live (h.pop_paused hp)
    · exact returned_live (h.pop_maybeEmitEnd (by simp [Frame.drains]))
  | draining ret | resumed => exact drainFlowing_live h
  | ended side =>
    unfold goOn
    dsimp only
    split
    · exact .inl (destroy_destroyed _ _)
    · exact .inr (h.pop rfl rfl)
  | errorEmitted ret | destroying ret => exact returned_live (h.pop rfl rfl)
  | destroyError =>
    have hp : Live r stack := h.pop rfl rfl; exact .inr ⟨hp.unharmed, hp.scheduled, hp.push.due⟩
  | paused | closing => exact .inr (h.pop rfl rfl)

/-- The stream was read to exhaustion: the last thing that happened is the return of a `read`, and nothing is left. -/
def ReadToExhaustion (c : Config (Readable V) (Frame V) (Event V)) : Prop :=
  c.state.pending = [] ∧ ∃ v, c.trace.getLast? = some (.readReturned v)

/-- The end was pushed, and the stream is flowing with nothing under way, or was read to exhaustion. -/
def EndDue (c : Config (Readable V) (Frame V) (Event V)) : Prop :=
  c.state.endPending = true ∧ (c.stack = [] ∧ c.state.paused = false ∨ ReadToExhaustion c)

structure Sound (c : Config (Readable V) (Frame V) (Event V)) : Prop where
  live : LiveUnlessDestroyed c.state c.stack
  exhausted : c.state.endPending = true → ReadToExhaustion c → c.state.destroyed = true ∨ c.state.EndSettled

theorem sound_onto {r : Readable V} {stack rest : List (Frame V)} {trace : List (Event V)}
    (hk : Keeps r b) (hl : LiveUnlessDestroyed b.state (b.frames ++ rest)) (h : Sound ⟨r, stack, trace⟩) :
    Sound (b.onto rest trace) := by
  refine ⟨hl, fun he hx => ?_⟩
  obtain ⟨hp, v, hv⟩ := hx
  dsimp only [Block.onto_state, Block.onto_trace] at he hp hv ⊢
  cases hseen : b.seen with
  | nil =>
    obtain ⟨hpe, hee⟩ := hk.quiet hseen
    rw [hseen, append_nil] at hv
    rw [hpe] at hp
    rw [hee] at he
    obtain hd | hlive := h.live
    · exact .inl (hk.destroyed hd)
    · obtain hd | hs := h.exhausted he ⟨hp, v, hv⟩
      · exact .inl (hk.destroyed hd)
      · exact hk.settled hlive.unharmed (fun hsch => (hlive.scheduled hsch).2.1) hs
  | cons e es =>
    rw [getLast?_append_of_ne_nil _ (by simp [hseen])] at hv; exact .inr (hk.exhausted v hv he hp)

theorem sound_step {c : Config (Readable V) (Frame V) (Event V)} {l : Move (Call V)}
    {c' : Config (Readable V) (Frame V) (Event V)} (h : Sound c) (hP : Proper c l)
    (hst : (program toString).step c l = some c') : Sound c' := by
  cases l with
  | call k =>
    obtain ⟨-, b, hb, rfl⟩ := step_call hst
    have hk : Keeps c.state b := call_keeps hb
    refine sound_onto hk ?_ h
    obtain hd | hl := h.live
    · exact .inl (hk.destroyed hd)
    · exact call_live hb hP hl
  | ret =>
    obtain ⟨f, fs, hs, rfl⟩ := step_ret hst
    have hk : Keeps c.state (c.state.goOn toString f) := goOn_keeps f
    refine sound_onto hk ?_ h
    obtain hd | hl := h.live
    · exact .inl (hk.destroyed hd)
    · rw [hs] at hl; exact goOn_live hl

variable {c c' : Config (Readable V) (Frame V) (Event V)} {l : Move (Call V)}

variable (toString) in
/-- What was seen is accepted by a queue; what was delivered and what is buffered are its chunks in order. -/
def Exact (objectMode : Bool) (encoding : Option BufferEncoding) (c : Config (Readable V) (Frame V) (Event V)) : Prop :=
  ∃ q : Queue V, Queue.Accepts toString { objectMode, encoding } c.trace q ∧
    deliveredChunks c.trace ++ c.state.pending = q.order

theorem exact_of_accepted {objectMode : Bool} {encoding : Option BufferEncoding}
    (h : Accepted toString { objectMode, encoding } c) :
    Exact toString objectMode encoding c := by
  obtain ⟨q, ha, hm⟩ := h
  have hd : q.delivered = deliveredChunks c.trace := by rw [ha.delivered]; exact nil_append _
  refine ⟨q, ha, ?_⟩
  rw [Queue.order, hd, hm.waiting]

theorem ended_of_accepted {objectMode : Bool} {encoding : Option BufferEncoding}
    (h : Accepted toString { objectMode, encoding } c)
    (he : c.state.endEmitted = true) : .ended ∈ c.trace := by
  obtain ⟨q, ha, hm⟩ := h
  obtain hf | he := ha.finished (hm.finished.trans he)
  · cases hf
  · exact he

theorem step_keeps (hst : (program toString).step c l = some c') : ∃ b stack, Keeps c.state b ∧ c' = b.onto stack c.trace := by
  cases l with
  | call k => obtain ⟨-, b, hb, rfl⟩ := step_call hst; exact ⟨b, c.stack, call_keeps hb, rfl⟩
  | ret => obtain ⟨f, fs, -, rfl⟩ := step_ret hst; exact ⟨_, fs, goOn_keeps f, rfl⟩

theorem finished_step (h : c.state.destroyed = true ∨ c.state.endEmitted = true) (hst : (program toString).step c l = some c') :
    c'.state.destroyed = true ∨ c'.state.endEmitted = true := by
  obtain ⟨b, stack, hk, rfl⟩ := step_keeps hst; exact h.imp hk.destroyed hk.endEmitted

theorem settled_step (hS : Sound c)
    (h : c.state.destroyed = true ∨ c.state.EndSettled) (hst : (program toString).step c l = some c') :
    c'.state.destroyed = true ∨ c'.state.EndSettled := by
  obtain ⟨b, stack, hk, rfl⟩ := step_keeps hst
  obtain hd | hs := h
  · exact .inl (hk.destroyed hd)
  · obtain hd | hl := hS.live
    · exact .inl (hk.destroyed hd)
    · exact hk.settled hl.unharmed (fun hsch => (hl.scheduled hsch).2.1) hs

/-- From a state in which the end is settled, a run in which a microtask checkpoint takes place ends it. -/
theorem settled_run {ls : List (Move (Call V))}
    (h : Run (program toString).step Proper c ls c') (hS : Sound c) (hs : c.state.destroyed = true ∨ c.state.EndSettled)
    {side : Bool} (hm : .call (.checkpoint side) ∈ ls) : c'.state.destroyed = true ∨ c'.state.endEmitted = true := by
  induction h with
  | nil c => cases hm
  | @cons c c₁ c₂ l ls hP hst hrun ih =>
    obtain rfl | hm := mem_cons.1 hm
    · have h₁ : c₁.state.destroyed = true ∨ c₁.state.endEmitted = true := by
        obtain ⟨-, b, hb, rfl⟩ := step_call hst
        cases hb
        obtain hd | hs := hs
        · exact .inl ((checkpoint_keeps side).destroyed hd)
        · exact checkpoint_emits side hS.live hs
      exact hrun.invariant (I := fun c => c.state.destroyed = true ∨ c.state.endEmitted = true)
        (fun _ _ _ h _ hst => finished_step h hst) h₁
    · exact ih (sound_step hS hP hst) (settled_step hS hs hst) hm

theorem settled_of_endDue (hS : Sound c) (h : EndDue c) : c.state.destroyed = true ∨ c.state.EndSettled := by
  obtain ⟨he, ⟨hst, hp⟩ | hx⟩ := h
  · obtain hd | hl := hS.live
    · exact .inl hd
    · obtain hs | ⟨f, hf, -⟩ := hl.due he hp
      · exact .inr hs
      · simp [hst] at hf
  · exact hS.exhausted he hx

theorem sound_run {objectMode autoDestroy : Bool} {highWaterMark : Nat} {encoding : Option BufferEncoding}
    {ls : List (Move (Call V))}
    (h : Run (program toString).step Proper (create objectMode highWaterMark autoDestroy encoding) ls c) : Sound c := by
  refine h.invariant (fun _ _ _ hS hP hst => sound_step hS hP hst) ⟨.inr ⟨rfl, nofun, nofun⟩, nofun⟩

/-- Delivery, in the runs whose steps all meet `P`: in every state reached, what was seen is what a queue shows; and once
the end is due, it has come, or the stream is destroyed, after the next microtask checkpoint. -/
def Delivers (V : Type) (P : Config (Readable V) (Frame V) (Event V) → Move (Call V) → Prop) : Prop :=
  ∀ (toString : BufferEncoding → Bytes → List UInt16) (objectMode autoDestroy : Bool) (highWaterMark : Nat)
    (encoding : Option BufferEncoding) (ls : List (Move (Call V))) (c : Config (Readable V) (Frame V) (Event V)),
    Run (program toString).step P (create objectMode highWaterMark autoDestroy encoding) ls c →
    Exact toString objectMode encoding c ∧
      (EndDue c → ∀ (ls' : List (Move (Call V))) (c' : Config (Readable V) (Frame V) (Event V)) (side : Bool),
        Run (program toString).step P c ls' c' → .call (.checkpoint side) ∈ ls' →
        .ended ∈ c'.trace ∨ c'.state.destroyed = true)

/-- **Delivery**, in the runs in which the end is not pushed onto undelivered chunks of a flowing stream. -/
theorem delivers_exactly (V : Type) : Delivers V Proper := by
  intro toString objectMode autoDestroy highWaterMark encoding ls c h
  refine ⟨exact_of_accepted (accepted h), fun hdue ls' c' side h' hm => ?_⟩
  have hS : Sound c := sound_run h
  obtain hd | he := settled_run h' hS (settled_of_endDue hS hdue) hm
  · exact .inr hd
  · exact .inl (ended_of_accepted (accepted (h.append h')) he)

/-- A chunk pushed and one unshifted in front of it are delivered, and the end comes. -/
theorem delivers_exactly_unshifted : ∃ c : Config (Readable Nat) (Frame Nat) (Event Nat),
      deliveredChunks c.trace = [.other 0, .other 1] ∧ (.ended ∈ c.trace ∨ c.state.destroyed = true) := by
  have h : Run (program (fun _ _ => [])).step Proper (create false 16 true none)
      [.call (.push (some (.other 1))), .ret, .call (.unshift (some (.other 0))), .call .onData, .ret, .ret, .ret,
        .call (.push none), .ret] _ :=
    .cons nofun rfl (.cons trivial rfl (.cons rfl rfl (.cons trivial rfl (.cons trivial rfl (.cons trivial rfl
      (.cons trivial rfl (.cons (.inr (.inr (.inl rfl))) rfl (.cons trivial rfl (.nil _)))))))))
  have h' := (delivers_exactly Nat (fun _ _ => []) false true 16 none _ _ h).2 ⟨rfl, .inl ⟨rfl, rfl⟩⟩
    [.call (.checkpoint true)] _ true (.cons trivial rfl (.nil _)) mem_cons_self
  exact ⟨_, rfl, h'⟩

/-- A chunk unshifted into a flowing stream stays there, and keeps `'end'` from being emitted. -/
theorem unshift_withholds_end : ¬ Delivers Nat Domain := by
  intro hD
  have h : Run (program (fun _ _ => [])).step Domain (create false 16 true none)
      [.call .onData, .ret, .call (.unshift (some (.other 0))), .call (.push none), .ret] _ :=
    .cons trivial rfl (.cons trivial rfl (.cons rfl rfl (.cons trivial rfl (.cons trivial rfl (.nil _)))))
  have h' := (hD (fun _ _ => []) false true 16 none _ _ h).2 ⟨rfl, .inl ⟨rfl, rfl⟩⟩
    [.call (.checkpoint true)] _ true (.cons trivial rfl (.nil _)) mem_cons_self
  revert h'; decide

end Readable

end NodeCompat.Stream
