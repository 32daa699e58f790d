import NodeCompat.Stream.Delivery
import NodeCompat.Stream.DuplexPair

/-!
# What the sides of `duplexPair` deliver

In every run in which the sides are written to, ended and read from, each side delivers what was written to the other, in
order, and a flowing side that is at rest has delivered all of it. But no side ever emits `'end'`: the peer's `_final` pushes
no `null` (`delivers_without_end`).
-/

namespace NodeCompat.Stream.DuplexPair

open List Readable Writable

variable {V : Type}

/-- A side is not written to once it has ended. -/
def Domain (c : Config (DuplexPair V) (Frame V) (Event V)) : Move (Call V) → Prop
  | .call (.write s _ _ _) | .call (.callEnd s (some _) _ _) => (c.state.side s).writable.writableEnded = false
  | _ => True

/-- What is seen of the readable half of a side. -/
def Event.ofReadable (s : Side) : Event V → Option (Stream.Event V)
  | .readable t e => if t = s then some e else none
  | .writable _ _ => none

def readableEvents (s : Side) (es : List (Event V)) : List (Stream.Event V) := es.filterMap (Event.ofReadable s)

/-- The chunks that a side delivers. -/
def deliveredTo (s : Side) (es : List (Event V)) : List (Chunk V) := deliveredChunks (readableEvents s es)

/-- The chunks that are written to a side, as `_write` is given them. -/
def writes (decode : Chunk V → Option BufferEncoding → Chunk V) (s : Side) (ls : List (Move (Call V))) : List (Chunk V) :=
  ls.filterMap fun
    | .call (.write t chunk encoding _) | .call (.callEnd t (some chunk) encoding _) =>
      if t = s then some (decode chunk encoding) else none
    | _ => none

/-! ## The sides -/

theorem side_setSide (p : DuplexPair V) (s t : Side) (d : Duplex V) : (p.setSide s d).side t = if t = s then d else p.side t := by
  cases s <;> cases t <;> rfl

@[simp] theorem side_setSide_self (p : DuplexPair V) (s : Side) (d : Duplex V) : (p.setSide s d).side s = d := by
  rw [side_setSide, if_pos rfl]

theorem readableEvents_append (s : Side) (es es' : List (Event V)) :
    readableEvents s (es ++ es') = readableEvents s es ++ readableEvents s es' := filterMap_append

theorem readableEvents_writable (s t : Side) (es : List (Writable.Event V)) :
    readableEvents s (es.map (Event.writable t)) = [] := by
  induction es with
  | nil => rfl
  | cons e es ih => exact ih

theorem readableEvents_readable (s t : Side) (es : List (Stream.Event V)) :
    readableEvents s (es.map (Event.readable t)) = if t = s then es else [] := by
  unfold readableEvents
  rw [filterMap_map]
  by_cases h : t = s
  · rw [if_pos h, show Event.ofReadable s ∘ Event.readable t = some from funext fun e => if_pos h, filterMap_some]
  · rw [if_neg h, filterMap_eq_nil_iff]; exact fun e _ => if_neg h

/-! ## The readable half -/

/-- A frame of a readable half that is neither destroyed nor ended. -/
def flows : Stream.Frame V → Bool
  | .pushed | .draining _ | .paused | .resumed | .fetching | .reading _ => true
  | _ => false

/-- What a block of a readable half does in such a run; `given` is pushed to it. -/
structure Carries (r : Readable V) (given : List (Chunk V)) (b : Readable.Result V) : Prop where
  queue : deliveredChunks b.seen ++ b.state.pending = r.pending ++ given
  destroyed : b.state.destroyed = r.destroyed
  endPending : b.state.endPending = r.endPending
  endScheduled : b.state.endScheduled = r.endScheduled
  readableEnded : b.state.readableEnded = r.readableEnded
  endless : .ended ∉ b.seen
  frames : ∀ f ∈ b.frames, flows f = true

/-- When it is flowing and holds chunks, one of the frames drains it. -/
def Drained (r : Readable V) (frames : List (Stream.Frame V)) : Prop :=
  r.paused = false → r.pending ≠ [] → ∃ f ∈ frames, f.drains = true

variable {toString : BufferEncoding → Bytes → List UInt16} {r : Readable V}

theorem maybeEmitEnd_endless (h : r.endPending = false) : r.maybeEmitEnd = r := by
  unfold maybeEmitEnd; rw [h]; rfl

theorem state_returned (ret : Return) : (r.returned ret).state = r := by cases ret <;> rfl

theorem carries_returned (ret : Return) : Carries r [] (r.returned ret) := by
  cases ret <;>
    exact ⟨by simp [returned, deliveredChunks], rfl, rfl, rfl, rfl, by simp [returned], (by simp)⟩

theorem carries_same : Carries r [] { state := r } := carries_returned .nothing

theorem carries_drainFlowing (h : r.endPending = false) (ret : Return) : Carries r [] (r.drainFlowing toString ret) := by
  unfold drainFlowing
  split
  · next chunk rest _ hp => exact ⟨by simp [deliveredChunks, hp], rfl, rfl, rfl, rfl, by simp, by simp [flows]⟩
  · rw [maybeEmitEnd_endless h]; exact carries_returned ret

theorem drained_drainFlowing (h : r.endPending = false) (ret : Return) :
    Drained (r.drainFlowing toString ret).state (r.drainFlowing toString ret).frames := by
  unfold drainFlowing
  split
  · exact fun _ _ => ⟨_, mem_cons_self, rfl⟩
  · next hnot =>
    rw [maybeEmitEnd_endless h, state_returned]
    intro hp hne
    obtain ⟨chunk, rest, hcons⟩ := exists_cons_of_ne_nil hne
    exact absurd hcons (hnot chunk rest hp)

variable (toString) in
theorem carries_goOn (h : r.endPending = false) {f : Stream.Frame V} (hf : flows f = true) :
    Carries r [] (r.goOn toString f) ∧ (f.drains = true → Drained (r.goOn toString f).state (r.goOn toString f).frames) ∧
      (f.drains = false → (r.goOn toString f).state = r) := by
  cases f with
  | pushed =>
    unfold Readable.goOn
    dsimp only
    split
    · next hp =>
      rw [state_returned]; exact ⟨carries_returned _, fun _ hq => absurd (hp.symm.trans hq) (by simp), (by simp)⟩
    · exact ⟨carries_drainFlowing h _, fun _ => drained_drainFlowing h _, (by rintro ⟨⟩)⟩
  | draining ret => exact ⟨carries_drainFlowing h ret, fun _ => drained_drainFlowing h ret, (by rintro ⟨⟩)⟩
  | resumed => exact ⟨carries_drainFlowing h .nothing, fun _ => drained_drainFlowing h .nothing, (by rintro ⟨⟩)⟩
  | paused => exact ⟨carries_same, (by rintro ⟨⟩), fun _ => rfl⟩
  | fetching | reading value =>
    unfold Readable.goOn
    dsimp only
    rw [maybeEmitEnd_endless h]
    exact ⟨⟨by simp [deliveredChunks], rfl, rfl, rfl, rfl, by simp, (by simp)⟩, (by rintro ⟨⟩), fun _ => rfl⟩
  | endPushed ret | ended side | errorEmitted ret | destroying ret | destroyError | closing => cases hf

theorem push_open (chunk : Chunk V) (hd : r.destroyed = false) (he : r.endPending = false) : r.push (some chunk) =
      { state := { r with
            pending := r.pending ++ [chunk]
            pendingLength := r.pendingLength + streamChunkLength r.readableObjectMode chunk }
        seen := [.pushed chunk, .readable]
        frames := [.pushed] } := by
  unfold push; rw [if_neg (by simp [hd]), if_neg (by simp [he])]

theorem carries_push (chunk : Chunk V) (hd : r.destroyed = false) (he : r.endPending = false) :
    Carries r [chunk] (r.push (some chunk)) ∧ Drained (r.push (some chunk)).state (r.push (some chunk)).frames := by
  rw [push_open chunk hd he]
  exact ⟨⟨by simp [deliveredChunks], rfl, rfl, rfl, rfl, by simp, by simp [flows]⟩, fun _ _ => ⟨_, mem_cons_self, rfl⟩⟩

theorem carries_resume : Carries r [] r.resume ∧ (Drained r.resume.state r.resume.frames ∨ r.resume.state = r) := by
  unfold resume
  split
  · exact ⟨carries_same, .inr rfl⟩
  · exact ⟨⟨by simp [deliveredChunks], rfl, rfl, rfl, rfl, by simp, by simp [flows]⟩, .inl (fun _ _ => ⟨_, mem_cons_self, rfl⟩)⟩

variable (toString) (r) in
theorem carries_read : Carries r [] (r.read toString 0) ∧ (r.read toString 0).state.paused = r.paused ∧
    ((r.read toString 0).state.pending ≠ [] → r.pending ≠ []) := by
  unfold Readable.read
  split
  · next hp => exact ⟨⟨by simp [deliveredChunks], rfl, rfl, rfl, rfl, by simp, by simp [flows]⟩, rfl, id⟩
  · next chunk rest hp =>
    rw [cutChunk_zero]
    refine ⟨⟨by simp [Readable.readChunk, deliveredChunks, hp], rfl, rfl, rfl, rfl, by simp [Readable.readChunk],
      by simp [Readable.readChunk, flows]⟩, rfl, fun _ => by simp [hp]⟩

/-! ## The writable half -/

variable {ofString : BufferEncoding → List UInt16 → Bytes} {w w' : Writable V}

/-- What the writable half keeps in such a run. -/
structure Still (w w' : Writable V) : Prop where
  destroyed : w'.destroyed = w.destroyed
  corked : w'.writableCorked = w.writableCorked
  readableEnded : w'.readableEnded = w.readableEnded
  decodeStrings : w'.decodeStrings = w.decodeStrings
  defaultEncoding : w'.defaultEncoding = w.defaultEncoding
  objectMode : w'.writableObjectMode = w.writableObjectMode

theorem Still.refl (w : Writable V) : Still w w := ⟨rfl, rfl, rfl, rfl, rfl, rfl⟩

theorem Still.trans {w'' : Writable V} (h : Still w w') (h' : Still w' w'') : Still w w'' :=
  ⟨h'.destroyed.trans h.destroyed, h'.corked.trans h.corked, h'.readableEnded.trans h.readableEnded,
    h'.decodeStrings.trans h.decodeStrings, h'.defaultEncoding.trans h.defaultEncoding, h'.objectMode.trans h.objectMode⟩

/-- A frame of a writable half that nothing is refused by. -/
def calm : Writable.Frame V → Bool
  | .writing _ | .completing none | .draining | .final => true
  | _ => false

/-- A block that does not call `_write`. -/
structure Rests (w : Writable V) (b : Writable.Result V) : Prop where
  still : Still w b.state
  silent : ∀ entry, .write entry ∉ b.seen
  frames : ∀ f ∈ b.frames, calm f = true

theorem Rests.after {b : Writable.Result V} (h : Still w w') (hb : Rests w' b) : Rests w b :=
  ⟨h.trans hb.still, hb.silent, hb.frames⟩

theorem Rests.of_still (h : Still w w') : Rests w { state := w' } := ⟨h, fun _ => nofun, forall_mem_nil _⟩

theorem still_awaitFinish (done : Option Nat) : Still w (w.awaitFinish done) := by
  cases done <;> exact ⟨rfl, rfl, rfl, rfl, rfl, rfl⟩

theorem rests_callFinal : Rests w w.callFinal := by
  unfold callFinal
  dsimp only
  split
  · exact .of_still ⟨rfl, rfl, rfl, rfl, rfl, rfl⟩
  · exact ⟨⟨rfl, rfl, rfl, rfl, rfl, rfl⟩, by simp, by simp [calm]⟩

theorem rests_firstEnd (done : Option Nat) : Rests w (w.firstEnd done) := by
  have hawait : Still w ({ w with writableEnded := true }.awaitFinish done) := by
    have hset : Still w { w with writableEnded := true } := ⟨rfl, rfl, rfl, rfl, rfl, rfl⟩
    exact hset.trans (still_awaitFinish done)
  unfold firstEnd
  dsimp only
  split
  · exact .of_still hawait
  · split
    · exact .of_still ⟨hawait.1, hawait.2, hawait.3, hawait.4, hawait.5, hawait.6⟩
    · exact rests_callFinal.after hawait

theorem rests_endRest (rest : Writable.EndRest) : Rests w (w.endRest rest) := by
  have hanswer : ∀ error : WritableError, Rests w
      { state := w, seen := (rest.done.map (fun callback => (.endCallback callback (some error) : Writable.Event V))).toList } := by
    intro error
    refine ⟨.refl w, fun entry => ?_, forall_mem_nil _⟩
    cases rest.done <;> simp
  unfold endRest
  split
  · exact hanswer _
  · split
    · exact rests_firstEnd _
    · split
      · exact hanswer _
      · split
        · exact hanswer _
        · split
          · exact hanswer _
          · exact .of_still (still_awaitFinish _)

theorem rests_uncorkAll (hc : w.writableCorked = 0) (rest : Writable.EndRest) : Rests w (w.uncorkAll .duplex rest) := by
  unfold uncorkAll; rw [if_pos hc]; exact rests_endRest rest

theorem rests_writeRest (hc : w.writableCorked = 0) (rest : Option Writable.EndRest) : Rests w (w.writeRest .duplex rest) := by
  have hdrain : ∀ b : Bool, Still w (if b then w else { w with writableNeedDrain := true }) := by
    intro b
    cases b <;> exact ⟨rfl, rfl, rfl, rfl, rfl, rfl⟩
  unfold writeRest
  split
  · exact ⟨hdrain _, by simp, forall_mem_nil _⟩
  · have hs := hdrain (decide (w.writableLength < w.writableHighWaterMark))
    exact (rests_uncorkAll (hs.corked.trans hc) _).after hs

theorem rests_completed : Rests w (w.completed none) := by
  unfold completed
  dsimp only
  split
  · exact ⟨⟨rfl, rfl, rfl, rfl, rfl, rfl⟩, by simp, by simp [calm]⟩
  · split
    · exact rests_callFinal
    · exact .of_still (.refl w)

theorem rests_written (o : Outstanding V) : Rests w (w.written o none) := by
  unfold written
  split
  · exact ⟨⟨rfl, rfl, rfl, rfl, rfl, rfl⟩, by simp, by simp [calm]⟩
  · have hs : Still w
        { w with
          outstanding := w.outstanding.filter (fun o' => o'.call != o.call)
          writesInFlight := w.writesInFlight - 1
          writableLength := w.writableLength - o.length } := ⟨rfl, rfl, rfl, rfl, rfl, rfl⟩
    exact rests_completed.after hs

theorem rests_goOn (hc : w.writableCorked = 0) {f : Writable.Frame V} (hf : calm f = true) : Rests w (w.goOn .duplex f) := by
  cases f with
  | writing rest => exact rests_writeRest hc rest
  | completing error =>
    cases error with
    | none => exact rests_completed
    | some error => cases hf
  | draining =>
    unfold Writable.goOn
    dsimp only
    split
    · exact rests_callFinal
    · exact .of_still (.refl w)
  | final => exact .of_still (.refl w)
  | flushing flush rest | refusing error => cases hf

theorem rests_finalized (he : w.readableEnded = false) : Rests w (w.finalized .duplex none) := by
  unfold finalized
  dsimp only
  have hends : (({ w with finalOutstanding := false } : Writable V).autoDestroy &&
      ({ w with finalOutstanding := false } : Writable V).readableEnded) = false := by simp [he]
  rw [hends, if_neg Bool.false_ne_true]
  refine ⟨⟨rfl, rfl, rfl, rfl, rfl, rfl⟩, fun entry => ?_, forall_mem_nil _⟩
  simp [settleFinish]

variable (ofString) in
theorem acceptWrite_open (hc : w.writableCorked = 0) (chunk : Chunk V) (encoding : Option BufferEncoding) (callback : Bool)
    (rest : Option Writable.EndRest) :
    ∃ w' entry es, w.acceptWrite ofString .duplex chunk encoding callback rest =
        { state := w', seen := es ++ [.write (some entry)], frames := [.writing rest] } ∧ Still w w' ∧
      entry.chunk = (w.decodeChunk ofString chunk encoding).1 := by
  unfold acceptWrite
  dsimp only
  rw [if_neg (by omega)]
  exact ⟨_, _, [.accepted w.accepted], rfl, ⟨rfl, rfl, rfl, rfl, rfl, rfl⟩, rfl⟩

theorem rejectWrite_open (he : w.writableEnded = false) (hd : w.destroyed = false) : w.rejectWrite = none := by
  unfold rejectWrite; rw [he, hd]; rfl

/-! ## The pair -/

/-- A side that is neither destroyed nor corked and whose end nobody pushed; a chunk reaches `_write` as `decode` says. -/
structure Open (ofString : BufferEncoding → List UInt16 → Bytes) (decode : Chunk V → Option BufferEncoding → Chunk V)
    (d : Duplex V) : Prop where
  readableDestroyed : d.readable.destroyed = false
  writableDestroyed : d.writable.destroyed = false
  endPending : d.readable.endPending = false
  endScheduled : d.readable.endScheduled = false
  readableEnded : d.readable.readableEnded = false
  writableReadableEnded : d.writable.readableEnded = false
  corked : d.writable.writableCorked = 0
  decodes : ∀ chunk encoding, (d.writable.decodeChunk ofString chunk encoding).1 = decode chunk encoding

def Frame.usual : Frame V → Bool
  | .readable _ f => flows f
  | .writable _ f => calm f
  | .pushing _ _ => true

/-- Each side has delivered, or holds, what was given to it; `'end'` has not been emitted. -/
structure Whole (ofString : BufferEncoding → List UInt16 → Bytes) (decode : Chunk V → Option BufferEncoding → Chunk V)
    (given : Side → List (Chunk V)) (p : DuplexPair V) (stack : List (Frame V)) (trace : List (Event V)) : Prop where
  sides : ∀ s, Open ofString decode (p.side s)
  usual : ∀ f ∈ stack, f.usual = true
  queue : ∀ s, deliveredTo s trace ++ (p.side s).readable.pending = given s
  drained : ∀ s, (p.side s).readable.paused = false → (p.side s).readable.pending ≠ [] →
    ∃ f, .readable s f ∈ stack ∧ f.drains = true
  endless : ∀ s, .readable s .ended ∉ trace

variable {decode : Chunk V → Option BufferEncoding → Chunk V} {given given' : Side → List (Chunk V)} {p : DuplexPair V}
  {stack : List (Frame V)} {trace : List (Event V)} {d : Duplex V}

theorem Open.setReadable {new : List (Chunk V)} {b : Readable.Result V} (h : Open ofString decode d)
    (hb : Carries d.readable new b) : Open ofString decode (d.setReadable b.state) :=
  ⟨hb.destroyed.trans h.readableDestroyed, h.writableDestroyed, hb.endPending.trans h.endPending,
    hb.endScheduled.trans h.endScheduled, hb.readableEnded.trans h.readableEnded, hb.readableEnded.trans h.readableEnded,
    h.corked, h.decodes⟩

theorem Open.setWritable (h : Open ofString decode d) (hw : Still d.writable w') : Open ofString decode (d.setWritable w') := by
  refine ⟨hw.destroyed.trans h.writableDestroyed, hw.destroyed.trans h.writableDestroyed, h.endPending, h.endScheduled,
    h.readableEnded, hw.readableEnded.trans h.writableReadableEnded, hw.corked.trans h.corked, fun chunk encoding => ?_⟩
  rw [← h.decodes chunk encoding]
  unfold Duplex.setWritable decodeChunk; rw [hw.defaultEncoding, hw.decodeStrings, hw.objectMode]

theorem deliveredTo_append (s : Side) (es es' : List (Event V)) : deliveredTo s (es ++ es') = deliveredTo s es ++ deliveredTo s es' := by
  unfold deliveredTo; rw [readableEvents_append]; exact filterMap_append

theorem deliveredTo_writable (s t : Side) (es : List (Writable.Event V)) : deliveredTo s (es.map (Event.writable t)) = [] := by
  unfold deliveredTo; rw [readableEvents_writable]; rfl

theorem deliveredTo_readable (s t : Side) (es : List (Stream.Event V)) :
    deliveredTo s (es.map (Event.readable t)) = if t = s then deliveredChunks es else [] := by
  unfold deliveredTo
  rw [readableEvents_readable]
  split <;> rfl

theorem Whole.pop {f : Frame V} (hf : ∀ s g, f = .readable s g → g.drains = false)
    (h : Whole ofString decode given p (f :: stack) trace) : Whole ofString decode given p stack trace := by
  refine ⟨h.sides, fun g hg => h.usual g (mem_cons_of_mem _ hg), h.queue, fun s hp hne => ?_, h.endless⟩
  obtain ⟨g, hg, hd⟩ := h.drained s hp hne
  obtain heq | hg := mem_cons.1 hg
  · rw [hf s g heq.symm] at hd; cases hd
  · exact ⟨g, hg, hd⟩

theorem Whole.readable {s : Side} {new : List (Chunk V)} {b : Readable.Result V} {stack' : List (Frame V)}
    (h : Whole ofString decode given p stack' trace) (hb : Carries (p.side s).readable new b)
    (hstack : ∀ f ∈ stack, f ∈ stack') (hother : ∀ t f, t ≠ s → .readable t f ∈ stack' → .readable t f ∈ stack)
    (hdrained : b.state.paused = false → b.state.pending ≠ [] →
      (∃ f ∈ b.frames, f.drains = true) ∨ ∃ f, .readable s f ∈ stack ∧ f.drains = true)
    (hgiven : ∀ t, given' t = given t ++ if t = s then new else []) :
    Whole ofString decode given' (p.liftReadable s b).state ((p.liftReadable s b).frames ++ stack)
      (trace ++ (p.liftReadable s b).seen) := by
  unfold liftReadable
  refine ⟨fun t => ?_, fun f hf => ?_, fun t => ?_, fun t hp hne => ?_, fun t hmem => ?_⟩
  · rw [side_setSide]
    split
    · exact (h.sides s).setReadable hb
    · exact h.sides t
  · obtain hf | hf := mem_append.1 hf
    · obtain ⟨g, hg, rfl⟩ := mem_map.1 hf; exact hb.frames g hg
    · exact h.usual f (hstack f hf)
  · rw [hgiven, ← h.queue t, deliveredTo_append, deliveredTo_readable, side_setSide]
    by_cases hts : t = s
    · subst hts
      rw [if_pos rfl, if_pos rfl, if_pos rfl, append_assoc, append_assoc]
      exact congrArg (deliveredTo t trace ++ ·) hb.queue
    · rw [if_neg hts, if_neg hts, if_neg (Ne.symm hts), append_nil, append_nil]
  · rw [side_setSide] at hp hne
    by_cases hts : t = s
    · subst hts
      rw [if_pos rfl] at hp hne
      obtain ⟨f, hf, hd⟩ | ⟨f, hf, hd⟩ := hdrained hp hne
      · exact ⟨f, mem_append_left _ (mem_map_of_mem hf), hd⟩
      · exact ⟨f, mem_append_right _ hf, hd⟩
    · rw [if_neg hts] at hp hne
      obtain ⟨f, hf, hd⟩ := h.drained t hp hne
      exact ⟨f, mem_append_right _ (hother t f hts hf), hd⟩
  · obtain hmem | hmem := mem_append.1 hmem
    · exact h.endless t hmem
    · obtain ⟨e, he, heq⟩ := mem_map.1 hmem
      cases heq; exact hb.endless he

theorem Whole.writable {s : Side} {fs : List (Frame V)} (es : List (Writable.Event V))
    (h : Whole ofString decode given p stack trace) (hw : Still (p.side s).writable w') (hfs : ∀ f ∈ fs, f.usual = true) :
    Whole ofString decode given (p.setSide s ((p.side s).setWritable w')) (fs ++ stack) (trace ++ es.map (Event.writable s)) := by
  have hreadable : ∀ t, ((p.setSide s ((p.side s).setWritable w')).side t).readable.paused = (p.side t).readable.paused ∧
      ((p.setSide s ((p.side s).setWritable w')).side t).readable.pending = (p.side t).readable.pending := by
    intro t
    rw [side_setSide]
    split
    · next hts =>
      subst hts; exact ⟨rfl, rfl⟩
    · exact ⟨rfl, rfl⟩
  refine ⟨fun t => ?_, fun f hf => ?_, fun t => ?_, fun t hp hne => ?_, fun t hmem => ?_⟩
  · rw [side_setSide]
    split
    · exact (h.sides s).setWritable hw
    · exact h.sides t
  · exact (mem_append.1 hf).elim (hfs f) (h.usual f)
  · rw [deliveredTo_append, deliveredTo_writable, append_nil, (hreadable t).2]; exact h.queue t
  · rw [(hreadable t).1] at hp
    rw [(hreadable t).2] at hne
    obtain ⟨f, hf, hd⟩ := h.drained t hp hne; exact ⟨f, mem_append_right _ hf, hd⟩
  · obtain hmem | hmem := mem_append.1 hmem
    · exact h.endless t hmem
    · obtain ⟨e, -, heq⟩ := mem_map.1 hmem; cases heq

section

variable (h : Whole ofString decode given p stack trace)
include h

theorem Whole.rests {s : Side} {b : Writable.Result V}
    (hb : Rests (p.side s).writable b) :
    Whole ofString decode given (p.liftWritable s b).state ((p.liftWritable s b).frames ++ stack)
      (trace ++ (p.liftWritable s b).seen) := by
  have hframes : ∀ {fs : List (Writable.Frame V)}, (∀ f ∈ fs, calm f = true) → ∀ f ∈ fs.map (Frame.writable s), f.usual = true := by
    intro fs hfs f hf
    obtain ⟨g, hg, rfl⟩ := mem_map.1 hf; exact hfs g hg
  have hfirst := h.writable b.seen hb.still (hframes hb.frames)
  unfold liftWritable
  split
  · next entry hlast => exact absurd (mem_of_getLast? hlast) (hb.silent _)
  · have hfin : Rests b.state (b.state.finalized .duplex none) :=
      rests_finalized (hb.still.readableEnded.trans (h.sides s).writableReadableEnded)
    have hstill : Still ((p.setSide s ((p.side s).setWritable b.state)).side s).writable (b.state.finalized .duplex none).state := by
      rw [side_setSide_self]; exact hfin.still
    have hsecond := hfirst.writable (b.state.finalized .duplex none).seen hstill (hframes hfin.frames)
    rw [append_assoc] at hsecond; rw [append_assoc]; exact hsecond
  · exact hfirst

/-- **A chunk that is written is pushed to the peer.** -/
theorem Whole.writes {s : Side} {entry : Entry V} {rest : Option Writable.EndRest} {es : List (Writable.Event V)} (hw : Still (p.side s).writable w')
    (hgiven : ∀ t, given' t = given t ++ if t = s.peer then [entry.chunk] else []) :
    Whole ofString decode given'
      (p.liftWritable s { state := w', seen := es ++ [.write (some entry)], frames := [.writing rest] }).state
      ((p.liftWritable s { state := w', seen := es ++ [.write (some entry)], frames := [.writing rest] }).frames ++ stack)
      (trace ++ (p.liftWritable s { state := w', seen := es ++ [.write (some entry)], frames := [.writing rest] }).seen) := by
  have hfs : ∀ f ∈ ([.pushing s (w'.calls - 1), .writable s (.writing rest)] : List (Frame V)), f.usual = true := by
    simp [Frame.usual, calm]
  have hfirst := h.writable (es ++ [.write (some entry)]) hw hfs
  have hpeer := hfirst.sides s.peer
  obtain ⟨hcarries, hdrained⟩ := carries_push entry.chunk hpeer.readableDestroyed hpeer.endPending
  have hsecond := hfirst.readable hcarries (fun _ hf => hf) (fun _ _ _ hf => hf) (fun hp hne => .inl (hdrained hp hne)) hgiven
  unfold liftWritable
  rw [getLast?_concat]
  rw [append_assoc] at hsecond; rw [append_assoc]; exact hsecond

theorem Whole.accepted {s : Side} {chunk : Chunk V} {encoding : Option BufferEncoding} {callback : Bool}
    {rest : Option Writable.EndRest}
    (hgiven : ∀ t, given' t = given t ++ if t = s.peer then [decode chunk encoding] else []) :
    Whole ofString decode given'
      (p.liftWritable s ((p.side s).writable.acceptWrite ofString .duplex chunk encoding callback rest)).state
      ((p.liftWritable s ((p.side s).writable.acceptWrite ofString .duplex chunk encoding callback rest)).frames ++ stack)
      (trace ++ (p.liftWritable s ((p.side s).writable.acceptWrite ofString .duplex chunk encoding callback rest)).seen) := by
  obtain ⟨w', entry, es, heq, hstill, hchunk⟩ := acceptWrite_open ofString (h.sides s).corked chunk encoding callback rest
  rw [heq]
  refine h.writes hstill (fun t => ?_)
  rw [hgiven t, hchunk, (h.sides s).decodes]

end

/-! ## The runs -/

variable {c c' : Config (DuplexPair V) (Frame V) (Event V)}

theorem writes_append (s : Side) (ls ls' : List (Move (Call V))) :
    writes decode s (ls ++ ls') = writes decode s ls ++ writes decode s ls' := filterMap_append

theorem writes_write (s t : Side) (chunk : Chunk V) (encoding : Option BufferEncoding) (callback : Bool) :
    writes decode t.peer [.call (.write s chunk encoding callback)] = if t = s.peer then [decode chunk encoding] else [] := by
  cases s <;> cases t <;> rfl

theorem writes_end (s t : Side) (chunk : Chunk V) (encoding : Option BufferEncoding) (done : Option Nat) :
    writes decode t.peer [.call (.callEnd s (some chunk) encoding done)] = if t = s.peer then [decode chunk encoding] else [] := by
  cases s <;> cases t <;> rfl

theorem call_whole {k : Call V} {b : Result V} (h : Whole ofString decode given c.state c.stack c.trace)
    (hP : Domain c (.call k)) (hb : c.state.call toString ofString k = some b) :
    Whole ofString decode (fun t => given t ++ writes decode t.peer [.call k]) b.state (b.frames ++ c.stack) (c.trace ++ b.seen) := by
  have hnone : ∀ {s : Side} (t : Side), given t ++ [] = given t ++ if t = s then [] else [] := fun t => by split <;> rfl
  have hold : ∀ {s : Side} {r : Readable V} {fs : List (Stream.Frame V)}, r = (c.state.side s).readable → r.paused = false →
      r.pending ≠ [] → (∃ f ∈ fs, f.drains = true) ∨ ∃ f, .readable s f ∈ c.stack ∧ f.drains = true := by
    rintro s r fs rfl hp hne; exact .inr (h.drained s hp hne)
  cases k with
  | write s chunk encoding callback =>
    cases hb
    have hside := h.sides s
    unfold write
    rw [rejectWrite_open hP hside.writableDestroyed]
    exact h.accepted (fun t => by rw [writes_write])
  | callEnd s chunk encoding done =>
    cases hb
    have hside := h.sides s
    unfold callEnd
    cases chunk with
    | none =>
      have hgiven : (fun t => given t ++ writes decode t.peer [.call (.callEnd s none encoding done)]) = given :=
        funext fun t => append_nil _
      rw [hgiven]; exact h.rests (rests_uncorkAll hside.corked _)
    | some chunk =>
      rw [rejectWrite_open hP hside.writableDestroyed]; exact h.accepted (fun t => by rw [writes_end])
  | pause s =>
    cases hb
    have hcarries : Carries (c.state.side s).readable [] (c.state.side s).readable.pause :=
      ⟨by simp [pause, deliveredChunks], rfl, rfl, rfl, rfl, by simp [pause], by simp [pause, flows]⟩
    exact h.readable hcarries (fun _ hf => hf) (fun _ _ _ hf => hf) (fun hp => by cases hp) hnone
  | resume s =>
    cases hb
    obtain ⟨hcarries, hd | hsame⟩ := carries_resume (r := (c.state.side s).readable)
    · exact h.readable hcarries (fun _ hf => hf) (fun _ _ _ hf => hf) (fun hp hne => .inl (hd hp hne)) hnone
    · exact h.readable hcarries (fun _ hf => hf) (fun _ _ _ hf => hf) (hold hsame) hnone
  | onData s =>
    cases hb
    unfold newListenerAdded
    split
    · exact h.readable carries_same (fun _ hf => hf) (fun _ _ _ hf => hf) (hold rfl) hnone
    · obtain ⟨hcarries, hd | hsame⟩ := carries_resume (r := (c.state.side s).readable)
      · exact h.readable hcarries (fun _ hf => hf) (fun _ _ _ hf => hf) (fun hp hne => .inl (hd hp hne)) hnone
      · exact h.readable hcarries (fun _ hf => hf) (fun _ _ _ hf => hf) (hold hsame) hnone
  | read s =>
    cases hb
    obtain ⟨hcarries, hpaused, hpending⟩ := carries_read toString (c.state.side s).readable
    exact h.readable hcarries (fun _ hf => hf) (fun _ _ _ hf => hf)
      (fun hp hne => .inr (h.drained s (hpaused.symm.trans hp) (hpending hne))) hnone
  | setEncoding s encoding =>
    cases hb
    have hcarries : Carries (c.state.side s).readable []
        { state := { (c.state.side s).readable with encoding := some encoding }, seen := [.encodingSet encoding] } :=
      ⟨by simp [deliveredChunks], rfl, rfl, rfl, rfl, by simp, forall_mem_nil _⟩
    exact h.readable hcarries (fun _ hf => hf) (fun _ _ _ hf => hf) (fun hp hne => .inr (h.drained s hp hne)) hnone
  | checkpoint s =>
    cases hb
    have hsched := (h.sides s).endScheduled
    have heq : (c.state.side s).readable.checkpoint (c.state.side s).writable.writableFinished =
        { state := (c.state.side s).readable } := by
      unfold checkpoint; rw [hsched]; rfl
    rw [heq]; exact h.readable carries_same (fun _ hf => hf) (fun _ _ _ hf => hf) (hold rfl) hnone

theorem goOn_whole {f : Frame V} (h : Whole ofString decode given p (f :: stack) trace) :
    Whole ofString decode given (p.goOn toString f).state ((p.goOn toString f).frames ++ stack) (trace ++ (p.goOn toString f).seen) := by
  have husual := h.usual f mem_cons_self
  cases f with
  | readable s f =>
    obtain ⟨hcarries, hdrains, hkeeps⟩ := carries_goOn toString (h.sides s).endPending husual
    have hgiven : ∀ t, given t = given t ++ if t = s then [] else [] := by
      intro t
      split <;> exact (append_nil _).symm
    refine h.readable hcarries (fun _ hf => mem_cons_of_mem _ hf) (fun t g hts hg => ?_) (fun hp hne => ?_) hgiven
    · refine (mem_cons.1 hg).resolve_left (fun heq => ?_)
      cases heq; exact hts rfl
    · cases hd : f.drains with
      | true => exact .inl (hdrains hd hp hne)
      | false =>
        rw [hkeeps hd] at hp hne
        obtain ⟨g, hg, hgd⟩ := h.drained s hp hne
        refine .inr ⟨g, (mem_cons.1 hg).resolve_left (fun heq => ?_), hgd⟩
        cases heq; rw [hd] at hgd; cases hgd
  | writable s f =>
    have hf : ∀ t g, Frame.writable s f = .readable t g → g.drains = false := fun _ _ => nofun
    exact (h.pop hf).rests (rests_goOn (h.sides s).corked husual)
  | pushing s n =>
    have hf : ∀ t g, (Frame.pushing s n : Frame V) = .readable t g → g.drains = false := fun _ _ => nofun
    have hpop := h.pop hf
    unfold goOn
    dsimp only
    split
    · exact hpop.rests (rests_written _)
    · rw [append_nil]; exact hpop

theorem whole_step {l : Move (Call V)} (h : Whole ofString decode given c.state c.stack c.trace) (hP : Domain c l)
    (hst : (program toString ofString).step c l = some c') :
    Whole ofString decode (fun t => given t ++ writes decode t.peer [l]) c'.state c'.stack c'.trace := by
  cases l with
  | call k => obtain ⟨-, b, hb, rfl⟩ := Reentrant.step_call hst; exact call_whole h hP hb
  | ret =>
    obtain ⟨f, fs, hs, rfl⟩ := Reentrant.step_ret hst
    rw [hs] at h
    have hgiven : (fun t => given t ++ writes decode t.peer [.ret]) = given := funext fun t => append_nil _
    rw [hgiven]; exact goOn_whole h

theorem whole_run {ls : List (Move (Call V))} (h : Run (program toString ofString).step Domain c ls c')
    (hw : Whole ofString decode given c.state c.stack c.trace) :
    Whole ofString decode (fun t => given t ++ writes decode t.peer ls) c'.state c'.stack c'.trace := by
  induction h generalizing given with
  | nil c =>
    have hgiven : (fun t => given t ++ writes decode t.peer []) = given := funext fun t => append_nil _
    rw [hgiven]; exact hw
  | @cons c c₁ c₂ l ls hP hst hrun ih =>
    have hgiven : (fun t => given t ++ writes decode t.peer (l :: ls)) =
        fun t => given t ++ writes decode t.peer [l] ++ writes decode t.peer ls := by
      funext t
      rw [← singleton_append, writes_append, append_assoc]
    rw [hgiven]; exact ih (whole_step hw hP hst)

variable (ofString) in
theorem create_whole {objectMode autoDestroy decodeStrings : Bool} {highWaterMark : Nat} {defaultEncoding : BufferEncoding}
    {encoding : Option BufferEncoding} {d : Duplex V}
    (hd : d = .create objectMode highWaterMark autoDestroy decodeStrings defaultEncoding encoding) :
    Whole ofString (fun chunk e => (d.writable.decodeChunk ofString chunk e).1) (fun _ => []) { first := d, second := d } [] [] := by
  have hside : ∀ s, side { first := d, second := d } s = d := by
    intro s
    cases s <;> rfl
  subst hd
  refine ⟨fun s => ?_, forall_mem_nil _, fun s => ?_, fun s _ hne => ?_, fun _ => nofun⟩
  · rw [hside]; exact ⟨rfl, rfl, rfl, rfl, rfl, rfl, rfl, fun _ _ => rfl⟩
  · rw [hside]; rfl
  · rw [hside] at hne; exact absurd rfl hne

/-- How a side decodes what is written to it. -/
def decoded (ofString : BufferEncoding → List UInt16 → Bytes) (objectMode : Bool) (highWaterMark : Nat)
    (autoDestroy decodeStrings : Bool) (defaultEncoding : BufferEncoding) (chunk : Chunk V) (encoding : Option BufferEncoding) :
    Chunk V :=
  let d : Duplex V := .create objectMode highWaterMark autoDestroy decodeStrings defaultEncoding none
  (d.writable.decodeChunk ofString chunk encoding).1

/-- **The chunks arrive, and the end does not**: each side has delivered or holds what was written to the other, in order, and
all of it is delivered when the side flows and nothing runs; no side ever emits `'end'`. -/
theorem delivers_without_end (toString : BufferEncoding → Bytes → List UInt16) (ofString : BufferEncoding → List UInt16 → Bytes)
    (objectMode : Bool) (highWaterMark : Nat) (autoDestroy decodeStrings : Bool) (defaultEncoding : BufferEncoding)
    (encoding : Option BufferEncoding) (ls : List (Move (Call V))) (c : Config (DuplexPair V) (Frame V) (Event V))
    (h : Run (program toString ofString).step Domain
      (create objectMode highWaterMark autoDestroy decodeStrings defaultEncoding encoding) ls c) (s : Side) :
    let written := writes (decoded ofString objectMode highWaterMark autoDestroy decodeStrings defaultEncoding) s.peer ls
    deliveredTo s c.trace ++ (c.state.side s).readable.pending = written ∧
      (c.stack = [] → (c.state.side s).readable.paused = false → deliveredTo s c.trace = written) ∧
      .readable s .ended ∉ c.trace := by
  have hwhole := whole_run h (create_whole ofString rfl)
  have hqueue := hwhole.queue s
  refine ⟨hqueue, fun hstack hpaused => ?_, hwhole.endless s⟩
  have hempty : (c.state.side s).readable.pending = [] := by
    by_contra hne
    obtain ⟨f, hf, -⟩ := hwhole.drained s hpaused hne; rw [hstack] at hf; cases hf
  rw [hempty, append_nil] at hqueue; exact hqueue

/-- A chunk is written to one side, which is then ended; the other flows. -/
theorem delivers_without_end_written : ∃ c : Config (DuplexPair Nat) (Frame Nat) (Event Nat),
    c.stack = [] ∧ (c.state.side .first).writable.writableFinished = true ∧ deliveredTo .second c.trace = [.other 7] ∧
      .readable .second .ended ∉ c.trace := by
  have h : Run (program (fun _ _ => []) (fun _ _ => [])).step Domain
      (create true 16 true true .utf8 none : Config (DuplexPair Nat) (Frame Nat) (Event Nat))
      [.call (.onData .second), .ret, .call (.write .first (.other 7) none false), .ret, .ret, .ret, .ret,
        .call (.callEnd .first none none none), .ret, .call (.checkpoint .second)] _ :=
    .cons trivial rfl (.cons trivial rfl (.cons rfl rfl (.cons trivial rfl (.cons trivial rfl (.cons trivial rfl
      (.cons trivial rfl (.cons trivial rfl (.cons trivial rfl (.cons trivial rfl (.nil _))))))))))
  obtain ⟨-, hall, hend⟩ := delivers_without_end _ _ _ _ _ _ _ _ _ _ h .second
  exact ⟨_, rfl, rfl, hall rfl rfl, hend⟩

/-- The other side of one that is ended never ends, whatever happens then. -/
theorem end_never_comes : ¬ ∀ (ls ls' : List (Move (Call Nat))) (c c' : Config (DuplexPair Nat) (Frame Nat) (Event Nat)),
    Run (program (fun _ _ => []) (fun _ _ => [])).step Domain (create true 16 true true .utf8 none) ls c →
      c.stack = [] → (c.state.side .first).writable.writableEnded = true → (c.state.side .second).readable.paused = false →
      Run (program (fun _ _ => []) (fun _ _ => [])).step Domain c ls' c' → .call (.checkpoint .second) ∈ ls' →
      .readable .second .ended ∈ c'.trace := by
  intro h
  have hrun : Run (program (fun _ _ => []) (fun _ _ => [])).step Domain
      (create true 16 true true .utf8 none : Config (DuplexPair Nat) (Frame Nat) (Event Nat))
      [.call (.onData .second), .ret, .call (.callEnd .first none none none), .ret] _ :=
    .cons trivial rfl (.cons trivial rfl (.cons trivial rfl (.cons trivial rfl (.nil _))))
  have hmem := h _ [.call (.checkpoint .second)] _ _ hrun rfl rfl rfl (.cons trivial rfl (.nil _)) mem_cons_self
  revert hmem; decide

end NodeCompat.Stream.DuplexPair
