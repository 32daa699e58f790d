import NodeCompat.Stream.Writable

/-!
# What a `Writable` does with the chunks it has accepted

A chunk that was accepted is passed to `_write`, or is held by a flush, or is queued, and the three are in the order of
acceptance block by block (`Carries`): a block passes on what a flush has taken, then the queue, then what is new. Most
blocks leave the chunks alone (`Quiet`), and a block calls `_write` once at most (`Effect`).
-/

namespace NodeCompat.Stream.Writable

open List

variable {V : Type} {ofString : BufferEncoding → List UInt16 → Bytes} {w : Writable V}

/-- What the two have to agree on. -/
def Event.observed : Event V → Bool
  | .endCallback _ _ | .error _ | .close => false
  | _ => true

def observed (es : List (Event V)) : List (Event V) := es.filter Event.observed

@[simp] theorem observed_append (es es' : List (Event V)) : observed (es ++ es') = observed es ++ observed es' :=
  filter_append ..

def Frame.isFlush : Frame V → Bool
  | .flushing _ _ => true
  | _ => false

/-! ## What only concerns the lifetime -/

theorem observed_settled (callbacks : List Nat) (error : Option WritableError) :
    observed (callbacks.map (fun callback => (.endCallback callback error : Event V))) = [] := by
  induction callbacks with
  | nil => rfl
  | cons callback callbacks ih => exact ih

/-- A step of the lifetime: the same for both, and out of their sight. -/
structure LifeStep (f : Writable V → Writable V × List (Event V)) : Prop where
  core : ∀ w, (f w).1.toWritableCore = w.toWritableCore
  queue : ∀ w, (f w).1.writeQueue = w.writeQueue
  seen : ∀ w, observed (f w).2 = []
  life : ∀ w d, w.toWritableCore = d.toWritableCore → w.toLifetime = d.toLifetime →
    (f w).1.toLifetime = (f d).1.toLifetime

theorem destroy_lifeStep (error : Option WritableError) : LifeStep (fun w : Writable V => w.destroy error) := by
  refine ⟨fun w => ?_, fun w => ?_, fun w => ?_, fun w d _ hl => ?_⟩
  · unfold destroy
    split <;> rfl
  · unfold destroy
    split <;> rfl
  · unfold destroy
    split
    · rfl
    · simp only [settleFinish, observed_append, observed_settled]
      cases error <;> rfl
  · unfold destroy settleFinish
    simp only [hl]
    split
    · exact hl
    · rfl

theorem errorOrDestroy_lifeStep (error : WritableError) : LifeStep (fun w : Writable V => w.errorOrDestroy error) := by
  have hd := destroy_lifeStep (V := V) (some error)
  refine ⟨fun w => ?_, fun w => ?_, fun w => ?_, fun w d hc hl => ?_⟩
  · unfold errorOrDestroy
    split
    · rfl
    · split
      · exact hd.core w
      · rfl
  · unfold errorOrDestroy
    split
    · rfl
    · split
      · exact hd.queue w
      · rfl
  · unfold errorOrDestroy
    split
    · rfl
    · split
      · exact hd.seen w
      · rfl
  · unfold errorOrDestroy
    simp only [hl, hc]
    split
    · exact hl
    · split
      · exact hd.life w d hc hl
      · simp

theorem settleFinish_lifeStep (error : Option WritableError) : LifeStep (fun w : Writable V => w.settleFinish error) := by
  refine ⟨fun w => rfl, fun w => rfl, fun w => observed_settled _ _, fun w d _ hl => ?_⟩
  simp only [settleFinish, hl]

theorem over_lifeStep (ends : Bool) :
    LifeStep (fun w : Writable V => if ends then w.destroy none else (w, [])) := by
  cases ends with
  | true => exact destroy_lifeStep none
  | false => exact ⟨fun _ => rfl, fun _ => rfl, fun _ => rfl, fun _ _ _ hl => hl⟩

/-! ## Where the chunks are -/

def ids (q : List (Entry V)) : List Nat := q.map Entry.id

/-- The calls of `_write`. -/
def writes (es : List (Event V)) : List (Option (Entry V)) := es.filterMap fun
    | .write entry => some entry
    | _ => none

/-- The chunks passed to `_write`. -/
def writtenEntries (es : List (Event V)) : List (Entry V) := (writes es).filterMap id

def writtenIds (es : List (Event V)) : List Nat := es.filterMap fun
    | .write (some entry) => some entry.id
    | _ => none

/-- The chunks that a flush of a `Writable` still has to write. -/
def Frame.entries : Frame V → List (Entry V)
  | .flushing (.taken rest) _ => rest
  | _ => []

def Frame.ids (f : Frame V) : List Nat := Writable.ids f.entries

def Frame.isIndexed : Frame V → Bool
  | .flushing (.indexed _ _) _ => true
  | _ => false

@[simp] theorem writes_append (es es' : List (Event V)) : writes (es ++ es') = writes es ++ writes es' :=
  filterMap_append

theorem writtenIds_append (es es' : List (Event V)) : writtenIds (es ++ es') = writtenIds es ++ writtenIds es' :=
  filterMap_append

theorem writtenIds_eq (es : List (Event V)) : writtenIds es = (writes es).filterMap (Option.map Entry.id) := by
  induction es with
  | nil => rfl
  | cons e es ih =>
    cases e with
    | write entry =>
      cases entry with
      | none => exact ih
      | some entry => exact congrArg (List.cons entry.id) ih
    | _ => exact ih

theorem ids_writtenEntries (es : List (Event V)) : ids (writtenEntries es) = writtenIds es := by
  rw [writtenIds_eq, writtenEntries, ids, map_filterMap]; rfl

theorem flatMap_entries_ids (fs : List (Frame V)) : ids (fs.flatMap Frame.entries) = fs.flatMap Frame.ids := by
  rw [ids, map_flatMap]; rfl

theorem mem_writes {es : List (Event V)} {entry : Option (Entry V)} : entry ∈ writes es ↔ .write entry ∈ es := by
  unfold writes
  rw [mem_filterMap]
  constructor
  · rintro ⟨e, he, heq⟩
    cases e <;> cases heq
    exact he
  · exact fun he => ⟨_, he, rfl⟩

theorem writes_unobserved {es : List (Event V)} (h : observed es = []) : writes es = [] := by
  refine filterMap_eq_nil_iff.2 (fun e he => ?_)
  have hn : e.observed = false := by simpa using filter_eq_nil_iff.1 h e he
  cases e <;> first | rfl | cases hn

theorem flatMap_entries {fs : List (Frame V)} (hf : ∀ f ∈ fs, f.isFlush = false) : fs.flatMap Frame.entries = [] := by
  refine flatMap_eq_nil_iff.2 (fun f h => ?_)
  have h' := hf f h
  cases f <;> first | rfl | cases h'

theorem flatMap_ids {fs : List (Frame V)} (hf : ∀ f ∈ fs, f.isFlush = false) : fs.flatMap Frame.ids = [] := by
  rw [← flatMap_entries_ids, flatMap_entries hf]; rfl

/-! ## Blocks -/

/-- What concerns the chunks. -/
structure Held (V : Type) where
  queue : List (Entry V)
  accepted : Nat
  calls : Nat
  outstanding : List (Outstanding V)

def held (w : Writable V) : Held V := ⟨w.writeQueue, w.accepted, w.calls, w.outstanding⟩

/-- Nothing is queued when nothing is corked. -/
def Tidy (w : Writable V) : Prop := w.writableCorked = 0 → w.writeQueue = []

/-- A block that leaves the chunks alone. -/
structure Quiet (w : Writable V) (b : Result V) : Prop where
  held : b.state.held = w.held
  corked : b.state.writableCorked = w.writableCorked
  seen : writes b.seen = []
  frames : ∀ f ∈ b.frames, f.isFlush = false

/-- A block calls `_write` once, or not at all. -/
inductive Effect (w : Writable V) (b : Result V) : Prop
  | still : b.state.calls = w.calls → b.state.outstanding = w.outstanding → writes b.seen = [] →
      (∀ f ∈ b.frames, f.isFlush = false) → Effect w b
  | wrote (entry : Entry V) (length : Nat) (f : Frame V) : b.state.calls = w.calls + 1 →
      b.state.outstanding = w.outstanding ++ [⟨w.calls, some entry, length⟩] → writes b.seen = [some entry] →
      b.frames = [f] → Effect w b

/-- A block of a `Writable` passes on the chunks that a flush had `taken`, and accepts those in `extra`. -/
structure Carries (w : Writable V) (b : Result V) (taken extra : List (Entry V)) : Prop where
  order : writtenEntries b.seen ++ b.frames.flatMap Frame.entries ++ b.state.writeQueue = taken ++ w.writeQueue ++ extra
  fresh : ids extra = (List.range extra.length).map (w.accepted + ·)
  tidy : b.state.Tidy
  accepted : b.state.accepted = w.accepted + extra.length
  effect : Effect w b
  frames : ∀ f ∈ b.frames, f.isIndexed = false

variable {w' : Writable V} {b : Result V} {taken extra : List (Entry V)}

variable (done : Option Nat)

variable (chunk : Chunk V)

variable (encoding : Option BufferEncoding)

variable (callback : Bool)

variable (rest : Option EndRest)

theorem ids_append (q q' : List (Entry V)) : ids (q ++ q') = ids q ++ ids q' := map_append

theorem Carries.ids_order (h : Carries w b taken extra) :
    writtenIds b.seen ++ b.frames.flatMap Frame.ids ++ ids b.state.writeQueue = ids taken ++ ids w.writeQueue ++ ids extra := by
  rw [← ids_writtenEntries, ← flatMap_entries_ids, ← ids_append, ← ids_append, h.order, ids_append, ids_append]

theorem Quiet.carries (hw : w.Tidy) (h : Quiet w b) : Carries w b [] [] := by
  have hq : b.state.writeQueue = w.writeQueue := congrArg Held.queue h.held
  refine ⟨?_, rfl, ?_, congrArg Held.accepted h.held, ?_, fun f hf => ?_⟩
  · rw [writtenEntries, h.seen, flatMap_entries h.frames, hq]; simp
  · intro h0; rw [hq]; exact hw (h.corked ▸ h0)
  · exact .still (congrArg Held.calls h.held) (congrArg Held.outstanding h.held) h.seen h.frames
  · have h' := h.frames f hf
    cases f <;> first | rfl | cases h'

theorem Quiet.silent (hh : w'.held = w.held) (hc : w'.writableCorked = w.writableCorked) : Quiet w { state := w' } := ⟨hh, hc, rfl, forall_mem_nil _⟩

theorem Quiet.refl (w : Writable V) : Quiet w { state := w } := .silent rfl rfl

theorem Quiet.of_state (h : Quiet w' b) (hh : w'.held = w.held) (hc : w'.writableCorked = w.writableCorked) : Quiet w b :=
  ⟨h.held.trans hh, h.corked.trans hc, h.seen, h.frames⟩

theorem Carries.of_state (h : Carries w' b taken extra) (hh : w'.held = w.held) : Carries w b taken extra := by
  have hq : w'.writeQueue = w.writeQueue := congrArg Held.queue hh
  have ha : w'.accepted = w.accepted := congrArg Held.accepted hh
  have hc : w'.calls = w.calls := congrArg Held.calls hh
  have ho : w'.outstanding = w.outstanding := congrArg Held.outstanding hh
  refine ⟨?_, ha ▸ h.fresh, h.tidy, ?_, ?_, h.frames⟩
  · rw [h.order, hq]
  · rw [h.accepted, ha]
  · cases h.effect with
    | still hn ho' hs hf => exact .still (hn.trans hc) (ho'.trans ho) hs hf
    | wrote entry length f hn ho' hs hf =>
      rw [hc] at hn ho'; rw [ho] at ho'; exact .wrote entry length f hn ho' hs hf

theorem Carries.seen_append (es : List (Event V)) (hes : writes es = []) (h : Carries w b taken extra) :
    Carries w { b with seen := es ++ b.seen } taken extra := by
  refine ⟨?_, h.fresh, h.tidy, h.accepted, ?_, h.frames⟩
  · rw [writtenEntries, writes_append, hes]; exact h.order
  · cases h.effect with
    | still hn ho hs hf => exact .still hn ho (by simp [hes, hs]) hf
    | wrote entry length f hn ho hs hf => exact .wrote entry length f hn ho (by simp [hes, hs]) hf

theorem LifeStep.held {f : Writable V → Writable V × List (Event V)} (hf : LifeStep f) (w : Writable V) :
    (f w).1.held = w.held := by
  unfold Writable.held; rw [hf.core, hf.queue]

theorem LifeStep.quiet {f : Writable V → Writable V × List (Event V)} (hf : LifeStep f) (w : Writable V) :
    Quiet w { state := (f w).1, seen := (f w).2 } :=
  ⟨hf.held w, congrArg (·.writableCorked) (hf.core w), writes_unobserved (hf.seen w), forall_mem_nil _⟩

theorem performWrite_carries (entry : Entry V) {f : Frame V} (hf : f.isIndexed = false) (hw : w.Tidy) :
    Carries w (w.performWrite (some entry) f) (entry :: f.entries) [] := by
  refine ⟨?_, rfl, hw, rfl, .wrote entry _ f rfl rfl rfl rfl, by simpa [performWrite] using hf⟩
  simp [performWrite, writtenEntries, writes]

theorem callFinal_quiet : Quiet w w.callFinal := by
  unfold callFinal
  dsimp only
  split
  · exact .silent rfl rfl
  · exact ⟨rfl, rfl, rfl, by simp [Frame.isFlush]⟩

theorem awaitFinish_held :
    (w.awaitFinish done).held = w.held ∧ (w.awaitFinish done).writableCorked = w.writableCorked := by
  cases done <;> exact ⟨rfl, rfl⟩

theorem firstEnd_quiet : Quiet w (w.firstEnd done) := by
  obtain ⟨hh, hc⟩ := awaitFinish_held (w := { w with writableEnded := true }) done
  unfold firstEnd
  dsimp only
  split
  · exact .silent hh hc
  · split
    · exact .silent hh hc
    · exact callFinal_quiet.of_state hh hc

theorem answer_quiet (error : WritableError) :
    Quiet w { state := w, seen := (done.map (fun callback => .endCallback callback (some error))).toList } := by
  cases done <;> exact ⟨rfl, rfl, rfl, forall_mem_nil _⟩

theorem endRest_quiet (rest : EndRest) : Quiet w (w.endRest rest) := by
  unfold endRest
  cases rest.rejected with
  | some error => exact answer_quiet rest.done error
  | none =>
    dsimp only
    split
    · exact firstEnd_quiet rest.done
    · split
      · exact answer_quiet rest.done _
      · split
        · exact answer_quiet rest.done _
        · split
          · exact answer_quiet rest.done _
          · exact .silent (awaitFinish_held rest.done).1 (awaitFinish_held rest.done).2

open Quiet

theorem takeQueue_carries : Carries w (w.takeQueue rest) [] [] := by
  unfold takeQueue
  cases hq : w.writeQueue with
  | nil =>
    have hh : ({ w with writableLength := 0, writeQueue := [] } : Writable V).held = w.held := by
      unfold held; rw [hq]
    cases rest with
    | none => exact ((refl _).carries (fun _ => rfl)).of_state hh
    | some rest => exact ((endRest_quiet rest).carries (fun _ => rfl)).of_state hh
  | cons entry queue =>
    have hp := performWrite_carries (w := { w with writableLength := 0, writeQueue := [] }) entry
      (f := .flushing (.taken queue) rest) rfl (fun _ => rfl)
    refine ⟨?_, rfl, hp.tidy, hp.accepted, ?_, hp.frames⟩
    · rw [hp.order, hq]; simp [Frame.entries]
    · exact .wrote entry _ _ rfl rfl rfl rfl

theorem uncork_carries (hw : w.Tidy) : Carries w (w.uncork .writable) [] [] := by
  unfold uncork flush
  dsimp only
  split
  · exact (refl w).carries hw
  · split
    · next hc =>
      have hq := (refl { w with writableCorked := w.writableCorked - 1 }).carries (fun h0 => absurd h0 hc)
      exact hq.of_state rfl
    · exact (takeQueue_carries none).of_state rfl

theorem uncorkAll_carries (rest : EndRest) (hw : w.Tidy) : Carries w (w.uncorkAll .writable rest) [] [] := by
  unfold uncorkAll flush
  split
  · exact (endRest_quiet rest).carries hw
  · exact (takeQueue_carries (some rest)).of_state rfl

theorem writeRest_carries (hw : w.Tidy) : Carries w (w.writeRest .writable rest) [] [] := by
  unfold writeRest
  generalize decide (w.writableLength < w.writableHighWaterMark) = accepted
  cases rest with
  | none => cases accepted <;> exact carries hw ⟨rfl, rfl, rfl, forall_mem_nil _⟩
  | some rest =>
    cases accepted
    · exact (uncorkAll_carries (w := { w with writableNeedDrain := true }) rest hw).of_state rfl
    · exact uncorkAll_carries rest hw

theorem acceptWrite_carries
    (hw : w.Tidy) : Carries w (w.acceptWrite ofString .writable chunk encoding callback rest) []
      [⟨w.accepted, (w.decodeChunk ofString chunk encoding).1, (w.decodeChunk ofString chunk encoding).2, callback⟩] := by
  refine Carries.seen_append [.accepted w.accepted] rfl ?_
  split
  · next hc =>
    have hr := writeRest_carries
      (w := { w with
          accepted := w.accepted + 1
          writeQueue := w.writeQueue ++ [⟨w.accepted, (w.decodeChunk ofString chunk encoding).1,
            (w.decodeChunk ofString chunk encoding).2, callback⟩]
          writableLength := w.writableLength +
            streamChunkLength w.writableObjectMode (w.decodeChunk ofString chunk encoding).1 }) rest
      (fun h0 => absurd h0 (Nat.pos_iff_ne_zero.1 hc))
    refine ⟨?_, rfl, hr.tidy, hr.accepted, ?_, hr.frames⟩
    · rw [hr.order]; simp
    · cases hr.effect with
      | still hn ho hs hf => exact .still hn ho hs hf
      | wrote entry length f hn ho hs hf => exact .wrote entry length f hn ho hs hf
  · next hc =>
    have h0 : w.writableCorked = 0 := by
      have hc' : ¬ 0 < w.writableCorked := hc; omega
    have hq : w.writeQueue = [] := hw h0
    have hp := performWrite_carries (w := { w with accepted := w.accepted + 1 })
      ⟨w.accepted, (w.decodeChunk ofString chunk encoding).1, (w.decodeChunk ofString chunk encoding).2, callback⟩
      (f := .writing rest) rfl (fun _ => hq)
    refine ⟨?_, rfl, hp.tidy, hp.accepted, ?_, hp.frames⟩
    · rw [hp.order]; simp [hq, Frame.entries]
    · exact .wrote _ _ _ rfl rfl rfl rfl

theorem refused_quiet (error : WritableError) : Quiet w (w.refused error) := by
  have hq := (errorOrDestroy_lifeStep (V := V) error).quiet w
  refine ⟨hq.held, hq.corked, ?_, forall_mem_nil _⟩
  exact (writes_append _ _).trans (congrArg (· ++ _) hq.seen)

theorem write_quiet {kind : Kind}
    (hr : w.rejectWrite ≠ none) : Quiet w (w.write ofString kind chunk encoding callback) := by
  obtain ⟨error, hr⟩ := Option.ne_none_iff_exists'.1 hr
  unfold write
  rw [hr]
  cases callback with
  | true => exact ⟨rfl, rfl, rfl, by simp [Frame.isFlush]⟩
  | false => exact refused_quiet error

/-- How many chunks with a callback a call accepts. -/
def Call.accepts (w : Writable V) : Call V → Nat
  | .write _ _ true => if w.rejectWrite = none then 1 else 0
  | _ => 0

theorem write_carries (hw : w.Tidy) :
    ∃ extra, Carries w (w.write ofString .writable chunk encoding callback) [] extra ∧
      extra.countP Entry.callback = (Call.write chunk encoding callback).accepts w := by
  cases hr : w.rejectWrite with
  | some error =>
    refine ⟨[], (write_quiet chunk encoding callback (by simp [hr])).carries hw, ?_⟩
    cases callback <;> simp [Call.accepts, hr]
  | none =>
    have hb : w.write ofString .writable chunk encoding callback =
        w.acceptWrite ofString .writable chunk encoding callback none := by
      unfold write; rw [hr]
    rw [hb]
    refine ⟨_, acceptWrite_carries chunk encoding callback none hw, ?_⟩
    cases callback <;> simp [Call.accepts, hr]

theorem callEnd_carries (chunk : Option (Chunk V)) (encoding : Option BufferEncoding) (done : Option Nat) (hw : w.Tidy) :
    ∃ extra, Carries w (w.callEnd ofString .writable chunk encoding done) [] extra ∧ extra.countP Entry.callback = 0 := by
  unfold callEnd
  cases chunk with
  | none => exact ⟨[], uncorkAll_carries _ hw, rfl⟩
  | some chunk =>
    dsimp only
    split
    · next error _ =>
      have hl := errorOrDestroy_lifeStep (V := V) error
      have ht : (w.errorOrDestroy error).1.Tidy := by
        unfold Tidy; rw [hl.core, hl.queue]; exact hw
      exact ⟨[], Carries.seen_append _ (writes_unobserved (hl.seen w)) ((uncorkAll_carries _ ht).of_state (hl.held w)), rfl⟩
    · exact ⟨_, acceptWrite_carries chunk encoding false _ hw, rfl⟩

theorem completed_quiet (error : Option WritableError) : Quiet w (w.completed error) := by
  unfold completed
  cases error with
  | some error => exact (errorOrDestroy_lifeStep error).quiet w
  | none =>
    dsimp only
    split
    · exact ⟨rfl, rfl, rfl, by simp [Frame.isFlush]⟩
    · split
      · exact callFinal_quiet
      · exact .refl w

/-- Without the call of `_write` that calls back. -/
def settled (w : Writable V) (n : Nat) : Writable V :=
  { w with outstanding := w.outstanding.filter (fun o => o.call != n) }

theorem written_quiet (o : Outstanding V) (error : Option WritableError) : Quiet (w.settled o.call) (w.written o error) := by
  unfold written
  split
  · exact ⟨rfl, rfl, rfl, by simp [Frame.isFlush]⟩
  · exact (completed_quiet error).of_state rfl rfl

theorem finalized_quiet (error : Option WritableError) : Quiet w (w.finalized .writable error) := by
  have hs := fun error => settleFinish_lifeStep (V := V) error
  unfold finalized
  cases error with
  | some error =>
    have hl := errorOrDestroy_lifeStep (V := V) error
    refine ⟨((hl.held _).trans ((hs _).held _)).trans rfl, congrArg (·.writableCorked) ((hl.core _).trans ((hs _).core _)), ?_,
      (forall_mem_nil _)⟩
    rw [writes_append, writes_unobserved (hl.seen _), writes_unobserved ((hs _).seen _)]; rfl
  | none =>
    have hl := over_lifeStep (V := V) w.autoDestroy
    refine ⟨((hl.held _).trans ((hs _).held _)).trans rfl, congrArg (·.writableCorked) ((hl.core _).trans ((hs _).core _)), ?_,
      (forall_mem_nil _)⟩
    have hfin : ∀ es : List (Event V), writes (.finish :: es) = writes es := fun _ => rfl
    rw [writes_append, writes_unobserved ((hs _).seen _), hfin]; exact writes_unobserved (hl.seen _)

/-- The state without the call of `_write` that calls back, if one does. -/
def before (w : Writable V) : Call V → Writable V
  | .written n _ => w.settled n
  | _ => w

@[simp] theorem before_queue (k : Call V) : (w.before k).writeQueue = w.writeQueue := by
  cases k <;> rfl

@[simp] theorem before_accepted (k : Call V) : (w.before k).accepted = w.accepted := by
  cases k <;> rfl

theorem call_carries {k : Call V} (hw : w.Tidy) (hb : w.call ofString .writable k = some b) :
    ∃ extra, Carries (w.before k) b [] extra ∧ extra.countP Entry.callback = k.accepts w := by
  cases k with
  | cork =>
    cases hb
    have hq := (refl { w with writableCorked := w.writableCorked + 1 }).carries (fun h0 => absurd h0 (Nat.succ_ne_zero _))
    exact ⟨[], hq.of_state rfl, rfl⟩
  | uncork => cases hb; exact ⟨[], uncork_carries hw, rfl⟩
  | write chunk encoding callback => cases hb; exact write_carries chunk encoding callback hw
  | callEnd chunk encoding done => cases hb; exact callEnd_carries chunk encoding done hw
  | destroy error => cases hb; exact ⟨[], ((destroy_lifeStep error).quiet w).carries hw, rfl⟩
  | setDefaultEncoding encoding | readableEnd => cases hb; exact ⟨[], carries hw (.silent rfl rfl), rfl⟩
  | written n error =>
    obtain ⟨o, ho, rfl⟩ := Option.map_eq_some_iff.1 hb
    have hn : o.call = n := by simpa using find?_some ho
    subst hn; exact ⟨[], (written_quiet o error).carries hw, rfl⟩
  | finalized error =>
    unfold call at hb
    dsimp only at hb
    split at hb
    · cases hb; exact ⟨[], (finalized_quiet error).carries hw, rfl⟩
    · cases hb

theorem goOn_carries {f : Frame V} (hf : f.isIndexed = false) (hw : w.Tidy) :
    Carries w (w.goOn .writable f) f.entries [] := by
  cases f with
  | writing rest => exact writeRest_carries rest hw
  | flushing flush rest =>
    cases flush with
    | indexed index queued => cases hf
    | taken queue =>
      cases queue with
      | cons entry queue => exact performWrite_carries entry rfl hw
      | nil =>
        cases rest with
        | none => exact (refl w).carries hw
        | some rest => exact uncorkAll_carries rest hw
  | refusing error => exact (refused_quiet error).carries hw
  | completing error => exact (completed_quiet error).carries hw
  | draining =>
    unfold goOn
    dsimp only
    split
    · exact callFinal_quiet.carries hw
    · exact (refl w).carries hw
  | final => exact (refl w).carries hw

theorem settled_perm {os : List (Outstanding V)} {o : Outstanding V} (ho : o ∈ os)
    (hone : ∀ n, (os.map Outstanding.call).count n ≤ 1) : os.Perm (o :: os.filter (fun o' => o'.call != o.call)) := by
  induction os with
  | nil => cases ho
  | cons o' os ih =>
    have hrest : ∀ n, (os.map Outstanding.call).count n ≤ 1 := fun n => Nat.le_trans count_le_count_cons (hone n)
    have h' := hone o'.call
    rw [map_cons, count_cons_self] at h'
    have hnot : o'.call ∉ os.map Outstanding.call := count_eq_zero.1 (by omega)
    obtain rfl | hm := mem_cons.1 ho
    · have hall : os.filter (fun o' => o'.call != o.call) = os := by
        refine filter_eq_self.2 (fun o' hm => bne_iff_ne.2 (fun heq => hnot ?_))
        exact heq ▸ mem_map_of_mem hm
      rw [filter_cons_of_neg (by simp), hall]
    · have hne : o'.call ≠ o.call := fun heq => hnot (heq ▸ mem_map_of_mem hm)
      have hkeep : (o' :: os).filter (fun o' => o'.call != o.call) = o' :: os.filter (fun o' => o'.call != o.call) :=
        filter_cons_of_pos (by simpa using hne)
      rw [hkeep]; exact ((ih hm hrest).cons o').trans (.swap o o' _)

/-! ## Nothing is lost and nothing is written twice -/

theorem Effect.no_undefined (h : Effect w b) : .write none ∉ b.seen := by
  rw [← mem_writes]
  cases h with
  | still _ _ hs _ | wrote entry _ _ _ _ hs _ => simp [hs]

/-- Each accepted chunk was passed to `_write`, or waits in a flush or in the queue, and only once. -/
structure Conserved (c : Config (Writable V) (Frame V) (Event V)) : Prop where
  count : ∀ i, (writtenIds c.trace).count i + (c.stack.flatMap Frame.ids).count i + (ids c.state.writeQueue).count i =
    (List.range c.state.accepted).count i
  tidy : c.state.Tidy
  frames : ∀ f ∈ c.stack, f.isIndexed = false
  entries : .write none ∉ c.trace

theorem Conserved.onto {stack : List (Frame V)} {trace : List (Event V)} (h : Carries w b taken extra)
    (hcount : ∀ i, (writtenIds trace).count i + (stack.flatMap Frame.ids).count i + (ids taken).count i +
      (ids w.writeQueue).count i = (List.range w.accepted).count i) (hfs : ∀ f ∈ stack, f.isIndexed = false)
    (he : .write none ∉ trace) : Conserved (b.onto stack trace) := by
  refine ⟨fun i => ?_, h.tidy, ?_, ?_⟩
  · have h₁ := hcount i
    have h₂ := congrArg (List.count i) h.ids_order
    simp only [count_append] at h₂
    simp only [Block.onto_trace, Block.onto_stack, Block.onto_state, writtenIds_append, flatMap_append,
      count_append, h.accepted, range_add, ← h.fresh]
    omega
  · simp only [Block.onto_stack, mem_append]
    rintro f (hf | hf)
    · exact h.frames f hf
    · exact hfs f hf
  · simp only [Block.onto_trace, mem_append, not_or]; exact ⟨he, h.effect.no_undefined⟩

theorem conserved_step {c c' : Config (Writable V) (Frame V) (Event V)} {l : Move (Call V)} (h : Conserved c)
    (hst : (program ofString .writable).step c l = some c') : Conserved c' := by
  cases l with
  | call k =>
    obtain ⟨-, b, hb, rfl⟩ := Reentrant.step_call hst
    obtain ⟨extra, hc, -⟩ := call_carries h.tidy hb
    refine Conserved.onto hc (fun i => ?_) h.frames h.entries
    have h₁ := h.count i; rw [before_queue, before_accepted, ids, map_nil, count_nil]; omega
  | ret =>
    obtain ⟨f, fs, hs, rfl⟩ := Reentrant.step_ret hst
    have hc := goOn_carries (h.frames f (by simp [hs])) h.tidy
    refine Conserved.onto hc (fun i => ?_) (fun g hg => h.frames g (by simp [hs, hg])) h.entries
    have h₁ := h.count i; rw [hs, flatMap_cons, count_append, Frame.ids] at h₁; omega

end NodeCompat.Stream.Writable
