import NodeCompat.Stream.Delivery
import NodeCompat.Stream.Writable

/-!
# After `destroy`

Most methods test `destroyed` before they emit; `push`, `resume`, the microtask of `'end'` and `callFinal` do. Four places do
not: the flowing loop and `read` hand out what is still buffered, and the callbacks of `_write` and `_final` emit `'drain'` and
`'finish'`. A program that leaves these alone (`Still`) sees nothing but errors and one `'close'` once it has destroyed a stream.

The two halves of a `Duplex` are destroyed together: each is a run of its own here, with a `destroy` wherever the other half is
destroyed.
-/

namespace NodeCompat.Stream

open List

variable {V : Type}

/-! ## The readable side -/

/-- What a consumer waits for. -/
def Event.flows : Event V → Bool
  | .data _ _ _ | .ended => true
  | _ => false

def Event.isClose : Event V → Bool
  | .close => true
  | _ => false

def Frame.isDestroyError : Frame V → Bool
  | .destroyError => true
  | _ => false

open Event

open Frame

namespace Readable

variable {toString : BufferEncoding → Bytes → List UInt16} {r : Readable V} {b : Result V} {stack : List (Frame V)}

variable (ret : Return)

/-- A destroyed stream is not read from while it holds chunks, it is paused or empty when a loop goes on that was under way,
and `_destroy` calls back once. -/
def Still (c : Config (Readable V) (Frame V) (Event V)) : Move (Call V) → Prop
  | .call (.read _) => c.state.destroyed = true → c.state.pending = []
  | .call (.destroyed _) => c.state.closed = false ∧ c.stack.any Frame.isDestroyError = false
  | .ret =>
    match c.stack with
    | f :: _ => c.state.destroyed = true → f.drains = true → c.state.paused = true ∨ c.state.pending = []
    | [] => True
  | _ => True

instance (c : Config (Readable V) (Frame V) (Event V)) : DecidablePred (Still c) := by
  intro l
  unfold Still
  split
  · infer_instance
  · infer_instance
  · split <;> infer_instance
  · infer_instance

/-- A block that does not close the stream. -/
structure Open (r : Readable V) (b : Result V) : Prop where
  closed : b.state.closed = r.closed
  seen : ∀ e ∈ b.seen, e.isClose = false
  frames : ∀ f ∈ b.frames, f.isDestroyError = false

/-- A block in which a destroyed stream keeps still. -/
structure Tame (r : Readable V) (b : Result V) : Prop extends Open r b where
  still : r.destroyed = true → ∀ e ∈ b.seen, e.flows = false

theorem Tame.silent {r' : Readable V} (h : r'.closed = r.closed) : Tame r { state := r' } := ⟨⟨h, forall_mem_nil _, forall_mem_nil _⟩, fun _ => forall_mem_nil _⟩

theorem returned_tame : Tame r (r.returned ret) := by
  cases ret <;> exact ⟨⟨rfl, by simp [returned, isClose], (by simp)⟩, by simp [returned, flows]⟩

theorem maybeEmitEnd_closed : r.maybeEmitEnd.closed = r.closed := by
  unfold maybeEmitEnd
  split <;> rfl

theorem settled_tame : Tame r (r.maybeEmitEnd.returned ret) := by
  have h := returned_tame (r := r.maybeEmitEnd) ret
  refine ⟨⟨h.closed.trans maybeEmitEnd_closed, h.seen, h.frames⟩, fun _ e he => ?_⟩
  cases ret <;> simp only [returned, not_mem_nil, mem_singleton] at he <;> rw [he] <;> rfl

theorem destroy_tame (error : Option StreamError) (ret : Return) : Tame r (r.destroy error ret) := by
  unfold destroy
  split
  · exact returned_tame ret
  · exact ⟨⟨rfl, forall_mem_nil _, by simp [isDestroyError]⟩, fun _ => forall_mem_nil _⟩

theorem errorOrDestroy_tame (error : StreamError) (ret : Return) : Tame r (r.errorOrDestroy error ret) := by
  unfold errorOrDestroy
  split
  · exact returned_tame ret
  · split
    · exact destroy_tame (some error) ret
    · exact ⟨⟨rfl, by simp [isClose], by simp [isDestroyError]⟩, by simp [flows]⟩

theorem drainFlowing_tame (h : r.destroyed = true → r.paused = true ∨ r.pending = []) :
    Tame r (r.drainFlowing toString ret) := by
  unfold drainFlowing
  split
  · next chunk rest hpaused hpending =>
    refine ⟨⟨rfl, by simp [isClose], by simp [isDestroyError]⟩, fun hd => ?_⟩
    obtain hp | hp := h hd
    · rw [hp] at hpaused; cases hpaused
    · rw [hp] at hpending; cases hpending
  · exact settled_tame ret

theorem resume_tame : Tame r r.resume := by
  unfold resume
  split
  · exact .silent rfl
  · exact ⟨⟨rfl, by simp [isClose], by simp [isDestroyError]⟩, by simp [flows]⟩

theorem pushEnd_tame : Tame r (r.pushEnd ret) := by
  unfold pushEnd
  split
  · exact returned_tame ret
  · exact ⟨⟨rfl, by simp [isClose], by simp [isDestroyError]⟩, by simp [flows]⟩

theorem push_tame (chunk : Option (Chunk V)) : Tame r (r.push chunk) := by
  unfold push
  split
  · exact returned_tame .refused
  · split
    · cases chunk with
      | some chunk => exact errorOrDestroy_tame .pushAfterEof .refused
      | none => exact returned_tame .refused
    · cases chunk with
      | none => exact pushEnd_tame .refused
      | some chunk =>
        exact ⟨⟨rfl, by simp [isClose], by simp [isDestroyError]⟩, by simp [flows]⟩

theorem unshift_tame (chunk : Option (Chunk V)) : Tame r (r.unshift chunk) := by
  unfold unshift
  cases chunk with
  | none => exact .silent rfl
  | some chunk =>
    dsimp only
    split
    · exact .silent rfl
    · exact ⟨⟨rfl, by simp [isClose], forall_mem_nil _⟩, by simp [flows]⟩

theorem readChunk_open (size : Nat) (chunk : Chunk V) (rest : List (Chunk V)) :
    Open r (r.readChunk toString size chunk rest) :=
  ⟨rfl, by simp [readChunk, isClose], by simp [readChunk, isDestroyError]⟩

theorem read_tame (size : Nat) (h : r.destroyed = true → r.pending = []) : Tame r (r.read toString size) := by
  unfold read
  split
  · exact ⟨⟨rfl, by simp [isClose], by simp [isDestroyError]⟩, by simp [flows]⟩
  · next chunk rest hpending =>
    have hnot : r.destroyed = true → False := by
      intro hd; rw [h hd] at hpending; cases hpending
    split <;> exact ⟨readChunk_open size _ _, fun hd => (hnot hd).elim⟩

theorem checkpoint_tame (side : Bool) : Tame r (r.checkpoint side) := by
  unfold checkpoint
  split
  · exact .silent rfl
  · split
    · exact .silent rfl
    · next hguard =>
      refine ⟨⟨rfl, by simp [isClose], by simp [isDestroyError]⟩, fun hd => ?_⟩
      rw [hd] at hguard; simp at hguard

/-! ### 'close' -/

/-- `'close'` was emitted once if the stream is closed; else it is to come when the `'error'` of `_destroy` is over. -/
structure Closing (r : Readable V) (stack : List (Frame V)) (trace : List (Event V)) : Prop where
  once : trace.countP Event.isClose = if r.closed then 1 else 0
  owed : stack.countP Frame.isDestroyError ≤ if r.closed then 0 else 1

variable {trace : List (Event V)}

theorem Closing.open_ (h : Closing r stack trace) (hb : Open r b) :
    Closing b.state (b.frames ++ stack) (trace ++ b.seen) := by
  have hs : b.seen.countP isClose = 0 := countP_eq_zero.2 (fun e he => by simp [hb.seen e he])
  have hf : b.frames.countP isDestroyError = 0 := countP_eq_zero.2 (fun f hf => by simp [hb.frames f hf])
  refine ⟨?_, ?_⟩
  · rw [countP_append, hs, hb.closed]; exact h.once
  · rw [countP_append, hf, hb.closed, Nat.zero_add]; exact h.owed

theorem Closing.pop {f : Frame V} (h : Closing r (f :: stack) trace) : Closing r stack trace := by
  refine ⟨h.once, Nat.le_trans ?_ h.owed⟩
  rw [countP_cons]; exact Nat.le_add_right _ _

theorem Closing.close {f : Frame V} (hf : f.isDestroyError = false) (hc : r.closed = false)
    (hs : stack.countP Frame.isDestroyError = 0) (h : Closing r stack trace) :
    Closing { r with closed := true } (f :: stack) (trace ++ [.close]) := by
  have ho := h.once
  rw [hc] at ho
  refine ⟨?_, ?_⟩
  · rw [countP_append, ho]; rfl
  · rw [countP_cons, hs, hf]; exact Nat.le_refl 0

/-- What holds of a run: that a `destroyed` stream stays so, and whether `_destroy` has called back. -/
structure Orderly (calledBack : Prop) (c : Config (Readable V) (Frame V) (Event V)) : Prop where
  closing : Closing c.state c.stack c.trace
  called : calledBack → c.state.closed = true ∨ c.stack.any Frame.isDestroyError = true
  destroyed : c.state.closed = true ∨ c.stack.any Frame.isDestroyError = true → c.state.destroyed = true

/-- The moves after which `_destroy` has called back. -/
def callsBack : Move (Call V) → Bool
  | .call (.destroyed _) => true
  | _ => false

/-- A block that does not close the stream goes on from a call or from a frame above `stack`. -/
theorem Orderly.open_ {calledBack : Prop} (hc : Closing r stack trace)
    (hcalled : calledBack → r.closed = true ∨ stack.any Frame.isDestroyError = true)
    (hd : r.closed = true ∨ stack.any Frame.isDestroyError = true → r.destroyed = true) (hb : Open r b)
    (hk : Keeps r b) : Orderly calledBack (b.onto stack trace) := by
  have hany : (b.frames ++ stack).any isDestroyError = stack.any isDestroyError := by
    rw [any_append, any_eq_false.2 (fun f hf => by simp [hb.frames f hf]), Bool.false_or]
  refine ⟨hc.open_ hb, fun hcb => ?_, fun h => ?_⟩
  · exact (hcalled hcb).imp (fun h => hb.closed.trans h) (fun h => hany.trans h)
  · exact hk.destroyed (hd (h.imp (fun h => hb.closed.symm.trans h) (fun h => hany.symm.trans h)))

theorem call_tame {c : Config (Readable V) (Frame V) (Event V)} {k : Call V} (hs : Still c (.call k))
    (hk : callsBack (.call k) = false) (hb : c.state.call toString k = some b) : Tame c.state b := by
  cases k with
  | push chunk => cases hb; exact push_tame chunk
  | pushEnd => cases hb; exact pushEnd_tame .nothing
  | unshift chunk => cases hb; exact unshift_tame chunk
  | pause => cases hb; exact ⟨⟨rfl, by simp [pause, isClose], by simp [pause, isDestroyError]⟩, by simp [pause, flows]⟩
  | resume => cases hb; exact resume_tame
  | onData =>
    cases hb
    unfold newListenerAdded
    split
    · exact .silent rfl
    · exact resume_tame
  | read size => cases hb; exact read_tame size hs
  | setEncoding encoding => cases hb; exact ⟨⟨rfl, by simp [isClose], forall_mem_nil _⟩, by simp [flows]⟩
  | destroy error => cases hb; exact destroy_tame error .nothing
  | destroyed error => cases hk
  | checkpoint side => cases hb; exact checkpoint_tame side

theorem goOn_tame {f : Frame V} (hs : r.destroyed = true → f.drains = true → r.paused = true ∨ r.pending = [])
    (hf : f.isDestroyError = false) : Tame r (r.goOn toString f) := by
  have hrest : Tame r { state := r } := .silent rfl
  cases f with
  | pushed =>
    unfold goOn
    dsimp only
    split
    · exact returned_tame .length
    · exact drainFlowing_tame .length (fun hd => hs hd rfl)
  | endPushed ret =>
    unfold goOn
    dsimp only
    split
    · exact returned_tame ret
    · exact settled_tame ret
  | draining ret => exact drainFlowing_tame ret (fun hd => hs hd rfl)
  | resumed => exact drainFlowing_tame .nothing (fun hd => hs hd rfl)
  | fetching | reading value => exact ⟨⟨maybeEmitEnd_closed, by simp [goOn, isClose], (by rintro _ ⟨⟩)⟩, by simp [goOn, flows]⟩
  | ended side =>
    unfold goOn
    dsimp only
    split
    · exact destroy_tame none .nothing
    · exact hrest
  | errorEmitted ret | destroying ret => exact returned_tame ret
  | destroyError => cases hf
  | paused | closing => exact hrest

theorem orderly_step {calledBack : Prop} {c c' : Config (Readable V) (Frame V) (Event V)} {l : Move (Call V)}
    (h : Orderly calledBack c) (hP : Still c l) (hst : (program toString).step c l = some c') :
    Orderly (calledBack ∨ callsBack l = true) c' ∧
      ∃ es, c'.trace = c.trace ++ es ∧ (c.state.destroyed = true → ∀ e ∈ es, e.flows = false) := by
  cases l with
  | call k =>
    obtain ⟨-, b, hb, rfl⟩ := Reentrant.step_call hst
    by_cases hk : callsBack (.call k) = true
    · cases k with
      | destroyed error =>
        obtain ⟨hclosed, hnone⟩ := hP
        have hzero : c.stack.countP isDestroyError = 0 := countP_eq_zero.2 (by simpa using hnone)
        have hcall : c.state.call toString (.destroyed error) = some b := hb
        unfold call at hcall
        dsimp only at hcall
        split at hcall
        · next hd =>
          cases error with
          | none =>
            cases hcall
            exact ⟨⟨h.closing.close rfl hclosed hzero, fun _ => .inl rfl, fun _ => hd⟩, _, rfl,
              by simp [destroyCallback, flows]⟩
          | some e =>
            cases hcall
            refine ⟨⟨⟨?_, ?_⟩, fun _ => .inr ?_, fun _ => hd⟩, _, rfl, by simp [destroyCallback, flows]⟩
            · rw [Block.onto_trace, countP_append, h.closing.once]; rfl
            · rw [Block.onto_stack, countP_append, hzero]
              show _ ≤ if c.state.closed then 0 else 1; rw [hclosed]; exact Nat.le_refl 1
            · rw [Block.onto_stack, any_append]; rfl
        · cases hcall
      | _ => cases hk
    · have ht := call_tame hP (by simpa using hk) hb
      exact ⟨Orderly.open_ h.closing (fun hcb => h.called (hcb.resolve_right hk)) h.destroyed ht.toOpen (call_keeps hb),
        b.seen, rfl, ht.still⟩
  | ret =>
    obtain ⟨f, fs, hs, rfl⟩ := Reentrant.step_ret hst
    obtain ⟨hclosing, hcalled, hdestroyed⟩ := h
    unfold Still at hP
    rw [hs] at hP hclosing hcalled hdestroyed
    by_cases hf : f.isDestroyError = true
    · cases f with
      | destroyError =>
        have howed := hclosing.owed
        rw [countP_cons_of_pos rfl] at howed
        have hopen : c.state.closed = false := by
          refine Bool.eq_false_iff.2 (fun hc => ?_)
          rw [hc] at howed; simp at howed
        rw [hopen] at howed
        have hzero : fs.countP isDestroyError = 0 := by simpa using howed
        exact ⟨⟨hclosing.pop.close rfl hopen hzero, fun _ => .inl rfl, fun _ => hdestroyed (.inr rfl)⟩, _, rfl,
          by simp [program, goOn, flows]⟩
      | _ => cases hf
    · have ht : Tame c.state (c.state.goOn toString f) := goOn_tame hP (by simpa using hf)
      have hany : (f :: fs).any isDestroyError = fs.any isDestroyError := by
        rw [any_cons, Bool.eq_false_iff.2 hf, Bool.false_or]
      rw [hany] at hcalled hdestroyed
      exact ⟨Orderly.open_ hclosing.pop (fun hcb => hcalled (hcb.resolve_right (by rintro ⟨⟩))) hdestroyed ht.toOpen (goOn_keeps f),
        _, rfl, ht.still⟩

variable {ls : List (Move (Call V))} {c c' : Config (Readable V) (Frame V) (Event V)}

theorem orderly_run {calledBack : Prop} (hrun : Run (program toString).step Still c ls c') (h : Orderly calledBack c) :
    Orderly (calledBack ∨ ls.any callsBack = true) c' := by
  induction hrun generalizing calledBack with
  | nil c => exact ⟨h.closing, fun hcb => h.called (hcb.resolve_right nofun), h.destroyed⟩
  | cons hP hst _ ih =>
    have h' := ih (orderly_step h hP hst).1
    refine ⟨h'.closing, fun hcb => h'.called ?_, h'.destroyed⟩
    rw [any_cons, Bool.or_eq_true] at hcb; exact or_assoc.2 hcb

theorem still_run {calledBack : Prop} (hrun : Run (program toString).step Still c ls c') (h : Orderly calledBack c)
    (hd : c.state.destroyed = true) : ∃ es, c'.trace = c.trace ++ es ∧ ∀ e ∈ es, e.flows = false := by
  induction hrun generalizing calledBack with
  | nil c => exact ⟨[], (append_nil _).symm, forall_mem_nil _⟩
  | cons hP hst _ ih =>
    obtain ⟨ho, es, hes, hstill⟩ := orderly_step h hP hst
    obtain ⟨b, stack, hkeeps, rfl⟩ := step_keeps hst
    obtain ⟨es', hes', hstill'⟩ := ih ho (hkeeps.destroyed hd)
    refine ⟨es ++ es', ?_, fun e he => ?_⟩
    · rw [hes', hes, append_assoc]
    · exact (mem_append.1 he).elim (hstill hd e) (hstill' e)

end Readable

/-! ## The writable side -/

namespace Writable

variable {ofString : BufferEncoding → List UInt16 → Bytes} {kind : Kind} {w : Writable V} {b : Result V}

/-- What a producer waits for. -/
def Event.late : Event V → Bool
  | .drain | .finish => true
  | _ => false

def Event.isClose : Event V → Bool
  | .close => true
  | _ => false

def Event.plain (e : Event V) : Bool := !e.late && !e.isClose

/-- On a destroyed stream, no `_write` calls back without an error where that would drain it, and no `_final` does. -/
def Still (c : Config (Writable V) (Frame V) (Event V)) : Move (Call V) → Prop
  | .call (.written n none) =>
    match c.state.outstanding.find? (fun o => o.call == n) with
    | some o => c.state.destroyed = true → o.entry.any Entry.callback = true ∨ c.state.writableNeedDrain = false ∨
        c.state.writableHighWaterMark ≤ c.state.writableLength - o.length
    | none => True
  | .call (.finalized none) => c.state.destroyed = false
  | .ret =>
    match c.stack with
    | .completing none :: _ => c.state.destroyed = true →
        c.state.writableNeedDrain = false ∨ c.state.writableHighWaterMark ≤ c.state.writableLength
    | _ => True
  | _ => True

instance (c : Config (Writable V) (Frame V) (Event V)) : DecidablePred (Still c) := by
  intro l
  unfold Still
  split
  · split <;> infer_instance
  · infer_instance
  · split <;> infer_instance
  · infer_instance

/-- `'close'` was emitted once if the stream is destroyed, and nothing that a producer waits for came after it. -/
def Shut (hush : Prop) (destroyed : Bool) (es : List (Event V)) : Prop :=
  match destroyed with
  | false => ∀ e ∈ es, e.isClose = false
  | true => ∃ pre post, es = pre ++ .close :: post ∧ (∀ e ∈ pre, e.isClose = false) ∧
      ∀ e ∈ post, e.isClose = false ∧ (hush → e.late = false)

/-- A block that keeps that. -/
def Tame (hush : Prop) (w : Writable V) (b : Result V) : Prop :=
  ∀ es, Shut hush w.destroyed es → Shut hush b.state.destroyed (es ++ b.seen)

/-- A block that has nothing to do with it. -/
structure Plain (w : Writable V) (b : Result V) : Prop where
  destroyed : b.state.destroyed = w.destroyed
  seen : ∀ e ∈ b.seen, e.plain = true

variable {hush : Prop}

variable (error : Option WritableError)

variable (done : Option Nat)

theorem Shut.append {destroyed : Bool} {es es' : List (Event V)} (h : Shut hush destroyed es)
    (hes : ∀ e ∈ es', e.isClose = false ∧ (destroyed = true → hush → e.late = false)) : Shut hush destroyed (es ++ es') := by
  cases destroyed with
  | false => intro e he; exact (mem_append.1 he).elim (h e) (fun he => (hes e he).1)
  | true =>
    obtain ⟨pre, post, rfl, hpre, hpost⟩ := h
    refine ⟨pre, post ++ es', by simp, hpre, fun e he => ?_⟩
    exact (mem_append.1 he).elim (hpost e) (fun he => ⟨(hes e he).1, (hes e he).2 rfl⟩)

theorem Plain.tame (h : Plain w b) : Tame hush w b := by
  intro es hes
  rw [h.destroyed]
  refine hes.append (fun e he => ?_)
  have hp := h.seen e he
  simp only [Event.plain, Bool.and_eq_true, Bool.not_eq_true'] at hp; exact ⟨hp.2, fun _ _ => hp.1⟩

theorem Plain.of_state {w' : Writable V} (h : Plain w' b) (hd : w'.destroyed = w.destroyed) : Plain w b :=
  ⟨h.destroyed.trans hd, h.seen⟩

theorem Plain.silent {w' : Writable V} (hd : w'.destroyed = w.destroyed) : Plain w { state := w' } := ⟨hd, forall_mem_nil _⟩

theorem performWrite_plain (entry : Option (Entry V)) (f : Frame V) : Plain w (w.performWrite entry f) :=
  ⟨rfl, by simp [performWrite, Event.plain, Event.late, Event.isClose]⟩

theorem callFinal_plain : Plain w w.callFinal := by
  unfold callFinal
  dsimp only
  split
  · exact .silent rfl
  · exact ⟨rfl, by simp [Event.plain, Event.late, Event.isClose]⟩

theorem awaitFinish_destroyed : (w.awaitFinish done).destroyed = w.destroyed := by
  cases done <;> rfl

theorem firstEnd_plain : Plain w (w.firstEnd done) := by
  have hd := awaitFinish_destroyed (w := { w with writableEnded := true }) done
  unfold firstEnd
  dsimp only
  split
  · exact .silent hd
  · split
    · exact .silent hd
    · exact callFinal_plain.of_state hd

theorem answer_plain (error : WritableError) :
    Plain w { state := w, seen := (done.map (fun callback => .endCallback callback (some error))).toList } := by
  refine ⟨rfl, ?_⟩
  cases done <;> simp [Event.plain, Event.late, Event.isClose]

theorem endRest_plain (rest : EndRest) : Plain w (w.endRest rest) := by
  unfold endRest
  cases rest.rejected with
  | some error => exact answer_plain rest.done error
  | none =>
    dsimp only
    split
    · exact firstEnd_plain rest.done
    · split
      · exact answer_plain rest.done _
      · split
        · exact answer_plain rest.done _
        · split
          · exact answer_plain rest.done _
          · exact .silent (awaitFinish_destroyed rest.done)

theorem flush_plain (rest : Option EndRest) : Plain w (w.flush kind rest) := by
  cases kind with
  | writable =>
    unfold flush takeQueue
    cases w.writeQueue with
    | nil =>
      cases rest with
      | none => exact .silent rfl
      | some rest => exact (endRest_plain rest).of_state rfl
    | cons entry queue => exact (performWrite_plain _ _).of_state rfl
  | duplex =>
    unfold flush walkQueue
    dsimp only
    split
    · exact (performWrite_plain _ _).of_state rfl
    · cases rest with
      | none => exact .silent rfl
      | some rest => exact (endRest_plain rest).of_state rfl

theorem uncorkAll_plain (rest : EndRest) : Plain w (w.uncorkAll kind rest) := by
  unfold uncorkAll
  split
  · exact endRest_plain rest
  · exact (flush_plain (some rest)).of_state rfl

theorem uncork_plain : Plain w (w.uncork kind) := by
  unfold uncork
  dsimp only
  split
  · exact .silent rfl
  · split
    · exact .silent rfl
    · exact (flush_plain none).of_state rfl

theorem writeRest_plain (rest : Option EndRest) : Plain w (w.writeRest kind rest) := by
  unfold writeRest
  generalize decide (w.writableLength < w.writableHighWaterMark) = accepted
  cases rest with
  | none => cases accepted <;> exact ⟨rfl, by simp [Event.plain, Event.late, Event.isClose]⟩
  | some rest =>
    cases accepted
    · exact (uncorkAll_plain rest).of_state rfl
    · exact uncorkAll_plain rest

theorem acceptWrite_plain (chunk : Chunk V) (encoding : Option BufferEncoding) (callback : Bool) (rest : Option EndRest) :
    Plain w (w.acceptWrite ofString kind chunk encoding callback rest) := by
  have hseen : ∀ b : Result V, Plain w b → Plain w { b with seen := .accepted w.accepted :: b.seen } := by
    intro b hb
    refine ⟨hb.destroyed, fun e he => ?_⟩
    obtain rfl | he := mem_cons.1 he
    · rfl
    · exact hb.seen e he
  unfold acceptWrite
  dsimp only
  split
  · exact hseen _ ((writeRest_plain rest).of_state rfl)
  · exact hseen _ ((performWrite_plain _ _).of_state rfl)

/-! ### The blocks that destroy, drain or finish -/

theorem endCallbacks_plain (callbacks : List Nat) (error : Option WritableError) :
    ∀ e ∈ callbacks.map (fun callback => (.endCallback callback error : Event V)), e.plain = true := by
  intro e he
  obtain ⟨callback, -, rfl⟩ := mem_map.1 he; rfl

theorem isClose_of_plain {e : Event V} (h : e.plain = true) : e.isClose = false := by
  simp only [Event.plain, Bool.and_eq_true, Bool.not_eq_true'] at h; exact h.2

theorem destroy_tame : Tame hush w { state := (w.destroy error).1, seen := (w.destroy error).2 } := by
  intro es hes
  unfold destroy
  split
  · next hd =>
    rw [append_nil]; exact hes
  · next hd =>
    rw [Bool.eq_false_iff.2 hd] at hes
    have hcalls := endCallbacks_plain (V := V) w.finishCallbacks ((error <|> w.errored) <|> some .endDestroyed)
    have hpre : ∀ e ∈ es ++ (w.settleFinish ((error <|> w.errored) <|> some .endDestroyed)).2, e.isClose = false := by
      intro e he; exact (mem_append.1 he).elim (hes e) (fun he => isClose_of_plain (hcalls e he))
    cases error with
    | none => exact ⟨_, [], (append_assoc _ _ _).symm, hpre, forall_mem_nil _⟩
    | some error =>
      refine ⟨es ++ (w.settleFinish ((some error <|> w.errored) <|> some .endDestroyed)).2 ++ [.error error], [], by simp, ?_,
        (forall_mem_nil _)⟩
      intro e he
      obtain he | he := mem_append.1 he
      · exact hpre e he
      · obtain rfl := mem_singleton.1 he; rfl

theorem Tame.then {b' : Result V} (h : Tame hush w b) (h' : Tame hush b.state b') :
    Tame hush w { b' with seen := b.seen ++ b'.seen } := by
  intro es hes
  have hboth := h' _ (h es hes); rw [append_assoc] at hboth; exact hboth

theorem Tame.of_state {w' : Writable V} (h : Tame hush w' b) (hd : w'.destroyed = w.destroyed) : Tame hush w b := by
  intro es hes; exact h es (hd ▸ hes)

theorem errorOrDestroy_tame (error : WritableError) :
    Tame hush w { state := (w.errorOrDestroy error).1, seen := (w.errorOrDestroy error).2 } := by
  unfold errorOrDestroy
  split
  · exact Plain.tame (.silent rfl)
  · split
    · exact destroy_tame (some error)
    · exact Plain.tame ⟨rfl, by simp [Event.plain, Event.late, Event.isClose]⟩

theorem refused_tame (error : WritableError) : Tame hush w (w.refused error) := by
  have hret : Plain (w.errorOrDestroy error).1 { state := (w.errorOrDestroy error).1, seen := [.writeReturned false] } :=
    ⟨rfl, by simp [Event.plain, Event.late, Event.isClose]⟩
  exact (errorOrDestroy_tame error).then hret.tame

theorem write_tame (chunk : Chunk V) (encoding : Option BufferEncoding) (callback : Bool) :
    Tame hush w (w.write ofString kind chunk encoding callback) := by
  unfold write
  cases w.rejectWrite with
  | none => exact (acceptWrite_plain chunk encoding callback none).tame
  | some error =>
    cases callback with
    | true => exact Plain.tame ⟨rfl, by simp [Event.plain, Event.late, Event.isClose]⟩
    | false => exact refused_tame error

theorem callEnd_tame (chunk : Option (Chunk V)) (encoding : Option BufferEncoding) (done : Option Nat) :
    Tame hush w (w.callEnd ofString kind chunk encoding done) := by
  unfold callEnd
  cases chunk with
  | none => exact (uncorkAll_plain _).tame
  | some chunk =>
    cases w.rejectWrite with
    | none => exact (acceptWrite_plain chunk encoding false _).tame
    | some error => exact (errorOrDestroy_tame error).then (uncorkAll_plain _).tame

theorem completed_tame
    (h : hush → error = none → w.destroyed = true → w.writableNeedDrain = false ∨ w.writableHighWaterMark ≤ w.writableLength) :
    Tame hush w (w.completed error) := by
  unfold completed
  cases error with
  | some error => exact errorOrDestroy_tame error
  | none =>
    dsimp only
    split
    · next hdrain =>
      intro es hes
      refine hes.append (fun e he => ?_)
      obtain rfl := mem_singleton.1 he
      refine ⟨rfl, fun hd hh => ?_⟩
      simp only [Bool.and_eq_true, decide_eq_true_eq] at hdrain
      obtain hn | hl := h hh rfl hd
      · rw [hn] at hdrain; cases hdrain.1
      · exact absurd hdrain.2 (Nat.not_lt_of_le hl)
    · split
      · exact callFinal_plain.tame
      · exact Plain.tame (.silent rfl)

theorem written_tame (o : Outstanding V) (error : Option WritableError)
    (h : hush → error = none → w.destroyed = true → o.entry.any Entry.callback = true ∨
      w.writableNeedDrain = false ∨ w.writableHighWaterMark ≤ w.writableLength - o.length) :
    Tame hush w (w.written o error) := by
  unfold written
  split
  · exact Plain.tame ⟨rfl, by simp [Event.plain, Event.late, Event.isClose]⟩
  · next hentry =>
    refine (completed_tame error (fun hh he hd => ?_)).of_state rfl
    refine (h hh he hd).resolve_left (fun hc => ?_)
    obtain ⟨entry, ho, hc⟩ := (Option.any_eq_true _ _).1 hc
    refine hentry entry.id entry.chunk entry.encoding ?_
    rw [ho, ← hc]

theorem over_tame (hush : Prop) (w : Writable V) (ends : Bool) : Tame hush w
    { state := (if ends then w.destroy none else (w, [])).1, seen := (if ends then w.destroy none else (w, [])).2 } := by
  cases ends with
  | true => exact destroy_tame none
  | false => exact Plain.tame (.silent rfl)

theorem finalized_tame (h : hush → error = none → w.destroyed = false) : Tame hush w (w.finalized kind error) := by
  have hcalls := endCallbacks_plain (V := V) w.finishCallbacks error
  cases error with
  | some error =>
    have hs : Plain w
        { state := { w with finalOutstanding := false, finishCallbacks := [] }
          seen := w.finishCallbacks.map (fun callback => .endCallback callback (some error)) } := ⟨rfl, hcalls⟩
    exact hs.tame.then (errorOrDestroy_tame error)
  | none =>
    intro es hes
    have hfinish : Shut hush w.destroyed
        (es ++ (w.finishCallbacks.map (fun callback => .endCallback callback none) ++ [.finish])) := by
      refine hes.append (fun e he => ?_)
      obtain he | he := mem_append.1 he
      · have hp := hcalls e he
        simp only [Event.plain, Bool.and_eq_true, Bool.not_eq_true'] at hp
        exact ⟨hp.2, fun _ _ => hp.1⟩
      · obtain rfl := mem_singleton.1 he
        refine ⟨rfl, fun hd hh => ?_⟩
        rw [h hh rfl] at hd; cases hd
    have hover := over_tame hush { w with finalOutstanding := false, writableFinished := true, finishCallbacks := [] }
    have hgone (ends : Bool) := hover ends _ hfinish
    simp only [append_assoc] at hgone
    cases kind with
    | writable => exact hgone w.autoDestroy
    | duplex => exact hgone (w.autoDestroy && w.readableEnded)

theorem call_tame {c : Config (Writable V) (Frame V) (Event V)} {k : Call V} (hs : hush → Still c (.call k))
    (hb : c.state.call ofString kind k = some b) : Tame hush c.state b := by
  cases k with
  | cork | setDefaultEncoding encoding | readableEnd => cases hb; exact Plain.tame (.silent rfl)
  | uncork => cases hb; exact uncork_plain.tame
  | write chunk encoding callback => cases hb; exact write_tame chunk encoding callback
  | callEnd chunk encoding done => cases hb; exact callEnd_tame chunk encoding done
  | destroy error => cases hb; exact destroy_tame error
  | written n error =>
    obtain ⟨o, ho, rfl⟩ := Option.map_eq_some_iff.1 hb
    refine written_tame o error (fun hh he hd => ?_)
    subst he
    have hstill := hs hh
    unfold Still at hstill; simp only [ho] at hstill; exact hstill hd
  | finalized error =>
    unfold call at hb
    dsimp only at hb
    split at hb
    · cases hb
      refine finalized_tame error (fun hh he => ?_)
      subst he; exact hs hh
    · cases hb

theorem goOn_tame {f : Frame V}
    (hs : hush → w.destroyed = true → f = .completing none →
      w.writableNeedDrain = false ∨ w.writableHighWaterMark ≤ w.writableLength) : Tame hush w (w.goOn kind f) := by
  cases f with
  | writing rest => exact (writeRest_plain rest).tame
  | flushing flush rest =>
    cases flush with
    | taken queue =>
      cases queue with
      | cons entry queue => exact (performWrite_plain _ _).tame
      | nil =>
        cases rest with
        | none => exact Plain.tame (.silent rfl)
        | some rest => exact (uncorkAll_plain rest).tame
    | indexed index queued =>
      unfold goOn
      dsimp only
      split
      · exact (performWrite_plain _ _).tame
      · cases rest with
        | none => exact Plain.tame (.silent rfl)
        | some rest =>
          have hp : Plain w (({ w with writeQueue := [] } : Writable V).uncorkAll kind rest) :=
            (uncorkAll_plain rest).of_state rfl
          exact hp.tame
  | refusing error => exact refused_tame error
  | completing error =>
    refine completed_tame error (fun hh he hd => ?_)
    subst he; exact hs hh hd rfl
  | draining =>
    unfold goOn
    dsimp only
    split
    · exact callFinal_plain.tame
    · exact Plain.tame (.silent rfl)
  | final => exact Plain.tame (.silent rfl)

theorem shut_step {c c' : Config (Writable V) (Frame V) (Event V)} {l : Move (Call V)} (hP : hush → Still c l)
    (h : Shut hush c.state.destroyed c.trace) (hst : (program ofString kind).step c l = some c') :
    Shut hush c'.state.destroyed c'.trace := by
  cases l with
  | call k => obtain ⟨-, b, hb, rfl⟩ := Reentrant.step_call hst; exact call_tame hP hb _ h
  | ret =>
    obtain ⟨f, fs, hs, rfl⟩ := Reentrant.step_ret hst
    refine goOn_tame (fun hh hd hf => ?_) _ h
    have hstill := hP hh
    unfold Still at hstill; rw [hs, hf] at hstill; exact hstill hd

theorem shut_run (hush : Prop) {P : Config (Writable V) (Frame V) (Event V) → Move (Call V) → Prop} (hP : hush → ∀ c l, P c l → Still c l)
    {ls : List (Move (Call V))} {c c' : Config (Writable V) (Frame V) (Event V)}
    (hrun : Run (program ofString kind).step P c ls c') (h : Shut hush c.state.destroyed c.trace) :
    Shut hush c'.state.destroyed c'.trace :=
  hrun.invariant (I := fun c => Shut hush c.state.destroyed c.trace)
    (fun c l _ hI hPc hst => shut_step (fun hh => hP hh c l hPc) hI hst) h

theorem Shut.once {destroyed : Bool} {es : List (Event V)} (h : Shut hush destroyed es) :
    es.countP Event.isClose = if destroyed then 1 else 0 := by
  have hzero : ∀ es : List (Event V), (∀ e ∈ es, e.isClose = false) → es.countP Event.isClose = 0 :=
    fun es hes => countP_eq_zero.2 (fun e he => by simp [hes e he])
  cases destroyed with
  | false => exact hzero es h
  | true =>
    obtain ⟨pre, post, rfl, hpre, hpost⟩ := h
    rw [countP_append, hzero pre hpre, countP_cons_of_pos rfl, hzero post (fun e he => (hpost e he).1)]
    rfl

theorem Shut.after {destroyed : Bool} {es pre post : List (Event V)} (h : Shut True destroyed es)
    (hes : es = pre ++ .close :: post) : ∀ e ∈ post, e.late = false := by
  cases destroyed with
  | false => exact absurd (h .close (by simp [hes])) (by simp [Event.isClose])
  | true =>
    obtain ⟨pre', post', rfl, hpre, hpost⟩ := h
    obtain ⟨mid, rfl, hmid⟩ | ⟨mid, rfl, hmid⟩ := append_eq_append_iff.1 hes
    · cases mid with
      | nil => cases hmid; exact fun e he => (hpost e he).2 trivial
      | cons e mid => cases hmid; exact absurd (hpost .close (by simp)).1 (by simp [Event.isClose])
    · cases mid with
      | nil => cases hmid; exact fun e he => (hpost e he).2 trivial
      | cons e mid => cases hmid; exact absurd (hpre .close (by simp)) (by simp [Event.isClose])

end Writable

open Readable

end NodeCompat.Stream
