import NodeCompat.Web.Lifecycle

/-!
# A stream that one pump reads

`pipeTo` and `tee` lock their source and read it one chunk at a time: the next `read` is called when the promise of the one
before has been seen. While a `read` is under way (`Reads`) and between two reads (`Rests`), what the pump has passed on,
then the chunk in the promise, then the queue is what the controller enqueued.
-/

namespace NodeCompat.Web.ReadableStream

open List

variable {α ε : Type} {r : ReadableStream α ε} {i : Nat} {fs : List Frame} {passed taken : List α}

/-- The last `read`, which nobody else reads beside: in `pull`, waiting for the controller, or settled. `taken` is the chunk in
its promise. -/
inductive OneRead (r : ReadableStream α ε) (i : Nat) : List Frame → List α → Prop
  | pulling : r.reads[i]? = some none → r.waiting = none → OneRead r i [.pulling i] []
  | waiting : r.reads[i]? = some none → r.waiting = some i → r.queue = [] → r.state = .readable → OneRead r i [] []
  | value {chunk} : r.reads[i]? = some (some (.value chunk)) → r.waiting = none → OneRead r i [] [chunk]
  | ended {result} : r.reads[i]? = some (some result) → r.waiting = none → r.state.outcome = some result → r.queue = [] →
      OneRead r i [] []

/-- A `read` is under way. -/
def Reads (r : ReadableStream α ε) (i : Nat) (fs : List Frame) (passed : List α) : Prop :=
  ∃ taken, OneRead r i fs taken ∧ r.enqueued = passed ++ taken ++ r.queue

/-- No `read` is under way. -/
structure Rests (r : ReadableStream α ε) (passed : List α) : Prop where
  waiting : r.waiting = none
  enqueued : r.enqueued = passed ++ r.queue

/-! ## The controller -/

theorem settleWaiting_none (result : ReadResult α ε) (h : r.waiting = none) : r.settleWaiting result = r := by
  unfold settleWaiting; rw [h]

theorem enqueueFromController_quiet (chunk : α) (hs : r.state = .readable) (hw : r.waiting = none) :
    (r.enqueueFromController chunk).state = { r with enqueued := r.enqueued ++ [chunk], queue := r.queue ++ [chunk] } := by
  simp [enqueueFromController, hs, hw]

theorem enqueueFromController_over (chunk : α) (hs : r.state ≠ .readable) : (r.enqueueFromController chunk).state = r := by
  unfold enqueueFromController
  split
  · next h => exact absurd h hs
  · rfl

theorem closeFromController_over (hs : r.state ≠ .readable) : r.closeFromController = r := by
  unfold closeFromController
  split
  · next h => exact absurd h hs
  · rfl

theorem errorFromController_over (reason : ε) (hs : r.state ≠ .readable) : r.errorFromController reason = r := by
  unfold errorFromController
  split
  · next h => exact absurd h hs
  · rfl

theorem over_quiet (hs : r.state = .readable) (hw : r.waiting = none) :
    r.closeFromController = { r with state := .closed, closed := some (.ok ()) } ∧ ∀ reason,
      r.errorFromController reason = { r with state := .errored reason, closed := some (.error reason) } := by
  simp [closeFromController, errorFromController, settleWaiting, hs, hw]

theorem Rests.enqueue (chunk : α) (h : Rests r passed) : Rests (r.enqueueFromController chunk).state passed := by
  by_cases hs : r.state = .readable
  · rw [enqueueFromController_quiet chunk hs h.waiting]
    refine ⟨h.waiting, ?_⟩
    rw [h.enqueued, append_assoc]
  · rwa [enqueueFromController_over chunk hs]

theorem Rests.close (h : Rests r passed) : Rests r.closeFromController passed := by
  by_cases hs : r.state = .readable
  · rw [(over_quiet hs h.waiting).1]; exact ⟨h.waiting, h.enqueued⟩
  · rwa [closeFromController_over hs]

theorem Rests.error (reason : ε) (h : Rests r passed) : Rests (r.errorFromController reason) passed := by
  by_cases hs : r.state = .readable
  · rw [(over_quiet hs h.waiting).2]; exact ⟨h.waiting, h.enqueued⟩
  · rwa [errorFromController_over reason hs]

theorem getElem?_settled (result : ReadResult α ε) (h : r.reads[i]? = some none) :
    (r.reads.set i (some result))[i]? = some (some result) := by
  have hlt : i < r.reads.length := (List.getElem?_eq_some_iff.1 h).1
  rw [getElem?_set_self hlt]

theorem Reads.enqueue (chunk : α) (h : Reads r i fs passed) : Reads (r.enqueueFromController chunk).state i fs passed := by
  obtain ⟨taken, hone, he⟩ := h
  by_cases hs : r.state = .readable
  · cases hone with
    | pulling hr hw =>
      rw [enqueueFromController_quiet chunk hs hw]
      refine ⟨[], .pulling hr hw, ?_⟩
      rw [he, append_assoc _ _ [chunk]]
    | waiting hr hw hq _ =>
      have hstate : (r.enqueueFromController chunk).state =
          { r with enqueued := r.enqueued ++ [chunk], reads := r.reads.set i (some (.value chunk)), waiting := none } := by
        simp [enqueueFromController, settleWaiting, settle, hs, hw]
      rw [hstate]
      refine ⟨[chunk], .value (getElem?_settled _ hr) rfl, ?_⟩
      rw [he, hq, append_nil, append_nil, append_nil]
    | @value v hr hw =>
      rw [enqueueFromController_quiet chunk hs hw]
      refine ⟨[v], .value hr hw, ?_⟩
      rw [he, append_assoc _ _ [chunk]]
    | ended _ _ ho _ => rw [hs] at ho; cases ho
  · rw [enqueueFromController_over chunk hs]; exact ⟨taken, hone, he⟩

theorem Reads.finish {state : StreamState ε} {result : ReadResult α ε} {closed : Option (Except ε Unit)}
    (hs : r.state = .readable) (ho : state.outcome = some result) (h : Reads r i fs passed) :
    Reads { ({ r with state } : ReadableStream α ε).settleWaiting result with closed } i fs passed := by
  obtain ⟨taken, hone, he⟩ := h
  cases hone with
  | pulling hr hw => rw [settleWaiting_none (r := { r with state }) result hw]; exact ⟨[], .pulling hr hw, he⟩
  | waiting hr hw hq _ =>
    have hstate : ({ r with state } : ReadableStream α ε).settleWaiting result =
        { r with state, reads := r.reads.set i (some result), waiting := none } := by
      simp [settleWaiting, settle, hw]
    rw [hstate]; exact ⟨[], .ended (getElem?_settled _ hr) rfl ho hq, he⟩
  | @value v hr hw => rw [settleWaiting_none (r := { r with state }) result hw]; exact ⟨[v], .value hr hw, he⟩
  | ended _ _ hold _ => rw [hs] at hold; cases hold

theorem Reads.close (h : Reads r i fs passed) : Reads r.closeFromController i fs passed := by
  unfold closeFromController
  split
  · next hs => exact h.finish hs rfl
  · exact h

theorem Reads.error (reason : ε) (h : Reads r i fs passed) : Reads (r.errorFromController reason) i fs passed := by
  unfold errorFromController
  split
  · next hs => exact h.finish hs rfl
  · exact h

/-! ## The reader -/

theorem Reads.pulled (h : Reads r i [.pulling i] passed) : Reads (r.pulled i) i [] passed := by
  obtain ⟨taken, hone, he⟩ := h
  cases hone with
  | pulling hr hw =>
    unfold ReadableStream.pulled
    obtain ⟨chunk, queue, hq, ht⟩ | ⟨result, hq, hs, ho, ht⟩ | ⟨hq, hs, ht⟩ := take_cases r
    · rw [ht]
      refine ⟨[chunk], .value (getElem?_settled _ hr) hw, ?_⟩
      show r.enqueued = passed ++ [chunk] ++ queue
      rw [he, hq, append_nil, append_assoc, singleton_append]
    · rw [ht]; exact ⟨[], .ended (getElem?_settled _ hr) hw ho hq, he⟩
    · rw [ht]; exact ⟨[], .waiting hr rfl hq hs, he⟩

theorem Rests.read (h : Rests r passed) : Reads r.readInternal.state r.reads.length r.readInternal.frames passed := by
  have hopen : Reads ({ r with reads := r.reads ++ [none] } : ReadableStream α ε) r.reads.length [.pulling r.reads.length]
      passed := by
    refine ⟨[], .pulling ?_ h.waiting, ?_⟩
    · simp
    · rw [append_nil]; exact h.enqueued
  obtain hc | ⟨-, hc⟩ := readInternal_cases r
  · rw [hc]; exact hopen
  · rw [hc]; exact hopen.pulled

theorem Reads.value {chunk : α} (h : Reads r i fs passed) (hr : r.reads[i]? = some (some (.value chunk))) :
    fs = [] ∧ Rests r (passed ++ [chunk]) := by
  obtain ⟨taken, hone, he⟩ := h
  cases hone with
  | pulling hn | waiting hn => cases hn.symm.trans hr
  | value hv hw => cases hv.symm.trans hr; exact ⟨rfl, hw, he⟩
  | ended hv _ ho _ =>
    cases hv.symm.trans hr
    unfold StreamState.outcome at ho
    split at ho <;> cases ho

theorem Reads.outcome {result : ReadResult α ε} (h : Reads r i fs passed) (hr : r.reads[i]? = some (some result))
    (hv : ∀ chunk, result ≠ .value chunk) : fs = [] ∧ Rests r passed ∧ r.state.outcome = some result ∧ r.queue = [] := by
  obtain ⟨taken, hone, he⟩ := h
  cases hone with
  | pulling hn | waiting hn => cases hn.symm.trans hr
  | value hc _ => cases hc.symm.trans hr; exact absurd rfl (hv _)
  | ended hc hw ho hq =>
    cases hc.symm.trans hr; rw [append_nil] at he; exact ⟨rfl, ⟨hw, he⟩, ho, hq⟩

/-- The promise is pending: `pull` is running, or the stream is readable and everything is passed on. -/
theorem Reads.pending (h : Reads r i fs passed) (hr : ∀ result, r.reads[i]? ≠ some (some result)) :
    fs ≠ [] ∨ r.state = .readable ∧ r.enqueued = passed := by
  obtain ⟨taken, hone, he⟩ := h
  cases hone with
  | pulling => exact .inl nofun
  | waiting _ _ hq hs => rw [hq, append_nil, append_nil] at he; exact .inr ⟨hs, he⟩
  | value hc | ended hc => exact absurd hc (hr _)

theorem Reads.in_order (h : Reads r i fs passed) : passed <+: r.enqueued := by
  obtain ⟨taken, -, he⟩ := h; rw [he, append_assoc]; exact prefix_append _ _

theorem Rests.in_order (h : Rests r passed) : passed <+: r.enqueued := by
  rw [h.enqueued]; exact prefix_append _ _

end NodeCompat.Web.ReadableStream

/-! ## The stream with its source -/

namespace NodeCompat.Web.Cancellable

variable {α ε : Type} (t : Cancellable α ε)

variable (reason : Option ε)

theorem closeFromController_eq : t.closeFromController.state = { t with stream := t.stream.closeFromController } := by
  unfold closeFromController
  split
  · rfl
  · next hs => rw [ReadableStream.closeFromController_over hs]

theorem errorFromController_eq (reason : ε) :
    (t.errorFromController reason).state = { t with stream := t.stream.errorFromController reason } := by
  unfold errorFromController
  split
  · rfl
  · next hs => rw [ReadableStream.errorFromController_over reason hs]

theorem errorFromController_over (reason : ε) (hs : t.stream.state ≠ .readable) :
    t.errorFromController reason = { state := t } := by
  unfold errorFromController
  split
  · next h => exact absurd h hs
  · rfl

@[simp] theorem closeFromController_frames : t.closeFromController.frames = [] := by
  unfold closeFromController
  split <;> rfl

@[simp] theorem errorFromController_frames (reason : ε) : (t.errorFromController reason).frames = [] := by
  unfold errorFromController
  split <;> rfl

@[simp] theorem cancelStream_frames : (t.cancelStream reason).frames = [] := t.dropQueue.closeFromController_frames

theorem cancelStream_eq :
    (t.cancelStream reason).state = { t with stream := t.dropQueue.stream.closeFromController } :=
  t.dropQueue.closeFromController_eq

theorem cancelStream_drop (hs : t.stream.state ≠ .readable) : (t.cancelStream reason).state = t.dropQueue := by
  rw [cancelStream_eq, ReadableStream.closeFromController_over (r := t.dropQueue.stream) hs]; rfl

theorem cancelStream_over (hs : t.stream.state ≠ .readable) (hq : t.stream.queue = []) :
    (t.cancelStream reason).state = t := by
  rw [t.cancelStream_drop reason hs, dropQueue, ← hq]

end NodeCompat.Web.Cancellable
