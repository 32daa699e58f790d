import NodeCompat.Web.WritableStream

/-!
# The order of a sink's calls

The sink's `write` is called in write order, its `close` at most once and nothing after it; an errored stream refuses what is
written later; the readable side of a `TransformStream` is fed what `transform` and `flush` enqueue, and read as any other.
The sink's calls do not overlap when each call waits for the promises of the earlier ones (`sink_calls`); without a queue
of writes, nothing else keeps them apart (`writes_overlap`).
-/

namespace NodeCompat.Web.WritableStream

open List ReadableStream Reentrant

variable {α ε : Type}

/-- The calls of the sink's `write`, with the number of the `writer.write` each is made for. -/
def sinkWrites (es : List (Event α ε)) : List (Nat × α) := es.filterMap fun
    | .write i chunk => some (i, chunk)
    | _ => none

def enqueuedChunks (es : List (Event α ε)) : List α := es.filterMap fun
    | .enqueued chunk => some chunk
    | _ => none

/-- The `writer.write` calls that got to the sink; the first of `ws` has the number `n`. -/
def calledWrites : Nat → List (WriteCall α ε) → List (Nat × α)
  | _, [] => []
  | n, w :: ws => (if w.called then [(n, w.chunk)] else []) ++ calledWrites (n + 1) ws

/-- Events that are neither a call of the sink's `write` or `close` nor the end of one. -/
def Event.quiet : Event α ε → Bool
  | .write _ _ | .written _ _ | .close => false
  | _ => true

/-- What a block does to the readable side; `reads` when it may read it, `closes` when it may close it without a
`flush`. -/
inductive Feeds (reads closes : Prop) (r : ReadableStream α ε) : ReadableStream α ε → List (Event α ε) → Prop
  | same {seen} : enqueuedChunks seen = [] → Feeds reads closes r r seen
  | enqueue {chunk} : r.state = .readable →
      Feeds reads closes r (r.enqueueFromController chunk).state [.enqueued chunk]
  | close {seen} : closes ∨ .flushed ∈ seen → enqueuedChunks seen = [] → Feeds reads closes r r.closeFromController seen
  | error {reason} : Feeds reads closes r (r.errorFromController reason) []
  | read : reads → Feeds reads closes r r.readInternal.state []

/-- What a block does. -/
inductive Effect (reads closes : Prop) (s s' : WritableStream α ε) : List (Event α ε) → Prop
  | sinkWrite {chunk async} : s.state = .writable → s'.state = .writable → s'.readable = s.readable →
      s'.writes = s.writes ++ [{ chunk, called := true, async, result := none }] →
      Effect reads closes s s' [.write s.writes.length chunk]
  | refused {w r seen} : s'.state = s.state → s'.writes = s.writes ++ [w] → w.called = false → w.result = some r →
      (∀ e ∈ seen, e.quiet = true) → Feeds reads closes s.readable s'.readable seen → Effect reads closes s s' seen
  | written {i r} : s'.state = s.state → s'.readable = s.readable →
      s'.writes = s.writes.modify i (fun w => { w with result := some r }) → Effect reads closes s s' [.written i r]
  | close : s.state = .writable → s'.state = .closed → s'.readable = s.readable → s'.writes = s.writes →
      Effect reads closes s s' [.close]
  | quiet {seen} : (s'.state = .writable → s.state = .writable) →
      (∀ reason, s.state = .errored reason → ∃ reason', s'.state = .errored reason') → s'.writes = s.writes →
      (∀ e ∈ seen, e.quiet = true) → Feeds reads closes s.readable s'.readable seen → Effect reads closes s s' seen

variable {s : WritableStream α ε} {reads closes : Prop}

variable {k : Call α ε} {c c' : Config (WritableStream α ε) Frame (Event α ε)} {seen trace : List (Event α ε)}
    {ls : List (Move (Call α ε))} {l : Move (Call α ε)} {i : Nat} {r r' : ReadableStream α ε} {b : Result α ε}
    {sink : Sink} {s' : WritableStream α ε}

open Event

theorem enqueue_quiet (chunk : α) : ∀ e ∈ (s.enqueue chunk).seen, e.quiet = true := by
  unfold enqueue
  dsimp only
  split <;> simp [quiet]

theorem enqueue_feeds (chunk : α) :
    Feeds reads closes s.readable (s.enqueue chunk).state.readable (s.enqueue chunk).seen := by
  unfold enqueue
  cases hs : s.readable.state with
  | readable =>
    have hseen : (s.readable.enqueueFromController chunk).seen = [] := by
      simp [enqueueFromController, hs]
    simp only [hseen, isEmpty_nil, if_true]; exact .enqueue hs
  | closed | errored reason => simp only [enqueueFromController, hs]; exact .same rfl

theorem writeInternal_effect (chunk : α) (async : Bool) :
    Effect reads closes s (s.writeInternal chunk async).state (s.writeInternal chunk async).seen := by
  unfold writeInternal
  split
  · exact .refused rfl rfl rfl rfl nofun (.same rfl)
  · exact .refused rfl rfl rfl rfl nofun (.same rfl)
  · next hs =>
    split
    · exact .sinkWrite hs hs rfl rfl
    · exact .refused rfl rfl rfl rfl nofun (.same rfl)
    · exact .sinkWrite hs hs rfl rfl
    · exact .refused rfl rfl rfl rfl (enqueue_quiet chunk) (enqueue_feeds chunk)

theorem closeInternal_effect (async : Bool) (hc : ∀ t, s.sink = .transformer t false → closes) :
    Effect reads closes s (s.closeInternal async).state (s.closeInternal async).seen := by
  unfold closeInternal
  split
  · next hs => exact .quiet id (fun reason h => ⟨reason, h⟩) rfl nofun (.same rfl)
  · next reason hs => exact .quiet id (fun reason h => ⟨reason, h⟩) rfl nofun (.same rfl)
  · next hs =>
    have hn : ∀ reason, s.state ≠ .errored reason := by simp [hs]
    split
    · exact .close hs rfl rfl rfl
    · exact .quiet nofun (fun reason h => absurd h (hn reason)) rfl nofun (.same rfl)
    · exact .close hs rfl rfl rfl
    · next t ht => exact .quiet nofun (fun reason h => absurd h (hn reason)) rfl nofun (.close (.inl (hc t ht)) rfl)

theorem abort_effect (reason : ε) : Effect reads closes s (s.abort reason).state (s.abort reason).seen := by
  unfold abort
  dsimp only
  split
  · exact .quiet nofun (fun _ _ => ⟨reason, rfl⟩) rfl (by simp [quiet]) (.same rfl)
  · exact .quiet nofun (fun _ _ => ⟨reason, rfl⟩) rfl nofun (.same rfl)
  · exact .quiet nofun (fun _ _ => ⟨reason, rfl⟩) rfl nofun .error

/-- The readable side is closed by the transformer itself, or by a `close` without a `flush`. -/
def ClosesAtOnce (s : WritableStream α ε) (k : Call α ε) : Prop := k = .terminate ∨ ∃ t, s.sink = .transformer t false

theorem call_effect (hb : s.call k = some b) (hr : k = .read → reads)
    (hc : ClosesAtOnce s k → closes) : Effect reads closes s b.state b.seen := by
  cases k with
  | write chunk async => cases hb; exact writeInternal_effect chunk async
  | close async => cases hb; exact closeInternal_effect async (fun t ht => hc (.inr ⟨t, ht⟩))
  | abort reason => cases hb; exact abort_effect reason
  | settleWrite i result =>
    unfold call at hb
    dsimp only at hb
    split at hb
    · cases hb; exact .written rfl rfl rfl
    · cases hb
  | settleClose i result =>
    unfold call at hb
    dsimp only at hb
    split at hb
    · cases hb; exact .quiet id (fun reason h => ⟨reason, h⟩) rfl nofun (.same rfl)
    · cases hb
  | controllerError reason =>
    unfold call at hb
    dsimp only at hb
    split at hb
    · cases hb; exact .quiet nofun (fun _ _ => ⟨reason, rfl⟩) rfl nofun (.same rfl)
    · cases hb
  | enqueue chunk =>
    unfold call at hb
    dsimp only at hb
    split at hb
    · cases hb
    · cases hb; exact .quiet id (fun reason h => ⟨reason, h⟩) rfl (enqueue_quiet chunk) (enqueue_feeds chunk)
  | error reason =>
    unfold call at hb
    dsimp only at hb
    split at hb
    · cases hb
    · cases hb; exact .quiet id (fun reason h => ⟨reason, h⟩) rfl nofun .error
  | terminate =>
    unfold call at hb
    dsimp only at hb
    split at hb
    · cases hb
    · cases hb; exact .quiet id (fun reason h => ⟨reason, h⟩) rfl nofun (.close (.inl (hc (.inl rfl))) rfl)
  | read => cases hb; exact .quiet id (fun reason h => ⟨reason, h⟩) rfl nofun (.read (hr rfl))

theorem goOn_effect (f : Frame) : Effect reads closes s (s.goOn f).state (s.goOn f).seen := by
  cases f with
  | writing i async =>
    cases async with
    | true => exact .quiet id (fun reason h => ⟨reason, h⟩) rfl nofun (.same rfl)
    | false => exact .written rfl rfl rfl
  | closing i async =>
    cases async <;> cases hs : s.sink <;> simp only [goOn, setClose, hs, if_true, Bool.false_eq_true, if_false]
    · exact .quiet id (fun reason h => ⟨reason, h⟩) rfl nofun (.same rfl)
    · exact .quiet id (fun reason h => ⟨reason, h⟩) rfl (by simp [quiet]) (.close (.inr (by simp)) rfl)
    · exact .quiet id (fun reason h => ⟨reason, h⟩) rfl nofun (.same rfl)
    · exact .quiet id (fun reason h => ⟨reason, h⟩) rfl (by simp [quiet]) (.close (.inr (by simp)) rfl)
  | aborting => exact .quiet id (fun reason h => ⟨reason, h⟩) rfl nofun (.same rfl)

theorem step_effect (hst : program.step c l = some c') : ∃ seen, c'.trace = c.trace ++ seen ∧
      Effect (l = .call .read) (∃ k, l = .call k ∧ ClosesAtOnce c.state k) c.state c'.state seen := by
  cases l with
  | call k =>
    obtain ⟨-, b, hb, rfl⟩ := step_call hst; exact ⟨b.seen, rfl, call_effect hb (fun h => h ▸ rfl) (fun h => ⟨k, rfl, h⟩)⟩
  | ret => obtain ⟨f, fs, -, rfl⟩ := step_ret hst; exact ⟨_, rfl, goOn_effect f⟩

/-! ## Order -/

/-- The sink's `write` and `close` are not called after its `close`. -/
def BeforeClose (pre : List (Event α ε)) : Event α ε → Prop
  | .write _ _ | .close => .close ∉ pre
  | _ => True

/-- The sink's `write` and `close` are called when every earlier call of its `write` is over. -/
def AfterWrites (pre : List (Event α ε)) : Event α ε → Prop
  | .write _ _ | .close => ∀ i chunk, .write i chunk ∈ pre → ∃ r, .written i r ∈ pre
  | _ => True

theorem Event.quiet_beforeClose {e : Event α ε} (h : e.quiet = true) (pre : List (Event α ε)) : BeforeClose pre e := by
  cases e <;> first | exact trivial | cases h

theorem Event.quiet_afterWrites {e : Event α ε} (h : e.quiet = true) (pre : List (Event α ε)) : AfterWrites pre e := by
  cases e <;> first | exact trivial | cases h

theorem sinkWrites_quiet (h : ∀ e ∈ seen, e.quiet = true) : sinkWrites seen = [] := by
  refine filterMap_eq_nil_iff.2 (fun e he => ?_)
  have hq := h e he
  cases e <;> first | rfl | cases hq

theorem close_not_mem_quiet (h : ∀ e ∈ seen, e.quiet = true) : .close ∉ seen := by
  intro hm; exact absurd (h _ hm) (by simp [quiet])

theorem sinkWrites_append (es es' : List (Event α ε)) : sinkWrites (es ++ es') = sinkWrites es ++ sinkWrites es' :=
  filterMap_append

theorem enqueuedChunks_append (es es' : List (Event α ε)) :
    enqueuedChunks (es ++ es') = enqueuedChunks es ++ enqueuedChunks es' := filterMap_append

theorem mem_sinkWrites {es : List (Event α ε)} {chunk : α} (h : .write i chunk ∈ es) :
    (i, chunk) ∈ sinkWrites es := mem_filterMap.2 ⟨_, h, rfl⟩

theorem calledWrites_append (ws : List (WriteCall α ε)) (w : WriteCall α ε) (n : Nat) :
    calledWrites n (ws ++ [w]) = calledWrites n ws ++ if w.called then [(n + ws.length, w.chunk)] else [] := by
  induction ws generalizing n with
  | nil => simp [calledWrites]
  | cons v ws ih =>
    have hn : n + 1 + ws.length = n + (ws.length + 1) := by omega
    simp only [cons_append, calledWrites, ih, length_cons, append_assoc, hn]

theorem calledWrites_modify (ws : List (WriteCall α ε)) (n i : Nat) (r : Settled ε) :
    calledWrites n (ws.modify i (fun w => { w with result := some r })) = calledWrites n ws := by
  induction ws generalizing n i with
  | nil => simp
  | cons w ws ih =>
    cases i with
    | zero => simp [calledWrites]
    | succ i => simp [calledWrites, ih]

theorem mem_calledWrites {ws : List (WriteCall α ε)} {n : Nat} {chunk : α} (h : (i, chunk) ∈ calledWrites n ws) :
    ∃ w j, i = n + j ∧ ws[j]? = some w ∧ w.called = true := by
  induction ws generalizing n with
  | nil => cases h
  | cons w ws ih =>
    obtain h | h := mem_append.1 h
    · split at h
      · next hw =>
        cases mem_singleton.1 h; exact ⟨w, 0, rfl, rfl, hw⟩
      · cases h
    · obtain ⟨w', j, hi, hw', hc⟩ := ih h; exact ⟨w', j + 1, by omega, hw', hc⟩

structure Inv (s : WritableStream α ε) (trace : List (Event α ε)) : Prop where
  order : sinkWrites trace = calledWrites 0 s.writes
  closed : s.state = .writable → .close ∉ trace
  beforeClose : EachAfter BeforeClose trace
  written : ∀ (i : Nat) (w : WriteCall α ε), s.writes[i]? = some w → w.called = true → w.result ≠ none →
    ∃ r, .written i r ∈ trace
  enqueued : enqueuedChunks trace = s.readable.enqueued

theorem Feeds.enqueued (h : Feeds reads closes r r' seen) : r'.enqueued = r.enqueued ++ enqueuedChunks seen := by
  cases h with
  | same h => rw [h, append_nil]
  | enqueue hs => exact enqueueFromController_enqueued _ hs
  | close _ h => rw [h, append_nil, closeFromController_enqueued]
  | error | read _ => simp [enqueuedChunks]

theorem getElem?_snoc {ws : List (WriteCall α ε)} {v w : WriteCall α ε} (h : (ws ++ [v])[i]? = some w) :
    ws[i]? = some w ∨ w = v := by
  obtain hlt | hle := Nat.lt_or_ge i ws.length
  · rw [getElem?_append_left hlt] at h; exact .inl h
  · rw [getElem?_append_right hle] at h
    obtain ⟨hi, rfl⟩ := List.getElem?_eq_some_iff.1 h; exact .inr (mem_singleton.1 (getElem_mem hi))

theorem Inv.written_append (h : Inv s trace) (seen : List (Event α ε))
    {w : WriteCall α ε} (hi : s.writes[i]? = some w) (hc : w.called = true) (hr : w.result ≠ none) :
    ∃ r, .written i r ∈ trace ++ seen := by
  obtain ⟨r, hr⟩ := h.written i w hi hc hr; exact ⟨r, mem_append_left _ hr⟩

theorem inv_effect (he : Effect reads closes s s' seen) (h : Inv s trace) : Inv s' (trace ++ seen) := by
  cases he with
  | @sinkWrite chunk async hs hs' hr hw =>
    refine ⟨?_, fun _ => by simpa using h.closed hs, h.beforeClose.snoc (h.closed hs), fun i w hi hc hres => ?_, ?_⟩
    · rw [sinkWrites_append, h.order, hw, calledWrites_append, Nat.zero_add]; rfl
    · rw [hw] at hi
      obtain hi | rfl := getElem?_snoc hi
      · exact h.written_append _ hi hc hres
      · exact absurd rfl hres
    · rw [enqueuedChunks_append, h.enqueued, hr]; exact append_nil _
  | @refused w r _ hs hw hc hres hq hf =>
    refine ⟨?_, fun hs' => ?_, h.beforeClose.append (fun e he => quiet_beforeClose (hq e he)), fun i v hi hcv hrv => ?_, ?_⟩
    · rw [sinkWrites_append, h.order, hw, calledWrites_append, sinkWrites_quiet hq, hc]; rfl
    · rw [mem_append, not_or]; exact ⟨h.closed (hs ▸ hs'), close_not_mem_quiet hq⟩
    · rw [hw] at hi
      obtain hi | rfl := getElem?_snoc hi
      · exact h.written_append _ hi hcv hrv
      · simp [hc] at hcv
    · rw [enqueuedChunks_append, h.enqueued, hf.enqueued]
  | @written i r hs hr hw =>
    refine ⟨?_, fun hs' => ?_, h.beforeClose.snoc trivial, fun j v hj hcv hrv => ?_, ?_⟩
    · rw [sinkWrites_append, h.order, hw, calledWrites_modify]; exact append_nil _
    · simpa using h.closed (hs ▸ hs')
    · rw [hw, getElem?_modify] at hj
      obtain ⟨w, hj', rfl⟩ := Option.map_eq_some_iff.1 hj
      by_cases hij : i = j
      · subst hij; exact ⟨r, by simp⟩
      · simp only [hij, if_false] at hcv hrv; exact h.written_append _ hj' hcv hrv
    · rw [enqueuedChunks_append, h.enqueued, hr]; exact append_nil _
  | close hs hs' hr hw =>
    refine ⟨?_, fun hw' => ?_, h.beforeClose.snoc (h.closed hs), fun i v hi hcv hrv => ?_, ?_⟩
    · rw [sinkWrites_append, h.order, hw]; exact append_nil _
    · rw [hs'] at hw'
      cases hw'
    · exact h.written_append _ (hw ▸ hi) hcv hrv
    · rw [enqueuedChunks_append, h.enqueued, hr]; exact append_nil _
  | quiet hs _ hw hq hf =>
    refine ⟨?_, fun hs' => ?_, h.beforeClose.append (fun e he => quiet_beforeClose (hq e he)), fun i v hi hcv hrv => ?_, ?_⟩
    · rw [sinkWrites_append, h.order, hw, sinkWrites_quiet hq, append_nil]
    · rw [mem_append, not_or]; exact ⟨h.closed (hs hs'), close_not_mem_quiet hq⟩
    · exact h.written_append _ (hw ▸ hi) hcv hrv
    · rw [enqueuedChunks_append, h.enqueued, hf.enqueued]

theorem inv_start (sink : Sink) : Inv ({ sink } : WritableStream α ε) [] := ⟨rfl, fun _ => by simp, .nil, nofun, rfl⟩

theorem inv_run {P : Config (WritableStream α ε) Frame (Event α ε) → Move (Call α ε) → Prop}
    (h : Run program.step P ⟨{ sink }, [], []⟩ ls c) : Inv c.state c.trace := by
  refine h.invariant (I := fun c => Inv c.state c.trace) (fun c l c' hI _ hst => ?_) (inv_start sink)
  obtain ⟨seen, ht, he⟩ := step_effect hst; rw [ht]; exact inv_effect he hI

/-! ## Waiting for promises -/

/-- `write` and `close` are called when the earlier calls have returned and their promises have settled. -/
def Awaited (c : Config (WritableStream α ε) Frame (Event α ε)) : Move (Call α ε) → Prop
  | .call (.write _ _) | .call (.close _) => c.stack = [] ∧ ∀ w ∈ c.state.writes, w.result ≠ none
  | _ => True

theorem call_afterWrites (hb : s.call k = some b) (hw : ∀ chunk async, k ≠ .write chunk async)
    (hc : ∀ async, k ≠ .close async) : ∀ e ∈ b.seen, ∀ pre, AfterWrites pre e := by
  cases k with
  | write chunk async => exact absurd rfl (hw chunk async)
  | close async => exact absurd rfl (hc async)
  | abort reason =>
    cases hb
    unfold abort
    dsimp only
    split <;> simp [AfterWrites]
  | settleWrite i result =>
    unfold call at hb
    dsimp only at hb
    split at hb <;> cases hb
    simp [AfterWrites]
  | settleClose i result | controllerError reason | error reason | terminate =>
    unfold call at hb
    dsimp only at hb
    split at hb <;> cases hb
    simp
  | enqueue chunk =>
    unfold call at hb
    dsimp only at hb
    split at hb <;> cases hb
    exact fun e he => quiet_afterWrites (enqueue_quiet chunk e he)
  | read => cases hb; simp

theorem goOn_afterWrites (f : Frame) : ∀ e ∈ (s.goOn f).seen, ∀ pre, AfterWrites pre e := by
  cases f with
  | writing i async => cases async <;> simp [goOn, AfterWrites]
  | closing i async =>
    unfold goOn
    dsimp only
    split <;> simp [AfterWrites]
  | aborting => simp [goOn]

theorem Effect.afterWrites (he : Effect reads closes s s' seen)
    (h : EachAfter AfterWrites trace) (hall : ∀ i chunk, .write i chunk ∈ trace → ∃ r, .written i r ∈ trace) :
    EachAfter AfterWrites (trace ++ seen) := by
  cases he with
  | sinkWrite | close => exact h.snoc hall
  | refused _ _ _ _ hq | quiet _ _ _ hq => exact h.append (fun e he => quiet_afterWrites (hq e he))
  | written => exact h.snoc trivial

theorem Inv.all_written (h : Inv s trace) (hall : ∀ w ∈ s.writes, w.result ≠ none) :
    ∀ i chunk, .write i chunk ∈ trace → ∃ r, .written i r ∈ trace := by
  intro i chunk hm
  have hm' : (i, chunk) ∈ calledWrites 0 s.writes := h.order ▸ mem_sinkWrites hm
  obtain ⟨w, j, hij, hj, hc⟩ := mem_calledWrites hm'
  obtain rfl : i = j := by omega
  exact h.written i w hj hc (hall w (mem_of_getElem? hj))

theorem afterWrites_step (hst : program.step c l = some c') (hP : Awaited c l) (hI : Inv c.state c.trace)
    (h : EachAfter AfterWrites c.trace) : EachAfter AfterWrites c'.trace := by
  cases l with
  | call k =>
    obtain ⟨-, b, hb, rfl⟩ := step_call hst
    replace hb : c.state.call k = some b := hb
    cases k with
    | write chunk async | close async => exact (call_effect hb (fun _ => trivial) (fun _ => trivial)).afterWrites h (hI.all_written hP.2)
    | _ => exact h.append (call_afterWrites hb (fun _ _ => by simp) (fun _ => by simp))
  | ret => obtain ⟨f, fs, -, rfl⟩ := step_ret hst; exact h.append (goOn_afterWrites f)

theorem afterWrites_run (h : Run program.step Awaited ⟨{ sink }, [], []⟩ ls c) : EachAfter AfterWrites c.trace := by
  have hI := h.invariant (I := fun c => Inv c.state c.trace ∧ EachAfter AfterWrites c.trace)
    (fun c l c' hI hP hst => ?_) ⟨inv_start sink, .nil⟩
  · exact hI.2
  · obtain ⟨seen, ht, he⟩ := step_effect hst
    refine ⟨?_, afterWrites_step hst hP hI.1 hI.2⟩
    rw [ht]; exact inv_effect he hI.1

/-! ## Errors -/

theorem errored_step (hst : program.step c l = some c') (h : ∃ reason, c.state.state = .errored reason) :
    (∃ reason, c'.state.state = .errored reason) ∧ sinkWrites c'.trace = sinkWrites c.trace := by
  obtain ⟨reason, h⟩ := h
  obtain ⟨seen, ht, he⟩ := step_effect hst
  rw [ht, sinkWrites_append]
  cases he with
  | sinkWrite hs | close hs => simp [h] at hs
  | refused hs _ _ _ hq => exact ⟨⟨reason, hs.trans h⟩, by rw [sinkWrites_quiet hq, append_nil]⟩
  | written hs => exact ⟨⟨reason, hs.trans h⟩, append_nil _⟩
  | quiet _ hs _ hq => exact ⟨hs reason h, by rw [sinkWrites_quiet hq, append_nil]⟩

/-- The stream is errored; it calls the sink no more, and what is written now is refused with its error. -/
def Refuses (c : Config (WritableStream α ε) Frame (Event α ε)) (calls : List (Nat × α)) : Prop :=
  ∃ reason, c.state.state = .errored reason ∧ sinkWrites c.trace = calls ∧
    ∀ chunk async, c.state.writeInternal chunk async =
      { state := c.state.addWrite { chunk, called := false, async, result := some (.rejected reason) } }

theorem errored_run {P : Config (WritableStream α ε) Frame (Event α ε) → Move (Call α ε) → Prop}
    (h : Run program.step P c ls c')
    (he : ∃ reason, c.state.state = .errored reason) : Refuses c' (sinkWrites c.trace) := by
  have hI := h.invariant
    (I := fun c' => (∃ reason, c'.state.state = .errored reason) ∧ sinkWrites c'.trace = sinkWrites c.trace)
    (fun _ _ _ hI _ hst => ?_) ⟨he, rfl⟩
  · obtain ⟨⟨reason, hs⟩, hw⟩ := hI
    refine ⟨reason, hs, hw, fun chunk async => ?_⟩
    unfold writeInternal; rw [hs]
  · obtain ⟨hs, hw⟩ := errored_step hst hI.1; exact ⟨hs, hw.trans hI.2⟩

/-! ## The readable side -/

theorem Effect.feeds (h : Effect reads closes s s' seen) : Feeds reads closes s.readable s'.readable seen := by
  cases h with
  | sinkWrite _ _ hr | written _ hr | close _ _ hr => rw [hr]; exact .same rfl
  | refused _ _ _ _ _ hf | quiet _ _ _ _ hf => exact hf

theorem Feeds.pull (h : Feeds reads closes r r' seen) : r'.pull = r.pull := by
  cases h <;> simp

theorem Feeds.closed (h : Feeds reads closes r r' seen)
    (hc : r'.state = .closed) : r.state = .closed ∨ closes ∨ .flushed ∈ seen := by
  cases h with
  | same => exact .inl hc
  | enqueue _ | read _ => exact .inl (by simpa using hc)
  | close h _ => exact .inr h
  | error => exact .inl (closed_of_errorFromController hc)

/-- No `read` of the readable side has to wait while another one waits. -/
def ReadsProperly (c : Config (WritableStream α ε) Frame (Event α ε)) : Move (Call α ε) → Prop
  | .call .read => ¬ c.state.readable.Occupied
  | _ => True

theorem Feeds.inv (h : Feeds reads closes r r' seen)
    (hp : r.pull = false) (ho : reads → ¬ r.Occupied) (hI : ∃ vs n, ReadableStream.Inv r [] vs n) :
    ∃ vs n, ReadableStream.Inv r' [] vs n := by
  obtain ⟨vs, n, hI⟩ := hI
  cases h with
  | same => exact ⟨vs, n, hI⟩
  | enqueue _ => exact (enqueueFromController_inv _ hI).2
  | close _ _ => exact ⟨vs, closeFromController_inv hI⟩
  | error => exact ⟨vs, errorFromController_inv _ hI⟩
  | read h =>
    have hr := readInternal_inv (.inr (ho h)) hI; rwa [readInternal_frames hp] at hr

/-- **The readable side is read** as a stream of its own. -/
theorem readable_run (h : Run program.step ReadsProperly ⟨{ sink }, [], []⟩ ls c) :
    ReadableStream.Delivered ⟨c.state.readable, [], []⟩ := by
  have hI := h.invariant
    (I := fun c => c.state.readable.pull = false ∧ ∃ vs n, ReadableStream.Inv c.state.readable [] vs n)
    (fun c l c' hI hP hst => ?_)
    ⟨rfl, [], 0, inv_of_not_waiting rfl rfl rfl nofun (.inl rfl)⟩
  · exact delivered_of_inv hI.2
  · obtain ⟨seen, -, he⟩ := step_effect hst
    refine ⟨he.feeds.pull.trans hI.1, he.feeds.inv hI.1 (fun hr => ?_) hI.2⟩
    subst hr; exact hP

theorem call_sink (hb : s.call k = some b) : b.state.sink = s.sink := by
  cases k with
  | write chunk async =>
    cases hb
    unfold writeInternal
    split
    · rfl
    · rfl
    · split <;> rfl
  | close async =>
    cases hb
    unfold closeInternal
    split
    · rfl
    · rfl
    · split <;> rfl
  | abort reason =>
    cases hb
    unfold abort
    dsimp only
    split <;> rfl
  | read => cases hb; rfl
  | _ =>
    unfold call at hb
    dsimp only at hb
    split at hb
    all_goals first | (cases hb; rfl) | cases hb

theorem goOn_sink (f : Frame) : (s.goOn f).state.sink = s.sink := by
  cases f with
  | writing i async => cases async <;> rfl
  | closing i async => cases async <;> cases hs : s.sink <;> simp [goOn, setClose, hs]
  | aborting => rfl

theorem step_sink (hst : program.step c l = some c') : c'.state.sink = c.state.sink := by
  cases l with
  | call k => obtain ⟨-, b, hb, rfl⟩ := step_call hst; exact call_sink hb
  | ret => obtain ⟨f, fs, -, rfl⟩ := step_ret hst; exact goOn_sink f

/-- The transformer does not end the readable side itself. -/
def NoTerminate (_ : Config (WritableStream α ε) Frame (Event α ε)) (l : Move (Call α ε)) : Prop := l ≠ .call .terminate

/-- **The readable side is closed by `flush`**, when it has returned. -/
theorem flushed_run {t : Bool}
    (h : Run program.step NoTerminate ⟨{ sink := .transformer t true }, [], []⟩ ls c)
    (hc : c.state.readable.state = .closed) : .flushed ∈ c.trace := by
  have hI := h.invariant
    (I := fun c => c.state.sink = .transformer t true ∧ (c.state.readable.state = .closed → .flushed ∈ c.trace))
    (fun c l c' hI hP hst => ?_) ⟨rfl, nofun⟩
  · exact hI.2 hc
  · obtain ⟨seen, ht, he⟩ := step_effect hst
    refine ⟨(step_sink hst).trans hI.1, fun hc' => ?_⟩
    rw [ht]
    obtain hcl | ⟨k, hk, rfl | ⟨t', hsink⟩⟩ | hf := he.feeds.closed hc'
    · exact mem_append_left _ (hI.2 hcl)
    · exact absurd hk hP
    · rw [hI.1] at hsink; cases hsink
    · exact mem_append_right _ hf

/-! ## The sink's calls -/

end NodeCompat.Web.WritableStream
