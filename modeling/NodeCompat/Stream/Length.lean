import NodeCompat.Stream.CallbackRuns
import NodeCompat.Stream.Drain

/-!
# `writableLength`

The length is to be the sum over the accepted chunks whose `_write` has not called back. It is added to when a chunk is queued
and when it is written, so the flush that writes a queue sets it to 0 first, and the chunks of the queue are counted again one
by one. The 0 is right for the queue only: what the `_write`s that are outstanding then were passed is not counted
again, and the length is right after a move that takes the last cork off just when nothing was outstanding.

So `Level` is an equivalence for each method. Chunks that a flush under way has not written yet are in no length.
-/

namespace NodeCompat.Stream.Writable

open List

variable {V : Type} {ofString : BufferEncoding → List UInt16 → Bytes} {kind : Kind} {w : Writable V} {b : Result V}

variable {inFlight : Nat} {o : Outstanding V} {lost : Prop}

/-- The accepted chunks that a flush under way has not written yet. -/
def flushEntries (kind : Kind) (c : Config (Writable V) (Frame V) (Event V)) : List (Entry V) :=
  match kind with
  | .writable => c.stack.flatMap Frame.entries
  | .duplex => if c.stack.any Frame.isFlush then waiting c else []

/-- The length counts each pending chunk, but for those that a flush under way is going to count. -/
def Exact (kind : Kind) (c : Config (Writable V) (Frame V) (Event V)) : Prop :=
  c.state.writableLength + c.state.queuedLength (flushEntries kind c) = c.state.queuedLength (pendingEntries kind c)

/-- The frames with which an `end` takes the corks off. -/
def Frame.uncorksNext : Frame V → Bool
  | .writing (some _) => true
  | .flushing (.taken []) (some _) => true
  | .flushing (.indexed index queued) (some _) => decide (queued ≤ index)
  | _ => false

/-- The move takes the last cork off. -/
def Uncorks (c : Config (Writable V) (Frame V) (Event V)) : Move (Call V) → Prop
  | .call .uncork => c.state.writableCorked = 1
  | .call (.callEnd _ _ _) => c.state.writableCorked ≠ 0
  | .ret => c.state.writableCorked ≠ 0 ∧ ∃ f fs, c.stack = f :: fs ∧ f.uncorksNext = true
  | _ => False

/-- The last cork is taken off with no chunk in flight, and a `Duplex` is left alone in its flushes. -/
def Clear (kind : Kind) (c : Config (Writable V) (Frame V) (Event V)) (l : Move (Call V)) : Prop :=
  (kind = .duplex → Proper c l) ∧ (Uncorks c l → c.state.outstandingLength = 0)

/-! ## The length of a `Writable` -/

def Level (w : Writable V) : Prop := w.writableLength = w.outstandingLength + w.queuedLength w.writeQueue

/-- The `_write`s that are outstanding are told apart, and each holds the length of its chunk. -/
structure Carried (w : Writable V) : Prop where
  calls : ∀ n, (w.outstanding.map Outstanding.call).count n ≤ (List.range w.calls).count n
  lengths : ∀ o ∈ w.outstanding, ∃ e, o.entry = some e ∧ o.length = streamChunkLength w.writableObjectMode e.chunk

/-- What a block makes of the length: it is right unless `lost` takes the last cork off with chunks in flight. -/
structure Counts (inFlight : Nat) (lost : Prop) (b : Result V) : Prop where
  carried : Carried b.state
  level : Level b.state ↔ (lost → inFlight = 0)

theorem queuedLength_append (q q' : List (Entry V)) : w.queuedLength (q ++ q') = w.queuedLength q + w.queuedLength q' := by
  unfold queuedLength; rw [map_append, sum_append]

theorem Carried.of_ledger {w' : Writable V} (hl : w'.ledger = w.ledger) (h : Carried w) : Carried w' := by
  have hn : w'.calls = w.calls := congrArg (fun l => l.held.calls) hl
  have ho : w'.outstanding = w.outstanding := congrArg (fun l => l.held.outstanding) hl
  have hm : w'.writableObjectMode = w.writableObjectMode := congrArg Ledger.objectMode hl
  refine ⟨?_, ?_⟩
  · rw [ho, hn]; exact h.calls
  · rw [ho, hm]; exact h.lengths

theorem Level.of_ledger {w' : Writable V} (hl : w'.ledger = w.ledger) : Level w' ↔ Level w := by
  have hq : w'.writeQueue = w.writeQueue := congrArg (fun l => l.held.queue) hl
  have ho : w'.outstanding = w.outstanding := congrArg (fun l => l.held.outstanding) hl
  have hlen : w'.writableLength = w.writableLength := congrArg Ledger.length hl
  have hm : w'.writableObjectMode = w.writableObjectMode := congrArg Ledger.objectMode hl
  unfold Level outstandingLength queuedLength; rw [hq, ho, hlen, hm]

theorem Mute.counts (hlost : ¬ lost) (hb : Mute w b) (h : Carried w) (hl : Level w) : Counts inFlight lost b :=
  ⟨h.of_ledger hb.ledger, iff_of_true ((Level.of_ledger hb.ledger).2 hl) (fun hc => absurd hc hlost)⟩

theorem performWrite_level (entry : Entry V) (f : Frame V) : Level (w.performWrite (some entry) f).state ↔ Level w := by
  unfold Level outstandingLength queuedLength performWrite
  rw [map_append, sum_append]; simp only [map_cons, map_nil, sum_cons, sum_nil]; omega

theorem performWrite_carried (entry : Entry V) (f : Frame V) (h : Carried w) :
    Carried (w.performWrite (some entry) f).state := by
  refine ⟨fun n => ?_, fun o ho => ?_⟩
  · have hc := h.calls n; simp only [performWrite, map_append, count_append, map_cons, map_nil, range_succ]; omega
  · obtain ho | ho := mem_append.1 ho
    · exact h.lengths o ho
    · obtain rfl := mem_singleton.1 ho; exact ⟨entry, rfl, rfl⟩

theorem performWrite_counts (hlost : ¬ lost) (entry : Entry V) (f : Frame V) (h : Carried w)
    (hl : Level w) : Counts inFlight lost (w.performWrite (some entry) f) :=
  ⟨performWrite_carried entry f h, iff_of_true ((performWrite_level entry f).2 hl) (fun hc => absurd hc hlost)⟩

theorem reset_level : Level { w with writableLength := 0, writeQueue := [] } ↔ w.outstandingLength = 0 := by
  exact eq_comm

/-- **What an `uncork` does to the length.** -/
theorem takeQueue_counts (rest : Option EndRest) (h : Carried w) : Counts w.outstandingLength True (w.takeQueue rest) := by
  have h' : Carried { w with writableLength := 0, writeQueue := [] } := ⟨h.calls, h.lengths⟩
  have hiff : (True → w.outstandingLength = 0) ↔ Level { w with writableLength := 0, writeQueue := [] } := by
    rw [reset_level, true_imp_iff]
  unfold takeQueue
  dsimp only
  split
  · exact ⟨performWrite_carried _ _ h', (performWrite_level _ _).trans hiff.symm⟩
  · next rest _ =>
    have hm := endRest_mute (w := { w with writableLength := 0, writeQueue := [] }) rest
    exact ⟨h'.of_ledger hm.ledger, (Level.of_ledger hm.ledger).trans hiff.symm⟩
  · exact ⟨h', hiff.symm⟩

theorem Counts.of_iff {lost' : Prop} (hiff : lost ↔ lost') (h : Counts inFlight lost b) :
    Counts inFlight lost' b := ⟨h.carried, by rw [h.level, hiff]⟩

theorem uncork_counts (h : Carried w) (hl : Level w) :
    Counts w.outstandingLength (w.writableCorked = 1) (w.uncork .writable) := by
  unfold uncork flush
  dsimp only
  split
  · next h0 => exact Mute.counts (w := w) (by omega) (.silent rfl id) h hl
  · split
    · next h1 => exact Mute.counts (w := w) (by omega) (.silent rfl id) h hl
    · next h0 h1 =>
      have hone : w.writableCorked = 1 := by omega
      exact (takeQueue_counts (w := { w with writableCorked := w.writableCorked - 1 }) none ⟨h.calls, h.lengths⟩).of_iff
        (iff_of_true trivial hone)

theorem uncorkAll_counts (rest : EndRest) (h : Carried w) (hl : Level w) :
    Counts w.outstandingLength (w.writableCorked ≠ 0) (w.uncorkAll .writable rest) := by
  unfold uncorkAll flush
  split
  · next h0 => exact (endRest_mute rest).counts (not_not_intro h0) h hl
  · next h0 =>
    exact (takeQueue_counts (w := { w with writableCorked := 0 }) (some rest) ⟨h.calls, h.lengths⟩).of_iff
      (iff_of_true trivial h0)

theorem writeRest_counts (rest : Option EndRest) (h : Carried w) (hl : Level w) :
    Counts w.outstandingLength (rest.isSome = true ∧ w.writableCorked ≠ 0) (w.writeRest .writable rest) := by
  unfold writeRest
  generalize decide (w.writableLength < w.writableHighWaterMark) = accepted
  cases rest with
  | none =>
    have hno : ¬ ((none : Option EndRest).isSome = true ∧ w.writableCorked ≠ 0) := nofun
    refine ⟨?_, iff_of_true ?_ (fun hc => absurd hc hno)⟩
    · cases accepted <;> exact ⟨h.calls, h.lengths⟩
    · cases accepted <;> exact hl
  | some rest =>
    have hiff : w.writableCorked ≠ 0 ↔ (some rest).isSome = true ∧ w.writableCorked ≠ 0 := by simp
    cases accepted
    · exact (uncorkAll_counts (w := { w with writableNeedDrain := true }) rest ⟨h.calls, h.lengths⟩ hl).of_iff hiff
    · exact (uncorkAll_counts rest h hl).of_iff hiff

theorem Counts.seen (es : List (Event V)) (h : Counts inFlight lost b) :
    Counts inFlight lost { b with seen := es } := ⟨h.carried, h.level⟩

theorem acceptWrite_counts (chunk : Chunk V) (encoding : Option BufferEncoding) (callback : Bool) (rest : Option EndRest)
    (h : Carried w) (hl : Level w) :
    Counts w.outstandingLength (rest.isSome = true ∧ w.writableCorked ≠ 0)
      (w.acceptWrite ofString .writable chunk encoding callback rest) := by
  refine Counts.seen _ ?_
  split
  · refine writeRest_counts (w := { w with
        accepted := w.accepted + 1
        writeQueue := w.writeQueue ++ [⟨w.accepted, (w.decodeChunk ofString chunk encoding).1,
          (w.decodeChunk ofString chunk encoding).2, callback⟩]
        writableLength := w.writableLength +
          streamChunkLength w.writableObjectMode (w.decodeChunk ofString chunk encoding).1 })
      rest ⟨h.calls, h.lengths⟩ ?_
    unfold Level queuedLength outstandingLength at hl ⊢
    rw [map_append, sum_append]; simp only [map_cons, map_nil, sum_cons, sum_nil]; omega
  · next hc =>
    have h0 : w.writableCorked = 0 := by
      have hc' : ¬ 0 < w.writableCorked := hc; omega
    exact performWrite_counts (fun hlost => hlost.2 h0) _ _ ⟨h.calls, h.lengths⟩ hl

theorem refused_counts (error : WritableError) (h : Carried w) (hl : Level w) :
    Counts inFlight False (w.refused error) :=
  Counts.seen (b := { state := (w.errorOrDestroy error).1, seen := (w.errorOrDestroy error).2 }) _
    ((errorOrDestroy_mute error).counts id h hl)

theorem write_counts (chunk : Chunk V) (encoding : Option BufferEncoding) (callback : Bool) (h : Carried w) (hl : Level w) :
    Counts w.outstandingLength False (w.write ofString .writable chunk encoding callback) := by
  unfold write
  split
  · next error _ =>
    cases callback with
    | true => exact ⟨h, iff_of_true hl False.elim⟩
    | false => exact refused_counts error h hl
  · exact (acceptWrite_counts chunk encoding callback none h hl).of_iff (iff_of_false nofun id)

theorem callEnd_counts (chunk : Option (Chunk V)) (encoding : Option BufferEncoding) (done : Option Nat) (h : Carried w)
    (hl : Level w) :
    Counts w.outstandingLength (w.writableCorked ≠ 0) (w.callEnd ofString .writable chunk encoding done) := by
  unfold callEnd
  cases chunk with
  | none => exact uncorkAll_counts _ h hl
  | some chunk =>
    dsimp only
    split
    · next error _ =>
      have hm := (errorOrDestroy_mute (w := w) error).ledger
      have hu := uncorkAll_counts (w := (w.errorOrDestroy error).1) ⟨done, some error⟩ (h.of_ledger hm)
        ((Level.of_ledger hm).2 hl)
      have hc : (w.errorOrDestroy error).1.toWritableCore = w.toWritableCore := (errorOrDestroy_lifeStep error).core w
      have ho : (w.errorOrDestroy error).1.outstandingLength = w.outstandingLength := by
        unfold outstandingLength; rw [hc]
      rw [ho] at hu
      refine Counts.seen _ (hu.of_iff ?_)
      rw [hc]
    · exact (acceptWrite_counts chunk encoding false _ h hl).of_iff (by simp)

theorem Carried.split (ho : o ∈ w.outstanding) (h : Carried w) : w.outstandingLength =
    o.length + ((w.outstanding.filter (fun o' => o'.call != o.call)).map Outstanding.length).sum := by
  have hone : ∀ n, (w.outstanding.map Outstanding.call).count n ≤ 1 := by
    intro n
    have hc := h.calls n
    rw [count_range] at hc
    split at hc <;> omega
  have hlen := ((settled_perm ho hone).map Outstanding.length).sum_nat
  rw [map_cons, sum_cons] at hlen; exact hlen

theorem settle_level (ho : o ∈ w.outstanding) (h : Carried w) (hl : Level w) : Level { w with
      outstanding := w.outstanding.filter (fun o' => o'.call != o.call)
      writesInFlight := w.writesInFlight - 1
      writableLength := w.writableLength - o.length } := by
  have hsplit := h.split ho
  unfold Level outstandingLength queuedLength at hl ⊢
  unfold outstandingLength at hsplit
  dsimp only; omega

theorem completed_counts (error : Option WritableError) (h : Carried w) (hl : Level w) :
    Counts inFlight False (w.completed error) := by
  unfold completed
  cases error with
  | some error => exact (errorOrDestroy_mute error).counts id h hl
  | none =>
    dsimp only
    split
    · exact ⟨⟨h.calls, h.lengths⟩, iff_of_true hl False.elim⟩
    · split
      · exact callFinal_mute.counts id h hl
      · exact ⟨h, iff_of_true hl False.elim⟩

theorem written_counts (ho : o ∈ w.outstanding) (error : Option WritableError) (h : Carried w)
    (hl : Level w) : Counts inFlight False (w.written o error) := by
  have hlevel := settle_level ho h hl
  have hcarried : Carried { w with
      outstanding := w.outstanding.filter (fun o' => o'.call != o.call)
      writesInFlight := w.writesInFlight - 1
      writableLength := w.writableLength - o.length } := by
    refine ⟨fun n => ?_, fun o' ho' => h.lengths o' (mem_of_mem_filter ho')⟩
    exact Nat.le_trans ((filter_sublist.map _).count_le n) (h.calls n)
  unfold written
  split
  · exact ⟨hcarried, iff_of_true hlevel False.elim⟩
  · exact completed_counts error hcarried hlevel

theorem call_level {k : Call V} {c : Config (Writable V) (Frame V) (Event V)}
    (hb : c.state.call ofString .writable k = some b) (h : Carried c.state) (hl : Level c.state) :
    Counts c.state.outstandingLength (Uncorks c (.call k)) b := by
  cases k with
  | cork | setDefaultEncoding encoding | readableEnd => cases hb; exact ⟨⟨h.calls, h.lengths⟩, iff_of_true hl False.elim⟩
  | uncork => cases hb; exact uncork_counts h hl
  | write chunk encoding callback => cases hb; exact write_counts chunk encoding callback h hl
  | callEnd chunk encoding done => cases hb; exact callEnd_counts chunk encoding done h hl
  | destroy error => cases hb; exact (destroy_mute error).counts id h hl
  | written n error =>
    obtain ⟨o, ho, rfl⟩ := Option.map_eq_some_iff.1 hb; exact written_counts (mem_of_find?_eq_some ho) error h hl
  | finalized error =>
    unfold call at hb
    dsimp only at hb
    split at hb
    · cases hb; exact (finalized_mute error).counts id h hl
    · cases hb

open Writable.Frame

theorem goOn_counts {f : Frame V} (hf : f.isIndexed = false) (h : Carried w) (hl : Level w) :
    Counts w.outstandingLength (w.writableCorked ≠ 0 ∧ f.uncorksNext = true) (w.goOn .writable f) := by
  cases f with
  | writing rest =>
    refine (writeRest_counts rest h hl).of_iff ?_
    cases rest <;> simp [uncorksNext]
  | flushing flush rest =>
    cases flush with
    | indexed index queued => cases hf
    | taken queue =>
      cases queue with
      | cons entry queue => exact performWrite_counts (by simp [uncorksNext]) entry _ h hl
      | nil =>
        cases rest with
        | none => exact ⟨h, iff_of_true hl (by simp [uncorksNext])⟩
        | some rest => exact (uncorkAll_counts rest h hl).of_iff (by simp [uncorksNext])
  | refusing error => exact (refused_counts error h hl).of_iff (by simp [uncorksNext])
  | completing error => exact (completed_counts error h hl).of_iff (by simp [uncorksNext])
  | draining =>
    unfold goOn
    dsimp only
    split
    · exact callFinal_mute.counts (by simp [uncorksNext]) h hl
    · exact ⟨h, iff_of_true hl (by simp [uncorksNext])⟩
  | final => exact ⟨h, iff_of_true hl (by simp [uncorksNext])⟩

/-! ## Runs -/

/-- **The invariant** of a `Writable`. -/
structure Tally (c : Config (Writable V) (Frame V) (Event V)) : Prop where
  carried : Carried c.state
  level : Level c.state
  frames : ∀ f ∈ c.stack, f.isIndexed = false
  tidy : c.state.Tidy

variable {c c' u d : Config (Writable V) (Frame V) (Event V)} {l : Move (Call V)}

theorem Tally.counts (h : Tally c) (hst : (program ofString .writable).step c l = some c') :
    Carried c'.state ∧ (Level c'.state ↔ (Uncorks c l → c.state.outstandingLength = 0)) := by
  cases l with
  | call k =>
    obtain ⟨-, b, hb, rfl⟩ := Reentrant.step_call hst
    have hc := call_level hb h.carried h.level; exact ⟨hc.carried, hc.level⟩
  | ret =>
    obtain ⟨f, fs, hs, rfl⟩ := Reentrant.step_ret hst
    have hc := goOn_counts (h.frames f (by simp [hs])) h.carried h.level
    refine ⟨hc.carried, hc.level.trans ?_⟩
    have hiff : Uncorks c (.ret : Move (Call V)) ↔ c.state.writableCorked ≠ 0 ∧ f.uncorksNext = true := by
      unfold Uncorks; simp [hs]
    rw [hiff]

theorem Tally.step (h : Tally c) (hP : Uncorks c l → c.state.outstandingLength = 0)
    (hst : (program ofString .writable).step c l = some c') : Tally c' := by
  obtain ⟨hcarried, hlevel⟩ := h.counts hst
  cases l with
  | call k =>
    obtain ⟨-, b, hb, rfl⟩ := Reentrant.step_call hst
    obtain ⟨extra, hc, -⟩ := call_carries h.tidy hb
    exact ⟨hcarried, hlevel.2 hP, fun f hf => (mem_append.1 hf).elim (hc.frames f) (h.frames f), hc.tidy⟩
  | ret =>
    obtain ⟨f, fs, hs, rfl⟩ := Reentrant.step_ret hst
    have hc := goOn_carries (h.frames f (by simp [hs])) h.tidy
    exact ⟨hcarried, hlevel.2 hP, fun g hg => (mem_append.1 hg).elim (hc.frames g) (fun hm => h.frames g (by simp [hs, hm])),
      hc.tidy⟩

theorem Carried.outEntries (h : Carried w) : w.queuedLength w.outEntries = w.outstandingLength := by
  obtain ⟨-, hl⟩ := h
  unfold queuedLength Writable.outEntries outstandingLength
  generalize w.outstanding = os at hl
  induction os with
  | nil => rfl
  | cons o os ih =>
    obtain ⟨e, he, hlen⟩ := hl o mem_cons_self
    rw [filterMap_cons, he]
    simp only [map_cons, sum_cons, ← hlen, ih (fun o ho => hl o (mem_cons_of_mem _ ho))]

theorem exact_iff (h : Carried c.state) : Exact .writable c ↔ Level c.state := by
  have ho := h.outEntries
  have hp : c.state.queuedLength (pendingEntries .writable c) = c.state.outstandingLength +
      (c.state.queuedLength (c.stack.flatMap entries) + c.state.queuedLength c.state.writeQueue) := by
    rw [← ho]; exact (queuedLength_append _ _).trans (congrArg _ (queuedLength_append _ _))
  unfold Exact Level flushEntries
  rw [hp]
  dsimp only; omega

/-! ## Both classes -/

theorem Sim.flushEntries (h : Sim u d) : flushEntries .writable u = flushEntries .duplex d := by
  have hw := h.waiting
  obtain ⟨b, hs, hq⟩ := h.queues
  unfold Writable.flushEntries
  rw [hs.flag]
  cases b with
  | false => exact hs.no_flush.2
  | true => rw [hq] at hw; exact (append_nil _).symm.trans hw

theorem Sim.exact (h : Sim u d) : Exact .writable u ↔ Exact .duplex d := by
  have hp : pendingEntries .writable u = pendingEntries .duplex d := by
    unfold pendingEntries Writable.outEntries; rw [h.state.core]; exact congrArg _ h.waiting
  unfold Exact queuedLength; rw [h.flushEntries, hp, h.state.core]

theorem Sim.uncorks (h : Sim u d) : Uncorks u l ↔ Uncorks d l := by
  have hc : u.state.writableCorked = d.state.writableCorked := congrArg (·.writableCorked) h.state.core
  obtain ⟨b, hs, -⟩ := h.queues
  match l with
  | .call .uncork | .call (.callEnd _ _ _) => unfold Uncorks; rw [hc]
  | .ret =>
    unfold Uncorks
    rw [hc]
    refine and_congr_right (fun _ => ?_)
    generalize u.stack = us at hs
    generalize d.stack = ds at hs
    cases hs with
    | nil | same _ _ => simp
    | @flush _ _ i rest _ =>
      have hiff : (flushing (.taken (d.state.writeQueue.drop i)) rest).uncorksNext =
          (flushing (.indexed i d.state.writeQueue.length) rest : Frame V).uncorksNext := by
        cases rest with
        | none =>
          cases d.state.writeQueue.drop i <;> rfl
        | some rest =>
          by_cases hi : d.state.writeQueue.length ≤ i
          · rw [drop_eq_nil_of_le hi]; simp [uncorksNext, hi]
          · rw [drop_eq_getElem_cons (by omega)]; simp [uncorksNext, hi]
      simp [hiff]
  | .call (.write _ _ _) | .call .cork | .call (.destroy _) | .call (.setDefaultEncoding _) | .call (.written _ _) |
    .call (.finalized _) | .call .readableEnd => exact Iff.rfl

theorem Sim.outstandingLength (h : Sim u d) : u.state.outstandingLength = d.state.outstandingLength := by
  unfold Writable.outstandingLength; rw [h.state.core]

section

variable {objectMode autoDestroy decodeStrings : Bool} {highWaterMark : Nat} {defaultEncoding : BufferEncoding}
  {ls : List (Move (Call V))}

theorem create_tally : Tally (create objectMode highWaterMark autoDestroy decodeStrings defaultEncoding :
    Config (Writable V) (Frame V) (Event V)) :=
  ⟨⟨fun _ => Nat.le_refl _, forall_mem_nil _⟩, rfl, forall_mem_nil _, fun _ => rfl⟩

theorem tally_run (h : Run (program ofString kind).step (Clear kind)
      (create objectMode highWaterMark autoDestroy decodeStrings defaultEncoding) ls c) :
    ∃ u, Tally u ∧ u.state.toWritableCore = c.state.toWritableCore ∧ (Exact .writable u ↔ Exact kind c) ∧
      ∀ l c', (kind = .duplex → Proper c l) → (program ofString kind).step c l = some c' →
        ∃ u', (program ofString .writable).step u l = some u' ∧ (Exact .writable u' ↔ Exact kind c') ∧
          (Uncorks u l ↔ Uncorks c l) := by
  have hfrom : ∀ u, Run (program ofString .writable).step (fun c l => Uncorks c l → c.state.outstandingLength = 0)
      (create objectMode highWaterMark autoDestroy decodeStrings defaultEncoding) ls u → Tally u :=
    fun u hu => hu.invariant (fun _ _ _ hI hP hst => hI.step hP hst) create_tally
  cases kind with
  | writable =>
    exact ⟨c, hfrom c (h.mono (fun _ _ h => h.2)), rfl, Iff.rfl, fun _ c' _ hst => ⟨c', hst, Iff.rfl, Iff.rfl⟩⟩
  | duplex =>
    obtain ⟨u, hu, hR⟩ := follows (Q := fun c l => Uncorks c l → c.state.outstandingLength = 0) (fun _ _ hP => hP.1 rfl)
      (fun _ _ _ hR hP hun => hR.outstandingLength.trans (hP.2 (hR.uncorks.1 hun))) h
    refine ⟨u, hfrom u hu, hR.state.core, hR.exact, fun l c' hproper hst => ?_⟩
    obtain ⟨u', hu', hR'⟩ := step_sim hR (hproper rfl) hst; exact ⟨u', hu', hR'.exact, hR.uncorks⟩

end

instance (c : Config (Writable V) (Frame V) (Event V)) : DecidablePred (Uncorks c)
  | .call .uncork | .call (.callEnd _ _ _) => by
    unfold Uncorks
    infer_instance
  | .ret => decidable_of_iff (c.state.writableCorked ≠ 0 ∧ (c.stack.head?.any Frame.uncorksNext) = true) (by
      unfold Uncorks
      cases c.stack <;> simp)
  | .call (.write _ _ _) | .call .cork | .call (.destroy _) | .call (.setDefaultEncoding _) | .call (.written _ _) |
    .call (.finalized _) | .call .readableEnd => isFalse id

end NodeCompat.Stream.Writable
