import NodeCompat.Stream.Carried

/-!
# The writable side of a `Duplex` against a `Writable`

The two are driven by the same moves and stay in step (`Sim`): their counters and flags are the same until `'finish'`, after
which only the lifetime may differ, and so are their frames, except that a flush of the one holds the entries it took and
a flush of the other a place in its queue. For that the queue of the `Duplex` must not change while it is walked: in a flush,
nothing is queued and no other flush is started (`Proper`).
-/

namespace NodeCompat.Stream.Writable

open List Option

variable {V : Type} {ofString : BufferEncoding → List UInt16 → Bytes}

/-- The frames of the two, when the queue of the `Duplex` is `q`; the flag says whether a flush is under way. -/
inductive Stacks (q : List (Entry V)) : Bool → List (Frame V) → List (Frame V) → Prop
  | nil : Stacks q false [] []
  | same {b ws ds} {f : Frame V} : f.isFlush = false → Stacks q b ws ds → Stacks q b (f :: ws) (f :: ds)
  | flush {ws ds} {i : Nat} {rest : Option EndRest} : Stacks q false ws ds →
      Stacks q true (.flushing (.taken (q.drop i)) rest :: ws) (.flushing (.indexed i q.length) rest :: ds)

/-- Frames and queues together. -/
def Queues (w d : Writable V) (ws ds : List (Frame V)) (b : Bool) : Prop :=
  Stacks d.writeQueue b ws ds ∧ w.writeQueue = if b then [] else d.writeQueue

/-- `_final` is called once, after `end`. -/
structure FinalOnce (c : WritableCore V) : Prop where
  pending : c.finalPending = true → c.writableEnded = true ∧ c.finalOutstanding = false ∧ c.writableFinished = false
  outstanding : c.finalOutstanding = true → c.writableEnded = true ∧ c.writableFinished = false
  finished : c.writableFinished = true → c.writableEnded = true

structure SimState (w d : Writable V) : Prop where
  core : w.toWritableCore = d.toWritableCore
  life : d.writableFinished = false → w.toLifetime = d.toLifetime
  final : FinalOnce d.toWritableCore

/-- Two blocks that leave the two in step. -/
structure SimBlock (bw bd : Result V) (ws ds : List (Frame V)) : Prop where
  state : SimState bw.state bd.state
  queues : ∃ b, Queues bw.state bd.state (bw.frames ++ ws) (bd.frames ++ ds) b
  seen : observed bw.seen = observed bd.seen

structure Sim (w d : Config (Writable V) (Frame V) (Event V)) : Prop where
  state : SimState w.state d.state
  queues : ∃ b, Queues w.state d.state w.stack d.stack b
  trace : observed w.trace = observed d.trace

variable {w d : Writable V} {ws ds : List (Frame V)}

theorem Stacks.of_false {q q' : List (Entry V)} (h : Stacks q false ws ds) : Stacks q' false ws ds := by
  generalize hb : false = b at h
  induction h with
  | nil => exact .nil
  | same hf _ ih => exact .same hf (ih hb)
  | flush => cases hb

theorem Sim.onto {bw bd : Result V} {tw td : List (Event V)} (ht : observed tw = observed td) (h : SimBlock bw bd ws ds) :
    Sim (bw.onto ws tw) (bd.onto ds td) := by
  refine ⟨h.state, h.queues, ?_⟩
  simp only [Block.onto_trace, observed_append, ht, h.seen]

/-! ## What only concerns the lifetime -/

theorem LifeStep.state {f : Writable V → Writable V × List (Event V)} (hf : LifeStep f) (h : SimState w d) :
    SimState (f w).1 (f d).1 := by
  refine ⟨?_, fun hn => ?_, ?_⟩
  · rw [hf.core, hf.core, h.core]
  · rw [hf.core] at hn; exact hf.life w d h.core (h.life hn)
  · rw [hf.core]; exact h.final

theorem LifeStep.queues {f : Writable V → Writable V × List (Event V)} {b : Bool} (hf : LifeStep f)
    (h : Queues w d ws ds b) : Queues (f w).1 (f d).1 ws ds b := by
  unfold Queues; rw [hf.queue, hf.queue]; exact h

/-! ## The methods -/

variable {b : Bool}

variable {f : Frame V} {q : List (Entry V)} {bd : Result V}

variable (done : Option Nat)

theorem Stacks.flag (h : Stacks q b ws ds) : ds.any Frame.isFlush = b := by
  induction h with
  | nil | flush => rfl
  | same hf _ ih => simp [hf, ih]

theorem SimBlock.of_state (es es' : List (Event V)) (hs : observed es = observed es') (h : SimState w d)
    (hq : Queues w d ws ds b) : SimBlock { state := w, seen := es } { state := d, seen := es' } ws ds :=
  ⟨h, ⟨b, hq⟩, hs⟩

theorem Queues.push (hf : f.isFlush = false) (h : Queues w d ws ds b) :
    Queues w d (f :: ws) (f :: ds) b := ⟨.same hf h.1, h.2⟩

theorem performWrite_sim (entry : Option (Entry V)) {fw fd : Frame V} (h : SimState w d)
    (hq : Queues w d (fw :: ws) (fd :: ds) b) :
    SimBlock (w.performWrite entry fw) (d.performWrite entry fd) ws ds := by
  refine ⟨⟨?_, h.life, ⟨h.final.pending, h.final.outstanding, h.final.finished⟩⟩, ⟨b, hq⟩, rfl⟩
  simp only [performWrite, h.core]

theorem callFinal_sim (he : d.writableEnded = true) (hn : d.writableFinished = false) (h : SimState w d)
    (hq : Queues w d ws ds b) : SimBlock w.callFinal d.callFinal ws ds := by
  have hl := h.life hn
  unfold callFinal
  simp only [hl]
  split
  · refine .of_state _ _ rfl ⟨?_, fun _ => rfl, nofun, h.final.outstanding, h.final.finished⟩ hq
    simp only [h.core]
  · refine ⟨⟨?_, fun _ => rfl, nofun, fun _ => ⟨he, hn⟩, h.final.finished⟩, ⟨b, hq.push rfl⟩, rfl⟩
    simp only [h.core]

theorem awaitFinish_sim (h : SimState w d) : SimState (w.awaitFinish done) (d.awaitFinish done) := by
  cases done with
  | none => exact h
  | some callback =>
    refine ⟨h.core, fun hn => ?_, h.final⟩
    have hl := h.life hn; simp only [awaitFinish, hl]

theorem awaitFinish_queues (hq : Queues w d ws ds b) :
    Queues (w.awaitFinish done) (d.awaitFinish done) ws ds b := by
  cases done <;> exact hq

@[simp] theorem awaitFinish_core : (w.awaitFinish done).toWritableCore = w.toWritableCore := by
  cases done <;> rfl

theorem FinalOnce.idle {c : WritableCore V} (h : FinalOnce c) (he : c.writableEnded = false) :
    c.finalPending = false ∧ c.finalOutstanding = false ∧ c.writableFinished = false := by
  refine ⟨Bool.eq_false_iff.2 (fun hp => ?_), Bool.eq_false_iff.2 (fun ho => ?_), Bool.eq_false_iff.2 (fun hf => ?_)⟩
  · exact absurd (h.pending hp).1 (Bool.eq_false_iff.1 he)
  · exact absurd (h.outstanding ho).1 (Bool.eq_false_iff.1 he)
  · exact absurd (h.finished hf) (Bool.eq_false_iff.1 he)

theorem afterEnd_sim (he : d.writableEnded = true) (ho : d.finalOutstanding = false) (hn : d.writableFinished = false)
    (h : SimState w d) (hq : Queues w d ws ds b) :
    SimBlock
      (if w.destroyed then { state := w }
        else if 0 < w.writesInFlight then { state := { w with finalPending := true } } else w.callFinal)
      (if d.destroyed then { state := d }
        else if 0 < d.writesInFlight then { state := { d with finalPending := true } } else d.callFinal) ws ds := by
  have hd : w.destroyed = d.destroyed := congrArg (·.destroyed) (h.life hn)
  have hf : w.writesInFlight = d.writesInFlight := congrArg (·.writesInFlight) h.core
  rw [hd, hf]
  split
  · exact .of_state _ _ rfl h hq
  · split
    · refine .of_state _ _ rfl ⟨?_, h.life, fun _ => ⟨he, ho, hn⟩, h.final.outstanding, h.final.finished⟩ hq
      simp only [h.core]
    · exact callFinal_sim he hn h hq

theorem firstEnd_sim (he : d.writableEnded = false) (h : SimState w d) (hq : Queues w d ws ds b) :
    SimBlock (w.firstEnd done) (d.firstEnd done) ws ds := by
  obtain ⟨hfp, hfo, hn⟩ := h.final.idle he
  have h' : SimState ({ w with writableEnded := true }) ({ d with writableEnded := true }) := by
    refine ⟨?_, h.life, fun hp => ?_, fun ho => ?_, fun _ => rfl⟩
    · simp only [h.core]
    · simp [hfp] at hp
    · simp [hfo] at ho
  refine afterEnd_sim ?_ ?_ ?_ (awaitFinish_sim done h') (awaitFinish_queues done hq)
  · simp
  · simpa using hfo
  · simpa using hn

theorem endRest_sim (rest : EndRest) (h : SimState w d) (hq : Queues w d ws ds b) :
    SimBlock (w.endRest rest) (d.endRest rest) ws ds := by
  have hf : w.writableFinished = d.writableFinished := congrArg (·.writableFinished) h.core
  have he : w.writableEnded = d.writableEnded := congrArg (·.writableEnded) h.core
  unfold endRest
  cases rest.rejected with
  | some error => exact .of_state _ _ rfl h hq
  | none =>
    dsimp only
    cases hn : d.writableFinished with
    | true =>
      have hend := h.final.finished hn
      rw [hf, he]
      simp only [hn, hend, Bool.true_eq_false, and_false, if_false, if_true]
      exact .of_state _ _ rfl h hq
    | false =>
      have hd : w.destroyed = d.destroyed := congrArg (·.destroyed) (h.life hn)
      have hr : w.errored = d.errored := congrArg (·.errored) (h.life hn)
      rw [hf, he, hd, hr, hn]
      split
      · next hc => exact firstEnd_sim rest.done hc.2 h hq
      · simp only [Bool.false_eq_true, if_false]
        split
        · exact .of_state _ _ rfl h hq
        · split
          · exact .of_state _ _ rfl h hq
          · exact .of_state _ _ rfl (awaitFinish_sim rest.done h) (awaitFinish_queues rest.done hq)

theorem flush_sim (rest : Option EndRest) (h : SimState w d) (hq : Queues w d ws ds false) :
    SimBlock (w.flush .writable rest) (d.flush .duplex rest) ws ds := by
  have hqq : w.writeQueue = d.writeQueue := hq.2
  unfold flush takeQueue walkQueue
  rw [hqq]
  cases hw : d.writeQueue with
  | nil =>
    have h' : SimState ({ w with writableLength := 0, writeQueue := [] })
        ({ d with writableLength := 0, writeQueue := [] }) := by
      refine ⟨?_, h.life, h.final.pending, h.final.outstanding, h.final.finished⟩
      simp only [h.core]
    have hq' : Queues ({ w with writableLength := 0, writeQueue := [] })
        ({ d with writableLength := 0, writeQueue := [] }) ws ds false := ⟨hq.1.of_false, rfl⟩
    cases rest with
    | none => exact .of_state _ _ rfl h' hq'
    | some rest => exact endRest_sim rest h' hq'
  | cons entry queue =>
    have h' : SimState ({ w with writableLength := 0, writeQueue := [] }) ({ d with writableLength := 0 }) := by
      refine ⟨?_, h.life, h.final.pending, h.final.outstanding, h.final.finished⟩
      simp only [h.core]
    have hs : Stacks d.writeQueue true (.flushing (.taken queue) rest :: ws)
        (.flushing (.indexed 1 (queue.length + 1)) rest :: ds) := by
      rw [hw]; exact .flush (i := 1) hq.1.of_false
    have hp := performWrite_sim (some entry) h' (b := true) ⟨hs, rfl⟩; simpa [hw] using hp

theorem uncork_sim (hc : b = true → d.writableCorked ≠ 1) (h : SimState w d) (hq : Queues w d ws ds b) :
    SimBlock (w.uncork .writable) (d.uncork .duplex) ws ds := by
  have hcc : w.writableCorked = d.writableCorked := congrArg (·.writableCorked) h.core
  have h' : SimState ({ w with writableCorked := w.writableCorked - 1 }) ({ d with writableCorked := d.writableCorked - 1 }) := by
    refine ⟨?_, h.life, h.final.pending, h.final.outstanding, h.final.finished⟩
    simp only [h.core]
  unfold uncork
  dsimp only
  rw [hcc] at h' ⊢
  split
  · exact .of_state _ _ rfl h hq
  · split
    · exact .of_state _ _ rfl h' hq
    · next h0 h1 =>
      have hb : b = false := Bool.eq_false_iff.2 (fun hb => hc hb (by omega))
      subst hb; exact flush_sim none h' hq

theorem uncorkAll_sim (rest : EndRest) (hc : b = true → d.writableCorked = 0) (h : SimState w d)
    (hq : Queues w d ws ds b) : SimBlock (w.uncorkAll .writable rest) (d.uncorkAll .duplex rest) ws ds := by
  have hcc : w.writableCorked = d.writableCorked := congrArg (·.writableCorked) h.core
  have h' : SimState ({ w with writableCorked := 0 }) ({ d with writableCorked := 0 }) := by
    refine ⟨?_, h.life, h.final.pending, h.final.outstanding, h.final.finished⟩
    simp only [h.core]
  unfold uncorkAll
  rw [hcc]
  split
  · exact endRest_sim rest h hq
  · next h0 =>
    have hb : b = false := Bool.eq_false_iff.2 (fun hb => h0 (hc hb))
    subst hb; exact flush_sim (some rest) h' hq

theorem writeRest_sim (rest : Option EndRest) (hc : rest ≠ none → b = true → d.writableCorked = 0) (h : SimState w d)
    (hq : Queues w d ws ds b) : SimBlock (w.writeRest .writable rest) (d.writeRest .duplex rest) ws ds := by
  obtain ⟨core, lw, qw, rw⟩ := w
  obtain ⟨core', ld, qd, rd⟩ := d
  obtain rfl : core = core' := h.core
  have h' : SimState (V := V) ⟨{ core with writableNeedDrain := true }, lw, qw, rw⟩
      ⟨{ core with writableNeedDrain := true }, ld, qd, rd⟩ :=
    ⟨rfl, h.life, h.final.pending, h.final.outstanding, h.final.finished⟩
  unfold writeRest
  generalize decide (core.writableLength < core.writableHighWaterMark) = accepted
  cases rest with
  | none =>
    cases accepted
    · exact .of_state _ _ rfl h' hq
    · exact .of_state _ _ rfl h hq
  | some rest =>
    cases accepted
    · exact uncorkAll_sim rest (hc nofun) h' hq
    · exact uncorkAll_sim rest (hc nofun) h hq

theorem SimBlock.seen_cons {bw : Result V} (e : Event V) (h : SimBlock bw bd ws ds) :
    SimBlock { bw with seen := e :: bw.seen } { bd with seen := e :: bd.seen } ws ds := by
  refine ⟨h.state, h.queues, ?_⟩
  have hs := h.seen
  unfold observed at hs ⊢; simp only [filter_cons, hs]

theorem SimBlock.seen_unobserved {bw : Result V} {ew ed : List (Event V)} (hw : observed ew = []) (hd : observed ed = [])
    (h : SimBlock bw bd ws ds) :
    SimBlock { bw with seen := ew ++ bw.seen } { bd with seen := ed ++ bd.seen } ws ds := by
  refine ⟨h.state, h.queues, ?_⟩
  simp only [observed_append, hw, hd, h.seen]

theorem acceptWrite_sim (chunk : Chunk V) (encoding : Option BufferEncoding) (callback : Bool) (rest : Option EndRest)
    (hc : b = true → d.writableCorked = 0) (h : SimState w d) (hq : Queues w d ws ds b) :
    SimBlock (w.acceptWrite ofString .writable chunk encoding callback rest)
      (d.acceptWrite ofString .duplex chunk encoding callback rest) ws ds := by
  obtain ⟨core, lw, qw, rw⟩ := w
  obtain ⟨core', ld, qd, rd⟩ := d
  obtain rfl : core = core' := h.core
  refine SimBlock.seen_cons _ ?_
  dsimp only
  split
  · next hpos =>
    have hb : b = false := by
      refine Bool.eq_false_iff.2 (fun hb => ?_)
      have h0 : core.writableCorked = 0 := hc hb
      omega
    subst hb
    obtain rfl : qw = qd := hq.2
    refine writeRest_sim (b := false) rest (fun _ hb => by cases hb) ⟨rfl, h.life, h.final.pending, h.final.outstanding, h.final.finished⟩
      ⟨hq.1.of_false, rfl⟩
  · exact performWrite_sim _ (b := b) ⟨rfl, h.life, h.final.pending, h.final.outstanding, h.final.finished⟩ (hq.push rfl)

theorem refused_sim (error : WritableError) (h : SimState w d) (hq : Queues w d ws ds b) :
    SimBlock (w.refused error) (d.refused error) ws ds := by
  have hl := errorOrDestroy_lifeStep (V := V) error
  refine .of_state _ _ ?_ (hl.state h) (hl.queues hq)
  simp only [observed_append, hl.seen]

theorem rejectWrite_sim (h : SimState w d) : w.rejectWrite = d.rejectWrite := by
  have he : w.writableEnded = d.writableEnded := congrArg (·.writableEnded) h.core
  unfold rejectWrite
  cases hn : d.writableFinished with
  | true => have hend := h.final.finished hn; simp [he, hend]
  | false => have hd : w.destroyed = d.destroyed := congrArg (·.destroyed) (h.life hn); rw [he, hd]

theorem write_sim (chunk : Chunk V) (encoding : Option BufferEncoding) (callback : Bool)
    (hc : b = true → d.rejectWrite = none → d.writableCorked = 0) (h : SimState w d) (hq : Queues w d ws ds b) :
    SimBlock (w.write ofString .writable chunk encoding callback) (d.write ofString .duplex chunk encoding callback)
      ws ds := by
  unfold write
  rw [rejectWrite_sim h]
  cases hr : d.rejectWrite with
  | some error =>
    cases callback with
    | true => exact ⟨h, ⟨b, hq.push rfl⟩, rfl⟩
    | false => exact refused_sim error h hq
  | none => exact acceptWrite_sim chunk encoding callback none (fun hb => hc hb hr) h hq

theorem callEnd_sim (chunk : Option (Chunk V)) (encoding : Option BufferEncoding) (done : Option Nat)
    (hc : b = true → d.writableCorked = 0) (h : SimState w d) (hq : Queues w d ws ds b) :
    SimBlock (w.callEnd ofString .writable chunk encoding done) (d.callEnd ofString .duplex chunk encoding done) ws ds := by
  unfold callEnd
  cases chunk with
  | none => exact uncorkAll_sim _ hc h hq
  | some chunk =>
    rw [rejectWrite_sim h]
    cases hr : d.rejectWrite with
    | none => exact acceptWrite_sim chunk encoding false _ hc h hq
    | some error =>
      have hl := errorOrDestroy_lifeStep (V := V) error
      refine SimBlock.seen_unobserved (hl.seen w) (hl.seen d) (uncorkAll_sim _ (fun hb => ?_) (hl.state h) (hl.queues hq))
      rw [hl.core]; exact hc hb

theorem completed_sim (error : Option WritableError) (h : SimState w d) (hq : Queues w d ws ds b) :
    SimBlock (w.completed error) (d.completed error) ws ds := by
  unfold completed
  cases error with
  | some error =>
    have hl := errorOrDestroy_lifeStep (V := V) error
    exact .of_state _ _ (by rw [hl.seen, hl.seen]) (hl.state h) (hl.queues hq)
  | none =>
    obtain ⟨core, lw, qw, rw⟩ := w
    obtain ⟨core', ld, qd, rd⟩ := d
    obtain rfl : core = core' := h.core
    dsimp only
    split
    · exact ⟨⟨rfl, h.life, h.final.pending, h.final.outstanding, h.final.finished⟩, ⟨b, hq.push rfl⟩, rfl⟩
    · split
      · next hp =>
        obtain ⟨he, -, hn⟩ := h.final.pending (by simpa using (Bool.and_eq_true_iff.1 hp).1); exact callFinal_sim he hn h hq
      · exact .of_state _ _ rfl h hq

theorem draining_sim (h : SimState w d) (hq : Queues w d ws ds b) :
    SimBlock (w.goOn .writable .draining) (d.goOn .duplex .draining) ws ds := by
  obtain ⟨core, lw, qw, rw⟩ := w
  obtain ⟨core', ld, qd, rd⟩ := d
  obtain rfl : core = core' := h.core
  unfold goOn
  dsimp only
  split
  · next hp =>
    obtain ⟨he, -, hn⟩ := h.final.pending (by simpa using (Bool.and_eq_true_iff.1 hp).1); exact callFinal_sim he hn h hq
  · exact .of_state _ _ rfl h hq

theorem written_sim (o : Outstanding V) (error : Option WritableError) (h : SimState w d) (hq : Queues w d ws ds b) :
    SimBlock (w.written o error) (d.written o error) ws ds := by
  obtain ⟨core, lw, qw, rw⟩ := w
  obtain ⟨core', ld, qd, rd⟩ := d
  obtain rfl : core = core' := h.core
  unfold written
  split
  · exact ⟨⟨rfl, h.life, h.final.pending, h.final.outstanding, h.final.finished⟩, ⟨b, hq.push rfl⟩, rfl⟩
  · exact completed_sim error (b := b) ⟨rfl, h.life, h.final.pending, h.final.outstanding, h.final.finished⟩ hq

theorem finished_sim {ew ed : List (Event V)} {w' d' : Writable V} (hw : w'.toWritableCore = w.toWritableCore)
    (hd : d'.toWritableCore = d.toWritableCore) (hqw : w'.writeQueue = w.writeQueue) (hqd : d'.writeQueue = d.writeQueue)
    (hf : d.writableFinished = true) (hew : observed ew = observed ed) (h : SimState w d) (hq : Queues w d ws ds b) :
    SimBlock { state := w', seen := ew } { state := d', seen := ed } ws ds := by
  refine .of_state (b := b) _ _ hew ⟨?_, fun hn => ?_, ?_⟩ ?_
  · rw [hw, hd, h.core]
  · rw [hd, hf] at hn; cases hn
  · rw [hd]; exact h.final
  · unfold Queues; rw [hqw, hqd]; exact hq

theorem finalized_sim (error : Option WritableError) (ho : d.finalOutstanding = true) (h : SimState w d)
    (hq : Queues w d ws ds b) : SimBlock (w.finalized .writable error) (d.finalized .duplex error) ws ds := by
  obtain ⟨he, hn⟩ := h.final.outstanding ho
  have hfp : d.finalPending = false := by
    refine Bool.eq_false_iff.2 (fun hp => ?_)
    simp [(h.final.pending hp).2.1] at ho
  have h' : SimState ({ w with finalOutstanding := false }) ({ d with finalOutstanding := false }) := by
    refine ⟨?_, h.life, fun hp => ?_, nofun, h.final.finished⟩
    · simp only [h.core]
    · simp [hfp] at hp
  cases error with
  | some error =>
    have hs := settleFinish_lifeStep (V := V) (some error)
    have hl := errorOrDestroy_lifeStep (V := V) error
    refine .of_state (b := b) _ _ ?_ (hl.state (hs.state h')) (hl.queues (hs.queues hq))
    simp only [observed_append]; rw [hs.seen, hs.seen, hl.seen, hl.seen]
  | none =>
    have hs := settleFinish_lifeStep (V := V) none
    have h₁ : SimState ({ w with finalOutstanding := false, writableFinished := true })
        ({ d with finalOutstanding := false, writableFinished := true }) := by
      refine ⟨?_, nofun, fun hp => ?_, nofun, fun _ => he⟩
      · simp only [h.core]
      · simp [hfp] at hp
    have hw := over_lifeStep (V := V) w.autoDestroy
    have hd := over_lifeStep (V := V) (d.autoDestroy && d.readableEnded)
    refine finished_sim (b := b) ((hw.core _).trans (hs.core _)) ((hd.core _).trans (hs.core _))
      ((hw.queue _).trans (hs.queue _)) ((hd.queue _).trans (hs.queue _)) rfl ?_ h₁ hq
    rw [observed_append, observed_append]
    have hfin : ∀ es : List (Event V), observed es = [] → observed (.finish :: es) = [.finish] := by
      intro es hes; exact congrArg (List.cons .finish) hes
    rw [hfin _ (hw.seen _), hfin _ (hd.seen _)]
    exact congrArg (· ++ [.finish]) ((hs.seen _).trans (hs.seen _).symm)

/-! ## The moves -/

/-- Nothing is queued while a flush walks the queue, and no other flush is started. -/
def Proper (c : Config (Writable V) (Frame V) (Event V)) : Move (Call V) → Prop
  | .call .uncork => c.stack.any Frame.isFlush = true → c.state.writableCorked ≠ 1
  | .call (.write _ _ _) =>
    c.stack.any Frame.isFlush = true → c.state.rejectWrite = none → c.state.writableCorked = 0
  | .call (.callEnd _ _ _) => c.stack.any Frame.isFlush = true → c.state.writableCorked = 0
  | .ret =>
    -- an `end` that has written its chunk goes on
    ∀ rest fs, c.stack = .writing (some rest) :: fs → fs.any Frame.isFlush = true → c.state.writableCorked = 0
  | _ => True

theorem call_sim {c : Config (Writable V) (Frame V) (Event V)} {k : Call V}
    (hb : c.state.call ofString .duplex k = some bd) (hP : Proper c (.call k)) (h : SimState w c.state)
    (hq : Queues w c.state ws c.stack b) :
    ∃ bw, w.call ofString .writable k = some bw ∧ SimBlock bw bd ws c.stack := by
  have hflag : b = true → c.stack.any Frame.isFlush = true := by intro hb; rw [hq.1.flag, hb]
  cases k with
  | cork | setDefaultEncoding encoding =>
    cases hb
    refine ⟨_, rfl, .of_state _ _ rfl ⟨?_, h.life, h.final.pending, h.final.outstanding, h.final.finished⟩ hq⟩
    simp only [h.core]
  | uncork => cases hb; exact ⟨_, rfl, uncork_sim (fun hb => hP (hflag hb)) h hq⟩
  | write chunk encoding callback =>
    cases hb; exact ⟨_, rfl, write_sim chunk encoding callback (fun hb => hP (hflag hb)) h hq⟩
  | callEnd chunk encoding done =>
    cases hb; exact ⟨_, rfl, callEnd_sim chunk encoding done (fun hb => hP (hflag hb)) h hq⟩
  | destroy error =>
    cases hb
    have hl := destroy_lifeStep (V := V) error
    refine ⟨_, rfl, .of_state _ _ ?_ (hl.state h) (hl.queues hq)⟩
    exact (hl.seen _).trans (hl.seen _).symm
  | written n error =>
    obtain ⟨o, ho, rfl⟩ := map_eq_some_iff.1 hb
    refine ⟨w.written o error, ?_, written_sim o error h hq⟩
    have ho' : w.outstanding.find? (fun o => o.call == n) = some o := by rw [h.core]; exact ho
    simp only [call, ho', map_some]
  | finalized error =>
    unfold call at hb
    dsimp only at hb
    split at hb
    · next ho =>
      cases hb
      refine ⟨w.finalized .writable error, ?_, finalized_sim error ho h hq⟩
      have ho' : w.finalOutstanding = true := by rw [h.core]; exact ho
      simp only [call, ho', if_true]
    · cases hb
  | readableEnd => cases hb; exact ⟨_, rfl, .of_state _ _ rfl ⟨h.core, h.life, h.final⟩ hq⟩

theorem flushing_sim {i : Nat} {rest : Option EndRest} (h : SimState w d) (hqw : w.writeQueue = [])
    (hs : Stacks d.writeQueue false ws ds) :
    SimBlock (w.goOn .writable (.flushing (.taken (d.writeQueue.drop i)) rest))
      (d.goOn .duplex (.flushing (.indexed i d.writeQueue.length) rest)) ws ds := by
  by_cases hi : i < d.writeQueue.length
  · have hdrop : d.writeQueue.drop i = d.writeQueue[i] :: d.writeQueue.drop (i + 1) := drop_eq_getElem_cons hi
    have hs' : Stacks d.writeQueue true (.flushing (.taken (d.writeQueue.drop (i + 1))) rest :: ws)
        (.flushing (.indexed (i + 1) d.writeQueue.length) rest :: ds) := .flush hs
    have hp := performWrite_sim (some d.writeQueue[i]) (b := true) h ⟨hs', hqw⟩
    rw [hdrop]; simpa [goOn, hi] using hp
  · have hdrop : d.writeQueue.drop i = [] := drop_eq_nil_of_le (by omega)
    have h' : SimState w ({ d with writeQueue := [] }) := ⟨h.core, h.life, h.final⟩
    have hq' : Queues w ({ d with writeQueue := [] }) ws ds false := ⟨hs.of_false, hqw⟩
    rw [hdrop]
    cases rest with
    | none => simp only [goOn, hi, if_false]; exact .of_state _ _ rfl h' hq'
    | some rest => simp only [goOn, hi, if_false]; exact uncorkAll_sim rest (fun hb => by cases hb) h' hq'

theorem goOn_sim {c : Config (Writable V) (Frame V) (Event V)} (hst : c.stack = f :: ds)
    (hP : Proper c .ret) (h : SimState w c.state) (hq : Queues w c.state ws (f :: ds) b) :
    ∃ f' ws', ws = f' :: ws' ∧ SimBlock (w.goOn .writable f') (c.state.goOn .duplex f) ws' ds := by
  obtain ⟨hs, hqw⟩ := hq
  cases hs with
  | @same _ ws' _ _ hf hs =>
    have hq : Queues w c.state ws' ds b := ⟨hs, hqw⟩
    refine ⟨f, ws', rfl, ?_⟩
    cases f with
    | writing rest =>
      refine writeRest_sim rest (fun hr hb => ?_) h hq
      obtain ⟨rest, rfl⟩ := ne_none_iff_exists'.1 hr; exact hP rest ds hst (by rw [hs.flag, hb])
    | flushing flush rest => cases hf
    | refusing error => exact refused_sim error h hq
    | completing error => exact completed_sim error h hq
    | draining => exact draining_sim h hq
    | final => exact .of_state _ _ rfl h hq
  | @flush ws' _ i rest hs => exact ⟨_, ws', rfl, flushing_sim h hqw hs⟩

/-- **A move of the `Duplex` is a move of the `Writable`.** -/
theorem step_sim {w d d' : Config (Writable V) (Frame V) (Event V)} {l : Move (Call V)} (h : Sim w d) (hP : Proper d l)
    (hst : (program ofString .duplex).step d l = some d') :
    ∃ w', (program ofString .writable).step w l = some w' ∧ Sim w' d' := by
  obtain ⟨b, hq⟩ := h.queues
  cases l with
  | call k =>
    obtain ⟨-, bd, hb, rfl⟩ := Reentrant.step_call hst
    obtain ⟨bw, hbw, hsim⟩ := call_sim hb hP h.state hq
    exact ⟨_, Reentrant.step_of_call rfl hbw, Sim.onto h.trace hsim⟩
  | ret =>
    obtain ⟨f, fs, hs, rfl⟩ := Reentrant.step_ret hst
    rw [hs] at hq
    obtain ⟨f', ws', hw, hsim⟩ := goOn_sim hs hP h.state hq
    exact ⟨_, Reentrant.step_of_ret hw, Sim.onto h.trace hsim⟩

/-! ## The refinement -/

/-- The place of the flush that walks the queue of a `Duplex`. -/
def flushIndex : List (Frame V) → Option Nat
  | [] => none
  | .flushing (.indexed index _) _ :: _ => some index
  | _ :: fs => flushIndex fs

/-- The chunks of a `Duplex` that still have to be written. -/
def waiting (c : Config (Writable V) (Frame V) (Event V)) : List (Entry V) :=
  match flushIndex c.stack with
  | some index => c.state.writeQueue.drop index
  | none => c.state.writeQueue

theorem flushIndex_same (hf : f.isFlush = false) (fs : List (Frame V)) :
    flushIndex (f :: fs) = flushIndex fs ∧ f.entries = [] := by
  cases f <;> first | exact ⟨rfl, rfl⟩ | cases hf

theorem Stacks.no_flush (h : Stacks q false ws ds) : flushIndex ds = none ∧ ws.flatMap Frame.entries = [] := by
  generalize hb : false = b at h
  induction h with
  | nil => exact ⟨rfl, rfl⟩
  | same hf _ ih =>
    obtain ⟨hi, hn⟩ := flushIndex_same hf _; rw [hi, flatMap_cons, hn]; exact ih hb
  | flush => cases hb

theorem Stacks.flushed (h : Stacks q true ws ds) :
    ∃ i, flushIndex ds = some i ∧ ws.flatMap Frame.entries = q.drop i := by
  generalize hb : true = b at h
  induction h with
  | nil => cases hb
  | same hf _ ih =>
    obtain ⟨hi, hn⟩ := flushIndex_same hf _; rw [hi, flatMap_cons, hn]; exact ih hb
  | @flush ws ds i rest hs =>
    refine ⟨i, rfl, ?_⟩
    rw [flatMap_cons, hs.no_flush.2, append_nil]; rfl

theorem Sim.waiting {w d : Config (Writable V) (Frame V) (Event V)} (h : Sim w d) :
    w.stack.flatMap Frame.entries ++ w.state.writeQueue = waiting d := by
  obtain ⟨b, hs, hq⟩ := h.queues
  unfold Writable.waiting
  cases b with
  | false =>
    obtain ⟨hi, hn⟩ := hs.no_flush; rw [hi, hn, hq]; rfl
  | true =>
    obtain ⟨i, hi, hn⟩ := hs.flushed; rw [hi, hn, hq]; exact append_nil _

theorem Sim.waiting_ids {w d : Config (Writable V) (Frame V) (Event V)} (h : Sim w d) :
    w.stack.flatMap Frame.ids ++ ids w.state.writeQueue = ids (Writable.waiting d) := by
  rw [← flatMap_entries_ids, ← ids_append, h.waiting]

theorem mem_observed {es : List (Event V)} (entry : Option (Entry V)) : .write entry ∈ observed es ↔ .write entry ∈ es := by
  simp [observed, mem_filter, Event.observed]

theorem writtenIds_observed (es : List (Event V)) : writtenIds (observed es) = writtenIds es := by
  induction es with
  | nil => rfl
  | cons e es ih =>
    cases e with
    | write entry =>
      cases entry with
      | none => exact ih
      | some entry => exact congrArg (List.cons entry.id) ih
    | _ => exact ih

/-- A `Duplex` that is left alone in its flushes goes with a `Writable`, under what carries over. -/
theorem follows {P Q : Config (Writable V) (Frame V) (Event V) → Move (Call V) → Prop}
    {objectMode autoDestroy decodeStrings : Bool} {highWaterMark : Nat} {defaultEncoding : BufferEncoding}
    {ls : List (Move (Call V))} {d : Config (Writable V) (Frame V) (Event V)} (hproper : ∀ c l, P c l → Proper c l)
    (hsim : ∀ u d l, Sim u d → P d l → Q u l)
    (h : Run (program ofString .duplex).step P (create objectMode highWaterMark autoDestroy decodeStrings defaultEncoding)
      ls d) :
    ∃ c, Run (program ofString .writable).step Q
        (create objectMode highWaterMark autoDestroy decodeStrings defaultEncoding) ls c ∧ Sim c d := by
  refine h.simulate Q (R := Sim) (fun u d l d' hR hP hst => ⟨hsim u d l hR hP, step_sim hR (hproper d l hP) hst⟩) ?_
  exact ⟨⟨rfl, fun _ => rfl, nofun, nofun, nofun⟩, ⟨false, .nil, rfl⟩, rfl⟩

end NodeCompat.Stream.Writable
