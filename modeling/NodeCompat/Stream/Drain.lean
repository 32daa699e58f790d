import NodeCompat.Stream.Carried
import Mathlib.Data.List.Nodup

/-!
# `'drain'`

`write` returns `false` and sets `writableNeedDrain` when `writableLength` has reached `writableHighWaterMark`, and the
callback of `_write` emits `'drain'` when it is below again. So nothing is stuck while something is still to call back. The
length counts no more than the `_write`s that are outstanding and the chunks that wait in the queue; of these the first was
not passed to `_write` yet (`Counted`), so it will be, unless a flush of a `Duplex` drops it (`Lost`).

`Books` says so of a block in the making, which has some chunks in hand: taken off a frame or off the queue, and not written
yet. A mark of 0 is never gone below (`no_drain_at_zero`).
-/

namespace NodeCompat.Stream.Writable

open List Option

variable {V : Type} {ofString : BufferEncoding → List UInt16 → Bytes} {kind : Kind} {w : Writable V} {b : Result V}

/-! ## What a writer is told -/

/-- Whether a `write` that returned `false` waits for a `'drain'`, after one more event. -/
def waits (waiting : Bool) : Event V → Bool
  | .writeReturned accepted => !accepted || waiting
  | .drain => false
  | _ => waiting

def awaitsDrain (es : List (Event V)) : Bool := es.foldl waits false

theorem awaitsDrain_append (es es' : List (Event V)) : awaitsDrain (es ++ es') = es'.foldl waits (awaitsDrain es) :=
  foldl_append ..

theorem foldl_waits_true {es : List (Event V)} (h : .drain ∉ es) : es.foldl waits true = true := by
  induction es with
  | nil => rfl
  | cons e es ih =>
    have he : waits true e = true := by
      cases e with
      | drain => exact absurd mem_cons_self h
      | writeReturned accepted => simp [waits]
      | _ => rfl
    rw [foldl_cons, he]; exact ih (fun hm => h (mem_cons_of_mem _ hm))

theorem drain_after {es pre post : List (Event V)} (h : awaitsDrain es = false) (hes : es = pre ++ .writeReturned false :: post) :
    .drain ∈ post := by
  by_contra hd
  have hw : awaitsDrain es = true := by rw [hes, awaitsDrain_append, foldl_cons]; exact foldl_waits_true hd
  rw [h] at hw; cases hw

/-- Events that concern neither the chunks nor the mark. -/
def Event.mute : Event V → Bool
  | .write _ | .writeReturned _ | .drain => false
  | _ => true

theorem writtenIds_mute {es : List (Event V)} (h : ∀ e ∈ es, e.mute = true) : writtenIds es = [] := by
  refine filterMap_eq_nil_iff.2 (fun e he => ?_)
  have hm := h e he
  cases e <;> first | rfl | cases hm

theorem foldl_waits_mute {es : List (Event V)} (h : ∀ e ∈ es, e.mute = true) (waiting : Bool) :
    es.foldl waits waiting = waiting := by
  induction es with
  | nil => rfl
  | cons e es ih =>
    have he : waits waiting e = waiting := by
      have hm := h e mem_cons_self
      cases e <;> first | rfl | cases hm
    rw [foldl_cons, he]; exact ih (fun e' he' => h e' (mem_cons_of_mem _ he'))

/-! ## The books -/

def outstandingLength (w : Writable V) : Nat := (w.outstanding.map Outstanding.length).sum

/-- What chunks of the queue add to `writableLength`. -/
def queuedLength (w : Writable V) (q : List (Entry V)) : Nat :=
  (q.map (fun e => streamChunkLength w.writableObjectMode e.chunk)).sum

/-- The length of the queue that the innermost flush of a `Duplex` walks. -/
def flushQueued : List (Frame V) → Option Nat
  | [] => none
  | .flushing (.indexed _ queued) _ :: _ => some queued
  | _ :: fs => flushQueued fs

/-- A chunk was accepted, was not passed to `_write` and never will be. -/
def Lost (w : Writable V) (hand : List Nat) (stack : List (Frame V)) (trace : List (Event V)) : Prop :=
  ∃ i < w.accepted, i ∉ writtenIds trace ∧ i ∉ hand ∧ i ∉ stack.flatMap Frame.ids ∧ i ∉ ids w.writeQueue

/-- What the length counts: `counted` are the chunks of the queue that were queued since the length was last set to 0. -/
structure Counted (w : Writable V) (stack : List (Frame V)) (trace : List (Event V)) (walked counted : List (Entry V)) :
    Prop where
  queue : w.writeQueue = walked ++ counted
  length : w.writableLength ≤ w.outstandingLength + w.queuedLength counted
  unwritten : ∀ e ∈ counted.head?, e.id ∉ writtenIds trace
  walked : walked = [] ∨ ∃ q, flushQueued stack = some q ∧ q ≤ walked.length

/-- Neither destroyed nor errored. -/
def Alive (w : Writable V) : Prop := w.destroyed = false ∧ w.errored = none

structure Books (keeps : Prop) (w : Writable V) (hand : List Nat) (stack : List (Frame V)) (trace : List (Event V)) :
    Prop where
  mark : 0 < w.writableHighWaterMark
  places : ∀ i, hand.count i + (stack.flatMap Frame.ids).count i + (ids w.writeQueue).count i ≤
    (List.range w.accepted).count i
  fresh : ∀ i ∈ writtenIds trace, i < w.accepted
  calls : ∀ n, (w.outstanding.map Outstanding.call).count n ≤ (List.range w.calls).count n
  index : ∀ index queued rest, .flushing (.indexed index queued) rest ∈ stack → 0 < index
  kept : keeps → ¬ Lost w hand stack trace
  length : Lost w hand stack trace ∨ ∃ walked counted, Counted w stack trace walked counted
  told : w.Alive → awaitsDrain trace = true → w.writableNeedDrain = true

/-- Something will still call back, or was not written yet. -/
def Busy (w : Writable V) (stack : List (Frame V)) (trace : List (Event V)) : Prop :=
  w.outstanding ≠ [] ∨ (∃ error, .completing error ∈ stack) ∨ ∃ i < w.accepted, i ∉ writtenIds trace

def Needs (w : Writable V) (stack : List (Frame V)) (trace : List (Event V)) : Prop :=
  w.Alive → w.writableNeedDrain = true → Busy w stack trace

/-- **The invariant.** -/
structure Accounted (keeps : Prop) (c : Config (Writable V) (Frame V) (Event V)) : Prop where
  books : Books keeps c.state [] c.stack c.trace
  needs : Needs c.state c.stack c.trace

variable {keeps : Prop} {hand : List Nat} {stack : List (Frame V)} {trace : List (Event V)} {f : Frame V}

variable {w' : Writable V}

variable (error : Option WritableError)

variable (rest : Option EndRest)

variable (done : Option Nat)

theorem count_range (n i : Nat) : (List.range n).count i = if i < n then 1 else 0 := by
  simp only [nodup_range.count, mem_range]

section

variable (h : Books keeps w hand stack trace)
include h

theorem Books.id_lt {e : Entry V} (he : e ∈ w.writeQueue) : e.id < w.accepted := by
  have hp := h.places e.id
  have hc : 0 < (ids w.writeQueue).count e.id := count_pos_iff.2 (List.mem_map_of_mem he)
  rw [count_range] at hp
  by_contra hn
  rw [if_neg hn] at hp; omega

theorem Books.id_notMem {e : Entry V} (he : e ∈ w.writeQueue) : e.id ∉ hand ∧ e.id ∉ stack.flatMap Frame.ids := by
  have hp := h.places e.id
  have hc : 0 < (ids w.writeQueue).count e.id := count_pos_iff.2 (List.mem_map_of_mem he)
  rw [count_range, if_pos (h.id_lt he)] at hp
  constructor <;> (exact fun hm => by have := count_pos_iff.2 hm; omega)

theorem Books.busy (hl : w.writableHighWaterMark ≤ w.writableLength) : Busy w stack trace := by
  have hm := h.mark
  obtain ⟨i, hi, hw, -⟩ | ⟨walked, counted, hc⟩ := h.length
  · exact .inr (.inr ⟨i, hi, hw⟩)
  · cases counted with
    | nil =>
      refine .inl (fun ho => ?_)
      have hlen := hc.length
      simp only [outstandingLength, queuedLength, ho, map_nil, sum_nil] at hlen; omega
    | cons e counted =>
      have he : e ∈ w.writeQueue := by simp [hc.queue]
      exact .inr (.inr ⟨e.id, h.id_lt he, hc.unwritten e rfl⟩)

end

/-! ## Blocks that leave the chunks and the mark alone -/

/-- What the books are about. -/
structure Ledger (V : Type) where
  held : Held V
  length : Nat
  mark : Nat
  objectMode : Bool
  needDrain : Bool

def ledger (w : Writable V) : Ledger V :=
  ⟨w.held, w.writableLength, w.writableHighWaterMark, w.writableObjectMode, w.writableNeedDrain⟩

structure Mute (w : Writable V) (b : Result V) : Prop where
  ledger : b.state.ledger = w.ledger
  alive : b.state.Alive → w.Alive
  seen : ∀ e ∈ b.seen, e.mute = true
  frames : ∀ f ∈ b.frames, f.isFlush = false

theorem Mute.silent (hl : w'.ledger = w.ledger) (ha : w'.Alive → w.Alive) : Mute w { state := w' } :=
  ⟨hl, ha, forall_mem_nil _, forall_mem_nil _⟩

theorem Books.of_ledger (hl : w'.ledger = w.ledger) (ha : w'.Alive → w.Alive)
    (h : Books keeps w hand stack trace) : Books keeps w' hand stack trace := by
  have hq : w'.writeQueue = w.writeQueue := congrArg (fun l => l.held.queue) hl
  have hc : w'.accepted = w.accepted := congrArg (fun l => l.held.accepted) hl
  have hn : w'.calls = w.calls := congrArg (fun l => l.held.calls) hl
  have ho : w'.outstanding = w.outstanding := congrArg (fun l => l.held.outstanding) hl
  have hlen : w'.writableLength = w.writableLength := congrArg Ledger.length hl
  have hm : w'.writableHighWaterMark = w.writableHighWaterMark := congrArg Ledger.mark hl
  have hob : w'.writableObjectMode = w.writableObjectMode := congrArg Ledger.objectMode hl
  have hd : w'.writableNeedDrain = w.writableNeedDrain := congrArg Ledger.needDrain hl
  have hlost : Lost w' hand stack trace ↔ Lost w hand stack trace := by unfold Lost; rw [hq, hc]
  refine ⟨hm ▸ h.mark, ?_, ?_, ?_, h.index, fun hk => mt hlost.1 (h.kept hk), ?_, fun ha' => ?_⟩
  · rw [hq, hc]; exact h.places
  · rw [hc]; exact h.fresh
  · rw [ho, hn]; exact h.calls
  · refine h.length.imp hlost.2 (fun ⟨walked, counted, hcnt⟩ => ⟨walked, counted, hq.trans hcnt.queue, ?_, hcnt.unwritten,
      hcnt.walked⟩)
    unfold outstandingLength queuedLength; rw [hlen, ho, hob]; exact hcnt.length
  · rw [hd]; exact h.told (ha ha')

theorem Needs.of_core (ho : w'.outstanding = w.outstanding) (hc : w'.accepted = w.accepted)
    (hn : w'.writableNeedDrain = w.writableNeedDrain) (ha : w'.Alive → w.Alive) (h : Needs w stack trace) :
    Needs w' stack trace := by
  intro ha' hd
  unfold Busy; rw [ho, hc]; exact h (ha ha') (hn ▸ hd)

theorem Needs.of_ledger (hl : w'.ledger = w.ledger) (ha : w'.Alive → w.Alive)
    (h : Needs w stack trace) : Needs w' stack trace :=
  h.of_core (congrArg (fun l => l.held.outstanding) hl) (congrArg (fun l => l.held.accepted) hl)
    (congrArg Ledger.needDrain hl) ha

theorem Books.mute {es : List (Event V)} (hes : ∀ e ∈ es, e.mute = true) (h : Books keeps w hand stack trace) :
    Books keeps w hand stack (trace ++ es) := by
  have hw : writtenIds (trace ++ es) = writtenIds trace := by
    rw [writtenIds_append, writtenIds_mute hes, append_nil]
  have hlost : Lost w hand stack (trace ++ es) ↔ Lost w hand stack trace := by unfold Lost; rw [hw]
  refine ⟨h.mark, h.places, hw ▸ h.fresh, h.calls, h.index, fun hk => mt hlost.1 (h.kept hk), ?_, fun ha => ?_⟩
  · exact h.length.imp hlost.2 (fun ⟨walked, counted, hc⟩ => ⟨walked, counted, hc.queue, hc.length, hw ▸ hc.unwritten,
      hc.walked⟩)
  · rw [awaitsDrain_append, foldl_waits_mute hes]; exact h.told ha

theorem Needs.mute {es : List (Event V)} (hes : ∀ e ∈ es, e.mute = true) (h : Needs w stack trace) :
    Needs w stack (trace ++ es) := by
  intro ha hn
  unfold Busy; rw [writtenIds_append, writtenIds_mute hes, append_nil]; exact h ha hn

theorem flushQueued_cons (stack : List (Frame V)) (hf : f.isIndexed = false) : flushQueued (f :: stack) = flushQueued stack := by
  cases f with
  | flushing flush rest => cases flush <;> first | rfl | cases hf
  | _ => rfl

theorem lost_cons : Lost w hand (f :: stack) trace ↔ Lost w (hand ++ f.ids) stack trace := by
  unfold Lost; simp only [flatMap_cons, mem_append, not_or, and_assoc]

theorem Books.push (hf : f.isIndexed = false) (h : Books keeps w (hand ++ f.ids) stack trace) :
    Books keeps w hand (f :: stack) trace := by
  refine ⟨h.mark, fun i => ?_, h.fresh, h.calls, fun index queued rest hm => ?_, fun hk => mt lost_cons.1 (h.kept hk), ?_,
    h.told⟩
  · have hp := h.places i; rw [count_append] at hp; rw [flatMap_cons, count_append]; omega
  · obtain rfl | hm := mem_cons.1 hm
    · cases hf
    · exact h.index index queued rest hm
  · exact h.length.imp lost_cons.2 (fun ⟨walked, counted, hc⟩ => ⟨walked, counted, hc.queue, hc.length, hc.unwritten,
      flushQueued_cons stack hf ▸ hc.walked⟩)

theorem Books.pop (hf : f.isIndexed = false) (h : Books keeps w hand (f :: stack) trace) :
    Books keeps w (hand ++ f.ids) stack trace := by
  refine ⟨h.mark, fun i => ?_, h.fresh, h.calls, fun index queued rest hm => ?_, fun hk => mt lost_cons.2 (h.kept hk), ?_,
    h.told⟩
  · have hp := h.places i; rw [flatMap_cons, count_append] at hp; rw [count_append]; omega
  · exact h.index index queued rest (mem_cons_of_mem _ hm)
  · exact h.length.imp lost_cons.1 (fun ⟨walked, counted, hc⟩ => ⟨walked, counted, hc.queue, hc.length, hc.unwritten,
      flushQueued_cons stack hf ▸ hc.walked⟩)

theorem not_isIndexed (hf : f.isFlush = false) : f.isIndexed = false := by
  cases f <;> first | rfl | cases hf

theorem ids_plain (hf : f.isFlush = false) : f.ids = [] := by
  cases f <;> first | rfl | cases hf

theorem Books.pushes {fs : List (Frame V)} (hf : ∀ f ∈ fs, f.isFlush = false) (h : Books keeps w hand stack trace) :
    Books keeps w hand (fs ++ stack) trace := by
  induction fs with
  | nil => exact h
  | cons f fs ih =>
    have hplain := hf f mem_cons_self
    refine Books.push (not_isIndexed hplain) ?_
    rw [ids_plain hplain, append_nil]; exact ih (fun g hg => hf g (mem_cons_of_mem _ hg))

theorem Needs.pushes {fs : List (Frame V)} (h : Needs w stack trace) : Needs w (fs ++ stack) trace := by
  intro ha hn
  refine (h ha hn).imp_right (Or.imp_left (fun ⟨error, he⟩ => ⟨error, mem_append_right _ he⟩))

theorem Mute.books (hb : Mute w b) (h : Books keeps w [] stack trace) :
    Books keeps b.state [] (b.frames ++ stack) (trace ++ b.seen) :=
  ((h.mute hb.seen).of_ledger hb.ledger hb.alive).pushes hb.frames

theorem Mute.accounted (hb : Mute w b) (h : Books keeps w [] stack trace) (hn : Needs w stack trace) :
    Accounted keeps (b.onto stack trace) :=
  ⟨hb.books h, ((hn.mute hb.seen).of_ledger hb.ledger hb.alive).pushes⟩

/-! ## `_write` -/

/-- The chunk in hand, or one of the queue that the length does not count, is passed to `_write`. -/
theorem Books.perform {entry : Option (Entry V)} (h : Books keeps w hand (f :: stack) trace)
    (hhand : ∀ i ∈ hand, entry.map Entry.id = some i)
    (hentry : ∀ e, entry = some e → e.id ∈ hand ∨ e ∈ w.writeQueue)
    (hlen : Lost w hand (f :: stack) trace ∨ ∃ walked counted, Counted w (f :: stack) trace walked counted ∧
      ∀ e ∈ counted.head?, entry.map Entry.id ≠ some e.id) :
    Accounted keeps ((w.performWrite entry f).onto stack trace) := by
  have hids : ∀ i, i ∈ writtenIds [(.write entry : Event V)] ↔ entry.map Entry.id = some i := by
    intro i
    cases entry <;> simp [writtenIds, eq_comm]
  have hmem : ∀ i, i ∈ writtenIds (trace ++ [.write entry]) ↔ i ∈ writtenIds trace ∨ entry.map Entry.id = some i := by
    intro i; rw [writtenIds_append, mem_append, hids]
  have hlt : ∀ i, entry.map Entry.id = some i → i < w.accepted := by
    intro i hi
    obtain ⟨e, rfl, rfl⟩ := map_eq_some_iff.1 hi
    obtain hm | hm := hentry e rfl
    · have hp := h.places e.id
      have hc := count_pos_iff.2 hm
      rw [count_range] at hp
      by_contra hn
      rw [if_neg hn] at hp; omega
    · exact h.id_lt hm
  have hlost : Lost w [] (f :: stack) (trace ++ [.write entry]) ↔ Lost w hand (f :: stack) trace := by
    refine exists_congr (fun i => and_congr_right (fun _ => ?_))
    rw [hmem]
    constructor
    · rintro ⟨hw, -, hs, hq⟩; exact ⟨fun hm => hw (.inl hm), fun hm => hw (.inr (hhand i hm)), hs, hq⟩
    · rintro ⟨hw, hh, hs, hq⟩
      refine ⟨?_, not_mem_nil, hs, hq⟩
      rintro (hm | hm)
      · exact hw hm
      · obtain ⟨e, he, rfl⟩ := map_eq_some_iff.1 hm; exact (hentry e he).elim hh (fun hm => hq (List.mem_map_of_mem hm))
  refine ⟨⟨h.mark, fun i => ?_, fun i hi => ?_, fun n => ?_, h.index, fun hk => mt hlost.1 (h.kept hk), ?_, fun ha => ?_⟩, ?_⟩
  · have hp := h.places i
    show ([] : List Nat).count i + ((f :: stack).flatMap Frame.ids).count i + (ids w.writeQueue).count i ≤
      (List.range w.accepted).count i
    rw [count_nil]; omega
  · exact ((hmem i).1 hi).elim (h.fresh i) (hlt i)
  · have hc := h.calls n
    simp only [Block.onto_state, performWrite, map_append, count_append, map_cons, map_nil, range_succ]
    omega
  · refine hlen.imp hlost.2 ?_
    rintro ⟨walked, counted, hc, hne⟩
    refine ⟨walked, counted, hc.queue, ?_, ?_, hc.walked⟩
    · have hl := hc.length
      unfold outstandingLength queuedLength at hl ⊢
      simp only [Block.onto_state, performWrite, map_append, sum_append, map_cons, map_nil, sum_cons, sum_nil]
      omega
    · intro e he hm; exact ((hmem e.id).1 hm).elim (hc.unwritten e he) (hne e he)
  · rw [Block.onto_trace, awaitsDrain_append]; exact h.told ha
  · intro _ _
    refine .inl (fun ho => ?_)
    simp [performWrite] at ho

/-- The chunk in hand is passed to `_write`; the frame, no flush of a `Duplex`, takes the rest. -/
theorem Books.write {entry : Entry V} (hf : f.isIndexed = false)
    (h : Books keeps w (entry.id :: f.ids) stack trace) : Accounted keeps ((w.performWrite (some entry) f).onto stack trace) := by
  have h' : Books keeps w [entry.id] (f :: stack) trace := h.push hf
  refine h'.perform (by simp) (by simp) (h'.length.imp_right (fun ⟨walked, counted, hc⟩ => ⟨walked, counted, hc, ?_⟩))
  intro e he heq
  have hq : e ∈ w.writeQueue := by rw [hc.queue]; exact mem_append_right _ (mem_of_mem_head? he)
  exact (h'.id_notMem hq).1 (by simpa using heq.symm)

/-! ## Flushes -/

theorem Books.take (h : Books keeps w [] stack trace) :
    Books keeps { w with writableLength := 0, writeQueue := [] } (ids w.writeQueue) stack trace := by
  have hlost : Lost { w with writableLength := 0, writeQueue := [] } (ids w.writeQueue) stack trace ↔
      Lost w [] stack trace := by
    constructor
    · rintro ⟨i, hi, hw, hq, hs, -⟩; exact ⟨i, hi, hw, not_mem_nil, hs, hq⟩
    · rintro ⟨i, hi, hw, -, hs, hq⟩; exact ⟨i, hi, hw, hq, hs, not_mem_nil⟩
  refine ⟨h.mark, fun i => ?_, h.fresh, h.calls, h.index, fun hk => mt hlost.1 (h.kept hk), .inr ⟨[], [], rfl, Nat.zero_le _, nofun,
    .inl rfl⟩, h.told⟩
  have hp := h.places i
  rw [count_nil] at hp
  show (ids w.writeQueue).count i + (stack.flatMap Frame.ids).count i + ([] : List Nat).count i ≤
    (List.range w.accepted).count i
  rw [count_nil]; omega

theorem destroy_alive (h : (w.destroy error).1.Alive) : w.Alive := by
  unfold destroy at h
  split at h
  · exact h
  · cases h.1

theorem errorOrDestroy_alive (error : WritableError) : ¬ (w.errorOrDestroy error).1.Alive := by
  intro h
  unfold errorOrDestroy at h
  split at h
  · next hd =>
    rw [h.1] at hd; cases hd
  · split at h
    · next hd _ =>
      unfold destroy at h; rw [if_neg hd] at h; cases h.1
    · cases h.2

theorem endCallbacks_mute (callbacks : List Nat) (error : Option WritableError) :
    ∀ e ∈ callbacks.map (fun callback => (.endCallback callback error : Event V)), e.mute = true := by
  intro e he
  obtain ⟨callback, -, rfl⟩ := List.mem_map.1 he; rfl

theorem destroy_mute : Mute w { state := (w.destroy error).1, seen := (w.destroy error).2 } := by
  refine ⟨?_, destroy_alive error, ?_, forall_mem_nil _⟩
  · unfold destroy
    split <;> rfl
  · unfold destroy
    split
    · exact forall_mem_nil _
    · intro e he
      obtain he | he := mem_append.1 he
      · exact endCallbacks_mute _ _ e he
      · cases error <;> simp only [mem_cons, not_mem_nil, or_false] at he
        · rw [he]; rfl
        · obtain rfl | rfl := he <;> rfl

theorem errorOrDestroy_mute (error : WritableError) :
    Mute w { state := (w.errorOrDestroy error).1, seen := (w.errorOrDestroy error).2 } := by
  refine ⟨?_, fun h => absurd h (errorOrDestroy_alive error), ?_, forall_mem_nil _⟩
  · unfold errorOrDestroy
    split
    · rfl
    · split
      · exact (destroy_mute (some error)).ledger
      · rfl
  · unfold errorOrDestroy
    split
    · exact forall_mem_nil _
    · split
      · exact (destroy_mute (some error)).seen
      · simp [Event.mute]

theorem callFinal_mute : Mute w w.callFinal := by
  unfold callFinal
  dsimp only
  split
  · exact .silent rfl id
  · exact ⟨rfl, id, by simp [Event.mute], by simp [Frame.isFlush]⟩

theorem Mute.of_state (hl : w'.ledger = w.ledger) (ha : w'.Alive → w.Alive) (h : Mute w' b) : Mute w b :=
  ⟨h.ledger.trans hl, fun hb => ha (h.alive hb), h.seen, h.frames⟩

theorem awaitFinish_ledger : (w.awaitFinish done).ledger = w.ledger ∧ ((w.awaitFinish done).Alive → w.Alive) := by
  cases done <;> exact ⟨rfl, id⟩

theorem firstEnd_mute : Mute w (w.firstEnd done) := by
  obtain ⟨hl, ha⟩ := awaitFinish_ledger (w := { w with writableEnded := true }) done
  unfold firstEnd
  dsimp only
  split
  · exact .silent hl ha
  · split
    · exact .silent hl ha
    · exact callFinal_mute.of_state hl ha

theorem answer_mute (error : WritableError) :
    Mute w { state := w, seen := (done.map (fun callback => .endCallback callback (some error))).toList } := by
  refine ⟨rfl, id, ?_, forall_mem_nil _⟩
  cases done <;> simp [Event.mute]

theorem endRest_mute (rest : EndRest) : Mute w (w.endRest rest) := by
  unfold endRest
  cases rest.rejected with
  | some error => exact answer_mute rest.done error
  | none =>
    dsimp only
    split
    · exact firstEnd_mute rest.done
    · split
      · exact answer_mute rest.done _
      · split
        · exact answer_mute rest.done _
        · split
          · exact answer_mute rest.done _
          · exact .silent (awaitFinish_ledger rest.done).1 (awaitFinish_ledger rest.done).2

/-- The walk of a `Duplex` begins: the whole queue is walked, and the length counts nothing of it. -/
theorem Books.walk (h : Books keeps w [] stack trace) :
    Books keeps { w with writableLength := 0 } [] (.flushing (.indexed 1 w.writeQueue.length) rest :: stack) trace ∧
      Counted { w with writableLength := 0 } (.flushing (.indexed 1 w.writeQueue.length) rest :: stack) trace
        w.writeQueue [] := by
  have hc : Counted { w with writableLength := 0 } (.flushing (.indexed 1 w.writeQueue.length) rest :: stack) trace
      w.writeQueue [] :=
    ⟨(append_nil _).symm, Nat.zero_le _, nofun, .inr ⟨_, rfl, Nat.le_refl _⟩⟩
  refine ⟨⟨h.mark, h.places, h.fresh, h.calls, fun index queued rest' hm => ?_, h.kept, .inr ⟨_, _, hc⟩, h.told⟩, hc⟩
  obtain heq | hm := mem_cons.1 hm
  · cases heq; exact Nat.one_pos
  · exact h.index index queued rest' hm

/-- One more round of the walk: what is at its place is not the first chunk that the length counts. -/
theorem Books.round {index queued : Nat} {rest : Option EndRest} (hi : index < queued)
    (h : Books keeps w [] (.flushing (.indexed index queued) rest :: stack) trace) :
    Accounted keeps ((w.performWrite w.writeQueue[index]? (.flushing (.indexed (index + 1) queued) rest)).onto stack trace) := by
  have hpos : 0 < index := h.index index queued rest mem_cons_self
  have h' : Books keeps w [] (.flushing (.indexed (index + 1) queued) rest :: stack) trace := by
    refine ⟨h.mark, h.places, h.fresh, h.calls, fun index' queued' rest' hm => ?_, h.kept, ?_, h.told⟩
    · obtain heq | hm := mem_cons.1 hm
      · cases heq; exact Nat.succ_pos _
      · exact h.index index' queued' rest' (mem_cons_of_mem _ hm)
    · exact h.length.imp_right (fun ⟨walked, counted, hc⟩ => ⟨walked, counted, hc.queue, hc.length, hc.unwritten, hc.walked⟩)
  refine h'.perform nofun (fun e he => .inr (mem_of_getElem? he)) (h'.length.imp_right (fun ⟨walked, counted, hc⟩ =>
    ⟨walked, counted, hc, fun e he heq => ?_⟩))
  obtain ⟨e', he', heq⟩ := map_eq_some_iff.1 heq
  obtain ⟨hlt, -⟩ := List.getElem?_eq_some_iff.1 he'
  have hnd : (ids w.writeQueue).Nodup := by
    refine nodup_iff_count_le_one.2 (fun i => ?_)
    have hp := h.places i
    rw [count_range] at hp
    split at hp <;> omega
  obtain ⟨counted', rfl⟩ := head?_eq_some_iff.1 he
  have hat : w.writeQueue[walked.length]? = some e := by rw [hc.queue]; simp
  have hsame : index = walked.length := by
    refine (getElem?_inj (by simpa [ids] using hlt) hnd).1 ?_
    rw [ids, getElem?_map, getElem?_map, he', hat, map_some, map_some, heq]
  obtain hw | ⟨q, hq, hle⟩ := hc.walked
  · rw [hw, length_nil] at hsame; omega
  · cases hq; omega

theorem Books.empty {index queued : Nat} {rest : Option EndRest}
    (h : Books keeps w [] (.flushing (.indexed index queued) rest :: stack) trace)
    (hk : keeps → ∀ e ∈ w.writeQueue, e.id ∈ writtenIds trace) :
    Books keeps { w with writeQueue := [] } [] stack trace := by
  refine ⟨h.mark, fun i => ?_, h.fresh, h.calls, fun index queued rest hm => ?_, fun hkp hl => ?_, ?_, h.told⟩
  · have hp := h.places i
    show ([] : List Nat).count i + (stack.flatMap Frame.ids).count i + ([] : List Nat).count i ≤
      (List.range w.accepted).count i
    rw [flatMap_cons, count_append] at hp; rw [count_nil] at hp ⊢; omega
  · exact h.index index queued rest (mem_cons_of_mem _ hm)
  · obtain ⟨i, hi, hw, hh, hs, -⟩ := hl
    refine h.kept hkp ⟨i, hi, hw, hh, hs, fun hm => ?_⟩
    obtain ⟨e, he, rfl⟩ := List.mem_map.1 hm; exact hw (hk hkp e he)
  · obtain ⟨i, hi, hw, hh, hs, -⟩ | ⟨walked, counted, hc⟩ := h.length
    · exact .inl ⟨i, hi, hw, hh, hs, not_mem_nil⟩
    · cases counted with
      | nil => exact .inr ⟨[], [], rfl, hc.length, nofun, .inl rfl⟩
      | cons e counted =>
        have he : e ∈ w.writeQueue := by simp [hc.queue]
        obtain ⟨-, hs⟩ := h.id_notMem he
        exact .inl ⟨e.id, h.id_lt he, hc.unwritten e rfl, not_mem_nil, hs, not_mem_nil⟩

open Mute

theorem flush_accounted (h : Books keeps w [] stack trace) (hn : Needs w stack trace) :
    Accounted keeps ((w.flush kind rest).onto stack trace) := by
  have hnil : w.writeQueue = [] → Accounted keeps ((rest.elim { state := { w with writableLength := 0, writeQueue := [] } }
      (endRest { w with writableLength := 0, writeQueue := [] }) : Result V).onto stack trace) := by
    intro hq
    have ht := h.take
    rw [hq] at ht
    have hn' : Needs { w with writableLength := 0, writeQueue := [] } stack trace := hn.of_core rfl rfl rfl id
    cases rest with
    | none => exact accounted (.silent rfl id) ht hn'
    | some rest => exact (endRest_mute rest).accounted ht hn'
  cases kind with
  | writable =>
    unfold flush takeQueue
    cases hq : w.writeQueue with
    | nil =>
      cases rest <;> exact hnil hq
    | cons entry queue =>
      have ht := h.take; rw [hq] at ht; exact ht.write rfl
  | duplex =>
    unfold flush walkQueue
    dsimp only
    split
    · next hpos =>
      obtain ⟨hw, hc⟩ := h.walk rest
      exact hw.perform (forall_mem_nil _) (fun e he => .inr (mem_of_getElem? he)) (.inr ⟨_, _, hc, (by simp)⟩)
    · next hpos =>
      have hq : w.writeQueue = [] := length_eq_zero_iff.1 (by omega)
      cases rest <;> exact hnil hq

theorem Books.corked (n : Nat) (h : Books keeps w hand stack trace) :
    Books keeps { w with writableCorked := n } hand stack trace :=
  Books.of_ledger (w := w) rfl id h

theorem Needs.corked (n : Nat) (h : Needs w stack trace) : Needs { w with writableCorked := n } stack trace :=
  Needs.of_ledger (w := w) rfl id h

theorem uncorkAll_accounted (rest : EndRest) (h : Books keeps w [] stack trace) (hn : Needs w stack trace) :
    Accounted keeps ((w.uncorkAll kind rest).onto stack trace) := by
  unfold uncorkAll
  split
  · exact (endRest_mute rest).accounted h hn
  · exact flush_accounted (some rest) (h.corked 0) (hn.corked 0)

theorem uncork_accounted (h : Books keeps w [] stack trace) (hn : Needs w stack trace) :
    Accounted keeps ((w.uncork kind).onto stack trace) := by
  unfold uncork
  dsimp only
  split
  · exact accounted (.silent rfl id) h hn
  · split
    · exact accounted (w := w) (.silent rfl id) h hn
    · exact flush_accounted none (h.corked _) (hn.corked _)

/-! ## `write` and the callback of `_write` -/

theorem Books.needDrain (h : Books keeps w hand stack trace) :
    Books keeps { w with writableNeedDrain := true } hand stack trace := by
  refine ⟨h.mark, h.places, h.fresh, h.calls, h.index, h.kept, ?_, fun _ _ => rfl⟩
  exact h.length.imp_right (fun ⟨walked, counted, hc⟩ => ⟨walked, counted, hc.queue, hc.length, hc.unwritten, hc.walked⟩)

theorem Books.returned {accepted : Bool} (ha : accepted = false → w.writableNeedDrain = true ∨ ¬ w.Alive)
    (h : Books keeps w hand stack trace) : Books keeps w hand stack (trace ++ [.writeReturned accepted]) := by
  have hw : writtenIds (trace ++ [.writeReturned accepted]) = writtenIds trace := by
    rw [writtenIds_append]; exact append_nil _
  have hlost : Lost w hand stack (trace ++ [.writeReturned accepted]) ↔ Lost w hand stack trace := by
    unfold Lost; rw [hw]
  refine ⟨h.mark, h.places, hw ▸ h.fresh, h.calls, h.index, fun hk => mt hlost.1 (h.kept hk), ?_, fun hal hwt => ?_⟩
  · exact h.length.imp hlost.2 (fun ⟨walked, counted, hc⟩ => ⟨walked, counted, hc.queue, hc.length, hw ▸ hc.unwritten,
      hc.walked⟩)
  · cases accepted with
    | false => exact (ha rfl).resolve_right (fun hna => hna hal)
    | true => rw [awaitsDrain_append] at hwt; exact h.told hal (by simpa [waits] using hwt)

theorem Needs.returned {accepted : Bool} (h : Needs w stack trace) : Needs w stack (trace ++ [.writeReturned accepted]) := by
  have hw : writtenIds (trace ++ [.writeReturned accepted]) = writtenIds trace := by
    rw [writtenIds_append]; exact append_nil _
  intro ha hn
  unfold Busy; rw [hw]; exact h ha hn

theorem writeRest_accounted (h : Books keeps w [] stack trace) (hn : Needs w stack trace) :
    Accounted keeps ((w.writeRest kind rest).onto stack trace) := by
  unfold writeRest
  by_cases hl : w.writableLength < w.writableHighWaterMark
  · simp only [hl, decide_true, if_true]
    cases rest with
    | none => exact ⟨h.returned nofun, hn.returned⟩
    | some rest => exact uncorkAll_accounted rest h hn
  · simp only [hl, decide_false, Bool.false_eq_true, if_false]
    have h' := h.needDrain
    have hbusy : Busy w stack trace := h.busy (by omega)
    have hn' : Needs { w with writableNeedDrain := true } stack trace := fun _ _ => hbusy
    cases rest with
    | none => exact ⟨h'.returned (fun _ => .inl rfl), hn'.returned⟩
    | some rest => exact uncorkAll_accounted rest h' hn'

theorem Books.accept (h : Books keeps w [] stack trace) :
    Books keeps { w with accepted := w.accepted + 1 } [w.accepted] stack trace := by
  have hlost : Lost { w with accepted := w.accepted + 1 } [w.accepted] stack trace ↔ Lost w [] stack trace := by
    constructor
    · rintro ⟨i, hi, hw, hh, hs, hq⟩
      have hne : i ≠ w.accepted := by simpa using hh
      have hi' : i < w.accepted + 1 := hi
      exact ⟨i, by omega, hw, not_mem_nil, hs, hq⟩
    · rintro ⟨i, hi, hw, -, hs, hq⟩
      have hne : i ≠ w.accepted := by omega
      exact ⟨i, Nat.lt_succ_of_lt hi, hw, by simpa using hne, hs, hq⟩
  refine ⟨h.mark, fun i => ?_, fun i hi => Nat.lt_succ_of_lt (h.fresh i hi), h.calls, h.index, fun hk => mt hlost.1 (h.kept hk), ?_,
    h.told⟩
  · have hp := h.places i
    show [w.accepted].count i + (stack.flatMap Frame.ids).count i + (ids w.writeQueue).count i ≤
      (List.range (w.accepted + 1)).count i
    rw [range_succ, count_append]; rw [count_nil] at hp; omega
  · exact h.length.imp hlost.2 (fun ⟨walked, counted, hc⟩ => ⟨walked, counted, hc.queue, hc.length, hc.unwritten, hc.walked⟩)

theorem Books.enqueue (entry : Entry V) (hid : entry.id ∉ writtenIds trace) (h : Books keeps w [entry.id] stack trace) :
    Books keeps
      { w with
        writeQueue := w.writeQueue ++ [entry]
        writableLength := w.writableLength + streamChunkLength w.writableObjectMode entry.chunk }
      [] stack trace := by
  have hlost : Lost
      { w with
        writeQueue := w.writeQueue ++ [entry]
        writableLength := w.writableLength + streamChunkLength w.writableObjectMode entry.chunk }
      [] stack trace ↔ Lost w [entry.id] stack trace := by
    unfold Lost
    simp only [ids, map_append, map_cons, map_nil, mem_append, mem_singleton, not_or,
      not_mem_nil, not_false_eq_true, true_and]
    exact exists_congr (fun i => and_congr_right (fun _ => and_congr_right (fun _ => by tauto)))
  refine ⟨h.mark, fun i => ?_, h.fresh, h.calls, h.index, fun hk => mt hlost.1 (h.kept hk), ?_, h.told⟩
  · have hp := h.places i
    show ([] : List Nat).count i + (stack.flatMap Frame.ids).count i + (ids (w.writeQueue ++ [entry])).count i ≤
      (List.range w.accepted).count i
    rw [ids, map_append, count_append, count_nil]
    have hone : ([entry].map Entry.id).count i = [entry.id].count i := rfl
    have hq : (w.writeQueue.map Entry.id).count i = (ids w.writeQueue).count i := rfl
    omega
  · refine h.length.imp hlost.2 ?_
    rintro ⟨walked, counted, hc⟩
    refine ⟨walked, counted ++ [entry], ?_, ?_, ?_, hc.walked⟩
    · rw [← append_assoc, ← hc.queue]
    · have hl := hc.length
      unfold outstandingLength queuedLength at hl ⊢
      rw [map_append, sum_append]; simp only [map_cons, map_nil, sum_cons, sum_nil]; omega
    · intro e he
      cases counted with
      | nil =>
        obtain rfl : entry = e := by simpa using he
        exact hid
      | cons e' counted => exact hc.unwritten e (by simpa using he)

theorem acceptWrite_accounted (chunk : Chunk V) (encoding : Option BufferEncoding) (callback : Bool) (rest : Option EndRest)
    (h : Books keeps w [] stack trace) :
    Accounted keeps ((w.acceptWrite ofString kind chunk encoding callback rest).onto stack trace) := by
  have hmute : ∀ e ∈ [(.accepted w.accepted : Event V)], e.mute = true := by simp [Event.mute]
  have ha := (h.mute hmute).accept
  have hnew : w.accepted ∉ writtenIds (trace ++ [.accepted w.accepted]) := by
    intro hm; exact Nat.lt_irrefl _ ((h.mute hmute).fresh _ hm)
  have honto : ∀ b : Result V, ({ b with seen := .accepted w.accepted :: b.seen } : Result V).onto stack trace =
      b.onto stack (trace ++ [.accepted w.accepted]) := by
    intro b; simp [Block.onto]
  unfold acceptWrite
  rw [honto]
  split
  · have hq := Books.enqueue ⟨w.accepted, (w.decodeChunk ofString chunk encoding).1,
      (w.decodeChunk ofString chunk encoding).2, callback⟩ hnew ha
    refine writeRest_accounted rest hq (fun _ _ => .inr (.inr ⟨w.accepted, Nat.lt_succ_self _, hnew⟩))
  · exact ha.write rfl

theorem Needs.of_not_alive (ha : ¬ w.Alive) : Needs w stack trace := fun hal => absurd hal ha

theorem refused_accounted (error : WritableError) (h : Books keeps w [] stack trace) :
    Accounted keeps ((w.refused error).onto stack trace) := by
  have hb := (errorOrDestroy_mute error).books h
  have hna := errorOrDestroy_alive (w := w) error
  refine ⟨?_, Needs.of_not_alive hna⟩
  have hr : Books keeps (w.errorOrDestroy error).1 [] stack (trace ++ (w.errorOrDestroy error).2 ++ [.writeReturned false]) :=
    hb.returned (fun _ => .inr hna)
  rw [append_assoc] at hr; exact hr

theorem write_accounted (chunk : Chunk V) (encoding : Option BufferEncoding) (callback : Bool)
    (h : Books keeps w [] stack trace) (hn : Needs w stack trace) :
    Accounted keeps ((w.write ofString kind chunk encoding callback).onto stack trace) := by
  unfold write
  cases w.rejectWrite with
  | none => exact acceptWrite_accounted chunk encoding callback none h
  | some error =>
    cases callback with
    | true => exact accounted ⟨rfl, id, by simp [Event.mute], by simp [Frame.isFlush]⟩ h hn
    | false => exact refused_accounted error h

theorem callEnd_accounted (chunk : Option (Chunk V)) (encoding : Option BufferEncoding) (done : Option Nat)
    (h : Books keeps w [] stack trace) (hn : Needs w stack trace) :
    Accounted keeps ((w.callEnd ofString kind chunk encoding done).onto stack trace) := by
  unfold callEnd
  cases chunk with
  | none => exact uncorkAll_accounted _ h hn
  | some chunk =>
    cases w.rejectWrite with
    | none => exact acceptWrite_accounted chunk encoding false _ h
    | some error =>
      have hb := (errorOrDestroy_mute error).books h
      have honto : ∀ (es : List (Event V)) (b : Result V),
          ({ b with seen := es ++ b.seen } : Result V).onto stack trace = b.onto stack (trace ++ es) := by
        intro es b; simp [Block.onto]
      rw [honto]
      exact uncorkAll_accounted ⟨done, some error⟩ hb (Needs.of_not_alive (errorOrDestroy_alive error))

theorem completed_accounted (h : Books keeps w [] stack trace) :
    Accounted keeps ((w.completed error).onto stack trace) := by
  unfold completed
  cases error with
  | some error => exact ⟨(errorOrDestroy_mute error).books h, Needs.of_not_alive (errorOrDestroy_alive error)⟩
  | none =>
    dsimp only
    split
    · refine ⟨?_, fun _ hd => by cases hd⟩
      have hw : writtenIds (trace ++ [.drain]) = writtenIds trace := by
        rw [writtenIds_append]; exact append_nil _
      have hlost : Lost w [] stack (trace ++ [.drain]) ↔ Lost w [] stack trace := by unfold Lost; rw [hw]
      have hd : Books keeps { w with writableNeedDrain := false } [] stack (trace ++ [.drain]) := by
        refine ⟨h.mark, h.places, hw ▸ h.fresh, h.calls, h.index, fun hk => mt hlost.1 (h.kept hk), ?_, fun _ hwt => ?_⟩
        · exact h.length.imp hlost.2 (fun ⟨walked, counted, hc⟩ => ⟨walked, counted, hc.queue, hc.length, hw ▸ hc.unwritten,
            hc.walked⟩)
        · rw [awaitsDrain_append] at hwt; cases hwt
      exact hd.pushes (by simp [Frame.isFlush])
    · next hmark =>
      have hn : Needs w stack trace := by
        intro _ hd
        refine h.busy ?_
        rw [hd] at hmark; simpa using hmark
      split
      · exact callFinal_mute.accounted h hn
      · exact accounted (.silent rfl id) h hn

theorem Books.settle {o : Outstanding V} (ho : o ∈ w.outstanding) (h : Books keeps w hand stack trace) : Books keeps
      { w with
        outstanding := w.outstanding.filter (fun o' => o'.call != o.call)
        writesInFlight := w.writesInFlight - 1
        writableLength := w.writableLength - o.length }
      hand stack trace := by
  have hone : ∀ n, (w.outstanding.map Outstanding.call).count n ≤ 1 := by
    intro n
    have hc := h.calls n
    rw [count_range] at hc
    split at hc <;> omega
  have hlen := ((settled_perm ho hone).map Outstanding.length).sum_nat
  rw [map_cons, sum_cons] at hlen
  refine ⟨h.mark, h.places, h.fresh, fun n => ?_, h.index, h.kept, ?_, h.told⟩
  · exact Nat.le_trans ((filter_sublist.map _).count_le n) (h.calls n)
  · refine h.length.imp_right (fun ⟨walked, counted, hc⟩ => ⟨walked, counted, hc.queue, ?_, hc.unwritten, hc.walked⟩)
    have hl := hc.length
    unfold outstandingLength queuedLength at hl ⊢
    rw [hlen] at hl
    simp only
    omega

theorem written_accounted {o : Outstanding V} (ho : o ∈ w.outstanding) (error : Option WritableError)
    (h : Books keeps w [] stack trace) : Accounted keeps ((w.written o error).onto stack trace) := by
  have hs := h.settle ho
  unfold written
  split
  · exact ⟨(hs.mute (by simp [Event.mute])).pushes (by simp [Frame.isFlush]),
      fun _ _ => .inr (.inl ⟨error, mem_cons_self⟩)⟩
  · exact completed_accounted error hs

theorem over_mute (ends : Bool) :
    Mute w { state := (if ends then w.destroy none else (w, [])).1, seen := (if ends then w.destroy none else (w, [])).2 } := by
  cases ends with
  | true => exact destroy_mute none
  | false => exact .silent rfl id

theorem finalized_mute : Mute w (w.finalized kind error) := by
  cases error with
  | some error =>
    have he := errorOrDestroy_mute (w := { w with finalOutstanding := false, finishCallbacks := [] }) error
    refine ⟨he.ledger, he.alive, fun e hm => ?_, forall_mem_nil _⟩
    exact (mem_append.1 hm).elim (endCallbacks_mute _ _ e) (he.seen e)
  | none =>
    have ho := over_mute (w := { w with finalOutstanding := false, writableFinished := true, finishCallbacks := [] })
    refine ⟨(ho _).ledger, (ho _).alive, fun e hm => ?_, forall_mem_nil _⟩
    obtain hm | hm := mem_append.1 hm
    · exact endCallbacks_mute _ _ e hm
    · obtain rfl | hm := mem_cons.1 hm
      · rfl
      · exact (ho _).seen e hm

/-! ## The moves -/

theorem call_accounted {k : Call V} (hb : w.call ofString kind k = some b) (h : Books keeps w [] stack trace)
    (hn : Needs w stack trace) : Accounted keeps (b.onto stack trace) := by
  cases k with
  | cork | setDefaultEncoding encoding | readableEnd => cases hb; exact accounted (w := w) (.silent rfl id) h hn
  | uncork => cases hb; exact uncork_accounted h hn
  | write chunk encoding callback => cases hb; exact write_accounted chunk encoding callback h hn
  | callEnd chunk encoding done => cases hb; exact callEnd_accounted chunk encoding done h hn
  | destroy error => cases hb; exact (destroy_mute error).accounted h hn
  | written n error =>
    obtain ⟨o, ho, rfl⟩ := map_eq_some_iff.1 hb; exact written_accounted (mem_of_find?_eq_some ho) error h
  | finalized error =>
    unfold call at hb
    dsimp only at hb
    split at hb
    · cases hb; exact (finalized_mute error).accounted h hn
    · cases hb

theorem Needs.pop (h : Needs w (f :: stack) trace) (hf : ∀ error, f ≠ .completing error) : Needs w stack trace := by
  intro ha hn
  refine (h ha hn).imp_right (Or.imp_left (fun ⟨error, hm⟩ => ⟨error, ?_⟩))
  exact (mem_cons.1 hm).resolve_left (fun heq => hf error heq.symm)

/-- The flush of a `Duplex` that ends here drops no chunk. -/
def Keeps (c : Config (Writable V) (Frame V) (Event V)) : Move (Call V) → Prop
  | .ret =>
    match c.stack with
    | .flushing (.indexed index queued) _ :: _ => queued ≤ index → ∀ e ∈ c.state.writeQueue, e.id ∈ writtenIds c.trace
    | _ => True
  | _ => True

instance (c : Config (Writable V) (Frame V) (Event V)) : DecidablePred (Keeps c)
  | .call _ => isTrue trivial
  | .ret => by
    obtain ⟨w, stack, trace⟩ := c
    unfold Keeps
    dsimp only
    split <;> infer_instance

theorem goOn_accounted (h : Books keeps w [] (f :: stack) trace) (hn : Needs w (f :: stack) trace)
    (hk : keeps → ∀ index queued rest, f = .flushing (.indexed index queued) rest → queued ≤ index →
      ∀ e ∈ w.writeQueue, e.id ∈ writtenIds trace) :
    Accounted keeps ((w.goOn kind f).onto stack trace) := by
  cases f with
  | writing rest => exact writeRest_accounted rest (h.pop rfl) (hn.pop nofun)
  | flushing flush rest =>
    have hn' := hn.pop nofun
    cases flush with
    | taken queue =>
      have hp := h.pop rfl
      cases queue with
      | cons entry queue => exact hp.write rfl
      | nil =>
        cases rest with
        | none => exact accounted (.silent rfl id) hp hn'
        | some rest => exact uncorkAll_accounted rest hp hn'
    | indexed index queued =>
      unfold goOn
      dsimp only
      split
      · next hi => exact h.round hi
      · next hi =>
        have he := h.empty (fun hkp => hk hkp index queued rest rfl (by omega))
        have hne : Needs { w with writeQueue := [] } stack trace := hn'.of_core rfl rfl rfl id
        cases rest with
        | none => exact accounted (.silent rfl id) he hne
        | some rest => exact uncorkAll_accounted rest he hne
  | refusing error => exact refused_accounted error (h.pop rfl)
  | completing error => exact completed_accounted error (h.pop rfl)
  | draining =>
    have hp := h.pop rfl
    have hn' := hn.pop nofun
    unfold goOn
    dsimp only
    split
    · exact callFinal_mute.accounted hp hn'
    · exact accounted (.silent rfl id) hp hn'
  | final => exact accounted (.silent rfl id) (h.pop rfl) (hn.pop nofun)

theorem accounted_step {c c' : Config (Writable V) (Frame V) (Event V)} {l : Move (Call V)} (hk : keeps → Keeps c l)
    (h : Accounted keeps c) (hst : (program ofString kind).step c l = some c') : Accounted keeps c' := by
  cases l with
  | call k => obtain ⟨-, b, hb, rfl⟩ := Reentrant.step_call hst; exact call_accounted hb h.books h.needs
  | ret =>
    obtain ⟨f, fs, hs, rfl⟩ := Reentrant.step_ret hst
    obtain ⟨hb, hn⟩ := h
    rw [hs] at hb hn
    refine goOn_accounted hb hn (fun hkp index queued rest hf => ?_)
    have hkeep := hk hkp
    unfold Keeps at hkeep; rw [hs, hf] at hkeep; exact hkeep

/-! ## No drain is lost -/

/-- Every accepted chunk was passed to `_write`, and every `_write` has called back, with no error; its callback is over, too. -/
structure Settled (c : Config (Writable V) (Frame V) (Event V)) : Prop where
  alive : c.state.Alive
  open_ : c.state.writableEnded = false
  written : ∀ i < c.state.accepted, i ∈ writtenIds c.trace
  outstanding : c.state.outstanding = []
  callbacks : ∀ error, .completing error ∉ c.stack

/-- Nothing waits for a `'drain'`. -/
def Drained (c : Config (Writable V) (Frame V) (Event V)) : Prop := c.state.writableNeedDrain = false ∧
    ∀ pre post, c.trace = pre ++ .writeReturned false :: post → .drain ∈ post

/-- Nothing goes on, and nothing is corked. -/
structure Quiescent (c : Config (Writable V) (Frame V) (Event V)) : Prop where
  alive : c.state.Alive
  open_ : c.state.writableEnded = false
  stack : c.stack = []
  outstanding : c.state.outstanding = []
  queue : c.state.writeQueue = []

theorem Accounted.drained {c : Config (Writable V) (Frame V) (Event V)} (h : Accounted keeps c) (hs : Settled c) : Drained c := by
  have hneed : c.state.writableNeedDrain = false := by
    refine Bool.eq_false_iff.2 (fun hd => ?_)
    obtain ho | ⟨error, he⟩ | ⟨i, hi, hw⟩ := h.needs hs.alive hd
    · exact ho hs.outstanding
    · exact hs.callbacks error he
    · exact hw (hs.written i hi)
  refine ⟨hneed, fun pre post hes => drain_after (Bool.eq_false_iff.2 (fun hwt => ?_)) hes⟩
  rw [h.books.told hs.alive hwt] at hneed; cases hneed

theorem Accounted.settled {c : Config (Writable V) (Frame V) (Event V)} (h : Accounted True c) (hq : Quiescent c) :
    Settled c := by
  refine ⟨hq.alive, hq.open_, fun i hi => ?_, hq.outstanding, fun error he => ?_⟩
  · by_contra hw
    refine h.books.kept trivial ⟨i, hi, hw, not_mem_nil, ?_, ?_⟩
    · rw [hq.stack]; exact not_mem_nil
    · rw [hq.queue]; exact not_mem_nil
  · rw [hq.stack] at he; cases he

variable {objectMode autoDestroy decodeStrings : Bool} {highWaterMark : Nat} {defaultEncoding : BufferEncoding}
  {ls : List (Move (Call V))} {c : Config (Writable V) (Frame V) (Event V)}

theorem accounted_run {P : Config (Writable V) (Frame V) (Event V) → Move (Call V) → Prop}
    (keeps : Prop) (hP : keeps → ∀ c l, P c l → Keeps c l) (hmark : 0 < highWaterMark)
    (h : Run (program ofString kind).step P (create objectMode highWaterMark autoDestroy decodeStrings defaultEncoding) ls c) :
    Accounted keeps c := by
  refine h.invariant (fun c l c' hI hPc hst => accounted_step (fun hk => hP hk c l hPc) hI hst) ?_
  have hlost : ¬ Lost (create objectMode highWaterMark autoDestroy decodeStrings defaultEncoding :
      Config (Writable V) (Frame V) (Event V)).state [] [] [] := by
    rintro ⟨i, hi, -⟩; exact Nat.not_lt_zero i hi
  refine ⟨⟨hmark, fun _ => Nat.le_refl _, forall_mem_nil _, fun _ => Nat.le_refl _, nofun, fun _ => hlost, .inr ⟨[], [], rfl, ?_, nofun,
    .inl rfl⟩, fun _ hwt => by cases hwt⟩, fun _ hd => by cases hd⟩
  exact Nat.zero_le _

/-- With a mark of 0 a `write` returns `false`, its `_write` calls back, and there is no `'drain'`. -/
theorem no_drain_at_zero (ofString : BufferEncoding → List UInt16 → Bytes) (kind : Kind)
    (objectMode autoDestroy decodeStrings : Bool) (defaultEncoding : BufferEncoding) :
    ∃ (ls : List (Move (Call V))) (c : Config (Writable V) (Frame V) (Event V)),
      Run (program ofString kind).step (fun _ _ => True)
        (create objectMode 0 autoDestroy decodeStrings defaultEncoding) ls c ∧ Settled c ∧ ¬ Drained c := by
  have hrun : Run (program ofString kind).step (fun _ _ => True)
      (create objectMode 0 autoDestroy decodeStrings defaultEncoding : Config (Writable V) (Frame V) (Event V))
      [.call (.write (.buffer [0]) none false), .call (.written 0 none), .ret] _ := Run.of_runs rfl
  refine ⟨_, _, hrun, ⟨⟨rfl, rfl⟩, rfl, fun i hi => ?_, rfl, nofun⟩, fun hd => ?_⟩
  · have h0 : i = 0 := Nat.lt_one_iff.1 hi; rw [h0]; exact mem_cons_self
  · have h1 := hd.1; cases h1

/-- **No drain is lost**, for every mark but 0: once each accepted chunk was passed to `_write` and each `_write` has called back
without an error, `writableNeedDrain` is not set, and each `write` that returned `false` was followed by a `'drain'`. When no
flush of a `Duplex` has dropped a chunk, that holds whenever nothing goes on and nothing is queued. -/
theorem no_lost_drain (ofString : BufferEncoding → List UInt16 → Bytes) (kind : Kind)
    (objectMode autoDestroy decodeStrings : Bool) (highWaterMark : Nat) (defaultEncoding : BufferEncoding) :
    ((∀ (ls : List (Move (Call V))) (c : Config (Writable V) (Frame V) (Event V)),
        Run (program ofString kind).step (fun _ _ => True)
          (create objectMode highWaterMark autoDestroy decodeStrings defaultEncoding) ls c → Settled c → Drained c) ↔
      0 < highWaterMark) ∧
    (0 < highWaterMark → ∀ (ls : List (Move (Call V))) (c : Config (Writable V) (Frame V) (Event V)),
      Run (program ofString kind).step Keeps
        (create objectMode highWaterMark autoDestroy decodeStrings defaultEncoding) ls c → Quiescent c → Drained c) := by
  refine ⟨⟨fun h => ?_, fun hmark ls c hrun hs => ?_⟩, fun hmark ls c hrun hq => ?_⟩
  · by_contra h0
    obtain rfl : highWaterMark = 0 := by omega
    obtain ⟨ls, c, hrun, hs, hd⟩ := no_drain_at_zero (V := V) ofString kind objectMode autoDestroy decodeStrings
      defaultEncoding
    exact hd (h ls c hrun hs)
  · exact (accounted_run False False.elim hmark hrun).drained hs
  · have hacc := accounted_run True (fun _ _ _ hP => hP) hmark hrun
    exact hacc.drained (hacc.settled hq)

/-- Two corked chunks are flushed by a `Duplex`; the callback of the first `_write` emits `'drain'`. -/
theorem no_lost_drain_flush : ∃ c : Config (Writable Nat) (Frame Nat) (Event Nat),
    .writeReturned false ∈ c.trace ∧ Drained c := by
  have h : (runs (fun c l => if decide (Keeps c l) then (program (fun _ _ => []) .duplex).step c l else none)
      (create true 1 true true .utf8 : Config (Writable Nat) (Frame Nat) (Event Nat))
      [.call .cork, .call (.write (.other 7) none false), .call (.write (.other 8) none false), .call .uncork,
        .call (.written 0 none), .ret, .ret, .call (.written 1 none), .ret]).any
      (fun c => .writeReturned false ∈ c.trace ∧ (c.state.destroyed = false ∧ c.state.errored = none) ∧
        c.state.writableEnded = false ∧ c.stack = [] ∧ c.state.outstanding = [] ∧ c.state.writeQueue = []) = true := by
    decide +kernel
  obtain ⟨c, hc, hp⟩ := (Option.any_eq_true _ _).1 h
  obtain ⟨hret, halive, hopen, hstack, hout, hqueue⟩ := of_decide_eq_true hp
  have hrun := (Run.of_guarded (fun c l => decide (Keeps c l)) hc).mono (fun _ _ => of_decide_eq_true)
  exact ⟨c, hret, (no_lost_drain (fun _ _ => []) .duplex true true true 1 .utf8).2 (by decide) _ c hrun
    ⟨halive, hopen, hstack, hout, hqueue⟩⟩

/-- The claimed drain does not come when the mark is 0. -/
theorem zero_mark_stalls : ¬ ∀ (kind : Kind) (highWaterMark : Nat) (ls : List (Move (Call Nat)))
    (c : Config (Writable Nat) (Frame Nat) (Event Nat)),
    Run (program (fun _ _ => []) kind).step (fun _ _ => True) (create true highWaterMark true true .utf8) ls c →
      Settled c → Drained c := by
  intro h
  obtain ⟨ls, c, hrun, hs, hd⟩ := no_drain_at_zero (V := Nat) (fun _ _ => []) .writable true true true .utf8
  exact hd (h .writable 0 ls c hrun hs)

end NodeCompat.Stream.Writable
