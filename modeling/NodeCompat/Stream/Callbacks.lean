import NodeCompat.Stream.AfterDestroy
import NodeCompat.Stream.Serial
import Mathlib.Data.List.Nodup

/-!
# The callbacks of `write` and `end`

A callback of `end` is answered at once, or held by the `end` that is under way, or waits in `finishCallbacks_` until `_final`
has called back or the stream is destroyed. The callback of a `write` that is refused is called at once; else it goes with its
chunk, and is called when the `_write` of the chunk calls back. `Callbacks` counts them, for a block that has some in hand.

Two things are by design: `destroy` does not wait for a `_write` that is outstanding, and an `end` that is the first one on a
stream that is destroyed already (`Late`) is left waiting.
-/

namespace NodeCompat.Stream.Writable

open List Option Bool

variable {V : Type} {ofString : BufferEncoding → List UInt16 → Bytes} {kind : Kind} {w : Writable V} {b : Result V}

/-! ## What is called, and what waits -/

/-- The callbacks of `end` that were called. -/
def endCalls (es : List (Event V)) : List Nat := es.filterMap fun
    | .endCallback callback _ => some callback
    | _ => none

/-- The callbacks of `write` that were called. -/
def called (es : List (Event V)) : List (Option Nat × Option WritableError) := es.filterMap fun
    | .writeCallback id error => some (id, error)
    | _ => none

theorem endCalls_append (es es' : List (Event V)) : endCalls (es ++ es') = endCalls es ++ endCalls es' :=
  filterMap_append

theorem called_append (es es' : List (Event V)) : called (es ++ es') = called es ++ called es' := filterMap_append

def restDone (rest : Option EndRest) : List Nat := (rest.bind EndRest.done).toList

/-- The callback of an `end` that goes on with the frame. -/
def Frame.done : Frame V → List Nat
  | .writing rest => restDone rest
  | .flushing _ rest => restDone rest
  | _ => []

/-- Events that are none of a callback, and not `'finish'`. -/
def Event.inert : Event V → Bool
  | .writeCallback _ _ | .endCallback _ _ | .finish => false
  | _ => true

theorem inert_nil {es : List (Event V)} (h : ∀ e ∈ es, e.inert = true) : endCalls es = [] ∧ called es = [] := by
  constructor
  · refine filterMap_eq_nil_iff.2 (fun e he => ?_)
    have hi := h e he
    cases e <;> first | rfl | cases hi
  · refine filterMap_eq_nil_iff.2 (fun e he => ?_)
    have hi := h e he
    cases e <;> first | rfl | cases hi

/-! ## The books -/

structure Callbacks (late calm : Prop) (given : List Nat) (answered : List (Option Nat × Option WritableError))
    (w : Writable V) (hand : List Nat) (stack : List (Frame V)) (trace : List (Event V)) : Prop where
  ends : ∀ n, given.count n = (endCalls trace).count n + w.finishCallbacks.count n + hand.count n +
    (stack.flatMap Frame.done).count n
  called : called trace = answered
  finish : .finish ∈ trace → w.writableFinished = true
  success : ∀ n, .endCallback n none ∈ trace → .finish ∈ trace
  ended : w.finalPending = true ∨ w.finalOutstanding = true ∨ w.writableFinished = true → w.writableEnded = true
  idle : w.writableEnded = false → w.finishCallbacks = []
  finished : w.writableFinished = true → w.finishCallbacks = []
  one : w.destroyed = true → w.finishCallbacks.length ≤ 1
  destroyed : late ∨ (w.destroyed = true → w.finishCallbacks = [])
  inFlight : w.writesInFlight = w.outstanding.length
  calls : ∀ n, (w.outstanding.map Outstanding.call).count n ≤ (List.range w.calls).count n
  shut : calm → w.writableEnded = true → w.writeQueue = [] ∧ ∀ f ∈ stack, f.isFlush = false
  final : calm → w.finalOutstanding = true ∨ w.writableFinished = true → w.outstanding = []

/-- What the books are about. -/
structure Facts (V : Type) where
  life : Lifetime
  ended : Bool
  finished : Bool
  pending : Bool
  final : Bool
  inFlight : Nat
  calls : Nat
  outstanding : List (Outstanding V)
  queue : List (Entry V)

def facts (w : Writable V) : Facts V :=
  ⟨w.toLifetime, w.writableEnded, w.writableFinished, w.finalPending, w.finalOutstanding, w.writesInFlight, w.calls,
    w.outstanding, w.writeQueue⟩

/-- The stream is destroyed and was never ended: an `end` comes late. -/
def Late (w : Writable V) : Prop := w.destroyed = true ∧ w.errored = none ∧ w.writableEnded = false

variable {late calm : Prop} {given : List Nat} {answered : List (Option Nat × Option WritableError)} {hand : List Nat}
  {stack : List (Frame V)} {trace : List (Event V)} {f : Frame V}

theorem late_of_errorOrDestroy {error : WritableError} (h : (w.errorOrDestroy error).1.Late) : w.Late := by
  unfold errorOrDestroy at h
  split at h
  · exact h
  · next hd =>
    split at h
    · unfold destroy at h; rw [if_neg hd] at h; cases h.2.1
    · cases h.2.1

namespace Callbacks

variable (done : Option Nat)

variable (error : WritableError)

theorem of_facts {w' : Writable V} (h : Callbacks late calm given answered w hand stack trace) (hw : w'.facts = w.facts) :
    Callbacks late calm given answered w' hand stack trace := by
  have hl : w'.toLifetime = w.toLifetime := congrArg Facts.life hw
  have he : w'.writableEnded = w.writableEnded := congrArg Facts.ended hw
  have hf : w'.writableFinished = w.writableFinished := congrArg Facts.finished hw
  have hp : w'.finalPending = w.finalPending := congrArg Facts.pending hw
  have ho : w'.finalOutstanding = w.finalOutstanding := congrArg Facts.final hw
  have hi : w'.writesInFlight = w.writesInFlight := congrArg Facts.inFlight hw
  have hn : w'.calls = w.calls := congrArg Facts.calls hw
  have hout : w'.outstanding = w.outstanding := congrArg Facts.outstanding hw
  have hq : w'.writeQueue = w.writeQueue := congrArg Facts.queue hw
  obtain ⟨h₁, h₂, h₃, h₄, h₅, h₆, h₇, h₈, h₉, h₁₀, h₁₁, h₁₂, h₁₃⟩ := h
  constructor <;> first | assumption | (simp only [hl, he, hf, hp, ho, hi, hn, hout, hq]; assumption)

theorem inert (es : List (Event V)) (h : Callbacks late calm given answered w hand stack trace)
    (hes : ∀ e ∈ es, e.inert = true) : Callbacks late calm given answered w hand stack (trace ++ es) := by
  obtain ⟨hends, hcalled⟩ := inert_nil hes
  have hmem : ∀ e : Event V, e.inert = false → (e ∈ trace ++ es ↔ e ∈ trace) := by
    intro e he
    rw [mem_append]
    refine or_iff_left (fun hm => ?_)
    rw [hes e hm] at he; cases he
  refine { h with ends := fun n => ?_, called := ?_, finish := fun hm => ?_, success := fun n hm => ?_ }
  · rw [endCalls_append, hends, append_nil]; exact h.ends n
  · rw [called_append, hcalled, append_nil]; exact h.called
  · exact h.finish ((hmem _ rfl).1 hm)
  · exact (hmem _ rfl).2 (h.success n ((hmem _ rfl).1 hm))

theorem push (h : Callbacks late calm given answered w (hand ++ f.done) stack trace)
    (hf : f.isFlush = true → calm → w.writableEnded = false) :
    Callbacks late calm given answered w hand (f :: stack) trace := by
  refine { h with ends := fun n => ?_, shut := fun hc he => ⟨(h.shut hc he).1, fun g hg => ?_⟩ }
  · have hn := h.ends n; rw [count_append] at hn; rw [flatMap_cons, count_append]; omega
  · obtain rfl | hg := mem_cons.1 hg
    · refine eq_false_iff.2 (fun hfl => ?_)
      rw [hf hfl hc] at he; cases he
    · exact (h.shut hc he).2 g hg

theorem pop (h : Callbacks late calm given answered w hand (f :: stack) trace) :
    Callbacks late calm given answered w (hand ++ f.done) stack trace := by
  refine { h with
    ends := fun n => ?_
    shut := fun hc he => ⟨(h.shut hc he).1, fun g hg => (h.shut hc he).2 g (mem_cons_of_mem _ hg)⟩ }
  have hn := h.ends n
  rw [flatMap_cons, count_append] at hn; rw [count_append]; omega

/-! ### The callbacks of `end` -/

theorem answer
    (h : Callbacks late calm given answered w done.toList stack trace) :
    Callbacks late calm given answered w [] stack
      (trace ++ (done.map (fun callback => .endCallback callback (some error))).toList) := by
  cases done with
  | none => rw [map_none, toList_none, append_nil]; exact h
  | some callback =>
    have hfin : .finish ∈ trace ++ [(.endCallback callback (some error) : Event V)] ↔ .finish ∈ trace := by simp
    refine { h with ends := fun n => ?_, called := ?_, finish := fun hm => ?_, success := fun n hm => ?_ }
    · have hn := h.ends n
      rw [map_some, toList_some, endCalls_append, count_append, count_nil]
      rw [toList_some] at hn
      have hone : (endCalls [(.endCallback callback (some error) : Event V)]).count n = [callback].count n := rfl
      omega
    · rw [called_append]; exact (append_nil _).trans h.called
    · exact h.finish (hfin.1 hm)
    · exact hfin.2 (h.success n (by simpa using hm))

theorem setEnded (h : Callbacks late calm given answered w hand stack trace)
    (hq : calm → w.writeQueue = [] ∧ ∀ f ∈ stack, f.isFlush = false) :
    Callbacks late calm given answered { w with writableEnded := true } hand stack trace :=
  { h with ended := fun _ => rfl, idle := nofun, shut := fun hc _ => hq hc }

theorem await (h : Callbacks late calm given answered w done.toList stack trace)
    (he : w.writableEnded = true) (hf : w.writableFinished = false)
    (hd : w.destroyed = true → late ∧ w.finishCallbacks = []) :
    Callbacks late calm given answered (w.awaitFinish done) [] stack trace := by
  cases done with
  | none => exact h
  | some callback =>
    refine { h with
      ends := fun n => ?_
      idle := fun hn => ?_
      finished := fun hn => ?_
      one := fun hn => ?_
      destroyed := ?_ }
    · have hn := h.ends n
      rw [toList_some] at hn
      show given.count n = (endCalls trace).count n + (w.finishCallbacks ++ [callback]).count n + ([] : List Nat).count n +
        (stack.flatMap Frame.done).count n
      rw [count_append, count_nil]; omega
    · rw [show w.writableEnded = false from hn] at he; cases he
    · rw [show w.writableFinished = true from hn] at hf; cases hf
    · show (w.finishCallbacks ++ [callback]).length ≤ 1; rw [(hd hn).2]; exact Nat.le_refl 1
    · by_cases hdd : w.destroyed = true
      · exact .inl (hd hdd).1
      · exact .inr (fun hn => absurd hn hdd)

theorem endCalls_settled (callbacks : List Nat) (error : Option WritableError) :
    endCalls (callbacks.map (fun callback => (.endCallback callback error : Event V))) = callbacks ∧
      Writable.called (callbacks.map (fun callback => (.endCallback callback error : Event V))) = [] := by
  induction callbacks with
  | nil => exact ⟨rfl, rfl⟩
  | cons callback callbacks ih => exact ⟨congrArg (List.cons callback) ih.1, ih.2⟩

theorem settle (h : Callbacks late calm given answered w hand stack trace) :
    Callbacks late calm given answered (w.settleFinish (some error)).1 hand stack
      (trace ++ (w.settleFinish (some error)).2) := by
  obtain ⟨hends, hcalled⟩ := endCalls_settled (V := V) w.finishCallbacks (some error)
  have hmem : ∀ e : Event V, (∀ n, e ≠ .endCallback n (some error)) →
      (e ∈ trace ++ (w.settleFinish (some error)).2 ↔ e ∈ trace) := by
    intro e he
    rw [mem_append]
    refine or_iff_left (fun hm => ?_)
    obtain ⟨callback, -, heq⟩ := List.mem_map.1 hm; exact he callback heq.symm
  refine { h with
    ends := fun n => ?_
    called := ?_
    finish := fun hm => h.finish ((hmem .finish (by simp)).1 hm)
    success := fun n hm => (hmem .finish (by simp)).2 (h.success n ((hmem (.endCallback n none) (by simp)).1 hm))
    idle := fun _ => rfl
    finished := fun _ => rfl
    one := fun _ => Nat.zero_le _
    destroyed := .inr (fun _ => rfl) }
  · have hn := h.ends n
    show given.count n = (endCalls (trace ++ w.finishCallbacks.map _)).count n + ([] : List Nat).count n + hand.count n + _
    rw [endCalls_append, hends, count_append, count_nil]; omega
  · show Writable.called (trace ++ w.finishCallbacks.map _) = answered
    rw [called_append, hcalled, append_nil]; exact h.called

theorem destroy (error : Option WritableError) (h : Callbacks late calm given answered w hand stack trace) :
    Callbacks late calm given answered (w.destroy error).1 hand stack (trace ++ (w.destroy error).2) := by
  unfold Writable.destroy
  split
  · rw [append_nil]; exact h
  · obtain ⟨e, he⟩ : ∃ e, ((error <|> w.errored) <|> some .endDestroyed) = some e := by
      cases error <;> cases w.errored <;> exact ⟨_, rfl⟩
    have hs := h.settle e
    rw [← he] at hs
    have hi (events : List (Event V)) (hev : ∀ ev ∈ events, ev.inert = true) := hs.inert events hev
    simp only [append_assoc] at hi
    cases error with
    | none => exact { hi [.close] (by simp [Event.inert]) with one := fun _ => Nat.zero_le _, destroyed := .inr (fun _ => rfl) }
    | some e =>
      exact { hi [.error e, .close] (by simp [Event.inert]) with one := fun _ => Nat.zero_le _, destroyed := .inr (fun _ => rfl) }

theorem errorOrDestroy (h : Callbacks late calm given answered w hand stack trace) :
    Callbacks late calm given answered (w.errorOrDestroy error).1 hand stack (trace ++ (w.errorOrDestroy error).2) := by
  unfold Writable.errorOrDestroy
  split
  · rw [append_nil]; exact h
  · split
    · exact h.destroy (some error)
    · have hi := h.inert [.error error] (by simp [Event.inert]); exact { hi with one := hi.one, destroyed := hi.destroyed }

theorem callFinal (h : Callbacks late calm given answered w [] stack trace) (he : w.writableEnded = true)
    (hn : w.writesInFlight = 0) : Callbacks late calm given answered w.callFinal.state []
      (w.callFinal.frames ++ stack) (trace ++ w.callFinal.seen) := by
  have hout : w.outstanding = [] := length_eq_zero_iff.1 (h.inFlight.symm.trans hn)
  unfold Writable.callFinal
  dsimp only
  split
  · rw [append_nil]; exact { h with ended := fun _ => he, final := fun _ _ => hout }
  · have hi := h.inert [.final] (by simp [Event.inert])
    have hp : Callbacks late calm given answered w [] (.final :: stack) (trace ++ [.final]) := hi.push nofun
    exact { hp with ended := fun _ => he, final := fun _ _ => hout }

theorem firstEnd (h : Callbacks late calm given answered w done.toList stack trace)
    (he : w.writableEnded = false) (hq : calm → w.writeQueue = [] ∧ ∀ f ∈ stack, f.isFlush = false)
    (hlate : w.destroyed = true → late) : Callbacks late calm given answered (w.firstEnd done).state []
      ((w.firstEnd done).frames ++ stack) (trace ++ (w.firstEnd done).seen) := by
  have hf : w.writableFinished = false := by
    refine eq_false_iff.2 (fun hf => ?_)
    rw [h.ended (.inr (.inr hf))] at he; cases he
  have hw : Callbacks late calm given answered (({ w with writableEnded := true }).awaitFinish done) [] stack trace :=
    (h.setEnded hq).await done rfl hf (fun hd => ⟨hlate hd, h.idle he⟩)
  have hcore : (({ w with writableEnded := true }).awaitFinish done).writableEnded = true := by
    cases done <;> rfl
  unfold Writable.firstEnd
  dsimp only
  split
  · rw [append_nil]; exact hw
  · split
    · rw [append_nil]; exact { hw with ended := fun _ => hcore }
    · next hflight => exact hw.callFinal hcore (by omega)

theorem endRest (rest : EndRest) (h : Callbacks late calm given answered w rest.done.toList stack trace)
    (hq : calm → w.writeQueue = [] ∧ ∀ f ∈ stack, f.isFlush = false) (hlate : w.Late → late) :
    Callbacks late calm given answered (w.endRest rest).state [] ((w.endRest rest).frames ++ stack)
      (trace ++ (w.endRest rest).seen) := by
  unfold Writable.endRest
  cases rest.rejected with
  | some error => exact h.answer rest.done error
  | none =>
    dsimp only
    split
    · next hfirst => exact h.firstEnd rest.done hfirst.2 hq (fun hd => hlate ⟨hd, hfirst.1, hfirst.2⟩)
    · next hfirst =>
      split
      · exact h.answer rest.done _
      · next hf =>
        split
        · exact h.answer rest.done _
        · next hd =>
          split
          · exact h.answer rest.done _
          · next herr =>
            have he : w.writableEnded = true := by
              by_contra hne
              exact hfirst ⟨herr, eq_false_iff.2 hne⟩
            rw [append_nil]
            exact h.await rest.done he (eq_false_iff.2 hf) (fun hdd => absurd hdd hd)

/-! ### The callbacks of `write` -/

theorem perform {entry : Option (Entry V)} (h : Callbacks late calm given answered w f.done stack trace)
    (he : calm → w.writableEnded = false) :
    Callbacks late calm given answered (w.performWrite entry f).state [] ((w.performWrite entry f).frames ++ stack)
      (trace ++ (w.performWrite entry f).seen) := by
  have hi := h.inert [.write entry] (by simp [Event.inert])
  have hp : Callbacks late calm given answered w [] (f :: stack) (trace ++ [.write entry]) := hi.push (fun _ hc => he hc)
  refine { hp with inFlight := ?_, calls := fun n => ?_, final := fun hc hfin => ?_ }
  · simp only [performWrite, length_append, length_cons, length_nil, hp.inFlight]
  · have hn := hp.calls n; simp only [performWrite, map_append, count_append, map_cons, map_nil, range_succ]; omega
  · have hended := hp.ended (hfin.elim (fun ho => .inr (.inl ho)) (fun hf => .inr (.inr hf)))
    rw [he hc] at hended; cases hended

theorem enqueue (queue : List (Entry V)) (h : Callbacks late calm given answered w hand stack trace)
    (he : w.writableEnded = false) : Callbacks late calm given answered { w with writeQueue := queue } hand stack trace := by
  refine { h with shut := fun _ hended => ?_ }
  rw [show w.writableEnded = true from hended] at he; cases he

section

variable (h : Callbacks late calm given answered w hand stack trace)
include h

theorem clear : Callbacks late calm given answered { w with writeQueue := [] } hand stack trace :=
  { h with shut := fun hc he => ⟨rfl, (h.shut hc he).2⟩ }

theorem open_of_queue (hq : w.writeQueue ≠ []) : calm → w.writableEnded = false :=
  fun hc => eq_false_iff.2 (fun he => hq (h.shut hc he).1)

end

theorem flush (rest : Option EndRest) (h : Callbacks late calm given answered w (restDone rest) stack trace)
    (hns : calm → rest ≠ none → ∀ f ∈ stack, f.isFlush = false) (hlate : w.Late → late) :
    Callbacks late calm given answered (w.flush kind rest).state [] ((w.flush kind rest).frames ++ stack)
      (trace ++ (w.flush kind rest).seen) := by
  have hnil : Callbacks late calm given answered { w with writableLength := 0, writeQueue := [] } (restDone rest) stack trace :=
    h.clear.of_facts rfl
  cases kind with
  | writable =>
    unfold Writable.flush takeQueue
    cases hq : w.writeQueue with
    | nil =>
      cases rest with
      | none => rw [append_nil]; exact hnil
      | some rest => exact hnil.endRest rest (fun hc => ⟨rfl, hns hc nofun⟩) hlate
    | cons entry queue => exact hnil.perform (h.open_of_queue (by simp [hq]))
  | duplex =>
    unfold Writable.flush walkQueue
    dsimp only
    split
    · next hpos =>
      have hw : Callbacks late calm given answered { w with writableLength := 0 } (restDone rest) stack trace := h.of_facts rfl
      exact hw.perform (h.open_of_queue (ne_nil_of_length_pos hpos))
    · cases rest with
      | none => rw [append_nil]; exact hnil
      | some rest => exact hnil.endRest rest (fun hc => ⟨rfl, hns hc nofun⟩) hlate

theorem uncorkAll (rest : EndRest) (h : Callbacks late calm given answered w rest.done.toList stack trace)
    (hns : calm → ∀ f ∈ stack, f.isFlush = false) (htidy : calm → w.Tidy) (hlate : w.Late → late) :
    Callbacks late calm given answered (w.uncorkAll kind rest).state [] ((w.uncorkAll kind rest).frames ++ stack)
      (trace ++ (w.uncorkAll kind rest).seen) := by
  unfold Writable.uncorkAll
  split
  · next h0 => exact h.endRest rest (fun hc => ⟨htidy hc h0, hns hc⟩) hlate
  · have hw : Callbacks late calm given answered { w with writableCorked := 0 } (restDone (some rest)) stack trace :=
      h.of_facts rfl
    exact hw.flush (some rest) (fun hc _ => hns hc) hlate

theorem uncork (h : Callbacks late calm given answered w [] stack trace) (hlate : w.Late → late) :
    Callbacks late calm given answered (w.uncork kind).state [] ((w.uncork kind).frames ++ stack)
      (trace ++ (w.uncork kind).seen) := by
  unfold Writable.uncork
  dsimp only
  split
  · rw [append_nil]; exact h
  · split
    · rw [append_nil]; exact h.of_facts rfl
    · have hw : Callbacks late calm given answered { w with writableCorked := w.writableCorked - 1 } (restDone none) stack trace :=
        h.of_facts rfl
      exact hw.flush none (fun _ hn => absurd rfl hn) hlate

theorem writeRest (rest : Option EndRest) (h : Callbacks late calm given answered w (restDone rest) stack trace)
    (hns : calm → rest ≠ none → ∀ f ∈ stack, f.isFlush = false) (htidy : calm → w.Tidy) (hlate : w.Late → late) :
    Callbacks late calm given answered (w.writeRest kind rest).state [] ((w.writeRest kind rest).frames ++ stack)
      (trace ++ (w.writeRest kind rest).seen) := by
  unfold Writable.writeRest
  generalize decide (w.writableLength < w.writableHighWaterMark) = accepted
  have hmark : Callbacks late calm given answered (if accepted then w else { w with writableNeedDrain := true })
      (restDone rest) stack trace := by
    cases accepted
    · exact h.of_facts rfl
    · exact h
  cases rest with
  | none => exact hmark.inert _ (by simp [Event.inert])
  | some rest =>
    cases accepted <;> exact hmark.uncorkAll rest (fun hc => hns hc nofun) htidy hlate

theorem acceptWrite (chunk : Chunk V) (encoding : Option BufferEncoding) (callback : Bool) (rest : Option EndRest)
    (h : Callbacks late calm given answered w (restDone rest) stack trace) (he : w.writableEnded = false)
    (hns : calm → rest ≠ none → ∀ f ∈ stack, f.isFlush = false) (hlate : w.Late → late) :
    Callbacks late calm given answered (w.acceptWrite ofString kind chunk encoding callback rest).state []
      ((w.acceptWrite ofString kind chunk encoding callback rest).frames ++ stack)
      (trace ++ (w.acceptWrite ofString kind chunk encoding callback rest).seen) := by
  have hi := h.inert [.accepted w.accepted] (by simp [Event.inert])
  have hseen : ∀ b : Result V,
      Callbacks late calm given answered b.state [] (b.frames ++ stack) (trace ++ [.accepted w.accepted] ++ b.seen) →
      Callbacks late calm given answered b.state [] (b.frames ++ stack) (trace ++ .accepted w.accepted :: b.seen) := by
    intro b hb; rw [append_assoc] at hb; exact hb
  unfold Writable.acceptWrite
  dsimp only
  refine hseen _ ?_
  split
  · next hcork =>
    have hqueue := hi.enqueue (w.writeQueue ++ [⟨w.accepted, (w.decodeChunk ofString chunk encoding).1,
      (w.decodeChunk ofString chunk encoding).2, callback⟩]) he
    have hq : Callbacks late calm given answered
        { w with
          accepted := w.accepted + 1
          writeQueue := w.writeQueue ++ [⟨w.accepted, (w.decodeChunk ofString chunk encoding).1,
            (w.decodeChunk ofString chunk encoding).2, callback⟩]
          writableLength := w.writableLength +
            streamChunkLength w.writableObjectMode (w.decodeChunk ofString chunk encoding).1 }
        (restDone rest) stack (trace ++ [.accepted w.accepted]) := hqueue.of_facts rfl
    exact hq.writeRest rest hns (fun _ h0 => absurd h0 (Nat.pos_iff_ne_zero.1 hcork)) hlate
  · have hw : Callbacks late calm given answered { w with accepted := w.accepted + 1 } (Frame.writing rest : Frame V).done stack
        (trace ++ [.accepted w.accepted]) := hi.of_facts rfl
    exact hw.perform (fun _ => he)

theorem reply (id : Option Nat) (error : Option WritableError)
    (h : Callbacks late calm given answered w hand stack trace) :
    Callbacks late calm given (answered ++ [(id, error)]) w hand stack (trace ++ [.writeCallback id error]) := by
  have hmem : ∀ e : Event V, e ≠ .writeCallback id error → (e ∈ trace ++ [.writeCallback id error] ↔ e ∈ trace) := by
    intro e he; rw [mem_append, mem_singleton]; exact or_iff_left he
  refine { h with
    ends := fun n => ?_
    called := ?_
    finish := fun hm => h.finish ((hmem .finish (by simp)).1 hm)
    success := fun n hm => (hmem .finish (by simp)).2 (h.success n ((hmem (.endCallback n none) (by simp)).1 hm)) }
  · rw [endCalls_append]; exact (append_nil (endCalls trace)).symm ▸ h.ends n
  · rw [called_append, h.called]; rfl

theorem refused (error : WritableError) (h : Callbacks late calm given answered w hand stack trace) :
    Callbacks late calm given answered (w.refused error).state hand ((w.refused error).frames ++ stack)
      (trace ++ (w.refused error).seen) := by
  have he := (h.errorOrDestroy error).inert [.writeReturned false] (by simp [Event.inert])
  rw [append_assoc] at he; exact he

theorem give (h : Callbacks late calm given answered w [] stack trace) :
    Callbacks late calm (given ++ done.toList) answered w done.toList stack trace := by
  refine { h with ends := fun n => ?_ }
  have hn := h.ends n
  rw [count_nil] at hn; rw [count_append]; omega

theorem callEnd (chunk : Option (Chunk V)) (encoding : Option BufferEncoding) (done : Option Nat)
    (h : Callbacks late calm given answered w [] stack trace) (hns : calm → ∀ f ∈ stack, f.isFlush = false)
    (htidy : calm → w.Tidy) (hlate : w.Late → late) :
    Callbacks late calm (given ++ done.toList) answered (w.callEnd ofString kind chunk encoding done).state []
      ((w.callEnd ofString kind chunk encoding done).frames ++ stack)
      (trace ++ (w.callEnd ofString kind chunk encoding done).seen) := by
  have hg := h.give done
  unfold Writable.callEnd
  cases chunk with
  | none => exact hg.uncorkAll ⟨done, none⟩ hns htidy hlate
  | some chunk =>
    cases hr : w.rejectWrite with
    | none =>
      have he : w.writableEnded = false := by
        unfold rejectWrite at hr
        refine eq_false_iff.2 (fun he => ?_)
        simp [he] at hr
      exact hg.acceptWrite chunk encoding false (some ⟨done, none⟩) he (fun hc _ => hns hc) hlate
    | some error =>
      have hl := errorOrDestroy_lifeStep (V := V) error
      have htidy' : calm → (w.errorOrDestroy error).1.Tidy := by
        intro hc
        unfold Tidy; rw [hl.core, hl.queue]; exact htidy hc
      dsimp only
      rw [← append_assoc]
      exact (hg.errorOrDestroy error).uncorkAll ⟨done, some error⟩ hns htidy' (fun hw => hlate (late_of_errorOrDestroy hw))

theorem completed (error : Option WritableError) (h : Callbacks late calm given answered w [] stack trace) :
    Callbacks late calm given answered (w.completed error).state [] ((w.completed error).frames ++ stack)
      (trace ++ (w.completed error).seen) := by
  unfold Writable.completed
  cases error with
  | some error => exact h.errorOrDestroy error
  | none =>
    dsimp only
    split
    · have hi : Callbacks late calm given answered w [] stack (trace ++ [.drain]) := h.inert _ (by simp [Event.inert])
      have hp : Callbacks late calm given answered w [] (.draining :: stack) (trace ++ [.drain]) := hi.push nofun
      exact hp.of_facts rfl
    · split
      · next hfinal =>
        simp only [and_eq_true, beq_iff_eq] at hfinal; exact h.callFinal (h.ended (.inl hfinal.1)) hfinal.2
      · rw [append_nil]; exact h

theorem settleWrite {o : Outstanding V} (ho : o ∈ w.outstanding) (length : Nat)
    (h : Callbacks late calm given answered w hand stack trace) :
    Callbacks late calm given answered
      { w with
        outstanding := w.outstanding.filter (fun o' => o'.call != o.call)
        writesInFlight := w.writesInFlight - 1
        writableLength := length }
      hand stack trace := by
  have hone : ∀ n, (w.outstanding.map Outstanding.call).count n ≤ 1 := fun n =>
    Nat.le_trans (h.calls n) (nodup_iff_count_le_one.1 nodup_range n)
  have hlength := (settled_perm ho hone).length_eq
  refine { h with
    inFlight := ?_
    calls := fun n => Nat.le_trans ((filter_sublist.map _).count_le n) (h.calls n)
    final := fun hc hf => ?_ }
  · rw [h.inFlight, hlength, length_cons, Nat.add_sub_cancel]
  · rw [h.final hc hf]; rfl

/-- What the callback of `write` is called with when `_write` calls back, if the chunk has one. -/
theorem written {o : Outstanding V} (ho : o ∈ w.outstanding) (error : Option WritableError)
    (h : Callbacks late calm given answered w [] stack trace) :
    Callbacks late calm given
      (answered ++ ((o.entry.filter Entry.callback).map (fun entry => (some entry.id, error))).toList) (w.written o error).state []
      ((w.written o error).frames ++ stack) (trace ++ (w.written o error).seen) := by
  have hs := h.settleWrite ho (w.writableLength - o.length)
  unfold Writable.written
  split
  · next id chunk encoding hentry =>
    rw [hentry]; exact (hs.reply (some id) error).push nofun
  · next hentry =>
    have hnone : o.entry.filter Entry.callback = none := by
      refine filter_eq_none_iff.2 (fun entry he hc => ?_)
      refine hentry entry.id entry.chunk entry.encoding ?_
      rw [he, ← hc]
    rw [hnone, map_none, toList_none, append_nil]; exact hs.completed error

theorem finishes (h : Callbacks late calm given answered w hand stack trace) (ho : w.finalOutstanding = true) :
    Callbacks late calm given answered
      { w with finalOutstanding := false, writableFinished := true, finishCallbacks := [] } hand stack
      (trace ++ (w.finishCallbacks.map (fun callback => .endCallback callback none) ++ [.finish])) := by
  obtain ⟨hends, hcalled⟩ := endCalls_settled (V := V) w.finishCallbacks none
  have he : w.writableEnded = true := h.ended (.inr (.inl ho))
  refine { h with
    ends := fun n => ?_
    called := ?_
    finish := fun _ => rfl
    success := fun _ _ => by simp
    ended := fun _ => he
    idle := fun _ => rfl
    finished := fun _ => rfl
    one := fun _ => Nat.zero_le _
    destroyed := .inr (fun _ => rfl)
    final := fun hc _ => h.final hc (.inl ho) }
  · have hn := h.ends n
    show given.count n = (endCalls (trace ++ (w.finishCallbacks.map _ ++ [.finish]))).count n + ([] : List Nat).count n +
      hand.count n + _
    rw [endCalls_append, endCalls_append, hends, count_append, count_append, count_nil]
    have hz : (endCalls [(.finish : Event V)]).count n = 0 := rfl
    omega
  · rw [called_append, called_append, hcalled]; exact (append_nil _).trans h.called

theorem gone (ends : Bool) (h : Callbacks late calm given answered w hand stack trace) :
    Callbacks late calm given answered (if ends then w.destroy none else (w, [])).1 hand stack
      (trace ++ (if ends then w.destroy none else (w, [])).2) := by
  cases ends with
  | true => exact h.destroy none
  | false => rw [if_neg Bool.false_ne_true, append_nil]; exact h

theorem finalized (error : Option WritableError) (h : Callbacks late calm given answered w [] stack trace)
    (ho : w.finalOutstanding = true) :
    Callbacks late calm given answered (w.finalized kind error).state [] ((w.finalized kind error).frames ++ stack)
      (trace ++ (w.finalized kind error).seen) := by
  cases error with
  | some error =>
    have hw : Callbacks late calm given answered { w with finalOutstanding := false } [] stack trace := { h with
        ended := fun hor => h.ended (hor.imp_right (Or.imp_left (by simp)))
        final := fun hc hor => h.final hc (hor.imp_left (by simp)) }
    have hs := (hw.settle error).errorOrDestroy error; rw [append_assoc] at hs; exact hs
  | none =>
    have hgone (ends : Bool) := (h.finishes ho).gone ends
    simp only [append_assoc] at hgone
    cases kind with
    | writable => exact hgone w.autoDestroy
    | duplex => exact hgone (w.autoDestroy && w.readableEnded)

end Callbacks

/-! ## The moves -/

/-- The callbacks given to `end`. -/
def Call.ends : Call V → List Nat
  | .callEnd _ _ done => done.toList
  | _ => []

/-- The callbacks of `write` that a call makes the stream call: of a refused chunk, or of the chunk whose `_write` calls back. -/
def answers (w : Writable V) : Call V → List (Option Nat × Option WritableError)
  | .write _ _ true => (w.rejectWrite.map (fun error => (none, some error))).toList
  | .written n error =>
    ((((w.outstanding.find? (fun o => o.call == n)).bind Outstanding.entry).filter Entry.callback).map
      (fun entry => (some entry.id, error))).toList
  | _ => []

def givenBy : Move (Call V) → List Nat
  | .call k => k.ends
  | .ret => []

def answeredBy (w : Writable V) : Move (Call V) → List (Option Nat × Option WritableError)
  | .call k => w.answers k
  | .ret => []

/-- An `end` goes on with the frame. -/
def Frame.endsAfter : Frame V → Bool
  | .writing rest | .flushing _ rest => rest.isSome
  | _ => false

/-- No `end` is called, or goes on, while another flush is under way. -/
def Apart (c : Config (Writable V) (Frame V) (Event V)) : Move (Call V) → Prop
  | .call (.callEnd _ _ _) => c.stack.any Frame.isFlush = false
  | .ret =>
    match c.stack with
    | f :: fs => f.endsAfter = true → fs.any Frame.isFlush = false
    | [] => True
  | _ => True

theorem forall_of_any {fs : List (Frame V)} (h : fs.any Frame.isFlush = false) : ∀ f ∈ fs, f.isFlush = false :=
  fun f hf => by simpa using List.any_eq_false.1 h f hf

namespace Callbacks

theorem write (chunk : Chunk V) (encoding : Option BufferEncoding) (callback : Bool)
    (h : Callbacks late calm given answered w [] stack trace) (hlate : w.Late → late) :
    Callbacks late calm given (answered ++ w.answers (.write chunk encoding callback))
      (w.write ofString kind chunk encoding callback).state [] ((w.write ofString kind chunk encoding callback).frames ++ stack)
      (trace ++ (w.write ofString kind chunk encoding callback).seen) := by
  unfold Writable.write
  cases hr : w.rejectWrite with
  | none =>
    have he : w.writableEnded = false := by
      unfold rejectWrite at hr
      refine eq_false_iff.2 (fun he => ?_)
      simp [he] at hr
    have hno : w.answers (.write chunk encoding callback) = [] := by
      cases callback with
      | true =>
        unfold answers; rw [hr]; rfl
      | false => rfl
    rw [hno, append_nil]
    exact h.acceptWrite chunk encoding callback none he (fun _ hn => absurd rfl hn) hlate
  | some error =>
    cases callback with
    | true =>
      have hone : w.answers (.write chunk encoding true) = [(none, some error)] := by
        unfold answers; rw [hr]; rfl
      rw [hone]; exact (h.reply none (some error)).push nofun
    | false =>
      rw [show w.answers (.write chunk encoding false) = [] from rfl, append_nil]; exact h.refused error

theorem call {k : Call V} (hb : w.call ofString kind k = some b) (h : Callbacks late calm given answered w [] stack trace)
    (hns : calm → ∀ chunk encoding done, k = .callEnd chunk encoding done → ∀ f ∈ stack, f.isFlush = false)
    (htidy : calm → w.Tidy) (hlate : w.Late → late) :
    Callbacks late calm (given ++ k.ends) (answered ++ w.answers k) b.state [] (b.frames ++ stack) (trace ++ b.seen) := by
  -- all but `end`, `write` and the callback of `_write` leave the lists alone
  have hnone : Callbacks late calm given answered b.state [] (b.frames ++ stack) (trace ++ b.seen) →
      Callbacks late calm (given ++ []) (answered ++ []) b.state [] (b.frames ++ stack) (trace ++ b.seen) := by
    rw [append_nil, append_nil]; exact id
  have hstill : ∀ w' : Writable V, w'.facts = w.facts →
      Callbacks late calm given answered w' [] ([] ++ stack) (trace ++ []) := by
    intro w' hw; rw [append_nil]; exact h.of_facts hw
  cases k with
  | cork | setDefaultEncoding encoding | readableEnd => cases hb; exact hnone (hstill _ rfl)
  | uncork => cases hb; exact hnone (h.uncork hlate)
  | write chunk encoding callback =>
    cases hb
    rw [show (Call.write chunk encoding callback).ends = [] from rfl, append_nil]
    exact h.write chunk encoding callback hlate
  | callEnd chunk encoding done =>
    cases hb
    rw [show w.answers (.callEnd chunk encoding done) = [] from rfl, append_nil]
    exact h.callEnd chunk encoding done (fun hc => hns hc _ _ _ rfl) htidy hlate
  | destroy error => cases hb; exact hnone (h.destroy error)
  | written n error =>
    obtain ⟨o, ho, rfl⟩ := map_eq_some_iff.1 hb
    have hans : w.answers (.written n error) =
        ((o.entry.filter Entry.callback).map (fun entry => (some entry.id, error))).toList := by
      unfold answers
      dsimp only; rw [ho]; rfl
    rw [show (Call.written n error : Call V).ends = [] from rfl, append_nil, hans]
    exact h.written (mem_of_find?_eq_some ho) error
  | finalized error =>
    unfold Writable.call at hb
    dsimp only at hb
    split at hb
    · next ho => cases hb; exact hnone (h.finalized error ho)
    · cases hb

theorem goOn (h : Callbacks late calm given answered w [] (f :: stack) trace)
    (hns : calm → f.endsAfter = true → ∀ g ∈ stack, g.isFlush = false) (htidy : calm → w.Tidy) (hlate : w.Late → late) :
    Callbacks late calm given answered (w.goOn kind f).state [] ((w.goOn kind f).frames ++ stack)
      (trace ++ (w.goOn kind f).seen) := by
  have hp := h.pop
  have hopen : f.isFlush = true → calm → w.writableEnded = false := by
    intro hf hc
    refine eq_false_iff.2 (fun he => ?_)
    rw [(h.shut hc he).2 f mem_cons_self] at hf; cases hf
  have hstill : Callbacks late calm given answered w [] stack trace →
      Callbacks late calm given answered w [] ([] ++ stack) (trace ++ []) := by
    rw [append_nil]; exact id
  cases f with
  | writing rest => exact hp.writeRest rest (fun hc hr => hns hc (isSome_iff_ne_none.2 hr)) htidy hlate
  | flushing flush rest =>
    cases flush with
    | taken queue =>
      cases queue with
      | cons entry queue => exact hp.perform (hopen rfl)
      | nil =>
        cases rest with
        | none => exact hstill hp
        | some rest => exact hp.uncorkAll rest (fun hc => hns hc rfl) htidy hlate
    | indexed index queued =>
      unfold Writable.goOn
      dsimp only
      split
      · exact hp.perform (hopen rfl)
      · have he := hp.clear
        cases rest with
        | none => rw [append_nil]; exact he
        | some rest => exact he.uncorkAll rest (fun hc => hns hc rfl) (fun _ _ => rfl) hlate
  | refusing error => exact hp.refused error
  | completing error => exact hp.completed error
  | draining =>
    unfold Writable.goOn
    dsimp only
    split
    · next hfinal =>
      simp only [and_eq_true, beq_iff_eq] at hfinal; exact Callbacks.callFinal hp (hp.ended (.inl hfinal.1)) hfinal.2
    · exact hstill hp
  | final => exact hstill hp

theorem mono {late' : Prop} (hl : late → late') (h : Callbacks late calm given answered w hand stack trace) :
    Callbacks late' calm given answered w hand stack trace :=
  { h with destroyed := h.destroyed.imp_left hl }

/-- **One move.** -/
theorem step {c c' : Config (Writable V) (Frame V) (Event V)} {l : Move (Call V)}
    (h : Callbacks late calm given answered c.state [] c.stack c.trace) (hP : calm → Apart c l) (htidy : calm → c.state.Tidy)
    (hst : (program ofString kind).step c l = some c') :
    Callbacks (late ∨ c.state.Late) calm (given ++ givenBy l) (answered ++ answeredBy c.state l) c'.state [] c'.stack
      c'.trace := by
  have h' : Callbacks (late ∨ c.state.Late) calm given answered c.state [] c.stack c.trace := h.mono .inl
  cases l with
  | call k =>
    obtain ⟨-, b, hb, rfl⟩ := Reentrant.step_call hst
    refine h'.call hb (fun hc chunk encoding done hk => ?_) htidy .inr
    subst hk; exact forall_of_any (hP hc)
  | ret =>
    obtain ⟨f, fs, hs, rfl⟩ := Reentrant.step_ret hst
    rw [hs] at h'
    rw [show givenBy (.ret : Move (Call V)) = [] from rfl, show answeredBy c.state (.ret : Move (Call V)) = [] from rfl,
      append_nil, append_nil]
    refine h'.goOn (fun hc hends => ?_) htidy .inr
    have hapart := hP hc
    unfold Apart at hapart; rw [hs] at hapart; exact forall_of_any (hapart hends)

end Callbacks

end NodeCompat.Stream.Writable
