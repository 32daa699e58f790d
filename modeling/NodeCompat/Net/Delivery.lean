import NodeCompat.Net.LiveSteps
import NodeCompat.Stream.TextDelivery

/-!
# What a socket delivers

A byte that the kernel has received waits in the kernel, as a chunk of the connection or in `pendingChunks_`, until it is
delivered; each of these keeps the order (`Flow.order`, `Flow.kernel`). That the last byte is delivered before `'end'`, and none
after it or after `destroy()`, is so in runs that are `Orderly`: no hang-up ends the reading before the kernel is empty, `'end'`
is not dispatched while chunks are held back by a pause, `destroy()` finds nothing that waits or a paused socket, which is not
resumed with something still waiting, and no connection is purged that has still to tell of something (`delivers`).
-/

namespace NodeCompat.Net.LiveSocket

open List Option Bool
open NodeCompat.Stream (BufferEncoding)
open ClientConnection (closeFromPeer create deliver_cases interestedIn nextEvent notified onReady onReady_appends readAvailable recvReady reports)

variable {toString : BufferEncoding → Bytes → List UInt16} {accepted : Bool} {s s' : LiveSocket}

/-! ## What is seen -/

def Event.chunk? : Event → Option Bytes
  | .chunk (.data b _) => some b
  | .chunk (.written b) => some b
  | _ => none

/-- The chunks that were emitted or written to the target of `pipe`. -/
def delivered (es : List Event) : List Bytes := es.filterMap Event.chunk?

/-- The bytes that the kernel has received. -/
def arrived (es : List Event) : Bytes := (es.filterMap fun
    | .arrived b => some b
    | _ => none).flatten

/-- No chunk goes out after `'end'` or after `destroy()`. -/
def Quiet (pre : List Event) (e : Event) : Prop := e.chunk?.isSome → .ended ∉ pre ∧ .destroyCalled ∉ pre

/-- Events that neither deliver nor end. -/
def Event.plain : Event → Bool
  | .chunk _ | .ended | .arrived _ | .destroyCalled => false
  | _ => true

/-! ## The condition -/

/-- No chunk waits. -/
def Empty (s : LiveSocket) : Prop := s.pendingChunks = [] ∧ s.native.chunks = []

/-- `recv` answers with all that the kernel holds before the reading of a pass is over. -/
def readsAll : Bytes → List RecvResult → Bool
  | unread, .bytes b :: rs => if b.length = recvSize then readsAll (unread.drop b.length) rs else b.length == unread.length
  | unread, .eintr :: rs => readsAll unread rs
  | unread, _ => unread.isEmpty

/-- A hang-up without an error is reported when the kernel is empty, or is emptied by the same pass. -/
def Drained (s : LiveSocket) (r : Revents) (a : Answers) : Prop :=
  r.pollHup = true → r.pollErr = false → r.pollNval = false → s.unread = [] ∨ r.pollIn = true ∧ readsAll s.unread a.recvs = true

/-- `'end'` is not emitted over chunks that wait, and `destroySoon` does not destroy over them. -/
def Frame.orderly (s : LiveSocket) : Frame → Prop
  | .dispatching => s.native.events.head? = some .ended → s.pendingChunks = []
  | .finished => s.destroyAfterFinish = true → s.paused = true ∨ s.Empty
  | _ => True

def Orderly (c : Config) : Move Call → Prop
  | .call (.ready r a) | .call (.win r a _) => c.state.Drained r a
  | .call .purge => c.state.native.soon = 0
  | .call (.destroy _) => c.state.paused = true ∨ c.state.Empty
  | .call .resume => .destroyCalled ∈ c.trace → c.state.Empty
  | .call _ => True
  | .ret => ∀ f ∈ c.stack.head?, f.orderly c.state

/-! ## What holds in every state -/

structure Flow (accepted : Bool) (c : Config) : Prop where
  order : delivered c.trace ++ c.state.pendingChunks = c.state.native.read
  kernel : arrived c.trace = c.state.native.received ++ c.state.unread
  eof : c.state.native.peerEnded = true → c.state.peerClosed = true ∧ c.state.unread = []
  ended : .ended ∈ c.trace → .ended ∈ c.state.native.taken ∧ c.state.pendingChunks = []
  stopped : .destroyCalled ∈ c.trace → c.state.destroyed = true ∧ (c.state.paused = true ∨ c.state.Empty)
  quiet : EachAfter Quiet c.trace
  resumes : c.state.paused = false → c.state.pendingChunks ≠ [] → .resuming ∈ c.stack
  synced : c.state.attached = true → c.state.alive = true → c.state.native.paused = c.state.paused
  spoke : c.state.attached = true → accepted = true ∨ .connect ∈ c.state.native.taken
  queued : .dispatching ∉ c.stack → c.state.alive = true → c.state.native.events ≠ [] → 0 < c.state.native.soon
  gone : c.state.alive = false → c.state.native.events = [] ∧ c.state.native.loopClosed = true

/-- The chunks and the bytes are where they were. -/
structure SameFlow (s s' : LiveSocket) : Prop where
  paused : s'.paused = s.paused
  pendingChunks : s'.pendingChunks = s.pendingChunks
  unread : s'.unread = s.unread
  peerClosed : s'.peerClosed = s.peerClosed
  attached : s'.attached = s.attached
  alive : s'.alive = s.alive
  destroyed : s.destroyed = true → s'.destroyed = true
  taken : s'.native.taken = s.native.taken
  read : s'.native.read = s.native.read
  nativePaused : s'.native.paused = s.native.paused
  input : KeepsInput s.native s'.native
  told : Told s.native s'.native
  gone : s.alive = false → s.native.loopClosed = true → s'.native.events = s.native.events ∧ s'.native.loopClosed = true

open LiveSocket

open LiveSocket (emitClose handle refuse)

namespace SameFlow

variable {s'' : LiveSocket}

theorem trans (h : SameFlow s s') (h' : SameFlow s' s'') : SameFlow s s'' where
  paused := h'.paused.trans h.paused
  pendingChunks := h'.pendingChunks.trans h.pendingChunks
  unread := h'.unread.trans h.unread
  peerClosed := h'.peerClosed.trans h.peerClosed
  attached := h'.attached.trans h.attached
  alive := h'.alive.trans h.alive
  destroyed hd := h'.destroyed (h.destroyed hd)
  taken := h'.taken.trans h.taken
  read := h'.read.trans h.read
  nativePaused := h'.nativePaused.trans h.nativePaused
  input := h.input.trans h'.input
  told := h.told.trans h'.told
  gone ha hl := by
    obtain ⟨he, hl'⟩ := h.gone ha hl
    obtain ⟨he', hl''⟩ := h'.gone (h.alive.trans ha) hl'; exact ⟨he'.trans he, hl''⟩

theorem same (hn : s'.native = s.native) (hp : s'.toSocketData = s.toSocketData) (hu : s'.unread = s.unread)
    (hc : s'.peerClosed = s.peerClosed) (ha : s'.attached = s.attached) (hl : s'.alive = s.alive)
    (hd : s.destroyed = true → s'.destroyed = true) : SameFlow s s' where
  paused := by rw [hp]
  pendingChunks := by rw [hp]
  unread := hu
  peerClosed := hc
  attached := ha
  alive := hl
  destroyed := hd
  taken := by rw [hn]
  read := by rw [hn]
  nativePaused := by rw [hn]
  input := by rw [hn]; exact KeepsInput.refl _
  told hne := .inl (by rw [hn]; exact ⟨rfl, Nat.le_refl _⟩)
  gone _ hl := by rw [hn]; exact ⟨rfl, hl⟩

theorem refl (s : LiveSocket) : SameFlow s s := same rfl rfl rfl rfl rfl rfl id

theorem native {n : ClientConnection} (hl : s.alive = true) (hw : Works s.native n) (hi : KeepsInput s.native n)
    (ht : Told s.native n) : SameFlow s { s with native := n } where
  paused := rfl
  pendingChunks := rfl
  unread := rfl
  peerClosed := rfl
  attached := rfl
  alive := rfl
  destroyed := id
  taken := hw.taken
  read := hw.read
  nativePaused := hw.paused
  input := hi
  told := ht
  gone ha := absurd (hl.symm.trans ha) (by decide)

theorem onNative {f : ClientConnection → ClientConnection}
    (hf : Works s.native (f s.native) ∧ KeepsInput s.native (f s.native) ∧ Told s.native (f s.native)) :
    SameFlow s (s.onNative f) := by
  unfold LiveSocket.onNative
  split
  · next hg =>
    rw [and_eq_true] at hg; exact native hg.2 hf.1 hf.2.1 hf.2.2
  · exact refl s

theorem endWrites (hn : s.native.notify = true) (callback : Bool) : SameFlow s (s.endWrites callback) := by
  obtain ⟨t, hcount, hnt, ht⟩ : ∃ t, SameFlow s t ∧ t.native.notify = true ∧
      (if callback then { s with pendingFinishCallbacks := s.pendingFinishCallbacks + 1 } else s) = t := by
    refine ⟨_, ?_, ?_, rfl⟩ <;> split
    · exact same rfl rfl rfl rfl rfl rfl id
    · exact refl s
    · exact hn
    · exact hn
  unfold LiveSocket.endWrites
  dsimp only
  rw [ht]
  refine hcount.trans ?_
  split
  · exact same rfl rfl rfl rfl rfl rfl id
  · split
    · exact same rfl rfl rfl rfl rfl rfl id
    · have hend : SameFlow t (t.onNative ClientConnection.endWrites) :=
        onNative ⟨Works.endWrites hnt, KeepsInput.endWrites _, told_endWrites hnt⟩
      exact hend.trans (same rfl rfl rfl rfl rfl rfl id)

theorem destroySoon (hn : s.native.notify = true) : SameFlow s s.destroySoon := by
  unfold LiveSocket.destroySoon
  split
  · exact refl s
  · have hafter : SameFlow s { s with destroyAfterFinish := true } := same rfl rfl rfl rfl rfl rfl id
    exact hafter.trans (endWrites (s := { s with destroyAfterFinish := true }) hn false)

theorem flushWriteCallbacks (failed : Bool) (frames : List Frame) : SameFlow s (s.flushWriteCallbacks failed frames).state := by
  unfold LiveSocket.flushWriteCallbacks
  split
  · exact refl s
  · exact same rfl rfl rfl rfl rfl rfl id

theorem await (callback : Bool) (w : WriteCallback) : SameFlow s (s.await callback w) := by
  unfold LiveSocket.await
  split
  · exact same rfl rfl rfl rfl rfl rfl id
  · exact refl s

theorem write (hn : s.native.notify = true) {data : Bytes} {callback : Bool} {sends : List SendResult} {b : Step}
    (hb : s.write data callback sends = some b) : SameFlow s b.state := by
  unfold LiveSocket.write at hb
  split at hb
  · cases hb
    unfold refuse
    split
    · exact same rfl rfl rfl rfl rfl rfl id
    · exact refl s
  split at hb
  · cases hb; exact (await callback _).trans (same rfl rfl rfl rfl rfl rfl id)
  obtain ⟨c, hc, rfl⟩ := map_eq_some_iff.1 hb
  have hwrite : SameFlow s { s.await callback (s.writeCallback data) with native := c } := by
    have hawait : SameFlow s (s.await callback (s.writeCallback data)) := await callback _
    have hsame : (s.await callback (s.writeCallback data)).native = s.native := by
      unfold LiveSocket.await
      split <;> rfl
    split at hc
    · next hl =>
      have hnative : SameFlow (s.await callback (s.writeCallback data)) { s.await callback (s.writeCallback data) with native := c } := by
        refine native (hawait.alive.trans hl) ?_ ?_ ?_ <;> rw [hsame]
        · exact Works.write hn hc
        · exact KeepsInput.write hc
        · exact told_write hn hc
      exact hawait.trans hnative
    · cases hc; exact hawait.trans (same hsame.symm rfl rfl rfl rfl rfl id)
  refine hwrite.trans ?_
  split
  · exact flushWriteCallbacks _ _
  · exact refl _

theorem leave : SameFlow s s.leave := by
  unfold LiveSocket.leave
  split
  · unfold notified
    dsimp only
    split
    · exact ⟨rfl, rfl, rfl, rfl, rfl, rfl, id, rfl, rfl, rfl, ⟨rfl, rfl, rfl⟩, fun _ => .inl ⟨rfl, Nat.le_refl _⟩, fun _ _ => ⟨rfl, rfl⟩⟩
    · exact ⟨rfl, rfl, rfl, rfl, rfl, rfl, id, rfl, rfl, rfl, ⟨rfl, rfl, rfl⟩, fun _ => .inl ⟨rfl, Nat.le_refl _⟩, fun _ hl => ⟨rfl, hl⟩⟩
  · exact refl s

theorem destroyRest : SameFlow s s.destroyRest := by
  have hdestroy : SameFlow s (s.onNative ClientConnection.destroy) := by
    unfold LiveSocket.onNative ClientConnection.destroy
    split
    · split
      · exact refl s
      · exact ⟨rfl, rfl, rfl, rfl, rfl, rfl, id, rfl, rfl, rfl, ⟨rfl, rfl, rfl⟩, fun _ => .inl ⟨rfl, Nat.le_refl _⟩, fun _ _ => ⟨rfl, rfl⟩⟩
    · exact refl s
  exact hdestroy.trans (same rfl rfl rfl rfl rfl rfl id)

theorem abandon : SameFlow s s.abandon := same rfl rfl rfl rfl rfl rfl (fun _ => rfl)

end SameFlow

/-! ## A pass -/

/-- What `recv` returns comes off the front of what the kernel holds, and the end only after all of it. -/
theorem readAvailable_fits {ended : Bool} : ∀ {recvs : List RecvResult} {unread : Bytes} {c d : ClientConnection},
    c.readAvailable recvs = some d → recvFits ended unread recvs = true →
      ∃ got, d.received = c.received ++ got ∧ got <+: unread ∧
        (d.peerEnded = true → c.peerEnded = true ∨ ended = true ∧ got = unread)
  | [], _, c, d, h, _ => by cases h
  | r :: rs, unread, c, d, h, hf => by
    have hkeep : ∀ {e : ClientConnection}, KeepsInput c e → ∃ got, e.received = c.received ++ got ∧ got <+: unread ∧
        (e.peerEnded = true → c.peerEnded = true ∨ ended = true ∧ got = unread) := fun he =>
      ⟨[], by rw [he.received, append_nil], nil_prefix, fun hp => .inl (he.peerEnded.symm.trans hp)⟩
    cases r with
    | bytes b =>
      simp only [readAvailable] at h
      simp only [recvFits] at hf
      split at h
      · next hb =>
        rw [if_pos hb, and_eq_true, List.isEmpty_iff] at hf
        cases h
        refine ⟨[], ?_, nil_prefix, fun _ => .inr ⟨hf.1, hf.2.symm⟩⟩
        unfold closeFromPeer
        split
        · rw [append_nil]
        · dsimp only
          split <;> rw [append_nil] <;> rfl
      next hb =>
      rw [if_neg hb, and_eq_true, isPrefixOf_iff_prefix] at hf
      obtain ⟨hpre, hf⟩ := hf
      split at h
      · cases h; exact ⟨b, rfl, hpre, .inl⟩
      · split at h
        · obtain ⟨got, hr, hg, hp⟩ := readAvailable_fits h hf
          obtain ⟨rest, rfl⟩ := hpre
          rw [drop_left] at hg hp
          refine ⟨b ++ got, ?_, prefix_append_right_inj b |>.2 hg, fun hd => ?_⟩
          · rw [hr, ← append_assoc]; rfl
          · exact (hp hd).imp_right (And.imp_right fun hgot => by rw [hgot])
        · cases h
    | eintr => exact readAvailable_fits (show c.readAvailable rs = some d from h) (show recvFits ended unread rs = true from hf)
    | eagain => cases h; exact hkeep (KeepsInput.refl c)
    | errno e => cases h; exact hkeep (KeepsInput.fail c e .read)

theorem readAvailable_all {ended : Bool} : ∀ {recvs : List RecvResult} {unread : Bytes} {c d : ClientConnection},
    c.readAvailable recvs = some d → recvFits ended unread recvs = true → readsAll unread recvs = true →
      d.received = c.received ++ unread
  | [], _, _, _, h, _, _ => by cases h
  | .bytes b :: rs, unread, c, d, h, hf, hall => by
    simp only [readAvailable] at h
    simp only [recvFits] at hf
    simp only [readsAll] at hall
    split at h
    · next hb =>
      rw [if_pos hb, and_eq_true, List.isEmpty_iff] at hf
      cases h
      rw [hf.2, append_nil]
      unfold closeFromPeer
      split
      · rfl
      · dsimp only
        split <;> rfl
    next hb =>
    rw [if_neg hb, and_eq_true, isPrefixOf_iff_prefix] at hf
    obtain ⟨hpre, hf⟩ := hf
    split at h
    · next hlt =>
      rw [if_neg (Nat.ne_of_lt hlt), beq_iff_eq] at hall
      cases h; rw [← hpre.eq_of_length hall]; rfl
    · split at h
      · next hlen =>
        rw [if_pos hlen] at hall
        obtain ⟨rest, rfl⟩ := hpre
        rw [drop_left] at hf hall; rw [readAvailable_all h hf hall, ← append_assoc]; rfl
      · cases h
  | .eintr :: rs, unread, c, d, h, hf, hall =>
    readAvailable_all (show c.readAvailable rs = some d from h) (show recvFits ended unread rs = true from hf)
      (show readsAll unread rs = true from hall)
  | .eagain :: _, unread, c, d, h, _, hall => by
    cases h; rw [List.isEmpty_iff.1 (show unread.isEmpty = true from hall), append_nil]
  | .errno e :: _, unread, c, d, h, _, hall => by
    cases h
    rw [List.isEmpty_iff.1 (show unread.isEmpty = true from hall), append_nil]
    exact (KeepsInput.fail c e .read).received

theorem pass_spec {c d : ClientConnection} {r : Revents} {a : Answers} {unread : Bytes} (hs : Sound accepted c)
    (h : s.pass c r a = some (d, unread)) : ∃ got, d.received = c.received ++ got ∧ s.unread = got ++ unread ∧
      (d.peerEnded = true → c.peerEnded = true ∨ s.peerClosed = true ∧ (s.Drained r a → unread = [])) := by
  obtain ⟨hreports, hfits, hc, hu⟩ := Sane.pass_eq h
  simp only [fits, and_eq_true] at hfits
  -- the passes differ in what they have read, and in how the reading has ended
  obtain ⟨got, hr, hg, hp⟩ : ∃ got, d.received = c.received ++ got ∧ got <+: s.unread ∧ (d.peerEnded = true → c.peerEnded = true ∨
      s.peerClosed = true ∧ (s.Drained r a → got = s.unread)) := by
    unfold onReady at hc
    split at hc
    · cases hc; exact ⟨[], by rw [append_nil], nil_prefix, .inl⟩
    next hopen =>
    obtain ⟨e, he, hc⟩ := bind_eq_some_iff.1 hc
    obtain ⟨f, hf, rfl⟩ := map_eq_some_iff.1 hc
    have hsent : KeepsInput c e := by
      refine KeepsInput.trans ?_ (KeepsInput.sendReady he)
      split
      · exact KeepsInput.completeConnect c _
      · exact KeepsInput.refl c
    obtain ⟨got, hr, hg, hp⟩ : ∃ got, f.received = e.received ++ got ∧ got <+: s.unread ∧
        (f.peerEnded = true → e.peerEnded = true ∨ s.peerClosed = true ∧ got = s.unread) := by
      unfold recvReady at hf
      split at hf
      · exact readAvailable_fits hf hfits.1
      · cases hf; exact ⟨[], by rw [append_nil], nil_prefix, .inl⟩
    obtain ⟨hhr, hhp⟩ := hangUp_input f r a
    have hdeliver := KeepsInput.deliver (f.hangUp r a)
    refine ⟨got, by rw [hdeliver.received, hhr, hr, hsent.received], hg, fun hd => ?_⟩
    obtain hfp | ⟨hfc, hhup, herr, hnval⟩ := hhp (hdeliver.peerEnded.symm.trans hd)
    · obtain hep | ⟨hcl, heq⟩ := hp hfp
      · exact .inl (hsent.peerEnded.symm.trans hep)
      · exact .inr ⟨hcl, fun _ => heq⟩
    refine .inr ⟨?_, fun hdrained => ?_⟩
    · simpa [hhup, herr, hnval] using hfits.2
    obtain hnil | ⟨hin, hall⟩ := hdrained hhup herr hnval
    · rw [hnil] at hg ⊢; exact prefix_nil.1 hg
    have hcon : c.connecting = false ∧ c.peerEnded = false := by
      simpa [reports, hin] using hreports
    rw [hcon.1, if_neg Bool.false_ne_true] at he
    obtain ⟨hes, hkeep⟩ := hs.sendReady he
    have hec : e.closing = false := by
      cases hecl : e.closing with
      | false => rfl
      | true => exact absurd (hfc.symm.trans ((ClientConnection.recvReady_appends hf).stays hecl)) (by decide)
    have hreached : e.connected = true := hes.reached (hkeep.2.trans hcon.1) hec
    simp only [recvReady, hec, hreached, hin, Bool.not_false, Bool.and_self, if_true] at hf
    exact append_cancel_left (hr.symm.trans (readAvailable_all hf hfits.1 hall))
  obtain ⟨rest, hrest⟩ := hg
  have hdrop : unread = rest := by rw [hu, hr, length_append, Nat.add_sub_cancel_left, ← hrest, drop_left]
  refine ⟨got, hr, by rw [hdrop, hrest], fun hd => (hp hd).imp_right (And.imp_right fun hor hdrained => ?_)⟩
  have heq := hor hdrained
  rw [← hrest] at heq; rw [hdrop]; exact (append_right_eq_self.1 heq.symm)

/-! ## Traces -/

theorem delivered_append (es es' : List Event) : delivered (es ++ es') = delivered es ++ delivered es' := filterMap_append

theorem arrived_append (es es' : List Event) : arrived (es ++ es') = arrived es ++ arrived es' := by
  simp [arrived, filterMap_append]

theorem delivered_plain {es : List Event} (h : ∀ e ∈ es, e.plain = true) : delivered es = [] := by
  refine filterMap_eq_nil_iff.2 (fun e he => ?_)
  have hp := h e he
  cases e with
  | chunk => cases hp
  | _ => rfl

open Event

theorem arrived_plain {es : List Event} (h : ∀ e ∈ es, e.plain = true) : arrived es = [] := by
  have hnil : es.filterMap (fun | Event.arrived b => some b | _ => none) = [] := by
    refine filterMap_eq_nil_iff.2 (fun e he => ?_)
    have hp := h e he
    cases e with
    | arrived => cases hp
    | _ => rfl
  unfold arrived; rw [hnil]; rfl

theorem not_mem_plain {es : List Event} (h : ∀ e ∈ es, e.plain = true) {e : Event} (he : e.plain = false) : e ∉ es := fun hm => by
  rw [h e hm] at he; cases he

theorem quiet_plain {es : List Event} (h : ∀ e ∈ es, e.plain = true) : ∀ e ∈ es, ∀ pre, Quiet pre e := by
  intro e he pre hc
  have hp := h e he
  cases e with
  | chunk => cases hp
  | _ => cases hc

theorem chunk?_deliverChunk (toString : BufferEncoding → Bytes → List UInt16) (s : LiveSocket) (b : Bytes) :
    (Event.chunk (s.deliverChunk toString b)).chunk? = some b := by
  unfold SocketData.deliverChunk
  split
  · rfl
  · split <;> rfl

theorem delivered_deliverChunk (b : Bytes) : delivered [.chunk (s.deliverChunk toString b)] = [b] := by
  simp [delivered, chunk?_deliverChunk]

namespace Flow

variable {stack stack' fs : List Frame} {trace seen : List Event} {f : Frame}

theorem same (h : Flow accepted ⟨s, stack, trace⟩) (hs : SameFlow s s') (hd : .dispatching ∈ stack → .dispatching ∈ stack')
    (hr : s.paused = false → s.pendingChunks ≠ [] → .resuming ∈ stack → .resuming ∈ stack')
    (hseen : ∀ e ∈ seen, e.plain = true) : Flow accepted ⟨s', stack', trace ++ seen⟩ where
  order := by
    rw [delivered_append, delivered_plain hseen, append_nil, hs.pendingChunks, hs.read]; exact h.order
  kernel := by
    rw [arrived_append, arrived_plain hseen, append_nil, hs.input.received, hs.unread]; exact h.kernel
  eof hp := by
    obtain ⟨hc, hu⟩ := h.eof (hs.input.peerEnded.symm.trans hp); exact ⟨hs.peerClosed.trans hc, hs.unread.trans hu⟩
  ended hm := by
    obtain ⟨ht, hp⟩ := h.ended ((mem_append.1 hm).resolve_right (not_mem_plain hseen rfl))
    exact ⟨by show .ended ∈ s'.native.taken; rw [hs.taken]; exact ht, hs.pendingChunks.trans hp⟩
  stopped hm := by
    obtain ⟨hdes, hor⟩ := h.stopped ((mem_append.1 hm).resolve_right (not_mem_plain hseen rfl))
    exact ⟨hs.destroyed hdes, hor.imp hs.paused.trans (fun ⟨hp, hc⟩ => ⟨hs.pendingChunks.trans hp, hs.input.chunks.trans hc⟩)⟩
  quiet := h.quiet.append (quiet_plain hseen)
  resumes hp hne := by
    have hp' : s.paused = false := hs.paused.symm.trans hp
    have hne' : s.pendingChunks ≠ [] := fun hnil => hne (hs.pendingChunks.trans hnil)
    exact hr hp' hne' (h.resumes hp' hne')
  synced ha hl := by
    rw [hs.nativePaused, hs.paused]; exact h.synced (hs.attached.symm.trans ha) (hs.alive.symm.trans hl)
  spoke ha := by rw [hs.taken]; exact h.spoke (hs.attached.symm.trans ha)
  queued hn hl hne := by
    obtain ⟨he, hsoon⟩ | hsoon := hs.told hne
    · exact Nat.lt_of_lt_of_le (h.queued (fun hm => hn (hd hm)) (hs.alive.symm.trans hl) (fun hnil => hne (he.trans hnil))) hsoon
    · exact hsoon
  gone hl := by
    obtain ⟨he, hc⟩ := h.gone (hs.alive.symm.trans hl)
    obtain ⟨he', hc'⟩ := hs.gone (hs.alive.symm.trans hl) hc; exact ⟨he'.trans he, hc'⟩

theorem push (h : Flow accepted ⟨s, stack, trace⟩) {b : Step} (hs : SameFlow s b.state) (hseen : ∀ e ∈ b.seen, e.plain = true) :
    Flow accepted (b.onto stack trace) :=
  h.same hs (mem_append_right _) (fun _ _ => mem_append_right _) hseen

theorem next (h : Flow accepted ⟨s, f :: fs, trace⟩) {b : Step} (hs : SameFlow s b.state) (hd : f ≠ .dispatching)
    (hr : f ≠ .resuming) (hseen : ∀ e ∈ b.seen, e.plain = true) : Flow accepted (b.onto fs trace) :=
  h.same hs (fun hm => mem_append_right _ ((mem_cons.1 hm).resolve_left (fun heq => hd heq.symm)))
    (fun _ _ hm => mem_append_right _ ((mem_cons.1 hm).resolve_left (fun heq => hr heq.symm))) hseen

theorem nothing (h : Flow accepted ⟨s, stack, trace⟩) (hstate : SaneState accepted s) (ha : s.attached = false) :
    delivered trace = [] ∧ s.pendingChunks = [] ∧ s.native.chunks = [] ∧ .ended ∉ trace ∧ s.alive = true ∧
      arrived trace = s.unread := by
  have hnew := (hstate.fresh ha).2
  have horder := h.order
  have hkernel := h.kernel
  simp only [hnew] at horder hkernel
  obtain ⟨hd, hp⟩ := append_eq_nil_iff.1 (show delivered trace ++ s.pendingChunks = [] from horder)
  refine ⟨hd, hp, by rw [hnew]; rfl, fun hm => ?_, ?_, hkernel⟩
  · have ht := (h.ended hm).1; simp only [hnew] at ht; cases ht
  · cases hl : s.alive with
    | true => rfl
    | false =>
      have hc := (h.gone hl).2; simp only [hnew] at hc; cases hc

/-! ### Delivering -/

theorem quiet_chunk (h : Flow accepted ⟨s, stack, trace⟩) (hp : s.paused = false) (hended : .ended ∉ trace) (hwait : ¬s.Empty)
    (b : Bytes) : EachAfter Quiet (trace ++ [.chunk (s.deliverChunk toString b)]) := by
  refine h.quiet.snoc (fun _ => ⟨hended, fun hm => ?_⟩)
  obtain ⟨-, hpaused | hempty⟩ := h.stopped hm
  · exact absurd (hp.symm.trans hpaused) (by decide)
  · exact hwait hempty

theorem deliverPending (h : Flow accepted ⟨s, stack, trace⟩) (hd : .dispatching ∈ stack → .dispatching ∈ stack') :
    Flow accepted ((s.deliverPending toString).onto stack' trace) := by
  unfold LiveSocket.deliverPending
  split
  · next chunk rest hp hq =>
    have hwait : ¬s.Empty := fun he => by
      have hnil := he.1; rw [hq] at hnil; cases hnil
    have hended : .ended ∉ trace := fun hm => by
      have hnil := (h.ended hm).2; rw [hq] at hnil; cases hnil
    have hseen : ∀ e : Event, e.chunk?.isSome = false → e ∈ trace ++ [.chunk (s.deliverChunk toString chunk)] → e ∈ trace := by
      intro e he hm
      obtain hm | hm := mem_append.1 hm
      · exact hm
      · rw [mem_singleton.1 hm, chunk?_deliverChunk] at he; cases he
    refine ⟨?_, ?_, h.eof, fun hm => absurd (hseen _ rfl hm) hended, fun hm => ?_, h.quiet_chunk hp hended hwait chunk,
      fun _ _ => mem_cons_self, h.synced, h.spoke, fun hn => h.queued (fun hm => hn (mem_cons_of_mem _ (hd hm))), h.gone⟩
    · show delivered (trace ++ [_]) ++ rest = s.native.read
      rw [delivered_append, delivered_deliverChunk, ← h.order, hq, append_assoc]; rfl
    · show arrived (trace ++ [_]) = s.native.received ++ s.unread; rw [arrived_append, ← h.kernel]; exact append_nil _
    · obtain ⟨hdes, hor⟩ := h.stopped (hseen _ rfl hm)
      obtain hpaused | hempty := hor
      · exact absurd (hp.symm.trans hpaused) (by decide)
      · exact absurd hempty hwait
  · next hn =>
    refine h.same (SameFlow.refl s) hd (fun hp hne => ?_) nofun
    obtain ⟨chunk, rest, hq⟩ := exists_cons_of_ne_nil hne; exact absurd hq (hn chunk rest hp)

/-! ### Destroying -/

theorem destroy (h : Flow accepted ⟨s, stack, trace⟩) (hwait : s.paused = true ∨ s.Empty) (error : Bool) :
    Flow accepted ((s.destroy error).onto stack trace) := by
  have hcalled : ∀ (gs : List Frame) (seen : List Event) {s' : LiveSocket}, SameFlow s s' → s'.destroyed = true →
      (∀ e ∈ seen, e.plain = true) → Flow accepted ⟨s', gs ++ stack, trace ++ .destroyCalled :: seen⟩ := by
    intro gs seen s' hs hdes hseen
    have hplain : Flow accepted ⟨s', gs ++ stack, trace ++ seen⟩ :=
      h.same hs (mem_append_right _) (fun _ _ => mem_append_right _) hseen
    have hnew : ∀ e : Event, e ≠ .destroyCalled → e ∈ trace ++ .destroyCalled :: seen → e ∈ trace ++ seen := by
      intro e he hm; rw [mem_append, mem_cons] at hm; exact mem_append.2 (hm.imp id (fun hm => hm.resolve_left he))
    have hskip : ∀ (es : List Event), delivered (es ++ .destroyCalled :: seen) = delivered (es ++ seen) ∧
        arrived (es ++ .destroyCalled :: seen) = arrived (es ++ seen) := by
      intro es
      constructor
      · rw [delivered_append, delivered_append]; rfl
      · rw [arrived_append, arrived_append]; rfl
    refine ⟨?_, ?_, hplain.eof, fun hm => hplain.ended (hnew _ nofun hm), fun _ => ⟨hdes, ?_⟩, ?_, hplain.resumes, hplain.synced,
      hplain.spoke, hplain.queued, hplain.gone⟩
    · exact (congrArg (· ++ s'.pendingChunks) (hskip trace).1).trans hplain.order
    · exact ((hskip trace).2).trans hplain.kernel
    · exact hwait.imp hs.paused.trans (fun ⟨hp, hc⟩ => ⟨hs.pendingChunks.trans hp, hs.input.chunks.trans hc⟩)
    · have hfirst : EachAfter Quiet (trace ++ [.destroyCalled]) := h.quiet.snoc (fun hc => by cases hc)
      have hall := hfirst.append (quiet_plain hseen); rw [append_assoc] at hall; exact hall
  unfold LiveSocket.destroy
  split
  · next hdes => exact hcalled [] [] (SameFlow.refl s) hdes nofun
  · split
    · exact hcalled [.destroying] [.error] SameFlow.abandon rfl (by simp [plain])
    · refine hcalled [] [] (SameFlow.abandon.trans SameFlow.destroyRest) ?_ nofun
      exact (SameFlow.destroyRest (s := s.abandon)).destroyed rfl

/-! ### Dispatching -/

theorem no_data {n : ClientConnection} (h : Sound accepted n) (hm : .ended ∈ n.taken) : .data ∉ n.events := by
  obtain ⟨⟨p, hp⟩, ha⟩ := h
  obtain ⟨a, b, hab⟩ := append_of_mem hm
  have hlog := hp.log
  rw [ha.queue, hab, append_assoc, cons_append] at hlog
  exact fun hd => Phase.after_ended hlog (mem_append_right _ hd)

section

variable (h : Flow accepted ⟨s, [.dispatching], trace⟩)
include h

theorem settled (hp : s.paused = false) : s.pendingChunks = [] := by
  by_contra hne
  have hm := h.resumes hp hne; simp at hm

theorem idle (he : s.alive = true → s.native.events = []) : Flow accepted ⟨s, [], trace⟩ :=
  ⟨h.order, h.kernel, h.eof, h.ended, h.stopped, h.quiet, fun hp hne => absurd (h.settled hp) hne, h.synced, h.spoke,
    fun _ hl hne => absurd (he hl) hne, h.gone⟩

theorem take {e : ClientEvent} {es : List ClientEvent}
    (he : s.native.events = e :: es) {gs : List Frame} (hg : .dispatching ∈ gs) :
    Flow accepted ⟨{ s with native := s.native.nextEvent }, gs, trace⟩ := by
  have hnext : s.native.nextEvent = { s.native with events := es, taken := s.native.taken ++ [e] } := by
    unfold nextEvent; rw [he]
  rw [hnext]
  refine ⟨h.order, h.kernel, h.eof, fun hm => ?_, h.stopped, h.quiet, fun hp hne => absurd (h.settled hp) hne, h.synced, fun ha => ?_,
    fun hn => absurd hg hn, fun hl => ?_⟩
  · obtain ⟨ht, hp⟩ := h.ended hm; exact ⟨mem_append_left _ ht, hp⟩
  · exact (h.spoke ha).imp id (mem_append_left _)
  · have hnil := (h.gone hl).1; simp only [he] at hnil; cases hnil

end

theorem emitEnd (h : Flow accepted ⟨s, stack, trace⟩) (ht : .ended ∈ s.native.taken) (hp : s.pendingChunks = []) :
    Flow accepted ⟨s, stack, trace ++ [.ended]⟩ := by
  refine ⟨?_, ?_, h.eof, fun _ => ⟨ht, hp⟩, fun hm => ?_, h.quiet.snoc (fun hc => by cases hc), h.resumes, h.synced, h.spoke, h.queued,
    h.gone⟩
  · rw [delivered_append, ← h.order]; simp [delivered, chunk?]
  · rw [arrived_append, ← h.kernel]; exact append_nil _
  · obtain hm | hm := mem_append.1 hm
    · exact h.stopped hm
    · cases mem_singleton.1 hm

theorem receive (hS : SaneState accepted s) (h : Flow accepted ⟨s, [.dispatching], trace⟩) (ha : s.attached = true)
    {es : List ClientEvent} (he : s.native.events = .data :: es) :
    Flow accepted (({ s with native := s.native.nextEvent.readChunk }.receive toString (s.native.nextEvent.chunks.headD [])).onto []
      trace) := by
  obtain ⟨b, bs, hb, hread, hhead, -⟩ := hS.readChunk ha he
  have hended : .ended ∉ trace := fun hm => by
    refine no_data hS.sound (h.ended hm).1 ?_
    rw [he]; exact mem_cons_self
  have hwait : ¬s.Empty := fun hempty => by
    have hnil := hempty.2; rw [hb] at hnil; cases hnil
  have hgone : s.alive = false → False := fun hl => by
    have hnil := (h.gone hl).1; simp only [he] at hnil; cases hnil
  rw [hhead, hread]
  unfold LiveSocket.receive
  split
  · next hp =>
    show Flow accepted ⟨_, _, trace ++ []⟩
    rw [append_nil trace]
    refine ⟨?_, h.kernel, h.eof, fun hm => absurd hm hended, fun hm => ⟨(h.stopped hm).1, .inl hp⟩, h.quiet,
      fun hn => absurd (hn.symm.trans hp) (by decide), h.synced, fun ha => (h.spoke ha).imp id (mem_append_left _),
      fun hn => absurd mem_cons_self hn, fun hl => absurd hl (fun hl => hgone hl)⟩
    show delivered trace ++ (s.pendingChunks ++ [b]) = s.native.read ++ [b]
    rw [← append_assoc, ← h.order]
  · next hp =>
    have hp : s.paused = false := by simpa using hp
    have hnil : s.pendingChunks = [] := h.settled hp
    have hseen : ∀ e : Event, e.chunk?.isSome = false → e ∈ trace ++ [.chunk (s.deliverChunk toString b)] → e ∈ trace := by
      intro e he hm
      obtain hm | hm := mem_append.1 hm
      · exact hm
      · rw [mem_singleton.1 hm, chunk?_deliverChunk] at he; cases he
    refine ⟨?_, ?_, h.eof, fun hm => absurd (hseen _ rfl hm) hended, fun hm => ?_, h.quiet_chunk hp hended hwait b, fun _ hne => ?_,
      h.synced, fun ha => ?_, fun hn => absurd mem_cons_self hn, fun hl => absurd hl (fun hl => hgone hl)⟩
    · show delivered (trace ++ [_]) ++ s.pendingChunks = s.native.read ++ [b]
      rw [delivered_append, ← h.order, hnil, append_nil, append_nil]
      exact congrArg (delivered trace ++ ·) (delivered_deliverChunk (s := s) b)
    · show arrived (trace ++ [_]) = s.native.received ++ s.unread; rw [arrived_append, ← h.kernel]; exact append_nil _
    · obtain ⟨-, hpaused | hempty⟩ := h.stopped (hseen _ rfl hm)
      · exact absurd (hp.symm.trans hpaused) (by decide)
      · exact absurd hempty hwait
    · exact absurd hnil hne
    · exact (h.spoke ha).imp id (mem_append_left _)

theorem dispatch (hS : SaneState accepted s) (h : Flow accepted ⟨s, [.dispatching], trace⟩) (ha : s.attached = true)
    (ho : Frame.orderly s .dispatching) : Flow accepted ((s.dispatch toString).onto [] trace) := by
  have hleave : (s.alive = true → s.native.events = []) → Flow accepted ⟨s.leave, [], trace ++ []⟩ := fun he =>
    (h.idle he).same SameFlow.leave id (fun _ _ => id) (by simp)
  unfold LiveSocket.dispatch
  split
  · next hl => exact hleave (fun hl' => by rw [hl'] at hl; cases hl)
  split
  · next he => exact hleave (fun _ => he)
  next e es he =>
  have hplain : ∀ {s' : LiveSocket} {gs : List Frame} {seen : List Event},
      SameFlow { s with native := s.native.nextEvent } s' → .dispatching ∈ gs → (∀ e ∈ seen, e.plain = true) →
      Flow accepted ⟨s', gs ++ [], trace ++ seen⟩ := by
    intro s' gs seen hs hg hseen
    have htake : Flow accepted ⟨{ s with native := s.native.nextEvent }, gs ++ [], trace⟩ :=
      h.take he (mem_append_left _ hg)
    exact htake.same hs id (fun _ _ => id) hseen
  cases e with
  | connect =>
    simp only [handle]; exact hplain (SameFlow.same rfl rfl rfl rfl rfl rfl id) (by simp) (by simp [plain])
  | drain | finish =>
    simp only [handle, LiveSocket.flushWriteCallbacks]
    split
    · exact hplain (SameFlow.refl _) (by simp) (by simp)
    · exact hplain (SameFlow.same rfl rfl rfl rfl rfl rfl id) (by simp) (by simp [plain])
  | error =>
    simp only [handle, LiveSocket.flushWriteCallbacks]
    split
    · exact hplain (SameFlow.same rfl rfl rfl rfl rfl rfl id) (by simp) (by simp)
    · exact hplain (SameFlow.same rfl rfl rfl rfl rfl rfl id) (by simp) (by simp [plain])
  | ended =>
    simp only [handle]
    have hpending : s.pendingChunks = [] := ho (by rw [he]; rfl)
    have htaken : .ended ∈ s.native.nextEvent.taken := by
      unfold nextEvent; rw [he]; simp
    have hended : Flow accepted ⟨{ s with native := s.native.nextEvent }, [.ended, .dispatching] ++ [], trace ++ [.ended]⟩ := by
      have htake : Flow accepted ⟨{ s with native := s.native.nextEvent }, [.ended, .dispatching] ++ [], trace⟩ :=
        h.take he (by simp)
      exact htake.emitEnd htaken hpending
    split
    · exact hended
    · have hset : SameFlow { s with native := s.native.nextEvent }
          { s with native := s.native.nextEvent, readyState := .writeOnly } := SameFlow.same rfl rfl rfl rfl rfl rfl id
      have hsame : Flow accepted ⟨_, [.ended, .dispatching] ++ [], (trace ++ [.ended]) ++ []⟩ :=
        hended.same hset id (fun _ _ => id) (by simp)
      rwa [append_nil (trace ++ _)] at hsame
  | data => exact h.receive hS ha he
  | close =>
    simp only [handle, emitClose]
    split
    · exact hplain (SameFlow.same rfl rfl rfl rfl rfl rfl (fun _ => rfl)) (by simp) (by simp)
    · exact hplain (SameFlow.same rfl rfl rfl rfl rfl rfl (fun _ => rfl)) (by simp) (by simp [plain])

/-! ### Connecting -/

theorem afterConnect (hn : s.native.notify = true) (h : Flow accepted ⟨s, [.connected], trace⟩) :
    Flow accepted ((s.afterConnect).onto [] trace) := by
  obtain ⟨t, hs, ht⟩ : ∃ t, SameFlow s t ∧ (if s.connectingEnd && !s.destroyed then
        { s.onNative ClientConnection.endWrites with connectingEnd := false, readyState := .readOnly }
      else s) = t := by
    refine ⟨_, ?_, rfl⟩
    split
    · have hend : SameFlow s (s.onNative ClientConnection.endWrites) :=
        SameFlow.onNative ⟨Works.endWrites hn, KeepsInput.endWrites _, told_endWrites hn⟩
      exact hend.trans (SameFlow.same rfl rfl rfl rfl rfl rfl id)
    · exact SameFlow.refl s
  have hdisp : Frame.dispatching ∈ [Frame.connected] → Frame.dispatching ∈ ([] : List Frame) := by simp
  unfold LiveSocket.afterConnect
  dsimp only
  rw [ht]
  split
  · exact h.same (hs.trans SameFlow.leave) hdisp (by simp) nofun
  · exact h.same hs (fun _ => mem_cons_self) (by simp) nofun

theorem win (hS : Sane accepted ⟨s, [], trace⟩) (h : Flow accepted ⟨s, [], trace⟩) (hcon : s.connecting = true)
    (ha : s.attached = false) {r : Revents} {a : Answers} {c d : ClientConnection} {unread : Bytes}
    (hp : s.pass (ClientConnection.create true 0 false) r a = some (c, unread)) (hhead : c.events.head? = some .connect)
    (ho : s.Drained r a) {sends : List (List SendResult)}
    (hd : { c.nextEvent.setNotify with paused := s.paused }.writeAll s.connectingWrites sends = some d) :
    Flow accepted ⟨{ s with unread }.attach d, [.connected], trace ++ [.connect]⟩ := by
  obtain ⟨hdel, hpend, -, hended, halive, harr⟩ := h.nothing hS.state ha
  obtain ⟨got, hr, hu, heof⟩ := pass_spec (Sound.create true 0 false) hp
  obtain ⟨-, -, hc, -⟩ := Sane.pass_eq hp
  have hwc : Works (create true 0 false) c := Works.onReady hc
  obtain ⟨es, he⟩ : ∃ es, c.events = .connect :: es := head?_eq_some_iff.1 hhead
  have hnext : c.nextEvent = { c with events := es, taken := c.taken ++ [.connect] } := by
    unfold nextEvent; rw [he]
  obtain ⟨n, hset, htold⟩ := c.nextEvent.setNotify_cases
  rw [hset, hnext] at hd
  rw [hnext] at htold
  obtain ⟨hw, hk, ht⟩ := writeAll_told rfl hd
  refine ⟨?_, ?_, fun hpe => ?_, fun hm => absurd ?_ hended, fun hm => ?_, h.quiet.append (quiet_plain (by simp [plain])),
    fun _ hne => absurd hpend hne, fun _ _ => hw.paused, fun _ => .inr ?_, fun _ _ hne => ?_, fun hl => ?_⟩
  · show delivered (trace ++ [.connect]) ++ s.pendingChunks = d.read
    rw [delivered_append, hdel, hpend, hw.read]; exact hwc.read.symm
  · show arrived (trace ++ [.connect]) = d.received ++ unread
    rw [arrived_append, harr, hk.received, hu]
    show (got ++ unread) ++ [] = c.received ++ unread; rw [append_nil, hr]; rfl
  · obtain hnew | ⟨hclosed, hnil⟩ := heof (hk.peerEnded.symm.trans hpe)
    · cases hnew
    · exact ⟨hclosed, hnil ho⟩
  · simpa using hm
  · have hdes : s.destroyed = true := (h.stopped (by simpa using hm)).1
    exact absurd ((hS.state.halted hdes).symm.trans hcon) (by decide)
  · show .connect ∈ d.taken; rw [hw.taken]; simp
  · obtain ⟨heq, hs⟩ | hs := ht hne
    · exact Nat.lt_of_lt_of_le (htold (fun hnil => hne (heq.trans hnil))) hs
    · exact hs
  · exact absurd (halive.symm.trans hl) (by decide)

/-! ### All steps -/

theorem ready (hS : Sane accepted ⟨s, [], trace⟩) (h : Flow accepted ⟨s, [], trace⟩) (ha : s.attached = true) (hl : s.alive = true)
    {r : Revents} {a : Answers} {c : ClientConnection} {unread : Bytes} (hp : s.pass s.native r a = some (c, unread))
    (ho : s.Drained r a) :
    Flow accepted ⟨{ s with native := c, unread }, if s.native.callbacks < c.callbacks then [.dispatching] else [], trace⟩ := by
  obtain ⟨got, hr, hu, heof⟩ := pass_spec hS.state.sound hp
  obtain ⟨-, -, hc, -⟩ := Sane.pass_eq hp
  have hw : Works s.native c := Works.onReady hc
  refine ⟨?_, ?_, fun hpe => ?_, fun hm => ?_, fun hm => ?_, h.quiet, fun hpa hne => ?_, fun ha hl => ?_, fun ha => ?_,
    fun hn hl hne => ?_, fun hl' => absurd (hl.symm.trans hl') (by decide)⟩
  · rw [hw.read]; exact h.order
  · rw [hr, append_assoc, ← hu]; exact h.kernel
  · obtain hold | ⟨hclosed, hnil⟩ := heof hpe
    · obtain ⟨hclosed, hnil⟩ := h.eof hold; exact ⟨hclosed, (append_eq_nil_iff.1 (hu.symm.trans hnil)).2⟩
    · exact ⟨hclosed, hnil ho⟩
  · rw [hw.taken]; exact h.ended hm
  · obtain ⟨hdes, hor⟩ := h.stopped hm
    have hclosing : s.native.closing = true :=
      (hS.silent_of_attached ha nofun hdes).resolve_right (fun hl' => absurd (hl.symm.trans hl') (by decide))
    have hsame : c = s.native := by
      unfold onReady at hc; rw [if_pos hclosing] at hc; exact (Option.some.inj hc).symm
    rw [hsame]; exact ⟨hdes, hor⟩
  · exact absurd (h.resumes hpa hne) not_mem_nil
  · rw [hw.paused]; exact h.synced ha hl
  · rw [hw.taken]; exact h.spoke ha
  · obtain ⟨rfl, -⟩ | ⟨e, he, rfl⟩ := onReady_appends hc
    · exact h.queued nofun hl hne
    · obtain ⟨-, hcall⟩ | ⟨hnil, hcall | ⟨-, hcall⟩⟩ := deliver_cases (he.notify.trans hS.state.notify)
      · rw [if_pos (by rw [hcall, ← he.callbacks]; exact Nat.lt_succ_self _)] at hn; exact absurd mem_cons_self hn
      · exact absurd (show e.deliver.events = [] by rw [hcall]; exact hnil) hne
      · exact absurd (show e.deliver.events = [] by rw [hcall]; exact hnil) hne

/-- A `pause` or `resume`, before it delivers; the frame stands for the loop of `resume`. -/
theorem setPaused (h : Flow accepted ⟨s, stack, trace⟩) (paused : Bool)
    (hstop : .destroyCalled ∈ trace → paused = true ∨ s.Empty) (hresume : paused = false → .resuming ∈ stack')
    (hd : .dispatching ∈ stack → .dispatching ∈ stack') :
    Flow accepted ⟨{ s.onNative (fun c => { c with paused }) with paused }, stack', trace⟩ := by
  unfold onNative
  split
  · refine ⟨h.order, h.kernel, h.eof, h.ended, fun hm => ⟨(h.stopped hm).1, hstop hm⟩, h.quiet, fun hp _ => hresume hp, fun _ _ => rfl,
      h.spoke, fun hn => h.queued (fun hm => hn (hd hm)), h.gone⟩
  · next hg =>
    refine ⟨h.order, h.kernel, h.eof, h.ended, fun hm => ⟨(h.stopped hm).1, hstop hm⟩, h.quiet, fun hp _ => hresume hp, fun ha hl => ?_,
      h.spoke, fun hn => h.queued (fun hm => hn (hd hm)), h.gone⟩
    exact absurd (and_eq_true_iff.2 ⟨ha, hl⟩) hg

theorem write_seen {data : Bytes} {callback : Bool} {sends : List SendResult} {b : Step}
    (hb : s.write data callback sends = some b) : ∀ e ∈ b.seen, e.plain = true := by
  unfold write at hb
  dsimp only at hb
  split at hb
  · cases hb; nofun
  split at hb
  · cases hb; nofun
  obtain ⟨c, -, rfl⟩ := map_eq_some_iff.1 hb
  split
  · unfold flushWriteCallbacks
    split
    · nofun
    · simp [plain]
  · nofun

theorem call (hS : Sane accepted ⟨s, stack, trace⟩) (h : Flow accepted ⟨s, stack, trace⟩) {k : Call}
    (ht : (program toString).task k = true → stack = []) (ho : Orderly ⟨s, stack, trace⟩ (.call k)) {b : Step}
    (hb : s.call toString k = some b) : Flow accepted (b.onto stack trace) := by
  cases k with
  | ready r a =>
    obtain rfl : stack = [] := ht rfl
    simp only [LiveSocket.call] at hb
    split at hb
    · next hg =>
      simp only [and_eq_true, not_eq_true'] at hg
      obtain ⟨⟨c, unread⟩, hp, rfl⟩ := map_eq_some_iff.1 hb
      have hready := h.ready hS hg.1.1 hg.1.2 hp ho; simpa [Block.onto] using hready
    · cases hb
  | notify =>
    obtain rfl : stack = [] := ht rfl
    simp only [LiveSocket.call] at hb
    split at hb
    · cases hb
      show Flow accepted ⟨_, _, trace ++ []⟩
      rw [append_nil trace]
      exact ⟨h.order, h.kernel, h.eof, h.ended, h.stopped, h.quiet, fun hp hne => absurd (h.resumes hp hne) not_mem_nil, h.synced,
        h.spoke, fun hn => absurd mem_cons_self hn, h.gone⟩
    · cases hb
  | microtask =>
    simp only [LiveSocket.call] at hb
    split at hb
    · cases hb
    · next rest _ =>
      cases hb
      unfold emitClose
      split
      · exact h.push (SameFlow.same rfl rfl rfl rfl rfl rfl id) (by simp)
      · exact h.push (SameFlow.same rfl rfl rfl rfl rfl rfl id) (by simp [plain])
    · cases hb; exact h.push (SameFlow.same rfl rfl rfl rfl rfl rfl id) (by rintro _ ⟨⟩)
    · cases hb; exact h.push (SameFlow.same rfl rfl rfl rfl rfl rfl id) (by simp [plain])
  | win r a sends =>
    obtain rfl : stack = [] := ht rfl
    simp only [LiveSocket.call] at hb
    split at hb
    · next hg =>
      simp only [and_eq_true, not_eq_true'] at hg
      obtain ⟨⟨c, unread⟩, hp, hb⟩ := bind_eq_some_iff.1 hb
      dsimp only at hb
      split at hb
      · next hhead =>
        obtain ⟨d, hd, rfl⟩ := Sane.winAttempt_eq hb; exact h.win hS hg.1 hg.2 hp hhead ho hd
      · cases hb
    · cases hb
  | lose =>
    simp only [LiveSocket.call] at hb
    split at hb
    · next hg =>
      simp only [and_eq_true, not_eq_true'] at hg
      obtain ⟨-, hpend, hchunks, -⟩ := h.nothing hS.state hg.2
      cases hb; exact h.destroy (.inr ⟨hpend, hchunks⟩) true
    · cases hb
  | purge =>
    obtain rfl : stack = [] := ht rfl
    simp only [LiveSocket.call] at hb
    split at hb
    · next hc =>
      cases hb
      have hevents : s.alive = true → s.native.events = [] := fun hl => by
        by_contra hne
        have hpos := h.queued (by simp) hl hne
        rw [show s.native.soon = 0 from ho] at hpos; exact absurd hpos (Nat.lt_irrefl 0)
      show Flow accepted ⟨_, _, trace ++ []⟩
      rw [append_nil trace]
      refine ⟨h.order, h.kernel, h.eof, h.ended, h.stopped, h.quiet, fun hp hne => absurd (h.resumes hp hne) not_mem_nil, (by simp),
        h.spoke, (by simp), fun _ => ⟨?_, hc⟩⟩
      cases hl : s.alive with
      | true => exact hevents hl
      | false => exact (h.gone hl).1
    · cases hb
  | arrive bytes =>
    simp only [LiveSocket.call] at hb
    split at hb
    · cases hb
    · next hpc =>
      cases hb
      refine ⟨?_, ?_, fun hpe => absurd (h.eof hpe).1 hpc, fun hm => h.ended (by simpa using hm), fun hm => h.stopped (by simpa using hm),
        h.quiet.snoc (fun hc => by cases hc), h.resumes, h.synced, h.spoke, h.queued, h.gone⟩
      · show delivered (trace ++ [.arrived bytes]) ++ s.pendingChunks = s.native.read
        rw [delivered_append, ← h.order]; simp [delivered, chunk?]
      · show arrived (trace ++ [.arrived bytes]) = s.native.received ++ (s.unread ++ bytes)
        rw [arrived_append, h.kernel, append_assoc]; simp [arrived]
  | peerCloses =>
    cases hb
    show Flow accepted ⟨_, _, trace ++ []⟩
    rw [append_nil trace]
    exact ⟨h.order, h.kernel, fun hpe => ⟨rfl, (h.eof hpe).2⟩, h.ended, h.stopped, h.quiet, h.resumes, h.synced, h.spoke, h.queued,
      h.gone⟩
  | write data callback sends => exact h.push (SameFlow.write hS.state.notify hb) (write_seen hb)
  | endWrites callback => cases hb; exact h.push (SameFlow.endWrites hS.state.notify callback) (by simp)
  | destroySoon => cases hb; exact h.push (SameFlow.destroySoon hS.state.notify) (by simp)
  | destroy error => cases hb; exact h.destroy ho error
  | pause =>
    cases hb
    have hpause : Flow accepted ⟨s.pause, stack, trace⟩ := h.setPaused true (fun _ => .inl rfl) (by simp) id
    exact hpause.push (b := { state := s.pause }) (SameFlow.refl _) (by simp)
  | resume =>
    cases hb
    have hset : Flow accepted
        ⟨{ s.onNative (fun c => { c with paused := false }) with paused := false }, .resuming :: stack, trace⟩ :=
      h.setPaused false (fun hm => .inr (ho hm)) (fun _ => mem_cons_self) (by simp)
    exact hset.deliverPending (by simp)
  | setEncoding encoding | pipe =>
    cases hb
    exact h.push ⟨rfl, rfl, rfl, rfl, rfl, rfl, id, rfl, rfl, rfl, KeepsInput.refl _, fun _ => .inl ⟨rfl, Nat.le_refl _⟩, fun _ hl => ⟨rfl, hl⟩⟩
      (by simp)

theorem goOn (hS : Sane accepted ⟨s, f :: fs, trace⟩) (h : Flow accepted ⟨s, f :: fs, trace⟩) (ho : f.orderly s) :
    Flow accepted ((s.goOn toString f).onto fs trace) := by
  cases f with
  | dispatching =>
    obtain rfl : fs = [] := hS.grounded.1 rfl; exact h.dispatch hS.state (hS.looping _ mem_cons_self rfl) ho
  | connected => obtain rfl : fs = [] := hS.grounded.1 rfl; exact h.afterConnect hS.state.notify
  | resuming => exact h.deliverPending (by simp)
  | flushing rest failed =>
    cases rest with
    | nil => exact h.next (SameFlow.refl s) (by simp) (by simp) (by rintro _ ⟨⟩)
    | cons w rest => exact h.next (SameFlow.refl s) (by simp) (by simp) (by simp [goOn, plain])
  | flushingFinish n =>
    cases n with
    | zero => exact h.next (SameFlow.refl s) (by simp) (by simp) (by rintro _ ⟨⟩)
    | succ n => exact h.next (SameFlow.refl s) (by simp) (by simp) (by simp [goOn, plain])
  | emitError | emitFinish => exact h.next (SameFlow.refl s) (by simp) (by simp) (by simp [goOn, plain])
  | finishing => exact h.next (SameFlow.same rfl rfl rfl rfl rfl rfl id) (by simp) (by simp) (by rintro _ ⟨⟩)
  | finished =>
    have hpop : Flow accepted ⟨s, [] ++ fs, trace ++ []⟩ := h.next (b := { state := s }) (SameFlow.refl s) (by simp) (by simp) (by simp)
    simp only [goOn]
    split
    · next hd =>
      rw [append_nil] at hpop; exact hpop.destroy (ho hd) false
    · exact hpop
  | ended =>
    simp only [goOn]
    split
    · exact h.next (SameFlow.endWrites hS.state.notify false) (by simp) (by simp) (by simp)
    · exact h.next (SameFlow.refl s) (by simp) (by simp) (by simp)
  | destroying => exact h.next SameFlow.destroyRest (by simp) (by simp) (by rintro _ ⟨⟩)

theorem start (accepted : Bool) : Flow accepted { state := start accepted } where
  order := rfl
  kernel := rfl
  eof := nofun
  ended := nofun
  stopped := nofun
  quiet := EachAfter.nil
  resumes := nofun
  synced _ _ := rfl
  spoke ha := .inl ha
  queued _ _ hne := absurd rfl hne
  gone := nofun

/-! ### What a run has delivered -/

theorem once (hS : SaneState accepted s) (h : Flow accepted ⟨s, stack, trace⟩) :
    (delivered trace ++ s.pendingChunks ++ s.native.chunks).flatten ++ s.unread = arrived trace := by
  rw [show delivered trace ++ s.pendingChunks = s.native.read from h.order, hS.sound.account.chunks]
  exact h.kernel.symm

theorem chunks_nil (hS : SaneState accepted s) (hd : .data ∉ s.native.events) : s.native.chunks = [] := by
  have hcount := hS.sound.account.counted
  rw [hS.sound.account.queue, count_append, count_eq_zero.2 hd, length_append, hS.counted] at hcount
  exact eq_nil_of_length_eq_zero (by omega)

theorem complete (hS : SaneState accepted s) (h : Flow accepted ⟨s, stack, trace⟩) (hm : .ended ∈ trace) :
    (delivered trace).flatten = arrived trace := by
  obtain ⟨ht, hp⟩ := h.ended hm
  have hchunks : s.native.chunks = [] := chunks_nil hS (no_data hS.sound ht)
  have hunread : s.unread = [] := by
    refine (h.eof (hS.sound.peerEnded_of_mem ?_)).2
    rw [hS.sound.account.queue]; exact mem_append_left _ ht
  rw [← h.once hS, hp, hchunks, hunread]; simp

/-- A socket at rest that is neither paused nor destroyed holds nothing back, and listens for what the kernel holds. -/
theorem prompt (hS : Sane accepted ⟨s, [], trace⟩) (h : Flow accepted ⟨s, [], trace⟩) (hsoon : s.native.soon = 0)
    (ha : s.attached = true) (hdes : s.destroyed = false) (hp : s.paused = false) :
    s.Empty ∧ (s.unread ≠ [] → s.alive = true ∧ s.native.loopClosed = false ∧ s.native.interestedIn = true) := by
  have hevents : s.native.events = [] := by
    cases hl : s.alive with
    | false => exact (h.gone hl).1
    | true =>
      by_contra hne
      exact absurd (h.queued nofun hl hne) (by rw [hsoon]; exact Nat.lt_irrefl 0)
  have hqueue := hS.state.sound.account.queue
  rw [hevents, append_nil] at hqueue
  have hempty : s.Empty := by
    refine ⟨?_, chunks_nil hS.state (by rw [hevents]; exact not_mem_nil)⟩
    by_contra hne
    exact absurd (h.resumes hp hne) not_mem_nil
  have hopen : s.native.loopClosed = false := by
    cases hc : s.native.loopClosed with
    | false => rfl
    | true =>
      have hover : s.destroyed = true := by
        obtain hd | hm := hS.state.closing (hS.state.closed hc)
        · exact hd
        · rw [hqueue] at hm; exact hS.state.taken hm
      exact absurd (hdes.symm.trans hover) (by decide)
  refine ⟨hempty, fun hne => ?_⟩
  have hl : s.alive = true := by
    cases hl : s.alive with
    | true => rfl
    | false => exact absurd (hopen.symm.trans (h.gone hl).2) (by decide)
  have hcon : s.native.connecting = false := hS.state.sound.not_connecting ((h.spoke ha).imp id (fun hm => by rw [hqueue]; exact hm))
  have hpe : s.native.peerEnded = false := by
    cases hpe : s.native.peerEnded with
    | false => rfl
    | true => exact absurd (h.eof hpe).2 hne
  have hsync : s.native.paused = false := (h.synced ha hl).trans hp
  exact ⟨hl, hopen, by simp [interestedIn, hcon, hsync, hpe]⟩

end Flow

/-! ## Every run -/

/-- What arrived is what was delivered, then what waits; nothing goes out after `'end'` and `destroy()`, `'end'` comes after
everything, and a socket that nothing holds back keeps nothing. -/
structure Delivers (c : Config) : Prop where
  once : (delivered c.trace ++ c.state.pendingChunks ++ c.state.native.chunks).flatten ++ c.state.unread = arrived c.trace
  quiet : EachAfter Quiet c.trace
  complete : .ended ∈ c.trace → (delivered c.trace).flatten = arrived c.trace
  prompt : c.stack = [] → c.state.native.soon = 0 → c.state.attached = true → c.state.destroyed = false → c.state.paused = false →
    c.state.Empty ∧
      (c.state.unread ≠ [] → c.state.alive = true ∧ c.state.native.loopClosed = false ∧ c.state.native.interestedIn = true)

instance (s : LiveSocket) : Decidable s.Empty := inferInstanceAs (Decidable (_ ∧ _))

instance (s : LiveSocket) (r : Revents) (a : Answers) : Decidable (s.Drained r a) := inferInstanceAs (Decidable (_ → _ → _ → _))

instance (s : LiveSocket) : ∀ f : Frame, Decidable (f.orderly s)
  | .dispatching | .finished => inferInstanceAs (Decidable (_ → _))
  | .connected | .resuming | .flushing _ _ | .flushingFinish _ | .emitError | .finishing | .emitFinish | .ended | .destroying =>
    .isTrue trivial

instance (c : Config) : ∀ m : Move Call, Decidable (Orderly c m)
  | .call (.ready r a) | .call (.win r a _) => inferInstanceAs (Decidable (c.state.Drained r a))
  | .call .purge => inferInstanceAs (Decidable (_ = _))
  | .call (.destroy _) => inferInstanceAs (Decidable (_ ∨ _))
  | .call .resume => inferInstanceAs (Decidable (_ → _))
  | .ret => inferInstanceAs (Decidable (∀ f ∈ c.stack.head?, f.orderly c.state))
  | .call .notify | .call .microtask | .call .lose | .call (.arrive _) | .call .peerCloses | .call (.write _ _ _)
  | .call (.endWrites _) | .call .destroySoon | .call .pause | .call (.setEncoding _) | .call .pipe => .isTrue trivial

/-- A chunk is held back by the callback of a write, delivered by `resume`, and followed by the last chunk and the end. -/
def heldBack : List (Move Call) := [.call (.arrive [1, 2]), .call (.write [9] true [.eagain]),
    .call (.ready { pollIn := true, pollOut := true } { sends := [.count 1], recvs := [.bytes [1, 2]] }),
    .ret, .call .pause, .ret, .ret, .ret, .call .resume, .ret, .call (.arrive [3]), .call .peerCloses,
    .call (.ready { pollIn := true, pollHup := true } { recvs := [.bytes [3]] }), .ret, .ret]

/-- The peer closes while the socket is paused, and the hang-up is reported. -/
def hangUp : List (Move Call) :=
  [.call (.arrive [1, 2]), .call .pause, .call .peerCloses, .call (.ready { pollHup := true } {}), .ret]

/-- The callback of a write pauses the socket before the last chunk and the end; the handler of `'end'` resumes it. -/
def lateResume : List (Move Call) := [.call (.arrive [1]), .call .peerCloses, .call (.write [9] true [.eagain]),
    .call (.ready { pollIn := true, pollOut := true, pollHup := true } { sends := [.count 1], recvs := [.bytes [1]] }),
    .ret, .call .pause, .ret, .ret, .ret, .call .resume]

/-- The callback of a write destroys the socket before a chunk. -/
def lateChunk : List (Move Call) := [.call (.arrive [1]), .call (.write [9] true [.eagain]),
    .call (.ready { pollIn := true, pollOut := true } { sends := [.count 1], recvs := [.bytes [1]] }),
    .ret, .call (.destroy false), .ret, .ret]

end NodeCompat.Net.LiveSocket
