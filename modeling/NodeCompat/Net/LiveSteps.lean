import NodeCompat.Net.LiveSocket

/-!
# What the steps of a live socket keep

The connection under a socket stays sound, its events are dispatched by one loop that has nothing under it, and a socket that
is destroyed does not read any more (`Sane`).
-/

namespace NodeCompat.Net.LiveSocket

open List Option Bool
open NodeCompat.Stream (BufferEncoding)

variable {toString : BufferEncoding → Bytes → List UInt16} {accepted : Bool} {s s' : LiveSocket}

/-! ## The stack -/

/-- Frames that go on with the events of the connection. -/
def Frame.loops : Frame → Bool
  | .dispatching | .connected => true
  | _ => false

/-- Nothing waits for the loop. -/
def Grounded : List Frame → Prop
  | [] => True
  | f :: fs => (f.loops = true → fs = []) ∧ Grounded fs

theorem Grounded.push {fs gs : List Frame} (h : Grounded fs) (hg : ∀ f ∈ gs, f.loops = false) : Grounded (gs ++ fs) := by
  induction gs with
  | nil => exact h
  | cons g gs ih =>
    refine ⟨fun hl => ?_, ih (fun f hf => hg f (mem_cons_of_mem _ hf))⟩
    rw [hg g mem_cons_self] at hl; cases hl

/-! ## The state -/

structure SaneState (accepted : Bool) (s : LiveSocket) : Prop where
  sound : Sound accepted s.native
  notify : s.native.notify = true
  counted : s.native.read.length = s.native.taken.count .data
  closed : s.native.loopClosed = true → s.native.closing = true
  fresh : s.attached = false → accepted = false ∧ s.native = ClientConnection.create true 0 false
  alone : s.destroyed = false → s.attached = true ∨ s.connecting = true
  taken : .close ∈ s.native.taken → s.destroyed = true
  closing : s.native.closing = true → s.destroyed = true ∨ .close ∈ s.native.pushed
  halted : s.destroyed = true → s.connecting = false

/-- The socket does not read any more: the connection is closing or gone, or `destroy` is about to close it. -/
def Silent (s : LiveSocket) (stack : List Frame) : Prop :=
  s.native.closing = true ∨ s.alive = false ∨ .destroying ∈ stack ∨ s.attached = false ∧ s.connecting = false

structure Sane (accepted : Bool) (c : Config) : Prop where
  state : SaneState accepted c.state
  grounded : Grounded c.stack
  looping : ∀ f ∈ c.stack, f.loops = true → c.state.attached = true
  silent : c.state.destroyed = true → Silent c.state c.stack
  doomed : .destroying ∈ c.stack → c.state.destroyed = true

open LiveSocket

namespace SaneState

theorem same (h : SaneState accepted s) (hn : s'.native = s.native) (ha : s'.attached = s.attached)
    (hc : s'.connecting = s.connecting) (hd : s'.destroyed = s.destroyed) : SaneState accepted s' := by
  constructor
  · rw [hn]; exact h.sound
  · rw [hn]; exact h.notify
  · rw [hn]; exact h.counted
  · rw [hn]; exact h.closed
  · rw [hn, ha]; exact h.fresh
  · rw [hd, ha, hc]; exact h.alone
  · rw [hn, hd]; exact h.taken
  · rw [hn, hd]; exact h.closing
  · rw [hd, hc]; exact h.halted

section

variable (h : SaneState accepted s)
include h

theorem works (ha : s.attached = true) {n : ClientConnection} (hs : Sound accepted n)
    (hw : Works s.native n) : SaneState accepted { s with native := n } where
  sound := hs
  notify := hw.notify.trans h.notify
  counted := by rw [hw.read, hw.taken]; exact h.counted
  closed := hw.loopClosed h.closed
  fresh hf := absurd (ha.symm.trans hf) (by decide)
  alone := h.alone
  taken := by rw [hw.taken]; exact h.taken
  closing hc := by
    have hqueue := hs.account.queue
    have hqueue' := h.sound.account.queue
    obtain hold | hm := hw.closes hc
    · refine (h.closing hold).imp id (fun hp => ?_)
      rw [hqueue, hw.taken]
      rw [hqueue'] at hp
      exact mem_append.2 ((mem_append.1 hp).imp id (fun he => hw.events.subset he))
    · rw [hqueue]; exact .inr (mem_append_right _ hm)
  halted := h.halted

theorem destroyRest (hd : s.destroyed = true) : SaneState accepted s.destroyRest := by
  unfold LiveSocket.destroyRest LiveSocket.onNative
  split
  · next hg =>
    rw [and_eq_true] at hg
    have hsound : Sound accepted s.native.destroy := h.sound.destroy
    have hfields : s.native.destroy.notify = s.native.notify ∧ s.native.destroy.read = s.native.read ∧
        s.native.destroy.taken = s.native.taken ∧ s.native.destroy.closing = true := by
      unfold ClientConnection.destroy
      split
      · next hc => exact ⟨rfl, rfl, rfl, hc⟩
      · exact ⟨rfl, rfl, rfl, rfl⟩
    obtain ⟨hn, hr, ht, hc⟩ := hfields
    refine ⟨hsound, hn.trans h.notify, ?_, fun _ => hc, fun hf => absurd (hg.1.symm.trans hf) (by decide), h.alone, fun _ => hd,
      fun _ => .inl hd, h.halted⟩
    rw [hr, ht]; exact h.counted
  · exact h.same rfl rfl rfl rfl

theorem nextEvent {e : ClientEvent} {es : List ClientEvent}
    (he : s.native.events = e :: es) (hd : e ≠ .data) (hs' : s'.native = s.native.nextEvent) (ha' : s'.attached = true)
    (hdes : s'.destroyed = true ∨ s'.destroyed = s.destroyed ∧ e ≠ .close) (hhalt : s'.destroyed = true → s'.connecting = false) :
    SaneState accepted s' := by
  have hnext : s.native.nextEvent = { s.native with events := es, taken := s.native.taken ++ [e] } := by
    unfold ClientConnection.nextEvent; rw [he]
  refine ⟨?_, ?_, ?_, ?_, fun hf => absurd (ha'.symm.trans hf) (by decide), fun _ => .inl ha', ?_, ?_, hhalt⟩
  · rw [hs']; exact h.sound.nextEvent
  · rw [hs', hnext]; exact h.notify
  · rw [hs', hnext]; rw [count_append, count_singleton, h.counted]; simp [hd]
  · rw [hs', hnext]; exact h.closed
  · rw [hs', hnext]
    intro hm
    obtain hdes | ⟨hdes, hne⟩ := hdes
    · exact hdes
    · rw [hdes]
      obtain hm | hm := mem_append.1 hm
      · exact h.taken hm
      · exact absurd (mem_singleton.1 hm).symm hne
  · rw [hs', hnext]
    intro hc
    obtain hdes | ⟨hdes, -⟩ := hdes
    · exact .inl hdes
    · rw [hdes]; exact h.closing hc

theorem readChunk (ha : s.attached = true) {es : List ClientEvent}
    (he : s.native.events = .data :: es) :
    ∃ b bs, s.native.chunks = b :: bs ∧ s.native.nextEvent.readChunk =
      { s.native with events := es, taken := s.native.taken ++ [.data], chunks := bs, read := s.native.read ++ [b] } ∧
      s.native.nextEvent.chunks.headD [] = b ∧ SaneState accepted { s with native := s.native.nextEvent.readChunk } := by
  obtain ⟨b, bs, hb, hread, hhead⟩ := h.sound.account.readChunk_data he h.counted
  refine ⟨b, bs, hb, hread, hhead, ⟨h.sound.nextEvent.readChunk, ?_, ?_, ?_, ?_, h.alone, ?_, ?_, h.halted⟩⟩
  all_goals simp only [hread]
  · exact h.notify
  · simp [h.counted]
  · exact h.closed
  · exact fun hf => absurd (ha.symm.trans hf) (by decide)
  · intro hm
    obtain hm | hm := mem_append.1 hm
    · exact h.taken hm
    · cases mem_singleton.1 hm
  · exact h.closing

end

end SaneState

/-- What was held back goes out: each write keeps the input, and tells of what it has caused. -/
theorem writeAll_told : ∀ {held : List Bytes} {sends : List (List SendResult)} {c d : ClientConnection},
    c.notify = true → c.writeAll held sends = some d → Works c d ∧ KeepsInput c d ∧ Told c d
  | [], _, c, d, _, hd => by
    cases hd; exact ⟨Works.refl c, KeepsInput.refl c, fun _ => .inl ⟨rfl, Nat.le_refl _⟩⟩
  | data :: held, sends, c, d, hn, hd => by
    obtain ⟨e, he, hd⟩ := bind_eq_some_iff.1 hd
    have hw : Works c e := Works.write hn he
    obtain ⟨hw', hk, ht⟩ := writeAll_told (hw.notify.trans hn) hd
    exact ⟨hw.trans hw', (KeepsInput.write he).trans hk, Told.trans (told_write hn he) ht⟩

/-! ## Steps that change neither where the socket is nor what it has taken -/

structure Ordinary (accepted : Bool) (s s' : LiveSocket) : Prop where
  sane : SaneState accepted s'
  attached : s'.attached = s.attached
  connecting : s'.connecting = s.connecting
  destroyed : s'.destroyed = s.destroyed
  alive : s'.alive = s.alive
  stays : s.native.closing = true → s'.native.closing = true

namespace Ordinary

variable {s'' : LiveSocket}

theorem trans (h : Ordinary accepted s s') (h' : Ordinary accepted s' s'') : Ordinary accepted s s'' :=
  ⟨h'.sane, h'.attached.trans h.attached, h'.connecting.trans h.connecting, h'.destroyed.trans h.destroyed,
    h'.alive.trans h.alive, fun hc => h'.stays (h.stays hc)⟩

theorem same (h : SaneState accepted s) (hn : s'.native = s.native) (ha : s'.attached = s.attached)
    (hc : s'.connecting = s.connecting) (hd : s'.destroyed = s.destroyed) (hl : s'.alive = s.alive) : Ordinary accepted s s' :=
  ⟨h.same hn ha hc hd, ha, hc, hd, hl, fun h => by rw [hn]; exact h⟩

theorem refl (h : SaneState accepted s) : Ordinary accepted s s := same h rfl rfl rfl rfl rfl

theorem andSame (h : Ordinary accepted s s') (hn : s''.native = s'.native) (ha : s''.attached = s'.attached)
    (hc : s''.connecting = s'.connecting) (hd : s''.destroyed = s'.destroyed) (hl : s''.alive = s'.alive) :
    Ordinary accepted s s'' := h.trans (same h.sane hn ha hc hd hl)

section

variable (h : SaneState accepted s)
include h

theorem works {n : ClientConnection} (ha : s.attached = true) (hs : Sound accepted n)
    (hw : Works s.native n) : Ordinary accepted s { s with native := n } :=
  ⟨h.works ha hs hw, rfl, rfl, rfl, rfl, hw.stays⟩

theorem onNative {f : ClientConnection → ClientConnection}
    (hf : s.attached = true → Sound accepted (f s.native) ∧ Works s.native (f s.native)) : Ordinary accepted s (s.onNative f) := by
  unfold LiveSocket.onNative
  split
  · next hg =>
    rw [and_eq_true] at hg
    obtain ⟨hs, hw⟩ := hf hg.1; exact works h hg.1 hs hw
  · exact refl h

theorem setPaused (paused : Bool) : Ordinary accepted s (s.onNative (fun c => { c with paused })) := by
  unfold LiveSocket.onNative
  split
  · next hg =>
    rw [and_eq_true] at hg
    refine ⟨⟨h.sound.step (l := .setPaused paused) rfl, h.notify, h.counted, h.closed, fun hf => ?_, h.alone, h.taken, h.closing,
      h.halted⟩, rfl, rfl, rfl, rfl, id⟩
    exact absurd (hg.1.symm.trans hf) (by decide)
  · exact refl h

theorem endWrites (callback : Bool) : Ordinary accepted s (s.endWrites callback) := by
  obtain ⟨t, hcount, ht⟩ : ∃ t, Ordinary accepted s t ∧
      (if callback then { s with pendingFinishCallbacks := s.pendingFinishCallbacks + 1 } else s) = t := by
    refine ⟨_, ?_, rfl⟩
    split
    · exact same h rfl rfl rfl rfl rfl
    · exact refl h
  unfold LiveSocket.endWrites
  dsimp only
  rw [ht]
  refine hcount.trans ?_
  split
  · exact same hcount.sane rfl rfl rfl rfl rfl
  · split
    · exact same hcount.sane rfl rfl rfl rfl rfl
    · have hend : Ordinary accepted t (t.onNative ClientConnection.endWrites) :=
        onNative hcount.sane (fun _ => ⟨hcount.sane.sound.endWrites, Works.endWrites hcount.sane.notify⟩)
      exact hend.andSame rfl rfl rfl rfl rfl

theorem destroySoon : Ordinary accepted s s.destroySoon := by
  unfold LiveSocket.destroySoon
  split
  · exact refl h
  · have hafter : Ordinary accepted s { s with destroyAfterFinish := true } := same h rfl rfl rfl rfl rfl
    exact hafter.trans (endWrites hafter.sane false)

theorem flushWriteCallbacks (failed : Bool) (frames : List Frame) :
    Ordinary accepted s (s.flushWriteCallbacks failed frames).state := by
  unfold LiveSocket.flushWriteCallbacks
  split
  · exact refl h
  · exact same h rfl rfl rfl rfl rfl

theorem deliverPending : Ordinary accepted s (s.deliverPending toString).state := by
  unfold LiveSocket.deliverPending
  split
  · exact same h rfl rfl rfl rfl rfl
  · exact refl h

end

theorem leave (h : SaneState accepted s) : Ordinary accepted s s.leave := by
  unfold LiveSocket.leave
  split
  · next hpos =>
    have hs : Sound accepted s.native.notified := h.sound.step (l := .notified) (by simp [Net.step, hpos])
    unfold ClientConnection.notified at hs ⊢
    dsimp only at hs ⊢
    split
    · next hc =>
      rw [if_pos hc] at hs
      refine ⟨⟨hs, h.notify, h.counted, fun _ => hc, fun hf => ?_, h.alone, h.taken, h.closing, h.halted⟩, rfl, rfl, rfl, rfl, id⟩
      rw [(h.fresh hf).2] at hpos; cases hpos
    · next hc =>
      rw [if_neg hc] at hs
      refine ⟨⟨hs, h.notify, h.counted, h.closed, fun hf => ?_, h.alone, h.taken, h.closing, h.halted⟩, rfl, rfl, rfl, rfl, id⟩
      rw [(h.fresh hf).2] at hpos; cases hpos
  · exact refl h

theorem refuse (h : SaneState accepted s) (callback : Bool) (w : WriteCallback) : Ordinary accepted s (s.refuse callback w) := by
  unfold LiveSocket.refuse
  split
  · exact same h rfl rfl rfl rfl rfl
  · exact refl h

theorem await (h : SaneState accepted s) (callback : Bool) (w : WriteCallback) : Ordinary accepted s (s.await callback w) := by
  unfold LiveSocket.await
  split
  · exact same h rfl rfl rfl rfl rfl
  · exact refl h

theorem write (h : SaneState accepted s) {data : Bytes} {callback : Bool} {sends : List SendResult} {b : Step}
    (hb : s.write data callback sends = some b) : Ordinary accepted s b.state := by
  unfold LiveSocket.write at hb
  have hawait := await h callback (s.writeCallback data)
  split at hb
  · cases hb; exact refuse h callback _
  split at hb
  · cases hb; exact hawait.andSame rfl rfl rfl rfl rfl
  next ha =>
  obtain ⟨c, hc, rfl⟩ := map_eq_some_iff.1 hb
  have hwrite : Ordinary accepted s { s with native := c } := by
    split at hc
    · exact works h (by simpa using ha) (h.sound.write hc) (Works.write h.notify hc)
    · cases hc; exact refl h
  have hboth : Ordinary accepted s { s.await callback (s.writeCallback data) with native := c } := by
    refine ⟨hwrite.sane.same rfl ?_ ?_ ?_, hawait.attached, hawait.connecting, hawait.destroyed, hawait.alive, hwrite.stays⟩
    · exact hawait.attached
    · exact hawait.connecting
    · exact hawait.destroyed
  refine hboth.trans ?_
  split
  · exact flushWriteCallbacks hboth.sane _ _
  · exact refl hboth.sane

end Ordinary

/-! ## Blocks -/

open LiveSocket (emitClose handle receive)

namespace Sane

variable {stack fs gs : List Frame} {trace trace' : List Event} {f : Frame}

theorem ordinary (h : Sane accepted ⟨s, stack, trace⟩) (gs : List Frame) (ho : Ordinary accepted s s') (hg : ∀ f ∈ gs, f.loops = false)
    (hd : .destroying ∉ gs) : Sane accepted ⟨s', gs ++ stack, trace'⟩ where
  state := ho.sane
  grounded := h.grounded.push hg
  looping f hf hl := by
    obtain hf | hf := mem_append.1 hf
    · rw [hg f hf] at hl; cases hl
    · exact ho.attached.trans (h.looping f hf hl)
  silent hdes := by
    obtain hc | ha | hm | hu := h.silent (ho.destroyed.symm.trans hdes)
    · exact .inl (ho.stays hc)
    · exact .inr (.inl (ho.alive.trans ha))
    · exact .inr (.inr (.inl (mem_append_right _ hm)))
    · exact .inr (.inr (.inr ⟨ho.attached.trans hu.1, ho.connecting.trans hu.2⟩))
  doomed hm := by
    obtain hm | hm := mem_append.1 hm
    · exact absurd hm hd
    · exact ho.destroyed.trans (h.doomed hm)

theorem pop (h : Sane accepted ⟨s, f :: fs, trace⟩) (hf : f ≠ .destroying) : Sane accepted ⟨s, fs, trace'⟩ where
  state := h.state
  grounded := h.grounded.2
  looping f hf := h.looping f (mem_cons_of_mem _ hf)
  silent hdes := by
    obtain hc | ha | hm | hu := h.silent hdes
    · exact .inl hc
    · exact .inr (.inl ha)
    · exact .inr (.inr (.inl ((mem_cons.1 hm).resolve_left (fun heq => hf heq.symm))))
    · exact .inr (.inr (.inr hu))
  doomed hm := h.doomed (mem_cons_of_mem _ hm)

theorem root (hs : SaneState accepted s') (ha : s'.attached = true) (hg : Grounded gs) (hd : .destroying ∉ gs)
    (hsil : s'.destroyed = true → s'.native.closing = true ∨ s'.alive = false) : Sane accepted ⟨s', gs, trace'⟩ where
  state := hs
  grounded := hg
  looping _ _ _ := ha
  silent hdes := (hsil hdes).imp id .inl
  doomed hm := absurd hm hd

theorem silent_of_attached (h : Sane accepted ⟨s, stack, trace⟩) (ha : s.attached = true) (hd : .destroying ∉ stack)
    (hdes : s.destroyed = true) : s.native.closing = true ∨ s.alive = false := by
  obtain hc | hl | hm | hu := h.silent hdes
  · exact .inl hc
  · exact .inr hl
  · exact absurd hm hd
  · exact absurd (ha.symm.trans hu.1) (by decide)

/-! ### Destroying -/

theorem destroyRest (h : Sane accepted ⟨s, .destroying :: fs, trace⟩) : Sane accepted ⟨s.destroyRest, fs, trace'⟩ := by
  have hdes : s.destroyed = true := h.doomed mem_cons_self
  have hfields : s.destroyRest.attached = s.attached ∧ s.destroyRest.destroyed = s.destroyed ∧
      s.destroyRest.alive = s.alive ∧ s.destroyRest.connecting = s.connecting := by
    unfold LiveSocket.destroyRest LiveSocket.onNative
    split <;> exact ⟨rfl, rfl, rfl, rfl⟩
  obtain ⟨ha, hd, hl, hc⟩ := hfields
  refine ⟨h.state.destroyRest hdes, h.grounded.2, ?_, fun _ => ?_, fun _ => hd.trans hdes⟩
  · intro f hf hloop; exact ha.trans (h.looping f (mem_cons_of_mem _ hf) hloop)
  · cases hatt : s.attached with
    | false => exact .inr (.inr (.inr ⟨ha.trans hatt, hc.trans (h.state.halted hdes)⟩))
    | true =>
      cases halive : s.alive with
      | false => exact .inr (.inl (hl.trans halive))
      | true =>
        left
        unfold LiveSocket.destroyRest LiveSocket.onNative
        rw [hatt, halive]
        show s.native.destroy.closing = true
        unfold ClientConnection.destroy
        split
        · next hcl => exact hcl
        · rfl

theorem abandon (h : Sane accepted ⟨s, stack, trace⟩) :
    Sane accepted ⟨s.abandon, .destroying :: stack, trace'⟩ where
  state := ⟨h.state.sound, h.state.notify, h.state.counted, h.state.closed, h.state.fresh, nofun, fun _ => rfl, fun _ => .inl rfl,
    fun _ => rfl⟩
  grounded := ⟨nofun, h.grounded⟩
  looping f hf hl := by
    obtain rfl | hf := mem_cons.1 hf
    · cases hl
    · exact h.looping f hf hl
  silent _ := .inr (.inr (.inl mem_cons_self))
  doomed _ := rfl

theorem destroy (h : Sane accepted ⟨s, stack, trace⟩) (error : Bool) :
    Sane accepted ((s.destroy error).onto stack trace) := by
  unfold LiveSocket.destroy
  split
  · exact h.ordinary [] (Ordinary.refl h.state) nofun nofun
  · split
    · exact h.abandon
    · have habandon : Sane accepted ⟨s.abandon, .destroying :: stack, trace⟩ := h.abandon; exact habandon.destroyRest

/-! ### Dispatching -/

theorem closing_of_close {n : ClientConnection} (h : Sound accepted n) (hm : .close ∈ n.taken) : n.closing = true := by
  obtain ⟨⟨p, hp⟩, ha⟩ := h
  obtain ⟨head, body, tail, hs⟩ := exists_shape accepted n.pushed hp.log
  have hclosed : p.closed = true := hs.closed_of_mem (by rw [ha.queue]; exact mem_append_left _ hm)
  cases hc : n.closing with
  | true => rfl
  | false => have hover := hp.live hc; simp [Phase.isOver, hclosed] at hover

theorem dispatch (h : Sane accepted ⟨s, [.dispatching], trace⟩) :
    Sane accepted ((s.dispatch toString).onto [] trace) := by
  have ha : s.attached = true := h.looping _ mem_cons_self rfl
  have hsil : s.destroyed = true → s.native.closing = true ∨ s.alive = false := h.silent_of_attached ha (by simp)
  have hpop : Sane accepted ⟨s, [], trace⟩ := h.pop (by decide)
  unfold LiveSocket.dispatch
  split
  · exact hpop.ordinary [] (Ordinary.leave h.state) nofun nofun
  split
  · exact hpop.ordinary [] (Ordinary.leave h.state) nofun nofun
  next e es he =>
  have hclosing : s.native.nextEvent.closing = s.native.closing := by
    unfold ClientConnection.nextEvent; rw [he]
  have hplain : ∀ {s' : LiveSocket} {gs : List Frame} {seen : List Event}, e ≠ .data → e ≠ .close → s'.native = s.native.nextEvent →
      s'.attached = true → s'.destroyed = s.destroyed → s'.alive = s.alive → (s'.connecting = true → s.connecting = true) →
      Grounded gs → .destroying ∉ gs → Sane accepted ⟨s', gs ++ [], trace ++ seen⟩ := by
    intro s' gs seen hdata hclose hn ha' hd hl hcon hg hgd
    rw [append_nil]
    refine root (h.state.nextEvent he hdata hn ha' (.inr ⟨hd, hclose⟩) (fun hdes => ?_)) ha' hg hgd (fun hdes => ?_)
    · cases hc : s'.connecting with
      | false => rfl
      | true => exact absurd ((h.state.halted (hd.symm.trans hdes)).symm.trans (hcon hc)) (by decide)
    · rw [hn, hclosing, hl]; exact hsil (hd.symm.trans hdes)
  cases e with
  | connect =>
    simp only [handle]; exact hplain nofun nofun rfl ha rfl rfl nofun ⟨fun _ => rfl, trivial⟩ (by simp)
  | drain =>
    simp only [handle, LiveSocket.flushWriteCallbacks]
    split
    · exact hplain nofun nofun rfl ha rfl rfl id ⟨fun _ => rfl, trivial⟩ (by simp)
    · exact hplain nofun nofun rfl ha rfl rfl id ⟨nofun, fun _ => rfl, trivial⟩ (by simp)
  | finish =>
    simp only [handle, LiveSocket.flushWriteCallbacks]
    split
    · exact hplain nofun nofun rfl ha rfl rfl id ⟨nofun, nofun, nofun, fun _ => rfl, trivial⟩ (by simp)
    · exact hplain nofun nofun rfl ha rfl rfl id ⟨nofun, nofun, nofun, nofun, fun _ => rfl, trivial⟩ (by simp)
  | error =>
    simp only [handle, LiveSocket.flushWriteCallbacks]
    split
    · exact hplain nofun nofun rfl ha rfl rfl nofun ⟨nofun, fun _ => rfl, trivial⟩ (by simp)
    · exact hplain nofun nofun rfl ha rfl rfl nofun ⟨nofun, nofun, fun _ => rfl, trivial⟩ (by simp)
  | ended =>
    simp only [handle]
    split <;> exact hplain nofun nofun rfl ha rfl rfl id ⟨nofun, fun _ => rfl, trivial⟩ (by simp)
  | data =>
    obtain ⟨b, bs, hb, hread, hhead, hstate⟩ := h.state.readChunk ha he
    simp only [handle, receive]
    split
    · refine root (hstate.same rfl rfl rfl rfl) ha ⟨fun _ => rfl, trivial⟩ (by simp) (fun hdes => ?_)
      rw [hread]; exact hsil hdes
    · refine root hstate ha ⟨fun _ => rfl, trivial⟩ (by simp) (fun hdes => ?_)
      show s.native.nextEvent.readChunk.closing = true ∨ s.alive = false
      rw [hread]; exact hsil hdes
  | close =>
    have htaken : .close ∈ s.native.nextEvent.taken := by
      unfold ClientConnection.nextEvent; rw [he]; simp
    have hcl : s.native.nextEvent.closing = true := closing_of_close h.state.sound.nextEvent htaken
    simp only [handle, emitClose]
    split
    · exact root (h.state.nextEvent he nofun rfl ha (.inl rfl) (fun _ => rfl)) ha ⟨fun _ => rfl, trivial⟩ (by simp) (fun _ => .inl hcl)
    · exact root (h.state.nextEvent he nofun rfl ha (.inl rfl) (fun _ => rfl)) ha ⟨fun _ => rfl, trivial⟩ (by simp) (fun _ => .inl hcl)

theorem afterConnect (h : Sane accepted ⟨s, [.connected], trace⟩) : Sane accepted ((s.afterConnect).onto [] trace) := by
  have ha : s.attached = true := h.looping _ mem_cons_self rfl
  have hpop : Sane accepted ⟨s, [], trace⟩ := h.pop (by decide)
  obtain ⟨t, ho, ht⟩ : ∃ t, Ordinary accepted s t ∧ (if s.connectingEnd && !s.destroyed then
        { s.onNative ClientConnection.endWrites with connectingEnd := false, readyState := .readOnly }
      else s) = t := by
    refine ⟨_, ?_, rfl⟩
    split
    · have hend : Ordinary accepted s (s.onNative ClientConnection.endWrites) :=
        Ordinary.onNative h.state (fun _ => ⟨h.state.sound.endWrites, Works.endWrites h.state.notify⟩)
      exact hend.andSame rfl rfl rfl rfl rfl
    · exact Ordinary.refl h.state
  unfold LiveSocket.afterConnect
  dsimp only
  rw [ht]
  split
  · exact hpop.ordinary [] (ho.trans (Ordinary.leave ho.sane)) nofun nofun
  · next hd =>
    refine root ho.sane (ho.attached.trans ha) ⟨fun _ => rfl, trivial⟩ (by simp) (fun hdes => absurd hdes hd)

/-! ### Connecting -/

theorem writeAll : ∀ {held : List Bytes} {sends : List (List SendResult)} {c d : ClientConnection},
    SaneState accepted { s with native := c } → s.attached = true → c.writeAll held sends = some d →
      SaneState accepted { s with native := d } ∧ Works c d
  | [], _, c, d, h, _, hd => by cases hd; exact ⟨h, Works.refl c⟩
  | data :: held, sends, c, d, h, ha, hd => by
    obtain ⟨e, he, hd⟩ := bind_eq_some_iff.1 hd
    have hw : Works c e := Works.write h.notify he
    have hs : SaneState accepted { s with native := e } := h.works ha (h.sound.write he) hw
    obtain ⟨hs', hw'⟩ := writeAll hs ha hd; exact ⟨hs', hw.trans hw'⟩

theorem win (h : Sane accepted ⟨s, [], trace⟩) (hcon : s.connecting = true) (ha : s.attached = false) {r : Revents} {a : Answers}
    {c d : ClientConnection} (hr : (ClientConnection.create true 0 false).reports r = true)
    (hc : (ClientConnection.create true 0 false).onReady r a = some c) (hhead : c.events.head? = some .connect)
    {sends : List (List SendResult)}
    (hd : { c.nextEvent.setNotify with paused := s.paused }.writeAll s.connectingWrites sends = some d) :
    Sane accepted ⟨s.attach d, [.connected], trace'⟩ := by
  obtain ⟨rfl, -⟩ := h.state.fresh ha
  obtain ⟨es, he⟩ : ∃ es, c.events = .connect :: es := by
    cases hev : c.events with
    | nil => rw [hev] at hhead; cases hhead
    | cons e es =>
      rw [hev] at hhead
      cases hhead; exact ⟨es, rfl⟩
  have hnew : SaneState false (s.attach (ClientConnection.create true 0 false)) :=
    ⟨Sound.create true 0 false, rfl, rfl, nofun, nofun, fun _ => .inl rfl, nofun, nofun, fun _ => rfl⟩
  have hpass : SaneState false (s.attach c) := hnew.works rfl (ClientConnection.onReady_sound hnew.sound hr hc) (Works.onReady hc)
  have hnext : SaneState false (s.attach c.nextEvent) := hpass.nextEvent he nofun rfl rfl (.inr ⟨rfl, nofun⟩) (fun _ => rfl)
  have hnotify : SaneState false (s.attach c.nextEvent.setNotify) :=
    hnext.works rfl hnext.sound.setNotify (Works.setNotify hnext.notify)
  have hpaused : SaneState false (s.attach { c.nextEvent.setNotify with paused := s.paused }) :=
    ⟨hnotify.sound.step (l := .setPaused s.paused) rfl, hnotify.notify, hnotify.counted, hnotify.closed, nofun, fun _ => .inl rfl,
      hnotify.taken, hnotify.closing, fun _ => rfl⟩
  have hheld : SaneState false (s.attach d) := (writeAll (s := s.attach c) hpaused rfl hd).1
  refine root hheld rfl ⟨fun _ => rfl, trivial⟩ (by simp) (fun hdes => ?_)
  exact absurd ((h.state.halted hdes).symm.trans hcon) (by decide)

theorem winAttempt_eq {c : ClientConnection} {sends : List (List SendResult)} {b : Step} (hb : s.winAttempt c sends = some b) :
    ∃ d, { c.nextEvent.setNotify with paused := s.paused }.writeAll s.connectingWrites sends = some d ∧
      b = { state := s.attach d, seen := [.connect], frames := [.connected] } := by
  obtain ⟨d, hd, rfl⟩ := map_eq_some_iff.1 hb; exact ⟨d, hd, rfl⟩

/-! ### All steps -/

theorem pass_eq {c d : ClientConnection} {r : Revents} {a : Answers} {unread : Bytes} (h : s.pass c r a = some (d, unread)) :
    c.reports r = true ∧ s.fits r a = true ∧ c.onReady r a = some d ∧
      unread = s.unread.drop (d.received.length - c.received.length) := by
  unfold pass at h
  split at h
  · next hg =>
    rw [and_eq_true] at hg
    obtain ⟨e, he, heq⟩ := map_eq_some_iff.1 h
    cases heq; exact ⟨hg.1, hg.2, he, rfl⟩
  · cases h

theorem flushWriteCallbacks_frames {failed : Bool} {frames : List Frame} (hg : ∀ f ∈ frames, f.loops = false)
    (hd : .destroying ∉ frames) : (∀ f ∈ (s.flushWriteCallbacks failed frames).frames, f.loops = false) ∧
      .destroying ∉ (s.flushWriteCallbacks failed frames).frames := by
  unfold flushWriteCallbacks
  split
  · exact ⟨hg, hd⟩
  · refine ⟨fun f hf => ?_, by simpa using hd⟩
    obtain rfl | hf := mem_cons.1 hf
    · rfl
    · exact hg f hf

theorem deliverPending_frames (toString : BufferEncoding → Bytes → List UInt16) (s : LiveSocket) :
    (∀ f ∈ (s.deliverPending toString).frames, f.loops = false) ∧ .destroying ∉ (s.deliverPending toString).frames := by
  unfold deliverPending
  split
  · simp [Frame.loops]
  · exact ⟨nofun, nofun⟩

theorem write_frames {data : Bytes} {callback : Bool} {sends : List SendResult} {b : Step}
    (hb : s.write data callback sends = some b) : (∀ f ∈ b.frames, f.loops = false) ∧ .destroying ∉ b.frames := by
  unfold write at hb
  split at hb
  · cases hb; exact ⟨nofun, nofun⟩
  split at hb
  · cases hb; exact ⟨nofun, nofun⟩
  obtain ⟨c, -, rfl⟩ := map_eq_some_iff.1 hb
  split
  · exact flushWriteCallbacks_frames nofun nofun
  · exact ⟨nofun, nofun⟩

theorem call (h : Sane accepted ⟨s, stack, trace⟩) {k : Call} (ht : (program toString).task k = true → stack = []) {b : Step}
    (hb : s.call toString k = some b) : Sane accepted (b.onto stack trace) := by
  cases k with
  | ready r a =>
    obtain rfl : stack = [] := ht rfl
    simp only [LiveSocket.call] at hb
    split at hb
    · next hg =>
      simp only [and_eq_true, not_eq_true'] at hg
      obtain ⟨⟨c, unread⟩, hp, rfl⟩ := map_eq_some_iff.1 hb
      obtain ⟨hr, -, hc, -⟩ := pass_eq hp
      have hstate : SaneState accepted { s with native := c, unread } :=
        (h.state.works hg.1.1 (ClientConnection.onReady_sound h.state.sound hr hc) (Works.onReady hc)).same rfl rfl rfl rfl
      have hsil : s.destroyed = true → c.closing = true ∨ s.alive = false := fun hdes =>
        (h.silent_of_attached hg.1.1 (by simp) hdes).imp (Works.onReady hc).stays id
      split
      · exact root hstate hg.1.1 ⟨fun _ => rfl, trivial⟩ (by simp) hsil
      · exact root hstate hg.1.1 trivial (by simp) hsil
    · cases hb
  | notify =>
    obtain rfl : stack = [] := ht rfl
    simp only [LiveSocket.call] at hb
    split at hb
    · next hg =>
      simp only [and_eq_true, decide_eq_true_eq] at hg
      cases hb
      have hsound : Sound accepted { s.native with soon := s.native.soon - 1 } :=
        h.state.sound.step (l := .microtask) (by simp [Net.step, hg.2])
      refine root ⟨hsound, h.state.notify, h.state.counted, h.state.closed, fun hf => ?_, h.state.alone, h.state.taken, h.state.closing,
        h.state.halted⟩ hg.1 ⟨fun _ => rfl, trivial⟩ (by simp) (h.silent_of_attached hg.1 (by simp))
      exact absurd (hg.1.symm.trans hf) (by decide)
    · cases hb
  | microtask =>
    simp only [LiveSocket.call] at hb
    split at hb
    · cases hb
    · next rest _ =>
      cases hb
      have hrest : Ordinary accepted s { s with microtasks := rest } := Ordinary.same h.state rfl rfl rfl rfl rfl
      unfold emitClose
      split
      · exact h.ordinary [] hrest (by simp) (by simp)
      · exact h.ordinary [] (hrest.andSame rfl rfl rfl rfl rfl) (by simp) (by simp)
    · next rest _ =>
      cases hb
      exact h.ordinary [.flushingFinish s.pendingFinishCallbacks, .emitFinish]
        (Ordinary.same h.state rfl rfl rfl rfl rfl) (by simp [Frame.loops]) (by simp)
    · next w rest _ =>
      cases hb; exact h.ordinary [] (Ordinary.same h.state rfl rfl rfl rfl rfl) (by simp) (by simp)
  | win r a sends =>
    obtain rfl : stack = [] := ht rfl
    simp only [LiveSocket.call] at hb
    split at hb
    · next hg =>
      simp only [and_eq_true, not_eq_true'] at hg
      obtain ⟨⟨c, unread⟩, hp, hb⟩ := bind_eq_some_iff.1 hb
      obtain ⟨hr, -, hc, -⟩ := pass_eq hp
      split at hb
      · next hhead =>
        obtain ⟨d, hd, rfl⟩ := winAttempt_eq hb
        have hread : Sane accepted ⟨{ s with unread }, [], trace⟩ :=
          h.ordinary [] (Ordinary.same h.state rfl rfl rfl rfl rfl) (by simp) (by simp)
        exact hread.win hg.1 hg.2 hr hc hhead hd
      · cases hb
    · cases hb
  | lose =>
    simp only [LiveSocket.call] at hb
    split at hb
    · cases hb; exact h.destroy true
    · cases hb
  | purge =>
    obtain rfl : stack = [] := ht rfl
    simp only [LiveSocket.call] at hb
    split at hb
    · cases hb; exact ⟨h.state.same rfl rfl rfl rfl, trivial, (by simp), fun _ => .inr (.inl rfl), (by simp)⟩
    · cases hb
  | arrive bytes =>
    simp only [LiveSocket.call] at hb
    split at hb
    · cases hb
    · cases hb; exact h.ordinary [] (Ordinary.same h.state rfl rfl rfl rfl rfl) (by simp) (by simp)
  | peerCloses | pipe => cases hb; exact h.ordinary [] (Ordinary.same h.state rfl rfl rfl rfl rfl) (by simp) (by simp)
  | write data callback sends =>
    obtain ⟨hg, hd⟩ := write_frames hb; exact h.ordinary b.frames (Ordinary.write h.state hb) hg hd
  | endWrites callback => cases hb; exact h.ordinary [] (Ordinary.endWrites h.state callback) (by simp) (by simp)
  | destroySoon => cases hb; exact h.ordinary [] (Ordinary.destroySoon h.state) (by simp) (by simp)
  | destroy error => cases hb; exact h.destroy error
  | pause =>
    cases hb; exact h.ordinary [] ((Ordinary.setPaused h.state true).andSame rfl rfl rfl rfl rfl) (by simp) (by simp)
  | resume =>
    cases hb
    have hset : Ordinary accepted s { s.onNative (fun c => { c with paused := false }) with paused := false } :=
      (Ordinary.setPaused h.state false).andSame rfl rfl rfl rfl rfl
    obtain ⟨hg, hd⟩ := deliverPending_frames toString { s.onNative (fun c => { c with paused := false }) with paused := false }
    exact h.ordinary _ (hset.trans (Ordinary.deliverPending hset.sane)) hg hd
  | setEncoding encoding =>
    cases hb; exact h.ordinary [] (Ordinary.same h.state rfl rfl rfl rfl rfl) (by simp) (by simp)

theorem goOn (h : Sane accepted ⟨s, f :: fs, trace⟩) : Sane accepted ((s.goOn toString f).onto fs trace) := by
  have hstay : ∀ (gs : List Frame) {s' : LiveSocket} {seen : List Event}, f ≠ .destroying → Ordinary accepted s s' →
      (∀ f ∈ gs, f.loops = false) → .destroying ∉ gs → Sane accepted ⟨s', gs ++ fs, trace ++ seen⟩ := by
    intro gs s' seen hf ho hg hd
    have hpop : Sane accepted ⟨s, fs, trace⟩ := h.pop hf
    exact hpop.ordinary gs ho hg hd
  have hsame : Ordinary accepted s s := Ordinary.refl h.state
  cases f with
  | dispatching => obtain rfl : fs = [] := h.grounded.1 rfl; exact h.dispatch
  | connected => obtain rfl : fs = [] := h.grounded.1 rfl; exact h.afterConnect
  | resuming =>
    obtain ⟨hg, hd⟩ := deliverPending_frames toString s; exact hstay _ nofun (Ordinary.deliverPending h.state) hg hd
  | flushing rest failed =>
    cases rest with
    | nil => exact hstay [] nofun hsame nofun nofun
    | cons w rest => exact hstay [.flushing rest failed] nofun hsame (by simp [Frame.loops]) (by simp)
  | flushingFinish n =>
    cases n with
    | zero => exact hstay [] nofun hsame nofun nofun
    | succ n => exact hstay [.flushingFinish n] nofun hsame (by simp [Frame.loops]) (by simp)
  | emitError | emitFinish => exact hstay [] nofun hsame nofun nofun
  | finishing =>
    exact hstay [.flushingFinish s.pendingFinishCallbacks] nofun (Ordinary.same h.state rfl rfl rfl rfl rfl)
      (by simp [Frame.loops]) (by simp)
  | finished =>
    simp only [goOn]
    have hpop : Sane accepted ⟨s, fs, trace⟩ := h.pop nofun
    split
    · exact hpop.destroy false
    · exact hstay [] nofun hsame nofun nofun
  | ended =>
    simp only [goOn]
    split
    · exact hstay [] nofun (Ordinary.endWrites h.state false) nofun nofun
    · exact hstay [] nofun hsame nofun nofun
  | destroying =>
    have hrest : Sane accepted ⟨s.destroyRest, fs, trace ++ []⟩ := h.destroyRest; exact hrest

theorem start (accepted : Bool) : Sane accepted { state := start accepted } := by
  refine ⟨⟨Sound.create true 0 accepted, rfl, rfl, nofun, fun hf => ?_, fun _ => ?_, nofun, nofun, nofun⟩, trivial, nofun, nofun, nofun⟩
  · have hacc : accepted = false := hf
    subst hacc; exact ⟨rfl, rfl⟩
  · cases accepted with
    | true => exact .inl rfl
    | false => exact .inr rfl

end Sane

end NodeCompat.Net.LiveSocket
