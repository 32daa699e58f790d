import NodeCompat.Net.LiveSteps
import NodeCompat.Stream.TextDelivery

/-!
# The callbacks of a socket's writes

A write's callback waits in `pendingWriteCallbacks_`, in a flush that is under way or in a microtask; called or waiting, the
callbacks are in the order of the writes (`Ledger.order`). A flush calls them all, whatever of their data the kernel has taken,
and `destroy` flushes none. So that each is told the truth, and told it before `'close'`, is so in runs that are `Fair`: a
flush without an error finds only writes that were taken, and nothing ends the socket over callbacks that wait (`tells`).
-/

namespace NodeCompat.Net.LiveSocket

open List Option
open NodeCompat.Stream (BufferEncoding)

variable {toString : BufferEncoding → Bytes → List UInt16} {accepted : Bool} {s s' : LiveSocket}

/-! ## Callbacks -/

/-- The writes whose callbacks were called. -/
def called (es : List Event) : List WriteCallback := es.filterMap fun
    | .callback w _ => some w
    | _ => none

/-- Those that the flushes under way have still to call. -/
def waiting (stack : List Frame) : List WriteCallback := stack.flatMap fun
    | .flushing rest _ => rest
    | _ => []

/-- Those that were refused and wait for their microtask. -/
def refused (tasks : List SocketTask) : List WriteCallback := tasks.filterMap fun
    | .refuse w => some w
    | _ => none

/-- Events that flush. -/
def flushes : ClientEvent → Bool
  | .drain | .error | .finish => true
  | _ => false

/-- A flush is to come, or can come. -/
def Flushable (c : ClientConnection) : Prop := (∃ e ∈ c.events, flushes e = true) ∨ c.closing = false ∧ c.finishEmitted = false

/-! ## The condition -/

/-- No callback waits, or the loop of `dispatchNativeEvents` is under way and has a flush before it. -/
def Destroyable (s : LiveSocket) (stack : List Frame) : Prop :=
  s.destroyed = false → s.pendingWriteCallbacks = [] ∨ .dispatching ∈ stack ∧ s.alive = true ∧ ∃ e ∈ s.native.events, flushes e = true

/-- A write with a callback comes before `'close'` is under way; with data it finds a connection that still flushes, and without
data it finds no flush under way, and the kernel takes what the others wait for. -/
def Answered (c : Config) (data : Bytes) (sends : List SendResult) : Prop :=
  (c.state.destroyed = true → c.state.closeEmitted = false ∧ .emitClose ∉ c.state.microtasks) ∧
    (c.state.destroyed = false → c.state.attached = true → data ≠ [] → Flushable c.state.native) ∧
    (c.state.destroyed = false → c.state.attached = true → data = [] → waiting c.stack = [] ∧
      ∀ n ∈ (if c.state.alive then c.state.native.write data sends else some c.state.native),
        ∀ w ∈ c.state.pendingWriteCallbacks, w.accepted n.sent = true)

/-- A flush without an error finds what the kernel has taken; the connection's `close` finds no refused write that waits. -/
def Frame.fair (c : Config) : Frame → Prop
  | .dispatching => c.state.alive = true →
      (c.state.native.events.head? = some .drain ∨ c.state.native.events.head? = some .finish →
        ∀ w ∈ c.state.pendingWriteCallbacks, w.accepted c.state.native.sent = true) ∧
      (c.state.native.events.head? = some .close → refused c.state.microtasks = [])
  | .finished => c.state.destroyAfterFinish = true → Destroyable c.state c.stack
  | _ => True

def Fair (c : Config) : Move Call → Prop
  | .call (.write data true sends) => Answered c data sends
  | .call (.destroy _) | .call .lose => Destroyable c.state c.stack
  | .call _ => True
  | .ret => ∀ f ∈ c.stack.head?, f.fair c

/-! ## What holds in every state -/

/-- Where the callbacks are. -/
structure Booked (c : Config) : Prop where
  order : called c.trace ++ (waiting c.stack ++ (c.state.pendingWriteCallbacks ++ refused c.state.microtasks)) = c.state.callbacks
  ids : c.state.callbacks.map WriteCallback.id = List.range c.state.callbacks.length
  truth : ∀ w, .callback w false ∈ c.trace → w.accepted c.state.native.sent = true
  flushing : ∀ rest, .flushing rest false ∈ c.stack → ∀ w ∈ rest, w.accepted c.state.native.sent = true
  refuses : refused c.state.microtasks ≠ [] → c.state.destroyed = true
  closes : .emitClose ∈ c.state.microtasks → c.state.destroyed = true
  behind : ∀ pre post, c.state.microtasks = pre ++ .emitClose :: post → refused post = []
  closed : c.state.closeEmitted = true → c.state.destroyed = true ∧ waiting c.stack = [] ∧ c.state.pendingWriteCallbacks = [] ∧
    refused c.state.microtasks = []
  told : .close ∈ c.trace → c.state.closeEmitted = true

/-- Those that wait are still to be flushed. -/
structure Ledger (c : Config) : Prop extends Booked c where
  flushable : c.state.attached = true → c.state.pendingWriteCallbacks ≠ [] → Flushable c.state.native
  doomed : c.state.destroyed = true → c.state.pendingWriteCallbacks ≠ [] →
    .dispatching ∈ c.stack ∧ c.state.alive = true ∧ ∃ e ∈ c.state.native.events, flushes e = true

/-! ## What the connection does meanwhile -/

theorem accepted_mono {w : WriteCallback} {sent sent' : Bytes} (hp : sent <+: sent') (h : w.accepted sent = true) :
    w.accepted sent' = true := by
  unfold WriteCallback.accepted at h ⊢
  rw [List.isPrefixOf_iff_prefix] at h ⊢
  obtain ⟨rest, rfl⟩ := hp; rw [drop_append]; exact IsPrefix.trans h (prefix_append _ _)

/-- The kernel keeps what it has taken, and what flushes stays. -/
structure Carries (c d : ClientConnection) : Prop where
  sent : c.sent <+: d.sent
  flushes : (∃ e ∈ c.events, flushes e = true) → ∃ e ∈ d.events, flushes e = true
  flushable : Flushable c → Flushable d

open LiveSocket

namespace Carries

variable {c d e : ClientConnection}

theorem refl (c : ClientConnection) : Carries c c := ⟨prefix_refl _, id, id⟩

theorem trans (h : Carries c d) (h' : Carries d e) : Carries c e :=
  ⟨IsPrefix.trans h.sent h'.sent, fun hf => h'.flushes (h.flushes hf), fun hf => h'.flushable (h.flushable hf)⟩

theorem same (hs : d.sent = c.sent) (he : d.events = c.events) (hc : d.closing = c.closing) (hf : d.finishEmitted = c.finishEmitted) :
    Carries c d := by
  refine ⟨by rw [hs], by rw [he]; exact id, ?_⟩
  unfold Flushable; rw [he, hc, hf]; exact id

theorem of_works (h : Works c d) : Carries c d := by
  have hkeep : (∃ e ∈ c.events, LiveSocket.flushes e = true) → ∃ e ∈ d.events, LiveSocket.flushes e = true :=
    fun ⟨e, he, hf⟩ => ⟨e, h.events.subset he, hf⟩
  refine ⟨h.sent, hkeep, ?_⟩
  rintro (hf | ⟨hc, hf⟩)
  · exact .inl (hkeep hf)
  have hfinish : d.finishEmitted = true → ∃ e ∈ d.events, LiveSocket.flushes e = true := fun hd => by
    obtain hold | hm := h.finished hd
    · exact absurd (hf.symm.trans hold) (by decide)
    · exact ⟨.finish, hm, rfl⟩
  cases hdc : d.closing with
  | true =>
    obtain hold | hm | hd := h.closing hdc
    · exact absurd (hc.symm.trans hold) (by decide)
    · exact .inl ⟨.error, hm, rfl⟩
    · exact .inl (hfinish hd)
  | false =>
    cases hdf : d.finishEmitted with
    | true => exact .inl (hfinish hdf)
    | false => exact .inr ⟨hdc, hdf⟩

theorem nextEvent {e : ClientEvent} {es : List ClientEvent} (he : c.events = e :: es) (hf : LiveSocket.flushes e = false) :
    Carries c c.nextEvent := by
  have hnext : c.nextEvent = { c with events := es, taken := c.taken ++ [e] } := by
    unfold ClientConnection.nextEvent; rw [he]
  have hkeep : (∃ e ∈ c.events, LiveSocket.flushes e = true) → ∃ e ∈ es, LiveSocket.flushes e = true := by
    rintro ⟨x, hx, hxf⟩
    rw [he] at hx
    obtain rfl | hx := mem_cons.1 hx
    · exact absurd (hf.symm.trans hxf) (by decide)
    · exact ⟨x, hx, hxf⟩
  rw [hnext]; exact ⟨prefix_refl _, hkeep, Or.imp hkeep id⟩

end Carries

/-! ## Steps that no callback sees -/

/-- Neither a callback nor `'close'`. -/
def Event.silent : Event → Bool
  | .callback _ _ | .close => false
  | _ => true

/-- Frames that hold no callback. -/
def Frame.silent : Frame → Bool
  | .flushing _ _ => false
  | _ => true

theorem waiting_append (gs fs : List Frame) : waiting (gs ++ fs) = waiting gs ++ waiting fs := flatMap_append

theorem waiting_silent {gs : List Frame} (h : ∀ f ∈ gs, f.silent = true) : waiting gs = [] := by
  refine flatMap_eq_nil_iff.2 (fun f hf => ?_)
  have hs := h f hf
  cases f with
  | flushing => cases hs
  | _ => rfl

theorem rest_nil {stack : List Frame} (h : waiting stack = []) {rest : List WriteCallback} {failed : Bool}
    (hm : .flushing rest failed ∈ stack) : rest = [] :=
  flatMap_eq_nil_iff.1 h _ hm

theorem called_append (es es' : List Event) : called (es ++ es') = called es ++ called es' := filterMap_append

theorem called_silent {es : List Event} (h : ∀ e ∈ es, e.silent = true) : called es = [] := by
  refine filterMap_eq_nil_iff.2 (fun e he => ?_)
  have hs := h e he
  cases e with
  | callback => cases hs
  | _ => rfl

theorem refused_append (ms ms' : List SocketTask) : refused (ms ++ ms') = refused ms ++ refused ms' := filterMap_append

theorem refused_emitFinish (n : Nat) : refused (List.replicate n .emitFinish) = [] := by
  refine filterMap_eq_nil_iff.2 (fun m hm => ?_)
  rw [eq_of_mem_replicate hm]

/-- The callbacks are where they were. -/
structure SameBooks (s s' : LiveSocket) : Prop where
  callbacks : s'.callbacks = s.callbacks
  pending : s'.pendingWriteCallbacks = s.pendingWriteCallbacks
  microtasks : ∃ n, s'.microtasks = s.microtasks ++ List.replicate n .emitFinish
  closeEmitted : s'.closeEmitted = s.closeEmitted
  destroyed : s'.destroyed = s.destroyed
  sent : s.native.sent <+: s'.native.sent

/-- And the connection flushes as before. -/
structure SameLedger (s s' : LiveSocket) : Prop extends SameBooks s s' where
  attached : s'.attached = s.attached
  alive : s'.alive = s.alive
  native : Carries s.native s'.native

theorem SameBooks.fields (hc : s'.callbacks = s.callbacks) (hp : s'.pendingWriteCallbacks = s.pendingWriteCallbacks)
    (hm : s'.microtasks = s.microtasks) (hl : s'.closeEmitted = s.closeEmitted) (hd : s'.destroyed = s.destroyed)
    (hs : s.native.sent <+: s'.native.sent) : SameBooks s s' :=
  ⟨hc, hp, ⟨0, hm.trans (append_nil _).symm⟩, hl, hd, hs⟩

open Carries

open SameBooks

namespace SameLedger

variable {s'' : LiveSocket}

theorem trans (h : SameLedger s s') (h' : SameLedger s' s'') : SameLedger s s'' where
  callbacks := h'.callbacks.trans h.callbacks
  pending := h'.pending.trans h.pending
  microtasks := by
    obtain ⟨n, hn⟩ := h.microtasks
    obtain ⟨n', hn'⟩ := h'.microtasks
    exact ⟨n + n', by rw [hn', hn, append_assoc, replicate_append_replicate]⟩
  closeEmitted := h'.closeEmitted.trans h.closeEmitted
  destroyed := h'.destroyed.trans h.destroyed
  sent := IsPrefix.trans h.sent h'.sent
  attached := h'.attached.trans h.attached
  alive := h'.alive.trans h.alive
  native := h.native.trans h'.native

theorem fields (hc : s'.callbacks = s.callbacks) (hp : s'.pendingWriteCallbacks = s.pendingWriteCallbacks)
    (hm : s'.microtasks = s.microtasks) (hl : s'.closeEmitted = s.closeEmitted) (hd : s'.destroyed = s.destroyed)
    (ha : s'.attached = s.attached) (hv : s'.alive = s.alive) (hn : Carries s.native s'.native) : SameLedger s s' :=
  ⟨SameBooks.fields hc hp hm hl hd hn.sent, ha, hv, hn⟩

theorem native_only {n : ClientConnection} (hn : Carries s.native n) : SameLedger s { s with native := n } :=
  fields rfl rfl rfl rfl rfl rfl rfl hn

theorem refl (s : LiveSocket) : SameLedger s s := native_only (Carries.refl _)

theorem onNative {f : ClientConnection → ClientConnection} (hf : Carries s.native (f s.native)) : SameLedger s (s.onNative f) := by
  unfold LiveSocket.onNative
  split
  · exact native_only hf
  · exact refl s

theorem endWrites (hn : s.native.notify = true) (callback : Bool) : SameLedger s (s.endWrites callback) := by
  obtain ⟨t, hcount, hnt, ht⟩ : ∃ t, SameLedger s t ∧ t.native.notify = true ∧
      (if callback then { s with pendingFinishCallbacks := s.pendingFinishCallbacks + 1 } else s) = t := by
    refine ⟨_, ?_, ?_, rfl⟩ <;> split
    · exact fields rfl rfl rfl rfl rfl rfl rfl (Carries.refl _)
    · exact refl s
    · exact hn
    · exact hn
  unfold LiveSocket.endWrites
  dsimp only
  rw [ht]
  refine hcount.trans ?_
  split
  · exact fields rfl rfl rfl rfl rfl rfl rfl (Carries.refl _)
  · split
    · exact ⟨⟨rfl, rfl, ⟨1, rfl⟩, rfl, rfl, prefix_refl _⟩, rfl, rfl, Carries.refl _⟩
    · have hend : SameLedger t (t.onNative ClientConnection.endWrites) := onNative (Carries.of_works (Works.endWrites hnt))
      exact hend.trans (fields rfl rfl rfl rfl rfl rfl rfl (Carries.refl _))

theorem destroySoon (hn : s.native.notify = true) : SameLedger s s.destroySoon := by
  unfold LiveSocket.destroySoon
  split
  · exact refl s
  · have hafter : SameLedger s { s with destroyAfterFinish := true } := fields rfl rfl rfl rfl rfl rfl rfl (Carries.refl _)
    exact hafter.trans (endWrites (s := { s with destroyAfterFinish := true }) hn false)

theorem leave : SameLedger s s.leave := by
  unfold LiveSocket.leave
  split
  · refine native_only ?_
    unfold ClientConnection.notified
    dsimp only
    split <;> exact same rfl rfl rfl rfl
  · exact refl s

theorem setPaused (paused : Bool) : SameLedger s { s.onNative (fun c => { c with paused }) with paused } := by
  have hset : SameLedger s (s.onNative (fun c => { c with paused })) := onNative (Carries.same rfl rfl rfl rfl)
  exact hset.trans (fields rfl rfl rfl rfl rfl rfl rfl (Carries.refl _))

end SameLedger

theorem Booked.same {stack stack' : List Frame} {trace seen : List Event} (h : Booked ⟨s, stack, trace⟩) (hs : SameBooks s s')
    (hw : waiting stack' = waiting stack) (hf : ∀ rest, .flushing rest false ∈ stack' → .flushing rest false ∈ stack)
    (hseen : ∀ e ∈ seen, e.silent = true) : Booked ⟨s', stack', trace ++ seen⟩ := by
  obtain ⟨n, hms⟩ := hs.microtasks
  have hrefused : refused s'.microtasks = refused s.microtasks := by
    rw [hms, refused_append, refused_emitFinish, append_nil]
  have hnew : ∀ e : Event, e.silent = false → e ∈ trace ++ seen → e ∈ trace := by
    intro e he hm
    refine (mem_append.1 hm).resolve_right (fun hm => ?_)
    exact absurd (he.symm.trans (hseen e hm)) (by decide)
  have hclose : SocketTask.emitClose ∉ List.replicate n SocketTask.emitFinish := fun hm => by
    cases eq_of_mem_replicate hm
  refine ⟨?_, ?_, fun w hm => accepted_mono hs.sent (h.truth w (hnew _ rfl hm)), ?_, ?_, ?_, ?_, ?_, ?_⟩
  · rw [called_append, called_silent hseen, append_nil, hw, hs.pending, hrefused, hs.callbacks]; exact h.order
  · rw [hs.callbacks]; exact h.ids
  · exact fun rest hm w hr => accepted_mono hs.sent (h.flushing rest (hf rest hm) w hr)
  · exact fun hne => hs.destroyed.trans (h.refuses (fun hnil => hne (hrefused.trans hnil)))
  · intro hm
    have hm' : SocketTask.emitClose ∈ s.microtasks ++ List.replicate n .emitFinish := hms ▸ hm
    exact hs.destroyed.trans (h.closes ((mem_append.1 hm').resolve_right hclose))
  · intro pre post heq
    obtain ⟨t, -, hpost⟩ | ⟨t, hpre, hrep⟩ := append_eq_append_iff.1 (hms.symm.trans heq)
    · exact absurd (hpost ▸ mem_append_right _ mem_cons_self) hclose
    · cases t with
      | nil => rw [nil_append] at hrep; exact absurd (hrep ▸ mem_cons_self) hclose
      | cons m t =>
        obtain ⟨rfl, hpost⟩ := List.cons.inj hrep
        rw [hpost]
        show refused (t ++ List.replicate n .emitFinish) = []
        rw [refused_append, refused_emitFinish, append_nil]; exact h.behind pre t hpre
  · intro hc
    obtain ⟨hdes, hwait, hpend, href⟩ := h.closed (hs.closeEmitted.symm.trans hc)
    exact ⟨hs.destroyed.trans hdes, hw.trans hwait, hs.pending.trans hpend, hrefused.trans href⟩
  · exact fun hm => hs.closeEmitted.trans (h.told (hnew _ rfl hm))

theorem ids_snoc {stack : List Frame} {trace : List Event} (h : Booked ⟨s, stack, trace⟩) (data : Bytes) :
    (s.callbacks ++ [s.writeCallback data]).map WriteCallback.id = List.range (s.callbacks ++ [s.writeCallback data]).length := by
  rw [map_append, show s.callbacks.map WriteCallback.id = _ from h.ids, length_append, length_singleton, range_succ]
  rfl

open SameLedger

open Frame

namespace Ledger

variable {stack stack' fs : List Frame} {trace seen : List Event} {f : Frame}

theorem same (h : Ledger ⟨s, stack, trace⟩) (hs : SameLedger s s') (hw : waiting stack' = waiting stack)
    (hf : ∀ rest, .flushing rest false ∈ stack' → .flushing rest false ∈ stack)
    (hd : s.destroyed = true → s.pendingWriteCallbacks ≠ [] → .dispatching ∈ stack → .dispatching ∈ stack')
    (hseen : ∀ e ∈ seen, e.silent = true) : Ledger ⟨s', stack', trace ++ seen⟩ where
  toBooked := h.toBooked.same hs.toSameBooks hw hf hseen
  flushable ha hne := by
    refine hs.native.flushable (h.flushable (hs.attached.symm.trans ha) ?_)
    exact fun hnil => hne (hs.pending.trans hnil)
  doomed hdes hne := by
    have hdes' : s.destroyed = true := hs.destroyed.symm.trans hdes
    have hne' : s.pendingWriteCallbacks ≠ [] := fun hnil => hne (hs.pending.trans hnil)
    obtain ⟨hm, hl, hfl⟩ := h.doomed hdes' hne'
    exact ⟨hd hdes' hne' hm, hs.alive.trans hl, hs.native.flushes hfl⟩

theorem push (h : Ledger ⟨s, stack, trace⟩) {b : Step} (hs : SameLedger s b.state) (hg : ∀ f ∈ b.frames, f.silent = true)
    (hseen : ∀ e ∈ b.seen, e.silent = true) : Ledger (b.onto stack trace) := by
  refine h.same hs ?_ (fun rest hm => ?_) (fun _ _ => mem_append_right _) hseen
  · rw [waiting_append, waiting_silent hg, nil_append]
  · exact (mem_append.1 hm).resolve_left (fun hm => by cases hg _ hm)

theorem next (h : Ledger ⟨s, f :: fs, trace⟩) {b : Step} (hs : SameLedger s b.state) (hf : f.silent = true) (hd : f ≠ .dispatching)
    (hg : ∀ f ∈ b.frames, f.silent = true) (hseen : ∀ e ∈ b.seen, e.silent = true) : Ledger (b.onto fs trace) := by
  refine h.same hs ?_ (fun rest hm => ?_) (fun _ _ hm => ?_) hseen
  · show waiting (b.frames ++ fs) = waiting ([f] ++ fs)
    rw [waiting_append, waiting_append, waiting_silent hg, waiting_silent (forall_mem_singleton.2 hf)]
  · exact mem_cons_of_mem _ ((mem_append.1 hm).resolve_left (fun hm => by cases hg _ hm))
  · exact mem_append_right _ ((mem_cons.1 hm).resolve_left (fun heq => hd heq.symm))

/-! ### Flushing -/

theorem flush (h : Booked ⟨s, stack, trace⟩) (hw : waiting stack = []) (hw' : waiting stack' = []) {failed : Bool}
    (hok : failed = false → ∀ w ∈ s.pendingWriteCallbacks, w.accepted s.native.sent = true) {frames : List Frame}
    (hg : ∀ f ∈ frames, f.silent = true) : Ledger ((s.flushWriteCallbacks failed frames).onto stack' trace) := by
  have hframes : waiting (frames ++ stack') = [] := by rw [waiting_append, waiting_silent hg, hw', nil_append]
  have hquiet : ∀ rest, .flushing rest false ∈ frames ++ stack' → rest = [] := fun rest hm => rest_nil hframes hm
  have horder : called trace ++ (s.pendingWriteCallbacks ++ refused s.microtasks) = s.callbacks := by
    have ho := h.order
    rwa [show waiting (Config.stack ⟨s, stack, trace⟩) = [] from hw, nil_append] at ho
  unfold flushWriteCallbacks
  split
  · next hp =>
    have hsame : Booked ⟨s, frames ++ stack', trace ++ []⟩ := by
      rw [append_nil]
      refine ⟨?_, h.ids, h.truth, fun rest hm x hx => ?_, h.refuses, h.closes, h.behind, fun hc => ?_, h.told⟩
      · rw [hframes]; exact horder
      · rw [hquiet rest hm] at hx; cases hx
      · obtain ⟨hd, -, hrest⟩ := h.closed hc; exact ⟨hd, hframes, hrest⟩
    exact ⟨hsame, fun _ hne => absurd hp hne, fun _ hne => absurd hp hne⟩
  · next w rest hp =>
    have hbooked : Booked ⟨{ s with pendingWriteCallbacks := [] }, .flushing rest failed :: frames ++ stack',
        trace ++ [.callback w failed]⟩ := by
      refine ⟨?_, h.ids, fun x hm => ?_, fun xs hm x hx => ?_, h.refuses, h.closes, h.behind, fun hc => ?_, fun hm => ?_⟩
      · show called (trace ++ [.callback w failed]) ++ ((rest ++ waiting (frames ++ stack')) ++ ([] ++ refused s.microtasks)) =
          s.callbacks
        rw [called_append, hframes, append_nil, nil_append, ← horder, hp, append_assoc]; rfl
      · obtain hm | hm := mem_append.1 hm
        · exact h.truth x hm
        · cases mem_singleton.1 hm; exact hok rfl w (by rw [hp]; exact mem_cons_self)
      · obtain heq | hm := mem_cons.1 hm
        · cases heq; exact hok rfl x (by rw [hp]; exact mem_cons_of_mem _ hx)
        · rw [hquiet xs hm] at hx; cases hx
      · have hnil := (h.closed hc).2.2.1
        rw [show (Config.state ⟨s, stack, trace⟩).pendingWriteCallbacks = s.pendingWriteCallbacks from rfl, hp] at hnil
        cases hnil
      · exact h.told ((mem_append.1 hm).resolve_right (by simp))
    exact ⟨hbooked, fun _ hne => absurd rfl hne, fun _ hne => absurd rfl hne⟩

theorem flushing_next {w : WriteCallback} {rest : List WriteCallback} {failed : Bool}
    (h : Ledger ⟨s, .flushing (w :: rest) failed :: fs, trace⟩) :
    Ledger ⟨s, .flushing rest failed :: fs, trace ++ [.callback w failed]⟩ := by
  have horder : called trace ++ ((w :: rest ++ waiting fs) ++ (s.pendingWriteCallbacks ++ refused s.microtasks)) = s.callbacks := h.order
  refine ⟨⟨?_, h.ids, fun x hm => ?_, fun xs hm x hx => ?_, h.refuses, h.closes, h.behind, fun hc => ?_, fun hm => ?_⟩, h.flushable,
    fun hdes hne => ?_⟩
  · rw [called_append, ← horder, append_assoc]; rfl
  · obtain hm | hm := mem_append.1 hm
    · exact h.truth x hm
    · cases mem_singleton.1 hm; exact h.flushing (w :: rest) mem_cons_self w mem_cons_self
  · obtain heq | hm := mem_cons.1 hm
    · cases heq; exact h.flushing (w :: rest) mem_cons_self x (mem_cons_of_mem _ hx)
    · exact h.flushing xs (mem_cons_of_mem _ hm) x hx
  · obtain ⟨-, hwait, -⟩ := h.closed hc
    cases (show w :: rest ++ waiting fs = [] from hwait)
  · exact h.told ((mem_append.1 hm).resolve_right (by simp))
  · obtain ⟨hm, hrest⟩ := h.doomed hdes hne; exact ⟨mem_cons_of_mem _ ((mem_cons.1 hm).resolve_left nofun), hrest⟩

/-! ### Destroying -/

theorem destroyRest (h : Ledger ⟨s, .destroying :: fs, trace⟩) (hdes : s.destroyed = true) : Ledger ⟨s.destroyRest, fs, trace⟩ := by
  obtain ⟨t, ht, hsame, htasks⟩ : ∃ t, s.onNative ClientConnection.destroy = t ∧ t.microtasks = s.microtasks ∧
      SameBooks s t ∧ t.native.events = s.native.events ∧ t.alive = s.alive := by
    refine ⟨_, rfl, ?_⟩
    unfold LiveSocket.onNative ClientConnection.destroy
    split
    · split <;> exact ⟨rfl, fields rfl rfl rfl rfl rfl (prefix_refl _), rfl, rfl⟩
    · exact ⟨rfl, fields rfl rfl rfl rfl rfl (prefix_refl _), rfl, rfl⟩
  obtain ⟨hbooks, hevents, halive⟩ := htasks
  have hbooked : Booked ⟨t, fs, trace ++ []⟩ := h.toBooked.same hbooks rfl (fun rest hm => mem_cons_of_mem _ hm) nofun
  rw [append_nil] at hbooked
  have hdoomed : t.pendingWriteCallbacks ≠ [] → .dispatching ∈ fs ∧ t.alive = true ∧ ∃ e ∈ t.native.events, flushes e = true := by
    intro hne
    obtain ⟨hm, hl, hfl⟩ := h.doomed hdes (fun hnil => hne (hbooks.pending.trans hnil))
    exact ⟨(mem_cons.1 hm).resolve_left nofun, halive.trans hl, by rw [hevents]; exact hfl⟩
  unfold LiveSocket.destroyRest
  rw [ht]
  have hrefused : refused (s.microtasks ++ [.emitClose]) = refused t.microtasks := by
    rw [refused_append, hsame]; exact append_nil _
  refine ⟨⟨?_, hbooked.ids, hbooked.truth, hbooked.flushing, fun _ => ?_, fun _ => ?_, fun pre post heq => ?_, fun hc => ?_, hbooked.told⟩,
    fun _ hne => .inl (hdoomed hne).2.2, fun _ hne => hdoomed hne⟩
  · rw [hrefused]; exact hbooked.order
  · exact hbooks.destroyed.trans hdes
  · exact hbooks.destroyed.trans hdes
  · obtain ⟨a, rfl, hpost⟩ | ⟨a, hpre, hrep⟩ := append_eq_append_iff.1
      (show s.microtasks ++ [.emitClose] = pre ++ .emitClose :: post from heq)
    · cases a with
      | nil => cases hpost; rfl
      | cons m a => obtain ⟨-, hnil⟩ := List.cons.inj hpost; simp at hnil
    · cases a with
      | nil => cases hrep; rfl
      | cons m a =>
        obtain ⟨rfl, rfl⟩ := List.cons.inj hrep
        show refused (a ++ [.emitClose]) = []; rw [refused_append, h.behind pre a hpre]; rfl
  · obtain ⟨hd, hwait, hpend, href⟩ := hbooked.closed hc; exact ⟨hd, hwait, hpend, hrefused.trans href⟩

theorem destroy (h : Ledger ⟨s, stack, trace⟩) (ho : Destroyable s stack) (error : Bool) :
    Ledger ((s.destroy error).onto stack trace) := by
  unfold LiveSocket.destroy
  split
  · exact h.push (refl s) nofun (by simp [Event.silent])
  next hdes =>
  simp only [Bool.not_eq_true] at hdes
  have hsilent : ∀ {seen : List Event}, (∀ e ∈ seen, e.silent = true) → Ledger ⟨s.abandon, .destroying :: stack, trace ++ seen⟩ := by
    intro seen hseen
    have hbooked : Booked ⟨s, .destroying :: stack, trace ++ seen⟩ :=
      h.toBooked.same (fields rfl rfl rfl rfl rfl (prefix_refl _)) rfl
        (fun rest hm => (mem_cons.1 hm).resolve_left nofun) hseen
    refine ⟨⟨hbooked.order, hbooked.ids, hbooked.truth, hbooked.flushing, fun _ => rfl, fun _ => rfl, hbooked.behind,
      fun hc => ⟨rfl, (hbooked.closed hc).2⟩, hbooked.told⟩, h.flushable, fun _ hne => ?_⟩
    obtain hnil | ⟨hm, hl, hfl⟩ := ho hdes
    · exact absurd hnil hne
    · exact ⟨mem_cons_of_mem _ hm, hl, hfl⟩
  split
  · exact hsilent (by simp [Event.silent])
  · have habandon : Ledger ⟨s.abandon, .destroying :: stack, trace ++ [.destroyCalled]⟩ := hsilent (by simp [Event.silent])
    exact habandon.destroyRest rfl

theorem close_last (h : Booked ⟨s, stack, trace⟩) (hw : waiting stack = []) (hp : s.pendingWriteCallbacks = []) (hr : refused s.microtasks = [])
    (hw' : waiting stack' = []) (hc : s'.callbacks = s.callbacks) (hp' : s'.pendingWriteCallbacks = [])
    (hr' : refused s'.microtasks = []) (hd : s'.destroyed = true) (hl : s'.closeEmitted = true)
    (hs : s.native.sent <+: s'.native.sent) (hseen : ∀ e ∈ seen, e = .close) : Ledger ⟨s', stack', trace ++ seen⟩ := by
  have hcalled : called seen = [] := filterMap_eq_nil_iff.2 (fun e he => by rw [hseen e he])
  refine ⟨⟨?_, ?_, fun w hm => accepted_mono hs (h.truth w ?_), fun rest hm x hx => ?_, fun _ => hd, fun _ => hd, ?_,
    fun _ => ⟨hd, hw', hp', hr'⟩, fun _ => hl⟩, fun _ hne => absurd hp' hne, fun _ hne => absurd hp' hne⟩
  · have horder := h.order
    rw [called_append, hcalled, hw', hp', hr', hc, ← show called trace ++ (waiting stack ++ (s.pendingWriteCallbacks ++
      refused s.microtasks)) = s.callbacks from h.order, hw, hp, hr, append_nil]
  · rw [hc]; exact h.ids
  · refine (mem_append.1 hm).resolve_right (fun hm => ?_)
    cases hseen _ hm
  · rw [rest_nil hw' hm] at hx; cases hx
  · intro pre post heq
    have hall : refused (pre ++ .emitClose :: post) = [] := heq ▸ hr'
    rw [refused_append] at hall; exact (append_eq_nil_iff.1 hall).2

/-! ### Dispatching -/

/-- When the connection's `close` is dispatched, nothing waits for it: a connection that closes has told why, and that flushes. -/
theorem close (hS : SaneState accepted s) (h : Ledger ⟨s, [.dispatching], trace⟩) (ha : s.attached = true) {es : List ClientEvent}
    (he : s.native.events = .close :: es) : s.pendingWriteCallbacks = [] := by
  by_contra hne
  have hnext : s.native.nextEvent = { s.native with events := es, taken := s.native.taken ++ [.close] } := by
    unfold ClientConnection.nextEvent; rw [he]
  have hnil : es = [] := by
    obtain ⟨⟨p, hp⟩, hacc⟩ := hS.sound
    have hlog := hp.log; rw [hacc.queue, he] at hlog; exact Phase.after_close hlog
  have hclosing : s.native.nextEvent.closing = true := by
    refine Sane.closing_of_close hS.sound.nextEvent ?_
    rw [hnext]; simp
  rw [hnext] at hclosing
  obtain ⟨e, hm, hf⟩ | ⟨hopen, -⟩ := h.flushable ha hne
  · have hm : e ∈ s.native.events := hm
    rw [he, hnil] at hm
    cases mem_singleton.1 hm; cases hf
  · exact absurd (hopen.symm.trans hclosing) (by decide)

theorem dispatch (hS : SaneState accepted s) (h : Ledger ⟨s, [.dispatching], trace⟩) (ha : s.attached = true)
    (ho : Frame.fair ⟨s, [.dispatching], trace⟩ .dispatching) : Ledger ((s.dispatch toString).onto [] trace) := by
  have hleave : (s.alive = false ∨ s.native.events = []) → Ledger ⟨s.leave, [], trace ++ []⟩ := by
    intro hidle
    refine h.same SameLedger.leave rfl (by simp) (fun hdes hne _ => ?_) (by simp)
    obtain ⟨-, hl, e, hm, -⟩ := h.doomed hdes hne
    obtain hidle | hidle := hidle
    · exact absurd (hidle.symm.trans hl) (by decide)
    · have hm : e ∈ s.native.events := hm; rw [hidle] at hm; cases hm
  unfold LiveSocket.dispatch
  split
  · next hl => exact hleave (.inl (by simpa using hl))
  next hl =>
  have hl : s.alive = true := by simpa using hl
  split
  · next he => exact hleave (.inr he)
  next e es he =>
  have hsent : s.native.nextEvent.sent = s.native.sent := by unfold ClientConnection.nextEvent; rw [he]
  have hplain : ∀ {s' : LiveSocket} {gs : List Frame} {seen : List Event}, SameLedger s s' → (∀ f ∈ gs, f.silent = true) →
      .dispatching ∈ gs → (∀ e ∈ seen, e.silent = true) → Ledger ⟨s', gs ++ [], trace ++ seen⟩ := by
    intro s' gs seen hs hg hm hseen
    refine h.same hs ?_ (fun rest hr => ?_) (fun _ _ _ => mem_append_left _ hm) hseen
    · rw [append_nil, waiting_silent hg]; rfl
    · rw [append_nil] at hr
      cases hg _ hr
  have hflush : ∀ {s' : LiveSocket} {failed : Bool} {gs : List Frame}, SameBooks s s' → s'.pendingWriteCallbacks = s.pendingWriteCallbacks →
      s'.native = s.native.nextEvent →
      (failed = false → e = .drain ∨ e = .finish) → (∀ f ∈ gs, f.silent = true) →
      Ledger ((s'.flushWriteCallbacks failed gs).onto [] trace) := by
    intro s' failed gs hs hp hn hok hg
    have hbooked : Booked ⟨s', [], trace ++ []⟩ := h.toBooked.same hs rfl (by simp) (by simp)
    rw [append_nil] at hbooked
    refine flush hbooked rfl rfl (fun hfailed => ?_) hg
    rw [hp, hn, hsent]
    refine (ho hl).1 ?_
    obtain rfl | rfl := hok hfailed
    · exact .inl (by rw [he]; rfl)
    · exact .inr (by rw [he]; rfl)
  have hbooks : SameBooks s { s with native := s.native.nextEvent } := fields rfl rfl rfl rfl rfl (by rw [hsent])
  cases e with
  | connect =>
    simp only [LiveSocket.handle]
    exact hplain (SameLedger.fields rfl rfl rfl rfl rfl rfl rfl (Carries.nextEvent he rfl)) (by simp [silent]) (by simp)
      (by simp [Event.silent])
  | data =>
    simp only [LiveSocket.handle, LiveSocket.receive]
    have hread : Carries s.native s.native.nextEvent.readChunk := by
      refine (Carries.nextEvent he rfl).trans ?_
      unfold ClientConnection.readChunk
      split
      · exact Carries.refl _
      · exact Carries.same rfl rfl rfl rfl
    split
    · exact hplain (SameLedger.fields rfl rfl rfl rfl rfl rfl rfl hread) (by simp [silent]) (by simp) (by simp)
    · exact hplain (SameLedger.fields rfl rfl rfl rfl rfl rfl rfl hread) (by simp [silent]) (by simp) (by simp [Event.silent])
  | ended =>
    simp only [LiveSocket.handle]
    have hnext : Carries s.native s.native.nextEvent := Carries.nextEvent he rfl
    split
    · exact hplain (SameLedger.native_only hnext) (by simp [silent]) (by simp) (by simp [Event.silent])
    · exact hplain (SameLedger.fields rfl rfl rfl rfl rfl rfl rfl hnext) (by simp [silent]) (by simp) (by simp [Event.silent])
  | drain => exact hflush hbooks rfl rfl (fun _ => .inl rfl) (by simp [silent])
  | finish => exact hflush hbooks rfl rfl (fun _ => .inr rfl) (by simp [silent])
  | error =>
    exact hflush (fields rfl rfl rfl rfl rfl (by rw [hsent])) rfl rfl (by simp) (by simp [silent])
  | close =>
    have hpend : s.pendingWriteCallbacks = [] := h.close hS ha he
    have href : refused s.microtasks = [] := (ho hl).2 (by rw [he]; rfl)
    have hover : ∀ {s' : LiveSocket} {seen : List Event}, s'.callbacks = s.callbacks → s'.pendingWriteCallbacks = s.pendingWriteCallbacks →
        s'.microtasks = s.microtasks → s'.destroyed = true → s'.closeEmitted = true → s'.native.sent = s.native.sent →
        (∀ e ∈ seen, e = .close) → Ledger ⟨s', [.dispatching], trace ++ seen⟩ := by
      intro s' seen hc hp hm hd hl hn hseen
      exact close_last h.toBooked rfl hpend href rfl hc (hp.trans hpend) (by rw [hm]; exact href) hd hl (by rw [hn]) hseen
    simp only [LiveSocket.handle, LiveSocket.emitClose]
    split
    · next hc => exact hover rfl rfl rfl rfl hc hsent (by simp)
    · exact hover rfl rfl rfl rfl rfl hsent (by simp)

theorem afterConnect (hn : s.native.notify = true) (h : Ledger ⟨s, [.connected], trace⟩) : Ledger ((s.afterConnect).onto [] trace) := by
  obtain ⟨t, hs, ht⟩ : ∃ t, SameLedger s t ∧ (if s.connectingEnd && !s.destroyed then
        { s.onNative ClientConnection.endWrites with connectingEnd := false, readyState := .readOnly }
      else s) = t := by
    refine ⟨_, ?_, rfl⟩
    split
    · have hend : SameLedger s (s.onNative ClientConnection.endWrites) := SameLedger.onNative (of_works (Works.endWrites hn))
      exact hend.trans (SameLedger.fields rfl rfl rfl rfl rfl rfl rfl (refl _))
    · exact SameLedger.refl s
  unfold LiveSocket.afterConnect
  dsimp only
  rw [ht]
  split
  · exact h.same (hs.trans SameLedger.leave) rfl nofun (by simp) nofun
  · exact h.same hs rfl (by simp) (by simp) nofun

theorem win (hS : SaneState accepted s) (h : Ledger ⟨s, [], trace⟩) (hcon : s.connecting = true) (ha : s.attached = false)
    {r : Revents} {a : Answers} {c d : ClientConnection} {unread : Bytes}
    (hp : s.pass (ClientConnection.create true 0 false) r a = some (c, unread)) (hhead : c.events.head? = some .connect)
    {sends : List (List SendResult)}
    (hd : { c.nextEvent.setNotify with paused := s.paused }.writeAll s.connectingWrites sends = some d) :
    Ledger ⟨{ s with unread }.attach d, [.connected], trace ++ [.connect]⟩ := by
  obtain ⟨-, -, hc, -⟩ := Sane.pass_eq hp
  obtain ⟨es, he⟩ : ∃ es, c.events = .connect :: es := head?_eq_some_iff.1 hhead
  have hwc : Works (ClientConnection.create true 0 false) c := Works.onReady hc
  have hnext : Carries c c.nextEvent := Carries.nextEvent he rfl
  have hnotify : c.nextEvent.notify = true := by
    unfold ClientConnection.nextEvent; rw [he]; exact hwc.notify
  have hset : Carries c.nextEvent { c.nextEvent.setNotify with paused := s.paused } :=
    (Carries.of_works (Works.setNotify hnotify)).trans (Carries.same rfl rfl rfl rfl)
  have hnotify' : { c.nextEvent.setNotify with paused := s.paused }.notify = true := (Works.setNotify hnotify).notify.trans hnotify
  have hwrites : Works { c.nextEvent.setNotify with paused := s.paused } d := (writeAll_told hnotify' hd).1
  have hcarries : Carries (ClientConnection.create true 0 false) d :=
    (((Carries.of_works hwc).trans hnext).trans hset).trans (Carries.of_works hwrites)
  have hfresh : s.native.sent = [] := by rw [(hS.fresh ha).2]; rfl
  have hbooked : Booked ⟨{ s with unread }.attach d, [.connected], trace ++ [.connect]⟩ := by
    refine h.toBooked.same (fields rfl rfl rfl rfl rfl ?_) rfl (by simp) (by simp [Event.silent])
    rw [hfresh]; exact nil_prefix
  refine ⟨hbooked, fun _ _ => hcarries.flushable (.inr ⟨rfl, rfl⟩), fun hdes _ => ?_⟩
  exact absurd ((hS.halted hdes).symm.trans hcon) (by decide)

/-! ### Writing -/

theorem refuse (h : Ledger ⟨s, stack, trace⟩) (hdes : s.destroyed = true)
    (ho : s.closeEmitted = false ∧ .emitClose ∉ s.microtasks) (data : Bytes) :
    Ledger ⟨s.refuse true (s.writeCallback data), stack, trace⟩ := by
  have hrefused : refused (s.microtasks ++ [.refuse (s.writeCallback data)]) = refused s.microtasks ++ [s.writeCallback data] :=
    refused_append _ _
  refine ⟨⟨?_, ?_, h.truth, h.flushing, fun _ => hdes, fun _ => hdes, fun pre post heq => ?_, fun hc => ?_, h.told⟩, h.flushable, h.doomed⟩
  · show called trace ++ (waiting stack ++ (s.pendingWriteCallbacks ++ refused (s.microtasks ++ [.refuse (s.writeCallback data)]))) =
      s.callbacks ++ [s.writeCallback data]
    rw [hrefused, ← show called trace ++ (waiting stack ++ (s.pendingWriteCallbacks ++ refused s.microtasks)) = s.callbacks from h.order]
    simp only [append_assoc]
  · exact ids_snoc h.toBooked data
  · refine absurd ?_ ho.2
    have hm : SocketTask.emitClose ∈ s.microtasks ++ [.refuse (s.writeCallback data)] := by
      rw [show s.microtasks ++ [.refuse (s.writeCallback data)] = pre ++ .emitClose :: post from heq]; simp
    exact (mem_append.1 hm).resolve_right (by simp)
  · exact absurd (ho.1.symm.trans hc) (by decide)

theorem await (h : Booked ⟨s, stack, trace⟩) (hdes : s.destroyed = false) (data : Bytes) :
    Booked ⟨s.await true (s.writeCallback data), stack, trace⟩ := by
  have hrefused : refused s.microtasks = [] := by
    by_contra hne
    exact absurd (hdes.symm.trans (h.refuses hne)) (by decide)
  refine ⟨?_, ids_snoc h data, h.truth, h.flushing, h.refuses, h.closes, h.behind, fun hc => ?_, h.told⟩
  · show called trace ++ (waiting stack ++ ((s.pendingWriteCallbacks ++ [s.writeCallback data]) ++ refused s.microtasks)) =
      s.callbacks ++ [s.writeCallback data]
    rw [← show called trace ++ (waiting stack ++ (s.pendingWriteCallbacks ++ refused s.microtasks)) = s.callbacks from h.order, hrefused]
    simp only [append_nil, append_assoc]
  · exact absurd (hdes.symm.trans (h.closed hc).1) (by decide)

theorem write (hS : Sane accepted ⟨s, stack, trace⟩) (h : Ledger ⟨s, stack, trace⟩) {data : Bytes} {callback : Bool}
    {sends : List SendResult} (ho : callback = true → Answered ⟨s, stack, trace⟩ data sends) {b : Step}
    (hb : s.write data callback sends = some b) : Ledger (b.onto stack trace) := by
  unfold LiveSocket.write at hb
  split at hb
  · next hg =>
    cases hb
    cases callback with
    | false => exact h.push (refl s) nofun nofun
    | true =>
      have hdes : s.destroyed = true := by
        obtain hd | hd := Bool.or_eq_true_iff.1 hg
        · exact hd
        · cases hdes : s.destroyed with
          | true => rfl
          | false =>
            simp only [Bool.and_eq_true, Bool.not_eq_true'] at hd
            obtain ha | hc := hS.state.alone hdes
            · exact absurd (hd.1.symm.trans ha) (by decide)
            · exact absurd (hd.2.symm.trans hc) (by decide)
      exact (h.refuse hdes ((ho rfl).1 hdes) data).push (b := { state := s.refuse true (s.writeCallback data) }) (refl _) nofun nofun
  next hg =>
  have hdes : s.destroyed = false := by
    simp only [Bool.or_eq_true, not_or, Bool.not_eq_true] at hg; exact hg.1
  have hkeep : SameLedger s (s.await false (s.writeCallback data)) := refl s
  split at hb
  · next ha =>
    cases hb
    cases callback with
    | false => exact h.push (fields rfl rfl rfl rfl rfl rfl rfl (refl _)) nofun nofun
    | true =>
      have hbooked : Booked ⟨{ s.await true (s.writeCallback data) with connectingWrites := s.connectingWrites ++ [data] }, stack,
          trace ++ []⟩ :=
        (await h.toBooked hdes data).same (fields rfl rfl rfl rfl rfl (prefix_refl _)) rfl (fun _ => id) nofun
      refine ⟨hbooked, fun ha' => ?_, fun hd => absurd (hdes.symm.trans hd) (by decide)⟩
      have hfalse : s.attached = false := by simpa using ha
      exact absurd (hfalse.symm.trans ha') (by decide)
  next ha =>
  have ha : s.attached = true := by simpa using ha
  obtain ⟨c, hc, rfl⟩ := map_eq_some_iff.1 hb
  have hcarries : Carries s.native c := by
    split at hc
    · exact of_works (Works.write hS.state.notify hc)
    · cases hc; exact refl _
  cases callback with
  | false => rw [if_neg (by simp)]; exact h.push (native_only hcarries) nofun nofun
  | true =>
    have hbooked : Booked ⟨{ s.await true (s.writeCallback data) with native := c }, stack, trace ++ []⟩ :=
      (await h.toBooked hdes data).same (fields rfl rfl rfl rfl rfl hcarries.sent) rfl (fun _ => id) nofun
    split
    · next hempty =>
      have hnil : data = [] := by simpa using hempty
      rw [append_nil] at hbooked
      obtain ⟨hwait, hok⟩ := (ho rfl).2.2 hdes ha hnil
      refine flush hbooked hwait hwait (fun _ w hw => ?_) nofun
      obtain hw | hw := mem_append.1 hw
      · exact hok c hc w hw
      · cases mem_singleton.1 hw; rw [hnil]; rfl
    · next hfull =>
      have hne : data ≠ [] := by simpa using hfull
      have hopen : Flushable c := hcarries.flushable ((ho rfl).2.1 hdes ha hne)
      exact ⟨hbooked, fun _ _ => hopen, fun hd => absurd (hdes.symm.trans hd) (by decide)⟩

/-! ### All steps -/

theorem microtask_done (h : Ledger ⟨s, stack, trace⟩) {m : SocketTask} {rest : List SocketTask} (hm : s.microtasks = m :: rest)
    (hr : refused [m] = []) : Ledger ⟨{ s with microtasks := rest }, stack, trace⟩ := by
  have hrefused : refused s.microtasks = refused rest := by
    rw [hm, ← singleton_append, refused_append, hr, nil_append]
  refine ⟨⟨?_, h.ids, h.truth, h.flushing, fun hne => h.refuses (fun hnil => hne (hrefused.symm.trans hnil)), fun hc => h.closes ?_,
    fun pre post heq => h.behind (m :: pre) post ?_, fun hc => ?_, h.told⟩, h.flushable, h.doomed⟩
  · rw [← hrefused]; exact h.order
  · rw [show (Config.state ⟨s, stack, trace⟩).microtasks = _ from hm]; exact mem_cons_of_mem _ hc
  · rw [show (Config.state ⟨s, stack, trace⟩).microtasks = _ from hm, show rest = _ from heq]; rfl
  · obtain ⟨hd, hwait, hpend, href⟩ := h.closed hc; exact ⟨hd, hwait, hpend, hrefused.symm.trans href⟩

theorem pending_nil (h : Ledger ⟨s, [], trace⟩) (hdes : s.destroyed = true) : s.pendingWriteCallbacks = [] := by
  by_contra hne
  exact absurd (h.doomed hdes hne).1 not_mem_nil

theorem microtask (h : Ledger ⟨s, [], trace⟩) {b : Step} (hb : s.call toString .microtask = some b) : Ledger (b.onto [] trace) := by
  simp only [call] at hb
  split at hb
  · cases hb
  · next rest hm =>
    cases hb
    have hdes : s.destroyed = true := h.closes (show .emitClose ∈ s.microtasks by rw [hm]; exact mem_cons_self)
    have hpend : s.pendingWriteCallbacks = [] := h.pending_nil hdes
    have href : refused rest = [] := h.behind [] rest hm
    have htail : Ledger ⟨{ s with microtasks := rest }, [], trace⟩ := h.microtask_done hm rfl
    unfold emitClose
    split
    · exact htail.push (b := { state := { s with microtasks := rest } }) (refl _) (by simp) (by simp)
    · exact close_last htail.toBooked rfl hpend href rfl rfl hpend href hdes rfl (prefix_refl _) (by simp)
  · next rest hm =>
    cases hb
    have htail : Ledger ⟨{ s with microtasks := rest }, [], trace⟩ := h.microtask_done hm rfl
    exact htail.push (b := { s with microtasks := rest }.flushFinishCallbacks [.emitFinish])
      (fields rfl rfl rfl rfl rfl rfl rfl (Carries.refl _)) (by simp [flushFinishCallbacks, silent])
      (by simp [flushFinishCallbacks])
  · next w rest hm =>
    cases hb
    have hrefused : refused s.microtasks = w :: refused rest := by
      rw [hm, ← singleton_append, refused_append]; rfl
    have hdes : s.destroyed = true := h.refuses (show refused s.microtasks ≠ [] by rw [hrefused]; exact cons_ne_nil _ _)
    have hpend : s.pendingWriteCallbacks = [] := h.pending_nil hdes
    have horder : called trace ++ ([] ++ (s.pendingWriteCallbacks ++ refused s.microtasks)) = s.callbacks := h.order
    refine ⟨⟨?_, h.ids, fun x hx => h.truth x ?_, (by simp), fun _ => hdes, fun _ => hdes, fun pre post heq => ?_, fun hc => ?_, fun hx => ?_⟩,
      fun _ hne => absurd hpend hne, fun _ hne => absurd hpend hne⟩
    · show called (trace ++ [.callback w true]) ++ ([] ++ (s.pendingWriteCallbacks ++ refused rest)) = s.callbacks
      rw [called_append, ← horder, hpend, hrefused, append_assoc]; rfl
    · exact (mem_append.1 hx).resolve_right (by simp)
    · refine h.behind (.refuse w :: pre) post ?_
      rw [hm, show rest = _ from heq]; rfl
    · have hnil : refused s.microtasks = [] := (h.closed hc).2.2.2; rw [hrefused] at hnil; cases hnil
    · exact h.told ((mem_append.1 hx).resolve_right (by simp))

theorem call (hS : Sane accepted ⟨s, stack, trace⟩) (h : Ledger ⟨s, stack, trace⟩) {k : Call}
    (ht : (program toString).task k = true → stack = []) (ho : Fair ⟨s, stack, trace⟩ (.call k)) {b : Step}
    (hb : s.call toString k = some b) : Ledger (b.onto stack trace) := by
  have hother : ∀ {s' : LiveSocket} {gs : List Frame} {seen : List Event}, SameLedger s s' → (∀ f ∈ gs, f.silent = true) →
      (∀ e ∈ seen, e.silent = true) → Ledger ⟨s', gs ++ stack, trace ++ seen⟩ := fun {s'} {gs} {seen} hs hg hseen =>
    h.push (b := { state := s', seen, frames := gs }) hs hg hseen
  cases k with
  | ready r a =>
    simp only [LiveSocket.call] at hb
    split at hb
    · obtain ⟨⟨c, unread⟩, hp, rfl⟩ := map_eq_some_iff.1 hb
      obtain ⟨-, -, hc, -⟩ := Sane.pass_eq hp
      have hw : Carries s.native c := Carries.of_works (Works.onReady hc)
      refine hother (SameLedger.fields rfl rfl rfl rfl rfl rfl rfl hw) ?_ (by simp)
      split <;> simp [silent]
    · cases hb
  | notify =>
    simp only [LiveSocket.call] at hb
    split at hb
    · cases hb; exact hother (SameLedger.native_only (Carries.same rfl rfl rfl rfl)) (by simp [silent]) (by simp)
    · cases hb
  | microtask => obtain rfl : stack = [] := ht rfl; exact h.microtask hb
  | win r a sends =>
    obtain rfl : stack = [] := ht rfl
    simp only [LiveSocket.call] at hb
    split at hb
    · next hg =>
      simp only [Bool.and_eq_true, Bool.not_eq_true'] at hg
      obtain ⟨⟨c, unread⟩, hp, hb⟩ := bind_eq_some_iff.1 hb
      split at hb
      · next hhead =>
        obtain ⟨d, hd, rfl⟩ := Sane.winAttempt_eq hb; exact h.win hS.state hg.1 hg.2 hp hhead hd
      · cases hb
    · cases hb
  | lose =>
    simp only [LiveSocket.call] at hb
    split at hb
    · cases hb; exact h.destroy ho true
    · cases hb
  | purge =>
    obtain rfl : stack = [] := ht rfl
    simp only [LiveSocket.call] at hb
    split at hb
    · cases hb
      have hbooked : Booked ⟨{ s with alive := false }, [], trace ++ []⟩ :=
        h.toBooked.same (fields rfl rfl rfl rfl rfl (prefix_refl _)) rfl (by simp) (by simp)
      exact ⟨hbooked, h.flushable, fun hd hne => absurd (h.pending_nil hd) hne⟩
    · cases hb
  | arrive bytes =>
    simp only [LiveSocket.call] at hb
    split at hb
    · cases hb
    · cases hb; exact hother (SameLedger.fields rfl rfl rfl rfl rfl rfl rfl (Carries.refl _)) (by simp) (by simp [Event.silent])
  | peerCloses | setEncoding encoding | pipe =>
    cases hb; exact hother (SameLedger.fields rfl rfl rfl rfl rfl rfl rfl (Carries.refl _)) (by simp) (by simp)
  | write data callback sends =>
    refine h.write hS (fun hc => ?_) hb
    subst hc; exact ho
  | endWrites callback => cases hb; exact hother (SameLedger.endWrites hS.state.notify callback) (by simp) (by simp)
  | destroySoon => cases hb; exact hother (SameLedger.destroySoon hS.state.notify) (by simp) (by simp)
  | destroy error => cases hb; exact h.destroy ho error
  | pause => cases hb; exact hother (SameLedger.setPaused true) (by simp) (by simp)
  | resume =>
    cases hb
    unfold LiveSocket.resume LiveSocket.deliverPending
    split
    · exact hother ((SameLedger.setPaused false).trans (SameLedger.fields rfl rfl rfl rfl rfl rfl rfl (Carries.refl _)))
        (by simp [silent]) (by simp [Event.silent])
    · exact hother (SameLedger.setPaused false) (by simp) (by simp)

theorem goOn (hS : Sane accepted ⟨s, f :: fs, trace⟩) (h : Ledger ⟨s, f :: fs, trace⟩) (ho : f.fair ⟨s, f :: fs, trace⟩) :
    Ledger ((s.goOn toString f).onto fs trace) := by
  cases f with
  | dispatching =>
    obtain rfl : fs = [] := hS.grounded.1 rfl; exact h.dispatch hS.state (hS.looping _ mem_cons_self rfl) ho
  | connected => obtain rfl : fs = [] := hS.grounded.1 rfl; exact h.afterConnect hS.state.notify
  | resuming =>
    unfold goOn deliverPending
    dsimp only
    split
    · exact h.next (SameLedger.fields rfl rfl rfl rfl rfl rfl rfl (refl _)) rfl (by simp) (by simp [silent]) (by simp [Event.silent])
    · exact h.next (SameLedger.refl s) rfl (by simp) (by simp) (by simp)
  | flushing rest failed =>
    cases rest with
    | nil =>
      have hpop : Ledger ⟨s, fs, trace ++ []⟩ :=
        h.same (SameLedger.refl s) rfl (fun _ => mem_cons_of_mem _) (fun _ _ hm => (mem_cons.1 hm).resolve_left (by simp)) (by simp)
      exact hpop
    | cons w rest => exact h.flushing_next
  | flushingFinish n =>
    cases n with
    | zero => exact h.next (SameLedger.refl s) rfl (by simp) (by rintro _ ⟨⟩) (by rintro _ ⟨⟩)
    | succ n => exact h.next (SameLedger.refl s) rfl (by simp) (by simp [goOn, silent]) (by simp [goOn, Event.silent])
  | emitError | emitFinish => exact h.next (SameLedger.refl s) rfl (by simp) (by rintro _ ⟨⟩) (by simp [goOn, Event.silent])
  | finishing =>
    exact h.next (SameLedger.fields rfl rfl rfl rfl rfl rfl rfl (refl _)) rfl (by simp)
      (by simp [goOn, flushFinishCallbacks, silent])
      (by simp [goOn, flushFinishCallbacks])
  | finished =>
    have hpop : Ledger ⟨s, [] ++ fs, trace ++ []⟩ := h.next (b := { state := s }) (SameLedger.refl s) rfl (by simp) (by simp) (by simp)
    simp only [goOn]
    split
    · next hd =>
      rw [append_nil] at hpop
      refine hpop.destroy (fun hdes => (ho hd hdes).imp_right (And.imp_left fun hm => ?_)) false
      exact (mem_cons.1 hm).resolve_left (by simp)
    · exact hpop
  | ended =>
    simp only [goOn]
    split
    · exact h.next (SameLedger.endWrites hS.state.notify false) rfl (by simp) (by simp) (by simp)
    · exact h.next (SameLedger.refl s) rfl (by simp) (by simp) (by simp)
  | destroying =>
    have hrest : Ledger ⟨s.destroyRest, fs, trace⟩ := h.destroyRest (hS.doomed mem_cons_self)
    exact hrest.push (b := { state := s.destroyRest }) (SameLedger.refl _) (by simp) (by simp)

theorem start (accepted : Bool) : Ledger { state := start accepted } :=
  ⟨⟨rfl, rfl, nofun, nofun, fun hne => absurd rfl hne, nofun, fun pre post heq => by simp [LiveSocket.start] at heq, nofun, nofun⟩,
    fun _ hne => absurd rfl hne, nofun⟩

end Ledger

/-! ## Every run -/

/-- The callbacks come in the order of the writes, each once; without an error only when the kernel has taken the data; and all
of them before `'close'`. -/
structure Tells (c : Config) : Prop where
  inOrder : called c.trace <+: c.state.callbacks
  once : (called c.trace).Nodup
  truth : ∀ w, .callback w false ∈ c.trace → w.accepted c.state.native.sent = true
  all : .close ∈ c.trace → called c.trace = c.state.callbacks

/-- **What the callbacks of writes tell**, in a fair run. -/
theorem tells (toString : BufferEncoding → Bytes → List UInt16) (accepted : Bool) {ls : List (Move Call)} {c : Config}
    (h : Run (program toString).step Fair { state := start accepted } ls c) : Tells c := by
  have hboth : Sane accepted c ∧ Ledger c := by
    refine Reentrant.invariant_of (I := fun c => Sane accepted c ∧ Ledger c) ?_ ?_ h ⟨Sane.start accepted, Ledger.start accepted⟩
    · rintro ⟨s, stack, trace⟩ k b ⟨hS, hL⟩ ho ht hb; exact ⟨hS.call ht hb, hL.call hS ht ho hb⟩
    · rintro ⟨s, stack, trace⟩ f fs ⟨hS, hL⟩ ho rfl; exact ⟨hS.goOn, hL.goOn hS (ho f rfl)⟩
  obtain ⟨-, hL⟩ := hboth
  have hpre : called c.trace <+: c.state.callbacks := ⟨_, hL.order⟩
  refine ⟨hpre, ?_, hL.truth, fun hm => ?_⟩
  · refine Nodup.sublist hpre.sublist (Nodup.of_map WriteCallback.id ?_)
    rw [hL.ids]; exact nodup_range
  · obtain ⟨-, hwait, hpend, href⟩ := hL.closed (hL.told hm)
    have horder := hL.order; rwa [hwait, hpend, href, append_nil, append_nil, append_nil] at horder

/-! ### Runs that tell, and runs that do not -/

instance (c : ClientConnection) : Decidable (Flushable c) := inferInstanceAs (Decidable (_ ∨ _))

instance (s : LiveSocket) (stack : List Frame) : Decidable (Destroyable s stack) := inferInstanceAs (Decidable (_ → _ ∨ _))

instance (c : Config) (data : Bytes) (sends : List SendResult) : Decidable (Answered c data sends) :=
  inferInstanceAs (Decidable (_ ∧ _ ∧ _))

instance (c : Config) : ∀ f : Frame, Decidable (f.fair c)
  | .dispatching => inferInstanceAs (Decidable (_ → _ ∧ _))
  | .finished => inferInstanceAs (Decidable (_ → Destroyable _ _))
  | .connected | .resuming | .flushing _ _ | .flushingFinish _ | .emitError | .finishing | .emitFinish | .ended | .destroying =>
    .isTrue trivial

instance (c : Config) : ∀ m : Move Call, Decidable (Fair c m)
  | .call (.write _ true _) => inferInstanceAs (Decidable (Answered _ _ _))
  | .call (.destroy _) | .call .lose => inferInstanceAs (Decidable (Destroyable _ _))
  | .ret => inferInstanceAs (Decidable (∀ f ∈ c.stack.head?, f.fair c))
  | .call (.write _ false _) | .call (.ready _ _) | .call .notify | .call .microtask | .call (.win _ _ _) | .call .purge
  | .call (.arrive _) | .call .peerCloses | .call (.endWrites _) | .call .destroySoon | .call .pause | .call .resume
  | .call (.setEncoding _) | .call .pipe => .isTrue trivial

/-- Two writes are sent by and by, a third fails. -/
def sentAndFailed : List (Move Call) :=
  [.call (.write [1, 2] true [.count 1, .eagain]), .call (.write [3] true [.eagain]),
    .call (.ready { pollOut := true } { sends := [.count 1, .eintr, .count 1] }), .ret, .ret, .ret, .ret,
    .call (.write [4] true [.eagain]), .call (.ready { pollErr := true } { socketError := 104 }), .ret, .ret, .ret, .ret]

theorem tells_sentAndFailed : ∃ c, Run (program Stream.bufferToString).step Fair { state := start true } sentAndFailed c ∧ Tells c ∧
    c.trace = [.callback ⟨0, 0, [1, 2]⟩ false, .callback ⟨1, 2, [3]⟩ false, .callback ⟨2, 3, [4]⟩ true, .error, .close] := by
  obtain ⟨c, hc, htrace⟩ : ∃ c, runs (fun c m => if decide (Fair c m) then (program Stream.bufferToString).step c m else none)
      { state := start true } sentAndFailed = some c ∧
      c.trace = [.callback ⟨0, 0, [1, 2]⟩ false, .callback ⟨1, 2, [3]⟩ false, .callback ⟨2, 3, [4]⟩ true, .error, .close] :=
    ⟨_, rfl, rfl⟩
  have hrun := (Run.of_guarded _ hc).mono (fun _ _ => of_decide_eq_true)
  exact ⟨c, hrun, tells _ true hrun, htrace⟩

/-- The drain of one write is told after another was made that the kernel does not take. -/
def staleDrain : List (Move Call) :=
  [.call (.write [1] false [.count 1]), .call (.write [2] true [.eagain]), .call .notify, .ret]

/-- An empty write is made while another waits. -/
def emptyWrite : List (Move Call) := [.call (.write [1] true [.eagain]), .call (.write [] true [.eagain])]

/-- A socket is destroyed while a write waits. -/
def destroyedAtOnce : List (Move Call) := [.call (.write [1] true [.eagain]), .call (.destroy false), .call .microtask]

theorem tells_staleDrain :
    (∃ c, Run (program Stream.bufferToString).step (fun _ _ => True) { state := start true } staleDrain c ∧
      c.trace = [.callback ⟨0, 1, [2]⟩ false] ∧ c.state.native.sent = [1]) ∧
    (∃ c, Run (program Stream.bufferToString).step (fun _ _ => True) { state := start true } emptyWrite c ∧
      c.trace = [.callback ⟨0, 0, [1]⟩ false] ∧ c.state.native.sent = []) ∧
    ∃ c, Run (program Stream.bufferToString).step (fun _ _ => True) { state := start true } destroyedAtOnce c ∧
      c.trace = [.destroyCalled, .close] ∧ c.state.callbacks = [⟨0, 0, [1]⟩] := by
  refine ⟨?_, ?_, ?_⟩
  · obtain ⟨c, hc, h⟩ : ∃ c, runs (program Stream.bufferToString).step { state := start true } staleDrain = some c ∧
        c.trace = [.callback ⟨0, 1, [2]⟩ false] ∧ c.state.native.sent = [1] := ⟨_, rfl, rfl, rfl⟩
    exact ⟨c, Run.of_runs hc, h⟩
  · obtain ⟨c, hc, h⟩ : ∃ c, runs (program Stream.bufferToString).step { state := start true } emptyWrite = some c ∧
        c.trace = [.callback ⟨0, 0, [1]⟩ false] ∧ c.state.native.sent = [] := ⟨_, rfl, rfl, rfl⟩
    exact ⟨c, Run.of_runs hc, h⟩
  · obtain ⟨c, hc, h⟩ : ∃ c, runs (program Stream.bufferToString).step { state := start true } destroyedAtOnce = some c ∧
        c.trace = [.destroyCalled, .close] ∧ c.state.callbacks = [⟨0, 0, [1]⟩] := ⟨_, rfl, rfl, rfl⟩
    exact ⟨c, Run.of_runs hc, h⟩

end NodeCompat.Net.LiveSocket
