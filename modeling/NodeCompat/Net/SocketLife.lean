import NodeCompat.Net.HappyEyeballs

/-!
# The life of a call

What a call is asked for while it connects is held back, and handed to its handle when it has one; when it is destroyed or
closed, `close` is emitted once; and while it connects or is open, the socket refers to itself. `Life` says how the fields of
the socket, which belong to the object, follow the record of the current call, and what the records before it say.
-/

namespace NodeCompat.Net

open List Function

open Socket Natives

variable {isIP : Bytes → Nat}

/-- Frames that go on with the events of a handle; there is at most one. -/
def Socket.Work.loops : Work → Bool
  | .dispatchAttempt _ => true
  | .dispatch => true
  | .afterConnect => true
  | _ => false

/-- An `end()` that no handle has got yet. -/
def Socket.pendingEnd (s : Socket) : List HandleOp := if s.connectingEnd then [.ending] else []

/-- The handles of the calls. -/
def Socket.winners (s : Socket) : List Nat := s.past.filterMap CallRecord.winner ++ s.now.winner.toList

/-- A call that is over: its `close` was emitted when it had ended, and its handle got what was asked of it, but for an `end()`
that its end overtook. -/
structure PastLife (n : Natives) (r : CallRecord) : Prop where
  closes : r.closes = if r.ended then 1 else 0
  handed : ∀ h, r.winner = some h → r.ended = true ∧
    (r.requested = (n.handle h).ops ∨ r.requested = (n.handle h).ops ++ [.ending])

structure Life (s : Socket) (ws : List Work) : Prop where
  kept : s.busy = true → s.self = true
  closes : s.now.closes = if s.closeEmitted then 1 else 0
  closed : s.closeEmitted = true → s.destroyed = true
  due : s.destroyed = true →
    s.closeEmitted = true ∨ Microtask.emitClose s.call ∈ s.microtasks ∨ Work.destroyRest s.call ∈ ws
  held : s.connecting = true → s.now.requested = s.connectingWrites.map HandleOp.write ++ s.pendingEnd
  handed : s.nativeId ≠ 0 → s.destroyed = false → s.now.requested = (s.handle s.nativeId).ops ++ s.pendingEnd
  gone : s.nativeId ≠ 0 → s.destroyed = true →
    s.now.requested = (s.handle s.nativeId).ops ∨ s.now.requested = (s.handle s.nativeId).ops ++ [.ending]
  pending : s.connectingEnd = true → s.destroyed = false → s.connecting = true ∨ Work.afterConnect ∈ ws
  connected : Work.afterConnect ∈ ws → s.nativeId ≠ 0 ∧ s.closeEmitted = false
  loops : ws.countP Work.loops ≤ 1
  asked : ∀ h, (s.handle h).ops ≠ [] → h ∈ s.winners
  distinct : s.winners.Nodup
  past : ∀ r ∈ s.past, PastLife s.toNatives r

namespace Life

variable {s s' : Socket} {ws ws' : List Work} {w : Work}

/-! ## Frames -/

theorem frames (h : Life s ws) (hdestroy : ∀ call, Work.destroyRest call ∈ ws → Work.destroyRest call ∈ ws')
    (hconnect : Work.afterConnect ∈ ws ↔ Work.afterConnect ∈ ws') (hloops : ws'.countP Work.loops ≤ 1) : Life s ws' := by
  refine ⟨h.kept, h.closes, h.closed, ?_, h.held, h.handed, h.gone, ?_, fun hmem => h.connected (hconnect.2 hmem), hloops,
    h.asked, h.distinct, h.past⟩
  · intro hd
    obtain he | ht | hr := h.due hd
    · exact .inl he
    · exact .inr (.inl ht)
    · exact .inr (.inr (hdestroy _ hr))
  · intro he hd
    obtain hc | ha := h.pending he hd
    · exact .inl hc
    · exact .inr (hconnect.1 ha)

theorem push (h : Life s ws) (hw : w.loops = false) : Life s (w :: ws) := by
  refine h.frames (fun call hmem => mem_cons_of_mem _ hmem) ?_ ?_
  · rw [mem_cons]
    constructor
    · exact .inr
    · rintro (rfl | hmem)
      · cases hw
      · exact hmem
  · rw [countP_cons_of_neg (by simp [hw])]; exact h.loops

theorem user (h : Life s ws) : Life s (.user :: ws) := h.push rfl

theorem pop (h : Life s (w :: ws)) (hdestroy : ∀ call, w ≠ .destroyRest call) (hconnect : w ≠ .afterConnect) : Life s ws := by
  refine h.frames ?_ ?_ ?_
  · intro call hmem; exact (mem_cons.1 hmem).resolve_left (fun heq => hdestroy call heq.symm)
  · rw [mem_cons]
    constructor
    · exact fun hmem => hmem.resolve_left (fun heq => hconnect heq.symm)
    · exact .inr
  · exact Nat.le_trans ((sublist_cons_self w ws).countP_le) h.loops

theorem alone (h : Life s (w :: ws)) (hw : w.loops = true) : ws.countP Work.loops = 0 := by
  have := h.loops; rw [countP_cons_of_pos hw] at this; omega

theorem not_connected (hloops : ws.countP Work.loops = 0) : Work.afterConnect ∉ ws := fun hmem => by
  rw [countP_eq_zero] at hloops; exact hloops _ hmem rfl

theorem loop (h : Life s ws) (hloops : ws.countP Work.loops = 0) (hw : w ≠ .afterConnect) : Life s (w :: ws) := by
  refine h.frames (fun call hmem => mem_cons_of_mem _ hmem) ?_ ?_
  · rw [mem_cons]
    constructor
    · exact .inr
    · exact fun hmem => hmem.resolve_left (fun heq => hw heq.symm)
  · rw [countP_cons, hloops]
    split <;> omega

/-! ## Changes that are not of the life -/

end Life

/-- Everything that `Life` is about stays. -/
structure Untouched (s s' : Socket) : Prop where
  self : s'.self = s.self
  closeEmitted : s'.closeEmitted = s.closeEmitted
  destroyed : s'.destroyed = s.destroyed
  connecting : s'.connecting = s.connecting
  nativeId : s'.nativeId = s.nativeId
  connectingWrites : s'.connectingWrites = s.connectingWrites
  connectingEnd : s'.connectingEnd = s.connectingEnd
  past : s'.past = s.past
  closes : s'.now.closes = s.now.closes
  requested : s'.now.requested = s.now.requested
  winner : s'.now.winner = s.now.winner
  ops : ∀ h, (s'.handle h).ops = (s.handle h).ops
  tasks : ∀ call, Microtask.emitClose call ∈ s.microtasks → Microtask.emitClose call ∈ s'.microtasks

open Socket

namespace Life

variable {s s' : Socket} {ws ws' : List Work} {w : Work}

variable {f : Handle → Handle} {i : Nat}

theorem same (h : Life s ws) (hs : Untouched s s') : Life s' ws := by
  have hend : s'.pendingEnd = s.pendingEnd := by simp only [pendingEnd, hs.connectingEnd]
  have hcall : s'.call = s.call := by simp only [call, hs.past]
  have hwinners : s'.winners = s.winners := by simp only [winners, hs.past, hs.winner]
  constructor
  · intro hb
    rw [hs.self]
    refine h.kept ?_
    simpa only [busy, hs.nativeId, hs.destroyed, hs.connecting] using hb
  · rw [hs.closes, hs.closeEmitted]; exact h.closes
  · rw [hs.closeEmitted, hs.destroyed]; exact h.closed
  · rw [hs.destroyed, hs.closeEmitted, hcall]
    intro hd
    obtain he | ht | hr := h.due hd
    · exact .inl he
    · exact .inr (.inl (hs.tasks _ ht))
    · exact .inr (.inr hr)
  · rw [hs.connecting, hs.requested, hs.connectingWrites, hend]; exact h.held
  · rw [hs.nativeId, hs.destroyed, hs.requested, hs.ops, hend]; exact h.handed
  · rw [hs.nativeId, hs.destroyed, hs.requested, hs.ops]; exact h.gone
  · rw [hs.connectingEnd, hs.destroyed, hs.connecting]; exact h.pending
  · rw [hs.nativeId, hs.closeEmitted]; exact h.connected
  · exact h.loops
  · intro i hi; rw [hs.ops] at hi; rw [hwinners]; exact h.asked i hi
  · rw [hwinners]; exact h.distinct
  · intro r hr
    rw [hs.past] at hr
    obtain ⟨hcloses, hhanded⟩ := h.past r hr
    refine ⟨hcloses, fun i hi => ?_⟩
    rw [hs.ops]; exact hhanded i hi

theorem native (h : Life s ws) (hf : (f (s.handle i)).ops = (s.handle i).ops) : Life (s.native i f) ws := by
  refine h.same ⟨rfl, rfl, rfl, rfl, rfl, rfl, rfl, rfl, rfl, rfl, rfl, ?_, fun _ hmem => hmem⟩
  intro j
  simp only [Socket.native, setHandle]
  split
  · rfl
  · by_cases hj : j = i
    · subst hj; simpa using hf
    · rw [update_of_ne hj]

theorem task (h : Life s ws) (m : Microtask) : Life { s with microtasks := s.microtasks ++ [m] } ws :=
  h.same ⟨rfl, rfl, rfl, rfl, rfl, rfl, rfl, rfl, rfl, rfl, rfl, fun _ => rfl, fun _ hmem => mem_append_left _ hmem⟩

/-! ## Destroying and closing -/

theorem destroyRest (h : Life s ws) : Life (s.destroyRest s.call) ws := by
  have hnative : Life (s.native s.nativeId (fun handle => { handle with destroyed := true })) ws := h.native rfl
  exact hnative.task _

theorem abandon (h : Life s ws) (hd : s.destroyed = false) (raised : List SocketError)
    (hdue : Work.destroyRest s.call ∈ ws ∨ Microtask.emitClose s.call ∈ s.microtasks) :
    Life { ({ s with destroyed := true, connecting := false, readyState := .closed } : Socket).abandonAttempts with
      now := { s.now with ended := true, raised } } ws := by
  have hops : ∀ i, ((s.settleAll s.attempts).handle i).ops = (s.handle i).ops := by
    intro i
    simp only [settleAll]
    split <;> rfl
  constructor
  · simp [busy, abandonAttempts]
  · exact h.closes
  · intro _; rfl
  · intro _; exact .inr (hdue.symm)
  · intro hc; cases hc
  · intro _ hd'
    cases hd'
  · intro hne _
    have hhanded := h.handed hne hd
    simp only [abandonAttempts, hops]
    rw [hhanded, pendingEnd]
    split
    · exact .inr rfl
    · exact .inl (append_nil _)
  · intro he; cases he
  · exact h.connected
  · exact h.loops
  · intro i hi
    have hi' : (s.handle i).ops ≠ [] := by rw [← hops i]; exact hi
    exact h.asked i hi'
  · exact h.distinct
  · intro r hr
    obtain ⟨hcloses, hhanded⟩ := h.past r hr
    refine ⟨hcloses, fun i hi => ?_⟩
    have hi' := hhanded i hi
    rw [← hops i] at hi'; exact hi'

theorem destroy (h : Life s ws) (error : Option SocketError) : Life (s.destroy error).1 ((s.destroy error).2 ++ ws) := by
  unfold Socket.destroy
  split
  · exact h
  · next hd =>
    have hd' : s.destroyed = false := by simpa using hd
    cases error with
    | none =>
      have habandon := (h.task (.emitClose s.call)).abandon hd' s.now.raised (.inr (by simp [Socket.call]))
      have hnative : Life (Socket.native _ s.nativeId (fun handle => { handle with destroyed := true })) ws := habandon.native rfl
      exact hnative
    | some e =>
      exact ((h.push (w := .destroyRest s.call) rfl).abandon hd' (s.now.raised ++ [e]) (.inl mem_cons_self)).user

theorem close (h : Life s ws) (hnot : Work.afterConnect ∉ ws) (hd : s'.destroyed = true) (hc : s'.connecting = false)
    (hemitted : s'.closeEmitted = true) (hcloses : s'.now.closes = 1) (hnative : s'.nativeId = s.nativeId)
    (hpast : s'.past = s.past) (hwinner : s'.now.winner = s.now.winner) (hrequested : s'.now.requested = s.now.requested)
    (hhandle : s'.handle = s.handle) : Life s' ws := by
  have hwinners : s'.winners = s.winners := by simp only [winners, hpast, hwinner]
  constructor
  · simp [busy, hd, hc]
  · rw [hcloses, hemitted, if_pos rfl]
  · intro _; exact hd
  · intro _; exact .inl hemitted
  · intro hc'; simp [hc] at hc'
  · intro _ hd'; simp [hd] at hd'
  · rw [hnative, hrequested, hhandle]
    intro hne _
    cases hd₀ : s.destroyed with
    | true => exact h.gone hne hd₀
    | false =>
      have hhanded := h.handed hne hd₀
      rw [pendingEnd] at hhanded
      split at hhanded
      · exact .inr hhanded
      · exact .inl (hhanded.trans (append_nil _))
  · intro _ hd'; simp [hd] at hd'
  · intro hmem; exact absurd hmem hnot
  · exact h.loops
  · rw [hhandle, hwinners]; exact h.asked
  · rw [hwinners]; exact h.distinct
  · intro r hr
    rw [hpast] at hr
    obtain ⟨hr₁, hr₂⟩ := h.past r hr
    refine ⟨hr₁, ?_⟩
    rw [hhandle]; exact hr₂

theorem peerClose (h : Life s ws) (hloops : ws.countP Work.loops = 0) :
    Life (s.onEvent .close).1 ((s.onEvent .close).2 ++ ws) := by
  have hnot := not_connected hloops
  simp only [onEvent, emitClose]
  split
  · next hemitted =>
    have hcloses : s.now.closes = 1 := by simpa [hemitted] using h.closes
    have hclose : Life { s with
        connecting := false
        destroyed := true
        readyState := .closed
        now := { s.now with ended := true } } ws := h.close hnot rfl rfl hemitted hcloses rfl rfl rfl rfl rfl
    exact hclose.loop hloops (by simp)
  · next hemitted =>
    have hcloses : s.now.closes = 0 := by simpa [hemitted] using h.closes
    have hclose : Life { s with
        connecting := false
        destroyed := true
        readyState := .closed
        closeEmitted := true
        now := { s.now with ended := true, closes := s.now.closes + 1 } } ws :=
      h.close hnot rfl rfl rfl (by simp [hcloses]) rfl rfl rfl rfl rfl
    exact ((hclose.loop hloops (w := .dispatch) (by simp)).push (w := .clearSelf s.call) rfl).user

/-! ## Attempts -/

section

variable (h : Life s ws)
include h

theorem startNextAttempt : Life s.startNextAttempt.1 (s.startNextAttempt.2 ++ ws) := by
  unfold Socket.startNextAttempt
  dsimp only
  split
  · exact h.same ⟨rfl, rfl, rfl, rfl, rfl, rfl, rfl, rfl, rfl, rfl, rfl, fun _ => rfl, fun _ hmem => hmem⟩
  · refine user (push ?_ rfl)
    exact h.same ⟨rfl, rfl, rfl, rfl, rfl, rfl, rfl, rfl, rfl, rfl, rfl, fun _ => rfl, fun _ hmem => hmem⟩

theorem beginAttempts (targets : List Target) (multiple : Bool) :
    Life (s.beginAttempts targets multiple).1 ((s.beginAttempts targets multiple).2 ++ ws) := by
  refine startNextAttempt ?_
  exact h.same ⟨rfl, rfl, rfl, rfl, rfl, rfl, rfl, rfl, rfl, rfl, rfl, fun _ => rfl, fun _ hmem => hmem⟩

theorem create (hn : s.toNatives.Ok) (g : Nat) (a : AttemptId) (created : Created) :
    Life (s.create g a created) ws := by
  have hops : ∀ i, ((s.newHandle a).handle i).ops = (s.handle i).ops := by
    intro i
    simp only [newHandle, setAttempt, setHandle, Nat.succ_ne_zero, if_false]
    by_cases hi : i = s.handleCount + 1
    · subst hi; rw [update_self, hn.fresh _ (Nat.lt_succ_self _)]
    · rw [update_of_ne hi]
  unfold Socket.create
  split
  · exact h
  · cases created with
    | failed errno message => exact h.task _
    | handle =>
      have hnew : Life { s with toNatives := s.newHandle a } ws :=
        h.same ⟨rfl, rfl, rfl, rfl, rfl, rfl, rfl, rfl, rfl, rfl, rfl, hops, fun _ hmem => hmem⟩
      dsimp only
      split
      · exact hnew.same ⟨rfl, rfl, rfl, rfl, rfl, rfl, rfl, rfl, rfl, rfl, rfl, fun _ => rfl, fun _ hmem => hmem⟩
      · exact hnew

theorem failAttempt (a : AttemptId) (error : AttemptError) :
    Life (s.failAttempt a error).1 ((s.failAttempt a error).2 ++ ws) := by
  refine user (push ?_ rfl)
  exact h.same ⟨rfl, rfl, rfl, rfl, rfl, rfl, rfl, rfl, rfl, rfl, rfl, fun _ => rfl, fun _ hmem => hmem⟩

theorem afterFailed (g : Nat) (error : AttemptError) :
    Life (s.afterFailed g error).1 ((s.afterFailed g error).2 ++ ws) := by
  unfold Socket.afterFailed
  split
  · exact h
  · split
    · exact h.destroy _
    · split
      · exact h.startNextAttempt
      · split
        · exact h.destroy _
        · exact h

theorem afterTimeout (g : Nat) : Life (s.afterTimeout g).1 ((s.afterTimeout g).2 ++ ws) := by
  unfold Socket.afterTimeout
  split
  · exact h
  · split
    · exact h.startNextAttempt
    · exact h

end

/-! ## What is asked of a call -/

theorem past_other (h : Life s ws) {n' : Natives} (hi : i ∉ s.past.filterMap CallRecord.winner)
    (hother : ∀ j, j ≠ i → (n'.handle j).ops = (s.handle j).ops) : ∀ r ∈ s.past, PastLife n' r := by
  intro r hr
  obtain ⟨hcloses, hhanded⟩ := h.past r hr
  refine ⟨hcloses, fun j hj => ?_⟩
  have hne : j ≠ i := by rintro rfl; exact hi (mem_filterMap.2 ⟨r, hr, hj⟩)
  rw [hother j hne]; exact hhanded j hj

theorem ask (h : Life s ws) (hr : Raced isIP s.toRace) (hd : s.destroyed = false) (hself : s'.self = s.self)
    (hemitted : s'.closeEmitted = s.closeEmitted) (hdestroyed : s'.destroyed = s.destroyed)
    (hconnecting : s'.connecting = s.connecting) (hnative : s'.nativeId = s.nativeId) (hpast : s'.past = s.past)
    (hcloses : s'.now.closes = s.now.closes) (hwinner : s'.now.winner = s.now.winner)
    (hother : ∀ j, j ≠ s.nativeId ∨ s.nativeId = 0 → (s'.handle j).ops = (s.handle j).ops)
    (hheld : s.connecting = true → s'.now.requested = s'.connectingWrites.map HandleOp.write ++ s'.pendingEnd)
    (hhanded : s.nativeId ≠ 0 → s'.now.requested = (s'.handle s.nativeId).ops ++ s'.pendingEnd)
    (hpending : s'.connectingEnd = true → s.connecting = true ∨ Work.afterConnect ∈ ws) : Life s' ws := by
  have hwinners : s'.winners = s.winners := by simp only [winners, hpast, hwinner]
  constructor
  · intro hb
    rw [hself]
    refine h.kept ?_
    simpa only [busy, hnative, hdestroyed, hconnecting] using hb
  · rw [hcloses, hemitted]; exact h.closes
  · rw [hemitted, hdestroyed]; exact h.closed
  · intro hd'; simp [hdestroyed, hd] at hd'
  · intro hc; exact hheld (hconnecting ▸ hc)
  · intro hne _; rw [hnative]; exact hhanded (hnative ▸ hne)
  · intro _ hd'; simp [hdestroyed, hd] at hd'
  · intro he _; rw [hconnecting]; exact hpending he
  · rw [hnative, hemitted]; exact h.connected
  · exact h.loops
  · intro i hi
    rw [hwinners]
    by_cases hi' : i = s.nativeId ∧ s.nativeId ≠ 0
    · obtain ⟨rfl, hne⟩ := hi'
      have hwin := hr.winner_eq hne; exact mem_append_right _ (by simp [hwin])
    · rw [hother i (by omega)] at hi; exact h.asked i hi
  · rw [hwinners]; exact h.distinct
  · rw [hpast]
    by_cases hne : s.nativeId = 0
    · intro r hr'
      obtain ⟨hclosed, hhand⟩ := h.past r hr'
      refine ⟨hclosed, fun j hj => ?_⟩
      rw [hother j (.inr hne)]; exact hhand j hj
    · refine h.past_other (i := s.nativeId) ?_ (fun j hj => hother j (.inl hj))
      have hnodup := h.distinct
      rw [winners, hr.winner_eq hne] at hnodup
      intro hmem; exact (nodup_append.1 hnodup).2.2 _ hmem _ (by simp) rfl

theorem native_other : ∀ j, j ≠ i ∨ i = 0 → ((s.native i f).handle j).ops = (s.handle j).ops := by
  intro j hj
  simp only [Socket.native, setHandle]
  split
  · rfl
  · next hne => rw [update_of_ne (hj.resolve_right hne)]

theorem native_self (hi : i ≠ 0) : (s.native i f).handle i = f (s.handle i) := by
  simp [Socket.native, setHandle, hi]

theorem askHandle (h : Life s ws) (hr : Raced isIP s.toRace) (hd : s.destroyed = false) (hne : s.nativeId ≠ 0) {op : HandleOp}
    (hop : s.pendingEnd ++ [op] = op :: s.pendingEnd) (readyState : ReadyState) :
    Life (({ s.note op with readyState } : Socket).native s.nativeId (fun handle => { handle with ops := handle.ops ++ [op] })) ws := by
  have hc : s.connecting = false := by
    by_contra hc
    exact hne (hr.idle (by simpa using hc)).1
  refine h.ask hr hd rfl rfl rfl rfl rfl rfl rfl rfl native_other ?_ ?_ ?_
  · intro hc'; simp [hc] at hc'
  · intro _
    rw [native_self hne]
    show s.now.requested ++ [op] = (s.handle s.nativeId).ops ++ [op] ++ s.pendingEnd
    rw [h.handed hne hd, append_assoc, hop, append_assoc, singleton_append]
  · intro he; exact h.pending he hd

theorem write (h : Life s ws) (hr : Raced isIP s.toRace) (hend : s.connectingEnd = false) (data : Bytes) :
    Life (s.write data) ws := by
  have hnone : s.pendingEnd = [] := by simp [Socket.pendingEnd, hend]
  unfold Socket.write
  split
  · exact h
  · next hopen =>
    simp only [Bool.or_eq_true, Bool.and_eq_true, decide_eq_true_eq, Bool.not_eq_true', not_or, not_and, Bool.not_eq_true,
      Bool.not_eq_false] at hopen
    obtain ⟨hd, hcon⟩ := hopen
    split
    · next hzero =>
      refine h.ask hr hd rfl rfl rfl rfl rfl rfl rfl rfl (fun _ _ => rfl) ?_ ?_ ?_
      · intro hc
        show s.now.requested ++ [HandleOp.write data] = (s.connectingWrites ++ [data]).map HandleOp.write ++ s.pendingEnd
        rw [h.held hc, hnone]; simp
      · intro hne; exact absurd hzero hne
      · intro _; exact .inl (hcon hzero)
    · next hne => exact h.askHandle hr hd hne (by simp [hnone]) s.readyState

theorem endWrites (h : Life s ws) (hr : Raced isIP s.toRace) : Life s.endWrites ws := by
  have hcomm : s.pendingEnd ++ [HandleOp.ending] = HandleOp.ending :: s.pendingEnd := by
    simp only [Socket.pendingEnd]
    split <;> rfl
  unfold Socket.endWrites
  split
  · next hcon =>
    simp only [Bool.and_eq_true, decide_eq_true_eq, Bool.not_eq_true'] at hcon
    obtain ⟨⟨hzero, hc⟩, hd⟩ := hcon
    have hheld := h.held hc
    split
    · next he =>
      refine h.ask hr hd rfl rfl rfl rfl rfl rfl rfl rfl (fun _ _ => rfl) ?_ (fun hne => absurd hzero hne) (fun _ => .inl hc)
      intro _; simpa [Socket.pendingEnd, he] using hheld
    · next he =>
      refine h.ask hr hd rfl rfl rfl rfl rfl rfl rfl rfl (fun _ _ => rfl) ?_ (fun hne => absurd hzero hne) (fun _ => .inl hc)
      intro _; simpa [Socket.pendingEnd, he, Socket.note] using hheld
  · split
    · exact h
    · next hopen =>
      simp only [Bool.or_eq_true, decide_eq_true_eq, not_or, Bool.not_eq_true] at hopen
      exact h.askHandle hr hopen.2 hopen.1 hcomm .readOnly

section

variable (h : Life s (.afterConnect :: ws))
include h

theorem popConnect (hend : s.connectingEnd = true → s.destroyed = true) : Life s ws := by
  have hloops := h.alone rfl
  refine ⟨h.kept, h.closes, h.closed, ?_, h.held, h.handed, h.gone, ?_, fun hmem => absurd hmem (not_connected hloops), by omega,
    h.asked, h.distinct, h.past⟩
  · intro hd
    obtain he | ht | hmem := h.due hd
    · exact .inl he
    · exact .inr (.inl ht)
    · exact .inr (.inr (by simpa using hmem))
  · intro he hd; simp [hend he] at hd

theorem handEnd (hr : Raced isIP s.toRace) : Life s.handEnd ws := by
  have hne := (h.connected mem_cons_self).1
  unfold Socket.handEnd
  split
  · next hend =>
    simp only [Bool.and_eq_true, Bool.not_eq_true'] at hend
    obtain ⟨he, hd⟩ := hend
    have hc : s.connecting = false := by
      by_contra hc
      exact hne (hr.idle (by simpa using hc)).1
    have hhanded := h.handed hne hd
    refine popConnect ?_ (fun he' => ?_)
    · refine h.ask hr hd rfl rfl rfl rfl rfl rfl rfl rfl native_other ?_ ?_ (fun _ => .inr mem_cons_self)
      · intro hc'; simp [hc] at hc'
      · intro _
        rw [native_self hne]
        show s.now.requested = (s.handle s.nativeId).ops ++ [HandleOp.ending] ++ []
        rw [hhanded, Socket.pendingEnd, if_pos he, append_nil]
    · cases he'
  · next hend =>
    refine h.popConnect (fun he => ?_)
    simpa [he] using hend

theorem afterConnect (hr : Raced isIP s.toRace) : Life s.afterConnect.1 (s.afterConnect.2 ++ ws) := by
  have hloops := h.alone rfl
  have hhand := h.handEnd hr
  unfold Socket.afterConnect
  split
  · exact hhand
  · exact hhand.loop hloops (by simp)

end

/-! ## Events of the native side -/

theorem winAttempt (h : Life s ws) (hr : Raced isIP s.toRace) (hc : s.connecting = true) {a : AttemptId}
    (hid : (s.attempt a).nativeId ≠ 0) (hnew : (s.attempt a).nativeId ∉ s.winners) (hloops : ws.countP Work.loops = 0) :
    Life (s.winAttempt a) (.afterConnect :: ws) := by
  obtain ⟨-, hd⟩ := hr.idle hc
  obtain ⟨-, hwinner, -, -⟩ := hr.racing hc
  have hops : (s.handle (s.attempt a).nativeId).ops = [] := by
    by_contra hne
    exact hnew (h.asked _ hne)
  have hemitted : s.closeEmitted = false := by
    by_contra he
    simp [h.closed (by simpa using he)] at hd
  have hpast : s.winners = s.past.filterMap CallRecord.winner := by simp [winners, hwinner]
  have hself : ((s.winAttempt a).handle (s.attempt a).nativeId).ops = s.connectingWrites.map HandleOp.write := by
    refine (win_ops (s.connectingWrites.map HandleOp.write) _).trans ?_
    rw [if_pos ⟨rfl, hid⟩, hops, nil_append]
  have hother : ∀ j, j ≠ (s.attempt a).nativeId → ((s.winAttempt a).handle j).ops = (s.handle j).ops := by
    intro j hj
    refine (win_ops (s.connectingWrites.map HandleOp.write) _).trans ?_
    rw [if_neg (fun hand => hj hand.1)]
  have hd₁ : (s.winAttempt a).destroyed = false := hd
  constructor
  · intro _; exact h.kept (by simp [busy, hc])
  · exact h.closes
  · exact h.closed
  · intro hd'; simp [hd₁] at hd'
  · intro hc'
    cases hc'
  · intro _ _
    show s.now.requested = ((s.winAttempt a).handle (s.attempt a).nativeId).ops ++ s.pendingEnd
    rw [hself]; exact h.held hc
  · intro _ hd'; simp [hd₁] at hd'
  · intro _ _; exact .inr mem_cons_self
  · intro _; exact ⟨hid, hemitted⟩
  · rw [countP_cons_of_pos rfl, hloops]
  · intro j hj
    show j ∈ s.past.filterMap CallRecord.winner ++ [(s.attempt a).nativeId]
    by_cases heq : j = (s.attempt a).nativeId
    · simp [heq]
    · rw [hother j heq] at hj; exact mem_append_left _ (hpast ▸ h.asked j hj)
  · show (s.past.filterMap CallRecord.winner ++ [(s.attempt a).nativeId]).Nodup
    rw [hpast] at hnew
    have hdistinct := h.distinct
    rw [hpast] at hdistinct
    refine nodup_append.2 ⟨hdistinct, nodup_singleton _, ?_⟩
    intro i hi j hj hij
    rw [mem_singleton] at hj; subst hij hj; exact hnew hi
  · exact h.past_other (i := (s.attempt a).nativeId) (hpast ▸ hnew) hother

theorem not_winner (hr : Raced isIP s.toRace) (hevent : NativeEvent.connect ∈ (s.handle i).events) : i ∉ s.winners := by
  have hcount : 0 < (s.handle i).events.count .connect := count_pos_iff.2 hevent
  intro hmem
  obtain hmem | hmem := mem_append.1 hmem
  · obtain ⟨r, hr', hw⟩ := mem_filterMap.1 hmem
    obtain ⟨-, -, hzero, -⟩ := (hr.past r hr').1.winner i hw; omega
  · have hw : s.now.winner = some i := by simpa using hmem
    obtain ⟨-, -, hzero, -⟩ := hr.now.winner i hw; omega

theorem takeEvent (h : Life s ws) {e : NativeEvent} (ht : s.takeEvent i = some (e, s')) :
    Life s' ws ∧ s'.winners = s.winners := by
  unfold Socket.takeEvent at ht
  split at ht
  · cases ht
  · cases ht; exact ⟨h.native rfl, rfl⟩

theorem dispatchAttempt (a : AttemptId) (h : Life s (.dispatchAttempt a :: ws)) (ho : Orderly isIP s (.dispatchAttempt a :: ws)) :
    Life (s.dispatchAttempt a).1 ((s.dispatchAttempt a).2 ++ ws) := by
  have hmade : a < s.attemptCount := ho.works _ mem_cons_self
  have hloops := h.alone rfl
  have hpop : Life s ws := h.pop (by simp) (by simp)
  unfold Socket.dispatchAttempt
  split
  · exact hpop
  · next hs =>
    have hs' : (s.attempt a).settled = false := by simpa using hs
    split
    · exact hpop
    · next s₁ ht =>
      obtain ⟨ho₁, hzero, -, hattempt, hcount, hevent, -, -⟩ := ho.pop.takeEvent ht
      obtain ⟨h₁, hwinners⟩ := hpop.takeEvent ht
      have hnew := not_winner ho.raced hevent
      rw [← hwinners] at hnew
      rw [← hattempt] at hs' hzero hnew
      obtain ⟨hc, -⟩ := ho₁.raced.live a (hcount ▸ hmade) hs'
      exact (h₁.winAttempt ho₁.raced hc hzero hnew hloops).user
    · next e s₁ ht => exact (hpop.takeEvent ht).1.failAttempt a _
    · next e s₁ _ _ ht => exact (hpop.takeEvent ht).1.loop hloops (by simp)

theorem onEvent (h : Life s ws) (hloops : ws.countP Work.loops = 0) (hr : Raced isIP s.toRace) (hnative : s.nativeId ≠ 0)
    {e : NativeEvent} (he : e ≠ .connect) : Life (s.onEvent e).1 ((s.onEvent e).2 ++ ws) := by
  have hloop : Life s (.dispatch :: ws) := h.loop hloops (by simp)
  cases e with
  | connect => exact absurd rfl he
  | data | drain => exact hloop.user
  | error e =>
    have hc : s.connecting = false := by
      by_contra hc
      exact hnative (hr.idle (by simpa using hc)).1
    refine user (hloop.same ⟨rfl, rfl, rfl, hc.symm, rfl, rfl, rfl, rfl, rfl, rfl, rfl, fun _ => rfl, fun _ hmem => hmem⟩)
  | close => exact h.peerClose hloops
  | finish => exact (hloop.push (w := .afterFinish) rfl).user
  | ended =>
    have hready : Life (if s.readyState = .readOnly then s else { s with readyState := .writeOnly }) (.dispatch :: ws) := by
      split
      · exact hloop
      · exact hloop.same ⟨rfl, rfl, rfl, rfl, rfl, rfl, rfl, rfl, rfl, rfl, rfl, fun _ => rfl, fun _ hmem => hmem⟩
    exact (hready.push (w := .afterEnd) rfl).user

theorem dispatch (h : Life s (.dispatch :: ws)) (ho : Orderly isIP s (.dispatch :: ws)) :
    Life s.dispatch.1 (s.dispatch.2 ++ ws) := by
  have hloops := h.alone rfl
  have hpop : Life s ws := h.pop (by simp) (by simp)
  unfold Socket.dispatch
  split
  · exact hpop
  · next e s₁ ht =>
    obtain ⟨ho₁, hzero, -, -, -, hevent, hrace, -⟩ := ho.pop.takeEvent ht
    refine (hpop.takeEvent ht).1.onEvent hloops ho₁.raced (by rw [hrace]; exact hzero) ?_
    rintro rfl
    exact not_winner ho.raced hevent (mem_append_right _ (by simp [ho.raced.winner_eq hzero]))

/-! ## Lookups -/

section

variable (h : Life s ws)
include h

theorem lookupNext (call g : Nat) (addresses left : List Target) (b : Buckets) :
    Life (s.lookupNext call g addresses b left).1 ((s.lookupNext call g addresses b left).2 ++ ws) := by
  cases left with
  | cons candidate left => exact (h.push rfl).user
  | nil =>
    simp only [Socket.lookupNext]
    split
    · exact h.destroy _
    · split
      · exact h.task _
      · exact h.beginAttempts _ true

theorem onLookupAll (call g : Nat) (a : LookupAnswer) :
    Life (s.onLookupAll call g a).1 ((s.onLookupAll call g a).2 ++ ws) := by
  unfold Socket.onLookupAll
  split
  · exact h
  · split
    · exact h.destroy _
    · refine lookupNext ?_ call g _ _ _
      exact h.same ⟨rfl, rfl, rfl, rfl, rfl, rfl, rfl, rfl, rfl, rfl, rfl, fun _ => rfl, fun _ hmem => hmem⟩

theorem onLookupOne (call g : Nat) (a : LookupAnswer) :
    Life (s.onLookupOne call g a).1 ((s.onLookupOne call g a).2 ++ ws) := by
  unfold Socket.onLookupOne
  split
  · exact h
  · refine user (push ?_ rfl)
    exact h.same ⟨rfl, rfl, rfl, rfl, rfl, rfl, rfl, rfl, rfl, rfl, rfl, fun _ => rfl, fun _ hmem => hmem⟩

theorem afterCandidate (call g : Nat) (addresses : List Target) (candidate : Target) (left : List Target)
    (b : Buckets) : Life (s.afterCandidate isIP call g addresses candidate left b).1
      ((s.afterCandidate isIP call g addresses candidate left b).2 ++ ws) := by
  unfold Socket.afterCandidate
  split
  · exact h
  · exact h.lookupNext call g addresses left _

theorem afterLookup (call g : Nat) (error : Option Nat) (address : Bytes) :
    Life (s.afterLookup isIP call g error address).1 ((s.afterLookup isIP call g error address).2 ++ ws) := by
  unfold Socket.afterLookup
  split
  · exact h
  · split
    · exact h.task _
    · split
      · exact h.task _
      · exact h.beginAttempts _ false

end

/-! ## Connecting -/

theorem pastLife (h : Life s ws) (hr : Raced isIP s.toRace) (hnative : s.nativeId ≠ 0 → s.destroyed = true)
    (hclosed : s.destroyed = true → s.closeEmitted = true) : PastLife s.toNatives s.now := by
  constructor
  · rw [h.closes, hr.ended]
    cases hd : s.destroyed with
    | true => simp [hclosed hd]
    | false =>
      have hemitted : s.closeEmitted = false := by
        by_contra he
        simp [h.closed (by simpa using he)] at hd
      simp [hemitted]
  · intro i hi
    have hid : s.nativeId = i := by
      have hwon := hr.won; rw [hi] at hwon; exact hwon
    have hne : s.nativeId ≠ 0 := hid ▸ (hr.now.winner i hi).1
    have hd := hnative hne; exact ⟨hr.ended.trans hd, hid ▸ h.gone hne hd⟩

theorem renew (h : Life s ws) (hr : Raced isIP s.toRace) (hnative : s.nativeId ≠ 0 → s.destroyed = true)
    (hclosed : s.destroyed = true → s.closeEmitted = true) (hself : s'.self = true) (hemitted : s'.closeEmitted = false)
    (hdestroyed : s'.destroyed = false) (hzero : s'.nativeId = 0) (hwrites : s'.connectingWrites = [])
    (hend : s'.connectingEnd = false) (hpast : s'.past = s.past ++ [s.now]) (hcloses : s'.now.closes = 0)
    (hrequested : s'.now.requested = []) (hwinner : s'.now.winner = none) (hhandle : s'.handle = s.handle) : Life s' ws := by
  have hnot : Work.afterConnect ∉ ws := by
    intro hmem
    obtain ⟨hne, he⟩ := h.connected hmem; simp [hclosed (hnative hne)] at he
  have hwinners : s'.winners = s.winners := by
    simp only [winners, hpast, hwinner, filterMap_append, Option.toList_none, append_nil]
    cases hw : s.now.winner <;> simp [hw]
  constructor
  · exact fun _ => hself
  · simp [hcloses, hemitted]
  · simp [hemitted]
  · simp [hdestroyed]
  · simp [hrequested, hwrites, pendingEnd, hend]
  · exact fun hne => absurd hzero hne
  · exact fun hne => absurd hzero hne
  · simp [hend]
  · exact fun hmem => absurd hmem hnot
  · exact h.loops
  · rw [hwinners, hhandle]; exact h.asked
  · rw [hwinners]; exact h.distinct
  · intro r hr'
    have hlife : PastLife s.toNatives r := by
      rw [hpast] at hr'
      obtain hr' | hr' := mem_append.1 hr'
      · exact h.past r hr'
      · rw [mem_singleton] at hr'; exact hr' ▸ h.pastLife hr hnative hclosed
    refine ⟨hlife.closes, ?_⟩
    rw [hhandle]; exact hlife.handed

theorem reset (h : Life s ws) (hr : Raced isIP s.toRace) (hnative : s.nativeId ≠ 0 → s.destroyed = true)
    (hclosed : s.destroyed = true → s.closeEmitted = true) (o : ConnectOptions) :
    Life (s.reset isIP o).1 ((s.reset isIP o).2 ++ ws) := by
  unfold Socket.reset
  split
  · exact h.renew hr hnative hclosed rfl rfl rfl rfl rfl rfl rfl rfl rfl rfl rfl
  · exact user (h.renew hr hnative hclosed rfl rfl rfl rfl rfl rfl rfl rfl rfl rfl rfl)

/-! ## Steps -/

theorem callMethod (h : Life s ws) (hr : Raced isIP s.toRace) {k : Call}
    (hwrite : ∀ data, k = .write data → s.connectingEnd = false) :
    Life (s.callMethod k).1 ((s.callMethod k).2 ++ ws) := by
  cases k with
  | connect o =>
    simp only [Socket.callMethod]
    split
    · exact h
    · have hreset : Life s (.reset o :: ws) := h.push rfl
      split
      · exact hreset.user
      · exact hreset
  | write data => exact h.write hr (hwrite data rfl) data
  | endWrites => exact h.endWrites hr
  | destroySoon =>
    simp only [Socket.callMethod]
    split
    · exact h
    · have hsoon : Life { s with destroyAfterFinish := true } ws :=
        h.same ⟨rfl, rfl, rfl, rfl, rfl, rfl, rfl, rfl, rfl, rfl, rfl, fun _ => rfl, fun _ hmem => hmem⟩
      exact hsoon.endWrites hr
  | destroy error => exact h.destroy _

theorem mem_eraseIdx_of_ne {α : Type} {l : List α} {x y : α} (hy : l[i]? = some y) (hx : x ∈ l) (hne : x ≠ y) :
    x ∈ l.eraseIdx i := by
  induction l generalizing i with
  | nil => cases hx
  | cons z l ih =>
    cases i with
    | zero =>
      have hz : z = y := by simpa using hy
      exact (mem_cons.1 hx).resolve_left (fun heq => hne (heq.trans hz))
    | succ i =>
      rw [eraseIdx_cons_succ, mem_cons]
      obtain rfl | hx := mem_cons.1 hx
      · exact .inl rfl
      · exact .inr (ih (by simpa using hy) hx)

theorem runMicrotask (h : Life s []) (ho : Orderly isIP s []) {index : Nat} {m : Microtask}
    (hm : s.microtasks[index]? = some m) :
    Life (({ s with microtasks := s.microtasks.eraseIdx index } : Socket).runMicrotask m).1
      ((({ s with microtasks := s.microtasks.eraseIdx index } : Socket).runMicrotask m).2 ++ []) := by
  have htaken : (∀ call, m ≠ .emitClose call) → Life { s with microtasks := s.microtasks.eraseIdx index } [] := by
    intro hne
    refine h.same ⟨rfl, rfl, rfl, rfl, rfl, rfl, rfl, rfl, rfl, rfl, rfl, fun _ => rfl, ?_⟩
    intro call hmem; exact mem_eraseIdx_of_ne hm hmem (fun heq => hne call heq.symm)
  cases m with
  | begin call g targets =>
    simp only [Socket.runMicrotask]
    split
    · exact htaken (by simp)
    · exact (htaken (by simp)).beginAttempts targets false
  | destroy call g error =>
    simp only [Socket.runMicrotask]
    split
    · exact (htaken (by simp)).destroy _
    · exact htaken (by simp)
  | failAttempt call g a error =>
    simp only [Socket.runMicrotask]
    split
    · exact (htaken (by simp)).failAttempt a error
    · exact htaken (by simp)
  | emitClose call =>
    have hd : s.destroyed = true := (ho.tasks _ (mem_of_getElem? hm)).2
    have hc : s.connecting = false := ho.idle_of_ended (ho.raced.ended.trans hd)
    simp only [Socket.runMicrotask, Socket.emitClose]
    split
    · next hemitted =>
      have hcloses : s.now.closes = 1 := by simpa [hemitted] using h.closes
      exact h.close (by simp) hd hc hemitted hcloses rfl rfl rfl rfl rfl
    · next hemitted =>
      have hcloses : s.now.closes = 0 := by simpa [hemitted] using h.closes
      refine user (push (h.close (by simp) hd hc rfl ?_ rfl rfl rfl rfl rfl) rfl)
      simp [hcloses]

theorem onTimer (h : Life s ws) (g : Nat) (a : AttemptId) : Life (s.onTimer g a).1 ((s.onTimer g a).2 ++ ws) := by
  have hclear : Life { s with attemptTimer := none } ws :=
    h.same ⟨rfl, rfl, rfl, rfl, rfl, rfl, rfl, rfl, rfl, rfl, rfl, fun _ => rfl, fun _ hmem => hmem⟩
  unfold Socket.onTimer
  dsimp only
  split
  · exact hclear
  · exact (hclear.push rfl).user

theorem tick (created : Created) (h : Life s (w :: ws)) (ho : Orderly isIP s (w :: ws))
    (hreset : ∀ o, w = .reset o →
      (s.nativeId ≠ 0 → s.destroyed = true) ∧ (s.destroyed = true → s.closeEmitted = true)) :
    Life (s.tick isIP created w).1 ((s.tick isIP created w).2 ++ ws) := by
  have hr := ho.raced
  cases w with
  | user => exact h
  | reset o => exact (h.pop (by simp) (by simp)).reset hr (hreset o rfl).1 (hreset o rfl).2 o
  | lookupOne call g error address => exact (h.pop (by simp) (by simp)).afterLookup call g error address
  | lookupAll call g addresses candidate left b =>
    exact (h.pop (by simp) (by simp)).afterCandidate call g addresses candidate left b
  | create g a => exact (h.pop (by simp) (by simp)).create hr.natives g a created
  | afterTimeout g => exact (h.pop (by simp) (by simp)).afterTimeout g
  | dispatchAttempt a => exact Life.dispatchAttempt a h ho
  | afterFailed g error => exact (h.pop (by simp) (by simp)).afterFailed g error
  | afterConnect => exact h.afterConnect hr
  | dispatch => exact h.dispatch ho
  | afterFinish =>
    simp only [Socket.tick]
    split
    · exact (h.pop (by simp) (by simp)).destroy none
    · exact h.pop (by simp) (by simp)
  | afterEnd =>
    simp only [Socket.tick]
    split
    · exact (h.pop (by simp) (by simp)).endWrites hr
    · exact h.pop (by simp) (by simp)
  | destroyRest call =>
    obtain ⟨hcall, hd⟩ := ho.works _ mem_cons_self
    have hrest := h.destroyRest
    refine ⟨hrest.kept, hrest.closes, hrest.closed, ?_, hrest.held, hrest.handed, hrest.gone, ?_, ?_, ?_, hrest.asked, hrest.distinct,
      hrest.past⟩
    · intro _
      refine .inr (.inl ?_)
      rw [hcall]; exact mem_append_right _ (mem_singleton_self _)
    · intro _ hd'; exact absurd hd' (by simp [Socket.tick, Socket.destroyRest, Socket.native, hd])
    · intro hmem; exact h.connected (mem_cons_of_mem _ hmem)
    · exact Nat.le_trans ((sublist_cons_self _ ws).countP_le) h.loops
  | clearSelf call =>
    obtain ⟨-, hd⟩ := ho.works _ mem_cons_self
    have hpop : Life s ws := h.pop (by simp) (by simp)
    have hc : s.connecting = false := ho.idle_of_ended (hr.ended.trans hd)
    refine ⟨?_, hpop.closes, hpop.closed, hpop.due, hpop.held, hpop.handed, hpop.gone, hpop.pending, hpop.connected, hpop.loops,
      hpop.asked, hpop.distinct, hpop.past⟩
    intro hb
    have hbusy : s.busy = true := hb
    simp [Socket.busy, hd, hc] at hbusy

end Life

end NodeCompat.Net
