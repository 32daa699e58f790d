import NodeCompat.Net.SocketLife
import NodeCompat.Net.ServerSelf

/-!
# Each call has its own life

The `close` that a `destroy` has queued, the `end()` held back and the reference of the object to itself are not of a generation.
In runs that leave them to their call (`undisturbed`), every call that ends gets its `close` once, its handle gets what was asked
of it, and the object refers to itself as long as it is in use (`own_life`).
-/

namespace NodeCompat.Net

open List

open Socket

variable {isIP : Bytes → Nat}

/-! ## The condition -/

namespace SocketConfig

/-- A frame that an exception may take away: not the rest of `destroy`, and that of `connect` only when no `end()` waits for it. -/
def expendable (c : SocketConfig) : Work → Bool
  | .destroyRest _ => false
  | .afterConnect => !c.socket.connectingEnd
  | _ => true

/-- A `connect` goes through only when the call before is over; nothing is written behind an `end()` that is held back; and no
exception leaves `destroy`, or `connect` with such an `end()`. -/
def undisturbed (c : SocketConfig) : Label → Bool
  | .call (.write _) => !c.socket.connectingEnd
  | .throw => (c.works.tail.takeWhile (fun w => !w.isUser)).all c.expendable
  | l => c.composed l

theorem composed_of_undisturbed {c : SocketConfig} {l : Label} (h : c.undisturbed l = true) : c.composed l = true := by
  cases l with
  | tick created => exact h
  | _ => rfl

end SocketConfig

/-! ## Steps -/

namespace Life

theorem unwind {c : SocketConfig} {ws : List Work} (h : Life c.socket ws)
    (hcond : (ws.takeWhile (fun w => !w.isUser)).all c.expendable = true) : Life c.socket (unwind ws) := by
  have hsub := unwind_sublist ws
  have hsplit : ∀ w ∈ ws, c.expendable w = true ∨ w ∈ Socket.unwind ws := by
    intro w hw
    rw [← takeWhile_append_dropWhile (p := fun w : Work => !w.isUser) (l := ws), mem_append] at hw
    exact hw.imp (List.all_eq_true.1 hcond w) id
  refine ⟨h.kept, h.closes, h.closed, ?_, h.held, h.handed, h.gone, ?_, fun hmem => h.connected (hsub.subset hmem),
    Nat.le_trans hsub.countP_le h.loops, h.asked, h.distinct, h.past⟩
  · intro hd
    obtain he | ht | hmem := h.due hd
    · exact .inl he
    · exact .inr (.inl ht)
    · exact .inr (.inr ((hsplit _ hmem).resolve_left (by simp [SocketConfig.expendable])))
  · intro he hd
    obtain hc | hmem := h.pending he hd
    · exact .inl hc
    · exact .inr ((hsplit _ hmem).resolve_left (by simp [SocketConfig.expendable, he]))

theorem step {c c' : SocketConfig} {l : SocketConfig.Label} (h : Life c.socket c.works) (ho : Orderly isIP c.socket c.works)
    (hcond : c.undisturbed l = true) (hstep : c.step isIP l = some c') : Life c'.socket c'.works := by
  cases l with
  | tick created =>
    simp only [SocketConfig.step] at hstep
    split at hstep
    · cases hstep
    · next w ws hw =>
      split at hstep
      · cases hstep
      · cases hstep
        rw [hw] at h ho
        refine h.tick created ho ?_
        rintro o rfl
        obtain ⟨-, hnative, hclosed, -⟩ := SocketConfig.composed_reset (SocketConfig.composed_of_undisturbed hcond) hw
        exact ⟨hnative, hclosed⟩
  | call k =>
    simp only [SocketConfig.step] at hstep
    split at hstep
    · cases hstep
      refine h.callMethod ho.raced ?_
      rintro data rfl; simpa [SocketConfig.undisturbed] using hcond
    · cases hstep
  | answer index a =>
    simp only [SocketConfig.step] at hstep
    split at hstep
    · split at hstep
      · cases hstep
      · next l hl =>
        cases hstep
        have herased : Life { c.socket with lookups := c.socket.lookups.eraseIdx index } c.works :=
          h.same ⟨rfl, rfl, rfl, rfl, rfl, rfl, rfl, rfl, rfl, rfl, rfl, fun _ => rfl, fun _ hmem => hmem⟩
        dsimp only [SocketConfig.proceed]
        split
        · exact herased.onLookupAll l.call l.generation a
        · exact herased.onLookupOne l.call l.generation a
    · cases hstep
  | ret =>
    simp only [SocketConfig.step] at hstep
    split at hstep
    · cases hstep
    · next w ws hw =>
      split at hstep
      · next huser =>
        cases hstep
        rw [hw] at h
        refine h.pop ?_ ?_
        · rintro call rfl; cases huser
        · rintro rfl; cases huser
      · cases hstep
  | throw =>
    simp only [SocketConfig.step] at hstep
    split at hstep
    · cases hstep
    · next w ws hw =>
      split at hstep
      · next huser =>
        cases hstep
        rw [hw] at h
        simp only [SocketConfig.undisturbed, hw, tail_cons] at hcond
        refine (h.pop ?_ ?_).unwind hcond
        · rintro call rfl; cases huser
        · rintro rfl; cases huser
      · cases hstep
  | microtask index =>
    simp only [SocketConfig.step] at hstep
    split at hstep
    · next m hw hm =>
      cases hstep; rw [hw] at h ho; exact h.runMicrotask ho hm
    · cases hstep
  | timer =>
    simp only [SocketConfig.step] at hstep
    split at hstep
    · next g a hw ht =>
      cases hstep; rw [hw] at h; exact h.onTimer g a
    · cases hstep
  | event i e =>
    simp only [SocketConfig.step] at hstep
    split at hstep
    · cases hstep; exact h.native rfl
    · cases hstep
  | notify i =>
    simp only [SocketConfig.step] at hstep
    split at hstep
    · next hw =>
      split at hstep
      · cases hstep
        rw [hw] at h
        refine h.loop rfl ?_
        split <;> simp
      · cases hstep
    · cases hstep

theorem init : Life {} [] := by
  constructor <;> simp [Socket.busy, Socket.winners, Socket.pendingEnd]

end Life

/-! ## What a life is to be -/

/-- The lives of the calls of a socket: a call that has ended gets `close` once, also the current one, whose `close` may still be
on its way; the handle of a call got what was asked of the call, in order, and no other handle got anything, but for an `end()`
that waits for `connect` to be emitted or that the end of the call overtook; and the socket refers to itself. -/
structure OwnLife (c : SocketConfig) : Prop where
  self : c.socket.busy = true → c.socket.self = true
  past : ∀ r ∈ c.socket.past, r.closes = if r.ended then 1 else 0
  once : c.socket.now.closes ≤ 1 ∧ (c.socket.now.closes = 1 → c.socket.now.ended = true)
  due : c.socket.now.ended = true → c.socket.now.closes = 1 ∨
    Microtask.emitClose c.socket.call ∈ c.socket.microtasks ∨ Work.destroyRest c.socket.call ∈ c.works
  handed : ∀ r ∈ c.socket.past ++ [c.socket.now], ∀ h, r.winner = some h → r.requested = (c.socket.handle h).ops ∨
      r.requested = (c.socket.handle h).ops ++ [.ending] ∧ (r.ended = true ∨ Work.afterConnect ∈ c.works)
  others : ∀ h, (c.socket.handle h).ops ≠ [] → ∃ r ∈ c.socket.past ++ [c.socket.now], r.winner = some h
  distinct : ((c.socket.past ++ [c.socket.now]).filterMap CallRecord.winner).Nodup

theorem winners_eq (s : Socket) : s.winners = (s.past ++ [s.now]).filterMap CallRecord.winner := by
  rw [filterMap_append, Socket.winners]
  cases hw : s.now.winner <;> simp [hw]

theorem Life.handed_now {s : Socket} {ws : List Work} (h : Life s ws) (hr : Raced isIP s.toRace) {i : Nat}
    (hw : s.now.winner = some i) : s.now.requested = (s.handle i).ops ∨
      s.now.requested = (s.handle i).ops ++ [.ending] ∧ (s.now.ended = true ∨ Work.afterConnect ∈ ws) := by
  have hid : s.nativeId = i := by
    have hwon := hr.won; rw [hw] at hwon; exact hwon
  have hne : s.nativeId ≠ 0 := hid ▸ (hr.now.winner i hw).1
  rw [← hid]
  cases hd : s.destroyed with
  | true =>
    obtain hall | hlost := h.gone hne hd
    · exact .inl hall
    · exact .inr ⟨hlost, .inl (hr.ended.trans hd)⟩
  | false =>
    have hhanded := h.handed hne hd
    rw [Socket.pendingEnd] at hhanded
    split at hhanded
    · next he =>
      have hc : s.connecting = false := by
        by_contra hc
        exact hne (hr.idle (by simpa using hc)).1
      exact .inr ⟨hhanded, .inr ((h.pending he hd).resolve_left (by simp [hc]))⟩
    · exact .inl (hhanded.trans (append_nil _))

theorem Life.ownLife {c : SocketConfig} (h : Life c.socket c.works) (hr : Raced isIP c.socket.toRace) : OwnLife c := by
  have hcloses := h.closes
  refine ⟨h.kept, fun r hr' => (h.past r hr').closes, ⟨?_, ?_⟩, ?_, ?_, ?_, ?_⟩
  · rw [hcloses]
    split <;> omega
  · intro hone
    rw [hcloses] at hone
    split at hone
    · next he => exact hr.ended.trans (h.closed he)
    · cases hone
  · intro hended
    obtain he | hrest := h.due (hr.ended.symm.trans hended)
    · exact .inl (by simp [hcloses, he])
    · exact .inr hrest
  · intro r hmem i hw
    obtain hmem | hmem := mem_append.1 hmem
    · obtain ⟨hended, hhanded⟩ := (h.past r hmem).handed i hw; exact hhanded.imp id (fun hlost => ⟨hlost, .inl hended⟩)
    · rw [mem_singleton] at hmem; subst hmem; exact h.handed_now hr hw
  · intro i hi
    have hmem := h.asked i hi; rw [winners_eq, mem_filterMap] at hmem; exact hmem
  · rw [← winners_eq]; exact h.distinct

/-- **Each call of a socket has its own life, and a server refers to itself from `listen` to its `close`.** -/
theorem own_life (isIP : Bytes → Nat) :
    (∀ labels c, Run (SocketConfig.step isIP) (fun c l => c.undisturbed l = true) {} labels c → OwnLife c) ∧
      ∀ labels c, Run ServerConfig.step (fun c l => c.composed l = true) {} labels c → ServerLife c := by
  constructor
  · intro labels c hrun
    have hboth : Orderly isIP c.socket c.works ∧ Life c.socket c.works :=
      hrun.invariant (I := fun c => Orderly isIP c.socket c.works ∧ Life c.socket c.works)
        (fun c l c' hok hcond hstep => ⟨hok.1.step (SocketConfig.composed_of_undisturbed hcond) hstep,
          hok.2.step hok.1 hcond hstep⟩) ⟨Orderly.init, Life.init⟩
    exact hboth.2.ownLife hboth.1.raced
  · intro labels c hrun; exact (ServerKept.run hrun).life

/-- A call that is written to and ended while it connects, closed by the peer, and followed by another. -/
def lifeLabels : List SocketConfig.Label :=
  [.call (.connect { host := text "127.0.0.1", port := 80 }), .tick .handle, .call (.write (text "hello")), .call .endWrites,
    .microtask 0, .ret, .tick .handle, .event 1 .connect, .notify 1, .tick .handle, .ret, .tick .handle, .tick .handle,
    .event 1 .close, .notify 1, .tick .handle, .ret, .tick .handle, .tick .handle,
    .call (.connect { host := text "127.0.0.1", port := 80 }), .tick .handle]

/-- A server that listens, is closed, and listens again. -/
def serverLabels : List ServerConfig.Label :=
  [.listen 80 false, .tick true, .close false, .tick true, .event 1 .close, .notify, .tick true, .ret, .tick true, .tick true,
    .listen 80 false, .tick true]

theorem own_life_twice : ∃ c d, OwnLife c ∧ ServerLife d ∧ c.socket.connecting = true ∧ c.socket.self = true ∧
    c.socket.past.map CallRecord.closes = [0, 1] ∧ (c.socket.handle 1).ops = [.write (text "hello"), .ending] ∧
    d.server.nativeId = 2 ∧ d.server.self = true := by
  have hsocket : (runs (fun (c : SocketConfig) l => if c.undisturbed l then c.step loopbackIP l else none) {} lifeLabels).any
      (fun c => c.socket.connecting = true ∧ c.socket.self = true ∧ c.socket.past.map CallRecord.closes = [0, 1] ∧
        (c.socket.handle 1).ops = [.write (text "hello"), .ending]) = true := by
    decide +kernel
  have hserver : (runs (fun (c : ServerConfig) l => if c.composed l then c.step l else none) {} serverLabels).any
      (fun d => d.server.nativeId = 2 ∧ d.server.self = true) = true := by
    decide +kernel
  obtain ⟨c, hruns, hc⟩ := (Option.any_eq_true _ _).1 hsocket
  obtain ⟨d, hruns', hd⟩ := (Option.any_eq_true _ _).1 hserver
  simp only [decide_eq_true_eq] at hc hd
  obtain ⟨hconnecting, hself, hcloses, hops⟩ := hc
  exact ⟨c, d, (own_life loopbackIP).1 _ c (Run.of_guarded _ hruns), (own_life loopbackIP).2 _ d (Run.of_guarded _ hruns'),
    hconnecting, hself, hcloses, hops, hd⟩

/-- The `close` of a destroyed call is emitted for the call after it, and takes its reference away while it connects; the
destroyed call gets none. -/
theorem close_taken_over : ∃ labels c, Run (SocketConfig.step loopbackIP) (fun _ _ => True) {} labels c ∧
    c.socket.connecting = true ∧ c.socket.self = false ∧ (∃ r ∈ c.socket.past, r.ended = true ∧ r.closes = 0) ∧ ¬ OwnLife c := by
  have hany : (runs (SocketConfig.step loopbackIP) {} [.call (.connect { host := text "127.0.0.1", port := 80 }), .tick .handle,
      .call (.destroy none), .call (.connect { host := text "127.0.0.1", port := 80 }), .tick .handle, .microtask 1, .ret,
      .tick .handle]).any
      (fun c => c.socket.connecting = true ∧ c.socket.self = false ∧
        c.socket.past.any (fun r => r.ended && r.closes = 0)) = true := by
    decide +kernel
  obtain ⟨c, hruns, hc⟩ := (Option.any_eq_true _ _).1 hany
  simp only [decide_eq_true_eq] at hc
  obtain ⟨hconnecting, hself, hpast⟩ := hc
  obtain ⟨r, hr, hclosed⟩ := List.any_eq_true.1 hpast
  simp only [Bool.and_eq_true, decide_eq_true_eq] at hclosed
  refine ⟨_, c, Run.of_runs hruns, hconnecting, hself, ⟨r, hr, hclosed⟩, ?_⟩
  intro hlife
  have hkept := hlife.self (by simp [Socket.busy, hconnecting]); simp [hself] at hkept

end NodeCompat.Net
