import Mathlib.Data.List.Nodup
import NodeCompat.Http.Stack

/-!
# The handler gate

`Gated`, over every run: a registered connection is in `gate.deferred` once if it is parked and not at all otherwise;
the drain takes parked requests in the order they were parked and dispatches each, unless its connection has been
destroyed; and nothing is parked when no dispatch is on the stack (`gate_discipline`).
-/

namespace NodeCompat.Http

open List

/-- What the drain has made of a parked request: it was dispatched, or its connection has left the registry. -/
def Resumed (sessions : Nat → Option Session) (p : Nat × Nat) (r : Nat × Option Nat) : Prop :=
  r = (p.1, some p.2) ∨ (r = (p.1, none) ∧ sessions p.1 = none)

namespace Machine

structure Gated (m : Machine) : Prop where
  quiet : m.gate.active = 0 → m.gate.draining = false → m.gate.deferred = []
  count : ∀ id s, m.sessions id = some s → m.gate.deferred.count id = if s.deferred then 1 else 0
  fresh : ∀ id, m.nextId ≤ id → m.sessions id = none
  old : ∀ p ∈ m.parks, p.1 < m.nextId
  nodup : m.parks.Nodup
  resumed : List.Forall₂ (Resumed m.sessions) (m.parks.take m.resumes.length) m.resumes
  pending : (m.parks.drop m.resumes.length).map Prod.fst = m.gate.deferred
  dispatched : ∀ p ∈ m.parks.take m.resumes.length, ∀ s, m.sessions p.1 = some s → p.2 < s.calls.length
  waiting : ∀ p ∈ m.parks.drop m.resumes.length, ∀ s, m.sessions p.1 = some s → p.2 = s.calls.length

variable {m m' : Machine}

theorem set_none {id j : Nat} {s : Session} (hs : m.sessions id = some s) (s' : Session) (hj : m.sessions j = none) :
    (m.set id s').sessions j = none := by
  have hne : j ≠ id := by
    rintro rfl; rw [hs] at hj; cases hj
  rw [set_of_ne m s' hne, hj]

namespace Gated

variable {ids : List Nat} {id : Nat} {s : Session}

theorem set (h : m.Gated) (hs : m.sessions id = some s) (s' : Session)
    (hd : s'.deferred = s.deferred) (hc : s'.calls = s.calls) (stack : List Frame) : ({ m.set id s' with stack } : Machine).Gated := by
  refine ⟨h.quiet, ?_, fun j hj => set_none hs s' (h.fresh j hj), h.old, h.nodup, ?_, h.pending, ?_, ?_⟩
  · intro j t ht
    rcases sessions_set ht with ⟨rfl, rfl⟩ | ⟨-, ht⟩
    · rw [hd]; exact h.count j s hs
    · exact h.count j t ht
  · exact h.resumed.imp fun p r hr => hr.imp (fun e => e) (fun hr => ⟨hr.1, set_none hs s' hr.2⟩)
  · intro p hp t ht
    rcases sessions_set ht with ⟨hid, rfl⟩ | ⟨-, ht⟩
    · rw [hc]; exact h.dispatched p hp s (hid ▸ hs)
    · exact h.dispatched p hp t ht
  · intro p hp t ht
    rcases sessions_set ht with ⟨hid, rfl⟩ | ⟨-, ht⟩
    · rw [hc]; exact h.waiting p hp s (hid ▸ hs)
    · exact h.waiting p hp t ht

theorem regate (h : m.Gated) {stack : List Frame} {gate : Gate} (hd : gate.deferred = m.gate.deferred)
    (hq : gate.active = 0 → gate.draining = false → gate.deferred = []) : ({ m with stack, gate } : Machine).Gated :=
  ⟨hq, fun id s hs => by
      rw [hd]
      exact h.count id s hs,
    h.fresh, h.old, h.nodup, h.resumed, h.pending.trans hd.symm, h.dispatched, h.waiting⟩

theorem not_pending (h : m.Gated) (hs : m.sessions id = some s) (hd : s.deferred = false)
    {p : Nat × Nat} (hp : p ∈ m.parks.drop m.resumes.length) : p.1 ≠ id := by
  rintro rfl
  have hc := h.count _ s hs
  rw [hd, if_neg (by decide), count_eq_zero] at hc; exact hc (h.pending ▸ mem_map_of_mem hp)

theorem call (h : m.Gated) {id : Nat} {s : Session} (hs : m.sessions id = some s) (s' : Session) (hd : s.deferred = false)
    (hd' : s'.deferred = false) (hc : s.calls.length ≤ s'.calls.length) (stack : List Frame) :
    ({ m.set id s' with gate := { m.gate with active := m.gate.active + 1 }, stack } : Machine).Gated := by
  refine ⟨fun ha => absurd ha (Nat.succ_ne_zero _), ?_, fun j hj => set_none hs s' (h.fresh j hj), h.old, h.nodup, ?_, h.pending,
    ?_, ?_⟩
  · intro j t ht
    rcases sessions_set ht with ⟨rfl, rfl⟩ | ⟨-, ht⟩
    · rw [hd', ← hd]; exact h.count j s hs
    · exact h.count j t ht
  · exact h.resumed.imp fun p r hr => hr.imp (fun e => e) (fun hr => ⟨hr.1, set_none hs s' hr.2⟩)
  · intro p hp t ht
    rcases sessions_set ht with ⟨hid, rfl⟩ | ⟨-, ht⟩
    · exact lt_of_lt_of_le (h.dispatched p hp s (hid ▸ hs)) hc
    · exact h.dispatched p hp t ht
  · intro p hp t ht
    rcases sessions_set ht with ⟨hid, -⟩ | ⟨-, ht⟩
    · exact absurd hid (h.not_pending hs hd hp)
    · exact h.waiting p hp t ht

theorem resumes_le (h : m.Gated) : m.resumes.length ≤ m.parks.length := by
  have := h.resumed.length_eq; rw [length_take] at this; omega

theorem park (h : m.Gated) {id : Nat} {s s' : Session} (hs : m.sessions id = some s) (hd : s.deferred = false)
    (hd' : s'.deferred = true) (hc : s'.calls = s.calls) (ha : 0 < m.gate.active) :
    ({ m.set id s' with
        gate := { m.gate with deferred := m.gate.deferred ++ [id] }
        parks := m.parks ++ [(id, s'.calls.length)] } : Machine).Gated := by
  have hle := h.resumes_le
  have htake : (m.parks ++ [(id, s'.calls.length)]).take m.resumes.length = m.parks.take m.resumes.length :=
    take_append_of_le_length hle
  have hdrop : (m.parks ++ [(id, s'.calls.length)]).drop m.resumes.length =
      m.parks.drop m.resumes.length ++ [(id, s'.calls.length)] := drop_append_of_le_length hle
  have hid : id < m.nextId := by
    by_contra hn
    have := h.fresh id (Nat.le_of_not_lt hn); rw [hs] at this; cases this
  -- the parked request is new: earlier ones of the connection have been dispatched
  have hnew : (id, s'.calls.length) ∉ m.parks := by
    intro hm
    rw [← take_append_drop m.resumes.length m.parks, mem_append] at hm
    rcases hm with hm | hm
    · have := h.dispatched _ hm s hs; rw [hc] at this; exact Nat.lt_irrefl _ this
    · exact h.not_pending hs hd hm rfl
  refine ⟨fun h0 => absurd h0 (Nat.pos_iff_ne_zero.1 ha), ?_, ?_, ?_, ?_, ?_, ?_, ?_, ?_⟩
  · intro j t ht
    rw [count_append]
    rcases sessions_set ht with ⟨rfl, rfl⟩ | ⟨hne, ht⟩
    · have := h.count _ s hs; rw [hd] at this; rw [this, hd']; simp
    · rw [h.count j t ht, count_singleton]; simp [Ne.symm hne]
  · exact fun j hj => set_none hs s' (h.fresh j hj)
  · intro p hp
    rcases mem_append.1 hp with hp | hp
    · exact h.old p hp
    · rw [mem_singleton.1 hp]; exact hid
  · exact nodup_append.2 ⟨h.nodup, nodup_singleton _, fun a ha b hb e =>
      hnew ((mem_singleton.1 hb) ▸ e ▸ ha)⟩
  · show List.Forall₂ _ ((m.parks ++ [(id, s'.calls.length)]).take m.resumes.length) m.resumes
    rw [htake]
    exact h.resumed.imp fun p r hr => hr.imp (fun e => e) (fun hr => ⟨hr.1, set_none hs s' hr.2⟩)
  · show ((m.parks ++ [(id, s'.calls.length)]).drop m.resumes.length).map Prod.fst = m.gate.deferred ++ [id]
    rw [hdrop, map_append, h.pending]; rfl
  · show ∀ p ∈ (m.parks ++ [(id, s'.calls.length)]).take m.resumes.length, _
    rw [htake]
    intro p hp t ht
    rcases sessions_set ht with ⟨he, rfl⟩ | ⟨-, ht⟩
    · rw [hc]; exact h.dispatched p hp s (he ▸ hs)
    · exact h.dispatched p hp t ht
  · show ∀ p ∈ (m.parks ++ [(id, s'.calls.length)]).drop m.resumes.length, _
    rw [hdrop]
    intro p hp t ht
    rcases mem_append.1 hp with hp | hp
    · rcases sessions_set ht with ⟨he, -⟩ | ⟨-, ht⟩
      · exact absurd he (h.not_pending hs hd hp)
      · exact h.waiting p hp t ht
    · cases mem_singleton.1 hp
      rcases sessions_set ht with ⟨-, rfl⟩ | ⟨hne, -⟩
      · rfl
      · exact absurd rfl hne

theorem head (h : m.Gated) (hd : m.gate.deferred = id :: ids) : ∃ i,
    m.parks.drop m.resumes.length = (id, i) :: m.parks.drop (m.resumes.length + 1) ∧
      m.parks.take (m.resumes.length + 1) = m.parks.take m.resumes.length ++ [(id, i)] ∧
      (m.parks.drop (m.resumes.length + 1)).map Prod.fst = ids := by
  have hp := h.pending
  rw [hd] at hp
  cases hq : m.parks.drop m.resumes.length with
  | nil => rw [hq] at hp; cases hp
  | cons p ps =>
    rw [hq, map_cons] at hp
    obtain ⟨h₁, h₂⟩ := List.cons.inj hp
    have hdrop : m.parks.drop (m.resumes.length + 1) = ps := by rw [← drop_drop, hq]; rfl
    refine ⟨p.2, ?_, ?_, ?_⟩
    · rw [hdrop, ← h₁]
    · rw [take_add, hq, ← h₁]; rfl
    · rw [hdrop, h₂]

theorem gone (h : m.Gated) (hst : m.Stacked) {rest : List Frame}
    (hstack : m.stack = .drain :: rest) (hd : m.gate.deferred = id :: ids)
    (hn : ∀ s, m.sessions id = some s → s.deferred = false) :
    ({ m with gate := { m.gate with deferred := ids }, resumes := m.resumes ++ [(id, none)] } : Machine).Gated := by
  obtain ⟨i, h₁, h₂, h₃⟩ := h.head hd
  have hnone : m.sessions id = none := by
    cases hs : m.sessions id with
    | none => rfl
    | some s =>
      have := h.count id s hs; rw [hn s hs, hd, count_cons_self, if_neg (by decide)] at this; cases this
  have hlen : (m.resumes ++ [(id, (none : Option Nat))]).length = m.resumes.length + 1 := by simp
  refine ⟨?_, ?_, h.fresh, h.old, h.nodup, ?_, ?_, ?_, ?_⟩
  · intro _ hdr
    have hsh := hst.shape
    rw [hstack] at hsh
    have hdr' : m.gate.draining = false := hdr
    rw [hdr'] at hsh
    generalize m.gate.active = a at hsh
    cases hsh
  · intro j t ht
    have hne : j ≠ id := by
      rintro rfl; rw [hnone] at ht; cases ht
    have := h.count j t ht; rw [hd, count_cons_of_ne (Ne.symm hne)] at this; exact this
  · rw [hlen, h₂]; exact rel_append h.resumed (.cons (.inr ⟨rfl, hnone⟩) .nil)
  · rw [hlen, h₃]
  · rw [hlen, h₂]
    intro p hp t ht
    rcases mem_append.1 hp with hp | hp
    · exact h.dispatched p hp t ht
    · rw [mem_singleton.1 hp, hnone] at ht; cases ht
  · rw [hlen]
    intro p hp; exact h.waiting p (by rw [h₁]; exact mem_cons_of_mem _ hp)

theorem resume (h : m.Gated) {s' : Session} (hd : m.gate.deferred = id :: ids)
    (hs : m.sessions id = some s) (hdef : s.deferred = true) (hd' : s'.deferred = false)
    (hc : s'.calls.length = s.calls.length + 1) (stack : List Frame) :
    ({ m.set id s' with
        gate := { m.gate with deferred := ids, active := m.gate.active + 1 }
        stack
        resumes := m.resumes ++ [(id, some s.calls.length)] } : Machine).Gated := by
  obtain ⟨i, h₁, h₂, h₃⟩ := h.head hd
  have hi : i = s.calls.length := h.waiting (id, i) (by rw [h₁]; exact mem_cons_self) s hs
  have hlen : (m.resumes ++ [(id, some s.calls.length)]).length = m.resumes.length + 1 := by simp
  have hcount : ids.count id = 0 := by
    have := h.count id s hs; rw [hdef, hd, count_cons_self, if_pos rfl] at this; omega
  have hpend : ∀ p ∈ m.parks.drop (m.resumes.length + 1), p.1 ≠ id := by
    rintro p hp rfl; exact count_eq_zero.1 hcount (h₃ ▸ mem_map_of_mem hp)
  refine ⟨fun ha => absurd ha (Nat.succ_ne_zero _), ?_, fun j hj => set_none hs s' (h.fresh j hj), h.old, h.nodup, ?_, ?_,
    ?_, ?_⟩
  · intro j t ht
    rcases sessions_set ht with ⟨rfl, rfl⟩ | ⟨hne, ht⟩
    · rw [hcount, hd']; rfl
    · have := h.count j t ht; rwa [hd, count_cons_of_ne (Ne.symm hne)] at this
  · show List.Forall₂ _ (m.parks.take (m.resumes ++ [(id, some s.calls.length)]).length) _
    rw [hlen, h₂]
    refine rel_append ?_ (.cons (.inl (by rw [hi])) .nil)
    exact h.resumed.imp fun p r hr => hr.imp (fun e => e) (fun hr => ⟨hr.1, set_none hs s' hr.2⟩)
  · show (m.parks.drop (m.resumes ++ [(id, some s.calls.length)]).length).map Prod.fst = ids; rw [hlen, h₃]
  · show ∀ p ∈ m.parks.take (m.resumes ++ [(id, some s.calls.length)]).length, _
    rw [hlen, h₂]
    intro p hp t ht
    rcases mem_append.1 hp with hp | hp
    · rcases sessions_set ht with ⟨he, rfl⟩ | ⟨-, ht⟩
      · have := h.dispatched p hp s (he ▸ hs); omega
      · exact h.dispatched p hp t ht
    · cases mem_singleton.1 hp
      rcases sessions_set ht with ⟨-, rfl⟩ | ⟨hne, -⟩
      · rw [hc, hi]; exact Nat.lt_succ_self _
      · exact absurd rfl hne
  · show ∀ p ∈ m.parks.drop (m.resumes ++ [(id, some s.calls.length)]).length, _
    rw [hlen]
    intro p hp t ht
    rcases sessions_set ht with ⟨he, -⟩ | ⟨-, ht⟩
    · exact absurd he (hpend p hp)
    · exact h.waiting p (by rw [h₁]; exact mem_cons_of_mem _ hp) t ht

theorem resumed_of_mem (h : m.Gated) {sessions : Nat → Option Session}
    (hn : ∀ p ∈ m.parks, m.sessions p.1 = none → sessions p.1 = none) :
    List.Forall₂ (Resumed sessions) (m.parks.take m.resumes.length) m.resumes := by
  have hmem : ∀ p ∈ m.parks.take m.resumes.length, m.sessions p.1 = none → sessions p.1 = none :=
    fun p hp => hn p (mem_of_mem_take hp)
  have hres := h.resumed
  generalize m.parks.take m.resumes.length = ps at hmem hres ⊢
  generalize m.resumes = rs at hres ⊢
  induction hres with
  | nil => exact .nil
  | cons hr _ ih =>
    refine .cons (hr.imp (fun e => e) (fun hr => ⟨hr.1, hmem _ mem_cons_self hr.2⟩)) (ih ?_)
    exact fun p hp => hmem p (mem_cons_of_mem _ hp)

/-- **Every step keeps the gate in order.** -/
theorem step (h : m.Gated) (hst : m.Stacked) {l : Label} (hm : Moves m l m') : m'.Gated := by
  cases hm with
  | @stop id was rest s s' hs₁ hs hp =>
    obtain ⟨h₁, -, h₂, h₃⟩ := (hst.valid id s hs).stop hp
    obtain ⟨closed, heq⟩ := Session.flush_frame { s'.toConn with processing := was }
    refine h.set hs (s'.endPass was) ?_ ?_ rest
    · exact (h₁.endPass was).2.2.trans h₂
    · unfold Session.endPass; rw [heq]; exact h₃
  | @more id was rest s s' hs₁ hs hp =>
    obtain ⟨-, -, p, b, out, -, heq⟩ := Session.parse_more hp; exact h.set hs s' (by rw [heq]; rfl) (by rw [heq]; rfl) m.stack
  | @call id was rest s s' hs₁ hs hp ha =>
    obtain ⟨hb, -, p, b, out, -, heq⟩ := Session.parse_request hp
    have hd := ((hst.valid id s hs).idle hb).1
    exact h.call hs s'.call hd (by rw [heq]; exact hd) (by simp [heq, Session.call, Conn.call, Session.log]) _
  | @park id was rest s s' hs₁ hs hp ha =>
    obtain ⟨-, -, hd, hc⟩ := (hst.valid id s hs).request_park hp; exact h.park hs hd rfl hc ha
  | enter hs₁ => exact Gated.regate h rfl h.quiet
  | drained hs₁ hd =>
    refine h.regate rfl (fun ha _ => ?_)
    exact hd.resolve_right (fun hn => hn ha)
  | gone hs₁ hd ha hn => exact h.gone hst hs₁ hd hn
  | resume hs₁ hd ha hs hdef =>
    exact h.resume hd hs hdef rfl (by simp [Session.call, Conn.call, Session.resume]) _
  | @ret id rest s throws hs₁ hs hc =>
    have h₁ := h.set hs (s.returned throws) (s.returned_deferred throws) (s.returned_calls throws) m.stack
    exact h₁.regate rfl (fun ha hdr => absurd ⟨ha, hdr⟩ hc)
  | @retDrain id rest s throws hs₁ hs ha hdr =>
    have h₁ := h.set hs (s.returned throws) (s.returned_deferred throws) (s.returned_calls throws) m.stack
    exact h₁.regate rfl (fun _ hdr => by cases hdr)
  | @accept recvs sends hs₁ =>
    have hold : ∀ p ∈ m.parks, ∀ t : Session, (m.set m.nextId (.accept recvs sends)).sessions p.1 = some t →
        m.sessions p.1 = some t := by
      intro p hp t ht
      rcases sessions_set ht with ⟨he, -⟩ | ⟨-, ht⟩
      · exact absurd (h.old p hp) (by rw [he]; exact Nat.lt_irrefl _)
      · exact ht
    have hnone : ∀ p ∈ m.parks, m.sessions p.1 = none → (m.set m.nextId (.accept recvs sends)).sessions p.1 = none := by
      intro p hp hn; rw [set_of_ne m _ (Nat.ne_of_lt (h.old p hp)), hn]
    refine ⟨h.quiet, ?_, ?_, fun p hp => Nat.lt_succ_of_lt (h.old p hp), h.nodup, ?_, h.pending, ?_, ?_⟩
    · intro j t ht
      rcases sessions_set ht with ⟨rfl, rfl⟩ | ⟨-, ht⟩
      · refine count_eq_zero.2 (fun hm => ?_)
        obtain ⟨p, hp, he⟩ := mem_map.1 (h.pending.symm ▸ hm : m.nextId ∈ _)
        exact absurd (h.old p (mem_of_mem_drop hp)) (by rw [he]; exact Nat.lt_irrefl _)
      · exact h.count j t ht
    · intro j hj
      have hj' : m.nextId + 1 ≤ j := hj
      exact (set_of_ne m _ (by omega)).trans (h.fresh j (by omega))
    · exact Gated.resumed_of_mem h fun p hp hn => hnone p hp hn
    · exact fun p hp t ht => h.dispatched p hp t (hold p (mem_of_mem_take hp) t ht)
    · exact fun p hp t ht => h.waiting p hp t (hold p (mem_of_mem_drop hp) t ht)
  | @ready id e s hs₁ hs hc hg =>
    obtain ⟨out, closed, peerClosed, processing, d, recvs, heq, -, -⟩ := s.startReady_frame e
    exact h.set hs (s.startReady e).1 (by rw [heq]) (by rw [heq]) m.stack
  | @readyPass id e s hs₁ hs hc hg =>
    obtain ⟨out, closed, peerClosed, processing, d, recvs, heq, -, -⟩ := s.startReady_frame e
    exact h.set hs (s.startReady e).1 (by rw [heq]) (by rw [heq]) _
  | @out id i op s hsc hs hi =>
    obtain ⟨closed, heq⟩ := s.output_frame i op; exact h.set hs (s.output i op) (by rw [heq]; rfl) (by rw [heq]; rfl) m.stack
  | @doneInside id i keepAlive s hsc hs hi hn hp => exact h.set hs (s.complete i keepAlive) rfl rfl m.stack
  | @donePass id i keepAlive s hsc hs hi hn hp =>
    exact h.set hs { s.complete i keepAlive with processing := true } rfl rfl _
  | @destroy id s hsc hs => exact h.set hs s.hardDestroy rfl rfl m.stack
  | absent l => exact h
  | @leave id s hs hc hf =>
    have hsub : ∀ {j : Nat} {t : Session}, (if j = id then none else m.sessions j) = some t → m.sessions j = some t := by
      intro j t ht
      split at ht
      · cases ht
      · exact ht
    have hnone : ∀ j, m.sessions j = none → (if j = id then none else m.sessions j) = none := by
      intro j hj
      rw [hj]
      split <;> rfl
    exact ⟨h.quiet, fun j t ht => h.count j t (hsub ht), fun j hj => hnone j (h.fresh j hj), h.old, h.nodup,
      h.resumed.imp fun p r hr => hr.imp (fun e => e) (fun hr => ⟨hr.1, hnone _ hr.2⟩), h.pending,
      fun p hp t ht => h.dispatched p hp t (hsub ht), fun p hp t ht => h.waiting p hp t (hsub ht)⟩

end Gated

/-! ## Runs -/

theorem stacked_init : ({} : Machine).Stacked where
  shape := .idle
  nodup := nodup_nil
  owned := by rintro id ⟨⟩
  processing := by rintro id s ⟨⟩
  under := by rintro id s ⟨⟩
  running := by rintro id s ⟨⟩
  valid := by rintro id s ⟨⟩

theorem gated_init : ({} : Machine).Gated where
  quiet _ _ := rfl
  count := by rintro id s ⟨⟩
  fresh _ _ := rfl
  old := by rintro p ⟨⟩
  nodup := nodup_nil
  resumed := .nil
  pending := rfl
  dispatched := by rintro p ⟨⟩
  waiting := by rintro p ⟨⟩

variable {P : Machine → Label → Prop} {ls : List Label}

theorem reachable (h : Run Machine.step P {} ls m) : m.Stacked ∧ m.Gated :=
  h.invariant (I := fun m => m.Stacked ∧ m.Gated)
    (fun _ _ _ hi _ hst => ⟨hi.1.step (step_moves hst), hi.2.step hi.1 (step_moves hst)⟩) ⟨stacked_init, gated_init⟩

end Machine

def Frame.isHandler : Frame → Bool
  | handler _ => true
  | _ => false

/-- A frame of `dispatchCurrent` or `dispatchDeferred`: a handler, a parked request, or the drain. -/
def Frame.isDispatch : Frame → Bool
  | pass _ _ => false
  | _ => true

namespace Shape

variable {st : List Frame} {a : Nat} {dr : Bool}

theorem active_eq (h : Shape st a dr) : a = st.countP Frame.isHandler := by
  have key : ∀ {st d dr}, Below st d dr → st.countP Frame.isHandler = 0 := by
    intro st d dr hb
    cases hb <;> rfl
  cases h with
  | calling hb => rw [countP_cons, key hb]; rfl
  | inside e hb => rw [countP_cons, countP_cons, key hb]; rfl
  | idle | pass c | draining c | resuming c d | again c d => rfl

theorem quiet (h : Shape st a dr) (hq : ∀ f ∈ st, f.isDispatch = false) : a = 0 ∧ dr = false := by
  cases h with
  | idle | pass c => exact ⟨rfl, rfl⟩
  | calling hb | draining c | resuming c d => cases hq _ mem_cons_self
  | inside e hb | again c d => cases hq _ (mem_cons_of_mem _ mem_cons_self)

end Shape

/-- **The handler gate.** In every state of every run: at most one handler frame is on the stack, and `gate.active` counts
them; a registered connection is in `gate.deferred` once if it is parked and not at all otherwise; no request is parked
twice, the drain has taken parked requests in the order they were parked and has dispatched each of them unless its
connection had left the registry, and the others are queued in that order; a parked request of a registered connection has
been called exactly if the drain has taken it; and with no dispatch on the stack the gate is as it was in the beginning. -/
theorem gate_discipline {ls : List Label} {m : Machine} (h : Run Machine.step (fun _ _ => True) {} ls m) :
    (m.gate.active ≤ 1 ∧ m.gate.active = m.stack.countP Frame.isHandler) ∧
    (∀ id s, m.sessions id = some s → m.gate.deferred.count id = if s.deferred then 1 else 0) ∧
    (m.parks.Nodup ∧ List.Forall₂ (Resumed m.sessions) (m.parks.take m.resumes.length) m.resumes ∧
      (m.parks.drop m.resumes.length).map Prod.fst = m.gate.deferred) ∧
    (∀ id i s, m.sessions id = some s → (id, i) ∈ m.parks →
      (i < s.calls.length ↔ (id, i) ∈ m.parks.take m.resumes.length)) ∧
    ((∀ f ∈ m.stack, f.isDispatch = false) → m.gate = {}) := by
  obtain ⟨hst, hg⟩ := Machine.reachable h
  refine ⟨⟨hst.shape.active_le, hst.shape.active_eq⟩, hg.count, ⟨hg.nodup, hg.resumed, hg.pending⟩, ?_, ?_⟩
  · intro id i s hs hp
    refine ⟨fun hi => ?_, fun ht => hg.dispatched _ ht s hs⟩
    rw [← take_append_drop m.resumes.length m.parks, mem_append] at hp
    rcases hp with hp | hp
    · exact hp
    · have := hg.waiting _ hp s hs; simp only at this; omega
  · intro hq
    obtain ⟨ha, hd⟩ := hst.shape.quiet hq
    have hdef := hg.quiet ha hd
    cases hgate : m.gate with
    | mk active draining deferred =>
      rw [hgate] at ha hd hdef; simp only at ha hd hdef; rw [ha, hd, hdef]

/-- Two pipelined requests on connection 0; the handler of connection 1 completes the first of them, which parks the
second, and returns. -/
def parkingRun : List Label :=
  [.accept [.data (text "GET /a HTTP/1.1\r\n\r\nGET /b HTTP/1.1\r\n\r\n") (by decide) (by decide)] [],
    .ready 0 { pollin := true }, .tau, .ret false, .tau, .tau,
    .accept [.data (text "GET /c HTTP/1.1\r\n\r\n") (by decide) (by decide)] [],
    .ready 1 { pollin := true }, .tau, .done 0 0 true, .tau, .tau, .ret false, .tau]

/-- The parked request is dispatched by the drain when the handler has returned. -/
theorem gate_discipline_parked : ∃ m, Run Machine.step (fun _ _ => True) {} parkingRun m ∧ m.parks = [(0, 1)] ∧
    m.resumes = [(0, some 1)] ∧ m.stack = [.handler 0, .parked 0 false, .drain, .pass 1 false] ∧ m.gate.active ≤ 1 := by
  have h : (runs Machine.step {} parkingRun).map (fun m => (m.parks, m.resumes, m.stack)) =
      some ([(0, 1)], [(0, some 1)], [.handler 0, .parked 0 false, .drain, .pass 1 false]) := by
    decide +kernel
  obtain ⟨m, hm, heq⟩ := Option.map_eq_some_iff.1 h
  obtain ⟨h₁, h₂, h₃⟩ := Prod.mk.inj heq |>.imp id (fun h => Prod.mk.inj h)
  exact ⟨m, .of_runs hm, h₁, h₂, h₃, (gate_discipline (.of_runs hm)).1.1⟩

end NodeCompat.Http
