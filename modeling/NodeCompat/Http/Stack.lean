import NodeCompat.Http.Session

/-!
# The stack of the machine

In every run the stack has one of a few shapes (`Shape`): at most one handler is on it, below it the pass that called it
or the drain that resumed it, and on top of it at most one pass of another connection. `Stacked` says so, and that
`processing_` tells which connections have a pass on the stack; a parked connection is never below the top.
-/

namespace NodeCompat.Http

open List

/-! ## Shapes of the stack -/

/-- The connection whose pass or parked request a frame is. -/
def Frame.owner? : Frame → Option Nat
  | pass id _ => some id
  | parked id _ => some id
  | _ => none

/-- The connections with a pass or a parked request on the stack. -/
def owners (st : List Frame) : List Nat := st.filterMap Frame.owner?

@[simp] theorem owners_nil : owners [] = [] := rfl

@[simp] theorem owners_handler (id : Nat) (st : List Frame) : owners (.handler id :: st) = owners st := rfl

@[simp] theorem owners_pass (id : Nat) (was : Bool) (st : List Frame) : owners (.pass id was :: st) = id :: owners st := rfl

@[simp] theorem owners_parked (id : Nat) (was : Bool) (st : List Frame) :
    owners (.parked id was :: st) = id :: owners st := rfl

@[simp] theorem owners_drain (st : List Frame) : owners (.drain :: st) = owners st := rfl

theorem mem_owners_of_tail {id : Nat} {st : List Frame} (h : id ∈ owners st.tail) : id ∈ owners st := by
  cases st with
  | nil => cases h
  | cons f fs =>
    obtain ⟨g, hg, hid⟩ := mem_filterMap.1 h; exact mem_filterMap.2 ⟨g, mem_cons_of_mem _ hg, hid⟩

/-- What is below a handler of a connection, and whether a drain is running. -/
inductive Below : List Frame → Nat → Bool → Prop
  | pass (c : Nat) : Below [.pass c false] c false
  | parked (c d : Nat) : Below [.parked d false, .drain, .pass c false] d true
  | again (c d : Nat) : Below [.pass d false, .drain, .pass c false] d true

/-- The stack, with `gate.active` and `gate.draining`. -/
inductive Shape : List Frame → Nat → Bool → Prop
  | idle : Shape [] 0 false
  | pass (c : Nat) : Shape [.pass c false] 0 false
  | calling {st d dr} : Below st d dr → Shape (.handler d :: st) 1 dr
  | inside {st d dr} (e : Nat) : Below st d dr → Shape (.pass e false :: .handler d :: st) 1 dr
  | draining (c : Nat) : Shape [.drain, .pass c false] 0 true
  | resuming (c d : Nat) : Shape [.parked d false, .drain, .pass c false] 0 true
  | again (c d : Nat) : Shape [.pass d false, .drain, .pass c false] 0 true

namespace Shape

variable {st : List Frame} {a : Nat} {dr : Bool}

theorem active_le (h : Shape st a dr) : a ≤ 1 := by
  cases h <;> omega

theorem pop {id : Nat} {was : Bool} (h : Shape (.pass id was :: st) a dr) : was = false ∧ Shape st a dr := by
  cases h with
  | pass c => exact ⟨rfl, .idle⟩
  | inside e hb => exact ⟨rfl, .calling hb⟩
  | again c d => exact ⟨rfl, .draining c⟩

theorem call {id : Nat} {was : Bool} (h : Shape (.pass id was :: st) 0 dr) :
    Shape (.handler id :: .pass id was :: st) 1 dr := by
  cases h with
  | pass => exact .calling (.pass id)
  | again c => exact .calling (.again c id)

theorem owner_of_handler {d : Nat} (h : Shape st a dr) (hd : .handler d ∈ st) : d ∈ owners st := by
  have key : ∀ {st d dr}, Below st d dr → d ∈ owners st ∧ ∀ e, .handler e ∉ st := by
    intro st d dr hb
    cases hb <;> simp
  cases h with
  | idle => cases hd
  | pass c | draining c | resuming c d | again c d => simp at hd
  | calling hb =>
    rcases mem_cons.1 hd with hd | hd
    · cases hd; exact (key hb).1
    · exact absurd hd ((key hb).2 d)
  | inside e hb =>
    rcases mem_cons.1 hd with hd | hd
    · cases hd
    · rcases mem_cons.1 hd with hd | hd
      · cases hd; exact mem_cons_of_mem _ (key hb).1
      · exact absurd hd ((key hb).2 d)

end Shape

namespace Machine

/-! ## The stack and the flags -/

structure Stacked (m : Machine) : Prop where
  shape : Shape m.stack m.gate.active m.gate.draining
  nodup : (owners m.stack).Nodup
  owned : ∀ id ∈ owners m.stack, ∃ s, m.sessions id = some s
  processing : ∀ id s, m.sessions id = some s → (s.processing = true ↔ id ∈ owners m.stack)
  under : ∀ id s, m.sessions id = some s → id ∈ owners m.stack.tail → s.deferred = false
  running : ∀ id s, m.sessions id = some s → .handler id ∈ m.stack → s.Running
  valid : ∀ id s, m.sessions id = some s → s.Valid

variable {m m' : Machine}

theorem sessions_set {id : Nat} {s' : Session} {j : Nat} {t : Session} (h : (m.set id s').sessions j = some t) :
    (j = id ∧ t = s') ∨ (j ≠ id ∧ m.sessions j = some t) := by
  rw [set_sessions] at h
  split at h
  · next hj => exact .inl ⟨hj, (Option.some.inj h).symm⟩
  · next hj => exact .inr ⟨hj, h⟩

namespace Stacked

variable {rest : List Frame} {id : Nat} {s s' : Session}

section

variable (h : m.Stacked)
include h

theorem set (hs : m.sessions id = some s) (hv : s'.Valid)
    (hp : s'.processing = s.processing) (hd : id ∈ owners m.stack.tail → s'.deferred = false)
    (hr : .handler id ∈ m.stack → s'.Running) : (m.set id s').Stacked := by
  refine ⟨h.shape, h.nodup, ?_, ?_, ?_, ?_, ?_⟩
  · intro j hj
    by_cases he : j = id
    · exact ⟨s', by rw [he, set_self]⟩
    · rw [set_of_ne m s' he]; exact h.owned j hj
  · intro j t ht
    rcases sessions_set ht with ⟨rfl, rfl⟩ | ⟨-, ht⟩
    · rw [hp]; exact h.processing j s hs
    · exact h.processing j t ht
  · intro j t ht hj
    rcases sessions_set ht with ⟨rfl, rfl⟩ | ⟨-, ht⟩
    · exact hd hj
    · exact h.under j t ht hj
  · intro j t ht hj
    rcases sessions_set ht with ⟨rfl, rfl⟩ | ⟨-, ht⟩
    · exact hr hj
    · exact h.running j t ht hj
  · intro j t ht
    rcases sessions_set ht with ⟨rfl, rfl⟩ | ⟨-, ht⟩
    · exact hv
    · exact h.valid j t ht

theorem top_pass {was : Bool} (hst : m.stack = .pass id was :: rest) :
    id ∉ owners rest ∧ .handler id ∉ m.stack := by
  have hn := h.nodup
  rw [hst, owners_pass, nodup_cons] at hn
  refine ⟨hn.1, fun hh => ?_⟩
  rw [hst] at hh
  have hsh := h.shape
  rw [hst] at hsh; exact hn.1 (hsh.pop.2.owner_of_handler ((mem_cons.1 hh).resolve_left (by simp)))

theorem pop {was : Bool}
    (hst : m.stack = .pass id was :: rest) (hv : s'.Valid) (hp : s'.processing = was) :
    ({ m.set id s' with stack := rest } : Machine).Stacked := by
  obtain ⟨hnot, hhand⟩ := h.top_pass hst
  have hsh := h.shape
  rw [hst] at hsh
  have hne : ∀ j, j ∈ owners rest → j ≠ id := fun j hj e => hnot (e ▸ hj)
  refine ⟨hsh.pop.2, ?_, ?_, ?_, ?_, ?_, ?_⟩
  · have := h.nodup; rw [hst, owners_pass] at this; exact (nodup_cons.1 this).2
  · intro j hj
    rw [set_of_ne m s' (hne j hj)]
    exact h.owned j (by rw [hst, owners_pass]; exact mem_cons_of_mem _ hj)
  · intro j t ht
    rcases sessions_set ht with ⟨rfl, rfl⟩ | ⟨hj, ht⟩
    · rw [hp, hsh.pop.1]; exact ⟨(by rintro ⟨⟩), fun hj => absurd hj hnot⟩
    · rw [h.processing j t ht, hst, owners_pass, mem_cons]; exact ⟨fun h => h.resolve_left hj, .inr⟩
  · intro j t ht hj
    have hj' : j ∈ owners rest := mem_owners_of_tail hj
    rcases sessions_set ht with ⟨rfl, rfl⟩ | ⟨-, ht⟩
    · exact absurd rfl (hne _ hj')
    · exact h.under j t ht (by rw [hst]; exact hj')
  · intro j t ht hj
    have hj' : .handler j ∈ m.stack := by rw [hst]; exact mem_cons_of_mem _ hj
    rcases sessions_set ht with ⟨rfl, rfl⟩ | ⟨-, ht⟩
    · exact absurd hj' hhand
    · exact h.running j t ht hj'
  · intro j t ht
    rcases sessions_set ht with ⟨rfl, rfl⟩ | ⟨-, ht⟩
    · exact hv
    · exact h.valid j t ht

theorem push (hsc : m.inScript = true) (hs : m.sessions id = some s)
    (hq : s.processing = false) (hv : s'.Valid) (hp : s'.processing = true) :
    ({ m.set id s' with stack := .pass id false :: m.stack } : Machine).Stacked := by
  have hnot : id ∉ owners m.stack := fun hm => by
    have := (h.processing id s hs).2 hm; rw [hq] at this; cases this
  have hhand : .handler id ∉ m.stack := fun hh => hnot (h.shape.owner_of_handler hh)
  have hsh := h.shape
  have hshape : Shape (.pass id false :: m.stack) m.gate.active m.gate.draining := by
    unfold inScript at hsc
    split at hsc
    · next hst =>
      rw [hst] at hsh ⊢
      generalize m.gate.active = a, m.gate.draining = dr at hsh ⊢
      cases hsh; exact .pass id
    · next d st hst =>
      rw [hst] at hsh ⊢
      generalize m.gate.active = a, m.gate.draining = dr at hsh ⊢
      cases hsh with
      | calling hb => exact .inside id hb
    · cases hsc
  refine ⟨hshape, ?_, ?_, ?_, ?_, ?_, ?_⟩
  · exact nodup_cons.2 ⟨hnot, h.nodup⟩
  · intro j hj
    by_cases he : j = id
    · exact ⟨s', by rw [he]; exact set_self m id s'⟩
    · rw [set_of_ne m s' he]; exact h.owned j ((mem_cons.1 hj).resolve_left he)
  · intro j t ht
    show t.processing = true ↔ j ∈ id :: owners m.stack
    rcases sessions_set ht with ⟨rfl, rfl⟩ | ⟨hj, ht⟩
    · exact ⟨fun _ => mem_cons_self, fun _ => hp⟩
    · rw [h.processing j t ht, mem_cons]; exact ⟨.inr, fun h => h.resolve_left hj⟩
  · intro j t ht hj
    rcases sessions_set ht with ⟨rfl, rfl⟩ | ⟨-, ht⟩
    · exact absurd hj hnot
    · -- the frames below the new pass are those of the old stack, and its top is a handler or nothing
      refine h.under j t ht ?_
      unfold inScript at hsc
      split at hsc
      · next hst => rw [show (Frame.pass id false :: m.stack).tail = m.stack from rfl, hst] at hj; cases hj
      · next d st hst => rw [show (Frame.pass id false :: m.stack).tail = m.stack from rfl, hst] at hj; rw [hst]; exact hj
      · cases hsc
  · intro j t ht hj
    have hj' : .handler j ∈ m.stack := (mem_cons.1 hj).resolve_left (by simp)
    rcases sessions_set ht with ⟨rfl, rfl⟩ | ⟨-, ht⟩
    · exact absurd hj' hhand
    · exact h.running j t ht hj'
  · intro j t ht
    rcases sessions_set ht with ⟨rfl, rfl⟩ | ⟨-, ht⟩
    · exact hv
    · exact h.valid j t ht

theorem restack (stack : List Frame) (gate : Gate) (hsh : Shape stack gate.active gate.draining)
    (ho : owners stack = owners m.stack) (ht : ∀ id, id ∈ owners stack.tail → id ∈ owners m.stack.tail)
    (hh : ∀ id, .handler id ∈ stack → .handler id ∈ m.stack) : ({ m with stack, gate } : Machine).Stacked :=
  ⟨hsh, ho ▸ h.nodup, fun id hid => h.owned id (ho ▸ hid), fun id s hs => by
      rw [ho]
      exact h.processing id s hs,
    fun id s hs hid => h.under id s hs (ht id hid), fun id s hs hid => h.running id s hs (hh id hid), h.valid⟩

end

theorem call (h : m.Stacked) {id : Nat} {was : Bool} {rest : List Frame} {s s' : Session}
    (hst : m.stack = .pass id was :: rest) (hs : m.sessions id = some s) (ha : m.gate.active = 0) (hv : s'.Valid)
    (hp : s'.processing = s.processing) (hr : s'.Running) :
    ({ m.set id s' with
        gate := { m.gate with active := m.gate.active + 1 }
        stack := .handler id :: m.stack } : Machine).Stacked := by
  have h₁ := h.set hs hv hp (fun _ => hr.deferred) (fun _ => hr)
  have hsh := h.shape
  rw [ha, hst] at hsh
  refine ⟨?_, h₁.nodup, h₁.owned, h₁.processing, ?_, ?_, h₁.valid⟩
  · rw [ha, hst]; exact hsh.call
  · intro j t ht hj
    by_cases he : j = id
    · rcases sessions_set ht with ⟨-, rfl⟩ | ⟨hj', -⟩
      · exact hr.deferred
      · exact absurd he hj'
    · refine h₁.under j t ht ?_
      rw [set_stack, hst]
      rw [show (Frame.handler id :: m.stack).tail = m.stack from rfl, hst, owners_pass] at hj
      exact (mem_cons.1 hj).resolve_left he
  · intro j t ht hj
    rcases sessions_set ht with ⟨rfl, rfl⟩ | ⟨hj', ht'⟩
    · exact hr
    · rcases mem_cons.1 hj with hj | hj
      · exact absurd (Frame.handler.inj hj) hj'
      · exact h.running j t ht' hj

theorem resume (h : m.Stacked) {ids : List Nat}
    (hst : m.stack = .drain :: rest) (hs : m.sessions id = some s) (hd : s.deferred = true) (ha : m.gate.active = 0) :
    s.processing = false ∧ ({ m.set id s.resume.call with
          gate := { m.gate with deferred := ids, active := m.gate.active + 1 }
          stack := .handler id :: .parked id s.processing :: .drain :: rest
          resumes := m.resumes ++ [(id, some s.calls.length)] } : Machine).Stacked := by
  have hsh := h.shape
  have hown : owners m.stack.tail = owners m.stack := by rw [hst]; rfl
  have hnot : id ∉ owners m.stack := fun hm => by
    have := h.under id s hs (hown ▸ hm); rw [hd] at this; cases this
  have hp : s.processing = false := by
    rw [Bool.eq_false_iff]; exact fun hp => hnot ((h.processing id s hs).1 hp)
  obtain ⟨hv, hproc, hr⟩ := (h.valid id s hs).resume_call hd
  refine ⟨hp, ?_, ?_, ?_, ?_, ?_, ?_, ?_⟩
  · rw [hst, ha] at hsh
    rw [hp, ha]
    generalize m.gate.draining = dr at hsh ⊢
    cases hsh with
    | draining c => exact .calling (.parked c id)
  · rw [hst] at hnot
    have := h.nodup; rw [hst] at this; exact nodup_cons.2 ⟨hnot, this⟩
  · intro j hj
    by_cases he : j = id
    · exact ⟨_, by rw [he, set_self]⟩
    · rw [set_of_ne m _ he]; exact h.owned j (by rw [hst]; exact (mem_cons.1 hj).resolve_left he)
  · intro j t ht
    show t.processing = true ↔ j ∈ id :: owners rest
    rcases sessions_set ht with ⟨rfl, rfl⟩ | ⟨hj, ht⟩
    · exact ⟨fun _ => mem_cons_self, fun _ => hproc⟩
    · rw [h.processing j t ht, hst, mem_cons]; exact ⟨.inr, fun h => h.resolve_left hj⟩
  · intro j t ht hj
    rcases sessions_set ht with ⟨rfl, rfl⟩ | ⟨hne, ht⟩
    · exact hr.deferred
    · exact h.under j t ht (by rw [hst]; exact (mem_cons.1 hj).resolve_left hne)
  · intro j t ht hj
    rcases sessions_set ht with ⟨rfl, rfl⟩ | ⟨hne, ht⟩
    · exact hr
    · refine h.running j t ht ?_
      rw [hst]
      rcases mem_cons.1 hj with hj | hj
      · exact absurd (Frame.handler.inj hj) hne
      · exact (mem_cons.1 hj).resolve_left (by simp)
  · intro j t ht
    rcases sessions_set ht with ⟨rfl, rfl⟩ | ⟨-, ht⟩
    · exact hv
    · exact h.valid j t ht

theorem returned (h : m.Stacked) (hst : m.stack = .handler id :: rest)
    (hs : m.sessions id = some s) (throws : Bool) : (m.set id (s.returned throws)).Stacked := by
  have hmem : .handler id ∈ m.stack := by rw [hst]; exact mem_cons_self
  have hp : s.processing = true := (h.processing id s hs).2 (h.shape.owner_of_handler hmem)
  obtain ⟨h₁, h₂, h₃⟩ := (h.valid id s hs).returned (h.running id s hs hmem) hp throws
  exact h.set hs h₁ (h₂.trans hp.symm) (fun _ => h₃.deferred) (fun _ => h₃)

/-- **Every step keeps the stack and the flags in order.** -/
theorem step (h : m.Stacked) {l : Label} (hm : Moves m l m') : m'.Stacked := by
  have hsh := h.shape
  cases hm with
  | stop hst hs hp =>
    obtain ⟨h₁, -, -, -⟩ := (h.valid _ _ hs).stop hp
    obtain ⟨h₂, h₃, -⟩ := h₁.endPass _; exact h.pop hst h₂ h₃
  | more hst hs hp =>
    obtain ⟨h₁, h₂, h₃⟩ := (h.valid _ _ hs).more hp
    obtain ⟨h₄, h₅⟩ := h.top_pass hst
    exact h.set hs h₁ h₂ (fun hid => absurd (by rw [hst] at hid; exact hid) h₄) (fun hh => absurd hh h₅)
  | call hst hs hp ha =>
    obtain ⟨h₁, h₂, h₃⟩ := (h.valid _ _ hs).request_call hp; exact h.call hst hs ha h₁ h₂ h₃
  | park hst hs hp ha =>
    obtain ⟨h₁, h₂, -, -⟩ := (h.valid _ _ hs).request_park hp
    obtain ⟨h₄, h₅⟩ := h.top_pass hst
    have := h.set hs h₁ h₂ (fun hid => absurd (by rw [hst] at hid; exact hid) h₄) (fun hh => absurd hh h₅)
    exact ⟨this.shape, this.nodup, this.owned, this.processing, this.under, this.running, this.valid⟩
  | enter hst =>
    rw [hst] at hsh
    refine h.restack _ m.gate ?_ (by rw [hst]; rfl) (by rw [hst]; exact fun _ hid => hid) ?_
    · generalize m.gate.active = a, m.gate.draining = dr at hsh ⊢
      cases hsh with
      | resuming c => exact .again c _
    · rw [hst]; simp
  | drained hst hd =>
    rw [hst] at hsh
    refine h.restack _ _ ?_ (by rw [hst]; rfl) (by rw [hst]; exact fun _ hid => mem_owners_of_tail hid) ?_
    · generalize m.gate.active = a, m.gate.draining = dr at hsh ⊢
      cases hsh with
      | draining c => exact .pass c
    · rw [hst]; simp
  | gone hst hd ha hn => exact ⟨h.shape, h.nodup, h.owned, h.processing, h.under, h.running, h.valid⟩
  | resume hst hd ha hs hdef => exact (h.resume hst hs hdef ha).2
  | ret hst hs hc =>
    rw [hst] at hsh
    have h₁ := h.returned hst hs
    refine Stacked.restack (h₁ _) _ _ ?_ (by rw [set_stack, hst]; rfl)
      (by rw [set_stack, hst]; exact fun _ hid => mem_owners_of_tail hid) ?_
    · generalize m.gate.active = a, m.gate.draining = dr at hsh hc ⊢
      cases hsh with
      | calling hb =>
        cases hb with
        | pass c => simp at hc
        | parked c d => exact .resuming c _
        | again c d => exact .again c _
    · intro j hj; rw [set_stack, hst]; exact mem_cons_of_mem _ hj
  | retDrain hst hs ha hdr =>
    rw [hst] at hsh
    have h₁ := h.returned hst hs
    refine Stacked.restack (h₁ _) _ _ ?_ (by rw [set_stack, hst]; rfl) (by rw [set_stack, hst]; exact fun _ hid => hid) ?_
    · generalize m.gate.active = a, m.gate.draining = dr at hsh hdr ⊢
      cases hsh with
      | calling hb =>
        cases hb with
        | pass c => exact .draining _
        | parked c d | again c d => cases hdr
    · intro j hj; rw [set_stack, hst]; exact mem_cons_of_mem _ ((mem_cons.1 hj).resolve_left (by simp))
  | accept hst =>
    refine ⟨h.shape, h.nodup, ?_, ?_, ?_, ?_, ?_⟩
    · show ∀ id ∈ owners m.stack, _
      rw [hst]
      rintro id ⟨⟩
    · intro j t ht
      rcases sessions_set ht with ⟨rfl, rfl⟩ | ⟨-, ht⟩
      · show (false = true) ↔ _ ∈ owners m.stack; rw [hst]; simp
      · exact h.processing j t ht
    · show ∀ id s, _ → id ∈ owners m.stack.tail → _
      rw [hst]
      rintro id s - ⟨⟩
    · show ∀ id s, _ → .handler id ∈ m.stack → _
      rw [hst]
      rintro id s - ⟨⟩
    · intro j t ht
      rcases sessions_set ht with ⟨rfl, rfl⟩ | ⟨-, ht⟩
      · exact Session.valid_accept _ _
      · exact h.valid j t ht
  | ready hst hs hc hg =>
    obtain ⟨h₁, h₂, h₃⟩ := (h.valid _ _ hs).startReady _
    rw [hg, Bool.false_or] at h₂
    exact h.set hs h₁ h₂ (by rw [hst]; rintro ⟨⟩) (by rw [hst]; rintro ⟨⟩)
  | @readyPass id e s hst hs hc hg =>
    obtain ⟨h₁, h₂, h₃⟩ := (h.valid id s hs).startReady e
    rw [hg, Bool.true_or] at h₂
    have hq : s.processing = false := by
      rw [Bool.eq_false_iff]
      intro hp
      have := (h.processing id s hs).1 hp; rw [hst] at this; cases this
    have := h.push (by simp [inScript, hst]) hs hq h₁ h₂; rwa [hst] at this
  | out hsc hs hi =>
    obtain ⟨h₁, h₂, h₃, h₄⟩ := (h.valid _ _ hs).output _ _
    exact h.set hs h₁ h₂ (fun hid => h₃.trans (h.under _ _ hs hid)) (fun hh => h₄ (h.running _ _ hs hh))
  | @doneInside id i keepAlive s hsc hs hi hn hp =>
    have hd : id ∈ owners m.stack.tail → s.deferred = false := h.under id s hs
    refine h.set hs ((h.valid id s hs).complete hi hn keepAlive) rfl hd (fun hh => ?_)
    obtain ⟨h₁, h₂, h₃, h₄⟩ := h.running _ _ hs hh; exact ⟨h₁, h₂, h₃, h₄⟩
  | donePass hsc hs hi hn hp =>
    obtain ⟨h₁, h₂, h₃, h₄, h₅, h₆, h₇⟩ := (h.valid _ _ hs).complete hi hn _
    exact h.push hsc hs hp ⟨h₁, h₂, h₃, h₄, h₅, h₆, h₇⟩ rfl
  | @destroy id s hsc hs =>
    have hd : id ∈ owners m.stack.tail → s.deferred = false := h.under id s hs
    refine h.set hs (h.valid id s hs).hardDestroy rfl hd (fun hh => ?_)
    obtain ⟨h₁, h₂, h₃, h₄⟩ := h.running _ _ hs hh; exact ⟨h₁, h₂, h₃, h₄⟩
  | absent l => exact h
  | @leave id s hs hc hf =>
    have hsub : ∀ {j : Nat} {t : Session}, (if j = id then none else m.sessions j) = some t →
        j ≠ id ∧ m.sessions j = some t := by
      intro j t ht
      split at ht
      · cases ht
      · next hj => exact ⟨hj, ht⟩
    have hown : id ∉ owners m.stack := by
      intro hid
      obtain ⟨f, hfm, hfo⟩ := mem_filterMap.1 hid
      refine hf f hfm ?_
      cases f with
      | handler j | drain => cases hfo
      | pass j was | parked j was => exact hfo
    refine ⟨h.shape, h.nodup, fun j hj => ?_, fun j t ht => h.processing j t (hsub ht).2,
      fun j t ht => h.under j t (hsub ht).2, fun j t ht => h.running j t (hsub ht).2, fun j t ht => h.valid j t (hsub ht).2⟩
    obtain ⟨t, ht⟩ := h.owned j hj
    have hne : j ≠ id := fun e => hown (e ▸ hj)
    exact ⟨t, (if_neg hne).trans ht⟩

end Stacked

end Machine

end NodeCompat.Http
