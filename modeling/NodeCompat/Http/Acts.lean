import NodeCompat.Http.Gate

/-!
# What a step does to one connection

`Acts m id l s s'` has one constructor for each thing a step labelled `l` can do to the session of connection `id`,
whoever causes it, with what the stack says about the session then. A property of one session that every act keeps
holds of every session in every run (`session_invariant`).
-/

namespace NodeCompat.Http

namespace Machine

inductive Acts (m : Machine) (id : Nat) : Label → Session → Session → Prop
  | stop {s s' rest} : m.stack = .pass id false :: rest → s.processing = true → s.parse = .stop s' →
      Acts m id .tau s (s'.endPass false)
  | more {s s' rest} : m.stack = .pass id false :: rest → s.processing = true → s.parse = .more s' → Acts m id .tau s s'
  | call {s s' rest} : m.stack = .pass id false :: rest → s.processing = true → s.parse = .request s' →
      Acts m id .tau s s'.call
  | park {s s' rest} : m.stack = .pass id false :: rest → s.processing = true → s.parse = .request s' →
      Acts m id .tau s s'.park
  | resume {s} : s.deferred = true → Acts m id .tau s s.resume.call
  | ret {s throws} : s.processing = true → s.Running → Acts m id (.ret throws) s (s.returned throws)
  | ready {s e} : s.processing = false → Acts m id (.ready id e) s (s.startReady e).1
  | out {s i op} : i < s.calls.length → Acts m id (.out id i op) s (s.output i op)
  | doneInside {s i keepAlive} : i < s.calls.length → i ∉ s.finished → s.processing = true →
      Acts m id (.done id i keepAlive) s (s.complete i keepAlive)
  | donePass {s i keepAlive} : i < s.calls.length → i ∉ s.finished → s.processing = false →
      Acts m id (.done id i keepAlive) s { s.complete i keepAlive with processing := true }
  | destroy {s} : Acts m id (.destroy id) s s.hardDestroy

variable {m m' : Machine} {l : Label}

/-- Where a session after a step comes from. -/
def Origin (m : Machine) (l : Label) (id : Nat) (s' : Session) : Prop :=
  m.sessions id = some s' ∨ (∃ recvs sends, s' = .accept recvs sends) ∨ ∃ s, m.sessions id = some s ∧ Acts m id l s s'

theorem origin_set {id : Nat} {t : Session} (h : m.Origin l id t) (j : Nat) (s' : Session)
    (hs : (m.set id t).sessions j = some s') : m.Origin l j s' := by
  rcases sessions_set hs with ⟨rfl, rfl⟩ | ⟨-, hs⟩
  · exact h
  · exact .inl hs

namespace Stacked

variable {id : Nat} {s : Session}

theorem processing_pass (h : m.Stacked) {was : Bool} {rest : List Frame}
    (hst : m.stack = .pass id was :: rest) (hs : m.sessions id = some s) :
    m.stack = .pass id false :: rest ∧ s.processing = true := by
  have hsh := h.shape
  rw [hst] at hsh
  refine ⟨?_, (h.processing id s hs).2 ?_⟩
  · rw [hst, hsh.pop.1]
  · rw [hst]; exact List.mem_cons_self

theorem processing_handler (h : m.Stacked) {rest : List Frame}
    (hst : m.stack = .handler id :: rest) (hs : m.sessions id = some s) : s.processing = true ∧ s.Running := by
  have hmem : .handler id ∈ m.stack := by rw [hst]; exact List.mem_cons_self
  exact ⟨(h.processing id s hs).2 (h.shape.owner_of_handler hmem), h.running id s hs hmem⟩

theorem not_processing (h : m.Stacked) (hst : m.stack = []) (hs : m.sessions id = some s) :
    s.processing = false := by
  rw [Bool.eq_false_iff]
  intro hp
  have := (h.processing id s hs).1 hp; rw [hst] at this; cases this

/-- **A step acts on at most one session**, and leaves the others as they are. -/
theorem origin (h : m.Stacked) (hm : Moves m l m') (j : Nat) (s' : Session) (hs' : m'.sessions j = some s') :
    m.Origin l j s' := by
  cases hm with
  | stop hst hs hp =>
    obtain ⟨hst', hpr⟩ := h.processing_pass hst hs
    rw [hst'] at hst
    cases hst; exact origin_set (.inr (.inr ⟨_, hs, .stop hst' hpr hp⟩)) j s' hs'
  | more hst hs hp =>
    obtain ⟨hst', hpr⟩ := h.processing_pass hst hs; exact origin_set (.inr (.inr ⟨_, hs, .more hst' hpr hp⟩)) j s' hs'
  | call hst hs hp ha =>
    obtain ⟨hst', hpr⟩ := h.processing_pass hst hs; exact origin_set (.inr (.inr ⟨_, hs, .call hst' hpr hp⟩)) j s' hs'
  | park hst hs hp ha =>
    obtain ⟨hst', hpr⟩ := h.processing_pass hst hs; exact origin_set (.inr (.inr ⟨_, hs, .park hst' hpr hp⟩)) j s' hs'
  | enter hst | drained hst hd | gone hst hd ha hn | absent l => exact .inl hs'
  | resume hst hd ha hs hdef => exact origin_set (.inr (.inr ⟨_, hs, .resume hdef⟩)) j s' hs'
  | ret hst hs hc | retDrain hst hs ha hdr =>
    obtain ⟨hpr, hr⟩ := h.processing_handler hst hs; exact origin_set (.inr (.inr ⟨_, hs, .ret hpr hr⟩)) j s' hs'
  | accept hst => exact origin_set (.inr (.inl ⟨_, _, rfl⟩)) j s' hs'
  | ready hst hs hc hg | readyPass hst hs hc hg => exact origin_set (.inr (.inr ⟨_, hs, .ready (h.not_processing hst hs)⟩)) j s' hs'
  | out hsc hs hi => exact origin_set (.inr (.inr ⟨_, hs, .out hi⟩)) j s' hs'
  | doneInside hsc hs hi hn hp => exact origin_set (.inr (.inr ⟨_, hs, .doneInside hi hn hp⟩)) j s' hs'
  | donePass hsc hs hi hn hp => exact origin_set (.inr (.inr ⟨_, hs, .donePass hi hn hp⟩)) j s' hs'
  | destroy hsc hs => exact origin_set (.inr (.inr ⟨_, hs, .destroy⟩)) j s' hs'
  | leave hs hc hf =>
    refine .inl ?_
    dsimp only at hs'
    split at hs'
    · cases hs'
    · exact hs'

end Stacked

/-- **The invariant rule for one connection**, in the runs whose steps meet `P`. -/
theorem session_invariant {P : Machine → Label → Prop} {Q : Session → Prop} {id : Nat}
    (haccept : ∀ recvs sends, Q (.accept recvs sends))
    (hacts : ∀ m l s s', P m l → m.sessions id = some s → s.Valid → Acts m id l s s' → Q s → Q s')
    {ls : List Label} {m : Machine} (h : Run step P {} ls m) {s : Session} (hs : m.sessions id = some s) : Q s := by
  suffices key : m.Stacked ∧ ∀ s, m.sessions id = some s → Q s from key.2 s hs
  refine h.invariant (I := fun m => m.Stacked ∧ ∀ s, m.sessions id = some s → Q s) ?_ ⟨stacked_init, by rintro s ⟨⟩⟩
  intro m l m' hi hp hstep
  have hm := step_moves hstep
  refine ⟨hi.1.step hm, fun s' hs' => ?_⟩
  rcases hi.1.origin hm id s' hs' with hs | ⟨recvs, sends, rfl⟩ | ⟨s, hs, ha⟩
  · exact hi.2 s' hs
  · exact haccept recvs sends
  · exact hacts m l s s' hp hs (hi.1.valid id s hs) ha (hi.2 s hs)

end Machine

end NodeCompat.Http
