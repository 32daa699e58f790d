import NodeCompat.Http.Machine

/-!
# What one step can do

`Moves m l m'` has one constructor for each thing a step of the machine can do, with what is known when it does it;
`step_moves` says that there is nothing else. Every invariant of the machine is proved by cases on it.
-/

namespace NodeCompat.Http

namespace Machine

variable (m : Machine)

@[simp] theorem set_stack (id : Nat) (s : Session) : (m.set id s).stack = m.stack := rfl

theorem set_sessions (id : Nat) (s : Session) (j : Nat) :
    (m.set id s).sessions j = if j = id then some s else m.sessions j := rfl

@[simp] theorem set_self (id : Nat) (s : Session) : (m.set id s).sessions id = some s := by
  simp [set_sessions]

theorem set_of_ne {id j : Nat} (s : Session) (h : j ≠ id) : (m.set id s).sessions j = m.sessions j := by
  simp [set_sessions, h]

inductive Moves (m : Machine) : Label → Machine → Prop
  | stop {id was rest s s'} : m.stack = .pass id was :: rest → m.sessions id = some s → s.parse = .stop s' →
      Moves m .tau { m.set id (s'.endPass was) with stack := rest }
  | more {id was rest s s'} : m.stack = .pass id was :: rest → m.sessions id = some s → s.parse = .more s' →
      Moves m .tau (m.set id s')
  | call {id was rest s s'} : m.stack = .pass id was :: rest → m.sessions id = some s → s.parse = .request s' →
      m.gate.active = 0 →
      Moves m .tau { m.set id s'.call with
        gate := { m.gate with active := m.gate.active + 1 }
        stack := .handler id :: m.stack }
  | park {id was rest s s'} : m.stack = .pass id was :: rest → m.sessions id = some s → s.parse = .request s' →
      0 < m.gate.active →
      Moves m .tau { m.set id s'.park with
        gate := { m.gate with deferred := m.gate.deferred ++ [id] }
        parks := m.parks ++ [(id, s'.calls.length)] }
  | enter {id was rest} : m.stack = .parked id was :: rest → Moves m .tau { m with stack := .pass id was :: rest }
  | drained {rest} : m.stack = .drain :: rest → m.gate.deferred = [] ∨ m.gate.active ≠ 0 →
      Moves m .tau { m with gate := { m.gate with draining := false }, stack := rest }
  | gone {rest id ids} : m.stack = .drain :: rest → m.gate.deferred = id :: ids → m.gate.active = 0 →
      (∀ s, m.sessions id = some s → s.deferred = false) →
      Moves m .tau { m with gate := { m.gate with deferred := ids }, resumes := m.resumes ++ [(id, none)] }
  | resume {rest id ids s} : m.stack = .drain :: rest → m.gate.deferred = id :: ids → m.gate.active = 0 →
      m.sessions id = some s → s.deferred = true →
      Moves m .tau { m.set id s.resume.call with
        gate := { m.gate with deferred := ids, active := m.gate.active + 1 }
        stack := .handler id :: .parked id s.processing :: .drain :: rest
        resumes := m.resumes ++ [(id, some s.calls.length)] }
  | ret {id rest s throws} : m.stack = .handler id :: rest → m.sessions id = some s →
      ¬ (m.gate.active - 1 = 0 ∧ m.gate.draining = false) →
      Moves m (.ret throws) { m.set id (s.returned throws) with
        gate := { m.gate with active := m.gate.active - 1 }
        stack := rest }
  | retDrain {id rest s throws} : m.stack = .handler id :: rest → m.sessions id = some s →
      m.gate.active - 1 = 0 → m.gate.draining = false →
      Moves m (.ret throws) { m.set id (s.returned throws) with
        gate := { m.gate with active := m.gate.active - 1, draining := true }
        stack := .drain :: rest }
  | accept {recvs sends} : m.stack = [] →
      Moves m (.accept recvs sends) { m.set m.nextId (.accept recvs sends) with nextId := m.nextId + 1 }
  | ready {id e s} : m.stack = [] → m.sessions id = some s → s.closed = false → (s.startReady e).2 = false →
      Moves m (.ready id e) (m.set id (s.startReady e).1)
  | readyPass {id e s} : m.stack = [] → m.sessions id = some s → s.closed = false → (s.startReady e).2 = true →
      Moves m (.ready id e) { m.set id (s.startReady e).1 with stack := [.pass id false] }
  | out {id i op s} : m.inScript = true → m.sessions id = some s → i < s.calls.length →
      Moves m (.out id i op) (m.set id (s.output i op))
  | doneInside {id i keepAlive s} : m.inScript = true → m.sessions id = some s → i < s.calls.length → i ∉ s.finished →
      s.processing = true → Moves m (.done id i keepAlive) (m.set id (s.complete i keepAlive))
  | donePass {id i keepAlive s} : m.inScript = true → m.sessions id = some s → i < s.calls.length → i ∉ s.finished →
      s.processing = false →
      Moves m (.done id i keepAlive) { m.set id { s.complete i keepAlive with processing := true } with
        stack := .pass id false :: m.stack }
  | destroy {id s} : m.inScript = true → m.sessions id = some s → Moves m (.destroy id) (m.set id s.hardDestroy)
  | absent (l : Label) : Moves m l m
  | leave {id s} : m.sessions id = some s → s.closed = true → (∀ f ∈ m.stack, f.id? ≠ some id) →
      Moves m (.leave id) { m with sessions := fun j => if j = id then none else m.sessions j }

variable {m m' : Machine}

theorem tau_moves (h : m.tau = some m') : Moves m .tau m' := by
  unfold tau at h
  split at h
  · next id was rest hst =>
    obtain ⟨s, hs, rfl⟩ := Option.map_eq_some_iff.1 h
    split
    · next s' hp => exact .stop hst hs hp
    · next s' hp => exact .more hst hs hp
    · next s' hp =>
      unfold dispatchCurrent
      split
      · next ha => exact .park hst hs hp ha
      · next ha => exact .call hst hs hp (by omega)
  · next id was rest hst =>
    cases h; exact .enter hst
  · next rest hst =>
    cases h
    unfold drainDeferredHandlers
    split
    · next hd => exact .drained hst (.inl hd)
    · next id ids hd =>
      split
      · next ha =>
        dsimp only
        split
        · next hn => exact .gone hst hd ha (fun s hs => by rw [hn] at hs; cases hs)
        · next s hs =>
          split
          · next hdef =>
            unfold dispatchCurrent; rw [if_neg (by simp [ha])]; exact .resume hst hd ha hs hdef
          · next hdef =>
            refine .gone hst hd ha (fun s' hs' => ?_)
            rw [hs] at hs'
            cases hs'; simpa using hdef
      · next ha => exact .drained hst (.inr ha)
  · cases h

theorem ret_moves {throws : Bool} (h : m.ret throws = some m') : Moves m (.ret throws) m' := by
  unfold ret at h
  split at h
  · next id rest hst =>
    obtain ⟨s, hs, rfl⟩ := Option.map_eq_some_iff.1 h
    dsimp only
    split
    · next hc => exact .retDrain hst hs hc.1 hc.2
    · next hc => exact .ret hst hs hc
  · cases h

theorem done_moves {id i : Nat} {keepAlive : Bool} (hscript : m.inScript = true) (h : m.done id i keepAlive = some m') :
    Moves m (.done id i keepAlive) m' := by
  unfold done at h
  split at h
  · cases h; exact .absent _
  · next s hs =>
    split at h
    · next hi =>
      dsimp only at h
      split at h
      · next hp =>
        cases h; exact .doneInside hscript hs hi.1 hi.2 hp
      · next hp =>
        cases h; exact .donePass hscript hs hi.1 hi.2 (by simpa [Session.complete] using hp)
    · cases h

/-- **A step is one of the moves.** -/
theorem step_moves {l : Label} (h : m.step l = some m') : Moves m l m' := by
  unfold step at h
  split at h
  · exact tau_moves h
  · exact ret_moves h
  · split at h
    · next hst => cases h; exact .accept hst
    · cases h
  · split at h
    · next hst hs =>
      split at h
      · cases h
      · next hc =>
        dsimp only at h
        split at h
        · next hg => cases h; exact .readyPass hst hs (by simpa using hc) hg
        · next hg => cases h; exact .ready hst hs (by simpa using hc) (by simpa using hg)
    · cases h
  · split at h
    · next hsc =>
      split at h
      · cases h; exact .absent _
      · next s hs =>
        split at h
        · next hi => cases h; exact .out hsc hs hi
        · cases h
    · cases h
  · split at h
    · next hsc => exact done_moves hsc h
    · cases h
  · split at h
    · next hsc =>
      split at h
      · cases h; exact .absent _
      · next s hs => cases h; exact .destroy hsc hs
    · cases h
  · split at h
    · cases h
    · next s hs =>
      split at h
      · next hc => cases h; exact .leave hs hc.1 hc.2
      · cases h

end Machine

end NodeCompat.Http
