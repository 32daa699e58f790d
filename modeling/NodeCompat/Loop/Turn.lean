import NodeCompat.Lib.Run
import NodeCompat.Loop.Microtasks

/-!
# Turns of the event loop

`run_compiled_program` and the loop it enters (`runPoll`, `runEpoll`), as far as callbacks and checkpoints go: the loop
drains the queues, tests whether to go on, waits, fires the due timers with a checkpoint behind each, dispatches the ready
watchers, and runs the immediates with a checkpoint behind each. What the callbacks enqueue, when the loop stops and how
the wait ends is the label of a step. When every checkpoint of a run settles, no microtask waits where a timer runs and
where the loop returns (`checkpoint_settles_iff`).
-/

namespace NodeCompat.Loop

/-- Where the program is. -/
inductive Phase
  | entry -- before `entry()`
  | entered -- the checkpoint behind it
  | top -- the checkpoint at the head of the loop
  | tested -- the tests before the wait
  | firing -- `fireDue`, at its next timer
  | fired -- the checkpoint behind a timer
  | swept -- the checkpoint behind `fireDue`
  | woken -- the stop test behind it
  | dispatching -- the ready watchers
  | dispatched -- the checkpoint behind them
  | checking -- `immediates::runAll`, at its next immediate
  | checked -- the checkpoint behind an immediate
  | ending -- the stop test at the end of the turn
  | exited -- the loop has returned: the last checkpoint
  | finished
deriving DecidableEq

/-- Whether the next step is a checkpoint. -/
def Phase.drains : Phase → Bool
  | entered | top | fired | swept | dispatched | checked | exited => true
  | _ => false

/-- How the wait for events ends. -/
inductive Wait
  | events
  | interrupted
  | failed
deriving DecidableEq

/-- What the environment does: nothing, run a callback, have no more of them or go on, leave the loop, or wait (the
collector runs before, and may enqueue). -/
inductive Act
  | tau
  | run (j : Job)
  | next
  | exit
  | wait (collected : Job) (w : Wait)

/-- The program: where it is, and its queues. -/
structure Turn where
  phase : Phase := .entry
  queues : Queues := {}

namespace Turn

/-- A callback runs, and the program goes on at `p`. -/
def callback (st : Turn) (j : Job) (p : Phase) : Turn := { phase := p, queues := st.queues.run j }

/-- A checkpoint, and the program goes on at `p`. -/
def checkpoint (st : Turn) (p : Phase) : Turn := { phase := p, queues := st.queues.drainMicrotasks }

/-- The end of the tests: with something queued the loop goes on at its head, else it waits. -/
def wait (st : Turn) (collected : Job) (w : Wait) : Turn :=
  let q := st.queues.run collected
  if !q.micros.isEmpty || !q.ticks.isEmpty then { phase := .top, queues := q }
  else
    match w with
    | .events => { phase := .firing, queues := q }
    | .interrupted => { phase := .top, queues := q }
    | .failed => { phase := .exited, queues := q }

def step (st : Turn) (a : Act) : Option Turn :=
  match st.phase, a with
  | .entry, .run j => some (st.callback j .entered)
  | .entered, .tau => some (st.checkpoint .top)
  | .top, .tau => some (st.checkpoint .tested)
  | .tested, .exit => some { st with phase := .exited }
  | .tested, .wait collected w => some (st.wait collected w)
  | .firing, .run j => some (st.callback j .fired)
  | .firing, .next => some { st with phase := .swept }
  | .fired, .tau => some (st.checkpoint .firing)
  | .swept, .tau => some (st.checkpoint .woken)
  | .woken, .exit => some { st with phase := .exited }
  | .woken, .next => some { st with phase := .dispatching }
  | .dispatching, .run j => some (st.callback j .dispatching)
  | .dispatching, .next => some { st with phase := .dispatched }
  | .dispatched, .tau => some (st.checkpoint .checking)
  | .checking, .run j => some (st.callback j .checked)
  | .checking, .next => some { st with phase := .ending }
  | .checked, .tau => some (st.checkpoint .checking)
  | .ending, .exit => some { st with phase := .exited }
  | .ending, .next => some { st with phase := .top }
  | .exited, .tau => some (st.checkpoint .finished)
  | _, _ => none

/-- Every checkpoint starts with queues that settle. -/
def Settling (st : Turn) (_ : Act) : Prop := st.phase.drains = true → Job.Settles st.queues.micros st.queues.ticks

/-- The phases in which nothing is queued. -/
def quiet : Phase → Bool
  | .tested | .firing | .woken | .checking | .ending | .exited | .finished => true
  | _ => false

/-- Nothing is queued in the quiet phases, and no checkpoint is under way. -/
structure Quiet (st : Turn) : Prop where
  draining : st.queues.draining = false
  micros : quiet st.phase = true → st.queues.micros = []

variable {st st' : Turn}

theorem Quiet.callback (h : st.Quiet) (j : Job) {p : Phase} (hp : quiet p = false) : (st.callback j p).Quiet :=
  ⟨h.draining, fun hq => absurd (hp.symm.trans hq) (by decide)⟩

theorem Quiet.checkpoint (h : st.Quiet) (hs : Job.Settles st.queues.micros st.queues.ticks) (p : Phase) :
    (st.checkpoint p).Quiet :=
  ⟨(Queues.drainMicrotasks_ticks h.draining).2, fun _ => (Queues.drainMicrotasks_micros h.draining).2 hs⟩

theorem Quiet.move (h : st.Quiet) {p : Phase} (hp : quiet p = true → quiet st.phase = true) :
    ({ st with phase := p } : Turn).Quiet :=
  ⟨h.draining, fun hq => h.micros (hp hq)⟩

theorem Quiet.wait (h : st.Quiet) (collected : Job) (w : Wait) : (st.wait collected w).Quiet := by
  unfold Turn.wait
  dsimp only
  split
  · exact ⟨h.draining, by rintro ⟨⟩⟩
  · next hne =>
    have hm : (st.queues.run collected).micros = [] := by
      rw [Bool.or_eq_true, not_or] at hne; simpa using hne.1
    cases w with
    | events | interrupted | failed => exact ⟨h.draining, fun _ => hm⟩

/-- What a step can do: a checkpoint, a callback behind which a checkpoint comes, going on, or the wait. -/
theorem step_cases {a : Act} (h : st.step a = some st') :
    (∃ p, st.phase.drains = true ∧ st' = st.checkpoint p) ∨ (∃ j p, quiet p = false ∧ st' = st.callback j p) ∨
      (∃ p, (quiet p = true → quiet st.phase = true) ∧ st' = { st with phase := p }) ∨
      ∃ collected w, st' = st.wait collected w := by
  unfold step at h
  split at h
  case h_21 => cases h
  case h_5 => exact .inr (.inr (.inr ⟨_, _, (Option.some.inj h).symm⟩))
  all_goals
    rename_i hp
    cases h
    rw [hp]
    first
      | exact .inl ⟨_, rfl, rfl⟩
      | exact .inr (.inl ⟨_, _, rfl, rfl⟩)
      | exact .inr (.inr (.inl ⟨_, by decide, rfl⟩))

theorem Quiet.step {a : Act} (h : st.Quiet) (hs : st.Settling a) (hstep : st.step a = some st') : st'.Quiet := by
  obtain ⟨p, hd, rfl⟩ | ⟨j, p, hp, rfl⟩ | ⟨p, hp, rfl⟩ | ⟨collected, w, rfl⟩ := step_cases hstep
  · exact h.checkpoint (hs hd) p
  · exact h.callback j hp
  · exact h.move hp
  · exact h.wait collected w

end Turn

/-- **The checkpoint, and the loop.** A checkpoint empties both queues, with every callback run once, in order, and no
microtask before a pending tick, exactly if no generation of callbacks strands microtasks. In every run whose checkpoints
start with such queues, no microtask waits where `fireDue` runs a timer and where the loop has returned. -/
theorem checkpoint_settles_iff (micros ticks : List Job) (acts : List Act) (st : Turn) :
    ((Queues.init micros ticks).drainMicrotasks.Settled ↔ Job.Settles micros ticks) ∧
      (Run Turn.step Turn.Settling {} acts st → st.phase = .firing ∨ st.phase = .exited → st.queues.micros = []) := by
  constructor
  · exact Queues.settled_drainMicrotasks (Queues.accounted_init micros ticks) rfl
  · intro h hp
    have hq : st.Quiet := h.invariant (fun _ _ _ hi hs hstep => hi.step hs hstep) ⟨rfl, by rintro ⟨⟩⟩
    refine hq.micros ?_
    rcases hp with hp | hp <;> rw [hp] <;> rfl

/-- A tick that enqueues a microtask, with no microtask queued: the drain of ticks at the end of the checkpoint leaves it,
also behind a timer with another one due. -/
theorem tick_strands_microtask : ¬ (Queues.init [] [.mk [.leaf] []]).drainMicrotasks.Settled ∧
      ∃ st, Run Turn.step (fun _ _ => True) {}
          [.run .leaf, .tau, .tau, .wait .leaf .events, .run (.mk [] [.mk [.leaf] []]), .tau] st ∧
        st.phase = .firing ∧ st.queues.micros ≠ [] := by
  constructor
  · intro h
    have hlen : (Queues.init [] [.mk [.leaf] []]).drainMicrotasks.micros.length = 1 := by decide +kernel
    rw [h.micros] at hlen; cases hlen
  · have h : (runs Turn.step {} [.run .leaf, .tau, .tau, .wait .leaf .events, .run (.mk [] [.mk [.leaf] []]), .tau]).map
        (fun st => (st.phase, st.queues.micros.length)) = some (.firing, 1) := by
      decide +kernel
    obtain ⟨st, hst, heq⟩ := Option.map_eq_some_iff.1 h
    obtain ⟨h₁, h₂⟩ := Prod.mk.inj heq
    refine ⟨st, .of_runs hst, h₁, ?_⟩
    intro hn; rw [hn] at h₂; cases h₂

/-- `Settling`, as a check: the checkpoint is run ahead. -/
def Turn.settling (st : Turn) (_ : Act) : Bool :=
  !st.phase.drains || (!st.queues.draining && st.queues.drainMicrotasks.micros.isEmpty)

theorem Turn.settling_of_check {st : Turn} {a : Act} (h : st.settling a = true) : st.Settling a := by
  intro hd
  simp only [settling, hd, Bool.not_true, Bool.false_or, Bool.and_eq_true, Bool.not_eq_true', List.isEmpty_iff] at h
  exact (Queues.drainMicrotasks_micros h.1).1 h.2

/-- A timer whose callback enqueues a microtask and a tick, with another timer due. -/
theorem checkpoint_settles_iff_timer : ∃ st, Run Turn.step Turn.Settling {}
    [.run .leaf, .tau, .tau, .wait .leaf .events, .run (.mk [.leaf] [.leaf]), .tau] st ∧ st.phase = .firing ∧
      st.queues.micros = [] := by
  have h : (runs (fun (st : Turn) a => if st.settling a then st.step a else none) {}
      [.run .leaf, .tau, .tau, .wait .leaf .events, .run (.mk [.leaf] [.leaf]), .tau]).map Turn.phase = some .firing := by
    decide +kernel
  obtain ⟨st, hst, hp⟩ := Option.map_eq_some_iff.1 h
  have hrun := (Run.of_guarded Turn.settling hst).mono (fun _ _ hs => Turn.settling_of_check hs)
  exact ⟨st, hrun, hp, (checkpoint_settles_iff [] [] _ st).2 hrun (.inl hp)⟩

end NodeCompat.Loop
