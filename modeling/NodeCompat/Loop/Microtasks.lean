import Mathlib.Algebra.Ring.Nat

/-!
# The microtask checkpoint

The microtask queue and the next-tick queue, and `drain_microtasks`: each microtask is run after every tick that is
pending, and the ticks that are left when the microtasks run out are drained at the end. Whatever the callbacks enqueue,
each queue is run in order and no microtask starts before a pending tick (`accounted_drainMicrotasks`). The last drain
of ticks may enqueue microtasks, though, and no loop comes back for them: `drainMicrotasks_micros` says when it does.

A callback is known by what running it enqueues, so programs are finite trees (`Job`). `generations` are the microtasks
by how they come about: those that the callbacks of one generation enqueue, directly or through ticks, are the next.
-/

namespace NodeCompat.Loop

open List

/-- A callback, by the microtasks and ticks it enqueues. -/
inductive Job
  | mk (micros ticks : List Job)

namespace Job

def micros : Job → List Job
  | mk ms _ => ms

def ticks : Job → List Job
  | mk _ ts => ts

/-- A callback that enqueues nothing. -/
def leaf : Job := mk [] []

mutual

/-- How many callbacks a callback stands for, itself included. -/
def size : Job → Nat
  | mk ms ts => 1 + weight ms + weight ts

/-- How many callbacks are left to run. -/
def weight : List Job → Nat
  | [] => 0
  | j :: js => size j + weight js

end

@[simp] theorem weight_nil : weight [] = 0 := rfl

@[simp] theorem weight_cons (j : Job) (js : List Job) : weight (j :: js) = size j + weight js := rfl

@[simp] theorem weight_append (js ks : List Job) : weight (js ++ ks) = weight js + weight ks := by
  induction js with
  | nil => simp
  | cons j js ih => rw [cons_append, weight_cons, weight_cons, ih]; omega

theorem weight_lt (j : Job) : weight j.micros + weight j.ticks < j.size := by
  obtain ⟨ms, ts⟩ := j; simp only [micros, ticks, size]; omega

/-- The ticks that some ticks lead to, in the order in which they are run. -/
def ticksRun : List Job → List Job
  | [] => []
  | t :: ts => t :: ticksRun (ts ++ t.ticks)
termination_by ts => weight ts
decreasing_by
  have := weight_lt t
  rw [weight_append, weight_cons]
  omega

/-- The microtasks that some ticks enqueue, also through further ticks. -/
def viaTicks (ts : List Job) : List Job := (ticksRun ts).flatMap micros

/-- The microtasks that a callback leads to. -/
def children (j : Job) : List Job := j.micros ++ viaTicks j.ticks

/-- The microtasks by how they come about, starting from some callbacks. -/
def generations : List Job → Nat → List Job
  | js, 0 => js
  | js, k + 1 => generations (js.flatMap children) k

/-- A generation of which only the last callback leads to microtasks, and that one through its ticks only. -/
def Strands (js : List Job) : Prop :=
  ∃ front last, js = front ++ [last] ∧ front.flatMap children = [] ∧ last.micros = [] ∧ viaTicks last.ticks ≠ []

/-- No generation strands microtasks, from the callback that has enqueued what is in the queues. -/
def Settles (micros ticks : List Job) : Prop := ∀ k, ¬ Strands (generations [mk micros ticks] k)

theorem viaTicks_nil : viaTicks [] = [] := by
  simp [viaTicks, ticksRun]

theorem viaTicks_cons (t : Job) (ts : List Job) : viaTicks (t :: ts) = t.micros ++ viaTicks (ts ++ t.ticks) := by
  simp [viaTicks, ticksRun]

theorem generations_nil : ∀ k, generations [] k = []
  | 0 => rfl
  | k + 1 => generations_nil k

theorem not_strands_nil : ¬ Strands [] := by
  rintro ⟨front, last, h, -⟩; exact absurd h.symm (by simp)

theorem strands_append {front : List Job} {last : Job} : Strands (front ++ [last]) ↔
    front.flatMap children = [] ∧ last.micros = [] ∧ viaTicks last.ticks ≠ [] := by
  constructor
  · rintro ⟨front', last', h, hs⟩
    obtain ⟨rfl, rfl⟩ : front = front' ∧ last = last' := by simpa using h
    exact hs
  · intro h; exact ⟨front, last, rfl, h⟩

theorem forall_generations {js : List Job} :
    (∀ k, ¬ Strands (generations js k)) ↔ ¬ Strands js ∧ ∀ k, ¬ Strands (generations (js.flatMap children) k) := by
  constructor
  · intro h; exact ⟨h 0, fun k => h (k + 1)⟩
  · rintro ⟨h₀, h⟩ k
    cases k with
    | zero => exact h₀
    | succ k => exact h k

end Job

/-! ## The queues -/

/-- `microtasks()`, `next_ticks()` and the flag of `drain_microtasks`, with what has happened: the callbacks enqueued and
run, and how many ticks were pending when each microtask started. -/
structure Queues where
  micros : List Job := []
  ticks : List Job := []
  draining : Bool := false
  queuedMicros : List Job := []
  queuedTicks : List Job := []
  ranMicros : List Job := []
  ranTicks : List Job := []
  pendingAtStart : List Nat := []

namespace Queues

open Job

/-- Queues with some content. -/
def init (micros ticks : List Job) : Queues := { micros, ticks, queuedMicros := micros, queuedTicks := ticks }

/-- A callback runs: `queue_microtask` and `queue_next_tick` put what it enqueues behind what is queued. -/
def run (q : Queues) (j : Job) : Queues := { q with
    micros := q.micros ++ j.micros
    ticks := q.ticks ++ j.ticks
    queuedMicros := q.queuedMicros ++ j.micros
    queuedTicks := q.queuedTicks ++ j.ticks }

/-- The first tick is taken out and run. -/
def runTick (q : Queues) (t : Job) (rest : List Job) : Queues :=
  { q with ticks := rest, ranTicks := q.ranTicks ++ [t] }.run t

def drainNextTicks (q : Queues) : Queues :=
  match _ : q.ticks with
  | [] => q
  | t :: rest => drainNextTicks (q.runTick t rest)
termination_by weight q.ticks
decreasing_by
  have := weight_lt t
  simp only [runTick, run, weight_append, ‹q.ticks = t :: rest›, weight_cons]
  omega

/-- The first microtask is run where it is queued, and then taken out. -/
def runMicrotask (q : Queues) (j : Job) : Queues :=
  let q := { q with ranMicros := q.ranMicros ++ [j], pendingAtStart := q.pendingAtStart ++ [q.ticks.length] }.run j
  { q with micros := q.micros.tail }

theorem weight_drainNextTicks (q : Queues) :
    weight q.drainNextTicks.micros + weight q.drainNextTicks.ticks ≤ weight q.micros + weight q.ticks := by
  fun_induction drainNextTicks q with
  | case1 q h => exact Nat.le_refl _
  | case2 q t rest h ih =>
    have := weight_lt t; simp only [runTick, run, weight_append, h, weight_cons] at ih ⊢; omega

/-- The loop of `drain_microtasks`. -/
def microtaskLoop (q : Queues) : Queues :=
  match q.micros with
  | [] => q
  | _ :: _ =>
    match _ : q.drainNextTicks.micros with
    | [] => q.drainNextTicks
    | j :: _ => microtaskLoop (q.drainNextTicks.runMicrotask j)
termination_by weight q.micros + weight q.ticks
decreasing_by
  have h₁ := weight_drainNextTicks q
  have h₂ := weight_lt j
  simp only [runMicrotask, run, ‹q.drainNextTicks.micros = j :: _›, cons_append, tail_cons, weight_append,
    weight_cons] at h₁ ⊢
  omega

/-- A drain entered from inside a microtask does nothing. The ticks are checked before each drain of them only to save
the call: with none pending it does nothing. -/
def drainMicrotasks (q : Queues) : Queues :=
  if q.draining then q else { { q with draining := true }.microtaskLoop.drainNextTicks with draining := false }

/-! ## In order, each callback once -/

/-- Each queue has run its callbacks in the order in which they were enqueued, each once, and the rest is queued; every
microtask started with no tick pending. -/
structure Accounted (q : Queues) : Prop where
  micros : q.ranMicros ++ q.micros = q.queuedMicros
  ticks : q.ranTicks ++ q.ticks = q.queuedTicks
  ordered : ∀ n ∈ q.pendingAtStart, n = 0

variable {q : Queues}

theorem accounted_init (micros ticks : List Job) : (init micros ticks).Accounted := ⟨rfl, rfl, by rintro n ⟨⟩⟩

namespace Accounted

theorem runTick (h : q.Accounted) {t : Job} {rest : List Job} (ht : q.ticks = t :: rest) : (q.runTick t rest).Accounted := by
  refine ⟨?_, ?_, h.ordered⟩
  · show q.ranMicros ++ (q.micros ++ t.micros) = q.queuedMicros ++ t.micros; rw [← append_assoc, h.micros]
  · show q.ranTicks ++ [t] ++ (rest ++ t.ticks) = q.queuedTicks ++ t.ticks; rw [← h.ticks, ht]; simp

theorem drainNextTicks (h : q.Accounted) : q.drainNextTicks.Accounted := by
  fun_induction Queues.drainNextTicks q with
  | case1 q _ => exact h
  | case2 q t rest ht ih => exact ih (h.runTick ht)

theorem runMicrotask (h : q.Accounted) (ht : q.ticks = []) {j : Job} {rest : List Job} (hm : q.micros = j :: rest) :
    (q.runMicrotask j).Accounted := by
  refine ⟨?_, ?_, ?_⟩
  · show q.ranMicros ++ [j] ++ (q.micros ++ j.micros).tail = q.queuedMicros ++ j.micros; rw [← h.micros, hm]; simp
  · show q.ranTicks ++ (q.ticks ++ j.ticks) = q.queuedTicks ++ j.ticks; rw [← append_assoc, h.ticks]
  · intro n hn
    rcases mem_append.1 hn with hn | hn
    · exact h.ordered n hn
    · rw [mem_singleton.1 hn, ht]; rfl

end Accounted

/-- What a drain of ticks leaves: no tick, and behind the microtasks those that the ticks lead to. -/
theorem drainNextTicks_spec (q : Queues) : q.drainNextTicks.ticks = [] ∧
    q.drainNextTicks.micros = q.micros ++ viaTicks q.ticks ∧ q.drainNextTicks.draining = q.draining := by
  fun_induction drainNextTicks q with
  | case1 q h => rw [h, viaTicks_nil, append_nil]; exact ⟨rfl, rfl, rfl⟩
  | case2 q t rest h ih =>
    obtain ⟨h₁, h₂, h₃⟩ := ih
    refine ⟨h₁, ?_, h₃⟩
    rw [h₂, h, viaTicks_cons, ← append_assoc]; rfl

theorem accounted_microtaskLoop (h : q.Accounted) : q.microtaskLoop.Accounted := by
  fun_induction microtaskLoop q with
  | case1 q _ => exact h
  | case2 q j rest hm hd => exact h.drainNextTicks
  | case3 q j rest hm k rest' hd ih => exact ih (h.drainNextTicks.runMicrotask (drainNextTicks_spec q).1 hd)

/-- **In order, each callback once, and no microtask before a pending tick**: in every state a drain leaves. -/
theorem accounted_drainMicrotasks (h : q.Accounted) : q.drainMicrotasks.Accounted := by
  unfold drainMicrotasks
  split
  · exact h
  · have hd : ({ q with draining := true } : Queues).Accounted := ⟨h.micros, h.ticks, h.ordered⟩
    have hl := (accounted_microtaskLoop hd).drainNextTicks; exact ⟨hl.micros, hl.ticks, hl.ordered⟩

/-! ## What is left -/

theorem microtaskLoop_micros (q : Queues) : q.microtaskLoop.micros = [] := by
  fun_induction microtaskLoop q with
  | case1 q h => exact h
  | case2 q j rest hm hd => exact hd
  | case3 q j rest hm k rest' hd ih => exact ih

/-- The loop behind the callback `j` of a generation, the callbacks `before` it run and those `behind` it queued: it ends
with ticks that lead to no microtask exactly if no generation from here on strands microtasks. -/
theorem microtaskLoop_ticks {before behind : List Job} {j : Job}
    (hm : q.micros = behind ++ before.flatMap children ++ j.micros) (ht : q.ticks = j.ticks) :
    viaTicks q.microtaskLoop.ticks = [] ↔ ∀ k, ¬ Strands (generations (before ++ j :: behind) k) := by
  fun_induction microtaskLoop q generalizing before behind j with
  | case1 q h =>
    rw [h, eq_comm, append_eq_nil_iff, append_eq_nil_iff] at hm
    obtain ⟨⟨rfl, hb⟩, hj⟩ := hm
    rw [ht, forall_generations, strands_append]
    constructor
    · intro hv
      refine ⟨fun hs => hs.2.2 hv, fun k => ?_⟩
      rw [flatMap_append, hb, flatMap_singleton, children, hj, hv]
      exact (generations_nil k).symm ▸ not_strands_nil
    · rintro ⟨hs, -⟩
      by_contra hv
      exact hs ⟨hb, hj, hv⟩
  | case2 q x xs hx hd => rw [(drainNextTicks_spec q).2.1, hx] at hd; cases hd
  | case3 q x xs hx i rest hd ih =>
    obtain ⟨hticks, hmicros, -⟩ := drainNextTicks_spec q
    have hnext : i :: rest = behind ++ (before ++ [j]).flatMap children := by
      rw [← hd, hmicros, hm, ht]; simp [children]
    have hrun : (q.drainNextTicks.runMicrotask i).micros = rest ++ i.micros := by simp [runMicrotask, run, hd]
    have hrunt : (q.drainNextTicks.runMicrotask i).ticks = i.ticks := by simp [runMicrotask, run, hticks]
    cases behind with
    | cons b bs =>
      obtain ⟨rfl, hrest⟩ := List.cons.inj hnext
      have hih : (q.drainNextTicks.runMicrotask i).micros = bs ++ (before ++ [j]).flatMap children ++ i.micros := by
        rw [hrun, hrest]; rfl
      rw [ih hih hrunt, append_assoc]; rfl
    | nil =>
      have hstr : ¬ Strands (before ++ [j]) := by
        rw [strands_append]
        rintro ⟨hb, hj, -⟩; rw [hx, hb, hj] at hm; cases hm
      have hih : (q.drainNextTicks.runMicrotask i).micros = rest ++ List.flatMap children [] ++ i.micros := by
        rw [hrun]; simp
      have hgen := ih hih hrunt
      rw [nil_append, hnext, nil_append] at hgen
      exact hgen.trans ((and_iff_right hstr).symm.trans forall_generations.symm)

/-- **What a drain leaves of the microtasks**: nothing, exactly if no generation strands microtasks. -/
theorem drainMicrotasks_micros (hq : q.draining = false) :
    q.drainMicrotasks.micros = [] ↔ Settles q.micros q.ticks := by
  have hl := microtaskLoop_micros { q with draining := true }
  have hd := (drainNextTicks_spec ({ q with draining := true } : Queues).microtaskLoop).2.1
  unfold drainMicrotasks
  rw [if_neg (by simp [hq])]
  rw [hd, hl, nil_append]
  have hm : q.micros = [] ++ List.flatMap children [] ++ (Job.mk q.micros q.ticks).micros := rfl
  exact microtaskLoop_ticks (q := { q with draining := true }) hm rfl

theorem drainMicrotasks_ticks (hq : q.draining = false) :
    q.drainMicrotasks.ticks = [] ∧ q.drainMicrotasks.draining = false := by
  unfold drainMicrotasks; rw [if_neg (by simp [hq])]; exact ⟨(drainNextTicks_spec _).1, rfl⟩

/-- A checkpoint has done its work: nothing is queued, every callback has run once, in order, and no microtask before a
pending tick. -/
structure Settled (q : Queues) : Prop where
  micros : q.micros = []
  ticks : q.ticks = []
  ranMicros : q.ranMicros = q.queuedMicros
  ranTicks : q.ranTicks = q.queuedTicks
  ordered : ∀ n ∈ q.pendingAtStart, n = 0

theorem settled_drainMicrotasks (h : q.Accounted) (hq : q.draining = false) :
    q.drainMicrotasks.Settled ↔ Settles q.micros q.ticks := by
  rw [← drainMicrotasks_micros hq]
  constructor
  · exact Settled.micros
  · intro hm
    have ha := accounted_drainMicrotasks h
    have ht := (drainMicrotasks_ticks hq).1
    refine ⟨hm, ht, ?_, ?_, ha.ordered⟩
    · rw [← ha.micros, hm, append_nil]
    · rw [← ha.ticks, ht, append_nil]

end Queues

end NodeCompat.Loop
