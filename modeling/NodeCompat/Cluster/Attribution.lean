import NodeCompat.Cluster.Exits
import Mathlib.Data.List.Nodup
import Mathlib.Data.List.Perm.Basic

/-!
# Which worker an exit is given to

An exit in the queue knows its worker by a process id alone, and that is free as soon as the child has been reaped. As long
as no fork gets the process id of an exit that is still queued, the process ids of the queue and of the children are the
distinct process ids of the list (`Books`), so each exit finds its own worker (`exits_attributed`). When a listener's fork
does get one, the exit is given to the new worker, which is alive (`exit_misattributed`).
-/

namespace NodeCompat.Cluster

open List Worker

/-! ## The claim on a history -/

variable {es h : List Event} {id : Nat}

def NoExit (history : List Event) (id : Nat) : Prop := ∀ code signal, .exit id code signal ∉ history

/-- An event comes as it should after others: workers have ids of their own, a process ends once, and a worker emits `'exit'`
once, after its process has ended and it has emitted `'disconnect'`, with its own code or signal. -/
def Fits : Event → List Event → Prop
  | .forked w, before => ∀ w', .forked w' ∈ before → w'.id ≠ w.id
  | .ended id _, before => ∀ ending, .ended id ending ∉ before
  | .exit id code signal, before =>
    (∃ ending, .ended id ending ∈ before ∧ ending.told = (code, signal)) ∧ .disconnect id ∈ before ∧ NoExit before id
  | _, _ => True

/-- Every event fits those before it. -/
def Told : List Event → Prop
  | [] => True
  | e :: before => Fits e before ∧ Told before

/-- The primary is in the program or the event loop, or in `reap`: not in a drain. -/
def Phase.between : Phase → Bool
  | .idle | .reaping _ => true
  | _ => false

/-- Every exit so far has been attributed to the right worker, and none is missing. -/
structure State.Attributed (s : State) : Prop where
  told : Told s.history
  -- what has been reaped has emitted its exit
  delivered : s.phase = .idle → ∀ w, .forked w ∈ s.history →
    (∃ c ∈ s.children, c.worker = w.id) ∨ ∃ code signal, .exit w.id code signal ∈ s.history
  workers : s.phase.between = true → ∀ id w,
    (id, w) ∈ s.workers ↔ id = w.id ∧ .forked w ∈ s.history ∧ NoExit s.history w.id

/-- A fork gets no process id of a queued exit, and a child ends with a code or by a signal of the table. -/
def Distinct (s : State) : Action → Prop
  | .fork (some pid) => ∀ e ∈ s.exits, e.pid ≠ pid
  | .ends _ ending => ending.Known
  | _ => True

instance (s : State) (a : Action) : Decidable (Distinct s a) := by
  unfold Distinct
  split <;> infer_instance

/-! ## Events that concern no exit -/

def Event.mute : Event → Bool
  | .forked _ | .ended _ _ | .disconnect _ | .exit _ _ _ => false
  | _ => true

section

variable (hes : ∀ e ∈ es, e.mute = true)
include hes

theorem mem_mute {e : Event} (he : e.mute = false) : e ∈ es ++ h ↔ e ∈ h := by
  rw [mem_append]
  refine or_iff_right (fun hm => ?_)
  rw [hes e hm] at he; cases he

theorem told_mute (ht : Told h) : Told (es ++ h) := by
  induction es with
  | nil => exact ht
  | cons e es ih =>
    rw [forall_mem_cons] at hes
    refine ⟨?_, ih hes.2⟩
    have he := hes.1
    cases e with
    | forked | ended | disconnect | exit => cases he
    | _ => trivial

theorem noExit_mute : NoExit (es ++ h) id ↔ NoExit h id :=
  forall_congr' (fun _ => forall_congr' (fun _ => not_congr (mem_mute hes rfl)))

end

theorem noExit_cons {e : Event} (he : ∀ code signal, e ≠ .exit id code signal) :
    NoExit (e :: h) id ↔ NoExit h id := by
  refine forall_congr' (fun code => forall_congr' (fun signal => not_congr ?_))
  rw [mem_cons]; exact or_iff_right (fun heq => he code signal heq.symm)

theorem Told.forked_unique : ∀ {h : List Event}, Told h → ∀ {w w' : Worker}, .forked w ∈ h → .forked w' ∈ h →
    w.id = w'.id → w = w'
  | [], _, _, _, hw, _, _ => by cases hw
  | e :: h, ht, w, w', hw, hw', hid => by
    rcases mem_cons.1 hw with rfl | hm
    · rcases mem_cons.1 hw' with heq | hm'
      · exact (Event.forked.inj heq).symm
      · exact absurd hid.symm (ht.1 w' hm')
    · rcases mem_cons.1 hw' with rfl | hm'
      · exact absurd hid (ht.1 w hm)
      · exact ht.2.forked_unique hm hm' hid

/-! ## Looking for a process id -/

theorem findLoop_none {pid : Nat} {ws : List Worker} (h : ∀ w ∈ ws, w.pid ≠ pid) :
    ∀ (index : Nat) (found : Option Nat), State.findLoop pid ws index found = found := by
  induction ws with
  | nil => exact fun _ _ => rfl
  | cons w ws ih =>
    intro index found; rw [forall_mem_cons] at h; rw [State.findLoop, if_neg h.1, ih h.2]

theorem findLoop_last {pid : Nat} {w : Worker} {post : List Worker} (hw : w.pid = pid) (hpost : ∀ x ∈ post, x.pid ≠ pid) :
    ∀ (pre : List Worker) (index : Nat) (found : Option Nat),
      State.findLoop pid (pre ++ w :: post) index found = some (index + pre.length)
  | [], index, found => by rw [nil_append, State.findLoop, if_pos hw, findLoop_none hpost]; rfl
  | x :: pre, index, found => by
    rw [cons_append, State.findLoop, findLoop_last hw hpost pre, length_cons]
    congr 1
    omega

/-! ## The books -/

/-- The worker whose exit is being delivered. -/
def Phase.worker : Phase → Option Worker
  | .delivering worker _ _ _ => some worker
  | _ => none

/-- How far the delivery of a worker's exit has come. -/
inductive Stage (h : List Event) (id : Nat) : List Emit → Prop
  | found : NoExit h id → Stage h id [.workerDisconnect, .disconnect, .workerExit, .exit]
  | left : .disconnect id ∈ h → NoExit h id → Stage h id [.disconnect, .workerExit, .exit]
  | leftCluster : .disconnect id ∈ h → NoExit h id → Stage h id [.workerExit, .exit]
  | exited (code : Option Int) (signal : Option Bytes) : .exit id code signal ∈ h → Stage h id [.exit]
  | done (code : Option Int) (signal : Option Bytes) : .exit id code signal ∈ h → Stage h id []

/-- What holds of the queue and of a delivery in each phase. -/
def State.InPhase (s : State) : Phase → Prop
  | .idle => s.exits = []
  | .reaping any => any = false → s.exits = []
  | .draining => True
  | .delivering w code signal emits =>
    .forked w ∈ s.history ∧ (∃ ending, .ended w.id ending ∈ s.history ∧ ending.told = (code, signal)) ∧
      Stage s.history w.id emits

theorem Stage.mono {h' : List Event} {emits : List Emit} (hsub : h ⊆ h') (hno : NoExit h id → NoExit h' id)
    (hst : Stage h id emits) : Stage h' id emits := by
  cases hst with
  | found hx => exact .found (hno hx)
  | left hd hx => exact .left (hsub hd) (hno hx)
  | leftCluster hd hx => exact .leftCluster (hsub hd) (hno hx)
  | exited code signal he => exact .exited code signal (hsub he)
  | done code signal he => exact .done code signal (hsub he)

theorem State.InPhase.mono {s t : State} (hexits : t.exits = s.exits) (hsub : s.history ⊆ t.history)
    (hno : ∀ id, NoExit s.history id → NoExit t.history id) : ∀ {phase : Phase}, s.InPhase phase → t.InPhase phase
  | .idle, h => hexits.trans h
  | .reaping _, h => fun hany => hexits.trans (h hany)
  | .draining, _ => trivial
  | .delivering w _ _ _, ⟨hw, ⟨ending, hended, htold⟩, hstage⟩ =>
    ⟨hsub hw, ⟨ending, hsub hended, htold⟩, hstage.mono hsub (hno w.id)⟩

structure State.Books (s : State) : Prop where
  told : Told s.history
  ids : ∀ w, .forked w ∈ s.history → w.id ≤ s.nextId_
  known : ∀ id ending, .ended id ending ∈ s.history → ending.Known ∧ id ≤ s.nextId_
  gone : ∀ id code signal, .exit id code signal ∈ s.history → id ≤ s.nextId_
  listed : ∀ w, w ∈ s.list_ ↔ .forked w ∈ s.history ∧ NoExit s.history w.id ∧ s.phase.worker ≠ some w
  nodup : (s.list_.map Worker.pid).Nodup
  -- the exits and the children are those of the workers in the list
  pids : (s.list_.map Worker.pid).Perm (s.exits.map ExitEvent.pid ++ s.children.map Child.pid)
  queued : ∀ e ∈ s.exits, ∀ w ∈ s.list_, w.pid = e.pid →
    ∃ ending, .ended w.id ending ∈ s.history ∧ e = exitEvent w.pid ending
  alive : ∀ c ∈ s.children, ⟨c.worker, c.pid⟩ ∈ s.list_ ∧
    (∀ ending, c.ending = some ending → .ended c.worker ending ∈ s.history) ∧
      (c.ending = none → ∀ ending, .ended c.worker ending ∉ s.history)
  workers : s.workers = s.list_.map (fun w => (w.id, w))
  notifying : s.list_ ≠ [] → s.notifying_ = true
  inPhase : s.InPhase s.phase

namespace State.Books

variable {s : State}

variable {ending : Ending} {signal : Option Bytes} {code : Option Int} {w : Worker}

theorem attributed (h : s.Books) : s.Attributed where
  told := h.told
  delivered := by
    intro hidle w hw
    by_cases hexit : NoExit s.history w.id
    · have hlist : w ∈ s.list_ := (h.listed w).2 ⟨hw, hexit, by rw [hidle]; simp [Phase.worker]⟩
      have hempty := h.inPhase
      rw [hidle] at hempty
      have hempty : s.exits = [] := hempty
      have hpid : w.pid ∈ s.children.map Child.pid := by
        have := h.pids.subset (mem_map_of_mem hlist); rwa [hempty] at this
      obtain ⟨c, hc, hcpid⟩ := mem_map.1 hpid
      have hsame := inj_on_of_nodup_map h.nodup (h.alive c hc).1 hlist hcpid
      exact .inl ⟨c, hc, congrArg Worker.id hsame⟩
    · simp only [NoExit, not_forall, not_not] at hexit; exact .inr hexit
  workers := by
    intro hbetween id w
    have hnone : s.phase.worker = none := by
      cases hp : s.phase with
      | delivering => rw [hp] at hbetween; cases hbetween
      | _ => rfl
    have hlisted := h.listed w
    rw [hnone] at hlisted
    rw [h.workers, mem_map]
    constructor
    · rintro ⟨w', hw', heq⟩
      obtain ⟨rfl, rfl⟩ := Prod.mk.inj heq
      obtain ⟨h₁, h₂, -⟩ := hlisted.1 hw'; exact ⟨rfl, h₁, h₂⟩
    · rintro ⟨rfl, h₁, h₂⟩; exact ⟨w, hlisted.2 ⟨h₁, h₂, by simp⟩, rfl⟩

/-! ## The program -/

/-- Marks, callbacks and microtasks are nothing to the books, nor are events that concern no exit. -/
theorem quiet (h : s.Books) (es : List Event) (hes : ∀ e ∈ es, e.mute = true) (marks : Nat → Marks)
    (pending : List (List Nat)) (microtasks : List Microtask) :
    State.Books { s with marks, pending, microtasks, history := es ++ s.history } where
  told := told_mute hes h.told
  ids := fun w hw => h.ids w ((mem_mute hes rfl).1 hw)
  known := fun id ending he => h.known id ending ((mem_mute hes rfl).1 he)
  gone := fun id code signal he => h.gone id code signal ((mem_mute hes rfl).1 he)
  listed := by
    intro w; rw [mem_mute hes rfl, noExit_mute hes]; exact h.listed w
  nodup := h.nodup
  pids := h.pids
  queued := by
    intro e he w hw hpid
    obtain ⟨ending, hended, heq⟩ := h.queued e he w hw hpid
    exact ⟨ending, mem_append_right es hended, heq⟩
  alive := by
    intro c hc
    obtain ⟨hlist, hsome, hnone⟩ := h.alive c hc
    exact ⟨hlist, fun ending he => mem_append_right es (hsome ending he),
      fun hn ending he => hnone hn ending ((mem_mute hes rfl).1 he)⟩
  workers := h.workers
  notifying := h.notifying
  inPhase := State.InPhase.mono (s := s) (t := { s with marks, pending, microtasks, history := es ++ s.history }) rfl
    (subset_append_right es _) (fun _ => (noExit_mute hes).2) h.inPhase

theorem kills (ws : List Worker) : ∀ s : State, ∃ marks, ws.foldl (fun s w => s.kill w.id) s = { s with marks } := by
  induction ws with
  | nil => exact fun s => ⟨s.marks, rfl⟩
  | cons w ws ih =>
    intro s
    obtain ⟨marks, hmarks⟩ := ih (s.kill w.id); exact ⟨marks, hmarks⟩

theorem disconnect (h : s.Books) (callback : Bool) : (s.disconnect callback).Books := by
  have hquiet := h.quiet [] (by simp)
  unfold State.disconnect
  split
  · split
    · exact hquiet s.marks s.pending _
    · exact h
  · obtain ⟨marks, hmarks⟩ := kills s.list_ s
    rw [hmarks]
    split
    · exact hquiet marks _ s.microtasks
    · exact hquiet marks s.pending s.microtasks

theorem microtask (h : s.Books) : s.microtask.Books := by
  unfold State.microtask
  split
  · exact h
  · next worker rest hm =>
    exact h.quiet [.clusterOnline worker.id, .online worker.id, .clusterFork worker.id] (by simp [Event.mute])
      s.marks s.pending rest
  · next rest hm => exact h.quiet [.callback] (by simp [Event.mute]) s.marks s.pending rest

theorem fork_none (h : s.Books) : (s.fork none).Books where
  told := h.told
  ids := fun w hw => Nat.le_succ_of_le (h.ids w hw)
  known := fun id ending he => ⟨(h.known id ending he).1, Nat.le_succ_of_le (h.known id ending he).2⟩
  gone := fun id code signal he => Nat.le_succ_of_le (h.gone id code signal he)
  listed := h.listed
  nodup := h.nodup
  pids := h.pids
  queued := h.queued
  alive := h.alive
  workers := h.workers
  notifying := fun _ => rfl
  inPhase := State.InPhase.mono (s := s) (t := s.fork none) rfl (Subset.refl _) (fun _ hno => hno) h.inPhase

/-- A new worker joins the list, with a process id that neither a child nor a queued exit has. -/
theorem fork_some (h : s.Books) {pid : Nat} (hos : ∀ c ∈ s.children, c.pid ≠ pid) (hexits : ∀ e ∈ s.exits, e.pid ≠ pid) :
    (s.fork (some pid)).Books := by
  have hnew : pid ∉ s.list_.map Worker.pid := by
    intro hm
    rcases mem_append.1 (h.pids.subset hm) with hm | hm
    · obtain ⟨e, he, hpid⟩ := mem_map.1 hm; exact hexits e he hpid
    · obtain ⟨c, hc, hpid⟩ := mem_map.1 hm; exact hos c hc hpid
  have hno : ∀ id, NoExit s.history id → NoExit (.forked ⟨s.nextId_ + 1, pid⟩ :: s.history) id :=
    fun id => (noExit_cons (by simp)).2
  have hphase : s.phase.worker ≠ some ⟨s.nextId_ + 1, pid⟩ := by
    cases hp : s.phase with
    | delivering w code signal emits =>
      have hin := h.inPhase
      rw [hp] at hin
      intro heq
      obtain rfl : w = ⟨s.nextId_ + 1, pid⟩ := Option.some.inj heq
      exact absurd (h.ids _ hin.1) (Nat.not_succ_le_self _)
    | _ => simp [Phase.worker]
  exact {
    told := ⟨fun w' hw' heq => absurd (heq ▸ h.ids w' hw') (Nat.not_succ_le_self _), h.told⟩
    ids := by
      intro w hw
      rcases mem_cons.1 hw with heq | hw
      · obtain rfl := Event.forked.inj heq; exact Nat.le_refl _
      · exact Nat.le_succ_of_le (h.ids w hw)
    known := by
      intro id ending he
      obtain ⟨hk, hle⟩ := h.known id ending ((mem_cons.1 he).resolve_left (by simp))
      exact ⟨hk, Nat.le_succ_of_le hle⟩
    gone := fun id code signal he =>
      Nat.le_succ_of_le (h.gone id code signal ((mem_cons.1 he).resolve_left (by simp)))
    listed := by
      intro w
      show w ∈ s.list_ ++ [_] ↔ _ ∈ _ :: s.history ∧ NoExit (_ :: s.history) w.id ∧ s.phase.worker ≠ some w
      rw [mem_append, mem_singleton, mem_cons, noExit_cons (by simp), h.listed w, Event.forked.injEq]
      constructor
      · rintro (⟨hf, hx, hp⟩ | rfl)
        · exact ⟨.inr hf, hx, hp⟩
        · exact ⟨.inl rfl, fun code signal he => Nat.not_succ_le_self _ (h.gone _ code signal he), hphase⟩
      · rintro ⟨hw | hf, hx, hp⟩
        · exact .inr hw
        · exact .inl ⟨hf, hx, hp⟩
    nodup := by
      show ((s.list_ ++ [_]).map Worker.pid).Nodup
      rw [map_append]
      refine nodup_append.2 ⟨h.nodup, nodup_singleton _, ?_⟩
      intro a ha b hb hab
      rw [map_singleton, mem_singleton] at hb; rw [hab, hb] at ha; exact hnew ha
    pids := by
      show ((s.list_ ++ [_]).map Worker.pid).Perm (s.exits.map ExitEvent.pid ++ (s.children ++ [_]).map Child.pid)
      rw [map_append, map_append, ← append_assoc]; exact h.pids.append_right _
    queued := by
      intro e he w hw hpid
      rcases mem_append.1 hw with hw | hw
      · obtain ⟨ending, hended, heq⟩ := h.queued e he w hw hpid; exact ⟨ending, mem_cons_of_mem _ hended, heq⟩
      · rw [mem_singleton] at hw; rw [hw] at hpid; exact absurd hpid.symm (hexits e he)
    alive := by
      intro c hc
      rcases mem_append.1 hc with hc | hc
      · obtain ⟨hlist, hsome, hnone⟩ := h.alive c hc
        exact ⟨mem_append_left _ hlist, fun ending he => mem_cons_of_mem _ (hsome ending he),
          fun hn ending he => hnone hn ending ((mem_cons.1 he).resolve_left (by simp))⟩
      · rw [mem_singleton] at hc
        rw [hc]
        refine ⟨mem_append_right _ mem_cons_self, fun ending he => by simp at he, fun _ ending he => ?_⟩
        exact Nat.not_succ_le_self _ (h.known _ ending ((mem_cons.1 he).resolve_left (by simp))).2
    workers := by
      show s.workers ++ [_] = (s.list_ ++ [_]).map _; rw [map_append, h.workers]; rfl
    notifying := fun _ => rfl
    inPhase := State.InPhase.mono (s := s) (t := s.fork (some pid)) rfl (subset_cons_self _ _) hno h.inPhase }

/-! ## The operating system and the reactor -/

theorem ends (h : s.Books) {c : Child} (hc : c ∈ s.children) (halive : c.ending = none)
    (hknown : ending.Known) : (s.ends c.worker ending).Books := by
  obtain ⟨hlist, -, hnever⟩ := h.alive c hc
  have hid : c.worker ≤ s.nextId_ := h.ids _ ((h.listed _).1 hlist).1
  have hno : ∀ id, NoExit s.history id → NoExit (.ended c.worker ending :: s.history) id := fun id => (noExit_cons (by simp)).2
  have hpids : (s.ends c.worker ending).children.map Child.pid = s.children.map Child.pid := by
    unfold State.ends
    rw [map_map]
    refine map_congr_left (fun c' _ => ?_)
    rw [Function.comp_apply]
    split <;> rfl
  exact {
    told := ⟨hnever halive, h.told⟩
    ids := fun w hw => h.ids w ((mem_cons.1 hw).resolve_left (by simp))
    known := by
      intro id e he
      rcases mem_cons.1 he with heq | he
      · obtain ⟨rfl, rfl⟩ := Event.ended.inj heq; exact ⟨hknown, hid⟩
      · exact h.known id e he
    gone := fun id code signal he => h.gone id code signal ((mem_cons.1 he).resolve_left (by simp))
    listed := by
      intro w
      show w ∈ s.list_ ↔ _ ∈ _ :: s.history ∧ NoExit (_ :: s.history) w.id ∧ _
      rw [mem_cons, noExit_cons (by simp), or_iff_right (by simp)]; exact h.listed w
    nodup := h.nodup
    pids := by rw [hpids]; exact h.pids
    queued := by
      intro e he w hw hpid
      obtain ⟨ending', hended, heq⟩ := h.queued e he w hw hpid
      exact ⟨ending', mem_cons_of_mem _ hended, heq⟩
    alive := by
      intro c' hc'
      obtain ⟨c₀, hc₀, rfl⟩ := mem_map.1 hc'
      obtain ⟨hlist₀, hsome, hnone⟩ := h.alive c₀ hc₀
      by_cases hw : c₀.worker = c.worker
      · rw [if_pos hw]
        refine ⟨hlist₀, fun e he => ?_, fun he => by cases he⟩
        obtain rfl : ending = e := Option.some.inj he; rw [← hw]; exact mem_cons_self
      · rw [if_neg hw]
        refine ⟨hlist₀, fun e he => mem_cons_of_mem _ (hsome e he), fun hn e he => ?_⟩
        rcases mem_cons.1 he with heq | he
        · exact hw (Event.ended.inj heq).1
        · exact hnone hn e he
    workers := h.workers
    notifying := h.notifying
    inPhase := State.InPhase.mono (s := s) (t := s.ends c.worker ending) rfl (subset_cons_self _ _) hno h.inPhase }

theorem rephase (h : s.Books) {phase : Phase} (hold : s.phase.worker = none) (hnew : phase.worker = none)
    (hin : s.InPhase phase) : State.Books { s with phase } where
  told := h.told
  ids := h.ids
  known := h.known
  gone := h.gone
  listed := by
    intro w
    have := h.listed w
    rw [hold] at this; rw [hnew]; exact this
  nodup := h.nodup
  pids := h.pids
  queued := h.queued
  alive := h.alive
  workers := h.workers
  notifying := h.notifying
  inPhase := by
    cases phase with
    | delivering => cases hnew
    | _ => exact hin

theorem reap (h : s.Books) {any : Bool} (hphase : s.phase = .reaping any) {c : Child} (hc : c ∈ s.children)
    (hended : c.ending = some ending) : (s.reap c ending).Books := by
  have h₀ : State.Books { s with phase := .reaping true } :=
    h.rephase (by rw [hphase]; rfl) rfl (fun he => by cases he)
  obtain ⟨hlist, hsome, -⟩ := h.alive c hc
  have hpid : (exitEvent c.pid ending).pid = c.pid := by cases ending <;> rfl
  exact {
    told := h.told
    ids := h.ids
    known := h.known
    gone := h.gone
    listed := h₀.listed
    nodup := h.nodup
    pids := by
      show (s.list_.map pid).Perm ((s.exits ++ [_]).map ExitEvent.pid ++ (s.children.erase c).map Child.pid)
      rw [map_append, map_singleton, hpid, append_assoc]
      exact h.pids.trans (((perm_cons_erase hc).map Child.pid).append_left _)
    queued := by
      intro e he w hw hwpid
      rcases mem_append.1 he with he | he
      · exact h.queued e he w hw hwpid
      · rw [mem_singleton] at he
        rw [he, hpid] at hwpid
        obtain rfl : w = ⟨c.worker, c.pid⟩ := inj_on_of_nodup_map h.nodup hw hlist hwpid
        exact ⟨ending, hsome ending hended, he⟩
    alive := fun c' hc' => h.alive c' (mem_of_mem_erase hc')
    workers := h.workers
    notifying := h.notifying
    inPhase := fun he => by cases he }

theorem reaped (h : s.Books) {any : Bool} (hphase : s.phase = .reaping any) :
    State.Books { s with phase := if any && s.notifying_ then .draining else .idle } := by
  refine h.rephase (by rw [hphase]; rfl) (by split <;> rfl) ?_
  split
  · trivial
  · next hno =>
    cases hany : any with
    | false =>
      have hin := h.inPhase; rw [hphase] at hin; exact hin hany
    | true =>
      rw [hany, Bool.true_and] at hno
      have hnil : s.list_ = [] := by
        by_contra hne
        exact hno (h.notifying hne)
      have hperm := h.pids
      rw [hnil] at hperm
      have hexits := (append_eq_nil_iff.1 (nil_perm.1 hperm)).1; exact map_eq_nil_iff.1 hexits

/-! ## `drainExits` -/

theorem told_exitEvent (pid : Nat) (h : ending.Known) :
    ((exitEvent pid ending).exitCode, (exitEvent pid ending).exitSignal) = ending.told := by
  cases ending with
  | exited code =>
    have hcode : ¬ (code : Int) < 0 := by omega
    simp [exitEvent, ExitEvent.exitCode, ExitEvent.exitSignal, Ending.told, hcode]
  | killed signal =>
    have hname : ∀ signal : Signal, (Ending.killed signal).Known → signalName signal = signal.name ∧ signal.name ≠ [] := by
      intro signal hk
      cases signal <;> first | exact ⟨rfl, by decide⟩ | cases hk
    obtain ⟨hsame, hne⟩ := hname signal h
    simp [exitEvent, ExitEvent.exitCode, ExitEvent.exitSignal, Ending.told, hsame, hne]

theorem next_worker (h : s.Books) {e : ExitEvent} {exits : List ExitEvent} (hexits : s.exits = e :: exits) :
    ∃ pre w post, s.list_ = pre ++ w :: post ∧ w.pid = e.pid ∧ ∀ x ∈ pre ++ post, x.pid ≠ e.pid := by
  have hmem : e.pid ∈ s.list_.map pid := by
    refine h.pids.symm.subset (mem_append_left _ ?_)
    rw [hexits]; exact mem_cons_self
  obtain ⟨w, hw, hpid⟩ := mem_map.1 hmem
  obtain ⟨pre, post, hsplit⟩ := append_of_mem hw
  refine ⟨pre, w, post, hsplit, hpid, fun x hx heq => ?_⟩
  have hnd := (perm_middle.map pid).nodup_iff.1 (hsplit ▸ h.nodup)
  rw [map_cons, nodup_cons] at hnd; exact hnd.1 (mem_map.2 ⟨x, hx, heq.trans hpid.symm⟩)

theorem drain_eq {e : ExitEvent} {exits : List ExitEvent} (hexits : s.exits = e :: exits) {pre post : List Worker}
    (hsplit : s.list_ = pre ++ w :: post) (hpid : w.pid = e.pid) (hpost : ∀ x ∈ post, x.pid ≠ e.pid) :
    s.drain = { s with
      exits
      list_ := pre ++ post
      workers := s.workers.filter (fun p => p.1 ≠ w.id)
      marks := Function.update s.marks w.id (State.markExited (s.marks w.id))
      phase := .delivering w e.exitCode e.exitSignal [.workerDisconnect, .disconnect, .workerExit, .exit] } := by
  have hfound : State.findLoop e.pid s.list_ 0 none = some pre.length := by
    rw [hsplit, findLoop_last hpid hpost, Nat.zero_add]
  have hget : s.list_[pre.length]? = some w := by
    rw [hsplit, getElem?_append_right (Nat.le_refl _), Nat.sub_self]; rfl
  have herase : s.list_.eraseIdx pre.length = pre ++ post := by
    rw [hsplit, eraseIdx_append_of_length_le (Nat.le_refl _), Nat.sub_self]; rfl
  unfold State.drain
  rw [hexits]
  dsimp only
  rw [hfound]
  dsimp only
  rw [hget]
  dsimp only; rw [herase]

theorem drain (h : s.Books) (hphase : s.phase.worker = none) : s.drain.Books := by
  cases hexits : s.exits with
  | nil =>
    have hdrain : s.drain = { s with phase := .idle } := by unfold State.drain; rw [hexits]
    rw [hdrain]; exact h.rephase hphase rfl hexits
  | cons e exits =>
    obtain ⟨pre, w, post, hsplit, hpid, hother⟩ := h.next_worker hexits
    rw [drain_eq hexits hsplit hpid (fun x hx => hother x (mem_append_right pre hx))]
    have hw : w ∈ s.list_ := by rw [hsplit]; exact mem_append_right pre mem_cons_self
    have hrest : ∀ x, x ∈ pre ++ post ↔ x ∈ s.list_ ∧ x ≠ w := by
      intro x
      rw [hsplit, (perm_middle : (pre ++ w :: post).Perm (w :: (pre ++ post))).mem_iff, mem_cons]
      constructor
      · intro hx; exact ⟨.inr hx, fun heq => hother x hx (heq ▸ hpid)⟩
      · rintro ⟨rfl | hx, hne⟩
        · exact absurd rfl hne
        · exact hx
    obtain ⟨hforked, hnoexit, -⟩ := (h.listed w).1 hw
    obtain ⟨ending, hended, heq⟩ := h.queued e (by rw [hexits]; exact mem_cons_self) w hw hpid
    have hperm : (w.pid :: (pre ++ post).map pid).Perm
        (e.pid :: (exits.map ExitEvent.pid ++ s.children.map Child.pid)) := by
      have := h.pids; rw [hsplit, hexits] at this; exact ((perm_middle.map pid).symm.trans this)
    have hnd : (w.pid :: (pre ++ post).map pid).Nodup := (perm_middle.map pid).nodup_iff.1 (hsplit ▸ h.nodup)
    exact {
      told := h.told
      ids := h.ids
      known := h.known
      gone := h.gone
      listed := by
        intro x
        rw [hrest, h.listed x, hphase]
        constructor
        · rintro ⟨⟨h₁, h₂, -⟩, hne⟩; exact ⟨h₁, h₂, fun heq => hne (Option.some.inj heq).symm⟩
        · rintro ⟨h₁, h₂, hne⟩; exact ⟨⟨h₁, h₂, by simp⟩, fun heq => hne (congrArg some heq.symm)⟩
      nodup := (nodup_cons.1 hnd).2
      pids := by rw [hpid] at hperm; exact hperm.cons_inv
      queued := fun e' he' x hx => h.queued e' (by rw [hexits]; exact mem_cons_of_mem e he') x ((hrest x).1 hx).1
      alive := by
        intro c hc
        obtain ⟨hlist, hchild⟩ := h.alive c hc
        refine ⟨(hrest _).2 ⟨hlist, fun heq => ?_⟩, hchild⟩
        have hnd' := hperm.nodup_iff.1 hnd
        rw [nodup_cons] at hnd'
        refine hnd'.1 (mem_append_right _ (mem_map.2 ⟨c, hc, ?_⟩))
        rw [← hpid, ← heq]
      workers := by
        show s.workers.filter _ = _
        have hids : ∀ x ∈ pre ++ post, x.id ≠ w.id := by
          intro x hx hid
          obtain ⟨hx, hne⟩ := (hrest x).1 hx
          exact hne (h.told.forked_unique ((h.listed x).1 hx).1 hforked hid)
        rw [h.workers, hsplit, filter_map]
        congr 1
        rw [filter_append, filter_cons, if_neg (by simp), ← filter_append]
        refine filter_eq_self.2 (fun x hx => ?_)
        simpa using hids x hx
      notifying := fun _ => h.notifying (by rw [hsplit]; simp)
      inPhase := ⟨hforked, ⟨ending, hended, by rw [heq, told_exitEvent w.pid (h.known w.id ending hended).1]⟩, .found hnoexit⟩ }

theorem advance (h : s.Books) {emits emits' : List Emit}
    (hphase : s.phase = .delivering w code signal emits) {e : Event}
    (he : e.mute = true ∨ e = .disconnect w.id ∨ e = .exit w.id code signal) (hfits : Fits e s.history)
    (hstage : Stage (e :: s.history) w.id emits') :
    State.Books { s with phase := .delivering w code signal emits', history := e :: s.history } := by
  have hforked : ∀ x, .forked x ∈ e :: s.history ↔ .forked x ∈ s.history := by
    intro x
    rw [mem_cons]
    refine or_iff_right ?_
    rintro rfl
    rcases he with he | he | he <;> cases he
  have hended : ∀ id ending, .ended id ending ∈ e :: s.history ↔ .ended id ending ∈ s.history := by
    intro id ending
    rw [mem_cons]
    refine or_iff_right ?_
    rintro rfl
    rcases he with he | he | he <;> cases he
  have hexit : ∀ id code' signal', .exit id code' signal' ∈ e :: s.history → id = w.id ∨ .exit id code' signal' ∈ s.history := by
    intro id code' signal' hm
    rcases mem_cons.1 hm with rfl | hm
    · rcases he with he | he | he
      · cases he
      · cases he
      · exact .inl (Event.exit.inj he).1
    · exact .inr hm
  have hin := h.inPhase
  rw [hphase] at hin
  obtain ⟨hw, ⟨ending, hwended, htold⟩, -⟩ := hin
  exact {
    told := ⟨hfits, h.told⟩
    ids := fun x hx => h.ids x ((hforked x).1 hx)
    known := fun id ending hm => h.known id ending ((hended id ending).1 hm)
    gone := by
      intro id code' signal' hm
      rcases hexit id code' signal' hm with rfl | hm
      · exact h.ids w hw
      · exact h.gone id code' signal' hm
    listed := by
      intro x
      have hx := h.listed x
      rw [hphase] at hx
      rw [hforked, hx]
      constructor
      · rintro ⟨h₁, h₂, hne⟩
        refine ⟨h₁, fun code' signal' hm => ?_, hne⟩
        rcases hexit x.id code' signal' hm with hid | hm
        · exact hne (congrArg some (h.told.forked_unique hw h₁ hid.symm))
        · exact h₂ code' signal' hm
      · rintro ⟨h₁, h₂, hne⟩; exact ⟨h₁, fun code' signal' hm => h₂ code' signal' (mem_cons_of_mem e hm), hne⟩
    nodup := h.nodup
    pids := h.pids
    queued := by
      intro x hx y hy hpid
      obtain ⟨ending', hm, heq⟩ := h.queued x hx y hy hpid
      exact ⟨ending', mem_cons_of_mem e hm, heq⟩
    alive := by
      intro c hc
      obtain ⟨hlist, hsome, hnone⟩ := h.alive c hc
      exact ⟨hlist, fun ending he => mem_cons_of_mem e (hsome ending he),
        fun hn ending hm => hnone hn ending ((hended _ ending).1 hm)⟩
    workers := h.workers
    notifying := h.notifying
    inPhase := ⟨mem_cons_of_mem e hw, ⟨ending, mem_cons_of_mem e hwended, htold⟩, hstage⟩ }

theorem emit (h : s.Books) {e : Emit} {emits : List Emit}
    (hphase : s.phase = .delivering w code signal (e :: emits)) : (s.emit w code signal e emits).Books := by
  have hin := h.inPhase
  rw [hphase] at hin
  obtain ⟨-, hended, hstage⟩ := hin
  cases hstage with
  | found hno => exact h.advance hphase (.inr (.inl rfl)) trivial (.left mem_cons_self ((noExit_cons (by simp)).2 hno))
  | left hleft hno =>
    exact h.advance hphase (.inl rfl) trivial (.leftCluster (mem_cons_of_mem _ hleft) ((noExit_cons (by simp)).2 hno))
  | leftCluster hleft hno =>
    have hstage : Stage (.exit w.id code signal :: s.history) w.id [.exit] := .exited code signal mem_cons_self
    have hexited := h.advance hphase (.inr (.inr rfl)) ⟨hended, hleft, hno⟩ hstage
    refine hexited.quiet _ (fun e he => ?_) s.marks _ s.microtasks
    obtain ⟨x, -, rfl⟩ := mem_map.1 he; rfl
  | exited code' signal' hm =>
    exact h.advance hphase (.inl rfl) trivial (.done code' signal' (mem_cons_of_mem _ hm))

theorem settled (h : s.Books)
    (hphase : s.phase = .delivering w code signal []) : State.Books { s with phase := .draining } where
  told := h.told
  ids := h.ids
  known := h.known
  gone := h.gone
  listed := by
    intro x
    have hx := h.listed x
    have hin := h.inPhase
    rw [hphase] at hx hin
    obtain ⟨-, -, hstage⟩ := hin
    cases hstage with
    | done code' signal' hm =>
      refine hx.trans (and_congr_right (fun _ => and_congr_right (fun hno => iff_of_true ?_ (by simp [Phase.worker]))))
      intro heq
      obtain rfl : w = x := Option.some.inj heq; exact hno code' signal' hm
  nodup := h.nodup
  pids := h.pids
  queued := h.queued
  alive := h.alive
  workers := h.workers
  notifying := h.notifying
  inPhase := trivial

end State.Books

/-! ## Every run -/

theorem books_init : State.Books {} where
  told := trivial
  ids := by simp
  known := by simp
  gone := by simp
  listed := by simp
  nodup := nodup_nil
  pids := Perm.nil
  queued := by simp
  alive := by simp
  workers := rfl
  notifying := fun h => absurd rfl h
  inPhase := rfl

theorem step_books (s : State) (a : Action) (s' : State) (h : s.Books) (hp : Distinct s a) (hst : step s a = some s') :
    s'.Books := by
  cases a with
  | fork answer =>
    simp only [step] at hst
    split at hst
    · next hen =>
      cases hst
      cases answer with
      | none => exact h.fork_none
      | some pid =>
        rw [Bool.and_eq_true] at hen
        have hos := hen.2
        simp only [Option.all_some, Bool.and_eq_true, decide_eq_true_eq, all_eq_true] at hos
        exact h.fork_some hos.2 hp
    · cases hst
  | kill id =>
    simp only [step] at hst
    split at hst
    · cases hst; exact h.quiet [] (by simp) _ s.pending s.microtasks
    · cases hst
  | disconnect callback =>
    simp only [step] at hst
    split at hst
    · cases hst; exact h.disconnect callback
    · cases hst
  | microtask =>
    simp only [step] at hst
    split at hst
    · cases hst; exact h.microtask
    · cases hst
  | ends id ending =>
    simp only [step] at hst
    split at hst
    · next hany =>
      cases hst
      obtain ⟨c, hc, hcond⟩ := any_eq_true.1 hany
      obtain ⟨rfl, halive⟩ := of_decide_eq_true hcond; exact h.ends hc halive hp
    · cases hst
  | ready =>
    simp only [step] at hst
    split at hst
    · next hidle =>
      cases hst
      have hin := h.inPhase
      rw [hidle] at hin; exact h.rephase (by rw [hidle]; rfl) rfl (fun _ => hin)
    · cases hst
  | reap id =>
    simp only [step] at hst
    split at hst
    · next any c hphase hfind =>
      obtain ⟨ending, hended, rfl⟩ := Option.map_eq_some_iff.1 hst; exact h.reap hphase (mem_of_find?_eq_some hfind) hended
    · cases hst
  | reaped =>
    simp only [step] at hst
    split at hst
    · next any hphase =>
      cases hst; exact h.reaped hphase
    · cases hst
  | drain =>
    simp only [step] at hst
    split at hst
    · next hphase =>
      cases hst; exact h.drain (by rw [hphase]; rfl)
    · next w code signal hphase =>
      cases hst; exact (h.settled hphase).drain rfl
    · cases hst
  | emit =>
    simp only [step] at hst
    split at hst
    · next w code signal e emits hphase =>
      cases hst; exact h.emit hphase
    · cases hst

/-- **Exits are attributed to the right worker**: in every run of the program, the operating system, the reactor and
`drainExits`, as long as no fork gets the process id of a queued exit and no child ends by a signal outside the table. -/
theorem exits_attributed {as : List Action} {s : State} (h : Run step Distinct {} as s) : s.Attributed :=
  (h.invariant step_books books_init).attributed

/-- Two workers have ended and been reaped, and a listener of the first exit forks a third, which gets this process id. -/
def forkInListener (pid : Nat) : List Action :=
  [.fork (some 10), .fork (some 11), .ends 2 (.exited 0), .ends 1 (.exited 7), .ready, .reap 2, .reap 1, .reaped, .drain,
    .emit, .emit, .emit, .emit, .fork (some pid), .drain, .emit, .emit, .emit]

theorem exits_attributed_fork : ∃ s, runs step {} (forkInListener 12) = some s ∧ s.Attributed ∧
    .exit 1 (some 7) none ∈ s.history := by
  obtain ⟨s, hs⟩ : ∃ s, runs (fun s a => if decide (Distinct s a) then step s a else none) {} (forkInListener 12) = some s :=
    ⟨_, rfl⟩
  have hrun : Run step Distinct {} (forkInListener 12) s :=
    (Run.of_guarded (fun s a => decide (Distinct s a)) hs).mono (fun s a h => of_decide_eq_true h)
  refine ⟨s, hrun.replay, exits_attributed hrun, ?_⟩
  cases hs; exact mem_cons_self

/-- With the process id of the exit that is still queued, the new worker gets that exit; and a worker that is killed by a
signal outside the table exits with neither a code nor a signal. -/
theorem exit_misattributed : (∃ s, runs step {} (forkInListener 10) = some s ∧ ¬ s.Attributed) ∧
      ∃ s, runs step {} [.fork (some 10), .ends 1 (.killed (.other (text "SIGBUS"))), .ready, .reap 1, .reaped, .drain,
        .emit, .emit, .emit] = some s ∧ ¬ s.Attributed := by
  constructor
  · obtain ⟨s, hs, hhistory⟩ : ∃ s, runs step {} (forkInListener 10) = some s ∧ s.history =
        [.exit 3 (some 7) none, .clusterDisconnect 3, .disconnect 3, .forked ⟨3, 10⟩, .clusterExit 2 (some 0) none,
          .exit 2 (some 0) none, .clusterDisconnect 2, .disconnect 2, .ended 1 (.exited 7), .ended 2 (.exited 0),
          .forked ⟨2, 11⟩, .forked ⟨1, 10⟩] := ⟨_, rfl, rfl⟩
    refine ⟨s, hs, fun h => ?_⟩
    have htold := h.told
    rw [hhistory] at htold
    obtain ⟨⟨⟨ending, hm, -⟩, -⟩, -⟩ := htold; simp at hm
  · obtain ⟨s, hs, hhistory⟩ : ∃ s, runs step {} [.fork (some 10), .ends 1 (.killed (.other (text "SIGBUS"))), .ready,
          .reap 1, .reaped, .drain, .emit, .emit, .emit] = some s ∧ s.history =
        [.exit 1 none none, .clusterDisconnect 1, .disconnect 1, .ended 1 (.killed (.other (text "SIGBUS"))),
          .forked ⟨1, 10⟩] := ⟨_, rfl, rfl⟩
    refine ⟨s, hs, fun h => ?_⟩
    have htold := h.told
    rw [hhistory] at htold
    obtain ⟨⟨⟨ending, hm, hpayload⟩, -⟩, -⟩ := htold
    obtain rfl : ending = .killed (.other (text "SIGBUS")) := by simpa using hm
    cases hpayload

end NodeCompat.Cluster
