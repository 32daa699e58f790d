import NodeCompat.Lib.Run
import NodeCompat.Lib.Tickets
import Mathlib.Data.List.Sort
import Mathlib.Algebra.Order.Ring.Rat

/-!
# Timers

The registry of `setTimeout` and `setInterval` and the pass of `fireDue` over it. The due timers are copied out and sorted
before any callback runs, those that repeat are armed again at once and the others leave the registry; a side set of ids says
which of the copies are still to run. User code runs in a callback, or in the checkpoint behind it, and may add, clear and
unreference timers. A timer is a ticket, issued by `add`, revoked by `remove` and used when its callback is called.
-/

namespace NodeCompat.Loop

open List

open Ticket

structure Timer where
  id : Nat
  dueMs : ℚ
  intervalMs : ℚ
  repeats : Bool
  referenced : Bool := true
deriving DecidableEq

/-- The order of a pass: `a` is not behind `b`. -/
def Timer.upTo (a b : Timer) : Prop := if b.dueMs ≠ a.dueMs then ¬ b.dueMs < a.dueMs else ¬ b.id < a.id

instance : DecidableRel Timer.upTo := fun a b => by unfold Timer.upTo; infer_instance

/-- The pass under way: the due timers that it has not come to, and whether a callback or the checkpoint behind it is under
way. -/
structure TimerPass where
  left : List Timer
  busy : Bool := false
deriving DecidableEq

/-- `log` is what has happened to the timers. -/
structure Timers where
  registry : List Timer := []
  lastId : Nat := 0
  firingDue : List Nat := []
  pass : Option TimerPass := none
  log : List Ticket := []
deriving DecidableEq

namespace Timers

/-- What user code does with a clock reading, what the loop does, and what the pass does. -/
inductive Label
  | add (nowMs delayMs : ℚ) (repeats : Bool)
  | remove (id : Nat)
  | unref (id : Nat)
  | fireDue (now : ℚ)
  | next -- the loop of the pass takes its next step
  | back -- the checkpoint behind a callback is over
deriving DecidableEq

/-- Whether user code is running: outside the pass, or in a callback of it. -/
def user (s : Timers) : Bool :=
  match s.pass with
  | none => true
  | some p => p.busy

def add (s : Timers) (nowMs delayMs : ℚ) (repeats : Bool) : Timers :=
  let delayMs := if delayMs < 0 then 0 else delayMs
  { s with
    registry := s.registry ++ [{ id := s.lastId + 1, dueMs := nowMs + delayMs, intervalMs := delayMs, repeats }]
    lastId := s.lastId + 1
    log := s.log ++ [.issued (s.lastId + 1)] }

def remove (s : Timers) (id : Nat) : Timers := { s with
    firingDue := s.firingDue.filter (· ≠ id)
    registry := s.registry.filter (·.id ≠ id)
    log := s.log ++ [.revoked id] }

/-- The first timer of that id. -/
def unref (s : Timers) (id : Nat) : Timers :=
  match s.registry.findIdx? (·.id == id) with
  | some i => { s with registry := s.registry.modify i fun timer => { timer with referenced := false } }
  | none => s

def rearm (now : ℚ) (timer : Timer) : Timer := { timer with dueMs := now + max timer.intervalMs 1 }

/-- The due timers, and what the registry keeps. -/
def collect (now : ℚ) : List Timer → List Timer × List Timer
  | [] => ([], [])
  | timer :: timers =>
    let (due, kept) := collect now timers
    if timer.dueMs ≤ now then (timer :: due, if timer.repeats then rearm now timer :: kept else kept)
    else (due, timer :: kept)

/-- The due timers, in the order of the pass. -/
def dueAt (s : Timers) (now : ℚ) : List Timer := (collect now s.registry).1.insertionSort Timer.upTo

def fireDue (s : Timers) (now : ℚ) : Timers := { s with
    registry := (collect now s.registry).2
    firingDue := (s.dueAt now).map (·.id)
    pass := some { left := s.dueAt now } }

/-- The loop of the pass: a callback is called if its id is still in the set. -/
def advance (s : Timers) (p : TimerPass) : Timers :=
  match p.left with
  | [] => { s with firingDue := [], pass := none }
  | timer :: left =>
    if s.firingDue.contains timer.id then { s with
        firingDue := s.firingDue.filter (· ≠ timer.id)
        pass := some { left, busy := true }
        log := s.log ++ [.used timer.id] }
    else { s with pass := some { p with left } }

def step (s : Timers) (l : Label) : Option Timers :=
  match l, s.pass with
  | .add nowMs delayMs repeats, _ => if s.user then some (s.add nowMs delayMs repeats) else none
  | .remove id, _ => if s.user then some (s.remove id) else none
  | .unref id, _ => if s.user then some (s.unref id) else none
  | .fireDue now, none => some (s.fireDue now)
  | .next, some p => if p.busy then none else some (s.advance p)
  | .back, some p => if p.busy then some { s with pass := some { p with busy := false } } else none
  | _, _ => none

/-! ## What a pass does -/

/-- What happens by the turn of the due timer `d`, and from it on: only earlier ones run before it; it is skipped if it has
been cleared, and else it runs at once. -/
def Turn (log : List Ticket) (earlier : List Timer) (d : Timer) (later : List Timer) : Prop :=
  ∃ before after, log = before ++ after ∧ (∀ id, .used id ∈ before → id ∈ earlier.map (·.id)) ∧
    (∀ id, .used id ∈ after → id ∈ (d :: later).map (·.id)) ∧
    if .revoked d.id ∈ before then .used d.id ∉ log else after.head? = some (.used d.id)

/-- A pass from `s` at `now` that has ended in `s'` with `log`. -/
structure Fired (s : Timers) (now : ℚ) (log : List Ticket) (s' : Timers) : Prop where
  due : (s.dueAt now).Perm (s.registry.filter (·.dueMs ≤ now))
  sorted : (s.dueAt now).Pairwise fun a b => a.dueMs < b.dueMs ∨ (a.dueMs = b.dueMs ∧ a.id < b.id)
  once : (usedIds log).Nodup
  order : (usedIds log).Sublist ((s.dueAt now).map (·.id))
  turn : ∀ earlier d later, s.dueAt now = earlier ++ d :: later → Turn log earlier d later
  added : ∀ id, .issued id ∈ log → .used id ∉ log
  gone : ∀ d ∈ s.dueAt now, d.repeats = false → d.id ∉ s'.registry.map (·.id)
  rearmed : ∀ d ∈ s.dueAt now, d.repeats = true → .revoked d.id ∉ log →
    ∃ t ∈ s'.registry, t.id = d.id ∧ t.repeats = true ∧ now < t.dueMs

/-- The ids of the registry are distinct, and have been given out. -/
structure Wf (s : Timers) : Prop where
  nodup : (s.registry.map (·.id)).Nodup
  given : ∀ t ∈ s.registry, t.id ≤ s.lastId

/-! ## The timers that are due -/

theorem collect_due (now : ℚ) (timers : List Timer) : (collect now timers).1 = timers.filter (·.dueMs ≤ now) := by
  induction timers with
  | nil => rfl
  | cons timer timers ih =>
    rw [collect]
    by_cases h : timer.dueMs ≤ now <;> simp [h, ih]

theorem collect_ids (now : ℚ) (timers : List Timer) :
    ((collect now timers).2.map (·.id)).Sublist (timers.map (·.id)) := by
  induction timers with
  | nil => exact .slnil
  | cons timer timers ih =>
    rw [collect]
    dsimp only
    split
    · split
      · exact ih.cons_cons _
      · exact ih.cons _
    · exact ih.cons_cons _

theorem mem_collect {now : ℚ} {timers : List Timer} {t : Timer} (h : t ∈ (collect now timers).2) :
    ∃ u ∈ timers, t.id = u.id ∧ (u.dueMs ≤ now → u.repeats = true) := by
  induction timers with
  | nil => cases h
  | cons timer timers ih =>
    rw [collect] at h
    dsimp only at h
    split at h
    · split at h
      · next hd hr =>
        rcases mem_cons.1 h with rfl | h
        · exact ⟨timer, mem_cons_self, rfl, fun _ => hr⟩
        · obtain ⟨u, hu, hid, hrep⟩ := ih h; exact ⟨u, mem_cons_of_mem _ hu, hid, hrep⟩
      · obtain ⟨u, hu, hid, hrep⟩ := ih h; exact ⟨u, mem_cons_of_mem _ hu, hid, hrep⟩
    · next hd =>
      rcases mem_cons.1 h with rfl | h
      · exact ⟨t, mem_cons_self, rfl, fun hle => absurd hle hd⟩
      · obtain ⟨u, hu, hid, hrep⟩ := ih h; exact ⟨u, mem_cons_of_mem _ hu, hid, hrep⟩

theorem rearm_mem {now : ℚ} {timers : List Timer} {d : Timer} (h : d ∈ timers) (hd : d.dueMs ≤ now)
    (hr : d.repeats = true) : rearm now d ∈ (collect now timers).2 := by
  induction timers with
  | nil => cases h
  | cons timer timers ih =>
    rw [collect]
    dsimp only
    rcases mem_cons.1 h with rfl | h
    · rw [if_pos hd, if_pos hr]; exact mem_cons_self
    · have hin := ih h
      split
      · split
        · exact mem_cons_of_mem _ hin
        · exact hin
      · exact mem_cons_of_mem _ hin

theorem rearm_due (now : ℚ) (t : Timer) : now < (rearm now t).dueMs := by
  have hone : (1 : ℚ) ≤ max t.intervalMs 1 := le_max_right _ _
  have hpos : (0 : ℚ) < max t.intervalMs 1 := lt_of_lt_of_le zero_lt_one hone
  exact lt_add_of_pos_right now hpos

theorem upTo_iff {a b : Timer} : a.upTo b ↔ a.dueMs < b.dueMs ∨ (a.dueMs = b.dueMs ∧ a.id ≤ b.id) := by
  unfold Timer.upTo
  by_cases h : b.dueMs = a.dueMs
  · simp [h]
  · rw [if_pos h, not_lt, le_iff_lt_or_eq]
    have hne : a.dueMs ≠ b.dueMs := Ne.symm h
    simp [hne]

instance : Std.Total Timer.upTo where
  total a b := by
    rw [upTo_iff, upTo_iff]
    rcases lt_trichotomy a.dueMs b.dueMs with h | h | h
    · exact .inl (.inl h)
    · rcases Nat.le_total a.id b.id with hid | hid
      · exact .inl (.inr ⟨h, hid⟩)
      · exact .inr (.inr ⟨h.symm, hid⟩)
    · exact .inr (.inl h)

instance : IsTrans Timer Timer.upTo where
  trans a b c hab hbc := by
    rw [upTo_iff] at hab hbc ⊢
    rcases hab with hab | ⟨hab, hid⟩
    · rcases hbc with hbc | ⟨hbc, -⟩
      · exact .inl (hab.trans hbc)
      · exact .inl (hbc ▸ hab)
    · rcases hbc with hbc | ⟨hbc, hid'⟩
      · exact .inl (hab ▸ hbc)
      · exact .inr ⟨hab.trans hbc, hid.trans hid'⟩

variable {s s' : Timers} {now : ℚ}

theorem dueAt_perm (s : Timers) (now : ℚ) : (s.dueAt now).Perm (s.registry.filter (·.dueMs ≤ now)) := by
  rw [dueAt, ← collect_due]; exact perm_insertionSort _ _

theorem mem_dueAt {d : Timer} : d ∈ s.dueAt now ↔ d ∈ s.registry ∧ d.dueMs ≤ now := by
  rw [(dueAt_perm s now).mem_iff, mem_filter, decide_eq_true_iff]

theorem Wf.due_nodup (h : s.Wf) (now : ℚ) : ((s.dueAt now).map (·.id)).Nodup := by
  rw [((dueAt_perm s now).map _).nodup_iff]; exact (filter_sublist.map _).nodup h.nodup

theorem Wf.due_sorted (h : s.Wf) (now : ℚ) :
    (s.dueAt now).Pairwise fun a b => a.dueMs < b.dueMs ∨ (a.dueMs = b.dueMs ∧ a.id < b.id) := by
  have hs : (s.dueAt now).Pairwise Timer.upTo := pairwise_insertionSort _ _
  have hn : (s.dueAt now).Pairwise fun a b => a.id ≠ b.id := pairwise_map.1 (h.due_nodup now)
  refine (hs.and hn).imp ?_
  rintro a b ⟨hab, hne⟩
  rcases upTo_iff.1 hab with hlt | ⟨heq, hle⟩
  · exact .inl hlt
  · exact .inr ⟨heq, Nat.lt_of_le_of_ne hle hne⟩

theorem Wf.eq_of_id (h : s.Wf) {t u : Timer} (ht : t ∈ s.registry) (hu : u ∈ s.registry) (hid : t.id = u.id) : t = u :=
  inj_on_of_nodup_map h.nodup ht hu hid

/-! ## The registry -/

theorem map_modify {α β : Type} {g : α → β} {f : α → α} (h : ∀ a, g (f a) = g a) (xs : List α) (i : Nat) :
    (xs.modify i f).map g = xs.map g := by
  induction xs generalizing i with
  | nil => simp
  | cons x xs ih =>
    cases i with
    | zero => simp [h]
    | succ i => simp [ih]

theorem unref_eq (s : Timers) (id : Nat) : ∃ registry, s.unref id = { s with registry } ∧
    registry.map (fun t => (t.id, t.dueMs, t.repeats)) = s.registry.map (fun t => (t.id, t.dueMs, t.repeats)) := by
  unfold unref
  split
  · refine ⟨_, rfl, map_modify ?_ _ _⟩
    exact fun _ => rfl
  · exact ⟨_, rfl, rfl⟩

theorem ids_of_map {r r' : List Timer}
    (h : r'.map (fun t => (t.id, t.dueMs, t.repeats)) = r.map (fun t => (t.id, t.dueMs, t.repeats))) :
    r'.map (·.id) = r.map (·.id) := by
  simpa [Function.comp_def] using congrArg (List.map Prod.fst) h

theorem Wf.congr (h : s.Wf) (hids : s'.registry.map (·.id) = s.registry.map (·.id))
    (hlast : s.lastId = s'.lastId) : s'.Wf := by
  refine ⟨hids ▸ h.nodup, fun t ht => ?_⟩
  obtain ⟨u, hu, hid⟩ := mem_map.1 (hids ▸ mem_map_of_mem ht)
  rw [← hid, ← hlast]; exact h.given u hu

theorem Wf.sublist (h : s.Wf) (hids : (s'.registry.map (·.id)).Sublist (s.registry.map (·.id)))
    (hlast : s.lastId = s'.lastId) : s'.Wf := by
  refine ⟨hids.nodup h.nodup, fun t ht => ?_⟩
  obtain ⟨u, hu, hid⟩ := mem_map.1 (hids.subset (mem_map_of_mem ht))
  rw [← hid, ← hlast]; exact h.given u hu

theorem Wf.add (h : s.Wf) (nowMs delayMs : ℚ) (repeats : Bool) : (s.add nowMs delayMs repeats).Wf where
  nodup := by
    simp only [Timers.add, map_append, nodup_append]
    refine ⟨h.nodup, pairwise_singleton _ _, ?_⟩
    rintro i hi j hj rfl
    obtain ⟨t, ht, rfl⟩ := mem_map.1 hi
    have hle := h.given t ht
    have heq : t.id = s.lastId + 1 := by simpa using hj
    omega
  given := by
    intro t ht
    simp only [Timers.add, mem_append, mem_singleton] at ht ⊢
    rcases ht with ht | rfl
    · have hle := h.given t ht; omega
    · exact Nat.le_refl _

theorem Wf.advance (h : s.Wf) (p : TimerPass) : (s.advance p).Wf := by
  unfold Timers.advance
  split
  · exact h.congr rfl rfl
  · split <;> exact h.congr rfl rfl

theorem Wf.step {l : Label} (h : s.Wf) (hstep : s.step l = some s') : s'.Wf := by
  unfold Timers.step at hstep
  split at hstep
  · split at hstep
    · cases hstep; exact h.add _ _ _
    · cases hstep
  · split at hstep
    · cases hstep; exact h.sublist (filter_sublist.map _) rfl
    · cases hstep
  · next id =>
    split at hstep
    · cases hstep
      obtain ⟨registry, heq, hmap⟩ := unref_eq s id; rw [heq]; exact h.congr (ids_of_map hmap) rfl
    · cases hstep
  · cases hstep; exact h.sublist (collect_ids _ _) rfl
  · split at hstep
    · cases hstep
    · cases hstep; exact h.advance _
  · split at hstep
    · cases hstep; exact h.congr rfl rfl
    · cases hstep
  · cases hstep

/-! ## One pass -/

theorem Turn.grow {log : List Ticket} {earlier later : List Timer} {d : Timer} (h : Turn log earlier d later) {e : Ticket}
    (he : ∀ id, e = .used id → id ∈ later.map (·.id)) (hd : d.id ∉ later.map (·.id)) :
    Turn (log ++ [e]) earlier d later := by
  obtain ⟨before, after, rfl, hb, ha, ht⟩ := h
  refine ⟨before, after ++ [e], append_assoc _ _ _, hb, ?_, ?_⟩
  · intro id hid
    rcases mem_append.1 hid with hid | hid
    · exact ha id hid
    · exact mem_cons_of_mem _ (he id (mem_singleton.1 hid).symm)
  · split
    · next hr =>
      rw [if_pos hr] at ht
      intro hu
      rcases mem_append.1 hu with hu | hu
      · exact ht hu
      · exact hd (he _ (mem_singleton.1 hu).symm)
    · next hr =>
      rw [if_neg hr] at ht; rw [head?_append, ht]; rfl

/-- The pass from `s` at `now` under way in `t`: `done` are the due timers it has come to, `left` the others, and `log` is
what has happened since it began. -/
structure Passing (s : Timers) (now : ℚ) (t : Timers) (log : List Ticket) (done left : List Timer) : Prop where
  logged : t.log = s.log ++ log
  due : s.dueAt now = done ++ left
  firing : ∀ id, id ∈ t.firingDue ↔ id ∈ left.map (·.id) ∧ .revoked id ∉ log
  order : (usedIds log).Sublist (done.map (·.id))
  turn : ∀ earlier d later, s.dueAt now = earlier ++ d :: later → earlier.length < done.length → Turn log earlier d later
  grown : s.lastId ≤ t.lastId
  fresh : ∀ id, .issued id ∈ log → s.lastId < id
  gone : ∀ d ∈ s.dueAt now, d.repeats = false → d.id ∉ t.registry.map (·.id)
  rearmed : ∀ d ∈ s.dueAt now, d.repeats = true → .revoked d.id ∉ log →
    ∃ u ∈ t.registry, u.id = d.id ∧ u.repeats = true ∧ now < u.dueMs

theorem passing_fireDue (h : s.Wf) (now : ℚ) : Passing s now (s.fireDue now) [] [] (s.dueAt now) where
  logged := (append_nil _).symm
  due := rfl
  firing id := by simp [Timers.fireDue]
  order := .slnil
  turn := by rintro earlier d later _ ⟨⟩
  grown := Nat.le_refl _
  fresh := by rintro id ⟨⟩
  gone := by
    intro d hd hr hin
    obtain ⟨t, ht, hid⟩ := mem_map.1 hin
    obtain ⟨u, hu, hid', hrep⟩ := mem_collect ht
    obtain ⟨hreg, hle⟩ := mem_dueAt.1 hd
    obtain rfl := h.eq_of_id hu hreg (hid' ▸ hid); rw [hrep hle] at hr; cases hr
  rearmed := by
    intro d hd hr _
    obtain ⟨hreg, hle⟩ := mem_dueAt.1 hd
    exact ⟨rearm now d, rearm_mem hreg hle hr, rfl, hr, rearm_due now d⟩

variable {t t' : Timers} {log : List Ticket} {done left : List Timer} {d : Timer}

namespace Passing

section

variable (h : Passing s now t log done left)
include h

theorem nodup (hs : s.Wf) : ((done ++ left).map (·.id)).Nodup := h.due ▸ hs.due_nodup now

theorem used {id : Nat} (hid : .used id ∈ log) : id ∈ done.map (·.id) := h.order.subset (mem_usedIds.2 hid)

theorem later (hs : s.Wf) {earlier later : List Timer} {d : Timer}
    (hd : s.dueAt now = earlier ++ d :: later) (hl : earlier.length < done.length) :
    (∀ u ∈ left, u ∈ later) ∧ d.id ∉ later.map (·.id) := by
  constructor
  · intro u hu
    rw [h.due] at hd
    rcases append_eq_append_iff.1 hd with ⟨mid, hm, hm'⟩ | ⟨mid, hm, hm'⟩
    · have hlen := congrArg List.length hm; rw [length_append] at hlen; omega
    · cases mid with
      | nil =>
        have hlen := congrArg List.length hm; rw [append_nil] at hlen; omega
      | cons x mid => obtain ⟨-, rfl⟩ := List.cons.inj hm'; exact mem_append_right _ hu
  · have hn := hs.due_nodup now; rw [hd, map_append, map_cons] at hn; exact (nodup_cons.1 (nodup_append.1 hn).2.1).1

/-- User code does something: what is cleared leaves the registry and the set, and nothing else does. -/
theorem act (hs : s.Wf) {e : Ticket} (he : ∀ i, e ≠ .used i)
    (hlog : t'.log = t.log ++ [e]) (hlast : t.lastId ≤ t'.lastId) (hfresh : ∀ i, e = .issued i → t.lastId < i)
    (hfiring : ∀ i, i ∈ t'.firingDue ↔ i ∈ t.firingDue ∧ e ≠ .revoked i)
    (hgone : ∀ i ≤ t.lastId, i ∈ t'.registry.map (·.id) → i ∈ t.registry.map (·.id))
    (hkept : ∀ u ∈ t.registry, e ≠ .revoked u.id → u ∈ t'.registry) : Passing s now t' (log ++ [e]) done left where
  logged := by rw [hlog, h.logged, append_assoc]
  due := h.due
  firing i := by
    have hne : .revoked i ∉ log ++ [e] ↔ .revoked i ∉ log ∧ e ≠ .revoked i := by
      rw [mem_append, not_or, mem_singleton, eq_comm]
    rw [hfiring, h.firing, hne, and_assoc]
  order := by
    have hnone : usedIds [e] = [] := by
      cases e with
      | used i => exact absurd rfl (he i)
      | issued i | revoked i => rfl
    rw [usedIds_append, hnone, append_nil]; exact h.order
  turn earlier d later hd hl :=
    (h.turn earlier d later hd hl).grow (fun i hi => absurd hi (he i)) (h.later hs hd hl).2
  grown := h.grown.trans hlast
  fresh i hi := by
    rcases mem_append.1 hi with hi | hi
    · exact h.fresh i hi
    · exact Nat.lt_of_le_of_lt h.grown (hfresh i (mem_singleton.1 hi).symm)
  gone d hd hr hin := by
    have hle : d.id ≤ t.lastId := (hs.given d (mem_dueAt.1 hd).1).trans h.grown; exact h.gone d hd hr (hgone d.id hle hin)
  rearmed d hd hr hc := by
    rw [mem_append, not_or, mem_singleton] at hc
    obtain ⟨u, hu, hid, hrep, hdue⟩ := h.rearmed d hd hr hc.1
    exact ⟨u, hkept u hu (hid ▸ Ne.symm hc.2), hid, hrep, hdue⟩

theorem add (hs : s.Wf) (nowMs delayMs : ℚ) (repeats : Bool) :
    Passing s now (t.add nowMs delayMs repeats) (log ++ [.issued (t.lastId + 1)]) done left := by
  refine h.act hs (by rintro i ⟨⟩) rfl (Nat.le_succ _) ?_ ?_ ?_ ?_
  · rintro i hi
    cases hi; exact Nat.lt_succ_self _
  · intro i; simp [Timers.add]
  · intro i hi hin
    simp only [Timers.add, map_append, mem_append, map_cons, map_nil, mem_singleton] at hin
    rcases hin with hin | hin
    · exact hin
    · omega
  · exact fun u hu _ => mem_append_left _ hu

theorem remove (hs : s.Wf) (id : Nat) : Passing s now (t.remove id) (log ++ [.revoked id]) done left := by
  refine h.act hs (by rintro i ⟨⟩) rfl (Nat.le_refl _) (by rintro i ⟨⟩) ?_ ?_ ?_
  · intro i; rw [Timers.remove, mem_filter, decide_eq_true_iff, ne_eq, ne_eq, Ticket.revoked.injEq, eq_comm (a := i)]
  · exact fun i _ hin => (filter_sublist.map _).subset hin
  · intro u hu hne
    refine mem_filter.2 ⟨hu, decide_eq_true fun heq => hne ?_⟩
    rw [heq]

theorem unref (id : Nat) : Passing s now (t.unref id) log done left := by
  obtain ⟨registry, heq, hmap⟩ := unref_eq t id
  rw [heq]
  refine ⟨h.logged, h.due, h.firing, h.order, h.turn, h.grown, h.fresh, ?_, ?_⟩
  · intro d hd hr hin; exact h.gone d hd hr (ids_of_map hmap ▸ hin)
  · intro d hd hr hc
    obtain ⟨u, hu, hid, hrep, hdue⟩ := h.rearmed d hd hr hc
    have hin := mem_map_of_mem (f := fun t : Timer => (t.id, t.dueMs, t.repeats)) hu
    obtain ⟨v, hv, hvu⟩ := mem_map.1 (hmap ▸ hin)
    simp only [Prod.mk.injEq] at hvu
    exact ⟨v, hv, hvu.1.trans hid, hvu.2.2.trans hrep, hvu.2.1 ▸ hdue⟩

end

theorem turns (h : Passing s now t log done (d :: left)) (hs : s.Wf) {e : List Ticket}
    (hold : ∀ {earlier later : List Timer} {c : Timer}, Turn log earlier c later → (∀ u ∈ d :: left, u ∈ later) →
      c.id ∉ later.map (·.id) → Turn (log ++ e) earlier c later) (hnew : Turn (log ++ e) done d left) :
    ∀ earlier c later, s.dueAt now = earlier ++ c :: later → earlier.length < (done ++ [d]).length →
      Turn (log ++ e) earlier c later := by
  intro earlier c later hd hl
  rw [length_append, length_singleton] at hl
  by_cases hlt : earlier.length < done.length
  · obtain ⟨hleft, hid⟩ := h.later hs hd hlt; exact hold (h.turn earlier c later hd hlt) hleft hid
  · have heq := h.due.symm.trans hd
    obtain ⟨rfl, hcons⟩ := append_inj heq (by omega)
    obtain ⟨rfl, rfl⟩ := List.cons.inj hcons; exact hnew

theorem apart (h : Passing s now t log done (d :: left)) (hs : s.Wf) :
    d.id ∉ done.map (·.id) ∧ d.id ∉ left.map (·.id) := by
  have hn := h.nodup hs
  rw [map_append, map_cons, nodup_append] at hn
  refine ⟨fun hin => hn.2.2 d.id hin d.id mem_cons_self rfl, (nodup_cons.1 hn.2.1).1⟩

theorem call (h : Passing s now t log done (d :: left)) (hs : s.Wf) (hin : d.id ∈ t.firingDue) (p : Option TimerPass) :
    Passing s now
      { t with firingDue := t.firingDue.filter (· ≠ d.id), pass := p, log := t.log ++ [.used d.id] }
      (log ++ [.used d.id]) (done ++ [d]) left := by
  obtain ⟨hdone, hleft⟩ := h.apart hs
  have hc := ((h.firing d.id).1 hin).2
  have hrev : ∀ i, Ticket.revoked i ∈ log ++ [.used d.id] ↔ .revoked i ∈ log := by
    intro i; rw [mem_append, mem_singleton]; exact or_iff_left (by rintro ⟨⟩)
  refine ⟨by rw [h.logged, append_assoc], by rw [h.due, append_assoc]; rfl, ?_, ?_, ?_, h.grown, ?_, h.gone, ?_⟩
  · intro i
    rw [hrev, mem_filter, decide_eq_true_iff, h.firing, map_cons, mem_cons]
    constructor
    · rintro ⟨⟨hi, hr⟩, hne⟩; exact ⟨hi.resolve_left hne, hr⟩
    · rintro ⟨hi, hr⟩; exact ⟨⟨.inr hi, hr⟩, fun heq => hleft (heq ▸ hi)⟩
  · rw [usedIds_append, map_append]; exact h.order.append (.refl _)
  · refine h.turns hs ?_ ?_
    · intro earlier later c hturn hsub hid
      refine hturn.grow (fun i hi => ?_) hid
      cases hi; exact mem_map_of_mem (hsub d mem_cons_self)
    · refine ⟨log, [.used d.id], rfl, fun i hi => h.used hi, ?_, ?_⟩
      · intro i hi
        cases mem_singleton.1 hi; exact mem_cons_self
      · rw [if_neg hc]; rfl
  · intro i hi
    rcases mem_append.1 hi with hi | hi
    · exact h.fresh i hi
    · cases mem_singleton.1 hi
  · intro c hd hr hnot; exact h.rearmed c hd hr fun hmem => hnot ((hrev c.id).2 hmem)

theorem skip (h : Passing s now t log done (d :: left)) (hs : s.Wf) (hin : d.id ∉ t.firingDue) (p : Option TimerPass) :
    Passing s now { t with pass := p } log (done ++ [d]) left := by
  obtain ⟨hdone, hleft⟩ := h.apart hs
  have hc : .revoked d.id ∈ log := by
    by_contra hc
    exact hin ((h.firing d.id).2 ⟨mem_cons_self, hc⟩)
  refine ⟨h.logged, by rw [h.due, append_assoc]; rfl, ?_, ?_, ?_, h.grown, h.fresh, h.gone, h.rearmed⟩
  · intro i
    rw [h.firing, map_cons, mem_cons]
    constructor
    · rintro ⟨rfl | hi, hr⟩
      · exact absurd hc hr
      · exact ⟨hi, hr⟩
    · rintro ⟨hi, hr⟩; exact ⟨.inr hi, hr⟩
  · rw [map_append]; exact h.order.trans (sublist_append_left _ _)
  · have hturns := Passing.turns (e := []) h hs ?_ ?_
    · rw [append_nil] at hturns; exact hturns
    · intro earlier later c hturn _ _; rw [append_nil]; exact hturn
    · refine ⟨log, [], rfl, fun i hi => h.used hi, (by rintro i ⟨⟩), ?_⟩
      rw [if_pos hc, append_nil]; exact fun hu => hdone (h.used hu)

theorem fired (h : Passing s now t log done []) (hs : s.Wf) (hr : t'.registry = t.registry) : Fired s now log t' where
  due := dueAt_perm s now
  sorted := hs.due_sorted now
  once := by
    have hn := h.nodup hs; rw [append_nil] at hn; exact h.order.nodup hn
  order := by rw [h.due, append_nil]; exact h.order
  turn earlier d later hd := by
    refine h.turn earlier d later hd ?_
    rw [h.due, append_nil] at hd; rw [hd, length_append, length_cons]; omega
  added i hi hu := by
    have hin : i ∈ (s.dueAt now).map (·.id) := by rw [h.due, append_nil]; exact h.used hu
    obtain ⟨d, hd, rfl⟩ := mem_map.1 hin
    have hle := hs.given d (mem_dueAt.1 hd).1
    have hlt := h.fresh d.id hi; omega
  gone := hr ▸ h.gone
  rearmed := hr ▸ h.rearmed

end Passing

/-- A pass is under way. -/
def InPass (s : Timers) (_ : Label) : Prop := s.pass.isSome = true

theorem Passing.step (hs : s.Wf) {p : TimerPass} (hp : t.pass = some p) (h : Passing s now t log done p.left) {l : Label}
    (hstep : t.step l = some t') :
    (∃ log' done' p', t'.pass = some p' ∧ Passing s now t' log' done' p'.left) ∨
      (t'.pass = none ∧ t'.log = s.log ++ log ∧ Fired s now log t') := by
  unfold Timers.step at hstep
  split at hstep
  · split at hstep
    · cases hstep; exact .inl ⟨_, done, p, hp, h.add hs _ _ _⟩
    · cases hstep
  · split at hstep
    · cases hstep; exact .inl ⟨_, done, p, hp, h.remove hs _⟩
    · cases hstep
  · next id =>
    split at hstep
    · cases hstep
      obtain ⟨registry, heq, -⟩ := unref_eq t id
      exact .inl ⟨log, done, p, by rw [heq]; exact hp, h.unref id⟩
    · cases hstep
  · next hnone => cases hnone.symm.trans hp
  · next q hq =>
    cases hq.symm.trans hp
    split at hstep
    · cases hstep
    · cases hstep
      unfold advance
      cases hl : p.left with
      | nil => rw [hl] at h; exact .inr ⟨rfl, h.logged, h.fired hs rfl⟩
      | cons d left =>
        rw [hl] at h
        dsimp only
        split
        · next hc => exact .inl ⟨_, _, { left, busy := true }, rfl, h.call hs (contains_iff_mem.1 hc) _⟩
        · next hc =>
          exact .inl ⟨_, _, { p with left }, rfl, h.skip hs (fun hin => hc (contains_iff_mem.2 hin)) _⟩
  · next q hq =>
    cases hq.symm.trans hp
    split at hstep
    · cases hstep
      exact .inl ⟨log, done, { p with busy := false }, rfl,
        ⟨h.logged, h.due, h.firing, h.order, h.turn, h.grown, h.fresh, h.gone, h.rearmed⟩⟩
    · cases hstep
  · cases hstep

/-- **The run of a pass**, from where it is to its end. -/
theorem Passing.run {labels : List Label} (hs : s.Wf) (hrun : Run Timers.step InPass t labels t') (hend : t'.pass = none)
    {p : TimerPass} (hp : t.pass = some p) (h : Passing s now t log done p.left) :
    ∃ log', t'.log = s.log ++ log' ∧ Fired s now log' t' := by
  induction hrun generalizing log done p with
  | nil t => cases hend.symm.trans hp
  | cons hin hst hrest ih =>
    obtain ⟨log', done', p', hp', h'⟩ | ⟨hnone, hlog, hfired⟩ := h.step hs hp hst
    · exact ih hend hp' h'
    · cases hrest with
      | nil => exact ⟨log, hlog, hfired⟩
      | cons hin' _ _ =>
        rw [InPass, hnone] at hin'
        cases hin'

/-! ## Cleared timers -/

/-- What has been cleared is neither in the registry nor in the set. -/
structure Ok (s : Timers) : Prop where
  wf : s.Wf
  issued : issuedIds s.log = List.range' 1 s.lastId
  known : ∀ i, i ∈ s.registry.map (·.id) ∨ i ∈ s.firingDue → i ≤ s.lastId
  respects : Respects s.log
  gone : ∀ i, Void s.log i → i ∉ s.registry.map (·.id) ∧ i ∉ s.firingDue

theorem ok_init : ({} : Timers).Ok where
  wf := ⟨.nil, by rintro t ⟨⟩⟩
  issued := rfl
  known := by rintro i (⟨⟨⟩⟩ | ⟨⟨⟩⟩)
  respects := respects_nil
  gone := by rintro i _; exact ⟨by rintro ⟨⟩, by rintro ⟨⟩⟩

theorem Ok.quiet (h : s.Ok) (hwf : t.Wf) (hlog : t.log = s.log) (hlast : t.lastId = s.lastId)
    (hreg : ∀ i, i ∈ t.registry.map (·.id) → i ∈ s.registry.map (·.id))
    (hfiring : ∀ i, i ∈ t.firingDue → i ∈ s.firingDue ∨ i ∈ s.registry.map (·.id)) : t.Ok where
  wf := hwf
  issued := by rw [hlog, hlast, h.issued]
  known := by
    rw [hlast]
    rintro i (hi | hi)
    · exact h.known i (.inl (hreg i hi))
    · exact h.known i (hfiring i hi).symm
  respects := hlog ▸ h.respects
  gone i hv := by
    rw [hlog] at hv
    obtain ⟨h₁, h₂⟩ := h.gone i hv
    exact ⟨fun hi => h₁ (hreg i hi), fun hi => (hfiring i hi).elim h₂ h₁⟩

theorem Ok.add (h : s.Ok) (nowMs delayMs : ℚ) (repeats : Bool) : (s.add nowMs delayMs repeats).Ok := by
  have hreg : ∀ i, i ∈ (s.add nowMs delayMs repeats).registry.map (·.id) ↔ i ∈ s.registry.map (·.id) ∨ i = s.lastId + 1 := by
    intro i; simp [Timers.add]
  refine ⟨h.wf.add _ _ _, ?_, ?_, respects_concat.2 ⟨h.respects, by rintro i ⟨⟩⟩, ?_⟩
  · have hone : issuedIds [.issued (s.lastId + 1)] = [s.lastId + 1] := rfl
    rw [Timers.add, issuedIds_append, h.issued, hone, range'_1_concat, Nat.add_comm]
  · intro i hi
    rw [hreg] at hi
    rcases hi with (hi | rfl) | hi
    · exact (h.known i (.inl hi)).trans (Nat.le_succ _)
    · exact Nat.le_refl _
    · exact (h.known i (.inr hi)).trans (Nat.le_succ _)
  · intro i hv
    obtain hv | ⟨hr, -⟩ := void_concat.1 hv
    · obtain ⟨h₁, h₂⟩ := h.gone i hv
      refine ⟨fun hi => ?_, h₂⟩
      rcases (hreg i).1 hi with hi | rfl
      · exact h₁ hi
      · have hin := mem_issuedIds.2 hv.mem_issued; rw [h.issued, mem_range'_1] at hin; omega
    · cases hr

theorem Ok.remove (h : s.Ok) (id : Nat) : (s.remove id).Ok := by
  have hreg : ∀ i, i ∈ (s.remove id).registry.map (·.id) → i ∈ s.registry.map (·.id) ∧ i ≠ id := by
    intro i hi
    obtain ⟨t, ht, rfl⟩ := mem_map.1 hi
    obtain ⟨ht, hne⟩ := mem_filter.1 ht; exact ⟨mem_map_of_mem ht, of_decide_eq_true hne⟩
  have hfiring : ∀ i, i ∈ (s.remove id).firingDue → i ∈ s.firingDue ∧ i ≠ id := by
    intro i hi
    obtain ⟨hi, hne⟩ := mem_filter.1 hi; exact ⟨hi, of_decide_eq_true hne⟩
  refine ⟨h.wf.sublist (filter_sublist.map _) rfl, ?_, ?_, respects_concat.2 ⟨h.respects, by rintro i ⟨⟩⟩, ?_⟩
  · have hnone : issuedIds [.revoked id] = [] := rfl; rw [Timers.remove, issuedIds_append, hnone, append_nil]; exact h.issued
  · rintro i (hi | hi)
    · exact h.known i (.inl (hreg i hi).1)
    · exact h.known i (.inr (hfiring i hi).1)
  · intro i hv
    obtain hv | ⟨hr, -⟩ := void_concat.1 hv
    · obtain ⟨h₁, h₂⟩ := h.gone i hv; exact ⟨fun hi => h₁ (hreg i hi).1, fun hi => h₂ (hfiring i hi).1⟩
    · cases hr; exact ⟨fun hi => (hreg id hi).2 rfl, fun hi => (hfiring id hi).2 rfl⟩

theorem Ok.advance (h : s.Ok) (p : TimerPass) : (s.advance p).Ok := by
  have hwf := h.wf.advance p
  unfold Timers.advance at hwf ⊢
  split at hwf
  · exact h.quiet hwf rfl rfl (fun _ hi => hi) (by rintro i ⟨⟩)
  · next timer left hl =>
    split at hwf
    · next hc =>
      rw [if_pos hc]
      have hin : timer.id ∈ s.firingDue := contains_iff_mem.1 hc
      refine ⟨hwf, ?_, ?_, respects_concat.2 ⟨h.respects, ?_⟩, ?_⟩
      · have hnone : issuedIds [.used timer.id] = [] := rfl; rw [issuedIds_append, hnone, append_nil]; exact h.issued
      · rintro i (hi | hi)
        · exact h.known i (.inl hi)
        · exact h.known i (.inr (mem_filter.1 hi).1)
      · rintro i hi hv
        cases hi; exact (h.gone _ hv).2 hin
      · intro i hv
        obtain hv | ⟨hr, -⟩ := void_concat.1 hv
        · obtain ⟨h₁, h₂⟩ := h.gone i hv; exact ⟨h₁, fun hi => h₂ (mem_filter.1 hi).1⟩
        · cases hr
    · next hc =>
      rw [if_neg hc]; exact h.quiet hwf rfl rfl (fun _ hi => hi) (fun _ hi => .inl hi)

theorem Ok.step {l : Label} (h : s.Ok) (hstep : s.step l = some s') : s'.Ok := by
  have hwf := h.wf.step hstep
  unfold Timers.step at hstep
  split at hstep
  · split at hstep
    · cases hstep; exact h.add _ _ _
    · cases hstep
  · split at hstep
    · cases hstep; exact h.remove _
    · cases hstep
  · next id =>
    split at hstep
    · cases hstep
      obtain ⟨registry, heq, hmap⟩ := unref_eq s id
      rw [heq] at hwf ⊢
      exact h.quiet hwf rfl rfl (fun _ hi => ids_of_map hmap ▸ hi) (fun _ hi => .inl hi)
    · cases hstep
  · cases hstep
    refine h.quiet hwf rfl rfl (fun _ hi => (collect_ids _ _).subset hi) fun i hi => .inr ?_
    obtain ⟨d, hd, rfl⟩ := mem_map.1 hi; exact mem_map_of_mem (mem_dueAt.1 hd).1
  · split at hstep
    · cases hstep
    · cases hstep; exact h.advance _
  · split at hstep
    · cases hstep; exact h.quiet hwf rfl rfl (fun _ hi => hi) (fun _ hi => .inl hi)
    · cases hstep
  · cases hstep

end Timers

/-- **The passes of `fireDue`.** From any registry, a pass runs what was due when it began as `Fired` says, whatever its
callbacks do; and in every state that can be reached the registry is one that passes start from, and no timer runs that has
been cleared before. -/
theorem fireDue_fires : (∀ (s s' : Timers) (now : ℚ) (labels : List Timers.Label), s.Wf → s.pass = none →
      Run Timers.step Timers.InPass (s.fireDue now) labels s' → s'.pass = none →
      ∃ log, s'.log = s.log ++ log ∧ Timers.Fired s now log s') ∧
    ∀ (labels : List Timers.Label) (s : Timers), Run Timers.step (fun _ _ => True) {} labels s → s.Wf ∧
      ∀ before after id, s.log = before ++ .revoked id :: after → .issued id ∈ before → .used id ∉ after := by
  constructor
  · intro s s' now labels hs _ hrun hend; exact Timers.Passing.run hs hrun hend rfl (Timers.passing_fireDue hs now)
  · intro labels s hrun
    have h : s.Ok := hrun.invariant (fun _ _ _ h _ hstep => h.step hstep) Timers.ok_init
    exact ⟨h.wf, fun _ _ _ hlog hin => h.respects.never hlog hin⟩

/-- Three due timers: the first one clears the last one and adds another, and the second one repeats. -/
theorem fireDue_fires_three : ∃ s' log, Timers.Fired
    { registry := [⟨1, 4, 5, false, true⟩, ⟨2, 5, 2, true, true⟩, ⟨3, 5, 0, false, true⟩], lastId := 3 } 7 log s' ∧
      usedIds log = [1, 2] := by
  have h : (runs (fun (s : Timers) l => if s.pass.isSome then s.step l else none)
      (Timers.fireDue { registry := [⟨1, 4, 5, false, true⟩, ⟨2, 5, 2, true, true⟩, ⟨3, 5, 0, false, true⟩], lastId := 3 } 7)
      [.next, .remove 3, .add 7 0 false, .back, .next, .back, .next, .next]).any
        (fun s => s.pass.isNone ∧ usedIds s.log = [1, 2]) = true := by
    decide +kernel
  obtain ⟨s', hs', hp⟩ := (Option.any_eq_true _ _).1 h
  obtain ⟨hend, hused⟩ := of_decide_eq_true hp
  obtain ⟨log, hlog, hfired⟩ := fireDue_fires.1 _ s' 7 _ ⟨by decide, by decide⟩ rfl (Run.of_guarded _ hs')
    (Option.isNone_iff_eq_none.1 hend)
  refine ⟨s', log, hfired, ?_⟩
  rw [hlog] at hused; exact hused

end NodeCompat.Loop
