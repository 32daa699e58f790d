import NodeCompat.Loop.Timers

/-!
# Immediates

The queue of `setImmediate` callbacks and the passes of `runAll` that take it over batch by batch. A callback, or the
checkpoint behind it, may add and clear immediates and pump the loop again, which starts a pass inside the pass: the passes in
flight are a stack, and user code runs in the innermost one. An immediate is a ticket, issued by `add`, revoked by `remove`
and used when its callback is called. In every state that can be reached each immediate is accounted for
(`immediates_accounted`).
-/

namespace NodeCompat.Loop

open List

open Ticket

structure Immediate where
  id : Nat
  referenced : Bool
deriving DecidableEq

/-- The history of a pass of `runAll`: the ids of the batch it has taken, those whose callbacks it has called, and how much
had happened when it began. -/
structure Batch where
  ids : List Nat
  ran : List Nat := []
  since : Nat
deriving DecidableEq

/-- A pass in flight: what it has not come to yet of its batch, the ids of the batch that are still to run, and whether a
callback or the checkpoint behind it is under way. -/
structure ImmediatePass where
  left : List Immediate
  pending : List Nat
  busy : Bool := false
  batch : Batch
deriving DecidableEq

/-- `passes` are the passes in flight, the innermost one first, `ended` the batches of those that are over, and `log` what has
happened to the immediates. -/
structure Immediates where
  queue : List Immediate := []
  lastId : Nat := 0
  passes : List ImmediatePass := []
  ended : List Batch := []
  log : List Ticket := []
deriving DecidableEq

namespace Immediates

/-- What user code does, and what the innermost pass does. -/
inductive Label
  | add
  | remove (id : Nat)
  | setReferenced (id : Nat) (referenced : Bool)
  | runAll (loopAlive : Bool)
  | next -- the loop of the pass takes its next step
  | back -- the checkpoint behind a callback is over
deriving DecidableEq

/-- Whether user code is running: outside any pass, or in a callback of the innermost one. -/
def user (m : Immediates) : Bool :=
  match m.passes with
  | [] => true
  | p :: _ => p.busy

def hasReferenced (m : Immediates) : Bool := m.queue.any (·.referenced)

def due (m : Immediates) (loopAlive : Bool) : Bool := !m.queue.isEmpty && (loopAlive || m.hasReferenced)

def add (m : Immediates) : Immediates := { m with
    queue := m.queue ++ [⟨m.lastId + 1, true⟩]
    lastId := m.lastId + 1
    log := m.log ++ [.issued (m.lastId + 1)] }

/-- The id leaves every pass in flight, and the queue. -/
def remove (m : Immediates) (id : Nat) : Immediates := { m with
    passes := m.passes.map fun p => { p with pending := p.pending.filter (· ≠ id) }
    queue := m.queue.filter (·.id ≠ id)
    log := m.log ++ [.revoked id] }

/-- The first immediate of that id. -/
def setReferenced (m : Immediates) (id : Nat) (referenced : Bool) : Immediates :=
  match m.queue.findIdx? (·.id == id) with
  | some i => { m with queue := m.queue.modify i fun immediate => { immediate with referenced } }
  | none => m

/-- The pass takes the whole queue. -/
def begin (m : Immediates) : Immediates := { m with
    queue := []
    passes :=
      { left := m.queue, pending := m.queue.map (·.id), batch := { ids := m.queue.map (·.id), since := m.log.length } } ::
        m.passes }

/-- The callback of an immediate of the pass `p` is called. -/
def call (m : Immediates) (p : ImmediatePass) (rest : List ImmediatePass) (id : Nat) (left : List Immediate) : Immediates :=
  { m with
    passes :=
      { left, pending := p.pending.filter (· ≠ id), busy := true, batch := { p.batch with ran := p.batch.ran ++ [id] } } :: rest
    log := m.log ++ [.used id] }

/-- The loop of the pass `p`: a callback is called if its id is still pending. -/
def advance (m : Immediates) (p : ImmediatePass) (rest : List ImmediatePass) : Immediates :=
  match p.left with
  | [] => { m with passes := rest, ended := p.batch :: m.ended }
  | immediate :: left =>
    if p.pending.contains immediate.id then m.call p rest immediate.id left
    else { m with passes := { p with left } :: rest }

def step (m : Immediates) (l : Label) : Option Immediates :=
  match l, m.passes with
  | .add, _ => if m.user then some m.add else none
  | .remove id, _ => if m.user then some (m.remove id) else none
  | .setReferenced id referenced, _ => if m.user then some (m.setReferenced id referenced) else none
  | .runAll loopAlive, _ => if m.user then some (if m.due loopAlive then m.begin else m) else none
  | .next, p :: rest => if p.busy then none else some (m.advance p rest)
  | .back, p :: rest => if p.busy then some { m with passes := { p with busy := false } :: rest } else none
  | _, [] => none

/-! ## What is accounted for -/

/-- The batches taken so far. -/
def batches (m : Immediates) : List Batch := m.passes.map (·.batch) ++ m.ended

/-- The ids that are still to run. -/
def holds (m : Immediates) : List Nat := m.queue.map (·.id) ++ m.passes.flatMap (·.pending)

/-- An immediate waits in the queue, or in exactly one of the passes in flight. -/
def Waits (m : Immediates) (id : Nat) : Prop := (id ∈ m.queue.map (·.id) ∧ ∀ p ∈ m.passes, id ∉ p.pending) ∨
    (id ∉ m.queue.map (·.id) ∧ ∃ before p after, m.passes = before ++ p :: after ∧ id ∈ p.pending ∧
      id ∈ p.left.map (·.id) ∧ ∀ q ∈ before ++ after, id ∉ q.pending)

/-- What is claimed of the immediates. -/
structure Accounted (m : Immediates) : Prop where
  once : (usedIds m.log).Nodup
  cleared : ∀ before after id, m.log = before ++ .revoked id :: after → .issued id ∈ before → .used id ∉ after
  taken : ∀ b ∈ m.batches, b.ids.Sublist (issuedIds (m.log.take b.since))
  order : ∀ b ∈ m.batches, b.ran.Sublist b.ids
  later : ∀ b ∈ m.batches, ∀ id ∈ issuedIds (m.log.drop b.since), id ∉ b.ran
  apart : m.batches.Pairwise (fun b c => b.ids.Disjoint c.ids)
  used : (usedIds m.log).Perm (m.batches.flatMap (·.ran))
  kept : ∀ id, .issued id ∈ m.log → .used id ∉ m.log → ¬ Void m.log id → m.Waits id

/-- The batches, against what has happened and the queue. -/
structure Taken (bs : List Batch) (log : List Ticket) (queued : List Nat) : Prop where
  since : ∀ b ∈ bs, b.since ≤ log.length
  taken : ∀ b ∈ bs, b.ids.Sublist (issuedIds (log.take b.since))
  order : ∀ b ∈ bs, b.ran.Sublist b.ids
  behind : ∀ b ∈ bs, ∀ id ∈ b.ids, id ∉ queued
  apart : bs.Pairwise (fun b c => b.ids.Disjoint c.ids)
  used : (usedIds log).Perm (bs.flatMap (·.ran))

/-- A pass runs what it has still to come to. -/
structure PassOk (p : ImmediatePass) : Prop where
  pending : p.pending.Sublist (p.left.map (·.id))
  done : ∃ done, p.batch.ids = done ++ p.left.map (·.id) ∧ p.batch.ran.Sublist done

structure Ok (m : Immediates) : Prop where
  issued : issuedIds m.log = List.range' 1 m.lastId
  queued : (m.queue.map (·.id)).Sublist (issuedIds m.log)
  nodup : m.holds.Nodup
  passes : ∀ p ∈ m.passes, PassOk p
  batches : Taken m.batches m.log (m.queue.map (·.id))
  once : (usedIds m.log).Nodup
  respects : Respects m.log
  gone : ∀ id, .used id ∈ m.log ∨ Void m.log id → id ∉ m.holds
  tracked : ∀ id, .issued id ∈ m.log → .used id ∈ m.log ∨ Void m.log id ∨ id ∈ m.holds

theorem ok_init : ({} : Immediates).Ok where
  issued := rfl
  queued := .slnil
  nodup := .nil
  passes := by rintro p ⟨⟩
  batches := ⟨by rintro b ⟨⟩, by rintro b ⟨⟩, by rintro b ⟨⟩, by rintro b ⟨⟩, .nil, .nil⟩
  once := .nil
  respects := respects_nil
  gone := by rintro id _ ⟨⟩
  tracked := by rintro id ⟨⟩

variable {bs : List Batch} {log : List Ticket} {queued : List Nat} {id : Nat}

/-! ## The batches -/

namespace Taken

section

variable (h : Taken bs log queued)
include h

theorem issued {b : Batch} (hb : b ∈ bs) (hid : id ∈ b.ids) : id ∈ issuedIds log := by
  have htake : id ∈ issuedIds (log.take b.since) := (h.taken b hb).subset hid
  rw [mem_issuedIds] at htake ⊢; exact mem_of_mem_take htake

theorem grow {e : Ticket} (he : ∀ i, e ≠ .used i) {queued' : List Nat}
    (hq : ∀ b ∈ bs, ∀ i ∈ b.ids, i ∉ queued') : Taken bs (log ++ [e]) queued' where
  since b hb := by
    have hs := h.since b hb; rw [length_append]; omega
  taken b hb := by rw [take_append_of_le_length (h.since b hb)]; exact h.taken b hb
  order := h.order
  behind := hq
  apart := h.apart
  used := by
    have hu : usedIds [e] = [] := by
      cases e with
      | used i => exact absurd rfl (he i)
      | issued i | revoked i => rfl
    rw [usedIds_append, hu, append_nil]; exact h.used

theorem perm {bs' : List Batch} (hp : bs.Perm bs') : Taken bs' log queued where
  since b hb := h.since b (hp.mem_iff.2 hb)
  taken b hb := h.taken b (hp.mem_iff.2 hb)
  order b hb := h.order b (hp.mem_iff.2 hb)
  behind b hb := h.behind b (hp.mem_iff.2 hb)
  apart := hp.pairwise h.apart fun hd _ hi hi' => hd hi' hi
  used := h.used.trans (hp.flatMap_right _)

theorem begin (hq : queued.Sublist (issuedIds log)) :
    Taken ({ ids := queued, since := log.length } :: bs) log [] where
  since := by
    rintro b (_ | ⟨_, hb⟩)
    · exact Nat.le_refl _
    · exact h.since b hb
  taken := by
    rintro b (_ | ⟨_, hb⟩)
    · rw [take_length]; exact hq
    · exact h.taken b hb
  order := by
    rintro b (_ | ⟨_, hb⟩)
    · exact nil_sublist _
    · exact h.order b hb
  behind := by
    rintro b _ i _ ⟨⟩
  apart := pairwise_cons.2 ⟨fun b hb i hi hi' => h.behind b hb i hi' hi, h.apart⟩
  used := h.used

end

theorem run {b : Batch} (h : Taken (b :: bs) log queued) (hr : (b.ran ++ [id]).Sublist b.ids) :
    Taken ({ b with ran := b.ran ++ [id] } :: bs) (log ++ [.used id]) queued where
  since := by
    have hlen : ∀ c ∈ b :: bs, c.since ≤ (log ++ [Ticket.used id]).length := by
      intro c hc
      have hs := h.since c hc; rw [length_append]; omega
    rintro c (_ | ⟨_, hc⟩)
    · exact hlen b mem_cons_self
    · exact hlen c (mem_cons_of_mem b hc)
  taken := by
    have htake : ∀ c ∈ b :: bs, c.ids.Sublist (issuedIds ((log ++ [Ticket.used id]).take c.since)) := by
      intro c hc; rw [take_append_of_le_length (h.since c hc)]; exact h.taken c hc
    rintro c (_ | ⟨_, hc⟩)
    · exact htake b mem_cons_self
    · exact htake c (mem_cons_of_mem b hc)
  order := by
    rintro c (_ | ⟨_, hc⟩)
    · exact hr
    · exact h.order c (mem_cons_of_mem b hc)
  behind := by
    rintro c (_ | ⟨_, hc⟩)
    · exact h.behind b mem_cons_self
    · exact h.behind c (mem_cons_of_mem b hc)
  apart := pairwise_cons.2 (pairwise_cons.1 h.apart)
  used := by
    have hu := h.used
    rw [flatMap_cons] at hu ⊢
    rw [usedIds_append, append_assoc]
    refine (hu.append_right _).trans ?_
    rw [append_assoc]; exact perm_append_comm.append_left _

end Taken

/-! ## Each step -/

variable {m m' : Immediates} {p : ImmediatePass} {rest : List ImmediatePass}

theorem sublist_filter_ne {xs ys : List Nat} {x : Nat} (h : xs.Sublist (x :: ys)) : (xs.filter (· ≠ x)).Sublist ys := by
  have hf := h.filter (fun y => decide (y ≠ x))
  rw [filter_cons_of_neg (by simp)] at hf; exact hf.trans filter_sublist

theorem PassOk.left_sublist (h : PassOk p) : (p.left.map (·.id)).Sublist p.batch.ids := by
  obtain ⟨done, hd, -⟩ := h.done; rw [hd]; exact sublist_append_right _ _

theorem Ok.held (h : m.Ok) (hid : id ∈ m.holds) : id ∈ issuedIds m.log := by
  rcases mem_append.1 hid with hid | hid
  · exact h.queued.subset hid
  · obtain ⟨p, hp, hid⟩ := mem_flatMap.1 hid
    have hb : p.batch ∈ m.batches := mem_append_left _ (mem_map_of_mem hp)
    exact h.batches.issued hb ((h.passes p hp).left_sublist.subset ((h.passes p hp).pending.subset hid))

theorem Ok.fresh (h : m.Ok) : m.lastId + 1 ∉ issuedIds m.log := by
  rw [h.issued, mem_range'_1]; omega

theorem Ok.spent (h : m.Ok) (hid : .used id ∈ m.log ∨ Void m.log id) : id ∈ issuedIds m.log := by
  rcases hid with hid | hid
  · obtain ⟨b, hb, hid⟩ := mem_flatMap.1 (h.batches.used.mem_iff.1 (mem_usedIds.2 hid))
    exact h.batches.issued hb ((h.batches.order b hb).subset hid)
  · exact mem_issuedIds.2 hid.mem_issued

theorem perm_holds_add (m : Immediates) : m.add.holds.Perm ((m.lastId + 1) :: m.holds) := by
  simp only [Immediates.add, holds, map_append, append_assoc]; exact perm_middle

theorem Ok.add (h : m.Ok) : m.add.Ok where
  issued := by
    have hone : issuedIds [.issued (m.lastId + 1)] = [m.lastId + 1] := rfl
    rw [Immediates.add, issuedIds_append, h.issued, hone, range'_1_concat, Nat.add_comm]
  queued := by simp only [Immediates.add, map_append, issuedIds_append]; exact h.queued.append (.refl _)
  nodup := by rw [(perm_holds_add m).nodup_iff]; exact nodup_cons.2 ⟨fun hc => h.fresh (h.held hc), h.nodup⟩
  passes := h.passes
  batches := by
    refine h.batches.grow (by rintro i ⟨⟩) fun b hb i hi hq => ?_
    simp only [Immediates.add, map_append, mem_append] at hq
    rcases hq with hq | hq
    · exact h.batches.behind b hb i hi hq
    · rw [mem_singleton.1 hq] at hi; exact h.fresh (h.batches.issued hb hi)
  once := by
    have hnone : usedIds [.issued (m.lastId + 1)] = [] := rfl
    rw [Immediates.add, usedIds_append, hnone, append_nil]; exact h.once
  respects := respects_concat.2 ⟨h.respects, by rintro i ⟨⟩⟩
  gone := by
    intro i hi hheld
    have hold : .used i ∈ m.log ∨ Void m.log i := by
      simpa [Immediates.add, void_concat] using hi
    rcases mem_cons.1 ((perm_holds_add m).mem_iff.1 hheld) with rfl | hheld
    · exact h.fresh (h.spent hold)
    · exact h.gone i hold hheld
  tracked := by
    intro i hi
    have hheld : i ∈ m.add.holds ↔ i = m.lastId + 1 ∨ i ∈ m.holds := by
      rw [(perm_holds_add m).mem_iff, mem_cons]
    simp only [Immediates.add, mem_append, mem_singleton, Ticket.issued.injEq] at hi
    rcases hi with hi | rfl
    · rcases h.tracked i hi with hu | hv | hh
      · exact .inl (mem_append_left _ hu)
      · exact .inr (.inl (void_concat.2 (.inl hv)))
      · exact .inr (.inr (hheld.2 (.inr hh)))
    · exact .inr (.inr (hheld.2 (.inl rfl)))

theorem holds_remove (m : Immediates) (id : Nat) : (m.remove id).holds = m.holds.filter (· ≠ id) := by
  simp [Immediates.remove, holds, filter_map, filter_flatMap, flatMap_map, Function.comp_def]

section

variable (h : m.Ok)
include h

theorem Ok.remove (id : Nat) : (m.remove id).Ok where
  issued := by
    have hnone : issuedIds [.revoked id] = [] := rfl
    rw [Immediates.remove, issuedIds_append, hnone, append_nil]; exact h.issued
  queued := by
    have hnone : issuedIds [.revoked id] = [] := rfl
    rw [Immediates.remove, issuedIds_append, hnone, append_nil]
    exact (filter_sublist.map _).trans h.queued
  nodup := by rw [holds_remove]; exact h.nodup.filter _
  passes := by
    intro q hq
    obtain ⟨p, hp, rfl⟩ := mem_map.1 hq
    exact ⟨filter_sublist.trans (h.passes p hp).pending, (h.passes p hp).done⟩
  batches := by
    have hsame : (m.remove id).batches = m.batches := by
      simp [Immediates.remove, Immediates.batches, Function.comp_def]
    rw [hsame]
    refine h.batches.grow (by rintro i ⟨⟩) fun b hb i hi hq => h.batches.behind b hb i hi ?_
    exact (filter_sublist.map _).subset hq
  once := by
    have hnone : usedIds [.revoked id] = [] := rfl; rw [Immediates.remove, usedIds_append, hnone, append_nil]; exact h.once
  respects := respects_concat.2 ⟨h.respects, by rintro i ⟨⟩⟩
  gone := by
    intro i hi hheld
    rw [holds_remove, mem_filter, decide_eq_true_iff] at hheld
    refine h.gone i ?_ hheld.1
    simp only [Immediates.remove, mem_append, mem_singleton, reduceCtorEq, or_false, void_concat,
      Ticket.revoked.injEq] at hi
    rcases hi with hi | hi | hi
    · exact .inl hi
    · exact .inr hi
    · exact absurd hi.1.symm hheld.2
  tracked := by
    intro i hi
    simp only [Immediates.remove, mem_append, mem_singleton, reduceCtorEq, or_false] at hi
    by_cases hid : i = id
    · subst hid; exact .inr (.inl (void_concat.2 (.inr ⟨rfl, hi⟩)))
    · rcases h.tracked i hi with hu | hv | hh
      · exact .inl (mem_append_left _ hu)
      · exact .inr (.inl (void_concat.2 (.inl hv)))
      · refine .inr (.inr ?_)
        rw [holds_remove]; exact mem_filter.2 ⟨hh, decide_eq_true hid⟩

theorem Ok.congr {queue : List Immediate} (hq : queue.map (·.id) = m.queue.map (·.id)) :
    ({ m with queue } : Immediates).Ok := by
  have hholds : ({ m with queue } : Immediates).holds = m.holds := by simp only [holds, hq]
  refine ⟨h.issued, ?_, ?_, h.passes, ?_, h.once, h.respects, ?_, ?_⟩
  · exact hq ▸ h.queued
  · exact hholds ▸ h.nodup
  · exact hq ▸ h.batches
  · exact fun i hi => hholds ▸ h.gone i hi
  · exact fun i hi => hholds ▸ h.tracked i hi

theorem Ok.setReferenced (id : Nat) (referenced : Bool) : (m.setReferenced id referenced).Ok := by
  unfold Immediates.setReferenced
  split
  · refine h.congr (Timers.map_modify ?_ _ _)
    exact fun _ => rfl
  · exact h

theorem Ok.begin : m.begin.Ok where
  issued := h.issued
  queued := nil_sublist _
  nodup := h.nodup
  passes := by
    rintro p (_ | ⟨_, hp⟩)
    · exact ⟨.refl _, [], rfl, .slnil⟩
    · exact h.passes p hp
  batches := h.batches.begin h.queued
  once := h.once
  respects := h.respects
  gone := h.gone
  tracked := h.tracked

theorem Ok.goOn {passes : List ImmediatePass} {ended : List Batch}
    (hpasses : ∀ q ∈ passes, PassOk q) (hholds : ({ m with passes, ended } : Immediates).holds = m.holds)
    (hperm : m.batches.Perm ({ m with passes, ended } : Immediates).batches) : ({ m with passes, ended } : Immediates).Ok :=
  ⟨h.issued, h.queued, hholds ▸ h.nodup, hpasses, h.batches.perm hperm, h.once, h.respects,
    fun i hi => hholds ▸ h.gone i hi, fun i hi => hholds ▸ h.tracked i hi⟩

section

variable (hm : m.passes = p :: rest)
include hm

theorem Ok.endPass (hl : p.left = []) :
    ({ m with passes := rest, ended := p.batch :: m.ended } : Immediates).Ok := by
  have hp : PassOk p := h.passes p (hm ▸ mem_cons_self)
  have hpending : p.pending = [] := by
    have hs := hp.pending; rw [hl] at hs; exact sublist_nil.1 hs
  have hholds : ({ m with passes := rest, ended := p.batch :: m.ended } : Immediates).holds = m.holds := by
    simp [holds, hm, hpending]
  have hperm : m.batches.Perm (rest.map (·.batch) ++ p.batch :: m.ended) := by
    rw [Immediates.batches, hm]; exact perm_middle.symm
  exact h.goOn (fun q hq => h.passes q (hm ▸ mem_cons_of_mem p hq)) hholds hperm

theorem Ok.skip {immediate : Immediate} {left : List Immediate}
    (hl : p.left = immediate :: left) (hn : immediate.id ∉ p.pending) :
    ({ m with passes := { p with left } :: rest } : Immediates).Ok := by
  have hp : PassOk p := h.passes p (hm ▸ mem_cons_self)
  have hholds : ({ m with passes := { p with left } :: rest } : Immediates).holds = m.holds := by
    simp [holds, hm]
  refine h.goOn ?_ hholds (by rw [Immediates.batches, hm]; exact .refl _)
  rintro q (_ | ⟨_, hq⟩)
  · obtain ⟨done, hd, hr⟩ := hp.done
    have hs := hp.pending
    rw [hl, map_cons] at hs hd
    have hsame : p.pending.filter (· ≠ immediate.id) = p.pending :=
      filter_eq_self.2 fun i hi => decide_eq_true fun he => hn (he ▸ hi)
    refine ⟨hsame ▸ sublist_filter_ne hs, done ++ [immediate.id], by rw [hd]; simp, ?_⟩
    exact hr.trans (sublist_append_left _ _)
  · exact h.passes q (hm ▸ mem_cons_of_mem p hq)

theorem Ok.run {immediate : Immediate} {left : List Immediate}
    (hl : p.left = immediate :: left) (hin : immediate.id ∈ p.pending) :
    (m.call p rest immediate.id left).Ok := by
  have hp : PassOk p := h.passes p (hm ▸ mem_cons_self)
  have hheld : immediate.id ∈ m.holds := by
    simp [holds, hm, hin]
  have hholds : (m.call p rest immediate.id left).holds = m.holds.filter (· ≠ immediate.id) := by
    have hnd := h.nodup
    simp only [holds, hm, flatMap_cons] at hnd
    obtain ⟨-, hnd, hq⟩ := nodup_append.1 hnd
    obtain ⟨-, -, hr⟩ := nodup_append.1 hnd
    have hqueue : (m.queue.map (·.id)).filter (· ≠ immediate.id) = m.queue.map (·.id) :=
      filter_eq_self.2 fun i hi => decide_eq_true (hq i hi _ (mem_append_left _ hin))
    have hrest : (rest.flatMap (·.pending)).filter (· ≠ immediate.id) = rest.flatMap (·.pending) :=
      filter_eq_self.2 fun i hi => decide_eq_true (hr _ hin i hi).symm
    have hsame : m.holds = m.queue.map (·.id) ++ (p.pending ++ rest.flatMap (·.pending)) := by
      rw [holds, hm, flatMap_cons]
    rw [hsame, filter_append, filter_append, hqueue, hrest]; rfl
  obtain ⟨done, hd, hr⟩ := hp.done
  have hs := hp.pending
  rw [hl, map_cons] at hs hd
  have hran : (p.batch.ran ++ [immediate.id]).Sublist (done ++ [immediate.id]) := hr.append (.refl _)
  have hids : p.batch.ids = done ++ [immediate.id] ++ left.map (·.id) := by rw [hd]; simp
  refine ⟨?_, ?_, ?_, ?_, ?_, ?_, ?_, ?_, ?_⟩
  · have hnone : issuedIds [.used immediate.id] = [] := rfl; rw [call, issuedIds_append, hnone, append_nil]; exact h.issued
  · have hnone : issuedIds [.used immediate.id] = [] := rfl; rw [call, issuedIds_append, hnone, append_nil]; exact h.queued
  · exact hholds ▸ h.nodup.filter _
  · rintro q (_ | ⟨_, hq⟩)
    · exact ⟨sublist_filter_ne hs, done ++ [immediate.id], hids, hran⟩
    · exact h.passes q (hm ▸ mem_cons_of_mem p hq)
  · have hb := h.batches
    rw [Immediates.batches, hm] at hb
    refine hb.run ?_
    rw [hids]; exact hran.trans (sublist_append_left _ _)
  · have hone : usedIds [.used immediate.id] = [immediate.id] := rfl
    rw [call, usedIds_append, hone, nodup_append]
    refine ⟨h.once, pairwise_singleton _ _, ?_⟩
    rintro i hi j hj rfl; rw [mem_singleton.1 hj, mem_usedIds] at hi; exact h.gone _ (.inl hi) hheld
  · refine respects_concat.2 ⟨h.respects, ?_⟩
    rintro i hi hv
    cases hi; exact h.gone _ (.inr hv) hheld
  · intro i hi hh
    have hh' : i ∈ m.holds.filter (· ≠ immediate.id) := hholds ▸ hh
    rw [mem_filter, decide_eq_true_iff] at hh'
    refine h.gone i ?_ hh'.1
    simp only [call, mem_append, mem_singleton, Ticket.used.injEq, void_concat, reduceCtorEq, false_and,
      or_false] at hi
    rcases hi with (hi | hi) | hi
    · exact .inl hi
    · exact absurd hi hh'.2
    · exact .inr hi
  · intro i hi
    simp only [call, mem_append, mem_singleton, reduceCtorEq, or_false] at hi
    by_cases hid : i = immediate.id
    · subst hid; exact .inl (mem_append_right _ (mem_singleton_self _))
    · rcases h.tracked i hi with hu | hv | hh
      · exact .inl (mem_append_left _ hu)
      · exact .inr (.inl (void_concat.2 (.inl hv)))
      · refine .inr (.inr ?_)
        have hkeep : i ∈ m.holds.filter (· ≠ immediate.id) := mem_filter.2 ⟨hh, decide_eq_true hid⟩
        exact hholds.symm ▸ hkeep

theorem Ok.advance : (m.advance p rest).Ok := by
  unfold Immediates.advance
  split
  · next hl => exact h.endPass hm hl
  · next immediate left hl =>
    split
    · next hc => exact h.run hm hl (contains_iff_mem.1 hc)
    · next hc => exact h.skip hm hl fun hin => hc (contains_iff_mem.2 hin)

theorem Ok.back : ({ m with passes := { p with busy := false } :: rest } : Immediates).Ok := by
  have hholds : ({ m with passes := { p with busy := false } :: rest } : Immediates).holds = m.holds := by
    simp [holds, hm]
  have hp : PassOk p := h.passes p (hm ▸ mem_cons_self)
  refine h.goOn ?_ hholds (by rw [Immediates.batches, hm]; exact .refl _)
  rintro q (_ | ⟨_, hq⟩)
  · exact ⟨hp.pending, hp.done⟩
  · exact h.passes q (hm ▸ mem_cons_of_mem p hq)

end

theorem Ok.step {l : Label} (hstep : m.step l = some m') : m'.Ok := by
  unfold Immediates.step at hstep
  split at hstep
  · split at hstep
    · cases hstep; exact h.add
    · cases hstep
  · split at hstep
    · cases hstep; exact h.remove _
    · cases hstep
  · split at hstep
    · cases hstep; exact h.setReferenced _ _
    · cases hstep
  · split at hstep
    · cases hstep
      split
      · exact h.begin
      · exact h
    · cases hstep
  · next p rest hm =>
    split at hstep
    · cases hstep
    · cases hstep; exact h.advance hm
  · next p rest hm =>
    split at hstep
    · cases hstep; exact h.back hm
    · cases hstep
  · cases hstep

theorem Ok.waits (hid : id ∈ m.holds) : m.Waits id := by
  have hnd := h.nodup
  rw [holds] at hnd hid
  obtain ⟨-, hpasses, hapart⟩ := nodup_append.1 hnd
  rcases mem_append.1 hid with hq | hp
  · refine .inl ⟨hq, fun p hp hin => ?_⟩
    exact hapart id hq id (mem_flatMap.2 ⟨p, hp, hin⟩) rfl
  · refine .inr ⟨fun hq => hapart id hq id hp rfl, ?_⟩
    obtain ⟨p, hp, hin⟩ := mem_flatMap.1 hp
    obtain ⟨before, after, hm⟩ := append_of_mem hp
    refine ⟨before, p, after, hm, hin, (h.passes p hp).pending.subset hin, ?_⟩
    rw [hm, flatMap_append, flatMap_cons] at hpasses
    obtain ⟨-, hrest, hbefore⟩ := nodup_append.1 hpasses
    obtain ⟨-, -, hafter⟩ := nodup_append.1 hrest
    intro q hq hin'
    rcases mem_append.1 hq with hq | hq
    · exact hbefore id (mem_flatMap.2 ⟨q, hq, hin'⟩) id (mem_append_left _ hin) rfl
    · exact hafter id hin id (mem_flatMap.2 ⟨q, hq, hin'⟩) rfl

theorem Ok.accounted : m.Accounted where
  once := h.once
  cleared _ _ _ hlog hin := h.respects.never hlog hin
  taken := h.batches.taken
  order := h.batches.order
  later := by
    intro b hb i hi hran
    have htake := (h.batches.taken b hb).subset ((h.batches.order b hb).subset hran)
    have hnd : (issuedIds m.log).Nodup := h.issued ▸ nodup_range'
    rw [← take_append_drop b.since m.log, issuedIds_append] at hnd
    exact (nodup_append.1 hnd).2.2 i htake i hi rfl
  apart := h.batches.apart
  used := h.batches.used
  kept i hi hu hv := by
    rcases h.tracked i hi with hu' | hv' | hh
    · exact absurd hu' hu
    · exact absurd hv' hv
    · exact h.waits hh

end

end Immediates

/-- **The immediates are accounted for** in every state that adding, clearing and passes, also inside each other, can reach:
each is run at most once and never when it was cleared first, each pass runs its own batch only, in the order of insertion
and without what was queued since it began, no two passes have an immediate in common, and what is neither run nor cleared
waits in the queue or in exactly one pass in flight. -/
theorem immediates_accounted (labels : List Immediates.Label) (m : Immediates)
    (hrun : Run Immediates.step (fun _ _ => True) {} labels m) : m.Accounted :=
  (hrun.invariant (fun _ _ _ h _ hstep => h.step hstep) Immediates.ok_init).accounted

/-- A pass inside a pass: the second callback of the batch is cleared by the first one, which also queues another and pumps
the loop. -/
theorem immediates_accounted_nested : ∃ m, Run Immediates.step (fun _ _ => True) {}
    [.add, .add, .runAll true, .next, .add, .remove 2, .runAll true, .next, .back, .next, .back, .next] m ∧ m.Accounted ∧
      usedIds m.log = [1, 3] := by
  have h : (runs Immediates.step {} [.add, .add, .runAll true, .next, .add, .remove 2, .runAll true, .next, .back, .next, .back,
      .next]).any (fun m => usedIds m.log = [1, 3]) = true := by
    decide
  obtain ⟨m, hm, hused⟩ := (Option.any_eq_true _ _).1 h
  exact ⟨m, .of_runs hm, immediates_accounted _ m (.of_runs hm), of_decide_eq_true hused⟩

end NodeCompat.Loop
