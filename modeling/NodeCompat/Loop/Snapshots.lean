import Mathlib.Data.List.Nodup
import NodeCompat.Loop.Reactor

/-!
# No watcher is used after it is closed

`Reactor.Ok` holds in every state a run gets to. Its two ideas: `dispatchDepth_` counts the frames that hold a snapshot
behind the wait, and the `onReady` calls, so where it is 0 a purge finds no snapshot that could still name a watcher it
destroys; and a watcher that some list or snapshot still names, and that has been closed, is still in `closing_`, where
every dispatch looks first.
-/

namespace NodeCompat.Loop

open List Option

/-! ## What the log says -/

section Log

variable {w v : Nat} {log : List Event}

theorem closedIn_added : closedIn w (log ++ [.added v]) = if v = w then false else closedIn w log := by
  simp [closedIn]

theorem closedIn_closed : closedIn w (log ++ [.closed v]) = if v = w then true else closedIn w log := by
  simp [closedIn]

theorem closedIn_adopted : closedIn w (log ++ [.added v, .adopted v]) = if v = w then false else closedIn w log := by
  simp [closedIn]

@[simp] theorem closedIn_ready : closedIn w (log ++ [.ready v]) = closedIn w log := by
  simp [closedIn]

@[simp] theorem closedIn_destroyed (ws : List Nat) : closedIn w (log ++ ws.map .destroyed) = closedIn w log := by
  induction ws generalizing log with
  | nil => simp
  | cons u us ih => rw [map_cons, ← singleton_append, ← append_assoc, ih]; simp [closedIn]

end Log

namespace Reactor

/-- Every call of `onReady` so far was on a watcher that was not closed. -/
def NeverLate (log : List Event) : Prop :=
  ∀ before w behind, log = before ++ .ready w :: behind → closedIn w before = false

/-- A watcher that may be named: it exists, and if it was closed its close is pending. -/
def Live (m : Reactor) (w : Nat) : Prop := .destroyed w ∉ m.log ∧ (closedIn w m.log = true → w ∈ m.closing)

structure Ok (b : Backend) (m : Reactor) : Prop where
  depth : m.depth = (m.stack.map Frame.raises).sum
  shape : ∀ f ∈ m.stack.tail, f.waits = false
  inside : ∀ f ∈ m.stack, ∀ w ∈ f.pending, w ∈ f.snapshot
  held : ∀ f ∈ m.stack, ∀ w ∈ f.snapshot, m.Live w
  watched : ∀ w, w ∈ m.borrowed ∨ w ∈ m.owned → closedIn w m.log = true → w ∈ m.closing
  registered : ∀ w ∈ m.registered, closedIn w m.log = false ∧ .destroyed w ∉ m.log
  polling : b = .poll → m.registered = []
  borrowed : ∀ w ∈ m.borrowed, .adopted w ∉ m.log ∧ .added w ∈ m.log
  owned : ∀ w, w ∈ m.owned ↔ .adopted w ∈ m.log ∧ .destroyed w ∉ m.log
  owned_nodup : m.owned.Nodup
  added : ∀ w, .adopted w ∈ m.log → .added w ∈ m.log
  closing : ∀ w ∈ m.closing, closedIn w m.log = true ∧ .destroyed w ∉ m.log
  closing_nodup : m.closing.Nodup
  destroyed : ∀ w, .destroyed w ∈ m.log → .adopted w ∈ m.log
  once : ∀ w, m.log.count (.destroyed w) ≤ 1
  never_late : NeverLate m.log

variable {m : Reactor} {b : Backend}

theorem ok_init (b : Backend) : ({} : Reactor).Ok b where
  depth := rfl
  shape := by rintro f ⟨⟩
  inside := by rintro f ⟨⟩
  held := by rintro f ⟨⟩
  watched := by rintro w (h | h) <;> cases h
  registered := by rintro w ⟨⟩
  polling _ := rfl
  borrowed := by rintro w ⟨⟩
  owned := by simp
  owned_nodup := nodup_nil
  added := by rintro w ⟨⟩
  closing := by rintro w ⟨⟩
  closing_nodup := nodup_nil
  destroyed := by rintro w ⟨⟩
  once := by simp
  never_late := by intro before w behind h; exact absurd h.symm (by simp)

/-- Further events, each call of `onReady` among them on a watcher that was not closed. -/
theorem NeverLate.append {log es : List Event} (h : NeverLate log)
    (hes : ∀ before w behind, es = before ++ .ready w :: behind → closedIn w (log ++ before) = false) :
    NeverLate (log ++ es) := by
  intro before w behind heq
  rcases append_eq_append_iff.1 heq with ⟨c, rfl, hc⟩ | ⟨c, hc, hes'⟩
  · exact hes c w behind hc
  · cases c with
    | nil =>
      rw [append_nil] at hc
      have := hes [] w behind hes'.symm; rwa [append_nil, hc] at this
    | cons e c' => obtain ⟨rfl, -⟩ := List.cons.inj hes'; exact h before w c' hc

theorem NeverLate.other {log es : List Event} (h : NeverLate log) (hes : ∀ w, .ready w ∉ es) : NeverLate (log ++ es) :=
  h.append fun before w behind heq => absurd (by rw [heq]; simp) (hes w)

theorem NeverLate.ready {log : List Event} (h : NeverLate log) {v : Nat} (hv : closedIn v log = false) :
    NeverLate (log ++ [.ready v]) := by
  refine h.append fun before w behind heq => ?_
  cases before with
  | nil =>
    cases heq; rwa [append_nil]
  | cons e c => have := congrArg List.length heq; simp at this

/-! ## Adding and closing -/

theorem watcherAdded_eq (b : Backend) (m : Reactor) (w : Nat) : ∃ registered, watcherAdded b m w = { m with registered } ∧
    (∀ v ∈ registered, v ∈ m.registered ∨ v = w) ∧ (b = .poll → registered = m.registered) := by
  cases b with
  | poll => exact ⟨m.registered, rfl, fun v hv => .inl hv, fun _ => rfl⟩
  | epoll => exact ⟨m.registered ++ [w], rfl, by simp, by rintro ⟨⟩⟩

theorem Live.added {w v : Nat} (h : m.Live v) {m' : Reactor} (hc : m'.closing = m.closing)
    (hd : .destroyed v ∈ m'.log → .destroyed v ∈ m.log)
    (hl : closedIn v m'.log = if w = v then false else closedIn v m.log) : m'.Live v := by
  refine ⟨fun hm => h.1 (hd hm), fun hcl => ?_⟩
  rw [hl] at hcl
  split at hcl
  · cases hcl
  · rw [hc]; exact h.2 hcl

namespace Ok

theorem not_destroyed (h : m.Ok b) {w : Nat} (hw : .adopted w ∉ m.log) : .destroyed w ∉ m.log :=
  fun hd => hw (h.destroyed w hd)

theorem addBorrowed (h : m.Ok b) {w : Nat} (hc : w ∉ m.closing) (ha : .adopted w ∉ m.log) : (m.addBorrowed b w).Ok b := by
  obtain ⟨registered, heq, hreg, hpoll⟩ := watcherAdded_eq b { m with borrowed := m.borrowed ++ [w], log := m.log ++ [.added w] } w
  unfold Reactor.addBorrowed
  rw [heq]
  refine ⟨h.depth, h.shape, h.inside, ?_, ?_, ?_, ?_, ?_, ?_, h.owned_nodup, ?_, ?_, h.closing_nodup, ?_, ?_, ?_⟩
  · intro f hf v hv; exact (h.held f hf v hv).added rfl (by simp) closedIn_added
  · intro v hv hcl
    rw [closedIn_added] at hcl
    split at hcl
    · cases hcl
    · next hne =>
      refine h.watched v (hv.imp_left fun hv => ?_) hcl
      rcases mem_append.1 hv with hv | hv
      · exact hv
      · exact absurd (mem_singleton.1 hv).symm hne
  · intro v hv
    rw [closedIn_added]
    by_cases hvw : w = v
    · subst hvw; exact ⟨if_pos rfl, by simpa using h.not_destroyed ha⟩
    · have hv' := (hreg v hv).resolve_right (fun e => hvw e.symm)
      rw [if_neg hvw]; exact ⟨(h.registered v hv').1, by simpa using (h.registered v hv').2⟩
  · intro hb; exact (hpoll hb).trans (h.polling hb)
  · intro v hv
    rcases mem_append.1 hv with hv | hv
    · have := h.borrowed v hv; exact ⟨by simpa using this.1, by simp [this.2]⟩
    · rw [mem_singleton.1 hv]; exact ⟨by simpa using ha, by simp⟩
  · simpa using h.owned
  · intro v hv; simpa using .inl (h.added v (by simpa using hv))
  · intro v hv
    have hne : w ≠ v := fun e => hc (e ▸ hv)
    rw [closedIn_added, if_neg hne]; exact ⟨(h.closing v hv).1, by simpa using (h.closing v hv).2⟩
  · intro v hv; simpa using h.destroyed v (by simpa using hv)
  · intro v; simpa [count_append] using h.once v
  · exact h.never_late.other (by simp)

theorem adopt (h : m.Ok b) {w : Nat} (hc : w ∉ m.closing) (ha : .added w ∉ m.log) : (m.adopt b w).Ok b := by
  obtain ⟨registered, heq, hreg, hpoll⟩ :=
    watcherAdded_eq b { m with owned := m.owned ++ [w], log := m.log ++ [.added w, .adopted w] } w
  have had : .adopted w ∉ m.log := fun hm => ha (h.added w hm)
  have hdes := h.not_destroyed had
  unfold Reactor.adopt
  rw [heq]
  refine ⟨h.depth, h.shape, h.inside, ?_, ?_, ?_, ?_, ?_, ?_, ?_, ?_, ?_, h.closing_nodup, ?_, ?_, ?_⟩
  · intro f hf v hv; exact (h.held f hf v hv).added rfl (by simp) closedIn_adopted
  · intro v hv hcl
    rw [closedIn_adopted] at hcl
    split at hcl
    · cases hcl
    · next hne =>
      refine h.watched v (hv.imp_right fun hv => ?_) hcl
      rcases mem_append.1 hv with hv | hv
      · exact hv
      · exact absurd (mem_singleton.1 hv).symm hne
  · intro v hv
    rw [closedIn_adopted]
    by_cases hvw : w = v
    · subst hvw; exact ⟨if_pos rfl, by simpa using hdes⟩
    · have hv' := (hreg v hv).resolve_right (fun e => hvw e.symm)
      rw [if_neg hvw]; exact ⟨(h.registered v hv').1, by simpa using (h.registered v hv').2⟩
  · intro hb; exact (hpoll hb).trans (h.polling hb)
  · intro v hv
    obtain ⟨h₁, h₂⟩ := h.borrowed v hv
    have hne : v ≠ w := fun e => ha (e ▸ h₂)
    exact ⟨by simp [h₁, hne], by simp [h₂]⟩
  · intro v
    have hv := h.owned v
    by_cases hvw : v = w
    · subst hvw; simp [hdes]
    · simp [hv, hvw]
  · refine nodup_append.2 ⟨h.owned_nodup, by simp, ?_⟩
    rintro v hv u hu rfl; rw [mem_singleton.1 hu] at hv; exact had ((h.owned w).1 hv).1
  · intro v hv
    simp only [mem_append, mem_cons, reduceCtorEq, Event.adopted.injEq, false_or, not_mem_nil, or_false] at hv ⊢
    rcases hv with hv | rfl
    · exact .inl (h.added v hv)
    · exact .inr rfl
  · intro v hv
    have hne : w ≠ v := fun e => hc (e ▸ hv)
    rw [closedIn_adopted, if_neg hne]; exact ⟨(h.closing v hv).1, by simpa using (h.closing v hv).2⟩
  · intro v hv; exact mem_append_left _ (h.destroyed v (by simpa using hv))
  · intro v; simpa [count_append] using h.once v
  · exact h.never_late.other (by simp)

end Ok

theorem close_eq (h : m.Ok b) (w : Nat) : ∃ registered, m.close b w =
      { m with closing := if w ∈ m.closing then m.closing else m.closing ++ [w], registered, log := m.log ++ [.closed w] } ∧
    (∀ v ∈ registered, v ∈ m.registered ∧ v ≠ w) ∧ (b = .poll → registered = []) := by
  unfold Reactor.close
  by_cases hc : w ∈ m.closing
  · rw [if_pos hc]
    refine ⟨m.registered, by rw [if_pos hc], fun v hv => ⟨hv, ?_⟩, h.polling⟩
    rintro rfl; exact absurd ((h.registered v hv).1.symm.trans (h.closing v hc).1) (by decide)
  · rw [if_neg hc]
    cases b with
    | poll =>
      refine ⟨m.registered, by rw [if_neg hc], fun v hv => ?_, h.polling⟩
      rw [h.polling rfl] at hv; cases hv
    | epoll =>
      refine ⟨m.registered.filter (· ≠ w), by rw [if_neg hc], fun v hv => ?_, by rintro ⟨⟩⟩
      simpa using hv

namespace Ok

theorem close (h : m.Ok b) {w : Nat} (hw : .destroyed w ∉ m.log) : (m.close b w).Ok b := by
  obtain ⟨registered, heq, hreg, hpoll⟩ := close_eq h w
  have hmem : ∀ v, v ∈ (if w ∈ m.closing then m.closing else m.closing ++ [w]) ↔ v ∈ m.closing ∨ v = w := by
    intro v
    split
    · next hc =>
      constructor
      · exact .inl
      · rintro (hv | rfl)
        · exact hv
        · exact hc
    · simp
  have hpending : ∀ v, (closedIn v m.log = true → v ∈ m.closing) → closedIn v (m.log ++ [.closed w]) = true →
      v ∈ (if w ∈ m.closing then m.closing else m.closing ++ [w]) := by
    intro v hv hcl
    rw [hmem]
    rw [closedIn_closed] at hcl
    split at hcl
    · next e => exact .inr e.symm
    · exact .inl (hv hcl)
  rw [heq]
  refine ⟨h.depth, h.shape, h.inside, ?_, ?_, ?_, hpoll, ?_, ?_, h.owned_nodup, ?_, ?_, ?_, ?_, ?_, ?_⟩
  · intro f hf v hv
    obtain ⟨h₁, h₂⟩ := h.held f hf v hv; exact ⟨by simpa using h₁, hpending v h₂⟩
  · intro v hv; exact hpending v (h.watched v hv)
  · intro v hv
    obtain ⟨h₁, h₂⟩ := hreg v hv
    rw [closedIn_closed, if_neg (Ne.symm h₂)]
    exact ⟨(h.registered v h₁).1, by simpa using (h.registered v h₁).2⟩
  · intro v hv
    obtain ⟨h₁, h₂⟩ := h.borrowed v hv; exact ⟨by simpa using h₁, by simp [h₂]⟩
  · simpa using h.owned
  · intro v hv; exact mem_append_left _ (h.added v (by simpa using hv))
  · intro v hv
    rw [closedIn_closed]
    rcases (hmem v).1 hv with hv | rfl
    · obtain ⟨h₁, h₂⟩ := h.closing v hv
      exact ⟨by split <;> simp [h₁], by simpa using h₂⟩
    · exact ⟨if_pos rfl, by simpa using hw⟩
  · split
    · exact h.closing_nodup
    · next hc =>
      refine nodup_append.2 ⟨h.closing_nodup, by simp, ?_⟩
      rintro v hv u hu rfl; rw [mem_singleton.1 hu] at hv; exact hc hv
  · intro v hv; exact mem_append_left _ (h.destroyed v (by simpa using hv))
  · intro v; simpa [count_append] using h.once v
  · exact h.never_late.other (by simp)

end Ok

/-! ## The stack -/

section

variable (h : m.Ok b)
include h

theorem Ok.restack {stack : List Frame} {depth : Nat} (hd : depth = (stack.map Frame.raises).sum)
    (hsh : ∀ f ∈ stack.tail, f.waits = false) (hin : ∀ f ∈ stack, ∀ w ∈ f.pending, w ∈ f.snapshot)
    (hheld : ∀ f ∈ stack, ∀ w ∈ f.snapshot, m.Live w) : ({ m with depth, stack } : Reactor).Ok b :=
  ⟨hd, hsh, hin, hheld, h.watched, h.registered, h.polling, h.borrowed, h.owned, h.owned_nodup, h.added, h.closing,
    h.closing_nodup, h.destroyed, h.once, h.never_late⟩

theorem Ok.retop {f g : Frame} {rest : List Frame} (hst : m.stack = f :: rest) {depth : Nat}
    (hd : depth + f.raises = m.depth + g.raises) (hin : ∀ w ∈ g.pending, w ∈ g.snapshot)
    (hheld : ∀ w ∈ g.snapshot, m.Live w) : ({ m with depth, stack := g :: rest } : Reactor).Ok b := by
  have hdepth := h.depth
  have hshape := h.shape
  have hinside := h.inside
  have hheld' := h.held
  rw [hst] at hdepth hshape hinside hheld'
  refine h.restack ?_ hshape ?_ ?_
  · rw [map_cons, sum_cons] at hdepth ⊢; omega
  · intro f' hf'
    rcases mem_cons.1 hf' with rfl | hf'
    · exact hin
    · exact hinside f' (mem_cons_of_mem f hf')
  · intro f' hf'
    rcases mem_cons.1 hf' with rfl | hf'
    · exact hheld
    · exact hheld' f' (mem_cons_of_mem f hf')

theorem Ok.pop {f : Frame} {rest : List Frame} (hst : m.stack = f :: rest) :
    ({ m with depth := m.depth - f.raises, stack := rest } : Reactor).Ok b := by
  have hdepth := h.depth
  have hshape := h.shape
  have hinside := h.inside
  have hheld := h.held
  rw [hst] at hdepth hshape hinside hheld
  refine h.restack ?_ ?_ ?_ ?_
  · rw [map_cons, sum_cons] at hdepth; omega
  · exact fun f' hf' => hshape f' (mem_of_mem_tail hf')
  · exact fun f' hf' => hinside f' (mem_cons_of_mem f hf')
  · exact fun f' hf' => hheld f' (mem_cons_of_mem f hf')

theorem Ok.push {g : Frame} (hsh : ∀ f ∈ m.stack, f.waits = false) (hp : g.pending = [])
    (hs : g.snapshot = []) : ({ m with depth := m.depth + g.raises, stack := g :: m.stack } : Reactor).Ok b := by
  refine h.restack ?_ hsh ?_ ?_
  · rw [map_cons, sum_cons, h.depth]; omega
  · intro f hf
    rcases mem_cons.1 hf with rfl | hf
    · rw [hp]
      rintro w ⟨⟩
    · exact h.inside f hf
  · intro f hf
    rcases mem_cons.1 hf with rfl | hf
    · rw [hs]
      rintro w ⟨⟩
    · exact h.held f hf

theorem Ok.callback_waits (hc : m.inCallback = true) : ∀ f ∈ m.stack, f.waits = false := by
  have hshape := h.shape
  intro f hf
  unfold inCallback at hc
  cases hst : m.stack with
  | nil => rw [hst] at hf; cases hf
  | cons g rest =>
    rw [hst] at hc hf hshape
    rcases mem_cons.1 hf with rfl | hf
    · cases f with
      | onReady w => rfl
      | run p => cases p <;> first | rfl | cases hc
    · exact hshape f hf

theorem Ok.no_snapshot (hd : m.depth = 0) (hw : ∀ f ∈ m.stack, f.waits = false) :
    ∀ f ∈ m.stack, f.snapshot = [] := by
  intro f hf
  have hsum := h.depth
  rw [hd] at hsum
  have hr : f.raises = 0 := List.sum_eq_zero_iff_forall_eq_nat.1 hsum.symm _ (List.mem_map_of_mem hf)
  have hw' := hw f hf
  cases f with
  | onReady w => rfl
  | run p =>
    cases p with
    | top => rfl
    | tests polled => cases hw'
    | woken s events | batch s left | after s => cases hr

end

/-! ## Purging -/

theorem foldl_purgeOne : ∀ (ws : List Nat) (m : Reactor), ws.Nodup → m.owned.Nodup → ws.foldl purgeOne m = { m with
      borrowed := m.borrowed.filter (· ∉ ws)
      owned := m.owned.filter (· ∉ ws)
      log := m.log ++ (ws.filter (· ∈ m.owned)).map .destroyed }
  | [], m, _, _ => by simp [filter_eq_self.2]
  | w :: ws, m, hws, ho => by
    obtain ⟨hw, hws⟩ := nodup_cons.1 hws
    have hown : (m.purgeOne w).owned.Nodup := ho.filter _
    rw [foldl_cons, foldl_purgeOne ws _ hws hown]
    -- the watchers behind `w` are other ones: that `w` is gone does not matter to them
    have hrest : ws.filter (· ∈ (m.purgeOne w).owned) = ws.filter (· ∈ m.owned) := by
      refine filter_congr fun v hv => ?_
      have hne : v ≠ w := fun e => hw (e ▸ hv)
      simp [purgeOne, hne]
    have hone : m.owned.filter (· = w) = if w ∈ m.owned then [w] else [] := by
      rw [filter_eq, ho.count]
      split <;> rfl
    have hfilter : ∀ xs : List Nat, (xs.filter (· ≠ w)).filter (· ∉ ws) = xs.filter (· ∉ w :: ws) := by
      intro xs
      rw [List.filter_filter]
      refine filter_congr fun v _ => ?_
      simp [Bool.and_comm]
    rw [hrest]
    simp only [purgeOne, hone, hfilter, filter_cons, decide_eq_true_eq]
    split <;> simp

theorem purgeClosed_eq (h : m.Ok b) : m.purgeClosed = { m with
      borrowed := m.borrowed.filter (· ∉ m.closing)
      owned := m.owned.filter (· ∉ m.closing)
      closing := []
      log := m.log ++ (m.closing.filter (· ∈ m.owned)).map .destroyed } := by
  unfold purgeClosed; rw [foldl_purgeOne m.closing m h.closing_nodup h.owned_nodup]

theorem mem_purged {w : Nat} : .destroyed w ∈ m.log ++ (m.closing.filter (· ∈ m.owned)).map .destroyed ↔
    .destroyed w ∈ m.log ∨ w ∈ m.closing ∧ w ∈ m.owned := by
  simp

/-- **A purge where no snapshot is held.** -/
theorem Ok.purgeClosed (h : m.Ok b) (hs : ∀ f ∈ m.stack, f.snapshot = []) : m.purgeClosed.Ok b := by
  rw [purgeClosed_eq h]
  refine ⟨h.depth, h.shape, h.inside, ?_, ?_, ?_, h.polling, ?_, ?_, ?_, ?_, ?_, nodup_nil, ?_, ?_, ?_⟩
  · intro f hf w hw; rw [hs f hf] at hw; cases hw
  · intro w hw hcl
    rw [closedIn_destroyed] at hcl
    simp only [mem_filter, decide_eq_true_eq] at hw
    exact absurd (h.watched w (hw.imp And.left And.left) hcl) (hw.elim And.right And.right)
  · intro w hw
    obtain ⟨h₁, h₂⟩ := h.registered w hw
    refine ⟨by rw [closedIn_destroyed]; exact h₁, ?_⟩
    rw [mem_purged]
    rintro (hd | ⟨hc, -⟩)
    · exact h₂ hd
    · exact absurd (h₁.symm.trans (h.closing w hc).1) (by decide)
  · intro w hw
    obtain ⟨h₁, h₂⟩ := h.borrowed w (mem_filter.1 hw).1; exact ⟨by simpa using h₁, by simp [h₂]⟩
  · intro w
    rw [mem_purged, mem_filter, decide_eq_true_eq, h.owned w]
    simp only [mem_append, List.mem_map, reduceCtorEq, and_false, exists_false, or_false]
    constructor
    · rintro ⟨⟨h₁, h₂⟩, h₃⟩; exact ⟨h₁, fun hd => hd.elim h₂ (fun hc => h₃ hc.1)⟩
    · rintro ⟨h₁, h₂⟩
      have h₃ : .destroyed w ∉ m.log := fun hd => h₂ (.inl hd)
      exact ⟨⟨h₁, h₃⟩, fun hc => h₂ (.inr ⟨hc, h₁, h₃⟩)⟩
  · exact h.owned_nodup.filter _
  · intro w hw; exact mem_append_left _ (h.added w (by simpa using hw))
  · rintro w ⟨⟩
  · intro w hw
    refine mem_append_left _ ?_
    rcases mem_purged.1 hw with hd | ⟨-, ho⟩
    · exact h.destroyed w hd
    · exact ((h.owned w).1 ho).1
  · intro w
    have hcount : ((m.closing.filter (· ∈ m.owned)).map Event.destroyed).count (.destroyed w) ≤ 1 := by
      refine nodup_iff_count.1 (List.Nodup.map (fun _ _ h => Event.destroyed.inj h) (h.closing_nodup.filter _)) _
    rw [count_append]
    by_cases hd : .destroyed w ∈ m.log
    · have hz : ((m.closing.filter (· ∈ m.owned)).map Event.destroyed).count (.destroyed w) = 0 := by
        rw [count_eq_zero]
        simp only [List.mem_map, mem_filter, Event.destroyed.injEq, exists_eq_right, decide_eq_true_eq]
        rintro ⟨hc, -⟩; exact (h.closing w hc).2 hd
      have := h.once w; omega
    · rw [count_eq_zero.2 hd]; omega
  · refine h.never_late.other fun w hw => ?_
    simp at hw

theorem Ok.purgeClosedIfSafe (h : m.Ok b) (hw : ∀ f ∈ m.stack, f.waits = false) : m.purgeClosedIfSafe.Ok b := by
  unfold Reactor.purgeClosedIfSafe
  split
  · next hd => exact h.purgeClosed (h.no_snapshot hd hw)
  · exact h

/-! ## The steps -/

namespace Ok

section

variable (h : m.Ok b)
include h

theorem live_polled {w : Nat} (hw : w ∈ m.polled b) : m.Live w := by
  cases b with
  | epoll => cases hw
  | poll =>
    have hw' : w ∈ m.borrowed ∨ w ∈ m.owned := mem_append.1 (mem_filter.1 hw).1
    refine ⟨?_, h.watched w hw'⟩
    rcases hw' with hb | ho
    · exact h.not_destroyed (h.borrowed w hb).1
    · exact ((h.owned w).1 ho).2

theorem live_registered {w : Nat} (hw : w ∈ m.registered) : m.Live w := by
  obtain ⟨h₁, h₂⟩ := h.registered w hw; exact ⟨h₂, fun hc => absurd (h₁.symm.trans hc) (by decide)⟩

theorem top {f : Frame} {rest : List Frame} (hst : m.stack = f :: rest) :
    (∀ w ∈ f.pending, w ∈ f.snapshot) ∧ (∀ w ∈ f.snapshot, m.Live w) ∧ (∀ g ∈ rest, g.waits = false) := by
  have hin := h.inside
  have hheld := h.held
  have hshape := h.shape
  rw [hst] at hin hheld hshape; exact ⟨hin f mem_cons_self, hheld f mem_cons_self, hshape⟩

theorem wake {polled events : List Nat} {rest : List Frame} (hst : m.stack = .run (.tests polled) :: rest)
    (hr : m.mayReport b polled events = true) :
    ({ m with depth := m.depth + 1, stack := .run (wokenPoint b polled events) :: rest } : Reactor).Ok b := by
  obtain ⟨-, hheld, -⟩ := h.top hst
  cases b with
  | poll => exact h.retop hst rfl (fun w hw => (isSublist_iff_sublist.1 hr).subset hw) hheld
  | epoll =>
    refine h.retop hst rfl (fun w hw => hw) fun w hw => h.live_registered ?_
    simpa using List.all_eq_true.1 hr w hw

theorem dispatchNext {s left : List Nat} {rest : List Frame} (hst : m.stack = .run (.batch s left) :: rest) :
    (m.dispatchNext s left rest).Ok b := by
  obtain ⟨hin, hheld, hshape⟩ := h.top hst
  unfold Reactor.dispatchNext
  split
  · exact h.retop hst rfl (by rintro w ⟨⟩) hheld
  · next w ws =>
    have hin' : ∀ v ∈ ws, v ∈ s := fun v hv => hin v (mem_cons_of_mem w hv)
    split
    · exact h.retop hst rfl hin' hheld
    · next hc =>
      -- a watcher of the snapshot that was closed would still be in `closing_`
      have hopen : closedIn w m.log = false := by
        rw [Bool.eq_false_iff]; exact fun hcl => hc ((hheld w (hin w mem_cons_self)).2 hcl)
      have h₁ : ({ m with depth := m.depth, stack := .run (.batch s ws) :: rest } : Reactor).Ok b :=
        h.retop hst rfl hin' hheld
      have h₂ := h₁.push (g := .onReady w) (fun f hf => by
        rcases mem_cons.1 hf with rfl | hf
        · rfl
        · exact hshape f hf) rfl rfl
      refine ⟨h₂.depth, h₂.shape, h₂.inside, ?_, ?_, ?_, h₂.polling, ?_, ?_, h₂.owned_nodup, ?_, ?_, h₂.closing_nodup,
        ?_, ?_, h₂.never_late.ready hopen⟩
      · intro f hf v hv
        obtain ⟨h₃, h₄⟩ := h₂.held f hf v hv; exact ⟨by simpa using h₃, by simpa using h₄⟩
      · simpa using h.watched
      · simpa using h.registered
      · simpa using h.borrowed
      · simpa using h.owned
      · simpa using h.added
      · simpa using h.closing
      · simpa using h.destroyed
      · simpa [count_append] using h.once

/-- **Every step keeps it.** -/
theorem step {l : Label} {m' : Reactor} (hstep : m.step b l = some m') : m'.Ok b := by
  unfold Reactor.step at hstep
  split at hstep
  · next w _ =>
    split at hstep
    · next hc =>
      cases hstep; exact h.addBorrowed hc.2.1 hc.2.2
    · cases hstep
  · next w _ =>
    split at hstep
    · next hc =>
      cases hstep; exact h.adopt hc.2.1 hc.2.2
    · cases hstep
  · next w _ =>
    split at hstep
    · next hc =>
      cases hstep; exact h.close hc.2
    · cases hstep
  · split at hstep
    · next hc =>
      cases hstep; exact h.push (g := .run .top) (h.callback_waits hc) rfl rfl
    · cases hstep
  · next rest hst =>
    cases hstep; exact h.retop hst rfl (by rintro w ⟨⟩) fun w hw => h.live_polled hw
  · next hst =>
    cases hstep; exact h.retop hst rfl (by rintro w ⟨⟩) (by rintro w ⟨⟩)
  · next hst =>
    split at hstep
    · next hr =>
      cases hstep; exact h.wake hst hr
    · cases hstep
  · next s events rest hst =>
    cases hstep
    obtain ⟨hin, hheld, -⟩ := h.top hst
    refine h.retop hst rfl (fun w hw => hin w ?_) hheld
    cases b with
    | poll => exact (mem_filter.1 hw).1
    | epoll => exact hw
  · next hst =>
    cases hstep; exact h.dispatchNext hst
  · next hst =>
    cases hstep; exact h.retop hst rfl (by rintro w ⟨⟩) (h.top hst).2.1
  · next hst =>
    cases hstep; exact h.pop hst
  · next rest hst =>
    cases hstep
    refine (h.retop hst ?_ (by rintro w ⟨⟩) (by rintro w ⟨⟩)).purgeClosedIfSafe fun f hf => ?_
    · have hd := h.depth; rw [hst, map_cons, sum_cons] at hd; simp only [Frame.raises] at hd ⊢; omega
    · rcases mem_cons.1 hf with rfl | hf
      · rfl
      · exact (h.top hst).2.2 f hf
  iterate 4
    next rest hst =>
      cases hstep; exact (h.pop hst).purgeClosedIfSafe (h.top hst).2.2
  · cases hstep

theorem destroyed_or_closing {w : Nat} (ha : .adopted w ∈ m.log) (hc : closedIn w m.log = true) :
    m.log.count (.destroyed w) + m.closing.count w = 1 := by
  by_cases hd : .destroyed w ∈ m.log
  · have hn : w ∉ m.closing := fun hcl => (h.closing w hcl).2 hd
    have h₁ := h.once w
    have h₂ := count_pos_iff.2 hd; rw [count_eq_zero.2 hn]; omega
  · have hw := h.watched w (.inr ((h.owned w).2 ⟨ha, hd⟩)) hc; rw [count_eq_zero.2 hd, h.closing_nodup.count, if_pos hw]

end

end Ok

/-- The end of a batch and each return of the loop purge, if no other batch is under way. -/
theorem purged_of_step {l : Label} {m' : Reactor} (hstep : m.step b l = some m') (hl : l = .turn ∨ l = .leave)
    (hd : m'.depth = 0) : m'.closing = [] := by
  have key : ∃ m₀ : Reactor, m' = m₀.purgeClosedIfSafe := by
    unfold step at hstep
    rcases hl with rfl | rfl
    all_goals
      split at hstep
      all_goals first
        | exact ⟨_, (Option.some.inj hstep).symm⟩
        | contradiction
  obtain ⟨m₀, rfl⟩ := key
  unfold purgeClosedIfSafe at hd ⊢
  split at hd
  · next h0 =>
    rw [if_pos h0]; rfl
  · next h0 => exact absurd hd h0

end Reactor

/-- **No use after close.** In every state of every run, with either backend, at any depth: every call of `onReady` was on
a watcher that was not closed; a watcher that the loop owns and that was closed is destroyed once, or its close is
pending, and pending closes end with the batch or the return that brings `dispatchDepth_` to 0; no watcher in the
snapshot of a frame on the stack is destroyed. -/
theorem no_use_after_close (b : Backend) {ls : List Reactor.Label} {m : Reactor}
    (h : Run (Reactor.step b) (fun _ _ => True) {} ls m) :
    Reactor.NeverLate m.log ∧ (∀ w, m.log.count (.destroyed w) ≤ 1) ∧
      (∀ w, .adopted w ∈ m.log → closedIn w m.log = true → m.log.count (.destroyed w) + m.closing.count w = 1) ∧
      (∀ l m', m.step b l = some m' → l = .turn ∨ l = .leave → m'.depth = 0 →
        ∀ w, .adopted w ∈ m'.log → closedIn w m'.log = true → m'.log.count (.destroyed w) = 1) ∧
      ∀ f ∈ m.stack, ∀ w ∈ f.snapshot, .destroyed w ∉ m.log := by
  have hok : m.Ok b := h.invariant (fun _ _ _ hi _ hstep => hi.step hstep) (Reactor.ok_init b)
  refine ⟨hok.never_late, hok.once, fun w ha hc => hok.destroyed_or_closing ha hc, ?_, fun f hf w hw => (hok.held f hf w hw).1⟩
  intro l m' hstep hl hd w ha hc
  have hcount := (hok.step hstep).destroyed_or_closing ha hc
  rw [Reactor.purged_of_step hstep hl hd] at hcount; exact hcount

/-- Two owned watchers are ready at once; the first, from its `onReady`, closes the second and itself and pumps the loop,
and the second is not dispatched. -/
def nestedRun : List Reactor.Label :=
  [.adopt 1, .adopt 2, .enter, .test, .wake [1, 2], .dispatch, .tau, .close 2, .close 1, .enter, .test, .leave, .ret, .tau,
    .tau]

theorem no_use_after_close_nested : ∃ m, Run (Reactor.step .epoll) (fun _ _ => True) {} nestedRun m ∧
    m.stack = [.run (.after [1, 2])] ∧ m.closing = [2, 1] ∧ .destroyed 2 ∉ m.log ∧
    ∃ m', m.step .epoll .leave = some m' ∧ m'.log.count (.destroyed 2) = 1 := by
  have h : (runs (Reactor.step .epoll) {} nestedRun).map (fun m => (m.stack, m.closing)) =
      some ([.run (.after [1, 2])], [2, 1]) := by
    decide +kernel
  have h' : ((runs (Reactor.step .epoll) {} nestedRun).bind (fun m => m.step .epoll .leave)).map
      (fun m => (m.depth, decide (.adopted 2 ∈ m.log), closedIn 2 m.log)) = some (0, true, true) := by
    decide +kernel
  obtain ⟨m, hm, heq⟩ := map_eq_some_iff.1 h
  obtain ⟨hstack, hclosing⟩ := Prod.mk.inj heq
  rw [hm, bind_some] at h'
  obtain ⟨m', hstep, heq'⟩ := map_eq_some_iff.1 h'
  simp only [Prod.mk.injEq, decide_eq_true_eq] at heq'
  have hall := no_use_after_close .epoll (.of_runs hm)
  refine ⟨m, .of_runs hm, hstack, hclosing, ?_, m', hstep, ?_⟩
  · exact hall.2.2.2.2 (.run (.after [1, 2])) (by rw [hstack]; simp) 2 (by decide)
  · exact hall.2.2.2.1 .leave m' hstep (.inr rfl) heq'.1 2 heq'.2.1 heq'.2.2

end NodeCompat.Loop
