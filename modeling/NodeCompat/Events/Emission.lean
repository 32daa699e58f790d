import Mathlib.Data.List.Flatten
import NodeCompat.Events.Storage

/-!
# What an emission runs

An emission takes the entries of its name when it gets to them, and runs these (`emit_runs_snapshot`). Its `once` entries are
dropped one after the other before anything runs, with `removeListener` listeners called in between. What these do may lead to a
`once` entry that two emissions have taken, or that is still there when the loop over the indices is done: it may then run twice
(`once_runs_twice`). Else every `once` registration runs at most once.

Entries are registrations here, so that those of one function are told apart.
-/

namespace NodeCompat.Events

open List Option Bool Function EventName

structure Registration (F : Type) where
  fn : F
  id : Nat
  once : Bool
deriving DecidableEq

variable {F V : Type}

instance [DecidableEq F] : LawfulBEq (Registration F) := inferInstance

/-- An emitter, the number of its calls, and the entries that have been run, each with the depth of the stack under its
emission. -/
structure Observed (F V : Type) where
  config : Config (Registration F) V := {}
  calls : Nat := 0
  started : List (Nat × Registration F) := []

namespace Observed

/-- A call with the registration that its function stands for: a new one, or the last one of the name. -/
def register [DecidableEq F] (o : Observed F V) : Call F V → Call (Registration F) V
  | .add name fn once prepend => .add name ⟨fn, o.calls, once⟩ once prepend
  | .off name fn =>
    .off name (((o.config.emitter.listeners name).reverse.find? (fun r => r.fn = fn)).getD ⟨fn, o.calls, false⟩)
  | .removeAllListeners name => .removeAllListeners name
  | .emit name args => .emit name args

/-- The entry that the next piece of work runs. -/
def starting : List (Work (Registration F) V) → List (Nat × Registration F)
  | .run (r :: _) _ :: ws => [(ws.length, r)]
  | _ => []

def step [DecidableEq F] (o : Observed F V) : Label F V → Option (Observed F V)
  | .tick => (o.config.step .tick).map (fun c => { o with config := c, started := o.started ++ starting o.config.works })
  | .call k => (o.config.step (.call (o.register k))).map (fun c => { o with config := c, calls := o.calls + 1 })
  | .ret => (o.config.step .ret).map (fun c => { o with config := c })
  | .throw => (o.config.step .throw).map (fun c => { o with config := c })

end Observed

/-! ## What works have taken -/

variable {L : Type}

namespace Work

/-- Entries that an emission has taken and goes on to run. -/
def ready : Work L V → List L
  | .run toRun _ => toRun
  | _ => []

/-- Entries that an emission has taken, while it drops `once` entries. -/
def dropping : Work L V → List L
  | .dropOnce _ _ _ toRun _ => toRun
  | _ => []

/-- The entry that a registration is about to add. -/
def adding : Work L V → List L
  | .addEntry _ fn _ _ => [fn]
  | _ => []

/-- The group whose `once` entries are being dropped. -/
def group : Work L V → Option GroupId
  | .dropOnce _ g _ _ _ => some g
  | _ => none

end Work

/-- No emission takes a `once` entry that another one has taken which still drops its own; and no `once` entry that it has taken is
left when an emission has dropped them. -/
def keepsOnce [DecidableEq F] (o : Observed F V) : Label F V → Bool
  | .tick =>
    match o.config.works with
    | .dispatchGroup name _ :: ws =>
      (o.config.emitter.listeners name).all (fun r => !r.once || ws.all (fun w => decide (r ∉ w.dropping)))
    | .dropOnce _ g 0 toRun _ :: _ => toRun.all (fun r => !r.once || decide (r ∉ (o.config.emitter.heap g).fns))
    | _ => true
  | _ => true

/-! ## The invariant of `once` -/

/-- The registration `r` is in at most one place on its way from its call to its run. -/
structure OnTheWay [DecidableEq F] (e : Emitter (Registration F)) (ws : List (Work (Registration F) V)) (ran : List (Registration F))
    (calls : Nat) (r : Registration F) : Prop where
  single : (ws.flatMap Work.ready).count r + (ws.flatMap Work.dropping).count r + ran.count r ≤ 1
  registered : ∀ g, r ∈ (e.heap g).fns → (ws.flatMap Work.ready).count r + ran.count r = 0
  here : ∀ g, (e.heap g).fns.count r ≤ 1
  alone : ∀ g g', r ∈ (e.heap g).fns → r ∈ (e.heap g').fns → g = g'
  dropped : ∀ w ∈ ws, r ∈ w.dropping → ∀ g, r ∈ (e.heap g).fns → w.group = some g
  adding : (ws.flatMap Work.adding).count r ≤ 1
  unused : r ∈ ws.flatMap Work.adding ∨ calls ≤ r.id →
    (∀ g, r ∉ (e.heap g).fns) ∧ (ws.flatMap Work.ready).count r + (ws.flatMap Work.dropping).count r + ran.count r = 0
  fresh : calls ≤ r.id → r ∉ ws.flatMap Work.adding

open Work

namespace OnTheWay

variable [DecidableEq F] {e e' : Emitter (Registration F)} {ws ws' : List (Work (Registration F) V)} {ran : List (Registration F)}
  {calls : Nat} {r : Registration F}

section

variable (h : OnTheWay e ws ran calls r)
include h

section

variable (hheap : ∀ g, (e'.heap g).fns.count r ≤ (e.heap g).fns.count r)
include hheap

theorem mono
    (hready : (ws'.flatMap Work.ready).Sublist (ws.flatMap Work.ready))
    (hdropping : (ws'.flatMap Work.dropping).Sublist (ws.flatMap Work.dropping))
    (hadding : (ws'.flatMap Work.adding).Sublist (ws.flatMap Work.adding))
    (hdropped : ∀ w ∈ ws', r ∈ w.dropping → ∃ w' ∈ ws, r ∈ w'.dropping ∧ w'.group = w.group) : OnTheWay e' ws' ran calls r := by
  have hin : ∀ {g}, r ∈ (e'.heap g).fns → r ∈ (e.heap g).fns := fun {g} hr =>
    count_pos_iff.1 (Nat.lt_of_lt_of_le (count_pos_iff.2 hr) (hheap g))
  have h₁ := hready.count_le r
  have h₂ := hdropping.count_le r
  constructor
  · have := h.single; omega
  · intro g hr
    have := h.registered g (hin hr); omega
  · exact fun g => Nat.le_trans (hheap g) (h.here g)
  · exact fun g g' hr hr' => h.alone g g' (hin hr) (hin hr')
  · intro w hw hr g hg
    obtain ⟨w', hw', hr', hgroup⟩ := hdropped w hw hr
    rw [← hgroup]; exact h.dropped w' hw' hr' g (hin hg)
  · exact Nat.le_trans (hadding.count_le r) h.adding
  · intro hor
    obtain ⟨hnot, hzero⟩ := h.unused (hor.imp (fun hr => hadding.subset hr) id)
    exact ⟨fun g hr => hnot g (hin hr), by omega⟩
  · exact fun hle hr => h.fresh hle (hadding.subset hr)

theorem works
    (new : List (Work (Registration F) V)) (hnew : ∀ w ∈ new, w.ready = [] ∧ w.dropping = [] ∧ w.adding = [])
    (hrest : ws'.Sublist ws) : OnTheWay e' (new ++ ws') ran calls r := by
  have hnone : ∀ f : Work (Registration F) V → List (Registration F), (∀ w ∈ new, f w = []) → new.flatMap f = [] :=
    fun f hf => flatMap_eq_nil_iff.2 hf
  refine h.mono hheap ?_ ?_ ?_ ?_
  · rw [flatMap_append, hnone _ (fun w hw => (hnew w hw).1), nil_append]
    exact hrest.flatMap _
  · rw [flatMap_append, hnone _ (fun w hw => (hnew w hw).2.1), nil_append]
    exact hrest.flatMap _
  · rw [flatMap_append, hnone _ (fun w hw => (hnew w hw).2.2), nil_append]
    exact hrest.flatMap _
  · intro w hw hr
    rcases mem_append.1 hw with hw | hw
    · rw [(hnew w hw).2.1] at hr; cases hr
    · exact ⟨w, hrest.subset hw, hr, rfl⟩

theorem run
    {toRun : List (Registration F)} (args : List (Argument (Registration F) V))
    (htaken : r ∈ toRun → toRun.count r ≤ 1 ∧ (∃ g, r ∈ (e.heap g).fns) ∧ (∀ g, r ∉ (e'.heap g).fns) ∧ ∀ w ∈ ws, r ∉ w.dropping) :
    OnTheWay e' (.run toRun args :: ws) ran calls r := by
  have h' := h.works hheap [] (by simp) (Sublist.refl ws)
  rw [nil_append] at h'
  by_cases hr : r ∈ toRun
  · obtain ⟨hcount, ⟨g, hg⟩, hnot, hno⟩ := htaken hr
    have hdropping : (ws.flatMap Work.dropping).count r = 0 := by
      refine count_eq_zero.2 (fun hmem => ?_)
      obtain ⟨w, hw, hr'⟩ := mem_flatMap.1 hmem; exact hno w hw hr'
    have hzero := h.registered g hg
    constructor
    · simp only [flatMap_cons, count_append, Work.ready, Work.dropping, count_nil]; omega
    · exact fun g hg => absurd hg (hnot g)
    · exact h'.here
    · exact h'.alone
    · intro w hw hr' g hg; exact absurd hg (hnot g)
    · exact h'.adding
    · intro hor; exact absurd hg ((h.unused hor).1 g)
    · exact h'.fresh
  · have hnone : toRun.count r = 0 := count_eq_zero.2 hr
    constructor
    · simpa [Work.ready, Work.dropping, hnone] using h'.single
    · simpa [Work.ready, hnone] using h'.registered
    · exact h'.here
    · exact h'.alone
    · intro w hw hr' g hg
      rcases mem_cons.1 hw with rfl | hw
      · cases hr'
      · exact h'.dropped w hw hr' g hg
    · exact h'.adding
    · simpa [Work.ready, Work.dropping, Work.adding, hnone] using h'.unused
    · exact h'.fresh

end

theorem drop (name : EventName) (g : GroupId) (args : List (Argument (Registration F) V))
    (hno : r ∈ (e.heap g).fns → ∀ w ∈ ws, r ∉ w.dropping) :
    OnTheWay e (.dropOnce name g (e.heap g).fns.length (e.heap g).fns args :: ws) ran calls r := by
  by_cases hr : r ∈ (e.heap g).fns
  · have hdropping : (ws.flatMap Work.dropping).count r = 0 := by
      refine count_eq_zero.2 (fun hmem => ?_)
      obtain ⟨w, hw, hr'⟩ := mem_flatMap.1 hmem; exact hno hr w hw hr'
    have hzero := h.registered g hr
    have hone := h.here g
    constructor
    · simp only [flatMap_cons, count_append, Work.ready, Work.dropping, count_nil]; omega
    · exact h.registered
    · exact h.here
    · exact h.alone
    · intro w hw hr' g' hg'
      rcases mem_cons.1 hw with rfl | hw
      · exact congrArg some (h.alone g g' hr hg')
      · exact h.dropped w hw hr' g' hg'
    · exact h.adding
    · exact fun hor => absurd hr ((h.unused hor).1 g)
    · exact h.fresh
  · have hnone : (e.heap g).fns.count r = 0 := count_eq_zero.2 hr
    constructor
    · simpa [Work.ready, Work.dropping, hnone] using h.single
    · exact h.registered
    · exact h.here
    · exact h.alone
    · intro w hw hr' g' hg'
      rcases mem_cons.1 hw with rfl | hw
      · exact absurd hr' hr
      · exact h.dropped w hw hr' g' hg'
    · exact h.adding
    · simpa [Work.ready, Work.dropping, Work.adding, hnone] using h.unused
    · exact h.fresh

end

theorem dropped_all {name : EventName} {g : GroupId} {toRun : List (Registration F)} {args : List (Argument (Registration F) V)}
    (h : OnTheWay e (.dropOnce name g 0 toRun args :: ws) ran calls r) (hgone : r ∈ toRun → r ∉ (e.heap g).fns) :
    OnTheWay e (.run toRun args :: ws) ran calls r := by
  have hsingle := h.single
  have hunused := h.unused
  simp only [flatMap_cons, count_append, ready, dropping, nil_append] at hsingle hunused
  constructor
  · simp only [flatMap_cons, count_append, ready, dropping, count_nil]; omega
  · intro g' hg'
    have hr : r ∉ toRun := by
      intro hr
      have hgroup := h.dropped _ mem_cons_self hr g' hg'
      cases hgroup; exact hgone hr hg'
    have := h.registered g' hg'; simpa [ready, count_eq_zero.2 hr] using this
  · exact h.here
  · exact h.alone
  · intro w hw hr g' hg'
    rcases mem_cons.1 hw with rfl | hw
    · cases hr
    · exact h.dropped w (mem_cons_of_mem _ hw) hr g' hg'
  · exact h.adding
  · intro hor
    obtain ⟨hnot, hzero⟩ := hunused hor
    refine ⟨hnot, ?_⟩
    simp only [flatMap_cons, count_append, ready, dropping, count_nil]; omega
  · exact h.fresh

theorem start {r₀ : Registration F} {fns : List (Registration F)} {args : List (Argument (Registration F) V)}
    (h : OnTheWay e (.run (r₀ :: fns) args :: ws) ran calls r) :
    OnTheWay e (.running r₀ args :: .run fns args :: ws) (ran ++ [r₀]) calls r := by
  have hsum : ((.running r₀ args :: .run fns args :: ws : List (Work (Registration F) V)).flatMap ready).count r +
      (ran ++ [r₀]).count r = ((.run (r₀ :: fns) args :: ws : List (Work (Registration F) V)).flatMap ready).count r + ran.count r := by
    simp only [flatMap_cons, count_append, ready, count_nil, count_cons]; omega
  have hdropping : ((.running r₀ args :: .run fns args :: ws : List (Work (Registration F) V)).flatMap dropping) =
      (.run (r₀ :: fns) args :: ws : List (Work (Registration F) V)).flatMap dropping := rfl
  constructor
  · have := h.single; rw [hdropping]; omega
  · intro g hg; exact hsum.trans (h.registered g hg)
  · exact h.here
  · exact h.alone
  · intro w hw hr g hg
    rcases mem_cons.1 hw with rfl | hw
    · cases hr
    · rcases mem_cons.1 hw with rfl | hw
      · cases hr
      · exact h.dropped w (mem_cons_of_mem _ hw) hr g hg
  · exact h.adding
  · intro hor
    obtain ⟨hnot, hzero⟩ := h.unused hor
    refine ⟨hnot, ?_⟩
    rw [hdropping]; omega
  · exact h.fresh

end OnTheWay

/-! ## The groups -/

open Emitter

namespace Emitter

variable (e : Emitter L)

theorem heap_dropEntry (g : GroupId) (i : Nat) : (e.dropEntry g i).heap =
    Function.update e.heap g { e.heap g with fns := (e.heap g).fns.eraseIdx i, once := (e.heap g).once.eraseIdx i } := by
  unfold dropEntry
  dsimp only
  split
  · rfl
  · rw [retire_heap]; rfl

theorem heap_addEntry (name : EventName) (fn : L) (once prepend : Bool) : ∃ g old,
    (old = e.heap g ∨ old = { name }) ∧ (e.addEntry name fn once prepend).heap = Function.update e.heap g (added fn once prepend old) := by
  have henter : (e.addEntry name fn once prepend).heap =
      Function.update (e.enter name).1.heap (e.enter name).2 (added fn once prepend ((e.enter name).1.heap (e.enter name).2)) := rfl
  rw [henter]
  unfold enter
  split
  · next g _ => exact ⟨g, e.heap g, .inl rfl, rfl⟩
  · split
    · next g _ => exact ⟨g, e.heap g, .inl rfl, rfl⟩
    · exact ⟨e.allocated, { name }, .inr rfl, by simp [allocate]⟩

theorem dropEntry_sublist (g : GroupId) (i : Nat) (g' : GroupId) :
    ((e.dropEntry g i).heap g').fns.Sublist (e.heap g').fns := by
  rw [heap_dropEntry]
  by_cases hg : g' = g
  · subst hg; simpa using eraseIdx_sublist _ _
  · rw [update_of_ne hg]

/-- The `once` flags of the groups are those of the registrations. -/
def Flagged (e : Emitter (Registration F)) : Prop := ∀ g, (e.heap g).once = (e.heap g).fns.map (·.once)

variable {e : Emitter (Registration F)}

theorem Flagged.dropEntry (h : e.Flagged) (g : GroupId) (i : Nat) : (e.dropEntry g i).Flagged := by
  intro g'
  rw [heap_dropEntry]
  by_cases hg : g' = g
  · subst hg; simp [h g', eraseIdx_eq_take_drop_succ]
  · simpa [hg] using h g'

theorem Flagged.addEntry (h : e.Flagged) (name : EventName) (r : Registration F) (prepend : Bool) :
    (e.addEntry name r r.once prepend).Flagged := by
  obtain ⟨g, old, hold, hheap⟩ := heap_addEntry e name r r.once prepend
  have hflag : old.once = old.fns.map (·.once) := by
    rcases hold with rfl | rfl
    · exact h g
    · rfl
  intro g'
  rw [hheap]
  by_cases hg : g' = g
  · subst hg
    cases prepend <;> simp [added, hflag]
  · simpa [hg] using h g'

/-- A dispatch takes the entries of the group: one that is dropped at once, some that are going to be dropped, or none to drop. -/
theorem Flagged.dispatchTo (h : e.Flagged) (name : EventName) (args : List (Argument (Registration F) V)) (g : GroupId) :
    (∃ r, (e.heap g).fns = [r] ∧ r.once = true ∧
      e.dispatchTo name args g = (e.dropEntry g 0, [.notifyRemoved name (some r), .run [r] args])) ∨
    e.dispatchTo name args g = (e, [.dropOnce name g (e.heap g).fns.length (e.heap g).fns args]) ∨
    (∀ r ∈ (e.heap g).fns, r.once = false) ∧ e.dispatchTo name args g = (e, [.run (e.heap g).fns args]) := by
  unfold Emitter.dispatchTo
  split
  · next r hfns =>
    rw [h g, hfns]
    by_cases hr : r.once = true
    · exact .inl ⟨r, rfl, hr, by simp [hr]⟩
    · exact .inr (.inr ⟨by simpa using hr, by simp [hr]⟩)
  · next fns hno =>
    rw [h g]
    by_cases hany : ((((e.heap g).fns.map (·.once)).take (e.heap g).fns.length).any id) = true
    · rw [if_pos hany]; exact .inr (.inl rfl)
    · rw [if_neg hany]
      refine .inr (.inr ⟨fun r hr => ?_, rfl⟩)
      by_contra hon
      apply hany
      rw [← length_map (f := (·.once)), take_length]
      exact List.any_eq_true.2 ⟨true, List.mem_map.2 ⟨r, hr, by simpa using hon⟩, rfl⟩

end Emitter

/-! ## Every step -/

namespace OnTheWay

variable [DecidableEq F] {e e' : Emitter (Registration F)} {ws : List (Work (Registration F) V)} {ran : List (Registration F)}
  {calls : Nat} {r : Registration F}

theorem enter {name : EventName} {r₀ : Registration F} {once prepend : Bool}
    (h : OnTheWay e (.addEntry name r₀ once prepend :: ws) ran calls r) :
    OnTheWay (e.addEntry name r₀ once prepend) (.hook name :: ws) ran calls r := by
  obtain ⟨g₀, old, hold, hheap⟩ := heap_addEntry e name r₀ once prepend
  have hle : old.fns.count r ≤ (e.heap g₀).fns.count r := by
    rcases hold with rfl | rfl
    · exact Nat.le_refl _
    · exact Nat.zero_le _
  have hcount : (added r₀ once prepend old).fns.count r = old.fns.count r + [r₀].count r := by
    cases prepend <;> simp [added, count_cons, count_append]
  by_cases hr : r = r₀
  · subst hr
    obtain ⟨hnot, hzero⟩ := h.unused (.inl (by simp [Work.adding]))
    have hadding := h.adding
    simp only [flatMap_cons, count_append, Work.ready, Work.dropping, Work.adding, nil_append, count_singleton_self]
      at hzero hadding
    have hnoadd : r ∉ ws.flatMap Work.adding := count_eq_zero.1 (by omega)
    have hold0 : old.fns.count r = 0 := Nat.le_zero.1 (hle.trans (Nat.le_of_eq (count_eq_zero.2 (hnot g₀))))
    have hwhere : ∀ g, r ∈ ((e.addEntry name r once prepend).heap g).fns → g = g₀ := by
      intro g hg
      by_contra hne
      rw [hheap, update_of_ne hne] at hg; exact hnot g hg
    constructor
    · show (ws.flatMap Work.ready).count r + (ws.flatMap Work.dropping).count r + ran.count r ≤ 1; omega
    · intro g _
      show (ws.flatMap Work.ready).count r + ran.count r = 0; omega
    · intro g
      rw [hheap]
      by_cases hg : g = g₀
      · subst hg; simp [hcount, hold0]
      · rw [update_of_ne hg, count_eq_zero.2 (hnot g)]; exact Nat.zero_le _
    · exact fun g g' hg hg' => (hwhere g hg).trans (hwhere g' hg').symm
    · intro w hw hr'
      rcases mem_cons.1 hw with rfl | hw
      · cases hr'
      · have hpos := count_pos_iff.2 (mem_flatMap.2 ⟨w, hw, hr'⟩); omega
    · exact (Nat.le_of_eq (count_eq_zero.2 hnoadd)).trans (Nat.zero_le _)
    · rintro (hin | hcalls)
      · exact absurd hin hnoadd
      · exact absurd (mem_append_left _ (mem_singleton_self r)) (h.fresh hcalls)
    · exact fun _ => hnoadd
  · refine h.works (fun g => ?_) [.hook name] (by simp [Work.ready, Work.dropping, Work.adding]) (sublist_cons_self _ _)
    rw [hheap]
    by_cases hg : g = g₀
    · subst hg; simpa [hcount, count_eq_zero.2 (show r ∉ [r₀] by simpa using hr)] using hle
    · rw [update_of_ne hg]

theorem more (h : OnTheWay e ws ran calls r) : OnTheWay e ws ran (calls + 1) r where
  single := h.single
  registered := h.registered
  here := h.here
  alone := h.alone
  dropped := h.dropped
  adding := h.adding
  unused hor := h.unused (hor.imp id (fun hle => Nat.le_of_succ_le hle))
  fresh hle := h.fresh (Nat.le_of_succ_le hle)

theorem add (h : OnTheWay e ws ran calls r) (name : EventName) (fn : F) (once prepend : Bool) :
    OnTheWay e (.addEntry name ⟨fn, calls, once⟩ once prepend :: ws) ran (calls + 1) r := by
  by_cases hr : r = ⟨fn, calls, once⟩
  · have hid : calls ≤ r.id := by rw [hr]
    have hnot := h.fresh hid
    obtain ⟨hreg, hzero⟩ := h.unused (.inr hid)
    constructor
    · exact h.single
    · exact h.registered
    · exact h.here
    · exact h.alone
    · intro w hw hr' g hg; exact absurd hg (hreg g)
    · simp only [flatMap_cons, count_append, Work.adding, count_eq_zero.2 hnot]; exact count_le_length
    · exact fun _ => ⟨hreg, hzero⟩
    · intro hle
      have : r.id = calls := by rw [hr]
      omega
  · constructor
    · exact h.single
    · exact h.registered
    · exact h.here
    · exact h.alone
    · intro w hw hr' g hg
      rcases mem_cons.1 hw with rfl | hw
      · cases hr'
      · exact h.dropped w hw hr' g hg
    · simpa [Work.adding, count_cons, Ne.symm hr] using h.adding
    · intro hor
      refine h.unused (hor.imp (fun hin => ?_) (fun hle => Nat.le_of_succ_le hle))
      simpa [Work.adding, hr] using hin
    · intro hle hin
      refine h.fresh (Nat.le_of_succ_le hle) ?_
      simpa [Work.adding, hr] using hin

end OnTheWay

/-- The invariant. -/
structure Once [DecidableEq F] (e : Emitter (Registration F)) (ws : List (Work (Registration F) V)) (ran : List (Registration F))
    (calls : Nat) : Prop where
  flagged : e.Flagged
  adds : ∀ name r once prepend, .addEntry name r once prepend ∈ ws → once = r.once
  way : ∀ r, r.once = true → OnTheWay e ws ran calls r

open Observed

namespace Once

variable [DecidableEq F] {e e' : Emitter (Registration F)} {ws ws' : List (Work (Registration F) V)} {ran : List (Registration F)}
  {calls : Nat}

section

variable (h : Once e ws ran calls)
include h

theorem adds_append (new : List (Work (Registration F) V)) (hnew : ∀ w ∈ new, w.adding = [])
    (hrest : ws'.Sublist ws) : ∀ name r once prepend, .addEntry name r once prepend ∈ new ++ ws' → once = r.once := by
  intro name r once prepend hmem
  rcases mem_append.1 hmem with hmem | hmem
  · cases hnew _ hmem
  · exact h.adds name r once prepend (hrest.subset hmem)

theorem works (hflag : e'.Flagged) (hheap : ∀ g, (e'.heap g).fns.Sublist (e.heap g).fns)
    (new : List (Work (Registration F) V)) (hnew : ∀ w ∈ new, w.ready = [] ∧ w.dropping = [] ∧ w.adding = [])
    (hrest : ws'.Sublist ws) : Once e' (new ++ ws') ran calls where
  flagged := hflag
  adds := h.adds_append new (fun w hw => (hnew w hw).2.2) hrest
  way r hr := (h.way r hr).works (fun g => (hheap g).count_le r) new hnew hrest

theorem quiet (new : List (Work (Registration F) V))
    (hnew : ∀ w ∈ new, w.ready = [] ∧ w.dropping = [] ∧ w.adding = []) (hrest : ws'.Sublist ws) : Once e (new ++ ws') ran calls :=
  h.works h.flagged (fun _ => Sublist.refl _) new hnew hrest

theorem unwind (hrest : ws'.Sublist ws) : Once e (unwind ws') ran calls :=
  h.quiet [] (by simp) ((dropWhile_sublist _).trans hrest)

end

/-- **The dispatch to a group.** -/
theorem dispatchTo {name : EventName} {args : List (Argument (Registration F) V)} (h : Once e (.dispatchGroup name args :: ws) ran calls)
    {g : GroupId} (hno : ∀ r ∈ (e.heap g).fns, r.once = true → ∀ w ∈ ws, r ∉ w.dropping) :
    Once (e.dispatchTo name args g).1 ((e.dispatchTo name args g).2 ++ ws) ran calls := by
  have h' : Once e ws ran calls := h.quiet [] (by simp) (sublist_cons_self _ _)
  rcases h.flagged.dispatchTo name args g with ⟨r₀, hfns, hr₀, heq⟩ | heq | ⟨hnone, heq⟩
  · rw [heq]
    have hdrop : Once (e.dropEntry g 0) (.run [r₀] args :: ws) ran calls := by
      refine ⟨h'.flagged.dropEntry g 0, h'.adds_append [.run [r₀] args] (by simp [adding]) (Sublist.refl _),
        fun r hr => (h'.way r hr).run (fun g' => (dropEntry_sublist e g 0 g').count_le r) args (fun hmem => ?_)⟩
      obtain rfl : r = r₀ := mem_singleton.1 hmem
      have hg : r ∈ (e.heap g).fns := by simp [hfns]
      refine ⟨by simp, ⟨g, hg⟩, fun g' hg' => ?_, hno r hg hr⟩
      by_cases hgg : g' = g
      · subst hgg; simp [heap_dropEntry, hfns] at hg'
      · rw [heap_dropEntry, update_of_ne hgg] at hg'; exact hgg ((h'.way r hr).alone g' g hg' hg)
    exact hdrop.quiet [.notifyRemoved name (some r₀)] (by simp [ready, dropping, adding]) (Sublist.refl _)
  · rw [heq]
    exact ⟨h'.flagged, h'.adds_append [.dropOnce ..] (by simp [adding]) (Sublist.refl _),
      fun r hr => (h'.way r hr).drop name g args (fun hmem => hno r hmem hr)⟩
  · rw [heq]
    refine ⟨h'.flagged, h'.adds_append [.run ..] (by simp [adding]) (Sublist.refl _),
      fun r hr => (h'.way r hr).run (fun _ => Nat.le_refl _) args (fun hmem => ?_)⟩
    rw [hnone r hmem] at hr; cases hr

/-- **One piece of work.** -/
theorem tick {w : Work (Registration F) V} (h : Once e (w :: ws) ran calls) (huser : w.isUser = false)
    (htake : ∀ name args, w = .dispatchGroup name args → ∀ r ∈ e.listeners name, r.once = true → ∀ w ∈ ws, r ∉ w.dropping)
    (hgone : ∀ name g toRun args, w = .dropOnce name g 0 toRun args → ∀ r ∈ toRun, r.once = true → r ∉ (e.heap g).fns) :
    Once (e.tick w ws).1 (e.tick w ws).2 (ran ++ (Observed.starting (w :: ws)).map Prod.snd) calls := by
  have hsub : ws.Sublist (w :: ws) := sublist_cons_self _ _
  have hnone : ∀ {w : Work (Registration F) V} {ws}, (∀ r fns args, w ≠ .run (r :: fns) args) →
      ran ++ (starting (w :: ws)).map Prod.snd = ran := by
    intro w ws hw
    unfold starting
    split
    · next r fns args ws' heq =>
      cases heq; exact absurd rfl (hw r fns args)
    · simp
  cases w with
  | running fn args | hook name => cases huser
  | dispatch name args =>
    rw [hnone (by simp), Emitter.tick]
    split
    · exact h.quiet [.dispatch .errorMonitor args, .dispatchGroup name args] (by simp [ready, dropping, adding]) hsub
    · exact h.quiet [.dispatchGroup name args] (by simp [ready, dropping, adding]) hsub
  | dispatchGroup name args =>
    rw [hnone (by simp), Emitter.tick]
    split
    · split
      · exact h.unwind hsub
      · exact h.quiet [] (by simp) hsub
    · next g hg =>
      refine h.dispatchTo (fun r hr hon => htake name args rfl r ?_ hon)
      rwa [Emitter.listeners, hg]
  | dropOnce name g left toRun args =>
    cases left with
    | zero =>
      rw [hnone (by simp), Emitter.tick]
      refine ⟨h.flagged, h.adds_append [.run toRun args] (by simp [adding]) hsub, fun r hr => ?_⟩
      exact (h.way r hr).dropped_all (fun hmem => hgone name g toRun args rfl r hmem hr)
    | succ i =>
      have hback : ∀ {e' : Emitter (Registration F)} (new : List (Work (Registration F) V)), e'.Flagged →
          (∀ g, (e'.heap g).fns.Sublist (e.heap g).fns) → (∀ w ∈ new, w.ready = [] ∧ w.dropping = [] ∧ w.adding = []) →
          Once e' (new ++ .dropOnce name g i toRun args :: ws) ran calls := by
        intro e' new hflag hheap hnew
        have h' : Once e (.dropOnce name g i toRun args :: ws) ran calls := by
          refine ⟨h.flagged, h.adds_append [.dropOnce name g i toRun args] (by simp [adding]) hsub, fun r hr => ?_⟩
          refine (h.way r hr).mono (fun _ => Nat.le_refl _) (Sublist.refl _) (Sublist.refl _) (Sublist.refl _) ?_
          intro w hw hmem
          rcases mem_cons.1 hw with rfl | hw
          · exact ⟨_, mem_cons_self, hmem, rfl⟩
          · exact ⟨w, mem_cons_of_mem _ hw, hmem, rfl⟩
        exact h'.works hflag hheap new hnew (Sublist.refl _)
      rw [hnone (by simp), Emitter.tick]
      split
      · exact hback [.notifyRemoved ..] (h.flagged.dropEntry g i) (Emitter.dropEntry_sublist e g i)
          (by simp [ready, dropping, adding])
      · exact hback [] h.flagged (fun _ => Sublist.refl _) (by simp)
  | run toRun args =>
    cases toRun with
    | nil => rw [hnone (by simp)]; exact h.quiet [] (by simp) hsub
    | cons r₀ fns =>
      refine ⟨h.flagged, h.adds_append [.running r₀ args, .run fns args] (by simp [adding]) hsub, fun r hr => ?_⟩
      exact (h.way r hr).start
  | notifyRemoved name fn =>
    rw [hnone (by simp), Emitter.tick]
    split
    · exact h.quiet [.dispatch .removeListener _] (by simp [ready, dropping, adding]) hsub
    · exact h.quiet [] (by simp) hsub
  | addEntry name r₀ once prepend =>
    rw [hnone (by simp)]
    obtain rfl := h.adds name r₀ once prepend mem_cons_self
    exact ⟨h.flagged.addEntry name r₀ prepend, h.adds_append [.hook name] (by simp [adding]) hsub, fun r hr => (h.way r hr).enter⟩
  | removeGroup g left notify =>
    rw [hnone (by simp)]
    cases left with
    | zero => exact h.quiet [] (by simp) hsub
    | succ i =>
      rw [Emitter.tick]
      split
      · exact h.works (h.flagged.dropEntry g i) (Emitter.dropEntry_sublist e g i) [.notifyRemoved .., .removeGroup g i notify]
          (by simp [ready, dropping, adding]) hsub
      · exact h.works (h.flagged.dropEntry g i) (Emitter.dropEntry_sublist e g i) [.removeGroup g i notify]
          (by simp [ready, dropping, adding]) hsub
  | removeGroups snapshot last =>
    rw [hnone (by simp)]
    cases snapshot with
    | nil =>
      cases last with
      | none => exact h.quiet [] (by simp) hsub
      | some g => exact h.quiet [.removeGroup ..] (by simp [ready, dropping, adding]) hsub
    | cons g gs =>
      rw [Emitter.tick]
      split
      · exact h.quiet [.removeGroups gs (some g)] (by simp [ready, dropping, adding]) hsub
      · exact h.quiet [.removeGroup .., .removeGroups gs last] (by simp [ready, dropping, adding]) hsub

theorem more (h : Once e ws ran calls) : Once e ws ran (calls + 1) := ⟨h.flagged, h.adds, fun r hr => (h.way r hr).more⟩

/-- **A call.** -/
theorem call {o : Observed F V} (h : Once o.config.emitter ws ran o.calls) (k : Call F V) :
    Once (o.config.emitter.call (o.register k)).1 ((o.config.emitter.call (o.register k)).2 ++ ws) ran (o.calls + 1) := by
  cases k with
  | add name fn once prepend =>
    have hadd : Once o.config.emitter (.addEntry name ⟨fn, o.calls, once⟩ once prepend :: ws) ran (o.calls + 1) := by
      refine ⟨h.flagged, ?_, fun r hr => (h.way r hr).add name fn once prepend⟩
      intro name' r once' prepend' hmem
      rcases mem_cons.1 hmem with hmem | hmem
      · cases hmem; rfl
      · exact h.adds name' r once' prepend' hmem
    simp only [register, Emitter.call]
    split
    · exact hadd.quiet [.dispatch .newListener _] (by simp [ready, dropping, adding]) (Sublist.refl _)
    · exact hadd
  | off name fn =>
    simp only [register, Emitter.call]
    split
    · exact h.more
    · next g _ =>
      split
      · exact h.more
      · next i _ =>
        exact h.more.works (h.flagged.dropEntry g i) (Emitter.dropEntry_sublist _ g i) [.notifyRemoved ..]
          (by simp [ready, dropping, adding]) (Sublist.refl _)
  | removeAllListeners name =>
    cases name with
    | none => exact h.more.quiet [.removeGroups ..] (by simp [ready, dropping, adding]) (Sublist.refl _)
    | some name =>
      simp only [register, Emitter.call]
      split
      · exact h.more
      · exact h.more.quiet [.removeGroup ..] (by simp [ready, dropping, adding]) (Sublist.refl _)
  | emit name args => exact h.more.quiet [.dispatch ..] (by simp [ready, dropping, adding]) (Sublist.refl _)

end Once

namespace Observed

variable [DecidableEq F] {o o' : Observed F V}

theorem step_cases {l : Label F V} (h : o.step l = some o') :
    (∃ w ws, l = .tick ∧ o.config.works = w :: ws ∧ w.isUser = false ∧
      o' = { o with config := ⟨(o.config.emitter.tick w ws).1, (o.config.emitter.tick w ws).2⟩,
                    started := o.started ++ starting (w :: ws) }) ∨
    (∃ k, l = .call k ∧ o.config.inUser = true ∧
      o' = { o with config := ⟨(o.config.emitter.call (o.register k)).1, (o.config.emitter.call (o.register k)).2 ++ o.config.works⟩,
                    calls := o.calls + 1 }) ∨
    (∃ w ws, l = .ret ∧ o.config.works = w :: ws ∧ w.isUser = true ∧ o' = { o with config := { o.config with works := ws } }) ∨
    ∃ w ws, l = .throw ∧ o.config.works = w :: ws ∧ w.isUser = true ∧ o' = { o with config := { o.config with works := unwind ws } } := by
  cases l with
  | tick =>
    obtain ⟨c, hc, rfl⟩ := map_eq_some_iff.1 h
    simp only [Config.step] at hc
    split at hc
    · cases hc
    · next w ws hworks =>
      simp only [ite_none_left_eq_some, Option.some.injEq] at hc
      obtain ⟨huser, rfl⟩ := hc
      exact .inl ⟨w, ws, rfl, hworks, by simpa using huser, by rw [hworks]⟩
  | call k =>
    obtain ⟨c, hc, rfl⟩ := map_eq_some_iff.1 h
    simp only [Config.step, ite_none_right_eq_some, Option.some.injEq] at hc
    obtain ⟨huser, rfl⟩ := hc; exact .inr (.inl ⟨k, rfl, huser, rfl⟩)
  | ret =>
    obtain ⟨c, hc, rfl⟩ := map_eq_some_iff.1 h
    simp only [Config.step] at hc
    split at hc
    · cases hc
    · next w ws hworks =>
      simp only [ite_none_right_eq_some, Option.some.injEq] at hc
      obtain ⟨huser, rfl⟩ := hc; exact .inr (.inr (.inl ⟨w, ws, rfl, hworks, huser, rfl⟩))
  | throw =>
    obtain ⟨c, hc, rfl⟩ := map_eq_some_iff.1 h
    simp only [Config.step] at hc
    split at hc
    · cases hc
    · next w ws hworks =>
      simp only [ite_none_right_eq_some, Option.some.injEq] at hc
      obtain ⟨huser, rfl⟩ := hc; exact .inr (.inr (.inr ⟨w, ws, rfl, hworks, huser, rfl⟩))

end Observed

/-- **One step.** -/
theorem Once.step [DecidableEq F] {o o' : Observed F V} {l : Label F V}
    (h : Once o.config.emitter o.config.works (o.started.map Prod.snd) o.calls) (hl : keepsOnce o l = true) (hstep : o.step l = some o') :
    Once o'.config.emitter o'.config.works (o'.started.map Prod.snd) o'.calls := by
  rcases step_cases hstep with ⟨w, ws, rfl, hworks, huser, rfl⟩ | ⟨k, rfl, -, rfl⟩ | ⟨w, ws, rfl, hworks, -, rfl⟩ |
    ⟨w, ws, rfl, hworks, -, rfl⟩
  · rw [hworks] at h
    rw [map_append]
    refine h.tick huser ?_ ?_
    · rintro name args rfl r hr hon w hw
      simp only [keepsOnce, hworks, List.all_eq_true, or_eq_true, not_eq_true', decide_eq_true_eq] at hl
      rcases hl r hr with hoff | hno
      · rw [hon] at hoff; cases hoff
      · exact hno w hw
    · rintro name g toRun args rfl r hr hon
      simp only [keepsOnce, hworks, List.all_eq_true, or_eq_true, not_eq_true', decide_eq_true_eq] at hl
      rcases hl r hr with hoff | hno
      · rw [hon] at hoff; cases hoff
      · exact hno
  · exact h.call k
  · rw [hworks] at h; exact h.quiet [] (by simp) (sublist_cons_self _ _)
  · rw [hworks] at h; exact h.unwind (sublist_cons_self _ _)

/-! ## One emission -/

namespace Work

/-- An emission that throws when its name has no listeners. -/
def raises : Work L V → Bool
  | .dispatch name _ => name = .error
  | .dispatchGroup name _ => name = .error
  | _ => false

end Work

variable {name : EventName} {l : Label F V}

/-- Where an emission of 'error' was called, user code goes on. -/
def Grounded : List (Work L V) → Prop
  | [] => True
  | w :: ws => (w.raises = true → ws.head?.all Work.isUser = true) ∧ Grounded ws

theorem Grounded.append {ws : List (Work L V)} (h : Grounded ws) : ∀ {new : List (Work L V)}, (∀ w ∈ new, w.raises = false) →
    Grounded (new ++ ws)
  | [], _ => h
  | w :: new, hnew => by
    refine ⟨fun hw => ?_, h.append (fun w' hw' => hnew w' (by simp [hw']))⟩
    rw [hnew w (by simp)] at hw; cases hw

theorem Grounded.tail {w : Work L V} {ws : List (Work L V)} (h : Grounded (w :: ws)) : Grounded ws := h.2

theorem unwind_of_user (ws : List (Work L V)) (h : ws.head?.all Work.isUser = true) : unwind ws = ws := by
  cases ws with
  | nil => rfl
  | cons w ws => have hw : w.isUser = true := h; simp [unwind, hw]

theorem Grounded.unwind : ∀ {ws : List (Work L V)}, Grounded ws → Grounded (unwind ws)
  | [], h => h
  | w :: ws, h => by
    by_cases hw : w.isUser = true
    · rwa [unwind_of_user (w :: ws) hw]
    · have hskip : Events.unwind (w :: ws) = Events.unwind ws := by simp [Events.unwind, hw]
      rw [hskip]; exact Grounded.unwind h.2

/-- **What a piece of work leaves to do** stands above the rest of the stack. -/
theorem tick_pushes [DecidableEq L] (e : Emitter L) {w : Work L V} {ws : List (Work L V)} (hground : Grounded (w :: ws)) :
    ∃ new, (e.tick w ws).2 = new ++ ws ∧ Grounded (new ++ ws) := by
  have hws : Grounded ws := hground.tail
  cases w with
  | running fn args | hook name => exact ⟨[_], rfl, hground⟩
  | dispatch name args =>
    rw [tick]
    split
    · exact ⟨[_, _], rfl, by simp [raises, errorMonitor, error], hground⟩
    · exact ⟨[_], rfl, hground⟩
  | dispatchGroup name args =>
    rw [tick]
    split
    · split
      · next herr =>
        have huser : ws.head?.all isUser = true := hground.1 (by simpa [raises] using herr)
        exact ⟨[], unwind_of_user ws huser, hws⟩
      · exact ⟨[], rfl, hws⟩
    · next g _ =>
      refine ⟨_, rfl, hws.append ?_⟩
      unfold dispatchTo
      split
      · dsimp only
        split <;> simp [raises]
      · dsimp only
        split <;> simp [raises]
  | dropOnce name g left toRun args =>
    cases left with
    | zero => exact ⟨[_], rfl, hws.append (by simp [raises])⟩
    | succ i =>
      rw [tick]
      split
      · exact ⟨[_, _], rfl, hws.append (by simp [raises])⟩
      · exact ⟨[_], rfl, hws.append (by simp [raises])⟩
  | run toRun args =>
    cases toRun with
    | nil => exact ⟨[], rfl, hws⟩
    | cons fn fns => exact ⟨[_, _], rfl, hws.append (by simp [raises])⟩
  | notifyRemoved name fn =>
    rw [tick]
    split
    · exact ⟨[_], rfl, hws.append (by simp [raises, removeListener, error]; decide)⟩
    · exact ⟨[], rfl, hws⟩
  | addEntry name fn once prepend => exact ⟨[_], rfl, hws.append (by simp [raises])⟩
  | removeGroup g left notify =>
    cases left with
    | zero => exact ⟨[], rfl, hws⟩
    | succ i =>
      rw [tick]
      dsimp only
      split
      · exact ⟨[_, _], rfl, hws.append (by simp [raises])⟩
      · exact ⟨[_], rfl, hws.append (by simp [raises])⟩
  | removeGroups snapshot last =>
    cases snapshot with
    | nil =>
      cases last with
      | none => exact ⟨[], rfl, hws⟩
      | some g => exact ⟨[_], rfl, hws.append (by simp [raises])⟩
    | cons g gs =>
      rw [tick]
      split
      · exact ⟨[_], rfl, hws.append (by simp [raises])⟩
      · exact ⟨[_, _], rfl, hws.append (by simp [raises])⟩

theorem Grounded.call [DecidableEq L] {ws : List (Work L V)} (h : Grounded ws) (huser : ws.head?.all Work.isUser = true) (e : Emitter L)
    (k : Call L V) : Grounded ((e.call k).2 ++ ws) := by
  cases k with
  | add name fn once prepend =>
    rw [Emitter.call]
    split
    · exact h.append (by simp [raises, newListener, error]; decide)
    · exact h.append (by simp [raises])
  | off name fn =>
    rw [Emitter.call]
    split
    · exact h
    · split
      · exact h
      · exact h.append (by simp [raises])
  | removeAllListeners name =>
    cases name with
    | none => rw [Emitter.call]; exact h.append (by simp [raises])
    | some name =>
      rw [Emitter.call]
      split
      · exact h
      · exact h.append (by simp [raises])
  | emit name args => exact ⟨fun _ => huser, h⟩

theorem Grounded.step [DecidableEq F] {o o' : Observed F V} (h : Grounded o.config.works) (hstep : o.step l = some o') :
    Grounded o'.config.works := by
  rcases step_cases hstep with ⟨w, ws, rfl, hworks, huser, rfl⟩ | ⟨k, rfl, huser, rfl⟩ | ⟨w, ws, rfl, hworks, -, rfl⟩ |
    ⟨w, ws, rfl, hworks, -, rfl⟩
  · rw [hworks] at h
    obtain ⟨new, hnew, hground⟩ := tick_pushes o.config.emitter h; simpa only [hnew] using hground
  · exact h.call huser _ _
  · rw [hworks] at h; exact h.tail
  · rw [hworks] at h; exact h.tail.unwind

/-- The entries run by the emission over a stack of this depth. -/
def ranAt (depth : Nat) (started : List (Nat × Registration F)) : List (Registration F) :=
  (started.filter (fun d => d.1 = depth)).map Prod.snd

theorem ranAt_append (depth : Nat) (a b : List (Nat × Registration F)) : ranAt depth (a ++ b) = ranAt depth a ++ ranAt depth b := by
  simp [ranAt]

/-- An emission over `ws` that has found `taken`: it has run the first of these, and still has the others to run. -/
def Emits (ws : List (Work (Registration F) V)) (taken : List (Registration F)) (before : List (Nat × Registration F))
    (o : Observed F V) : Prop :=
  ∃ new rest, o.started = before ++ new ∧ ranAt ws.length new ++ rest = taken ∧
    (o.config.works = ws ∧ rest = [] ∨ ∃ pre w, o.config.works = pre ++ w :: ws ∧ w.snapshot = some rest)

theorem not_user_of_snapshot {w : Work L V} {rest : List L} (h : w.snapshot = some rest) : w.isUser = false := by
  cases w <;> first | rfl | cases h

/-- **One step of an emission**, or of what was called from it. -/
theorem Emits.step [DecidableEq F] {ws : List (Work (Registration F) V)} {taken : List (Registration F)}
    {before : List (Nat × Registration F)} {o o' : Observed F V} (h : Emits ws taken before o)
    (hground : Grounded o.config.works) (hl : l ≠ .throw) (habove : ws.length < o.config.works.length) (hstep : o.step l = some o') :
    Emits ws taken before o' := by
  obtain ⟨new, rest, hstarted, htaken, ⟨hworks, -⟩ | ⟨pre, w, hworks, hsnap⟩⟩ := h
  · rw [hworks] at habove; exact absurd habove (Nat.lt_irrefl _)
  cases pre with
  | nil =>
    rw [nil_append] at hworks
    have hno := not_user_of_snapshot hsnap
    rcases step_cases hstep with ⟨w', ws', rfl, hworks', -, rfl⟩ | ⟨k, rfl, huser, rfl⟩ | ⟨w', ws', rfl, hworks', huser, rfl⟩ |
      ⟨w', ws', rfl, hworks', -, rfl⟩
    · rw [hworks] at hworks'
      cases hworks'
      cases w with
      | dropOnce name g left toRun args =>
        cases hsnap
        cases left with
        | zero =>
          exact ⟨new, rest, by simp [hstarted, starting], htaken, .inr ⟨[], .run rest args, rfl, rfl⟩⟩
        | succ i =>
          refine ⟨new, rest, by simp [hstarted, starting], htaken, .inr ?_⟩
          rw [tick]
          split
          · exact ⟨[_], .dropOnce name g i rest args, rfl, rfl⟩
          · exact ⟨[], .dropOnce name g i rest args, rfl, rfl⟩
      | run toRun args =>
        cases hsnap
        cases rest with
        | nil => exact ⟨new, [], by simp [hstarted, starting], htaken, .inl ⟨rfl, rfl⟩⟩
        | cons r fns =>
          refine ⟨new ++ [(ws.length, r)], fns, by simp [hstarted, starting], ?_, .inr ⟨[_], .run fns args, rfl, rfl⟩⟩
          rw [ranAt_append, ← htaken]; simp [ranAt]
      | _ => cases hsnap
    · simp [Config.inUser, hworks, hno] at huser
    · rw [hworks] at hworks'
      cases hworks'; rw [hno] at huser; cases huser
    · exact absurd rfl hl
  | cons p pre =>
    have hdepth : ∀ d ∈ starting (p :: (pre ++ w :: ws)), d.1 ≠ ws.length := by
      intro d hd
      unfold starting at hd
      split at hd
      · next r fns args rest' heq =>
        cases heq
        cases mem_singleton.1 hd
        simp
        omega
      · cases hd
    rcases step_cases hstep with ⟨w', ws', rfl, hworks', -, rfl⟩ | ⟨k, rfl, -, rfl⟩ | ⟨w', ws', rfl, hworks', -, rfl⟩ |
      ⟨w', ws', rfl, hworks', -, rfl⟩
    · rw [hworks] at hworks' hground
      cases hworks'
      obtain ⟨pushed, hpushed, -⟩ := tick_pushes o.config.emitter hground
      refine ⟨new ++ starting (p :: (pre ++ w :: ws)), rest, by simp [hstarted], ?_, .inr ⟨pushed ++ pre, w, ?_, hsnap⟩⟩
      · have hnone : ranAt ws.length (starting (p :: (pre ++ w :: ws))) = [] := by
          simp only [ranAt, map_eq_nil_iff, filter_eq_nil_iff, decide_eq_true_eq]; exact hdepth
        rw [ranAt_append, hnone, append_nil, htaken]
      · exact hpushed.trans (append_assoc _ _ _).symm
    · refine ⟨new, rest, hstarted, htaken, .inr ⟨(o.config.emitter.call (o.register k)).2 ++ p :: pre, w, ?_, hsnap⟩⟩
      rw [hworks, append_assoc]
    · rw [hworks] at hworks'
      cases hworks'; exact ⟨new, rest, hstarted, htaken, .inr ⟨pre, w, rfl, hsnap⟩⟩
    · exact absurd rfl hl

/-- The emission gets to the entries of its name: at once, but for 'error', whose monitors are emitted to first. -/
def Emitting [DecidableEq L] (c : Config L V) (name : EventName) (ws : List (Work L V)) : Prop :=
  ∃ args, c.works = .dispatchGroup name args :: ws ∨
    c.works = .dispatch name args :: ws ∧ ¬ (name = .error ∧ c.emitter.listenerCount .errorMonitor none > 0)

/-- **The dispatch takes the entries of the name.** -/
theorem emits_dispatch [DecidableEq F] {o o' : Observed F V} {args : List (Argument (Registration F) V)}
    {ws : List (Work (Registration F) V)} (hworks : o.config.works = .dispatchGroup name args :: ws) (hground : Grounded o.config.works)
    (hstep : o.step l = some o') : Emits ws (o.config.emitter.listeners name) o.started o' := by
  rcases step_cases hstep with ⟨w, ws', rfl, hworks', -, rfl⟩ | ⟨k, rfl, huser, rfl⟩ | ⟨w, ws', rfl, hworks', huser, rfl⟩ |
    ⟨w, ws', rfl, hworks', huser, rfl⟩
  · rw [hworks] at hworks' hground
    cases hworks'
    refine ⟨[], o.config.emitter.listeners name, by simp [starting], rfl, ?_⟩
    unfold listeners
    cases hg : o.config.emitter.groupOf name with
    | none =>
      refine .inl ⟨?_, rfl⟩
      simp only [tick, hg]
      split
      · next herr => exact unwind_of_user ws (hground.1 (by simpa [raises] using herr))
      · rfl
    | some g =>
      refine .inr ?_
      simp only [tick, hg]
      unfold dispatchTo
      split
      · next fn hfns =>
        dsimp only
        split
        · exact ⟨[_], _, rfl, by rw [snapshot, hfns]⟩
        · exact ⟨[], _, rfl, by rw [snapshot, hfns]⟩
      · dsimp only
        split <;> exact ⟨[], _, rfl, rfl⟩
  · simp [Config.inUser, hworks, isUser] at huser
  · rw [hworks] at hworks'
    cases hworks'; cases huser
  · rw [hworks] at hworks'
    cases hworks'; cases huser

theorem group_runs [DecidableEq F] {o o' : Observed F V} {args : List (Argument (Registration F) V)}
    {ws : List (Work (Registration F) V)} (hworks : o.config.works = .dispatchGroup name args :: ws) (hground : Grounded o.config.works)
    {ls : List (Label F V)} (h : Run Observed.step (fun o l => l ≠ .throw ∧ ws.length < o.config.works.length) o ls o') :
    ∃ new rest, o'.started = o.started ++ new ∧ ranAt ws.length new ++ rest = o.config.emitter.listeners name ∧
      (o'.config.works = ws → rest = []) := by
  have hlonger : ∀ (pre : List (Work (Registration F) V)) {w : Work (Registration F) V}, pre ++ w :: ws ≠ ws := by
    intro pre w heq
    have hlen := congrArg List.length heq; simp at hlen; omega
  cases h with
  | nil => exact ⟨[], _, (append_nil _).symm, rfl, fun heq => absurd (hworks.symm.trans heq) (hlonger [])⟩
  | cons hP hst h =>
    have hall := h.invariant (I := fun o₁ => Emits ws (o.config.emitter.listeners name) o.started o₁ ∧ Grounded o₁.config.works)
      (fun o₁ l o₂ hI hP hst => ⟨hI.1.step hI.2 hP.1 hP.2 hst, hI.2.step hst⟩) ⟨emits_dispatch hworks hground hst, hground.step hst⟩
    obtain ⟨⟨new, rest, hstarted, htaken, ⟨-, hrest⟩ | ⟨pre, w, hworks', -⟩⟩, -⟩ := hall
    · exact ⟨new, rest, hstarted, htaken, fun _ => hrest⟩
    · exact ⟨new, rest, hstarted, htaken, fun heq => absurd (hworks'.symm.trans heq) (hlonger pre)⟩

/-- **An emission runs what it has found**, in order, and when it is done, all of it. -/
theorem emission_runs [DecidableEq F] {o o' : Observed F V} {ws : List (Work (Registration F) V)}
    (hemit : Emitting o.config name ws) (hground : Grounded o.config.works) {ls : List (Label F V)}
    (h : Run Observed.step (fun o l => l ≠ .throw ∧ ws.length < o.config.works.length) o ls o') :
    ∃ new rest, o'.started = o.started ++ new ∧ ranAt ws.length new ++ rest = o.config.emitter.listeners name ∧
      (o'.config.works = ws → rest = []) := by
  obtain ⟨args, hworks | ⟨hworks, hno⟩⟩ := hemit
  · exact group_runs hworks hground h
  · cases h with
    | nil =>
      refine ⟨[], _, (append_nil _).symm, rfl, fun heq => ?_⟩
      have hlen := congrArg List.length (hworks.symm.trans heq); simp at hlen
    | cons hP hst h =>
      have hground' := hground.step hst
      rcases step_cases hst with ⟨w, ws', rfl, hworks', -, rfl⟩ | ⟨k, rfl, huser, rfl⟩ | ⟨w, ws', rfl, hworks', huser, rfl⟩ |
        ⟨w, ws', rfl, hworks', huser, rfl⟩
      · rw [hworks] at hworks'
        cases hworks'
        have htick : o.config.emitter.tick (.dispatch name args) ws = (o.config.emitter, .dispatchGroup name args :: ws) := by
          rw [tick, if_neg hno]
        have hnone : starting (.dispatch name args :: ws : List (Work (Registration F) V)) = [] := rfl
        rw [htick, hnone, append_nil] at h
        rw [htick] at hground'
        exact group_runs (o := ⟨⟨o.config.emitter, .dispatchGroup name args :: ws⟩, o.calls, o.started⟩) rfl hground' h
      · simp [Config.inUser, hworks, isUser] at huser
      · rw [hworks] at hworks'
        cases hworks'; cases huser
      · rw [hworks] at hworks'
        cases hworks'; cases huser

theorem onTheWay_new [DecidableEq F] (r : Registration F) : OnTheWay ({} : Emitter (Registration F)) ([] : List (Work (Registration F) V)) [] 0 r :=
  ⟨by simp, by simp, by simp, by simp, by simp, by simp, by simp, by simp⟩

/-- **An emission runs the snapshot, and once means once**: in every run in which no emission takes a `once` entry of another that is
still dropping its own, and none leaves a `once` entry that it runs. -/
theorem emit_runs_snapshot [DecidableEq F] {ls : List (Label F V)} {o : Observed F V}
    (h : Run Observed.step (fun o l => keepsOnce o l = true) {} ls o) :
    (∀ r, r.once = true → (o.started.map Prod.snd).count r ≤ 1) ∧ ∀ name ws, Emitting o.config name ws → ∀ ls' o',
        Run Observed.step (fun o l => l ≠ .throw ∧ ws.length < o.config.works.length) o ls' o' →
        ∃ new rest, o'.started = o.started ++ new ∧ ranAt ws.length new ++ rest = o.config.emitter.listeners name ∧
          (o'.config.works = ws → rest = []) := by
  have hinv := h.invariant (I := fun o => Once o.config.emitter o.config.works (o.started.map Prod.snd) o.calls ∧ Grounded o.config.works)
    (fun o l o' hI hP hst => ⟨hI.1.step hP hst, hI.2.step hst⟩)
    (show Once {} [] [] 0 ∧ Grounded [] from ⟨⟨fun _ => rfl, by simp, fun r _ => onTheWay_new r⟩, trivial⟩)
  refine ⟨fun r hr => ?_, fun name ws hemit ls' o' h' => emission_runs hemit hinv.2 h'⟩
  have := (hinv.1.way r hr).single; omega

/-- A `removeListener` listener and two `once` listeners of a name. -/
def twoOnce : List (Label Nat Unit) :=
  [.call (.add .removeListener 0 false false), .tick, .ret, .call (.add (.string [97]) 1 true false), .tick, .ret,
    .call (.add (.string [97]) 2 true false), .tick, .ret]

/-- Ticks, as many as it takes. -/
def ticks (n : Nat) : List (Label Nat Unit) := List.replicate n .tick

/-- An emission to both; the `removeListener` listener does nothing. -/
theorem emit_runs_snapshot_both : ∃ o o' : Observed Nat Unit,
    Run Observed.step (fun o l => keepsOnce o l = true) {} (twoOnce ++ [.call (.emit (.string [97]) [])]) o ∧
      Run Observed.step (fun o l => l ≠ .throw ∧ 0 < o.config.works.length) o
        (ticks 7 ++ [.ret] ++ ticks 6 ++ [.ret] ++ ticks 3 ++ [.ret] ++ ticks 1 ++ [.ret] ++ ticks 1) o' ∧ o'.config.works = [] ∧
      (∀ r, r.once = true → (o.started.map Prod.snd).count r ≤ 1) ∧
      ∃ new, o'.started = o.started ++ new ∧ ranAt 0 new = [⟨1, 1, true⟩, ⟨2, 2, true⟩] := by
  have hend : (runs (fun o l => if keepsOnce o l then step o l else none) ({} : Observed Nat Unit)
      (twoOnce ++ [.call (.emit (.string [97]) [])])).any (fun o => decide (o.config.works = [.dispatch (.string [97]) []]) &&
        decide (o.config.emitter.listeners (.string [97]) = [⟨1, 1, true⟩, ⟨2, 2, true⟩]) &&
        (runs (fun o l => if decide (l ≠ .throw ∧ 0 < o.config.works.length) then step o l else none) o
          (ticks 7 ++ [.ret] ++ ticks 6 ++ [.ret] ++ ticks 3 ++ [.ret] ++ ticks 1 ++ [.ret] ++ ticks 1)).any
            (fun o' => decide (o'.config.works = []))) = true := by
    decide +kernel
  obtain ⟨o, hruns, ho⟩ := (Option.any_eq_true _ _).1 hend
  rw [and_eq_true, and_eq_true] at ho
  obtain ⟨⟨hworks, hlisteners⟩, hend'⟩ := ho
  obtain ⟨o', hruns', ho'⟩ := (Option.any_eq_true _ _).1 hend'
  have hrun := Run.of_guarded _ hruns
  have hrun' : Run step (fun o l => l ≠ .throw ∧ 0 < o.config.works.length) o _ o' :=
    (Run.of_guarded (fun (o : Observed Nat Unit) (l : Label Nat Unit) => decide (l ≠ .throw ∧ 0 < o.config.works.length)) hruns').mono
      (fun _ _ h => of_decide_eq_true h)
  obtain ⟨hone, hemit⟩ := emit_runs_snapshot hrun
  obtain ⟨new, rest, hstarted, htaken, hrest⟩ := hemit (.string [97]) [] ⟨[], .inr ⟨of_decide_eq_true hworks, fun herr => absurd herr.1 (by decide)⟩⟩ _ _ hrun'
  have hempty := of_decide_eq_true ho'
  rw [hrest hempty, append_nil, of_decide_eq_true hlisteners] at htaken
  exact ⟨o, o', hrun, hrun', hempty, hone, new, hstarted, htaken⟩

/-- While the second entry is being dropped, the `removeListener` listener emits the name again: the first one is run twice. -/
theorem once_runs_twice : ∃ o : Observed Nat Unit, Run Observed.step (fun _ l => l ≠ .throw) {}
    (twoOnce ++ [.call (.emit (.string [97]) [])] ++ ticks 7 ++ [.call (.emit (.string [97]) [])] ++ ticks 6 ++ [.ret] ++ ticks 2 ++ [.ret] ++
      ticks 1 ++ [.ret] ++ ticks 4) o ∧ ∃ r, r.once = true ∧ (o.started.map Prod.snd).count r = 2 := by
  have hend : (runs (fun o l => if decide (l ≠ .throw) then step o l else none) ({} : Observed Nat Unit)
      (twoOnce ++ [.call (.emit (.string [97]) [])] ++ ticks 7 ++ [.call (.emit (.string [97]) [])] ++ ticks 6 ++ [.ret] ++ ticks 2 ++ [.ret] ++
        ticks 1 ++ [.ret] ++ ticks 4)).any (fun o => decide ((o.started.map Prod.snd).count ⟨1, 1, true⟩ = 2)) = true := by
    decide +kernel
  obtain ⟨o, hruns, ho⟩ := (Option.any_eq_true _ _).1 hend
  have hrun : Run step (fun _ l => l ≠ .throw) {} _ o :=
    (Run.of_guarded (fun (_ : Observed Nat Unit) (l : Label Nat Unit) => decide (l ≠ .throw)) hruns).mono (fun _ _ h => of_decide_eq_true h)
  exact ⟨o, hrun, ⟨1, 1, true⟩, rfl, of_decide_eq_true ho⟩

end NodeCompat.Events
