import NodeCompat.Events.Emitter

/-!
# The storage of an emitter

`Stored` ties the arrays of each group, the registration order and the map together: a group is listed when it has
listeners, and a string name with listeners leads to its group. Every piece of work keeps it except one: a removal loop that
goes on behind the end of its group, which a `removeListener` listener has emptied, drops the name from the map even when
it leads to another group by then (`overtaken`, `overtaken_loses_group`). Else the storage is consistent in every run
(`stays_consistent`).
-/

namespace NodeCompat.Events

open List Option Function

variable {L V : Type}

/-! ## Consistency -/

/-- What an emission has found to run. -/
def Work.snapshot : Work L V → Option (List L)
  | .dropOnce _ _ _ toRun _ => some toRun
  | .run toRun _ => some toRun
  | _ => none

namespace Emitter

/-- **The storage loses no registration**: the arrays of a group go together, the groups listed are those with listeners,
each name once, the map leads to them, and whoever asks for a name sees the same entries. -/
structure Consistent [DecidableEq L] (e : Emitter L) : Prop where
  paired : ∀ g, (e.heap g).fns.length = (e.heap g).once.length
  listed : ∀ g, g ∈ e.groups ↔ (e.heap g).fns ≠ []
  distinct : e.eventNames.Nodup
  mapped : ∀ g ∈ e.groups, ∀ name, (e.heap g).name = .string name → e.byString.lookup name = some g
  listens : ∀ g ∈ e.groups, e.listeners (e.heap g).name = (e.heap g).fns
  named : ∀ name, name ∈ e.eventNames ↔ e.listeners name ≠ []
  counted : ∀ name, e.listenerCount name none = (e.listeners name).length ∧
    ∀ fn, e.listenerCount name (some fn) = (e.listeners name).count fn
  emitted : ∀ (V : Type) (name : EventName) (args : List (Argument L V)) (ws : List (Work L V)), e.listeners name ≠ [] →
    (e.tick (.dispatchGroup name args) ws).2.findSome? Work.snapshot = some (e.listeners name)

/-- The invariant. -/
structure Stored (e : Emitter L) : Prop where
  paired : ∀ g, (e.heap g).fns.length = (e.heap g).once.length
  fresh : ∀ g, e.allocated ≤ g → (e.heap g).fns = []
  listed : ∀ g, g ∈ e.groups ↔ (e.heap g).fns ≠ []
  nodup : e.groups.Nodup
  owned : ∀ name g, e.byString.lookup name = some g → (e.heap g).name = .string name ∧ g < e.allocated
  mapped : ∀ name g, (e.heap g).fns ≠ [] → (e.heap g).name = .string name → e.byString.lookup name = some g
  single : ∀ id g g', (e.heap g).fns ≠ [] → (e.heap g').fns ≠ [] → (e.heap g).name = .symbol id →
    (e.heap g').name = .symbol id → g = g'

/-- A removal loop goes on with a group that has been emptied, while its name, one of many, has got another group. -/
def overtaken (e : Emitter L) (g : GroupId) : Bool :=
  match (e.heap g).name with
  | .string name => (e.heap g).fns.isEmpty && decide (e.byString.keys.length > 32) && e.hasListenersFor (.string name)
  | .symbol _ => false

/-! ## Looking up -/

variable {e : Emitter L}

variable {name : EventName} {g : GroupId} {f : ListenerGroup L → ListenerGroup L}

section

variable (h : e.Stored)
include h

theorem Stored.groupOf_iff (name : EventName) (g : GroupId) :
    e.groupOf name = some g ↔ (e.heap g).fns ≠ [] ∧ (e.heap g).name = name := by
  cases name with
  | string name =>
    simp only [groupOf, filter_eq_some_iff, decide_eq_true_eq, length_pos_iff]
    constructor
    · rintro ⟨hlookup, hne⟩; exact ⟨hne, (h.owned name g hlookup).1⟩
    · rintro ⟨hne, hname⟩; exact ⟨h.mapped name g hne hname, hne⟩
  | symbol id =>
    simp only [groupOf]
    constructor
    · intro hfind; exact ⟨(h.listed g).1 (mem_of_find?_eq_some hfind), by simpa using find?_some hfind⟩
    · rintro ⟨hne, hname⟩
      cases hfind : e.groups.find? (fun g => (e.heap g).name = .symbol id) with
      | none => have := find?_eq_none.1 hfind g ((h.listed g).2 hne); simp [hname] at this
      | some g' =>
        have hne' := (h.listed g').1 (mem_of_find?_eq_some hfind)
        have hname' : (e.heap g').name = .symbol id := by simpa using find?_some hfind
        rw [h.single id g' g hne' hne hname' hname]

theorem Stored.eq_of_name {g' : GroupId} (hne : (e.heap g).fns ≠ []) (hne' : (e.heap g').fns ≠ [])
    (hname : (e.heap g).name = (e.heap g').name) : g = g' := by
  have h₁ := (h.groupOf_iff (e.heap g).name g).2 ⟨hne, rfl⟩
  have h₂ := (h.groupOf_iff (e.heap g).name g').2 ⟨hne', hname.symm⟩
  exact Option.some.inj (h₁.symm.trans h₂)

theorem Stored.groupOf_none (hnone : e.groupOf name = none)
    (hne : (e.heap g).fns ≠ []) : (e.heap g).name ≠ name := by
  intro hname; simp [(h.groupOf_iff name g).2 ⟨hne, hname⟩] at hnone

theorem Stored.listeners_eq (hne : (e.heap g).fns ≠ []) : e.listeners (e.heap g).name = (e.heap g).fns := by
  simp [listeners, (h.groupOf_iff (e.heap g).name g).2 ⟨hne, rfl⟩]

theorem Stored.distinct : e.eventNames.Nodup := by
  refine Nodup.map_on ?_ h.nodup
  intro g hg g' hg' hname; exact h.eq_of_name ((h.listed g).1 hg) ((h.listed g').1 hg') hname

theorem Stored.named (name : EventName) : name ∈ e.eventNames ↔ e.listeners name ≠ [] := by
  simp only [eventNames, List.mem_map]
  constructor
  · rintro ⟨g, hg, rfl⟩
    have hne := (h.listed g).1 hg; rwa [h.listeners_eq hne]
  · intro hlisteners
    unfold listeners at hlisteners
    split at hlisteners
    · exact absurd rfl hlisteners
    · next g hg =>
      obtain ⟨hne, hname⟩ := (h.groupOf_iff name g).1 hg; exact ⟨g, (h.listed g).2 hne, hname⟩

end

theorem dispatchTo_snapshot (e : Emitter L) (name : EventName) (args : List (Argument L V)) (g : GroupId) :
    (e.dispatchTo name args g).2.findSome? Work.snapshot = some (e.heap g).fns := by
  unfold dispatchTo
  split
  · next fn hfns =>
    dsimp only
    split <;> simp [Work.snapshot, List.findSome?, hfns]
  · dsimp only
    split <;> simp [Work.snapshot, List.findSome?]

theorem Stored.consistent [DecidableEq L] (h : e.Stored) : e.Consistent := by
  constructor
  · exact h.paired
  · exact h.listed
  · exact h.distinct
  · intro g hg name hname; exact h.mapped name g ((h.listed g).1 hg) hname
  · intro g hg; exact h.listeners_eq ((h.listed g).1 hg)
  · exact h.named
  · intro name
    unfold listenerCount listeners
    cases e.groupOf name <;> simp
  · intro V name args ws hne
    unfold listeners at hne ⊢
    cases hg : e.groupOf name with
    | none => simp [hg] at hne
    | some g => simp [tick, hg, findSome?_append, dispatchTo_snapshot]

/-! ## Changing a group -/

@[simp] theorem heap_modify (e : Emitter L) (g : GroupId) (f : ListenerGroup L → ListenerGroup L) :
    (e.modify g f).heap = Function.update e.heap g (f (e.heap g)) := rfl

theorem modify_name (hname : (f (e.heap g)).name = (e.heap g).name)
    (g' : GroupId) : ((e.modify g f).heap g').name = (e.heap g').name := by
  by_cases hg : g' = g
  · subst hg; simpa using hname
  · simp [update_of_ne hg]

theorem Stored.modify (h : e.Stored)
    (hname : (f (e.heap g)).name = (e.heap g).name)
    (hpaired : (f (e.heap g)).fns.length = (f (e.heap g)).once.length) (hne : (e.heap g).fns ≠ [])
    (hne' : (f (e.heap g)).fns ≠ []) : (e.modify g f).Stored := by
  have hnames := modify_name hname
  have hempty : ∀ g', ((e.modify g f).heap g').fns ≠ [] ↔ (e.heap g').fns ≠ [] := by
    intro g'
    by_cases hg : g' = g
    · subst hg; simp [hne, hne']
    · simp [update_of_ne hg]
  constructor
  · intro g'
    by_cases hg : g' = g
    · subst hg; simpa using hpaired
    · simpa [update_of_ne hg] using h.paired g'
  · intro g' hle
    by_contra hcon
    exact (hempty g').1 hcon (h.fresh g' hle)
  · intro g'; rw [hempty]; exact h.listed g'
  · exact h.nodup
  · intro name g' hlookup; rw [hnames]; exact h.owned name g' hlookup
  · intro name g' hg hn; exact h.mapped name g' ((hempty g').1 hg) (by rwa [hnames] at hn)
  · intro id g₁ g₂ h₁ h₂ hn₁ hn₂
    rw [hnames] at hn₁ hn₂; exact h.single id g₁ g₂ ((hempty g₁).1 h₁) ((hempty g₂).1 h₂) hn₁ hn₂

@[simp] theorem retire_heap (e : Emitter L) (g : GroupId) : (e.retire g).heap = e.heap := by
  unfold retire
  dsimp only
  split
  · split <;> rfl
  · rfl

@[simp] theorem retire_groups (e : Emitter L) (g : GroupId) : (e.retire g).groups = e.groups.erase g := by
  unfold retire
  dsimp only
  split
  · split <;> rfl
  · rfl

@[simp] theorem retire_allocated (e : Emitter L) (g : GroupId) : (e.retire g).allocated = e.allocated := by
  unfold retire
  dsimp only
  split
  · split <;> rfl
  · rfl

theorem lookup_retire (e : Emitter L) (g : GroupId) (name : Bytes) : (e.retire g).byString.lookup name =
      if (e.heap g).name = .string name ∧ e.byString.keys.length > 32 then none else e.byString.lookup name := by
  unfold retire
  dsimp only
  split
  · next name' hname =>
    rw [hname]
    by_cases hlen : e.byString.keys.length > 32
    · rw [if_pos hlen]
      by_cases heq : name' = name
      · subst heq; simp [hlen]
      · simp [heq, AList.lookup_erase_ne (Ne.symm heq)]
    · simp [hlen]
  · next id hname => simp [hname]

/-- A group loses its last listener: it may go when no other group with listeners has its name. -/
theorem Stored.retire (h : e.Stored)
    (hname : (f (e.heap g)).name = (e.heap g).name) (hfns : (f (e.heap g)).fns = []) (honce : (f (e.heap g)).once = [])
    (halone : ∀ name, (e.heap g).name = .string name → e.byString.keys.length > 32 → ∀ g', (e.heap g').fns ≠ [] →
      (e.heap g').name = .string name → g' = g) : ((e.modify g f).retire g).Stored := by
  have hnames := modify_name hname
  have hempty : ∀ g', ((e.modify g f).heap g').fns ≠ [] ↔ (e.heap g').fns ≠ [] ∧ g' ≠ g := by
    intro g'
    by_cases hg : g' = g
    · subst hg; simp [hfns]
    · simp [hg]
  constructor
  · intro g'
    by_cases hg : g' = g
    · subst hg; simp [hfns, honce]
    · simpa [update_of_ne hg] using h.paired g'
  · intro g' hle
    rw [retire_heap]
    by_contra hcon
    exact ((hempty g').1 hcon).1 (h.fresh g' (by simpa [Emitter.modify] using hle))
  · intro g'
    rw [retire_heap, hempty, retire_groups, ← h.listed]
    show g' ∈ e.groups.erase g ↔ _; rw [h.nodup.mem_erase_iff]; exact and_comm
  · rw [retire_groups]; exact h.nodup.erase g
  · intro name g' hlookup
    rw [lookup_retire] at hlookup
    rw [retire_heap, hnames, retire_allocated]
    split at hlookup
    · cases hlookup
    · exact h.owned name g' hlookup
  · intro name g' hg hn
    rw [retire_heap, hempty] at hg
    rw [retire_heap, hnames] at hn
    rw [lookup_retire, hnames, if_neg]
    · exact h.mapped name g' hg.1 hn
    · rintro ⟨hgname, hlen⟩; exact hg.2 (halone name hgname hlen g' hg.1 hn)
  · intro id g₁ g₂ h₁ h₂ hn₁ hn₂
    rw [retire_heap, hempty] at h₁ h₂
    rw [retire_heap, hnames] at hn₁ hn₂; exact h.single id g₁ g₂ h₁.1 h₂.1 hn₁ hn₂

/-- **Dropping an entry**: of a group that has listeners, or, by a loop that goes on behind the end, of an empty group that
has not been overtaken. -/
theorem Stored.dropEntry (h : e.Stored) (hover : e.overtaken g = false) (index : Nat) :
    (e.dropEntry g index).Stored := by
  have hpaired := h.paired g
  unfold Emitter.dropEntry
  dsimp only
  split
  · next hpos =>
    simp only [heap_modify, update_self] at hpos
    have hne : (e.heap g).fns.eraseIdx index ≠ [] := length_pos_iff.1 hpos
    refine h.modify rfl ?_ ?_ hne
    · simp [length_eraseIdx, hpaired]
    · intro hnil; simp [hnil] at hne
  · next hpos =>
    simp only [heap_modify, update_self, gt_iff_lt, Nat.not_lt, Nat.le_zero] at hpos
    have hlen : ((e.heap g).once.eraseIdx index).length = 0 := by
      rw [← hpos, length_eraseIdx, length_eraseIdx, hpaired]
    refine h.retire rfl (length_eq_zero_iff.1 hpos) (length_eq_zero_iff.1 hlen) ?_
    intro name hname hmany g' hne' hname'
    by_cases hne : (e.heap g).fns = []
    · have hgroup := (h.groupOf_iff (.string name) g').2 ⟨hne', hname'⟩
      simp [overtaken, hname, hne, hmany, hasListenersFor, hgroup] at hover
    · exact h.eq_of_name hne' hne (hname'.trans hname.symm)

theorem overtaken_of_ne (hne : (e.heap g).fns ≠ []) : e.overtaken g = false := by
  unfold overtaken
  split <;> simp [hne]

/-! ## Adding a listener -/

theorem Stored.push (h : e.Stored) (hempty : (e.heap g).fns = [])
    (hname : (f (e.heap g)).name = (e.heap g).name)
    (hpaired : (f (e.heap g)).fns.length = (f (e.heap g)).once.length) (hne : (f (e.heap g)).fns ≠ [])
    (hbound : g < e.allocated) (hmapped : ∀ name, (e.heap g).name = .string name → e.byString.lookup name = some g)
    (hsingle : ∀ id, (e.heap g).name = .symbol id → e.groupOf (.symbol id) = none) :
    (({ e with groups := e.groups ++ [g] } : Emitter L).modify g f).Stored := by
  have hnames := modify_name hname
  have hfilled : ∀ g', ((e.modify g f).heap g').fns ≠ [] ↔ (e.heap g').fns ≠ [] ∨ g' = g := by
    intro g'
    by_cases hg : g' = g
    · subst hg; simp [hne]
    · simp [hg]
  have hnot : g ∉ e.groups := fun hmem => (h.listed g).1 hmem hempty
  constructor
  · intro g'
    by_cases hg : g' = g
    · subst hg; simpa using hpaired
    · simpa [update_of_ne hg] using h.paired g'
  · intro g' hle
    by_contra hcon
    obtain hne' | rfl := (hfilled g').1 hcon
    · exact hne' (h.fresh g' hle)
    · exact absurd hbound (Nat.not_lt.2 hle)
  · intro g'
    refine Iff.trans ?_ (hfilled g').symm
    show g' ∈ e.groups ++ [g] ↔ _; rw [mem_append, mem_singleton, h.listed]
  · refine nodup_append.2 ⟨h.nodup, nodup_singleton g, ?_⟩
    intro a ha b hb hab
    rw [mem_singleton] at hb; subst hb hab; exact hnot ha
  · intro name g' hlookup; exact ⟨(hnames g').trans (h.owned name g' hlookup).1, (h.owned name g' hlookup).2⟩
  · intro name g' hg hn
    replace hn : (e.heap g').name = .string name := (hnames g').symm.trans hn
    obtain hne' | rfl := (hfilled g').1 hg
    · exact h.mapped name g' hne' hn
    · exact hmapped name hn
  · intro id g₁ g₂ h₁ h₂ hn₁ hn₂
    replace hn₁ : (e.heap g₁).name = .symbol id := (hnames g₁).symm.trans hn₁
    replace hn₂ : (e.heap g₂).name = .symbol id := (hnames g₂).symm.trans hn₂
    obtain hne₁ | rfl := (hfilled g₁).1 h₁ <;> obtain hne₂ | heq := (hfilled g₂).1 h₂
    · exact h.single id g₁ g₂ hne₁ hne₂ hn₁ hn₂
    · subst heq; exact absurd hn₁ (h.groupOf_none (hsingle id hn₂) hne₁)
    · exact absurd hn₂ (h.groupOf_none (hsingle id hn₁) hne₂)
    · exact heq.symm

theorem heap_allocate (hne : ((e.allocate name).heap g).fns ≠ []) : (e.allocate name).heap g = e.heap g := by
  have hg : g ≠ e.allocated := by rintro rfl; simp [Emitter.allocate] at hne
  simp [Emitter.allocate, update_of_ne hg]

theorem Stored.allocate (h : e.Stored) (hnone : e.groupOf name = none) (hprobe : e.probe name = none) :
    (e.allocate name).Stored := by
  have hempty : ∀ g, ((e.allocate name).heap g).fns ≠ [] ↔ (e.heap g).fns ≠ [] := by
    intro g
    by_cases hg : g = e.allocated
    · subst hg; simp [Emitter.allocate, h.fresh]
    · simp [Emitter.allocate, hg]
  have hheap : ∀ g, ((e.allocate name).heap g).fns ≠ [] → (e.allocate name).heap g = e.heap g :=
    fun g hne => heap_allocate hne
  have hlookup : ∀ s, (e.allocate name).byString.lookup s =
      if name = .string s then some e.allocated else e.byString.lookup s := by
    intro s
    cases name with
    | string s' =>
      by_cases hs : s' = s
      · subst hs; simp [Emitter.allocate]
      · simp [Emitter.allocate, hs, AList.lookup_insert_ne (Ne.symm hs)]
    | symbol id => simp [Emitter.allocate]
  constructor
  · intro g
    by_cases hg : g = e.allocated
    · subst hg; simp [Emitter.allocate]
    · simpa [Emitter.allocate, hg] using h.paired g
  · intro g hle
    by_contra hcon
    exact (hempty g).1 hcon (h.fresh g (Nat.le_of_succ_le hle))
  · intro g; rw [hempty]; exact h.listed g
  · exact h.nodup
  · intro s g hs
    rw [hlookup] at hs
    split at hs
    · next hname =>
      cases hs; simp [Emitter.allocate, hname]
    · obtain ⟨hname, hlt⟩ := h.owned s g hs
      refine ⟨?_, Nat.lt_succ_of_lt hlt⟩
      simpa [Emitter.allocate, update_of_ne (Nat.ne_of_lt hlt)] using hname
  · intro s g hne hname
    rw [hheap g hne] at hname
    rw [hempty] at hne
    have hother : name ≠ .string s := fun hn => h.groupOf_none hnone hne (hname.trans hn.symm)
    rw [hlookup, if_neg hother]; exact h.mapped s g hne hname
  · intro id g₁ g₂ h₁ h₂ hn₁ hn₂
    rw [hheap _ h₁] at hn₁
    rw [hheap _ h₂] at hn₂; exact h.single id g₁ g₂ ((hempty g₁).1 h₁) ((hempty g₂).1 h₂) hn₁ hn₂

/-- What `addEntry` does to the group. -/
def added (fn : L) (once prepend : Bool) (group : ListenerGroup L) : ListenerGroup L :=
  if prepend then { group with fns := fn :: group.fns, once := once :: group.once }
  else { group with fns := group.fns ++ [fn], once := group.once ++ [once] }

theorem added_name (fn : L) (once prepend : Bool) (group : ListenerGroup L) : (added fn once prepend group).name = group.name := by
  cases prepend <;> rfl

theorem added_ne (fn : L) (once prepend : Bool) (group : ListenerGroup L) : (added fn once prepend group).fns ≠ [] := by
  cases prepend <;> simp [added]

theorem added_paired (fn : L) (once prepend : Bool) {group : ListenerGroup L} (h : group.fns.length = group.once.length) :
    (added fn once prepend group).fns.length = (added fn once prepend group).once.length := by
  cases prepend <;> simp [added, h]

/-- **Adding an entry**, to the group of the name, to the parked group, or to a new one. -/
theorem Stored.addEntry (h : e.Stored) (name : EventName) (fn : L) (once prepend : Bool) :
    (e.addEntry name fn once prepend).Stored := by
  show ((e.enter name).1.modify (e.enter name).2 (added fn once prepend)).Stored
  unfold enter
  split
  · next g hg =>
    obtain ⟨hne, -⟩ := (h.groupOf_iff name g).1 hg
    exact h.modify (added_name ..) (added_paired fn once prepend (h.paired g)) hne (added_ne _ _ _ _)
  · next hnone =>
    split
    · next g hprobe =>
      cases name with
      | symbol id => cases hprobe
      | string s =>
        obtain ⟨hname, hlt⟩ := h.owned s g hprobe
        have hempty : (e.heap g).fns = [] := by
          by_contra hne
          exact h.groupOf_none hnone hne hname
        refine h.push hempty (added_name ..) (added_paired fn once prepend (h.paired g)) (added_ne _ _ _ _) hlt ?_ ?_
        · intro s' hs'
          rw [hname] at hs'
          cases hs'; exact hprobe
        · simp [hname]
    · next hprobe =>
      have ha := h.allocate hnone hprobe
      have hgroup : (e.allocate name).heap e.allocated = { name } := by simp [Emitter.allocate]
      refine ha.push (g := e.allocated) (by rw [hgroup]) (added_name ..) (added_paired fn once prepend (ha.paired _))
        (added_ne _ _ _ _) (Nat.lt_succ_self _) ?_ ?_
      · intro s hs
        rw [hgroup] at hs
        cases hs; simp [Emitter.allocate]
      · intro id hid
        rw [hgroup] at hid
        cases hid
        cases hfound : (e.allocate (.symbol id)).groupOf (.symbol id) with
        | none => rfl
        | some g =>
          obtain ⟨hne, hname⟩ := (ha.groupOf_iff _ g).1 hfound
          have hheap := heap_allocate hne
          rw [hheap] at hne hname; exact absurd hname (h.groupOf_none hnone hne)

/-! ## Every run -/

theorem Stored.dispatchTo (h : e.Stored) (name : EventName) (args : List (Argument L V))
    (hne : (e.heap g).fns ≠ []) : (e.dispatchTo name args g).1.Stored := by
  unfold Emitter.dispatchTo
  split
  · dsimp only
    split
    · exact h.dropEntry (overtaken_of_ne hne) 0
    · exact h
  · dsimp only
    split <;> exact h

/-- **One piece of work.** -/
theorem Stored.tick [DecidableEq L] (h : e.Stored) (w : Work L V) (ws : List (Work L V))
    (hover : ∀ g i notify, w = .removeGroup g (i + 1) notify → e.overtaken g = false) : (e.tick w ws).1.Stored := by
  cases w with
  | running fn args | hook name => exact h
  | dispatch name args | notifyRemoved name fn =>
    simp only [Emitter.tick]
    split <;> exact h
  | dispatchGroup name args =>
    simp only [Emitter.tick]
    split
    · split <;> exact h
    · next g hg => exact h.dispatchTo name args ((h.groupOf_iff name g).1 hg).1
  | dropOnce name g left toRun args =>
    cases left with
    | zero => exact h
    | succ i =>
      simp only [Emitter.tick]
      split
      · next honce =>
        have hlt : i < (e.heap g).once.length := (List.getElem?_eq_some_iff.1 honce).1
        have hne : (e.heap g).fns ≠ [] := by rw [← h.paired g] at hlt; exact ne_nil_of_length_pos (by omega)
        exact h.dropEntry (overtaken_of_ne hne) i
      · exact h
  | run toRun args => cases toRun <;> exact h
  | addEntry name fn once prepend => exact h.addEntry name fn once prepend
  | removeGroup g left notify =>
    cases left with
    | zero => exact h
    | succ i => exact h.dropEntry (hover g i notify rfl) i
  | removeGroups snapshot last =>
    cases snapshot with
    | nil => cases last <;> exact h
    | cons g gs =>
      simp only [Emitter.tick]
      split <;> exact h

theorem Stored.call [DecidableEq L] (h : e.Stored) (k : Call L V) : (e.call k).1.Stored := by
  cases k with
  | add name fn once prepend =>
    simp only [Emitter.call]
    split <;> exact h
  | off name fn =>
    simp only [Emitter.call]
    split
    · exact h
    · next g hg =>
      split
      · exact h
      · next i _ => exact h.dropEntry (overtaken_of_ne ((h.groupOf_iff name g).1 hg).1) i
  | removeAllListeners name =>
    cases name with
    | none => exact h
    | some name =>
      simp only [Emitter.call]
      split <;> exact h
  | emit name args => exact h

theorem stored_new : ({} : Emitter L).Stored :=
  ⟨fun _ => rfl, fun _ _ => rfl, by simp, by simp, by simp, by simp, by simp⟩

end Emitter

/-- A removal loop that goes on with a group has not been overtaken: when a `removeListener` listener has emptied the group
and the name has another one since, at most 32 string names are known. -/
def undisturbed (c : Config L V) : Label L V → Bool
  | .tick =>
    match c.works with
    | .removeGroup g (_ + 1) _ :: _ => !c.emitter.overtaken g
    | _ => true
  | _ => true

theorem stored_step [DecidableEq L] {c c' : Config L V} {l : Label L V} (h : c.emitter.Stored) (hl : undisturbed c l = true)
    (hstep : c.step l = some c') : c'.emitter.Stored := by
  cases l with
  | tick =>
    simp only [Config.step] at hstep
    split at hstep
    · cases hstep
    · next w ws hworks =>
      simp only [ite_none_left_eq_some, Option.some.injEq] at hstep
      obtain ⟨-, rfl⟩ := hstep
      refine h.tick w ws ?_
      intro g i notify hw; simpa [undisturbed, hworks, hw] using hl
  | call k =>
    simp only [Config.step, ite_none_right_eq_some, Option.some.injEq] at hstep
    obtain ⟨-, rfl⟩ := hstep; exact h.call k
  | ret | throw =>
    simp only [Config.step] at hstep
    split at hstep
    · cases hstep
    · simp only [ite_none_right_eq_some, Option.some.injEq] at hstep
      obtain ⟨-, rfl⟩ := hstep; exact h

/-- **The storage of an emitter stays consistent**: in every run of its methods, with any calls that listeners and meta-event
listeners make, return or throw in between, whose removal loops are not overtaken; in particular whenever user code runs and
when an operation has returned. -/
theorem stays_consistent [DecidableEq L] {as : List (Label L V)} {c : Config L V}
    (h : Run Config.step (fun c l => undisturbed c l = true) ({} : Config L V) as c) : c.emitter.Consistent :=
  (h.invariant (I := fun c : Config L V => c.emitter.Stored) (fun _ _ _ hi hp hs => stored_step hi hp hs) Emitter.stored_new).consistent

/-- A `removeListener` listener registers the name that is being removed again, while few names are known. -/
theorem stays_consistent_reentered : ∃ c : Config Nat Unit, Run Config.step (fun c l => undisturbed c l = true) {}
    [.call (.add .removeListener 0 false false), .tick, .ret, .call (.add (.string [97]) 1 false false), .tick, .ret,
      .call (.removeAllListeners (some (.string [97]))), .tick, .tick, .tick, .tick, .tick,
      .call (.add (.string [97]) 2 true true), .tick, .ret, .ret] c ∧
    c.emitter.listeners (.string [97]) = [2] ∧ c.emitter.Consistent := by
  have hruns : runs (fun c l => if undisturbed c l then Config.step c l else none) ({} : Config Nat Unit)
      [.call (.add .removeListener 0 false false), .tick, .ret, .call (.add (.string [97]) 1 false false), .tick, .ret,
        .call (.removeAllListeners (some (.string [97]))), .tick, .tick, .tick, .tick, .tick,
        .call (.add (.string [97]) 2 true true), .tick, .ret, .ret] = some _ := rfl
  have hrun := Run.of_guarded _ hruns; exact ⟨_, hrun, rfl, stays_consistent hrun⟩

/-- A program with 33 names, a `removeListener` listener, and two listeners of a name. -/
def manyNames : List (Label Nat Unit) :=
  (List.range 33).flatMap (fun i => [.call (.add (.string [UInt8.ofNat i]) 0 false false), .tick, .ret]) ++
    [.call (.add .removeListener 1 false false), .tick, .ret, .call (.add (.string [97]) 2 false false), .tick, .ret,
      .call (.add (.string [97]) 3 false false), .tick, .ret]

/-- Between the two steps of the removal, the listener removes the other listener itself and registers a third. -/
def overtaking : List (Label Nat Unit) :=
  [.call (.removeAllListeners (some (.string [97]))), .tick, .tick, .tick, .tick, .tick,
    .call (.off (.string [97]) 2), .tick, .tick, .tick, .tick, .ret, .tick,
    .call (.add (.string [97]) 4 false false), .tick, .ret, .ret, .tick, .tick, .tick, .tick, .tick, .tick]

/-- The name is listed with its group, and has no listeners. -/
theorem overtaken_loses_group : ∃ c : Config Nat Unit,
    Run Config.step (fun _ _ => True) {} (manyNames ++ overtaking) c ∧ c.inUser = true ∧
      .string [97] ∈ c.emitter.eventNames ∧ c.emitter.listeners (.string [97]) = [] ∧ ¬ c.emitter.Consistent := by
  have hend : (runs Config.step ({} : Config Nat Unit) (manyNames ++ overtaking)).any (fun c => c.inUser &&
      decide (.string [97] ∈ c.emitter.eventNames) && decide (c.emitter.listeners (.string [97]) = [])) = true := by
    decide +kernel
  obtain ⟨c, hruns, hc⟩ := (Option.any_eq_true _ _).1 hend
  simp only [Bool.and_eq_true, decide_eq_true_eq] at hc
  obtain ⟨⟨huser, hnamed⟩, hnone⟩ := hc
  refine ⟨c, Run.of_runs hruns, huser, hnamed, hnone, ?_⟩
  intro h; exact (h.named _).1 hnamed hnone

end NodeCompat.Events
