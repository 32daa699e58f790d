import Mathlib.Algebra.Ring.Nat

/-!
# Tables with free slots

A table of at most `cap` cells, in which the value `free` marks the ones that are not used. A value goes to the last free
cell, or else behind the others if there is room, or else nowhere; removing a value frees its cells. While fewer than
`cap` cells are used, the used ones are what was put in and not removed (`used_insert`, `used_remove`).
-/

namespace NodeCompat

open List

structure FreeSlots (α : Type) (cap : Nat) where
  cells : List α
  fits : cells.length ≤ cap

namespace FreeSlots

variable {α : Type} [DecidableEq α] {cap : Nat} {free x : α} {t : FreeSlots α cap}

def empty : FreeSlots α cap := ⟨[], Nat.zero_le _⟩

/-- The last cell that is free. -/
def lastFree (free : α) : List α → Option Nat
  | [] => none
  | c :: cs =>
    match lastFree free cs with
    | some i => some (i + 1)
    | none => if c = free then some 0 else none

def insert (free x : α) (t : FreeSlots α cap) : FreeSlots α cap :=
  match lastFree free t.cells with
  | some i => ⟨t.cells.set i x, by rw [length_set]; exact t.fits⟩
  | none => if h : t.cells.length < cap then ⟨t.cells ++ [x], by rw [length_append]; exact h⟩ else t

def remove (free x : α) (t : FreeSlots α cap) : FreeSlots α cap :=
  ⟨t.cells.map (fun c => if c = x then free else c), by rw [length_map]; exact t.fits⟩

/-- The values of the cells that are used. -/
def used (free : α) (t : FreeSlots α cap) : List α := t.cells.filter (· ≠ free)

theorem mem_used (hx : x ≠ free) : x ∈ t.used free ↔ x ∈ t.cells := by
  simp [used, hx]

/-! ## The last free cell -/

theorem lastFree_none : ∀ {cs : List α}, lastFree free cs = none → free ∉ cs
  | [], _ => not_mem_nil
  | c :: cs, h => by
    rw [lastFree] at h
    cases hl : lastFree free cs with
    | some i => simp [hl] at h
    | none =>
      have hc : c ≠ free := by simpa [hl] using h
      exact not_mem_cons_of_ne_of_not_mem hc.symm (lastFree_none hl)

theorem lastFree_some : ∀ {cs : List α} {i : Nat}, lastFree free cs = some i → free ∈ cs
  | [], _, h => by cases h
  | c :: cs, i, h => by
    rw [lastFree] at h
    cases hl : lastFree free cs with
    | some j => exact mem_cons_of_mem _ (lastFree_some hl)
    | none =>
      by_cases hc : c = free
      · exact hc ▸ mem_cons_self
      · simp [hl, hc] at h

theorem filter_set_lastFree (hx : x ≠ free) : ∀ {cs : List α} {i : Nat}, lastFree free cs = some i →
    ((cs.set i x).filter (· ≠ free)).Perm (x :: cs.filter (· ≠ free))
  | [], _, h => by cases h
  | c :: cs, i, h => by
    rw [lastFree] at h
    cases hl : lastFree free cs with
    | some j =>
      rw [hl] at h
      cases h
      have ih := filter_set_lastFree hx hl
      rw [set_cons_succ]
      by_cases hc : c = free
      · rw [filter_cons_of_neg (by simpa using hc), filter_cons_of_neg (by simpa using hc)]; exact ih
      · rw [filter_cons_of_pos (by simpa using hc), filter_cons_of_pos (by simpa using hc)]
        exact (ih.cons c).trans (Perm.swap x c _)
    | none =>
      rw [hl] at h
      by_cases hc : c = free
      · simp only [hc, if_true] at h
        cases h
        rw [set_cons_zero, filter_cons_of_pos (by simpa using hx), filter_cons_of_neg (by simpa using hc)]
      · simp [hc] at h

/-! ## What is used -/

theorem used_insert (hx : x ≠ free) (hroom : (t.used free).length < cap) :
    ((t.insert free x).used free).Perm (x :: t.used free) := by
  unfold insert
  split
  · next i hi => exact filter_set_lastFree hx hi
  · next hi =>
    have hall : t.cells.filter (· ≠ free) = t.cells := by
      rw [filter_eq_self]
      intro c hc; simpa using fun he : c = free => lastFree_none hi (he ▸ hc)
    rw [used, hall] at hroom
    rw [dif_pos hroom, used, used, filter_append, filter_cons_of_pos (by simpa using hx), filter_nil]
    exact perm_append_singleton x _

theorem cells_insert_room (hfree : free ∉ t.cells) (hroom : t.cells.length < cap) :
    (t.insert free x).cells = t.cells ++ [x] := by
  unfold insert
  split
  · next hi => exact absurd (lastFree_some hi) hfree
  · rw [dif_pos hroom]

theorem insert_full (hfree : free ∉ t.cells) (hfull : t.cells.length = cap) : t.insert free x = t := by
  unfold insert
  split
  · next hi => exact absurd (lastFree_some hi) hfree
  · rw [dif_neg (by omega)]

theorem used_remove : (t.remove free x).used free = (t.used free).filter (· ≠ x) := by
  obtain ⟨cs, hcs⟩ := t
  simp only [used, remove]
  clear hcs
  induction cs with
  | nil => rfl
  | cons c cs ih =>
    rw [map_cons]
    by_cases hc : c = x
    · subst hc
      by_cases hf : c = free
      · subst hf; simpa using ih
      · simpa [hf] using ih
    · by_cases hf : c = free
      · subst hf; simpa [hc] using ih
      · simpa [hc, hf] using ih

end FreeSlots

end NodeCompat
