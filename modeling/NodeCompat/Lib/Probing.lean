import Mathlib.Algebra.Ring.Nat
import Mathlib.Logic.Function.Basic

/-!
# Open addressing, without removal

A table of entries that are found by key: a search goes from slot to slot until it meets the key or an empty slot, for a
limited number of slots, and an entry is written to the first empty slot of its search. Entries are never removed, so the
slots before an entry stay taken, and what has been found once is found again (`find_insert`, `find_insert_of_find`).
-/

namespace NodeCompat

namespace Probing

variable {σ ε κ : Type} [DecidableEq σ] [DecidableEq ε] [DecidableEq κ] (next : σ → σ) (empty : ε) (key : ε → κ)

/-- The entry of a key, within `n` slots from `s`. -/
def find (t : σ → ε) (k : κ) : Nat → σ → Option ε
  | 0, _ => none
  | n + 1, s => if t s = empty then none else if key (t s) = k then some (t s) else find t k n (next s)

/-- The table with the entry in the first empty slot, within `n` slots from `s`. -/
def insert (t : σ → ε) (e : ε) : Nat → σ → Option (σ → ε)
  | 0, _ => none
  | n + 1, s => if t s = empty then some (Function.update t s e) else insert t e n (next s)

variable {next empty key} {t t' : σ → ε} {e x : ε} {k : κ} {n : Nat} {s : σ}

theorem insert_eq (h : insert next empty t e n s = some t') : ∃ s', t s' = empty ∧ t' = Function.update t s' e := by
  induction n generalizing s with
  | zero => cases h
  | succ n ih =>
    rw [insert] at h
    split at h
    · next hs =>
      cases h; exact ⟨s, hs, rfl⟩
    · exact ih h

theorem find_update {s' : σ} (hs' : t s' = empty) (h : find next empty key t k n s = some x) :
    find next empty key (Function.update t s' e) k n s = some x := by
  induction n generalizing s with
  | zero => cases h
  | succ n ih =>
    rw [find] at h ⊢
    by_cases hs : t s = empty
    · rw [if_pos hs] at h; cases h
    · have hne : s ≠ s' := fun heq => hs (heq ▸ hs')
      rw [Function.update_of_ne hne, if_neg hs]
      rw [if_neg hs] at h
      by_cases hk : key (t s) = k
      · rw [if_pos hk] at h ⊢; exact h
      · rw [if_neg hk] at h ⊢; exact ih h

theorem find_insert_of_find {m : Nat} {s₀ : σ} (h : insert next empty t e m s₀ = some t')
    (hf : find next empty key t k n s = some x) : find next empty key t' k n s = some x := by
  obtain ⟨s', hs', rfl⟩ := insert_eq h; exact find_update hs' hf

/-- **An entry is found where it was inserted**, when no other entry has its key. -/
theorem find_insert (h : insert next empty t e n s = some t') (he : e ≠ empty)
    (hk : ∀ s, t s ≠ empty → key (t s) ≠ key e) : find next empty key t' (key e) n s = some e := by
  induction n generalizing s with
  | zero => cases h
  | succ n ih =>
    rw [insert] at h
    rw [find]
    split at h
    · cases h; rw [Function.update_self, if_neg he, if_pos rfl]
    · next hs =>
      obtain ⟨s', hs', hup⟩ := insert_eq h
      have hne : s ≠ s' := fun heq => hs (heq ▸ hs')
      have hsame : t' s = t s := by rw [hup, Function.update_of_ne hne]
      rw [hsame, if_neg hs, if_neg (hk s hs)]; exact ih h

omit [DecidableEq σ] in
theorem find_none (hk : ∀ s, t s ≠ empty → key (t s) ≠ k) : find next empty key t k n s = none := by
  induction n generalizing s with
  | zero => rfl
  | succ n ih =>
    rw [find]
    by_cases hs : t s = empty
    · rw [if_pos hs]
    · rw [if_neg hs, if_neg (hk s hs)]; exact ih

end Probing

end NodeCompat
