import Mathlib.Algebra.Ring.Nat

/-!
# Blocks of a fixed size

A text is cut into whole blocks of `n` symbols, and what is left is shorter than a block. Cutting a text piece by piece,
with what was left of the pieces before in front of each, is cutting it at once (`blocks_append`).
-/

namespace NodeCompat

open List

variable {α : Type}

variable {b l : List α} {n : Nat}

/-- The whole blocks. -/
def blocks (n : Nat) (l : List α) : List (List α) :=
  if n = 0 ∨ l.length < n then [] else l.take n :: blocks n (l.drop n)
termination_by l.length
decreasing_by
  simp only [length_drop]
  omega

/-- What is behind them. -/
def leftover (n : Nat) (l : List α) : List α :=
  if n = 0 ∨ l.length < n then l else leftover n (l.drop n)
termination_by l.length
decreasing_by
  simp only [length_drop]
  omega

theorem blocks_short (h : l.length < n) : blocks n l = [] := by
  rw [blocks, if_pos (.inr h)]

theorem leftover_short (h : l.length < n) : leftover n l = l := by
  rw [leftover, if_pos (.inr h)]

theorem blocks_block (hn : 0 < n) (hb : b.length = n) (l : List α) : blocks n (b ++ l) = b :: blocks n l := by
  rw [blocks, if_neg (by rw [length_append]; omega), ← hb, take_left, drop_left]

theorem leftover_block (hn : 0 < n) (hb : b.length = n) (l : List α) : leftover n (b ++ l) = leftover n l := by
  rw [leftover, if_neg (by rw [length_append]; omega), ← hb, drop_left]

theorem first_block (h : n ≤ l.length) : ∃ b l', l = b ++ l' ∧ b.length = n :=
  ⟨l.take n, l.drop n, (take_append_drop n l).symm, length_take_of_le h⟩

theorem length_of_mem_blocks (h : b ∈ blocks n l) : b.length = n := by
  induction hk : l.length using Nat.strongRecOn generalizing l with
  | ind k ih =>
    subst hk
    rw [blocks] at h
    split at h
    · cases h
    · next hl =>
      rcases mem_cons.1 h with rfl | h
      · exact length_take_of_le (by omega)
      · exact ih (l.drop n).length (by rw [length_drop]; omega) h rfl

theorem length_leftover (hn : 0 < n) (l : List α) : (leftover n l).length = l.length % n := by
  induction h : l.length using Nat.strongRecOn generalizing l with
  | ind k ih =>
    subst h
    by_cases hl : l.length < n
    · rw [leftover_short hl, Nat.mod_eq_of_lt hl]
    · obtain ⟨b, l', rfl, hb⟩ := first_block (Nat.le_of_not_lt hl)
      rw [leftover_block hn hb, ih l'.length (by rw [length_append]; omega) l' rfl, length_append, hb,
        Nat.add_mod_left]

/-- **Cutting in two steps.** -/
theorem blocks_append (hn : 0 < n) (a b : List α) : blocks n (a ++ b) = blocks n a ++ blocks n (leftover n a ++ b) ∧
      leftover n (a ++ b) = leftover n (leftover n a ++ b) := by
  induction h : a.length using Nat.strongRecOn generalizing a with
  | ind k ih =>
    subst h
    by_cases hl : a.length < n
    · rw [leftover_short hl, blocks_short hl]; exact ⟨rfl, rfl⟩
    · obtain ⟨c, a', rfl, hc⟩ := first_block (Nat.le_of_not_lt hl)
      obtain ⟨h₁, h₂⟩ := ih a'.length (by rw [length_append]; omega) a' rfl
      rw [append_assoc, blocks_block hn hc, blocks_block hn hc, leftover_block hn hc, leftover_block hn hc, h₁, h₂]
      exact ⟨rfl, rfl⟩

end NodeCompat
