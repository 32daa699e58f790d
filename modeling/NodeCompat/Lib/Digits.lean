import Mathlib.Algebra.Ring.Nat
import Mathlib.Data.List.Induction

/-!
# Numerals

The digits of a number in a base, most significant first, as `std::to_chars` and `Number.prototype.toString` write them:
zero is one digit, and there is no leading zero otherwise. Reading them back gives the number (`ofDigits_digitsOf`).
-/

namespace NodeCompat

open List

/-- The digits of `n` in base `b`, most significant first. -/
def digitsOf (b n : Nat) : List Nat :=
  if n < b ∨ b < 2 then [n] else digitsOf b (n / b) ++ [n % b]
termination_by n
decreasing_by
  exact Nat.div_lt_self (by omega) (by omega)

/-- The value of digits, read from the left. -/
def ofDigits (b acc : Nat) (ds : List Nat) : Nat := ds.foldl (fun n d => n * b + d) acc

theorem digitsOf_ne_nil (b n : Nat) : digitsOf b n ≠ [] := by
  unfold digitsOf
  split <;> simp

theorem ofDigits_digitsOf (b n : Nat) : ofDigits b 0 (digitsOf b n) = n := by
  induction n using Nat.strongRecOn with
  | ind n ih =>
    rw [digitsOf]
    split
    · simp [ofDigits]
    · next h =>
      have hlt : n / b < n := Nat.div_lt_self (by omega) (by omega)
      have hih := ih _ hlt
      rw [ofDigits] at hih ⊢; rw [foldl_append, hih]; exact Nat.div_add_mod' n b

theorem lt_of_mem_digitsOf {b n d : Nat} (hb : 2 ≤ b) (h : d ∈ digitsOf b n) : d < b := by
  induction n using Nat.strongRecOn generalizing d with
  | ind n ih =>
    rw [digitsOf] at h
    split at h
    · next hn =>
      rw [mem_singleton.1 h]; omega
    · next hn =>
      rcases mem_append.1 h with h | h
      · exact ih _ (Nat.div_lt_self (by omega) (by omega)) h
      · rw [mem_singleton.1 h]; exact Nat.mod_lt _ (by omega)

theorem head?_digitsOf {b n : Nat} (hb : 2 ≤ b) (h : (digitsOf b n).head? = some 0) : (digitsOf b n).length = 1 := by
  induction n using Nat.strongRecOn with
  | ind n ih =>
    rw [digitsOf] at h ⊢
    split
    · rfl
    · next hn =>
      rw [if_neg hn] at h
      have hhead : (digitsOf b (n / b)).head? = some 0 := by
        cases hd : digitsOf b (n / b) with
        | nil => exact absurd hd (digitsOf_ne_nil b _)
        | cons d ds => simpa [hd] using h
      have hone : (digitsOf b (n / b)).length = 1 := ih _ (Nat.div_lt_self (by omega) (by omega)) hhead
      obtain ⟨d, hd⟩ := length_eq_one_iff.1 hone
      rw [hd] at hhead
      have hzero : n / b = 0 := by rw [← ofDigits_digitsOf b (n / b), hd]; simpa [ofDigits] using hhead
      have hlt : n < b := by
        by_contra hge
        have := Nat.div_pos (Nat.le_of_not_lt hge) (by omega); omega
      exact absurd (.inl hlt) hn

theorem digitsOf_ofDigits {b : Nat} (hb : 2 ≤ b) {ds : List Nat} (hne : ds ≠ []) (hlt : ∀ d ∈ ds, d < b)
    (hhead : ds.head? = some 0 → ds.length = 1) : digitsOf b (ofDigits b 0 ds) = ds := by
  induction ds using List.reverseRecOn with
  | nil => exact absurd rfl hne
  | append_singleton init d ih =>
    have hd : d < b := hlt d (by simp)
    have hvalue : ofDigits b 0 (init ++ [d]) = ofDigits b 0 init * b + d := by simp [ofDigits]
    rw [hvalue]
    cases init with
    | nil => rw [digitsOf, if_pos (by simp only [ofDigits, foldl_nil]; omega)]; simp [ofDigits]
    | cons e init =>
      have hhead' : (e :: init).head? = some 0 → (e :: init).length = 1 := by
        intro h0
        have := hhead (by simpa using h0); simp at this
      have hih := ih (by simp) (fun x hx => hlt x (by simp only [mem_append]; exact .inl hx)) hhead'
      have hpos : 0 < ofDigits b 0 (e :: init) := by
        rcases Nat.eq_zero_or_pos (ofDigits b 0 (e :: init)) with h0 | h0
        · rw [h0, digitsOf, if_pos (by omega)] at hih
          have h1 := hhead (by rw [← hih]; rfl)
          simp at h1
        · exact h0
      have hge : ¬ (ofDigits b 0 (e :: init) * b + d < b ∨ b < 2) := by
        have := Nat.le_mul_of_pos_left b hpos; omega
      rw [digitsOf, if_neg hge, Nat.mul_comm, Nat.mul_add_div (by omega), Nat.div_eq_of_lt hd, Nat.add_zero, hih,
        Nat.mul_add_mod, Nat.mod_eq_of_lt hd]

theorem length_digitsOf_mono (b : Nat) {m n : Nat} (h : m ≤ n) : (digitsOf b m).length ≤ (digitsOf b n).length := by
  induction n using Nat.strongRecOn generalizing m with
  | ind n ih =>
    rw [digitsOf.eq_1 b m, digitsOf.eq_1 b n]
    by_cases hm : m < b ∨ b < 2
    · rw [if_pos hm]
      split <;> simp
    · have hn : ¬ (n < b ∨ b < 2) := by omega
      have hlt : n / b < n := Nat.div_lt_self (by omega) (by omega)
      have := ih _ hlt (Nat.div_le_div_right h)
      rw [if_neg hm, if_neg hn, length_append, length_append]; simpa using this

end NodeCompat
