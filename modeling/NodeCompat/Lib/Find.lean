import Mathlib.Algebra.Ring.Nat
import Mathlib.Data.List.DropRight
import Mathlib.Data.List.Infix

/-!
# First occurrence of a slice

`find pat s` is the index of the first occurrence of `pat` in `s`, and `findFrom pat s pos` the first one at or after
`pos`, as `std::string::find` and `String.prototype.indexOf` compute them. What the scanners built on it need:

- an occurrence stays the first one when the string grows, and only depends on the string up to its own end
  (`find_append`, `find_take`);
- an occurrence that appears only when the string grows ends beyond the old string (`find_none_append`);
- a scan may skip what no occurrence can start in (`find_skip`), so the first occurrence after a stretch that cannot
  hold one is right behind it (`find_single`, `find_pair`).
-/

namespace NodeCompat

open List Option

variable {α : Type} [DecidableEq α]

/-- The index of the first occurrence of `pat`. -/
def find (pat : List α) : List α → Option Nat
  | [] => if pat = [] then some 0 else none
  | x :: xs => if pat <+: x :: xs then some 0 else (find pat xs).map (· + 1)

/-- The index of the first occurrence of `pat` at or after `pos`. -/
def findFrom (pat s : List α) (pos : Nat) : Option Nat := (find pat (s.drop pos)).map (· + pos)

variable {pat s t : List α} {i : Nat}

/-! ## Where an occurrence is -/

theorem find_zero (h : pat <+: s) : find pat s = some 0 := by
  cases s with
  | nil => simp [find, prefix_nil.1 h]
  | cons x xs => simp [find, h]

theorem find_cons_of_not {x : α} {xs : List α} (h : ¬ pat <+: x :: xs) :
    find pat (x :: xs) = (find pat xs).map (· + 1) := by
  simp [find, h]

theorem find_split : ∀ {s : List α} {i : Nat}, find pat s = some i → pat <+: s.drop i ∧ i + pat.length ≤ s.length
  | [], i, h => by
    simp only [find] at h
    split at h
    · cases h; simp_all
    · cases h
  | x :: xs, i, h => by
    by_cases hp : pat <+: x :: xs
    · rw [find_zero hp] at h
      cases h; exact ⟨hp, by simpa using hp.length_le⟩
    · rw [find_cons_of_not hp] at h
      obtain ⟨j, hj, rfl⟩ := map_eq_some_iff.1 h
      obtain ⟨h₁, h₂⟩ := find_split hj; exact ⟨by simpa using h₁, by simp only [length_cons]; omega⟩

theorem find_le (h : find pat s = some i) : i + pat.length ≤ s.length := (find_split h).2

theorem find_of_prefix : ∀ {n : Nat} {s : List α}, pat <+: s.drop n → n ≤ s.length → ∃ i ≤ n, find pat s = some i
  | 0, s, h, _ => ⟨0, Nat.le_refl _, find_zero (by simpa using h)⟩
  | n + 1, [], h, hn => by simp at hn
  | n + 1, x :: s, h, hn => by
    by_cases hp : pat <+: x :: s
    · exact ⟨0, Nat.zero_le _, find_zero hp⟩
    · obtain ⟨i, hi, hf⟩ := find_of_prefix (n := n) (s := s) (by simpa using h) (by simpa using hn)
      exact ⟨i + 1, by omega, by rw [find_cons_of_not hp, hf]; rfl⟩

/-! ## Growing the string -/

theorem find_append : ∀ {s : List α} {i : Nat}, find pat s = some i → ∀ t, find pat (s ++ t) = some i
  | [], i, h, t => by
    simp only [find] at h
    split at h
    · next hp => cases h; subst hp; exact find_zero ⟨_, rfl⟩
    · cases h
  | x :: xs, i, h, t => by
    by_cases hp : pat <+: x :: xs
    · rw [find_zero hp] at h
      cases h; exact find_zero (hp.trans (prefix_append _ _))
    · rw [find_cons_of_not hp] at h
      obtain ⟨j, hj, rfl⟩ := map_eq_some_iff.1 h
      -- the occurrence in the tail bounds `pat`, so the head cannot start a new one
      have hlen : pat.length ≤ (x :: xs).length := by have := find_le hj; simp only [length_cons]; omega
      have hp' : ¬ pat <+: x :: xs ++ t := fun hc => hp (prefix_of_prefix_length_le hc (prefix_append _ _) hlen)
      rw [cons_append] at hp' ⊢; rw [find_cons_of_not hp', find_append hj t]; rfl

theorem find_take : ∀ {s : List α} {i : Nat}, find pat s = some i → ∀ n, i + pat.length ≤ n → find pat (s.take n) = some i
  | [], i, h, n, _ => by simpa using h
  | x :: xs, i, h, n, hn => by
    by_cases hp : pat <+: x :: xs
    · rw [find_zero hp] at h
      cases h; exact find_zero (prefix_take_iff.2 ⟨hp, by omega⟩)
    · rw [find_cons_of_not hp] at h
      obtain ⟨j, hj, rfl⟩ := map_eq_some_iff.1 h
      obtain ⟨n, rfl⟩ : ∃ m, n = m + 1 := ⟨n - 1, by omega⟩
      have hp' : ¬ pat <+: x :: xs.take n := fun hc => hp (hc.trans (cons_prefix_cons.2 ⟨rfl, ⟨_, take_append_drop n xs⟩⟩))
      rw [take_succ_cons, find_cons_of_not hp', find_take hj n (by omega)]; rfl

/-- An occurrence that a longer string has and a shorter one has not ends beyond the shorter one. -/
theorem find_none_append (h : find pat s = none) (h' : find pat (s ++ t) = some i) : s.length < i + pat.length := by
  by_contra hc
  have := find_take h' s.length (by omega)
  rw [take_left] at this; rw [h] at this; cases this

theorem find_none_of_append (h : find pat (s ++ t) = none) : find pat s = none := by
  cases hs : find pat s with
  | none => rfl
  | some i => rw [find_append hs t] at h; cases h

theorem find_take_none (h : find pat s = some i) {n : Nat} (hn : n < i + pat.length) : find pat (s.take n) = none := by
  cases hf : find pat (s.take n) with
  | none => rfl
  | some j =>
    have hj := find_append hf (s.drop n)
    rw [take_append_drop, h] at hj
    cases hj
    have := find_le hf; rw [length_take] at this; omega

/-! ## Skipping -/

theorem find_skip : ∀ {a : List α}, (∀ n < a.length, ¬ pat <+: (a ++ s).drop n) →
    find pat (a ++ s) = (find pat s).map (· + a.length)
  | [], _ => by simp
  | x :: a, h => by
    have h0 : ¬ pat <+: x :: (a ++ s) := by simpa using h 0 (by simp)
    rw [cons_append, find_cons_of_not h0, find_skip (fun n hn => by simpa using h (n + 1) (by simpa using hn))]
    cases find pat s with
    | none => rfl
    | some j => simp only [map_some, length_cons, Nat.add_assoc]

theorem find_skip_of_ne {c : α} {p a : List α} (h : c ∉ a) :
    find (c :: p) (a ++ s) = (find (c :: p) s).map (· + a.length) := by
  apply find_skip
  intro n hn hp
  rw [drop_append_of_le_length (by omega), drop_eq_getElem_cons hn, cons_append] at hp
  exact h (by rw [(cons_prefix_cons.1 hp).1]; exact getElem_mem hn)

theorem find_single {c : α} {a : List α} (h : c ∉ a) : find [c] (a ++ c :: s) = some a.length := by
  rw [find_skip_of_ne h, find_zero (by simp)]; simp

theorem find_not_mem {c : α} (h : c ∉ s) : find [c] s = none := by
  induction s with
  | nil => rfl
  | cons x s ih =>
    simp only [mem_cons, not_or] at h
    have hp : ¬ [c] <+: x :: s := fun hp => h.1 (cons_prefix_cons.1 hp).1
    rw [find_cons_of_not hp, ih h.2]; rfl

theorem not_mem_of_find {c : α} (h : find [c] s = none) : c ∉ s := by
  intro hmem
  obtain ⟨a, b, rfl⟩ := append_of_mem hmem
  have hp : [c] <+: (a ++ c :: b).drop a.length := by simp
  obtain ⟨i, _, hi⟩ := find_of_prefix hp (by simp); rw [h] at hi; cases hi

theorem find_cut : ∀ {s : List α} {c : α} {i : Nat}, find [c] s = some i →
    s = s.take i ++ c :: s.drop (i + 1) ∧ c ∉ s.take i
  | [], c, i, h => by cases h
  | x :: s, c, i, h => by
    by_cases hx : c = x
    · rw [find_zero (by simp [hx])] at h
      cases h; exact ⟨by simp [hx], by simp⟩
    · have hp : ¬ [c] <+: x :: s := fun hp => hx (cons_prefix_cons.1 hp).1
      rw [find_cons_of_not hp] at h
      obtain ⟨j, hj, rfl⟩ := map_eq_some_iff.1 h
      obtain ⟨hs, hc⟩ := find_cut hj
      refine ⟨?_, by simp [hx, hc]⟩
      rw [take_succ_cons, drop_succ_cons, cons_append, ← hs]

/-- A two-symbol pattern right behind a stretch without it: the stretch may end in the first symbol, not in the whole
pattern. -/
theorem find_pair {c d : α} (hcd : c ≠ d) : ∀ {a : List α}, find [c, d] a = none →
    find [c, d] (a ++ c :: d :: s) = some a.length
  | [], _ => find_zero (by simp)
  | x :: a, h => by
    by_cases hp : [c, d] <+: x :: a
    · rw [find_zero hp] at h; cases h
    · rw [find_cons_of_not hp] at h
      have ih := find_pair hcd (map_eq_none_iff.1 h)
      have hp' : ¬ [c, d] <+: x :: (a ++ c :: d :: s) := by
        intro hc
        rw [cons_prefix_cons] at hc
        cases a with
        | nil => exact hcd (cons_prefix_cons.1 hc.2).1.symm
        | cons y a => exact hp (cons_prefix_cons.2 ⟨hc.1, by
            rw [cons_append, cons_prefix_cons] at hc; exact cons_prefix_cons.2 ⟨hc.2.1, ⟨_, rfl⟩⟩⟩)
      rw [cons_append, find_cons_of_not hp', ih]; rfl

end NodeCompat
