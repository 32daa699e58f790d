import NodeCompat.Lib.Find

/-!
# Text in lines

`splitLines c d s` cuts `s` at every occurrence of the separator `c d`, and `joined` puts pieces together with a separator
between them. A separator of two different symbols has no occurrence that overlaps another, so a cut is a cut whatever
stands on its two sides (`splitLines_append`), and lines are read back when none of them holds a separator
(`splitLines_joined`).
-/

namespace NodeCompat

open List Option

variable {α : Type}

/-- The pieces, with a separator between each two of them. -/
def joined (sep : List α) : List (List α) → List α
  | [] => []
  | [l] => l
  | l :: m :: ls => l ++ (sep ++ joined sep (m :: ls))

theorem joined_cons (sep l : List α) {ls : List (List α)} (h : ls ≠ []) : joined sep (l :: ls) = l ++ (sep ++ joined sep ls) := by
  cases ls with
  | nil => exact absurd rfl h
  | cons m ls => rfl

variable [DecidableEq α] (c d : α)

/-- The lines of a text. -/
def splitLines : List α → List (List α)
  | [] => [[]]
  | [x] => [[x]]
  | x :: y :: s => if x = c ∧ y = d then [] :: splitLines s else (splitLines (y :: s)).modifyHead (x :: ·)

variable {c d} {s a b : List α}

theorem splitLines_ne_nil : ∀ s : List α, splitLines c d s ≠ []
  | [] => by simp [splitLines]
  | [x] => by simp [splitLines]
  | x :: y :: s => by
    unfold splitLines
    split
    · simp
    · have ih := splitLines_ne_nil (y :: s)
      cases h : splitLines c d (y :: s) with
      | nil => exact absurd h ih
      | cons l ls => simp

theorem splitLines_append (hcd : c ≠ d) (b : List α) : ∀ a : List α,
    splitLines c d (a ++ c :: d :: b) = splitLines c d a ++ splitLines c d b
  | [] => by simp [splitLines]
  | [x] => by
    have hx : ¬ (x = c ∧ c = d) := fun h => hcd h.2
    simp [splitLines, hx]
  | x :: y :: a => by
    by_cases h : x = c ∧ y = d
    · rw [cons_append, cons_append, splitLines, if_pos h, splitLines, if_pos h, splitLines_append hcd b a]; rfl
    · have ih := splitLines_append hcd b (y :: a)
      rw [cons_append] at ih
      rw [cons_append, cons_append, splitLines, if_neg h, splitLines, if_neg h, ih]
      obtain ⟨l, ls, hl⟩ := exists_cons_of_ne_nil (splitLines_ne_nil (c := c) (d := d) (y :: a))
      rw [hl]; rfl

theorem splitLines_line : ∀ {s : List α}, find [c, d] s = none → splitLines c d s = [s]
  | [], _ => rfl
  | [x], _ => rfl
  | x :: y :: s, h => by
    by_cases hp : [c, d] <+: x :: y :: s
    · rw [find_zero hp] at h; cases h
    · have hxy : ¬ (x = c ∧ y = d) := by rintro ⟨rfl, rfl⟩; exact hp (by simp)
      rw [find_cons_of_not hp, map_eq_none_iff] at h
      rw [splitLines, if_neg hxy, splitLines_line h]; rfl

theorem splitLines_find (hcd : c ≠ d) {i : Nat} (h : find [c, d] s = some i) :
    splitLines c d s = s.take i :: splitLines c d (s.drop (i + 2)) := by
  obtain ⟨⟨t, ht⟩, hle⟩ := find_split h
  have hs : s = s.take i ++ c :: d :: s.drop (i + 2) := by
    have hd : s.drop (i + 2) = t := by rw [← drop_drop, ← ht]; rfl
    rw [hd]; exact (take_append_drop i s).symm.trans (by rw [← ht]; rfl)
  have hn : find [c, d] (s.take i) = none := find_take_none h (by simp)
  calc splitLines c d s = splitLines c d (s.take i ++ c :: d :: s.drop (i + 2)) := by rw [← hs]
    _ = splitLines c d (s.take i) ++ splitLines c d (s.drop (i + 2)) := splitLines_append hcd _ _
    _ = s.take i :: splitLines c d (s.drop (i + 2)) := by rw [splitLines_line hn]; rfl

theorem find_none_of_splitLines (hcd : c ≠ d) {s l : List α} (h : l ∈ splitLines c d s) : find [c, d] l = none := by
  cases hf : find [c, d] s with
  | none => rw [splitLines_line hf, mem_singleton] at h; rw [h, hf]
  | some i =>
    have hle := find_le hf
    rw [splitLines_find hcd hf, mem_cons] at h
    rcases h with rfl | h
    · exact find_take_none hf (by simp)
    · exact find_none_of_splitLines hcd h
termination_by s.length
decreasing_by
  simp only [length_drop, length_cons, length_nil] at hle ⊢
  omega

theorem splitLines_joined (hcd : c ≠ d) : ∀ {ls : List (List α)}, ls ≠ [] →
    splitLines c d (joined [c, d] ls) = ls.flatMap (splitLines c d)
  | [], h => absurd rfl h
  | [l], _ => by simp [joined]
  | l :: m :: ls, _ => by
    have ih := splitLines_joined hcd (cons_ne_nil m ls)
    show splitLines c d (l ++ c :: d :: joined [c, d] (m :: ls)) = _
    rw [splitLines_append hcd, ih]; rfl

theorem find_none_of_not_mem : ∀ {s : List α}, c ∉ s → find [c, d] s = none
  | [], _ => rfl
  | x :: s, h => by
    rw [mem_cons, not_or] at h
    have hp : ¬ [c, d] <+: x :: s := fun hp => h.1 (cons_prefix_cons.1 hp).1
    rw [find_cons_of_not hp, find_none_of_not_mem h.2]; rfl

theorem find_none_part {x : α} (hc : x ≠ c) (hd : x ≠ d) (b : List α) : ∀ a : List α,
    find [c, d] (a ++ x :: b) = none ↔ find [c, d] a = none ∧ find [c, d] b = none
  | [] => by
    have hp : ¬ [c, d] <+: x :: b := fun hp => hc (cons_prefix_cons.1 hp).1.symm
    rw [nil_append, find_cons_of_not hp, map_eq_none_iff]; exact ⟨fun h => ⟨rfl, h⟩, And.right⟩
  | y :: a => by
    have ih := find_none_part hc hd b a
    by_cases hp : [c, d] <+: y :: a
    · have hp' : [c, d] <+: y :: a ++ x :: b := hp.trans (prefix_append _ _)
      rw [find_zero hp, find_zero hp']; exact ⟨nofun, fun h => absurd h.1 nofun⟩
    · have hp' : ¬ [c, d] <+: y :: a ++ x :: b := by
        intro h
        rw [cons_append, cons_prefix_cons] at h
        cases a with
        | nil => exact hd (cons_prefix_cons.1 h.2).1.symm
        | cons z a =>
          rw [cons_append, cons_prefix_cons] at h; exact hp (cons_prefix_cons.2 ⟨h.1, cons_prefix_cons.2 ⟨h.2.1, nil_prefix⟩⟩)
      rw [find_cons_of_not hp, cons_append, find_cons_of_not (by simpa using hp'), map_eq_none_iff,
        map_eq_none_iff, ih]

/-- Joined texts are read back line by line exactly when none of them holds a separator. -/
theorem splitLines_joined_iff (hcd : c ≠ d) {ls : List (List α)} (h : ls ≠ []) :
    splitLines c d (joined [c, d] ls) = ls ↔ ∀ l ∈ ls, find [c, d] l = none := by
  constructor
  · intro he l hl; rw [← he] at hl; exact find_none_of_splitLines hcd hl
  · intro hn
    rw [splitLines_joined hcd h]
    clear h
    induction ls with
    | nil => rfl
    | cons l ls ih =>
      rw [flatMap_cons, splitLines_line (hn l mem_cons_self), ih (fun m hm => hn m (mem_cons_of_mem l hm))]
      rfl

theorem find_blank_skip (hcd : c ≠ d) {l : List α} (hl : find [c, d] l = none) (t : List α) :
    find [c, d, c, d] (l ++ c :: d :: t) = (find [c, d, c, d] (c :: d :: t)).map (· + l.length) := by
  apply find_skip
  intro n hn hp
  have hp2 : [c, d] <+: (l ++ c :: d :: t).drop n := IsPrefix.trans ⟨[c, d], rfl⟩ hp
  obtain ⟨i, hi, hf⟩ := find_of_prefix hp2 (by simp; omega)
  rw [find_pair hcd hl] at hf
  cases hf; omega

/-- The first empty line of a text whose lines are not empty stands behind the last of them. -/
theorem find_blank (hcd : c ≠ d) (t : List α) : ∀ {ls : List (List α)}, ls ≠ [] →
    (∀ l ∈ ls, l ≠ [] ∧ find [c, d] l = none) →
    find [c, d, c, d] (joined [c, d] ls ++ c :: d :: c :: d :: t) = some (joined [c, d] ls).length
  | [], h, _ => absurd rfl h
  | [l], _, hl => by
    have hz : find [c, d, c, d] (c :: d :: c :: d :: t) = some 0 := find_zero ⟨t, rfl⟩
    rw [joined, find_blank_skip hcd (hl l mem_cons_self).2, hz]; simp
  | l :: m :: ls, _, hl => by
    have ih := find_blank hcd t (cons_ne_nil m ls) (fun x hx => hl x (mem_cons_of_mem l hx))
    obtain ⟨hm, hmf⟩ := hl m (by simp)
    have hstart : ∃ u, joined [c, d] (m :: ls) ++ c :: d :: c :: d :: t = m ++ c :: d :: u := by
      cases ls with
      | nil => exact ⟨c :: d :: t, rfl⟩
      | cons k ls => exact ⟨joined [c, d] (k :: ls) ++ c :: d :: c :: d :: t, by simp [joined]⟩
    obtain ⟨u, hu⟩ := hstart
    have h₀ : ¬ [c, d, c, d] <+: c :: d :: (m ++ c :: d :: u) := by
      intro hp
      rw [cons_prefix_cons, cons_prefix_cons] at hp
      have hz := find_zero hp.2.2
      rw [find_pair hcd hmf] at hz; exact hm (eq_nil_of_length_eq_zero (Option.some.inj hz))
    have h₁ : ¬ [c, d, c, d] <+: d :: (m ++ c :: d :: u) := fun hp => hcd (cons_prefix_cons.1 hp).1
    have hj : joined [c, d] (l :: m :: ls) ++ c :: d :: c :: d :: t = l ++ c :: d :: (m ++ c :: d :: u) := by
      rw [← hu]; simp [joined]
    rw [hj, find_blank_skip hcd (hl l mem_cons_self).2, find_cons_of_not h₀, find_cons_of_not h₁, ← hu, ih]
    simp only [map_some, joined, length_append, length_cons, length_nil]
    congr 1
    omega

end NodeCompat
