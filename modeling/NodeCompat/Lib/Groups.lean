import Mathlib.Algebra.Ring.Nat

/-!
# Decoders that read their input group by group

A decoder of this kind takes the first group off its input, says what it stands for, and goes on behind it. It may look at
more than the group to tell how long it is, but not need it: a group is the same when the input ends with it (`stable`).
Decoding the parts of an input one by one is then decoding it at once, as long as no group is cut (`decode_append`,
`decode_flatten`).

A cut need not show. It does when each group stands for one thing and what is behind a cut is read as more groups than what
is behind the whole group (`tells_of_restarts`).
-/

namespace NodeCompat

open List

variable {α β : Type}

structure Groups (α β : Type) where
  /-- The length of the first group. -/
  size : List α → Nat
  /-- What the first group stands for. -/
  out : List α → List β
  pos : ∀ x xs, 0 < size (x :: xs)
  le : ∀ x xs, size (x :: xs) ≤ (x :: xs).length
  stable : ∀ x xs n, size (x :: xs) ≤ n →
    size ((x :: xs).take n) = size (x :: xs) ∧ out ((x :: xs).take n) = out (x :: xs)

namespace Groups

variable (g : Groups α β)

def decode : List α → List β
  | [] => []
  | x :: xs => g.out (x :: xs) ++ decode ((x :: xs).drop (g.size (x :: xs)))
  termination_by xs => xs.length
  decreasing_by
    have := g.pos x xs
    simp only [length_drop, length_cons]
    omega

/-- A group ends at the place. -/
inductive Boundary : List α → Nat → Prop
  | zero (xs : List α) : Boundary xs 0
  | next {x : α} {xs : List α} {n : Nat} : Boundary ((x :: xs).drop (g.size (x :: xs))) n →
      Boundary (x :: xs) (g.size (x :: xs) + n)

/-- No group of the whole is cut where a chunk ends. -/
def Uncut : List (List α) → Prop
  | [] => True
  | c :: cs => g.Boundary (c ++ cs.flatten) c.length ∧ Uncut cs

variable {g}

@[simp] theorem decode_nil : g.decode [] = [] := by
  unfold decode; rfl

theorem decode_cons (x : α) (xs : List α) :
    g.decode (x :: xs) = g.out (x :: xs) ++ g.decode ((x :: xs).drop (g.size (x :: xs))) := by
  rw [decode]

theorem first_append {x : α} {xs b : List α} (h : g.size (x :: xs ++ b) ≤ (x :: xs).length) :
    g.size (x :: xs) = g.size (x :: xs ++ b) ∧ g.out (x :: xs) = g.out (x :: xs ++ b) := by
  have hs := g.stable x (xs ++ b) (x :: xs).length h; rw [← cons_append, take_left] at hs; exact hs

theorem decode_step (x : α) (xs b : List α) (h : g.size (x :: xs ++ b) ≤ (x :: xs).length) :
    g.decode (x :: xs) = g.out (x :: xs ++ b) ++ g.decode ((x :: xs).drop (g.size (x :: xs ++ b))) ∧
      g.decode (x :: xs ++ b) = g.out (x :: xs ++ b) ++ g.decode ((x :: xs).drop (g.size (x :: xs ++ b)) ++ b) := by
  obtain ⟨hsize, hout⟩ := first_append h
  refine ⟨by rw [decode_cons, hsize, hout], ?_⟩
  rw [cons_append, decode_cons, ← cons_append, drop_append_of_le_length h]

/-- **Parts that cut no group** are decoded one by one. -/
theorem decode_append {a b : List α} (h : g.Boundary (a ++ b) a.length) : g.decode (a ++ b) = g.decode a ++ g.decode b := by
  generalize hl : a ++ b = l at h
  generalize hn : a.length = n at h
  induction h generalizing a with
  | zero l =>
    obtain rfl := length_eq_zero_iff.1 hn; rw [nil_append] at hl; rw [hl, decode_nil, nil_append]
  | @next x xs n _ ih =>
    have hpos := g.pos x xs
    cases a with
    | nil => rw [length_nil] at hn; omega
    | cons y a =>
      obtain rfl : y = x := (List.cons.inj hl).1
      rw [← hl] at hn ih hpos ⊢
      obtain ⟨h₁, h₂⟩ := decode_step y a b (by omega : g.size (y :: a ++ b) ≤ (y :: a).length)
      have hrest := ih (a := (y :: a).drop (g.size (y :: a ++ b))) (drop_append_of_le_length (by omega)).symm
        (by rw [length_drop]; omega)
      rw [drop_append_of_le_length (by omega)] at hrest; rw [h₁, h₂, hrest, append_assoc]

theorem decode_flatten {cs : List (List α)} (h : g.Uncut cs) : g.decode cs.flatten = cs.flatMap g.decode := by
  induction cs with
  | nil => exact decode_nil
  | cons c cs ih => rw [flatten_cons, decode_append h.1, ih h.2, flatMap_cons]

/-! ## When a cut shows -/

/-- A cut at the end of a chunk shows in the decoding, whatever the chunks behind it are. -/
def Tells (g : Groups α β) : Prop := ∀ (a : List α) (cs : List (List α)), ¬ g.Boundary (a ++ cs.flatten) a.length →
    g.decode a ++ cs.flatMap g.decode ≠ g.decode (a ++ cs.flatten)

/-- **The chunks say what the whole says just when no group is cut.** -/
theorem Tells.decode_flatten_iff (hg : g.Tells) (cs : List (List α)) :
    g.decode cs.flatten = cs.flatMap g.decode ↔ g.Uncut cs := by
  refine ⟨fun h => ?_, decode_flatten⟩
  induction cs with
  | nil => trivial
  | cons c cs ih =>
    rw [flatten_cons, flatMap_cons] at h
    have hb : g.Boundary (c ++ cs.flatten) c.length := by
      by_contra hcut
      exact hg c cs hcut h.symm
    rw [decode_append hb] at h; exact ⟨hb, ih (append_cancel_left h)⟩

/-- Behind a cut more groups are read than behind the group that is cut. -/
def Restarts (g : Groups α β) : Prop := ∀ x xs n, 0 < n → n < g.size (x :: xs) →
    (g.decode ((x :: xs).drop (g.size (x :: xs)))).length < (g.decode ((x :: xs).drop n)).length

/-- The parts are read as no fewer groups than the whole, and as more when they cut one. -/
theorem length_decode_append (hone : ∀ x xs, (g.out (x :: xs)).length = 1) (hg : g.Restarts) (a b : List α) :
    (g.decode (a ++ b)).length ≤ (g.decode a).length + (g.decode b).length ∧
      (¬ g.Boundary (a ++ b) a.length → (g.decode (a ++ b)).length < (g.decode a).length + (g.decode b).length) := by
  induction hn : a.length using Nat.strongRecOn generalizing a with
  | ind n ih =>
    cases a with
    | nil => subst hn; exact ⟨by simp, fun h => absurd (.zero _) h⟩
    | cons x a =>
      have hpos : 0 < g.size (x :: a ++ b) := g.pos x (a ++ b)
      have hlen : ∀ y ys, (g.decode (y :: ys)).length = 1 + (g.decode ((y :: ys).drop (g.size (y :: ys)))).length := by
        intro y ys; rw [decode_cons, length_append, hone]
      by_cases hs : g.size (x :: a ++ b) ≤ (x :: a).length
      · obtain ⟨h₁, h₂⟩ := decode_step x a b hs
        have hl : ((x :: a).drop (g.size (x :: a ++ b))).length < n := by rw [length_drop, hn]; omega
        obtain ⟨hle, hlt⟩ := ih _ hl _ rfl
        rw [h₁, h₂, length_append, length_append]
        refine ⟨by omega, fun hcut => ?_⟩
        have hrest : ¬ g.Boundary ((x :: a).drop (g.size (x :: a ++ b)) ++ b) ((x :: a).drop (g.size (x :: a ++ b))).length := by
          intro hb
          refine hcut ?_
          rw [← drop_append_of_le_length hs] at hb
          have hnext : g.Boundary (x :: (a ++ b)) (g.size (x :: (a ++ b)) + _) := .next hb
          have hsum : g.size (x :: (a ++ b)) + ((x :: a).drop (g.size (x :: a ++ b))).length = n := by
            rw [length_drop, ← cons_append]; omega
          rw [hsum] at hnext; exact hnext
        have := hlt hrest; omega
      · have hrestart := hg x (a ++ b) (x :: a).length (by simp) (by rw [← cons_append]; omega)
        rw [← cons_append, drop_left] at hrestart
        have hall := hlen x (a ++ b)
        rw [← cons_append] at hall
        have hpart := hlen x a; exact ⟨by omega, fun _ => by omega⟩

theorem tells_of_restarts (hone : ∀ x xs, (g.out (x :: xs)).length = 1) (hg : g.Restarts) : g.Tells := by
  have hsum : ∀ cs : List (List α), (g.decode cs.flatten).length ≤ (cs.flatMap g.decode).length := by
    intro cs
    induction cs with
    | nil => simp
    | cons c cs ih =>
      have h := (length_decode_append hone hg c cs.flatten).1; rw [flatten_cons, flatMap_cons, length_append]; omega
  intro a cs hcut heq
  have hlt := (length_decode_append hone hg a cs.flatten).2 hcut
  have hle := hsum cs; rw [← heq, length_append] at hlt; omega

/-! ## Groups of one length -/

theorem boundary_of_dvd {n : Nat} (hsize : ∀ x xs, g.size (x :: xs) = min (n + 1) (x :: xs).length) (a b : List α)
    (h : (n + 1) ∣ a.length ∨ b = []) : g.Boundary (a ++ b) a.length := by
  induction hl : a.length using Nat.strongRecOn generalizing a with
  | ind m ih =>
    cases a with
    | nil => subst hl; exact .zero _
    | cons x a =>
      have hs := hsize x (a ++ b)
      have hle : g.size (x :: (a ++ b)) ≤ (x :: a).length := by
        obtain hd | rfl := h
        · have := Nat.le_of_dvd (by simp) hd; omega
        · rw [hs, append_nil]; exact Nat.min_le_right _ _
      have hd : (x :: (a ++ b)).drop (g.size (x :: (a ++ b))) = (x :: a).drop (g.size (x :: (a ++ b))) ++ b := by
        exact drop_append_of_le_length hle
      have hpos := g.pos x (a ++ b)
      have hrec := ih (((x :: a).drop (g.size (x :: (a ++ b)))).length) (by rw [length_drop, hl]; omega)
        ((x :: a).drop (g.size (x :: (a ++ b)))) ?_ rfl
      · rw [← hd] at hrec
        have hnext := Boundary.next (g := g) hrec
        have hsum : g.size (x :: (a ++ b)) + ((x :: a).drop (g.size (x :: (a ++ b)))).length = m := by
          rw [length_drop]; omega
        rw [hsum] at hnext; exact hnext
      · refine h.imp_left (fun hd' => ?_)
        have hge := Nat.le_of_dvd (by simp) hd'
        have hn : g.size (x :: (a ++ b)) = n + 1 := by rw [hs, ← cons_append, length_append]; omega
        rw [length_drop, hn]; exact Nat.dvd_sub hd' (Nat.dvd_refl _)

end Groups

end NodeCompat
