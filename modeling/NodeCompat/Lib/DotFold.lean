import Mathlib.Algebra.Ring.Nat
import Mathlib.Data.List.Basic

/-!
# Folding segments with a stack

The segments of a list are what stands between its separators. A stack takes them one by one: empty segments and `.` change
nothing, and `..` takes the top away (`enter`). What is on the stack is `Stacked`: plain segments over `..`s. A stack that is
entered again, segment by segment, is itself (`foldl_enter_reverse`), so that entering a prefix first changes nothing.

The top of the stack is the last segment: `spelled` joins from the bottom.
-/

namespace NodeCompat.DotFold

open List

variable {α : Type} {dot sep : α} {isSep : α → Bool} {up : Bool} {seg top : List α} {st : List (List α)}

/-- The segments of a list, empty ones included. -/
def pieces (isSep : α → Bool) (s : List α) : List (List α) := s.splitOnP isSep

/-- A stack takes a segment; with `up` it keeps a `..` that has nothing to take away. -/
def enter [DecidableEq α] (dot : α) (up : Bool) (st : List (List α)) (seg : List α) : List (List α) :=
  if seg = [] ∨ seg = [dot] then st
  else if seg = [dot, dot] then
    match st with
    | [] => if up then [[dot, dot]] else []
    | top :: rest => if top = [dot, dot] then (if up then [dot, dot] :: top :: rest else top :: rest) else rest
  else seg :: st

/-- The stack after all segments of a list. -/
def fold [DecidableEq α] (dot : α) (isSep : α → Bool) (up : Bool) (st : List (List α)) (s : List α) : List (List α) :=
  (pieces isSep s).foldl (enter dot up) st

def spelled (sep : α) (st : List (List α)) : List α := [sep].intercalate st.reverse

/-! ## Pieces -/

/-- No separator is in the segment. -/
def Whole (isSep : α → Bool) (seg : List α) : Prop := ∀ c ∈ seg, isSep c = false

theorem pieces_whole (h : Whole isSep seg) : pieces isSep seg = [seg] := splitOnP_eq_singleton h

theorem pieces_append {s : α} (hs : isSep s = true) (a b : List α) :
    pieces isSep (a ++ s :: b) = pieces isSep a ++ pieces isSep b := splitOnP_append_cons a b hs

theorem pieces_cons {s : α} (hs : isSep s = true) (h : Whole isSep seg) (b : List α) :
    pieces isSep (seg ++ s :: b) = seg :: pieces isSep b := by
  rw [pieces_append hs, pieces_whole h, singleton_append]

theorem whole_of_mem_pieces (s : List α) (hmem : seg ∈ pieces isSep s) : Whole isSep seg := by
  induction s generalizing seg with
  | nil =>
    obtain rfl : seg = [] := by simpa [pieces] using hmem
    exact fun c hc => absurd hc (by simp)
  | cons c s ih =>
    rw [pieces, splitOnP_cons_eq_if_modifyHead] at hmem
    split at hmem
    · obtain rfl | hmem := mem_cons.1 hmem
      · exact fun c hc => absurd hc (by simp)
      · exact ih hmem
    · next hc =>
      cases hp : s.splitOnP isSep with
      | nil => exact absurd hp (splitOnP_ne_nil isSep s)
      | cons p ps =>
        rw [hp, modifyHead_cons] at hmem
        obtain rfl | hmem := mem_cons.1 hmem
        · intro d hd
          obtain rfl | hd := mem_cons.1 hd
          · simpa using hc
          · exact ih (by rw [pieces, hp]; exact mem_cons_self) d hd
        · exact ih (by rw [pieces, hp]; exact mem_cons_of_mem _ hmem)

section

variable [DecidableEq α]

theorem fold_append {s : α} (hs : isSep s = true) (st : List (List α)) (a b : List α) :
    fold dot isSep up st (a ++ s :: b) = fold dot isSep up (fold dot isSep up st a) b := by
  rw [fold, pieces_append hs, foldl_append, fold, fold]

theorem fold_nil (st : List (List α)) : fold dot isSep up st [] = st := by simp [fold, pieces, enter]

theorem fold_cons {s : α} (hs : isSep s = true) (st : List (List α)) (a : List α) :
    fold dot isSep up st (s :: a) = fold dot isSep up st a := by
  have h : fold dot isSep up st ([] ++ s :: a) = _ := fold_append hs st [] a
  rwa [nil_append, fold_nil] at h

theorem fold_snoc {s : α} (hs : isSep s = true) (st : List (List α)) (a : List α) :
    fold dot isSep up st (a ++ [s]) = fold dot isSep up st a := by
  rw [fold_append hs, fold_nil]

end

/-! ## Stacks -/

/-- A segment that stays as it is. -/
def Plain (dot : α) (seg : List α) : Prop := seg ≠ [] ∧ seg ≠ [dot] ∧ seg ≠ [dot, dot]

inductive Stacked (dot : α) (isSep : α → Bool) (up : Bool) : List (List α) → Prop
  | nil : Stacked dot isSep up []
  | climb {st : List (List α)} (hup : up = true) (hall : ∀ q ∈ st, q = [dot, dot]) (h : Stacked dot isSep up st) :
      Stacked dot isSep up ([dot, dot] :: st)
  | plain {seg : List α} {st : List (List α)} (hp : Plain dot seg) (hw : Whole isSep seg) (h : Stacked dot isSep up st) :
      Stacked dot isSep up (seg :: st)

section

variable [DecidableEq α]

theorem enter_plain (h : Plain dot seg) : enter dot up st seg = seg :: st := by
  simp [enter, h.1, h.2.1, h.2.2]

theorem enter_pop (h : top ≠ [dot, dot]) : enter dot up (top :: st) [dot, dot] = st := by simp [enter, h]

theorem enter_climb (h : ∀ q ∈ st, q = [dot, dot]) : enter dot true st [dot, dot] = [dot, dot] :: st := by
  cases st with
  | nil => simp [enter]
  | cons q st => simp [enter, h q mem_cons_self]

end

namespace Stacked

theorem tail (h : Stacked dot isSep up (top :: st)) : Stacked dot isSep up st := by
  cases h with
  | climb _ _ h | plain _ _ h => exact h

theorem ne_nil (h : Stacked dot isSep up st) : ∀ q ∈ st, q ≠ [] := by
  induction h with
  | nil => simp
  | climb _ _ _ ih => exact forall_mem_cons.2 ⟨by simp, ih⟩
  | plain hp _ _ ih => exact forall_mem_cons.2 ⟨hp.1, ih⟩

theorem whole (hd : isSep dot = false) (h : Stacked dot isSep up st) : ∀ q ∈ st, Whole isSep q := by
  induction h with
  | nil => simp
  | climb _ _ _ ih => exact forall_mem_cons.2 ⟨by simp [Whole, hd], ih⟩
  | plain _ hw _ ih => exact forall_mem_cons.2 ⟨hw, ih⟩

section

variable [DecidableEq α]

section

variable (h : Stacked dot isSep up st)
include h

theorem foldl_enter_reverse : st.reverse.foldl (enter dot up) [] = st := by
  induction h with
  | nil => rfl
  | climb hup hall _ ih =>
    rw [reverse_cons, foldl_append, ih, foldl_cons, foldl_nil, hup, enter_climb hall]
  | plain hp _ _ ih => rw [reverse_cons, foldl_append, ih, foldl_cons, foldl_nil, enter_plain hp]

theorem enter (hw : Whole isSep seg) : Stacked dot isSep up (enter dot up st seg) := by
  unfold DotFold.enter
  split
  · exact h
  · next hne =>
    split
    · cases st with
      | nil =>
        cases hup : up with
        | false => exact .nil
        | true => exact .climb rfl (by simp) .nil
      | cons top rest =>
        dsimp only
        split
        · next htop =>
          cases hup : up with
          | false => subst hup; exact h
          | true =>
            subst htop hup
            refine .climb rfl ?_ h
            cases h with
            | climb _ hall _ => exact forall_mem_cons.2 ⟨rfl, hall⟩
            | plain hp _ _ => exact absurd rfl hp.2.2
        · exact h.tail
    · next hdd => exact .plain ⟨fun e => hne (.inl e), fun e => hne (.inr e), hdd⟩ hw h

theorem fold (s : List α) : Stacked dot isSep up (fold dot isSep up st s) := by
  have hw : ∀ q ∈ pieces isSep s, Whole isSep q := fun q hq => whole_of_mem_pieces s hq
  unfold DotFold.fold
  generalize pieces isSep s = ps at hw
  induction ps generalizing st with
  | nil => exact h
  | cons p ps ih =>
    exact ih (h.enter (hw p mem_cons_self)) (fun q hq => hw q (mem_cons_of_mem _ hq))

end

end

theorem no_climb (h : Stacked dot isSep false st) : ∀ q ∈ st, Plain dot q := by
  induction st with
  | nil => simp
  | cons top st ih =>
    refine forall_mem_cons.2 ⟨?_, ih h.tail⟩
    cases h with
    | climb hup _ _ => cases hup
    | plain hp _ _ => exact hp

theorem climbs_first (h : Stacked dot isSep up st) :
    ∃ (n : Nat) (rest : List (List α)), st.reverse = List.replicate n [dot, dot] ++ rest ∧ [dot, dot] ∉ rest := by
  induction h with
  | nil => exact ⟨0, [], rfl, by simp⟩
  | @climb st _ hall _ _ =>
    refine ⟨st.length + 1, [], ?_, by simp⟩
    rw [append_nil, eq_replicate_iff]; exact ⟨by simp, by simpa [or_imp, forall_and] using hall⟩
  | @plain seg _ hp _ _ ih =>
    obtain ⟨n, rest, hst, hrest⟩ := ih
    refine ⟨n, rest ++ [seg], by rw [reverse_cons, hst, append_assoc], ?_⟩
    simpa [hrest] using fun e => hp.2.2 e.symm

end Stacked

theorem foldl_pop [DecidableEq α] {a : List (List α)} (ha : ∀ q ∈ a, q ≠ [dot, dot]) (st : List (List α)) :
    (List.replicate a.length [dot, dot]).foldl (enter dot up) (a ++ st) = st := by
  induction a with
  | nil => rfl
  | cons q a ih =>
    rw [length_cons, replicate_succ, cons_append, foldl_cons, enter_pop (ha q mem_cons_self)]
    exact ih (fun p hp => ha p (mem_cons_of_mem _ hp))

/-! ## Spelling a stack -/

theorem spelled_nil : spelled sep [] = [] := rfl

theorem spelled_singleton (top : List α) : spelled sep [top] = top := by simp [spelled, List.intercalate]

theorem spelled_cons (top next : List α) (st : List (List α)) :
    spelled sep (top :: next :: st) = spelled sep (next :: st) ++ sep :: top := by
  simp only [spelled, reverse_cons, List.intercalate]
  generalize st.reverse = ps
  induction ps with
  | nil => simp
  | cons p ps ih =>
    cases ps with
    | nil => simp
    | cons q ps => simpa using ih

theorem spelled_ne_nil (h : ∀ q ∈ st, q ≠ []) (hne : st ≠ []) : spelled sep st ≠ [] := by
  cases st with
  | nil => exact absurd rfl hne
  | cons top st =>
    cases st with
    | nil => simpa [spelled_singleton] using h
    | cons next st => simp [spelled_cons]

theorem spelled_eq_nil (h : ∀ q ∈ st, q ≠ []) : spelled sep st = [] ↔ st = [] :=
  ⟨fun he => by_contra fun hne => spelled_ne_nil h hne he, fun he => by rw [he, spelled_nil]⟩

theorem head_spelled (hs : ∀ q ∈ st, q ≠ []) {c : α} (h : (spelled sep st).head? = some c) : ∃ q ∈ st, q.head? = some c := by
  induction st with
  | nil => cases h
  | cons top st ih =>
    cases st with
    | nil => exact ⟨top, mem_cons_self, by simpa [spelled_singleton] using h⟩
    | cons next st =>
      rw [spelled_cons, head?_append_of_ne_nil _
        (spelled_ne_nil (fun q hq => hs q (mem_cons_of_mem _ hq)) (by simp))] at h
      obtain ⟨q, hq, hc⟩ := ih (fun q hq => hs q (mem_cons_of_mem _ hq)) h
      exact ⟨q, mem_cons_of_mem _ hq, hc⟩

theorem pieces_spelled (hsep : isSep sep = true) (hw : ∀ q ∈ st, Whole isSep q) (hne : st ≠ []) :
    pieces isSep (spelled sep st) = st.reverse := by
  induction st with
  | nil => exact absurd rfl hne
  | cons top st ih =>
    cases st with
    | nil => rw [spelled_singleton, pieces_whole (hw top mem_cons_self), reverse_singleton]
    | cons next st =>
      rw [spelled_cons, pieces_append hsep, ih (fun q hq => hw q (mem_cons_of_mem _ hq)) (by simp),
        pieces_whole (hw top mem_cons_self), reverse_cons (a := top)]

theorem Stacked.fold_spelled [DecidableEq α] (h : Stacked dot isSep up st) (hsep : isSep sep = true) (hd : isSep dot = false) :
    DotFold.fold dot isSep up [] (spelled sep st) = st := by
  rcases eq_or_ne st [] with rfl | hne
  · exact fold_nil []
  · rw [DotFold.fold, pieces_spelled hsep (h.whole hd) hne, h.foldl_enter_reverse]

end NodeCompat.DotFold
