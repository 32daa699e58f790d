import Mathlib.Algebra.Ring.Nat

/-!
# Ordered multimaps

A list of keyed values, with what such a store does by key: the first entry of a key gets a new value and the others go
(`put`), values join the end (`add`), all entries of a key go (`without`). The keys are in the order of their first
entries, and the values of a key in the order of its entries.
-/

namespace NodeCompat

open List

abbrev Multimap (κ α : Type) := List (κ × α)

namespace Multimap

variable {κ α : Type} [BEq κ]

/-- The entries of the other keys. -/
def without (k : κ) (m : Multimap κ α) : Multimap κ α := m.filter (fun e => !(e.1 == k))

/-- The first entry of the key is replaced in its place and the others go; with none the value joins the end. -/
def put (k : κ) (a : α) : Multimap κ α → Multimap κ α
  | [] => [(k, a)]
  | e :: m => if e.1 == k then (k, a) :: without k m else e :: put k a m

/-- The values join the end, one entry each. -/
def add (k : κ) (as : List α) (m : Multimap κ α) : Multimap κ α := m ++ as.map (fun a => (k, a))

def has (k : κ) (m : Multimap κ α) : Bool := m.any (fun e => e.1 == k)

/-- The keys, each once, where its first entry is. -/
def keys (m : Multimap κ α) : List κ := (m.map (·.1)).eraseDups

/-- The values of a key, in order. -/
def values (k : κ) (m : Multimap κ α) : List α := (m.filter (fun e => e.1 == k)).map (·.2)

/-- No entry has the key. -/
def Free (k : κ) (m : Multimap κ α) : Prop := ∀ e ∈ m, e.1 ≠ k

variable [LawfulBEq κ] {k : κ} {a : α} {m pre post : Multimap κ α} {e : κ × α} {i : Nat}

/-! ## The first entry of a key -/

theorem findIdx?_none (h : m.findIdx? (fun e => e.1 == k) = none) : Free k m := by
  intro e he; simpa using findIdx?_eq_none_iff.1 h e he

theorem findIdx?_split : ∀ {m : Multimap κ α} {i : Nat}, m.findIdx? (fun e => e.1 == k) = some i →
    ∃ pre e post, m = pre ++ e :: post ∧ pre.length = i ∧ e.1 = k ∧ Free k pre
  | [], i, h => by cases h
  | e :: m, i, h => by
    rw [findIdx?_cons] at h
    split at h
    · next he =>
      cases h; exact ⟨[], e, m, rfl, rfl, by simpa using he, by rintro x ⟨⟩⟩
    · next he =>
      obtain ⟨j, hj, rfl⟩ := Option.map_eq_some_iff.1 h
      obtain ⟨pre, f, post, rfl, hl, hf, hp⟩ := findIdx?_split hj
      refine ⟨e :: pre, f, post, rfl, by simp [hl], hf, ?_⟩
      intro x hx
      rcases mem_cons.1 hx with rfl | hx
      · simpa using he
      · exact hp x hx

/-! ## Removing and replacing -/

theorem without_of_free (h : Free k m) : without k m = m := filter_eq_self.2 fun e he => by simpa using h e he

omit [LawfulBEq κ] in
theorem without_append : without k (pre ++ post) = without k pre ++ without k post := filter_append ..

theorem without_cons_self (h : e.1 = k) : without k (e :: m) = without k m := filter_cons_of_neg (by simpa using h)

theorem without_cons_ne (h : e.1 ≠ k) : without k (e :: m) = e :: without k m :=
  filter_cons_of_pos (by simpa using h)

theorem put_of_free (h : Free k m) : put k a m = m ++ [(k, a)] := by
  induction m with
  | nil => rfl
  | cons e m ih =>
    have he : e.1 ≠ k := h e mem_cons_self
    have hm := ih fun x hx => h x (mem_cons_of_mem e hx)
    simp [put, he, hm]

theorem put_split (hp : Free k pre) (he : e.1 = k) :
    put k a (pre ++ e :: post) = pre ++ (k, a) :: without k post := by
  induction pre with
  | nil => simp [put, he]
  | cons x pre ih =>
    have hx : x.1 ≠ k := hp x mem_cons_self
    have hpre := ih fun y hy => hp y (mem_cons_of_mem x hy)
    simp [put, hx, hpre]

omit [LawfulBEq κ] in
theorem has_eq_isSome : has k m = (m.findIdx? (fun e => e.1 == k)).isSome := by
  rw [findIdx?_isSome]; rfl

/-! ## Keys -/

theorem collect_eq (xs : List κ) : ∀ acc : List κ,
    xs.foldl (fun out x => if out.contains x then out else out ++ [x]) acc =
      acc ++ (xs.filter (fun x => !acc.contains x)).eraseDups := by
  induction xs with
  | nil => simp
  | cons x xs ih =>
    intro acc
    rw [foldl_cons, ih]
    by_cases hx : acc.contains x = true
    · rw [if_pos hx, filter_cons_of_neg (by rw [hx]; decide)]
    · have hf : xs.filter (fun y => !(acc ++ [x]).contains y) =
          (xs.filter (fun y => !acc.contains y)).filter (fun y => !y == x) := by
        rw [filter_filter]
        refine filter_congr fun y _ => ?_
        by_cases hy : y = x <;> simp [hy]
      rw [if_neg hx, filter_cons_of_pos (by simpa using hx), eraseDups_cons, hf, append_assoc]; rfl

/-! ## Values -/

theorem values_cons_self (h : e.1 = k) : values k (e :: m) = e.2 :: values k m := by
  simp [values, h]

theorem values_cons_ne (h : e.1 ≠ k) : values k (e :: m) = values k m := by
  simp [values, h]

theorem values_ne_nil : values k m ≠ [] ↔ has k m = true := by
  simp [values, has]

end Multimap

end NodeCompat
