import NodeCompat.Net.Socket

/-!
# The order of the attempts

`onLookupAll` sorts the answers into two lists while it walks through them. What comes out is `raceOrder`: the valid answers
without repetitions, the two families in turn, the first answer's family first. No address is in it twice with one family
(`expected_nodup`).
-/

namespace NodeCompat.Net

open List Option

/-! ## Distinct elements and turns -/

section

variable {α : Type} [DecidableEq α]

/-- The elements of a list in the order of their first places. -/
def distinct (l : List α) : List α := l.foldl (fun acc x => if x ∈ acc then acc else acc ++ [x]) []

theorem distinct_concat (l : List α) (x : α) :
    distinct (l ++ [x]) = if x ∈ distinct l then distinct l else distinct l ++ [x] := by
  rw [distinct, foldl_append]; rfl

theorem mem_distinct {l : List α} {x : α} : x ∈ distinct l ↔ x ∈ l := by
  induction l using List.reverseRecOn with
  | nil => simp [distinct]
  | append_singleton l y ih =>
    rw [distinct_concat]
    split
    · next hy =>
      rw [ih, mem_append, mem_singleton]
      constructor
      · exact .inl
      · rintro (h | rfl)
        · exact h
        · exact ih.1 hy
    · rw [mem_append, mem_append, ih]

theorem nodup_distinct (l : List α) : (distinct l).Nodup := by
  induction l using List.reverseRecOn with
  | nil => simp [distinct]
  | append_singleton l y ih =>
    rw [distinct_concat]
    split
    · exact ih
    · next hy =>
      refine nodup_append.2 ⟨ih, nodup_singleton y, ?_⟩
      intro a ha b hb hab
      rw [mem_singleton] at hb; subst hb hab; exact hy ha

omit [DecidableEq α] in
theorem interleave_perm : ∀ xs ys : List α, (interleave xs ys).Perm (xs ++ ys)
  | x :: xs, y :: ys => by
    have hrest : (y :: interleave xs ys).Perm (xs ++ y :: ys) := ((interleave_perm xs ys).cons y).trans perm_middle.symm
    exact hrest.cons x
  | xs, [] => by
    cases xs <;> simp [interleave]
  | [], y :: ys => by simp [interleave]

end

/-! ## The order -/

/-- An answer that can be tried. -/
def Usable (isIP : Bytes → Nat) (t : Target) : Bool := isIP t.1 ≠ 0 && (t.2 = 4 || t.2 = 6)

/-- The usable answers, each once, the families in turn, that of the first usable answer first. -/
def raceOrder (isIP : Bytes → Nat) (addresses : List Target) : List Target :=
  let usable := addresses.filter (Usable isIP)
  let family := (usable.head?.map Prod.snd).getD 0
  interleave (distinct (usable.filter (fun t => t.2 = family))) (distinct (usable.filter (fun t => t.2 ≠ family)))

/-- What a call should try. -/
def Answered.expected (isIP : Bytes → Nat) : Answered → List Target
  | .literal host => [(host, isIP host)]
  | .one address => [(address, isIP address)]
  | .all addresses => raceOrder isIP addresses

theorem nodup_raceOrder (isIP : Bytes → Nat) (addresses : List Target) : (raceOrder isIP addresses).Nodup := by
  unfold raceOrder
  dsimp only
  refine (interleave_perm _ _).nodup_iff.2 (nodup_append.2 ⟨nodup_distinct _, nodup_distinct _, ?_⟩)
  intro a ha b hb hab
  subst hab
  rw [mem_distinct, mem_filter] at ha hb; simp only [decide_eq_true_eq] at ha hb; exact hb.2 ha.2

theorem expected_nodup (isIP : Bytes → Nat) (a : Answered) : (a.expected isIP).Nodup := by
  cases a with
  | literal host | one address => exact nodup_singleton _
  | all addresses => exact nodup_raceOrder isIP addresses

/-! ## The two lists -/

/-- What the two lists hold after some answers. -/
structure Sorted (isIP : Bytes → Nat) (addresses : List Target) (b : Buckets) : Prop where
  family : b.firstFamily = (((addresses.filter (Usable isIP)).head?.map Prod.snd).getD 0)
  first : b.first = distinct ((addresses.filter (Usable isIP)).filter (fun t => t.2 = b.firstFamily))
  second : b.second = distinct ((addresses.filter (Usable isIP)).filter (fun t => t.2 ≠ b.firstFamily))

variable {isIP : Bytes → Nat}

variable {b : Buckets} {addresses : List Target} {t : Target}

theorem usable_family (h : Usable isIP t = true) : t.2 = 4 ∨ t.2 = 6 := by
  simp only [Usable, Bool.and_eq_true, Bool.or_eq_true, decide_eq_true_eq] at h; exact h.2

theorem any_address {l : List Target} (hl : ∀ u ∈ l, u.2 = t.2) :
    l.any (fun probe => probe.1 = t.1) = true ↔ t ∈ l := by
  rw [List.any_eq_true]
  constructor
  · rintro ⟨u, hu, heq⟩
    have : u = t := Prod.ext (by simpa using heq) (hl u hu)
    exact this ▸ hu
  · intro ht; exact ⟨t, ht, by simp⟩

section

variable (h : Sorted isIP addresses b)
include h

theorem Sorted.none (hzero : b.firstFamily = 0) :
    addresses.filter (Usable isIP) = [] ∧ b.first = [] ∧ b.second = [] := by
  have hnil : addresses.filter (Usable isIP) = [] := by
    cases hu : addresses.filter (Usable isIP) with
    | nil => rfl
    | cons u us =>
      have hmem : u ∈ addresses.filter (Usable isIP) := by simp [hu]
      have hfamily := usable_family (mem_filter.1 hmem).2
      have := h.family; simp only [hu, head?_cons, map_some, getD_some] at this; omega
  refine ⟨hnil, ?_, ?_⟩
  · rw [h.first, hnil]; rfl
  · rw [h.second, hnil]; rfl

theorem Sorted.add_first
    (ht : Usable isIP t = true) (hzero : b.firstFamily = 0) :
    Sorted isIP (addresses ++ [t]) { first := [t], second := [], firstFamily := t.2 } := by
  have hfilter : (addresses ++ [t]).filter (Usable isIP) = [t] := by simp [filter_append, (h.none hzero).1, ht]
  constructor
  · simp [hfilter]
  · simp [hfilter, distinct]
  · simp [hfilter, distinct]

theorem Sorted.add_next
    (ht : Usable isIP t = true) (hzero : b.firstFamily ≠ 0) :
    Sorted isIP (addresses ++ [t])
      (if t.2 = b.firstFamily then
        if b.first.any (fun probe => probe.1 = t.1) then b else { b with first := b.first ++ [t] }
      else if b.second.any (fun probe => probe.1 = t.1) then b else { b with second := b.second ++ [t] }) := by
  obtain ⟨hfamily, hfirst, hsecond⟩ := h
  have hfilter : (addresses ++ [t]).filter (Usable isIP) = addresses.filter (Usable isIP) ++ [t] := by
    simp [filter_append, ht]
  have hhead : ((addresses ++ [t]).filter (Usable isIP)).head? = (addresses.filter (Usable isIP)).head? := by
    rw [hfilter]
    cases hu : addresses.filter (Usable isIP) with
    | nil => simp [hu] at hfamily; exact absurd hfamily hzero
    | cons u us => rfl
  have hfamily' : b.firstFamily = ((((addresses ++ [t]).filter (Usable isIP)).head?.map Prod.snd).getD 0) := by
    rw [hhead]; exact hfamily
  have husable : ∀ u ∈ addresses.filter (Usable isIP), u.2 = 4 ∨ u.2 = 6 :=
    fun u hu => usable_family (mem_filter.1 hu).2
  by_cases hf : t.2 = b.firstFamily
  · rw [if_pos hf]
    have hmem : b.first.any (fun probe => probe.1 = t.1) = true ↔ t ∈ b.first := by
      refine any_address (fun u hu => ?_)
      rw [hfirst, mem_distinct, mem_filter] at hu; rw [hf]; simpa using hu.2
    have hnew : distinct (((addresses ++ [t]).filter (Usable isIP)).filter (fun u => u.2 = b.firstFamily)) =
        if t ∈ b.first then b.first else b.first ++ [t] := by
      rw [hfilter, filter_append, filter_cons_of_pos (by simpa using hf), filter_nil, distinct_concat, ← hfirst]
      by_cases hm : t ∈ b.first
      · rw [if_pos hm, if_pos hm]
      · rw [if_neg hm, if_neg hm]
    have hold : distinct (((addresses ++ [t]).filter (Usable isIP)).filter (fun u => u.2 ≠ b.firstFamily)) = b.second := by
      rw [hfilter, filter_append, filter_cons_of_neg (by simpa using hf), filter_nil, append_nil, hsecond]
    split
    · next hany => exact ⟨hfamily', by rw [hnew, if_pos (hmem.1 hany)], hold.symm⟩
    · next hany => exact ⟨hfamily', by rw [hnew, if_neg (fun hm => hany (hmem.2 hm))], hold.symm⟩
  · rw [if_neg hf]
    have hmem : b.second.any (fun probe => probe.1 = t.1) = true ↔ t ∈ b.second := by
      refine any_address (fun u hu => ?_)
      rw [hsecond, mem_distinct, mem_filter] at hu
      have hu₁ := husable u hu.1
      have ht₁ := usable_family ht
      have hu₂ : u.2 ≠ b.firstFamily := by simpa using hu.2
      have hb : b.firstFamily = 4 ∨ b.firstFamily = 6 := by
        cases hv : addresses.filter (Usable isIP) with
        | nil => simp [hv] at hu
        | cons v vs =>
          rw [hv] at hfamily
          simp only [head?_cons, map_some, getD_some] at hfamily
          rw [hfamily]; exact husable v (by simp [hv])
      omega
    have hnew : distinct (((addresses ++ [t]).filter (Usable isIP)).filter (fun u => u.2 ≠ b.firstFamily)) =
        if t ∈ b.second then b.second else b.second ++ [t] := by
      rw [hfilter, filter_append, filter_cons_of_pos (by simpa using hf), filter_nil, distinct_concat, ← hsecond]
      by_cases hm : t ∈ b.second
      · rw [if_pos hm, if_pos hm]
      · rw [if_neg hm, if_neg hm]
    have hold : distinct (((addresses ++ [t]).filter (Usable isIP)).filter (fun u => u.2 = b.firstFamily)) = b.first := by
      rw [hfilter, filter_append, filter_cons_of_neg (by simpa using hf), filter_nil, append_nil, hfirst]
    split
    · next hany => exact ⟨hfamily', hold.symm, by rw [hnew, if_pos (hmem.1 hany)]⟩
    · next hany => exact ⟨hfamily', hold.symm, by rw [hnew, if_neg (fun hm => hany (hmem.2 hm))]⟩

theorem Sorted.add (t : Target) : Sorted isIP (addresses ++ [t]) (b.add isIP t) := by
  unfold Buckets.add
  split
  · next hbad =>
    have ht : Usable isIP t = false := by
      simp only [Usable, Bool.and_eq_false_iff, decide_eq_false_iff_not, Bool.or_eq_false_iff]
      obtain h0 | ⟨h4, h6⟩ := hbad
      · exact .inl (by simp [h0])
      · exact .inr ⟨h4, h6⟩
    have hfilter : (addresses ++ [t]).filter (Usable isIP) = addresses.filter (Usable isIP) := by
      simp [filter_append, ht]
    obtain ⟨hfamily, hfirst, hsecond⟩ := h
    exact ⟨by rw [hfilter]; exact hfamily, by rw [hfilter]; exact hfirst, by rw [hfilter]; exact hsecond⟩
  · next hgood =>
    have ht : Usable isIP t = true := by
      simp only [not_or, not_and_or, Decidable.not_not] at hgood
      simp only [Usable, Bool.and_eq_true, decide_eq_true_eq, Bool.or_eq_true]; exact hgood
    by_cases hzero : b.firstFamily = 0
    · obtain ⟨-, hfirst, hsecond⟩ := h.none hzero
      simp only [hzero, hfirst, hsecond, if_true, any_nil, nil_append]; exact h.add_first ht hzero
    · rw [if_neg hzero]; exact h.add_next ht hzero

end

theorem sorted_foldl (isIP : Bytes → Nat) (addresses : List Target) :
    Sorted isIP addresses (addresses.foldl (Buckets.add isIP) {}) := by
  induction addresses using List.reverseRecOn with
  | nil => exact ⟨rfl, rfl, rfl⟩
  | append_singleton addresses t ih => rw [foldl_append]; exact ih.add t

/-- **The targets of a call are those it should try.** -/
theorem targets_eq (isIP : Bytes → Nat) (a : Answered) : a.targets isIP = a.expected isIP := by
  cases a with
  | literal host | one address => rfl
  | all addresses =>
    have h := sorted_foldl isIP addresses
    simp only [Answered.targets, Answered.expected, raceOrder]; rw [h.first, h.second, h.family]

end NodeCompat.Net
