import NodeCompat.Lib.Find
import NodeCompat.Lib.Utf8

/-!
# Strings of the program

A JavaScript string without lone surrogates is a list of Unicode scalar values, and the methods used on it are list
functions: `indexOf` is `find`, `slice` is `drop` and `take`. `latin1` and `ofLatin1` are `Buffer.toString('latin1')` and
`Buffer.from(text, 'latin1')`.
-/

namespace NodeCompat.Web

open List

variable {s sep : Text}

abbrev Text := List Char

/-- The characters of a string literal. -/
def chars (s : String) : Text := s.toList

/-- `"\r\n"` -/
def crlf : Text := ['\r', '\n']

/-- White space as `trim` takes it off. -/
def isSpace (c : Char) : Bool :=
  (0x09 ≤ c.toNat && c.toNat ≤ 0x0D) || c.toNat == 0x20 || c.toNat == 0xA0 || c.toNat == 0x1680 ||
    (0x2000 ≤ c.toNat && c.toNat ≤ 0x200A) || c.toNat == 0x2028 || c.toNat == 0x2029 || c.toNat == 0x202F ||
    c.toNat == 0x205F || c.toNat == 0x3000 || c.toNat == 0xFEFF

def trim (s : Text) : Text := (s.dropWhile isSpace).rdropWhile isSpace

/-- `toLowerCase`, on ASCII. The results are only compared with ASCII words without a `k`, and no other character has a
lower case in such a word. -/
def toLowerCase (s : Text) : Text := s.map Char.toLower

/-- `split`: the piece read so far, and how much of a separator is still to be passed over. -/
def splitGo (sep : Text) : Text → Nat → Text → List Text
  | piece, _, [] => [piece]
  | piece, skip + 1, _ :: s => splitGo sep piece skip s
  | piece, 0, c :: s =>
    if sep <+: c :: s then piece :: splitGo sep [] (sep.length - 1) s else splitGo sep (piece ++ [c]) 0 s

/-- `s.split(sep)`, for a separator that is not empty. -/
def split (sep s : Text) : List Text := splitGo sep [] 0 s

/-- `pieces.join(sep)` -/
def join (sep : Text) : List Text → Text
  | [] => []
  | [p] => p
  | p :: q :: ps => p ++ sep ++ join sep (q :: ps)

def latin1 (bs : List UInt8) : Text := bs.map (fun b => Char.ofNat b.toNat)

/-- The low byte of every code point. -/
def ofLatin1 (s : Text) : List UInt8 := s.map (fun c => UInt8.ofNat c.toNat)

theorem ofLatin1_latin1 (bs : List UInt8) : ofLatin1 (latin1 bs) = bs := by
  have hbyte : ∀ b : UInt8, UInt8.ofNat (Char.ofNat b.toNat).toNat = b := by
    intro b
    have hb : b.toNat < 256 := b.toNat_lt
    have hv : b.toNat.isValidChar := Or.inl (by omega)
    rw [Char.ofNat, dif_pos hv]; exact UInt8.ofNat_toNat
  simp [ofLatin1, latin1, Function.comp_def, hbyte]

/-! ## Splitting and trimming -/

theorem splitGo_skip (sep piece : Text) : ∀ (skip : Nat) (s : Text),
    splitGo sep piece skip s = splitGo sep piece 0 (s.drop skip)
  | 0, s => rfl
  | skip + 1, [] => by simp [splitGo]
  | skip + 1, c :: s => by rw [splitGo, drop_succ_cons]; exact splitGo_skip sep piece skip s

/-- The pieces of a string are what stands before the first separator and the pieces of the rest. -/
theorem splitGo_find (hsep : sep ≠ []) : ∀ (s piece : Text), splitGo sep piece 0 s =
    match find sep s with
    | none => [piece ++ s]
    | some i => (piece ++ s.take i) :: split sep (s.drop (i + sep.length))
  | [], piece => by simp [find, hsep, splitGo]
  | c :: s, piece => by
    by_cases hp : sep <+: c :: s
    · rw [splitGo, if_pos hp, find_zero hp, splitGo_skip]
      obtain ⟨n, hn⟩ : ∃ n, sep.length = n + 1 := ⟨sep.length - 1, by have := length_pos_iff.2 hsep; omega⟩
      simp [hn, split]
    · rw [splitGo, if_neg hp, find_cons_of_not hp, splitGo_find hsep s (piece ++ [c])]
      cases find sep s with
      | none => simp
      | some i =>
        have : i + 1 + sep.length = i + sep.length + 1 := by omega
        simp [this]

theorem split_none (hsep : sep ≠ []) (h : find sep s = none) : split sep s = [s] := by
  rw [split, splitGo_find hsep, h]; rfl

theorem split_some {i : Nat} (hsep : sep ≠ []) (h : find sep s = some i) :
    split sep s = s.take i :: split sep (s.drop (i + sep.length)) := by
  rw [split, splitGo_find hsep, h]; rfl

theorem join_splitGo (c : Char) (r : Text) : ∀ (s piece : Text),
    join r (splitGo [c] piece 0 s) = piece ++ s.flatMap (fun d => if d = c then r else [d])
  | [], piece => by simp [splitGo, join]
  | d :: s, piece => by
    rw [splitGo, flatMap_cons]
    by_cases hd : d = c
    · subst hd
      have hne : ∃ p ps, splitGo [d] [] 0 s = p :: ps := by
        rw [splitGo_find (by simp)]
        split <;> exact ⟨_, _, rfl⟩
      obtain ⟨p, ps, hp⟩ := hne
      have ih := join_splitGo d r s []
      rw [hp] at ih
      rw [if_pos (by simp), if_pos rfl, length_singleton, Nat.sub_self, hp, join, ih]; simp
    · rw [if_neg (by simpa using fun h => hd h.symm), if_neg hd, join_splitGo c r s (piece ++ [d])]
      simp

theorem join_split (c : Char) (r s : Text) :
    join r (split [c] s) = s.flatMap (fun d => if d = c then r else [d]) := join_splitGo c r s []

theorem split_append {c : Char} {a : Text} (h : c ∉ a) (b : Text) : split [c] (a ++ c :: b) = a :: split [c] b := by
  rw [split_some (by simp) (find_single h), take_left]; simp

theorem split_separator (c : Char) (s : Text) : split [c] (c :: s) = [] :: split [c] s :=
  split_append (not_mem_nil) s

theorem split_not_mem {c : Char} (h : c ∉ s) : split [c] s = [s] :=
  split_none (by simp) (find_not_mem h)

theorem split_join {c : Char} : ∀ {ps : List Text}, ps ≠ [] → (∀ p ∈ ps, c ∉ p) → split [c] (join [c] ps) = ps
  | [], h, _ => absurd rfl h
  | [p], _, hc => split_not_mem (hc p (by simp))
  | p :: q :: ps, _, hc => by
    rw [join, append_assoc, singleton_append, split_append (hc p (by simp)),
      split_join (by simp) (fun p' hp' => hc p' (mem_cons_of_mem _ hp'))]

theorem join_split_self (c : Char) (s : Text) : join [c] (split [c] s) = s := by
  rw [join_split]
  induction s with
  | nil => rfl
  | cons d s ih =>
    rw [flatMap_cons, ih]
    split
    · next h => rw [h]; rfl
    · rfl

theorem split_append_split {c : Char} (b : Text) : ∀ (n : Nat) (a : Text), a.length = n →
    split [c] (a ++ c :: b) = split [c] a ++ split [c] b := by
  intro n
  induction n using Nat.strongRecOn with
  | ind n ih =>
    intro a hn
    cases hf : find [c] a with
    | none => rw [split_append (not_mem_of_find hf), split_none (by simp) hf, singleton_append]
    | some i =>
      obtain ⟨ha, hc⟩ := find_cut hf
      have hlen := find_le hf
      simp only [length_singleton] at hlen
      have htail := ih (a.drop (i + 1)).length (by rw [length_drop]; omega) _ rfl
      have hleft := split_append hc (a.drop (i + 1) ++ c :: b)
      have hright := split_append hc (a.drop (i + 1))
      rw [← cons_append, ← append_assoc, ← ha] at hleft
      rw [← ha] at hright; rw [hleft, hright, htail, cons_append]

theorem not_mem_split (c : Char) : ∀ (n : Nat) (s : Text), s.length = n → ∀ p ∈ split [c] s, c ∉ p := by
  intro n
  induction n using Nat.strongRecOn with
  | ind n ih =>
    intro s hn p hp
    cases hf : find [c] s with
    | none =>
      rw [split_none (by simp) hf, mem_singleton] at hp; subst hp; exact not_mem_of_find hf
    | some i =>
      obtain ⟨hs, hc⟩ := find_cut hf
      rw [split_some (by simp) hf, mem_cons] at hp
      rcases hp with rfl | hp
      · exact hc
      · have hlen := find_le hf
        simp only [length_singleton] at hlen
        exact ih (s.drop (i + 1)).length (by rw [length_drop]; omega) _ rfl p hp

theorem mem_join {c : Char} : ∀ {ps : List Text}, c ∈ join sep ps → c ∈ sep ∨ ∃ p ∈ ps, c ∈ p
  | [], h => by cases h
  | [p], h => .inr ⟨p, by simp, h⟩
  | p :: q :: ps, h => by
    rw [join, mem_append, mem_append] at h
    rcases h with (h | h) | h
    · exact .inr ⟨p, by simp, h⟩
    · exact .inl h
    · rcases mem_join h with h | ⟨p', hp', h⟩
      · exact .inl h
      · exact .inr ⟨p', mem_cons_of_mem _ hp', h⟩

theorem splitGo_subset (sep : Text) : ∀ (s piece : Text) (skip : Nat), ∀ p ∈ splitGo sep piece skip s, p ⊆ piece ++ s
  | [], piece, skip, p, h => by
    rw [splitGo, mem_singleton] at h; rw [h]; exact subset_append_left _ _
  | c :: s, piece, skip + 1, p, h => by
    have ih := splitGo_subset sep s piece skip p h
    refine Subset.trans ih (append_subset.2 ⟨subset_append_left _ _, ?_⟩)
    exact Subset.trans (subset_cons_self c s) (subset_append_right _ _)
  | c :: s, piece, 0, p, h => by
    rw [splitGo] at h
    split at h
    · obtain rfl | h := mem_cons.1 h
      · exact subset_append_left _ _
      · have ih := splitGo_subset sep s [] _ p h
        exact Subset.trans ih (Subset.trans (subset_cons_self c s) (subset_append_right _ _))
    · have ih := splitGo_subset sep s (piece ++ [c]) 0 p h; rwa [append_assoc] at ih

theorem split_subset {p : Text} (h : p ∈ split sep s) : p ⊆ s := splitGo_subset sep s [] 0 p h

/-! ## Replacing -/

theorem join_splitGo_piece (hsep : sep ≠ []) (r piece s : Text) :
    join r (splitGo sep piece 0 s) = piece ++ join r (split sep s) := by
  rw [split, splitGo_find hsep, splitGo_find hsep]
  cases find sep s with
  | none => rfl
  | some i =>
    obtain ⟨p, ps, hp⟩ : ∃ p ps, split sep (s.drop (i + sep.length)) = p :: ps := by
      rw [split, splitGo_find hsep]
      split <;> exact ⟨_, _, rfl⟩
    dsimp only; rw [hp, join, join]; simp

theorem replace_here (hsep : sep ≠ []) (r s : Text) :
    join r (split sep (sep ++ s)) = r ++ join r (split sep s) := by
  have hf : find sep (sep ++ s) = some 0 := find_zero (prefix_append _ _)
  rw [split_some hsep hf, Nat.zero_add, drop_left, take_zero]
  obtain ⟨p, ps, hp⟩ : ∃ p ps, split sep s = p :: ps := by
    rw [split, splitGo_find hsep]
    split <;> exact ⟨_, _, rfl⟩
  rw [hp, join, nil_append]

theorem replace_skip (hsep : sep ≠ []) (r : Text) {c : Char} (h : ¬ sep <+: c :: s) :
    join r (split sep (c :: s)) = c :: join r (split sep s) := by
  rw [split, splitGo, if_neg h, nil_append, join_splitGo_piece hsep]; rfl

theorem replace_not_mem {c : Char} (h : c ∉ s) (r : Text) : s.flatMap (fun d => if d = c then r else [d]) = s := by
  rw [← join_split, split_not_mem h, join]

/-- A string that neither begins nor ends with white space is left alone, up to the blank before it. -/
theorem trim_blank {c d : Char} (hc : isSpace c = false) (hd : isSpace d = false) (hs : s.head? = some c)
    (hl : s.getLast? = some d) : trim (' ' :: s) = s := by
  obtain ⟨t, rfl⟩ : ∃ t, s = c :: t := head?_eq_some_iff.1 hs
  obtain ⟨u, hu⟩ : ∃ u, c :: t = u ++ [d] := getLast?_eq_some_iff.1 hl
  have hspace : isSpace ' ' = true := by decide
  rw [trim, dropWhile_cons_of_pos hspace, dropWhile_cons_of_neg (by simp [hc]), hu,
    rdropWhile_concat_neg _ _ _ (by simp [hd])]

end NodeCompat.Web
