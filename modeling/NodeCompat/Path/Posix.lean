import NodeCompat.Path.Normalize

/-!
# POSIX paths

`normalize` and `join` of `path.posix`. A path that is not empty is the spelling of its stack with a slash before it
when it is absolute and one behind it when the path had one (`posixNormalize_eq`).
-/

namespace NodeCompat.Path

open List

open NodeCompat.DotFold

def posixNormalize (path : Text) : Text :=
  if path.length = 0 then [DOT]
  else
    let isAbsolute : Bool := path.head? = some FORWARD_SLASH
    let trailingSeparator : Bool := path.getLast? = some FORWARD_SLASH
    let normalized := normalizeString path (!isAbsolute)
    if normalized.length = 0 then
      if isAbsolute then [FORWARD_SLASH] else if trailingSeparator then [DOT, FORWARD_SLASH] else [DOT]
    else
      let normalized := if trailingSeparator then normalized ++ [FORWARD_SLASH] else normalized
      if isAbsolute then FORWARD_SLASH :: normalized else normalized

/-- One round of the loop of `posixJoinAll`; `none` is `undefined`. -/
def joinRound (joined : Option Text) (segment : Text) : Option Text :=
  if 0 < segment.length then
    match joined with
    | none => some segment
    | some joined => some (joined ++ FORWARD_SLASH :: segment)
  else joined

def posixJoinAll (paths : List Text) : Text :=
  if paths.length = 0 then [DOT]
  else
    match paths.foldl joinRound none with
    | none => [DOT]
    | some joined => posixNormalize joined

/-- The stack of a path, over the stack of what it is taken from. -/
abbrev posixFold (allowAboveRoot : Bool) (st : List Text) (path : Text) : List Text :=
  fold DOT isPosixPathSeparator allowAboveRoot st path

theorem normalizeString_eq (path : Text) (up : Bool) :
    normalizeString path up = spelled FORWARD_SLASH (posixFold up [] path) := posix.normalizeString_eq path up

theorem win32NormalizeString_eq (path : Text) (up : Bool) :
    win32NormalizeString path up = spelled BACKWARD_SLASH (fold DOT isWin32PathSeparator up [] path) :=
  win32.normalizeString_eq path up

/-! ## The normal form -/

/-- A normal path: its stack, whether it is absolute, and whether it ends in a slash. -/
def spell (isAbsolute trailingSeparator : Bool) (st : List Text) : Text :=
  if st = [] then if isAbsolute then [FORWARD_SLASH] else if trailingSeparator then [DOT, FORWARD_SLASH] else [DOT]
  else
    (if isAbsolute then [FORWARD_SLASH] else []) ++ spelled FORWARD_SLASH st ++ (if trailingSeparator then [FORWARD_SLASH] else [])

def isAbs (path : Text) : Bool := path.head? = some FORWARD_SLASH

def isTrailed (path : Text) : Bool := path.getLast? = some FORWARD_SLASH

variable {up a t : Bool} {st : List Text} {p q : Text}

theorem stacked_posixFold (up : Bool) (p : Text) : Stacked DOT isPosixPathSeparator up (posixFold up [] p) := Stacked.nil.fold p

theorem posixNormalize_eq (h : p ≠ []) : posixNormalize p = spell (isAbs p) (isTrailed p) (posixFold (!isAbs p) [] p) := by
  have hst := stacked_posixFold (!isAbs p) p
  have habs : decide (p.head? = some FORWARD_SLASH) = isAbs p := rfl
  have htrailed : decide (p.getLast? = some FORWARD_SLASH) = isTrailed p := rfl
  rw [posixNormalize, if_neg (fun e => h (length_eq_zero_iff.1 e))]
  simp only [habs, htrailed, normalizeString_eq, length_eq_zero_iff, spelled_eq_nil hst.ne_nil]
  unfold spell
  split
  · rfl
  · cases isAbs p <;> cases isTrailed p <;> simp

theorem sep_slash : isPosixPathSeparator FORWARD_SLASH = true := rfl

theorem sep_dot : isPosixPathSeparator DOT = false := rfl

theorem head_spelled_slash (h : Stacked DOT isPosixPathSeparator up st) : (spelled FORWARD_SLASH st).head? ≠ some FORWARD_SLASH := by
  intro e
  obtain ⟨q, hq, hc⟩ := head_spelled h.ne_nil e
  have := h.whole sep_dot q hq _ (mem_of_head? hc); rw [sep_slash] at this; cases this

theorem last_spelled_slash (h : Stacked DOT isPosixPathSeparator up st) :
    (spelled FORWARD_SLASH st).getLast? ≠ some FORWARD_SLASH := by
  cases st with
  | nil => simp [spelled_nil]
  | cons top st =>
    have htop : top.getLast? ≠ some FORWARD_SLASH := by
      intro e
      have := h.whole sep_dot top (by simp) _ (mem_of_getLast? e)
      rw [sep_slash] at this; cases this
    cases st with
    | nil => rwa [spelled_singleton]
    | cons next st =>
      have hne := h.ne_nil top (by simp)
      rwa [spelled_cons, getLast?_append_of_ne_nil _ (by simp), getLast?_cons_of_ne_nil hne]

theorem isAbs_append (h : p ≠ []) : isAbs (p ++ q) = isAbs p := by
  rw [isAbs, head?_append_of_ne_nil _ h, isAbs]

theorem isTrailed_append (h : q ≠ []) : isTrailed (p ++ q) = isTrailed q := by
  rw [isTrailed, getLast?_append_of_ne_nil _ h, isTrailed]

theorem spell_ne_nil (st : List Text) (h : Stacked DOT isPosixPathSeparator up st) : spell a t st ≠ [] := by
  unfold spell
  split
  · split
    · simp
    · split <;> simp
  · next hne => simp [spelled_ne_nil h.ne_nil hne]

section

variable (h : Stacked DOT isPosixPathSeparator up st)
include h

theorem isAbs_spell : isAbs (spell a t st) = a := by
  unfold spell
  split
  · cases a <;> cases t <;> rfl
  · next hne =>
    cases a with
    | true => rfl
    | false =>
      rw [if_neg (by decide), nil_append, isAbs_append (spelled_ne_nil h.ne_nil hne)]
      simpa [isAbs] using head_spelled_slash h

theorem isTrailed_spell (hroot : a = false ∨ st ≠ []) : isTrailed (spell a t st) = t := by
  unfold spell
  split
  · next hst =>
    obtain rfl := hroot.resolve_right (fun hne => hne hst)
    cases t <;> rfl
  · next hne =>
    cases t with
    | true => rw [isTrailed_append (by simp)]; rfl
    | false =>
      rw [if_neg (c := false = true) (by decide), append_nil, isTrailed_append (spelled_ne_nil h.ne_nil hne)]
      simpa [isTrailed] using last_spelled_slash h

theorem fold_spell (base : List Text) :
    posixFold up base (spell a t st) = st.reverse.foldl (enter DOT up) base := by
  unfold spell
  split
  · next hst =>
    subst hst
    cases a <;> cases t <;> simp [posixFold, fold, pieces, enter, splitOnP_cons_eq_if_modifyHead, isPosixPathSeparator, DOT,
      FORWARD_SLASH]
  · next hne =>
    have hmid : posixFold up base (spelled FORWARD_SLASH st) = st.reverse.foldl (enter DOT up) base := by
      rw [posixFold, fold, pieces_spelled sep_slash (h.whole sep_dot) hne]
    have hback : posixFold up base (spelled FORWARD_SLASH st ++ (if t then [FORWARD_SLASH] else [])) =
        st.reverse.foldl (enter DOT up) base := by
      cases t with
      | false => simpa using hmid
      | true => exact (fold_snoc sep_slash base _).trans hmid
    cases a with
    | false => simpa using hback
    | true => rw [if_pos rfl, append_assoc]; exact (fold_cons sep_slash base _).trans hback

end

theorem fold_posixNormalize (h : p ≠ []) : posixFold (!isAbs p) [] (posixNormalize p) = posixFold (!isAbs p) [] p := by
  have hst := stacked_posixFold (!isAbs p) p
  rw [posixNormalize_eq h, fold_spell hst, hst.foldl_enter_reverse]

theorem isAbs_posixNormalize (h : p ≠ []) : isAbs (posixNormalize p) = isAbs p := by
  rw [posixNormalize_eq h, isAbs_spell (stacked_posixFold _ p)]

theorem posixNormalize_ne_nil (p : Text) : posixNormalize p ≠ [] := by
  rcases eq_or_ne p [] with rfl | h
  · simp [posixNormalize]
  · rw [posixNormalize_eq h]; exact spell_ne_nil _ (stacked_posixFold _ p)

theorem posixNormalize_posixNormalize (p : Text) : posixNormalize (posixNormalize p) = posixNormalize p := by
  rcases eq_or_ne p [] with rfl | h
  · decide
  · have hst := stacked_posixFold (!isAbs p) p
    rw [posixNormalize_eq (posixNormalize_ne_nil p), isAbs_posixNormalize h, fold_posixNormalize h, posixNormalize_eq h]
    by_cases hroot : isAbs p = false ∨ posixFold (!isAbs p) [] p ≠ []
    · rw [isTrailed_spell hst hroot]
    · rw [not_or, not_not] at hroot; rw [hroot.2]; simp [spell, eq_true_of_ne_false hroot.1]

theorem pieces_spell (h : Stacked DOT isPosixPathSeparator up st) (hne : st ≠ []) : pieces isPosixPathSeparator (spell a t st) =
    (if a then [[]] else []) ++ st.reverse ++ (if t then [[]] else []) := by
  have hst := pieces_spelled sep_slash (h.whole sep_dot) hne
  have hback : ∀ s : Text, pieces isPosixPathSeparator (s ++ (if t then [FORWARD_SLASH] else [])) =
      pieces isPosixPathSeparator s ++ (if t then [[]] else []) := by
    intro s
    cases t with
    | false => simp
    | true => exact pieces_append sep_slash s []
  rw [spell, if_neg hne, hback]
  cases a with
  | false => simp [hst]
  | true =>
    have hfront : pieces isPosixPathSeparator ([FORWARD_SLASH] ++ spelled FORWARD_SLASH st) = [[]] ++ st.reverse :=
      (pieces_append sep_slash [] _).trans (congrArg ([[]] ++ ·) hst)
    rw [if_pos rfl, if_pos rfl, hfront]

theorem pieces_posixNormalize (p : Text) : ClimbsFirst (pieces isPosixPathSeparator (posixNormalize p)) ∧ isAbs p = false ∨
    [DOT, DOT] ∉ pieces isPosixPathSeparator (posixNormalize p) := by
  rcases eq_or_ne p [] with rfl | hp
  · exact .inr (by decide)
  have h := stacked_posixFold (!isAbs p) p
  rw [posixNormalize_eq hp]
  rcases eq_or_ne (posixFold (!isAbs p) [] p) [] with he | hne
  · rw [he]
    exact .inr (by cases isAbs p <;> cases isTrailed p <;> decide)
  · rw [pieces_spell h hne]
    cases habs : isAbs p with
    | true =>
      rw [habs] at h
      refine .inr ?_
      have hmem : [DOT, DOT] ∉ posixFold false [] p := fun hmem => (h.no_climb _ hmem).2.2 rfl
      cases isTrailed p <;> simpa using hmem
    | false =>
      rw [habs] at h
      obtain ⟨n, rest, hst, hrest⟩ := h.climbs_first
      refine .inl ⟨⟨n, rest ++ (if isTrailed p then [[]] else []), ?_, by cases isTrailed p <;> simpa using hrest⟩, rfl⟩
      rw [hst]; simp

/-- **A normal path is a fold of its segments**, on both systems: what climbs is in front of a relative path, and nowhere in an
absolute one. -/
theorem normalize_fold : (∀ path up, normalizeString path up =
      [FORWARD_SLASH].intercalate ((path.splitOnP isPosixPathSeparator).foldl (enter DOT up) []).reverse) ∧
    (∀ path up, win32NormalizeString path up =
      [BACKWARD_SLASH].intercalate ((path.splitOnP isWin32PathSeparator).foldl (enter DOT up) []).reverse) ∧
    (∀ path, [DOT, DOT] ∉ pieces isPosixPathSeparator (normalizeString path false)) ∧
    (∀ path, ClimbsFirst (pieces isPosixPathSeparator (normalizeString path true))) ∧
    (∀ path, [DOT, DOT] ∉ pieces isWin32PathSeparator (win32NormalizeString path false)) ∧
    (∀ path, ClimbsFirst (pieces isWin32PathSeparator (win32NormalizeString path true))) ∧
    (∀ path, if isAbs path then [DOT, DOT] ∉ pieces isPosixPathSeparator (posixNormalize path)
      else ClimbsFirst (pieces isPosixPathSeparator (posixNormalize path))) ∧
    ∀ path, posixNormalize (posixNormalize path) = posixNormalize path := by
  refine ⟨normalizeString_eq, win32NormalizeString_eq, posix.no_climb, fun p => posix.climbsFirst p true, win32.no_climb,
    fun p => win32.climbsFirst p true, fun p => ?_, posixNormalize_posixNormalize⟩
  obtain ⟨h, habs⟩ | h := pieces_posixNormalize p
  · simpa [habs] using h
  · split
    · exact h
    · exact ⟨0, _, rfl, h⟩

/-! ## Joining -/

/-- What the non-empty paths add to what is joined already. -/
def joinTail (paths : List Text) : Text := paths.flatMap fun segment => if segment = [] then [] else FORWARD_SLASH :: segment

theorem foldl_joinRound (paths : List Text) (joined : Text) :
    paths.foldl joinRound (some joined) = some (joined ++ joinTail paths) := by
  induction paths generalizing joined with
  | nil => simp [joinTail]
  | cons segment paths ih =>
    rw [foldl_cons, joinTail, flatMap_cons, ← joinTail, ← append_assoc]
    cases segment with
    | nil => simpa [joinRound] using ih joined
    | cons c segment => simpa [joinRound] using ih (joined ++ FORWARD_SLASH :: c :: segment)

theorem foldl_joinRound_none {paths : List Text} (h : ∃ s ∈ paths, s ≠ []) :
    ∃ joined, joined ≠ [] ∧ paths.foldl joinRound none = some joined := by
  induction paths with
  | nil => simp at h
  | cons segment paths ih =>
    rw [foldl_cons]
    cases segment with
    | nil => exact ih (by simpa using h)
    | cons c segment => exact ⟨_, by simp, foldl_joinRound paths (c :: segment)⟩

theorem joinTail_cases (paths : List Text) : joinTail paths = [] ∨ ∃ r, r ≠ [] ∧ joinTail paths = FORWARD_SLASH :: r := by
  induction paths with
  | nil => exact .inl rfl
  | cons segment paths ih =>
    cases segment with
    | nil => simpa [joinTail] using ih
    | cons c segment => exact .inr ⟨c :: segment ++ joinTail paths, by simp, by simp [joinTail]⟩

theorem posixNormalize_append (h : p ≠ []) (hq : q ≠ []) : posixNormalize (p ++ FORWARD_SLASH :: q) =
    spell (isAbs p) (isTrailed q) (posixFold (!isAbs p) (posixFold (!isAbs p) [] p) q) := by
  rw [posixNormalize_eq (append_ne_nil_of_left_ne_nil h _), isAbs_append h, isTrailed_append (cons_ne_nil _ _),
    ← singleton_append, isTrailed_append hq]
  exact congrArg _ (fold_append sep_slash [] p q)

theorem posixNormalize_front (h : p ≠ []) (hq : q ≠ []) :
    posixNormalize (posixNormalize p ++ FORWARD_SLASH :: q) = posixNormalize (p ++ FORWARD_SLASH :: q) := by
  rw [posixNormalize_append (posixNormalize_ne_nil p) hq, isAbs_posixNormalize h, fold_posixNormalize h, posixNormalize_append h hq]

/-- **Joining in two steps.** -/
theorem join_join (xs ys : List Text) (h : ∃ x ∈ xs, x ≠ []) :
    posixJoinAll (posixJoinAll xs :: ys) = posixJoinAll (xs ++ ys) := by
  obtain ⟨joined, hne, hjoined⟩ := foldl_joinRound_none h
  have hxs : xs.length ≠ 0 := by
    rintro e; rw [length_eq_zero_iff.1 e] at hjoined; cases hjoined
  have hfirst : posixJoinAll xs = posixNormalize joined := by rw [posixJoinAll, if_neg hxs, hjoined]
  have hround : joinRound none (posixNormalize joined) = some (posixNormalize joined) :=
    if_pos (length_pos_of_ne_nil (posixNormalize_ne_nil joined))
  rw [hfirst, posixJoinAll, if_neg (by simp), foldl_cons, hround, foldl_joinRound, posixJoinAll,
    if_neg (by simp [hxs]), foldl_append, hjoined, foldl_joinRound]
  dsimp only
  obtain hnil | ⟨r, hr, htail⟩ := joinTail_cases ys
  · rw [hnil, append_nil, append_nil, posixNormalize_posixNormalize]
  · rw [htail, posixNormalize_front hne hr]

/-- `a/..`, then `b`. -/
theorem join_join_up :
    posixJoinAll (posixJoinAll [[97], [46, 46]] :: [[98]]) = posixJoinAll ([[97], [46, 46]] ++ [[98]]) :=
  join_join [[97], [46, 46]] [[98]] (by decide)

end NodeCompat.Path
