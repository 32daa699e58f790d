import NodeCompat.Path.Posix
import Mathlib.Data.List.Induction

/-!
# `posix.resolve` and `posix.relative`

A resolved path is a slash and the spelling of a stack, and resolving against it goes on from its stack (`resolve_walk`).
`relative` works on offsets: it finds the last separator that the two resolved paths have in common (`commonSep_eq`), climbs as
often as there are segments behind it, and goes on with what the other path has there. So it leads from the one stack to the
other (`leads_relative`).
-/

namespace NodeCompat.Path

open List

open NodeCompat.DotFold

variable {f t : List Text} {x y z : Text}

def posixCwd (windowsHost : Bool) (cwd : Text) : Text :=
  if windowsHost then
    let spelled := cwd.map fun c => if c = BACKWARD_SLASH then FORWARD_SLASH else c
    -- `slice(-1)` where there is no slash at all.
    spelled.drop (if FORWARD_SLASH ∈ spelled then spelled.idxOf FORWARD_SLASH else spelled.length - 1)
  else cwd

/-- The loop of `posixResolveAll`, over the paths from the last one to the current directory. -/
def resolveLoop : List Text → Text → Bool → Text × Bool
  | [], resolvedPath, resolvedAbsolute => (resolvedPath, resolvedAbsolute)
  | path :: paths, resolvedPath, resolvedAbsolute =>
    if resolvedAbsolute then (resolvedPath, resolvedAbsolute)
    else if path.length = 0 then resolveLoop paths resolvedPath resolvedAbsolute
    else resolveLoop paths (path ++ FORWARD_SLASH :: resolvedPath) (path.head? = some FORWARD_SLASH)

def posixResolveAll (windowsHost : Bool) (cwd : Text) (paths : List Text) : Text :=
  let (resolvedPath, resolvedAbsolute) := resolveLoop (paths.reverse ++ [posixCwd windowsHost cwd]) [] false
  let resolvedPath := normalizeString resolvedPath (!resolvedAbsolute)
  if resolvedAbsolute then FORWARD_SLASH :: resolvedPath else if 0 < resolvedPath.length then resolvedPath else [DOT]

/-- The loop that counts the common codes in `i`; it stops with `i === length` when one of the two is through. -/
def commonSep : Text → Text → Nat → Int → Nat × Int
  | fromCode :: fs, toCode :: ts, i, lastCommonSep =>
    if fromCode ≠ toCode then (i, lastCommonSep)
    else commonSep fs ts (i + 1) (if fromCode = FORWARD_SLASH then i else lastCommonSep)
  | _, _, i, lastCommonSep => (i, lastCommonSep)

def addUp (out : Text) : Text := out ++ (if out.length = 0 then [DOT, DOT] else [FORWARD_SLASH, DOT, DOT])

/-- The rounds from `j` up to `fromEnd`, over the codes that are left. -/
def upLoop : Text → Text → Text
  | [], out => addUp out
  | code :: codes, out => upLoop codes (if code = FORWARD_SLASH then addUp out else out)

/-- What is returned at the end. -/
def relativeOut (resolvedFrom resolvedTo : Text) (lastCommonSep : Int) : Text :=
  (if (resolvedFrom.length : Int) < 1 + lastCommonSep + 1 then []
    else upLoop (resolvedFrom.drop (1 + lastCommonSep + 1).toNat) []) ++ resolvedTo.drop (1 + lastCommonSep).toNat

def relativeOf (resolvedFrom resolvedTo : Text) : Text :=
  let fromLen := resolvedFrom.length - 1
  let toLen := resolvedTo.length - 1
  let length := if fromLen < toLen then fromLen else toLen
  let (i, lastCommonSep) := commonSep (resolvedFrom.drop 1) (resolvedTo.drop 1) 0 (-1)
  if i = length then
    if length < toLen then
      if resolvedTo[1 + i]? = some FORWARD_SLASH then resolvedTo.drop (1 + i + 1)
      else if i = 0 then resolvedTo.drop (1 + i)
      else relativeOut resolvedFrom resolvedTo lastCommonSep
    else if length < fromLen then
      if resolvedFrom[1 + i]? = some FORWARD_SLASH then relativeOut resolvedFrom resolvedTo i
      else if i = 0 then relativeOut resolvedFrom resolvedTo 0
      else relativeOut resolvedFrom resolvedTo lastCommonSep
    else relativeOut resolvedFrom resolvedTo lastCommonSep
  else relativeOut resolvedFrom resolvedTo lastCommonSep

def posixRelative (windowsHost : Bool) (cwd fromPath toPath : Text) : Text :=
  if fromPath = toPath then []
  else
    let resolvedFrom := posixResolveAll windowsHost cwd [fromPath]
    let resolvedTo := posixResolveAll windowsHost cwd [toPath]
    if resolvedFrom = resolvedTo then [] else relativeOf resolvedFrom resolvedTo

/-! ## Resolving -/

/-- The stack of the resolved path. -/
def stackOf (cwd path : Text) : List Text := posixFold false (if isAbs path then [] else posixFold false [] cwd) path

theorem stacked_stackOf (cwd path : Text) : Stacked DOT isPosixPathSeparator false (stackOf cwd path) := by
  unfold stackOf
  split
  · exact stacked_posixFold false path
  · exact (stacked_posixFold false cwd).fold path

theorem posixFold_append (st : List Text) (x y : Text) :
    posixFold false st (x ++ FORWARD_SLASH :: y) = posixFold false (posixFold false st x) y := fold_append sep_slash st x y

theorem posixFold_nil (st : List Text) : posixFold false st [] = st := fold_nil st

theorem resolveLoop_cons (path : Text) (paths : List Text) (resolvedPath : Text) :
    resolveLoop (path :: paths) resolvedPath false =
      if path = [] then resolveLoop paths resolvedPath false
      else if isAbs path then (path ++ FORWARD_SLASH :: resolvedPath, true)
      else resolveLoop paths (path ++ FORWARD_SLASH :: resolvedPath) false := by
  have habs : decide (path.head? = some FORWARD_SLASH) = isAbs path := rfl
  rw [resolveLoop, if_neg Bool.false_ne_true]
  simp only [length_eq_zero_iff, habs]
  split
  · rfl
  · split
    · next h =>
      rw [h]
      cases paths <;> simp [resolveLoop]
    · next h => rw [eq_false_of_ne_true h]

theorem resolveLoop_stack {cwd : Text} (hcwd : isAbs cwd = true) (path resolvedPath : Text) :
    ∃ r, resolveLoop [path, cwd] resolvedPath false = (r, true) ∧
      posixFold false [] r = posixFold false (stackOf cwd path) resolvedPath := by
  have hne : cwd ≠ [] := fun e => by simp [e, isAbs] at hcwd
  rw [resolveLoop_cons, resolveLoop_cons, resolveLoop_cons, if_neg hne, if_pos hcwd, if_neg hne, if_pos hcwd, stackOf]
  split
  · next h => exact ⟨_, rfl, by rw [posixFold_append, h]; simp [isAbs, posixFold_nil]⟩
  · split
    · exact ⟨_, rfl, posixFold_append [] _ _⟩
    · exact ⟨_, rfl, by rw [posixFold_append, posixFold_append]⟩

theorem resolve_of_loop {cwd r : Text} {paths : List Text} (h : resolveLoop (paths.reverse ++ [cwd]) [] false = (r, true)) :
    posixResolveAll false cwd paths = FORWARD_SLASH :: spelled FORWARD_SLASH (posixFold false [] r) := by
  have hcwd : posixCwd false cwd = cwd := rfl
  rw [posixResolveAll, hcwd, h]; exact congrArg (FORWARD_SLASH :: ·) (normalizeString_eq r false)

theorem resolve_one {cwd : Text} (hcwd : isAbs cwd = true) (path : Text) :
    posixResolveAll false cwd [path] = FORWARD_SLASH :: spelled FORWARD_SLASH (stackOf cwd path) := by
  obtain ⟨r, hr, hfold⟩ := resolveLoop_stack hcwd path []
  rw [@resolve_of_loop cwd r [path] hr, hfold, posixFold_nil]

theorem resolve_two {cwd : Text} (hcwd : isAbs cwd = true) (path : Text) {next : Text} (hnext : isAbs next = false) :
    posixResolveAll false cwd [path, next] =
      FORWARD_SLASH :: spelled FORWARD_SLASH (posixFold false (stackOf cwd path) next) := by
  have hloop : resolveLoop ([path, next].reverse ++ [cwd]) [] false =
      resolveLoop [path, cwd] (if next = [] then [] else next ++ [FORWARD_SLASH]) false := by
    show resolveLoop (next :: [path, cwd]) [] false = _
    rw [resolveLoop_cons, hnext]
    split <;> rfl
  obtain ⟨r, hr, hfold⟩ := resolveLoop_stack hcwd path (if next = [] then [] else next ++ [FORWARD_SLASH])
  rw [@resolve_of_loop cwd r [path, next] (hloop.trans hr), hfold]
  split
  · next h => rw [h]
  · exact congrArg (fun st => FORWARD_SLASH :: spelled FORWARD_SLASH st) (fold_snoc sep_slash _ next)

/-! ## The common part -/

theorem lastIndexOf_snoc (s : Text) (c : UInt16) :
    lastIndexOf (s ++ [c]) FORWARD_SLASH = if c = FORWARD_SLASH then (s.length : Int) else lastIndexOf s FORWARD_SLASH := by
  unfold lastIndexOf
  rw [reverse_append, reverse_singleton, singleton_append, length_append, length_singleton]
  by_cases hc : c = FORWARD_SLASH
  · simp [hc]
  · rw [if_neg hc, idxOf_cons_ne _ hc]; omega

theorem commonSep_eq (a b seen : Text) : ∃ p a' b', a = p ++ a' ∧ b = p ++ b' ∧
    (a' = [] ∨ b' = [] ∨ a'.head? ≠ b'.head?) ∧
    commonSep a b seen.length (lastIndexOf seen FORWARD_SLASH) =
      ((seen ++ p).length, lastIndexOf (seen ++ p) FORWARD_SLASH) := by
  induction a generalizing b seen with
  | nil => exact ⟨[], [], b, rfl, rfl, .inl rfl, by simp [commonSep]⟩
  | cons c a ih =>
    cases b with
    | nil => exact ⟨[], c :: a, [], rfl, rfl, .inr (.inl rfl), by simp [commonSep]⟩
    | cons d b =>
      by_cases hcd : c = d
      · subst hcd
        obtain ⟨p, a', b', ha, hb, hstop, hrun⟩ := ih b (seen ++ [c])
        refine ⟨c :: p, a', b', by rw [ha]; rfl, by rw [hb]; rfl, hstop, ?_⟩
        rw [lastIndexOf_snoc, length_append, length_singleton] at hrun
        rw [commonSep, if_neg (not_not.2 rfl), hrun, append_assoc, singleton_append]
      · exact ⟨[], c :: a, d :: b, rfl, rfl, .inr (.inr (by simpa using hcd)), by simp [commonSep, hcd]⟩

theorem lastIndexOf_cases (p : Text) : lastIndexOf p FORWARD_SLASH = -1 ∨
    ∃ x y, p = x ++ FORWARD_SLASH :: y ∧ lastIndexOf p FORWARD_SLASH = x.length := by
  induction p using List.reverseRecOn with
  | nil => exact .inl rfl
  | append_singleton p c ih =>
    rw [lastIndexOf_snoc]
    split
    · next hc => exact .inr ⟨p, [], by rw [hc], rfl⟩
    · obtain h | ⟨x, y, rfl, h⟩ := ih
      · exact .inl h
      · exact .inr ⟨x, y ++ [c], by simp, h⟩

/-! ## Climbing -/

/-- `n` segments `..`. -/
def ups (n : Nat) : Text := spelled FORWARD_SLASH (List.replicate n [DOT, DOT])

theorem ups_ne_nil (n : Nat) : ups (n + 1) ≠ [] := spelled_ne_nil (by simp) (by simp)

theorem addUp_ups (n : Nat) : addUp (ups n) = ups (n + 1) := by
  cases n with
  | zero => rfl
  | succ n =>
    rw [addUp, if_neg (fun e => ups_ne_nil n (length_eq_zero_iff.1 e)), ups, ups, replicate_succ, replicate_succ,
      replicate_succ, spelled_cons]

theorem upLoop_ups (codes : Text) (n : Nat) :
    upLoop codes (ups n) = ups (n + (pieces isPosixPathSeparator codes).length) := by
  induction codes generalizing n with
  | nil => exact addUp_ups n
  | cons c codes ih =>
    rw [upLoop, pieces, splitOnP_cons_eq_if_modifyHead]
    by_cases hc : c = FORWARD_SLASH
    · rw [if_pos hc, if_pos (by simp [isPosixPathSeparator, hc]), addUp_ups, ih, length_cons, pieces]
      congr 1
      omega
    · rw [if_neg hc, if_neg (by simp [isPosixPathSeparator, hc]), ih, length_modifyHead, pieces]

theorem fold_ups (h : Stacked DOT isPosixPathSeparator false (y :: f ++ t)) :
    posixFold false (y :: f ++ t) (ups (f.length + 1)) = t := by
  have hpieces : pieces isPosixPathSeparator (ups (f.length + 1)) = List.replicate (y :: f).length [DOT, DOT] := by
    rw [ups, pieces_spelled sep_slash (fun q hq => by simp [eq_of_mem_replicate hq, Whole, sep_dot]) (by simp),
      reverse_replicate, length_cons]
  rw [posixFold, fold, hpieces]
  exact foldl_pop (fun q hq => (h.no_climb q (mem_append_left _ hq)).2.2) t

/-! ## From one stack to the other -/

/-- `out` is relative, and leads from the one stack to the other. -/
def Leads (f t : List Text) (out : Text) : Prop := isAbs out = false ∧ posixFold false f out = t

theorem split_stack (h : Stacked DOT isPosixPathSeparator false f) (hf : spelled FORWARD_SLASH f = x ++ FORWARD_SLASH :: y) :
    ∃ top, f = top ++ posixFold false [] x ∧ top.length = (pieces isPosixPathSeparator y).length := by
  have hne : f ≠ [] := by
    rintro rfl; simp [spelled_nil] at hf
  have hp := pieces_spelled sep_slash (h.whole sep_dot) hne
  rw [hf, pieces_append sep_slash] at hp
  have hsplit : f = (pieces isPosixPathSeparator y).reverse ++ (pieces isPosixPathSeparator x).reverse := by
    rw [← reverse_append, hp, reverse_reverse]
  have hbottom : ∀ {top bottom : List Text}, Stacked DOT isPosixPathSeparator false (top ++ bottom) →
      Stacked DOT isPosixPathSeparator false bottom := by
    intro top bottom hs
    induction top with
    | nil => exact hs
    | cons q top ih => exact ih hs.tail
  refine ⟨_, ?_, length_reverse⟩
  have := (hbottom (hsplit ▸ h)).foldl_enter_reverse
  rw [reverse_reverse] at this; rw [posixFold, fold, this]; exact hsplit

theorem pieces_length_pos (y : Text) : 0 < (pieces isPosixPathSeparator y).length :=
  length_pos_of_ne_nil (splitOnP_ne_nil _ _)

theorem isAbs_ups (n : Nat) (s : Text) : isAbs (ups (n + 1) ++ s) = false := by
  rw [isAbs_append (ups_ne_nil n)]
  cases n with
  | zero => rfl
  | succ n =>
    have hst : Stacked DOT isPosixPathSeparator true (List.replicate (n + 2) [DOT, DOT]) := by
      induction n + 2 with
      | zero => exact .nil
      | succ k ih => exact .climb rfl (fun q hq => eq_of_mem_replicate hq) ih
    exact decide_eq_false (head_spelled_slash hst)

/-- What is returned at the end climbs from the one stack and goes on with what is left of the other. -/
theorem leads_climb {top bottom : List Text} (h : Stacked DOT isPosixPathSeparator false f) (hf : f = top ++ bottom)
    (hy : top.length = (pieces isPosixPathSeparator y).length)
    (hz : z = [] ∧ bottom = t ∨ ∃ r, z = FORWARD_SLASH :: r ∧ posixFold false bottom r = t) :
    Leads f t (upLoop y [] ++ z) := by
  obtain ⟨q, top, rfl⟩ : ∃ q rest, top = q :: rest := exists_cons_of_length_pos (hy ▸ pieces_length_pos y)
  have hups : upLoop y [] = ups (top.length + 1) := by
    rw [show ([] : Text) = ups 0 from rfl, upLoop_ups, Nat.zero_add, ← hy, length_cons]
  rw [hups]
  refine ⟨isAbs_ups _ _, ?_⟩
  subst hf
  obtain ⟨rfl, rfl⟩ | ⟨r, rfl, hr⟩ := hz
  · rw [append_nil]; exact fold_ups h
  · rw [posixFold_append, fold_ups h, hr]

theorem relativeOut_eq (a b : Text) (n : Nat) (hn : n ≤ a.length) :
    relativeOut (FORWARD_SLASH :: a) (FORWARD_SLASH :: b) (n - 1) = upLoop (a.drop n) [] ++ (FORWARD_SLASH :: b).drop n := by
  rw [relativeOut, length_cons, if_neg (by omega), show (1 + ((n : Int) - 1) + 1).toNat = n + 1 by omega,
    show (1 + ((n : Int) - 1)).toNat = n by omega, drop_succ_cons]

theorem drop_behind (x y : Text) (c : UInt16) : (x ++ c :: y).drop (x.length + 1) = y := by simp

theorem leads_common (hf : Stacked DOT isPosixPathSeparator false f) (ht : Stacked DOT isPosixPathSeparator false t)
    {p a b : Text} (ha : spelled FORWARD_SLASH f = p ++ a) (hb : spelled FORWARD_SLASH t = p ++ b) (hne : f ≠ []) :
    Leads f t (relativeOut (FORWARD_SLASH :: spelled FORWARD_SLASH f) (FORWARD_SLASH :: spelled FORWARD_SLASH t)
      (lastIndexOf p FORWARD_SLASH)) := by
  have htfold : posixFold false [] (spelled FORWARD_SLASH t) = t := ht.fold_spelled sep_slash sep_dot
  obtain h | ⟨x, y, rfl, h⟩ := lastIndexOf_cases p
  · have hout := relativeOut_eq (spelled FORWARD_SLASH f) (spelled FORWARD_SLASH t) 0 (Nat.zero_le _)
    rw [h, show (-1 : Int) = (0 : Nat) - 1 from rfl, hout, drop_zero, drop_zero]
    refine leads_climb hf (append_nil f).symm ?_ (.inr ⟨_, rfl, htfold⟩)
    rw [pieces_spelled sep_slash (hf.whole sep_dot) hne, length_reverse]
  · rw [append_assoc, cons_append] at ha hb
    have hout := relativeOut_eq (spelled FORWARD_SLASH f) (spelled FORWARD_SLASH t) (x.length + 1) (by rw [ha]; simp)
    rw [h, show (x.length : Int) = (x.length + 1 : Nat) - 1 by omega, hout, drop_succ_cons]
    obtain ⟨top, hsplit, hlen⟩ := split_stack hf ha
    have hdrop : (spelled FORWARD_SLASH f).drop (x.length + 1) = y ++ a := ha ▸ drop_behind _ _ _
    rw [hdrop, hb, drop_left]
    exact leads_climb hf hsplit hlen (.inr ⟨_, rfl, by rw [← posixFold_append, ← hb, htfold]⟩)

theorem leads_down (hf : Stacked DOT isPosixPathSeparator false f) (ht : Stacked DOT isPosixPathSeparator false t) {r : Text}
    (hr : spelled FORWARD_SLASH t = spelled FORWARD_SLASH f ++ FORWARD_SLASH :: r) : Leads f t r := by
  have hfold : posixFold false f r = t := by
    have h : posixFold false [] (spelled FORWARD_SLASH t) = t := ht.fold_spelled sep_slash sep_dot
    rwa [hr, posixFold_append, posixFold, posixFold, hf.fold_spelled sep_slash sep_dot] at h
  refine ⟨eq_false_of_ne_true fun habs => ?_, hfold⟩
  obtain ⟨r, rfl⟩ := head?_eq_some_iff.1 (of_decide_eq_true habs)
  have htne : t ≠ [] := by
    rintro rfl; simp [spelled_nil] at hr
  have hmem : [] ∈ t.reverse := by
    rw [← pieces_spelled sep_slash (ht.whole sep_dot) htne, hr, pieces_append sep_slash,
      show FORWARD_SLASH :: r = [] ++ FORWARD_SLASH :: r from rfl, pieces_append sep_slash]
    simp [pieces]
  exact ht.ne_nil [] (mem_reverse.1 hmem) rfl

theorem leads_up (hf : Stacked DOT isPosixPathSeparator false f) (ht : Stacked DOT isPosixPathSeparator false t) {r : Text}
    (hr : spelled FORWARD_SLASH f = spelled FORWARD_SLASH t ++ FORWARD_SLASH :: r) :
    Leads f t (relativeOut (FORWARD_SLASH :: spelled FORWARD_SLASH f) (FORWARD_SLASH :: spelled FORWARD_SLASH t)
      (spelled FORWARD_SLASH t).length) := by
  have htfold : posixFold false [] (spelled FORWARD_SLASH t) = t := ht.fold_spelled sep_slash sep_dot
  obtain ⟨top, hsplit, hlen⟩ := split_stack hf hr
  have hdrop : (spelled FORWARD_SLASH f).drop ((spelled FORWARD_SLASH t).length + 1) = r := hr ▸ drop_behind _ _ _
  rw [show ((spelled FORWARD_SLASH t).length : Int) = ((spelled FORWARD_SLASH t).length + 1 : Nat) - 1 by omega,
    relativeOut_eq _ _ _ (by rw [hr, length_append, length_cons]; omega), hdrop, drop_succ_cons, drop_length]
  exact leads_climb hf hsplit hlen (.inl ⟨rfl, htfold⟩)

theorem leads_root (hf : Stacked DOT isPosixPathSeparator false f) (hne : f ≠ []) :
    Leads f [] (relativeOut (FORWARD_SLASH :: spelled FORWARD_SLASH f) [FORWARD_SLASH] 0) := by
  obtain ⟨c, r, hc⟩ := exists_cons_of_ne_nil (@spelled_ne_nil _ FORWARD_SLASH f hf.ne_nil hne)
  have hslash : c ≠ FORWARD_SLASH := by
    rintro rfl; exact head_spelled_slash hf (by rw [hc]; rfl)
  have hlen : f.length = (pieces isPosixPathSeparator r).length := by
    have hp := congrArg List.length (pieces_spelled sep_slash (hf.whole sep_dot) hne)
    rw [hc, pieces, splitOnP_cons_eq_if_modifyHead, if_neg (by simp [isPosixPathSeparator, hslash]),
      length_modifyHead, length_reverse] at hp
    exact hp.symm
  rw [show (0 : Int) = (1 : Nat) - 1 from rfl, relativeOut_eq _ _ 1 (by rw [hc, length_cons]; omega), hc]
  exact leads_climb hf (append_nil f).symm hlen (.inl ⟨rfl, rfl⟩)

/-- **The relative path leads there.** -/
theorem leads_relative (hf : Stacked DOT isPosixPathSeparator false f) (ht : Stacked DOT isPosixPathSeparator false t) (hne : f ≠ t) :
    Leads f t (relativeOf (FORWARD_SLASH :: spelled FORWARD_SLASH f) (FORWARD_SLASH :: spelled FORWARD_SLASH t)) := by
  have hffold : posixFold false [] (spelled FORWARD_SLASH f) = f := hf.fold_spelled sep_slash sep_dot
  have htfold : posixFold false [] (spelled FORWARD_SLASH t) = t := ht.fold_spelled sep_slash sep_dot
  have hup := @leads_up f t hf ht
  have hdown := @leads_down f t hf ht
  have hcommon := @leads_common f t hf ht
  have hroot : spelled FORWARD_SLASH t = [] → f ≠ [] →
      Leads f t (relativeOut (FORWARD_SLASH :: spelled FORWARD_SLASH f) (FORWARD_SLASH :: spelled FORWARD_SLASH t) 0) := by
    intro h hfne
    obtain rfl := (spelled_eq_nil ht.ne_nil).1 h; exact leads_root hf hfne
  have hstart : spelled FORWARD_SLASH f = [] → Leads f t (spelled FORWARD_SLASH t) := by
    intro h
    obtain rfl := (spelled_eq_nil hf.ne_nil).1 h
    exact ⟨decide_eq_false (head_spelled_slash ht), htfold⟩
  have hfne : 0 < (spelled FORWARD_SLASH f).length → f ≠ [] := by
    rintro h rfl; simp [spelled_nil] at h
  have hab : spelled FORWARD_SLASH f ≠ spelled FORWARD_SLASH t := fun e => hne (by rw [← hffold, e, htfold])
  generalize spelled FORWARD_SLASH f = a at *
  generalize spelled FORWARD_SLASH t = b at *
  obtain ⟨p, a', b', rfl, rfl, -, hrun⟩ := commonSep_eq a b []
  specialize hcommon rfl rfl
  unfold relativeOf
  simp only [length_cons, Nat.add_sub_cancel, drop_succ_cons, drop_zero,
    show commonSep (p ++ a') (p ++ b') 0 (-1) = (p.length, lastIndexOf p FORWARD_SLASH) from hrun, Nat.add_comm 1,
    getElem?_cons_succ, getElem?_append_right (Nat.le_refl _), Nat.sub_self, length_append]
  cases a' with
  | nil =>
    cases b' with
    | nil => exact absurd rfl hab
    | cons c b' =>
      rw [if_pos (by simp), if_pos (by simp)]
      split
      · next hslash =>
        obtain rfl : c = FORWARD_SLASH := by simpa using hslash
        rw [drop_behind]; exact hdown (by rw [append_nil])
      · split
        · next hzero =>
          obtain rfl := length_eq_zero_iff.1 hzero; exact hstart rfl
        · exact hcommon (hfne (by rw [append_nil]; omega))
  | cons c a' =>
    cases b' with
    | nil =>
      have hmin : ¬ p.length + (c :: a').length < p.length + ([] : Text).length := by simp
      rw [if_neg hmin, if_pos (by simp), if_neg (Nat.lt_irrefl _), if_pos (by simp)]
      split
      · next hslash =>
        obtain rfl : c = FORWARD_SLASH := by simpa using hslash
        simpa only [append_nil] using @hup a' (by rw [append_nil])
      · split
        · next hzero =>
          obtain rfl := length_eq_zero_iff.1 hzero; exact hroot rfl (hfne (by simp))
        · exact hcommon (hfne (by rw [length_append, length_cons]; omega))
    | cons d b' =>
      have hmin : p.length ≠ if p.length + (c :: a').length < p.length + (d :: b').length then p.length + (c :: a').length
          else p.length + (d :: b').length := by
        rw [length_cons, length_cons]
        split <;> omega
      rw [if_neg hmin]; exact hcommon (hfne (by rw [length_append, length_cons]; omega))

/-- **`relative` inverts `resolve`.** -/
theorem resolve_relative (cwd fromPath toPath : Text) (hcwd : isAbs cwd = true) :
    posixResolveAll false cwd [fromPath, posixRelative false cwd fromPath toPath] = posixResolveAll false cwd [toPath] := by
  have hnil : stackOf cwd fromPath = stackOf cwd toPath →
      posixResolveAll false cwd [fromPath, []] = posixResolveAll false cwd [toPath] := by
    intro h; rw [resolve_two hcwd fromPath (by rfl), posixFold_nil, h, resolve_one hcwd]
  unfold posixRelative
  split
  · next h => exact hnil (by rw [h])
  · have hf := stacked_stackOf cwd fromPath
    have ht := stacked_stackOf cwd toPath
    simp only [resolve_one hcwd]
    split
    · next h =>
      refine (hnil ?_).trans (resolve_one hcwd toPath)
      rw [← hf.fold_spelled sep_slash sep_dot, (List.cons.inj h).2, ht.fold_spelled sep_slash sep_dot]
    · next h =>
      obtain ⟨habs, hfold⟩ := leads_relative hf ht (fun e => h (by rw [e]))
      rw [resolve_two hcwd fromPath habs, hfold]

/-- From `/a` to `b`, in `/`. -/
theorem resolve_relative_sibling : posixResolveAll false [47] [[47, 97], posixRelative false [47] [47, 97] [98]] =
    posixResolveAll false [47] [[98]] := resolve_relative [47] [47, 97] [98] (by decide)

/-! ## Resolving in steps -/

/-- A path, entered from the stack of what comes before it. -/
def walk (st : List Text) (path : Text) : List Text := posixFold false (if isAbs path then [] else st) path

theorem stacked_walk {st : List Text} (h : Stacked DOT isPosixPathSeparator false st) (paths : List Text) :
    Stacked DOT isPosixPathSeparator false (paths.foldl walk st) := by
  induction paths generalizing st with
  | nil => exact h
  | cons path paths ih =>
    refine ih ?_
    unfold walk
    split
    · exact stacked_posixFold false path
    · exact h.fold path

/-- The loop stops at the last absolute path, and so does the walk forget what it has seen before that. -/
theorem resolveLoop_walk {cwd : Text} (hcwd : isAbs cwd = true) (paths : List Text) (resolvedPath : Text) :
    ∃ r, resolveLoop (paths.reverse ++ [cwd]) resolvedPath false = (r, true) ∧
      posixFold false [] r = posixFold false (paths.foldl walk (posixFold false [] cwd)) resolvedPath := by
  induction paths using List.reverseRecOn generalizing resolvedPath with
  | nil =>
    have hne : cwd ≠ [] := fun e => by simp [e, isAbs] at hcwd
    rw [reverse_nil, nil_append, resolveLoop_cons, if_neg hne, if_pos hcwd]; exact ⟨_, rfl, posixFold_append [] _ _⟩
  | append_singleton paths path ih =>
    have hwalk : walk (paths.foldl walk (posixFold false [] cwd)) path =
      posixFold false (if isAbs path then [] else paths.foldl walk (posixFold false [] cwd)) path := rfl
    rw [reverse_concat, cons_append, resolveLoop_cons, foldl_append, foldl_cons, foldl_nil, hwalk]
    split
    · next h =>
      obtain ⟨r, hr, hfold⟩ := ih resolvedPath
      exact ⟨r, hr, by rw [hfold, h]; simp [isAbs, posixFold_nil]⟩
    · split
      · exact ⟨_, rfl, posixFold_append [] _ _⟩
      · obtain ⟨r, hr, hfold⟩ := ih (path ++ FORWARD_SLASH :: resolvedPath)
        exact ⟨r, hr, by rw [hfold, posixFold_append]⟩

theorem resolve_walk {cwd : Text} (hcwd : isAbs cwd = true) (paths : List Text) : posixResolveAll false cwd paths =
    FORWARD_SLASH :: spelled FORWARD_SLASH (paths.foldl walk (posixFold false [] cwd)) := by
  obtain ⟨r, hr, hfold⟩ := resolveLoop_walk hcwd paths []
  rw [resolve_of_loop hr, hfold, posixFold_nil]

theorem walk_resolved {st : List Text} (h : Stacked DOT isPosixPathSeparator false st) (below : List Text) :
    walk below (FORWARD_SLASH :: spelled FORWARD_SLASH st) = st := by
  have hfold : posixFold false [] ([] ++ FORWARD_SLASH :: spelled FORWARD_SLASH st) = st := by
    rw [posixFold_append, posixFold_nil]; exact h.fold_spelled sep_slash sep_dot
  exact hfold

/-- **Resolving can be done in steps**: paths that are resolved already may stand for themselves, what stands before an
absolute path does not matter, and the absolute path that comes out has no dot segment. -/
theorem resolve_in_steps (windowsHost : Bool) (cwd : Text) (hcwd : isAbs (posixCwd windowsHost cwd) = true)
    (paths rest : List Text) :
    posixResolveAll windowsHost cwd (posixResolveAll windowsHost cwd paths :: rest) =
      posixResolveAll windowsHost cwd (paths ++ rest) ∧
    (∀ path, isAbs path = true → posixResolveAll windowsHost cwd (paths ++ path :: rest) =
      posixResolveAll windowsHost cwd (path :: rest)) ∧
    ∃ st, posixResolveAll windowsHost cwd paths = FORWARD_SLASH :: spelled FORWARD_SLASH st ∧
      ∀ segment ∈ st, Plain DOT segment ∧ Whole isPosixPathSeparator segment := by
  have hresolve (paths : List Text) : posixResolveAll windowsHost cwd paths =
    FORWARD_SLASH :: spelled FORWARD_SLASH (paths.foldl walk (posixFold false [] (posixCwd windowsHost cwd))) :=
    resolve_walk hcwd paths
  have hst := stacked_walk (stacked_posixFold false (posixCwd windowsHost cwd))
  refine ⟨?_, fun path habs => ?_, _, hresolve paths, fun segment hmem => ?_⟩
  · rw [hresolve, hresolve (paths ++ rest), hresolve paths, foldl_cons, walk_resolved (hst paths), foldl_append]
  · rw [hresolve, hresolve, foldl_append, foldl_cons, foldl_cons, walk, walk, habs, if_pos rfl, if_pos rfl]
  · exact ⟨(hst paths).no_climb segment hmem, (hst paths).whole sep_dot segment hmem⟩

theorem resolve_in_steps_up : posixResolveAll true [67, 58, 92, 97] [posixResolveAll true [67, 58, 92, 97] [[98]], [46, 46]] =
    posixResolveAll true [67, 58, 92, 97] [[98], [46, 46]] :=
  (resolve_in_steps true [67, 58, 92, 97] (by decide) [[98]] [[46, 46]]).1

end NodeCompat.Path
