import NodeCompat.Lib.DotFold

/-!
# Normalising a path

`normalizeString` and `win32NormalizeString` are one loop over the code units of a path, which remembers the output string, the
length of its last segment and how many dots the segment at hand has. They differ in their separators and in how they cut the
last segment off (`Spelling`). Both compute the fold of the segments with a stack (`normalize_fold`).

A path is a list of UTF-16 code units.
-/

namespace NodeCompat.Path

open List Option

open NodeCompat.DotFold

abbrev Text := List UInt16

def FORWARD_SLASH : UInt16 := 47
def DOT : UInt16 := 46
def BACKWARD_SLASH : UInt16 := 92

def isPosixPathSeparator (code : UInt16) : Bool := code = FORWARD_SLASH

def isWin32PathSeparator (code : UInt16) : Bool := code = FORWARD_SLASH ∨ code = BACKWARD_SLASH

/-- `-1` where `c` does not occur. -/
def lastIndexOf (s : Text) (c : UInt16) : Int := s.length - 1 - s.reverse.idxOf c

/-- What `normalizeString` does to `res` and `lastSegmentLength` for a `..`; with `none` it goes on to keep the `..`. -/
def posixCut (res : Text) (_lastSegmentLength : Int) : Option (Text × Int) :=
  if 2 < res.length then
    let lastSlashIndex := lastIndexOf res FORWARD_SLASH
    if lastSlashIndex ≠ res.length - 1 then
      if lastSlashIndex = -1 then some ([], 0)
      else
        let cut := res.take lastSlashIndex.toNat
        some (cut, cut.length - 1 - lastIndexOf cut FORWARD_SLASH)
    else none
  else if res.length = 2 ∨ res.length = 1 then some ([], 0)
  else none

/-- The same for `win32NormalizeString`. -/
def win32Cut (res : Text) (lastSegmentLength : Int) : Option (Text × Int) :=
  if 2 < res.length then
    let lastSlashIndex : Int := res.length - lastSegmentLength - 1
    if lastSlashIndex = -1 then some ([], 0)
    else
      let cut := res.take lastSlashIndex.toNat
      some (cut, cut.length - 1 - lastIndexOf cut BACKWARD_SLASH)
  else if res.length ≠ 0 then some ([], 0)
  else none

/-- The length of the top of a stack. -/
def topLength (st : List Text) : Int := (st.head?.getD []).length

theorem lastIndexOf_spelled {sep : UInt16} {top : Text} (htop : sep ∉ top) (st : List Text) :
    lastIndexOf (spelled sep (top :: st)) sep = (spelled sep (top :: st)).length - 1 - top.length := by
  have hidx : (spelled sep (top :: st)).reverse.idxOf sep = top.length := by
    cases st with
    | nil => rw [spelled_singleton, idxOf_eq_length (by simpa using htop), length_reverse]
    | cons next st =>
      rw [spelled_cons, reverse_append, reverse_cons, append_assoc, singleton_append,
        idxOf_append_of_notMem (by simpa using htop), idxOf_cons_self, length_reverse, Nat.add_zero]
  rw [lastIndexOf, hidx]

theorem cut_last {sep : UInt16} {top : Text} {st : List Text} (hsep : ∀ q ∈ top :: st, sep ∉ q) (hne : ∀ q ∈ top :: st, q ≠ [])
    {k : Int} (hk : k = (spelled sep (top :: st)).length - 1 - top.length) :
    (if k = -1 then some ([], 0)
      else
        some ((spelled sep (top :: st)).take k.toNat, (((spelled sep (top :: st)).take k.toNat).length : Int) - 1 -
          lastIndexOf ((spelled sep (top :: st)).take k.toNat) sep)) = some (spelled sep st, topLength st) := by
  cases st with
  | nil =>
    rw [spelled_singleton] at hk; rw [if_pos (by omega)]; rfl
  | cons next st =>
    have hlen : (spelled sep (top :: next :: st)).length = (spelled sep (next :: st)).length + 1 + top.length := by
      rw [spelled_cons, length_append, length_cons]; omega
    have htake : (spelled sep (top :: next :: st)).take k.toNat = spelled sep (next :: st) := by
      rw [hk, hlen, spelled_cons, take_append_of_le_length (by omega), take_of_length_le (by omega)]
    rw [if_neg (by omega), htake, lastIndexOf_spelled (hsep next (by simp))]
    simp only [topLength, head?_cons, getD_some, Option.some.injEq, Prod.mk.injEq, true_and]; omega

theorem length_spelled_le {sep : UInt16} {top : Text} {st : List Text} (hne : ∀ q ∈ top :: st, q ≠ [])
    (h : (spelled sep (top :: st)).length ≤ 2) : st = [] := by
  cases st with
  | nil => rfl
  | cons next st =>
    have htop := length_pos_of_ne_nil (hne top (by simp))
    have hrest := length_pos_of_ne_nil (@spelled_ne_nil _ sep (next :: st)
      (fun q hq => hne q (mem_cons_of_mem _ hq)) (by simp))
    rw [spelled_cons, length_append, length_cons] at h; omega

/-- How one of the two systems spells a path. -/
structure Spelling where
  isPathSeparator : UInt16 → Bool
  separator : UInt16
  cut : Text → Int → Option (Text × Int)
  separates : isPathSeparator separator = true
  dotless : isPathSeparator DOT = false
  cut_nil : cut [] 0 = none
  /-- Cutting takes the top of the stack away. -/
  cut_spelled : ∀ (top : Text) (st : List Text), (∀ q ∈ top :: st, q ≠ []) → (∀ q ∈ top :: st, separator ∉ q) →
    cut (spelled separator (top :: st)) top.length = some (spelled separator st, topLength st)

def posix : Spelling where
  isPathSeparator := isPosixPathSeparator
  separator := FORWARD_SLASH
  cut := posixCut
  separates := by decide
  dotless := by decide
  cut_nil := rfl
  cut_spelled top st hne hsep := by
    have htop := length_pos_of_ne_nil (hne top (by simp))
    have hidx := lastIndexOf_spelled (hsep top (by simp)) st
    unfold posixCut
    split
    · dsimp only
      rw [if_pos (by omega)]
      exact cut_last hsep hne hidx
    · next hle =>
      obtain rfl := @length_spelled_le FORWARD_SLASH top st hne (by omega)
      rw [spelled_singleton] at hle ⊢
      rw [if_pos (by omega)]
      rfl

def win32 : Spelling where
  isPathSeparator := isWin32PathSeparator
  separator := BACKWARD_SLASH
  cut := win32Cut
  separates := by decide
  dotless := by decide
  cut_nil := rfl
  cut_spelled top st hne hsep := by
    have htop := length_pos_of_ne_nil (hne top (by simp))
    unfold win32Cut
    split
    · exact cut_last hsep hne (by omega)
    · next hle =>
      obtain rfl := @length_spelled_le BACKWARD_SLASH top st hne (by omega)
      rw [spelled_singleton] at hle ⊢
      rw [if_pos (by omega)]
      rfl

/-! ## The loop -/

/-- The variables of the loop; `segment` is `path.slice(lastSlash + 1, i)`, and is empty when `lastSlash` is `i - 1`. -/
structure Scan where
  res : Text := []
  lastSegmentLength : Int := 0
  segment : Text := []
  dots : Int := 0

namespace Scan

/-- `res` with a segment more. -/
def add (Y : Spelling) (s : Scan) (segment : Text) : Scan := { s with
    res := if 0 < s.res.length then s.res ++ Y.separator :: segment else segment
    lastSegmentLength := segment.length }

def keep (Y : Spelling) (allowAboveRoot : Bool) (s : Scan) : Scan := if allowAboveRoot then s.add Y [DOT, DOT] else s

/-- A `..` segment. -/
def climb (Y : Spelling) (allowAboveRoot : Bool) (s : Scan) : Scan :=
  if s.res.length < 2 ∨ s.lastSegmentLength ≠ 2 ∨ s.res[s.res.length - 1]? ≠ some DOT ∨ s.res[s.res.length - 2]? ≠ some DOT then
    match Y.cut s.res s.lastSegmentLength with
    | some (res, lastSegmentLength) => { s with res := res, lastSegmentLength := lastSegmentLength }
    | none => s.keep Y allowAboveRoot
  else s.keep Y allowAboveRoot

/-- The code at `i` is a separator. -/
def close (Y : Spelling) (allowAboveRoot : Bool) (s : Scan) : Scan :=
  let t :=
    if s.segment = [] ∨ s.dots = 1 then s
    else if s.dots = 2 then s.climb Y allowAboveRoot
    else s.add Y s.segment
  { t with segment := [], dots := 0 }

def step (Y : Spelling) (allowAboveRoot : Bool) (s : Scan) (code : UInt16) : Scan :=
  if Y.isPathSeparator code then s.close Y allowAboveRoot
  else { s with
      segment := s.segment ++ [code]
      dots := if code = DOT ∧ s.dots ≠ -1 then s.dots + 1 else -1 }

end Scan

/-- The rounds for `i < path.length`, and the one for `i = path.length`, which the last code can break off. -/
def Spelling.normalizeString (Y : Spelling) (path : Text) (allowAboveRoot : Bool) : Text :=
  let s := path.foldl (Scan.step Y allowAboveRoot) {}
  if path.getLast?.any Y.isPathSeparator then s.res else (s.close Y allowAboveRoot).res

def normalizeString (path : Text) (allowAboveRoot : Bool) : Text := posix.normalizeString path allowAboveRoot

def win32NormalizeString (path : Text) (allowAboveRoot : Bool) : Text := win32.normalizeString path allowAboveRoot

/-! ## What the loop computes -/

/-- The value of `dots` for a segment. -/
def dotsOf (segment : Text) : Int := if segment.all (· = DOT) then segment.length else -1

variable {segment : Text}

theorem dotsOf_dots (h : ∀ c ∈ segment, c = DOT) : dotsOf segment = segment.length := if_pos (by simpa using h)

theorem dotsOf_other (h : ¬ ∀ c ∈ segment, c = DOT) : dotsOf segment = -1 := if_neg (by simpa using h)

theorem dotsOf_snoc (segment : Text) (code : UInt16) :
    dotsOf (segment ++ [code]) = if code = DOT ∧ dotsOf segment ≠ -1 then dotsOf segment + 1 else -1 := by
  by_cases hall : ∀ c ∈ segment, c = DOT
  · have hne : (segment.length : Int) ≠ -1 := by omega
    rw [dotsOf_dots hall]
    by_cases hc : code = DOT
    · rw [dotsOf_dots (by simpa [hc, or_imp, forall_and] using hall), if_pos ⟨hc, hne⟩]; simp
    · rw [dotsOf_other (by simp [hc]), if_neg (by simp [hc])]
  · rw [dotsOf_other hall, dotsOf_other (fun h => hall fun c hc => h c (by simp [hc])), if_neg (by simp)]

theorem dotsOf_eq {n : Nat} : dotsOf segment = n ↔ segment = List.replicate n DOT := by
  rw [eq_replicate_iff]
  by_cases h : ∀ c ∈ segment, c = DOT
  · rw [dotsOf_dots h]; exact ⟨fun e => ⟨by omega, h⟩, fun e => by omega⟩
  · rw [dotsOf_other h]; exact ⟨fun e => by omega, fun e => absurd e.2 h⟩

/-- The output is the spelling of a stack, and the segment at hand is whole. -/
structure Holds (Y : Spelling) (allowAboveRoot : Bool) (st : List Text) (seg : Text) (s : Scan) : Prop where
  stacked : Stacked DOT Y.isPathSeparator allowAboveRoot st
  res : s.res = spelled Y.separator st
  last : s.lastSegmentLength = topLength st
  whole : Whole Y.isPathSeparator seg
  segment : s.segment = seg
  dots : s.dots = dotsOf seg

namespace Holds

variable {Y : Spelling} {up : Bool} {st : List Text} {segment : Text} {s : Scan}

section

variable (h : Holds Y up st segment s)
include h

theorem sepless : ∀ q ∈ st, Y.separator ∉ q := by
  intro q hq hmem
  have := h.stacked.whole Y.dotless q hq _ hmem; rw [Y.separates] at this; cases this

theorem pushed (segment : Text) :
    (s.add Y segment).res = spelled Y.separator (segment :: st) ∧ (s.add Y segment).lastSegmentLength = topLength (segment :: st) := by
  refine ⟨?_, rfl⟩
  show (if 0 < s.res.length then s.res ++ Y.separator :: segment else segment) = _
  cases st with
  | nil => rw [h.res, spelled_nil, spelled_singleton]; rfl
  | cons top st =>
    rw [if_pos (length_pos_of_ne_nil (h.res ▸ spelled_ne_nil h.stacked.ne_nil (by simp))), h.res, spelled_cons]

theorem climbs :
    (s.res.length < 2 ∨ s.lastSegmentLength ≠ 2 ∨ s.res[s.res.length - 1]? ≠ some DOT ∨ s.res[s.res.length - 2]? ≠ some DOT) ↔
      st.head? ≠ some [DOT, DOT] := by
  cases st with
  | nil => simp [h.res, spelled_nil]
  | cons top st =>
    obtain ⟨front, hfront⟩ : ∃ front, s.res = front ++ top := by
      cases st with
      | nil => exact ⟨[], by rw [h.res, spelled_singleton, nil_append]⟩
      | cons next st => exact ⟨spelled Y.separator (next :: st) ++ [Y.separator], by rw [h.res, spelled_cons]; simp⟩
    have hlast : s.lastSegmentLength = top.length := h.last
    rw [hfront, hlast]
    by_cases hlen : top.length = 2
    · obtain ⟨a, b, rfl⟩ := length_eq_two.1 hlen
      have hone : (front ++ [a, b]).length - 1 = front.length + 1 := by simp
      have htwo : (front ++ [a, b]).length - 2 = front.length := by simp
      rw [hone, htwo, getElem?_append_right (Nat.le_add_right _ _), getElem?_append_right (Nat.le_refl _)]
      simp only [length_append, length_cons, length_nil, Nat.add_sub_cancel_left, Nat.sub_self,
        getElem?_cons_succ, getElem?_cons_zero, head?_cons, ne_eq, Option.some.injEq, List.cons.injEq, and_true]
      have hlong : ¬ front.length + 2 < 2 := by omega
      simp [hlong, imp_iff_not_or, or_comm]
    · have hne : top ≠ [DOT, DOT] := fun e => hlen (e ▸ rfl)
      exact ⟨fun _ => by simpa using hne, fun _ => .inr (.inl (by omega))⟩

theorem climbed : (s.climb Y up).res = spelled Y.separator (enter DOT up st [DOT, DOT]) ∧
      (s.climb Y up).lastSegmentLength = topLength (enter DOT up st [DOT, DOT]) := by
  have hkeep : (s.keep Y up).res = spelled Y.separator (if up then [DOT, DOT] :: st else st) ∧
      (s.keep Y up).lastSegmentLength = topLength (if up then [DOT, DOT] :: st else st) := by
    unfold Scan.keep
    split
    · exact h.pushed _
    · exact ⟨h.res, h.last⟩
  unfold Scan.climb
  simp only [h.climbs]
  cases st with
  | nil =>
    rw [if_pos (by simp), h.res, h.last]
    simp only [spelled_nil, topLength, head?_nil, getD_none, length_nil, Int.natCast_zero, Y.cut_nil]
    have he : enter DOT up [] [DOT, DOT] = if up then [[DOT, DOT]] else [] := by simp [enter]
    rw [he]; exact hkeep
  | cons top st =>
    by_cases htop : top = [DOT, DOT]
    · rw [if_neg (by simp [htop])]
      have he : enter DOT up (top :: st) [DOT, DOT] = if up then [DOT, DOT] :: top :: st else top :: st := by simp [enter, htop]
      rw [he]; exact hkeep
    · rw [if_pos (by simpa using htop), h.res, h.last]
      have hcut := Y.cut_spelled top st h.stacked.ne_nil h.sepless
      simp only [topLength, head?_cons, getD_some] at hcut ⊢
      rw [hcut, enter_pop htop]; exact ⟨rfl, rfl⟩

theorem close : Holds Y up (enter DOT up st segment) [] (s.close Y up) := by
  have hone : s.dots = 1 ↔ segment = [DOT] := by rw [h.dots]; exact dotsOf_eq (n := 1)
  have htwo : s.dots = 2 ↔ segment = [DOT, DOT] := by rw [h.dots]; exact dotsOf_eq (n := 2)
  have hspells : ∀ t : Scan, t.res = spelled Y.separator (enter DOT up st segment) →
      t.lastSegmentLength = topLength (enter DOT up st segment) →
      Holds Y up (enter DOT up st segment) [] { t with segment := [], dots := 0 } :=
    fun t hres hlast => ⟨h.stacked.enter h.whole, hres, hlast, by simp [Whole], rfl, rfl⟩
  unfold Scan.close
  simp only [h.segment, hone, htwo]
  split
  · next hdrop =>
    have he : enter DOT up st segment = st := if_pos hdrop; exact hspells s (by rw [he, h.res]) (by rw [he, h.last])
  · next hdrop =>
    split
    · next hdd =>
      subst hdd; exact hspells _ h.climbed.1 h.climbed.2
    · next hdd =>
      rw [not_or] at hdrop
      have hadd := h.pushed segment
      have hplain : enter DOT up st segment = segment :: st := enter_plain ⟨hdrop.1, hdrop.2, hdd⟩
      rw [← hplain] at hadd; exact hspells _ hadd.1 hadd.2

theorem step {code : UInt16} (hc : Y.isPathSeparator code = false) :
    Holds Y up st (segment ++ [code]) (s.step Y up code) := by
  unfold Scan.step
  rw [if_neg (by simp [hc])]
  refine ⟨h.stacked, h.res, h.last, ?_, by rw [h.segment], by rw [dotsOf_snoc, h.dots]⟩
  intro c hmem
  obtain hmem | hmem := mem_append.1 hmem
  · exact h.whole c hmem
  · rw [mem_singleton.1 hmem, hc]

theorem run (path : Text) :
    ∃ last, Holds Y up (((pieces Y.isPathSeparator (segment ++ path)).dropLast).foldl (enter DOT up) st) last
      (path.foldl (Scan.step Y up) s) ∧ (pieces Y.isPathSeparator (segment ++ path)).getLast? = some last := by
  induction path generalizing st segment s with
  | nil => rw [append_nil, pieces_whole h.whole]; exact ⟨segment, h, rfl⟩
  | cons code path ih =>
    rw [foldl_cons]
    cases hc : Y.isPathSeparator code with
    | false => simpa using ih (h.step hc)
    | true =>
      obtain ⟨last, hl, hlast⟩ := ih (by simpa [Scan.step, hc] using h.close)
      rw [nil_append] at hl hlast
      have hne : pieces Y.isPathSeparator path ≠ [] := splitOnP_ne_nil _ _
      rw [show s.step Y up code = s.close Y up by simp [Scan.step, hc], pieces_cons hc h.whole, dropLast_cons_of_ne_nil hne, foldl_cons, getLast?_cons]
      exact ⟨last, hl, by simp [hlast]⟩

end

end Holds

variable (Y : Spelling)

variable (path : Text)

theorem Spelling.normalizeString_eq (up : Bool) :
    Y.normalizeString path up = spelled Y.separator (fold DOT Y.isPathSeparator up [] path) := by
  have hstart : Holds Y up [] [] {} := ⟨.nil, rfl, rfl, by simp [Whole], rfl, rfl⟩
  obtain ⟨last, h, hlast⟩ := hstart.run path
  rw [nil_append] at h hlast
  have hfold : fold DOT Y.isPathSeparator up [] path =
      enter DOT up ((pieces Y.isPathSeparator path).dropLast.foldl (enter DOT up) []) last := by
    rw [fold, ← dropLast_append_getLast? last hlast, foldl_append]; simp
  have hclose := h.close.res
  rw [← hfold] at hclose
  unfold Spelling.normalizeString
  split
  · next hsep =>
    -- After a separator the segment at hand is empty, and closing it changes nothing.
    obtain ⟨front, c, rfl⟩ : ∃ front c, path = front ++ [c] := by
      rcases eq_nil_or_concat path with rfl | ⟨front, c, rfl⟩
      · simp at hsep
      · exact ⟨front, c, concat_eq_append⟩
    have hc : Y.isPathSeparator c = true := by simpa using hsep
    obtain rfl : [] = last := by rw [pieces_append hc front []] at hlast; simpa [pieces] using hlast
    rw [← hclose]; simp only [Scan.close, h.segment, true_or, if_true]
  · exact hclose

/-! ## Where a `..` is left -/

/-- Every `..` is in front of the other segments. -/
def ClimbsFirst (segments : List Text) : Prop :=
  ∃ (n : Nat) (rest : List Text), segments = List.replicate n [DOT, DOT] ++ rest ∧ [DOT, DOT] ∉ rest

theorem Spelling.pieces_normalizeString (up : Bool) : ∃ st, Stacked DOT Y.isPathSeparator up st ∧
      (pieces Y.isPathSeparator (Y.normalizeString path up) = st.reverse ∨ st = [] ∧
        pieces Y.isPathSeparator (Y.normalizeString path up) = [[]]) := by
  have h : Stacked DOT Y.isPathSeparator up (fold DOT Y.isPathSeparator up [] path) := Stacked.nil.fold path
  refine ⟨_, h, ?_⟩
  rw [Y.normalizeString_eq]
  rcases eq_or_ne (fold DOT Y.isPathSeparator up [] path) [] with he | hne
  · exact .inr ⟨he, by rw [he, spelled_nil, pieces, splitOnP_nil]⟩
  · exact .inl (pieces_spelled Y.separates (h.whole Y.dotless) hne)

theorem Spelling.climbsFirst (up : Bool) : ClimbsFirst (pieces Y.isPathSeparator (Y.normalizeString path up)) := by
  obtain ⟨st, h, he | ⟨-, he⟩⟩ := Y.pieces_normalizeString path up
  · rw [he]; exact h.climbs_first
  · exact ⟨0, [[]], he, by simp⟩

theorem Spelling.no_climb : [DOT, DOT] ∉ pieces Y.isPathSeparator (Y.normalizeString path false) := by
  obtain ⟨st, h, he | ⟨-, he⟩⟩ := Y.pieces_normalizeString path false
  · rw [he, mem_reverse]; exact fun hmem => (h.no_climb _ hmem).2.2 rfl
  · simp [he]

end NodeCompat.Path
