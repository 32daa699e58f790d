import NodeCompat.Path.Normalize

/-!
# `posix.parse` and `posix.format`

`parse` and `basename` scan a path from its end. Whatever the path is, it is a front that is empty or ends in a slash, a base
without one, and slashes (`exists_cut`); the scan finds where the base starts and ends, and a dot in it (`partLoop_cut`). The
split loses nothing but those last slashes, so `format` undoes it.
-/

namespace NodeCompat.Path

open List

structure ParsedPath where
  root : Text := []
  dir : Text := []
  base : Text := []
  ext : Text := []
  name : Text := []
  deriving DecidableEq

structure FormatInputPathObject where
  root : Option Text := none
  dir : Option Text := none
  base : Option Text := none
  ext : Option Text := none
  name : Option Text := none

def ParsedPath.toInput (p : ParsedPath) : FormatInputPathObject := ⟨some p.root, some p.dir, some p.base, some p.ext, some p.name⟩

/-- `path.slice(start, stop)` with positions that are not negative. -/
def slice (path : Text) (start stop : Int) : Text := (path.take stop.toNat).drop start.toNat

/-! ## Scanning from the end -/

structure PartScan where
  startDot : Int := -1
  startPart : Int := 0
  endAt : Int := -1
  matchedSlash : Bool := true
  preDotState : Int := 0

/-- A code at `i` that is no slash. -/
def PartScan.step (s : PartScan) (i : Int) (code : UInt16) : PartScan :=
  let s := if s.endAt = -1 then { s with matchedSlash := false, endAt := i + 1 } else s
  if code = DOT then
    if s.startDot = -1 then { s with startDot := i } else if s.preDotState ≠ 1 then { s with preDotState := 1 } else s
  else if s.startDot ≠ -1 then { s with preDotState := -1 }
  else s

/-- The loop over the codes from `i` down to `start`. -/
def partLoop (start : Nat) : Text → PartScan → PartScan
  | [], s => s
  | code :: codes, s =>
    let i : Int := start + codes.length
    if code = FORWARD_SLASH then if s.matchedSlash then partLoop start codes s else { s with startPart := i + 1 }
    else partLoop start codes (s.step i code)

def posixParse (path : Text) : ParsedPath :=
  if path.length = 0 then {}
  else
    let isAbsolute : Bool := path.head? = some FORWARD_SLASH
    let start := if isAbsolute then 1 else 0
    let root : Text := if isAbsolute then [FORWARD_SLASH] else []
    let s := partLoop start (path.drop start).reverse {}
    let first := if s.startPart = 0 ∧ isAbsolute then 1 else s.startPart
    let dir := if 0 < s.startPart then slice path 0 (s.startPart - 1) else root
    if s.startDot = -1 ∨ s.endAt = -1 ∨ s.preDotState = 0 ∨
        s.preDotState = 1 ∧ s.startDot = s.endAt - 1 ∧ s.startDot = s.startPart + 1 then
      if s.endAt ≠ -1 then { root, dir, base := slice path first s.endAt, name := slice path first s.endAt }
      else { root, dir }
    else
      { root, dir, base := slice path first s.endAt, ext := slice path s.startDot s.endAt,
        name := slice path first s.startDot }

/-- `a || b` -/
def orElse (a : Option Text) (b : Text) : Text := match a with
  | none | some [] => b
  | some s => s

def posixFormat (pathObject : FormatInputPathObject) : Text :=
  let dir := orElse pathObject.dir (orElse pathObject.root [])
  let base := orElse pathObject.base (pathObject.name.getD [] ++ pathObject.ext.getD [])
  if dir = [] then base
  else if pathObject.root = some dir then dir ++ base
  else dir ++ FORWARD_SLASH :: base

structure BaseScan where
  start : Int := 0
  endAt : Int := -1
  matchedSlash : Bool := true

/-- The loop of `posixBasename` without a suffix. -/
def baseLoop : Text → BaseScan → BaseScan
  | [], s => s
  | code :: codes, s =>
    let i : Int := codes.length
    if code = FORWARD_SLASH then if s.matchedSlash then baseLoop codes s else { s with start := i + 1 }
    else if s.endAt = -1 then baseLoop codes { s with matchedSlash := false, endAt := i + 1 }
    else baseLoop codes s

structure SuffixScan where
  start : Int := 0
  endAt : Int := -1
  matchedSlash : Bool := true
  extIdx : Int
  firstNonSlashEnd : Int := -1

/-- The loop that compares with a suffix as well. -/
def suffixLoop (suffix : Text) : Text → SuffixScan → SuffixScan
  | [], s => s
  | code :: codes, s =>
    let i : Int := codes.length
    if code = FORWARD_SLASH then if s.matchedSlash then suffixLoop suffix codes s else { s with start := i + 1 }
    else
      let s := if s.firstNonSlashEnd = -1 then { s with matchedSlash := false, firstNonSlashEnd := i + 1 } else s
      if 0 ≤ s.extIdx then
        if suffix[s.extIdx.toNat]? = some code then
          suffixLoop suffix codes { s with extIdx := s.extIdx - 1, endAt := if s.extIdx - 1 = -1 then i else s.endAt }
        else suffixLoop suffix codes { s with extIdx := -1, endAt := s.firstNonSlashEnd }
      else suffixLoop suffix codes s

def posixBasename (path : Text) (suffix : Option Text) : Text :=
  match suffix with
  | some suffix =>
    if 0 < suffix.length ∧ suffix.length ≤ path.length then
      if suffix = path then []
      else
        let s := suffixLoop suffix path.reverse { extIdx := suffix.length - 1 }
        slice path s.start
          (if s.start = s.endAt then s.firstNonSlashEnd else if s.endAt = -1 then path.length else s.endAt)
    else bare
  | none => bare
where
  bare :=
    let s := baseLoop path.reverse {}
    if s.endAt = -1 then [] else slice path s.start s.endAt

/-! ## What the scans find -/

/-- A text is a front, a base and the slashes behind it. -/
structure Cut (body front base tail : Text) : Prop where
  eq : body = front ++ base ++ tail
  slashes : ∀ c ∈ tail, c = FORWARD_SLASH
  whole : FORWARD_SLASH ∉ base
  ends : front = [] ∨ base ≠ [] ∧ ∃ f, front = f ++ [FORWARD_SLASH]

theorem exists_cut (body : Text) : ∃ front base tail, Cut body front base tail := by
  induction body with
  | nil => exact ⟨[], [], [], rfl, by simp, by simp, .inl rfl⟩
  | cons c body ih =>
    obtain ⟨front, base, tail, rfl, htail, hbase, hfront⟩ := ih
    by_cases hc : c = FORWARD_SLASH
    · subst hc
      obtain rfl | ⟨hne, f, rfl⟩ := hfront
      · rcases eq_or_ne base [] with rfl | hne
        · exact ⟨[], [], FORWARD_SLASH :: tail, rfl, by simpa using htail, by simp, .inl rfl⟩
        · exact ⟨[FORWARD_SLASH], base, tail, rfl, htail, hbase, .inr ⟨hne, [], rfl⟩⟩
      · exact ⟨FORWARD_SLASH :: (f ++ [FORWARD_SLASH]), base, tail, rfl, htail, hbase, .inr ⟨hne, FORWARD_SLASH :: f, rfl⟩⟩
    · obtain rfl | ⟨hne, f, rfl⟩ := hfront
      · exact ⟨[], c :: base, tail, rfl, htail, by simpa [eq_comm] using ⟨hc, hbase⟩, .inl rfl⟩
      · exact ⟨c :: (f ++ [FORWARD_SLASH]), base, tail, rfl, htail, hbase, .inr ⟨hne, c :: f, rfl⟩⟩

theorem partLoop_slashes (start : Nat) {tail : Text} (h : ∀ c ∈ tail, c = FORWARD_SLASH) (codes : Text) {s : PartScan}
    (hs : s.matchedSlash = true) : partLoop start (tail ++ codes) s = partLoop start codes s := by
  induction tail with
  | nil => rfl
  | cons c tail ih =>
    rw [cons_append, partLoop, if_pos (h c mem_cons_self), if_pos hs]; exact ih (fun d hd => h d (mem_cons_of_mem _ hd))

/-- In the base, when its codes from `low + n` on have been scanned. -/
structure InBase (stop low : Int) (s : PartScan) : Prop where
  endAt : s.endAt = stop
  matchedSlash : s.matchedSlash = false
  startPart : s.startPart = 0
  startDot : s.startDot = -1 ∨ low ≤ s.startDot ∧ s.startDot < stop

theorem PartScan.step_inBase {s : PartScan} {i endAt : Int} {code : UInt16} (hi : 0 ≤ i) (hlt : i < endAt)
    (h : InBase endAt (i + 1) s ∨ s = {} ∧ endAt = i + 1) : InBase endAt i (s.step i code) := by
  have hin : InBase endAt (i + 1) (if s.endAt = -1 then { s with matchedSlash := false, endAt := i + 1 } else s) := by
    obtain h | ⟨rfl, rfl⟩ := h
    · rw [if_neg (by rw [h.endAt]; omega)]; exact h
    · exact ⟨rfl, rfl, rfl, .inl rfl⟩
  unfold PartScan.step
  generalize (if s.endAt = -1 then { s with matchedSlash := false, endAt := i + 1 } else s) = r at hin
  obtain ⟨h₁, h₂, h₃, h₄⟩ := hin
  have hlow : r.startDot = -1 ∨ i ≤ r.startDot ∧ r.startDot < endAt := h₄.imp id fun h => ⟨by omega, h.2⟩
  dsimp only
  split
  · split
    · exact ⟨h₁, h₂, h₃, .inr ⟨Int.le_refl _, hlt⟩⟩
    · split <;> exact ⟨h₁, h₂, h₃, hlow⟩
  · split <;> exact ⟨h₁, h₂, h₃, hlow⟩

theorem partLoop_base (start : Nat) {base : Text} (hb : FORWARD_SLASH ∉ base) (codes : Text) {s : PartScan} {endAt : Int}
    (hlt : start + codes.length + base.length ≤ endAt)
    (h : InBase endAt (start + codes.length + base.length) s ∨
      s = {} ∧ base ≠ [] ∧ endAt = start + codes.length + base.length) :
    ∃ t, InBase endAt (start + codes.length) t ∧ partLoop start (base ++ codes) s = partLoop start codes t := by
  induction base generalizing s with
  | nil =>
    obtain h | ⟨-, hne, -⟩ := h
    · exact ⟨s, by simpa using h, rfl⟩
    · exact absurd rfl hne
  | cons c base ih =>
    have hlen : ((base ++ codes).length : Int) = codes.length + base.length := by
      rw [length_append]; omega
    have hc : c ≠ FORWARD_SLASH := fun e => hb (e ▸ mem_cons_self)
    simp only [length_cons, Int.natCast_add, Int.cast_ofNat_Int] at hlt h
    rw [cons_append, partLoop, if_neg hc]
    refine ih (fun hm => hb (mem_cons_of_mem _ hm)) (by omega) (.inl ?_)
    have hstep := @PartScan.step_inBase s (start + (base ++ codes).length) endAt c (by omega) (by omega) (by
      obtain h | ⟨hs, -, he⟩ := h
      · refine .inl ?_
        rw [show (start : Int) + (base ++ codes).length + 1 = start + codes.length + (base.length + 1) by omega]
        exact h
      · exact .inr ⟨hs, by omega⟩)
    rw [show (start : Int) + codes.length + base.length = start + (base ++ codes).length by omega]
    exact hstep

theorem partLoop_cut {start : Nat} {body front base tail : Text} (h : Cut body front base tail) :
    (base = [] ∧ partLoop start body.reverse {} = {}) ∨
      base ≠ [] ∧ (partLoop start body.reverse {}).endAt = start + front.length + base.length ∧
        (partLoop start body.reverse {}).startPart = (if front = [] then 0 else start + front.length) ∧
        ((partLoop start body.reverse {}).startDot = -1 ∨ start + front.length ≤ (partLoop start body.reverse {}).startDot ∧
          (partLoop start body.reverse {}).startDot < start + front.length + base.length) := by
  have hslashes : partLoop start body.reverse {} = partLoop start (base.reverse ++ front.reverse) {} := by
    rw [h.eq, reverse_append, reverse_append]; exact partLoop_slashes start (by simpa using h.slashes) _ rfl
  rw [hslashes]
  rcases eq_or_ne base [] with rfl | hne
  · obtain rfl := h.ends.resolve_right (fun hf => hf.1 rfl)
    exact .inl ⟨rfl, rfl⟩
  · refine .inr ⟨hne, ?_⟩
    obtain ⟨t, ht, hrun⟩ := @partLoop_base start base.reverse (by simpa using h.whole) front.reverse {}
      (start + front.length + base.length) (by simp) (.inr ⟨rfl, by simpa using hne, by simp⟩)
    rw [hrun]
    rw [length_reverse] at ht
    obtain rfl | ⟨-, f, rfl⟩ := h.ends
    · exact ⟨ht.endAt, ht.startPart, by simpa [partLoop] using ht.startDot⟩
    · rw [reverse_append, reverse_singleton, singleton_append, partLoop, if_pos rfl,
        if_neg (by simp [ht.matchedSlash])]
      refine ⟨ht.endAt, ?_, ht.startDot⟩
      rw [if_neg (by simp), length_append, length_singleton, length_reverse]
      dsimp only; omega

theorem PartScan.step_part (s : PartScan) (i : Int) (code : UInt16) : (s.step i code).startPart = s.startPart ∧
    (s.step i code).endAt = (if s.endAt = -1 then i + 1 else s.endAt) ∧
    (s.step i code).matchedSlash = (if s.endAt = -1 then false else s.matchedSlash) := by
  unfold PartScan.step
  dsimp only
  split_ifs <;> exact ⟨rfl, rfl, rfl⟩

theorem baseLoop_eq (codes : Text) (s : PartScan) : baseLoop codes ⟨s.startPart, s.endAt, s.matchedSlash⟩ =
    ⟨(partLoop 0 codes s).startPart, (partLoop 0 codes s).endAt, (partLoop 0 codes s).matchedSlash⟩ := by
  induction codes generalizing s with
  | nil => rfl
  | cons code codes ih =>
    rw [baseLoop, partLoop]
    split
    · split
      · exact ih s
      · simp
    · obtain ⟨hpart, hend, hmatched⟩ := s.step_part ((0 : Nat) + codes.length) code
      rw [← ih, hpart, hend, hmatched]
      dsimp only
      split <;> simp

/-! ## The parts -/

theorem slice_append (a b c : Text) {m n : Int} (hm : m = a.length) (hn : n = a.length + b.length) :
    slice (a ++ b ++ c) m n = b := by
  rw [slice, hm, hn, show ((a.length : Int) + b.length).toNat = (a ++ b).length by simp only [length_append]; omega,
    Int.toNat_natCast, take_left, drop_left]

theorem slice_split (path : Text) {i j k : Int} (hij : i ≤ j) (hjk : j ≤ k) : slice path i j ++ slice path j k = slice path i k := by
  have htake : path.take j.toNat = (path.take k.toNat).take j.toNat := by
    rw [take_take, Nat.min_eq_left (by omega)]
  have hdrop := @drop_append _ ((path.take k.toNat).take j.toNat) ((path.take k.toNat).drop j.toNat) i.toNat
  rw [take_append_drop] at hdrop
  rw [slice, slice, slice, htake, hdrop, drop_drop, length_take]
  congr 1
  by_cases hlen : j.toNat ≤ (path.take k.toNat).length
  · rw [Nat.min_eq_left hlen, Nat.sub_eq_zero_of_le (by omega), Nat.add_zero]
  · rw [drop_of_length_le (by omega), drop_of_length_le (by omega)]

/-- What `parse` gives for a path that is cut behind its root. -/
structure Parsed (root front base : Text) (p : ParsedPath) : Prop where
  rooted : p.root = root
  dir : p.dir = if front = [] then root else root ++ front.dropLast
  whole : p.base = base
  split : p.base = p.name ++ p.ext

theorem parsed_cut {path root body front base tail : Text} (hne : path ≠ [])
    (hroot : root = if path.head? = some FORWARD_SLASH then [FORWARD_SLASH] else []) (hpath : path = root ++ body)
    (h : Cut body front base tail) : Parsed root front base (posixParse path) := by
  have hstart : (if path.head? = some FORWARD_SLASH then 1 else 0) = root.length := by
    rw [hroot]
    split <;> rfl
  have hbody : path.drop root.length = body := by rw [hpath, drop_left]
  have hbase : slice path (root.length + front.length) (root.length + front.length + base.length) = base := by
    rw [hpath, h.eq, ← append_assoc, ← append_assoc]; exact slice_append _ _ _ (by simp) (by simp)
  rw [posixParse, if_neg (fun e => hne (length_eq_zero_iff.1 e))]
  simp only [decide_eq_true_eq, ← hroot, hstart, hbody]
  obtain ⟨rfl, hs⟩ | ⟨hbne, hend, hpart, hdot⟩ := @partLoop_cut root.length _ _ _ _ h
  · rw [hs]
    obtain rfl := h.ends.resolve_right (fun hf => hf.1 rfl)
    exact ⟨rfl, rfl, rfl, rfl⟩
  generalize partLoop root.length body.reverse {} = s at hend hpart hdot ⊢
  have hfirst : (if s.startPart = 0 ∧ path.head? = some FORWARD_SLASH then 1 else s.startPart) = root.length + front.length := by
    by_cases hf : front = []
    · rw [hpart, if_pos hf, hf]
      by_cases hP : path.head? = some FORWARD_SLASH
      · rw [if_pos ⟨rfl, hP⟩, ← hstart, if_pos hP]; rfl
      · rw [if_neg (fun h => hP h.2), ← hstart, if_neg hP]
        rfl
    · have := length_pos_of_ne_nil hf; rw [hpart, if_neg hf, if_neg (by omega)]; omega
  have hdir : (if 0 < s.startPart then slice path 0 (s.startPart - 1) else root) =
      if front = [] then root else root ++ front.dropLast := by
    by_cases hf : front = []
    · rw [hpart, if_pos hf, if_pos hf, if_neg (by decide)]
    · obtain ⟨f, rfl⟩ := (h.ends.resolve_left hf).2
      rw [hpart, if_neg hf, if_neg hf, if_pos (by rw [length_append, length_singleton]; omega), dropLast_concat,
        hpath, h.eq,
        show root ++ (f ++ [FORWARD_SLASH] ++ base ++ tail) = [] ++ (root ++ f) ++ ([FORWARD_SLASH] ++ base ++ tail) by simp]
      refine slice_append [] _ _ rfl ?_
      simp only [length_append, length_cons, length_nil]; omega
  rw [hfirst, hdir, hend]
  split
  · rw [if_pos (by omega)]; exact ⟨rfl, rfl, hbase, (append_nil _).symm⟩
  · next hext =>
    have hsome : s.startDot ≠ -1 := fun e => hext (.inl e)
    refine ⟨rfl, rfl, hbase, ?_⟩
    exact (slice_split path (by omega) (by omega)).symm

theorem basename_cut {path front base tail : Text} (h : Cut path front base tail) : posixBasename path none = base := by
  show (if (baseLoop path.reverse {}).endAt = -1 then [] else
    slice path (baseLoop path.reverse {}).start (baseLoop path.reverse {}).endAt) = base
  rw [baseLoop_eq path.reverse {}]
  obtain ⟨rfl, hs⟩ | ⟨-, hend, hpart, -⟩ := @partLoop_cut 0 _ _ _ _ h
  · rw [hs]; rfl
  · have hstart : (partLoop 0 path.reverse {}).startPart = front.length := by
      rw [hpart]
      split
      · next hf => simp [hf]
      · simp
    dsimp only; rw [if_neg (by omega), hend, hstart, h.eq]; exact slice_append _ _ _ rfl (by simp)

theorem Cut.rooted {body front base tail : Text} (h : Cut body front base tail) :
    ∃ front' tail', Cut (FORWARD_SLASH :: body) front' base tail' := by
  obtain ⟨heq, htail, hbase, rfl | ⟨hne, f, rfl⟩⟩ := h
  · rcases eq_or_ne base [] with rfl | hne
    · exact ⟨[], FORWARD_SLASH :: tail, by rw [heq]; rfl, by simpa using htail, by simp, .inl rfl⟩
    · exact ⟨[FORWARD_SLASH], tail, by rw [heq]; rfl, htail, hbase, .inr ⟨hne, [], rfl⟩⟩
  · exact ⟨FORWARD_SLASH :: (f ++ [FORWARD_SLASH]), tail, by rw [heq]; rfl, htail, hbase, .inr ⟨hne, FORWARD_SLASH :: f, rfl⟩⟩

/-- Every path that is not empty is cut behind its root, and cut the same way as a whole. -/
theorem exists_parsed {path : Text} (hne : path ≠ []) : ∃ root body front base tail,
    root = (if path.head? = some FORWARD_SLASH then [FORWARD_SLASH] else []) ∧ path = root ++ body ∧
      Cut body front base tail ∧ Parsed root front base (posixParse path) ∧ posixBasename path none = base := by
  by_cases hhead : path.head? = some FORWARD_SLASH
  · obtain ⟨body, rfl⟩ := head?_eq_some_iff.1 hhead
    obtain ⟨front, base, tail, hcut⟩ := exists_cut body
    obtain ⟨front', tail', hcut'⟩ := hcut.rooted
    exact ⟨[FORWARD_SLASH], body, front, base, tail, by rw [if_pos hhead], rfl, hcut,
      parsed_cut hne (by rw [if_pos hhead]) rfl hcut, basename_cut hcut'⟩
  · obtain ⟨front, base, tail, hcut⟩ := exists_cut path
    exact ⟨[], path, front, base, tail, by rw [if_neg hhead], rfl, hcut, parsed_cut hne (by rw [if_neg hhead]) rfl hcut,
      basename_cut hcut⟩

theorem format_parsed {root front base : Text} {p : ParsedPath} (h : Parsed root front base p) (hbase : base ≠ [])
    (hroot : root = [] ∨ root = [FORWARD_SLASH]) (hfront : front = [] ∨ ∃ f, front = f ++ [FORWARD_SLASH])
    (hhead : front.head? ≠ some FORWARD_SLASH) : posixFormat p.toInput = root ++ front ++ base := by
  have hb : orElse (some p.base) (p.name ++ p.ext) = base := by
    rw [h.whole]
    cases base with
    | nil => exact absurd rfl hbase
    | cons c base => rfl
  have hdir : p.dir = root ++ front.dropLast := by
    rw [h.dir]
    split
    · next hf => simp [hf]
    · rfl
  have hd : orElse (some p.dir) (orElse (some root) []) = p.dir := by
    rw [hdir]
    obtain rfl | rfl := hroot
    · cases hf : front.dropLast <;> rfl
    · rfl
  show (if orElse (some p.dir) (orElse (some p.root) []) = [] then orElse (some p.base) (p.name ++ p.ext)
    else if some p.root = some (orElse (some p.dir) (orElse (some p.root) []))
      then orElse (some p.dir) (orElse (some p.root) []) ++ orElse (some p.base) (p.name ++ p.ext)
      else orElse (some p.dir) (orElse (some p.root) []) ++ FORWARD_SLASH :: orElse (some p.base) (p.name ++ p.ext)) = _
  rw [h.rooted, hb, hd, hdir]
  obtain rfl | ⟨f, rfl⟩ := hfront
  · obtain rfl | rfl := hroot <;> simp
  · rw [dropLast_concat]
    cases f with
    | nil => exact absurd rfl hhead
    | cons c f => obtain rfl | rfl := hroot <;> simp

/-- **Parsing and formatting.** The base is that of `basename`, and the name and the extension together; formatting gives the
path back, except for slashes at its end and two at its start. -/
theorem parse_format (path : Text) : (posixParse path).base = posixBasename path none ∧
    (posixParse path).base = (posixParse path).name ++ (posixParse path).ext ∧
    (¬ [FORWARD_SLASH, FORWARD_SLASH] <+: path → path = [FORWARD_SLASH] ∨ path.getLast? ≠ some FORWARD_SLASH →
      posixFormat (posixParse path).toInput = path) := by
  rcases eq_or_ne path [] with rfl | hne
  · decide
  obtain ⟨root, body, front, base, tail, hroot, hpath, hcut, hparsed, hbasename⟩ := exists_parsed hne
  refine ⟨hparsed.whole.trans hbasename.symm, hparsed.split, fun hdouble hend => ?_⟩
  obtain rfl | hend := hend
  · decide
  have hrooted : root = [] ∨ root = [FORWARD_SLASH] := by
    rw [hroot]
    split
    · exact .inr rfl
    · exact .inl rfl
  have htail : tail = [] := by
    rcases eq_nil_or_concat' tail with rfl | ⟨f, c, rfl⟩
    · rfl
    · rw [hpath, hcut.eq, hcut.slashes c (by simp)] at hend; simp at hend
  subst htail
  have hbase : base ≠ [] := by
    rintro rfl
    obtain rfl := hcut.ends.resolve_right (fun hf => hf.1 rfl)
    rw [hpath, hcut.eq] at hend hne
    obtain rfl | rfl := hrooted <;> simp at hend hne
  have hhead : front.head? ≠ some FORWARD_SLASH := by
    intro hf
    obtain ⟨f, rfl⟩ := head?_eq_some_iff.1 hf
    rw [hcut.eq] at hpath
    obtain rfl | rfl := hrooted
    · rw [hpath, nil_append] at hroot; simp at hroot
    · exact hdouble ⟨f ++ base, by rw [hpath]; simp⟩
  rw [format_parsed hparsed hbase hrooted (hcut.ends.imp id And.right) hhead, hpath, hcut.eq]; simp

/-- `/a/b.c` -/
theorem parse_format_ext : posixFormat (posixParse [47, 97, 47, 98, 46, 99]).toInput = [47, 97, 47, 98, 46, 99] :=
  (parse_format [47, 97, 47, 98, 46, 99]).2.2 (by decide) (.inr (by decide))

end NodeCompat.Path
