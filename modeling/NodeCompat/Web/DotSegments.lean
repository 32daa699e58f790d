import NodeCompat.Web.Text

/-!
# Dot segments of a path

`withoutDotSegments` is the path state of the URL Standard on a string. Its meaning is a fold over the segments with a stack
(`enter`), and one empty segment behind when the last one is a dot segment (`resolve`): the early return and the loop both
compute it (`withoutDotSegments_eq`). What it leaves holds no dot segment, and is left alone when it is taken again. A path
that is entered on top of another one takes away from it as many segments as it climbs above its own root (`foldl_enter`).
-/

namespace NodeCompat.Web

open List

/-! ## The function -/

variable {segments : List Text} {path : Text}

/-- `..`, or a spelling of it. -/
def isDoubleDot (segment : Text) : Bool :=
  [chars "..", chars ".%2e", chars "%2e.", chars "%2e%2e"].contains (toLowerCase segment)

/-- `.`, or a spelling of it. -/
def isSingleDot (segment : Text) : Bool := [chars ".", chars "%2e"].contains (toLowerCase segment)

/-- One round of the loop. -/
def dotRound (last : Bool) (output : List Text) (segment : Text) : List Text :=
  if isDoubleDot segment then (if last then output.dropLast ++ [[]] else output.dropLast)
  else if isSingleDot segment then (if last then output ++ [[]] else output)
  else output ++ [segment]

/-- The loop over the segments that are left. -/
def dotLoop : List Text → List Text → List Text
  | output, [] => output
  | output, [segment] => dotRound true output segment
  | output, segment :: next :: rest => dotLoop (dotRound false output segment) (next :: rest)

def withoutDotSegments (path : Text) : Text :=
  if find ['.'] path = none ∧ find ['%'] path = none then path
  else '/' :: join ['/'] (dotLoop [] (split ['/'] path).tail)

/-! ## The segment stack -/

/-- The spellings of a dot. -/
def dots : List Text := [['.'], ['%', '2', 'e'], ['%', '2', 'E']]

/-- The dot segments: two dots that take the segment before them away, and one that stays where it is. -/
def IsDotDot (segment : Text) : Prop := ∃ a ∈ dots, ∃ b ∈ dots, segment = a ++ b

def IsDot (segment : Text) : Prop := segment ∈ dots

def IsDotSegment (segment : Text) : Prop := IsDotDot segment ∨ IsDot segment

instance : DecidablePred IsDotDot := fun _ => inferInstanceAs (Decidable (∃ _ ∈ dots, ∃ _ ∈ dots, _))

instance : DecidablePred IsDot := fun _ => inferInstanceAs (Decidable (_ ∈ dots))

instance : DecidablePred IsDotSegment := fun _ => inferInstanceAs (Decidable (_ ∨ _))

/-- A segment is entered: two dots take the last one away, never above the root. -/
def enter (stack : List Text) (segment : Text) : List Text :=
  if IsDotDot segment then stack.dropLast else if IsDot segment then stack else stack ++ [segment]

/-- The empty segment that a dot segment leaves when it is the last one. -/
def trailing (segments : List Text) : List Text := if ∃ s ∈ segments.getLast?, IsDotSegment s then [[]] else []

/-- What becomes of the segments of a path. -/
def resolve (segments : List Text) : List Text := segments.foldl enter [] ++ trailing segments

def segmentsOf (path : Text) : List Text := (split ['/'] path).tail

theorem toNat_toLower (c : Char) : c.toLower.toNat = if 65 ≤ c.toNat ∧ c.toNat ≤ 90 then c.toNat + 32 else c.toNat := by
  have hiff : (c.val ≥ 'A'.val ∧ c.val ≤ 'Z'.val) ↔ 65 ≤ c.toNat ∧ c.toNat ≤ 90 := by
    rw [ge_iff_le, UInt32.le_iff_toNat_le, UInt32.le_iff_toNat_le]; rfl
  unfold Char.toLower
  split
  · next h =>
    have hc := hiff.1 h
    rw [if_pos hc]
    show (c.val + ('a'.val - 'A'.val)).toNat = c.toNat + 32
    have hd : ('a'.val - 'A'.val).toNat = 32 := by decide
    rw [UInt32.toNat_add, hd]
    exact Nat.mod_eq_of_lt (by have : c.val.toNat = c.toNat := rfl; omega)
  · next h => rw [if_neg (fun hc => h (hiff.2 hc))]

theorem toLower_eq_of_not_lower {c d : Char} (h : ¬ (97 ≤ c.toNat ∧ c.toNat ≤ 122)) (hd : d.toLower = c) : d = c := by
  have hn := toNat_toLower d
  rw [hd] at hn
  split at hn
  · omega
  · exact Char.toNat_inj.1 hn.symm

theorem toLower_eq_e {d : Char} (hd : d.toLower = 'e') : d = 'e' ∨ d = 'E' := by
  have hn := toNat_toLower d
  have he : 'e'.toNat = 101 := rfl
  have hE : 'E'.toNat = 69 := rfl
  rw [hd] at hn
  split at hn
  · exact .inr (Char.toNat_inj.1 (by omega))
  · exact .inl (Char.toNat_inj.1 hn.symm)

theorem toLowerCase_append {s a b : Text} (h : toLowerCase s = a ++ b) : ∃ s₁ s₂, s = s₁ ++ s₂ ∧
    toLowerCase s₁ = a ∧ toLowerCase s₂ = b := map_eq_append_iff.1 h

theorem dot_of_lower {s : Text} (h : toLowerCase s = chars "." ∨ toLowerCase s = chars "%2e") : s ∈ dots := by
  have hfix : ∀ {c d : Char}, ¬ (97 ≤ c.toNat ∧ c.toNat ≤ 122) → d.toLower = c → d = c := toLower_eq_of_not_lower
  rcases h with h | h
  · obtain ⟨a, s₁, rfl, ha, h⟩ := map_eq_cons_iff.1 (show toLowerCase s = ['.'] from h)
    obtain rfl := map_eq_nil_iff.1 h; rw [hfix (by decide) ha]; simp [dots]
  · have h : toLowerCase s = ['%', '2', 'e'] := h
    obtain ⟨a, s₁, rfl, ha, h⟩ := map_eq_cons_iff.1 h
    obtain ⟨b, s₂, rfl, hb, h⟩ := map_eq_cons_iff.1 h
    obtain ⟨c, s₃, rfl, hc, h⟩ := map_eq_cons_iff.1 h
    obtain rfl := map_eq_nil_iff.1 h
    rw [hfix (by decide) ha, hfix (by decide) hb]
    rcases toLower_eq_e hc with rfl | rfl <;> simp [dots]

theorem isSingleDot_iff (s : Text) : isSingleDot s = true ↔ IsDot s := by
  constructor
  · intro h
    refine dot_of_lower ?_
    simpa [isSingleDot] using h
  · intro h
    have hall : dots.all isSingleDot = true := by decide
    exact all_eq_true.1 hall s h

theorem isDoubleDot_iff (s : Text) : isDoubleDot s = true ↔ IsDotDot s := by
  constructor
  · intro h
    have hcases : ∃ a b, (a = chars "." ∨ a = chars "%2e") ∧ (b = chars "." ∨ b = chars "%2e") ∧ toLowerCase s = a ++ b := by
      simp only [isDoubleDot, contains_cons, contains_nil, Bool.or_false, Bool.or_eq_true, beq_iff_eq] at h
      rcases h with h | h | h | h
      · exact ⟨_, _, .inl rfl, .inl rfl, h⟩
      · exact ⟨_, _, .inl rfl, .inr rfl, h⟩
      · exact ⟨_, _, .inr rfl, .inl rfl, h⟩
      · exact ⟨_, _, .inr rfl, .inr rfl, h⟩
    obtain ⟨a, b, ha, hb, h⟩ := hcases
    obtain ⟨s₁, s₂, rfl, h₁, h₂⟩ := toLowerCase_append h
    exact ⟨s₁, dot_of_lower (by rw [h₁]; exact ha), s₂, dot_of_lower (by rw [h₂]; exact hb), rfl⟩
  · rintro ⟨a, ha, b, hb, rfl⟩
    have hall : dots.all (fun a => dots.all (fun b => isDoubleDot (a ++ b))) = true := by decide
    exact all_eq_true.1 (all_eq_true.1 hall a ha) b hb

/-! ## What the loop computes -/

theorem dotRound_inner (output : List Text) (segment : Text) : dotRound false output segment = enter output segment := by
  simp only [dotRound, enter, isDoubleDot_iff, isSingleDot_iff, Bool.false_eq_true, if_false]

theorem dotRound_last (output : List Text) (segment : Text) :
    dotRound true output segment = enter output segment ++ trailing [segment] := by
  simp only [dotRound, enter, trailing, IsDotSegment, isDoubleDot_iff, isSingleDot_iff, if_true, getLast?_singleton,
    Option.mem_def, Option.some.injEq, exists_eq_left']
  by_cases h₁ : IsDotDot segment
  · simp [h₁]
  · by_cases h₂ : IsDot segment <;> simp [h₁, h₂]

theorem trailing_cons (s t : Text) (segments : List Text) : trailing (s :: t :: segments) = trailing (t :: segments) := by
  rw [trailing, trailing, getLast?_cons_cons]

theorem dotLoop_eq : ∀ (segments output : List Text), dotLoop output segments = segments.foldl enter output ++ trailing segments
  | [], output => by simp [dotLoop, trailing]
  | [segment], output => by rw [dotLoop, dotRound_last]; rfl
  | segment :: next :: rest, output => by
    rw [dotLoop, dotLoop_eq (next :: rest), dotRound_inner, trailing_cons]; rfl

theorem enter_of_not {segment : Text} (h : ¬ IsDotSegment segment) (stack : List Text) :
    enter stack segment = stack ++ [segment] := by
  rw [IsDotSegment, not_or] at h; rw [enter, if_neg h.1, if_neg h.2]

theorem foldl_enter_plain : ∀ {segments : List Text}, (∀ s ∈ segments, ¬ IsDotSegment s) → ∀ stack : List Text,
    segments.foldl enter stack = stack ++ segments
  | [], _, stack => (append_nil _).symm
  | s :: segments, h, stack => by
    rw [foldl_cons, enter_of_not (h s (by simp)), foldl_enter_plain (fun t ht => h t (mem_cons_of_mem _ ht)),
      append_assoc, singleton_append]

theorem resolve_plain (h : ∀ s ∈ segments, ¬ IsDotSegment s) : resolve segments = segments := by
  have hlast : trailing segments = [] := if_neg fun ⟨s, hs, hdot⟩ => h s (mem_of_getLast? hs) hdot
  rw [resolve, hlast, append_nil]; exact foldl_enter_plain h []

theorem enter_subset {segment : Text} {stack : List Text} {s : Text} (h : s ∈ enter stack segment) :
    s ∈ stack ∨ s = segment ∧ ¬ IsDotSegment segment := by
  unfold enter at h
  split_ifs at h with h₁ h₂
  · exact .inl (mem_of_mem_dropLast h)
  · exact .inl h
  · rw [mem_append, mem_singleton] at h
    rcases h with h | h
    · exact .inl h
    · exact .inr ⟨h, not_or.2 ⟨h₁, h₂⟩⟩

theorem foldl_enter_mem : ∀ {segments stack : List Text} {s : Text}, s ∈ segments.foldl enter stack →
    s ∈ stack ∨ s ∈ segments ∧ ¬ IsDotSegment s
  | [], stack, s, h => .inl h
  | t :: segments, stack, s, h => by
    have h : s ∈ segments.foldl enter (enter stack t) := h
    rcases foldl_enter_mem h with h | ⟨h, hs⟩
    · rcases enter_subset h with h | ⟨rfl, ht⟩
      · exact .inl h
      · exact .inr ⟨by simp, ht⟩
    · exact .inr ⟨mem_cons_of_mem _ h, hs⟩

theorem nil_not_dot : ¬ IsDotSegment [] := by decide

theorem resolve_mem {s : Text} (h : s ∈ resolve segments) : (s = [] ∨ s ∈ segments) ∧ ¬ IsDotSegment s := by
  rcases mem_append.1 h with h | h
  · rcases foldl_enter_mem h with h | ⟨h, hs⟩
    · cases h
    · exact ⟨.inr h, hs⟩
  · unfold trailing at h
    split at h
    · rw [mem_singleton.1 h]; exact ⟨.inl rfl, nil_not_dot⟩
    · cases h

theorem resolve_ne_nil (h : segments ≠ []) : resolve segments ≠ [] := by
  obtain ⟨init, last, rfl⟩ : ∃ init last, segments = init ++ [last] := ⟨_, _, (dropLast_append_getLast h).symm⟩
  by_cases hdot : IsDotSegment last
  · have htrail : trailing (init ++ [last]) = [[]] := if_pos ⟨last, by simp, hdot⟩
    rw [resolve, htrail]; simp
  · rw [resolve, foldl_append, foldl_cons, foldl_nil, enter_of_not hdot]; simp

/-! ## Paths -/

theorem segmentsOf_slash (rest : Text) : segmentsOf ('/' :: rest) = split ['/'] rest := by
  rw [segmentsOf, split_separator, tail_cons]

theorem path_segments (h : path.head? = some '/') : path = '/' :: join ['/'] (segmentsOf path) ∧
    segmentsOf path ≠ [] ∧ ∀ s ∈ segmentsOf path, '/' ∉ s := by
  obtain ⟨rest, rfl⟩ := head?_eq_some_iff.1 h
  rw [segmentsOf_slash]
  refine ⟨by rw [join_split_self], ?_, not_mem_split '/' _ _ rfl⟩
  rw [split, splitGo_find (by simp)]
  split <;> simp

theorem segmentsOf_join (hne : segments ≠ []) (h : ∀ s ∈ segments, '/' ∉ s) :
    segmentsOf ('/' :: join ['/'] segments) = segments := by
  rw [segmentsOf_slash, split_join hne h]

theorem mem_of_dotSegment {s : Text} (h : IsDotSegment s) : '.' ∈ s ∨ '%' ∈ s := by
  have hdots : ∀ a ∈ dots, '.' ∈ a ∨ '%' ∈ a := by decide
  rcases h with ⟨a, ha, b, hb, rfl⟩ | h
  · rcases hdots a ha with h | h
    · exact .inl (mem_append_left _ h)
    · exact .inr (mem_append_left _ h)
  · exact hdots s h

theorem mem_of_mem_segment {s : Text} (hs : s ∈ segmentsOf path) {c : Char} (hc : c ∈ s) : c ∈ path :=
  split_subset (mem_of_mem_tail hs) hc

theorem withoutDotSegments_eq (h : path.head? = some '/') :
    withoutDotSegments path = '/' :: join ['/'] (resolve (segmentsOf path)) := by
  unfold withoutDotSegments
  split
  · next hno =>
    have hplain : ∀ s ∈ segmentsOf path, ¬ IsDotSegment s := by
      intro s hs hdot
      rcases mem_of_dotSegment hdot with hc | hc
      · exact not_mem_of_find hno.1 (mem_of_mem_segment hs hc)
      · exact not_mem_of_find hno.2 (mem_of_mem_segment hs hc)
    rw [resolve_plain hplain]; exact (path_segments h).1
  · rw [dotLoop_eq]; rfl

theorem slash_not_mem_resolve (h : ∀ s ∈ segments, '/' ∉ s) : ∀ s ∈ resolve segments, '/' ∉ s := by
  intro s hs
  rcases (resolve_mem hs).1 with rfl | hs
  · exact not_mem_nil
  · exact h s hs

section

variable (h : path.head? = some '/')
include h

theorem segmentsOf_withoutDotSegments : segmentsOf (withoutDotSegments path) = resolve (segmentsOf path) := by
  obtain ⟨_, hne, hslash⟩ := path_segments h
  rw [withoutDotSegments_eq h, segmentsOf_join (resolve_ne_nil hne) (slash_not_mem_resolve hslash)]

theorem head_withoutDotSegments : (withoutDotSegments path).head? = some '/' := by
  rw [withoutDotSegments_eq h]; rfl

theorem no_dot_segment : ∀ s ∈ segmentsOf (withoutDotSegments path), ¬ IsDotSegment s := by
  rw [segmentsOf_withoutDotSegments h]; exact fun s hs => (resolve_mem hs).2

theorem withoutDotSegments_eq_self : withoutDotSegments path = path ↔ ∀ s ∈ segmentsOf path, ¬ IsDotSegment s := by
  constructor
  · intro heq
    have := no_dot_segment h; rwa [heq] at this
  · intro hplain; rw [withoutDotSegments_eq h, resolve_plain hplain]; exact (path_segments h).1.symm

theorem withoutDotSegments_idem : withoutDotSegments (withoutDotSegments path) = withoutDotSegments path :=
  (withoutDotSegments_eq_self (head_withoutDotSegments h)).2 (no_dot_segment h)

theorem withoutDotSegments_subset : withoutDotSegments path ⊆ path := by
  intro c hc
  have hslash : '/' ∈ path := mem_of_head? h
  rw [withoutDotSegments_eq h] at hc
  rcases mem_cons.1 hc with rfl | hc
  · exact hslash
  · rcases mem_join hc with hc | ⟨s, hs, hc⟩
    · rw [mem_singleton.1 hc]; exact hslash
    · rcases (resolve_mem hs).1 with rfl | hs
      · cases hc
      · exact mem_of_mem_segment hs hc

end

/-- The characters of segments, each with a slash before it. -/
def weight (segments : List Text) : Nat := (segments.map (·.length + 1)).sum

theorem weight_append (s t : List Text) : weight (s ++ t) = weight s + weight t := by
  rw [weight, weight, weight, map_append, sum_append]

theorem length_join : ∀ {segments : List Text}, segments ≠ [] → (join ['/'] segments).length + 1 = weight segments
  | [], h => absurd rfl h
  | [s], _ => rfl
  | s :: t :: segments, _ => by
    have ih := length_join (cons_ne_nil t segments)
    have hcons : weight (s :: t :: segments) = s.length + 1 + weight (t :: segments) := rfl
    rw [hcons, ← ih, join, length_append, length_append, length_singleton]; omega

theorem weight_enter (stack : List Text) (s : Text) : weight (enter stack s) ≤ weight stack + (if IsDotSegment s then 0 else s.length + 1) := by
  have hdrop : weight stack.dropLast ≤ weight stack := by
    cases hs : stack.getLast? with
    | none => rw [getLast?_eq_none_iff.1 hs]; exact Nat.le_refl _
    | some last =>
      have := dropLast_append_getLast? last hs; rw [← this, weight_append, dropLast_concat]; omega
  by_cases h : IsDotSegment s
  · rw [if_pos h, Nat.add_zero, enter]
    split_ifs with h₁ h₂
    · exact hdrop
    · exact Nat.le_refl _
    · exact absurd h (not_or.2 ⟨h₁, h₂⟩)
  · rw [if_neg h, enter_of_not h, weight_append]; exact Nat.le_refl _

theorem weight_foldl_enter : ∀ segments stack : List Text, weight (segments.foldl enter stack) ≤ weight stack + weight segments
  | [], stack => Nat.le_refl _
  | s :: segments, stack => by
    have ih := weight_foldl_enter segments (enter stack s)
    have hs := weight_enter stack s
    have hcons : weight (s :: segments) = s.length + 1 + weight segments := rfl
    rw [foldl_cons, hcons]
    split at hs <;> omega

theorem weight_resolve (segments : List Text) : weight (resolve segments) ≤ weight segments := by
  rw [resolve, weight_append]
  by_cases hlast : ∃ s ∈ segments.getLast?, IsDotSegment s
  · obtain ⟨s, hs, hdot⟩ := hlast
    have hsplit := dropLast_append_getLast? s hs
    have htrail : trailing segments = [[]] := if_pos ⟨s, hs, hdot⟩
    -- the last segment is not kept, and longer than the empty one in its place
    have henter := weight_enter (segments.dropLast.foldl enter []) s
    have hinit := weight_foldl_enter segments.dropLast []
    rw [if_pos hdot] at henter
    have hfold : segments.foldl enter [] = enter (segments.dropLast.foldl enter []) s := by
      conv_lhs => rw [← hsplit]
      rw [foldl_append]; rfl
    have hweight : weight segments = weight segments.dropLast + (s.length + 1) := by
      conv_lhs => rw [← hsplit]
      rw [weight_append]; rfl
    have hnil : weight [] = 0 := rfl
    have hone : weight [[]] = 1 := rfl
    rw [htrail, hone, hfold, hweight]; omega
  · have htrail : trailing segments = [] := if_neg hlast
    have := weight_foldl_enter segments []
    have hnil : weight [] = 0 := rfl
    rw [htrail, hnil]; omega

theorem length_withoutDotSegments (h : path.head? = some '/') : (withoutDotSegments path).length ≤ path.length := by
  obtain ⟨hpath, hne, -⟩ := path_segments h
  have hlen := congrArg List.length hpath
  have hin := length_join hne
  have hout := length_join (resolve_ne_nil hne)
  have hweight := weight_resolve (segmentsOf path)
  rw [withoutDotSegments_eq h, hlen, length_cons, length_cons]; omega

/-! ## One path on top of another -/

/-- How many segments are taken away from below, by segments that are entered `depth` levels up. -/
def climb : Nat → List Text → Nat
  | _, [] => 0
  | depth, s :: segments =>
    if IsDotDot s then (if depth = 0 then climb 0 segments + 1 else climb (depth - 1) segments)
    else if IsDot s then climb depth segments else climb (depth + 1) segments

/-- What is entered on top of a stack takes away from it what it climbs, and leaves what it leaves alone. -/
theorem foldl_enter : ∀ (segments below own : List Text), segments.foldl enter (below ++ own) =
    below.take (below.length - climb own.length segments) ++ segments.foldl enter own
  | [], below, own => by simp [climb]
  | s :: segments, below, own => by
    rw [foldl_cons, foldl_cons, climb, enter, enter]
    split_ifs with h₁ h₂ h₃
    · obtain rfl := length_eq_zero_iff.1 h₂
      have ih := foldl_enter segments below.dropLast []
      rw [append_nil] at ih ⊢
      rw [ih, dropLast_nil, length_dropLast, dropLast_eq_take, take_take, length_nil]
      congr 2
      omega
    · have hne : own ≠ [] := fun h => h₂ (by rw [h]; rfl)
      rw [dropLast_append_of_ne_nil hne, foldl_enter segments, length_dropLast]
    · exact foldl_enter segments below own
    · rw [append_assoc, foldl_enter segments, length_append, length_singleton]

theorem foldl_enter_eq_iff (segments below : List Text) :
    segments.foldl enter below = segments.foldl enter [] ↔ below.length ≤ climb 0 segments := by
  have h := foldl_enter segments below []
  rw [append_nil, length_nil] at h
  rw [h]
  constructor
  · intro heq
    have hlen := congrArg List.length heq; rw [length_append, length_take] at hlen; omega
  · intro hle; rw [Nat.sub_eq_zero_of_le hle, take_zero, nil_append]

end NodeCompat.Web
