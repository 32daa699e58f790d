import Mathlib.Data.List.Forall2
import NodeCompat.Web.Url

/-!
# The file path of a URL

`filePath` decodes the path of a `file:` URL, in which the URL parser has left no dot segment. On POSIX that is all there is
to a path: an escaped slash is refused, and a segment that is decoded to `..` is one of the spellings that the parser knows.
On Windows a backslash separates segments too. An escaped one is refused, but the parser takes a bare one for a character of
a segment, so `a\..\b` comes through (`dot_segments`).
-/

namespace NodeCompat.Fs

open List Option

open Web

/-! ## The function -/

variable {c : Char} {base g path s : Text} {u : URL}

inductive FilePathError
  | scheme
  | host
  | encodedSlash
  | encodedSlashes
  | relative
  | malformed
deriving DecidableEq

/-- The text of the `TypeError`; the last one is the `URIError` of `decodeURIComponent`. -/
def FilePathError.message : FilePathError → String
  | .scheme => "The URL must be of scheme file"
  | .host => "File URL host must be localhost or empty"
  | .encodedSlash => "File URL path must not include encoded / characters"
  | .encodedSlashes => "File URL path must not include encoded \\ or / characters"
  | .relative => "File URL path must be absolute"
  | .malformed => "URI malformed"

/-- A path as the functions of `fs` take it. -/
inductive PathLike
  | text (path : Text)
  | url (path : URL)

/-- Is one of the two spellings of an escape in the path? -/
def holdsEscape (lower upper path : Text) : Bool := (find lower path).isSome || (find upper path).isSome

def holdsSlash (path : Text) : Bool := holdsEscape (chars "%2f") (chars "%2F") path

def holdsBackslash (path : Text) : Bool := holdsEscape (chars "%5c") (chars "%5C") path

/-- `path.replace(/\//g, '\\')` -/
def backslashed (path : Text) : Text := path.map (fun c => if c = '/' then '\\' else c)

def isLetterAt (path : Text) (i : Nat) : Bool :=
  match path[i]? with
  | some c => 97 ≤ (c.toNat ||| 0x20) && (c.toNat ||| 0x20) ≤ 122
  | none => false

def windowsFilePath (path : URL) : Except FilePathError Text :=
  if holdsSlash path.pathname || holdsBackslash path.pathname then .error .encodedSlashes
  else
    match decodeURIComponent (backslashed path.pathname) with
    | none => .error .malformed
    | some pathname =>
      if path.hostname ≠ [] ∧ path.hostname ≠ chars "localhost" then .ok (['\\', '\\'] ++ path.hostname ++ pathname)
      else if pathname.length < 3 ∨ isLetterAt pathname 1 = false ∨ pathname[2]? ≠ some ':' then .error .relative
      else .ok (pathname.drop 1)

/-- `win32` is whether the platform is. -/
def filePath (win32 : Bool) : PathLike → Except FilePathError Text
  | .text path => .ok path
  | .url path =>
    if path.protocol ≠ chars "file:" then .error .scheme
    else if win32 then windowsFilePath path
    else if path.hostname ≠ [] ∧ path.hostname ≠ chars "localhost" then .error .host
    else if holdsSlash path.pathname then .error .encodedSlash
    else
      match decodeURIComponent path.pathname with
      | none => .error .malformed
      | some pathname => .ok pathname

/-! ## Separators and escapes -/

theorem digitValue_cases {d : Char} {n : Nat} (h : digitValue d = some n) : n < 16 ∧
    (d.toNat = (if n < 10 then 48 + n else 55 + n) ∨ 10 ≤ n ∧ d.toNat = 87 + n) := by
  unfold digitValue at h
  split_ifs at h <;> cases h
  · exact ⟨by omega, .inl (by rw [if_pos (by omega)]; omega)⟩
  · exact ⟨by omega, .inl (by rw [if_neg (by omega)]; omega)⟩
  · exact ⟨by omega, .inr (by omega)⟩

theorem spells_ascii (hc : c.toNat < 128) (h : Spells (String.utf8EncodeChar c) g) :
    ∃ a b, g = ['%', a, b] ∧ digitValue a = some (c.toNat / 16) ∧ digitValue b = some (c.toNat % 16) := by
  have hbytes : String.utf8EncodeChar c = [UInt8.ofNat c.toNat] := by
    exact if_pos (show c.val.toNat ≤ 0x7F by have : c.val.toNat = c.toNat := rfl; omega)
  rw [hbytes] at h
  generalize hb : UInt8.ofNat c.toNat = byte at h
  cases h with
  | @cons a b x y bs g ha hb' hg =>
    cases hg
    have hx := (digitValue_cases ha).1
    have hy := (digitValue_cases hb').1
    have hn := congrArg UInt8.toNat hb
    rw [UInt8.toNat_ofNat', UInt8.toNat_ofNat', Nat.mod_eq_of_lt (by omega), Nat.mod_eq_of_lt (by omega)] at hn
    have hdiv : c.toNat / 16 = x := by omega
    have hmod : c.toNat % 16 = y := by omega
    exact ⟨a, b, rfl, by rw [hdiv]; exact ha, by rw [hmod]; exact hb'⟩

theorem char_of_digit {d : Char} {n : Nat} (h : digitValue d = some n) :
    d = escapeDigit n ∨ 10 ≤ n ∧ d = Char.ofNat (87 + n) := by
  obtain ⟨hn, hd | ⟨hten, hd⟩⟩ := digitValue_cases h
  · left; rw [escapeDigit, ← hd, Char.ofNat_toNat]
  · right; rw [← hd, Char.ofNat_toNat]; exact ⟨hten, rfl⟩

theorem spells_slash (h : Spells (String.utf8EncodeChar '/') g) : g = chars "%2f" ∨ g = chars "%2F" := by
  obtain ⟨a, b, rfl, ha, hb⟩ := spells_ascii (by decide) h
  obtain rfl : a = '2' := (char_of_digit ha).resolve_right fun h => absurd h.1 (by decide)
  rcases char_of_digit hb with rfl | ⟨-, rfl⟩
  · exact .inr rfl
  · exact .inl rfl

theorem spells_backslash (h : Spells (String.utf8EncodeChar '\\') g) : g = chars "%5c" ∨ g = chars "%5C" := by
  obtain ⟨a, b, rfl, ha, hb⟩ := spells_ascii (by decide) h
  obtain rfl : a = '5' := (char_of_digit ha).resolve_right fun h => absurd h.1 (by decide)
  rcases char_of_digit hb with rfl | ⟨-, rfl⟩
  · exact .inr rfl
  · exact .inl rfl

theorem spells_dot (h : Spells (String.utf8EncodeChar '.') g) : g ∈ dots := by
  obtain ⟨a, b, rfl, ha, hb⟩ := spells_ascii (by decide) h
  obtain rfl : a = '2' := (char_of_digit ha).resolve_right fun h => absurd h.1 (by decide)
  rcases char_of_digit hb with rfl | ⟨-, rfl⟩ <;> exact mem_of_elem_eq_true (by decide)

/-! ## Segments are decoded one by one -/

/-- No escape of the character is in the string. -/
def Unescaped (c : Char) (s : Text) : Prop := ∀ g, Spells (String.utf8EncodeChar c) g → ¬ g <:+: s

theorem Unescaped.within {t : Text} (h : Unescaped c t) (hst : s <:+: t) : Unescaped c s :=
  fun g hg hgs => h g hg (hgs.trans hst)

theorem not_mem_decoded {t : Text} (h : Decodes s t) : c ∉ s → Unescaped c s → c ∉ t := by
  induction h with
  | nil => exact fun h _ => h
  | @plain d s t _ _ ih =>
    intro hc hno; rw [mem_cons, not_or] at hc ⊢; exact ⟨hc.1, ih hc.2 (hno.within (suffix_cons d s).isInfix)⟩
  | @escape d g s t hg _ ih =>
    intro hc hno
    rw [mem_append, not_or] at hc
    rw [mem_cons, not_or]
    refine ⟨?_, ih hc.2 (hno.within (suffix_append g s).isInfix)⟩
    rintro rfl; exact hno g hg (prefix_append g s).isInfix

theorem decodes_split (hc : c ≠ '%') (hdigit : digitValue c = none) : ∀ (n : Nat) {s t : Text}, s.length = n →
    Decodes s t → Unescaped c s → List.Forall₂ Decodes (split [c] s) (split [c] t) := by
  intro n
  induction n using Nat.strongRecOn with
  | ind n ih =>
    intro s t hn h hno
    cases hf : find [c] s with
    | none =>
      have hs := not_mem_of_find hf; rw [split_not_mem hs, split_not_mem (not_mem_decoded h hs hno)]; exact .cons h .nil
    | some i =>
      obtain ⟨hs, hci⟩ := find_cut hf
      have hlen := find_le hf
      simp only [length_singleton] at hlen
      obtain ⟨a, b, rfl, ha, hb⟩ := h.split hc hdigit hs
      have htake : Unescaped c (s.take i) := hno.within (List.take_prefix i s).isInfix
      have hdrop : Unescaped c (s.drop (i + 1)) := hno.within (drop_suffix (i + 1) s).isInfix
      rw [split_some (by simp) hf, split_append (not_mem_decoded ha hci htake)]
      exact .cons ha (ih _ (by rw [length_drop, length_singleton]; omega) rfl hb hdrop)

theorem decodes_dot : Decodes s ['.'] ↔ IsDot s := by
  constructor
  · intro h
    generalize ht : (['.'] : Text) = t at h
    cases h with
    | nil => cases ht
    | plain _ hs =>
      obtain ⟨rfl, rfl⟩ := List.cons.inj ht
      cases hs; exact mem_of_elem_eq_true (by decide)
    | escape hg hs =>
      obtain ⟨rfl, rfl⟩ := List.cons.inj ht
      cases hs; rw [append_nil]; exact spells_dot hg
  · intro h
    have hall : ∀ a ∈ dots, decodeURIComponent a = some ['.'] := by decide
    exact decodes_of_decodeURIComponent (hall s h)

theorem decodes_dotDot : Decodes s ['.', '.'] ↔ IsDotDot s := by
  constructor
  · intro h
    generalize ht : (['.', '.'] : Text) = t at h
    cases h with
    | nil => cases ht
    | @plain _ s _ _ hs =>
      obtain ⟨rfl, rfl⟩ := List.cons.inj ht; exact ⟨['.'], mem_of_elem_eq_true (by decide), s, decodes_dot.1 hs, rfl⟩
    | @escape _ g s _ hg hs =>
      obtain ⟨rfl, rfl⟩ := List.cons.inj ht; exact ⟨g, spells_dot hg, s, decodes_dot.1 hs, rfl⟩
  · rintro ⟨a, ha, b, hb, rfl⟩; exact (decodes_dot.2 ha).append (decodes_dot.2 hb)

theorem dotDot_decoded {ss ts : List Text} (h : List.Forall₂ Decodes ss ts) :
    ['.', '.'] ∈ ts ↔ ∃ s ∈ ss, IsDotDot s := by
  induction h with
  | nil => simp
  | @cons s t ss ts hst _ ih =>
    rw [mem_cons, ih, exists_mem_cons_iff]
    refine or_congr ⟨?_, ?_⟩ Iff.rfl
    · rintro rfl; exact decodes_dotDot.1 hst
    · intro hs
      have := decodeURIComponent_of_decodes (decodes_dotDot.2 hs)
      rw [decodeURIComponent_of_decodes hst] at this; exact (Option.some.inj this).symm

/-! ## The paths of constructed URLs -/

theorem create_pathname {text : Text} (h : URL.create text base = some u) :
    ∃ path, (path = [] ∨ path.head? = some '/') ∧ u.pathname = URL.parsePath u.protocol path := by
  obtain ⟨_, -, rfl⟩ := map_eq_some_iff.1 h; exact ⟨_, (cutAt_spec '/' _).2.2, rfl⟩

theorem create_file {text : Text} (h : URL.create text base = some u) (hfile : u.protocol = chars "file:") :
    u.pathname.head? = some '/' ∧ ∀ s ∈ segmentsOf u.pathname, ¬ IsDotSegment s := by
  obtain ⟨path, hpath, hname⟩ := create_pathname h
  have hhead : u.pathname.head? = some '/' := by rw [hname]; exact URL.parsePath_head hpath _
  refine ⟨hhead, ?_⟩
  have hspecial : isSpecialUrlScheme (chars "file:") = true := by decide
  rw [← withoutDotSegments_eq_self hhead]
  have hself := URL.parsePath_idem hpath u.protocol
  rw [← hname, URL.parsePath, hfile, if_pos hspecial] at hself
  rwa [if_neg] at hself
  intro hnil; rw [hnil] at hhead; cases hhead

theorem unescaped_of_find {lower upper : Text}
    (hspells : ∀ g, Spells (String.utf8EncodeChar c) g → g = lower ∨ g = upper)
    (h : holdsEscape lower upper path = false) : Unescaped c path := by
  simp only [holdsEscape, Bool.or_eq_false_iff, isSome_eq_false_iff, isNone_iff_eq_none] at h
  have hno : ∀ {g : Text}, find g path = none → ¬ g <:+: path := by
    rintro g hg ⟨a, b, rfl⟩
    have hp : g <+: (a ++ g ++ b).drop a.length := by rw [append_assoc, drop_left]; exact prefix_append g b
    obtain ⟨i, -, hi⟩ := find_of_prefix hp (by simp); rw [hg] at hi; cases hi
  intro g hg
  rcases hspells g hg with rfl | rfl
  · exact hno h.1
  · exact hno h.2

/-- The segments of a decoded path: a backslash separates them on Windows, and a slash everywhere. -/
def decodedSegments (win32 : Bool) (path : Text) : List Text :=
  if win32 then split ['\\'] (backslashed path) else split ['/'] path

def NoDotDot (win32 : Bool) (path : Text) : Prop := ['.', '.'] ∉ decodedSegments win32 path

/-- No spelling of two dots stands between separators: slashes of the path, on Windows also backslashes, of the host name
too. -/
def Contained : Bool → URL → Prop
  | true, u => ['.', '.'] ∉ split ['\\'] (backslashed u.hostname) ∧ ∀ s ∈ split ['\\'] (backslashed u.pathname), ¬ IsDotDot s
  | false, u => ∀ s ∈ split ['/'] u.pathname, ¬ IsDotDot s

theorem posix_dotDot {p : Text} (hslash : holdsSlash u.pathname = false)
    (hp : decodeURIComponent u.pathname = some p) : NoDotDot false p ↔ Contained false u := by
  have hsegments := decodes_split (c := '/') (by decide) (by decide) _ rfl (decodes_of_decodeURIComponent hp)
    (unescaped_of_find (fun g hg => spells_slash hg) hslash)
  have hsame : decodedSegments false p = split ['/'] p := rfl
  rw [NoDotDot, hsame, dotDot_decoded hsegments, Contained]; simp only [not_exists, not_and]

theorem contained_posix {text : Text} (h : URL.create text base = some u) (hfile : u.protocol = chars "file:") :
    Contained false u := by
  obtain ⟨hhead, hclean⟩ := create_file h hfile
  obtain ⟨rest, hrest⟩ := head?_eq_some_iff.1 hhead
  have hsplit : split ['/'] u.pathname = [] :: segmentsOf u.pathname := by
    rw [hrest, segmentsOf_slash, split_separator]
  intro s hs hdot
  rw [hsplit, mem_cons] at hs
  rcases hs with rfl | hs
  · exact absurd hdot (by decide)
  · exact hclean s hs (.inl hdot)

theorem backslashed_append (s t : Text) : backslashed (s ++ t) = backslashed s ++ backslashed t := map_append ..

theorem backslashed_of_not_mem (h : '/' ∉ s) : backslashed s = s := by
  have hid : ∀ c ∈ s, (if c = '/' then '\\' else c) = c := by
    intro c hc
    rw [if_neg]
    rintro rfl; exact h hc
  exact (map_congr_left hid).trans (List.map_id _)

theorem slash_not_mem_backslashed (s : Text) : '/' ∉ backslashed s := by
  intro h
  obtain ⟨c, -, hc⟩ := List.mem_map.1 h
  split at hc
  · cases hc
  · next hne => exact hne hc

theorem Unescaped.backslashed (hslash : ∀ g, Spells (String.utf8EncodeChar c) g → '\\' ∉ g)
    (h : Unescaped c s) : Unescaped c (backslashed s) := by
  rintro g hg ⟨a, b, hab⟩
  obtain ⟨ag, b', hs, hag, -⟩ := map_eq_append_iff.1 hab.symm
  obtain ⟨a', g', rfl, -, hg'⟩ := map_eq_append_iff.1 hag
  have hno : '/' ∉ g' := by
    intro hmem
    refine hslash g hg ?_
    rw [← hg']; exact List.mem_map.2 ⟨'/', hmem, if_pos rfl⟩
  have hsame : g' = g := (backslashed_of_not_mem hno).symm.trans hg'
  exact h g hg ⟨a', b', by rw [hs, hsame]⟩

/-- The decoded path is a backslash and a text without slashes, and its segments are those of the URL's path. -/
theorem windows_decoded {pathname : Text} (hhead : path.head? = some '/') (hslash : holdsSlash path = false)
    (hback : holdsBackslash path = false) (h : decodeURIComponent (backslashed path) = some pathname) :
    ∃ rest, pathname = '\\' :: rest ∧ '/' ∉ rest ∧
      (['.', '.'] ∈ split ['\\'] rest ↔ ∃ s ∈ split ['\\'] (backslashed path), IsDotDot s) := by
  have hdecodes := decodes_of_decodeURIComponent h
  have hunescapedBack : Unescaped '\\' (backslashed path) :=
    (unescaped_of_find (fun g hg => spells_backslash hg) hback).backslashed fun g hg => by
      rcases spells_backslash hg with rfl | rfl <;> decide
  have hunescapedSlash : Unescaped '/' (backslashed path) :=
    (unescaped_of_find (fun g hg => spells_slash hg) hslash).backslashed fun g hg => by
      rcases spells_slash hg with rfl | rfl <;> decide
  have hno := not_mem_decoded hdecodes (slash_not_mem_backslashed _) hunescapedSlash
  have hsegments := dotDot_decoded (decodes_split (c := '\\') (by decide) (by decide) _ rfl hdecodes hunescapedBack)
  obtain ⟨t, rfl⟩ := head?_eq_some_iff.1 hhead
  have hcons : backslashed ('/' :: t) = [] ++ '\\' :: backslashed t := rfl
  obtain ⟨a, rest, rfl, ha, -⟩ := hdecodes.split (by decide) (by decide) hcons
  obtain rfl : a = [] := (Option.some.inj (decodeURIComponent_of_decodes ha)).symm
  rw [nil_append, mem_cons, not_or] at hno
  rw [nil_append, split_separator, mem_cons, or_iff_right (by simp)] at hsegments
  exact ⟨rest, rfl, hno.2, hsegments⟩

theorem share_segments (host : Text) {rest : Text} (h : '/' ∉ rest) :
    decodedSegments true (['\\', '\\'] ++ host ++ '\\' :: rest) =
      [] :: [] :: (split ['\\'] (backslashed host) ++ split ['\\'] rest) := by
  have hmap : backslashed (['\\', '\\'] ++ host ++ '\\' :: rest) =
      '\\' :: '\\' :: (backslashed host ++ '\\' :: rest) := by
    have hcons : backslashed ('\\' :: rest) = '\\' :: rest := congrArg (List.cons '\\') (backslashed_of_not_mem h)
    rw [backslashed_append, backslashed_append, hcons]; rfl
  rw [decodedSegments, if_pos rfl, hmap, split_separator, split_separator, split_append_split rest _ _ rfl]

theorem windows_dotDot {p : Text} (hhead : u.pathname.head? = some '/') (h : windowsFilePath u = .ok p) :
    NoDotDot true p ↔ Contained true u := by
  unfold windowsFilePath at h
  split at h
  · cases h
  · next hescapes =>
    rw [Bool.or_eq_true, not_or, Bool.not_eq_true, Bool.not_eq_true] at hescapes
    split at h
    · cases h
    · next pathname hpathname =>
      obtain ⟨rest, rfl, hslash, hsegments⟩ := windows_decoded hhead hescapes.1 hescapes.2 hpathname
      have hnil : (['.', '.'] : Text) ≠ [] := by simp
      have hcontained : Contained true u ↔
          ['.', '.'] ∉ split ['\\'] (backslashed u.hostname) ∧ ['.', '.'] ∉ split ['\\'] rest := by
        simp only [Contained, hsegments, not_exists, not_and]
      rw [hcontained]
      split_ifs at h with hhost hletter
      · cases h
        rw [NoDotDot, share_segments u.hostname hslash, mem_cons, mem_cons, or_iff_right hnil, or_iff_right hnil,
          mem_append, not_or]
      · cases h
        have hlocal : ['.', '.'] ∉ split ['\\'] (backslashed u.hostname) := by
          rcases Classical.or_iff_not_imp_left.2 (fun h₁ => not_not.1 fun h₂ => hhost ⟨h₁, h₂⟩) with hh | hh <;>
            (rw [hh]; decide)
        rw [NoDotDot, decodedSegments, if_pos rfl, drop_succ_cons, drop_zero, backslashed_of_not_mem hslash]
        exact (and_iff_right hlocal).symm

/-! ## The result -/

/-- `withoutDotSegments` is the segment stack, early return or not; it leaves no dot segment, and its result alone. -/
structure Removed (path : Text) : Prop where
  stack : withoutDotSegments path = '/' :: join ['/'] (resolve (segmentsOf path))
  early : '/' :: join ['/'] (dotLoop [] (split ['/'] path).tail) = withoutDotSegments path
  clean : ∀ s ∈ segmentsOf (withoutDotSegments path), ¬ IsDotSegment s
  again : withoutDotSegments (withoutDotSegments path) = withoutDotSegments path

theorem removed (h : path.head? = some '/') : Removed path where
  stack := withoutDotSegments_eq h
  early := by rw [withoutDotSegments_eq h, dotLoop_eq]; rfl
  clean := no_dot_segment h
  again := withoutDotSegments_idem h

/-- Dot segments are removed, and the decoded path of an accepted URL has none of two dots if and only if the separators
that the platform knows make none of its path. -/
theorem dot_segments (win32 : Bool) {path p : Text} {u : URL} (hpath : path.head? = some '/')
    (hu : u.pathname.head? = some '/') (hp : filePath win32 (.url u) = .ok p) :
    (Removed path ∧ NoDotDot win32 p) ↔ Contained win32 u := by
  rw [and_iff_right (removed hpath)]
  rw [filePath] at hp
  split at hp
  · cases hp
  · cases win32 with
    | true => exact windows_dotDot hu hp
    | false =>
      rw [if_neg (by simp)] at hp
      split at hp
      · cases hp
      · split at hp
        · cases hp
        · next hslash =>
          split at hp
          · cases hp
          · next pathname hpathname =>
            cases hp; exact posix_dotDot (Bool.not_eq_true _ ▸ hslash) hpathname

/-- A bare backslash on Windows, and the same URL on POSIX. -/
def backslashUrl : Text := chars "file:///C:/a\\..\\b"

theorem dot_segments_posix : ∃ u p, URL.create backslashUrl [] = some u ∧ filePath false (.url u) = .ok p ∧
    Removed (chars "/x/%2E./y") ∧ NoDotDot false p := by
  have hu : ∃ u p, URL.create backslashUrl [] = some u ∧ u.pathname.head? = some '/' ∧ u.protocol = chars "file:" ∧
      filePath false (.url u) = .ok p := ⟨_, _, rfl, rfl, rfl, rfl⟩
  obtain ⟨u, p, hu, hhead, hfile, hp⟩ := hu
  exact ⟨u, p, hu, hp, (dot_segments false (by decide) hhead hp).2 (contained_posix hu hfile)⟩

theorem backslash_survives : ¬ ∀ (win32 : Bool) (text base p : Text) (u : URL), URL.create text base = some u →
    filePath win32 (.url u) = .ok p → NoDotDot win32 p := by
  intro h
  have hu : ∃ u, URL.create backslashUrl [] = some u ∧ filePath true (.url u) = .ok (chars "C:\\a\\..\\b") :=
    ⟨_, rfl, rfl⟩
  obtain ⟨u, hu, hp⟩ := hu; exact h true backslashUrl [] _ u hu hp (mem_of_elem_eq_true (by decide))

end NodeCompat.Fs
