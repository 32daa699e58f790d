import NodeCompat.Web.Url

/-!
# A reference and its base

`new URL(url, base)` puts the base in front of a text without `://`. A reference that begins with `/` therefore takes the
base's path, query or fragment as its own beginning, and one whose query holds `://` is taken for an absolute URL. When
the result is the reference at the origin of the base is `resolves_iff`.
-/

namespace NodeCompat.Web

open List Option

theorem segmentsOf_append {path below : Text} (h : path.head? = some '/') (hbelow : below.head? = some '/') :
    segmentsOf (below ++ path) = segmentsOf below ++ segmentsOf path := by
  obtain ⟨p, rfl⟩ := head?_eq_some_iff.1 h
  obtain ⟨q, rfl⟩ := head?_eq_some_iff.1 hbelow
  rw [cons_append, segmentsOf_slash, segmentsOf_slash, segmentsOf_slash, split_append_split p _ q rfl]

/-- A path that is entered on top of another one is what it would be alone if and only if it climbs to the root. -/
theorem withoutDotSegments_append {path below : Text} (h : path.head? = some '/') (hbelow : below.head? = some '/') :
    withoutDotSegments (below ++ path) = withoutDotSegments path ↔
      ((segmentsOf below).foldl enter []).length ≤ climb 0 (segmentsOf path) := by
  have hhead : (below ++ path).head? = some '/' := by obtain ⟨q, rfl⟩ := head?_eq_some_iff.1 hbelow; rfl
  obtain ⟨-, hne, -⟩ := path_segments h
  have htrail : trailing (segmentsOf below ++ segmentsOf path) = trailing (segmentsOf path) := by
    rw [trailing, trailing, getLast?_append_of_ne_nil _ hne]
  have hresolve : resolve (segmentsOf (below ++ path)) =
      (segmentsOf path).foldl enter ((segmentsOf below).foldl enter []) ++ trailing (segmentsOf path) := by
    rw [segmentsOf_append h hbelow, resolve, htrail, foldl_append]
  rw [← foldl_enter_eq_iff]
  constructor
  · intro heq
    have := congrArg segmentsOf heq
    rw [segmentsOf_withoutDotSegments hhead, segmentsOf_withoutDotSegments h, hresolve, resolve] at this
    exact append_cancel_right this
  · intro heq; rw [withoutDotSegments_eq hhead, withoutDotSegments_eq h, hresolve, heq, resolve]

namespace URL

/-- The pieces that the parser cuts out of the text behind the scheme. -/
structure Parts where
  authority : Text
  path : Text
  query : Text
  hash : Text

def partsOf (rest : Text) : Parts where
  authority := (cutAt '/' (cutAt '?' (cutAt '#' rest).1).1).1
  path := (cutAt '/' (cutAt '?' (cutAt '#' rest).1).1).2
  query := (cutAt '?' (cutAt '#' rest).1).2
  hash := (cutAt '#' rest).2

theorem parse_parts {scheme : Text} (h : ':' ∉ scheme) (rest : Text) :
    parse (scheme ++ ':' :: '/' :: '/' :: rest) = (URLSearchParams.create (partsOf rest).query).map fun params =>
      let ((username, password), host) := parseAuthority (partsOf rest).authority
      let (hostname, port) := parseHost host
      { protocol := toLowerCase scheme ++ [':'], hostnameValue := hostname, portValue := port, usernameValue := username,
        passwordValue := password, pathname := parsePath (toLowerCase scheme ++ [':']) (partsOf rest).path,
        hash := (partsOf rest).hash, searchParams := params } := by
  rw [parse, parseScheme_append h]; rfl

/-- The path, the query and the text before the fragment of a reference. -/
def pathOf (r : Text) : Text := (cutAt '?' (cutAt '#' r).1).1

def queryOf (r : Text) : Text := (cutAt '?' (cutAt '#' r).1).2

theorem cutAt_append_right {c : Char} {s : Text} (h : (cutAt c s).2 ≠ []) (t : Text) :
    cutAt c (s ++ t) = ((cutAt c s).1, (cutAt c s).2 ++ t) := by
  obtain ⟨hs, hc, hmark⟩ := cutAt_spec c s
  have hhead : ((cutAt c s).2 ++ t).head? = some c := by
    rw [head?_append_of_ne_nil _ h]; exact hmark.resolve_left h
  have := cutAt_append hc (.inr hhead); rwa [← append_assoc, ← hs] at this

theorem cutAt_append_left {c : Char} {s : Text} (h : (cutAt c s).2 = []) (t : Text) :
    cutAt c (s ++ t) = (s ++ (cutAt c t).1, (cutAt c t).2) := by
  obtain ⟨hs, hc, -⟩ := cutAt_spec c s
  obtain ⟨ht, hct, hmark⟩ := cutAt_spec c t
  rw [h, append_nil] at hs
  rw [← hs] at hc
  have hboth : c ∉ s ++ (cutAt c t).1 := by rw [mem_append, not_or]; exact ⟨hc, hct⟩
  have := cutAt_append hboth hmark; rwa [append_assoc, ← ht] at this

theorem cutAt_fst_of_nil {c : Char} {s : Text} (h : (cutAt c s).2 = []) : (cutAt c s).1 = s := by
  have hs := (cutAt_spec c s).1; rw [h, append_nil] at hs; exact hs.symm

section Append

variable {rest r : Text}

theorem partsOf_append_hash (h : (partsOf rest).hash ≠ []) (r : Text) :
    partsOf (rest ++ r) = { partsOf rest with hash := (partsOf rest).hash ++ r } := by
  unfold partsOf; rw [cutAt_append_right h]

theorem partsOf_append_query (hhash : (partsOf rest).hash = []) (hquery : (partsOf rest).query ≠ []) (r : Text) :
    partsOf (rest ++ r) =
      { partsOf rest with query := (partsOf rest).query ++ (cutAt '#' r).1, hash := (cutAt '#' r).2 } := by
  have hsame : (cutAt '#' rest).1 = rest := cutAt_fst_of_nil hhash
  unfold partsOf at hquery ⊢
  rw [hsame] at hquery ⊢; rw [cutAt_append_left hhash]; rw [cutAt_append_right hquery]

theorem partsOf_append_path (hhash : (partsOf rest).hash = []) (hquery : (partsOf rest).query = [])
    (hr : (pathOf r).head? = some '/') : partsOf (rest ++ r) =
      { authority := (partsOf rest).authority, path := (partsOf rest).path ++ pathOf r, query := queryOf r,
        hash := (cutAt '#' r).2 } := by
  have hsame : (cutAt '#' rest).1 = rest := cutAt_fst_of_nil hhash
  unfold partsOf at hquery ⊢
  rw [hsame] at hquery ⊢
  have hsame' : (cutAt '?' rest).1 = rest := cutAt_fst_of_nil hquery
  rw [cutAt_append_left hhash, hsame']
  rw [cutAt_append_left hquery]
  by_cases hpath : (cutAt '/' rest).2 = []
  · obtain ⟨p, hp⟩ := head?_eq_some_iff.1 hr
    have hslash : cutAt '/' (pathOf r) = ([], pathOf r) := cutAt_append (a := []) not_mem_nil (.inr hr)
    have hrest : (cutAt '/' rest).1 = rest := cutAt_fst_of_nil hpath
    have hcut := cutAt_append_left hpath (pathOf r)
    rw [hslash, append_nil] at hcut
    rw [hpath, hrest]
    exact congrArg (fun c : Text × Text => Parts.mk c.1 c.2 (queryOf r) (cutAt '#' r).2) hcut
  · exact congrArg (fun c : Text × Text => Parts.mk c.1 c.2 (queryOf r) (cutAt '#' r).2)
      (cutAt_append_right hpath (pathOf r))

end Append

/-! ## The origin of the base -/

/-- The reference is resolved to its own path at the origin of the base. -/
def Resolves (base r : Text) : Prop :=
  ∃ b u, create base [] = some b ∧ create r base = some u ∧ u.protocol = b.protocol ∧ u.host = b.host ∧
    u.origin = b.origin ∧ u.pathname = withoutDotSegments (pathOf r)

/-- The reference has no `://`, what becomes of its query can be decoded, and the path that the base brings is used up by
the reference, or the one that it keeps is that of the reference. -/
def Fits (protocol : Text) (base : Parts) (r : Text) : Prop := find (chars "://") r = none ∧
    if base.hash ≠ [] then parsePath protocol base.path = withoutDotSegments (pathOf r)
    else if base.query ≠ [] then
      WellEscaped (cutAt '#' r).1 ∧ parsePath protocol base.path = withoutDotSegments (pathOf r)
    else WellEscaped (queryOf r) ∧
      if isSpecialUrlScheme protocol then
        ((segmentsOf base.path).foldl enter []).length ≤ climb 0 (segmentsOf (pathOf r))
      else base.path = [] ∧ ∀ s ∈ segmentsOf (pathOf r), ¬ IsDotSegment s

theorem create_relative (scheme rest : Text) {r : Text} (h : find (chars "://") r = none) :
    create r (scheme ++ chars "://" ++ rest) = parse (scheme ++ ':' :: '/' :: '/' :: (rest ++ r)) := by
  have hpat : chars "://" = [':', '/', '/'] := rfl
  have hne : scheme ++ chars "://" ++ rest ≠ [] := by simp [hpat]
  rw [create, if_pos ⟨hne, h⟩, hpat]; simp

theorem path_head {r : Text} (h : r.head? = some '/') : (pathOf r).head? = some '/' := by
  obtain ⟨t, rfl⟩ := head?_eq_some_iff.1 h
  have hcut : ∀ {c : Char} {s : Text}, c ≠ '/' → (cutAt c ('/' :: s)).1.head? = some '/' := by
    intro c s hc
    have hp : ¬ [c] <+: '/' :: s := fun hp => hc (cons_prefix_cons.1 hp).1
    rw [cutAt, find_cons_of_not hp]
    cases find [c] s <;> rfl
  obtain ⟨t', ht'⟩ := head?_eq_some_iff.1 (hcut (c := '#') (s := t) (by decide))
  rw [pathOf, ht']; exact hcut (by decide)

/-- The same authority behind the same scheme: whether the reference is resolved depends on the query and the path. -/
theorem resolves_parts {scheme rest r : Text} (hcolon : ':' ∉ scheme)
    (hb : (create (scheme ++ chars "://" ++ rest) []).isSome) (h : find (chars "://") r = none)
    (hsame : (partsOf (rest ++ r)).authority = (partsOf rest).authority) :
    Resolves (scheme ++ chars "://" ++ rest) r ↔ WellEscaped (partsOf (rest ++ r)).query ∧
      parsePath (toLowerCase scheme ++ [':']) (partsOf (rest ++ r)).path = withoutDotSegments (pathOf r) := by
  rw [create_absolute, parse_parts hcolon, isSome_map] at hb
  obtain ⟨params, hparams⟩ := isSome_iff_exists.1 hb
  rw [Resolves, create_absolute, create_relative scheme rest h, parse_parts hcolon, parse_parts hcolon, hsame, hparams,
    ← URLSearchParams.create_isSome]
  constructor
  · rintro ⟨b, u, -, hu, -, -, -, hpath⟩
    obtain ⟨params', hparams', rfl⟩ := map_eq_some_iff.1 hu; exact ⟨by rw [hparams']; rfl, hpath⟩
  · rintro ⟨hquery, hpath⟩
    obtain ⟨params', hparams'⟩ := isSome_iff_exists.1 hquery
    rw [hparams']; exact ⟨_, _, rfl, rfl, rfl, rfl, rfl, hpath⟩

theorem not_resolves {scheme rest r : Text} {i : Nat} (hscheme : scheme.all isSchemeChar = true) (hr : r.head? = some '/')
    (h : find (chars "://") r = some i) : ¬ Resolves (scheme ++ chars "://" ++ rest) r := by
  rintro ⟨b, u, hb, hu, hprotocol, -⟩
  rw [create_absolute, parse_parts (colon_not_mem_scheme hscheme)] at hb
  obtain ⟨_, -, rfl⟩ := map_eq_some_iff.1 hb
  have hnot : ¬ (scheme ++ chars "://" ++ rest ≠ [] ∧ find (chars "://") r = none) := by rw [h]; simp
  rw [create, if_neg hnot, parse, parseScheme, h] at hu
  obtain ⟨_, -, rfl⟩ := map_eq_some_iff.1 hu
  obtain ⟨t, rfl⟩ := head?_eq_some_iff.1 hr
  have hp : ¬ chars "://" <+: '/' :: t := fun hp => absurd (cons_prefix_cons.1 hp).1 (by decide)
  rw [find_cons_of_not hp] at h
  obtain ⟨j, -, rfl⟩ := map_eq_some_iff.1 h
  have hprotocol : toLowerCase (('/' :: t).take (j + 1)) ++ [':'] = toLowerCase scheme ++ [':'] := hprotocol
  have hslash : '/' ∈ toLowerCase scheme ++ [':'] := by
    rw [← hprotocol]; exact mem_append_left _ (List.mem_map.2 ⟨'/', by simp, rfl⟩)
  rcases mem_append.1 hslash with hmem | hmem
  · obtain ⟨d, hd, heq⟩ := List.mem_map.1 hmem
    rw [toLower_eq_of_not_lower (by decide) heq] at hd
    exact absurd (List.all_eq_true.1 hscheme '/' hd) (by decide)
  · exact absurd (mem_singleton.1 hmem) (by decide)

theorem parsePath_below {protocol path : Text} {below : Text} (h : path.head? = some '/')
    (hbelow : below = [] ∨ below.head? = some '/') :
    parsePath protocol (below ++ path) = withoutDotSegments path ↔
      if isSpecialUrlScheme protocol then ((segmentsOf below).foldl enter []).length ≤ climb 0 (segmentsOf path)
      else below = [] ∧ ∀ s ∈ segmentsOf path, ¬ IsDotSegment s := by
  have hne : below ++ path ≠ [] := by
    intro hnil; rw [(append_eq_nil_iff.1 hnil).2] at h; cases h
  rw [parsePath, if_neg hne]
  split
  · rcases hbelow with rfl | hbelow
    · exact iff_of_true rfl (Nat.zero_le _)
    · exact withoutDotSegments_append h hbelow
  · rw [← withoutDotSegments_eq_self h]
    constructor
    · intro heq
      have hlen := length_withoutDotSegments h
      have hboth := congrArg List.length heq
      rw [length_append] at hboth
      obtain rfl := length_eq_zero_iff.1 (show below.length = 0 by omega)
      exact ⟨rfl, heq.symm⟩
    · rintro ⟨rfl, hself⟩; exact hself.symm

/-- A reference that begins with a slash is resolved at the origin of an absolute base if and only if it fits the base. -/
theorem resolves_iff (scheme rest r : Text) (hscheme : scheme.all isSchemeChar = true)
    (hb : (create (scheme ++ chars "://" ++ rest) []).isSome) (hr : r.head? = some '/') :
    Resolves (scheme ++ chars "://" ++ rest) r ↔ Fits (toLowerCase scheme ++ [':']) (partsOf rest) r := by
  have hcolon := colon_not_mem_scheme hscheme
  cases hfind : find (chars "://") r with
  | some i =>
    refine iff_of_false (not_resolves hscheme hr hfind) fun h => ?_
    rw [Fits, hfind] at h; cases h.1
  | none =>
    have hbase : WellEscaped (partsOf rest).query := by
      rwa [create_absolute, parse_parts hcolon, isSome_map, URLSearchParams.create_isSome] at hb
    rw [Fits, and_iff_right hfind]
    split_ifs with hhash hquery
    · have hparts := partsOf_append_hash hhash r
      rw [resolves_parts hcolon hb hfind (by rw [hparts]), hparts]; exact and_iff_right hbase
    · have hparts := partsOf_append_query (not_not.1 hhash) hquery r
      obtain ⟨t, ht⟩ := head?_eq_some_iff.1 (show (cutAt '#' r).1.head? = some '/' by
        obtain ⟨t, rfl⟩ := head?_eq_some_iff.1 hr
        rw [cutAt, find_cons_of_not (by simp)]
        cases find ['#'] t <;> rfl)
      have hescaped : WellEscaped ((partsOf rest).query ++ (cutAt '#' r).1) ↔ WellEscaped (cutAt '#' r).1 := by
        rw [ht, wellEscaped_append (by decide) (by decide), wellEscaped_cons (by decide) (by decide)]
        exact and_iff_right hbase
      rw [resolves_parts hcolon hb hfind (by rw [hparts]), hparts, hescaped]
    all_goals
      have hparts := partsOf_append_path (not_not.1 hhash) (not_not.1 hquery) (path_head hr)
      have hbelow : (partsOf rest).path = [] ∨ (partsOf rest).path.head? = some '/' := (cutAt_spec '/' _).2.2
      rw [resolves_parts hcolon hb hfind (by rw [hparts]), hparts, parsePath_below (path_head hr) hbelow]
      simp only [*, if_true, if_false, Bool.false_eq_true]

theorem resolves_bare_base : Resolves (chars "HTTPS" ++ chars "://" ++ chars "u@host:8443") (chars "/a/%2e./x/?q=1#f") :=
  (resolves_iff (chars "HTTPS") (chars "u@host:8443") (chars "/a/%2e./x/?q=1#f") (by decide) (by decide +kernel) (by decide)).2
    ⟨by decide, by
      rw [if_neg (by decide), if_neg (by decide)]; exact ⟨wellEscaped_iff.2 (by decide +kernel), by decide⟩⟩

/-- The base's slash becomes part of the path. -/
theorem slash_kept : ¬ ∀ base r : Text, (create base []).isSome → r.head? = some '/' → ¬ chars "//" <+: r → Resolves base r := by
  intro h
  obtain ⟨b, u, -, hu, -, -, -, hpath⟩ := h (chars "http://host/") (chars "/x") (by decide +kernel) (by decide) (by decide)
  have hurl : (create (chars "/x") (chars "http://host/")).map URL.pathname = some (chars "//x") := by decide +kernel
  rw [hu, map_some, hpath] at hurl; exact absurd hurl (by decide)

end URL
end NodeCompat.Web
