import NodeCompat.Web.DotSegments
import NodeCompat.Web.SearchParams

/-!
# `URL`

The parser cuts the text at `://`, at the first `#`, at the first `?` of what is before it and at the first `/` of what is
before that; what is left is the authority, cut at its last `@`. No piece holds the character that it was cut off at, and
none gets one when it is normalised, so the serialised pieces are cut at the same places again (`href_fixed`). A base is put
in front of a relative text.
-/

namespace NodeCompat.Web

open List Option URLSearchParams

/-! ## The object -/

structure URL where
  protocol : Text := []
  hostnameValue : Text := []
  portValue : Text := []
  usernameValue : Text := []
  passwordValue : Text := []
  pathname : Text := ['/']
  hash : Text := []
  searchParams : URLSearchParams := []
deriving DecidableEq

def isSpecialUrlScheme (protocol : Text) : Bool :=
  [chars "http:", chars "https:", chars "ws:", chars "wss:", chars "ftp:", chars "file:"].contains protocol

/-- What is before a character, and the rest from it on. -/
def cutAt (c : Char) (s : Text) : Text × Text :=
  match find [c] s with
  | some i => (s.take i, s.drop i)
  | none => (s, [])

def lastIndexOf (c : Char) : Text → Option Nat
  | [] => none
  | d :: s =>
    match lastIndexOf c s with
    | some i => some (i + 1)
    | none => if d = c then some 0 else none

namespace URL

/-- The host name and the port. -/
def parseHost (value : Text) : Text × Text :=
  if value = [] then ([], [])
  else
    match if value.head? = some '[' then find [']'] value else none with
    | some bracket => (value.take (bracket + 1), if value[bracket + 1]? = some ':' then value.drop (bracket + 2) else [])
    | none =>
      match find [':'] value with
      | some firstColon =>
        if lastIndexOf ':' value = some firstColon then (value.take firstColon, value.drop (firstColon + 1)) else (value, [])
      | none => (value, [])

/-- The user name and the password. -/
def parseUserInfo (userInfo : Text) : Text × Text :=
  match find [':'] userInfo with
  | some colon => (userInfo.take colon, userInfo.drop (colon + 1))
  | none => (userInfo, [])

/-- The authority, at its last `@`: the user information, if there is any, and the host. -/
def parseAuthority (authority : Text) : (Text × Text) × Text :=
  match lastIndexOf '@' authority with
  | some at' => (parseUserInfo (authority.take at'), authority.drop (at' + 1))
  | none => (([], []), authority)

/-- The path that a URL is given. -/
def parsePath (protocol path : Text) : Text :=
  if path = [] then ['/'] else if isSpecialUrlScheme protocol then withoutDotSegments path else path

/-- The protocol, and the text behind it. -/
def parseScheme (full : Text) : Text × Text :=
  match find (chars "://") full with
  | some scheme => (toLowerCase (full.take scheme) ++ [':'], full.drop (scheme + 3))
  | none => ([], full)

/-- No object is the `URIError` of the query. -/
def parse (full : Text) : Option URL :=
  let (protocol, rest) := parseScheme full
  let (rest, hash) := cutAt '#' rest
  let (rest, query) := cutAt '?' rest
  let (authority, path) := cutAt '/' rest
  let ((username, password), host) := parseAuthority authority
  let (hostname, port) := parseHost host
  (URLSearchParams.create query).map fun params =>
    { protocol := protocol, hostnameValue := hostname, portValue := port, usernameValue := username,
      passwordValue := password, pathname := parsePath protocol path, hash := hash, searchParams := params }

/-- What `parse` stores before it reads the query, and the text of the query. -/
def assign (full : Text) : URL × Text :=
  let (protocol, rest) := parseScheme full
  let (rest, hash) := cutAt '#' rest
  let (rest, query) := cutAt '?' rest
  let (authority, path) := cutAt '/' rest
  let ((username, password), host) := parseAuthority authority
  let (hostname, port) := parseHost host
  ({ protocol, hostnameValue := hostname, portValue := port, usernameValue := username, passwordValue := password,
     pathname := parsePath protocol path, hash }, query)

theorem parse_assign (full : Text) : parse full =
    (URLSearchParams.create (assign full).2).map fun params => { (assign full).1 with searchParams := params } := rfl

/-- `new URL(url, base)` of two texts. -/
def create (url base : Text) : Option URL :=
  parse (if base ≠ [] ∧ find (chars "://") url = none then base ++ url else url)

variable (u : URL)

def username : Text := u.usernameValue

def password : Text := u.passwordValue

def hostname : Text := u.hostnameValue

def port : Text := u.portValue

def host : Text := if u.portValue ≠ [] then u.hostnameValue ++ [':'] ++ u.portValue else u.hostnameValue

def search : Text :=
  let query := u.searchParams.toString
  if query ≠ [] then ['?'] ++ query else []

def origin : Text :=
  if [chars "http:", chars "https:", chars "ws:", chars "wss:", chars "ftp:"].contains u.protocol then
    u.protocol ++ chars "//" ++ u.host
  else chars "null"

/-- The user information of a serialised URL. -/
def auth : Text :=
  if u.usernameValue ≠ [] ∨ u.passwordValue ≠ [] then
    u.usernameValue ++ (if u.passwordValue ≠ [] then [':'] ++ u.passwordValue else []) ++ ['@']
  else []

/-- `toString`, and `href` -/
def href : Text := u.protocol ++ chars "//" ++ u.auth ++ u.host ++ u.pathname ++ u.search ++ u.hash

end URL

/-! ## Cutting -/

theorem cutAt_append {c : Char} {a b : Text} (ha : c ∉ a) (hb : b = [] ∨ b.head? = some c) : cutAt c (a ++ b) = (a, b) := by
  rcases hb with rfl | hb
  · rw [append_nil, cutAt, find_not_mem ha]
  · obtain ⟨b, rfl⟩ := head?_eq_some_iff.1 hb; rw [cutAt, find_single ha]; simp

theorem cutAt_spec (c : Char) (s : Text) : s = (cutAt c s).1 ++ (cutAt c s).2 ∧ c ∉ (cutAt c s).1 ∧
    ((cutAt c s).2 = [] ∨ (cutAt c s).2.head? = some c) := by
  unfold cutAt
  cases hf : find [c] s with
  | none => exact ⟨(append_nil s).symm, not_mem_of_find hf, .inl rfl⟩
  | some i =>
    obtain ⟨hs, hc⟩ := find_cut hf
    have hdrop : s.drop i = c :: s.drop (i + 1) := by
      have hlen : i + 1 ≤ s.length := find_le hf
      have := congrArg (List.drop i) hs; rwa [drop_left' (by rw [length_take]; omega)] at this
    refine ⟨(take_append_drop i s).symm, hc, .inr ?_⟩
    dsimp only; rw [hdrop]; rfl

theorem lastIndexOf_none {c : Char} {s : Text} (h : c ∉ s) : lastIndexOf c s = none := by
  induction s with
  | nil => rfl
  | cons d s ih =>
    simp only [mem_cons, not_or] at h; rw [lastIndexOf, ih h.2]; exact if_neg (Ne.symm h.1)

theorem lastIndexOf_append {c : Char} {b : Text} (h : c ∉ b) : ∀ a : Text, lastIndexOf c (a ++ c :: b) = some a.length
  | [] => by rw [nil_append, lastIndexOf, lastIndexOf_none h]; exact if_pos rfl
  | d :: a => by rw [cons_append, lastIndexOf, lastIndexOf_append h a]; rfl

theorem not_mem_of_lastIndexOf {c : Char} : ∀ {s : Text}, lastIndexOf c s = none → c ∉ s
  | [], _ => not_mem_nil
  | d :: s, h => by
    rw [lastIndexOf] at h
    split at h
    · cases h
    · next hs =>
      split at h
      · cases h
      · next hd => exact not_mem_cons_of_ne_of_not_mem (Ne.symm hd) (not_mem_of_lastIndexOf hs)

theorem lastIndexOf_cut {c : Char} : ∀ {s : Text} {i : Nat}, lastIndexOf c s = some i →
    s = s.take i ++ c :: s.drop (i + 1) ∧ c ∉ s.drop (i + 1)
  | [], _, h => by cases h
  | d :: s, i, h => by
    rw [lastIndexOf] at h
    split at h
    · next j hj =>
      cases h
      obtain ⟨hs, hc⟩ := lastIndexOf_cut hj
      refine ⟨?_, hc⟩
      rw [take_succ_cons, drop_succ_cons, cons_append, ← hs]
    · next hs =>
      split at h
      · next hd =>
        cases h; exact ⟨by rw [hd]; rfl, not_mem_of_lastIndexOf hs⟩
      · cases h

/-! ## What the parser leaves -/

namespace URL

variable {s value : Text}

/-- The characters that end the authority are in none of its parts. -/
def Inside (s : Text) : Prop := '/' ∉ s ∧ '?' ∉ s ∧ '#' ∉ s

theorem inside_nil : Inside [] := ⟨not_mem_nil, not_mem_nil, not_mem_nil⟩

theorem inside_singleton {c : Char} (h : c ≠ '/' ∧ c ≠ '?' ∧ c ≠ '#') : Inside [c] := by
  simp only [Inside, mem_singleton]; exact ⟨Ne.symm h.1, Ne.symm h.2.1, Ne.symm h.2.2⟩

theorem Inside.subset {t : Text} (h : Inside t) (hst : s ⊆ t) : Inside s :=
  ⟨fun hc => h.1 (hst hc), fun hc => h.2.1 (hst hc), fun hc => h.2.2 (hst hc)⟩

theorem Inside.append {t : Text} (hs : Inside s) (ht : Inside t) : Inside (s ++ t) := by
  simp only [Inside, mem_append, not_or]; exact ⟨⟨hs.1, ht.1⟩, ⟨hs.2.1, ht.2.1⟩, ⟨hs.2.2, ht.2.2⟩⟩

theorem parseUserInfo_spec (userInfo : Text) : ':' ∉ (parseUserInfo userInfo).1 ∧ (parseUserInfo userInfo).1 ⊆ userInfo ∧
    (parseUserInfo userInfo).2 ⊆ userInfo := by
  unfold parseUserInfo
  split
  · next colon hf =>
    exact ⟨(find_cut hf).2, take_subset _ _, drop_subset _ _⟩
  · next hf => exact ⟨not_mem_of_find hf, Subset.refl _, nil_subset _⟩

theorem parseUserInfo_append {user : Text} (h : ':' ∉ user) (password : Text) :
    parseUserInfo (user ++ if password ≠ [] then [':'] ++ password else []) = (user, password) := by
  split
  · rw [singleton_append, parseUserInfo, find_single h]; simp
  · next hp =>
    rw [not_not] at hp; rw [append_nil, parseUserInfo, find_not_mem h, hp]

theorem parseAuthority_spec (authority : Text) : ':' ∉ (parseAuthority authority).1.1 ∧
    (parseAuthority authority).1.1 ⊆ authority ∧ (parseAuthority authority).1.2 ⊆ authority ∧
    (parseAuthority authority).2 ⊆ authority ∧ '@' ∉ (parseAuthority authority).2 := by
  unfold parseAuthority
  split
  · next i hi =>
    obtain ⟨h₁, h₂, h₃⟩ := parseUserInfo_spec (authority.take i)
    have htake : authority.take i ⊆ authority := take_subset _ _
    exact ⟨h₁, Subset.trans h₂ htake, Subset.trans h₃ htake, drop_subset _ _, (lastIndexOf_cut hi).2⟩
  · next hi =>
    exact ⟨not_mem_nil, nil_subset _, nil_subset _, Subset.refl _, not_mem_of_lastIndexOf hi⟩

/-- The host of a host name and a port. -/
def hostOf (parts : Text × Text) : Text := if parts.2 ≠ [] then parts.1 ++ [':'] ++ parts.2 else parts.1

/-- The bracket that ends the host name, if it begins with one. -/
def bracket (value : Text) : Option Nat := if value.head? = some '[' then find [']'] value else none

theorem bracket_some {b : Nat} (h : bracket value = some b) : value.head? = some '[' ∧ find [']'] value = some b := by
  unfold bracket at h
  split at h
  · next hv => exact ⟨hv, h⟩
  · cases h

theorem parseHost_bracket {b : Nat} (h : bracket value = some b) : parseHost value =
    (value.take (b + 1), if value[b + 1]? = some ':' then value.drop (b + 2) else []) := by
  have hne : value ≠ [] := by rintro rfl; cases h
  rw [parseHost, if_neg hne]
  unfold bracket at h; rw [h]

theorem parseHost_plain (h : bracket value = none) (hc : ':' ∉ value) : parseHost value = (value, []) := by
  unfold parseHost
  split
  · next hv => rw [hv]
  · unfold bracket at h; rw [h, find_not_mem hc]

theorem parseHost_colon {i : Nat} (h : bracket value = none) (hf : find [':'] value = some i) : parseHost value =
      if lastIndexOf ':' value = some i then (value.take i, value.drop (i + 1)) else (value, []) := by
  have hne : value ≠ [] := by rintro rfl; cases hf
  rw [parseHost, if_neg hne]
  unfold bracket at h; rw [h, hf]

theorem bracket_take (h : bracket value = none) (n : Nat) : bracket (value.take n) = none := by
  unfold bracket at h ⊢
  split
  · next hv =>
    have hhead : value.head? = some '[' := by
      cases value with
      | nil => simp at hv
      | cons c value => cases n <;> simp_all
    rw [if_pos hhead] at h
    exact find_none_of_append (t := value.drop n) (by rwa [take_append_drop])
  · rfl

theorem parseHost_hostOf (value : Text) : parseHost (hostOf (parseHost value)) = parseHost value ∧
    hostOf (parseHost value) ⊆ value := by
  have hself : hostOf (parseHost value) = value →
      parseHost (hostOf (parseHost value)) = parseHost value ∧ hostOf (parseHost value) ⊆ value := fun h => by
    rw [h]; exact ⟨rfl, Subset.refl _⟩
  cases hb : bracket value with
  | some b =>
    obtain ⟨hhead, hf⟩ := bracket_some hb
    have hlen : b + 1 ≤ value.length := find_le hf
    have hname : parseHost (value.take (b + 1)) = (value.take (b + 1), []) := by
      have hb' : bracket (value.take (b + 1)) = some b := by
        rw [bracket, if_pos (by cases value <;> simp_all), find_take hf (b + 1) (Nat.le_refl _)]
      have hend : (value.take (b + 1))[b + 1]? = none := getElem?_eq_none (by rw [length_take]; omega)
      rw [parseHost_bracket hb', hend, take_take, Nat.min_self, if_neg (by simp)]
    by_cases hport : value[b + 1]? = some ':' ∧ value.drop (b + 2) ≠ []
    · refine hself ?_
      rw [parseHost_bracket hb, if_pos hport.1, hostOf, if_pos hport.2]
      obtain ⟨hlt, hc⟩ := List.getElem?_eq_some_iff.1 hport.1
      have hdrop : value.drop (b + 1) = ':' :: value.drop (b + 2) := by rw [drop_eq_getElem_cons hlt, hc]
      rw [append_assoc, singleton_append, ← hdrop, take_append_drop]
    · have hempty : (if value[b + 1]? = some ':' then value.drop (b + 2) else []) = [] := by
        split
        · next hc => exact not_not.1 fun hne => hport ⟨hc, hne⟩
        · rfl
      rw [parseHost_bracket hb, hempty, hostOf, if_neg (by simp)]; exact ⟨hname, take_subset _ _⟩
  | none =>
    cases hf : find [':'] value with
    | none => exact hself (by rw [parseHost_plain hb (not_mem_of_find hf)]; rfl)
    | some i =>
      obtain ⟨hs, hc⟩ := find_cut hf
      by_cases hlast : lastIndexOf ':' value = some i
      · by_cases hport : value.drop (i + 1) = []
        · rw [parseHost_colon hb hf, if_pos hlast, hport, hostOf, if_neg (by simp)]
          exact ⟨parseHost_plain (bracket_take hb i) hc, take_subset _ _⟩
        · refine hself ?_
          rw [parseHost_colon hb hf, if_pos hlast, hostOf, if_pos hport, append_assoc, singleton_append, ← hs]
      · exact hself (by rw [parseHost_colon hb hf, if_neg hlast]; rfl)

theorem parsePath_head {path : Text} (h : path = [] ∨ path.head? = some '/') (protocol : Text) :
    (parsePath protocol path).head? = some '/' := by
  unfold parsePath
  split_ifs with h₁ h₂
  · rfl
  · exact head_withoutDotSegments (h.resolve_left h₁)
  · exact h.resolve_left h₁

theorem parsePath_idem {path : Text} (h : path = [] ∨ path.head? = some '/') (protocol : Text) :
    parsePath protocol (parsePath protocol path) = parsePath protocol path := by
  have hne : parsePath protocol path ≠ [] := by
    intro hnil
    have := parsePath_head h protocol; rw [hnil] at this; cases this
  rw [parsePath, if_neg hne]
  unfold parsePath
  by_cases h₁ : path = []
  · rw [if_pos h₁]
    split
    · decide
    · rfl
  · rw [if_neg h₁]
    split
    · exact withoutDotSegments_idem (h.resolve_left h₁)
    · rfl

theorem parsePath_subset {path : Text} (h : path = [] ∨ path.head? = some '/') (protocol : Text) {c : Char} (hc : c ≠ '/')
    (hmem : c ∈ parsePath protocol path) : c ∈ path := by
  unfold parsePath at hmem
  split_ifs at hmem with h₁ h₂
  · exact absurd (mem_singleton.1 hmem) hc
  · exact withoutDotSegments_subset (h.resolve_left h₁) hmem
  · exact hmem

/-! ## The serialised URL is parsed to the same URL -/

/-- What the parser leaves of a text with a scheme. -/
structure WellFormed (u : URL) : Prop where
  scheme : ∃ scheme, u.protocol = scheme ++ [':'] ∧ ':' ∉ scheme ∧ toLowerCase scheme = scheme
  user : Inside u.usernameValue ∧ ':' ∉ u.usernameValue
  password : Inside u.passwordValue
  host : Inside u.host ∧ '@' ∉ u.host ∧ parseHost u.host = (u.hostnameValue, u.portValue)
  path : u.pathname.head? = some '/' ∧ '?' ∉ u.pathname ∧ '#' ∉ u.pathname ∧ parsePath u.protocol u.pathname = u.pathname
  hash : u.hash = [] ∨ u.hash.head? = some '#'

theorem parseScheme_append {scheme : Text} (h : ':' ∉ scheme) (rest : Text) :
    parseScheme (scheme ++ ':' :: '/' :: '/' :: rest) = (toLowerCase scheme ++ [':'], rest) := by
  have hf : find (chars "://") (scheme ++ ':' :: '/' :: '/' :: rest) = some scheme.length := by
    have hpat : chars "://" = [':', '/', '/'] := rfl
    have hhere : find [':', '/', '/'] (':' :: '/' :: '/' :: rest) = some 0 := find_zero ⟨rest, rfl⟩
    rw [hpat, find_skip_of_ne h, hhere, map_some, Nat.zero_add]
  have hdrop : (scheme ++ ':' :: '/' :: '/' :: rest).drop (scheme.length + 3) = rest := by
    rw [← drop_drop, drop_left]; rfl
  rw [parseScheme, hf]
  dsimp only; rw [take_left, hdrop]

theorem toLowerCase_idem (s : Text) : toLowerCase (toLowerCase s) = toLowerCase s := by
  have hchar : ∀ c : Char, c.toLower.toLower = c.toLower := by
    intro c
    apply Char.toNat_inj.1
    rw [toNat_toLower c.toLower, toNat_toLower c]
    split
    · rw [if_neg (by omega)]
    · rfl
  simp [toLowerCase, hchar]

theorem colon_not_mem_toLowerCase (h : ':' ∉ s) : ':' ∉ toLowerCase s := by
  intro hmem
  obtain ⟨d, hd, heq⟩ := List.mem_map.1 hmem
  rw [toLower_eq_of_not_lower (by decide) heq] at hd; exact h hd

theorem assign_wellFormed {scheme rest : Text} (hscheme : ':' ∉ scheme) :
    (assign (scheme ++ ':' :: '/' :: '/' :: rest)).1.WellFormed := by
  unfold assign
  rw [parseScheme_append hscheme]
  dsimp only
  obtain ⟨hrest, hhash, hhash'⟩ := cutAt_spec '#' rest
  obtain ⟨hquery, hmark, -⟩ := cutAt_spec '?' (cutAt '#' rest).1
  generalize hbefore : (cutAt '?' (cutAt '#' rest).1).1 = before at hquery hmark ⊢
  obtain ⟨hpath, hslash, hslash'⟩ := cutAt_spec '/' before
  have hsharp : '#' ∉ before := fun hc => hhash (by rw [hquery]; exact mem_append_left _ hc)
  have hauthority : Inside (cutAt '/' before).1 :=
    ⟨hslash, fun hc => hmark (by rw [hpath]; exact mem_append_left _ hc),
      fun hc => hsharp (by rw [hpath]; exact mem_append_left _ hc)⟩
  obtain ⟨hcolon, huser, hpassword, hhost, hat⟩ := parseAuthority_spec (cutAt '/' before).1
  obtain ⟨hparsed, hsubset⟩ := parseHost_hostOf (parseAuthority (cutAt '/' before).1).2
  have hinPath : ∀ {c : Char}, c ≠ '/' → c ∉ before → ∀ protocol, c ∉ parsePath protocol (cutAt '/' before).2 :=
    fun hc hno protocol hmem => hno (by rw [hpath]; exact mem_append_right _ (parsePath_subset hslash' protocol hc hmem))
  exact
    { scheme := ⟨_, rfl, colon_not_mem_toLowerCase hscheme, toLowerCase_idem scheme⟩
      user := ⟨hauthority.subset huser, hcolon⟩
      password := hauthority.subset hpassword
      host := ⟨hauthority.subset (Subset.trans hsubset hhost), fun hc => hat (hsubset hc), hparsed⟩
      path := ⟨parsePath_head hslash' _, hinPath (by decide) hmark _, hinPath (by decide) hsharp _, parsePath_idem hslash' _⟩
      hash := hhash' }

theorem WellFormed.withParams {u : URL} (h : u.WellFormed) (params : URLSearchParams) :
    { u with searchParams := params }.WellFormed :=
  ⟨h.scheme, h.user, h.password, h.host, h.path, h.hash⟩

theorem parse_wellFormed {scheme rest : Text} (hscheme : ':' ∉ scheme) {u : URL}
    (h : parse (scheme ++ ':' :: '/' :: '/' :: rest) = some u) : u.WellFormed := by
  rw [parse_assign] at h
  obtain ⟨params, -, rfl⟩ := map_eq_some_iff.1 h; exact (assign_wellFormed hscheme).withParams params

theorem auth_inside {u : URL} (h : u.WellFormed) : Inside u.auth := by
  have hmark : Inside ['@'] := inside_singleton (by decide)
  have hcolon : Inside [':'] := inside_singleton (by decide)
  unfold auth
  split_ifs
  · exact (h.user.1.append (hcolon.append h.password)).append hmark
  · exact (h.user.1.append inside_nil).append hmark
  · exact inside_nil

theorem parseAuthority_auth {u : URL} (h : u.WellFormed) :
    parseAuthority (u.auth ++ u.host) = ((u.usernameValue, u.passwordValue), u.host) := by
  unfold auth
  split
  · next hinfo =>
    generalize hinfo' : (u.usernameValue ++ if u.passwordValue ≠ [] then [':'] ++ u.passwordValue else []) = info
    have hparts := parseUserInfo_append h.user.2 u.passwordValue
    rw [hinfo'] at hparts
    have hdrop : (info ++ '@' :: u.host).drop (info.length + 1) = u.host := by
      rw [← drop_drop, drop_left]; rfl
    rw [append_assoc, singleton_append, parseAuthority, lastIndexOf_append h.host.2.1]
    dsimp only; rw [take_left, hparts, hdrop]
  · next hinfo =>
    rw [not_or, not_not, not_not] at hinfo; rw [nil_append, parseAuthority, lastIndexOf_none h.host.2.1, hinfo.1, hinfo.2]

theorem create_search (u : URL) : URLSearchParams.create u.search = some u.searchParams := by
  unfold search
  dsimp only
  split
  · next hq =>
    rw [URLSearchParams.create, singleton_append, head?_cons, if_pos rfl, tail_cons, if_neg hq]
    exact URLSearchParams.pushParts_toString fun hnil => hq (URLSearchParams.toString_eq_nil.2 hnil)
  · next hq =>
    rw [not_not, URLSearchParams.toString_eq_nil] at hq; rw [hq]; rfl

theorem search_head (u : URL) : u.search = [] ∨ u.search.head? = some '?' := by
  unfold search
  dsimp only
  split
  · exact .inr rfl
  · exact .inl rfl

theorem sharp_not_mem_search (u : URL) : '#' ∉ u.search := by
  have hno := not_mem_toString (c := '#') (by decide) (by decide) (by decide) u.searchParams
  unfold search
  dsimp only
  split
  · simpa using hno
  · exact not_mem_nil

theorem WellFormed.parse_href {u : URL} (h : u.WellFormed) : parse u.href = some u := by
  obtain ⟨scheme, hprotocol, hcolon, hlower⟩ := h.scheme
  have hauth := auth_inside h
  have hhead : u.pathname ≠ [] := by
    intro hnil
    have := h.path.1; rw [hnil] at this; cases this
  have hhref : u.href =
      scheme ++ ':' :: '/' :: '/' :: ((((u.auth ++ u.host) ++ u.pathname) ++ u.search) ++ u.hash) := by
    have hslashes : chars "//" = ['/', '/'] := rfl
    simp [href, hprotocol, hslashes]
  have hsharp : '#' ∉ ((u.auth ++ u.host) ++ u.pathname) ++ u.search := by
    simp only [mem_append, not_or]; exact ⟨⟨⟨hauth.2.2, h.host.1.2.2⟩, h.path.2.2.1⟩, sharp_not_mem_search u⟩
  have hmark : '?' ∉ (u.auth ++ u.host) ++ u.pathname := by
    simp only [mem_append, not_or]; exact ⟨⟨hauth.2.1, h.host.1.2.1⟩, h.path.2.1⟩
  have hslash : '/' ∉ u.auth ++ u.host := by simp only [mem_append, not_or]; exact ⟨hauth.1, h.host.1.1⟩
  unfold parse
  rw [hhref, parseScheme_append hcolon, hlower, ← hprotocol]
  dsimp only
  rw [cutAt_append hsharp h.hash]
  rw [cutAt_append hmark (search_head u)]
  dsimp only
  rw [cutAt_append hslash (.inr h.path.1)]
  dsimp only
  rw [parseAuthority_auth h]
  dsimp only; rw [h.host.2.2, create_search, h.path.2.2.2]; rfl

/-! ## The results -/

/-- The characters of a scheme. -/
def isSchemeChar (c : Char) : Bool := c.isAlphanum || (chars "+-.").contains c

theorem colon_not_mem_scheme {scheme : Text} (h : scheme.all isSchemeChar = true) : ':' ∉ scheme := fun hc =>
  absurd (List.all_eq_true.1 h ':' hc) (by decide)

theorem create_absolute (scheme rest : Text) : create (scheme ++ chars "://" ++ rest) [] =
    parse (scheme ++ ':' :: '/' :: '/' :: rest) := by
  have hpat : chars "://" = [':', '/', '/'] := rfl
  rw [create, if_neg (by simp), hpat]; simp

/-- A text with every delimiter twice. -/
def delimiters : Text := chars "hTTp://a:b:c@d@[::1]:80:9/x/%2E%2e/./y//?a=b=c&&d=?/#e#f?g"

theorem parse_isSome {scheme : Text} (h : ':' ∉ scheme) (rest : Text) :
    (parse (scheme ++ ':' :: '/' :: '/' :: rest)).isSome ↔ WellEscaped (cutAt '?' (cutAt '#' rest).1).2 := by
  unfold parse; rw [parseScheme_append h]; rw [isSome_map, create_isSome]

end URL

/-- Both constructors parse a query. -/
def QueryParses (q : Text) : Prop :=
  (URLSearchParams.create q).isSome ∧ (URL.create (chars "http://host/path?" ++ q) []).isSome

/-- A query is parsed if and only if each of its percent signs begins the escapes of a character. -/
theorem query_parses (q : Text) : QueryParses q ↔ WellEscaped q := by
  obtain ⟨hq, hsharp, hrest⟩ := cutAt_spec '#' q
  have hcreate : URL.create (chars "http://host/path?" ++ q) [] =
      URL.parse (chars "http" ++ ':' :: '/' :: '/' :: (chars "host/path?" ++ q)) := by
    rw [URL.create, if_neg (by simp)]; rfl
  have hcut : cutAt '#' (chars "host/path?" ++ q) = (chars "host/path?" ++ (cutAt '#' q).1, (cutAt '#' q).2) := by
    have hno : '#' ∉ chars "host/path?" ++ (cutAt '#' q).1 := by
      rw [mem_append, not_or]; exact ⟨by decide, hsharp⟩
    have := cutAt_append hno hrest; rwa [append_assoc, ← hq] at this
  have hquery : cutAt '?' (chars "host/path?" ++ (cutAt '#' q).1) = (chars "host/path", '?' :: (cutAt '#' q).1) :=
    cutAt_append (c := '?') (a := chars "host/path") (by decide) (.inr rfl)
  have hurl : (URL.create (chars "http://host/path?" ++ q) []).isSome ↔ WellEscaped (cutAt '#' q).1 := by
    rw [hcreate, URL.parse_isSome (by decide), hcut]; rw [hquery]; exact wellEscaped_cons (by decide) (by decide) _
  rw [QueryParses, create_isSome, hurl]
  refine and_iff_left_of_imp fun h => ?_
  rcases hrest with hnil | hhead
  · rw [hnil, append_nil] at hq; exact (congrArg WellEscaped hq).mp h
  · obtain ⟨b, hb⟩ := head?_eq_some_iff.1 hhead
    rw [hq, hb] at h; exact ((wellEscaped_append (by decide) (by decide) _ _).1 h).1

theorem query_fails : ¬ ∀ q, QueryParses q := by
  intro h
  have : (create (chars "q=100%")).isSome = true := (h (chars "q=100%")).1
  exact absurd this (by decide)

end NodeCompat.Web
