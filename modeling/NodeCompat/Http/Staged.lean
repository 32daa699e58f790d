import NodeCompat.Http.Headers

/-!
# Staged response headers

The headers that an application has set on a `ServerResponse` before the header block is serialized: a first one in fields
of its own, and three parallel arrays for the others (lower-case names, values, and names as the caller spelled them). An
array that is `undefined` reads as an empty one. `Staged.Ok` says that the arrays have one length and that every header
the block will get has a property that every header set had.
-/

namespace NodeCompat.Http

open List

/-- `OutgoingHttpHeader`: a string (a number is turned into one), or an array of them. -/
inductive HeaderValue
  | one (value : Bytes)
  | many (values : List Bytes)
deriving DecidableEq

/-- The values, one header each. -/
def HeaderValue.toList : HeaderValue → List Bytes
  | one value => [value]
  | many values => values

structure Staged where
  firstHeaderPresent : Bool := false
  firstHeaderName : Bytes := []
  firstHeaderValue : Bytes := []
  firstHeaderRawName : Bytes := []
  extraHeaderNames : List Bytes := []
  extraHeaderValues : List Bytes := []
  extraHeaderRawNames : List Bytes := []
deriving DecidableEq

namespace Staged

def indexOfHeader (h : Staged) (lower : Bytes) : Option Nat :=
  if h.firstHeaderPresent && h.firstHeaderName == lower then some 0
  else (h.extraHeaderNames.findIdx? (· == lower)).map (· + 1)

/-- `splice(i, 1)` on the three arrays. -/
def splice (h : Staged) (i : Nat) : Staged := { h with
    extraHeaderNames := h.extraHeaderNames.eraseIdx i
    extraHeaderValues := h.extraHeaderValues.eraseIdx i
    extraHeaderRawNames := h.extraHeaderRawNames.eraseIdx i }

/-- Header 0 is the first one: the next one takes its place. -/
def removeHeaderAt (h : Staged) : Nat → Staged
  | 0 =>
    match h.extraHeaderNames with
    | name :: _ =>
      { h with
        firstHeaderName := name
        firstHeaderValue := h.extraHeaderValues.headD []
        firstHeaderRawName := h.extraHeaderRawNames.headD [] }.splice 0
    | [] => { h with firstHeaderPresent := false, firstHeaderName := [], firstHeaderValue := [], firstHeaderRawName := [] }
  | i + 1 => h.splice i

/-- How many headers are staged. -/
def count (h : Staged) : Nat := h.extraHeaderNames.length + if h.firstHeaderPresent then 1 else 0

theorem count_removeHeaderAt {h : Staged} {lower : Bytes} {i : Nat} (hi : h.indexOfHeader lower = some i) :
    (h.removeHeaderAt i).count < h.count := by
  unfold indexOfHeader at hi
  split at hi
  · next hf =>
    cases hi
    have hp : h.firstHeaderPresent = true := (Bool.and_eq_true _ _ ▸ hf).1
    simp only [removeHeaderAt]
    split
    · next name names hn => simp [count, splice, hn, hp]
    · next hn => simp [count, hn, hp]
  · obtain ⟨j, hj, rfl⟩ := Option.map_eq_some_iff.1 hi
    have hlt : j < h.extraHeaderNames.length := (findIdx?_eq_some_iff_getElem.1 hj).1
    have hlen : (h.extraHeaderNames.eraseIdx j).length = h.extraHeaderNames.length - 1 := length_eraseIdx_of_lt hlt
    simp only [removeHeaderAt, count, splice, hlen]; exact Nat.add_lt_add_right (by omega) _

def removeAllOfHeader (h : Staged) (lower : Bytes) : Staged :=
  match _h : h.indexOfHeader lower with
  | none => h
  | some i => (h.removeHeaderAt i).removeAllOfHeader lower
termination_by h.count
decreasing_by exact count_removeHeaderAt ‹_›

def appendHeaderNormalized (h : Staged) (name lower value : Bytes) : Staged :=
  if !h.firstHeaderPresent then
    { h with firstHeaderPresent := true, firstHeaderName := lower, firstHeaderValue := value, firstHeaderRawName := name }
  else { h with
      extraHeaderNames := h.extraHeaderNames ++ [lower]
      extraHeaderValues := h.extraHeaderValues ++ [value]
      extraHeaderRawNames := h.extraHeaderRawNames ++ [name] }

/-- The loop that drops the other headers of a name, from the last one on; `keep` is the index it leaves. -/
def dropOthers (lower : Bytes) (keep : Option Nat) : Nat → Staged → Staged
  | 0, h => h
  | i + 1, h =>
    dropOthers lower keep i (if h.extraHeaderNames[i]? = some lower ∧ some i ≠ keep then h.splice i else h)

variable (toLowerCase : Bytes → Bytes)

def setHeaderString (h : Staged) (name value : Bytes) : Staged :=
  let lower := lowerHeaderName toLowerCase name
  match h.indexOfHeader lower with
  | some 0 =>
    dropOthers lower none h.extraHeaderNames.length { h with firstHeaderValue := value, firstHeaderRawName := name }
  | some (i + 1) =>
    dropOthers lower (some i) h.extraHeaderNames.length
      { h with
        extraHeaderValues := h.extraHeaderValues.set i value
        extraHeaderRawNames := h.extraHeaderRawNames.set i name }
  | none => h.appendHeaderNormalized name lower value

def appendHeaderString (h : Staged) (name value : Bytes) : Staged :=
  h.appendHeaderNormalized name (lowerHeaderName toLowerCase name) value

def appendHeader (h : Staged) (name : Bytes) (value : HeaderValue) : Staged :=
  value.toList.foldl (fun h v => h.appendHeaderString toLowerCase name v) h

def setHeader (h : Staged) (name : Bytes) : HeaderValue → Staged
  | .many values => (h.removeAllOfHeader (lowerHeaderName toLowerCase name)).appendHeader toLowerCase name (.many values)
  | .one value => h.setHeaderString toLowerCase name value

def removeHeader (h : Staged) (name : Bytes) : Staged := h.removeAllOfHeader (lowerHeaderName toLowerCase name)

/-- The headers in the order in which `commitHeaders` writes them. -/
def fields (h : Staged) : List (Bytes × Bytes) :=
  (if h.firstHeaderPresent then [(h.firstHeaderRawName, h.firstHeaderValue)] else []) ++
    h.extraHeaderRawNames.zip h.extraHeaderValues

/-! ## Every header that is written has been set -/

/-- The arrays have one length, and every header has the property `P`. -/
structure Ok (P : Bytes → Bytes → Prop) (h : Staged) : Prop where
  values : h.extraHeaderValues.length = h.extraHeaderNames.length
  rawNames : h.extraHeaderRawNames.length = h.extraHeaderNames.length
  first : h.firstHeaderPresent = true → P h.firstHeaderRawName h.firstHeaderValue
  extra : ∀ f ∈ h.extraHeaderRawNames.zip h.extraHeaderValues, P f.1 f.2

theorem zip_eraseIdx : ∀ (xs ys : List Bytes) (i : Nat), (xs.eraseIdx i).zip (ys.eraseIdx i) = (xs.zip ys).eraseIdx i
  | [], ys, i => by simp
  | x :: xs, [], i => by cases i <;> simp
  | x :: xs, y :: ys, 0 => rfl
  | x :: xs, y :: ys, i + 1 => by simp [zip_eraseIdx xs ys i]

theorem zip_set : ∀ (xs ys : List Bytes) (i : Nat) (x y : Bytes), (xs.set i x).zip (ys.set i y) = (xs.zip ys).set i (x, y)
  | [], ys, i, _, _ => by simp
  | x :: xs, [], i, _, _ => by cases i <;> simp
  | x :: xs, y :: ys, 0, _, _ => rfl
  | x :: xs, y :: ys, i + 1, a, b => by simp [zip_set xs ys i a b]

variable {P : Bytes → Bytes → Prop} {h : Staged} {toLowerCase}

theorem ok_empty : ({} : Staged).Ok P := ⟨rfl, rfl, by rintro ⟨⟩, by rintro f ⟨⟩⟩

namespace Ok

theorem splice (hh : h.Ok P) (i : Nat) : (h.splice i).Ok P := by
  refine ⟨?_, ?_, hh.first, ?_⟩
  · simp [Staged.splice, length_eraseIdx, hh.values]
  · simp [Staged.splice, length_eraseIdx, hh.rawNames]
  · intro f hf; simp only [Staged.splice, zip_eraseIdx] at hf; exact hh.extra f (mem_of_mem_eraseIdx hf)

theorem removeHeaderAt (hh : h.Ok P) (i : Nat) : (h.removeHeaderAt i).Ok P := by
  cases i with
  | succ i => exact hh.splice i
  | zero =>
    simp only [Staged.removeHeaderAt]
    have hv := hh.values
    have hr := hh.rawNames
    have hx := hh.extra
    split
    · next name names hn =>
      rw [hn] at hv hr
      obtain ⟨v, vs, hvs⟩ := exists_cons_of_length_eq_add_one hv
      obtain ⟨r, rs, hrs⟩ := exists_cons_of_length_eq_add_one hr
      rw [hvs, hrs] at hx
      have hs := hh.splice 0
      refine ⟨hs.values, hs.rawNames, fun _ => ?_, hs.extra⟩
      simp only [Staged.splice, hvs, hrs, headD_cons]; exact hx (r, v) mem_cons_self
    · exact ⟨hv, hr, by rintro ⟨⟩, hx⟩

theorem removeAllOfHeader (hh : h.Ok P) (lower : Bytes) : (h.removeAllOfHeader lower).Ok P := by
  fun_induction Staged.removeAllOfHeader h lower with
  | case1 h _ => exact hh
  | case2 h i _ ih => exact ih (hh.removeHeaderAt i)

theorem dropOthers (lower : Bytes) (keep : Option Nat) : ∀ (n : Nat) {h : Staged}, h.Ok P →
    (Staged.dropOthers lower keep n h).Ok P
  | 0, _, hh => hh
  | n + 1, _, hh => by
    refine dropOthers lower keep n ?_
    split
    · exact hh.splice n
    · exact hh

theorem appendHeaderNormalized (hh : h.Ok P) {name value : Bytes} (hP : P name value) (lower : Bytes) :
    (h.appendHeaderNormalized name lower value).Ok P := by
  unfold Staged.appendHeaderNormalized
  split
  · exact ⟨hh.values, hh.rawNames, fun _ => hP, hh.extra⟩
  · refine ⟨by simp [hh.values], by simp [hh.rawNames], hh.first, ?_⟩
    rw [zip_append (hh.rawNames.trans hh.values.symm)]
    intro f hf
    rcases mem_append.1 hf with hf | hf
    · exact hh.extra f hf
    · rw [mem_singleton.1 hf]; exact hP

theorem setHeaderString (hh : h.Ok P) {name value : Bytes} (hP : P name value) :
    (h.setHeaderString toLowerCase name value).Ok P := by
  unfold Staged.setHeaderString
  dsimp only
  split
  · exact dropOthers _ _ _ ⟨hh.values, hh.rawNames, fun _ => hP, hh.extra⟩
  · next i _ =>
    refine dropOthers _ _ _ ⟨by simp [hh.values], by simp [hh.rawNames], hh.first, ?_⟩
    rw [zip_set]
    intro f hf
    rcases mem_or_eq_of_mem_set hf with hf | rfl
    · exact hh.extra f hf
    · exact hP
  · exact hh.appendHeaderNormalized hP _

theorem appendHeader (hh : h.Ok P) {name : Bytes} {value : HeaderValue} (hP : ∀ v ∈ value.toList, P name v) :
    (h.appendHeader toLowerCase name value).Ok P := by
  unfold Staged.appendHeader
  generalize value.toList = vs at hP
  induction vs generalizing h with
  | nil => exact hh
  | cons v vs ih =>
    exact ih (hh.appendHeaderNormalized (hP v mem_cons_self) _) (fun u hu => hP u (mem_cons_of_mem v hu))

theorem setHeader (hh : h.Ok P) {name : Bytes} {value : HeaderValue} (hP : ∀ v ∈ value.toList, P name v) :
    (h.setHeader toLowerCase name value).Ok P := by
  cases value with
  | many values => exact (hh.removeAllOfHeader _).appendHeader hP
  | one value => exact hh.setHeaderString (hP value mem_cons_self)

theorem fields (hh : h.Ok P) : ∀ f ∈ h.fields, P f.1 f.2 := by
  intro f hf
  rcases mem_append.1 hf with hf | hf
  · split at hf
    · next hp =>
      rw [mem_singleton.1 hf]; exact hh.first hp
    · cases hf
  · exact hh.extra f hf

end Ok

end Staged

end NodeCompat.Http
