import NodeCompat.Http.Staged
import NodeCompat.Lib.Multimap
import Mathlib.Data.List.InsertIdx

/-!
# The staged headers are a multimap

What a `ServerResponse` stages in a first slot and three parallel arrays is an ordered multimap from lower-case names to
headers as the caller spelled them (`Entries`). The slot and the arrays are determined by it (`ofEntries`), and each operation
on them is the multimap's own (`apply_ofEntries`), so every history keeps them aligned (`staged_refines`).
-/

namespace NodeCompat.Http

open List Multimap

/-- The lower-case names, each with the name as the caller spelled it and the value. -/
abbrev Entries := Multimap Bytes (Bytes × Bytes)

/-- A call that changes the staged headers. -/
inductive HeaderCall
  | setHeader (name : Bytes) (value : HeaderValue)
  | appendHeader (name : Bytes) (value : HeaderValue)
  | removeHeader (name : Bytes)
deriving DecidableEq

variable (toLowerCase : Bytes → Bytes)

namespace Staged

def hasHeader (h : Staged) (name : Bytes) : Bool := (h.indexOfHeader (lowerHeaderName toLowerCase name)).isSome

/-- The loop takes each name that is not in `out` yet. -/
def getHeaderNames (h : Staged) : List Bytes :=
  h.extraHeaderNames.foldl (fun out name => if out.contains name then out else out ++ [name])
    (if h.firstHeaderPresent then [h.firstHeaderName] else [])

def apply (h : Staged) : HeaderCall → Staged
  | .setHeader name value => h.setHeader toLowerCase name value
  | .appendHeader name value => h.appendHeader toLowerCase name value
  | .removeHeader name => h.removeHeader toLowerCase name

/-- What a history of calls leaves staged. -/
def history (calls : List HeaderCall) : Staged := calls.foldl (fun h call => h.apply toLowerCase call) {}

/-- The slot and the arrays as one list. -/
def entries (h : Staged) : Entries :=
  (if h.firstHeaderPresent then [(h.firstHeaderName, h.firstHeaderRawName, h.firstHeaderValue)] else []) ++
    h.extraHeaderNames.zip (h.extraHeaderRawNames.zip h.extraHeaderValues)

/-- The arrays have one length, and are empty when there is no first header. -/
structure Aligned (h : Staged) : Prop where
  values : h.extraHeaderValues.length = h.extraHeaderNames.length
  rawNames : h.extraHeaderRawNames.length = h.extraHeaderNames.length
  absent : h.firstHeaderPresent = false → h.extraHeaderNames = []

end Staged

namespace Entries

/-- What a call does to the multimap. An array drops the entries of its name and joins the end, one entry per element. -/
def apply (m : Entries) : HeaderCall → Entries
  | .setHeader name (.one value) => m.put (lowerHeaderName toLowerCase name) (name, value)
  | .setHeader name (.many values) =>
    (m.without (lowerHeaderName toLowerCase name)).add (lowerHeaderName toLowerCase name) (values.map fun v => (name, v))
  | .appendHeader name value => m.add (lowerHeaderName toLowerCase name) (value.toList.map fun v => (name, v))
  | .removeHeader name => m.without (lowerHeaderName toLowerCase name)

def history (calls : List HeaderCall) : Entries := calls.foldl (fun m call => m.apply toLowerCase call) []

end Entries

/-! ## The store of a multimap -/

/-- The first entry goes to the slot and the others to the arrays. -/
def ofEntries : Entries → Staged
  | [] => {}
  | e :: m =>
    { firstHeaderPresent := true
      firstHeaderName := e.1
      firstHeaderValue := e.2.2
      firstHeaderRawName := e.2.1
      extraHeaderNames := m.map (·.1)
      extraHeaderValues := m.map (·.2.2)
      extraHeaderRawNames := m.map (·.2.1) }

open Staged

section Store

variable {toLowerCase} {m : Entries} {e : Bytes × Bytes × Bytes} {lower : Bytes} {i : Nat}

theorem zip_values : (m.map (·.1)).zip ((m.map (·.2.1)).zip (m.map (·.2.2))) = m := by
  induction m with
  | nil => rfl
  | cons e m ih => simpa using ih

theorem entries_ofEntries (m : Entries) : (ofEntries m).entries = m := by
  cases m with
  | nil => rfl
  | cons e m => simp [ofEntries, entries, zip_values]

theorem aligned_ofEntries (m : Entries) : (ofEntries m).Aligned := by
  cases m with
  | nil => exact ⟨rfl, rfl, fun _ => rfl⟩
  | cons e m => exact ⟨by simp [ofEntries], by simp [ofEntries], by rintro ⟨⟩⟩

theorem fields_ofEntries (m : Entries) : (ofEntries m).fields = m.map (·.2) := by
  cases m with
  | nil => rfl
  | cons e m =>
    have hz : (m.map (·.2.1)).zip (m.map (·.2.2)) = m.map (·.2) := by
      induction m with
      | nil => rfl
      | cons e m ih => simpa using ih
    simp [ofEntries, fields, hz]

theorem indexOfHeader_ofEntries : (ofEntries m).indexOfHeader lower = m.findIdx? (fun e => e.1 == lower) := by
  cases m with
  | nil => rfl
  | cons e m =>
    have hm : (m.map (·.1)).findIdx? (· == lower) = m.findIdx? (fun e => e.1 == lower) := by
      rw [findIdx?_map]; rfl
    simp only [ofEntries, indexOfHeader, findIdx?_cons, hm, Bool.true_and]

theorem splice_ofEntries : (ofEntries (e :: m)).splice i = ofEntries (e :: m.eraseIdx i) := by
  simp [ofEntries, splice, eraseIdx_map]

theorem removeHeaderAt_ofEntries (hi : i < m.length) : (ofEntries m).removeHeaderAt i = ofEntries (m.eraseIdx i) := by
  cases m with
  | nil => cases hi
  | cons e m =>
    cases i with
    | succ i => exact splice_ofEntries
    | zero =>
      cases m with
      | nil | cons f m => rfl

theorem removeAllOfHeader_ofEntries (m : Entries) (lower : Bytes) :
    (ofEntries m).removeAllOfHeader lower = ofEntries (m.without lower) := by
  generalize hn : m.length = n
  induction n using Nat.strong_induction_on generalizing m with
  | _ n ih =>
    rw [removeAllOfHeader]
    split
    · next h =>
      rw [indexOfHeader_ofEntries] at h; rw [without_of_free (findIdx?_none h)]
    · next i h =>
      rw [indexOfHeader_ofEntries] at h
      obtain ⟨pre, e, post, rfl, rfl, he, hpre⟩ := findIdx?_split h
      have herase : (pre ++ e :: post).eraseIdx pre.length = pre ++ post := by simp [eraseIdx_append_of_length_le]
      rw [removeHeaderAt_ofEntries (by simp), herase, ih (pre ++ post).length (by simp [← hn]) _ rfl]
      rw [without_append, without_append, without_cons_self he]

theorem dropOthers_kept (keep : Option Nat) (n : Nat) (h : Staged)
    (hn : ∀ j < n, h.extraHeaderNames[j]? = some lower → some j = keep) : Staged.dropOthers lower keep n h = h := by
  induction n with
  | zero => rfl
  | succ n ih =>
    have hc : ¬ (h.extraHeaderNames[n]? = some lower ∧ some n ≠ keep) := fun hc => hc.2 (hn n (by omega) hc.1)
    rw [dropOthers, if_neg hc]; exact ih fun j hj => hn j (by omega)

theorem dropOthers_behind {keep : Option Nat} {pre : Entries} (hk : ∀ j, pre.length ≤ j → some j ≠ keep) (mid post : Entries) :
    Staged.dropOthers lower keep (pre.length + mid.length) (ofEntries (e :: (pre ++ (mid ++ post)))) =
      Staged.dropOthers lower keep pre.length (ofEntries (e :: (pre ++ (mid.without lower ++ post)))) := by
  induction mid using List.reverseRecOn generalizing post with
  | nil => rfl
  | append_singleton mid f ih =>
    have hl : pre.length + (mid ++ [f]).length = pre.length + mid.length + 1 := by simp [Nat.add_assoc]
    have hat : (ofEntries (e :: (pre ++ (mid ++ [f] ++ post)))).extraHeaderNames[pre.length + mid.length]? = some f.1 := by
      simp [ofEntries]
    have herase : (pre ++ (mid ++ [f] ++ post)).eraseIdx (pre.length + mid.length) = pre ++ (mid ++ post) := by
      simp [eraseIdx_append_of_length_le]
    rw [hl, dropOthers, hat, splice_ofEntries, herase, without_append]
    by_cases hf : f.1 = lower
    · rw [if_pos ⟨congrArg some hf, hk _ (by omega)⟩, ih post, without_cons_self hf]; simp [without]
    · rw [if_neg (fun hc => hf (Option.some.inj hc.1)), without_cons_ne hf, append_assoc, ih]
      simp [without]

theorem appendHeaderNormalized_ofEntries (m : Entries) (name lower value : Bytes) :
    (ofEntries m).appendHeaderNormalized name lower value = ofEntries (m ++ [(lower, name, value)]) := by
  cases m with
  | nil => rfl
  | cons e m => simp [ofEntries, appendHeaderNormalized]

theorem setHeaderString_ofEntries (m : Entries) (name value : Bytes) :
    (ofEntries m).setHeaderString toLowerCase name value =
      ofEntries (m.put (lowerHeaderName toLowerCase name) (name, value)) := by
  unfold setHeaderString
  generalize lowerHeaderName toLowerCase name = lower
  dsimp only
  rw [indexOfHeader_ofEntries]
  split
  · next h =>
    obtain ⟨pre, e, post, rfl, hl, he, hpre⟩ := findIdx?_split h
    rw [length_eq_zero_iff.1 hl]
    have hset : { ofEntries ([] ++ e :: post) with firstHeaderValue := value, firstHeaderRawName := name } =
        ofEntries ((lower, name, value) :: ([] ++ (post ++ []))) := by
      simp [ofEntries, he]
    have hlen : (ofEntries ([] ++ e :: post)).extraHeaderNames.length = ([] : Entries).length + post.length := by
      simp [ofEntries]
    rw [hset, hlen, dropOthers_behind (fun j _ => by rintro ⟨⟩)]
    rw [put_split (by rintro x ⟨⟩) he]; simp [dropOthers]
  · next i h =>
    obtain ⟨pre, f, post, rfl, hl, hf, hpre⟩ := findIdx?_split h
    cases pre with
    | nil => cases hl
    | cons e pre =>
      obtain rfl : pre.length = i := by simpa using hl
      have hset : { ofEntries (e :: pre ++ f :: post) with
          extraHeaderValues := (ofEntries (e :: pre ++ f :: post)).extraHeaderValues.set pre.length value
          extraHeaderRawNames := (ofEntries (e :: pre ++ f :: post)).extraHeaderRawNames.set pre.length name } =
          ofEntries (e :: ((pre ++ [(lower, name, value)]) ++ (post ++ []))) := by
        simp [ofEntries, hf, set_append_right]
      have hlen : (ofEntries (e :: pre ++ f :: post)).extraHeaderNames.length =
          (pre ++ [(lower, name, value)]).length + post.length := by
        simp [ofEntries]; omega
      have hbehind : ∀ j, (pre ++ [(lower, name, value)]).length ≤ j → some j ≠ some pre.length := by
        intro j hj hc
        cases hc; simp only [length_append, length_singleton] at hj; omega
      rw [hset, hlen, dropOthers_behind hbehind, dropOthers_kept]
      · rw [put_split hpre hf]; simp
      · intro j hj hat
        rw [length_append, length_singleton] at hj
        by_cases hj' : j < pre.length
        · refine absurd ?_ (hpre pre[j] (mem_cons_of_mem e (getElem_mem hj')))
          simpa [ofEntries, getElem?_append_left, hj', getElem?_eq_getElem hj'] using hat
        · exact congrArg some (by omega)
  · next h =>
    rw [appendHeaderNormalized_ofEntries, put_of_free (findIdx?_none h)]

theorem appendHeader_ofEntries (m : Entries) (name : Bytes) (value : HeaderValue) :
    (ofEntries m).appendHeader toLowerCase name value =
      ofEntries (m.add (lowerHeaderName toLowerCase name) (value.toList.map fun v => (name, v))) := by
  unfold appendHeader
  generalize value.toList = vs
  induction vs generalizing m with
  | nil => simp [add]
  | cons v vs ih =>
    rw [foldl_cons, appendHeaderString, appendHeaderNormalized_ofEntries, ih]; simp [add]

/-- **Each operation on the store is the multimap's own.** -/
theorem apply_ofEntries (m : Entries) (call : HeaderCall) :
    (ofEntries m).apply toLowerCase call = ofEntries (m.apply toLowerCase call) := by
  cases call with
  | setHeader name value =>
    cases value with
    | one value => exact setHeaderString_ofEntries m name value
    | many values =>
      simp only [apply, setHeader, Entries.apply, removeAllOfHeader_ofEntries, appendHeader_ofEntries,
        HeaderValue.toList]
  | appendHeader name value => exact appendHeader_ofEntries m name value
  | removeHeader name => exact removeAllOfHeader_ofEntries m _

theorem history_ofEntries (calls : List HeaderCall) :
    Staged.history toLowerCase calls = ofEntries (Entries.history toLowerCase calls) := by
  have hstep : ∀ (calls : List HeaderCall) (m : Entries),
      calls.foldl (fun h call => h.apply toLowerCase call) (ofEntries m) =
        ofEntries (calls.foldl (fun m call => m.apply toLowerCase call) m) := by
    intro calls
    induction calls with
    | nil => exact fun m => rfl
    | cons call calls ih =>
      intro m; rw [foldl_cons, foldl_cons, apply_ofEntries]; exact ih _
  exact hstep calls []

theorem hasHeader_ofEntries (m : Entries) (name : Bytes) :
    (ofEntries m).hasHeader toLowerCase name = m.has (lowerHeaderName toLowerCase name) := by
  rw [hasHeader, indexOfHeader_ofEntries, has_eq_isSome]

theorem getHeaderNames_ofEntries (m : Entries) : (ofEntries m).getHeaderNames = m.keys := by
  cases m with
  | nil => rfl
  | cons e m =>
    have hseen : (m.map (·.1)).filter (fun x => !List.contains [e.1] x) = (m.map (·.1)).filter (fun x => !x == e.1) :=
      filter_congr fun x _ => by rw [contains_cons, contains_nil, Bool.or_false]
    rw [Multimap.keys, map_cons, eraseDups_cons, ← hseen]; exact collect_eq (m.map (·.1)) [e.1]

end Store

/-- **The staged headers refine the multimap**: after any history the slot and the arrays are aligned and hold the entries
that the multimap has, and `hasHeader`, `getHeaderNames` and the fields that `commitHeaders` writes are read off it. -/
theorem staged_refines (toLowerCase : Bytes → Bytes) (calls : List HeaderCall) :
    let h := Staged.history toLowerCase calls
    let m := Entries.history toLowerCase calls
    h.Aligned ∧ h.entries = m ∧ (∀ name, h.hasHeader toLowerCase name = m.has (lowerHeaderName toLowerCase name)) ∧
      h.getHeaderNames = m.keys ∧ h.fields = m.map (·.2) := by
  rw [history_ofEntries]
  generalize Entries.history toLowerCase calls = m
  exact ⟨aligned_ofEntries m, entries_ofEntries m, hasHeader_ofEntries m, getHeaderNames_ofEntries m, fields_ofEntries m⟩

end NodeCompat.Http
