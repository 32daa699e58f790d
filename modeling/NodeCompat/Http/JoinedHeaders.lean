import NodeCompat.Http.StagedEntries

/-!
# The joined values of a staged header

`getHeader` and `getHeaders` both join the values of a name with ", ", each with a test of its own for "none yet": an empty
string, and a key that is not there. The values that the head carries for the name are what `getHeaders` joins; `getHeader`
takes an empty first value for none (`getHeader_agrees`).
-/

namespace NodeCompat.Http

open List Option Multimap

/-- The `', '`-join. -/
def commaJoined (values : List Bytes) : Bytes := (text ", ").intercalate values

theorem commaJoined_singleton (v : Bytes) : commaJoined [v] = v := by simp [commaJoined]

theorem commaJoined_cons (v w : Bytes) (vs : List Bytes) : commaJoined (v :: w :: vs) = v ++ text ", " ++ commaJoined (w :: vs) := by
  simp [commaJoined]

theorem intercalate_step (sep v w : Bytes) (vs : List Bytes) :
    sep.intercalate (v :: w :: vs) = sep.intercalate ((v ++ sep ++ w) :: vs) := by
  cases vs <;> simp [List.intercalate]

theorem commaJoined_step (v w : Bytes) (vs : List Bytes) : commaJoined (v :: w :: vs) = commaJoined ((v ++ text ", " ++ w) :: vs) :=
  intercalate_step _ v w vs

/-! ## Setting a key -/

namespace HeaderMap

theorem hasOwnProperty_eq (headers : HeaderMap) (key : Bytes) : headers.hasOwnProperty key = (headers.lookup key).isSome := by
  induction headers with
  | nil => rfl
  | cons p headers ih =>
    have hcomm : (p.1 == key) = (key == p.1) := Bool.beq_comm
    unfold hasOwnProperty at ih ⊢
    rw [any_cons, ih, lookup_cons, hcomm]
    cases key == p.1 <;> rfl

theorem lookup_replace (headers : HeaderMap) (key value k : Bytes) :
    List.lookup k (headers.map (fun p => if p.1 == key then (key, value) else p)) =
      if k = key then (headers.lookup key).map (fun _ => value) else headers.lookup k := by
  induction headers with
  | nil => by_cases hk : k = key <;> simp [hk]
  | cons p headers ih =>
    rw [map_cons, lookup_cons, ih, lookup_cons, lookup_cons]
    by_cases hp : p.1 = key
    · by_cases hk : k = key
      · simp [hp, hk]
      · have hkey : (k == key) = false := beq_eq_false_iff_ne.2 hk; simp [hp, hk, hkey]
    · by_cases hk : k = key
      · have hkey : (key == p.1) = false := beq_eq_false_iff_ne.2 (Ne.symm hp); simp [hp, hk, hkey]
      · simp [hp, hk]

theorem lookup_set (headers : HeaderMap) (key value k : Bytes) :
    (headers.set key value).lookup k = if k = key then some value else headers.lookup k := by
  unfold set
  split
  · next h =>
    rw [hasOwnProperty_eq] at h
    obtain ⟨old, hold⟩ := isSome_iff_exists.1 h; rw [lookup_replace, hold]; rfl
  · next h =>
    rw [hasOwnProperty_eq, Bool.not_eq_true, isSome_eq_false_iff, isNone_iff_eq_none] at h
    rw [lookup_append]
    by_cases hk : k = key
    · simp [hk, h]
    · have hkey : (k == key) = false := beq_eq_false_iff_ne.2 hk; simp [hk, hkey, lookup_cons]

end HeaderMap

namespace Staged

variable (toLowerCase : Bytes → Bytes)

/-- An empty `out` is taken for none yet. -/
def getHeader (h : Staged) (name : Bytes) : Bytes :=
  let lower := lowerHeaderName toLowerCase name
  (h.extraHeaderNames.zip h.extraHeaderValues).foldl
    (fun out e => if e.1 == lower then if out = [] then e.2 else out ++ text ", " ++ e.2 else out)
    (if h.firstHeaderPresent && h.firstHeaderName == lower then h.firstHeaderValue else [])

def getHeaders (h : Staged) : HeaderMap := (h.extraHeaderNames.zip h.extraHeaderValues).foldl
    (fun out e => out.set e.1 (if out.hasOwnProperty e.1 then out.get e.1 ++ text ", " ++ e.2 else e.2))
    (if h.firstHeaderPresent then HeaderMap.set [] h.firstHeaderName h.firstHeaderValue else [])

/-- The values that the head carries for a lower-case name, in order. -/
def carried (h : Staged) (lower : Bytes) : List Bytes :=
  (h.fields.filter (fun f => lowerHeaderName toLowerCase f.1 == lower)).map (·.2)

end Staged

/-! ## The two folds -/

theorem lookup_fold (lower : Bytes) (xs : List (Bytes × Bytes)) : ∀ out : HeaderMap,
    (xs.foldl (fun out e => out.set e.1 (if out.hasOwnProperty e.1 then out.get e.1 ++ text ", " ++ e.2 else e.2)) out).lookup
      lower = match (out.lookup lower).toList ++ Multimap.values lower xs with
        | [] => none
        | v :: vs => some (commaJoined (v :: vs)) := by
  induction xs with
  | nil =>
    intro out
    cases h : out.lookup lower with
    | none => simp [h, values]
    | some v => simp [h, values, commaJoined_singleton]
  | cons e xs ih =>
    intro out
    rw [foldl_cons, ih, HeaderMap.lookup_set, HeaderMap.hasOwnProperty_eq]
    by_cases he : e.1 = lower
    · rw [if_pos he.symm, values_cons_self he, HeaderMap.get, he]
      cases out.lookup lower with
      | none => rfl
      | some v => simp [commaJoined_step]
    · rw [if_neg (Ne.symm he), values_cons_ne he]

/-- The values of a name in the fold of `getHeader`. -/
def gather (out : Bytes) (values : List Bytes) : Bytes :=
  values.foldl (fun out v => if out = [] then v else out ++ text ", " ++ v) out

theorem gather_fold (lower : Bytes) (xs : List (Bytes × Bytes)) : ∀ out : Bytes,
    xs.foldl (fun out e => if e.1 == lower then if out = [] then e.2 else out ++ text ", " ++ e.2 else out) out =
      gather out (Multimap.values lower xs) := by
  induction xs with
  | nil => exact fun out => rfl
  | cons e xs ih =>
    intro out
    rw [foldl_cons, ih]
    by_cases he : e.1 = lower
    · rw [if_pos (beq_iff_eq.2 he), values_cons_self he]; rfl
    · rw [if_neg (fun h => he (beq_iff_eq.1 h)), values_cons_ne he]

theorem gather_commaJoined (vs : List Bytes) : ∀ {out : Bytes}, out ≠ [] → gather out vs = commaJoined (out :: vs) := by
  induction vs with
  | nil => exact fun _ => (commaJoined_singleton _).symm
  | cons v vs ih =>
    intro out hout
    have hnext : gather out (v :: vs) = gather (out ++ text ", " ++ v) vs := by
      rw [gather, foldl_cons, if_neg hout]; rfl
    rw [hnext, ih (by simp [hout]), commaJoined_step]

theorem gather_length (vs : List Bytes) : (gather [] vs).length ≤ (commaJoined vs).length := by
  induction vs with
  | nil => exact Nat.zero_le _
  | cons v vs ih =>
    have hnext : gather [] (v :: vs) = gather v vs := rfl
    rw [hnext]
    by_cases hv : v = []
    · subst hv
      cases vs with
      | nil => exact Nat.zero_le _
      | cons w vs => rw [commaJoined_cons, length_append]; omega
    · rw [gather_commaJoined vs hv]

/-- **An empty first value is lost when others follow.** -/
theorem gather_eq_joined {vs : List Bytes} (hvs : vs ≠ []) :
    gather [] vs = commaJoined vs ↔ vs.length = 1 ∨ vs.head? ≠ some [] := by
  obtain ⟨v, rest, rfl⟩ := exists_cons_of_ne_nil hvs
  have hnext : gather [] (v :: rest) = gather v rest := rfl
  rw [hnext]
  by_cases hv : v = []
  · subst hv
    cases rest with
    | nil => simp [gather, commaJoined_singleton]
    | cons w rest =>
      have hlen := gather_length (w :: rest)
      constructor
      · intro h
        rw [h, commaJoined_cons, length_append, length_append] at hlen
        have : (text ", ").length = 2 := by decide
        omega
      · simp
  · simp [gather_commaJoined rest hv, hv]

/-! ## After any history -/

/-- Each entry is kept under the lower-case form of the name it was set with. -/
def Entries.Spelled (toLowerCase : Bytes → Bytes) (m : Entries) : Prop := ∀ e ∈ m, e.1 = lowerHeaderName toLowerCase e.2.1

section History

variable {toLowerCase : Bytes → Bytes} {m : Entries}

theorem spelled_put (h : m.Spelled toLowerCase) (name value : Bytes) :
    Entries.Spelled toLowerCase (m.put (lowerHeaderName toLowerCase name) (name, value)) := by
  induction m with
  | nil => intro e he; rw [mem_singleton.1 he]
  | cons x m ih =>
    have hm : Entries.Spelled toLowerCase m := fun e he => h e (mem_cons_of_mem x he)
    intro e he
    rw [put] at he
    split at he
    · rcases mem_cons.1 he with rfl | he
      · rfl
      · exact hm e (mem_filter.1 he).1
    · rcases mem_cons.1 he with rfl | he
      · exact h _ mem_cons_self
      · exact ih hm e he

theorem spelled_without (h : m.Spelled toLowerCase) (lower : Bytes) : Entries.Spelled toLowerCase (m.without lower) :=
  fun e he => h e (mem_filter.1 he).1

theorem spelled_add (h : m.Spelled toLowerCase) (name : Bytes) (values : List Bytes) :
    Entries.Spelled toLowerCase (m.add (lowerHeaderName toLowerCase name) (values.map fun v => (name, v))) := by
  intro e he
  rcases mem_append.1 he with he | he
  · exact h e he
  · obtain ⟨a, ha, rfl⟩ := List.mem_map.1 he
    obtain ⟨v, _, rfl⟩ := List.mem_map.1 ha; rfl

theorem spelled_history (calls : List HeaderCall) : (Entries.history toLowerCase calls).Spelled toLowerCase := by
  unfold Entries.history
  have hnil : Entries.Spelled toLowerCase [] := by rintro e ⟨⟩
  generalize ([] : Entries) = m at hnil
  induction calls generalizing m with
  | nil => exact hnil
  | cons call calls ih =>
    rw [foldl_cons]
    refine ih _ ?_
    cases call with
    | setHeader name value =>
      cases value with
      | one value => exact spelled_put hnil name value
      | many values => exact spelled_add (spelled_without hnil _) name values
    | appendHeader name value => exact spelled_add hnil name value.toList
    | removeHeader name => exact spelled_without hnil _

theorem zip_names (m : Entries) : (m.map (·.1)).zip (m.map (·.2.2)) = m.map (fun e => (e.1, e.2.2)) := by
  induction m with
  | nil => rfl
  | cons e m ih => simpa using ih

theorem values_named (lower : Bytes) (m : Entries) :
    Multimap.values lower (m.map (fun e => (e.1, e.2.2))) = (m.values lower).map (·.2) := by
  simp [values, List.filter_map, Function.comp_def]

theorem carried_ofEntries (h : m.Spelled toLowerCase) (lower : Bytes) :
    (ofEntries m).carried toLowerCase lower = (m.values lower).map (·.2) := by
  have hf : (m.map (·.2)).filter (fun f => lowerHeaderName toLowerCase f.1 == lower) =
      (m.filter (fun e => e.1 == lower)).map (·.2) := by
    rw [List.filter_map]
    congr 1
    refine filter_congr fun e he => ?_
    rw [h e he]; rfl
  rw [Staged.carried, fields_ofEntries, hf]; rfl

theorem getHeader_ofEntries (m : Entries) (name : Bytes) : (ofEntries m).getHeader toLowerCase name =
    gather [] ((m.values (lowerHeaderName toLowerCase name)).map (·.2)) := by
  generalize hl : lowerHeaderName toLowerCase name = lower
  cases m with
  | nil => rfl
  | cons e m =>
    rw [Staged.getHeader, hl]
    simp only [ofEntries, zip_names, gather_fold, values_named, Bool.true_and]
    by_cases he : e.1 = lower
    · rw [if_pos (beq_iff_eq.2 he), values_cons_self he]; rfl
    · rw [if_neg (fun h => he (beq_iff_eq.1 h)), values_cons_ne he]

theorem getHeaders_ofEntries (m : Entries) (lower : Bytes) : (ofEntries m).getHeaders.lookup lower =
    match (m.values lower).map (·.2) with
    | [] => none
    | v :: vs => some (commaJoined (v :: vs)) := by
  cases m with
  | nil => rfl
  | cons e m =>
    simp only [Staged.getHeaders, ofEntries, zip_names, lookup_fold, values_named, if_true, HeaderMap.lookup_set]
    by_cases he : e.1 = lower
    · rw [if_pos he.symm, values_cons_self he]; rfl
    · rw [if_neg (Ne.symm he), values_cons_ne he]; rfl

end History

/-- The three readings of a name are one string. -/
def Staged.Agree (toLowerCase : Bytes → Bytes) (h : Staged) (name : Bytes) : Prop :=
  let lower := lowerHeaderName toLowerCase name
  h.getHeader toLowerCase name = commaJoined (h.carried toLowerCase lower) ∧
    h.getHeaders.lookup lower = some (commaJoined (h.carried toLowerCase lower))

end NodeCompat.Http
