import NodeCompat.Lib.Multimap
import NodeCompat.Web.Multipart
import NodeCompat.Web.SearchParams

/-!
# The stores of `URLSearchParams` and `FormData`

Both are a list of names and a list of values, changed together. `set` overwrites the first value of its name and takes the
later ones out, from the end down; `delete` of a query takes all of them out so, `delete` of a form copies the other entries.
-/

namespace NodeCompat.Web

open List Multimap

section

variable {α : Type} (name : Text) (value : α) (m : Multimap Text α)

/-- The loop that splices entries of a name out, from the end down to `low`. -/
def spliceDown (low : Nat) : Nat → Multimap Text α → Multimap Text α
  | 0, m => m
  | n + 1, m => spliceDown low n (if m[low + n]?.map (·.1) = some name then m.eraseIdx (low + n) else m)

/-- `set`, of a value that is ready to be stored. -/
def setEntry : Multimap Text α :=
  match m.findIdx? (fun e => e.1 == name) with
  | none => m ++ [(name, value)]
  | some first => spliceDown name (first + 1) (m.length - (first + 1)) (m.set first (name, value))

/-- The loop of `get`. -/
def getEntry : Multimap Text α → Option α
  | [] => none
  | e :: m => if e.1 = name then some e.2 else getEntry m

variable {name value m}

theorem spliceDown_eq (name : Text) (pre mid post : Multimap Text α) : spliceDown name pre.length mid.length (pre ++ (mid ++ post)) =
    pre ++ (mid.without name ++ post) := by
  induction mid using List.reverseRecOn generalizing post with
  | nil => rfl
  | append_singleton mid e ih =>
    have hat : (pre ++ (mid ++ [e] ++ post))[pre.length + mid.length]? = some e := by simp
    have herase : (pre ++ (mid ++ [e] ++ post)).eraseIdx (pre.length + mid.length) = pre ++ (mid ++ post) := by
      simp [eraseIdx_append_of_length_le]
    rw [length_append, length_singleton, spliceDown, hat, herase, without_append, Option.map_some]
    by_cases he : e.1 = name
    · rw [if_pos (congrArg some he), ih, without_cons_self he]; simp [without]
    · rw [if_neg (fun h => he (Option.some.inj h)), append_assoc, ih, without_cons_ne he]; simp [without]

theorem setEntry_eq : setEntry name value m = m.put name value := by
  unfold setEntry
  split
  · next h => exact (put_of_free (findIdx?_none h)).symm
  · next i h =>
    obtain ⟨pre, e, post, rfl, rfl, he, hp⟩ := findIdx?_split h
    have hset : (pre ++ e :: post).set pre.length (name, value) = (pre ++ [(name, value)]) ++ (post ++ []) := by
      simp [set_append_right]
    have hlen : (pre ++ e :: post).length - (pre.length + 1) = post.length := by
      simp only [length_append, length_cons]; omega
    have hloop := spliceDown_eq name (pre ++ [(name, value)]) post []
    rw [length_append, length_singleton] at hloop; rw [hset, hlen, hloop, put_split hp he]; simp

theorem getEntry_eq : getEntry name m = (m.values name).head? := by
  induction m with
  | nil => rfl
  | cons e m ih =>
    unfold getEntry
    split
    · next he => rw [values_cons_self he]; rfl
    · next he => rw [values_cons_ne he, ih]

end

/-- The calls that change a store. -/
inductive EntryCall (β : Type)
  | append (name : Text) (value : β)
  | delete (name : Text)
  | set (name : Text) (value : β)

/-- A call, on an ordered multimap of what is stored. -/
def EntryCall.onMultimap {α β : Type} (store : β → α) (m : Multimap Text α) : EntryCall β → Multimap Text α
  | .append name value => m.add name [store value]
  | .delete name => m.without name
  | .set name value => m.put name (store value)

open EntryCall

namespace URLSearchParams

variable (params : URLSearchParams) (name value : Text)

def append : URLSearchParams := params ++ [(name, value)]

def delete : URLSearchParams := spliceDown name 0 params.length params

def get : Option Text := getEntry name params

def getAll : List Text := (params.filter (fun e => e.1 == name)).map (·.2)

def has : Bool := params.any (fun e => e.1 == name)

def set : URLSearchParams := setEntry name value params

def apply : EntryCall Text → URLSearchParams
  | .append name value => params.append name value
  | .delete name => params.delete name
  | .set name value => params.set name value

theorem apply_eq : apply = onMultimap id := by
  funext params call
  cases call with
  | append name value => rfl
  | delete name =>
    have hloop := spliceDown_eq name [] params []
    rw [nil_append, append_nil, nil_append, append_nil] at hloop; exact hloop
  | set name value => exact setEntry_eq

/-- **A query is an ordered multimap** whatever is called on it, and its readers agree. -/
theorem calls_multimap (calls : List (EntryCall Text)) : calls.foldl apply params = calls.foldl (onMultimap id) params ∧
    ∀ name, (calls.foldl apply params).get name = ((calls.foldl apply params).getAll name).head? ∧
      ((calls.foldl apply params).getAll name ≠ [] ↔ (calls.foldl apply params).has name = true) :=
  ⟨by rw [apply_eq], fun _ => ⟨getEntry_eq, values_ne_nil⟩⟩

end URLSearchParams

namespace FormData

variable (form : FormData) (name : Text)

def delete : FormData := form.filter (fun e => !(e.1 == name))

def get : Option EntryValue := getEntry name form

def getAll : List EntryValue := (form.filter (fun e => e.1 == name)).map (·.2)

def has : Bool := form.any (fun e => e.1 == name)

def set (value : AppendValue) (fileName : Option Text) : FormData := setEntry name (normalizeEntry value fileName) form

/-- A value comes with a file name, or without. -/
def apply : EntryCall (AppendValue × Option Text) → FormData
  | .append name value => form.append name value.1 value.2
  | .delete name => form.delete name
  | .set name value => form.set name value.1 value.2

theorem apply_eq : apply = onMultimap (fun value => normalizeEntry value.1 value.2) := by
  funext form call
  cases call with
  | append name value => rfl
  | delete name => rfl
  | set name value => exact setEntry_eq

/-- **A form is an ordered multimap** whatever is called on it, and its readers agree. -/
theorem form_multimap (calls : List (EntryCall (AppendValue × Option Text))) :
    calls.foldl apply form = calls.foldl (onMultimap (fun value => normalizeEntry value.1 value.2)) form ∧
    ∀ name, (calls.foldl apply form).get name = ((calls.foldl apply form).getAll name).head? ∧
      ((calls.foldl apply form).getAll name ≠ [] ↔ (calls.foldl apply form).has name = true) :=
  ⟨by rw [apply_eq], fun _ => ⟨getEntry_eq, values_ne_nil⟩⟩

end FormData

end NodeCompat.Web
