import NodeCompat.Bytes
import Mathlib.Data.List.Nodup

/-!
# The environment of a forked worker

`cluster.fork(env)` flattens the object to one string, the pairs separated by U+001F, and `spawn` cuts it again: each piece
with a name replaces what there is of the name, the reserved names are left out, and the three of this fork are put behind.
A worker should get what was asked for (`requested`). It does exactly when no separator in a key or a value leaves a trace
(`childEnvironment_iff`).

Strings are byte strings; an entry is `name=value`.
-/

namespace NodeCompat.Cluster

open List

/-- `ENV_SEPARATOR` -/
def envSeparator : UInt8 := 0x1f

def equalsSign : UInt8 := 61

/-- An object of strings: its keys are distinct, not empty, and without `=`, and there are no NULs. -/
structure ForkEnv where
  entries : List (Bytes × Bytes)
  nodup : (entries.map Prod.fst).Nodup
  nonempty : ∀ e ∈ entries, e.1 ≠ []
  noEquals : ∀ e ∈ entries, equalsSign ∉ e.1
  noNul : ∀ e ∈ entries, (0 : UInt8) ∉ e.1 ∧ (0 : UInt8) ∉ e.2

/-- `key=value` -/
def pairText (e : Bytes × Bytes) : Bytes := e.1 ++ equalsSign :: e.2

/-- `pairs` of `fork`. -/
def joinPairs (entries : List (Bytes × Bytes)) : Bytes :=
  entries.foldl (fun pairs e => pairs ++ (if pairs.length = 0 then [] else [envSeparator]) ++ pairText e) []

/-! ## `spawn` -/

def workerIdName : Bytes := text "GEA_CLUSTER_WORKER_ID"
def uniqueIdName : Bytes := text "NODE_UNIQUE_ID"
def channelName : Bytes := text "GEA_CLUSTER_CHANNEL_FD"
def workersName : Bytes := text "GEA_WORKERS"

def reservedNames : List Bytes := [workerIdName, uniqueIdName, channelName, workersName]

def isReserved (entry : Bytes) : Bool := reservedNames.any (fun name => entry.take (name.length + 1) = name ++ [equalsSign])

/-- The body of the loop over the pairs. -/
def applyPair (env : List Bytes) (pair : Bytes) : List Bytes :=
  match find [equalsSign] pair with
  | none => env
  | some equals =>
    let key := pair.take (equals + 1)
    if isReserved key then env else env.filter (fun existing => !(existing.take key.length == key)) ++ [pair]

/-- The loop, from the rest of the string. -/
def applyPairs (env : List Bytes) (rest : Bytes) : List Bytes :=
  if rest = [] then env
  else
    let stop := (find [envSeparator] rest).getD rest.length
    applyPairs (applyPair env (rest.take stop)) (rest.drop (stop + 1))
termination_by rest.length
decreasing_by
  have := length_pos_iff.2 ‹¬rest = []›
  rw [length_drop]
  omega

/-- `env` of `spawn`, from what the process has. -/
def childEnvironment (parent : List Bytes) (envPairs : Bytes) (id : Nat) (channel : Bytes) : List Bytes :=
  applyPairs (parent.filter (fun entry => !isReserved entry)) envPairs ++
    [pairText (workerIdName, decimal id), pairText (uniqueIdName, decimal id), pairText (channelName, channel)]

/-- What `spawn` asks of the operating system; an error is the text for `spawnError`. -/
structure SpawnPlatform where
  createLivenessChannel : Except Bytes Bytes
  installChildExitNotifier : Except Bytes Unit
  executablePath : Bytes
  environmentEntries : List Bytes
  spawnChild : Bytes → List Bytes → List Bytes → Except Bytes Nat

structure SpawnState where
  arguments : List Bytes := []
  spawnError : Bytes := []
  watcherInstalled : Bool := false
  liveChildren : Nat := 0

/-- `spawn`, with the process id, or 0. -/
def spawn (p : SpawnPlatform) (s : SpawnState) (id : Nat) (envPairs : Bytes) : SpawnState × Nat :=
  match p.createLivenessChannel with
  | .error e => ({ s with spawnError := e }, 0)
  | .ok channel =>
    match if s.watcherInstalled then .ok () else p.installChildExitNotifier with
    | .error e => ({ s with spawnError := e }, 0)
    | .ok () =>
      let s := { s with watcherInstalled := true }
      if p.executablePath = [] then ({ s with spawnError := text "cannot resolve the executable path of this process" }, 0)
      else
        let args := if s.arguments = [] then [p.executablePath] else s.arguments
        match p.spawnChild p.executablePath args (childEnvironment p.environmentEntries envPairs id channel) with
        | .error e => ({ s with spawnError := e }, 0)
        | .ok pid => ({ s with liveChildren := s.liveChildren + 1 }, pid)

/-! ## What is asked for -/

/-- The name of an entry, if it has one. -/
def nameOf (entry : Bytes) : Option Bytes := (find [equalsSign] entry).map entry.take

/-- The entries with a name, or without one. -/
def entriesOf (name : Option Bytes) (env : List Bytes) : List Bytes := env.filter (fun entry => nameOf entry = name)

/-- The entries of a name that a worker is to get. -/
def requested (parent : List Bytes) (env : ForkEnv) (id : Nat) (channel : Bytes) : Option Bytes → List Bytes
  | none => entriesOf none parent
  | some name =>
    if name = workerIdName then [pairText (workerIdName, decimal id)]
    else if name = uniqueIdName then [pairText (uniqueIdName, decimal id)]
    else if name = channelName then [pairText (channelName, channel)]
    else if name = workersName then []
    else
      match env.entries.lookup name with
      | some value => [pairText (name, value)]
      | none => entriesOf (some name) parent

/-- The parent's environment overridden by the object, without the reserved names, and with those of this fork. -/
def Honours (parent : List Bytes) (env : ForkEnv) (id : Nat) (channel : Bytes) (child : List Bytes) : Prop :=
  ∀ name, entriesOf name child = requested parent env id channel name

/-! ## What the separator does -/

/-- The pieces that the pairs are cut into. -/
def pieces (entries : List (Bytes × Bytes)) : List Bytes := entries.flatMap (fun e => (pairText e).splitOn envSeparator)

/-- The last piece with a name. -/
def lastPiece (entries : List (Bytes × Bytes)) (name : Bytes) : Option Bytes :=
  ((pieces entries).filter (fun p => nameOf p = some name)).getLast?

/-- No separator in a key or a value leaves a trace. -/
structure Traceless (parent : List Bytes) (env : ForkEnv) : Prop where
  /-- A pair that is cut, of a name that is not reserved, is an entry of the parent already, and no piece has its name. -/
  whole : ∀ e ∈ env.entries, e.1 ∉ reservedNames → envSeparator ∈ pairText e →
    envSeparator ∈ e.1 ∧ entriesOf (some e.1) parent = [pairText e]
  /-- A piece of such a pair that is the last of its name says what the object or else the parent says of the name. -/
  stray : ∀ e ∈ env.entries, envSeparator ∈ pairText e → ∀ p ∈ (pairText e).splitOn envSeparator, ∀ name ∉ reservedNames,
    nameOf p = some name → lastPiece env.entries name = some p → [p] = (match env.entries.lookup name with
        | some value => [pairText (name, value)]
        | none => entriesOf (some name) parent)

/-! ## The cut

`joinPairs` is cut into `pieces`, one after the other, and each is applied. -/

variable {parent env : List Bytes} {entries : List (Bytes × Bytes)} {name : Bytes} {id : Nat} {channel : Bytes}

variable {entry p : Bytes} {e : Bytes × Bytes}

variable (n : Option Bytes)

variable (env : List Bytes)

theorem applyPairs_eq (rest : Bytes) : applyPairs env rest = (rest.splitOn envSeparator).foldl applyPair env := by
  fun_induction applyPairs env rest with
  | case1 env => rfl
  | case2 env rest hne stop ih =>
    rw [ih]
    cases hf : find [envSeparator] rest with
    | none =>
      have hstop : stop = rest.length := by simp [stop, hf]
      rw [hstop, take_length, drop_of_length_le (Nat.le_succ _), splitOn_eq_singleton (not_mem_of_find hf)]
      rfl
    | some i =>
      have hstop : stop = i := by simp [stop, hf]
      obtain ⟨hcut, hi⟩ := find_cut hf
      conv_rhs => rw [hcut, splitOn_append_cons_self_of_not_mem hi]
      rw [hstop]; rfl

theorem joinPairs_append (entries : List (Bytes × Bytes)) (e : Bytes × Bytes) : joinPairs (entries ++ [e]) =
      joinPairs entries ++ (if (joinPairs entries).length = 0 then [] else [envSeparator]) ++ pairText e := by
  rw [joinPairs, foldl_append]; rfl

theorem joinPairs_ne_nil : joinPairs (entries ++ [e]) ≠ [] := by
  rw [joinPairs_append, pairText]; simp

theorem splitOn_joinPairs (entries : List (Bytes × Bytes)) :
    entries ≠ [] → (joinPairs entries).splitOn envSeparator = pieces entries := by
  induction entries using List.reverseRecOn with
  | nil => exact fun h => absurd rfl h
  | append_singleton es e ih =>
    intro _
    rw [joinPairs_append, pieces, flatMap_append]
    cases es using List.reverseRecOn with
    | nil => simp [joinPairs]
    | append_singleton es e' =>
      have hne : (joinPairs (es ++ [e'])).length ≠ 0 := fun h => joinPairs_ne_nil (length_eq_zero_iff.1 h)
      rw [if_neg hne, append_assoc, singleton_append, splitOn_append_cons_self, ih (by simp)]
      simp [pieces]

theorem applyPairs_joinPairs (entries : List (Bytes × Bytes)) :
    applyPairs env (joinPairs entries) = (pieces entries).foldl applyPair env := by
  rw [applyPairs_eq]
  by_cases h : entries = []
  · subst h; rfl
  · rw [splitOn_joinPairs entries h]

/-! ## Names -/

theorem nameOf_of_prefix {rest : Bytes} (hn : equalsSign ∉ name) : nameOf (name ++ equalsSign :: rest) = some name := by
  rw [nameOf, find_single hn]; simp

theorem nameOf_eq_some (h : nameOf entry = some name) :
    equalsSign ∉ name ∧ ∃ rest, entry = name ++ equalsSign :: rest := by
  obtain ⟨i, hi, rfl⟩ := Option.map_eq_some_iff.1 h
  obtain ⟨hcut, hn⟩ := find_cut hi; exact ⟨hn, _, hcut⟩

theorem take_eq_iff {entry : Bytes} (hn : equalsSign ∉ name) :
    entry.take (name.length + 1) = name ++ [equalsSign] ↔ nameOf entry = some name := by
  constructor
  · intro h
    have hsplit := take_append_drop (name.length + 1) entry
    rw [h, append_assoc, singleton_append] at hsplit; rw [← hsplit, nameOf_of_prefix hn]
  · intro h
    obtain ⟨_, rest, rfl⟩ := nameOf_eq_some h; simp [take_append]

theorem equalsSign_not_mem_reserved : ∀ name ∈ reservedNames, equalsSign ∉ name := by decide

theorem isReserved_iff : isReserved entry = true ↔ ∃ name ∈ reservedNames, nameOf entry = some name := by
  simp only [isReserved, any_eq_true, decide_eq_true_eq]
  constructor
  · rintro ⟨name, hmem, h⟩; exact ⟨name, hmem, (take_eq_iff (equalsSign_not_mem_reserved name hmem)).1 h⟩
  · rintro ⟨name, hmem, h⟩; exact ⟨name, hmem, (take_eq_iff (equalsSign_not_mem_reserved name hmem)).2 h⟩

theorem isReserved_of_name (h : nameOf entry = some name) : isReserved entry = true ↔ name ∈ reservedNames := by
  rw [isReserved_iff, h]; simp

theorem isReserved_of_none (h : nameOf entry = none) : isReserved entry = false := by
  rw [← Bool.not_eq_true, isReserved_iff, h]; simp

/-- A piece without a name and one of a reserved name do nothing; another one replaces what there is of its name. -/
theorem applyPair_eq (pair : Bytes) : applyPair env pair = match nameOf pair with
      | none => env
      | some name => if name ∈ reservedNames then env else env.filter (fun entry => nameOf entry ≠ some name) ++ [pair] := by
  unfold applyPair
  cases hf : find [equalsSign] pair with
  | none => simp [nameOf, hf]
  | some i =>
    obtain ⟨hcut, hn⟩ := find_cut hf
    have hi := find_le hf
    have hname : nameOf pair = some (pair.take i) := by rw [nameOf, hf]; rfl
    have hlen : (pair.take i).length = i := length_take_of_le (by simp at hi; omega)
    have hkey : pair.take (i + 1) = pair.take i ++ [equalsSign] := by
      have := (take_eq_iff hn).2 hname; rwa [hlen] at this
    have hkeyName : nameOf (pair.take (i + 1)) = some (pair.take i) := by rw [hkey, nameOf_of_prefix hn]
    simp only [hname, isReserved_of_name hkeyName]
    congr 2
    apply filter_congr
    intro entry _
    have hcmp := @take_eq_iff (pair.take i) entry hn
    rw [hkey, length_append, length_singleton, Bool.eq_iff_iff]
    simpa only [Bool.not_eq_true', beq_eq_false_iff_ne, ne_eq, decide_eq_true_eq] using not_congr hcmp

/-! ## What the child has -/

/-- One piece: it is all there is of its name then, unless the name is reserved, and of other names nothing changes. -/
theorem entriesOf_applyPair (pair : Bytes) : entriesOf n (applyPair env pair) =
      if nameOf pair = n ∧ n ≠ none ∧ (∀ name ∈ n, name ∉ reservedNames) then [pair] else entriesOf n env := by
  rw [applyPair_eq]
  cases hp : nameOf pair with
  | none =>
    rw [if_neg (fun h => h.2.1 h.1.symm)]
  | some name =>
    by_cases hr : name ∈ reservedNames
    · rw [if_neg (fun h => h.2.2 name (h.1 ▸ rfl) hr)]
      simp only [hr, if_true]
    · simp only [hr, if_false]
      by_cases hn : some name = n
      · subst hn
        rw [if_pos ⟨rfl, by simp, by simpa using hr⟩, entriesOf, filter_append, filter_filter]
        simp [hp]
      · rw [if_neg (fun h => hn h.1), entriesOf, filter_append, filter_filter]
        have hpair : decide (nameOf pair = n) = false := by rw [hp]; exact decide_eq_false hn
        rw [filter_cons_of_neg (by simp [hpair]), filter_nil, append_nil, entriesOf]
        apply filter_congr
        intro entry _
        by_cases he : nameOf entry = n
        · simp [he, Ne.symm hn]
        · simp [he]

/-- All pieces: the last one of a name that is not reserved is all there is of it then. -/
theorem entriesOf_foldl (hr : name ∉ reservedNames) (env ps : List Bytes) :
    entriesOf (some name) (ps.foldl applyPair env) =
      match (ps.filter (fun p => nameOf p = some name)).getLast? with
      | some p => [p]
      | none => entriesOf (some name) env := by
  induction ps using List.reverseRecOn with
  | nil => rfl
  | append_singleton ps p ih =>
    rw [foldl_append, foldl_cons, foldl_nil, entriesOf_applyPair, filter_append]
    by_cases hp : nameOf p = some name
    · rw [if_pos ⟨hp, by simp, by simpa using hr⟩]
      simp [hp]
    · rw [if_neg (fun h => hp h.1), ih]
      simp [hp]

theorem entriesOf_foldl_kept {n : Option Bytes} (hn : ∀ name ∈ n, name ∈ reservedNames) (env ps : List Bytes) :
    entriesOf n (ps.foldl applyPair env) = entriesOf n env := by
  induction ps generalizing env with
  | nil => rfl
  | cons p ps ih =>
    rw [foldl_cons, ih, entriesOf_applyPair, if_neg]
    rintro ⟨_, hne, hfree⟩
    obtain ⟨name, rfl⟩ := Option.ne_none_iff_exists'.1 hne; exact hfree name rfl (hn name rfl)

theorem entriesOf_append (a b : List Bytes) : entriesOf n (a ++ b) = entriesOf n a ++ entriesOf n b :=
  filter_append _ _

/-- Leaving the reserved names out of the parent's environment leaves nothing else out. -/
theorem entriesOf_unreserved (parent : List Bytes) : entriesOf n (parent.filter (fun entry => !isReserved entry)) =
      if ∃ name ∈ n, name ∈ reservedNames then [] else entriesOf n parent := by
  rw [entriesOf, filter_filter]
  by_cases hn : ∃ name ∈ n, name ∈ reservedNames
  · obtain ⟨name, rfl, hr⟩ := hn
    rw [if_pos ⟨name, rfl, hr⟩, filter_eq_nil_iff]
    intro entry _
    by_cases he : nameOf entry = some name
    · simp [(isReserved_of_name he).2 hr]
    · simp [he]
  · rw [if_neg hn, entriesOf]
    apply filter_congr
    intro entry _
    by_cases he : nameOf entry = n
    · have hfree : isReserved entry = false := by
        cases n with
        | none => exact isReserved_of_none he
        | some name => exact Bool.eq_false_iff.2 (fun h => hn ⟨name, rfl, (isReserved_of_name he).1 h⟩)
      simp [he, hfree]
    · simp [he]

theorem nameOf_pairText (h : equalsSign ∉ e.1) : nameOf (pairText e) = some e.1 := nameOf_of_prefix h

/-- The entries that every fork has behind the others. -/
def forkEntries (id : Nat) (channel : Bytes) : List Bytes :=
  [pairText (workerIdName, decimal id), pairText (uniqueIdName, decimal id), pairText (channelName, channel)]

theorem entriesOf_forkEntries (id : Nat) (channel : Bytes) : entriesOf n (forkEntries id channel) =
    (if some workerIdName = n then [pairText (workerIdName, decimal id)] else []) ++
      (if some uniqueIdName = n then [pairText (uniqueIdName, decimal id)] else []) ++
      (if some channelName = n then [pairText (channelName, channel)] else []) := by
  have h₁ := nameOf_pairText (e := (workerIdName, decimal id)) (equalsSign_not_mem_reserved workerIdName (by decide))
  have h₂ := nameOf_pairText (e := (uniqueIdName, decimal id)) (equalsSign_not_mem_reserved uniqueIdName (by decide))
  have h₃ := nameOf_pairText (e := (channelName, channel)) (equalsSign_not_mem_reserved channelName (by decide))
  simp only [entriesOf, forkEntries, filter_cons, filter_nil, h₁, h₂, h₃, decide_eq_true_eq]
  split <;> split <;> split <;> rfl

theorem childEnvironment_eq (parent : List Bytes) (entries : List (Bytes × Bytes)) (id : Nat) (channel : Bytes) :
    childEnvironment parent (joinPairs entries) id channel =
      (pieces entries).foldl applyPair (parent.filter (fun entry => !isReserved entry)) ++ forkEntries id channel := by
  rw [childEnvironment, applyPairs_joinPairs]; rfl

theorem entriesOf_child (hr : name ∉ reservedNames) :
    entriesOf (some name) (childEnvironment parent (joinPairs entries) id channel) =
      match lastPiece entries name with
      | some p => [p]
      | none => entriesOf (some name) parent := by
  have hfork : entriesOf (some name) (forkEntries id channel) = [] := by
    simp only [reservedNames, mem_cons, not_mem_nil, or_false, not_or] at hr
    rw [entriesOf_forkEntries]; simp [Ne.symm hr.1, Ne.symm hr.2.1, Ne.symm hr.2.2.1]
  rw [childEnvironment_eq, entriesOf_append, hfork, append_nil, entriesOf_foldl hr, entriesOf_unreserved,
    if_neg (by simpa using hr)]
  rfl

theorem entriesOf_child_kept (env : ForkEnv) {n : Option Bytes} (hn : ∀ name ∈ n, name ∈ reservedNames) :
    entriesOf n (childEnvironment parent (joinPairs env.entries) id channel) = requested parent env id channel n := by
  rw [childEnvironment_eq, entriesOf_append, entriesOf_foldl_kept hn, entriesOf_unreserved, entriesOf_forkEntries]
  cases n with
  | none => simp [requested]
  | some name =>
    have hmem := hn name rfl
    rw [if_pos ⟨name, rfl, hmem⟩]
    simp only [reservedNames, mem_cons, not_mem_nil, or_false] at hmem
    obtain rfl | rfl | rfl | rfl := hmem <;> rfl

/-! ## The pieces -/

theorem not_mem_of_mem_splitOn {sep : UInt8} {s : Bytes} (h : p ∈ s.splitOn sep) : sep ∉ p := by
  induction s generalizing p with
  | nil => rw [splitOn_nil, mem_singleton] at h; simp [h]
  | cons x s ih =>
    rw [splitOn_cons_eq_if_modifyHead] at h
    obtain ⟨q, qs, hs⟩ := exists_cons_of_ne_nil (splitOn_ne_nil sep s)
    rw [hs] at h ih
    by_cases hx : x = sep
    · rw [if_pos (by simpa using hx), mem_cons] at h
      obtain rfl | h := h
      · exact not_mem_nil
      · exact ih h
    · rw [if_neg (by simpa using hx), modifyHead_cons, mem_cons] at h
      obtain rfl | h := h
      · exact not_mem_cons_of_ne_of_not_mem (Ne.symm hx) (ih mem_cons_self)
      · exact ih (mem_cons_of_mem _ h)

theorem mem_pieces : p ∈ pieces entries ↔ ∃ e ∈ entries, p ∈ (pairText e).splitOn envSeparator := mem_flatMap

theorem splitOn_pairText (h : envSeparator ∉ pairText e) :
    (pairText e).splitOn envSeparator = [pairText e] := splitOn_eq_singleton h

theorem exists_piece (he : e ∈ entries) (hk : envSeparator ∉ e.1) (hn : equalsSign ∉ e.1) :
    ∃ p ∈ pieces entries, nameOf p = some e.1 := by
  have hne : envSeparator ≠ equalsSign := by decide
  cases hf : find [envSeparator] e.2 with
  | some i =>
    obtain ⟨hcut, hfirst⟩ := find_cut hf
    have hpair : pairText e = (e.1 ++ equalsSign :: e.2.take i) ++ envSeparator :: e.2.drop (i + 1) := by
      rw [pairText]
      conv_lhs => rw [hcut]
      simp
    have hsep : envSeparator ∉ e.1 ++ equalsSign :: e.2.take i := by simp [hk, hfirst, hne]
    refine ⟨e.1 ++ equalsSign :: e.2.take i, mem_pieces.2 ⟨e, he, ?_⟩, nameOf_of_prefix hn⟩
    rw [hpair, splitOn_append_cons_self_of_not_mem hsep]; exact mem_cons_self
  | none =>
    have hsep : envSeparator ∉ pairText e := by simp [pairText, hk, not_mem_of_find hf, hne]
    refine ⟨pairText e, mem_pieces.2 ⟨e, he, ?_⟩, nameOf_pairText hn⟩
    rw [splitOn_pairText hsep]; exact mem_cons_self

theorem lastPiece_mem (h : lastPiece entries name = some p) : p ∈ pieces entries ∧ nameOf p = some name := by
  simpa using mem_of_getLast? h

theorem lastPiece_eq_none (h : lastPiece entries name = none) : ∀ p ∈ pieces entries, nameOf p ≠ some name := by
  rw [lastPiece, getLast?_eq_none_iff, filter_eq_nil_iff] at h; simpa using h

/-! ## When a worker gets what was asked for -/

theorem lookup_iff_of_nodup {value : Bytes} (hnodup : (entries.map Prod.fst).Nodup) :
    entries.lookup name = some value ↔ (name, value) ∈ entries := by
  induction entries with
  | nil => simp
  | cons e es ih =>
    obtain ⟨k, v⟩ := e
    rw [map_cons, nodup_cons] at hnodup
    by_cases hk : name = k
    · subst hk
      have hfree : (name, value) ∉ es := fun h => hnodup.1 (mem_map.2 ⟨_, h, rfl⟩)
      simp [hfree, eq_comm]
    · have hbeq : (name == k) = false := by simpa using hk
      rw [lookup_cons, hbeq, ih hnodup.2]; simp [hk]

theorem ForkEnv.lookup_iff (env : ForkEnv) {value : Bytes} :
    env.entries.lookup name = some value ↔ (name, value) ∈ env.entries := lookup_iff_of_nodup env.nodup

/-- What the object or else the parent says of a name. -/
def wanted (parent : List Bytes) (env : ForkEnv) (name : Bytes) : List Bytes :=
  match env.entries.lookup name with
  | some value => [pairText (name, value)]
  | none => entriesOf (some name) parent

theorem requested_free (parent : List Bytes) (env : ForkEnv) (id : Nat) (channel : Bytes) (hr : name ∉ reservedNames) :
    requested parent env id channel (some name) = wanted parent env name := by
  simp only [reservedNames, mem_cons, not_mem_nil, or_false, not_or] at hr
  simp only [requested, hr.1, hr.2.1, hr.2.2.1, hr.2.2.2, if_false]; rfl

theorem honours_iff_wanted (parent : List Bytes) (env : ForkEnv) (id : Nat) (channel : Bytes) :
    Honours parent env id channel (childEnvironment parent (joinPairs env.entries) id channel) ↔
      ∀ name ∉ reservedNames, (match lastPiece env.entries name with
        | some p => [p]
        | none => entriesOf (some name) parent) = wanted parent env name := by
  constructor
  · intro h name hr; rw [← requested_free parent env id channel hr, ← h (some name), entriesOf_child hr]
  · intro h n
    by_cases hn : ∀ name ∈ n, name ∈ reservedNames
    · exact entriesOf_child_kept env hn
    · obtain ⟨name, rfl, hr⟩ : ∃ name, n = some name ∧ name ∉ reservedNames := by simpa using hn
      rw [entriesOf_child hr, h name hr, requested_free parent env id channel hr]

theorem wanted_of_mem {env : ForkEnv} (he : e ∈ env.entries) : wanted parent env e.1 = [pairText e] := by
  rw [wanted, (env.lookup_iff).2 he]

theorem traceless_of_wanted {env : ForkEnv} (h : ∀ name ∉ reservedNames, (match lastPiece env.entries name with
    | some p => [p]
    | none => entriesOf (some name) parent) = wanted parent env name) : Traceless parent env := by
  refine ⟨?_, ?_⟩
  · intro e he hr hcut
    have hw := h e.1 hr
    rw [wanted_of_mem he] at hw
    cases hl : lastPiece env.entries e.1 with
    | some p =>
      rw [hl] at hw
      obtain ⟨e', _, hp⟩ := mem_pieces.1 (lastPiece_mem hl).1
      have heq : p = pairText e := by simpa using hw
      exact absurd (heq ▸ hcut) (not_mem_of_mem_splitOn hp)
    | none =>
      rw [hl] at hw
      refine ⟨by_contra fun hk => ?_, hw⟩
      obtain ⟨p, hp, hname⟩ := exists_piece he hk (env.noEquals e he)
      exact lastPiece_eq_none hl p hp hname
  · intro e _ _ p _ name hr _ hl
    have hw := h name hr; rwa [hl] at hw

theorem wanted_of_traceless {env : ForkEnv} (h : Traceless parent env) (hr : name ∉ reservedNames) :
    (match lastPiece env.entries name with
      | some p => [p]
      | none => entriesOf (some name) parent) = wanted parent env name := by
  cases hl : lastPiece env.entries name with
  | some p =>
    obtain ⟨hmem, hname⟩ := lastPiece_mem hl
    obtain ⟨e, he, hp⟩ := mem_pieces.1 hmem
    by_cases hcut : envSeparator ∈ pairText e
    · exact h.stray e he hcut p hp name hr hname hl
    · rw [splitOn_pairText hcut, mem_singleton] at hp
      subst hp
      rw [nameOf_pairText (env.noEquals e he), Option.some.injEq] at hname
      subst hname; exact (wanted_of_mem he).symm
  | none =>
    rw [wanted]
    cases hv : env.entries.lookup name with
    | none => rfl
    | some value =>
      have he := env.lookup_iff.1 hv
      by_cases hcut : envSeparator ∈ pairText (name, value)
      · exact (h.whole _ he hr hcut).2
      · have hp : pairText (name, value) ∈ pieces env.entries :=
          mem_pieces.2 ⟨_, he, by rw [splitOn_pairText hcut]; exact mem_cons_self⟩
        exact absurd (nameOf_pairText (env.noEquals _ he)) (lastPiece_eq_none hl _ hp)

/-- A worker gets what was asked for exactly when no separator leaves a trace. -/
theorem childEnvironment_iff (parent : List Bytes) (env : ForkEnv) (id : Nat) (channel : Bytes) :
    Honours parent env id channel (childEnvironment parent (joinPairs env.entries) id channel) ↔ Traceless parent env := by
  rw [honours_iff_wanted]; exact ⟨traceless_of_wanted, fun h name hr => wanted_of_traceless h hr⟩

/-- `{ A: '1\x1fB=2' }` -/
def smuggling : ForkEnv where
  entries := [(text "A", text "1" ++ envSeparator :: text "B=2")]
  nodup := by simp
  nonempty := by decide
  noEquals := by decide
  noNul := by decide

/-- The worker gets `B`, which nobody asked for. -/
theorem childEnvironment_smuggled :
    ¬ Honours [] smuggling 1 (text "3") (childEnvironment [] (joinPairs smuggling.entries) 1 (text "3")) := by
  intro h
  have hb := h (some (text "B"))
  rw [entriesOf_child (by decide)] at hb; exact absurd hb (by decide)

end NodeCompat.Cluster
