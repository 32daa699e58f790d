import Mathlib.Data.List.Nodup
import NodeCompat.Bytes
import NodeCompat.Web.ReadableStream

/-!
# The BYOB reader

`read(view)` reads a chunk as any reader does; when its promise settles, a microtask copies into the view what fits, and the result is
the view. What is longer than the view is gone, and of a view that is longer than the chunk the end is what it was before
(`byob_loses_bytes`). When each chunk is as long as the view of the `read` that takes it, nothing is lost (`byob_loses_nothing`).
-/

namespace NodeCompat.Web

open List Block

/-- The reactions of promises that have settled: for each, its view and its outcome. -/
def reactions {R : Type} : List Nat → List (Option R) → List (Option R) → List (Nat × R)
  | view :: views, settled :: old, result :: new =>
    (match settled, result with
      | none, some r => [(view, r)]
      | _, _ => []) ++ reactions views old new
  | view :: views, [], result :: new => (result.map (fun r => (view, r))).toList ++ reactions views [] new
  | _, _, _ => []

/-- What a `read` reports: the bytes of a chunk that were copied, and those of the view. -/
inductive Report (ε : Type)
  | value (copied value : Bytes)
  | done
  | rejected (reason : ε)
  /-- The reader was released. -/
  | noStream
  deriving DecidableEq

structure ByobReader (ε : Type) where
  stream : ReadableStream Bytes ε
  attached : Bool := true
  /-- The bytes of the views. -/
  memory : Nat → Bytes
  /-- The view of each `read`. -/
  views : List Nat := []
  /-- The reactions that wait as microtasks. -/
  jobs : List (Nat × ReadResult Bytes ε) := []

namespace ByobReader

inductive Call (ε : Type)
  | enqueue (chunk : Bytes)
  | close
  | error (reason : ε)
  | read (view : Nat)
  | releaseLock
  /-- The program has a view hold these bytes. -/
  | write (view : Nat) (bytes : Bytes)
  /-- A microtask. -/
  | react
  deriving DecidableEq

variable {ε : Type} (r : ByobReader ε)

abbrev Result (ε : Type) := Block (ByobReader ε) ReadableStream.Frame (Report ε)

/-- A block of the stream, and the reactions that it queues. -/
def through (b : ReadableStream.Result Bytes ε) : Result ε :=
  { state := { r with stream := b.state, jobs := r.jobs ++ reactions r.views r.stream.reads b.state.reads }, frames := b.frames }

/-- `view[index] = source[index]`, for each index that both have. -/
def copyInto (view source : Bytes) : Bytes :=
  let length := min view.length source.length
  source.take length ++ view.drop length

/-- The reaction of a `read`. -/
def react (view : Nat) : ReadResult Bytes ε → Result ε
  | .done => { state := r, seen := [.done] }
  | .rejected reason => { state := r, seen := [.rejected reason] }
  | .value source =>
    let value := copyInto (r.memory view) source
    { state := { r with memory := Function.update r.memory view value }
      seen := [.value (source.take (min (r.memory view).length source.length)) value] }

def call : Call ε → Option (Result ε)
  | .enqueue chunk => some (r.through (r.stream.call (.enqueue chunk)))
  | .close => some (r.through (r.stream.call .close))
  | .error reason => some (r.through (r.stream.call (.error reason)))
  | .read view =>
    if r.attached then some ({ r with views := r.views ++ [view] }.through (r.stream.call .read)) else some { state := r, seen := [.noStream] }
  | .releaseLock => some { state := { r with attached := false } }
  | .write view bytes => some { state := { r with memory := Function.update r.memory view bytes } }
  | .react =>
    match r.jobs with
    | [] => none
    | (view, result) :: jobs => some ({ r with jobs }.react view result)

/-- The stream, its source and its reader. -/
def program : Reentrant (ByobReader ε) (Call ε) ReadableStream.Frame (Report ε) where
  call := call
  resume r f := r.through (ReadableStream.program.resume r.stream f)
  task
    | .react => true
    | _ => false

end ByobReader

/-- The bytes that the results report. -/
def reported {ε : Type} (es : List (Report ε)) : Bytes := (es.map fun
    | .value _ value => value
    | _ => []).flatten

/-- A chunk is as long as the view of the `read` that took it. -/
def fits {ε : Type} (c : Config (ByobReader ε) ReadableStream.Frame (Report ε)) : Move (ByobReader.Call ε) → Bool
  | .call .react =>
    match c.state.jobs with
    | (view, .value source) :: _ => (c.state.memory view).length == source.length
    | _ => true
  | _ => true

/-! ## Promises that settle -/

section Reactions

variable {R : Type} {views : List Nat} {rs : List (Option R)}

theorem reactions_same : ∀ (views : List Nat) (rs : List (Option R)), reactions views rs rs = []
  | [], _ => by simp [reactions]
  | _ :: _, [] => by simp [reactions]
  | view :: views, none :: rs => by simp [reactions, reactions_same views rs]
  | view :: views, some r :: rs => by simp [reactions, reactions_same views rs]

theorem reactions_set (r : R) : ∀ {views : List Nat} {rs : List (Option R)} {i : Nat}, rs[i]? = some none → views.length = rs.length →
    (reactions views rs (rs.set i (some r))).map Prod.snd = [r]
  | _, [], i, h, _ => by simp at h
  | [], _ :: _, _, _, hlen => by simp at hlen
  | view :: views, o :: rs, 0, h, _ => by
    rw [getElem?_cons_zero] at h
    cases h; simp [reactions, reactions_same]
  | view :: views, o :: rs, i + 1, h, hlen => by
    have ih := @reactions_set r views rs i (by simpa using h) (by simpa using hlen)
    cases o <;> simpa [reactions] using ih

theorem reactions_made : ∀ {views : List Nat} {rs new : List (Option R)}, views.length = new.length → new.length = rs.length + 1 →
    reactions views rs new = reactions views (rs ++ [none]) new
  | [], _, _, _, _ => by simp [reactions]
  | _ :: _, _, [], _, hnew => by simp at hnew
  | view :: views, [], o :: new, _, hnew => by
    have hnil : new = [] := by simpa using hnew
    subst hnil
    cases o <;> simp [reactions]
  | view :: views, o' :: rs, o :: new, hlen, hnew => by
    have ih := @reactions_made views rs new (by simpa using hlen) (by simpa using hnew)
    cases o <;> cases o' <;> simp [reactions, ih]

end Reactions

/-! ## The chunks -/

/-- The chunks among outcomes. -/
def chunksOf {α ε : Type} (outcomes : List (ReadResult α ε)) : List α := outcomes.filterMap fun
    | .value chunk => some chunk
    | _ => none

theorem chunksOf_append {α ε : Type} (os os' : List (ReadResult α ε)) : chunksOf (os ++ os') = chunksOf os ++ chunksOf os' :=
  filterMap_append

/-- One promise settles at most. -/
inductive OneSettles {R : Type} (rs : List (Option R)) : List (Option R) → List R → Prop
  | same : OneSettles rs rs []
  | one {i : Nat} {r : R} : rs[i]? = some none → OneSettles rs (rs.set i (some r)) [r]

theorem OneSettles.reactions {R : Type} {views : List Nat} {rs rs' : List (Option R)} {outcomes : List R} (h : OneSettles rs rs' outcomes)
    (hlen : views.length = rs.length) : (Web.reactions views rs rs').map Prod.snd = outcomes ∧ rs'.length = rs.length := by
  cases h with
  | same => exact ⟨by rw [reactions_same]; rfl, rfl⟩
  | one hi => exact ⟨reactions_set _ hi hlen, length_set ..⟩

namespace ReadableStream

variable {α ε : Type} {s : ReadableStream α ε} {stack : List Frame}

def Frame.read : Frame → Nat
  | .pulling read => read

/-- The promises that are to be settled are pending, each in one place, and none waits for the controller while there is a chunk. -/
structure Open (s : ReadableStream α ε) (stack : List Frame) : Prop where
  pending : ∀ i ∈ s.waiting.toList ++ stack.map Frame.read, s.reads[i]? = some none
  nodup : (s.waiting.toList ++ stack.map Frame.read).Nodup
  waits : s.waiting.isSome = true → s.queue = [] ∧ s.state = .readable

/-- What a block does with the chunks: those that are new go into the queue, or out of it with the outcomes. -/
structure Flows (s s' : ReadableStream α ε) (outcomes : List (ReadResult α ε)) : Prop where
  chunks : ∃ new, chunksOf outcomes ++ s'.queue = s.queue ++ new ∧ s'.enqueued = s.enqueued ++ new ∧
    (s.state ≠ .readable → new = [] ∧ s'.state ≠ .readable)
  last : ∀ o ∈ outcomes, (∀ chunk, o ≠ .value chunk) → s'.state ≠ .readable ∧ s'.queue = []
  single : outcomes.length ≤ 1

theorem flows_same {s' : ReadableStream α ε} (hq : s'.queue = s.queue) (he : s'.enqueued = s.enqueued) (hs : s'.state = s.state) :
    Flows s s' [] :=
  ⟨⟨[], by simp [hq, chunksOf], by simp [he], fun h => ⟨rfl, hs ▸ h⟩⟩, by simp, by simp⟩

theorem Open.settle {i : Nat} {ids : List Nat} {rs : List (Option (ReadResult α ε))} (o : ReadResult α ε)
    (hp : ∀ j ∈ i :: ids, rs[j]? = some none) (hn : (i :: ids).Nodup) :
    OneSettles rs (rs.set i (some o)) [o] ∧ (∀ j ∈ ids, (rs.set i (some o))[j]? = some none) ∧ ids.Nodup := by
  refine ⟨.one (hp i mem_cons_self), fun j hj => ?_, (nodup_cons.1 hn).2⟩
  have hne : i ≠ j := fun h => (nodup_cons.1 hn).1 (h ▸ hj)
  rw [getElem?_set_ne hne]; exact hp j (mem_cons_of_mem _ hj)

/-- A block that makes no promise. -/
structure Passes (s : ReadableStream α ε) (b : Result α ε) (stack : List Frame) : Prop where
  opens : Open b.state (b.frames ++ stack)
  settles : ∃ outcomes, OneSettles s.reads b.state.reads outcomes ∧ Flows s b.state outcomes

theorem passes_enqueueFromController (chunk : α) (h : Open s stack) : Passes s (s.enqueueFromController chunk) stack := by
  unfold enqueueFromController
  split
  · next hs =>
    cases hw : s.waiting with
    | some i =>
      have hq := (h.waits (by simp [hw])).1
      have hids : s.waiting.toList ++ stack.map Frame.read = i :: stack.map Frame.read := by rw [hw]; rfl
      obtain ⟨hsettled, hpending, hnodup⟩ := Open.settle (.value chunk) (hids ▸ h.pending) (hids ▸ h.nodup)
      simp only [Option.isSome_some, if_true, settleWaiting, settle]
      refine ⟨⟨by simpa using hpending, by simpa using hnodup, by simp⟩, _, hsettled, ?_⟩
      exact ⟨⟨[chunk], by simp [chunksOf, hq], rfl, fun hne => absurd hs hne⟩, by simp, by simp⟩
    | none =>
      simp only [Option.isSome_none, Bool.false_eq_true, if_false]
      refine ⟨⟨by simpa [hw] using h.pending, by simpa [hw] using h.nodup, by simp⟩, _, .same, ?_⟩
      exact ⟨⟨[chunk], by simp [chunksOf], rfl, fun hne => absurd hs hne⟩, by simp, by simp⟩
  · exact ⟨h, _, .same, flows_same rfl rfl rfl⟩

theorem passes_over {state : StreamState ε} {result : ReadResult α ε} {closed : Option (Except ε Unit)}
    (hne : state ≠ .readable) (hresult : ∀ chunk, result ≠ .value chunk) (h : Open s stack) :
    Passes s { state := { ({ s with state } : ReadableStream α ε).settleWaiting result with closed } } stack := by
  have hnone : chunksOf [result] = [] := by
    cases result with
    | value chunk => exact absurd rfl (hresult chunk)
    | done | rejected reason => rfl
  cases hw : s.waiting with
  | some i =>
    have hq := (h.waits (by simp [hw])).1
    have hids : s.waiting.toList ++ stack.map Frame.read = i :: stack.map Frame.read := by rw [hw]; rfl
    obtain ⟨hsettled, hpending, hnodup⟩ := Open.settle result (hids ▸ h.pending) (hids ▸ h.nodup)
    simp only [settleWaiting, settle]
    refine ⟨⟨by simpa using hpending, by simpa using hnodup, by simp⟩, _, hsettled, ?_⟩
    exact ⟨⟨[], by simp [hnone, hq], by simp, fun _ => ⟨rfl, hne⟩⟩, fun o _ _ => ⟨hne, hq⟩, by simp⟩
  | none =>
    simp only [settleWaiting]
    refine ⟨⟨by simpa [hw] using h.pending, by simpa [hw] using h.nodup, by simp⟩, _, .same, ?_⟩
    exact ⟨⟨[], by simp [chunksOf], by simp, fun _ => ⟨rfl, hne⟩⟩, by simp, by simp⟩

theorem passes_closeFromController (h : Open s stack) : Passes s { state := s.closeFromController } stack := by
  unfold closeFromController
  split
  · exact passes_over nofun nofun h
  · exact ⟨h, _, .same, flows_same rfl rfl rfl⟩

theorem passes_errorFromController (reason : ε) (h : Open s stack) : Passes s { state := s.errorFromController reason } stack := by
  unfold errorFromController
  split
  · exact passes_over nofun nofun h
  · exact ⟨h, _, .same, flows_same rfl rfl rfl⟩

theorem passes_pulled {i : Nat} (h : Open s (.pulling i :: stack)) : Passes s { state := s.pulled i } stack := by
  have hids : ∀ w : List Nat, w ++ (Frame.pulling i :: stack).map Frame.read = w ++ i :: stack.map Frame.read := fun _ => rfl
  have hi : ∀ j ∈ i :: stack.map Frame.read, s.reads[j]? = some none := fun j hj => h.pending j (mem_append_right _ hj)
  have hn : (i :: stack.map Frame.read).Nodup := (nodup_append.1 h.nodup).2.1
  -- while there is something to take, no promise waits for the controller
  have hfree : s.queue ≠ [] ∨ s.state ≠ .readable → s.waiting = none := by
    intro hor
    cases hw : s.waiting with
    | none => rfl
    | some j => obtain ⟨hq, hs⟩ := h.waits (by simp [hw]); exact absurd hor (by simp [hq, hs])
  rcases take_cases s with ⟨chunk, queue, hq, ht⟩ | ⟨result, hq, hs, hr, ht⟩ | ⟨hq, hs, ht⟩
  · have hw := hfree (.inl (by simp [hq]))
    obtain ⟨hsettled, hpending, hnodup⟩ := Open.settle (.value chunk) hi hn
    simp only [pulled, ht, settle]
    refine ⟨⟨by simpa [hw] using hpending, by simpa [hw] using hnodup, by simp [hw]⟩, _, hsettled, ?_⟩
    exact ⟨⟨[], by simp [chunksOf, hq], by simp, fun hne => ⟨rfl, hne⟩⟩, by simp, by simp⟩
  · have hw := hfree (.inr hs)
    obtain ⟨hsettled, hpending, hnodup⟩ := Open.settle result hi hn
    have hnone : chunksOf [result] = [] := by
      cases result with
      | value chunk => cases hstate : s.state <;> rw [hstate] at hr <;> cases hr
      | done | rejected reason => rfl
    simp only [pulled, ht, settle]
    refine ⟨⟨by simpa [hw] using hpending, by simpa [hw] using hnodup, by simp [hw]⟩, _, hsettled, ?_⟩
    exact ⟨⟨[], by simp [hnone], by simp, fun _ => ⟨rfl, hs⟩⟩, fun _ _ _ => ⟨hs, hq⟩, by simp⟩
  · simp only [pulled, ht]
    refine ⟨⟨by simpa using hi, by simpa using hn, fun _ => ⟨hq, hs⟩⟩, _, .same, flows_same rfl rfl rfl⟩

theorem Open.made (h : Open s stack) : Open ({ s with reads := s.reads ++ [none] } : ReadableStream α ε) stack := by
  refine ⟨fun j hj => ?_, h.nodup, h.waits⟩
  rw [getElem?_append_left (List.getElem?_eq_some_iff.1 (h.pending j hj)).1]; exact h.pending j hj

theorem passes_readInternal (h : Open s stack) :
    Passes { s with reads := s.reads ++ [none] } s.readInternal stack := by
  have hlt : ∀ j ∈ s.waiting.toList ++ stack.map Frame.read, j < s.reads.length := by
    intro j hj; exact (List.getElem?_eq_some_iff.1 (h.pending j hj)).1
  have hmade : Open ({ s with reads := s.reads ++ [none] } : ReadableStream α ε) (.pulling s.reads.length :: stack) := by
    refine ⟨fun j hj => ?_, ?_, h.waits⟩
    · have hor : j = s.reads.length ∨ j ∈ s.waiting.toList ++ stack.map Frame.read := by
        rcases mem_append.1 hj with hj | hj
        · exact .inr (mem_append_left _ hj)
        · exact (mem_cons.1 hj).imp_right (fun hj => mem_append_right _ hj)
      rcases hor with rfl | hj
      · exact getElem?_concat_length ..
      · exact h.made.pending j hj
    · exact nodup_middle.2 (nodup_cons.2 ⟨fun hj => absurd (hlt _ hj) (Nat.lt_irrefl _), h.nodup⟩)
  rcases readInternal_cases s with hread | ⟨-, hread⟩ <;> rw [hread]
  · exact ⟨hmade, _, .same, flows_same rfl rfl rfl⟩
  · exact passes_pulled hmade

end ReadableStream

/-! ## The results -/

open ByobReader

open ReadableStream

namespace ByobReader

variable {ε : Type}

/-- The outcome that a report is of. -/
def outcome : Report ε → Option (ReadResult Bytes ε)
  | .value copied _ => some (.value copied)
  | .done => some .done
  | .rejected reason => some (.rejected reason)
  | .noStream => none

/-- The outcomes in the order in which the promises settle: those that have been reported, and those whose reactions wait. -/
def outcomes (r : ByobReader ε) (es : List (Report ε)) : List (ReadResult Bytes ε) := es.filterMap outcome ++ r.jobs.map Prod.snd

def IsChunk (o : ReadResult Bytes ε) : Prop := ∃ chunk, o = .value chunk

/-- The chunks have settled promises or are in the queue, in order; after an outcome of the end comes none. -/
structure Lossless (r : ByobReader ε) (os : List (ReadResult Bytes ε)) : Prop where
  lengths : r.views.length = r.stream.reads.length
  chunks : chunksOf os ++ r.stream.queue = r.stream.enqueued
  last : ∀ o ∈ os, (∀ chunk, o ≠ .value chunk) → r.stream.state ≠ .readable ∧ r.stream.queue = []
  order : EachAfter (fun pre o => IsChunk o → ∀ o' ∈ pre, IsChunk o') os

variable {r : ByobReader ε} {os : List (ReadResult Bytes ε)}

theorem not_isChunk {o : ReadResult Bytes ε} (h : ¬ IsChunk o) : ∀ chunk, o ≠ .value chunk := fun chunk ho => h ⟨chunk, ho⟩

/-- **The chunks flow on.** -/
theorem Lossless.flows {r' : ByobReader ε} {outcomes : List (ReadResult Bytes ε)} (h : Lossless r os)
    (hf : ReadableStream.Flows r.stream r'.stream outcomes) (hlen : r'.views.length = r'.stream.reads.length) : Lossless r' (os ++ outcomes) := by
  obtain ⟨new, hqueue, henqueued, hover⟩ := hf.chunks
  have hend : (∃ o ∈ os, ¬ IsChunk o) → r'.stream.state ≠ .readable ∧ r'.stream.queue = [] ∧ chunksOf outcomes = [] := by
    rintro ⟨o, ho, hno⟩
    obtain ⟨hs, hq⟩ := h.last o ho (not_isChunk hno)
    obtain ⟨rfl, hs'⟩ := hover hs
    rw [hq, append_nil] at hqueue
    have hnil := append_eq_nil_iff.1 hqueue; exact ⟨hs', hnil.2, hnil.1⟩
  refine ⟨hlen, ?_, fun o ho hno => ?_, ?_⟩
  · rw [chunksOf_append, append_assoc, hqueue, ← append_assoc, h.chunks, henqueued]
  · rcases mem_append.1 ho with ho | ho
    · obtain ⟨hs, hq, -⟩ := hend ⟨o, ho, fun ⟨chunk, hchunk⟩ => hno chunk hchunk⟩
      exact ⟨hs, hq⟩
    · exact hf.last o ho hno
  · match outcomes, hf.single with
    | [], _ => rw [append_nil]; exact h.order
    | [o], _ =>
      refine h.order.snoc (fun ⟨chunk, hchunk⟩ o' ho' => ?_)
      by_contra hno
      have hnone := (hend ⟨o', ho', hno⟩).2.2; rw [hchunk] at hnone; cases hnone

/-- What every run keeps. -/
structure Keeps (c : Config (ByobReader ε) ReadableStream.Frame (Report ε)) : Prop where
  opens : ReadableStream.Open c.state.stream c.stack
  lossless : Lossless c.state (c.state.outcomes c.trace)
  whole : ∀ copied value, .value copied value ∈ c.trace → value = copied

variable {c : Config (ByobReader ε) ReadableStream.Frame (Report ε)}

theorem Keeps.through {b : ReadableStream.Result Bytes ε} {stack : List ReadableStream.Frame} (h : Keeps c)
    (hb : ReadableStream.Passes c.state.stream b stack) : Keeps ((c.state.through b).onto stack c.trace) := by
  obtain ⟨outcomes, hsettled, hflows⟩ := hb.settles
  obtain ⟨hreactions, hlen⟩ := hsettled.reactions h.lossless.lengths
  have hos : (c.state.through b).state.outcomes (c.trace ++ []) = c.state.outcomes c.trace ++ outcomes := by
    rw [append_nil]
    show _ ++ (c.state.jobs ++ reactions c.state.views c.state.stream.reads b.state.reads).map Prod.snd = (_ ++ _) ++ outcomes
    rw [map_append, hreactions, append_assoc]
  refine ⟨hb.opens, ?_, fun copied value hin => h.whole copied value (by simpa [ByobReader.through] using hin)⟩
  show Lossless (c.state.through b).state ((c.state.through b).state.outcomes (c.trace ++ []))
  rw [hos]; exact h.lossless.flows hflows (h.lossless.lengths.trans hlen.symm)

theorem Keeps.read (view : Nat) (h : Keeps c) :
    Keeps (({ c.state with views := c.state.views ++ [view] }.through (c.state.stream.call .read)).onto c.stack c.trace) := by
  have hb := passes_readInternal h.opens
  obtain ⟨outcomes, hsettled, -⟩ := hb.settles
  have hviews : (c.state.views ++ [view]).length = (c.state.stream.reads ++ [none]).length := by
    rw [length_append, length_append, h.lossless.lengths]; rfl
  have hlen := (hsettled.reactions hviews).2
  have hmade : Keeps { c with state := { c.state with
      views := c.state.views ++ [view]
      stream := { c.state.stream with reads := c.state.stream.reads ++ [none] } } } :=
    ⟨h.opens.made, ⟨hviews, h.lossless.chunks, h.lossless.last, h.lossless.order⟩, h.whole⟩
  have hreactions : reactions (c.state.views ++ [view]) c.state.stream.reads c.state.stream.readInternal.state.reads =
      reactions (c.state.views ++ [view]) (c.state.stream.reads ++ [none]) c.state.stream.readInternal.state.reads :=
    reactions_made (hviews.trans hlen.symm) (hlen.trans (length_append ..))
  have hthrough : { c.state with views := c.state.views ++ [view] }.through c.state.stream.readInternal =
      ({ c.state with
        views := c.state.views ++ [view]
        stream := { c.state.stream with reads := c.state.stream.reads ++ [none] } } : ByobReader ε).through c.state.stream.readInternal := by
    unfold ByobReader.through; rw [hreactions]
  show Keeps (({ c.state with views := c.state.views ++ [view] }.through c.state.stream.readInternal).onto c.stack c.trace)
  rw [hthrough]; exact hmade.through hb

theorem copyInto_eq {view source : Bytes} (h : view.length = source.length) : copyInto view source = source := by
  show source.take (min view.length source.length) ++ view.drop (min view.length source.length) = source
  rw [h, Nat.min_self, take_length, ← h, drop_length, append_nil]

theorem Keeps.react {view : Nat} {result : ReadResult Bytes ε} {jobs : List (Nat × ReadResult Bytes ε)} (h : Keeps c)
    (hjobs : c.state.jobs = (view, result) :: jobs) (hfits : ∀ source, result = .value source → (c.state.memory view).length = source.length) :
    Keeps (({ c.state with jobs }.react view result).onto c.stack c.trace) := by
  have hos : ∀ {b : Result ε} {report : Report ε}, b.seen = [report] → outcome report = some result → b.state.jobs = jobs →
      b.state.outcomes (c.trace ++ b.seen) = c.state.outcomes c.trace := by
    intro b report hseen hreport hb
    unfold outcomes; rw [hseen, hb, hjobs, filterMap_append, map_cons, append_assoc]; simp [hreport]
  have hkeeps : ∀ {b : Result ε} {report : Report ε}, b.seen = [report] → outcome report = some result → b.state.jobs = jobs →
      b.state.stream = c.state.stream → b.state.views = c.state.views → b.frames = [] →
      (∀ copied value, report = .value copied value → value = copied) → Keeps (b.onto c.stack c.trace) := by
    intro b report hseen hreport hb hstream hviews hframes hwhole
    refine ⟨?_, ?_, fun copied value hin => ?_⟩
    · rw [onto_state, onto_stack, hstream, hframes]; exact h.opens
    · rw [onto_state, onto_trace, hos hseen hreport hb]
      exact ⟨by rw [hviews, hstream]; exact h.lossless.lengths, by rw [hstream]; exact h.lossless.chunks,
        by rw [hstream]; exact h.lossless.last, h.lossless.order⟩
    · rw [onto_trace, hseen] at hin
      rcases mem_append.1 hin with hin | hin
      · exact h.whole copied value hin
      · exact hwhole copied value (mem_singleton.1 hin).symm
  cases result with
  | done | rejected reason => exact hkeeps rfl rfl rfl rfl rfl rfl nofun
  | value source =>
    have hlen := hfits source rfl
    have hcopied : source.take (min (c.state.memory view).length source.length) = source := by
      rw [hlen, Nat.min_self, take_length]
    refine hkeeps rfl ?_ rfl rfl rfl rfl (fun copied value heq => ?_)
    · show some (ReadResult.value (source.take (min (c.state.memory view).length source.length))) = _; rw [hcopied]
    · cases heq; rw [hcopied]; exact copyInto_eq hlen

theorem Keeps.aside {b : Result ε} (h : Keeps c) (hstream : b.state.stream = c.state.stream) (hviews : b.state.views = c.state.views)
    (hjobs : b.state.jobs = c.state.jobs) (hframes : b.frames = []) (hseen : ∀ e ∈ b.seen, e = .noStream) : Keeps (b.onto c.stack c.trace) := by
  have hnone : b.seen.filterMap outcome = [] := filterMap_eq_nil_iff.2 (fun e he => by rw [hseen e he]; rfl)
  refine ⟨?_, ?_, fun copied value hin => ?_⟩
  · rw [onto_state, onto_stack, hstream, hframes]; exact h.opens
  · have hos : b.state.outcomes (c.trace ++ b.seen) = c.state.outcomes c.trace := by
      unfold outcomes; rw [filterMap_append, hnone, append_nil, hjobs]
    rw [onto_state, onto_trace, hos]
    exact ⟨by rw [hviews, hstream]; exact h.lossless.lengths, by rw [hstream]; exact h.lossless.chunks,
      by rw [hstream]; exact h.lossless.last, h.lossless.order⟩
  · rw [onto_trace] at hin
    rcases mem_append.1 hin with hin | hin
    · exact h.whole copied value hin
    · cases hseen _ hin

theorem keeps_run {pull : Bool} {memory : Nat → Bytes} {ls : List (Move (Call ε))}
    (h : Run program.step (fun c l => fits c l = true) { state := { stream := { pull }, memory } } ls c) : Keeps c := by
  refine Reentrant.invariant_of (I := Keeps) (fun c k b hI hP _ hcall => ?_) (fun c f fs hI _ hstack => ?_) h ?_
  · cases k with
    | enqueue chunk =>
      cases hcall; exact hI.through (passes_enqueueFromController chunk hI.opens)
    | close => cases hcall; exact hI.through (passes_closeFromController hI.opens)
    | error reason =>
      cases hcall; exact hI.through (passes_errorFromController reason hI.opens)
    | read view =>
      rw [show program.call c.state (.read view) = if c.state.attached then
        some ({ c.state with views := c.state.views ++ [view] }.through (c.state.stream.call .read)) else
        some { state := c.state, seen := [.noStream] } from rfl] at hcall
      split at hcall
      · cases hcall; exact hI.read view
      · cases hcall; exact hI.aside rfl rfl rfl rfl (by simp)
    | releaseLock | write view bytes => cases hcall; exact hI.aside rfl rfl rfl rfl (by simp)
    | react =>
      cases hjobs : c.state.jobs with
      | nil =>
        rw [show program.call c.state (.react) = none by simp [program, call, hjobs]] at hcall
        cases hcall
      | cons job jobs =>
        obtain ⟨view, result⟩ := job
        rw [show program.call c.state (.react) = some ({ c.state with jobs }.react view result) by simp [program, call, hjobs]] at hcall
        cases hcall
        refine hI.react hjobs (fun source hsource => ?_)
        subst hsource; simpa [fits, hjobs] using hP
  · have hopens := hI.opens
    rw [hstack] at hopens
    cases f with
    | pulling i => exact Keeps.through (c := c) ⟨hI.opens, hI.lossless, hI.whole⟩ (passes_pulled hopens)
  · exact ⟨⟨by simp, by simp, by simp⟩, ⟨rfl, rfl, by simp [outcomes], EachAfter.nil⟩, by simp⟩

end ByobReader

/-- **BYOB reads lose no bytes** when each chunk is as long as the view of its `read`. -/
theorem byob_loses_nothing {ε : Type} {pull : Bool} {memory : Nat → Bytes} {ls : List (Move (ByobReader.Call ε))}
    {c : Config (ByobReader ε) ReadableStream.Frame (Report ε)}
    (h : Run ByobReader.program.step (fun c l => fits c l = true) { state := { stream := { pull }, memory } } ls c) :
    (∀ copied value, .value copied value ∈ c.trace → value = copied) ∧ reported c.trace <+: c.state.stream.enqueued.flatten ∧
      (.done ∈ c.trace → reported c.trace = c.state.stream.enqueued.flatten) := by
  have hkeeps := keeps_run h
  have hreported : ∀ es : List (Report ε), (∀ copied value, .value copied value ∈ es → value = copied) →
      reported es = (chunksOf (es.filterMap outcome)).flatten := by
    intro es
    induction es with
    | nil => exact fun _ => rfl
    | cons e es ih =>
      intro hwhole
      have htail := ih (fun copied value hin => hwhole copied value (mem_cons_of_mem _ hin))
      cases e with
      | value copied value => rw [hwhole copied value mem_cons_self]; exact congrArg (copied ++ ·) htail
      | done | rejected reason | noStream => exact htail
  have hchunks := hkeeps.lossless.chunks
  unfold outcomes at hchunks
  rw [chunksOf_append, append_assoc] at hchunks
  refine ⟨hkeeps.whole, ?_, fun hdone => ?_⟩
  · rw [hreported _ hkeeps.whole, ← hchunks, flatten_append]; exact prefix_append _ _
  · have hin : .done ∈ c.trace.filterMap outcome := mem_filterMap.2 ⟨_, hdone, rfl⟩
    have hqueue := (hkeeps.lossless.last .done (mem_append_left _ hin) nofun).2
    have hnone : chunksOf (c.state.jobs.map Prod.snd) = [] := by
      refine filterMap_eq_nil_iff.2 (fun o ho => ?_)
      cases o with
      | value chunk =>
        obtain ⟨before, after, hsplit⟩ := append_of_mem ho
        obtain ⟨_, hvalue⟩ := hkeeps.lossless.order (c.trace.filterMap outcome ++ before) (.value chunk) after
          (by rw [outcomes, hsplit, append_assoc]) ⟨chunk, rfl⟩ .done (mem_append_left _ hin)
        cases hvalue
      | done | rejected reason => rfl
    rw [hreported _ hkeeps.whole, ← hchunks, hqueue, hnone, append_nil, append_nil]

/-- A chunk of two bytes for the view that waits, and one of one byte in the queue. -/
theorem byob_loses_nothing_two : ∃ c : Config (ByobReader Nat) ReadableStream.Frame (Report Nat),
    Run ByobReader.program.step (fun c l => fits c l = true)
        { state := { stream := { pull := false }, memory := fun view => if view = 0 then [0, 0] else [0] } }
        [.call (.read 0), .call (.enqueue [1, 2]), .call (.enqueue [3]), .call .react, .call (.read 1), .call .react, .call (.read 1),
          .call .close, .call .react] c ∧
      .done ∈ c.trace ∧ reported c.trace = [1, 2, 3] := by
  have hend : (runs (fun c l => if fits c l then program.step c l else none)
      ({ state := { stream := { pull := false }, memory := fun view => if view = 0 then [0, 0] else [0] } } :
        Config (ByobReader Nat) ReadableStream.Frame (Report Nat))
      [.call (.read 0), .call (.enqueue [1, 2]), .call (.enqueue [3]), .call .react, .call (.read 1), .call .react, .call (.read 1),
        .call .close, .call .react]).any (fun c => decide (.done ∈ c.trace) && decide (c.state.stream.enqueued = [[1, 2], [3]])) = true := by
    decide +kernel
  obtain ⟨c, hruns, hc⟩ := (Option.any_eq_true _ _).1 hend
  simp only [Bool.and_eq_true, decide_eq_true_eq] at hc
  obtain ⟨hdone, henqueued⟩ := hc
  have hrun := Run.of_guarded _ hruns
  refine ⟨c, hrun, hdone, ?_⟩
  rw [(byob_loses_nothing hrun).2.2 hdone, henqueued]; rfl

/-- A view of two bytes takes two of three, and the third is gone; of a view of two bytes one is set, and the result shows both. -/
theorem byob_loses_bytes : (∃ c : Config (ByobReader Nat) ReadableStream.Frame (Report Nat),
      runs ByobReader.program.step { state := { stream := { pull := false }, memory := fun _ => [0, 0] } }
        [.call (.enqueue [1, 2, 3]), .call .close, .call (.read 0), .call .react, .call (.read 0), .call .react] = some c ∧
      c.trace = [.value [1, 2] [1, 2], .done]) ∧
    ∃ c : Config (ByobReader Nat) ReadableStream.Frame (Report Nat),
      runs ByobReader.program.step { state := { stream := { pull := false }, memory := fun _ => [0, 0] } }
        [.call (.enqueue [1]), .call (.read 0), .call .react] = some c ∧
      c.trace = [.value [1] [1, 0]] :=
  ⟨⟨_, rfl, rfl⟩, ⟨_, rfl, rfl⟩⟩

end NodeCompat.Web
