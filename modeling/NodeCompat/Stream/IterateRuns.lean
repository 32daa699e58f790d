import NodeCompat.Stream.Iterate
import NodeCompat.Stream.Shown
import Mathlib.Data.List.Nodup

/-!
# What `next` gives

A producer pushes when nothing else runs, or in `_read`; it destroys, with or without an error. In the runs of such a
producer in which every chunk finds the oldest pending `next` first among the `'readable'` listeners, the pending `next`s hear
of the end, and none waits when the stream is closed without an error, each chunk is the value of one `next`, in order, and
none stays pending without a reason (`iterates`).

A chunk that is pushed in the `_read` of a `next` stays in the buffer, and the `next` waits (`pushed_in_read_waits`).
-/

namespace NodeCompat.Stream.Iterating

open List Option Readable

variable {V : Type}

/-- The oldest `next` that is not settled. -/
def oldest (p : Iterating V) : Option Nat := p.results.findIdx? Option.isNone

/-- `_read` and `_destroy`. -/
def Frame.hook : Frame V → Bool
  | .taking _ _ .fetching => true
  | .source (.destroying _) => true
  | _ => false

/-- What the producer and the caller of `next` do, when nothing runs or in a hook. -/
def Domain (c : Config (Iterating V) (Frame V) (Event V)) : Move (Call V) → Prop
  | .ret => True
  | .call k =>
    (∀ f ∈ c.stack.head?, f.hook = true) ∧
      match k with
      | .source (.push _) | .source .pushEnd | .source (.destroy _) | .source (.destroyed _) | .source (.checkpoint _) => True
      | .next => True
      | _ => False

/-- A `_read` is under way. -/
def Fetching (stack : List (Frame V)) : Prop := ∃ n b, .taking n b .fetching ∈ stack

/-- A chunk finds the oldest pending `next` first among those that listen; the end is heard by one of those that wait, or is
pushed in a `_read`; a stream with a `next` that waits is not closed without an error. -/
def Clear (c : Config (Iterating V) (Frame V) (Event V)) : Move (Call V) → Prop
  | .call (.source (.push (some _))) =>
    c.state.source.destroyed = false → (c.state.source.endPending = true → c.state.source.autoDestroy = true) ∧
        (c.state.source.endPending = false → c.state.readableListeners.head? = c.state.oldest)
  | .call (.source (.push none)) | .call (.source .pushEnd) =>
    c.state.source.destroyed = false → c.state.source.endPending = false →
      c.state.endListeners = [] ∨ c.state.readableListeners ≠ [] ∨ Fetching c.stack
  | .call (.source (.destroyed none)) => c.state.endListeners = []
  | _ => True

/-- The value that a `read` under way has emitted. -/
def flight : List (Frame V) → List (Chunk V)
  | .taking _ _ (.reading value) :: _ => [value]
  | _ => []

def pushed (es : List (Event V)) : List (Chunk V) := es.filterMap fun
    | .pushed chunk => some chunk
    | _ => none

/-- The first promises are fulfilled, one with each chunk and in order, and the others are not fulfilled with any. -/
def InOrder (E : Chunk V → Chunk V) (c : Config (Iterating V) (Frame V) (Event V)) : Prop :=
  ∃ vs rest, c.state.results = vs.map (fun v => some (.value v)) ++ rest ∧ (∀ v, some (.value v) ∉ rest) ∧
    vs ++ flight c.stack ++ c.state.source.pending.map E = (pushed c.trace).map E

/-- The events after which nothing is delivered. -/
def final : Event V → Bool
  | .ended => true
  | .error _ => true
  | .close => true
  | _ => false

/-- When nothing runs and a promise is pending, the buffer is empty, the stream has not ended, errored or closed, and if its
end was pushed, the next checkpoint ends it. -/
def NoneHangs (c : Config (Iterating V) (Frame V) (Event V)) : Prop :=
  c.stack = [] → none ∈ c.state.results → c.state.source.pending = [] ∧ (∀ e ∈ c.trace, final e = false) ∧
    (c.state.source.endPending = true → c.state.source.destroyed = true ∨ c.state.source.endScheduled = true)

/-! ## The invariant -/

def Unsettled (p : Iterating V) (i : Nat) : Prop := p.results[i]? = some none

/-- The `next`s that a frame still has to serve. -/
def Frame.names : Frame V → List Nat
  | .taking n _ _ => [n]
  | .readable rest => rest
  | _ => []

/-- The `next` whose own `read` the frame is. -/
def Frame.starting : Frame V → List Nat
  | .taking n false _ => [n]
  | _ => []

def Frame.walkers : Frame V → List Nat
  | .readable rest => rest
  | _ => []

/-- The `next`s that the running walk of `'end'` or `'error'` still has to settle. -/
def told : List (Frame V) → List Nat
  | .ended rest :: _ => rest
  | .error _ rest :: _ => rest
  | _ => []

/-- A frame that is never below another. -/
def Frame.top : Frame V → Bool
  | .taking _ _ (.reading _) => true
  | .ended _ => true
  | .error _ _ => true
  | _ => false

/-- A frame that a run of the producer can have. -/
def Frame.usual : Frame V → Bool
  | .taking _ _ .fetching => true
  | .taking _ _ (.reading _) => true
  | .taking _ _ _ => false
  | .returning => false
  | _ => true

def Over (r : Readable V) : Prop := r.destroyed = true ∨ r.endEmitted = true

/-- The stream of such a run. -/
structure Ready (encoding : Option BufferEncoding) (r : Readable V) : Prop where
  paused : r.paused = true
  encoding : r.encoding = encoding
  errored : r.errored ≠ none → r.destroyed = true
  ended : r.readableEnded = r.endEmitted
  pending : r.endScheduled = true ∨ r.endEmitted = true → r.endPending = true ∧ r.pending = []

/-- The frames. -/
structure Shape (stack : List (Frame V)) (trace : List (Event V)) : Prop where
  covered : ∀ f ∈ stack.tail, f.top = false
  usual : ∀ f ∈ stack, f.usual = true
  closing : .source .destroyError ∈ stack → ∃ e ∈ trace, final e = true

/-- The promises and the chunks. -/
structure Order (E : Chunk V → Chunk V) (p : Iterating V) (stack : List (Frame V)) (trace : List (Event V))
    (vs : List (Chunk V)) (rest : List (Option (IteratorResult V))) : Prop where
  results : p.results = vs.map (fun v => some (.value v)) ++ rest
  values : ∀ v, some (.value v) ∉ rest
  settled : (∃ r ∈ rest, r ≠ none) → Over p.source ∧ p.source.pending = []
  chunks : vs ++ flight stack ++ p.source.pending.map E = (pushed trace).map E
  flying : ∀ n b v fs, stack = .taking n b (.reading v) :: fs → n = vs.length ∧ Unsettled p n

/-- Who is where: a `next` is in its own `read`, or has listeners, or is being told. -/
structure Places (p : Iterating V) (stack : List (Frame V)) : Prop where
  readable : (p.readableListeners ++ stack.flatMap Frame.names).Nodup
  ended : (p.endListeners ++ stack.flatMap Frame.starting).Nodup
  error : (p.errorListeners ++ stack.flatMap Frame.starting).Nodup
  told : (told stack ++ stack.flatMap Frame.starting).Nodup
  named : ∀ n ∈ p.readableListeners ++ stack.flatMap Frame.names, n < p.results.length ∧ (Unsettled p n ∨ Over p.source)
  waiting : ∀ n, n ∈ p.endListeners ∨ n ∈ p.errorListeners ∨ n ∈ Iterating.told stack ∨ n ∈ stack.flatMap Frame.starting →
    Unsettled p n
  placed : ∀ n, Unsettled p n → n ∈ p.endListeners ∧ n ∈ p.errorListeners ∨ n ∈ Iterating.told stack ∨
    n ∈ stack.flatMap Frame.starting
  both : ∀ n ∈ p.endListeners, n ∈ p.errorListeners ∨ n ∈ Iterating.told stack

/-- A chunk was pushed, and the oldest pending `next` is about to take it. -/
def Fresh (p : Iterating V) (stack : List (Frame V)) : Prop :=
  ∃ n rest fs x, stack = .readable (n :: rest) :: fs ∧ p.oldest = some n ∧ p.source.pending = [x] ∧ p.source.endPending = false

structure Progress (p : Iterating V) (stack : List (Frame V)) (trace : List (Event V)) : Prop where
  stream : p.stream = false → Over p.source ∧ p.source.pending = []
  buffer : p.source.pending = [] ∨
    (∀ n, Unsettled p n → ∃ b v fs, stack = .taking n b (.reading v) :: fs) ∧ stack.flatMap Frame.walkers = [] ∨ Fresh p stack
  quiet : (∀ e ∈ trace, final e = false) ∨ Over p.source ∧ ∀ n ∈ p.endListeners, n ∈ told stack
  telling : told stack ≠ [] → Over p.source
  due : p.source.endPending = true → p.endListeners ≠ [] →
    Over p.source ∨ p.source.endScheduled = true ∨ Fetching stack ∨ stack.flatMap Frame.walkers ≠ []

structure Inv (E : Chunk V → Chunk V) (encoding : Option BufferEncoding) (p : Iterating V) (stack : List (Frame V))
    (trace : List (Event V)) : Prop where
  source : Ready encoding p.source
  shape : Shape stack trace
  order : ∃ vs rest, Order E p stack trace vs rest
  places : Places p stack
  progress : Progress p stack trace

variable {E : Chunk V → Chunk V} {encoding : Option BufferEncoding} {p : Iterating V} {stack : List (Frame V)}
  {trace : List (Event V)}

/-! ## Settling a promise -/

variable {f : Frame V} {vs : List (Chunk V)} {es : List (Event V)} {rest : List (Option (IteratorResult V))} {n : Nat}

theorem settle_of_unsettled (r : IteratorResult V) (h : Unsettled p n) :
    p.settle n r = { p with results := p.results.set n (some r) } := by
  unfold settle; rw [h]

theorem settle_of_settled (r : IteratorResult V) (h : ¬ Unsettled p n) : p.settle n r = p := by
  unfold settle
  split
  · next hn => exact absurd hn h
  · rfl

@[simp] theorem settle_source (n : Nat) (r : IteratorResult V) : (p.settle n r).source = p.source := by
  unfold settle
  split <;> rfl

@[simp] theorem settle_stream (n : Nat) (r : IteratorResult V) : (p.settle n r).stream = p.stream := by
  unfold settle
  split <;> rfl

@[simp] theorem settle_readableListeners (n : Nat) (r : IteratorResult V) :
    (p.settle n r).readableListeners = p.readableListeners := by
  unfold settle
  split <;> rfl

@[simp] theorem settle_endListeners (n : Nat) (r : IteratorResult V) : (p.settle n r).endListeners = p.endListeners := by
  unfold settle
  split <;> rfl

@[simp] theorem settle_errorListeners (n : Nat) (r : IteratorResult V) :
    (p.settle n r).errorListeners = p.errorListeners := by
  unfold settle
  split <;> rfl

@[simp] theorem settle_length (n : Nat) (r : IteratorResult V) : (p.settle n r).results.length = p.results.length := by
  unfold settle
  split
  · exact length_set
  · rfl

theorem unsettled_settle {i : Nat} {r : IteratorResult V} : Unsettled (p.settle n r) i ↔ Unsettled p i ∧ i ≠ n := by
  by_cases hn : Unsettled p n
  · rw [settle_of_unsettled r hn]
    unfold Unsettled
    by_cases hi : i = n
    · subst hi; rw [getElem?_set_self (List.getElem?_eq_some_iff.1 hn).1]; simp
    · rw [getElem?_set_ne (Ne.symm hi)]; simp [hi]
  · rw [settle_of_settled r hn]; refine ⟨fun h => ⟨h, fun hi => hn (hi ▸ h)⟩, And.left⟩

theorem Order.settle {r : IteratorResult V}
    (h : Order E p stack trace vs rest) (hn : Unsettled p n) :
    ∃ rest', (p.settle n r).results = vs.map (fun v => some (.value v)) ++ rest' ∧
      ∀ q ∈ rest', q ∈ rest ∨ q = some r := by
  have hlen : (vs.map (fun v => some (IteratorResult.value v))).length ≤ n := by
    by_contra hlt
    unfold Unsettled at hn
    rw [h.results, getElem?_append_left (by omega), getElem?_map] at hn
    cases hv : vs[n]? with
    | none | some v => simp [hv] at hn
  refine ⟨rest.set (n - (vs.map (fun v => some (IteratorResult.value v))).length) (some r), ?_, fun q hq => ?_⟩
  · rw [settle_of_unsettled r hn]; rw [h.results, set_append_right _ _ hlen]
  · exact mem_or_eq_of_mem_set hq

theorem Order.fulfil {v : Chunk V}
    (h : Order E p stack trace vs rest) (hn : Unsettled p vs.length) :
    ∃ rest', rest = none :: rest' ∧
      (p.settle vs.length (.value v)).results = (vs ++ [v]).map (fun v => some (.value v)) ++ rest' := by
  have hlen : (vs.map (fun v => some (IteratorResult.value v))).length = vs.length := length_map _
  cases rest with
  | nil =>
    unfold Unsettled at hn; rw [h.results, append_nil, getElem?_eq_none (by omega)] at hn; cases hn
  | cons r rest =>
    have hr : r = none := by
      unfold Unsettled at hn
      rw [h.results, getElem?_append_right (by omega), hlen, Nat.sub_self, getElem?_cons_zero] at hn
      exact Option.some.inj hn
    subst hr
    refine ⟨rest, rfl, ?_⟩
    rw [settle_of_unsettled _ hn]
    rw [h.results, set_append_right _ _ (by omega), hlen, Nat.sub_self, set_cons_zero, map_append, append_assoc]
    rfl

/-! ## The oldest pending promise -/

theorem oldest_eq_none : p.oldest = none ↔ ∀ n, ¬ Unsettled p n := by
  unfold oldest Unsettled
  rw [findIdx?_eq_none_iff]
  refine ⟨fun h n hn => ?_, fun h r hr => ?_⟩
  · have := h none (mem_of_getElem? hn); cases this
  · cases r with
    | some r => rfl
    | none => obtain ⟨n, hn⟩ := mem_iff_getElem?.1 hr; exact absurd hn (h n)

theorem unsettled_oldest (h : p.oldest = some n) : Unsettled p n := by
  obtain ⟨hn, hp, -⟩ := findIdx?_eq_some_iff_getElem.1 h
  unfold Unsettled; rw [getElem?_eq_getElem hn, isNone_iff_eq_none.1 hp]

open Iterating

/-- When no promise is settled otherwise, the oldest pending one is the one behind those with a chunk. -/
theorem Order.oldest
    (h : Order E p stack trace vs rest) (hrest : ∀ r ∈ rest, r = none) (hn : p.oldest = some n) : n = vs.length := by
  have hmap : (vs.map (fun v => some (IteratorResult.value v))).findIdx? Option.isNone = none := by
    rw [findIdx?_eq_none_iff]
    intro r hr
    obtain ⟨v, -, rfl⟩ := List.mem_map.1 hr; rfl
  unfold Iterating.oldest at hn
  rw [h.results, findIdx?_append, hmap] at hn
  cases rest with
  | nil => cases hn
  | cons r rest => rw [hrest r mem_cons_self, findIdx?_cons] at hn; simpa using hn.symm

/-! ## Stacks -/

theorem flight_of_bare (h : ∀ f ∈ stack.head?, f.top = false) : flight stack = [] := by
  cases stack with
  | nil => rfl
  | cons f fs =>
    have hf := h f rfl
    unfold flight
    split
    · next heq =>
      cases heq; cases hf
    · rfl

theorem told_of_bare (h : ∀ f ∈ stack.head?, f.top = false) : told stack = [] := by
  cases stack with
  | nil => rfl
  | cons f fs =>
    have hf := h f rfl
    unfold told
    split
    · next heq =>
      cases heq; cases hf
    · next heq =>
      cases heq; cases hf
    · rfl

/-- No chunk is about to be taken, and nothing is about to be told. -/
structure Calm (p : Iterating V) (stack : List (Frame V)) : Prop where
  bare : ∀ f ∈ stack.head?, f.top = false
  buffer : p.source.pending = [] ∨ (∀ n, ¬ Unsettled p n) ∧ stack.flatMap Frame.walkers = []

theorem Calm.not_reading (h : Calm p stack) {b : Bool} {v : Chunk V} {fs : List (Frame V)} :
    stack ≠ .taking n b (.reading v) :: fs := by
  intro hs
  subst hs
  have := h.bare _ rfl; cases this

theorem Calm.pending (h : Calm p stack) (hn : Unsettled p n) : p.source.pending = [] :=
  h.buffer.resolve_right (fun hb => hb.1 n hn)

open Iterating.Frame

theorem Inv.calm (h : Inv E encoding p stack trace) (hhook : ∀ f ∈ stack.head?, f.hook = true) : Calm p stack := by
  have hbare : ∀ f ∈ stack.head?, f.top = false := by
    intro f hf
    have hh := hhook f hf
    unfold hook at hh
    split at hh
    · rfl
    · rfl
    · cases hh
  refine ⟨hbare, ?_⟩
  obtain hb | ⟨hb, hw⟩ | ⟨n, rest, fs, x, rfl, -⟩ := h.progress.buffer
  · exact .inl hb
  · refine .inr ⟨fun n hn => ?_, hw⟩
    obtain ⟨b, v, fs, rfl⟩ := hb n hn
    have := hbare _ rfl; cases this
  · have := hhook _ rfl; cases this

/-! ## What the stream does by itself -/

/-- An event that is no chunk and after which things go on. -/
def neutral (e : Event V) : Bool := !final e && (pushed [e]).isEmpty

theorem pushed_append (es es' : List (Event V)) : pushed (es ++ es') = pushed es ++ pushed es' := filterMap_append

theorem pushed_neutral (h : ∀ e ∈ es, neutral e = true) : pushed es = [] := by
  induction es with
  | nil => rfl
  | cons e es ih =>
    have he := h e mem_cons_self
    unfold neutral at he
    rw [Bool.and_eq_true] at he
    have hes := ih (fun e' he' => h e' (mem_cons_of_mem _ he'))
    rw [show e :: es = [e] ++ es from rfl, pushed_append, hes, List.isEmpty_iff.1 he.2]; rfl

theorem final_neutral (h : ∀ e ∈ es, neutral e = true) : ∀ e ∈ es, final e = false := by
  intro e he
  have hn := h e he
  unfold neutral at hn; rw [Bool.and_eq_true] at hn; simpa using hn.1

theorem quiet_append (h : ∀ e ∈ trace, final e = false) (hes : ∀ e ∈ es, final e = false) :
    ∀ e ∈ trace ++ es, final e = false := by
  intro e he
  obtain he | he := mem_append.1 he
  · exact h e he
  · exact hes e he

theorem Inv.neutral (h : Inv E encoding p stack trace) (hes : ∀ e ∈ es, neutral e = true) :
    Inv E encoding p stack (trace ++ es) := by
  obtain ⟨vs, rest, ho⟩ := h.order
  refine ⟨h.source, ⟨h.shape.covered, h.shape.usual, fun hd => ?_⟩, ⟨vs, rest, ho.results, ho.values, ho.settled, ?_, ho.flying⟩,
    h.places, ⟨h.progress.stream, h.progress.buffer, ?_, h.progress.telling, h.progress.due⟩⟩
  · obtain ⟨e, he, hover⟩ := h.shape.closing hd; exact ⟨e, mem_append_left _ he, hover⟩
  · rw [ho.chunks, pushed_append, pushed_neutral hes, append_nil]
  · exact h.progress.quiet.imp_left (fun hq => quiet_append hq (final_neutral hes))

theorem maybeEmitEnd_cases (r : Readable V) :
    r.maybeEmitEnd = r ∨ r.endPending = true ∧ r.pending = [] ∧ r.maybeEmitEnd = { r with endScheduled := true } := by
  unfold maybeEmitEnd
  split
  · exact .inl rfl
  · next hn =>
    simp only [Bool.or_eq_true, Bool.not_eq_true', not_or, Bool.not_eq_false, List.isEmpty_iff] at hn
    exact .inr ⟨hn.1.1.1, hn.1.1.2, rfl⟩

theorem scheduled_maybeEmitEnd {r : Readable V} (he : r.endPending = true) (hp : r.pending = []) :
    r.maybeEmitEnd.endEmitted = true ∨ r.maybeEmitEnd.endScheduled = true := by
  unfold maybeEmitEnd
  split
  · next hn =>
    simp only [he, hp, Bool.not_true, isEmpty_nil, Bool.false_or, Bool.or_eq_true] at hn; exact hn
  · exact .inr rfl

theorem Inv.maybeEmitEnd (h : Inv E encoding p stack trace) :
    Inv E encoding { p with source := p.source.maybeEmitEnd } stack trace := by
  obtain he | ⟨hend, hp, he⟩ := maybeEmitEnd_cases p.source
  · rw [he]; exact h
  · obtain ⟨vs, rest, ho⟩ := h.order
    rw [he]
    refine ⟨⟨h.source.paused, h.source.encoding, h.source.errored, h.source.ended, fun _ => ⟨hend, hp⟩⟩, h.shape,
      ⟨vs, rest, ho.results, ho.values, ho.settled, ho.chunks, ho.flying⟩,
      ⟨h.places.readable, h.places.ended, h.places.error, h.places.told, h.places.named, h.places.waiting, h.places.placed,
        h.places.both⟩,
      ⟨h.progress.stream, .inl hp, h.progress.quiet, h.progress.telling, fun _ _ => .inr (.inl rfl)⟩⟩

theorem flatMap_source {α : Type} {f : Frame V → List α} (hf : ∀ g, f (.source g) = []) (gs : List (Stream.Frame V))
    (stack : List (Frame V)) : (gs.map Frame.source ++ stack).flatMap f = stack.flatMap f := by
  rw [flatMap_append]
  refine (congrArg (· ++ _) (flatMap_eq_nil_iff.2 (fun g hg => ?_))).trans (nil_append _)
  obtain ⟨g, -, rfl⟩ := List.mem_map.1 hg; exact hf g

theorem Frame.starting_of_names (h : f.names = []) : f.starting = [] ∧ f.walkers = [] := by
  cases f with
  | taking n b g => cases h
  | readable rest => exact ⟨rfl, h⟩
  | _ => exact ⟨rfl, rfl⟩

theorem Inv.pop (hf : f.names = []) (htf : told (f :: stack) = []) (h : Inv E encoding p (f :: stack) trace) :
    Inv E encoding p stack trace ∧ Calm p stack := by
  obtain ⟨hfs, hfw⟩ := starting_of_names hf
  have hbare : ∀ f ∈ stack.head?, f.top = false := fun g hg => h.shape.covered g (mem_of_mem_head? hg)
  have hnot : ∀ {n : Nat} {b : Bool} {v : Stream.Frame V} {fs : List (Frame V)}, f :: stack ≠ .taking n b v :: fs := by
    intro n b v fs hs
    cases hs; cases hf
  have hnames : (f :: stack).flatMap names = stack.flatMap names := by rw [flatMap_cons, hf, nil_append]
  have hstart : (f :: stack).flatMap starting = stack.flatMap starting := by rw [flatMap_cons, hfs, nil_append]
  have hwalk : (f :: stack).flatMap walkers = stack.flatMap walkers := by rw [flatMap_cons, hfw, nil_append]
  have hcalm : Calm p stack := by
    refine ⟨hbare, ?_⟩
    obtain hb | ⟨hb, hw⟩ | ⟨n, rest, fs, x, hs, -⟩ := h.progress.buffer
    · exact .inl hb
    · refine .inr ⟨fun n hn => ?_, hwalk ▸ hw⟩
      obtain ⟨b, v, fs, hs⟩ := hb n hn; exact hnot hs
    · cases hs; cases hf
  obtain ⟨vs, rest, ho⟩ := h.order
  have ht := told_of_bare hbare
  have hplaces := h.places
  refine ⟨⟨h.source, ⟨fun g hg => h.shape.covered g (mem_of_mem_tail hg), fun g hg => h.shape.usual g (mem_cons_of_mem _ hg),
    fun hd => h.shape.closing (mem_cons_of_mem _ hd)⟩, ⟨vs, rest, ho.results, ho.values, ho.settled, ?_, ?_⟩, ?_, ?_⟩, hcalm⟩
  · have hfl : flight (f :: stack) = [] := by
      unfold flight
      split
      · next heq => exact absurd heq hnot
      · rfl
    rw [flight_of_bare hbare, ← hfl]; exact ho.chunks
  · exact fun n b v fs hs => absurd hs hcalm.not_reading
  · refine ⟨hnames ▸ hplaces.readable, hstart ▸ hplaces.ended, hstart ▸ hplaces.error, ?_, hnames ▸ hplaces.named, ?_, ?_, ?_⟩
    · rw [ht, ← htf, ← hstart]; exact hplaces.told
    · rw [ht, ← htf, ← hstart]; exact hplaces.waiting
    · rw [ht, ← htf, ← hstart]; exact hplaces.placed
    · rw [ht, ← htf]; exact hplaces.both
  · refine ⟨h.progress.stream, hcalm.buffer.imp_right (fun hb => .inl ⟨fun n hn => absurd hn (hb.1 n), hb.2⟩), ?_, ?_, fun he hl => ?_⟩
    · rw [ht, ← htf]; exact h.progress.quiet
    · exact fun hne => absurd ht hne
    · obtain ho | hs | ⟨n, b, hg⟩ | hw := h.progress.due he hl
      · exact .inl ho
      · exact .inr (.inl hs)
      · refine .inr (.inr (.inl ⟨n, b, ?_⟩))
        obtain rfl | hg := mem_cons.1 hg
        · cases hf
        · exact hg
      · exact .inr (.inr (.inr (hwalk ▸ hw)))

theorem Inv.step {r : Readable V} {fs : List (Stream.Frame V)} (h : Inv E encoding p stack trace)
    (hc : Calm p stack) (hr : Ready encoding r) (hp : r.pending = p.source.pending) (hover : Over p.source → Over r)
    (hend : r.endPending = p.source.endPending) (hs : p.source.endScheduled = true → Over r ∨ r.endScheduled = true)
    (hfs : .destroyError ∉ fs) (hes : ∀ e ∈ es, Iterating.neutral e = true) :
    Inv E encoding { p with source := r } (fs.map .source ++ stack) (trace ++ es) := by
  obtain ⟨vs, rest, ho⟩ := h.order
  have hbare : ∀ f ∈ (fs.map Frame.source ++ stack).head?, f.top = false := by
    intro f hf
    cases fs with
    | nil => exact hc.bare f hf
    | cons g gs => obtain rfl := Option.some.inj hf; rfl
  have ht := told_of_bare hbare
  have hnames : (fs.map Frame.source ++ stack).flatMap Frame.names = stack.flatMap Frame.names := flatMap_source (fun _ => rfl) fs stack
  have hstart : (fs.map Frame.source ++ stack).flatMap Frame.starting = stack.flatMap Frame.starting :=
    flatMap_source (fun _ => rfl) fs stack
  have hwalk : (fs.map Frame.source ++ stack).flatMap Frame.walkers = stack.flatMap Frame.walkers :=
    flatMap_source (fun _ => rfl) fs stack
  have ht₀ := told_of_bare hc.bare
  refine Inv.neutral ⟨hr, ⟨fun f hf => ?_, fun f hf => ?_, fun hd => ?_⟩,
    ⟨vs, rest, ho.results, ho.values, fun hex => (ho.settled hex).imp hover (fun hn => hp.trans hn), ?_, ?_⟩, ?_, ?_⟩ hes
  · have hmem := mem_of_mem_tail hf
    cases fs with
    | nil => exact h.shape.covered f hf
    | cons g gs =>
      obtain hf | hf := mem_append.1 (show f ∈ gs.map Frame.source ++ stack from hf)
      · obtain ⟨g, -, rfl⟩ := List.mem_map.1 hf; rfl
      · cases stack with
        | nil => cases hf
        | cons k ks =>
          obtain rfl | hf := mem_cons.1 hf
          · exact hc.bare _ rfl
          · exact h.shape.covered f hf
  · obtain hf | hf := mem_append.1 hf
    · obtain ⟨g, -, rfl⟩ := List.mem_map.1 hf; rfl
    · exact h.shape.usual f hf
  · obtain hd | hd := mem_append.1 hd
    · obtain ⟨g, hg, heq⟩ := List.mem_map.1 hd
      cases heq; exact absurd hg hfs
    · exact h.shape.closing hd
  · have hchunks := ho.chunks; rw [flight_of_bare hc.bare] at hchunks; rw [flight_of_bare hbare]; rw [hp, hchunks]
  · intro n b v gs hgs
    rw [hgs] at hbare
    have := hbare _ rfl; cases this
  · have hplaces := h.places
    refine ⟨?_, ?_, ?_, ?_, fun n hn => ?_, ?_, ?_, ?_⟩
    · rw [hnames]; exact hplaces.readable
    · rw [hstart]; exact hplaces.ended
    · rw [hstart]; exact hplaces.error
    · rw [ht, hstart, ← ht₀]; exact hplaces.told
    · rw [hnames] at hn; exact (hplaces.named n hn).imp_right (Or.imp_right hover)
    · rw [ht, hstart, ← ht₀]; exact hplaces.waiting
    · rw [ht, hstart, ← ht₀]; exact hplaces.placed
    · rw [ht, ← ht₀]; exact hplaces.both
  · refine ⟨fun hst => (h.progress.stream hst).imp hover (fun hn => hp.trans hn), ?_, ?_, fun hne => absurd ht hne, fun he hl => ?_⟩
    · rw [hp, hwalk]; exact hc.buffer.imp_right (fun hb => .inl ⟨fun n hn => absurd hn (hb.1 n), hb.2⟩)
    · rw [ht, ← ht₀]; exact h.progress.quiet.imp_right (And.imp_left hover)
    · rw [hwalk]
      obtain ho | hsc | ⟨n, b, hf⟩ | hw := h.progress.due (hend.symm.trans he) hl
      · exact .inl (hover ho)
      · exact (hs hsc).imp_right .inl
      · exact .inr (.inr (.inl ⟨n, b, mem_append_right _ hf⟩))
      · exact .inr (.inr (.inr hw))

/-! ## Emissions -/

theorem pushed_final {e : Event V} (he : final e = true) : pushed (trace ++ [e]) = pushed trace := by
  rw [pushed_append]
  cases e with
  | pushed chunk => cases he
  | _ => exact append_nil _

theorem Inv.emit {r : Readable V} {f : Stream.Frame V} (h : Inv E encoding p stack trace)
    (hc : Calm p stack) (hr : Ready encoding r) (hover : Over p.source → Over r ∧ r.pending = p.source.pending)
    (hf : f ≠ .destroyError) (hes : ∀ e ∈ es, final e = false)
    (hchunks : r.pending.map E = p.source.pending.map E ++ (pushed es).map E)
    (hbuffer : r.pending = [] ∨ (∀ n, ¬ Unsettled p n) ∧ p.readableListeners = [] ∧ stack.flatMap Frame.walkers = [] ∨
      ∃ n rest x, p.readableListeners = n :: rest ∧ p.oldest = some n ∧ r.pending = [x] ∧ r.endPending = false)
    (hdue : r.endPending = true → p.endListeners ≠ [] →
      Over r ∨ r.endScheduled = true ∨ Fetching stack ∨ p.readableListeners ≠ [] ∨ stack.flatMap Frame.walkers ≠ []) :
    Inv E encoding { p with source := r, readableListeners := [] }
      (.readable p.readableListeners :: .source f :: stack) (trace ++ es) := by
  obtain ⟨vs, rest, ho⟩ := h.order
  have hplaces := h.places
  have ht₀ := told_of_bare hc.bare
  refine ⟨hr, ⟨fun g hg => ?_, fun g hg => ?_, fun hd => ?_⟩, ⟨vs, rest, ho.results, ho.values, fun hex => ?_, ?_, ?_⟩, ?_, ?_⟩
  · obtain rfl | hg := mem_cons.1 hg
    · rfl
    · cases stack with
      | nil => cases hg
      | cons k ks =>
        obtain rfl | hg := mem_cons.1 hg
        · exact hc.bare _ rfl
        · exact h.shape.covered g hg
  · obtain rfl | hg := mem_cons.1 hg
    · rfl
    · obtain rfl | hg := mem_cons.1 hg
      · rfl
      · exact h.shape.usual g hg
  · obtain hd | hd := mem_cons.1 hd
    · cases hd
    · obtain hd | hd := mem_cons.1 hd
      · cases hd; exact absurd rfl hf
      · obtain ⟨e, he, hov⟩ := h.shape.closing hd; exact ⟨e, mem_append_left _ he, hov⟩
  · obtain ⟨hov, hp⟩ := ho.settled hex; exact ⟨(hover hov).1, (hover hov).2.trans hp⟩
  · have horder := ho.chunks
    rw [flight_of_bare hc.bare, append_nil] at horder
    show vs ++ [] ++ r.pending.map E = _
    rw [append_nil, hchunks, ← append_assoc, horder, pushed_append, map_append]
  · exact nofun
  · refine ⟨hplaces.readable, hplaces.ended, hplaces.error, ?_, fun n hn => ?_, ?_, ?_, ?_⟩
    · have ht := hplaces.told; rw [ht₀] at ht; exact ht
    · exact (hplaces.named n hn).imp_right (Or.imp_right (fun hov => (hover hov).1))
    · have hw := hplaces.waiting; rw [ht₀] at hw; exact hw
    · have hpl := hplaces.placed; rw [ht₀] at hpl; exact hpl
    · have hb := hplaces.both; rw [ht₀] at hb; exact hb
  · refine ⟨fun hst => ?_, ?_, ?_, fun hne => absurd rfl hne, fun he hl => ?_⟩
    · obtain ⟨hov, hp⟩ := h.progress.stream hst; exact ⟨(hover hov).1, (hover hov).2.trans hp⟩
    · obtain hb | ⟨hb, hrl, hw⟩ | ⟨n, rest, x, hrl, hold, hp, he⟩ := hbuffer
      · exact .inl hb
      · refine .inr (.inl ⟨fun n hn => absurd hn (hb n), ?_⟩)
        show p.readableListeners ++ stack.flatMap walkers = []; rw [hrl, hw]; rfl
      · exact .inr (.inr ⟨n, rest, _, x, by rw [hrl], hold, hp, he⟩)
    · have hq := h.progress.quiet
      rw [ht₀] at hq
      exact hq.imp (fun hq => quiet_append hq hes) (And.imp_left (fun hov => (hover hov).1))
    · obtain hov | hs | ⟨n, b, hf⟩ | hrl | hw := hdue he hl
      · exact .inl hov
      · exact .inr (.inl hs)
      · exact .inr (.inr (.inl ⟨n, b, mem_cons_of_mem _ (mem_cons_of_mem _ hf)⟩))
      · exact .inr (.inr (.inr (fun hn => hrl (append_eq_nil_iff.1 hn).1)))
      · exact .inr (.inr (.inr (fun hn => hw (append_eq_nil_iff.1 hn).2)))

theorem Inv.emitEnd {r : Readable V} {side : Bool} (h : Inv E encoding p [] trace) (hr : Ready encoding r) (hend : r.endEmitted = true)
    (hp : r.pending = p.source.pending) (hnil : p.source.pending = []) :
    Inv E encoding { p with source := r, endListeners := [] } [.ended p.endListeners, .source (.ended side)] (trace ++ [.ended]) := by
  obtain ⟨vs, rest, ho⟩ := h.order
  have hplaces := h.places
  refine ⟨hr, ⟨fun g hg => ?_, fun g hg => ?_, fun hd => ?_⟩,
    ⟨vs, rest, ho.results, ho.values, fun _ => ⟨.inr hend, hp.trans hnil⟩, ?_, nofun⟩, ?_, ?_⟩
  · obtain rfl := mem_singleton.1 hg; rfl
  · obtain rfl | hg := mem_cons.1 hg
    · rfl
    · obtain rfl := mem_singleton.1 hg; rfl
  · simp at hd
  · rw [hp, pushed_final rfl]; exact ho.chunks
  · refine ⟨hplaces.readable, nodup_nil, hplaces.error, hplaces.ended, fun n hn => ?_, fun n hn => ?_, fun n hn => ?_, nofun⟩
    · exact (hplaces.named n hn).imp_right (fun _ => .inr (.inr hend))
    · obtain hn | hn | hn | hn := hn
      · cases hn
      · exact hplaces.waiting n (.inr (.inl hn))
      · exact hplaces.waiting n (.inl hn)
      · cases hn
    · obtain ⟨hn, -⟩ | hn | hn := hplaces.placed n hn
      · exact .inr (.inl hn)
      · cases hn
      · cases hn
  · exact ⟨fun _ => ⟨.inr hend, hp.trans hnil⟩, .inl (hp.trans hnil), .inr ⟨.inr hend, nofun⟩, fun _ => .inr hend,
      fun _ hl => absurd rfl hl⟩

theorem Inv.emitError {r : Readable V} {error : StreamError} (h : Inv E encoding p stack trace) (hc : Calm p stack)
    (hr : Ready encoding r) (hd : r.destroyed = true) (hp : r.pending = p.source.pending) :
    Inv E encoding { p with source := r, errorListeners := [] }
      (.error error p.errorListeners :: .source .destroyError :: stack) (trace ++ [.error error]) := by
  obtain ⟨vs, rest, ho⟩ := h.order
  have hplaces := h.places
  have ht₀ := told_of_bare hc.bare
  have hover : Over r := .inl hd
  refine ⟨hr, ⟨fun g hg => ?_, fun g hg => ?_, fun _ => ⟨.error error, mem_append_right _ mem_cons_self, rfl⟩⟩,
    ⟨vs, rest, ho.results, ho.values, fun hex => ⟨hover, hp.trans (ho.settled hex).2⟩, ?_, nofun⟩, ?_, ?_⟩
  · obtain rfl | hg := mem_cons.1 hg
    · rfl
    · cases stack with
      | nil => cases hg
      | cons k ks =>
        obtain rfl | hg := mem_cons.1 hg
        · exact hc.bare _ rfl
        · exact h.shape.covered g hg
  · obtain rfl | hg := mem_cons.1 hg
    · rfl
    · obtain rfl | hg := mem_cons.1 hg
      · rfl
      · exact h.shape.usual g hg
  · have hchunks := ho.chunks; rw [flight_of_bare hc.bare] at hchunks; rw [hp, pushed_final rfl]; exact hchunks
  · have hboth := hplaces.both
    rw [ht₀] at hboth
    refine ⟨hplaces.readable, hplaces.ended, ?_, hplaces.error, fun n hn => ?_, fun n hn => ?_, fun n hn => ?_, fun n hn => ?_⟩
    · exact (nodup_append.1 hplaces.error).2.1
    · exact (hplaces.named n hn).imp_right (fun _ => .inr hover)
    · obtain hn | hn | hn | hn := hn
      · exact hplaces.waiting n (.inl hn)
      · cases hn
      · exact hplaces.waiting n (.inr (.inl hn))
      · exact hplaces.waiting n (.inr (.inr (.inr hn)))
    · have hpl := hplaces.placed n hn
      rw [ht₀] at hpl
      obtain ⟨-, hn⟩ | hn | hn := hpl
      · exact .inr (.inl hn)
      · cases hn
      · exact .inr (.inr hn)
    · exact .inr ((hboth n hn).resolve_right not_mem_nil)
  · have hboth := hplaces.both
    rw [ht₀] at hboth
    refine ⟨fun hst => ⟨hover, hp.trans (h.progress.stream hst).2⟩, ?_, .inr ⟨hover, fun n hn => ?_⟩, fun _ => hover, fun _ _ => .inl hover⟩
    · exact hc.buffer.imp hp.trans (fun hb => .inl ⟨fun n hn => absurd hn (hb.1 n), hb.2⟩)
    · exact (hboth n hn).resolve_right not_mem_nil

theorem Inv.emitClose (h : Inv E encoding p stack trace) (hc : Calm p stack) (hover : Over p.source) (hl : p.endListeners = []) :
    Inv E encoding { p with source := { p.source with closed := true } } (.source .closing :: stack) (trace ++ [.close]) := by
  have hr : Ready encoding { p.source with closed := true } :=
    ⟨h.source.paused, h.source.encoding, h.source.errored, h.source.ended, h.source.pending⟩
  have hfs : Stream.Frame.destroyError ∉ ([.closing] : List (Stream.Frame V)) := by simp
  have hes : ∀ e ∈ ([] : List (Event V)), Iterating.neutral e = true := forall_mem_nil _
  have hstep := h.step hc hr rfl id rfl .inr hfs hes
  rw [append_nil] at hstep
  obtain ⟨vs, rest, ho⟩ := hstep.order
  refine ⟨hstep.source, ⟨hstep.shape.covered, hstep.shape.usual, fun hd => ?_⟩,
    ⟨vs, rest, ho.results, ho.values, ho.settled, ?_, ho.flying⟩, hstep.places,
    ⟨hstep.progress.stream, hstep.progress.buffer, .inr ⟨hover, fun n hn => ?_⟩, hstep.progress.telling, hstep.progress.due⟩⟩
  · obtain ⟨e, he, hov⟩ := hstep.shape.closing hd; exact ⟨e, mem_append_left _ he, hov⟩
  · rw [pushed_final rfl]; exact ho.chunks
  · rw [show p.endListeners = [] from hl] at hn; cases hn

/-! ## `next` -/

theorem covered_cons (hb : ∀ g ∈ stack.head?, g.top = false) (hs : ∀ g ∈ stack.tail, g.top = false) :
    ∀ g ∈ (f :: stack).tail, g.top = false := by
  intro g hg
  cases stack with
  | nil => cases hg
  | cons k ks =>
    obtain rfl | hg := mem_cons.1 hg
    · exact hb _ rfl
    · exact hs g hg

theorem getElem?_snoc {r : Option (IteratorResult V)} {rs : List (Option (IteratorResult V))} :
    (rs ++ [r])[n]? = some none ↔ rs[n]? = some none ∨ n = rs.length ∧ r = none := by
  refine ⟨fun hn => ?_, fun hn => ?_⟩
  · obtain hlt | rfl | hgt := Nat.lt_trichotomy n rs.length
    · rw [getElem?_append_left hlt] at hn; exact .inl hn
    · rw [getElem?_concat_length] at hn; exact .inr ⟨rfl, Option.some.inj hn⟩
    · rw [getElem?_eq_none (by simp; omega)] at hn; cases hn
  · obtain hn | ⟨rfl, rfl⟩ := hn
    · rw [getElem?_append_left (List.getElem?_eq_some_iff.1 hn).1]; exact hn
    · exact getElem?_concat_length

theorem Places.start (h : Places p stack) (hb : ∀ f ∈ stack.head?, f.top = false) {r : Readable V}
    (hover : Over p.source → Over r) (f : Stream.Frame V) :
    Places { p with source := r, results := p.results ++ [none] } (.taking p.results.length false f :: stack) := by
  have ht₀ := told_of_bare hb
  have hlt : ∀ n ∈ p.readableListeners ++ stack.flatMap names, n ≠ p.results.length := fun n hn =>
    Nat.ne_of_lt (h.named n hn).1
  have hwait : ∀ n, n ∈ p.endListeners ∨ n ∈ p.errorListeners ∨ n ∈ Iterating.told stack ∨
      n ∈ stack.flatMap starting → n ≠ p.results.length := fun n hn => Nat.ne_of_lt (List.getElem?_eq_some_iff.1 (h.waiting n hn)).1
  have hadd : ∀ (ns : List Nat), (∀ n ∈ ns, n ≠ p.results.length) → (ns ++ stack.flatMap starting).Nodup →
      (ns ++ (p.results.length :: stack.flatMap starting)).Nodup := by
    intro ns hns hnd
    rw [nodup_middle, nodup_cons]
    refine ⟨fun hmem => ?_, hnd⟩
    obtain hmem | hmem := mem_append.1 hmem
    · exact hns _ hmem rfl
    · exact hwait _ (.inr (.inr (.inr hmem))) rfl
  refine ⟨?_, hadd _ (fun n hn => hwait n (.inl hn)) h.ended, hadd _ (fun n hn => hwait n (.inr (.inl hn))) h.error, ?_,
    fun n hn => ?_, fun n hn => ?_, fun n hn => ?_, ?_⟩
  · show (p.readableListeners ++ (p.results.length :: stack.flatMap names)).Nodup
    rw [nodup_middle, nodup_cons]; exact ⟨fun hmem => hlt _ hmem rfl, h.readable⟩
  · have htold := h.told; rw [ht₀] at htold; exact hadd [] nofun htold
  · have hn' : n = p.results.length ∨ n ∈ p.readableListeners ++ stack.flatMap names := by
      obtain hn | hn := mem_append.1 hn
      · exact .inr (mem_append_left _ hn)
      · obtain rfl | hn := mem_cons.1 hn
        · exact .inl rfl
        · exact .inr (mem_append_right _ hn)
    have hlen : (p.results ++ [none]).length = p.results.length + 1 := length_append
    obtain rfl | hn := hn'
    · exact ⟨by show _ < (p.results ++ [none]).length; omega, .inl (getElem?_snoc.2 (.inr ⟨rfl, rfl⟩))⟩
    · obtain ⟨hb, hu⟩ := h.named n hn
      exact ⟨by show n < (p.results ++ [none]).length; omega, hu.imp (fun hu => getElem?_snoc.2 (.inl hu)) hover⟩
  · obtain hn | hn | hn | hn := hn
    · exact getElem?_snoc.2 (.inl (h.waiting n (.inl hn)))
    · exact getElem?_snoc.2 (.inl (h.waiting n (.inr (.inl hn))))
    · cases hn
    · obtain rfl | hn := mem_cons.1 hn
      · exact getElem?_snoc.2 (.inr ⟨rfl, rfl⟩)
      · exact getElem?_snoc.2 (.inl (h.waiting n (.inr (.inr (.inr hn)))))
  · obtain hu | ⟨rfl, -⟩ := getElem?_snoc.1 hn
    · have hpl := h.placed n hu; rw [ht₀] at hpl; exact hpl.imp_right (Or.imp_right (mem_cons_of_mem _))
    · exact .inr (.inr mem_cons_self)
  · have hboth := h.both; rw [ht₀] at hboth; exact hboth

theorem Order.add {r : Option (IteratorResult V)}
    (h : Order E p stack trace vs rest) (hv : ∀ v, r ≠ some (.value v)) :
    p.results ++ [r] = vs.map (fun v => some (.value v)) ++ (rest ++ [r]) ∧ ∀ v, some (.value v) ∉ rest ++ [r] := by
  refine ⟨by rw [h.results, append_assoc], fun v hmem => ?_⟩
  obtain hmem | hmem := mem_append.1 hmem
  · exact h.values v hmem
  · exact hv v (mem_singleton.1 hmem).symm

theorem Shape.cons {f : Frame V} (h : Shape stack trace) (hb : ∀ g ∈ stack.head?, g.top = false) (hf : f.usual = true)
    (hd : f ≠ .source .destroyError) : Shape (f :: stack) trace := by
  refine ⟨covered_cons hb h.covered, fun g hg => ?_, fun hmem => ?_⟩
  · obtain rfl | hg := mem_cons.1 hg
    · exact hf
    · exact h.usual g hg
  · obtain hmem | hmem := mem_cons.1 hmem
    · exact absurd hmem.symm hd
    · exact h.closing hmem

theorem Inv.start_empty (h : Inv E encoding p stack trace) (hc : Calm p stack) (hst : p.stream = true)
    (hp : p.source.pending = []) :
    Inv E encoding { p with results := p.results ++ [none] } (.taking p.results.length false .fetching :: stack) trace := by
  obtain ⟨vs, rest, ho⟩ := h.order
  obtain ⟨hres, hval⟩ := ho.add (r := none) nofun
  have ht₀ := told_of_bare hc.bare
  refine ⟨h.source, h.shape.cons hc.bare rfl nofun, ⟨vs, rest ++ [none], hres, hval, fun ⟨r, hr, hne⟩ => ?_, ?_, nofun⟩,
    h.places.start hc.bare id .fetching, ⟨fun hs => ?_, .inl hp, ?_, fun hne => absurd rfl hne, fun _ _ => ?_⟩⟩
  · obtain hr | hr := mem_append.1 hr
    · exact ho.settled ⟨r, hr, hne⟩
    · exact absurd (mem_singleton.1 hr) hne
  · have hchunks := ho.chunks; rw [flight_of_bare hc.bare] at hchunks; exact hchunks
  · rw [show p.stream = false from hs] at hst; cases hst
  · have hq := h.progress.quiet; rw [ht₀] at hq; exact hq
  · exact .inr (.inr (.inl ⟨_, _, mem_cons_self⟩))

theorem Inv.start_chunk {r : Readable V} {x : Chunk V} {xs : List (Chunk V)} (h : Inv E encoding p stack trace) (hc : Calm p stack)
    (hst : p.stream = true) (hp : p.source.pending = x :: xs) (hr : Ready encoding r) (hrp : r.pending = xs)
    (hover : Over p.source → Over r) :
    Inv E encoding { p with source := r, results := p.results ++ [none] }
      (.taking p.results.length false (.reading (E x)) :: stack) trace := by
  obtain ⟨vs, rest, ho⟩ := h.order
  have hne : p.source.pending ≠ [] := by simp [hp]
  have hnone : ∀ n, ¬ Unsettled p n := (hc.buffer.resolve_left hne).1
  have hrest : rest = [] := by
    cases rest with
    | nil => rfl
    | cons q rest =>
      cases q with
      | some q => exact absurd (ho.settled ⟨some q, mem_cons_self, nofun⟩).2 hne
      | none =>
        refine absurd ?_ (hnone vs.length)
        unfold Unsettled; rw [ho.results, getElem?_append_right (by simp)]; simp
  subst hrest
  obtain ⟨hres, hval⟩ := ho.add (r := none) nofun
  have ht₀ := told_of_bare hc.bare
  have hlen : p.results.length = vs.length := by rw [ho.results]; simp
  refine ⟨hr, h.shape.cons hc.bare rfl nofun, ⟨vs, [none], hres, hval, fun ⟨q, hq, hne⟩ => ?_, ?_, ?_⟩,
    h.places.start hc.bare hover (.reading (E x)), ⟨fun hs => ?_, .inr (.inl ⟨fun n hn => ?_, ?_⟩), ?_, fun hne => absurd rfl hne, fun he hl => ?_⟩⟩
  · exact absurd (mem_singleton.1 hq) hne
  · have hchunks := ho.chunks
    rw [flight_of_bare hc.bare, hp, append_nil, map_cons] at hchunks
    rw [hrp, ← hchunks, append_assoc]; rfl
  · intro n b v fs heq
    cases heq; exact ⟨hlen, getElem?_snoc.2 (.inr ⟨rfl, rfl⟩)⟩
  · rw [show p.stream = false from hs] at hst; cases hst
  · obtain hn | ⟨rfl, -⟩ := getElem?_snoc.1 hn
    · exact absurd hn (hnone n)
    · exact ⟨_, _, _, rfl⟩
  · exact (hc.buffer.resolve_left hne).2
  · have hq := h.progress.quiet; rw [ht₀] at hq; exact hq.imp_right (And.imp_left hover)
  · obtain ⟨n, hn⟩ := exists_mem_of_ne_nil _ hl; exact absurd (h.places.waiting n (.inl hn)) (hnone n)

variable {toString : BufferEncoding → Bytes → List UInt16}

variable {b : Bool} {x : Chunk V} {f : Frame V} {q : Iterating V} {xs : List (Chunk V)} {rest : List Nat} {n : Nat}

theorem read_empty {r : Readable V} (hp : r.pending = []) :
    r.read toString 0 = { state := r, seen := [.fetch r.readableHighWaterMark], frames := [.fetching] } := by
  unfold Readable.read; rw [hp]; rfl

theorem read_chunk {r : Readable V} (hp : r.pending = x :: xs) :
    r.read toString 0 = r.readChunk toString 0 x xs := by
  unfold Readable.read
  rw [hp]
  dsimp only; rw [cutChunk_zero]

theorem ready_readChunk {r : Readable V} (h : Ready encoding r) (hp : r.pending = x :: xs) :
    Ready encoding (r.readChunk toString 0 x xs).state := by
  refine ⟨h.paused, h.encoding, h.errored, h.ended, fun hs => ?_⟩
  have hnil := (h.pending hs).2; rw [hp] at hnil; cases hnil

theorem neutral_fetch (n : Nat) : ∀ e ∈ ([.fetch n] : List (Event V)), Iterating.neutral e = true := by
  simp [neutral, final, pushed]

theorem neutral_data (n : Option Nat) (x v : Chunk V) : ∀ e ∈ ([.data n x v] : List (Event V)), Iterating.neutral e = true := by
  simp [neutral, final, pushed]

theorem Inv.next_done (h : Inv E encoding p stack trace) (hst : p.stream = false) :
    Inv E encoding { p with results := p.results ++ [some .done] } stack trace := by
  obtain ⟨vs, rest, ho⟩ := h.order
  obtain ⟨hres, hval⟩ := ho.add (r := some .done) nofun
  have hplaces := h.places
  have hsame : ∀ n, Unsettled { p with results := p.results ++ [some .done] } n ↔ Unsettled p n := by
    intro n
    refine getElem?_snoc.trans ⟨fun hn => ?_, .inl⟩
    obtain hn | ⟨-, hn⟩ := hn
    · exact hn
    · cases hn
  have hlen : (p.results ++ [some IteratorResult.done]).length = p.results.length + 1 := length_append
  refine ⟨h.source, h.shape, ⟨vs, rest ++ [some .done], hres, hval, fun _ => h.progress.stream hst, ho.chunks, ?_⟩,
    ⟨hplaces.readable, hplaces.ended, hplaces.error, hplaces.told, fun n hn => ?_, fun n hn => ?_, fun n hn => ?_, hplaces.both⟩,
    ⟨h.progress.stream, .inl (h.progress.stream hst).2, h.progress.quiet, h.progress.telling, h.progress.due⟩⟩
  · exact fun n b v fs hs => (ho.flying n b v fs hs).imp_right (hsame n).2
  · obtain ⟨hb, hu⟩ := hplaces.named n hn
    exact ⟨by show n < (p.results ++ [some IteratorResult.done]).length; omega, hu.imp_left (hsame n).2⟩
  · exact (hsame n).2 (hplaces.waiting n hn)
  · exact hplaces.placed n ((hsame n).1 hn)

theorem next_inv (h : Inv (emittedChunk toString encoding) encoding p stack trace) (hc : Calm p stack) :
    Inv (emittedChunk toString encoding) encoding (p.next toString).state ((p.next toString).frames ++ stack)
      (trace ++ (p.next toString).seen) := by
  unfold next
  split
  · next hst =>
    unfold take
    cases hp : p.source.pending with
    | nil => rw [read_empty hp]; exact (h.start_empty hc hst hp).neutral (neutral_fetch _)
    | cons x xs =>
      have hready : Ready encoding (p.source.readChunk toString 0 x xs).state := ready_readChunk h.source hp
      have hstart := h.start_chunk hc hst hp hready rfl id
      rw [read_chunk hp]
      rw [← h.source.encoding] at hstart ⊢; exact hstart.neutral (neutral_data _ _ _)
  · next hst =>
    rw [Bool.not_eq_true] at hst; exact (h.next_done hst).neutral (forall_mem_nil _)

/-! ## A `next` is served -/

theorem Places.served {stack' : List (Frame V)} (h : Places p stack)
    (hrl : q.readableListeners = p.readableListeners.filter (fun m => m != n))
    (hel : q.endListeners = p.endListeners.filter (fun m => m != n))
    (hxl : q.errorListeners = p.errorListeners.filter (fun m => m != n)) (hsource : q.source = p.source)
    (hlen : q.results.length = p.results.length) (hu : ∀ m, Unsettled q m ↔ Unsettled p m ∧ m ≠ n)
    (hnames : (stack'.flatMap Frame.names).Sublist (stack.flatMap Frame.names))
    (hstart : (stack'.flatMap Frame.starting).Sublist (stack.flatMap Frame.starting))
    (htold : (Iterating.told stack').Sublist (Iterating.told stack))
    (hother : ∀ m, m ≠ n → (m ∈ stack.flatMap Frame.starting → m ∈ stack'.flatMap Frame.starting) ∧
      (m ∈ Iterating.told stack → m ∈ Iterating.told stack'))
    (hn : n ∉ stack'.flatMap Frame.starting ∧ n ∉ Iterating.told stack')
    (hover : n ∈ stack'.flatMap Frame.names → Over p.source) : Places q stack' := by
  have hne : ∀ {ns : List Nat} {m : Nat}, m ∈ ns.filter (fun m => m != n) → m ∈ ns ∧ m ≠ n := by
    intro ns m hm
    obtain ⟨hm, hne⟩ := mem_filter.1 hm; exact ⟨hm, by simpa using hne⟩
  have hkeep : ∀ {ns : List Nat} {m : Nat}, m ∈ ns → m ≠ n → m ∈ ns.filter (fun m => m != n) := fun hm hne =>
    mem_filter.2 ⟨hm, by simpa using hne⟩
  refine ⟨?_, ?_, ?_, ?_, fun m hm => ?_, fun m hm => ?_, fun m hm => ?_, fun m hm => ?_⟩
  · rw [hrl]; exact h.readable.sublist (filter_sublist.append hnames)
  · rw [hel]; exact h.ended.sublist (filter_sublist.append hstart)
  · rw [hxl]; exact h.error.sublist (filter_sublist.append hstart)
  · exact h.told.sublist (htold.append hstart)
  · rw [hlen, hsource, hu]
    rw [hrl] at hm
    obtain hrest | hrest := mem_append.1 hm
    · obtain ⟨hrest, hmn⟩ := hne hrest
      exact (h.named m (mem_append_left _ hrest)).imp_right (Or.imp_left (fun hun => ⟨hun, hmn⟩))
    · obtain ⟨hb, hun⟩ := h.named m (mem_append_right _ (hnames.subset hrest))
      refine ⟨hb, ?_⟩
      by_cases hmn : m = n
      · exact .inr (hover (hmn ▸ hrest))
      · exact hun.imp_left (fun hun => ⟨hun, hmn⟩)
  · rw [hu]
    rw [hel, hxl] at hm
    obtain hm | hm | hm | hm := hm
    · obtain ⟨hm, hmn⟩ := hne hm; exact ⟨h.waiting m (.inl hm), hmn⟩
    · obtain ⟨hm, hmn⟩ := hne hm; exact ⟨h.waiting m (.inr (.inl hm)), hmn⟩
    · exact ⟨h.waiting m (.inr (.inr (.inl (htold.subset hm)))), fun hmn => hn.2 (hmn ▸ hm)⟩
    · exact ⟨h.waiting m (.inr (.inr (.inr (hstart.subset hm)))), fun hmn => hn.1 (hmn ▸ hm)⟩
  · obtain ⟨hm, hmn⟩ := (hu m).1 hm
    rw [hel, hxl]
    obtain ⟨h₁, h₂⟩ | hm | hm := h.placed m hm
    · exact .inl ⟨hkeep h₁ hmn, hkeep h₂ hmn⟩
    · exact .inr (.inl ((hother m hmn).2 hm))
    · exact .inr (.inr ((hother m hmn).1 hm))
  · rw [hel] at hm
    rw [hxl]
    obtain ⟨hm, hmn⟩ := hne hm; exact (h.both m hm).imp (fun hx => hkeep hx hmn) (hother m hmn).2

theorem cleanup_of_not_mem (hr : n ∉ p.readableListeners) (he : n ∉ p.endListeners) (hx : n ∉ p.errorListeners) :
    p.cleanup n = p := by
  have hfilter : ∀ {ns : List Nat}, n ∉ ns → ns.filter (fun m => m != n) = ns := by
    intro ns hn
    refine filter_eq_self.2 (fun m hm => ?_)
    have hmn : m ≠ n := fun h => hn (h ▸ hm)
    simpa using hmn
  unfold cleanup; rw [hfilter hr, hfilter he, hfilter hx]

theorem unsettled_served {m : Nat} {r : IteratorResult V} :
    Unsettled ((p.cleanup n).settle n r) m ↔ Unsettled p m ∧ m ≠ n := unsettled_settle

theorem length_served {r : IteratorResult V} : ((p.cleanup n).settle n r).results.length = p.results.length :=
  settle_length n r

theorem Places.own {f : Stream.Frame V} (h : Places p (.taking n false f :: stack)) :
    Unsettled p n ∧ n ∉ p.readableListeners ∧ n ∉ p.endListeners ∧ n ∉ p.errorListeners ∧ n ∉ stack.flatMap Frame.starting := by
  have hnot : ∀ {ns ms : List Nat}, (ns ++ ([n] ++ ms)).Nodup → n ∉ ns ∧ n ∉ ms := by
    intro ns ms hnd
    rw [singleton_append, nodup_middle, nodup_cons] at hnd
    exact ⟨fun hm => hnd.1 (mem_append_left _ hm), fun hm => hnd.1 (mem_append_right _ hm)⟩
  exact ⟨h.waiting n (.inr (.inr (.inr mem_cons_self))), (hnot h.readable).1, (hnot h.ended).1, (hnot h.error).1, (hnot h.ended).2⟩

theorem Places.drop {f : Stream.Frame V} (h : Places p (.taking n b f :: stack))
    (hb : ∀ g ∈ stack.head?, g.top = false) (hrl : q.readableListeners = p.readableListeners.filter (fun m => m != n))
    (hel : q.endListeners = p.endListeners.filter (fun m => m != n))
    (hxl : q.errorListeners = p.errorListeners.filter (fun m => m != n)) (hsource : q.source = p.source)
    (hlen : q.results.length = p.results.length) (hu : ∀ m, Unsettled q m ↔ Unsettled p m ∧ m ≠ n) : Places q stack := by
  have ht := told_of_bare hb
  have hn : n ∉ stack.flatMap names := by
    have hnd := h.readable
    rw [flatMap_cons, show (taking n b f).names = [n] from rfl, singleton_append, nodup_middle, nodup_cons] at hnd
    exact fun hm => hnd.1 (mem_append_right _ hm)
  have hns : n ∉ stack.flatMap starting := by
    intro hm
    obtain ⟨g, hg, hm⟩ := mem_flatMap.1 hm
    refine hn (mem_flatMap.2 ⟨g, hg, ?_⟩)
    unfold starting at hm
    split at hm
    · exact hm
    · cases hm
  refine h.served hrl hel hxl hsource hlen hu (sublist_append_right _ _) (sublist_append_right _ _) ?_
    (fun m hmn => ⟨fun hm => ?_, fun hm => ?_⟩) ⟨hns, ?_⟩ (fun hm => absurd hm hn)
  · rw [ht]; exact nil_sublist _
  · obtain hown | hrest := mem_append.1 hm
    · cases b with
      | true => cases hown
      | false => exact absurd (mem_singleton.1 hown) hmn
    · exact hrest
  · cases hm
  · rw [ht]; exact not_mem_nil

theorem Shape.pop (h : Shape (f :: stack) trace) : Shape stack trace :=
  ⟨fun g hg => h.covered g (mem_of_mem_tail hg), fun g hg => h.usual g (mem_cons_of_mem _ hg),
    fun hd => h.closing (mem_cons_of_mem _ hd)⟩

theorem Shape.bare (h : Shape (f :: stack) trace) : ∀ g ∈ stack.head?, g.top = false :=
  fun g hg => h.covered g (mem_of_mem_head? hg)

/-- **A chunk is the value of its `next`.** -/
theorem Inv.take_value {v : Chunk V} (h : Inv E encoding p (.taking n b (.reading v) :: stack) trace) :
    Inv E encoding (if b then p.onReadable n (some v) else p.afterRead n (some v)) stack trace := by
  have hq : (if b then p.onReadable n (some v) else p.afterRead n (some v)) = (p.cleanup n).settle n (.value v) := by
    cases b with
    | true => rfl
    | false =>
      obtain ⟨-, hr, he, hx, -⟩ := h.places.own; rw [cleanup_of_not_mem hr he hx]; rfl
  rw [hq]
  obtain ⟨vs, rest, ho⟩ := h.order
  obtain ⟨rfl, hun⟩ := ho.flying n b v stack rfl
  obtain ⟨rest', rfl, hres⟩ := ho.fulfil hun
  have hbare := h.shape.bare
  have ht := told_of_bare hbare
  have hsource : ((p.cleanup vs.length).settle vs.length (.value v)).source = p.source := settle_source _ _
  have hel : ((p.cleanup vs.length).settle vs.length (.value v)).endListeners =
      p.endListeners.filter (fun m => m != vs.length) := settle_endListeners _ _
  have hstream : ((p.cleanup vs.length).settle vs.length (.value v)).stream = p.stream := settle_stream _ _
  have hsub : ∀ m ∈ p.endListeners.filter (fun m => m != vs.length), m ∈ p.endListeners := fun m hm => mem_of_mem_filter hm
  refine ⟨hsource ▸ h.source, h.shape.pop, ⟨vs ++ [v], rest', ?_, fun w hw => ho.values w (mem_cons_of_mem _ hw), ?_, ?_, ?_⟩,
    h.places.drop hbare (settle_readableListeners _ _) hel (settle_errorListeners _ _) hsource length_served
      (fun m => unsettled_served), ⟨?_, ?_, ?_, fun hne => absurd ht hne, ?_⟩⟩
  · refine Eq.trans ?_ hres
    rw [settle_of_unsettled _ hun, settle_of_unsettled _ (show Unsettled (p.cleanup vs.length) vs.length from hun)]
    rfl
  · rintro ⟨r, hr, hne⟩; rw [hsource]; exact ho.settled ⟨r, mem_cons_of_mem _ hr, hne⟩
  · rw [hsource, flight_of_bare hbare, append_nil]; exact ho.chunks
  · intro m b' w fs hs
    subst hs
    cases hbare _ rfl
  · rw [hstream, hsource]; exact h.progress.stream
  · rw [hsource]
    obtain hp | ⟨hall, hw⟩ | ⟨m, rest, fs, x, hs, -⟩ := h.progress.buffer
    · exact .inl hp
    · refine .inr (.inl ⟨fun m hm => ?_, hw⟩)
      obtain ⟨hm, hmn⟩ := unsettled_served.1 hm
      obtain ⟨b', w, fs, hs⟩ := hall m hm
      cases hs; exact absurd rfl hmn
    · cases hs
  · rw [hsource, hel, ht]; exact h.progress.quiet.imp_right (And.imp_right (fun hl m hm => hl m (hsub m hm)))
  · rw [hsource, hel]
    intro he hl
    obtain ⟨m, hm⟩ := exists_mem_of_ne_nil _ hl
    obtain hov | hs | ⟨k, b', hf⟩ | hw := h.progress.due he (ne_nil_of_mem (hsub m hm))
    · exact .inl hov
    · exact .inr (.inl hs)
    · refine .inr (.inr (.inl ⟨k, b', ?_⟩))
      obtain hf | hf := mem_cons.1 hf
      · cases hf
      · exact hf
    · exact .inr (.inr (.inr hw))

section

variable (h : Inv E encoding p (.taking n b .fetching :: stack) trace)
include h

theorem Inv.nothing_buffered {m : Nat} (hm : Unsettled p m) : p.source.pending = [] := by
  obtain hp | ⟨hall, -⟩ | ⟨k, rest, fs, x, hs, -⟩ := h.progress.buffer
  · exact hp
  · obtain ⟨b', w, fs, hs⟩ := hall m hm; cases hs
  · cases hs

theorem Inv.buffer_fetched : p.source.pending = [] ∨ (∀ m, ¬ Unsettled p m) ∧ stack.flatMap Frame.walkers = [] := by
  obtain hp | ⟨hall, hw⟩ | ⟨k, rest, fs, x, hs, -⟩ := h.progress.buffer
  · exact .inl hp
  · refine .inr ⟨fun m hm => ?_, hw⟩
    obtain ⟨b', w, fs, hs⟩ := hall m hm; cases hs
  · cases hs

end

theorem Inv.give_up (h : Inv E encoding p (.taking n true .fetching :: stack) trace)
    (hs : p.source.endPending = true → p.source.pending = [] → p.source.endEmitted = true ∨ p.source.endScheduled = true) :
    Inv E encoding p stack trace := by
  obtain ⟨vs, rest, ho⟩ := h.order
  have hbare := h.shape.bare
  have ht := told_of_bare hbare
  have hplaces := h.places
  refine ⟨h.source, h.shape.pop, ⟨vs, rest, ho.results, ho.values, ho.settled, ?_, fun m b w fs hs => ?_⟩,
    ⟨?_, hplaces.ended, hplaces.error, ?_, fun m hm => ?_, ?_, ?_, ?_⟩, ⟨h.progress.stream, ?_, ?_, fun hne => absurd ht hne, fun he hl => ?_⟩⟩
  · rw [flight_of_bare hbare]; exact ho.chunks
  · subst hs
    cases hbare _ rfl
  · exact hplaces.readable.sublist ((Sublist.refl _).append (sublist_append_right _ _))
  · rw [ht]; exact hplaces.told
  · obtain hm | hm := mem_append.1 hm
    · exact hplaces.named m (mem_append_left _ hm)
    · exact hplaces.named m (mem_append_right _ (mem_append_right _ hm))
  · rw [ht]; exact hplaces.waiting
  · rw [ht]; exact hplaces.placed
  · rw [ht]; exact hplaces.both
  · exact h.buffer_fetched.imp_right (fun hb => .inl ⟨fun m hm => absurd hm (hb.1 m), hb.2⟩)
  · rw [ht]; exact h.progress.quiet
  · obtain ⟨m, hm⟩ := exists_mem_of_ne_nil _ hl
    exact (hs he (h.nothing_buffered (hplaces.waiting m (.inl hm)))).imp .inr .inl

theorem Inv.wait (h : Inv E encoding p (.taking n false .fetching :: stack) trace) (hover : ¬ Over p.source)
    (hs : p.source.endPending = true → p.source.pending = [] → p.source.endEmitted = true ∨ p.source.endScheduled = true) :
    Inv E encoding
      { p with
        readableListeners := p.readableListeners ++ [n]
        endListeners := p.endListeners ++ [n]
        errorListeners := p.errorListeners ++ [n] } stack trace := by
  obtain ⟨vs, rest, ho⟩ := h.order
  have hbare := h.shape.bare
  have ht := told_of_bare hbare
  have hplaces := h.places
  obtain ⟨hun, -⟩ := hplaces.own
  have hnil := h.nothing_buffered hun
  have hmove : ∀ {ns ms : List Nat}, (ns ++ ([n] ++ ms)).Nodup → ((ns ++ [n]) ++ ms).Nodup := fun hnd => by
    rwa [append_assoc]
  have hsplit : ∀ {ns : List Nat} {m : Nat}, m ∈ ns ++ [n] → m ∈ ns ∨ m = n := fun hm =>
    (mem_append.1 hm).imp_right mem_singleton.1
  refine ⟨h.source, h.shape.pop, ⟨vs, rest, ho.results, ho.values, ho.settled, ?_, fun m b w fs hs => ?_⟩,
    ⟨hmove hplaces.readable, hmove hplaces.ended, hmove hplaces.error, ?_, fun m hm => ?_, fun m hm => ?_, fun m hm => ?_, fun m hm => ?_⟩,
    ⟨h.progress.stream, .inl hnil, ?_, fun hne => absurd ht hne, fun he _ => (hs he hnil).imp .inr .inl⟩⟩
  · rw [flight_of_bare hbare]; exact ho.chunks
  · subst hs
    cases hbare _ rfl
  · rw [ht]; exact hplaces.told.sublist (sublist_append_right _ _)
  · refine hplaces.named m ?_
    rw [append_assoc] at hm; exact hm
  · obtain hm | hm | hm | hm := hm
    · obtain hm | rfl := hsplit hm
      · exact hplaces.waiting m (.inl hm)
      · exact hun
    · obtain hm | rfl := hsplit hm
      · exact hplaces.waiting m (.inr (.inl hm))
      · exact hun
    · rw [ht] at hm; cases hm
    · exact hplaces.waiting m (.inr (.inr (.inr (mem_append_right _ hm))))
  · obtain ⟨h₁, h₂⟩ | hm | hm := hplaces.placed m hm
    · exact .inl ⟨mem_append_left _ h₁, mem_append_left _ h₂⟩
    · cases hm
    · obtain hm | hm := mem_append.1 hm
      · exact .inl ⟨mem_append_right _ hm, mem_append_right _ hm⟩
      · exact .inr (.inr hm)
  · obtain hm | rfl := hsplit hm
    · exact .inl (mem_append_left _ ((hplaces.both m hm).resolve_right not_mem_nil))
    · exact .inl (mem_append_right _ mem_cons_self)
  · exact .inl (h.progress.quiet.resolve_right (fun hq => hover hq.1))

theorem Inv.finish {n : Nat} (h : Inv E encoding p (.taking n false .fetching :: stack) trace) (hover : Over p.source) :
    Inv E encoding ({ p with stream := false }.settle n .done) stack trace := by
  obtain ⟨vs, rest, ho⟩ := h.order
  have hbare := h.shape.bare
  have ht := told_of_bare hbare
  have hplaces := h.places
  obtain ⟨hun, hr, he, hx, -⟩ := hplaces.own
  have hnil := h.nothing_buffered hun
  have hclean : p.cleanup n = p := cleanup_of_not_mem hr he hx
  have hsource : ({ p with stream := false }.settle n .done).source = p.source := settle_source _ _
  have hel : ({ p with stream := false }.settle n .done).endListeners = p.endListeners := settle_endListeners _ _
  obtain ⟨rest', hres, hmem⟩ := ho.settle (r := .done) hun
  have hq : ({ p with stream := false }.settle n .done).results = (p.settle n .done).results := by
    rw [settle_of_unsettled _ hun, settle_of_unsettled _ (show Unsettled { p with stream := false } n from hun)]
  refine ⟨by rw [hsource]; exact h.source, h.shape.pop, ⟨vs, rest', hq.trans hres, fun v hv => ?_, fun _ => ?_, ?_, fun m b w fs hs => ?_⟩,
    hplaces.drop hbare ?_ ?_ ?_ hsource (settle_length _ _) (fun m => unsettled_settle), ⟨fun _ => ?_, ?_, ?_, fun hne => absurd ht hne, fun _ _ => ?_⟩⟩
  · obtain hv | hv := hmem _ hv
    · exact ho.values v hv
    · cases hv
  · rw [hsource]; exact ⟨hover, hnil⟩
  · rw [hsource, flight_of_bare hbare]; exact ho.chunks
  · subst hs
    cases hbare _ rfl
  · exact (settle_readableListeners _ _).trans (congrArg readableListeners hclean).symm
  · exact hel.trans (congrArg endListeners hclean).symm
  · exact (settle_errorListeners _ _).trans (congrArg errorListeners hclean).symm
  · rw [hsource]; exact ⟨hover, hnil⟩
  · rw [hsource]; exact .inl hnil
  · rw [hsource, hel, ht]; exact h.progress.quiet
  · rw [hsource]; exact .inl hover

section

variable (h : Inv E encoding p (.readable (n :: rest) :: stack) trace)
include h

theorem Inv.walk_empty
    (hnil : p.source.pending = []) :
    Inv E encoding p (.taking n true .fetching :: .readable rest :: stack) trace := by
  obtain ⟨vs, rs, ho⟩ := h.order
  have hplaces := h.places
  refine ⟨h.source, ⟨fun g hg => ?_, fun g hg => ?_, fun hd => ?_⟩, ⟨vs, rs, ho.results, ho.values, ho.settled, ho.chunks, nofun⟩,
    ⟨hplaces.readable, hplaces.ended, hplaces.error, hplaces.told, hplaces.named, hplaces.waiting, hplaces.placed, hplaces.both⟩,
    ⟨h.progress.stream, .inl hnil, h.progress.quiet, fun hne => absurd rfl hne, fun _ _ => ?_⟩⟩
  · obtain rfl | hg := mem_cons.1 hg
    · rfl
    · exact h.shape.covered g hg
  · obtain rfl | hg := mem_cons.1 hg
    · rfl
    · obtain rfl | hg := mem_cons.1 hg
      · rfl
      · exact h.shape.usual g (mem_cons_of_mem _ hg)
  · simp only [mem_cons] at hd
    obtain hd | hd | hd := hd
    · cases hd
    · cases hd
    · exact h.shape.closing (mem_cons_of_mem _ hd)
  · exact .inr (.inr (.inl ⟨n, true, mem_cons_self⟩))

theorem Inv.walk_chunk {r : Readable V} (hp : p.source.pending = x :: xs) (hr : Ready encoding r)
    (hrp : r.pending = xs) (hover : Over p.source → Over r) (hend : r.endPending = p.source.endPending) :
    Inv E encoding { p with source := r } (.taking n true (.reading (E x)) :: .readable rest :: stack) trace := by
  obtain ⟨vs, rs, ho⟩ := h.order
  have hplaces := h.places
  have hne : p.source.pending ≠ [] := by simp [hp]
  obtain ⟨hold, hxs, he⟩ : p.oldest = some n ∧ xs = [] ∧ p.source.endPending = false := by
    obtain hn | ⟨-, hw⟩ | ⟨k, ks, fs, y, hs, hold, hy, he⟩ := h.progress.buffer
    · exact absurd hn hne
    · cases hw
    · cases hs; rw [hp] at hy; exact ⟨hold, (List.cons.inj hy).2, he⟩
  have hnone : ∀ q ∈ rs, q = none := by
    intro q hq
    by_contra hqn
    exact hne (ho.settled ⟨q, hq, hqn⟩).2
  have hn : n = vs.length := ho.oldest hnone hold
  refine ⟨hr, ⟨fun g hg => ?_, fun g hg => ?_, fun hd => ?_⟩, ⟨vs, rs, ho.results, ho.values, fun ⟨q, hq, hqn⟩ => absurd (hnone q hq) hqn, ?_, ?_⟩,
    ⟨hplaces.readable, hplaces.ended, hplaces.error, hplaces.told, fun m hm => ?_, hplaces.waiting, hplaces.placed, hplaces.both⟩,
    ⟨fun hs => ?_, .inl (hrp.trans hxs), ?_, fun hne => absurd rfl hne, fun he' _ => ?_⟩⟩
  · obtain rfl | hg := mem_cons.1 hg
    · rfl
    · exact h.shape.covered g hg
  · obtain rfl | hg := mem_cons.1 hg
    · rfl
    · obtain rfl | hg := mem_cons.1 hg
      · rfl
      · exact h.shape.usual g (mem_cons_of_mem _ hg)
  · simp only [mem_cons] at hd
    obtain hd | hd | hd := hd
    · cases hd
    · cases hd
    · exact h.shape.closing (mem_cons_of_mem _ hd)
  · have hchunks := ho.chunks
    rw [hp, map_cons] at hchunks
    rw [hrp, ← hchunks, append_assoc]; exact congrArg (· ++ _) (append_nil vs).symm
  · intro m b w fs hs
    cases hs; exact ⟨hn, unsettled_oldest hold⟩
  · exact (hplaces.named m hm).imp_right (Or.imp_right hover)
  · exact absurd (h.progress.stream hs).2 hne
  · exact h.progress.quiet.imp_right (And.imp_left hover)
  · rw [show r.endPending = p.source.endPending from hend, he] at he'
    cases he'

end

theorem Inv.tell {g : Frame V} {r : IteratorResult V} (hf : told (f :: stack) = n :: rest)
    (hg : told (g :: stack) = rest) (hfg : f.names = [] ∧ g.names = []) (hgu : g.usual = true)
    (hgd : g ≠ .source .destroyError) (hv : ∀ v, r ≠ .value v)
    (h : Inv E encoding p (f :: stack) trace) :
    Inv E encoding ({ p.cleanup n with stream := false }.settle n r) (g :: stack) trace := by
  obtain ⟨vs, rs, ho⟩ := h.order
  have hplaces := h.places
  have hover : Over p.source := h.progress.telling (by simp [hf])
  have hun : Unsettled p n := hplaces.waiting n (.inr (.inr (.inl (by rw [hf]; exact mem_cons_self))))
  have hfs := starting_of_names hfg.1
  have hgs := starting_of_names hfg.2
  have hnil : p.source.pending = [] := by
    obtain hp | ⟨hall, -⟩ | ⟨k, ks, fs, y, hs, -⟩ := h.progress.buffer
    · exact hp
    · obtain ⟨b', w, fs, hs⟩ := hall n hun
      cases hs; cases hfg.1
    · cases hs; cases hfg.1
  have hnames : (g :: stack).flatMap names = (f :: stack).flatMap names := by
    rw [flatMap_cons, flatMap_cons, hfg.1, hfg.2]
  have hstart : (g :: stack).flatMap starting = (f :: stack).flatMap starting := by
    rw [flatMap_cons, flatMap_cons, hfs.1, hgs.1]
  have hflight : ∀ {k : Frame V}, k.names = [] → flight (k :: stack) = [] := by
    intro k hk
    unfold flight
    split
    · next heq =>
      cases heq; cases hk
    · rfl
  have hnd := hplaces.told
  rw [hf, cons_append, nodup_cons] at hnd
  have hsource : ({ p.cleanup n with stream := false }.settle n r).source = p.source := settle_source _ _
  have hel : ({ p.cleanup n with stream := false }.settle n r).endListeners = p.endListeners.filter (fun m => m != n) :=
    settle_endListeners _ _
  obtain ⟨rs', hres, hmem⟩ := ho.settle (r := r) hun
  have hq : ({ p.cleanup n with stream := false }.settle n r).results = (p.settle n r).results := by
    rw [settle_of_unsettled _ hun, settle_of_unsettled _ (show Unsettled { p.cleanup n with stream := false } n from hun)]
    rfl
  have hold : ∀ m ∈ rest, m ∈ told (f :: stack) := fun m hm => by rw [hf]; exact mem_cons_of_mem _ hm
  refine ⟨by rw [hsource]; exact h.source, ⟨h.shape.covered, fun k hk => ?_, fun hd => ?_⟩,
    ⟨vs, rs', hq.trans hres, fun v hw => ?_, fun _ => ?_, ?_, fun m b w fs hs => ?_⟩,
    hplaces.served (settle_readableListeners _ _) hel (settle_errorListeners _ _) hsource (settle_length _ _)
      (fun m => unsettled_settle) (by rw [hnames]) (by rw [hstart]) ?_ (fun m hmn => ⟨fun hm => ?_, fun hm => ?_⟩) ⟨?_, ?_⟩ (fun _ => hover),
    ⟨fun _ => ?_, ?_, ?_, fun _ => ?_, fun _ _ => ?_⟩⟩
  · obtain rfl | hk := mem_cons.1 hk
    · exact hgu
    · exact h.shape.usual k (mem_cons_of_mem _ hk)
  · obtain hd | hd := mem_cons.1 hd
    · exact absurd hd.symm hgd
    · exact h.shape.closing (mem_cons_of_mem _ hd)
  · obtain hw | hw := hmem _ hw
    · exact ho.values v hw
    · exact hv v (Option.some.inj hw).symm
  · rw [hsource]; exact ⟨hover, hnil⟩
  · rw [hsource, hflight hfg.2, ← hflight hfg.1]; exact ho.chunks
  · cases hs; cases hfg.2
  · rw [hf, hg]; exact sublist_cons_self n rest
  · rw [hstart]; exact hm
  · rw [hf] at hm; rw [hg]; exact (mem_cons.1 hm).resolve_left hmn
  · rw [hstart]; exact fun hm => hnd.1 (mem_append_right _ hm)
  · rw [hg]; exact fun hm => hnd.1 (mem_append_left _ hm)
  · rw [hsource]; exact ⟨hover, hnil⟩
  · rw [hsource]; exact .inl hnil
  · rw [hsource, hel, hg]
    refine h.progress.quiet.imp_right (And.imp_right (fun hl m hm => ?_))
    obtain ⟨hm, hmn⟩ := mem_filter.1 hm
    have hmt := hl m hm; rw [hf] at hmt; exact (mem_cons.1 hmt).resolve_left (by simpa using hmn)
  · rw [hsource]; exact hover
  · rw [hsource]; exact .inl hover

/-! ## The end is announced -/

/-- When the end was emitted, the trace has it. -/
def Announced (p : Iterating V) (trace : List (Event V)) : Prop := p.source.endEmitted = true → .ended ∈ trace

theorem Announced.block {b : Readable.Result V} (h : Announced p trace) (hb : Readable.Shows p.source b)
    (hq : q.source = b.state) : Announced q (trace ++ b.seen) := by
  intro he
  rw [hq] at he
  obtain hb | hb := hb.ended he
  · exact mem_append_left _ (h hb)
  · exact mem_append_right _ hb

theorem Announced.lift {b : Readable.Result V} (h : Announced p trace) (hb : Readable.Shows p.source b) :
    Announced (p.lift b).state (trace ++ (p.lift b).seen) := by
  unfold Iterating.lift
  split <;> exact h.block hb rfl

theorem Announced.take (n : Nat) (b : Bool) (h : Announced p trace) :
    Announced (p.take toString n b).state (trace ++ (p.take toString n b).seen) := by
  exact h.block (shows_read 0) rfl

theorem announced_call {k : Call V} {b : Result V} (h : Announced p trace) (hb : p.call toString k = some b) :
    Announced b.state (trace ++ b.seen) := by
  cases k with
  | source k => obtain ⟨b₀, hb₀, rfl⟩ := map_eq_some_iff.1 hb; exact h.lift (shows_call hb₀)
  | next =>
    cases hb
    unfold next
    split
    · exact Announced.take (p := { p with results := p.results ++ [none] }) _ _ h
    · exact fun he => mem_append_left _ (h he)
  | return_ =>
    cases hb
    unfold return_
    split
    · exact h.lift (shows_destroy none .nothing)
    · exact fun he => mem_append_left _ (h he)

theorem announced_goOn (f : Frame V) (h : Announced p trace) :
    Announced (p.goOn toString f).state (trace ++ (p.goOn toString f).seen) := by
  have hsame : ∀ {q : Iterating V}, q.source = p.source → Announced q (trace ++ []) := fun hq he =>
    mem_append_left _ (h (by rw [← hq]; exact he))
  cases f with
  | source f => exact h.lift (shows_goOn f)
  | taking n b f =>
    refine h.block (shows_goOn f) ?_
    cases b with
    | true =>
      show ({ p with source := (p.source.goOn toString f).state }.onReadable n (taken f)).source = _
      cases taken f <;> simp [onReadable, cleanup]
    | false =>
      show ({ p with source := (p.source.goOn toString f).state }.afterRead n (taken f)).source = _
      cases taken f with
      | some value => simp [afterRead]
      | none =>
        unfold afterRead
        dsimp only
        split
        · simp
        · rfl
  | readable rest =>
    cases rest with
    | nil => exact hsame rfl
    | cons n rest => exact h.take n true
  | ended rest =>
    cases rest with
    | nil => exact hsame rfl
    | cons n rest => exact hsame (by simp [goOn, onEnd, cleanup])
  | error e rest =>
    cases rest with
    | nil => exact hsame rfl
    | cons n rest => exact hsame (by simp [goOn, onError, cleanup])
  | returning => exact hsame rfl

/-! ## Steps -/

/-- What the stream does by itself. -/
structure Plain (encoding : Option BufferEncoding) (r : Readable V) (b : Readable.Result V) : Prop where
  ready : Ready encoding b.state
  pending : b.state.pending = r.pending
  stays : Over r → Over b.state
  endPending : b.state.endPending = r.endPending
  endScheduled : r.endScheduled = true → Over b.state ∨ b.state.endScheduled = true
  frames : .destroyError ∉ b.frames
  seen : ∀ e ∈ b.seen, Iterating.neutral e = true
  emission : emission b.seen = none

theorem Inv.lift {b : Readable.Result V} (h : Inv E encoding p stack trace) (hc : Calm p stack) (hb : Plain encoding p.source b) :
    Inv E encoding (p.lift b).state ((p.lift b).frames ++ stack) (trace ++ (p.lift b).seen) := by
  unfold Iterating.lift
  rw [hb.emission]
  exact h.step hc hb.ready hb.pending hb.stays hb.endPending hb.endScheduled hb.frames hb.seen

variable {r : Readable V}

theorem plain_returned (hr : Ready encoding r) (ret : Return) : Plain encoding r (r.returned ret) := by
  cases ret with
  | nothing => exact ⟨hr, rfl, id, rfl, .inr, by simp [returned], forall_mem_nil _, rfl⟩
  | length | refused =>
    exact ⟨hr, rfl, id, rfl, .inr, by simp [returned], by simp [returned, neutral, final, pushed], rfl⟩

theorem plain_same (hr : Ready encoding r) : Plain encoding r { state := r } := plain_returned hr .nothing

theorem ready_maybeEmitEnd (hr : Ready encoding r) : Ready encoding r.maybeEmitEnd := by
  obtain he | ⟨hend, hp, he⟩ := maybeEmitEnd_cases r
  · rw [he]; exact hr
  · rw [he]; exact ⟨hr.paused, hr.encoding, hr.errored, hr.ended, fun _ => ⟨hend, hp⟩⟩

theorem plain_maybeEmitEnd {b : Readable.Result V} (hb : Plain encoding r.maybeEmitEnd b) : Plain encoding r b := by
  obtain he | ⟨hend, hp, he⟩ := maybeEmitEnd_cases r
  · rwa [he] at hb
  · rw [he] at hb
    exact ⟨hb.ready, hb.pending, hb.stays, hb.endPending, fun _ => hb.endScheduled rfl, hb.frames, hb.seen, hb.emission⟩

theorem plain_destroy (hr : Ready encoding r) (error : Option StreamError) (ret : Return) :
    Plain encoding r (r.destroy error ret) := by
  unfold destroy
  split
  · exact plain_returned hr ret
  · exact ⟨⟨hr.paused, hr.encoding, fun _ => rfl, hr.ended, hr.pending⟩, rfl, fun _ => .inl rfl, rfl, .inr, by simp, forall_mem_nil _, rfl⟩

theorem plain_drainFlowing {toString : BufferEncoding → Bytes → List UInt16} (hr : Ready encoding r) (ret : Return) :
    Plain encoding r (r.drainFlowing toString ret) := by
  unfold drainFlowing
  rw [hr.paused]; exact plain_maybeEmitEnd (plain_returned (ready_maybeEmitEnd hr) ret)

theorem plain_goOn {toString : BufferEncoding → Bytes → List UInt16} (hr : Ready encoding r) {f : Stream.Frame V}
    (hf : f ≠ .destroyError) : Plain encoding r (r.goOn toString f) := by
  cases f with
  | pushed =>
    unfold Readable.goOn; rw [if_pos hr.paused]; exact plain_returned hr _
  | endPushed ret =>
    unfold Readable.goOn
    dsimp only; rw [if_pos hr.paused]; exact plain_returned hr _
  | draining ret => exact plain_drainFlowing hr ret
  | resumed => exact plain_drainFlowing hr .nothing
  | fetching | reading value =>
    refine plain_maybeEmitEnd ⟨ready_maybeEmitEnd hr, rfl, id, rfl, .inr, ?_, ?_, rfl⟩
    · simp [Readable.goOn]
    · simp [Readable.goOn, neutral, final, pushed]
  | ended side =>
    unfold Readable.goOn
    dsimp only
    split
    · exact plain_destroy hr none .nothing
    · exact plain_same hr
  | errorEmitted ret | destroying ret => exact plain_returned hr ret
  | destroyError => exact absurd rfl hf
  | paused | closing => exact plain_same hr

theorem push_inv {chunk : Chunk V} (h : Inv E encoding p stack trace) (hc : Calm p stack)
    (hP : p.source.destroyed = false → (p.source.endPending = true → p.source.autoDestroy = true) ∧
      (p.source.endPending = false → p.readableListeners.head? = p.oldest)) :
    Inv E encoding (p.lift (p.source.push (some chunk))).state ((p.lift (p.source.push (some chunk))).frames ++ stack)
      (trace ++ (p.lift (p.source.push (some chunk))).seen) := by
  unfold push
  split
  · exact h.lift hc (plain_returned h.source .refused)
  · next hd =>
    rw [Bool.not_eq_true] at hd
    obtain ⟨hauto, hhead⟩ := hP hd
    split
    · next he =>
      have herror : p.source.errorOrDestroy .pushAfterEof .refused = p.source.destroy (some .pushAfterEof) .refused := by
        unfold errorOrDestroy; rw [if_neg (by simp [hd]), if_pos (hauto he)]
      rw [herror]; exact h.lift hc (plain_destroy h.source _ _)
    · next he =>
      rw [Bool.not_eq_true] at he
      have hnot : ¬ Over p.source := by
        rintro (hov | hov)
        · rw [hd] at hov; cases hov
        · have hend := (h.source.pending (.inr hov)).1; rw [he] at hend; cases hend
      have hr : Ready encoding
          { p.source with
            pending := p.source.pending ++ [chunk]
            pendingLength := p.source.pendingLength + streamChunkLength p.source.readableObjectMode chunk } := by
        refine ⟨h.source.paused, h.source.encoding, h.source.errored, h.source.ended, fun hs => ?_⟩
        have hend := (h.source.pending hs).1; rw [he] at hend; cases hend
      have hes : ∀ e ∈ ([.pushed chunk, .readable] : List (Event V)), final e = false := by simp [final]
      have hchunks : (p.source.pending ++ [chunk]).map E =
          p.source.pending.map E ++ (pushed ([.pushed chunk, .readable] : List (Event V))).map E := by simp [pushed]
      refine h.emit hc hr (fun hov => absurd hov hnot) nofun hes hchunks (.inr ?_) (fun hend => ?_)
      · cases hold : p.oldest with
        | none =>
          have hnone := oldest_eq_none.1 hold
          have hrl : p.readableListeners = [] := by
            have := (hhead he).trans hold; exact head?_eq_none_iff.1 this
          refine .inl ⟨hnone, hrl, eq_nil_iff_forall_not_mem.2 (fun n hn => ?_)⟩
          obtain ⟨f, hf, hn⟩ := mem_flatMap.1 hn
          have hname : n ∈ f.names := by
            unfold walkers at hn
            split at hn
            · exact hn
            · cases hn
          have hmem := h.places.named n (mem_append_right _ (mem_flatMap.2 ⟨f, hf, hname⟩))
          exact hmem.2.elim (hnone n) hnot
        | some n =>
          have hun := unsettled_oldest hold
          have hnil := hc.pending hun
          obtain ⟨rest, hrl⟩ := head?_eq_some_iff.1 ((hhead he).trans hold)
          exact .inr ⟨n, rest, chunk, hrl, rfl, by rw [hnil]; rfl, he⟩
      · rw [show p.source.endPending = true from hend] at he; cases he

theorem pushEnd_inv (ret : Return) (h : Inv E encoding p stack trace) (hc : Calm p stack)
    (hP : p.source.destroyed = false → p.source.endPending = false →
      p.endListeners = [] ∨ p.readableListeners ≠ [] ∨ Fetching stack) :
    Inv E encoding (p.lift (p.source.pushEnd ret)).state ((p.lift (p.source.pushEnd ret)).frames ++ stack)
      (trace ++ (p.lift (p.source.pushEnd ret)).seen) := by
  unfold pushEnd
  split
  · exact h.lift hc (plain_returned h.source ret)
  · next hn =>
    simp only [Bool.or_eq_true, not_or, Bool.not_eq_true] at hn
    obtain ⟨hd, he⟩ := hn
    have hpend : ∀ (P : Prop), p.source.endPending = true → P := by
      intro P hend; rw [he] at hend; cases hend
    have hr : Ready encoding { p.source with endPending := true } :=
      ⟨h.source.paused, h.source.encoding, h.source.errored, h.source.ended, fun hs => hpend _ (h.source.pending hs).1⟩
    have hnot : ¬ Over p.source := by
      rintro (hov | hov)
      · rw [hd] at hov; cases hov
      · exact hpend _ (h.source.pending (.inr hov)).1
    have hes : ∀ e ∈ ([.endPushed, .readable] : List (Event V)), final e = false := by simp [final]
    have hchunks : p.source.pending.map E =
        p.source.pending.map E ++ (pushed ([.endPushed, .readable] : List (Event V))).map E := by simp [pushed]
    refine h.emit hc hr (fun hov => ⟨hov, rfl⟩) nofun hes hchunks ?_ (fun _ hl => ?_)
    · refine hc.buffer.imp_right (fun hb => .inl ⟨hb.1, ?_, hb.2⟩)
      refine eq_nil_iff_forall_not_mem.2 (fun n hn => ?_)
      exact (h.places.named n (mem_append_left _ hn)).2.elim (hb.1 n) hnot
    · obtain hnil | hrl | hf := hP hd he
      · exact absurd hnil hl
      · exact .inr (.inr (.inr (.inl hrl)))
      · exact .inr (.inr (.inl hf))

theorem destroyed_inv (error : Option StreamError) (h : Inv E encoding p stack trace) (hc : Calm p stack)
    (hd : p.source.destroyed = true) (hP : error = none → p.endListeners = []) :
    Inv E encoding (p.lift (p.source.destroyCallback error)).state ((p.lift (p.source.destroyCallback error)).frames ++ stack)
      (trace ++ (p.lift (p.source.destroyCallback error)).seen) := by
  cases error with
  | none => exact h.emitClose hc (.inl hd) (hP rfl)
  | some e =>
    have hr : Ready encoding { p.source with errored := some e } :=
      ⟨h.source.paused, h.source.encoding, fun _ => hd, h.source.ended, h.source.pending⟩
    exact h.emitError hc hr hd rfl

theorem checkpoint_inv (side : Bool) (h : Inv E encoding p [] trace) :
    Inv E encoding (p.lift (p.source.checkpoint side)).state ((p.lift (p.source.checkpoint side)).frames ++ [])
      (trace ++ (p.lift (p.source.checkpoint side)).seen) := by
  have hc : Calm p [] := h.calm nofun
  unfold checkpoint
  split
  · exact h.lift hc (plain_same h.source)
  · next hs =>
    simp only [Bool.not_eq_true', Bool.not_eq_false] at hs
    obtain ⟨hend, hnil⟩ := h.source.pending (.inl hs)
    split
    · next hcond =>
      have hover : Over p.source := by
        simp only [Bool.or_eq_true, hnil, isEmpty_nil, Bool.not_true, Bool.false_eq_true, or_false, isSome_iff_ne_none] at hcond
        obtain (hem | hd) | herr := hcond
        · exact .inr hem
        · exact .inl hd
        · exact .inl (h.source.errored herr)
      have hr : Ready encoding { p.source with endScheduled := false } :=
        ⟨h.source.paused, h.source.encoding, h.source.errored, h.source.ended, fun _ => ⟨hend, hnil⟩⟩
      exact h.lift hc ⟨hr, rfl, id, rfl, fun _ => .inl hover, by simp, forall_mem_nil _, rfl⟩
    · have hr : Ready encoding { p.source with endScheduled := false, endEmitted := true, readableEnded := true, readable := false } :=
        ⟨h.source.paused, h.source.encoding, h.source.errored, rfl, fun _ => ⟨hend, hnil⟩⟩
      exact h.emitEnd hr rfl rfl hnil

variable {toString : BufferEncoding → Bytes → List UInt16} {c : Config (Iterating V) (Frame V) (Event V)}

theorem call_inv {k : Call V} {b : Result V} (h : Inv (emittedChunk toString encoding) encoding c.state c.stack c.trace)
    (hD : Domain c (.call k)) (hP : Clear c (.call k)) (ht : (program toString).task k = true → c.stack = [])
    (hb : c.state.call toString k = some b) :
    Inv (emittedChunk toString encoding) encoding b.state (b.frames ++ c.stack) (c.trace ++ b.seen) := by
  obtain ⟨hhook, hk⟩ := hD
  have hc := h.calm hhook
  cases k with
  | next => cases hb; exact next_inv h hc
  | return_ => exact hk.elim
  | source k =>
    obtain ⟨b₀, hb₀, rfl⟩ := map_eq_some_iff.1 hb
    cases k with
    | push chunk =>
      cases hb₀
      cases chunk with
      | some chunk => exact push_inv h hc hP
      | none =>
        have hE := pushEnd_inv .refused h hc hP
        unfold Readable.push
        split
        · exact h.lift hc (plain_returned h.source .refused)
        · split
          · exact h.lift hc (plain_returned h.source .refused)
          · exact hE
    | pushEnd => cases hb₀; exact pushEnd_inv .nothing h hc hP
    | destroy error => cases hb₀; exact h.lift hc (plain_destroy h.source error .nothing)
    | destroyed error =>
      unfold Readable.call at hb₀
      dsimp only at hb₀
      split at hb₀
      · next hd =>
        cases hb₀; exact destroyed_inv error h hc hd (fun he => by subst he; exact hP)
      · cases hb₀
    | checkpoint side =>
      cases hb₀
      have hs := ht rfl; rw [hs] at h ⊢; exact checkpoint_inv side h
    | unshift chunk | pause | resume | onData | read size | setEncoding e => exact hk.elim

theorem taking_inv {n : Nat} {b : Bool} {f : Stream.Frame V} {fs : List (Frame V)}
    (h : Inv E encoding p (.taking n b f :: fs) trace) :
    Inv E encoding (p.goOn toString (.taking n b f)).state ((p.goOn toString (.taking n b f)).frames ++ fs)
      (trace ++ (p.goOn toString (.taking n b f)).seen) := by
  have hm := h.maybeEmitEnd
  cases f with
  | reading v =>
    exact Inv.neutral hm.take_value (by simp [goOn, Readable.goOn, neutral, final, pushed])
  | fetching =>
    have hs : ({ p with source := p.source.maybeEmitEnd } : Iterating V).source.endPending = true →
        ({ p with source := p.source.maybeEmitEnd } : Iterating V).source.pending = [] →
        p.source.maybeEmitEnd.endEmitted = true ∨ p.source.maybeEmitEnd.endScheduled = true := by
      intro he hp
      obtain heq | ⟨he', hp', -⟩ := maybeEmitEnd_cases p.source
      · rw [heq] at he hp; exact scheduled_maybeEmitEnd he hp
      · exact scheduled_maybeEmitEnd he' hp'
    have hread : Inv E encoding (if b then ({ p with source := p.source.maybeEmitEnd } : Iterating V).onReadable n none
        else ({ p with source := p.source.maybeEmitEnd } : Iterating V).afterRead n none) fs trace := by
      cases b with
      | true => exact hm.give_up hs
      | false =>
        have hready := hm.source.ended
        rw [if_neg Bool.false_ne_true]
        unfold afterRead
        dsimp only
        split
        · next hover =>
          rw [Bool.or_eq_true] at hover
          refine hm.finish (hover.symm.imp_right (fun he => ?_))
          exact hready.symm.trans he
        · next hover =>
          rw [Bool.or_eq_true, not_or] at hover
          refine hm.wait ?_ hs
          rintro (hd | he)
          · exact hover.2 hd
          · exact hover.1 (hready.trans he)
    exact Inv.neutral hread (by simp [goOn, Readable.goOn, neutral, final, pushed])
  | _ => have := h.shape.usual _ mem_cons_self; cases this

theorem goOn_inv {f : Frame V} {fs : List (Frame V)}
    (h : Inv (emittedChunk toString encoding) encoding p (f :: fs) trace) :
    Inv (emittedChunk toString encoding) encoding (p.goOn toString f).state ((p.goOn toString f).frames ++ fs)
      (trace ++ (p.goOn toString f).seen) := by
  cases f with
  | source g =>
    obtain ⟨hpop, hc⟩ := h.pop rfl rfl
    by_cases hg : g = .destroyError
    · subst hg
      obtain ⟨e, he, hover⟩ := h.shape.closing mem_cons_self
      obtain hq | ⟨hov, hl⟩ := h.progress.quiet
      · rw [hq e he] at hover; cases hover
      · exact hpop.emitClose hc hov (eq_nil_iff_forall_not_mem.2 (fun n hn => not_mem_nil (hl n hn)))
    · exact hpop.lift hc (plain_goOn hpop.source hg)
  | taking n b g => exact taking_inv h
  | readable rest =>
    cases rest with
    | nil => exact (h.pop rfl rfl).1.neutral (forall_mem_nil _)
    | cons n rest =>
      unfold goOn take
      cases hp : p.source.pending with
      | nil => rw [read_empty hp]; exact (h.walk_empty hp).neutral (neutral_fetch _)
      | cons x xs =>
        have hready : Ready encoding (p.source.readChunk toString 0 x xs).state := ready_readChunk h.source hp
        have hwalk := h.walk_chunk hp hready rfl id rfl
        rw [read_chunk hp]
        rw [← h.source.encoding] at hwalk ⊢; exact hwalk.neutral (neutral_data _ _ _)
  | ended rest =>
    cases rest with
    | nil => exact (h.pop rfl rfl).1.neutral (forall_mem_nil _)
    | cons n rest =>
      have hg : (ended rest : Frame V) ≠ .source .destroyError := nofun
      have hv : ∀ v : Chunk V, IteratorResult.done ≠ .value v := fun _ => nofun
      have htell := h.tell (g := .ended rest) rfl rfl ⟨rfl, rfl⟩ rfl hg hv
      exact htell.neutral (forall_mem_nil _)
  | error e rest =>
    cases rest with
    | nil => exact (h.pop rfl rfl).1.neutral (forall_mem_nil _)
    | cons n rest =>
      have hg : (error e rest : Frame V) ≠ .source .destroyError := nofun
      have hv : ∀ v : Chunk V, IteratorResult.rejected e ≠ .value v := fun _ => nofun
      have htell := h.tell (g := .error e rest) rfl rfl ⟨rfl, rfl⟩ rfl hg hv
      exact htell.neutral (forall_mem_nil _)
  | returning => have := h.shape.usual _ mem_cons_self; cases this

theorem create_inv (objectMode autoDestroy destroyOnReturn : Bool) (highWaterMark : Nat) (encoding : Option BufferEncoding) :
    Inv E encoding (create (V := V) objectMode highWaterMark autoDestroy encoding destroyOnReturn).state [] [] := by
  refine ⟨⟨rfl, rfl, fun he => absurd rfl he, rfl, fun hs => ?_⟩, ⟨forall_mem_nil _, forall_mem_nil _, nofun⟩,
    ⟨[], [], rfl, nofun, fun ⟨_, hr, _⟩ => absurd hr not_mem_nil, rfl, nofun⟩,
    ⟨nodup_nil, nodup_nil, nodup_nil, nodup_nil, forall_mem_nil _, fun n hn => ?_, fun n hn => ?_, forall_mem_nil _⟩,
    ⟨nofun, .inl rfl, .inl (forall_mem_nil _), fun hne => absurd rfl hne, nofun⟩⟩
  · obtain hs | hs := hs <;> cases hs
  · simp [create, told] at hn
  · simp [Unsettled, create] at hn

theorem inv_run {objectMode autoDestroy destroyOnReturn : Bool} {highWaterMark : Nat} {encoding : Option BufferEncoding}
    {ls : List (Move (Call V))} (h : Run (program toString).step (fun c l => Domain c l ∧ Clear c l)
      (create objectMode highWaterMark autoDestroy encoding destroyOnReturn) ls c) :
    Inv (emittedChunk toString encoding) encoding c.state c.stack c.trace ∧ Announced c.state c.trace := by
  refine Reentrant.invariant
    (I := fun c => Inv (emittedChunk toString encoding) encoding c.state c.stack c.trace ∧ Announced c.state c.trace)
    (fun c k b hI hP ht hb => ?_) (fun c f fs hI hs => ?_) h
    ⟨create_inv objectMode autoDestroy destroyOnReturn highWaterMark encoding, nofun⟩
  · exact ⟨call_inv hI.1 hP.1 hP.2 ht hb, announced_call hI.2 hb⟩
  · rw [hs] at hI; exact ⟨goOn_inv hI.1, announced_goOn f hI.2⟩

theorem inOrder_of_inv (h : Inv E encoding c.state c.stack c.trace) : InOrder E c := by
  obtain ⟨vs, rest, ho⟩ := h.order; exact ⟨vs, rest, ho.results, ho.values, ho.chunks⟩

theorem noneHangs_of_inv (h : Inv E encoding c.state c.stack c.trace) (ha : Announced c.state c.trace) : NoneHangs c := by
  intro hs hnone
  obtain ⟨n, hn⟩ := mem_iff_getElem?.1 hnone
  have hplaces := h.places
  have hprogress := h.progress
  rw [hs] at hplaces hprogress
  have hl : n ∈ c.state.endListeners := by
    obtain ⟨hl, -⟩ | ht | ht := hplaces.placed n hn
    · exact hl
    · cases ht
    · cases ht
  have hquiet : ∀ e ∈ c.trace, final e = false := hprogress.quiet.resolve_right (fun hq => not_mem_nil (hq.2 n hl))
  refine ⟨?_, hquiet, fun he => ?_⟩
  · obtain hp | ⟨hall, -⟩ | ⟨k, rest, fs, x, hk, -⟩ := hprogress.buffer
    · exact hp
    · obtain ⟨b, v, fs, hk⟩ := hall n hn; cases hk
    · cases hk
  · obtain (hd | hend) | hsched | ⟨k, b, hf⟩ | hw := hprogress.due he (ne_nil_of_mem hl)
    · exact .inl hd
    · cases hquiet _ (ha hend)
    · exact .inr hsched
    · cases hf
    · exact absurd rfl hw

/-! ## The runs -/

/-- **Each chunk is the value of one `next`, in order, and no `next` stays pending without a reason**. -/
theorem iterates (toString : BufferEncoding → Bytes → List UInt16) (objectMode autoDestroy destroyOnReturn : Bool)
    (highWaterMark : Nat) (encoding : Option BufferEncoding) (ls : List (Move (Call V)))
    (c : Config (Iterating V) (Frame V) (Event V))
    (h : Run (program toString).step (fun c l => Domain c l ∧ Clear c l)
      (create objectMode highWaterMark autoDestroy encoding destroyOnReturn) ls c) :
    InOrder (emittedChunk toString encoding) c ∧ NoneHangs c := by
  obtain ⟨hinv, ha⟩ := inv_run h; exact ⟨inOrder_of_inv hinv, noneHangs_of_inv hinv ha⟩

/-- A `next` waits, gets the chunk that is pushed, and the next one is done. -/
theorem iterates_waiting : ∃ c : Config (Iterating Nat) (Frame Nat) (Event Nat),
    c.state.results = [some (.value (.other 7)), some .done] ∧ InOrder (emittedChunk (fun _ _ => []) none) c ∧ NoneHangs c := by
  have hhook : ∀ f ∈ ([] : List (Frame Nat)).head?, f.hook = true := nofun
  have h : Run (program (fun _ _ => [])).step (fun c l => Domain c l ∧ Clear c l)
      (create true 16 true none true : Config (Iterating Nat) (Frame Nat) (Event Nat))
      [.call .next, .ret, .call (.source (.push (some (.other 7)))), .ret, .ret, .ret, .ret, .call .next, .ret,
        .call (.source (.push none)), .ret, .ret, .ret, .ret, .call (.source (.checkpoint true)), .ret, .ret, .ret, .ret] _ :=
    .cons ⟨⟨hhook, trivial⟩, trivial⟩ rfl (.cons ⟨trivial, trivial⟩ rfl
      (.cons ⟨⟨hhook, trivial⟩, fun _ => ⟨nofun, fun _ => rfl⟩⟩ rfl (.cons ⟨trivial, trivial⟩ rfl (.cons ⟨trivial, trivial⟩ rfl
        (.cons ⟨trivial, trivial⟩ rfl (.cons ⟨trivial, trivial⟩ rfl (.cons ⟨⟨hhook, trivial⟩, trivial⟩ rfl
          (.cons ⟨trivial, trivial⟩ rfl (.cons ⟨⟨hhook, trivial⟩, fun _ _ => .inr (.inl nofun)⟩ rfl
            (.cons ⟨trivial, trivial⟩ rfl (.cons ⟨trivial, trivial⟩ rfl (.cons ⟨trivial, trivial⟩ rfl
              (.cons ⟨trivial, trivial⟩ rfl (.cons ⟨⟨hhook, trivial⟩, trivial⟩ rfl (.cons ⟨trivial, trivial⟩ rfl
                (.cons ⟨trivial, trivial⟩ rfl (.cons ⟨trivial, trivial⟩ rfl (.cons ⟨trivial, trivial⟩ rfl (.nil _)))))))))))))))))))
  exact ⟨_, rfl, iterates _ _ _ _ _ _ _ _ h⟩

/-- The chunk that `_read` pushes at once is there before the `next` listens, which then waits beside it. -/
theorem pushed_in_read_waits : ¬ ∀ (ls : List (Move (Call Nat))) (c : Config (Iterating Nat) (Frame Nat) (Event Nat)),
    Run (program (fun _ _ => [])).step Domain (create true 16 true none true) ls c →
      InOrder (emittedChunk (fun _ _ => []) none) c ∧ NoneHangs c := by
  intro h
  have hhook : ∀ f ∈ ([] : List (Frame Nat)).head?, f.hook = true := nofun
  have hread : ∀ f ∈ ([.taking 0 false .fetching] : List (Frame Nat)).head?, f.hook = true := by
    intro f hf
    cases hf; rfl
  have hrun : Run (program (fun _ _ => [])).step Domain (create true 16 true none true : Config (Iterating Nat) (Frame Nat) (Event Nat))
      [.call .next, .call (.source (.push (some (.other 7)))), .ret, .ret, .ret] _ :=
    .cons ⟨hhook, trivial⟩ rfl (.cons ⟨hread, trivial⟩ rfl (.cons trivial rfl (.cons trivial rfl (.cons trivial rfl (.nil _)))))
  have hempty := ((h _ _ hrun).2 rfl mem_cons_self).1; cases hempty

end NodeCompat.Stream.Iterating
