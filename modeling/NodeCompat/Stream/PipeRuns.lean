import NodeCompat.Stream.Pipe
import Mathlib.Data.List.Perm.Basic

/-!
# What the destinations of a `pipe` get

A destination owes a `'drain'` from a `write` that returned `false` to its next `'drain'`. As long as the source is resumed
only when none owes one, it stays paused while one does (`Orderly.held`), and no chunk but the one that was refused is delivered
(`NoFurther`). As long as no chunk is emitted while another is on its way to some destination, each gets what was emitted while
it was piped, in order: `owed` is what the walk under way has still to deliver.

`pipe` asks for neither (`Clear`): the first `'drain'` resumes the source, whoever else owes one.
-/

namespace NodeCompat.Stream.Piping

open List Option Readable

variable {V : Type} {toString : BufferEncoding → Bytes → List UInt16} {accepts : Nat → Bool} {p : Piping V}
  {stack : List (Frame V)} {trace : List (Event V)} {t : Nat}

/-! ## What is seen -/

def refusedStep (t : Nat) (ns : List Nat) : Event V → List Nat
  | .answered t' n accepted => if t' = t ∧ accepted = false then ns ++ [n] else ns
  | .drained t' => if t' = t then [] else ns
  | _ => ns

/-- The chunks for which the `write` of a destination returned `false`, since its last `'drain'`. -/
def refused (t : Nat) (es : List (Event V)) : List Nat := es.foldl (refusedStep t) []

/-- No destination owes a `'drain'`. -/
def NoneOwes (es : List (Event V)) : Prop := ∀ t, refused t es = []

/-- A chunk is delivered only while none owes a `'drain'`, but for that chunk. -/
def NoFurther (pre : List (Event V)) : Event V → Prop
  | .delivered _ n _ => ∀ t, ∀ m ∈ refused t pre, m = n
  | _ => True

def deliveredTo (t : Nat) (es : List (Event V)) : List (Nat × Chunk V) := es.filterMap fun
    | .delivered t' n value => if t' = t then some (n, value) else none
    | _ => none

/-- Is the destination piped to, and what was emitted while it was? -/
def duringStep (t : Nat) (s : Bool × List (Nat × Chunk V)) : Event V → Bool × List (Nat × Chunk V)
  | .piped t' => if t' = t then (true, s.2) else s
  | .unpiped t' => if t' = t then (false, s.2) else s
  | .emitted n value => if s.1 then (true, s.2 ++ [(n, value)]) else s
  | _ => s

def during (t : Nat) (es : List (Event V)) : Bool × List (Nat × Chunk V) := es.foldl (duringStep t) (false, [])

/-! ## The frames -/

/-- The walk of an `emit('data')`: its chunk and the listeners to come. -/
def Frame.walk : Frame V → Option (Nat × Chunk V × List Pipe)
  | .delivering n value rest | .writing _ _ n value rest | .pausing _ n value rest => some (n, value, rest)
  | _ => none

/-- What a walk has still to deliver to a destination. -/
def Frame.owed (t : Nat) (f : Frame V) : List (Nat × Chunk V) :=
  match f.walk with
  | some (n, value, rest) => (rest.filter (fun q => q.target == t)).map (fun _ => (n, value))
  | none => []

/-- The walk has listeners to come. -/
def Frame.unfinished (f : Frame V) : Prop := ∃ n value q rest, f.walk = some (n, value, q :: rest)

def Frame.pipe : Frame V → Option Pipe
  | .piping q => some q
  | _ => none

def owed (t : Nat) (stack : List (Frame V)) : List (Nat × Chunk V) := stack.flatMap (Frame.owed t)

/-! ## The condition -/

/-- The move has the source emit a chunk. -/
def Emits (c : Config (Piping V) (Frame V) (Event V)) : Move (Call V) → Prop
  | .call (.source (.read _)) => c.state.source.pending ≠ []
  | .ret => c.state.source.paused = false ∧ c.state.source.pending ≠ [] ∧ ∃ f fs, c.stack = .source f :: fs ∧
      (f = .pushed ∨ f = .resumed ∨ ∃ ret, f = .draining ret)
  | _ => False

/-- The move resumes the source, or reads from it, whether it is paused or not. -/
def Forces (c : Config (Piping V) (Frame V) (Event V)) : Move (Call V) → Prop
  | .call (.source .resume) => c.state.source.destroyed = false
  | .call (.source (.read _)) => c.state.source.pending ≠ []
  | .ret => c.state.source.destroyed = false ∧ ∃ n fs, c.stack = .draining (n + 1) :: fs
  | _ => False

/-- The move unpipes such a destination, if it is there. -/
def Unpipes (c : Config (Piping V) (Frame V) (Event V)) (q : Pipe) : Move (Call V) → Prop
  | .call (.unpipe target) => matchesTarget target q = true
  | .ret => ∃ target index fs, c.stack = .unpiping target index :: fs ∧ matchesTarget target q = true
  | _ => False

/-- What `pipe` does not ask for. -/
structure Clear (c : Config (Piping V) (Frame V) (Event V)) (l : Move (Call V)) : Prop where
  -- the source is resumed, or read from, when no destination owes a `'drain'`
  drained : Forces c l → NoneOwes c.trace
  -- it does not emit while a chunk is on its way, or a `'pipe'` under way
  apart : Emits c l → ∀ f ∈ c.stack, ¬ f.unfinished ∧ f.pipe = none
  -- a destination is piped to once at a time
  once : ∀ t ends, l = .call (.pipe t ends) → ∀ q ∈ c.state.targets, q.target ≠ t
  -- and is not unpiped in its own `'pipe'`
  kept : ∀ f ∈ c.stack, ∀ q, f.pipe = some q → ¬ Unpipes c q l

/-! ## Blocks of the source -/

/-- Paused, and a listener for `'data'` does not resume it. -/
def Held (r : Readable V) : Prop := r.paused = true ∧ r.readableFlowing = some false

/-- What a block of the source means for its destinations: it emits a chunk only when `emits`, and a paused source stays so. -/
structure SourceBlock (r : Readable V) (emits : Prop) (b : Readable.Result V) : Prop where
  held : Held r → Held b.state
  emits : emission b.seen ≠ none → emits

section

open Readable

variable {r : Readable V} {emits : Prop}

variable (ret : Return)

theorem SourceBlock.refl : SourceBlock r emits { state := r } := ⟨id, fun h => absurd rfl h⟩

theorem maybeEmitEnd_held (h : Held r) : Held r.maybeEmitEnd := by
  unfold maybeEmitEnd
  split <;> exact h

theorem returned_block : SourceBlock r emits (r.returned ret) := by
  cases ret <;> exact ⟨id, fun h => absurd rfl h⟩

theorem maybeEmitEnd_block : SourceBlock r emits (r.maybeEmitEnd.returned ret) := by
  have hb : SourceBlock r.maybeEmitEnd emits (r.maybeEmitEnd.returned ret) := returned_block ret
  exact ⟨fun h => hb.held (maybeEmitEnd_held h), hb.emits⟩

theorem destroy_block (error : Option StreamError) (ret : Return) : SourceBlock r emits (r.destroy error ret) := by
  unfold destroy
  split
  · exact returned_block ret
  · exact ⟨id, fun h => absurd rfl h⟩

theorem errorOrDestroy_block (error : StreamError) (ret : Return) : SourceBlock r emits (r.errorOrDestroy error ret) := by
  unfold errorOrDestroy
  split
  · exact returned_block ret
  · split
    · exact destroy_block _ _
    · exact ⟨id, fun h => absurd rfl h⟩

theorem drainFlowing_block (he : r.paused = false ∧ r.pending ≠ [] → emits) :
    SourceBlock r emits (r.drainFlowing toString ret) := by
  unfold drainFlowing
  split
  · next chunk rest hp hq =>
    refine ⟨fun h => ?_, fun _ => he ⟨hp, by simp [hq]⟩⟩
    rw [h.1] at hp; cases hp
  · exact maybeEmitEnd_block ret

theorem pushEnd_block : SourceBlock r emits (r.pushEnd ret) := by
  unfold pushEnd
  split
  · exact returned_block ret
  · exact ⟨id, fun h => absurd rfl h⟩

theorem push_block (chunk : Option (Chunk V)) : SourceBlock r emits (r.push chunk) := by
  unfold push
  split
  · exact returned_block _
  · split
    · cases chunk with
      | some chunk => exact errorOrDestroy_block _ _
      | none => exact returned_block _
    · cases chunk with
      | none => exact pushEnd_block _
      | some chunk => exact ⟨id, fun h => absurd rfl h⟩

theorem unshift_block (chunk : Option (Chunk V)) : SourceBlock r emits (r.unshift chunk) := by
  unfold unshift
  cases chunk with
  | none => exact .refl
  | some chunk =>
    dsimp only
    split
    · exact .refl
    · exact ⟨id, fun h => absurd rfl h⟩

theorem read_block (size : Nat) : SourceBlock r (r.pending ≠ []) (r.read toString size) := by
  unfold Readable.read
  split
  · exact ⟨id, fun h => absurd rfl h⟩
  · next chunk rest hq =>
    split <;> exact ⟨id, fun _ => by simp [hq]⟩

theorem checkpoint_block (side : Bool) : SourceBlock r emits (r.checkpoint side) := by
  unfold checkpoint
  split
  · exact .refl
  · split <;> exact ⟨id, fun h => absurd rfl h⟩

theorem newListenerAdded_block : SourceBlock r emits r.newListenerAdded := by
  unfold newListenerAdded
  split
  · exact .refl
  · next hf =>
    unfold resume
    split
    · exact .refl
    · exact ⟨fun h => absurd h.2 hf, fun h => absurd rfl h⟩

theorem resume_emission : emission r.resume.seen = none := by
  unfold resume
  split <;> rfl

theorem call_block {k : Stream.Call V} {b : Readable.Result V} (hk : k ≠ .resume)
    (hb : r.call toString k = some b) : SourceBlock r (∃ size, k = .read size ∧ r.pending ≠ []) b := by
  cases k with
  | push chunk => cases hb; exact push_block chunk
  | pushEnd => cases hb; exact pushEnd_block _
  | unshift chunk => cases hb; exact unshift_block chunk
  | pause => cases hb; exact ⟨fun _ => ⟨rfl, rfl⟩, fun h => absurd rfl h⟩
  | resume => exact absurd rfl hk
  | onData => cases hb; exact newListenerAdded_block
  | read size =>
    cases hb
    have h : SourceBlock r (r.pending ≠ []) (r.read toString size) := read_block size
    exact ⟨h.held, fun he => ⟨size, rfl, h.emits he⟩⟩
  | setEncoding encoding => cases hb; exact ⟨id, fun h => absurd rfl h⟩
  | destroy error => cases hb; exact destroy_block _ _
  | destroyed error =>
    unfold Readable.call at hb
    dsimp only at hb
    split at hb
    · cases hb
      cases error <;> exact ⟨id, fun h => absurd rfl h⟩
    · cases hb
  | checkpoint side => cases hb; exact checkpoint_block side

theorem goOn_block (f : Stream.Frame V) : SourceBlock r
    (r.paused = false ∧ r.pending ≠ [] ∧ (f = .pushed ∨ f = .resumed ∨ ∃ ret, f = .draining ret)) (r.goOn toString f) := by
  cases f with
  | pushed =>
    unfold Readable.goOn
    dsimp only
    split
    · exact returned_block _
    · exact drainFlowing_block _ (fun h => ⟨h.1, h.2, .inl rfl⟩)
  | endPushed ret =>
    unfold Readable.goOn
    dsimp only
    split
    · exact returned_block _
    · exact maybeEmitEnd_block _
  | draining ret => exact drainFlowing_block _ (fun h => ⟨h.1, h.2, .inr (.inr ⟨ret, rfl⟩)⟩)
  | resumed => exact drainFlowing_block _ (fun h => ⟨h.1, h.2, .inr (.inl rfl)⟩)
  | fetching | reading value => exact ⟨maybeEmitEnd_held, fun h => absurd rfl h⟩
  | ended side =>
    unfold Readable.goOn
    dsimp only
    split
    · exact destroy_block _ _
    · exact .refl
  | errorEmitted ret | destroying ret => exact returned_block _
  | destroyError => exact ⟨id, fun h => absurd rfl h⟩
  | paused | closing => exact .refl

end

/-! ## The invariant -/

variable {value : Chunk V} {f : Frame V} {rest : List Pipe} {number : Nat} {q : Pipe}

structure Orderly (p : Piping V) (stack : List (Frame V)) (trace : List (Event V)) : Prop where
  -- while a destination owes a `'drain'`, the source is paused
  held : ∀ t, refused t trace ≠ [] → Held p.source
  -- while a chunk is on its way, only that chunk was refused
  live : ∀ f ∈ stack, ∀ n value q rest, f.walk = some (n, value, q :: rest) → ∀ t, ∀ m ∈ refused t trace, m = n
  -- a walk is begun when none has listeners to come
  one : stack.Pairwise (fun f g => f.walk ≠ none → ¬ g.unfinished)
  sent : ∀ t, deliveredTo t trace ++ owed t stack = (during t trace).2
  piped : ∀ t, (during t trace).1 = true ↔ t ∈ p.targets.map Pipe.target
  listeners : p.targets.Perm (p.dataListeners ++ stack.filterMap Frame.pipe)
  distinct : (p.targets.map Pipe.target).Nodup
  further : EachAfter NoFurther trace

theorem refused_snoc (t : Nat) (es : List (Event V)) (e : Event V) :
    refused t (es ++ [e]) = refusedStep t (refused t es) e := foldl_concat ..

theorem during_snoc (t : Nat) (es : List (Event V)) (e : Event V) :
    during t (es ++ [e]) = duringStep t (during t es) e := foldl_concat ..

theorem deliveredTo_snoc (t : Nat) (es : List (Event V)) (e : Event V) :
    deliveredTo t (es ++ [e]) = deliveredTo t es ++ deliveredTo t [e] := filterMap_append

theorem owed_cons (t : Nat) (f : Frame V) (fs : List (Frame V)) : owed t (f :: fs) = f.owed t ++ owed t fs := rfl

theorem Frame.owed_finished (h : ¬ f.unfinished) (t : Nat) : f.owed t = [] := by
  unfold Frame.owed
  split
  · next n value rest hw =>
    cases rest with
    | nil => rfl
    | cons q rest => exact absurd ⟨n, value, q, rest, hw⟩ h
  · rfl

theorem owed_finished (h : ∀ f ∈ stack, ¬ f.unfinished) (t : Nat) : owed t stack = [] :=
  flatMap_eq_nil_iff.2 (fun f hf => Frame.owed_finished (h f hf) t)

/-- Events that concern no chunk, no `'drain'` and no pipe. -/
def Event.neutral : Event V → Bool
  | .answered _ _ accepted => accepted
  | .ended _ | .typeError => true
  | _ => false

theorem Orderly.neutral {e : Event V} (he : e.neutral = true) (h : Orderly p stack trace) :
    Orderly p stack (trace ++ [e]) := by
  have hr : ∀ t, refused t (trace ++ [e]) = refused t trace := by
    intro t
    rw [refused_snoc]
    cases e with
    | answered t' n accepted => obtain rfl : accepted = true := he; simp [refusedStep]
    | ended | typeError => rfl
    | _ => cases he
  have hd : ∀ t, during t (trace ++ [e]) = during t trace := by
    intro t
    rw [during_snoc]
    cases e <;> first | rfl | cases he
  have hs : ∀ t, deliveredTo t (trace ++ [e]) = deliveredTo t trace := by
    intro t
    rw [deliveredTo_snoc]
    cases e <;> first | exact append_nil _ | cases he
  have hn : NoFurther trace e := by
    cases e with
    | delivered t n value => cases he
    | _ => trivial
  refine ⟨fun t => ?_, fun f hf n value q rest hw t => ?_, h.one, fun t => ?_, fun t => ?_, h.listeners, h.distinct,
    h.further.snoc hn⟩
  · rw [hr]; exact h.held t
  · rw [hr]; exact h.live f hf n value q rest hw t
  · rw [hs, hd]; exact h.sent t
  · rw [hd]; exact h.piped t

theorem Orderly.same {f g : Frame V} (h : Orderly p (f :: stack) trace) (hw : g.walk = f.walk) (hp : g.pipe = f.pipe) :
    Orderly p (g :: stack) trace := by
  have ho : ∀ t, g.owed t = f.owed t := fun t => by unfold Frame.owed; rw [hw]
  obtain ⟨hhead, htail⟩ := pairwise_cons.1 h.one
  refine ⟨h.held, fun f' hf => ?_, pairwise_cons.2 ⟨fun f' hf => ?_, htail⟩, fun t => ?_, h.piped, ?_, h.distinct, h.further⟩
  · obtain rfl | hf := mem_cons.1 hf
    · rw [hw]; exact h.live f mem_cons_self
    · exact h.live f' (mem_cons_of_mem _ hf)
  · rw [hw]; exact hhead f' hf
  · rw [owed_cons, ho, ← owed_cons]; exact h.sent t
  · rw [filterMap_cons, hp, ← filterMap_cons]; exact h.listeners

theorem orderly_plain (hw : f.walk = none) (hp : f.pipe = none) :
    Orderly p (f :: stack) trace ↔ Orderly p stack trace := by
  have ho : ∀ t, f.owed t = [] := fun t => by unfold Frame.owed; rw [hw]
  constructor
  · intro h
    refine ⟨h.held, fun g hg => h.live g (mem_cons_of_mem _ hg), (pairwise_cons.1 h.one).2, fun t => ?_, h.piped, ?_,
      h.distinct, h.further⟩
    · have hs := h.sent t; rw [owed_cons, ho] at hs; exact hs
    · have hl := h.listeners; rw [filterMap_cons, hp] at hl; exact hl
  · intro h
    refine ⟨h.held, fun g hg n value q rest hgw => ?_, pairwise_cons.2 ⟨fun g _ hne => absurd hw hne, h.one⟩, fun t => ?_,
      h.piped, ?_, h.distinct, h.further⟩
    · obtain rfl | hg := mem_cons.1 hg
      · rw [hw] at hgw; cases hgw
      · exact h.live g hg n value q rest hgw
    · rw [owed_cons, ho]; exact h.sent t
    · rw [filterMap_cons, hp]; exact h.listeners

theorem Orderly.sources (fs : List (Stream.Frame V)) (h : Orderly p stack trace) :
    Orderly p (fs.map Frame.source ++ stack) trace := by
  induction fs with
  | nil => exact h
  | cons f fs ih => exact (orderly_plain rfl rfl).2 ih

theorem Orderly.of_source {p' : Piping V} (ht : p'.targets = p.targets) (hd : p'.dataListeners = p.dataListeners)
    (hs : ∀ t, refused t trace ≠ [] → Held p'.source) (h : Orderly p stack trace) : Orderly p' stack trace := by
  refine ⟨hs, h.live, h.one, h.sent, ?_, ?_, ?_, h.further⟩
  · rw [ht]; exact h.piped
  · rw [ht, hd]; exact h.listeners
  · rw [ht]; exact h.distinct

theorem filter_target {qs : List Pipe} (hn : (qs.map Pipe.target).Nodup) (t n : Nat) (value : Chunk V) :
    (qs.filter (fun q => q.target == t)).map (fun _ => (n, value)) = if t ∈ qs.map Pipe.target then [(n, value)] else [] := by
  induction qs with
  | nil => rfl
  | cons q qs ih =>
    obtain ⟨hq, hn⟩ := nodup_cons.1 hn
    by_cases ht : q.target = t
    · subst ht; rw [filter_cons_of_pos (by simp), map_cons, ih hn, if_neg hq, if_pos (by simp)]
    · rw [filter_cons_of_neg (by simpa using ht), ih hn]; simp [Ne.symm ht]

/-- **The source emits a chunk**, when no walk has listeners to come and no `'pipe'` is under way. -/
theorem Orderly.emit {r : Readable V} (fs : List (Stream.Frame V)) (howes : NoneOwes trace)
    (hstack : ∀ f ∈ stack, ¬ f.unfinished ∧ f.pipe = none) (h : Orderly p stack trace) :
    Orderly { p with source := r, emitted := p.emitted + 1 }
      (.delivering p.emitted value p.dataListeners :: (fs.map Frame.source ++ stack)) (trace ++ [.emitted p.emitted value]) := by
  have hr : ∀ t, refused t (trace ++ [.emitted p.emitted value]) = [] := by
    intro t; rw [refused_snoc]; exact howes t
  have hpipes : stack.filterMap Frame.pipe = [] := filterMap_eq_nil_iff.2 (fun f hf => (hstack f hf).2)
  have hperm : p.targets.Perm p.dataListeners := by
    have hl := h.listeners; rwa [hpipes, append_nil] at hl
  have hs := h.sources fs
  have hfin : ∀ f ∈ fs.map Frame.source ++ stack, ¬ f.unfinished := by
    intro f hf
    obtain hf | hf := mem_append.1 hf
    · obtain ⟨g, -, rfl⟩ := List.mem_map.1 hf
      rintro ⟨n, value, q, rest, hw⟩; cases hw
    · exact (hstack f hf).1
  refine ⟨fun t hne => absurd (hr t) hne, fun f hf n value q rest hw t m hm => ?_, pairwise_cons.2 ⟨fun g hg _ => hfin g hg,
    hs.one⟩, fun t => ?_, fun t => ?_, hs.listeners, h.distinct, h.further.snoc trivial⟩
  · rw [hr] at hm; cases hm
  · have hsent := hs.sent t
    rw [owed_finished hfin, append_nil] at hsent
    have hnd : (p.dataListeners.map Pipe.target).Nodup := (hperm.map Pipe.target).nodup h.distinct
    have hmem : t ∈ p.dataListeners.map Pipe.target ↔ (during t trace).1 = true := by
      rw [h.piped t]; exact ((hperm.map Pipe.target).mem_iff).symm
    have howed : (Frame.delivering p.emitted value p.dataListeners : Frame V).owed t =
        if (during t trace).1 = true then [(p.emitted, value)] else [] := by
      rw [← if_congr hmem rfl rfl]; exact filter_target hnd t p.emitted value
    rw [owed_cons, owed_finished hfin, append_nil, howed, deliveredTo_snoc, during_snoc]
    unfold duringStep deliveredTo
    rw [filterMap_cons, filterMap_nil, append_nil]
    split
    · next hp => rw [← hsent]; rfl
    · next hp => rw [append_nil, ← hsent]; rfl
  · rw [during_snoc]
    unfold duringStep
    dsimp only
    split
    · next hp => exact ⟨fun _ => (h.piped t).1 hp, fun _ => rfl⟩
    · exact h.piped t

/-- **A block of the source.** -/
theorem Orderly.lift {b : Readable.Result V} (hheld : ∀ t, refused t trace ≠ [] → Held b.state)
    (hemits : emission b.seen ≠ none → NoneOwes trace ∧ ∀ f ∈ stack, ¬ f.unfinished ∧ f.pipe = none)
    (h : Orderly p stack trace) :
    Orderly (p.lift b).state ((p.lift b).frames ++ stack) (trace ++ (p.lift b).seen) := by
  unfold Piping.lift
  split
  · next value he =>
    obtain ⟨howes, hstack⟩ := hemits (by simp [he]); exact h.emit b.frames howes hstack
  · split
    · have hq : Orderly { p with source := b.state, endListeners := [] } stack trace :=
        Orderly.of_source (p := p) rfl rfl hheld h
      rw [append_nil]; exact (orderly_plain rfl rfl).2 (hq.sources b.frames)
    · have hq : Orderly { p with source := b.state } stack trace := Orderly.of_source (p := p) rfl rfl hheld h
      rw [append_nil]; exact hq.sources b.frames

/-! ## The walks -/

theorem owed_walk {n : Nat} (hw : f.walk = some (n, value, rest)) (t : Nat) :
    f.owed t = (rest.filter (fun q => q.target == t)).map (fun _ => (n, value)) := by
  unfold Frame.owed; rw [hw]

theorem Orderly.below (h : Orderly p (f :: stack) trace) (hw : f.walk ≠ none) : ∀ g ∈ stack, ¬ g.unfinished :=
  fun g hg => (pairwise_cons.1 h.one).1 g hg hw

/-- **A chunk is delivered.** -/
theorem Orderly.deliver (h : Orderly p (.delivering number value (q :: rest) :: stack) trace) :
    Orderly { p with writes := p.writes + 1 } (.writing p.writes q number value rest :: stack)
      (trace ++ [.delivered q.target number value]) := by
  have hr : ∀ t, refused t (trace ++ [.delivered q.target number value]) = refused t trace := fun t => refused_snoc t _ _
  have hd : ∀ t, during t (trace ++ [.delivered q.target number value]) = during t trace := fun t => during_snoc t _ _
  obtain ⟨hhead, htail⟩ := pairwise_cons.1 h.one
  have hlive := h.live _ mem_cons_self number value q rest rfl
  refine ⟨fun t => ?_, fun f hf n v q' rest' hw t m hm => ?_, pairwise_cons.2 ⟨fun g hg _ => hhead g hg (some_ne_none _), htail⟩,
    fun t => ?_, fun t => ?_, h.listeners, h.distinct, h.further.snoc hlive⟩
  · rw [hr]; exact h.held t
  · rw [hr] at hm
    obtain rfl | hf := mem_cons.1 hf
    · cases hw; exact hlive t m hm
    · exact absurd ⟨n, v, q', rest', hw⟩ (h.below (some_ne_none _) f hf)
  · have hs := h.sent t
    rw [owed_cons, owed_finished (h.below (some_ne_none _)), append_nil, owed_walk rfl] at hs
    rw [owed_cons, owed_finished (h.below (some_ne_none _)), append_nil, owed_walk rfl, hd, ← hs, deliveredTo_snoc, append_assoc]
    by_cases ht : q.target = t <;> simp [deliveredTo, ht]
  · rw [hd]; exact h.piped t

/-- **A `write` returns `false`**, and the source is paused. -/
theorem Orderly.refuse {r : Readable V}
    (hw : f.walk = some (number, value, rest)) (hr : Held r) (h : Orderly p (f :: stack) trace) :
    Orderly { p with source := r } (f :: stack) (trace ++ [.answered t number false]) := by
  have hd : ∀ t', during t' (trace ++ [.answered t number false]) = during t' trace := fun t' => during_snoc t' _ _
  have hs : ∀ t', deliveredTo t' (trace ++ [.answered t number false]) = deliveredTo t' trace := by
    intro t'; rw [deliveredTo_snoc]; exact append_nil _
  refine ⟨fun _ _ => hr, fun g hg n v q rest' hgw t' m hm => ?_, h.one, fun t' => ?_, fun t' => ?_, h.listeners, h.distinct,
    h.further.snoc trivial⟩
  · obtain rfl | hg := mem_cons.1 hg
    · rw [hw] at hgw
      cases hgw
      rw [refused_snoc] at hm
      unfold refusedStep at hm
      dsimp only at hm
      split at hm
      · obtain hm | hm := mem_append.1 hm
        · exact h.live g mem_cons_self _ _ _ _ hw t' m hm
        · exact mem_singleton.1 hm
      · exact h.live g mem_cons_self _ _ _ _ hw t' m hm
    · exact absurd ⟨n, v, q, rest', hgw⟩ (h.below (by simp [hw]) g hg)
  · rw [hs, hd]; exact h.sent t'
  · rw [hd]; exact h.piped t'

theorem deliver_orderly (h : Orderly p (.delivering number value rest :: stack) trace) :
    Orderly (p.deliver number value rest).state ((p.deliver number value rest).frames ++ stack)
      (trace ++ (p.deliver number value rest).seen) := by
  cases rest with
  | nil =>
    have hdone : ∀ t, (Frame.delivering number value [] : Frame V).owed t = [] := fun _ => rfl
    rw [show trace ++ (p.deliver number value []).seen = trace from append_nil _]
    refine ⟨h.held, fun f hf => h.live f (mem_cons_of_mem _ hf), (pairwise_cons.1 h.one).2, fun t => ?_, h.piped,
      h.listeners, h.distinct, h.further⟩
    have hs := h.sent t; rw [owed_cons, hdone] at hs; exact hs
  | cons q rest => exact h.deliver

theorem answer_orderly {n : Nat} (accepted : Bool)
    (h : Orderly p (.writing n q number value rest :: stack) trace) :
    Orderly (p.answer accepted q number value rest).state ((p.answer accepted q number value rest).frames ++ stack)
      (trace ++ (p.answer accepted q number value rest).seen) := by
  cases accepted with
  | true =>
    have hs : Orderly p (.delivering number value rest :: stack) trace := h.same rfl rfl; exact hs.neutral rfl
  | false =>
    have hs : Orderly p (.pausing q number value rest :: stack) trace := h.same rfl rfl
    have hr : Held { p.source with paused := true, readableFlowing := some false } := ⟨rfl, rfl⟩
    exact (orderly_plain rfl rfl).2 (hs.refuse rfl hr)

/-! ## `'drain'`, `pipe` and `unpipe` -/

theorem drain_orderly (h : Orderly p stack trace) :
    Orderly (p.drain t).state ((p.drain t).frames ++ stack) (trace ++ (p.drain t).seen) := by
  have hd : ∀ t', during t' (trace ++ [.drained t]) = during t' trace := fun t' => during_snoc t' _ _
  have hs : ∀ t', deliveredTo t' (trace ++ [.drained t]) = deliveredTo t' trace := by
    intro t'; rw [deliveredTo_snoc]; exact append_nil _
  have hr : ∀ t', refused t' (trace ++ [.drained t]) ⊆ refused t' trace := by
    intro t'
    rw [refused_snoc]
    unfold refusedStep
    dsimp only
    split
    · exact nil_subset _
    · exact Subset.refl _
  refine (orderly_plain rfl rfl).2 ⟨fun t' hne => h.held t' (fun hnil => hne ?_), fun f hf n value q rest hw t' m hm =>
    h.live f hf n value q rest hw t' m (hr t' hm), h.one, fun t' => ?_, fun t' => ?_, h.listeners, h.distinct,
    h.further.snoc trivial⟩
  · exact eq_nil_of_subset_nil (hnil ▸ hr t')
  · show deliveredTo t' (trace ++ [.drained t]) ++ owed t' stack = (during t' (trace ++ [.drained t])).2
    rw [hs, hd]; exact h.sent t'
  · show (during t' (trace ++ [.drained t])).1 = true ↔ _; rw [hd]; exact h.piped t'

theorem pipe_orderly {ends : Bool} (hnew : ∀ q ∈ p.targets, q.target ≠ t) (h : Orderly p stack trace) :
    Orderly (p.pipe t ends).state ((p.pipe t ends).frames ++ stack) (trace ++ (p.pipe t ends).seen) := by
  have hr : ∀ t', refused t' (trace ++ [.piped t]) = refused t' trace := fun t' => refused_snoc t' _ _
  have hs : ∀ t', deliveredTo t' (trace ++ [.piped t]) = deliveredTo t' trace := by
    intro t'; rw [deliveredTo_snoc]; exact append_nil _
  have hd : ∀ t', during t' (trace ++ [.piped t]) = ((decide (t = t') || (during t' trace).1), (during t' trace).2) := by
    intro t'
    rw [during_snoc]
    unfold duringStep
    dsimp only
    split <;> next ht => simp [ht]
  refine ⟨fun t' => ?_, fun f hf n value q rest hw t' m hm => ?_, pairwise_cons.2 ⟨fun g _ hne => absurd rfl hne, h.one⟩,
    fun t' => ?_, fun t' => ?_, ?_, ?_, h.further.snoc trivial⟩
  · show refused t' (trace ++ [.piped t]) ≠ [] → _; rw [hr]; exact h.held t'
  · have hm' : m ∈ refused t' trace := hr t' ▸ hm
    obtain rfl | hf := mem_cons.1 hf
    · cases hw
    · exact h.live f hf n value q rest hw t' m hm'
  · show deliveredTo t' (trace ++ [.piped t]) ++ owed t' stack = (during t' (trace ++ [.piped t])).2
    rw [hs, hd]; exact h.sent t'
  · show (during t' (trace ++ [.piped t])).1 = true ↔ t' ∈ (p.targets ++ [(⟨p.pipes, t, ends⟩ : Pipe)]).map Pipe.target
    have hp := h.piped t'
    rw [hd, map_append, mem_append, ← hp, Bool.or_eq_true, decide_eq_true_iff]
    exact or_comm.trans (or_congr_right (eq_comm.trans mem_singleton.symm))
  · show (p.targets ++ [(⟨p.pipes, t, ends⟩ : Pipe)]).Perm
      (p.dataListeners ++ (⟨p.pipes, t, ends⟩ : Pipe) :: stack.filterMap Frame.pipe)
    exact (perm_append_comm.trans (h.listeners.cons _)).trans perm_middle.symm
  · show ((p.targets ++ [(⟨p.pipes, t, ends⟩ : Pipe)]).map Pipe.target).Nodup
    rw [map_append]
    refine nodup_append.2 ⟨h.distinct, pairwise_singleton _ _, fun t' ht t'' ht' => ?_⟩
    obtain ⟨q, hq, rfl⟩ := List.mem_map.1 ht
    obtain rfl : t'' = t := mem_singleton.1 ht'; exact hnew q hq

theorem Orderly.listen (h : Orderly p (.piping q :: stack) trace) :
    Orderly { p with dataListeners := p.dataListeners ++ [q] } stack trace := by
  refine ⟨h.held, fun f hf => h.live f (mem_cons_of_mem _ hf), (pairwise_cons.1 h.one).2, h.sent, h.piped, ?_,
    h.distinct, h.further⟩
  rw [append_assoc]; exact h.listeners

/-- **A destination is unpiped**, whose `'pipe'` is not under way. -/
theorem Orderly.unpipe {index : Nat} (hq : p.targets[index]? = some q)
    (hnot : ∀ f ∈ stack, f.pipe ≠ some q) (h : Orderly p stack trace) :
    Orderly
      { p with
        targets := p.targets.eraseIdx index
        dataListeners := p.dataListeners.erase q
        endListeners := p.endListeners.erase q }
      stack (trace ++ [.unpiped q.target]) := by
  have hr : ∀ t', refused t' (trace ++ [.unpiped q.target]) = refused t' trace := fun t' => refused_snoc t' _ _
  have hs : ∀ t', deliveredTo t' (trace ++ [.unpiped q.target]) = deliveredTo t' trace := by
    intro t'; rw [deliveredTo_snoc]; exact append_nil _
  have hd : ∀ t', during t' (trace ++ [.unpiped q.target]) =
      ((!decide (q.target = t') && (during t' trace).1), (during t' trace).2) := by
    intro t'
    rw [during_snoc]
    unfold duringStep
    dsimp only
    split <;> next ht => simp [ht]
  obtain ⟨hlt, hget⟩ := List.getElem?_eq_some_iff.1 hq
  have hperm : p.targets.Perm (q :: p.targets.eraseIdx index) := by
    rw [← hget]; exact (getElem_cons_eraseIdx_perm hlt).symm
  have hmem : q ∈ p.dataListeners := by
    have hin := h.listeners.mem_iff.1 (mem_of_getElem? hq)
    obtain hin | hin := mem_append.1 hin
    · exact hin
    · obtain ⟨f, hf, hfq⟩ := mem_filterMap.1 hin; exact absurd hfq (hnot f hf)
  have hnodup := (hperm.map Pipe.target).nodup h.distinct
  rw [map_cons, nodup_cons] at hnodup
  refine ⟨fun t' => ?_, fun f hf n value q' rest hw t' m hm => ?_, h.one, fun t' => ?_, fun t' => ?_, ?_, hnodup.2,
    h.further.snoc trivial⟩
  · rw [hr]; exact h.held t'
  · rw [hr] at hm; exact h.live f hf n value q' rest hw t' m hm
  · rw [hs, hd]; exact h.sent t'
  · have hp := h.piped t'
    have hm := (hperm.map Pipe.target).mem_iff (a := t')
    rw [map_cons, mem_cons] at hm
    rw [hd, Bool.and_eq_true, hp, hm]
    constructor
    · rintro ⟨hne, rfl | hin⟩
      · simp at hne
      · exact hin
    · intro hin
      refine ⟨?_, .inr hin⟩
      have hne : q.target ≠ t' := fun heq => hnodup.1 (heq ▸ hin)
      simpa using hne
  · have hl : (q :: p.targets.eraseIdx index).Perm (q :: (p.dataListeners.erase q ++ stack.filterMap Frame.pipe)) :=
      (hperm.symm.trans h.listeners).trans ((perm_cons_erase hmem).append_right _)
    exact hl.cons_inv

theorem unpipeFrom_orderly {target : Option Nat} (hnot : ∀ f ∈ stack, ∀ q, f.pipe = some q → matchesTarget target q ≠ true)
    (h : Orderly p stack trace) (index : Nat) :
    Orderly (p.unpipeFrom target index).state ((p.unpipeFrom target index).frames ++ stack)
      (trace ++ (p.unpipeFrom target index).seen) := by
  induction index with
  | zero => rw [show trace ++ (p.unpipeFrom target 0).seen = trace from append_nil _]; exact h
  | succ index ih =>
    unfold unpipeFrom
    cases hq : p.targets[index]? with
    | some q =>
      dsimp only
      split
      · next hm => exact (orderly_plain rfl rfl).2 (h.unpipe hq (fun f hf hfq => hnot f hf q hfq hm))
      · exact ih
    | none =>
      cases target with
      | some target => exact ih
      | none => exact h.neutral rfl

/-! ## Runs -/

variable {c c' : Config (Piping V) (Frame V) (Event V)} {l : Move (Call V)}

/-- A source that is resumed, or read from, only when none owes a `'drain'` emits only then, too. -/
theorem Orderly.emits_clear (h : Orderly c.state c.stack c.trace) (hP : Clear c l) (he : Emits c l) :
    NoneOwes c.trace ∧ ∀ f ∈ c.stack, ¬ f.unfinished ∧ f.pipe = none := by
  refine ⟨?_, hP.apart he⟩
  match l with
  | .call (.source (.read _)) => exact hP.drained he
  | .ret =>
    intro t
    by_contra hne
    have hp := (h.held t hne).1; rw [he.1] at hp; cases hp

theorem Orderly.resume (hnone : p.source.destroyed = false → NoneOwes trace) (h : Orderly p stack trace) :
    Orderly (p.lift p.source.resume).state ((p.lift p.source.resume).frames ++ stack)
      (trace ++ (p.lift p.source.resume).seen) := by
  refine h.lift (fun t hne => ?_) (fun he => absurd resume_emission he)
  unfold Readable.resume
  split
  · exact h.held t hne
  · next hd => exact absurd (hnone (by simpa using hd) t) hne

theorem Orderly.call (h : Orderly c.state c.stack c.trace) {k : Call V} (hP : Clear c (.call k)) {b : Result V}
    (hb : c.state.call toString k = some b) : Orderly b.state (b.frames ++ c.stack) (c.trace ++ b.seen) := by
  cases k with
  | source k =>
    obtain ⟨rb, hrb, rfl⟩ := map_eq_some_iff.1 hb
    by_cases hk : k = .resume
    · subst hk
      cases hrb; exact h.resume (fun hd => hP.drained hd)
    · have hblock := call_block hk hrb
      refine h.lift (fun t hne => hblock.held (h.held t hne)) (fun he => ?_)
      obtain ⟨size, rfl, hpend⟩ := hblock.emits he; exact h.emits_clear hP hpend
  | pipe target ends => cases hb; exact pipe_orderly (hP.once target ends rfl) h
  | unpipe target => cases hb; exact unpipeFrom_orderly (fun f hf q hq => hP.kept f hf q hq) h _
  | drain target => cases hb; exact drain_orderly h

theorem Orderly.goOn {f : Frame V} {fs : List (Frame V)} (hs : c.stack = f :: fs) (h : Orderly c.state c.stack c.trace)
    (hP : Clear c .ret) :
    Orderly (c.state.goOn toString accepts f).state ((c.state.goOn toString accepts f).frames ++ fs)
      (c.trace ++ (c.state.goOn toString accepts f).seen) := by
  have hf := hs ▸ h
  cases f with
  | source f =>
    have hblock : SourceBlock c.state.source _ (c.state.source.goOn toString f) := goOn_block f
    have hplain := (orderly_plain rfl rfl).1 hf
    refine hplain.lift (fun t hne => hblock.held (hplain.held t hne)) (fun he => ?_)
    obtain ⟨hp, hq, hframe⟩ := hblock.emits he
    obtain ⟨hnone, hall⟩ := h.emits_clear hP ⟨hp, hq, f, fs, hs, hframe⟩
    exact ⟨hnone, fun g hg => hall g (by simp [hs, hg])⟩
  | delivering number value rest => exact deliver_orderly hf
  | writing n q number value rest => exact answer_orderly _ hf
  | pausing q number value rest =>
    have hw : Orderly { c.state with drainListeners := c.state.drainListeners ++ [q.target] }
        (.delivering number value rest :: fs) c.trace := by
      have hd : Orderly c.state (.delivering number value rest :: fs) c.trace := hf.same rfl rfl
      exact Orderly.of_source (p := c.state) rfl rfl hd.held hd
    rw [show c.trace ++ (c.state.goOn toString accepts (.pausing q number value rest)).seen = c.trace from append_nil _]
    exact hw
  | ending rest =>
    have hplain := (orderly_plain rfl rfl).1 hf
    cases rest with
    | nil =>
      rw [show c.trace ++ (c.state.goOn toString accepts (.ending [])).seen = c.trace from append_nil _]; exact hplain
    | cons q rest =>
      unfold Piping.goOn deliverEnd
      dsimp only
      split
      · exact (orderly_plain rfl rfl).2 (hplain.neutral rfl)
      · rw [append_nil]; exact (orderly_plain rfl rfl).2 hplain
  | piping q =>
    have hblock : SourceBlock c.state.source False c.state.source.newListenerAdded := newListenerAdded_block
    exact hf.listen.lift (fun t hne => hblock.held (hf.held t hne)) (fun he => (hblock.emits he).elim)
  | unpiping target index =>
    have hplain := (orderly_plain rfl rfl).1 hf
    refine unpipeFrom_orderly (fun g hg q hq hm => ?_) hplain index
    exact hP.kept g (by simp [hs, hg]) q hq ⟨target, index, fs, hs, hm⟩
  | draining rest =>
    have hplain := (orderly_plain rfl rfl).1 hf
    cases rest with
    | zero =>
      rw [show c.trace ++ (c.state.goOn toString accepts (.draining 0)).seen = c.trace from append_nil _]; exact hplain
    | succ rest =>
      have hd : Orderly c.state (.draining rest :: fs) c.trace := (orderly_plain rfl rfl).2 hplain
      have hr := hd.resume (fun hdest => hP.drained ⟨hdest, rest, fs, hs⟩)
      unfold Piping.goOn
      dsimp only; rw [append_assoc]; exact hr

theorem orderly_step (h : Orderly c.state c.stack c.trace) (hP : Clear c l)
    (hst : (program toString accepts).step c l = some c') : Orderly c'.state c'.stack c'.trace := by
  cases l with
  | call k => obtain ⟨-, b, hb, rfl⟩ := Reentrant.step_call hst; exact h.call hP hb
  | ret => obtain ⟨f, fs, hs, rfl⟩ := Reentrant.step_ret hst; exact h.goOn hs hP

theorem create_orderly {objectMode autoDestroy : Bool} {highWaterMark : Nat} {encoding : Option BufferEncoding} :
    Orderly (create objectMode highWaterMark autoDestroy encoding : Config (Piping V) (Frame V) (Event V)).state [] [] :=
  ⟨fun _ hne => absurd rfl hne, forall_mem_nil _, .nil, fun _ => rfl, fun _ => ⟨nofun, nofun⟩, .nil, .nil, .nil⟩

/-- **`pipe` and back-pressure**, as far as it goes: when the source is resumed or read from only while no destination owes a
`'drain'`, and emits nothing while a chunk is on its way or a `'pipe'` is under way, then after a `write` that returned `false`
no other chunk is delivered until all that owe a `'drain'` have drained; and each destination gets what was emitted while it was
piped, in order. -/
theorem pipe_respects (toString : BufferEncoding → Bytes → List UInt16) (accepts : Nat → Bool) (objectMode : Bool)
    (highWaterMark : Nat) (autoDestroy : Bool) (encoding : Option BufferEncoding) (ls : List (Move (Call V)))
    (c : Config (Piping V) (Frame V) (Event V))
    (h : Run (program toString accepts).step Clear (create objectMode highWaterMark autoDestroy encoding) ls c) :
    EachAfter NoFurther c.trace ∧ (∀ t, deliveredTo t c.trace <+: (during t c.trace).2) ∧
      ((∀ f ∈ c.stack, ¬ f.unfinished) → ∀ t, deliveredTo t c.trace = (during t c.trace).2) := by
  have ho : Orderly c.state c.stack c.trace :=
    h.invariant (I := fun c => Orderly c.state c.stack c.trace) (fun _ _ _ hI hP hst => orderly_step hI hP hst) create_orderly
  refine ⟨ho.further, fun t => ⟨_, ho.sent t⟩, fun hf t => ?_⟩
  have hs := ho.sent t; rwa [owed_finished hf, append_nil] at hs

/-- A frame that neither emits, nor resumes, nor unpipes. -/
def Frame.idle : Frame V → Bool
  | .source .pushed | .source .resumed | .source (.draining _) | .unpiping _ _ | .draining (_ + 1) => false
  | _ => true

theorem clear_idle {f : Frame V} {fs : List (Frame V)} (hs : c.stack = f :: fs) (hf : f.idle = true) : Clear c .ret := by
  refine ⟨fun h => ?_, fun h => ?_, nofun, fun _ _ _ _ h => ?_⟩
  · obtain ⟨-, n, gs, hg⟩ := h
    rw [hs] at hg
    cases hg; cases hf
  · obtain ⟨-, -, g, gs, hg, hcases⟩ := h
    rw [hs] at hg
    cases hg
    obtain rfl | rfl | ⟨ret, rfl⟩ := hcases <;> cases hf
  · obtain ⟨target, index, gs, hg, -⟩ := h
    rw [hs] at hg
    cases hg; cases hf

/-- A chunk is delivered, and refused. -/
theorem pipe_respects_refused : ∃ c : Config (Piping Nat) (Frame Nat) (Event Nat),
    refused 1 c.trace = [0] ∧ deliveredTo 1 c.trace = [(0, .other 7)] ∧ deliveredTo 1 c.trace <+: (during 1 c.trace).2 := by
  have hemit : ∀ f ∈ ([.source .pushed] : List (Frame Nat)), ¬ f.unfinished ∧ f.pipe = none := by
    intro f hf
    obtain rfl := mem_singleton.1 hf; exact ⟨nofun, rfl⟩
  have h : Run (program (fun _ _ => []) (fun _ => false)).step Clear
      (create true 16 true none : Config (Piping Nat) (Frame Nat) (Event Nat))
      [.call (.pipe 1 true), .ret, .ret, .call (.source (.push (some (.other 7)))), .ret, .ret, .ret] _ :=
    .cons ⟨nofun, nofun, nofun, forall_mem_nil _⟩ rfl (.cons (clear_idle rfl rfl) rfl
      (.cons ⟨nofun, fun h => absurd rfl h.2.1, nofun, nofun⟩ rfl (.cons ⟨nofun, nofun, nofun, forall_mem_nil _⟩ rfl
        (.cons ⟨nofun, fun _ => hemit, nofun, nofun⟩ rfl (.cons (clear_idle rfl rfl) rfl (.cons (clear_idle rfl rfl) rfl
          (.nil _)))))))
  exact ⟨_, rfl, rfl, (pipe_respects _ _ _ _ _ _ _ _ h).2.1 1⟩

/-- Two destinations refuse a chunk; the first to drain gets the next one, and so does the other. -/
theorem first_drain_resumes : ¬ ∀ (accepts : Nat → Bool) (ls : List (Move (Call Nat)))
    (c : Config (Piping Nat) (Frame Nat) (Event Nat)),
    Run (program (fun _ _ => []) accepts).step (fun _ _ => True) (create true 16 true none) ls c →
      EachAfter NoFurther c.trace := by
  intro h
  have hrun : Run (program (fun _ _ => []) (fun _ => false)).step (fun _ _ => True)
      (create true 16 true none : Config (Piping Nat) (Frame Nat) (Event Nat))
      ([.call (.pipe 1 true), .ret, .ret, .call (.pipe 2 true), .ret, .ret, .call (.source (.push (some (.other 7)))), .ret,
        .ret, .ret, .ret, .ret, .ret, .ret, .ret, .ret, .ret, .ret] ++
        [.call (.source (.push (some (.other 8)))), .ret, .call (.drain 1), .ret, .ret, .ret]) _ := Run.of_runs rfl
  have hlate := h _ _ _ hrun [.piped 1, .piped 2, .emitted 0 (.other 7), .delivered 1 0 (.other 7), .answered 1 0 false,
    .delivered 2 0 (.other 7), .answered 2 0 false, .drained 1, .emitted 1 (.other 8)] (.delivered 1 1 (.other 8)) [] rfl
  exact absurd (hlate 2 0 (by decide)) (by decide)

end NodeCompat.Stream.Piping
