import NodeCompat.Lib.Run

/-!
# Programs that user code re-enters

An object whose methods call handlers is re-entered from them: before a method goes on, any other method may have been
called, and each of these may in turn be waiting for a handler of its own. A `Reentrant` program is cut into blocks at
these points. A block is what runs from a call, or from the return of a handler, up to the next handler or the end of
the method; what the method still has to do is a frame. The frames of the methods under way are a stack, and its top is
the method whose handler is running.

`task`s are not called from handlers: they run when nothing else does.
-/

namespace NodeCompat

open List

/-- What a block leaves: the state, what was seen of it from outside, and the frames it waits with. -/
structure Block (σ ϕ ω : Type) where
  state : σ
  seen : List ω := []
  frames : List ϕ := []

structure Reentrant (σ κ ϕ ω : Type) where
  /-- `none` when the call is not possible. -/
  call : σ → κ → Option (Block σ ϕ ω)
  resume : σ → ϕ → Block σ ϕ ω
  task : κ → Bool

/-- A call, or the return of the running handler. -/
inductive Move (κ : Type)
  | call (k : κ)
  | ret
  deriving DecidableEq

structure Config (σ ϕ ω : Type) where
  state : σ
  stack : List ϕ := []
  trace : List ω := []
  deriving DecidableEq

variable {σ κ ϕ ω : Type}

variable (b : Block σ ϕ ω)

variable (stack : List ϕ)

variable (trace : List ω)

/-- Where a block leaves the methods under way. -/
def Block.onto (b : Block σ ϕ ω) (stack : List ϕ) (trace : List ω) : Config σ ϕ ω :=
  { state := b.state, stack := b.frames ++ stack, trace := trace ++ b.seen }

@[simp] theorem Block.onto_state : (b.onto stack trace).state = b.state := rfl

@[simp] theorem Block.onto_stack : (b.onto stack trace).stack = b.frames ++ stack := rfl

@[simp] theorem Block.onto_trace : (b.onto stack trace).trace = trace ++ b.seen := rfl

namespace Reentrant

def step (p : Reentrant σ κ ϕ ω) (c : Config σ ϕ ω) : Move κ → Option (Config σ ϕ ω)
  | .call k =>
    if p.task k && !c.stack.isEmpty then none
    else (p.call c.state k).map (fun b => b.onto c.stack c.trace)
  | .ret =>
    match c.stack with
    | [] => none
    | f :: fs => some ((p.resume c.state f).onto fs c.trace)

variable {p : Reentrant σ κ ϕ ω} {c c' : Config σ ϕ ω}

theorem step_call {k : κ} (h : p.step c (.call k) = some c') :
    (p.task k = true → c.stack = []) ∧ ∃ b, p.call c.state k = some b ∧ c' = b.onto c.stack c.trace := by
  unfold step at h
  dsimp only at h
  split at h
  · cases h
  · next ht =>
    obtain ⟨b, hb, rfl⟩ := Option.map_eq_some_iff.1 h
    refine ⟨fun hk => ?_, b, hb, rfl⟩
    simpa [hk] using ht

theorem step_ret (h : p.step c .ret = some c') :
    ∃ f fs, c.stack = f :: fs ∧ c' = (p.resume c.state f).onto fs c.trace := by
  unfold step at h
  dsimp only at h
  split at h
  · cases h
  · next f fs hs =>
    cases h; exact ⟨f, fs, hs, rfl⟩

theorem step_of_call {k : κ} {b : Block σ ϕ ω} (ht : p.task k = false) (hb : p.call c.state k = some b) :
    p.step c (.call k) = some (b.onto c.stack c.trace) := by
  simp [step, ht, hb]

theorem step_of_ret {f : ϕ} {fs : List ϕ} (hs : c.stack = f :: fs) :
    p.step c .ret = some ((p.resume c.state f).onto fs c.trace) := by
  simp [step, hs]

/-- **The invariant rule**: one case for the calls and one for the returns, each under its condition. -/
theorem invariant_of {P : Config σ ϕ ω → Move κ → Prop} {I : Config σ ϕ ω → Prop}
    (hcall : ∀ c k b, I c → P c (.call k) → (p.task k = true → c.stack = []) → p.call c.state k = some b →
      I (b.onto c.stack c.trace))
    (hret : ∀ c f fs, I c → P c .ret → c.stack = f :: fs → I ((p.resume c.state f).onto fs c.trace)) {ls : List (Move κ)}
    (h : Run p.step P c ls c') (hc : I c) : I c' := by
  refine h.invariant (I := I) (fun c l c' hI hP hst => ?_) hc
  cases l with
  | call k => obtain ⟨ht, b, hb, rfl⟩ := step_call hst; exact hcall c k b hI hP ht hb
  | ret => obtain ⟨f, fs, hs, rfl⟩ := step_ret hst; exact hret c f fs hI hP hs

theorem invariant {P : Config σ ϕ ω → Move κ → Prop} {I : Config σ ϕ ω → Prop}
    (hcall : ∀ c k b, I c → P c (.call k) → (p.task k = true → c.stack = []) → p.call c.state k = some b →
      I (b.onto c.stack c.trace))
    (hret : ∀ c f fs, I c → c.stack = f :: fs → I ((p.resume c.state f).onto fs c.trace)) {ls : List (Move κ)}
    (h : Run p.step P c ls c') (hc : I c) : I c' :=
  invariant_of hcall (fun c f fs hI _ hs => hret c f fs hI hs) h hc

end Reentrant

/-! ## Traces -/

variable {ω : Type} {P : List ω → ω → Prop} {es : List ω}

/-- Each event of a trace stands to those before it as `P` says. -/
def EachAfter (P : List ω → ω → Prop) (es : List ω) : Prop := ∀ pre e post, es = pre ++ e :: post → P pre e

theorem EachAfter.nil : EachAfter P [] := by
  intro pre e post h; simp at h

theorem EachAfter.snoc {e : ω} (h : EachAfter P es) (he : P es e) : EachAfter P (es ++ [e]) := by
  intro pre e' post heq
  obtain rfl | ⟨post', e'', rfl⟩ := eq_nil_or_concat post
  · obtain ⟨rfl, hee⟩ := append_inj' heq rfl
    cases hee; exact he
  · rw [concat_eq_append, ← cons_append, ← append_assoc] at heq; exact h pre e' post' (append_inj' heq rfl).1

theorem EachAfter.append {es' : List ω} (h : EachAfter P es) (he : ∀ e ∈ es', ∀ pre, P pre e) :
    EachAfter P (es ++ es') := by
  induction es' generalizing es with
  | nil => rwa [append_nil]
  | cons e es' ih =>
    rw [← singleton_append, ← append_assoc]
    exact ih (h.snoc (he e mem_cons_self es)) (fun e' he' => he e' (mem_cons_of_mem _ he'))

end NodeCompat
