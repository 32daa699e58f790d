import NodeCompat.Events.Diagnostics

/-!
# Tracing channels

`traceSync`, `tracePromise` and `traceCallback` call a function inside the stores of `start`, right after its publication,
and publish `error` when it throws and `end` in any case. `tracePromise` follows the promise it gets with a reaction;
`traceCallback` replaces one argument, a callback, by a function of its own, which may be called at any time.

`Around` says that a call is surrounded and nothing else is done to it; `tracing_around` says it of the three.
-/

namespace NodeCompat.Events.Diagnostics

open List

variable {L S T F V : Type} [DecidableEq L] [DecidableEq S]

/-- `end` is a keyword. -/
structure TracingChannel where
  start : ChannelId
  end_ : ChannelId
  asyncStart : ChannelId
  asyncEnd : ChannelId
  error : ChannelId

def TracingChannel.hasSubscribers (t : TracingChannel) (sh : Shared L S T V) : Bool :=
  [t.start, t.end_, t.asyncStart, t.asyncEnd, t.error].any (fun ch => (sh.channels ch).hasSubscribers)

/-! ## Functions -/

/-- What a function does when it is called: it does acts and goes on by what it sees then, or calls one of its arguments. -/
inductive Body (L S T F V : Type)
  | done (o : Outcome V)
  | act (acts : Shared L S T V → List (Act L S T V)) (next : Shared L S T V → Body L S T F V)
  | call (callee : Arg F V) (this : V) (args : List V) (next : Outcome V → Body L S T F V)

/-- How an argument is called. -/
abbrev Invoke (L S T F V : Type) := Arg F V → World L S T F V → V → List V → World L S T F V × Outcome V

def Body.exec (invoke : Invoke L S T F V) : Body L S T F V → World L S T F V → World L S T F V × Outcome V
  | .done o, w => (w, o)
  | .act acts next, w =>
    let w := w.does (acts w.toShared)
    (next w.toShared).exec invoke w
  | .call callee this args next, w =>
    let (w, o) := invoke callee w this args
    (next o).exec invoke w

/-- `fn.call(thisArg, ...args)` -/
def callFn (invoke : Invoke L S T F V) (fn : V → List (Arg F V) → Body L S T F V) (this : V) (args : List (Arg F V))
    (w : World L S T F V) : World L S T F V × Outcome V :=
  (fn this args).exec invoke (w.note (.called this args))

namespace User

variable (u : User L S T F V)

/-- An argument that is called as it is: a callback of the user runs, and a value is no function. -/
def invoke : Invoke L S T F V
  | .function f, w, this, args =>
    ((w.note (.callback f this args)).does (u.callback f this args w.toShared).1, (u.callback f this args w.toShared).2)
  | _, w, _, _ => (w, .threw u.typeError)

/-- `callbackArgs[index]` -/
def argument (args : List V) (index : Nat) : V := args.getD index u.undefined

/-- The result of a function that returns nothing. -/
def discard : Outcome V → Outcome V
  | .returned _ => .returned u.undefined
  | .threw e => .threw e

end User

def World.setResult (w : World L S T F V) (v : V) : World L S T F V := { w with trace := { w.trace with result := some v } }

def World.setError (w : World L S T F V) (e : V) : World L S T F V := { w with trace := { w.trace with error := some e } }

def World.withContext (w : World L S T F V) (context : TraceResult V) : World L S T F V := { w with trace := context }

/-- `wrappedCallback` -/
def wrappedCallback (u : User L S T F V) (t : TracingChannel) (f : F) (w : World L S T F V) (this : V) (args : List V) :
    World L S T F V × Outcome V :=
  let w :=
    if u.truthy (u.argument args 0) then publish u (w.setError (u.argument args 0)) t.error
    else w.setResult (u.argument args 1)
  let (w, o) := runStores u w t.asyncStart (fun w =>
    let (w, o) := u.invoke (.function f) w this args
    (publish u w t.asyncEnd, o))
  (w, u.discard o)

/-- The arguments of a function that `traceCallback` calls. -/
def User.invokeTraced (u : User L S T F V) (t : TracingChannel) : Invoke L S T F V
  | .wrapped f, w, this, args => wrappedCallback u t f w this args
  | callee, w, this, args => u.invoke callee w this args

/-! ## The three -/

/-- `try { return result(fn.call(...)) } catch (error) { ... } finally { ... }` of the three. -/
def surround (u : User L S T F V) (t : TracingChannel) (call : World L S T F V → World L S T F V × Outcome V)
    (returning : World L S T F V → V → World L S T F V × V) (w : World L S T F V) : World L S T F V × Outcome V :=
  match call w with
  | (w, .returned v) =>
    let (w, v) := returning w v
    (publish u w t.end_, .returned v)
  | (w, .threw e) => (publish u (publish u (w.setError e) t.error) t.end_, .threw e)

def traceSync (u : User L S T F V) (t : TracingChannel) (fn : V → List (Arg F V) → Body L S T F V)
    (context : TraceResult V) (this : V) (args : List (Arg F V)) (w : World L S T F V) : World L S T F V × Outcome V :=
  if !t.hasSubscribers w.toShared then callFn u.invoke fn this args w
  else runStores u (w.withContext context) t.start
      (surround u t (callFn u.invoke fn this args) (fun w v => (w.setResult v, v)))

/-- What `tracePromise` returns: what the function returned, or the promise that follows `source`. -/
inductive Traced (V : Type)
  | plain (o : Outcome V)
  | threw (e : V)
  | follows (source : V)

def tracePromise (u : User L S T F V) (t : TracingChannel) (fn : V → List (Arg F V) → Body L S T F V)
    (context : TraceResult V) (this : V) (args : List (Arg F V)) (w : World L S T F V) : World L S T F V × Traced V :=
  if !t.hasSubscribers w.toShared then
    let (w, o) := callFn u.invoke fn this args w
    (w, .plain o)
  else
    match runStores u (w.withContext context) t.start
      (surround u t (callFn u.invoke fn this args) (fun w v => (w, u.promiseOf v))) with
    | (w, .returned promise) => (w, .follows promise)
    | (w, .threw e) => (w, .threw e)

/-- How a promise is settled. -/
inductive Settlement (V : Type)
  | fulfilled (v : V)
  | rejected (e : V)

/-- The reaction of `promise.then(...)`: how it settles the promise that `tracePromise` returned. -/
def react (u : User L S T F V) (t : TracingChannel) (w : World L S T F V) :
    Settlement V → World L S T F V × Settlement V
  | .fulfilled v => (publish u (publish u (w.setResult v) t.asyncStart) t.asyncEnd, .fulfilled v)
  | .rejected e => (publish u (publish u (publish u (w.setError e) t.error) t.asyncStart) t.asyncEnd, .rejected e)

/-- The index that `at(position)` means. -/
def indexAt (length : Nat) (position : Int) : Option Nat :=
  let index := if position < 0 then (length : Int) + position else position
  if 0 ≤ index ∧ index < length then some index.toNat else none

/-- The callback at a position, and the arguments with the wrapped one in its place. -/
def callArgs (args : List (Arg F V)) (position : Int) : Option (F × List (Arg F V)) :=
  match indexAt args.length position with
  | none => none
  | some index =>
    match args[index]? with
    | some (.function f) => some (f, args.set index (.wrapped f))
    | _ => none

def traceCallback (u : User L S T F V) (t : TracingChannel) (fn : V → List (Arg F V) → Body L S T F V) (position : Int)
    (context : TraceResult V) (this : V) (args : List (Arg F V)) (w : World L S T F V) : World L S T F V × Outcome V :=
  if !t.hasSubscribers w.toShared then callFn u.invoke fn this args w
  else
    match callArgs args position with
    | none => (w, .threw u.typeError)
    | some (_, callArgs) =>
      runStores u (w.withContext context) t.start
        (surround u t (callFn (u.invokeTraced t) fn this callArgs) (fun w v => (w, v)))

/-! ## What tracing does -/

/-- The marks of a failure. -/
def failure (t : TracingChannel) : Outcome V → List (Mark F V)
  | .returned _ => []
  | .threw _ => [.published t.error]

/-- A call of an argument: of the function itself, or of its wrapping. -/
structure Invocation (F V : Type) where
  wrapped : Bool
  f : F
  this : V
  args : List V

/-- What is seen of it: one call of the function with the same `this` and arguments. -/
def Invocation.marks (u : User L S T F V) (t : TracingChannel) (i : Invocation F V) : List (Mark F V) :=
  if i.wrapped then (if u.truthy (u.argument i.args 0) then [.published t.error] else []) ++
      [.published t.asyncStart, .callback i.f i.this i.args, .published t.asyncEnd]
  else [.callback i.f i.this i.args]

/-- The call is made in `w₀`, where `start` has just been published, and comes to `w₁` and `o`; then only `error`, if it
failed, and `end` are published. The call shows up once, with the calls that the function makes of its arguments. -/
structure Around (u : User L S T F V) (t : TracingChannel) (invoke : Invoke L S T F V) (wrapping : Bool)
    (fn : V → List (Arg F V) → Body L S T F V) (this : V) (args : List (Arg F V)) (w w₀ w₁ w' : World L S T F V)
    (o : Outcome V) : Prop where
  before : Shown w [.published t.start] w₀
  call : callFn invoke fn this args w₀ = (w₁, o)
  during : ∃ calls : List (Invocation F V), (∀ i ∈ calls, i.wrapped = true → wrapping = true) ∧
    Shown w₀ (.called this args :: calls.flatMap (Invocation.marks u t)) w₁
  after : Shown w₁ (failure t o ++ [.published t.end_]) w'

/-- The wrapped callback, called in any world, calls the callback once in `w₀` with the same `this` and arguments, inside
`asyncStart` and `asyncEnd`, and behind `error` if it is called with one. -/
structure Wraps (u : User L S T F V) (t : TracingChannel) (f : F) (this : V) (args : List V) (w w₀ w₁ w' : World L S T F V)
    (o : Outcome V) : Prop where
  before : Shown w ((if u.truthy (u.argument args 0) then [.published t.error] else []) ++ [.published t.asyncStart]) w₀
  call : u.invoke (.function f) w₀ this args = (w₁, o)
  after : Shown w₁ [.published t.asyncEnd] w'

/-- The promise of a result, which the one that is returned follows. -/
def followed (u : User L S T F V) : Outcome V → Traced V
  | .returned v => .follows (u.promiseOf v)
  | .threw e => .threw e

/-- What tracing does to an operation. -/
structure Tracing (u : User L S T F V) (t : TracingChannel) : Prop where
  sync : ∀ fn context this args (w : World L S T F V), t.hasSubscribers w.toShared = true →
    ∃ w₀ w₁ o, Around u t u.invoke false fn this args w w₀ w₁ (traceSync u t fn context this args w).1 o ∧
      (traceSync u t fn context this args w).2 = o
  promise : ∀ fn context this args (w : World L S T F V), t.hasSubscribers w.toShared = true →
    ∃ w₀ w₁ o, Around u t u.invoke false fn this args w w₀ w₁ (tracePromise u t fn context this args w).1 o ∧
      (tracePromise u t fn context this args w).2 = followed u o
  fulfilled : ∀ (w : World L S T F V) v, (react u t w (.fulfilled v)).2 = .fulfilled v ∧
    Shown w [.published t.asyncStart, .published t.asyncEnd] (react u t w (.fulfilled v)).1
  rejected : ∀ (w : World L S T F V) e, (react u t w (.rejected e)).2 = .rejected e ∧
    Shown w [.published t.error, .published t.asyncStart, .published t.asyncEnd] (react u t w (.rejected e)).1
  callback : ∀ fn position context this args f args' (w : World L S T F V), t.hasSubscribers w.toShared = true →
    callArgs args position = some (f, args') →
    ∃ w₀ w₁ o, Around u t (u.invokeTraced t) true fn this args' w w₀ w₁
      (traceCallback u t fn position context this args w).1 o ∧ (traceCallback u t fn position context this args w).2 = o
  wrapped : ∀ f this args (w : World L S T F V), ∃ w₀ w₁ o,
    Wraps u t f this args w w₀ w₁ (wrappedCallback u t f w this args).1 o ∧
      (wrappedCallback u t f w this args).2 = u.discard o
  /-- Without a function at the position there is an error and nothing else. -/
  refused : ∀ fn position context this args (w : World L S T F V), t.hasSubscribers w.toShared = true →
    callArgs args position = none → traceCallback u t fn position context this args w = (w, .threw u.typeError)
  /-- Without subscribers there is the plain call and nothing else. -/
  silent : ∀ fn position context this args (w : World L S T F V), t.hasSubscribers w.toShared = false →
    traceSync u t fn context this args w = callFn u.invoke fn this args w ∧
    tracePromise u t fn context this args w =
      ((callFn u.invoke fn this args w).1, .plain (callFn u.invoke fn this args w).2) ∧
    traceCallback u t fn position context this args w = callFn u.invoke fn this args w
  /-- Every publication reaches the listeners that are subscribed then, in their order. -/
  published : ∀ (w : World L S T F V) ch, (publish u w ch).log =
    w.log ++ .published ch (w.channels ch).listeners :: (w.channels ch).listeners.map (Event.delivered ch)

/-! ## Proofs -/

/-- A value that is returned becomes another one. -/
def Outcome.map (f : V → V) : Outcome V → Outcome V
  | .returned v => .returned (f v)
  | .threw e => .threw e

variable {u : User L S T F V} {t : TracingChannel} {invoke : Invoke L S T F V}

theorem exec_shown {P : Invocation F V → Prop}
    (hinvoke : ∀ callee (w : World L S T F V) this args, ∃ calls : List (Invocation F V), (∀ i ∈ calls, P i) ∧
      Shown w (calls.flatMap (Invocation.marks u t)) (invoke callee w this args).1) (body : Body L S T F V)
    (w : World L S T F V) : ∃ calls : List (Invocation F V), (∀ i ∈ calls, P i) ∧
      Shown w (calls.flatMap (Invocation.marks u t)) (body.exec invoke w).1 := by
  induction body generalizing w with
  | done o => exact ⟨[], fun _ h => absurd h not_mem_nil, .of_log rfl⟩
  | act acts next ih =>
    obtain ⟨calls, hP, hshown⟩ := ih _ (w.does (acts w.toShared)); exact ⟨calls, hP, hshown.after rfl⟩
  | call callee this args next ih =>
    obtain ⟨calls, hP, hshown⟩ := hinvoke callee w this args
    obtain ⟨calls', hP', hshown'⟩ := ih (invoke callee w this args).2 (invoke callee w this args).1
    refine ⟨calls ++ calls', fun i hi => ?_, ?_⟩
    · exact (mem_append.1 hi).elim (hP i) (hP' i)
    · rw [flatMap_append]; exact hshown.trans hshown'

theorem callFn_shown {P : Invocation F V → Prop}
    (hinvoke : ∀ callee (w : World L S T F V) this args, ∃ calls : List (Invocation F V), (∀ i ∈ calls, P i) ∧
      Shown w (calls.flatMap (Invocation.marks u t)) (invoke callee w this args).1)
    (fn : V → List (Arg F V) → Body L S T F V) (this : V) (args : List (Arg F V)) (w : World L S T F V) :
    ∃ calls : List (Invocation F V), (∀ i ∈ calls, P i) ∧
      Shown w (.called this args :: calls.flatMap (Invocation.marks u t)) (callFn invoke fn this args w).1 := by
  obtain ⟨calls, hP, hshown⟩ := exec_shown hinvoke (fn this args) (w.note (.called this args))
  have hcalled : Shown w [.called this args] (w.note (.called this args)) := ⟨_, rfl, .called this args .nil⟩
  exact ⟨calls, hP, hcalled.trans hshown⟩

theorem invoke_shown (u : User L S T F V) (f : F) (w : World L S T F V) (this : V) (args : List V) :
    Shown w [.callback f this args] (u.invoke (.function f) w this args).1 := ⟨_, rfl, .callback f this args .nil⟩

theorem invoke_calls (u : User L S T F V) (t : TracingChannel) (callee : Arg F V) (w : World L S T F V) (this : V)
    (args : List V) : ∃ calls : List (Invocation F V), (∀ i ∈ calls, i.wrapped = true → false = true) ∧
      Shown w (calls.flatMap (Invocation.marks u t)) (u.invoke callee w this args).1 := by
  cases callee with
  | function f =>
    refine ⟨[⟨false, f, this, args⟩], fun i hi => ?_, ?_⟩
    · rw [mem_singleton.1 hi]; exact id
    · rw [flatMap_singleton]; exact invoke_shown u f w this args
  | value v | wrapped f => exact ⟨[], fun _ h => absurd h not_mem_nil, .of_log rfl⟩

theorem wrappedCallback_spec (hu : u.HandsOn) (t : TracingChannel) (f : F) (this : V) (args : List V)
    (w : World L S T F V) : ∃ w₀ w₁ o, Wraps u t f this args w w₀ w₁ (wrappedCallback u t f w this args).1 o ∧
      (wrappedCallback u t f w this args).2 = u.discard o := by
  obtain ⟨w₂, hw₂⟩ : ∃ w₂, w₂ = if u.truthy (u.argument args 0) then publish u (w.setError (u.argument args 0)) t.error
    else w.setResult (u.argument args 1) := ⟨_, rfl⟩
  have herror : Shown w (if u.truthy (u.argument args 0) then [.published t.error] else []) w₂ := by
    rw [hw₂]
    split
    · exact (publish_shown u _ t.error).after rfl
    · exact .of_log rfl
  obtain ⟨w₀, hstart, ho, hlog⟩ := runStores_spec hu w₂ t.asyncStart (fun w =>
    let (w, o) := u.invoke (.function f) w this args
    (publish u w t.asyncEnd, o))
  refine ⟨w₀, _, _, ⟨herror.trans hstart, rfl, ?_⟩, ?_⟩
  · rw [wrappedCallback, ← hw₂]; exact (publish_shown u _ t.asyncEnd).before hlog
  · rw [wrappedCallback, ← hw₂]; exact congrArg u.discard ho

theorem invokeTraced_calls (hu : u.HandsOn) (t : TracingChannel) (callee : Arg F V) (w : World L S T F V) (this : V)
    (args : List V) : ∃ calls : List (Invocation F V), (∀ i ∈ calls, i.wrapped = true → true = true) ∧
      Shown w (calls.flatMap (Invocation.marks u t)) (u.invokeTraced t callee w this args).1 := by
  cases callee with
  | wrapped f =>
    refine ⟨[⟨true, f, this, args⟩], fun _ _ _ => rfl, ?_⟩
    obtain ⟨w₀, w₁, o, h, _⟩ := wrappedCallback_spec hu t f this args w
    have hcall := invoke_shown u f w₀ this args
    rw [h.call] at hcall
    have := (h.before.trans hcall).trans h.after
    rw [flatMap_singleton]; simpa [Invocation.marks, User.invokeTraced] using this
  | function f =>
    obtain ⟨calls, _, hshown⟩ := invoke_calls u t (.function f) w this args; exact ⟨calls, fun _ _ _ => rfl, hshown⟩
  | value v => exact ⟨[], fun _ _ _ => rfl, .of_log rfl⟩

theorem surround_spec {call : World L S T F V → World L S T F V × Outcome V}
    {returning : World L S T F V → V → World L S T F V × V} (hreturning : ∀ w v, (returning w v).1.log = w.log)
    {w₀ w₁ : World L S T F V} {o : Outcome V} (hcall : call w₀ = (w₁, o)) :
    Shown w₁ (failure t o ++ [.published t.end_]) (surround u t call returning w₀).1 ∧
      (surround u t call returning w₀).2 = o.map (fun v => (returning w₁ v).2) := by
  unfold surround
  rw [hcall]
  cases o with
  | returned v => exact ⟨(publish_shown u _ t.end_).after (hreturning w₁ v), rfl⟩
  | threw e =>
    have herror := (publish_shown u (w₁.setError e) t.error).after (w := w₁) rfl
    exact ⟨herror.trans (publish_shown u _ t.end_), rfl⟩

theorem around (hu : u.HandsOn) {wrapping : Bool}
    (hinvoke : ∀ callee (w : World L S T F V) this args, ∃ calls : List (Invocation F V),
      (∀ i ∈ calls, i.wrapped = true → wrapping = true) ∧
      Shown w (calls.flatMap (Invocation.marks u t)) (invoke callee w this args).1)
    (returning : World L S T F V → V → World L S T F V × V) (hreturning : ∀ w v, (returning w v).1.log = w.log)
    (fn : V → List (Arg F V) → Body L S T F V) (context : TraceResult V) (this : V) (args : List (Arg F V))
    (w : World L S T F V) : ∃ w₀ w₁ o, Around u t invoke wrapping fn this args w w₀ w₁
        (runStores u (w.withContext context) t.start (surround u t (callFn invoke fn this args) returning)).1 o ∧
      (runStores u (w.withContext context) t.start (surround u t (callFn invoke fn this args) returning)).2 =
        o.map (fun v => (returning w₁ v).2) := by
  obtain ⟨w₀, hstart, ho, hlog⟩ := runStores_spec hu (w.withContext context) t.start
    (surround u t (callFn invoke fn this args) returning)
  obtain ⟨hend, houtcome⟩ := surround_spec (u := u) (t := t) hreturning
    (Prod.eta (callFn invoke fn this args w₀)).symm
  exact ⟨w₀, _, _, ⟨hstart.after rfl, rfl, callFn_shown hinvoke fn this args w₀, hend.before hlog⟩, ho.trans houtcome⟩

theorem traceSync_around (hu : u.HandsOn) (fn : V → List (Arg F V) → Body L S T F V) (context : TraceResult V) (this : V)
    (args : List (Arg F V)) (w : World L S T F V) (hw : t.hasSubscribers w.toShared = true) :
    ∃ w₀ w₁ o, Around u t u.invoke false fn this args w w₀ w₁ (traceSync u t fn context this args w).1 o ∧
      (traceSync u t fn context this args w).2 = o := by
  obtain ⟨w₀, w₁, o, h, ho⟩ := around hu (invoke_calls u t) (fun w v => (w.setResult v, v)) (fun _ _ => rfl)
    fn context this args w
  rw [traceSync, if_neg (by simp [hw])]
  refine ⟨w₀, w₁, o, h, ho.trans ?_⟩
  cases o <;> rfl

theorem tracePromise_around (hu : u.HandsOn) (fn : V → List (Arg F V) → Body L S T F V) (context : TraceResult V)
    (this : V) (args : List (Arg F V)) (w : World L S T F V) (hw : t.hasSubscribers w.toShared = true) :
    ∃ w₀ w₁ o, Around u t u.invoke false fn this args w w₀ w₁ (tracePromise u t fn context this args w).1 o ∧
      (tracePromise u t fn context this args w).2 = followed u o := by
  obtain ⟨w₀, w₁, o, h, ho⟩ := around hu (invoke_calls u t) (fun w v => (w, u.promiseOf v)) (fun _ _ => rfl)
    fn context this args w
  rw [tracePromise, if_neg (by simp [hw])]
  refine ⟨w₀, w₁, o, ?_⟩
  obtain ⟨w', o', hrun⟩ : ∃ w' o', runStores u (w.withContext context) t.start
    (surround u t (callFn u.invoke fn this args) (fun w v => (w, u.promiseOf v))) = (w', o') := ⟨_, _, rfl⟩
  rw [hrun] at h ho ⊢
  subst ho
  cases o with
  | returned v | threw e => exact ⟨h, rfl⟩

theorem traceCallback_around (hu : u.HandsOn) (fn : V → List (Arg F V) → Body L S T F V) (position : Int)
    (context : TraceResult V) (this : V) (args : List (Arg F V)) {f : F} {args' : List (Arg F V)} (w : World L S T F V)
    (hw : t.hasSubscribers w.toShared = true) (hargs : callArgs args position = some (f, args')) :
    ∃ w₀ w₁ o, Around u t (u.invokeTraced t) true fn this args' w w₀ w₁
      (traceCallback u t fn position context this args w).1 o ∧ (traceCallback u t fn position context this args w).2 = o := by
  obtain ⟨w₀, w₁, o, h, ho⟩ := around hu (invokeTraced_calls hu t) (fun w v => (w, v)) (fun _ _ => rfl)
    fn context this args' w
  rw [traceCallback, if_neg (by simp [hw])]
  simp only [hargs]
  refine ⟨w₀, w₁, o, h, ho.trans ?_⟩
  cases o <;> rfl

theorem react_spec (u : User L S T F V) (t : TracingChannel) (w : World L S T F V) (v : V) :
    ((react u t w (.fulfilled v)).2 = .fulfilled v ∧
      Shown w [.published t.asyncStart, .published t.asyncEnd] (react u t w (.fulfilled v)).1) ∧
    ((react u t w (.rejected v)).2 = .rejected v ∧
      Shown w [.published t.error, .published t.asyncStart, .published t.asyncEnd] (react u t w (.rejected v)).1) := by
  have hboth : ∀ w' : World L S T F V, Shown w' [.published t.asyncStart, .published t.asyncEnd]
      (publish u (publish u w' t.asyncStart) t.asyncEnd) :=
    fun w' => (publish_shown u w' t.asyncStart).trans (publish_shown u _ t.asyncEnd)
  have herror := (publish_shown u (w.setError v) t.error).after (w := w) rfl
  exact ⟨⟨rfl, (hboth (w.setResult v)).after rfl⟩, rfl, herror.trans (hboth _)⟩

/-- Tracing calls the operation once and hands on what it does, whatever subscribers and transforms do. -/
theorem tracing_around (hu : u.HandsOn) (t : TracingChannel) : Tracing u t where
  sync := fun fn context this args w hw => traceSync_around hu fn context this args w hw
  promise := fun fn context this args w hw => tracePromise_around hu fn context this args w hw
  fulfilled := fun w v => (react_spec u t w v).1
  rejected := fun w e => (react_spec u t w e).2
  callback := fun fn position context this args _ _ w hw hargs =>
    traceCallback_around hu fn position context this args w hw hargs
  wrapped := fun f this args w => wrappedCallback_spec hu t f this args w
  refused := fun fn position context this args w hw hargs => by
    rw [traceCallback, if_neg (by simp [hw])]; simp only [hargs]
  silent := fun fn position context this args w hw => by
    have hnone : (!t.hasSubscribers w.toShared) = true := by rw [hw]; rfl
    refine ⟨?_, ?_, ?_⟩
    · rw [traceSync, if_pos hnone]
    · rw [tracePromise, if_pos hnone]
    · rw [traceCallback, if_pos hnone]
  published := publish_log u

/-! ## By design -/

/-- Callbacks that return 7, and a `TypeError` 99; the stores end as `leaving` says. -/
def simpleUser (leaving : Outcome Nat → Outcome Nat) : User Nat Nat Nat Nat Nat where
  undefined := 0
  truthy v := v != 0
  typeError := 99
  promiseOf v := v
  listener _ _ _ := ([], none)
  transform t _ := ([], .ok t)
  enter _ _ _ := []
  leave _ o _ := ([], leaving o)
  callback _ _ _ _ := ([], .returned 7)

def simpleChannel : TracingChannel := ⟨0, 1, 2, 3, 4⟩

theorem tracing_simple : Tracing (simpleUser id) simpleChannel := tracing_around (fun _ _ _ => rfl) simpleChannel

/-- A listener and a store at `start`. -/
def watched : World Nat Nat Nat Nat Nat where
  channels ch := if ch = 0 then { listeners := [1], stores := [(1, none)] } else {}

/-- A function that returns what its first argument returns. -/
def delegate (_ : Nat) (args : List (Arg Nat Nat)) : Body Nat Nat Nat Nat Nat :=
  .call (args.headD (.value 0)) 0 [0, 8] .done

/-- Tracing changes what a function gets from its callback, what it does without a callback, and what it does inside a
store that does not hand on its outcome. -/
theorem tracing_changes : ((callFn (simpleUser id).invoke delegate 0 [.function 5] watched).2 = .returned 7 ∧
      (traceCallback (simpleUser id) simpleChannel delegate (-1) {} 0 [.function 5] watched).2 = .returned 0) ∧
    ((callFn (simpleUser id).invoke (fun _ _ => .done (.returned 1)) 0 [.value 3] watched).2 = .returned 1 ∧
      (traceCallback (simpleUser id) simpleChannel (fun _ _ => .done (.returned 1)) 0 {} 0 [.value 3] watched).2 =
        .threw 99) ∧
    ((callFn (simpleUser (fun _ => .threw 13)).invoke (fun _ _ => .done (.returned 1)) 0 [] watched).2 = .returned 1 ∧
      (traceSync (simpleUser (fun _ => .threw 13)) simpleChannel (fun _ _ => .done (.returned 1)) {} 0 [] watched).2 =
        .threw 13) := by decide

end NodeCompat.Events.Diagnostics
