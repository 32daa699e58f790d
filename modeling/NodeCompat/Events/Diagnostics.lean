import NodeCompat.Bytes

/-!
# Diagnostics channels

A channel has listeners and stores. `publish` calls the listeners of a snapshot and sets aside what they throw;
`runStores` calls a function inside the stores of a snapshot, from the last one to the first, and publishes right before.

User code is a parameter (`User`): listeners, transforms, stores and callbacks do `Act`s, which they choose by what they
see, and return or throw. The `log` of the world has what is seen of publications and calls.
-/

namespace NodeCompat.Events.Diagnostics

open List

-- listeners, stores, transforms, functions, and values
variable {L S T F V : Type}

abbrev ChannelId := Nat

inductive Outcome (V : Type)
  | returned (v : V)
  | threw (e : V)
deriving DecidableEq

/-- A store is bound with a transform; `none` is the one that hands on the context. -/
structure Channel (L S T : Type) where
  listeners : List L := []
  stores : List (S × Option T) := []

namespace Channel

variable [DecidableEq L] [DecidableEq S]

def hasSubscribers (c : Channel L S T) : Bool := 0 < c.listeners.length || 0 < c.stores.length

def subscribe (c : Channel L S T) (listener : L) : Channel L S T := { c with listeners := c.listeners ++ [listener] }

def unsubscribe (c : Channel L S T) (listener : L) : Channel L S T × Bool :=
  match c.listeners.idxOf? listener with
  | none => (c, false)
  | some index => ({ c with listeners := c.listeners.eraseIdx index }, true)

def bindStore (c : Channel L S T) (store : S) (transform : Option T) : Channel L S T :=
  match c.stores.findIdx? (fun binding => binding.1 = store) with
  | none => { c with stores := c.stores ++ [(store, transform)] }
  | some existing => { c with stores := c.stores.set existing (store, transform) }

def unbindStore (c : Channel L S T) (store : S) : Channel L S T × Bool :=
  match c.stores.findIdx? (fun binding => binding.1 = store) with
  | none => (c, false)
  | some index => ({ c with stores := c.stores.eraseIdx index }, true)

end Channel

/-- What the trace adds to the context. -/
structure TraceResult (V : Type) where
  result : Option V := none
  error : Option V := none

/-- What user code sees and changes. -/
structure Shared (L S T V : Type) where
  channels : ChannelId → Channel L S T := fun _ => {}
  trace : TraceResult V := {}

inductive Act (L S T V : Type)
  | subscribe (ch : ChannelId) (listener : L)
  | unsubscribe (ch : ChannelId) (listener : L)
  | bindStore (ch : ChannelId) (store : S) (transform : Option T)
  | unbindStore (ch : ChannelId) (store : S)
  -- the context is an object that everybody can write to
  | setTrace (trace : TraceResult V)

/-- An argument: a value, a function, or the function that `traceCallback` puts in place of one. -/
inductive Arg (F V : Type)
  | value (v : V)
  | function (f : F)
  | wrapped (f : F)
deriving DecidableEq

inductive Event (L F V : Type)
  | published (ch : ChannelId) (subscribers : List L)
  | delivered (ch : ChannelId) (listener : L)
  | called (this : V) (args : List (Arg F V))
  | callback (f : F) (this : V) (args : List V)
deriving DecidableEq

structure World (L S T F V : Type) extends Shared L S T V where
  /-- What `reportUncaught` is going to throw. -/
  uncaught : List V := []
  log : List (Event L F V) := []

/-- The code of the user, and what the language does with its values. -/
structure User (L S T F V : Type) where
  undefined : V
  truthy : V → Bool
  /-- `new TypeError('The callback argument must be a function')` -/
  typeError : V
  /-- `value instanceof Promise ? value : Promise.resolve(value)` -/
  promiseOf : V → V
  listener : L → ChannelId → Shared L S T V → List (Act L S T V) × Option V
  transform : T → Shared L S T V → List (Act L S T V) × Except V V
  /-- A store runs its callback exactly once: what it does before, and then with the outcome. -/
  enter : S → Option V → Shared L S T V → List (Act L S T V)
  leave : S → Outcome V → Shared L S T V → List (Act L S T V) × Outcome V
  callback : F → V → List V → Shared L S T V → List (Act L S T V) × Outcome V

/-- Stores return what their callback returns, and throw what it throws. -/
def User.HandsOn (u : User L S T F V) : Prop := ∀ store o shared, (u.leave store o shared).2 = o

/-! ## What is seen -/

/-- What a stretch of the log is about, without the deliveries. -/
inductive Mark (F V : Type)
  | published (ch : ChannelId)
  | called (this : V) (args : List (Arg F V))
  | callback (f : F) (this : V) (args : List V)

/-- A stretch of the log shows these marks: each publication is followed by one delivery to each of its subscribers, in
their order, and nothing else is there. -/
inductive Shows : List (Mark F V) → List (Event L F V) → Prop
  | nil : Shows [] []
  | published (ch : ChannelId) (subscribers : List L) {ms : List (Mark F V)} {es : List (Event L F V)} : Shows ms es →
      Shows (.published ch :: ms) (.published ch subscribers :: (subscribers.map (Event.delivered ch) ++ es))
  | called (this : V) (args : List (Arg F V)) {ms : List (Mark F V)} {es : List (Event L F V)} : Shows ms es →
      Shows (.called this args :: ms) (.called this args :: es)
  | callback (f : F) (this : V) (args : List V) {ms : List (Mark F V)} {es : List (Event L F V)} : Shows ms es →
      Shows (.callback f this args :: ms) (.callback f this args :: es)

theorem Shows.append {ms ms' : List (Mark F V)} {es es' : List (Event L F V)} (h : Shows ms es) (h' : Shows ms' es') :
    Shows (ms ++ ms') (es ++ es') := by
  induction h with
  | nil => exact h'
  | published ch subscribers _ ih =>
    rw [cons_append, cons_append, append_assoc]; exact .published ch subscribers ih
  | called this args _ ih => exact .called this args ih
  | callback f this args _ ih => exact .callback f this args ih

/-- Between two worlds these marks are seen. -/
def Shown (w : World L S T F V) (ms : List (Mark F V)) (w' : World L S T F V) : Prop :=
  ∃ es, w'.log = w.log ++ es ∧ Shows ms es

namespace Shown

variable {w w' w'' : World L S T F V} {ms ms' : List (Mark F V)}

theorem of_log (h : w'.log = w.log) : Shown w [] w' := ⟨[], by rw [h, append_nil], .nil⟩

theorem trans (h : Shown w ms w') (h' : Shown w' ms' w'') : Shown w (ms ++ ms') w'' := by
  obtain ⟨es, hlog, hs⟩ := h
  obtain ⟨es', hlog', hs'⟩ := h'
  exact ⟨es ++ es', by rw [hlog', hlog, append_assoc], hs.append hs'⟩

theorem after (hw : w'.log = w.log) (h : Shown w' ms w'') : Shown w ms w'' := (of_log hw).trans h

theorem before (h : Shown w ms w') (hw : w''.log = w'.log) : Shown w ms w'' := by
  have := h.trans (of_log hw); rwa [append_nil] at this

end Shown

/-! ## The channels at work -/

variable [DecidableEq L] [DecidableEq S]

def Shared.perform (sh : Shared L S T V) : Act L S T V → Shared L S T V
  | .subscribe ch listener => { sh with channels := Function.update sh.channels ch ((sh.channels ch).subscribe listener) }
  | .unsubscribe ch listener =>
    { sh with channels := Function.update sh.channels ch ((sh.channels ch).unsubscribe listener).1 }
  | .bindStore ch store transform =>
    { sh with channels := Function.update sh.channels ch ((sh.channels ch).bindStore store transform) }
  | .unbindStore ch store => { sh with channels := Function.update sh.channels ch ((sh.channels ch).unbindStore store).1 }
  | .setTrace trace => { sh with trace }

namespace World

variable (w : World L S T F V)

def does (acts : List (Act L S T V)) : World L S T F V := { w with toShared := acts.foldl Shared.perform w.toShared }

omit [DecidableEq L] [DecidableEq S] in
def note (e : Event L F V) : World L S T F V := { w with log := w.log ++ [e] }

omit [DecidableEq L] [DecidableEq S] in
def reportUncaught (errors : List V) : World L S T F V := { w with uncaught := w.uncaught ++ errors }

end World

/-- One listener of the snapshot. -/
def deliver (u : User L S T F V) (ch : ChannelId) (w : World L S T F V) (listener : L) : World L S T F V :=
  let (acts, thrown) := u.listener listener ch w.toShared
  ((w.note (.delivered ch listener)).does acts).reportUncaught thrown.toList

def publish (u : User L S T F V) (w : World L S T F V) (ch : ChannelId) : World L S T F V :=
  (w.channels ch).listeners.foldl (deliver u ch) (w.note (.published ch (w.channels ch).listeners))

/-- `binding.transform(context)`; `none` is the context itself. -/
def applyTransform (u : User L S T F V) (transform : Option T) (sh : Shared L S T V) :
    List (Act L S T V) × Except V (Option V) :=
  match transform with
  | none => ([], .ok none)
  | some t => ((u.transform t sh).1, (u.transform t sh).2.map some)

/-- `run`, with the bindings that are still to be entered. -/
def runStoresFrom (u : User L S T F V) (ch : ChannelId) (fn : World L S T F V → World L S T F V × Outcome V) :
    List (S × Option T) → World L S T F V → World L S T F V × Outcome V
  | [], w => fn (publish u w ch)
  | (store, transform) :: rest, w =>
    match applyTransform u transform w.toShared with
    | (acts, .error e) => runStoresFrom u ch fn rest ((w.does acts).reportUncaught [e])
    | (acts, .ok storeContext) =>
      let w := w.does acts
      let (w, o) := runStoresFrom u ch fn rest (w.does (u.enter store storeContext w.toShared))
      (w.does (u.leave store o w.toShared).1, (u.leave store o w.toShared).2)

def runStores (u : User L S T F V) (w : World L S T F V) (ch : ChannelId)
    (fn : World L S T F V → World L S T F V × Outcome V) : World L S T F V × Outcome V :=
  runStoresFrom u ch fn (w.channels ch).stores.reverse w

omit [DecidableEq L] [DecidableEq S] in
@[simp] theorem note_log (w : World L S T F V) (e : Event L F V) : (w.note e).log = w.log ++ [e] := rfl

variable {u : User L S T F V} {ch : ChannelId} {w : World L S T F V}

theorem deliver_log (listener : L) : (deliver u ch w listener).log = w.log ++ [.delivered ch listener] := rfl

theorem foldl_deliver_log (listeners : List L) :
    (listeners.foldl (deliver u ch) w).log = w.log ++ listeners.map (Event.delivered ch) := by
  induction listeners generalizing w with
  | nil => simp
  | cons l ls ih => rw [foldl_cons, ih, deliver_log, append_assoc]; rfl

/-- All listeners that are subscribed when a message is published get it, once each and in their order, whatever they do. -/
theorem publish_log (u : User L S T F V) (w : World L S T F V) (ch : ChannelId) : (publish u w ch).log =
    w.log ++ .published ch (w.channels ch).listeners :: (w.channels ch).listeners.map (Event.delivered ch) := by
  rw [publish, foldl_deliver_log, note_log, append_assoc]; rfl

theorem publish_shown (u : User L S T F V) (w : World L S T F V) (ch : ChannelId) :
    Shown w [.published ch] (publish u w ch) := by
  refine ⟨_, publish_log u w ch, ?_⟩
  have := Shows.published (F := F) (V := V) ch (w.channels ch).listeners .nil
  rwa [append_nil] at this

/-- The function runs once, right behind the publication, and its outcome is that of the whole. -/
theorem runStoresFrom_spec (hu : u.HandsOn) (fn : World L S T F V → World L S T F V × Outcome V)
    (bindings : List (S × Option T)) (w : World L S T F V) :
    ∃ w₀, Shown w [.published ch] w₀ ∧ (runStoresFrom u ch fn bindings w).2 = (fn w₀).2 ∧
      (runStoresFrom u ch fn bindings w).1.log = (fn w₀).1.log := by
  induction bindings generalizing w with
  | nil => exact ⟨publish u w ch, publish_shown u w ch, rfl, rfl⟩
  | cons binding rest ih =>
    obtain ⟨store, transform⟩ := binding
    rw [runStoresFrom]
    rcases applyTransform u transform w.toShared with ⟨acts, e | storeContext⟩
    · obtain ⟨w₀, hshown, ho, hlog⟩ := ih ((w.does acts).reportUncaught [e]); exact ⟨w₀, hshown.after rfl, ho, hlog⟩
    · obtain ⟨w₀, hshown, ho, hlog⟩ := ih ((w.does acts).does (u.enter store storeContext (w.does acts).toShared))
      exact ⟨w₀, hshown.after rfl, (hu store _ _).trans ho, hlog⟩

theorem runStores_spec (hu : u.HandsOn) (w : World L S T F V) (ch : ChannelId)
    (fn : World L S T F V → World L S T F V × Outcome V) :
    ∃ w₀, Shown w [.published ch] w₀ ∧ (runStores u w ch fn).2 = (fn w₀).2 ∧ (runStores u w ch fn).1.log = (fn w₀).1.log :=
  runStoresFrom_spec hu fn _ w

end NodeCompat.Events.Diagnostics
