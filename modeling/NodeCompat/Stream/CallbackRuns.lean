import NodeCompat.Stream.Callbacks

/-!
# Callbacks over whole runs

The callback of an accepted chunk is called by the first call-back of its `_write`, and with its error (`Pending`); until then
the chunk is outstanding, or waits in the queue or in a flush. With the books on `end` this gives what holds once a stream is
closed or finished (`callbacks_once`).
-/

namespace NodeCompat.Stream.Writable

open List Option

variable {V : Type} {ofString : BufferEncoding → List UInt16 → Bytes} {kind : Kind} {w : Writable V} {b : Result V}

variable {trace : List (Event V)} {l : Move (Call V)}

/-- The chunks that were passed to the `_write`s that are outstanding. -/
def outEntries (w : Writable V) : List (Entry V) := w.outstanding.filterMap Outstanding.entry

/-- The accepted chunks that a flush or the queue holds back. -/
def heldEntries (kind : Kind) (c : Config (Writable V) (Frame V) (Event V)) : List (Entry V) :=
  match kind with
  | .writable => c.stack.flatMap Frame.entries ++ c.state.writeQueue
  | .duplex => waiting c

/-- The accepted chunks that were not called back. -/
def pendingEntries (kind : Kind) (c : Config (Writable V) (Frame V) (Event V)) : List (Entry V) :=
  c.state.outEntries ++ heldEntries kind c

/-- The callbacks given to `write`. -/
def passes : Move (Call V) → Nat
  | .call (.write _ _ true) => 1
  | _ => 0

/-- The callbacks of accepted chunks that were called. -/
def calledIds (es : List (Event V)) : List Nat := (called es).filterMap Prod.fst

/-- A call of a callback of `write`, after the moves `ls`: of a refused chunk with an error, or of a chunk whose own `_write`
called back with what the callback is given. -/
def Accounts (ls : List (Move (Call V))) (trace : List (Event V)) (p : Option Nat × Option WritableError) : Prop :=
  (p.1 = none ∧ p.2 ≠ none) ∨
    ∃ n entry, .call (.written n p.2) ∈ ls ∧ (writes trace)[n]? = some (some entry) ∧ p.1 = some entry.id

/-- The books on the chunks of a `Writable`. -/
structure Pending (ls : List (Move (Call V))) (c : Config (Writable V) (Frame V) (Event V)) : Prop where
  number : (ls.map passes).sum = (called c.trace).length + (pendingEntries .writable c).countP Entry.callback
  once : ∀ i, (calledIds c.trace).count i + (ids (pendingEntries .writable c)).count i ≤
    (List.range c.state.accepted).count i
  record : ∀ o ∈ c.state.outstanding, (writes c.trace)[o.call]? = some o.entry
  calls : (writes c.trace).length = c.state.calls
  origin : ∀ p ∈ called c.trace, Accounts ls c.trace p
  tidy : c.state.Tidy
  frames : ∀ f ∈ c.stack, f.isIndexed = false

/-! ## The effect of a block -/

theorem Effect.outEntries (h : Effect w b) : b.state.outEntries = w.outEntries ++ writtenEntries b.seen := by
  unfold Writable.outEntries writtenEntries
  cases h with
  | still _ ho hs _ => rw [ho, hs]; exact (append_nil _).symm
  | wrote entry length f _ ho hs _ => rw [ho, hs, filterMap_append]; rfl

theorem Effect.record (h : Effect w b) (hn : (writes trace).length = w.calls)
    (hr : ∀ o ∈ w.outstanding, (writes trace)[o.call]? = some o.entry) :
    (writes (trace ++ b.seen)).length = b.state.calls ∧
      ∀ o ∈ b.state.outstanding, (writes (trace ++ b.seen))[o.call]? = some o.entry := by
  rw [writes_append]
  have hold : ∀ o ∈ w.outstanding, ∀ more, (writes trace ++ more)[o.call]? = some o.entry := by
    intro o ho more
    obtain ⟨hlt, -⟩ := List.getElem?_eq_some_iff.1 (hr o ho)
    rw [getElem?_append_left hlt]; exact hr o ho
  cases h with
  | still hc ho hs _ => rw [ho, hs, hc]; exact ⟨by rw [append_nil, hn], fun o hm => hold o hm []⟩
  | wrote entry length f hc ho hs _ =>
    rw [ho, hs, hc]
    refine ⟨by rw [length_append, hn]; rfl, fun o hm => ?_⟩
    obtain hm | hm := mem_append.1 hm
    · exact hold o hm _
    · obtain rfl := mem_singleton.1 hm; rw [← hn, getElem?_append_right (Nat.le_refl _), Nat.sub_self]; rfl

theorem Carries.pending {taken extra : List (Entry V)} (h : Carries w b taken extra) (stack : List (Frame V))
    (m : List (Entry V) → Nat) (hm : ∀ q q', m (q ++ q') = m q + m q') :
    m (b.state.outEntries ++ ((b.frames ++ stack).flatMap Frame.entries ++ b.state.writeQueue)) =
      m (w.outEntries) + m taken + m (stack.flatMap Frame.entries) + m w.writeQueue + m extra := by
  have ho := congrArg m h.order
  rw [h.effect.outEntries, flatMap_append]; simp only [hm] at ho ⊢; omega

/-! ## A move -/

theorem before_calls (k : Call V) : (w.before k).calls = w.calls := by
  cases k <;> rfl

theorem before_outstanding (k : Call V) : (w.before k).outstanding ⊆ w.outstanding := by
  cases k with
  | written n error => exact filter_subset_self _
  | _ => exact Subset.refl _

theorem settled_outEntries {o : Outstanding V} (ho : o ∈ w.outstanding)
    (hone : ∀ n, (w.outstanding.map Outstanding.call).count n ≤ 1) :
    w.outEntries.Perm (o.entry.toList ++ (w.settled o.call).outEntries) := by
  have hp := (settled_perm ho hone).filterMap Outstanding.entry
  rw [filterMap_cons] at hp
  cases he : o.entry with
  | none | some entry => rw [he] at hp; exact hp

/-- A call passes a callback on, or has it called at once; and calls that of the chunk it settles. -/
theorem call_counts {k : Call V} (hb : w.call ofString kind k = some b)
    (hone : ∀ n, (w.outstanding.map Outstanding.call).count n ≤ 1) :
    w.outEntries.countP Entry.callback + passes (.call k) =
        (w.before k).outEntries.countP Entry.callback + (w.answers k).length + k.accepts w ∧
      ∀ i, (ids (w.before k).outEntries).count i + ((w.answers k).filterMap Prod.fst).count i ≤ (ids w.outEntries).count i := by
  cases k with
  | write chunk encoding callback =>
    have hout : (w.before (.write chunk encoding callback)).outEntries = w.outEntries := rfl
    rw [hout]
    cases callback with
    | false => exact ⟨rfl, fun i => Nat.le_refl _⟩
    | true =>
      unfold answers Call.accepts passes
      cases w.rejectWrite with
      | none | some error => exact ⟨rfl, fun i => Nat.le_refl _⟩
  | written n error =>
    obtain ⟨o, ho, -⟩ := map_eq_some_iff.1 hb
    have hn : o.call = n := by simpa using find?_some ho
    subst hn
    have hp := settled_outEntries (mem_of_find?_eq_some ho) hone
    have hout : (w.before (.written o.call error)).outEntries = (w.settled o.call).outEntries := rfl
    unfold answers passes Call.accepts
    dsimp only
    rw [ho, hout, hp.countP_eq, countP_append, bind_some]
    have hcount : ∀ i, (ids w.outEntries).count i = (ids o.entry.toList).count i + (ids (w.settled o.call).outEntries).count i := by
      intro i; rw [← count_append, ← ids_append]; exact (hp.map Entry.id).count_eq i
    cases he : o.entry with
    | none =>
      refine ⟨by simp, fun i => ?_⟩
      rw [hcount i, he]; simp [ids]
    | some entry =>
      cases hc : entry.callback with
      | false =>
        refine ⟨by simp [hc, Option.filter], fun i => ?_⟩
        rw [hcount i, he]; simp [hc, Option.filter]
      | true =>
        refine ⟨by simp [hc, Option.filter]; omega, fun i => ?_⟩
        rw [hcount i, he]; simp [hc, Option.filter, ids]; omega
  | _ => exact ⟨rfl, fun i => Nat.le_refl _⟩

theorem Accounts.mono {ls : List (Move (Call V))} {p : Option Nat × Option WritableError}
    (h : Accounts ls trace p) (ls' : List (Move (Call V))) (es : List (Event V)) : Accounts (ls ++ ls') (trace ++ es) p := by
  obtain h | ⟨n, entry, hmem, hentry, hp⟩ := h
  · exact .inl h
  · obtain ⟨hlt, -⟩ := List.getElem?_eq_some_iff.1 hentry
    refine .inr ⟨n, entry, mem_append_left _ hmem, ?_, hp⟩
    rw [writes_append, getElem?_append_left hlt]; exact hentry

theorem answers_accounts {k : Call V}
    (hr : ∀ o ∈ w.outstanding, (writes trace)[o.call]? = some o.entry) :
    ∀ p ∈ w.answers k, Accounts [.call k] trace p := by
  intro p hp
  cases k with
  | write chunk encoding callback =>
    cases callback with
    | false => cases hp
    | true => obtain ⟨error, -, rfl⟩ := map_eq_some_iff.1 (mem_toList.1 hp); exact .inl ⟨rfl, nofun⟩
  | written n error =>
    obtain ⟨entry, he, rfl⟩ := map_eq_some_iff.1 (mem_toList.1 hp)
    obtain ⟨o, ho, hentry⟩ := bind_eq_some_iff.1 (filter_eq_some_iff.1 he).1
    have hn : o.call = n := by simpa using find?_some ho
    have hrec := hr o (mem_of_find?_eq_some ho)
    rw [hn, hentry] at hrec; exact .inr ⟨n, entry, mem_singleton_self _, hrec, rfl⟩
  | _ => cases hp

theorem answeredBy_accounts {c : Config (Writable V) (Frame V) (Event V)}
    (hr : ∀ o ∈ c.state.outstanding, (writes c.trace)[o.call]? = some o.entry) :
    ∀ p ∈ answeredBy c.state l, Accounts [l] c.trace p := by
  cases l with
  | call k => exact answers_accounts hr
  | ret => nofun

/-- What a block makes of the books: the moves `ls` have called what is in `answered`, and the last one answered `new`. -/
theorem Pending.onto {ls : List (Move (Call V))} {taken extra : List (Entry V)} {stack : List (Frame V)}
    {new : List (Option Nat × Option WritableError)} (h : Carries w b taken extra)
    (hnumber : ((ls ++ [l]).map passes).sum = (called trace).length + new.length + w.outEntries.countP Entry.callback +
      taken.countP Entry.callback + (stack.flatMap Frame.entries).countP Entry.callback +
      w.writeQueue.countP Entry.callback + extra.countP Entry.callback)
    (honce : ∀ i, (calledIds trace).count i + (new.filterMap Prod.fst).count i + (ids w.outEntries).count i +
      (ids taken).count i + (ids (stack.flatMap Frame.entries)).count i + (ids w.writeQueue).count i ≤
      (List.range w.accepted).count i)
    (hr : ∀ o ∈ w.outstanding, (writes trace)[o.call]? = some o.entry) (hc : (writes trace).length = w.calls)
    (horigin : ∀ p ∈ called trace ++ new, Accounts (ls ++ [l]) trace p) (hfs : ∀ f ∈ stack, f.isIndexed = false)
    (hcalled : called (trace ++ b.seen) = called trace ++ new) : Pending (ls ++ [l]) (b.onto stack trace) := by
  obtain ⟨hlength, hrecord⟩ := h.effect.record hc hr
  refine ⟨?_, fun i => ?_, hrecord, hlength, fun p hp => ?_, h.tidy, ?_⟩
  · have hm := h.pending stack (List.countP Entry.callback) (fun _ _ => countP_append)
    simp only [Block.onto_trace, Block.onto_stack, Block.onto_state, pendingEntries, heldEntries, hcalled, length_append]
    omega
  · have hm := h.pending stack (fun q => (ids q).count i) (fun q q' => by rw [ids_append, count_append])
    have hi := honce i
    have hids : calledIds (trace ++ b.seen) = calledIds trace ++ new.filterMap Prod.fst := by
      rw [calledIds, hcalled, filterMap_append]; rfl
    simp only [Block.onto_trace, Block.onto_stack, Block.onto_state, pendingEntries, heldEntries, hids, count_append, h.accepted,
      range_add, ← h.fresh]
    omega
  · rw [Block.onto_trace, hcalled] at hp
    have ha := (horigin p hp).mono [] b.seen; rw [append_nil] at ha; exact ha
  · simp only [Block.onto_stack, mem_append]
    rintro f (hf | hf)
    · exact h.frames f hf
    · exact hfs f hf

/-- **One move.** -/
theorem Pending.step {c c' : Config (Writable V) (Frame V) (Event V)} {ls : List (Move (Call V))}
    (h : Pending ls c) (hone : ∀ n, (c.state.outstanding.map Outstanding.call).count n ≤ 1)
    (hcalled : called c'.trace = called c.trace ++ answeredBy c.state l)
    (hst : (program ofString .writable).step c l = some c') : Pending (ls ++ [l]) c' := by
  have hnumber := h.number
  have horigin : ∀ p ∈ called c.trace ++ answeredBy c.state l, Accounts (ls ++ [l]) c.trace p := by
    intro p hp
    obtain hp | hp := mem_append.1 hp
    · simpa using (h.origin p hp).mono [l] []
    · obtain ha | ⟨n, entry, hmem, ha⟩ := answeredBy_accounts h.record p hp
      · exact .inl ha
      · exact .inr ⟨n, entry, mem_append_right _ hmem, ha⟩
  simp only [pendingEntries, heldEntries, countP_append] at hnumber
  cases l with
  | call k =>
    obtain ⟨-, b, hb, rfl⟩ := Reentrant.step_call hst
    obtain ⟨extra, hc, hextra⟩ := call_carries h.tidy hb
    obtain ⟨hpass, hids⟩ := call_counts hb hone
    refine Pending.onto hc ?_ (fun i => ?_) (fun o ho => h.record o (before_outstanding k ho))
      (h.calls.trans (before_calls k).symm) horigin h.frames hcalled
    · rw [map_append, sum_append, map_singleton, sum_singleton, before_queue, hextra,
        countP_nil, show answeredBy c.state (.call k) = c.state.answers k from rfl]
      omega
    · have hi := h.once i
      have hk := hids i
      simp only [pendingEntries, heldEntries, ids_append, count_append] at hi
      rw [before_queue, before_accepted, show ids ([] : List (Entry V)) = [] from rfl, count_nil,
        show answeredBy c.state (.call k) = c.state.answers k from rfl]
      omega
  | ret =>
    obtain ⟨f, fs, hs, rfl⟩ := Reentrant.step_ret hst
    have hc := goOn_carries (h.frames f (by simp [hs])) h.tidy
    rw [hs, flatMap_cons, countP_append] at hnumber
    refine Pending.onto hc ?_ (fun i => ?_) h.record h.calls horigin (fun g hg => h.frames g (by simp [hs, hg])) hcalled
    · rw [map_append, sum_append, map_singleton, sum_singleton, countP_nil,
        show answeredBy c.state (.ret : Move (Call V)) = [] from rfl, show passes (.ret : Move (Call V)) = 0 from rfl, length_nil]
      omega
    · have hi := h.once i
      rw [pendingEntries, heldEntries, hs] at hi
      simp only [flatMap_cons, ids_append, count_append] at hi
      rw [show answeredBy c.state (.ret : Move (Call V)) = [] from rfl, filterMap_nil, count_nil]
      omega

/-! ## Runs -/

/-- At no point of a run is the stream destroyed, without an error, before it is ended. -/
def InTime (step : Config (Writable V) (Frame V) (Event V) → Move (Call V) → Option (Config (Writable V) (Frame V) (Event V)))
    (c : Config (Writable V) (Frame V) (Event V)) (ls : List (Move (Call V))) : Prop :=
  ∀ ls' c', ls' <+: ls → runs step c ls' = some c' → ¬ c'.state.Late

section
variable {P : Config (Writable V) (Frame V) (Event V) → Move (Call V) → Prop} {c c' : Config (Writable V) (Frame V) (Event V)}
  {ls : List (Move (Call V))} {late calm : Prop} {given : List Nat}

/-- **The books on `end` over a run**, of either class. -/
theorem ends_run (hrun : Run (program ofString kind).step P c ls c')
    (h : Callbacks late False given (called c.trace) c.state [] c.stack c.trace) :
    Callbacks (late ∨ ¬ InTime (program ofString kind).step c ls) False (given ++ ls.flatMap givenBy) (called c'.trace) c'.state []
      c'.stack c'.trace := by
  induction hrun generalizing late given with
  | nil c => rw [flatMap_nil, append_nil]; exact h.mono .inl
  | @cons c c₁ c' l ls _ hst _ ih =>
    have h₁ := h.step nofun nofun hst
    rw [← h₁.called] at h₁
    have h' := ih h₁
    rw [append_assoc, ← flatMap_cons] at h'
    refine h'.mono (fun hl => ?_)
    obtain (hl | hl) | hl := hl
    · exact .inl hl
    · exact .inr (fun hin => hin [] c (List.nil_prefix) rfl hl)
    · refine .inr (fun hin => hl (fun ls' c₂ hpre hruns => hin (l :: ls') c₂ ?_ ?_))
      · exact cons_prefix_cons.2 ⟨rfl, hpre⟩
      · exact bind_eq_some_iff.2 ⟨c₁, hst, hruns⟩

/-- **The books on the chunks over a run** of a `Writable`. -/
theorem pending_run (hcalm : calm → ∀ c l, P c l → Apart c l) (hrun : Run (program ofString .writable).step P c ls c')
    {pre : List (Move (Call V))} (h : Callbacks True calm given (called c.trace) c.state [] c.stack c.trace) (hp : Pending pre c) :
    Callbacks True calm (given ++ ls.flatMap givenBy) (called c'.trace) c'.state [] c'.stack c'.trace ∧ Pending (pre ++ ls) c' := by
  induction hrun generalizing given pre with
  | nil c => rw [flatMap_nil, append_nil, append_nil]; exact ⟨h, hp⟩
  | @cons c c₁ c' l ls hP hst _ ih =>
    have hone : ∀ n, (c.state.outstanding.map Outstanding.call).count n ≤ 1 := fun n =>
      Nat.le_trans (h.calls n) (nodup_iff_count_le_one.1 nodup_range n)
    have h₁ : Callbacks True calm (given ++ givenBy l) (called c.trace ++ answeredBy c.state l) c₁.state [] c₁.stack c₁.trace :=
      (h.step (fun hc => hcalm hc c l hP) (fun _ => hp.tidy) hst).mono (fun _ => trivial)
    have hp₁ := hp.step hone h₁.called hst
    rw [← h₁.called] at h₁
    have hboth := ih h₁ hp₁
    rw [append_assoc, ← flatMap_cons, append_assoc, singleton_append] at hboth; exact hboth

end

section
variable {objectMode autoDestroy decodeStrings : Bool} {highWaterMark : Nat} {defaultEncoding : BufferEncoding}
  {ls : List (Move (Call V))} {c d : Config (Writable V) (Frame V) (Event V)}

theorem create_callbacks {calm : Prop} : Callbacks False calm [] (called ([] : List (Event V)))
    (create objectMode highWaterMark autoDestroy decodeStrings defaultEncoding : Config (Writable V) (Frame V) (Event V)).state []
    [] [] where
  ends _ := rfl
  called := rfl
  finish := nofun
  success := nofun
  ended := fun h => by simp [create] at h
  idle _ := rfl
  finished _ := rfl
  one _ := Nat.zero_le _
  destroyed := .inr (fun _ => rfl)
  inFlight := rfl
  calls _ := Nat.le_refl _
  shut := fun _ h => by simp [create] at h
  final := fun _ _ => rfl

theorem create_pending : Pending [] (create objectMode highWaterMark autoDestroy decodeStrings defaultEncoding :
    Config (Writable V) (Frame V) (Event V)) :=
  ⟨rfl, fun _ => Nat.le_refl _, forall_mem_nil _, rfl, forall_mem_nil _, fun _ => rfl, forall_mem_nil _⟩

theorem called_observed (es : List (Event V)) : called (observed es) = called es := by
  induction es with
  | nil => rfl
  | cons e es ih =>
    cases e with
    | writeCallback id error => exact congrArg (List.cons (id, error)) ih
    | _ => exact ih

theorem Sim.apart {u d : Config (Writable V) (Frame V) (Event V)} {l : Move (Call V)} (h : Sim u d) (hP : Apart d l) :
    Apart u l := by
  obtain ⟨flag, hs, -⟩ := h.queues
  match l with
  | .call (.callEnd _ _ _) =>
    exact (hs.flag_left.trans hs.flag.symm).trans hP
  | .ret =>
    unfold Apart at hP ⊢
    dsimp only at hP ⊢
    split
    · next f ws hu =>
      rw [hu] at hs
      cases hd : d.stack with
      | nil => rw [hd] at hs; cases hs
      | cons g ds =>
        rw [hd] at hs hP
        cases hs with
        | same _ hs => exact fun he => hs.flag_left.trans (hs.flag.symm.trans (hP he))
        | flush hs => exact fun _ => hs.flag_left
    · trivial
  | .call (.write _ _ _) | .call .uncork | .call .cork | .call (.destroy _) | .call (.setDefaultEncoding _) |
    .call (.written _ _) | .call (.finalized _) | .call .readableEnd => trivial

/-- The books of a run, of either class: of a `Duplex`, when its flushes are left alone. -/
theorem books_run (calm : Prop) {P : Config (Writable V) (Frame V) (Event V) → Move (Call V) → Prop}
    (hP : ∀ c l, P c l → (kind = .duplex → Proper c l) ∧ (calm → Apart c l))
    (hrun : Run (program ofString kind).step P (create objectMode highWaterMark autoDestroy decodeStrings defaultEncoding) ls c) :
    ∃ u, Callbacks True calm (ls.flatMap givenBy) (called u.trace) u.state [] u.stack u.trace ∧ Pending ls u ∧
      u.state.toWritableCore = c.state.toWritableCore ∧ heldEntries .writable u = heldEntries kind c ∧
      called u.trace = called c.trace ∧ writes u.trace = writes c.trace ∧ (.finish ∈ u.trace ↔ .finish ∈ c.trace) := by
  have hfrom : ∀ u, Run (program ofString .writable).step (fun c l => calm → Apart c l)
      (create objectMode highWaterMark autoDestroy decodeStrings defaultEncoding) ls u →
      Callbacks True calm (ls.flatMap givenBy) (called u.trace) u.state [] u.stack u.trace ∧ Pending ls u := by
    intro u hu
    have h := pending_run (fun hc _ _ h => h hc) hu (create_callbacks.mono (fun _ => trivial)) create_pending
    rw [nil_append, nil_append] at h; exact h
  cases kind with
  | writable =>
    obtain ⟨h, hp⟩ := hfrom c (hrun.mono (fun c l h => (hP c l h).2))
    exact ⟨c, h, hp, rfl, rfl, rfl, rfl, Iff.rfl⟩
  | duplex =>
    obtain ⟨u, hu, hR⟩ := follows (Q := fun c l => calm → Apart c l) (fun c l h => (hP c l h).1 rfl)
      (fun _ d l hR h hc => hR.apart ((hP d l h).2 hc)) hrun
    obtain ⟨h, hp⟩ := hfrom u hu
    refine ⟨u, h, hp, hR.state.core, hR.waiting, ?_, ?_, ?_⟩
    · rw [← called_observed, hR.trace, called_observed]
    · rw [← writes_observed, hR.trace, writes_observed]
    · have hmem : ∀ es : List (Event V), .finish ∈ observed es ↔ .finish ∈ es := by
        simp [observed, mem_filter, Event.observed]
      rw [← hmem, hR.trace, hmem]

end

end NodeCompat.Stream.Writable
