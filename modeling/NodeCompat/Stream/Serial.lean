import NodeCompat.Stream.DuplexRefines

/-!
# The order of writes

`performWrite` calls `_write` at once, whatever else is outstanding: the stream counts the writes in flight and makes none of
them wait. Chunks reach `_write` in the order of acceptance as long as a flush is left alone (`Calm`), and one `_write` is
outstanding at a time when the program waits for each (`Awaited`). What a `Transform` pushes as its `_transform` calls back is
then in order, too (`output`).
-/

namespace NodeCompat.Stream.Writable

open List Option Block

variable {V O : Type} {ofString : BufferEncoding → List UInt16 → Bytes} {w : Writable V} {b : Result V}

/-! ## Conditions on a program -/

/-- While a flush is under way no chunk is accepted, and no other flush is started. -/
def Calm (c : Config (Writable V) (Frame V) (Event V)) (l : Move (Call V)) : Prop := Proper c l ∧
    match l with
    | .call (.write _ _ _) | .call (.callEnd (some _) _ _) =>
      c.stack.any Frame.isFlush = true → c.state.rejectWrite ≠ none
    | _ => True

/-- Frames that may go on with a `_write`. -/
def Frame.mayWrite : Frame V → Bool
  | .flushing _ _ | .writing (some _) => true
  | _ => false

def Call.mayWrite : Call V → Bool
  | .uncork | .write _ _ _ | .callEnd _ _ _ => true
  | _ => false

/-- Nothing is written, uncorked or ended, and no flush goes on, while a `_write` is outstanding. -/
def Awaited (c : Config (Writable V) (Frame V) (Event V)) : Move (Call V) → Prop
  | .call .uncork | .call (.write _ _ _) | .call (.callEnd _ _ _) => c.state.outstanding = []
  | .ret => ∀ f fs, c.stack = f :: fs → f.mayWrite = true → c.state.outstanding = []
  | _ => True

/-! ## Blocks that call no `_write` -/

theorem endRest_calls (rest : EndRest) : (w.endRest rest).state.calls = w.calls :=
  congrArg Held.calls (endRest_quiet rest).held

theorem uncorkAll_calls {kind : Kind} (rest : EndRest) (hc : w.writableCorked = 0) :
    (w.uncorkAll kind rest).state.calls = w.calls := by
  unfold uncorkAll; rw [if_pos hc]; exact endRest_calls rest

theorem call_calls_of_not {k : Call V} (hk : k.mayWrite = false) (hb : w.call ofString .writable k = some b) :
    b.state.calls = w.calls := by
  cases k with
  | uncork | write _ _ _ | callEnd _ _ _ => cases hk
  | cork | setDefaultEncoding _ | readableEnd => cases hb; rfl
  | destroy error => cases hb; exact congrArg Held.calls ((destroy_lifeStep error).held w)
  | written n error =>
    obtain ⟨o, -, rfl⟩ := map_eq_some_iff.1 hb; exact congrArg Held.calls (written_quiet o error).held
  | finalized error =>
    unfold call at hb
    dsimp only at hb
    split at hb
    · cases hb; exact congrArg Held.calls (finalized_quiet error).held
    · cases hb

theorem call_calls {c : Config (Writable V) (Frame V) (Event V)} {k : Call V} (hP : Calm c (.call k))
    (hf : c.stack.any Frame.isFlush = true) (hb : c.state.call ofString .writable k = some b) :
    b.state.calls = c.state.calls := by
  cases k with
  | uncork =>
    cases hb
    have h1 : c.state.writableCorked ≠ 1 := hP.1 hf
    unfold uncork
    dsimp only
    split
    · rfl
    · split
      · rfl
      · next h0 h1' => omega
  | write chunk encoding callback =>
    cases hb; exact congrArg Held.calls (write_quiet chunk encoding callback (hP.2 hf)).held
  | callEnd chunk encoding done =>
    cases hb
    have h0 : c.state.writableCorked = 0 := hP.1 hf
    unfold callEnd
    cases chunk with
    | none => exact uncorkAll_calls _ h0
    | some chunk =>
      obtain ⟨error, hr⟩ := ne_none_iff_exists'.1 (hP.2 hf)
      have hl := errorOrDestroy_lifeStep (V := V) error
      simp only [hr]; rw [uncorkAll_calls _ (by rw [hl.core]; exact h0), hl.core]
  | _ => exact call_calls_of_not rfl hb

theorem goOn_calls {f : Frame V} (hf : f.mayWrite = false) : (w.goOn .writable f).state.calls = w.calls := by
  cases f with
  | writing rest =>
    cases rest with
    | some rest => cases hf
    | none =>
      unfold goOn writeRest
      dsimp only
      split <;> rfl
  | flushing flush rest => cases hf
  | refusing error => exact congrArg Held.calls (refused_quiet error).held
  | completing error => exact congrArg Held.calls (completed_quiet error).held
  | draining =>
    unfold goOn
    dsimp only
    split
    · exact congrArg Held.calls callFinal_quiet.held
    · rfl
  | final => rfl

/-! ## Chunks in the order of acceptance -/

/-- Chunks were written in the order of acceptance, and will be: a flush goes on before the queue is flushed. -/
structure Ordered (c : Config (Writable V) (Frame V) (Event V)) : Prop where
  order : writtenIds c.trace ++ c.stack.flatMap Frame.ids ++ ids c.state.writeQueue = List.range c.state.accepted
  tidy : c.state.Tidy
  frames : ∀ f ∈ c.stack, f.isIndexed = false
  one : c.stack.countP Frame.isFlush ≤ 1

theorem countP_isFlush {fs : List (Frame V)} (h : ∀ f ∈ fs, f.isFlush = false) : fs.countP Frame.isFlush = 0 :=
  countP_eq_zero.2 (fun f hf => by simp [h f hf])

theorem flatMap_ids_of_any {fs : List (Frame V)} (h : fs.any Frame.isFlush = false) : fs.flatMap Frame.ids = [] :=
  flatMap_ids (fun f hf => by simpa using List.any_eq_false.1 h f hf)

theorem Ordered.onto {taken extra : List (Entry V)} {stack : List (Frame V)} {trace : List (Event V)}
    (h : Carries w b taken extra)
    (horder : writtenIds trace ++ ids taken ++ stack.flatMap Frame.ids ++ ids w.writeQueue = List.range w.accepted)
    (hfs : ∀ f ∈ stack, f.isIndexed = false) (hone : stack.countP Frame.isFlush ≤ 1)
    (hfree : stack.any Frame.isFlush = true → b.state.calls = w.calls ∧ taken = []) : Ordered (b.onto stack trace) := by
  have hsplit : writtenIds trace ++ writtenIds b.seen ++ (b.frames.flatMap Frame.ids ++ stack.flatMap Frame.ids) ++
      ids b.state.writeQueue = List.range w.accepted ++ ids extra ∧ (b.frames ++ stack).countP Frame.isFlush ≤ 1 := by
    cases hf : stack.any Frame.isFlush with
    | false =>
      have hnone : stack.countP Frame.isFlush = 0 := countP_eq_zero.2 (by simpa using hf)
      rw [flatMap_ids_of_any hf, append_nil] at horder
      rw [flatMap_ids_of_any hf, append_nil, countP_append, hnone]
      constructor
      · rw [← horder, append_assoc, append_assoc, append_assoc, ← append_assoc (writtenIds b.seen), h.ids_order]; simp
      · cases h.effect with
        | still _ _ _ hq => rw [countP_isFlush hq]; omega
        | wrote _ _ f _ _ _ hb => rw [hb]; exact countP_le_length
    | true =>
      obtain ⟨hcalls, rfl⟩ := hfree hf
      cases h.effect with
      | still _ _ hs hq =>
        have hw := h.ids_order
        rw [writtenIds_eq, hs, flatMap_ids hq] at hw
        rw [writtenIds_eq b.seen, hs, flatMap_ids hq, ← horder, countP_append, countP_isFlush hq]
        simp only [ids, map_nil, filterMap_nil, append_nil, nil_append, append_assoc] at hw ⊢
        exact ⟨by rw [hw], by omega⟩
      | wrote _ _ _ hn _ _ _ => omega
  refine ⟨?_, h.tidy, ?_, hsplit.2⟩
  · simp only [onto_trace, onto_stack, onto_state, writtenIds_append, flatMap_append, h.accepted,
      range_add, ← h.fresh]
    exact hsplit.1
  · simp only [onto_stack, mem_append]
    rintro f (hf | hf)
    · exact h.frames f hf
    · exact hfs f hf

theorem ordered_step {c c' : Config (Writable V) (Frame V) (Event V)} {l : Move (Call V)} (h : Ordered c) (hP : Calm c l)
    (hst : (program ofString .writable).step c l = some c') : Ordered c' := by
  cases l with
  | call k =>
    obtain ⟨-, b, hb, rfl⟩ := Reentrant.step_call hst
    obtain ⟨extra, hc, -⟩ := call_carries h.tidy hb
    refine Ordered.onto hc ?_ h.frames h.one (fun hf => ⟨?_, rfl⟩)
    · rw [before_queue, before_accepted, ids, map_nil, append_nil]; exact h.order
    · have hk : (c.state.before k).calls = c.state.calls := by cases k <;> rfl
      rw [hk]; exact call_calls hP hf hb
  | ret =>
    obtain ⟨f, fs, hs, rfl⟩ := Reentrant.step_ret hst
    have hc := goOn_carries (h.frames f (by simp [hs])) h.tidy
    have hone := h.one
    have horder := h.order
    rw [hs, countP_cons] at hone
    rw [hs, flatMap_cons, ← append_assoc] at horder
    refine Ordered.onto hc horder (fun g hg => h.frames g (by simp [hs, hg])) (by omega) (fun hf => ?_)
    have hpos : 0 < fs.countP Frame.isFlush := countP_pos_iff.2 (by simpa using hf)
    cases f with
    | flushing flush rest => simp only [Frame.isFlush, if_true] at hone; omega
    | writing rest =>
      refine ⟨?_, rfl⟩
      cases rest with
      | none => exact goOn_calls rfl
      | some rest =>
        have h0 : c.state.writableCorked = 0 := hP.1 rest fs hs hf
        show (c.state.writeRest .writable (some rest)).state.calls = _
        unfold writeRest
        dsimp only
        split <;> exact uncorkAll_calls rest h0
    | _ => exact ⟨goOn_calls rfl, rfl⟩

/-! ## One `_write` at a time -/

/-- The calls of `_write` that have called back, in this order. -/
def completions (ls : List (Move (Call V))) : List Nat := ls.filterMap fun
    | .call (.written n _) => some n
    | _ => none

/-- One call of `_write` is outstanding at most, and every call of `_write` was seen. -/
structure Single (c : Config (Writable V) (Frame V) (Event V)) : Prop where
  outstanding : c.state.outstanding.length ≤ 1
  calls : (writes c.trace).length = c.state.calls
  tidy : c.state.Tidy
  frames : ∀ f ∈ c.stack, f.isIndexed = false

/-- The calls in `done` are over, the others outstanding, in the order in which they were made. -/
def Done (done : List Nat) (w : Writable V) : Prop := done ++ w.outstanding.map Outstanding.call = List.range w.calls

theorem Single.onto {taken extra : List (Entry V)} {stack : List (Frame V)} {trace : List (Event V)}
    (h : Carries w b taken extra) (ho : w.outstanding.length ≤ 1) (hc : (writes trace).length = w.calls)
    (hfs : ∀ f ∈ stack, f.isIndexed = false) (hfree : b.state.calls ≠ w.calls → w.outstanding = []) :
    Single (b.onto stack trace) ∧ ∀ done, Done done w → Done done b.state := by
  have hframes : ∀ f ∈ b.frames ++ stack, f.isIndexed = false := by
    simp only [mem_append]
    rintro f (hf | hf)
    · exact h.frames f hf
    · exact hfs f hf
  cases h.effect with
  | still hn ho' hs _ =>
    refine ⟨⟨?_, ?_, h.tidy, hframes⟩, fun done hd => ?_⟩
    · rw [onto_state, ho']; exact ho
    · rw [onto_trace, writes_append, hs, append_nil, hc, onto_state, hn]
    · unfold Done; rw [ho', hn]; exact hd
  | wrote entry length f hn ho' hs _ =>
    have hnil : w.outstanding = [] := hfree (by omega)
    rw [hnil] at ho'
    refine ⟨⟨?_, ?_, h.tidy, hframes⟩, fun done hd => ?_⟩
    · rw [onto_state, ho']; simp
    · rw [onto_trace, writes_append, hs, length_append, hc, onto_state, hn]; rfl
    · unfold Done at hd ⊢; rw [hnil, map_nil, append_nil] at hd; rw [ho', hn, hd, range_succ]; rfl

theorem Done.before {done : List Nat} {k : Call V} (ho : w.outstanding.length ≤ 1) (hd : Done done w)
    (hb : w.call ofString .writable k = some b) : Done (done ++ completions [.call k]) (w.before k) := by
  cases k with
  | written n error =>
    obtain ⟨o, hf, -⟩ := map_eq_some_iff.1 hb
    have hn : o.call = n := by simpa using find?_some hf
    have hone : w.outstanding = [o] := by
      have hmem := mem_of_find?_eq_some hf
      have hpos := length_pos_of_mem hmem
      obtain ⟨o', hs⟩ := length_eq_one_iff.1 (show w.outstanding.length = 1 by omega)
      rw [hs, mem_singleton] at hmem; rw [hs, hmem]
    unfold Done at hd
    rw [hone] at hd
    unfold Done Writable.before settled; rw [hone, ← hn]; simpa [completions] using hd
  | _ => simpa [completions, Writable.before] using hd

theorem single_step {c c' : Config (Writable V) (Frame V) (Event V)} {l : Move (Call V)} {done : List Nat} (h : Single c)
    (hd : Done done c.state) (hP : Awaited c l) (hst : (program ofString .writable).step c l = some c') :
    Single c' ∧ Done (done ++ completions [l]) c'.state := by
  cases l with
  | call k =>
    obtain ⟨-, b, hb, rfl⟩ := Reentrant.step_call hst
    obtain ⟨extra, hc, -⟩ := call_carries h.tidy hb
    have hk : (c.state.before k).calls = c.state.calls := by cases k <;> rfl
    have ho : (c.state.before k).outstanding.length ≤ 1 := by
      cases k with
      | written n error => exact (length_filter_le _ _).trans h.outstanding
      | _ => exact h.outstanding
    have hfree : b.state.calls ≠ (c.state.before k).calls → (c.state.before k).outstanding = [] := by
      rw [hk]
      intro hne
      cases hm : k.mayWrite with
      | false => exact absurd (call_calls_of_not hm hb) hne
      | true => cases k <;> first | exact hP | cases hm
    obtain ⟨hs, hdone⟩ := Single.onto hc ho (h.calls.trans hk.symm) h.frames hfree
    exact ⟨hs, hdone _ (hd.before h.outstanding hb)⟩
  | ret =>
    obtain ⟨f, fs, hs, rfl⟩ := Reentrant.step_ret hst
    have hc := goOn_carries (h.frames f (by simp [hs])) h.tidy
    have hfree : (c.state.goOn .writable f).state.calls ≠ c.state.calls → c.state.outstanding = [] := by
      intro hne
      cases hm : f.mayWrite with
      | false => exact absurd (goOn_calls hm) hne
      | true => exact hP f fs hs hm
    have hfs : ∀ g ∈ fs, g.isIndexed = false := fun g hg => h.frames g (by simp [hs, hg])
    obtain ⟨hs', hdone⟩ := Single.onto hc h.outstanding h.calls hfs hfree
    exact ⟨hs', hdone _ (by simpa [completions] using hd)⟩

theorem single_run {c c' : Config (Writable V) (Frame V) (Event V)} {ls : List (Move (Call V))}
    (h : Run (program ofString .writable).step Awaited c ls c') {done : List Nat} (hs : Single c) (hd : Done done c.state) :
    Single c' ∧ Done (done ++ completions ls) c'.state := by
  induction h generalizing done with
  | nil c => exact ⟨hs, by simpa [completions] using hd⟩
  | @cons c c₁ c' l ls hP hst _ ih =>
    obtain ⟨hs₁, hd₁⟩ := single_step hs hd hP hst
    obtain ⟨hs', hd'⟩ := ih hs₁ hd₁
    refine ⟨hs', ?_⟩
    have hsplit : completions (l :: ls) = completions [l] ++ completions ls := filterMap_append (l := [l])
    rwa [hsplit, ← append_assoc]

/-! ## What a `Transform` makes of it -/

/-- The errors with which the calls of `_write` have called back. -/
def results (ls : List (Move (Call V))) : List (Option WritableError) := ls.filterMap fun
    | .call (.written _ error) => some error
    | _ => none

/-- What `_transform` has made of a chunk when it calls back without an error. -/
def transformed (transform : Entry V → List O) : Option (Entry V) → Option WritableError → List O
  | some entry, none => transform entry
  | _, _ => []

/-- What a `Transform` pushes in a run: its `_write` pushes the data as `_transform` calls back. -/
def output (transform : Entry V → List O) (entries : List (Option (Entry V))) : List (Move (Call V)) → List O
  | [] => []
  | .call (.written n error) :: ls => transformed transform (entries[n]?.join) error ++ output transform entries ls
  | _ :: ls => output transform entries ls

theorem output_of_completions (transform : Entry V → List O) (entries : List (Option (Entry V))) {ls : List (Move (Call V))}
    {k m : Nat} (h : completions ls = List.range' k m) (hk : k + m ≤ entries.length) :
    output transform entries ls = (List.zipWith (transformed transform) (entries.drop k) (results ls)).flatten := by
  induction ls generalizing k m with
  | nil => simp [output, results]
  | cons l ls ih =>
    match l with
    | .call (.written n error) =>
      have hc : n :: completions ls = List.range' k m := h
      cases m with
      | zero => simp at hc
      | succ m =>
        rw [range'_succ, List.cons.injEq] at hc
        obtain ⟨rfl, hc⟩ := hc
        have hn : n < entries.length := by omega
        have hr : results (.call (.written n error) :: ls) = error :: results ls := rfl
        rw [hr, drop_eq_getElem_cons hn, zipWith_cons_cons, flatten_cons, ← ih hc (by omega)]
        simp [output, hn]
    | .ret | .call .cork | .call .uncork | .call (.write _ _ _) | .call (.callEnd _ _ _) | .call (.destroy _) |
      .call (.setDefaultEncoding _) | .call (.finalized _) | .call .readableEnd => exact ih h hk

/-! ## Both classes -/

theorem Stacks.flag_left {q : List (Entry V)} {flag : Bool} {ws ds : List (Frame V)} (h : Stacks q flag ws ds) :
    ws.any Frame.isFlush = flag := by
  induction h with
  | nil | flush => rfl
  | same hf _ ih => simp [hf, ih]

theorem Stacks.top {q : List (Entry V)} {flag : Bool} {f : Frame V} {ws ds : List (Frame V)} (h : Stacks q flag (f :: ws) ds) :
    ∃ f' ds' flag', ds = f' :: ds' ∧ Stacks q flag' ws ds' ∧ f'.mayWrite = f.mayWrite ∧
      ∀ rest, f = .writing (some rest) → f' = f := by
  cases h with
  | @same _ _ ds' _ _ hs => exact ⟨f, ds', flag, rfl, hs, rfl, fun _ _ => rfl⟩
  | @flush _ ds' i rest hs => exact ⟨_, ds', false, rfl, hs, rfl, fun _ hc => by cases hc⟩

section
variable {u d : Config (Writable V) (Frame V) (Event V)} {l : Move (Call V)}

theorem Sim.calm (h : Sim u d) (hP : Calm d l) : Calm u l := by
  obtain ⟨flag, hs, -⟩ := h.queues
  have hany : u.stack.any Frame.isFlush = d.stack.any Frame.isFlush := hs.flag_left.trans hs.flag.symm
  have hcc : u.state.writableCorked = d.state.writableCorked := congrArg (·.writableCorked) h.state.core
  have hr : u.state.rejectWrite = d.state.rejectWrite := rejectWrite_sim h.state
  obtain ⟨hp, ha⟩ := hP
  constructor
  · match l with
    | .call .uncork | .call (.callEnd _ _ _) =>
      unfold Proper at hp ⊢; rw [hany, hcc]; exact hp
    | .call (.write _ _ _) =>
      unfold Proper at hp ⊢; rw [hany, hcc, hr]; exact hp
    | .ret =>
      intro rest fs hst hf
      rw [hst] at hs
      obtain ⟨f', ds', flag', hd, hs', -, hw⟩ := hs.top
      rw [hw rest rfl] at hd
      rw [hcc]; exact hp rest ds' hd (by rw [hs'.flag, ← hs'.flag_left]; exact hf)
    | .call .cork | .call (.destroy _) | .call (.setDefaultEncoding _) | .call (.written _ _) | .call (.finalized _) |
      .call .readableEnd => trivial
  · match l with
    | .call (.write _ _ _) | .call (.callEnd (some _) _ _) => rw [hany, hr]; exact ha
    | .call (.callEnd none _ _) | .ret | .call .uncork | .call .cork | .call (.destroy _) | .call (.setDefaultEncoding _) |
      .call (.written _ _) | .call (.finalized _) | .call .readableEnd => trivial

theorem Sim.awaited (h : Sim u d) (hP : Awaited d l) : Awaited u l := by
  have ho : u.state.outstanding = d.state.outstanding := congrArg (·.outstanding) h.state.core
  match l with
  | .call .uncork | .call (.write _ _ _) | .call (.callEnd _ _ _) => exact ho.trans hP
  | .ret =>
    intro f fs hst hf
    obtain ⟨flag, hs, -⟩ := h.queues
    rw [hst] at hs
    obtain ⟨f', ds', flag', hd, -, hm, -⟩ := hs.top; exact ho.trans (hP f' ds' hd (hm.trans hf))
  | .call .cork | .call (.destroy _) | .call (.setDefaultEncoding _) | .call (.written _ _) | .call (.finalized _) |
    .call .readableEnd => trivial

end

theorem writes_observed (es : List (Event V)) : writes (observed es) = writes es := by
  induction es with
  | nil => rfl
  | cons e es ih =>
    cases e with
    | write entry => exact congrArg (List.cons entry) ih
    | _ => exact ih

/-- The chunks that have been accepted and wait. -/
def unwritten (kind : Kind) (c : Config (Writable V) (Frame V) (Event V)) : List Nat :=
  match kind with
  | .writable => c.stack.flatMap Frame.ids ++ ids c.state.writeQueue
  | .duplex => ids (waiting c)

section
variable {objectMode autoDestroy decodeStrings : Bool} {highWaterMark : Nat} {defaultEncoding : BufferEncoding}
  {ls : List (Move (Call V))} {c d : Config (Writable V) (Frame V) (Event V)}

theorem writable_in_order
    (h : Run (program ofString .writable).step Calm
      (create objectMode highWaterMark autoDestroy decodeStrings defaultEncoding) ls c) : Ordered c :=
  h.invariant (fun _ _ _ hI hP hst => ordered_step hI hP hst) ⟨rfl, fun _ => rfl, forall_mem_nil _, Nat.zero_le _⟩

theorem writable_one_at_a_time
    (h : Run (program ofString .writable).step Awaited
      (create objectMode highWaterMark autoDestroy decodeStrings defaultEncoding) ls c) :
    c.state.outstanding.length ≤ 1 ∧ ∀ (O : Type) (transform : Entry V → List O), output transform (writes c.trace) ls =
      (List.zipWith (transformed transform) (writes c.trace) (results ls)).flatten := by
  have h0 : Single (create objectMode highWaterMark autoDestroy decodeStrings defaultEncoding : Config (Writable V) _ _) :=
    ⟨Nat.zero_le _, rfl, fun _ => rfl, forall_mem_nil _⟩
  have hd0 : Done [] (create objectMode highWaterMark autoDestroy decodeStrings defaultEncoding :
      Config (Writable V) (Frame V) (Event V)).state := rfl
  obtain ⟨hs, hd⟩ := single_run h h0 hd0
  refine ⟨hs.outstanding, fun O transform => ?_⟩
  have hlen := congrArg List.length hd
  simp only [nil_append, length_append, length_map, length_range] at hlen
  have hpre : completions ls <+: List.range c.state.calls := ⟨_, hd⟩
  rw [prefix_iff_eq_take, take_range, Nat.min_eq_left (by omega), range_eq_range'] at hpre
  exact output_of_completions transform _ hpre (by have := hs.calls; omega)

end

end NodeCompat.Stream.Writable
