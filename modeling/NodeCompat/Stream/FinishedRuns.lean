import NodeCompat.Stream.Finished

/-!
# What `finished` and `pipeline` report

The callback is called at most once. It is called without an error only for a stream that is complete, as long as the two
flags and the four listeners find none that is half complete or closed too soon; and a `pipeline` reports what fails if that is
its last stream, with an error, when the others are gone (`reports`). A `Duplex` that has ended, but not finished, passes for complete, and a source that is destroyed is not
reported (`source_unreported`): only the last stream is looked at, and nothing is destroyed.
-/

namespace NodeCompat.Stream

open List Option Bool Finished Pipeline

variable {E : Type}

namespace StreamLike

/-- Every side that the stream has is complete. -/
def complete (s : StreamLike E) : Bool := (!s.hasReadable || s.readableEnded) && (!s.hasWritable || s.writableFinished)

/-- The stream errs or is destroyed, and is not complete. -/
def fails (s : StreamLike E) : Change E → Bool
  | .destroy _ => !s.complete && !s.destroyed
  | .fail _ => !s.complete
  | _ => false

/-- It did before. -/
def failed (s : StreamLike E) : Bool := !s.complete && (s.destroyed || s.errored.isSome)

end StreamLike

/-- What the flags that `finished` looks at tell. -/
def Undivided (s : StreamLike E) : Prop := s.readableEnded = true ∨ s.writableFinished = true → s.complete = true

/-- A listener hears of a stream that is complete, or of an error. -/
def Heard (s : StreamLike E) (f : Finished E) : Emitted E → Prop
  | .ended => f.called = false → f.onEnd = true → s.hasWritable = true → s.writableEnded = true → s.writableFinished = true
  | .close => f.called = false → f.onClose = true → s.errored = none → s.complete = true
  | _ => True

def Watched.Clear (w : Watched E) : Watched.Move E → Prop
  | .emit e => Heard w.stream w.finished e
  | _ => True

/-- A `pipeline`, and which streams failed before they were complete. -/
structure Piped (E : Type) where
  pipeline : Pipeline E
  failures : List Nat

namespace Piped

def failing (p : Pipeline E) : Pipeline.Move E → List Nat
  | .change index k => ((p.streams[index]?).filter (fun s => s.fails k)).toList.map (fun _ => index)
  | _ => []

def step (c : Piped E) (m : Pipeline.Move E) : Option (Piped E) :=
  (c.pipeline.step m).map (fun p => { pipeline := p, failures := c.failures ++ failing c.pipeline m })

def create (p : Pipeline E) : Piped E where
  pipeline := p
  failures := (List.range p.streams.length).filter (fun index => (p.streams[index]?).any StreamLike.failed)

/-- All streams apart from the `index`-th are destroyed. -/
def OthersGone (p : Pipeline E) (index : Nat) : Prop :=
  ∀ j s, j ≠ index → p.streams[j]? = some s → s.destroyed = true

/-- A stream that is not complete fails only as the last one, once it is watched, with an error and after the others are
destroyed, and is not completed before the callback is called; the listeners hear of a complete stream or an error. -/
def Clear (c : Piped E) : Pipeline.Move E → Prop
  | .change index k => ∀ s, c.pipeline.streams[index]? = some s → s.complete = false →
      match k with
      | .destroy error => s.destroyed = false → index = c.pipeline.streams.length - 1 ∧ error ≠ none ∧
          OthersGone c.pipeline index ∧ ∃ f, c.pipeline.stage = .watching f
      | .fail _ => index = c.pipeline.streams.length - 1 ∧ s.destroyed = true ∧ OthersGone c.pipeline index ∧
          ∃ f, c.pipeline.stage = .watching f
      | .readableEnd | .finish => index = c.pipeline.streams.length - 1 → s.destroyed = true →
          ∀ f, c.pipeline.stage = .watching f → f.called = true
      | .writableEnd => True
  | .emit e => ∀ s f, c.pipeline.destination = some s → c.pipeline.stage = .watching f → Heard s f e
  | .go => ∀ s, c.pipeline.destination = some s → c.pipeline.stage = .piping 0 → Undivided s

/-- The last stream has nothing more to say of an error or of its close. -/
def Quiet (s : StreamLike E) (f : Finished E) : Prop :=
  (s.errored ≠ none → f.onError = false) ∧ (s.destroyed = true → f.onClose = false)

/-- Once a stream has failed and nothing is left to hear, the callback has got an error and all streams are destroyed. -/
def Reports (c : Piped E) : Prop :=
  c.failures ≠ [] → ∀ s f, c.pipeline.destination = some s → c.pipeline.stage = .watching f → Quiet s f →
    (∃ e, some e ∈ f.calls) ∧ ∀ t ∈ c.pipeline.streams, t.destroyed = true

end Piped

/-! ## One stream -/

structure Once (f : Finished E) : Prop where
  once : f.calls.length ≤ 1
  called : f.called = true ↔ f.calls ≠ []

def Truthful (s : StreamLike E) (f : Finished E) : Prop := none ∈ f.calls → s.complete = true

variable {s : StreamLike E} {f f' : Finished E}

theorem Once.done (h : Once f) (error : Option E) : Once (f.done error) := by
  unfold Finished.done
  split
  · exact h
  · next hc =>
    have hnil : f.calls = [] := by
      by_contra hne
      exact hc (h.called.2 hne)
    refine ⟨?_, fun _ => append_ne_nil_of_right_ne_nil _ (cons_ne_nil _ _), fun _ => rfl⟩
    rw [hnil]; exact Nat.le_refl 1

theorem Truthful.done {error : Option E} (h : Truthful s f) (he : f.called = false → error = none → s.complete = true) :
    Truthful s (f.done error) := by
  unfold Finished.done
  split
  · exact h
  · next hc =>
    rw [not_eq_true] at hc
    intro hmem
    obtain hmem | hmem := mem_append.1 hmem
    · exact h hmem
    · exact he hc (mem_singleton.1 hmem).symm

theorem once_finished (s : StreamLike E) : Once (finished s) := by
  have hnew : Once ({} : Finished E) := ⟨Nat.zero_le 1, nofun, fun hne => absurd rfl hne⟩
  unfold finished
  split
  · exact hnew.done none
  · exact hnew

theorem truthful_finished (hs : Undivided s) : Truthful s (finished s) := by
  have hnew : Truthful s ({} : Finished E) := nofun
  unfold finished
  split
  · next hflags => exact hnew.done (fun _ _ => hs (or_eq_true_iff.1 hflags))
  · exact hnew

open StreamLike

theorem complete_change (k : Change E) (h : s.complete = true) : (s.change k).complete = true := by
  unfold complete at h ⊢
  cases k with
  | readableEnd | finish => simp_all [change]
  | writableEnd | fail error => exact h
  | destroy error =>
    unfold change
    dsimp only
    split <;> exact h

theorem emit_cases (f : Finished E) (s : StreamLike E) (e : Emitted E) :
    (f.emit s e).called = f.called ∧ (f.emit s e).calls = f.calls ∨
      ∃ (error : Option E) (g : Finished E), f.emit s e = g.done error ∧ g.called = f.called ∧ g.calls = f.calls ∧
        match e with
        | .ended => f.onEnd = true ∧ error = none ∧ (s.hasWritable = true → s.writableFinished = true ∨ s.writableEnded = true)
        | .finish => error = none ∧ (s.hasReadable = true → s.readableEnded = true)
        | .close => f.onClose = true ∧ error = s.errored
        | .error e => error = some e := by
  cases e with
  | ended =>
    unfold emit
    dsimp only
    split
    · next hon =>
      split
      · next hflags =>
        refine .inr ⟨none, { f with onEnd := false }, rfl, rfl, rfl, hon, rfl, fun hw => ?_⟩
        simpa [hw] using hflags
      · exact .inl ⟨rfl, rfl⟩
    · exact .inl ⟨rfl, rfl⟩
  | finish =>
    unfold emit
    dsimp only
    split
    · split
      · next hflags =>
        refine .inr ⟨none, { f with onFinish := false }, rfl, rfl, rfl, rfl, fun hr => ?_⟩
        simpa [hr] using hflags
      · exact .inl ⟨rfl, rfl⟩
    · exact .inl ⟨rfl, rfl⟩
  | close =>
    unfold emit
    dsimp only
    split
    · next hon => exact .inr ⟨s.errored, { f with onClose := false }, rfl, rfl, rfl, hon, rfl⟩
    · exact .inl ⟨rfl, rfl⟩
  | error e =>
    unfold emit
    dsimp only
    split
    · exact .inr ⟨some e, { f with onError := false }, rfl, rfl, rfl, rfl⟩
    · exact .inl ⟨rfl, rfl⟩

theorem done_called (f : Finished E) (error : Option E) : (f.done error).called = true := by
  unfold done
  split
  · next h => exact h
  · rfl

theorem Once.emit (h : Once f) (e : Emitted E) : Once (f.emit s e) := by
  obtain ⟨hc, hl⟩ | ⟨error, g, heq, hc, hl, -⟩ := emit_cases f s e
  · exact ⟨hl ▸ h.once, by rw [hc, hl]; exact h.called⟩
  · have hg : Once g := ⟨hl ▸ h.once, by rw [hc, hl]; exact h.called⟩
    rw [heq]; exact hg.done error

theorem Truthful.emit {e : Emitted E} (h : Truthful s f) (he : s.emits e = true) (hh : Heard s f e) : Truthful s (f.emit s e) := by
  obtain ⟨-, hl⟩ | ⟨error, g, heq, hc, hl, hcase⟩ := emit_cases f s e
  · exact fun hmem => h (hl ▸ hmem)
  · have hg : Truthful s g := fun hmem => h (hl ▸ hmem)
    rw [heq]
    refine hg.done (fun hn herror => ?_)
    have hn : f.called = false := hc.symm.trans hn
    unfold complete
    cases e with
    | ended =>
      obtain ⟨hon, -, hflags⟩ := hcase
      have hended : s.readableEnded = true := he
      have hfinished : s.hasWritable = true → s.writableFinished = true := fun hw =>
        (hflags hw).elim id (hh hn hon hw)
      cases hw : s.hasWritable <;> simp_all
    | finish =>
      obtain ⟨-, hflags⟩ := hcase
      have hfinished : s.writableFinished = true := he
      cases hr : s.hasReadable <;> simp_all
    | close => exact hh hn hcase.1 (hcase.2.symm.trans herror)
    | error e' => rw [herror] at hcase; cases hcase

theorem Once.cleanup (h : Once f) : Once f.cleanup := ⟨h.once, h.called⟩

theorem once_watched {w w' : Watched E} {m : Watched.Move E} (h : Once w.finished) (hst : w.step m = some w') : Once w'.finished := by
  cases m with
  | change k => cases hst; exact h
  | emit e =>
    unfold Watched.step at hst
    dsimp only at hst
    split at hst
    · cases hst; exact h.emit e
    · cases hst
  | cleanup => cases hst; exact h.cleanup

theorem truthful_watched {w w' : Watched E} {m : Watched.Move E} (h : Truthful w.stream w.finished) (hP : w.Clear m)
    (hst : w.step m = some w') : Truthful w'.stream w'.finished := by
  cases m with
  | change k => cases hst; exact fun hmem => complete_change k (h hmem)
  | emit e =>
    unfold Watched.step at hst
    dsimp only at hst
    split at hst
    · next he =>
      cases hst; exact h.emit he hP
    · cases hst
  | cleanup => cases hst; exact h

/-! ## A chain -/

namespace Piped

variable {p : Pipeline E} {c c' : Piped E} {failures : List Nat}

variable {k : Change E} {index : Nat} {t : StreamLike E}

/-- The listeners for `'error'` and `'close'` call the callback. -/
def Heeded (f : Finished E) : Prop := f.onError = false ∨ f.onClose = false → f.called = true

theorem heeded_done (f : Finished E) (error : Option E) : Heeded (f.done error) := fun _ => done_called f error

theorem heeded_finished (s : StreamLike E) : Heeded (finished s) := by
  unfold finished
  split
  · exact heeded_done _ _
  · rintro (h | h) <;> cases h

theorem Heeded.emit (h : Heeded f) (e : Emitted E) : Heeded (f.emit s e) := by
  cases e with
  | ended | finish =>
    unfold Finished.emit
    dsimp only
    split
    · split
      · exact heeded_done _ _
      · exact h
    · exact h
  | close | error e =>
    unfold Finished.emit
    dsimp only
    split
    · exact heeded_done _ _
    · exact h

/-- All streams are destroyed, and the callback has got an error or the last stream, which is not complete, still has one. -/
structure Reporting (p : Pipeline E) (s : StreamLike E) (f : Finished E) : Prop where
  gone : ∀ t ∈ p.streams, t.destroyed = true
  told : (∃ e, some e ∈ f.calls) ∨ f.called = false ∧ s.complete = false ∧ s.errored ≠ none

/-- A `pipeline` that watches its last stream. -/
structure Watching (p : Pipeline E) (failures : List Nat) (s : StreamLike E) (f : Finished E) : Prop where
  once : Once f
  truthful : Truthful s f
  heeded : Heeded f
  reporting : failures ≠ [] → Reporting p s f

/-- What holds in the runs of a `pipeline`. -/
structure Sound (c : Piped E) : Prop where
  watching : ∀ s f, c.pipeline.destination = some s → c.pipeline.stage = .watching f → Watching c.pipeline c.failures s f
  piping : (∀ f, c.pipeline.stage ≠ .watching f) → c.failures = []

theorem reports_of_sound (h : Sound c) : Reports c := by
  intro hf s f hs hstage hquiet
  have hw := h.watching s f hs hstage
  obtain ⟨hgone, htold⟩ := hw.reporting hf
  refine ⟨htold.resolve_right ?_, hgone⟩
  rintro ⟨hcalled, -, herror⟩
  have := hw.heeded (.inl (hquiet.1 herror)); rw [hcalled] at this; cases this

theorem Reporting.emit {e : Emitted E} (h : Reporting p s f) (ht : Truthful s (f.emit s e)) (stage : Stage E) :
    Reporting { p with stage } s (f.emit s e) := by
  refine ⟨h.gone, ?_⟩
  obtain ⟨hc, hl⟩ | ⟨error, g, heq, hc, hl, -⟩ := emit_cases f s e
  · rw [hc, hl]; exact h.told
  · obtain ⟨e', he'⟩ | ⟨hcalled, hincomplete, -⟩ := h.told
    · refine .inl ⟨e', ?_⟩
      rw [heq]
      unfold done
      split
      · exact hl ▸ he'
      · exact mem_append_left _ (hl ▸ he')
    · rw [heq] at ht ⊢
      unfold done at ht ⊢
      rw [hc, hcalled] at ht ⊢
      rw [if_neg Bool.false_ne_true] at ht ⊢
      cases error with
      | none =>
        have := ht (mem_append_right _ mem_cons_self); rw [hincomplete] at this; cases this
      | some e' => exact .inl ⟨e', mem_append_right _ mem_cons_self⟩

theorem destroyed_change (k : Change E) (h : s.destroyed = true) : (s.change k).destroyed = true := by
  cases k with
  | readableEnd | writableEnd | finish | fail error => exact h
  | destroy error =>
    unfold change
    dsimp only; rw [if_pos h]; exact h

theorem getElem?_change {streams : List (StreamLike E)} (ht : streams[index]? = some t)
    (k : Change E) (j : Nat) : (streams.set index (t.change k))[j]? = if j = index then some (t.change k) else streams[j]? := by
  have hlt : index < streams.length := (List.getElem?_eq_some_iff.1 ht).1
  by_cases hj : j = index
  · subst hj; rw [if_pos rfl, getElem?_set_self hlt]
  · rw [if_neg hj, getElem?_set_ne (Ne.symm hj)]

theorem destination_change (ht : p.streams[index]? = some t) (k : Change E) :
    ({ p with streams := p.streams.set index (t.change k) } : Pipeline E).destination =
      if p.streams.length - 1 = index then some (t.change k) else p.destination := by
  unfold destination; rw [length_set, getElem?_change ht]

theorem gone_change (ht : p.streams[index]? = some t) (k : Change E)
    (hd : (t.change k).destroyed = true) (hothers : OthersGone p index) :
    ∀ s ∈ p.streams.set index (t.change k), s.destroyed = true := by
  intro s hs
  obtain ⟨j, hj⟩ := mem_iff_getElem?.1 hs
  rw [getElem?_change ht] at hj
  split at hj
  · cases hj; exact hd
  · next hne => exact hothers j s hne hj

theorem incomplete_change (h : s.complete = false) (hk : s.fails k = true) :
    (s.change k).complete = false ∧ ((∀ error, k ≠ .destroy error) → (s.change k).errored ≠ none) := by
  cases k with
  | destroy error =>
    refine ⟨?_, fun hn => absurd rfl (hn error)⟩
    unfold change
    dsimp only
    split <;> exact h
  | fail error => exact ⟨h, fun _ => nofun⟩
  | readableEnd | writableEnd | finish => cases hk

theorem Watching.fails {index : Nat} {t : StreamLike E} {k : Change E} (h : Watching p failures t f)
    (ht : p.streams[index]? = some t) (hincomplete : t.complete = false) (hcomplete : (t.change k).complete = false)
    (hd : (t.change k).destroyed = true) (herror : (t.change k).errored ≠ none) (hothers : OthersGone p index)
    (failures' : List Nat) :
    Watching { p with streams := p.streams.set index (t.change k) } failures' (t.change k) f := by
  refine ⟨h.once, fun hmem => complete_change k (h.truthful hmem), h.heeded, fun _ => ⟨gone_change ht k hd hothers, ?_⟩⟩
  cases hc : f.called with
  | false => exact .inr ⟨rfl, hcomplete, herror⟩
  | true =>
    obtain ⟨error, hmem⟩ := exists_mem_of_ne_nil _ (h.once.called.1 hc)
    cases error with
    | some e => exact .inl ⟨e, hmem⟩
    | none =>
      have := h.truthful hmem; rw [hincomplete] at this; cases this

theorem Watching.change {s' : StreamLike E} (h : Watching p failures s f)
    (hs : p.destination = some s) (hs' : ({ p with streams := p.streams.set index (t.change k) } : Pipeline E).destination = some s')
    (ht : p.streams[index]? = some t) (hk : t.fails k = false)
    (hP : t.complete = false → index = p.streams.length - 1 → t.destroyed = true → k = .readableEnd ∨ k = .finish → f.called = true) :
    Watching { p with streams := p.streams.set index (t.change k) } failures s' f := by
  rw [destination_change ht] at hs'
  have hgone : (∀ u ∈ p.streams, u.destroyed = true) → ∀ u ∈ p.streams.set index (t.change k), u.destroyed = true := by
    intro hall
    exact gone_change ht k (destroyed_change k (hall t (mem_of_getElem? ht))) (fun j u _ hu => hall u (mem_of_getElem? hu))
  split at hs'
  · next hlast =>
    cases hs'
    have hst : s = t := by
      unfold destination at hs; rw [hlast, ht] at hs; exact (Option.some.inj hs).symm
    subst hst
    refine ⟨h.once, fun hmem => complete_change k (h.truthful hmem), h.heeded, fun hf => ?_⟩
    obtain ⟨hall, htold⟩ := h.reporting hf
    refine ⟨hgone hall, htold.imp_right ?_⟩
    rintro ⟨hcalled, hincomplete, herror⟩
    have hd := hall s (mem_of_getElem? ht)
    have hnot : ¬ (k = .readableEnd ∨ k = .finish) := by
      intro hk'
      have := hP hincomplete hlast.symm hd hk'; rw [hcalled] at this; cases this
    cases k with
    | readableEnd => exact absurd (.inl rfl) hnot
    | finish => exact absurd (.inr rfl) hnot
    | writableEnd => exact ⟨hcalled, hincomplete, herror⟩
    | destroy error =>
      unfold change
      dsimp only; rw [if_pos hd]; exact ⟨hcalled, hincomplete, herror⟩
    | fail error => exact ⟨hcalled, hincomplete, nofun⟩
  · rw [hs] at hs'
    cases hs'
    refine ⟨h.once, h.truthful, h.heeded, fun hf => ?_⟩
    obtain ⟨hall, htold⟩ := h.reporting hf; exact ⟨hgone hall, htold⟩

theorem failing_change (ht : p.streams[index]? = some t) (k : Change E) :
    failing p (.change index k) = if t.fails k then [index] else [] := by
  unfold failing
  dsimp only
  rw [ht]
  cases h : t.fails k <;> simp [Option.filter, h]

theorem sound_change (h : Sound c) (hP : Clear c (.change index k))
    (ht : c.pipeline.streams[index]? = some t) :
    Sound
      { pipeline := { c.pipeline with streams := c.pipeline.streams.set index (t.change k) }
        failures := c.failures ++ failing c.pipeline (.change index k) } := by
  rw [failing_change ht]
  have hP := hP t ht
  cases hk : t.fails k with
  | false =>
    rw [if_neg Bool.false_ne_true, append_nil]
    refine ⟨fun s f hs hstage => ?_, h.piping⟩
    have hlast : ∃ s₀, c.pipeline.destination = some s₀ := by
      rw [destination_change ht] at hs
      split at hs
      · next heq => exact ⟨t, by unfold destination; rw [heq, ht]⟩
      · exact ⟨s, hs⟩
    obtain ⟨s₀, hs₀⟩ := hlast
    refine (h.watching s₀ f hs₀ hstage).change hs₀ hs ht hk (fun hincomplete hi hd hcases => ?_)
    obtain rfl | rfl := hcases <;> exact hP hincomplete hi hd f hstage
  | true =>
    rw [if_pos rfl]
    obtain ⟨hincomplete, hd, herror, hi, hothers, g, hg⟩ : t.complete = false ∧ (t.change k).destroyed = true ∧
        (t.change k).errored ≠ none ∧ index = c.pipeline.streams.length - 1 ∧ OthersGone c.pipeline index ∧
        ∃ f, c.pipeline.stage = .watching f := by
      cases k with
      | destroy error =>
        unfold fails at hk
        rw [and_eq_true, not_eq_true', not_eq_true'] at hk
        obtain ⟨hi, herror, hothers, hg⟩ := hP hk.1 hk.2
        unfold change
        dsimp only; rw [hk.2, if_neg Bool.false_ne_true]; exact ⟨hk.1, rfl, herror, hi, hothers, hg⟩
      | fail error =>
        unfold fails at hk
        rw [not_eq_true'] at hk
        obtain ⟨hi, hd, hothers, hg⟩ := hP hk; exact ⟨hk, hd, nofun, hi, hothers, hg⟩
      | readableEnd | writableEnd | finish => cases hk
    have hdest : c.pipeline.destination = some t := by unfold destination; rw [← hi, ht]
    refine ⟨fun s f hs hstage => ?_, fun hnot => absurd hg (hnot g)⟩
    rw [destination_change ht, if_pos hi.symm] at hs
    cases hs
    exact (h.watching t f hdest hstage).fails ht hincomplete (incomplete_change hincomplete hk).1 hd herror hothers _

theorem sound_emit {e : Emitted E} {p' : Pipeline E} (h : Sound c) (hP : Clear c (.emit e)) (hst : c.pipeline.step (.emit e) = some p') :
    Sound { pipeline := p', failures := c.failures } := by
  unfold Pipeline.step at hst
  dsimp only at hst
  split at hst
  · next s hs =>
    split at hst
    · next he =>
      split at hst
      · next f hstage =>
        cases hst
        refine ⟨fun s' f' hs' hstage' => ?_, fun hnot => absurd rfl (hnot _)⟩
        have hs'' : c.pipeline.destination = some s' := hs'
        rw [hs] at hs''
        cases hs''
        cases hstage'
        have hw := h.watching s f hs hstage
        have ht := hw.truthful.emit he (hP s f hs hstage)
        exact ⟨hw.once.emit e, ht, hw.heeded.emit e, fun hf => (hw.reporting hf).emit ht _⟩
      · cases hst; exact h
    · cases hst
  · cases hst

theorem sound_go {p' : Pipeline E} (h : Sound c) (hP : Clear c .go) (hst : c.pipeline.go = some p') :
    Sound { pipeline := p', failures := c.failures } := by
  unfold go at hst
  split at hst
  · next index hstage =>
    obtain ⟨s, -, rfl⟩ := map_eq_some_iff.1 hst
    have hnone : c.failures = [] := h.piping (fun f hf => by rw [hstage] at hf; cases hf)
    refine ⟨fun s' f _ hw => ?_, fun _ => hnone⟩
    split at hw <;> cases hw
  · next hstage =>
    obtain ⟨s, hs, rfl⟩ := map_eq_some_iff.1 hst
    have hnone : c.failures = [] := h.piping (fun f hf => by rw [hstage] at hf; cases hf)
    refine ⟨fun s' f hs' hw => ?_, fun hnot => absurd rfl (hnot _)⟩
    have hs'' : c.pipeline.destination = some s' := hs'
    rw [hs] at hs''
    cases hs''
    cases hw
    exact ⟨once_finished s, truthful_finished (hP s hs hstage), heeded_finished s, fun hf => absurd hnone hf⟩
  · cases hst

theorem sound_step {m : Pipeline.Move E} (h : Sound c) (hP : Clear c m) (hst : c.step m = some c') : Sound c' := by
  obtain ⟨p', hp, rfl⟩ := map_eq_some_iff.1 hst
  cases m with
  | change index k => obtain ⟨t, ht, rfl⟩ := map_eq_some_iff.1 hp; exact sound_change h hP ht
  | emit e =>
    have hs := sound_emit h hP hp; rw [← append_nil c.failures] at hs; exact hs
  | go =>
    have hs := sound_go h hP hp; rw [← append_nil c.failures] at hs; exact hs

/-- The callback is called at most once, whatever happens. -/
def CalledOnce (c : Piped E) : Prop := ∀ f, c.pipeline.stage = .watching f → Once f

theorem calledOnce_step {m : Pipeline.Move E} (h : CalledOnce c) (hst : c.step m = some c') : CalledOnce c' := by
  obtain ⟨p', hp, rfl⟩ := map_eq_some_iff.1 hst
  intro f hf
  cases m with
  | change index k => obtain ⟨t, -, rfl⟩ := map_eq_some_iff.1 hp; exact h f hf
  | emit e =>
    unfold Pipeline.step at hp
    dsimp only at hp
    split at hp
    · split at hp
      · split at hp
        · next g hstage =>
          cases hp
          cases hf; exact (h g hstage).emit e
        · cases hp; exact h f hf
      · cases hp
    · cases hp
  | go =>
    change c.pipeline.go = some p' at hp
    unfold Pipeline.go at hp
    split at hp
    · obtain ⟨s, -, rfl⟩ := map_eq_some_iff.1 hp
      dsimp only at hf
      split at hf <;> cases hf
    · obtain ⟨s, -, rfl⟩ := map_eq_some_iff.1 hp
      cases hf; exact once_finished s
    · cases hp

theorem pipeline_stage {streams : List (StreamLike E)} (h : Stream.pipeline streams = some p) : p.stage = .piping (streams.length - 1) := by
  unfold Stream.pipeline at h
  split at h
  · cases h
  · cases h; rfl

end Piped

/-! ## The runs -/

/-- What `finished` tells in the runs whose moves meet `P`, of a stream that meets `Q` when it is called. -/
def FinishedTells (E : Type) (Q : StreamLike E → Prop) (P : Watched E → Watched.Move E → Prop) : Prop :=
  ∀ s ms (w : Watched E), Q s → Run Watched.step P (Watched.create s) ms w →
    w.finished.calls.length ≤ 1 ∧ (none ∈ w.finished.calls → w.stream.complete = true)

/-- What `pipeline` tells. -/
def PipelineTells (E : Type) (Q : Piped E → Prop) (P : Piped E → Pipeline.Move E → Prop) : Prop :=
  ∀ streams p ms (c : Piped E), pipeline streams = some p → Q (Piped.create p) → Run Piped.step P (Piped.create p) ms c →
    (∀ f, c.pipeline.stage = .watching f → f.calls.length ≤ 1) ∧ c.Reports

/-- **`finished` and `pipeline`**: each callback is called at most once in any run; and when the flags and the listeners find
no stream that is half complete or closed too soon, and a stream of a `pipeline` fails only as the last one, with an error and
after the others are destroyed, what they report is so. -/
theorem reports (E : Type) :
    (∀ s ms (w : Watched E), Run Watched.step (fun _ _ => True) (Watched.create s) ms w → w.finished.calls.length ≤ 1) ∧
    (∀ streams p ms (c : Piped E), pipeline streams = some p → Run Piped.step (fun _ _ => True) (Piped.create p) ms c →
      ∀ f, c.pipeline.stage = .watching f → f.calls.length ≤ 1) ∧
    FinishedTells E Undivided Watched.Clear ∧ PipelineTells E (fun c => c.failures = []) Piped.Clear := by
  have honce : ∀ {P : Watched E → Watched.Move E → Prop} {s ms} {w : Watched E}, Run Watched.step P (Watched.create s) ms w →
      Once w.finished := fun h =>
    h.invariant (I := fun w => Once w.finished) (fun _ _ _ hI _ hst => once_watched hI hst) (once_finished _)
  have hcalled : ∀ {P : Piped E → Pipeline.Move E → Prop} {streams p ms} {c : Piped E}, pipeline streams = some p →
      Run Piped.step P (Piped.create p) ms c → c.CalledOnce := by
    intro P streams p ms c hp h
    refine h.invariant (fun _ _ _ hI _ hst => Piped.calledOnce_step hI hst) (fun f hf => ?_)
    have hstage : p.stage = .watching f := hf
    rw [Piped.pipeline_stage hp] at hstage; cases hstage
  refine ⟨fun s ms w h => (honce h).once, fun streams p ms c hp h f hf => (hcalled hp h f hf).once, fun s ms w hs h => ?_,
    fun streams p ms c hp hfail h => ⟨fun f hf => (hcalled hp h f hf).once, ?_⟩⟩
  · have htruth : Truthful w.stream w.finished :=
      h.invariant (I := fun w => Truthful w.stream w.finished) (fun _ _ _ hI hP hst => truthful_watched hI hP hst)
        (truthful_finished hs)
    exact ⟨(honce h).once, htruth⟩
  · refine Piped.reports_of_sound (h.invariant (fun _ _ _ hI hP hst => Piped.sound_step hI hP hst) ⟨fun s f _ hf => ?_, fun _ => hfail⟩)
    have hstage : p.stage = .watching f := hf
    rw [Piped.pipeline_stage hp] at hstage; cases hstage

/-- A `Duplex` ends, then finishes; and the last stream of a chain fails when the first is gone. -/
theorem reports_errors : ∃ (w : Watched Nat) (c : Piped Nat), w.finished.calls = [none] ∧ w.stream.complete = true ∧
    (∃ f, c.pipeline.stage = .watching f ∧ f.calls = [some 7]) ∧ c.failures = [1] ∧ c.Reports := by
  have hduplex : Undivided (E := Nat) { hasReadable := true, hasWritable := true } := by
    rintro (h | h) <;> cases h
  have hw : Run Watched.step Watched.Clear (Watched.create { hasReadable := true, hasWritable := true } : Watched Nat)
      [.change .writableEnd, .change .finish, .emit .finish, .change .readableEnd, .emit .ended] _ :=
    .cons trivial rfl (.cons trivial rfl (.cons trivial rfl (.cons trivial rfl (.cons (fun _ _ _ _ => rfl) rfl (.nil _)))))
  have hp : pipeline (E := Nat) [{ hasReadable := true, hasWritable := false }, { hasReadable := false, hasWritable := true }] =
      some
        { streams := [{ hasReadable := true, hasWritable := false }, { hasReadable := false, hasWritable := true }]
          stage := .piping 1 } := rfl
  have hothers : ∀ p : Pipeline Nat, (p.streams[0]?).all destroyed = true → p.streams.length = 2 → Piped.OthersGone p 1 := by
    intro p hp hl j s hj hs
    have hlt := (List.getElem?_eq_some_iff.1 hs).1
    obtain rfl : j = 0 := by omega
    rw [hs] at hp; exact hp
  have hc : Run Piped.step Piped.Clear
      (Piped.create { streams := [{ hasReadable := true, hasWritable := false }, { hasReadable := false, hasWritable := true }]
                      stage := .piping 1 } : Piped Nat)
      [.go, .go, .change 0 .readableEnd, .change 0 (.destroy none), .change 1 (.destroy (some 7)), .emit (.error 7), .emit .close] _ :=
    .cons (fun _ _ => nofun) rfl (.cons (fun s hs _ => by cases hs; rintro (h | h) <;> cases h) rfl
      (.cons (fun s hs _ => by cases hs; nofun) rfl (.cons (fun s hs h => by cases hs; cases h) rfl
        (.cons (fun s hs _ _ => ⟨rfl, nofun, hothers _ rfl rfl, _, rfl⟩) rfl (.cons (fun _ _ _ _ => trivial) rfl
          (.cons (fun s f hs hf hn => by cases hs; cases hf; cases hn) rfl (.nil _)))))))
  exact ⟨_, _, rfl, ((reports Nat).2.2.1 _ _ _ hduplex hw).2 mem_cons_self, ⟨_, rfl, rfl⟩, rfl,
    ((reports Nat).2.2.2 _ _ _ _ hp rfl hc).2⟩

/-- A `Duplex` whose end is delivered after `end()` is not finished yet. A source is destroyed, with an error, before its end:
the last stream says nothing, and is not destroyed. -/
theorem source_unreported : ¬ FinishedTells Nat (fun _ => True) (fun _ _ => True) ∧
    ¬ PipelineTells Nat (fun _ => True) (fun _ _ => True) := by
  refine ⟨fun h => ?_, fun h => ?_⟩
  · have hw : Run Watched.step (fun _ _ => True) (Watched.create { hasReadable := true, hasWritable := true } : Watched Nat)
        [.change .writableEnd, .change .readableEnd, .emit .ended] _ := Run.of_runs rfl
    have := (h _ _ _ trivial hw).2 mem_cons_self; cases this
  · have hp : pipeline (E := Nat) [{ hasReadable := true, hasWritable := false }, { hasReadable := false, hasWritable := true }] =
        some
          { streams := [{ hasReadable := true, hasWritable := false }, { hasReadable := false, hasWritable := true }]
            stage := .piping 1 } := rfl
    have hc : Run Piped.step (fun _ _ => True)
        (Piped.create { streams := [{ hasReadable := true, hasWritable := false }, { hasReadable := false, hasWritable := true }]
                        stage := .piping 1 } : Piped Nat)
        [.go, .go, .change 0 (.destroy (some 7))] _ := Run.of_runs rfl
    obtain ⟨-, hall⟩ := (h _ _ _ _ hp trivial hc).2 nofun _ _ rfl rfl ⟨fun hn => absurd rfl hn, nofun⟩
    have := hall _ (mem_cons_of_mem _ mem_cons_self); cases this

end NodeCompat.Stream
