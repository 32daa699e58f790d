import NodeCompat.Stream.Readable

/-!
# What a `Readable` shows

That a stream has ended, failed or closed was seen as 'end', 'error' or 'close', or the stream was destroyed (`Shows`).
-/

namespace NodeCompat.Stream

open List

variable {V : Type}

namespace Readable

variable {toString : BufferEncoding → Bytes → List UInt16} {r : Readable V} {b : Result V}

variable (ret : Return)

/-- What becomes of a stream is seen. -/
structure Shows (r : Readable V) (b : Result V) : Prop where
  ended : b.state.endEmitted = true → r.endEmitted = true ∨ .ended ∈ b.seen
  errored : b.state.errored ≠ none → r.errored ≠ none ∨ b.state.destroyed = true ∨ ∃ e, .error e ∈ b.seen
  closed : b.state.closed = true → r.closed = true ∨ .close ∈ b.seen

theorem shows_same {r' : Readable V} (he : b.state.endEmitted = r'.endEmitted) (hr : b.state.errored = r'.errored)
    (hc : b.state.closed = r'.closed) : Shows r' b :=
  ⟨fun h => .inl (he ▸ h), fun h => .inl (hr ▸ h), fun h => .inl (hc ▸ h)⟩

theorem shows_returned : Shows r (r.returned ret) := by
  cases ret <;> exact shows_same rfl rfl rfl

theorem shows_maybeEmitEnd : Shows r (r.maybeEmitEnd.returned ret) := by
  unfold maybeEmitEnd
  split <;> cases ret <;> exact shows_same rfl rfl rfl

theorem shows_destroy (error : Option StreamError) (ret : Return) : Shows r (r.destroy error ret) := by
  unfold destroy
  split
  · exact shows_returned ret
  · exact ⟨.inl, fun _ => .inr (.inl rfl), .inl⟩

theorem shows_errorOrDestroy (error : StreamError) (ret : Return) : Shows r (r.errorOrDestroy error ret) := by
  unfold errorOrDestroy
  split
  · exact shows_returned ret
  · split
    · exact shows_destroy _ ret
    · exact ⟨.inl, fun _ => .inr (.inr ⟨error, mem_singleton_self _⟩), .inl⟩

theorem shows_drainFlowing : Shows r (r.drainFlowing toString ret) := by
  unfold drainFlowing
  split
  · exact shows_same rfl rfl rfl
  · exact shows_maybeEmitEnd ret

theorem shows_resume : Shows r r.resume := by
  unfold resume
  split <;> exact shows_same rfl rfl rfl

theorem shows_pushEnd : Shows r (r.pushEnd ret) := by
  unfold pushEnd
  split
  · exact shows_returned ret
  · exact shows_same rfl rfl rfl

theorem shows_push (chunk : Option (Chunk V)) : Shows r (r.push chunk) := by
  unfold push
  split
  · exact shows_returned _
  · split
    · cases chunk with
      | none => exact shows_returned _
      | some chunk => exact shows_errorOrDestroy _ _
    · cases chunk with
      | none => exact shows_pushEnd _
      | some chunk => exact shows_same rfl rfl rfl

theorem shows_unshift (chunk : Option (Chunk V)) : Shows r (r.unshift chunk) := by
  unfold unshift
  split
  · exact shows_same rfl rfl rfl
  · split <;> exact shows_same rfl rfl rfl

theorem shows_read (size : Nat) : Shows r (r.read toString size) := by
  unfold read
  split
  · exact shows_same rfl rfl rfl
  · split <;> exact shows_same rfl rfl rfl

theorem shows_checkpoint (side : Bool) : Shows r (r.checkpoint side) := by
  unfold checkpoint
  split
  · exact shows_same rfl rfl rfl
  · split
    · exact shows_same rfl rfl rfl
    · exact ⟨fun _ => .inr (mem_singleton_self _), .inl, .inl⟩

theorem shows_destroyCallback (error : Option StreamError) : Shows r (r.destroyCallback error) := by
  cases error with
  | none => exact ⟨.inl, .inl, fun _ => .inr (mem_singleton_self _)⟩
  | some e => exact ⟨.inl, fun _ => .inr (.inr ⟨e, mem_singleton_self _⟩), .inl⟩

theorem shows_call {k : Stream.Call V} (hb : r.call toString k = some b) : Shows r b := by
  cases k with
  | push chunk => cases hb; exact shows_push chunk
  | pushEnd => cases hb; exact shows_pushEnd _
  | unshift chunk => cases hb; exact shows_unshift chunk
  | pause | setEncoding encoding => cases hb; exact shows_same rfl rfl rfl
  | resume => cases hb; exact shows_resume
  | onData =>
    cases hb
    unfold newListenerAdded
    split
    · exact shows_same rfl rfl rfl
    · exact shows_resume
  | read size => cases hb; exact shows_read size
  | destroy error => cases hb; exact shows_destroy error _
  | destroyed error =>
    rw [show r.call toString (.destroyed error) = if r.destroyed then some (r.destroyCallback error) else none from rfl] at hb
    split at hb
    · cases hb; exact shows_destroyCallback error
    · cases hb
  | checkpoint side => cases hb; exact shows_checkpoint side

theorem shows_goOn (f : Stream.Frame V) : Shows r (r.goOn toString f) := by
  have hmaybe : r.maybeEmitEnd.endEmitted = r.endEmitted ∧ r.maybeEmitEnd.errored = r.errored ∧ r.maybeEmitEnd.closed = r.closed := by
    unfold maybeEmitEnd
    split <;> exact ⟨rfl, rfl, rfl⟩
  cases f with
  | pushed =>
    unfold goOn
    dsimp only
    split
    · exact shows_returned _
    · exact shows_drainFlowing _
  | endPushed ret =>
    unfold goOn
    dsimp only
    split
    · exact shows_returned _
    · exact shows_maybeEmitEnd _
  | draining ret => exact shows_drainFlowing ret
  | resumed => exact shows_drainFlowing _
  | fetching | reading value => exact shows_same hmaybe.1 hmaybe.2.1 hmaybe.2.2
  | ended side =>
    unfold goOn
    dsimp only
    split
    · exact shows_destroy none _
    · exact shows_same rfl rfl rfl
  | errorEmitted ret | destroying ret => exact shows_returned ret
  | destroyError => exact ⟨.inl, .inl, fun _ => .inr (mem_singleton_self _)⟩
  | paused | closing => exact shows_same rfl rfl rfl

end Readable

end NodeCompat.Stream
