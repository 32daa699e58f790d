import NodeCompat.Buffer.Numbers
import NodeCompat.Stream.Delivery

/-!
# `readableLength`

The length is kept beside `pending_`: it is to be the sum over the chunks, so that the clamp to 0 never acts. `read(size)` cuts
a string by code units while lengths are counted in bytes, and a surrogate pair has fewer bytes than its halves. The length is
right in the runs that cut no pair (`readable_length`).

Here `read` takes any number. What is seen of a stream are the chunks with which its length goes down.
-/

namespace NodeCompat.Stream

open List

/-! ## Cuts -/

/-- A high surrogate before the cut, and a low one behind it. -/
def CutsPair (u v : List UInt16) : Prop :=
  ∃ high ∈ u.getLast?, ∃ low ∈ v.head?, (0xD800 ≤ high ∧ high < 0xDC00) ∧ 0xDC00 ≤ low ∧ low < 0xE000

theorem byteLength_cons {x : UInt16} {v : List UInt16} (h : ¬ CutsPair [x] v) :
    byteLength (x :: v) = byteLength [x] + byteLength v := by
  cases v with
  | nil => rfl
  | cons y v =>
    have hno : ¬ (0xD800 ≤ x ∧ x < 0xDC00 ∧ 0xDC00 ≤ y ∧ y < 0xE000) := fun hp =>
      h ⟨x, rfl, y, rfl, ⟨hp.1, hp.2.1⟩, hp.2.2⟩
    conv_lhs => rw [byteLength, if_neg hno]
    rfl

theorem byteLength_append : ∀ {u v : List UInt16}, ¬ CutsPair u v → byteLength (u ++ v) = byteLength u + byteLength v
  | [], _, _ => (Nat.zero_add _).symm
  | [_], _, h => byteLength_cons h
  | x :: y :: rest, v, h => by
    have htail : ¬ CutsPair (y :: rest) v := fun ⟨high, hh, hs⟩ => h ⟨high, by rwa [getLast?_cons_cons], hs⟩
    rw [cons_append, cons_append, byteLength, byteLength]
    split
    · have hrest : ¬ CutsPair rest v := by
        rintro ⟨high, hh, hs⟩
        cases rest with
        | nil => cases hh
        | cons z rest => exact htail ⟨high, by rwa [getLast?_cons_cons], hs⟩
      rw [byteLength_append hrest, Nat.add_assoc]
    · rw [← cons_append, byteLength_append htail, Nat.add_assoc]

variable {V : Type}

/-- A chunk and the two parts of it. -/
inductive Cut : Chunk V → Chunk V → Chunk V → Prop
  | buffer (a b : Bytes) : Cut (.buffer (a ++ b)) (.buffer a) (.buffer b)
  | string (u v : List UInt16) : Cut (.string (u ++ v)) (.string u) (.string v)

/-- The cut is between two characters. -/
def Clean : Chunk V → Chunk V → Prop
  | .string u, .string v => ¬ CutsPair u v
  | _, _ => True

/-- The place at which `read(size)` cuts; `subarray` and `substring` drop the fraction. -/
def cutPlace (objectMode : Bool) (size : Buffer.Double) (length : Nat) : Option Nat :=
  match size with
  | .finite q => if !objectMode && decide (0 < q) && decide (q < length) then some q.floor.toNat else none
  | _ => none

/-- `cutChunk`, at any number. -/
def cutAt (objectMode : Bool) (size : Buffer.Double) : Chunk V → Option (Chunk V × Chunk V)
  | .buffer bytes => (cutPlace objectMode size bytes.length).map fun n => (.buffer (bytes.take n), .buffer (bytes.drop n))
  | .string units => (cutPlace objectMode size units.length).map fun n => (.string (units.take n), .string (units.drop n))
  | .other _ => none

section

variable {objectMode : Bool} {size : Buffer.Double} {chunk part left : Chunk V}

theorem cut_of_cutAt (h : cutAt objectMode size chunk = some (part, left)) : objectMode = false ∧ Cut chunk part left := by
  have hmode {length n : Nat} (hn : cutPlace objectMode size length = some n) : objectMode = false := by
    unfold cutPlace at hn
    cases objectMode <;> cases size <;> simp_all
  cases chunk with
  | buffer bytes =>
    obtain ⟨n, hn, heq⟩ := Option.map_eq_some_iff.1 h
    cases heq
    have hcut := Cut.buffer (V := V) (bytes.take n) (bytes.drop n)
    rw [take_append_drop] at hcut; exact ⟨hmode hn, hcut⟩
  | string units =>
    obtain ⟨n, hn, heq⟩ := Option.map_eq_some_iff.1 h
    cases heq
    have hcut := Cut.string (V := V) (units.take n) (units.drop n)
    rw [take_append_drop] at hcut; exact ⟨hmode hn, hcut⟩
  | other v => cases h

theorem Cut.length (h : Cut chunk part left) (hc : Clean part left) :
    streamChunkLength false chunk = streamChunkLength false part + streamChunkLength false left := by
  cases h with
  | buffer a b => exact length_append
  | string u v => exact byteLength_append hc

end

namespace Readable

/-! ## The stream, as far as its length goes -/

abbrev Counted (V : Type) := Block (Readable V) (Frame V) (Chunk V)

def counted (b : Result V) : Counted V := { state := b.state, seen := deliveredChunks b.seen, frames := b.frames }

variable (toString : BufferEncoding → Bytes → List UInt16) (r : Readable V)

/-- `read`, with any number. -/
def readAt (size : Buffer.Double) : Counted V :=
  match r.pending with
  | [] => { state := r, frames := [.fetching] }
  | chunk :: rest =>
    -- the size is told by an event only
    match cutAt r.readableObjectMode size chunk with
    | some (part, left) => counted (r.readChunk toString 0 part (left :: rest))
    | none => counted (r.readChunk toString 0 chunk rest)

def isRead : Call V → Bool
  | .read _ => true
  | _ => false

def countedCall : Call V ⊕ Buffer.Double → Option (Counted V)
  | .inl k => if isRead k then none else (r.call toString k).map counted
  | .inr size => some (r.readAt toString size)

/-- `program`, with `read` of any number. -/
def countedProgram : Reentrant (Readable V) (Call V ⊕ Buffer.Double) (Frame V) (Chunk V) where
  call := countedCall toString
  resume r f := counted (r.goOn toString f)
  task
    | .inl (.checkpoint _) => true
    | _ => false

/-- The sum of the lengths of the chunks that are buffered. -/
def total : Nat := (r.pending.map (streamChunkLength r.readableObjectMode)).sum

/-- A `read` cuts no surrogate pair. -/
def CutsClean (c : Config (Readable V) (Frame V) (Chunk V)) : Move (Call V ⊕ Buffer.Double) → Prop
  | .call (.inr size) => ∀ chunk ∈ c.state.pending.head?, ∀ part left,
      cutAt c.state.readableObjectMode size chunk = some (part, left) → Clean part left
  | _ => True

variable {toString r} {b : Result V}

/-- The length is right behind a block if it was before it, and it was not less than what is taken off. -/
def Counts (r : Readable V) (b : Counted V) : Prop :=
  r.pendingLength = r.total → b.state.pendingLength = b.state.total ∧
    ∀ chunk ∈ b.seen, streamChunkLength r.readableObjectMode chunk ≤ r.pendingLength

/-- A block that leaves the chunks and the length alone. -/
def Leaves (r : Readable V) (b : Result V) : Prop :=
  (b.state.pending, b.state.pendingLength, b.state.readableObjectMode, deliveredChunks b.seen) =
    (r.pending, r.pendingLength, r.readableObjectMode, [])

theorem Leaves.counts (h : Leaves r b) : Counts r (counted b) := by
  intro hr
  simp only [Leaves, Prod.mk.injEq] at h
  obtain ⟨hpending, hlength, hmode, hseen⟩ := h
  simp only [counted, total, hpending, hlength, hmode, hseen]; exact ⟨hr, forall_mem_nil _⟩

theorem leaves_returned (ret : Return) : Leaves r (r.returned ret) := by
  cases ret <;> rfl

theorem leaves_maybeEmitEnd {ret : Return} : Leaves r (r.maybeEmitEnd.returned ret) := by
  unfold maybeEmitEnd
  split <;> cases ret <;> rfl

theorem leaves_destroy (error : Option StreamError) (ret : Return) : Leaves r (r.destroy error ret) := by
  unfold destroy
  split
  · exact leaves_returned ret
  · rfl

theorem leaves_errorOrDestroy {error : StreamError} {ret : Return} : Leaves r (r.errorOrDestroy error ret) := by
  unfold errorOrDestroy
  split
  · exact leaves_returned ret
  · split
    · exact leaves_destroy _ ret
    · rfl

theorem leaves_pushEnd {ret : Return} : Leaves r (r.pushEnd ret) := by
  unfold pushEnd
  split
  · exact leaves_returned ret
  · rfl

theorem leaves_resume : Leaves r r.resume := by
  unfold resume
  split <;> rfl

section

variable {chunk : Chunk V} {rest : List (Chunk V)}

theorem total_cons (h : r.pending = chunk :: rest) :
    r.total = streamChunkLength r.readableObjectMode chunk + (rest.map (streamChunkLength r.readableObjectMode)).sum := by
  rw [total, h, map_cons, sum_cons]

theorem counts_taken {s : Readable V} {frames : List (Frame V)} (hpending : s.pending = rest)
    (hlength : s.pendingLength = r.pendingLength - streamChunkLength r.readableObjectMode chunk)
    (hmode : s.readableObjectMode = r.readableObjectMode)
    (htotal : r.total = streamChunkLength r.readableObjectMode chunk + (rest.map (streamChunkLength r.readableObjectMode)).sum) :
    Counts r { state := s, seen := [chunk], frames } := by
  intro hr
  refine ⟨?_, forall_mem_singleton.2 (by omega)⟩
  rw [hlength, total, hpending, hmode]; omega

end

theorem counts_drainFlowing {ret : Return} : Counts r (counted (r.drainFlowing toString ret)) := by
  unfold drainFlowing
  split
  · next chunk rest hpending => exact counts_taken rfl rfl rfl (total_cons hpending)
  · exact leaves_maybeEmitEnd.counts

theorem counts_push (chunk : Option (Chunk V)) : Counts r (counted (r.push chunk)) := by
  unfold push
  split
  · exact (leaves_returned _).counts
  · split
    · cases chunk with
      | none => exact (leaves_returned _).counts
      | some chunk => exact leaves_errorOrDestroy.counts
    · cases chunk with
      | none => exact leaves_pushEnd.counts
      | some chunk =>
        intro hr
        refine ⟨?_, fun _ hm => absurd hm not_mem_nil⟩
        show r.pendingLength + streamChunkLength r.readableObjectMode chunk =
          ((r.pending ++ [chunk]).map (streamChunkLength r.readableObjectMode)).sum
        rw [map_append, sum_append, hr]; rfl

theorem counts_unshift (chunk : Option (Chunk V)) : Counts r (counted (r.unshift chunk)) := by
  have hleaves : Leaves r { state := r } := rfl
  cases chunk with
  | none => exact hleaves.counts
  | some chunk =>
    unfold unshift
    dsimp only
    split
    · exact hleaves.counts
    · intro hr
      exact ⟨(congrArg (· + _) hr).trans (Nat.add_comm _ _), fun _ hm => absurd hm not_mem_nil⟩

theorem counts_readAt {size : Buffer.Double} (h : ∀ chunk ∈ r.pending.head?, ∀ part left,
    cutAt r.readableObjectMode size chunk = some (part, left) → Clean part left) : Counts r (r.readAt toString size) := by
  unfold readAt
  split
  · exact Leaves.counts (b := { state := r, frames := [.fetching] }) rfl
  · next chunk rest hpending =>
    have htotal := total_cons hpending
    split
    · next part left hcut =>
      obtain ⟨hmode, hparts⟩ := cut_of_cutAt hcut
      have hlength := hparts.length (h chunk (by rw [hpending]; rfl) part left hcut)
      rw [hmode] at htotal
      refine counts_taken rfl rfl rfl ?_
      rw [hmode, htotal, hlength, Nat.add_assoc]; rfl
    · exact counts_taken rfl rfl rfl htotal

theorem counts_call {k : Call V} (hb : r.call toString k = some b) (hk : ∀ n, k ≠ .read n) : Counts r (counted b) := by
  cases k with
  | push chunk => cases hb; exact counts_push chunk
  | unshift chunk => cases hb; exact counts_unshift chunk
  | read n => exact absurd rfl (hk n)
  | pushEnd => cases hb; exact leaves_pushEnd.counts
  | resume => cases hb; exact leaves_resume.counts
  | destroy error => cases hb; exact (leaves_destroy error _).counts
  | checkpoint side =>
    cases hb
    unfold checkpoint
    split
    · exact Leaves.counts rfl
    · split <;> exact Leaves.counts rfl
  | pause | setEncoding encoding => cases hb; exact Leaves.counts rfl
  | onData =>
    cases hb
    unfold newListenerAdded
    split
    · exact Leaves.counts rfl
    · exact leaves_resume.counts
  | destroyed error =>
    unfold call at hb
    dsimp only at hb
    split at hb
    · cases hb
      cases error <;> exact Leaves.counts rfl
    · cases hb

theorem counts_goOn (f : Frame V) : Counts r (counted (r.goOn toString f)) := by
  cases f with
  | pushed | endPushed ret | ended side =>
    unfold goOn
    dsimp only
    split <;> first
      | exact (leaves_returned _).counts
      | exact counts_drainFlowing
      | exact leaves_maybeEmitEnd.counts
      | exact (leaves_destroy _ _).counts
      | exact Leaves.counts rfl
  | draining ret | resumed => exact counts_drainFlowing
  | fetching | reading value =>
    have h : Leaves r (r.maybeEmitEnd.returned .nothing) := leaves_maybeEmitEnd
    exact Leaves.counts h
  | errorEmitted ret | destroying ret => exact (leaves_returned ret).counts
  | destroyError | paused | closing => exact Leaves.counts rfl

/-! ## Runs -/

variable {c c' : Config (Readable V) (Frame V) (Chunk V)} {l : Move (Call V ⊕ Buffer.Double)}

theorem counts_step (hl : CutsClean c l) (hst : (countedProgram toString).step c l = some c') :
    ∃ b stack, Counts c.state b ∧ c' = b.onto stack c.trace := by
  cases l with
  | ret => obtain ⟨f, fs, -, rfl⟩ := Reentrant.step_ret hst; exact ⟨_, fs, counts_goOn f, rfl⟩
  | call k =>
    obtain ⟨-, b, hb, rfl⟩ := Reentrant.step_call hst
    refine ⟨b, _, ?_, rfl⟩
    cases k with
    | inr size => cases hb; exact counts_readAt hl
    | inl k =>
      change (if isRead k then none else (c.state.call toString k).map counted) = some b at hb
      split at hb
      · cases hb
      · next hk =>
        obtain ⟨_, hcall, rfl⟩ := Option.map_eq_some_iff.1 hb
        exact counts_call hcall (by rintro n rfl; exact hk rfl)

def countedCreate (objectMode : Bool) (highWaterMark : Nat) (autoDestroy : Bool) (encoding : Option BufferEncoding) :
    Config (Readable V) (Frame V) (Chunk V) where
  state := (create objectMode highWaterMark autoDestroy encoding).state

/-- **The length is the sum over the buffered chunks, and is never clamped**, in the runs that cut no surrogate pair; and what a
`read` hands out and what it puts back are the two parts of its chunk. -/
theorem readable_length {objectMode autoDestroy : Bool} {highWaterMark : Nat} {encoding : Option BufferEncoding}
    {ls : List (Move (Call V ⊕ Buffer.Double))}
    (h : Run (countedProgram toString).step CutsClean (countedCreate objectMode highWaterMark autoDestroy encoding) ls c) :
    c.state.pendingLength = c.state.total ∧
    (∀ l c', CutsClean c l → (countedProgram toString).step c l = some c' → ∃ taken, c'.trace = c.trace ++ taken ∧
      ∀ chunk ∈ taken, streamChunkLength c.state.readableObjectMode chunk ≤ c.state.pendingLength) ∧
    ∀ size chunk rest part left, c.state.pending = chunk :: rest →
      cutAt c.state.readableObjectMode size chunk = some (part, left) → Cut chunk part left ∧
      ∃ b, (countedProgram toString).call c.state (.inr size) = some b ∧ b.state.pending = left :: rest ∧
        b.frames = [.reading (emittedChunk toString c.state.encoding part)] := by
  have hlevel : c.state.pendingLength = c.state.total := by
    refine h.invariant (I := fun c => c.state.pendingLength = c.state.total) (fun c l c' hI hP hst => ?_) rfl
    obtain ⟨b, stack, hb, rfl⟩ := counts_step hP hst; exact (hb hI).1
  refine ⟨hlevel, fun l c' hl hst => ?_, fun size chunk rest part left hpending hcut => ⟨(cut_of_cutAt hcut).2, _, rfl, ?_⟩⟩
  · obtain ⟨b, stack, hb, rfl⟩ := counts_step hl hst; exact ⟨b.seen, rfl, (hb hlevel).2⟩
  · unfold readAt
    rw [hpending]
    dsimp only
    rw [hcut]; exact ⟨rfl, rfl⟩

theorem readable_length_pair : ∃ c : Config (Readable Nat) (Frame Nat) (Chunk Nat), c.state.total = 4 ∧ c.state.pendingLength = 4 := by
  have hrun : Run (countedProgram (V := Nat) fun _ _ => []).step CutsClean (countedCreate false 1 true none)
      [.call (.inl (.push (some (.string [0xD83D, 0xDE00])))), .ret] _ := .cons trivial rfl (.cons trivial rfl (.nil _))
  exact ⟨_, rfl, (readable_length hrun).1⟩

/-- Half of a surrogate pair is read: three bytes are left, and the length says one. -/
theorem half_pair_miscounted : ∃ c : Config (Readable Nat) (Frame Nat) (Chunk Nat),
    Run (countedProgram fun _ _ => []).step (fun _ _ => True) (countedCreate false 1 true none)
      [.call (.inl (.push (some (.string [0xD83D, 0xDE00])))), .ret, .call (.inr (.finite 1))] c ∧
    c.state.pendingLength = 1 ∧ c.state.total = 3 :=
  ⟨_, Run.of_runs rfl, rfl, rfl⟩

end Readable

end NodeCompat.Stream
