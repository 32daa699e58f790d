import NodeCompat.Zlib.InflateSteps

/-!
# Streams that inflate

For each chunk the drain loop of an inflating stream comes to an end, and pushes what the decoder gives for the chunk
(`write_returns`). So a run ends for every input, however it is cut; and what has been pushed then is what the decoder says
of the whole (`run_reads`).
-/

namespace NodeCompat.Zlib

open List Returns

variable {z : Codecs} {d : Framing → Decoder UInt8 UInt8}

namespace ZlibBase

/-! ## Pushing -/

variable {chunk out piece : Bytes} {bits : Framing} {res : Option (Place × Bool)} {p : Place} {b : ZlibBase z}

/-- The pieces that are pushed for a piece. -/
def piecesOf (piece : Bytes) : List Bytes := if 0 < piece.length then [piece] else []

theorem piecesOf_flatten (piece : Bytes) : (piecesOf piece).flatten = piece := by
  unfold piecesOf
  split
  · simp
  · next h =>
    rw [length_pos_iff] at h; simpa using h

theorem push_failed (piece : Bytes) (hopen : b.destroyed = false) (hend : b.endPending = true) :
    (b.push (some piece)).destroyed = true ∧ (b.push (some piece)).errored ≠ none ∧
      (b.push (some piece)).writableEnded = b.writableEnded := by
  simp [push, errorOrDestroy, hopen, hend]

theorem pushPiece_taken (hopen : b.destroyed = false)
    (hend : b.endPending = false ∨ piece = []) : b.pushPiece piece = { b with pushed := b.pushed ++ piecesOf piece } := by
  unfold pushPiece piecesOf
  split
  · next hpos =>
    have hend : b.endPending = false := hend.resolve_right (length_pos_iff.1 hpos); simp [push, hopen, hend]
  · simp

/-! ## Draining -/

/-- What the drain loop leaves: an error for its callback, a stream destroyed by a piece after the end, or what has been
pushed for the chunk. -/
inductive Drained (d : Framing → Decoder UInt8 UInt8) (b : ZlibBase z) (bits : Framing) (out : Bytes)
    (res : Option (Place × Bool)) : ZlibBase z × Option Bytes → Prop
  | error {b' : ZlibBase z} {e : Bytes} : res = none → b'.destroyed = false → b'.writableEnded = b.writableEnded →
      Drained d b bits out res (b', some e)
  | refused {b' : ZlibBase z} : b.endPending = true → out ≠ [] → b'.destroyed = true → b'.errored ≠ none →
      b'.writableEnded = b.writableEnded → Drained d b bits out res (b', none)
  | kept {s : Stream z.Inflater} {p : Place} {leftover : Bool} {pieces : List Bytes} : res = some (p, leftover) →
      pieces.flatten = out → s.Stands d p → s.bits = bits → s.finishing = false → s.draining = false →
      Drained d b bits out res
        ({ b with
            handle := some (.inflating s)
            pushed := b.pushed ++ pieces
            endPending := b.endPending || leftover }, none)

theorem Drained.of_later {s : Stream z.Inflater}
    {r : ZlibBase z × Option Bytes} (hend : b.endPending = false)
    (h : Drained d { b with handle := some (.inflating s), pushed := b.pushed ++ piecesOf piece } bits out res r) :
    Drained d b bits (piece ++ out) res r := by
  cases h with
  | error hres hopen hw => exact .error hres hopen hw
  | refused hend' _ _ _ _ => cases hend.symm.trans hend'
  | kept hres hout hs hbits hfin hdrain =>
    rw [append_assoc]; exact .kept hres (by rw [flatten_append, piecesOf_flatten, hout]) hs hbits hfin hdrain

theorem drain_refused {s : Stream z.Inflater} {n : Nat}
    (hopen : b.destroyed = false) (hend : b.endPending = true) (hout : out ≠ [])
    (hpiece : piece ≠ [])
    (hstep : ∀ fuel > n, b.step false fuel = some (.ok (piece, .inflating s))) :
    ∃ r, Returns (fun fuel => drain false fuel b) r ∧ Drained d b bits out res r := by
  obtain ⟨hdestroyed, herrored, hw⟩ := push_failed (b := { b with handle := some (.inflating s) }) piece hopen hend
  refine ⟨_, (pure _).step (n + 1) fun fuel hf => ?_, .refused hend hout hdestroyed herrored hw⟩
  rw [drain, hstep fuel (by omega)]
  dsimp only; rw [pushPiece, if_pos (length_pos_iff.2 hpiece), if_pos hdestroyed]

/-- **The drain loop ends for every chunk.** -/
theorem drain_returns (hz : z.Implements d) (k : Nat) : ∀ {b : ZlibBase z} {s : Stream z.Inflater} {p : Place} {out : Bytes}
    {res : Option (Place × Bool)}, out.length = k → b.handle = some (.inflating s) → b.destroyed = false → s.Stands d p →
      s.stopped = false → s.leftover = false → s.finishing = false → Feeds (d s.bits) s.bits p s.rest out res →
      ∃ r, Returns (fun fuel => drain false fuel b) r ∧ Drained d b s.bits out res r := by
  induction k using Nat.strongRecOn with
  | ind k ih =>
    intro b s p out res hk hb hopen hs hstop hleft hfin h
    obtain ⟨r, hr, hstep⟩ := inflateStep_stepped hz hs hstop hleft hfin h
    have hstep' : ∀ fuel > rounds s [], b.step false fuel = some (r.map (fun q => (q.1, .inflating q.2))) := by
      intro fuel hf
      rw [step, hb]
      dsimp only; rw [if_neg (by simp), streamRead, hr fuel hf]; rfl
    cases hstep with
    | @error e hres =>
      refine ⟨_, (pure ({ b with handle := none }, some e)).step (rounds s [] + 1) fun fuel hf => ?_,
        .error hres hopen rfl⟩
      rw [drain, hstep' fuel (by omega)]; rfl
    | @more s' p' piece out' hout hpiece hs' hfeeds hsame hstop' hpending =>
      have hpos : 0 < piece.length := by rw [hpiece]; decide
      cases hend : b.endPending with
      | true => exact drain_refused hopen hend (by simp [hout, length_pos_iff.1 hpos]) (length_pos_iff.1 hpos) hstep'
      | false =>
        have hshort : out'.length < k := by rw [← hk, hout, length_append]; omega
        obtain ⟨r, hr, hdrained⟩ := ih _ hshort (b := { b with
          handle := some (.inflating s'), pushed := b.pushed ++ piecesOf piece }) rfl rfl hopen hs' hstop'
          (hsame.leftover.trans hleft) (hsame.finishing.trans hfin) hfeeds
        rw [hsame.bits] at hdrained
        refine ⟨r, hr.step (rounds s [] + 1) fun fuel hf => ?_, hout ▸ hdrained.of_later hend⟩
        rw [drain, hstep' fuel (by omega)]
        dsimp only [Except.map]
        rw [pushPiece_taken (b := { b with handle := some (.inflating s') }) hopen (.inl hend), if_neg (by simp [hopen]),
          if_pos hpending]
    | @last s' p' hs' hres hbits hfin' hdrain hpending =>
      by_cases hend : b.endPending = true ∧ out ≠ []
      · exact drain_refused hopen hend.1 hend.2 hend.2 hstep'
      · have hend : b.endPending = false ∨ out = [] := by
          by_contra hno
          push Not at hno
          exact hend ⟨by simpa using hno.1, hno.2⟩
        refine ⟨_, (pure _).step (rounds s [] + 1) fun fuel hf => ?_,
          .kept hres (piecesOf_flatten out) hs' hbits hfin' hdrain⟩
        rw [drain, hstep' fuel (by omega)]
        dsimp only [Except.map]
        rw [pushPiece_taken (b := { b with handle := some (.inflating s') }) hopen hend, if_neg (by simp [hopen]),
          if_neg (by simp [hpending]), if_neg (by simp)]
        cases hleft' : s'.leftover with
        | false => simp [streamLeftover, hleft']
        | true => cases b.endPending <;> simp [streamLeftover, hleft', push, hopen]

/-! ## A chunk -/

/-- An inflating stream that is written, at a place. -/
inductive Running (d : Framing → Decoder UInt8 UInt8) (bits : Framing) (b : ZlibBase z) (p : Place) : Prop
  | intro {s : Stream z.Inflater} : b.handle = some (.inflating s) → b.destroyed = false → b.errored = none →
      b.writableEnded = false → s.bits = bits → s.Stands d p → s.finishing = false → s.draining = false → Running d bits b p

/-- A stream that has failed. -/
structure Failed (b : ZlibBase z) : Prop where
  destroyed : b.destroyed = true
  errored : b.errored ≠ none
  writableEnded : b.writableEnded = false

/-- What a chunk makes of a stream. -/
inductive Written (d : Framing → Decoder UInt8 UInt8) (bits : Framing) (b : ZlibBase z) (out : Bytes)
    (res : Option (Place × Bool)) (b' : ZlibBase z) : Prop
  | failed : Failed b' → res = none ∨ b.endPending = true ∧ out ≠ [] → Written d bits b out res b'
  | kept {p : Place} {leftover : Bool} : res = some (p, leftover) → Running d bits b' p →
      b'.pushed.flatten = b.pushed.flatten ++ out → b'.endPending = (b.endPending || leftover) → Written d bits b out res b'

theorem failed_errorOrDestroy (e : Bytes) (hopen : b.destroyed = false) (hw : b.writableEnded = false) :
    Failed (b.errorOrDestroy e) := by
  rw [errorOrDestroy, if_neg (by simp [hopen])]; exact ⟨rfl, by simp, hw⟩

/-- What the callback of `_transform` makes of the stream. -/
def settle (q : ZlibBase z × Option Bytes) : ZlibBase z :=
  match q.2 with
  | some e => q.1.errorOrDestroy e
  | none => q.1

theorem write_eq {h : Handle z} (hhandle : b.handle = some h) (hopen : b.destroyed = false)
    (hw : b.writableEnded = false) (fuel : Nat) :
    b.write fuel chunk = (drain false fuel { b with handle := some (streamWrite chunk h) }).map settle := by
  rw [write, if_neg (by simp [hw]), if_neg (by simp [hopen]), transform, hhandle]
  dsimp only
  cases drain false fuel { b with handle := some (streamWrite chunk h) } with
  | none => rfl
  | some q =>
    obtain ⟨b', e⟩ := q
    cases e <;> rfl

theorem write_returns (hz : z.Implements d) (hb : Running d bits b p)
    (h : Feeds (d bits) bits p chunk out res) :
    ∃ b', Returns (fun fuel => b.write fuel chunk) b' ∧ Written d bits b out res b' := by
  obtain @⟨s, hhandle, hopen, herrored, hw, rfl, hs, hfin, hdrain⟩ := hb
  have hs' : (s.write chunk).Stands d p := hs.refilled _ _ _ _
  obtain ⟨r, hr, hdrained⟩ := drain_returns hz _ (b := { b with handle := some (.inflating (s.write chunk)) }) rfl rfl hopen hs'
    rfl rfl hfin h
  refine ⟨settle r, (hr.map settle).congr (write_eq hhandle hopen hw), ?_⟩
  cases hdrained with
  | error hres hopen' hw' => exact .failed (failed_errorOrDestroy _ hopen' (hw'.trans hw)) (.inl hres)
  | refused hend hout hdestroyed herrored' hw' => exact .failed ⟨hdestroyed, herrored', hw'.trans hw⟩ (.inr ⟨hend, hout⟩)
  | kept hres hout hs'' hbits hfin' hdrain' =>
    refine .kept hres (.intro rfl hopen herrored hw hbits hs'' hfin' hdrain') ?_ rfl
    rw [← hout]; exact flatten_append

/-! ## The end -/

/-- What is left of a stream that was to put out `r` still. -/
def Outcome (b : ZlibBase z) (r : Option Bytes) (b' : ZlibBase z) : Prop :=
  match r with
  | some w => b'.pushed.flatten = b.pushed.flatten ++ w ∧ b'.errored = none ∧ b'.endPending = true ∧ b'.writableFinished = true
  | none => b'.errored ≠ none

/-- What the callback of `_final` makes of the stream. -/
def finish (q : ZlibBase z × Option Bytes) : ZlibBase z :=
  match q.2 with
  | some e => q.1.errorOrDestroy e
  | none => { q.1.push none with writableFinished := true }

theorem callEnd_eq (hopen : b.destroyed = false) (herrored : b.errored = none) (hw : b.writableEnded = false)
    (fuel : Nat) : b.callEnd fuel = (drain true fuel { b with writableEnded := true }).map finish := by
  rw [callEnd, if_pos ⟨herrored, hw⟩]
  rw [if_neg (by simp [hopen]), final]
  cases drain true fuel { b with writableEnded := true } with
  | none => rfl
  | some q =>
    obtain ⟨b', e⟩ := q
    cases e <;> rfl

theorem callEnd_returns (hb : Running d bits b p) :
    ∃ b', Returns (fun fuel => b.callEnd fuel) b' ∧ ∀ {r}, Reads (d bits) bits p [] r → Outcome b r b' := by
  obtain @⟨s, hhandle, hopen, herrored, hw, rfl, hs, hfin, hdrain⟩ := hb
  have hstep : ∀ fuel, step { b with writableEnded := true } true fuel = some (streamFinish (.inflating s)) := by
    intro fuel; rw [step, hhandle]; rfl
  by_cases hinside : s.ended = false ∧ s.betweenMembers = false
  · have hdrained : Returns (fun fuel => drain true fuel { b with writableEnded := true })
        ({ b with writableEnded := true, handle := none }, some (text "unexpected end of file")) := by
      refine (pure _).step 0 fun fuel _ => ?_
      rw [drain, hstep, streamFinish, if_pos hinside]
    refine ⟨_, (hdrained.map finish).congr (callEnd_eq hopen herrored hw), ?_⟩
    intro r hr
    have hnone : r = none := by
      cases hs with
      | inside _ _ _ hverdict =>
        cases hr with
        | fails _ => rfl
        | ended hv _ => rw [append_nil, hverdict hdrain] at hv; cases hv
      | between hbetween _ _ _ _ => cases hbetween.symm.trans hinside.2
      | ended hended _ _ => cases hended.symm.trans hinside.1
    subst hnone; simp [Outcome, finish, errorOrDestroy, hopen]
  · have hafter : p = .after := by
      cases hs with
      | inside hbetween hended _ _ => exact absurd ⟨hended, hbetween⟩ hinside
      | between _ _ _ _ _ | ended _ _ _ => rfl
    subst hafter
    have hdrained : Returns (fun fuel => drain true fuel { b with writableEnded := true })
        ({ b with writableEnded := true, handle := none }, none) := by
      refine (pure _).step 0 fun fuel _ => ?_
      rw [drain, hstep, streamFinish, if_neg hinside]; simp [pushPiece, hopen, streamPending]
    refine ⟨_, (hdrained.map finish).congr (callEnd_eq hopen herrored hw), ?_⟩
    intro r hr
    have hnil : r = some [] := by
      cases hr with
      | quiet _ => rfl
      | next hno _ => simp [stops] at hno
    subst hnil
    cases b.endPending <;> simp [Outcome, finish, push, hopen, herrored]

/-! ## Runs -/

theorem run_failed (h : Failed b) (chunks : List Bytes) (fuel : Nat) : b.run fuel chunks = some b := by
  induction chunks with
  | nil => rw [run, callEnd, if_neg (fun hno => h.errored hno.1)]
  | cons chunk chunks ih => rw [run, write, if_neg (by simp [h.writableEnded]), if_pos h.destroyed]; exact ih

theorem Returns.run {b₁ b' : ZlibBase z} {chunks : List Bytes} (h : Returns (fun fuel => b.write fuel chunk) b₁)
    (hrest : Returns (fun fuel => b₁.run fuel chunks) b') : Returns (fun fuel => b.run fuel (chunk :: chunks)) b' := by
  obtain ⟨n, hn⟩ := h
  obtain ⟨m, hm⟩ := hrest
  refine ⟨max n m, fun fuel hf => ?_⟩
  dsimp only at hn hm ⊢; rw [ZlibBase.run, hn fuel (by omega)]; exact hm fuel (by omega)

/-- **A run ends for every input.** -/
theorem run_returns (hz : z.Implements d) (chunks : List Bytes) : ∀ {b : ZlibBase z} {p : Place},
    Running d bits b p → ∃ b', Returns (fun fuel => b.run fuel chunks) b' := by
  induction chunks with
  | nil =>
    intro b p hb
    obtain ⟨b', hb', -⟩ := callEnd_returns hb; exact ⟨b', hb'⟩
  | cons chunk chunks ih =>
    intro b p hb
    obtain ⟨out, res, h⟩ := Feeds.exists (d bits) bits p chunk
    obtain ⟨b₁, hb₁, hwritten⟩ := write_returns hz hb h
    cases hwritten with
    | failed hfailed _ => exact ⟨b₁, Returns.run hb₁ ⟨0, fun fuel _ => run_failed hfailed chunks fuel⟩⟩
    | kept _ hrunning _ _ => obtain ⟨b', hb'⟩ := ih hrunning; exact ⟨b', Returns.run hb₁ hb'⟩

theorem Running.valid (hz : z.Implements d) (hb : Running d bits b p) : p.Valid (d bits) := by
  obtain @⟨s, -, -, -, -, rfl, hs, -, -⟩ := hb
  cases hs with
  | @inside fed given _ _ hat _ =>
    have := Machine.Implements.given_prefix (hz s.bits) hat []; rwa [append_nil] at this
  | between _ _ _ _ _ | ended _ _ _ => trivial

/-- **What has been pushed in the end is what was to come out**: when nothing is left over of a chunk but what is not read. -/
theorem run_reads (hz : z.Implements d) (chunks : List Bytes) : ∀ {b : ZlibBase z} {p : Place} {r : Option Bytes},
    Running d bits b p → (b.endPending = true → p = .after ∧ Quiet bits chunks.flatten) →
      Reads (d bits) bits p chunks.flatten r → ∃ b', Returns (fun fuel => b.run fuel chunks) b' ∧ Outcome b r b' := by
  induction chunks with
  | nil =>
    intro b p r hb _ hr
    obtain ⟨b', hb', houtcome⟩ := callEnd_returns hb; exact ⟨b', hb', houtcome hr⟩
  | cons chunk chunks ih =>
    intro b p r hb hend hr
    rw [flatten_cons] at hend hr
    obtain ⟨out, res, h⟩ := Feeds.exists (d bits) bits p chunk
    have hfollows := h.reads (hb.valid hz) hr
    have hquiet : b.endPending = true → out = [] := by
      intro he
      obtain ⟨rfl, hq⟩ := hend he
      cases h with
      | stop _ => rfl
      | restart hno _ => cases hq.of_append.1.stops.symm.trans hno
    obtain ⟨b₁, hb₁, hwritten⟩ := write_returns hz hb h
    cases hwritten with
    | failed hfailed hwhy =>
      rcases hwhy with rfl | ⟨he, hne⟩
      · obtain rfl : r = none := hfollows
        exact ⟨b₁, Returns.run hb₁ ⟨0, fun fuel _ => run_failed hfailed chunks fuel⟩, hfailed.errored⟩
      · exact absurd (hquiet he) hne
    | @kept q leftover hres hrunning hpushed hend' =>
      subst hres
      obtain ⟨r', hr', rfl, hleft⟩ := hfollows
      have hend₁ : b₁.endPending = true → q = .after ∧ Quiet bits chunks.flatten := by
        intro he
        rw [hend', Bool.or_eq_true] at he
        rcases he with he | he
        · obtain ⟨rfl, hq⟩ := hend he
          cases h with
          | stop _ => exact ⟨rfl, hq.of_append.2⟩
          | restart hno _ => cases hq.of_append.1.stops.symm.trans hno
        · exact hleft he
      obtain ⟨b', hb', houtcome⟩ := ih hrunning hend₁ hr'
      refine ⟨b', Returns.run hb₁ hb', ?_⟩
      cases r' with
      | none => exact houtcome
      | some w =>
        obtain ⟨hw, hrest⟩ := houtcome
        refine ⟨?_, hrest⟩
        rw [hw, hpushed, append_assoc]

end ZlibBase

end NodeCompat.Zlib
