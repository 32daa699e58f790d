import NodeCompat.Zlib.StreamRuns
import NodeCompat.Zlib.Unzip

/-!
# Streams and one-shot functions agree

A deflating stream puts out, in the end, one stream of the whole content (`run_deflates`). With the runs of the inflating streams
this makes the streams of `node:zlib` agree with the one-shot functions (`streams_agree`).
-/

namespace NodeCompat.Zlib

open List

variable {z : Codecs} {d : Framing → Decoder UInt8 UInt8}

namespace ZlibBase

/-! ## Draining -/

variable {u : Bytes} {bits : Framing} {level : Int} {s : Stream z.Deflater} {b : ZlibBase z}

theorem deflateStep_ok {flush : Flush} {a : Answer z.Deflater UInt8 Bytes}
    (ha : z.deflate s.z (s.rest.take (min s.remainingOf uIntMax)) kChunk
      (if min s.remainingOf uIntMax = s.remainingOf then flush else .noFlush) = a) (hcode : ∀ e, a.code ≠ .error e) :
    deflateStep z s flush =
      .ok (a.output, { s.called a kChunk with finished := s.finished || decide (a.code = .streamEnd) }) := by
  rw [deflateStep]
  rw [ha]
  cases hc : a.code with
  | error e => exact absurd hc (hcode e)
  | ok | streamEnd | bufError => rfl

theorem deflateStep_noFlush {d : Decoder UInt8 UInt8}
    (hy : (z.encoder bits level).Encodes d u) {fed given : Bytes}
    (hat : (z.encoder bits level).At s.z fed given .noFlush) (hfed : fed ++ s.rest <+: u) :
    ∃ a : Answer z.Deflater UInt8 Bytes, deflateStep z s .noFlush = .ok (a.output, s.called a kChunk) ∧
      a.consumed ≤ s.remainingOf ∧ (a.output.length = kChunk ∨ a.consumed = min s.remainingOf uIntMax) ∧
      (z.encoder bits level).At a.state (fed ++ s.rest.take a.consumed) (given ++ a.output) .noFlush := by
  have hlen : (s.rest.take (min s.remainingOf uIntMax)).length = min s.remainingOf uIntMax := by
    rw [length_take, Stream.length_rest]; omega
  have hprefix : fed ++ s.rest.take (min s.remainingOf uIntMax) <+: u :=
    ((prefix_append_right_inj fed).2 (List.take_prefix _ _)).trans hfed
  have hroom : 0 < kChunk := by decide
  have hw := hy.writes hat _ hprefix hroom
  have hat' := Encoder.At.write (s.rest.take (min s.remainingOf uIntMax)) hroom hat
  change Encoder.Writes _ _ (z.deflate s.z (s.rest.take (min s.remainingOf uIntMax)) kChunk .noFlush) at hw
  change (z.encoder bits level).At (z.deflate s.z (s.rest.take (min s.remainingOf uIntMax)) kChunk .noFlush).state
    (fed ++ (s.rest.take (min s.remainingOf uIntMax)).take
      (z.deflate s.z (s.rest.take (min s.remainingOf uIntMax)) kChunk .noFlush).consumed)
    (given ++ (z.deflate s.z (s.rest.take (min s.remainingOf uIntMax)) kChunk .noFlush).output) .noFlush at hat'
  refine ⟨z.deflate s.z (s.rest.take (min s.remainingOf uIntMax)) kChunk .noFlush, ?_, ?_, ?_, ?_⟩
  · have hne : ∀ e, (z.deflate s.z (s.rest.take (min s.remainingOf uIntMax)) kChunk .noFlush).code ≠ .error e := by
      intro e he
      rcases hw.code with hc | hc <;> cases hc.symm.trans he
    rw [deflateStep_ok (by rw [ite_self]) hne]
    rcases hw.code with hc | hc <;>
    · rw [hc, decide_eq_false (by simp), Bool.or_false]; rfl
  · have := hw.consumed_le; rw [hlen] at this; omega
  · have := hw.full; rwa [hlen] at this
  · have := hw.consumed_le; rw [hlen] at this; rwa [take_take, Nat.min_eq_left this] at hat'

/-- What does not change while chunks are written. -/
structure Open (s : Stream z.Deflater) : Prop where
  finishing : s.finishing = false
  finished : s.finished = false
  leftover : s.leftover = false

/-- **The drain loop of a deflating stream ends, and takes the chunk.** -/
theorem drain_deflating {d : Decoder UInt8 UInt8}
    (hy : (z.encoder bits level).Encodes d u) {n : Nat}
    (hn : ∀ {s fed given told}, (z.encoder bits level).At s fed given told → fed <+: u → (told = .finish → fed = u) →
      given.length ≤ n) (k : Nat) : ∀ {b : ZlibBase z} {s : Stream z.Deflater} {fed given : Bytes},
      n - given.length + s.remainingOf = k → b.handle = some (.deflating s) → b.destroyed = false → b.endPending = false →
      (z.encoder bits level).At s.z fed given .noFlush → fed ++ s.rest <+: u → Open s →
      ∃ (s' : Stream z.Deflater) (pieces : List Bytes), Returns (fun fuel => drain false fuel b)
          ({ b with handle := some (.deflating s'), pushed := b.pushed ++ pieces }, none) ∧
        (z.encoder bits level).At s'.z (fed ++ s.rest) (given ++ pieces.flatten) .noFlush ∧ s'.rest = [] ∧ Open s' := by
  induction k using Nat.strongRecOn with
  | ind k ih =>
    intro b s fed given hk hb hopen hend hat hfed hs
    obtain ⟨a, hstep, hc, hfull, hat'⟩ := deflateStep_noFlush hy hat hfed
    have hs' : Open (s.called a kChunk) := ⟨hs.finishing, hs.finished, hs.leftover⟩
    have hstep' : ∀ fuel, b.step false fuel = some (.ok (a.output, .deflating (s.called a kChunk))) := by
      intro fuel
      rw [step, hb]
      dsimp only; rw [if_neg (by simp), streamRead, hstep]; rfl
    have hrest : (s.called a kChunk).rest = s.rest.drop a.consumed := rest_called s a kChunk
    have hremaining : (s.called a kChunk).remainingOf = s.remainingOf - a.consumed := by
      rw [← Stream.length_rest, hrest, length_drop, Stream.length_rest]
    have hall : fed ++ s.rest.take a.consumed ++ (s.called a kChunk).rest = fed ++ s.rest := by
      rw [hrest, append_assoc, take_append_drop]
    have htaken : fed ++ s.rest.take a.consumed <+: fed ++ s.rest :=
      (prefix_append_right_inj fed).2 (List.take_prefix a.consumed s.rest)
    have hgiven := hn hat' (htaken.trans hfed) (by simp)
    rw [length_append] at hgiven
    have hpush : pushPiece { b with handle := some (.deflating (s.called a kChunk)) } a.output =
        { b with handle := some (.deflating (s.called a kChunk)), pushed := b.pushed ++ piecesOf a.output } :=
      pushPiece_taken (b := { b with handle := some (.deflating (s.called a kChunk)) }) hopen (.inl hend)
    by_cases hpending : streamPending (z := z) (.deflating (s.called a kChunk)) = true
    · have hmore : kChunk ≤ a.output.length ∨ 0 < a.consumed := by
        rcases hfull with hfull | hmin
        · exact .inl (Nat.le_of_eq hfull.symm)
        · simp only [streamPending, hs'.finishing, Bool.false_eq_true, if_false, Bool.or_eq_true, decide_eq_true_eq] at hpending
          rcases hpending with hd | hleft
          · left; exact Nat.sub_eq_zero_iff_le.1 (of_decide_eq_true hd)
          · right
            have hmax : 0 < uIntMax := by decide
            omega
      have hpos : 0 < kChunk := by decide
      have hfewer : n - (given ++ a.output).length + (s.called a kChunk).remainingOf < k := by
        rw [hremaining, length_append]; omega
      obtain ⟨s₂, pieces, hr, hat₂, hrest₂, hopen₂⟩ := ih _ hfewer (b := { b with
        handle := some (.deflating (s.called a kChunk)), pushed := b.pushed ++ piecesOf a.output }) rfl rfl hopen hend hat'
        (hall ▸ hfed) hs'
      refine ⟨s₂, piecesOf a.output ++ pieces, ?_, ?_, hrest₂, hopen₂⟩
      · rw [← append_assoc]
        refine hr.step 0 fun fuel _ => ?_
        rw [drain, hstep']
        dsimp only; rw [hpush, if_neg (by simp [hopen]), if_pos hpending]
      · rw [flatten_append, piecesOf_flatten, ← append_assoc, ← hall]; exact hat₂
    · have hdone : (s.called a kChunk).remainingOf = 0 := by
        simp only [streamPending, hs'.finishing, Bool.false_eq_true, if_false, Bool.or_eq_true, decide_eq_true_eq, not_or] at hpending
        omega
      have hnil := Stream.remainingOf_eq_zero.1 hdone
      refine ⟨s.called a kChunk, piecesOf a.output, ?_, ?_, hnil, hs'⟩
      · refine (Returns.pure _).step 0 fun fuel _ => ?_
        rw [drain, hstep']
        dsimp only
        rw [hpush, if_neg (by simp [hopen]), if_neg hpending, if_neg (by simp), if_neg (by simp [streamLeftover, hs'.leftover])]
      · rw [hnil, append_nil] at hall; rw [piecesOf_flatten, ← hall]; exact hat'

theorem streamFinish_deflating {d : Decoder UInt8 UInt8}
    (hy : (z.encoder bits level).Encodes d u) {given : Bytes} {told : Flush}
    (hat : (z.encoder bits level).At s.z u given told) (hrest : s.rest = []) (hfin : s.finished = false) :
    ∃ (piece : Bytes) (s' : Stream z.Deflater), streamFinish (z := z) (.deflating s) = .ok (piece, .deflating s') ∧
      (z.encoder bits level).At s'.z u (given ++ piece) .finish ∧ s'.rest = [] ∧ s'.finishing = true ∧
      (s'.finished = true ∧ d.verdict (given ++ piece) = .ended (given ++ piece).length u ∨
        s'.finished = false ∧ piece.length = kChunk) := by
  have hroom : 0 < kChunk := by decide
  have hzero := Stream.remainingOf_eq_zero.2 hrest
  have hf := hy.finishes hat hroom
  have hat' := Encoder.At.finish hroom hat
  change Encoder.Finishes _ _ _ _ (z.deflate s.z [] kChunk .finish) at hf
  change (z.encoder bits level).At (z.deflate s.z [] kChunk .finish).state u (given ++ (z.deflate s.z [] kChunk .finish).output)
    .finish at hat'
  have hr : ({ s with finishing := true } : Stream z.Deflater).remainingOf = 0 := hzero
  have hcall : z.deflate s.z (({ s with finishing := true } : Stream z.Deflater).rest.take (min 0 uIntMax)) kChunk
      (if min 0 uIntMax = 0 then .finish else .noFlush) = z.deflate s.z [] kChunk .finish := by
    rw [Nat.zero_min, if_pos rfl, take_zero]
  rw [← hr] at hcall
  have hstep := deflateStep_ok (s := { s with finishing := true }) hcall (by
    intro e he
    rcases hf.done with ⟨hc, -⟩ | ⟨hc | hc, -⟩ <;> cases hc.symm.trans he)
  generalize z.deflate s.z [] kChunk .finish = a at hf hat' hstep
  have hrest' : (Stream.called { s with finishing := true } a kChunk).rest = [] := by
    rw [rest_called]
    change s.rest.drop _ = []; rw [hrest, drop_nil]
  rw [streamFinish, hstep]
  refine ⟨_, _, rfl, hat', hrest', rfl, ?_⟩
  rcases hf.done with ⟨hc, hended⟩ | ⟨hc, hfull⟩
  · exact .inl ⟨by simp [hc], hended⟩
  · exact .inr ⟨by rcases hc with hc | hc <;> simp [hc, hfin], hfull⟩

/-- **In the end all that has come out is one stream.** -/
theorem drain_finishing {d : Decoder UInt8 UInt8}
    (hy : (z.encoder bits level).Encodes d u) {n : Nat}
    (hn : ∀ {s fed given told}, (z.encoder bits level).At s fed given told → fed <+: u → (told = .finish → fed = u) →
      given.length ≤ n) (k : Nat) : ∀ {b : ZlibBase z} {s : Stream z.Deflater} {given : Bytes} {told : Flush},
      n - given.length = k → b.handle = some (.deflating s) → b.destroyed = false → b.endPending = false →
      (z.encoder bits level).At s.z u given told → s.rest = [] → s.finished = false →
      ∃ pieces : List Bytes,
        Returns (fun fuel => drain true fuel b) ({ b with handle := none, pushed := b.pushed ++ pieces }, none) ∧
        d.verdict (given ++ pieces.flatten) = .ended (given ++ pieces.flatten).length u := by
  induction k using Nat.strongRecOn with
  | ind k ih =>
    intro b s given told hk hb hopen hend hat hrest hfin
    obtain ⟨piece, s', hstep, hat', hrest', hfinishing, hdone⟩ := streamFinish_deflating hy hat hrest hfin
    have hstep' : ∀ fuel, b.step true fuel = some (.ok (piece, .deflating s')) := by
      intro fuel
      rw [step, hb]
      dsimp only; rw [if_pos rfl, hstep]
    have hpush : pushPiece { b with handle := some (.deflating s') } piece =
        { b with handle := some (.deflating s'), pushed := b.pushed ++ piecesOf piece } :=
      pushPiece_taken (b := { b with handle := some (.deflating s') }) hopen (.inl hend)
    rcases hdone with ⟨hfinished, hended⟩ | ⟨hfinished, hfull⟩
    · refine ⟨piecesOf piece, ?_, by rwa [piecesOf_flatten]⟩
      refine (Returns.pure _).step 0 fun fuel _ => ?_
      rw [drain, hstep']
      dsimp only
      rw [hpush, if_neg (by simp [hopen]), if_neg (by simp [streamPending, hfinishing, hfinished]), if_pos rfl]
    · have hgiven := hn hat' (prefix_refl u) (fun _ => rfl)
      have hpos : 0 < kChunk := by decide
      have hfewer : n - (given ++ piece).length < k := by rw [length_append] at hgiven ⊢; omega
      obtain ⟨pieces, hr, hended⟩ := ih _ hfewer (b := { b with
        handle := some (.deflating s'), pushed := b.pushed ++ piecesOf piece }) rfl rfl hopen hend hat' hrest' hfinished
      refine ⟨piecesOf piece ++ pieces, ?_, ?_⟩
      · rw [← append_assoc]
        refine hr.step 0 fun fuel _ => ?_
        rw [drain, hstep']
        dsimp only
        rw [hpush, if_neg (by simp [hopen]), if_pos (by simp [streamPending, hfinishing, hfinished])]
      · rwa [flatten_append, piecesOf_flatten, ← append_assoc]

/-! ## Runs -/

/-- A deflating stream that is written. -/
inductive Taking (bits : Framing) (level : Int) (b : ZlibBase z) (fed : Bytes) : Prop
  | intro {s : Stream z.Deflater} : b.handle = some (.deflating s) → b.destroyed = false → b.errored = none →
      b.writableEnded = false → b.endPending = false → Open s → s.rest = [] →
      (z.encoder bits level).At s.z fed b.pushed.flatten .noFlush → Taking bits level b fed

theorem write_taking {d : Decoder UInt8 UInt8}
    (hy : (z.encoder bits level).Encodes d u) {fed chunk : Bytes} (hb : Taking bits level b fed)
    (hfed : fed ++ chunk <+: u) :
    ∃ b', Returns (fun fuel => b.write fuel chunk) b' ∧ Taking bits level b' (fed ++ chunk) := by
  obtain ⟨n, hn⟩ := hy.bounded
  obtain @⟨s, hhandle, hopen, herrored, hw, hend, hs, -, hat⟩ := hb
  obtain ⟨s', pieces, hr, hat', hrest', hs'⟩ := drain_deflating hy hn _
    (b := { b with handle := some (.deflating (s.write chunk)) }) rfl rfl hopen hend hat hfed
    (⟨hs.finishing, hs.finished, rfl⟩ : Open (s.write chunk))
  refine ⟨_, (hr.map settle).congr (write_eq hhandle hopen hw),
    .intro rfl hopen herrored hw hend hs' hrest' ?_⟩
  rw [← flatten_append] at hat'; exact hat'

/-- **A deflating stream puts out one stream of its content.** -/
theorem run_deflates {d : Decoder UInt8 UInt8}
    (hy : (z.encoder bits level).Encodes d u) (chunks : List Bytes) : ∀ {b : ZlibBase z} {fed : Bytes},
    Taking bits level b fed → fed ++ chunks.flatten = u → ∃ b', Returns (fun fuel => b.run fuel chunks) b' ∧
        (b'.errored = none ∧ b'.endPending = true ∧ b'.writableFinished = true) ∧
        d.verdict b'.pushed.flatten = .ended b'.pushed.flatten.length u := by
  induction chunks with
  | nil =>
    intro b fed hb hfed
    obtain ⟨n, hn⟩ := hy.bounded
    obtain @⟨s, hhandle, hopen, herrored, hw, hend, hs, hrest, hat⟩ := hb
    rw [flatten_nil, append_nil] at hfed
    subst hfed
    obtain ⟨pieces, hr, hended⟩ := drain_finishing hy hn _ (b := { b with writableEnded := true }) rfl hhandle hopen hend hat
      hrest hs.finished
    refine ⟨_, (hr.map finish).congr (callEnd_eq hopen herrored hw), ?_, ?_⟩
    · simp [finish, push, hopen, hend, herrored]
    · rw [← flatten_append] at hended; simpa [finish, push, hopen, hend] using hended
  | cons chunk chunks ih =>
    intro b fed hb hfed
    rw [flatten_cons, ← append_assoc] at hfed
    obtain ⟨b₁, hb₁, hb'⟩ := write_taking hy hb ⟨_, hfed⟩
    obtain ⟨b', hr, hdone⟩ := ih hb' hfed; exact ⟨b', Returns.run hb₁ hr, hdone⟩

/-! ## The constructor -/

theorem deflateLevel_ok {compression : Int} (h : deflateLevel bits level = .ok compression) :
    level = compression := by
  unfold deflateLevel at h
  split at h
  · cases h
  · split at h
    · cases h
    · exact Except.ok.inj h

theorem created_taking (h : create z .deflate bits level = .ok b) : Taking bits level b [] := by
  change ((deflateLevel bits level).map _).map _ = _ at h
  cases hlevel : deflateLevel bits level with
  | error e => rw [hlevel] at h; cases h
  | ok compression =>
    obtain rfl := deflateLevel_ok hlevel
    rw [hlevel] at h
    cases h; exact .intro rfl rfl rfl rfl rfl ⟨rfl, rfl, rfl⟩ rfl .init

theorem created_running (h : create z .inflate bits level = .ok b) :
    Running d bits b (.inside [] []) ∧ b.endPending = false ∧ b.pushed = [] := by
  cases h
  exact ⟨.intro rfl rfl rfl rfl rfl (.inside rfl rfl .init (fun _ => (d bits).verdict_nil)) rfl rfl, rfl, rfl⟩

end ZlibBase

/-! ## The streams of one letter, written -/

/-- The streams of the letter, put out for any content. -/
def letterCodecs : Codecs :=
  .ofDecoders letterCodec (text "incorrect header check") (fun bits _ => ((letterStreams bits).headD ([], [])).1)

theorem letterCodec_nonzero (bits : Framing) : Nonzero (letterCodec bits) bits := by
  intro hb t n w
  rcases hb with rfl | rfl <;> simp [letterCodec, letterStreams, Decoder.ofTable, Decoder.lookupStream]

/-! ## Agreement -/

/-- **The streams of `node:zlib` agree with the one-shot functions**, however the input is cut. A stream that compresses puts out
one complete stream, which is decompressed to the input. A stream that decompresses ends on every input; and where the input
is a prefix of complete streams with padding behind them, it puts out what is decompressed of the whole, or it fails as that
does. -/
theorem streams_agree {z : Codecs} {d : Framing → Decoder UInt8 UInt8} (hz : z.Implements d)
    (hzero : ∀ bits, Nonzero (d bits) bits) (bits : Framing) (level : Int) (chunks : List Bytes) :
    (∀ b, ZlibBase.create z .deflate bits level = .ok b → (z.encoder bits level).Encodes (d bits) chunks.flatten →
      ∃ b', Returns (fun fuel => b.run fuel chunks) b' ∧
        (b'.errored = none ∧ b'.endPending = true ∧ b'.writableFinished = true) ∧ Complete (d bits) b'.pushed.flatten ∧
        Returns (inflate z.toLibrary bits b'.pushed.flatten) (.ok chunks.flatten)) ∧
    (∀ b, ZlibBase.create z .inflate bits level = .ok b → ∃ b', Returns (fun fuel => b.run fuel chunks) b' ∧
        (Sound (d bits) chunks.flatten → ∃ r, Returns (inflate z.toLibrary bits chunks.flatten) r ∧
          (∀ w, r = .ok w → b'.pushed.flatten = w ∧ b'.errored = none ∧ b'.endPending = true ∧ b'.writableFinished = true) ∧
          (∀ e, r = .error e → b'.errored ≠ none))) := by
  constructor
  · intro b hb hy
    obtain ⟨b', hr, hdone, hended⟩ := ZlibBase.run_deflates hy chunks (ZlibBase.created_taking hb) (nil_append _)
    refine ⟨b', hr, hdone, ⟨_, hended⟩, ?_⟩
    obtain ⟨r, rfl, hreturns⟩ := inflate_returns hz (.last hended (by simp [stops])); exact hreturns
  · intro b hb
    obtain ⟨hrunning, hopen, hnil⟩ := ZlibBase.created_running (d := d) hb
    by_cases hx : Sound (d bits) chunks.flatten
    · obtain ⟨w, r, hdecodes, htells, hreturns⟩ := inflate_decodes hz bits chunks.flatten
      obtain ⟨b', hb', houtcome⟩ := ZlibBase.run_reads hz chunks hrunning (fun he => by cases he.symm.trans hopen)
        (hdecodes.reads (hzero bits) hx)
      refine ⟨b', hb', fun _ => ⟨r, hreturns, ?_, ?_⟩⟩
      · rintro v rfl
        cases w with
        | none => obtain ⟨_, he⟩ := htells; cases he
        | some w =>
          obtain rfl : v = w := Except.ok.inj htells
          obtain ⟨hpushed, hrest⟩ := houtcome; rw [hnil] at hpushed; exact ⟨hpushed, hrest⟩
      · rintro e rfl
        cases w with
        | none => exact houtcome
        | some w => cases htells
    · obtain ⟨b', hb'⟩ := ZlibBase.run_returns hz chunks hrunning; exact ⟨b', hb', fun h => absurd h hx⟩

/-- The letter is compressed from two chunks, and decompressed from three with padding in two of them. -/
theorem streams_agree_letter : (letterCodecs.Implements letterCodec ∧ ∀ bits, Nonzero (letterCodec bits) bits) ∧
      (∃ b b', ZlibBase.create letterCodecs .deflate .gzip 9 = .ok b ∧ Returns (fun fuel => b.run fuel [[97], []]) b' ∧
        Returns (inflate letterCodecs.toLibrary .gzip b'.pushed.flatten) (.ok [97])) ∧
      ∃ b b', ZlibBase.create letterCodecs .inflate .gzip 0 = .ok b ∧ Returns (fun fuel => b.run fuel
          [[31, 139, 8, 0, 0], [0, 0, 0, 2, 3, 75, 4, 0, 67, 190, 183, 232, 1, 0, 0, 0, 0], [0]]) b' ∧
        b'.pushed.flatten = [97] ∧ b'.errored = none := by
  have hz : letterCodecs.Implements letterCodec := Library.ofDecoders_implements _ _
  refine ⟨⟨hz, letterCodec_nonzero⟩, ?_, ?_⟩
  · obtain ⟨b', hr, -, -, hreturns⟩ := (streams_agree hz letterCodec_nonzero .gzip 9 [[97], []]).1 _ rfl
      (Codecs.ofDecoders_encodes (by decide) 9)
    exact ⟨_, b', rfl, hr, hreturns⟩
  · obtain ⟨b', hr, hagree⟩ := (streams_agree hz letterCodec_nonzero .gzip 0
      [[31, 139, 8, 0, 0], [0, 0, 0, 2, 3, 75, 4, 0, 67, 190, 183, 232, 1, 0, 0, 0, 0], [0]]).2 _ rfl
    have hsound : Sound (letterCodec .gzip)
        [[31, 139, 8, 0, 0], [0, 0, 0, 2, 3, 75, 4, 0, 67, 190, 183, 232, 1, 0, 0, 0, 0], [0]].flatten := by
      refine ⟨[[31, 139, 8, 0, 0, 0, 0, 0, 2, 3, 75, 4, 0, 67, 190, 183, 232, 1, 0, 0, 0]], 2, ?_, by decide⟩
      intro m hm
      obtain rfl := mem_singleton.1 hm; exact ⟨[97], by decide⟩
    obtain ⟨r, hreturns, hok, -⟩ := hagree hsound
    have hv : (letterCodec .gzip).verdict
        [[31, 139, 8, 0, 0], [0, 0, 0, 2, 3, 75, 4, 0, 67, 190, 183, 232, 1, 0, 0, 0, 0], [0]].flatten = .ended 21 [97] := by
      decide
    obtain ⟨r', rfl, hreturns'⟩ := inflate_returns hz (.last hv (by decide))
    obtain ⟨hpushed, herrored, -⟩ := hok [97] (hreturns.unique hreturns')
    exact ⟨_, b', rfl, hr, hpushed, herrored⟩

end NodeCompat.Zlib
