import NodeCompat.Zlib.Inflate

/-!
# What `unzipSync` reads

`unzipSync` lets the library detect the framing of each stream. It reads one stream after the other, as `gunzipSync` does,
also after a zlib stream, where `inflateSync` stops; and a zlib stream that comes after gzip streams is one that `gunzipSync`
refuses. So `unzipSync` is `gunzipSync` on a gzip header, and `inflateSync` on a zlib header, for some trailers only
(`unzip_same_iff`).
-/

namespace NodeCompat.Zlib

open List

/-! ## Headers -/

def gzipHeader : Bytes → Bool
  | a :: b :: _ => a == 0x1F && b == 0x8B
  | _ => false

/-- The method is deflate, the window has at most 32K, and the check bits are right. -/
def zlibHeader : Bytes → Bool
  | a :: b :: _ => a.toNat % 16 == 8 && a.toNat / 16 ≤ 7 && (a.toNat * 256 + b.toNat) % 31 == 0
  | _ => false

/-- With the framing detected, a stream is what its header says: of gzip, of zlib, or none; and a stream of gzip begins with
the header of one. -/
structure Detects (d : Framing → Decoder UInt8 UInt8) : Prop where
  gzip : ∀ x, gzipHeader x = true → (d .detect).verdict x = (d .gzip).verdict x
  zlib : ∀ x, zlibHeader x = true → (d .detect).verdict x = (d .zlib).verdict x
  gzipOnly : ∀ x n w, (d .gzip).verdict x = .ended n w → gzipHeader x = true

/-! ## The streams of an input -/

/-- The complete streams that an input consists of, up to a zero byte or its end: the framing and the content of each. -/
inductive Members (d : Framing → Decoder UInt8 UInt8) : Bytes → List (Framing × Bytes) → Prop
  | last {x : Bytes} {n : Nat} {w : Bytes} : (d .detect).verdict x = .ended n w → stops .detect (x.drop n) = true →
      Members d x [(if gzipHeader x then .gzip else .zlib, w)]
  | next {x : Bytes} {n : Nat} {w : Bytes} {ms : List (Framing × Bytes)} : (d .detect).verdict x = .ended n w →
      stops .detect (x.drop n) = false → Members d (x.drop n) ms →
      Members d x ((if gzipHeader x then .gzip else .zlib, w) :: ms)

variable {d : Framing → Decoder UInt8 UInt8} {x : Bytes}

variable {ms : List (Framing × Bytes)} {r : Option Bytes}

theorem Members.decodes (h : Members d x ms) : Decodes (d .detect) .detect x (some (ms.map Prod.snd).flatten) := by
  induction h with
  | last hv hs => simpa using Decodes.last hv hs
  | next hv hs _ ih => exact .next hv hs ih

theorem Decodes.members (h : Decodes (d .detect) .detect x r) :
    ∀ {w : Bytes}, r = some w → ∃ ms, Members d x ms ∧ w = (ms.map Prod.snd).flatten := by
  induction h with
  | last hv hs => rintro w ⟨⟩; exact ⟨_, .last hv hs, by simp⟩
  | next hv hs _ ih =>
    intro w hw
    obtain ⟨w', rfl, rfl⟩ := Option.map_eq_some_iff.1 hw
    obtain ⟨ms, hms, rfl⟩ := ih rfl; exact ⟨_, .next hv hs hms, rfl⟩
  | fails _ =>
    rintro w ⟨⟩

/-! ## Against `gunzipSync` -/

theorem stops_gzip (next : Bytes) : stops .gzip next = stops .detect next := by simp [stops]

theorem gunzip_members (hd : Detects d) (h : Members d x ms) (hall : ∀ m ∈ ms, m.1 = .gzip) :
    Decodes (d .gzip) .gzip x (some (ms.map Prod.snd).flatten) := by
  induction h with
  | @last x n w hv hs =>
    have hx : gzipHeader x = true := by
      by_contra hno
      simpa [hno] using hall _ mem_cons_self
    rw [hd.gzip x hx] at hv; simpa using Decodes.last hv ((stops_gzip _).trans hs)
  | @next x n w ms hv hs _ ih =>
    rw [forall_mem_cons] at hall
    have hx : gzipHeader x = true := by
      by_contra hno
      simpa [hno] using hall.1
    rw [hd.gzip x hx] at hv; exact .next hv ((stops_gzip _).trans hs) (ih hall.2)

theorem gunzip_refuses (hd : Detects d) (h : gzipHeader x = false) : Decodes (d .gzip) .gzip x none :=
  .fails (fun n w hv => by rw [hd.gzipOnly x n w hv] at h; cases h)

theorem gunzip_zlib (hd : Detects d) (h : Members d x ms) (hex : ∃ m ∈ ms, m.1 ≠ .gzip) :
    Decodes (d .gzip) .gzip x none := by
  induction h with
  | @last x n w hv hs =>
    obtain ⟨m, hm, hne⟩ := hex
    rw [mem_singleton.1 hm] at hne
    cases hx : gzipHeader x with
    | true => exact absurd (by simp [hx]) hne
    | false => exact gunzip_refuses hd hx
  | @next x n w ms hv hs _ ih =>
    cases hx : gzipHeader x with
    | false => exact gunzip_refuses hd hx
    | true =>
      rw [hd.gzip x hx] at hv
      obtain ⟨m, hm, hne⟩ := hex
      rcases mem_cons.1 hm with rfl | hm
      · exact absurd (by simp [hx]) hne
      · exact .next hv ((stops_gzip _).trans hs) (ih ⟨m, hm, hne⟩)

theorem gunzip_fails (hd : Detects d) (h : Decodes (d .detect) .detect x r) (hr : r = none) :
    Decodes (d .gzip) .gzip x none := by
  induction h with
  | last hv hs => cases hr
  | @next x n w r hv hs _ ih =>
    cases hx : gzipHeader x with
    | false => exact gunzip_refuses hd hx
    | true =>
      rw [hd.gzip x hx] at hv; exact .next hv ((stops_gzip _).trans hs) (ih (Option.map_eq_none_iff.1 hr))
  | @fails x hno =>
    refine .fails (fun n w hv => hno n w ?_)
    rwa [hd.gzip x (hd.gzipOnly x n w hv)]

/-! ## The same result -/

/-- Both return the same bytes, or both throw. -/
def SameResult (r r' : Except Bytes Bytes) : Prop :=
  (∃ w, r = .ok w ∧ r' = .ok w) ∨ ∃ e e', r = .error e ∧ r' = .error e'

theorem sameResult_tells {w w' : Option Bytes} {r r' : Except Bytes Bytes} (h : Tells [] [] w r) (h' : Tells [] [] w' r') :
    SameResult r r' ↔ w = w' := by
  cases w with
  | some w =>
    obtain rfl : r = .ok w := h
    cases w' with
    | some w' => obtain rfl : r' = .ok w' := h'; simp [SameResult, eq_comm]
    | none => obtain ⟨e, rfl⟩ := h'; simp [SameResult]
  | none =>
    obtain ⟨e, rfl⟩ := h
    cases w' with
    | some w' => obtain rfl : r' = .ok w' := h'; simp [SameResult]
    | none => obtain ⟨e', rfl⟩ := h'; simp [SameResult]

/-! ## Against `inflateSync` -/

theorem inflate_stream {n : Nat} {w : Bytes} (hv : (d .zlib).verdict x = .ended n w) : Decodes (d .zlib) .zlib x (some w) :=
  .last hv (by simp [stops])

theorem decodes_empty (h : Decodes (d .detect) .detect x r) :
    r = some [] ↔ ∃ ms, Members d x ms ∧ ∀ m ∈ ms, m.2 = [] := by
  constructor
  · intro hr
    obtain ⟨ms, hms, hw⟩ := h.members hr
    refine ⟨ms, hms, fun m hm => ?_⟩
    exact flatten_eq_nil_iff.1 hw.symm _ (mem_map_of_mem hm)
  · rintro ⟨ms, hms, hall⟩
    rw [h.unique hms.decodes, flatten_eq_nil_iff.2]
    intro w hw
    obtain ⟨m, hm, rfl⟩ := mem_map.1 hw; exact hall m hm

theorem decodes_zlib (hd : Detects d) (hx : zlibHeader x = true) {r' : Option Bytes}
    (h : Decodes (d .detect) .detect x r) (h' : Decodes (d .zlib) .zlib x r') :
    r = r' ↔ ∀ n w, (d .zlib).verdict x = .ended n w →
      stops .detect (x.drop n) = true ∨ ∃ ms, Members d (x.drop n) ms ∧ ∀ m ∈ ms, m.2 = [] := by
  have hverdict := hd.zlib x hx
  cases h with
  | @last _ n w hv hs =>
    rw [hverdict] at hv
    obtain rfl := h'.unique (inflate_stream hv)
    refine iff_of_true rfl fun n' w' hv' => .inl ?_
    obtain ⟨rfl, rfl⟩ := Verdict.ended.inj (hv.symm.trans hv'); exact hs
  | @next _ n w r hv hs hrest =>
    rw [hverdict] at hv
    obtain rfl := h'.unique (inflate_stream hv)
    have hcond : (∀ n' w', (d .zlib).verdict x = .ended n' w' → stops .detect (x.drop n') = true ∨
        ∃ ms, Members d (x.drop n') ms ∧ ∀ m ∈ ms, m.2 = []) ↔ ∃ ms, Members d (x.drop n) ms ∧ ∀ m ∈ ms, m.2 = [] := by
      constructor
      · intro hall
        rcases hall n w hv with hstop | hms
        · rw [hs] at hstop; cases hstop
        · exact hms
      · intro hms n' w' hv'
        obtain ⟨rfl, rfl⟩ := Verdict.ended.inj (hv.symm.trans hv'); exact .inr hms
    rw [hcond, ← decodes_empty hrest]
    cases r with
    | none | some v => simp
  | fails hno =>
    have hnone : ∀ n w, (d .zlib).verdict x ≠ .ended n w := by intro n w hv; exact hno n w (hverdict.trans hv)
    obtain rfl := h'.unique (.fails hnone)
    exact iff_of_true rfl fun n w hv => absurd hv (hnone n w)

theorem decodes_gzip (hd : Detects d) {r' : Option Bytes} (h : Decodes (d .detect) .detect x r)
    (h' : Decodes (d .gzip) .gzip x r') : r = r' ↔ ∀ ms, Members d x ms → ∀ m ∈ ms, m.1 = .gzip := by
  constructor
  · rintro rfl ms hms
    by_contra hex
    push Not at hex
    cases (h.unique hms.decodes).symm.trans (h'.unique (gunzip_zlib hd hms hex))
  · intro hall
    cases r with
    | none => exact (h'.unique (gunzip_fails hd h rfl)).symm
    | some w =>
      obtain ⟨ms, hms, rfl⟩ := h.members rfl; exact (h'.unique (gunzip_members hd hms (hall ms hms))).symm

/-! ## The streams of one letter -/

/-- The letter `a`, with each header. -/
def letterStreams : Framing → List (Bytes × Bytes)
  | .gzip => [([31, 139, 8, 0, 0, 0, 0, 0, 2, 3, 75, 4, 0, 67, 190, 183, 232, 1, 0, 0, 0], [97])]
  | .zlib => [([120, 218, 75, 4, 0, 0, 98, 0, 98], [97])]
  | .raw => [([75, 4, 0], [97])]
  | .detect => [([31, 139, 8, 0, 0, 0, 0, 0, 2, 3, 75, 4, 0, 67, 190, 183, 232, 1, 0, 0, 0], [97]),
      ([120, 218, 75, 4, 0, 0, 98, 0, 98], [97])]

/-- The decoder of these streams, and of no others. -/
def letterCodec (bits : Framing) : Decoder UInt8 UInt8 :=
  .ofTable (letterStreams bits) (by cases bits <;> decide) (by cases bits <;> decide) (by cases bits <;> decide)

def letterLibrary : Library := .ofDecoders letterCodec (text "incorrect header check")

theorem letterLibrary_implements : letterLibrary.Implements letterCodec := Library.ofDecoders_implements _ _

theorem letterCodec_detects : Detects letterCodec where
  gzip := by
    intro x h
    rcases x with _ | ⟨a, _ | ⟨b, x⟩⟩
    · cases h
    · cases h
    · simp only [gzipHeader, Bool.and_eq_true, beq_iff_eq] at h
      obtain ⟨rfl, rfl⟩ := h
      simp [letterCodec, letterStreams, Decoder.ofTable, Decoder.lookupStream]
  zlib := by
    intro x h
    rcases x with _ | ⟨a, _ | ⟨b, x⟩⟩
    · cases h
    · cases h
    · have ha : a ≠ 31 := by rintro rfl; simp [zlibHeader] at h
      simp [letterCodec, letterStreams, Decoder.ofTable, Decoder.lookupStream, ha, ha.symm]
  gzipOnly := by
    intro x n w h
    obtain ⟨hmem, -⟩ := Decoder.lookupStream_ended h
    simp only [letterStreams, mem_singleton, Prod.mk.injEq] at hmem
    rw [← take_append_drop n x, hmem.1]; rfl

/-! ## When they agree -/

/-- **`unzipSync` returns what the codec of the header returns** for some inputs only. On a gzip header these are the inputs
whose streams, where it reads them to the end, are all of gzip; on a zlib header, those where nothing is read after the first
stream, or streams that stand for nothing. -/
theorem unzip_same_iff {z : Library} {d : Framing → Decoder UInt8 UInt8} (hz : z.Implements d) (hd : Detects d) (x : Bytes) :
    (gzipHeader x = true → ∃ r r', Returns (unzipSync z x) r ∧ Returns (gunzipSync z x) r' ∧
      (SameResult r r' ↔ ∀ ms, Members d x ms → ∀ m ∈ ms, m.1 = .gzip)) ∧
    (zlibHeader x = true → ∃ r r', Returns (unzipSync z x) r ∧ Returns (inflateSync z x) r' ∧
      (SameResult r r' ↔ ∀ n w, (d .zlib).verdict x = .ended n w →
        stops .detect (x.drop n) = true ∨ ∃ ms, Members d (x.drop n) ms ∧ ∀ m ∈ ms, m.2 = [])) := by
  obtain ⟨w, r, hw, htells, hr⟩ := inflate_decodes hz .detect x
  constructor
  · intro _
    obtain ⟨w', r', hw', htells', hr'⟩ := inflate_decodes hz .gzip x
    exact ⟨r, r', hr, hr', (sameResult_tells htells htells').trans (decodes_gzip hd hw hw')⟩
  · intro hx
    obtain ⟨w', r', hw', htells', hr'⟩ := inflate_decodes hz .zlib x
    exact ⟨r, r', hr, hr', (sameResult_tells htells htells').trans (decodes_zlib hd hx hw hw')⟩

/-- Padding after the stream is not read, in either way. -/
theorem unzip_same_padded : (letterLibrary.Implements letterCodec ∧ Detects letterCodec) ∧
      zlibHeader [120, 218, 75, 4, 0, 0, 98, 0, 98, 0, 0] = true ∧
      ∃ r r', Returns (unzipSync letterLibrary [120, 218, 75, 4, 0, 0, 98, 0, 98, 0, 0]) r ∧
        Returns (inflateSync letterLibrary [120, 218, 75, 4, 0, 0, 98, 0, 98, 0, 0]) r' ∧ SameResult r r' := by
  refine ⟨⟨letterLibrary_implements, letterCodec_detects⟩, by decide, ?_⟩
  obtain ⟨r, r', hr, hr', hsame⟩ := (unzip_same_iff letterLibrary_implements letterCodec_detects
    [120, 218, 75, 4, 0, 0, 98, 0, 98, 0, 0]).2 (by decide)
  refine ⟨r, r', hr, hr', hsame.2 fun n w hv => .inl ?_⟩
  have hended : (letterCodec .zlib).verdict [120, 218, 75, 4, 0, 0, 98, 0, 98, 0, 0] = .ended 9 [97] := by decide
  obtain ⟨rfl, -⟩ := Verdict.ended.inj (hended.symm.trans hv); decide

/-- With two more bytes after a zlib stream `inflateSync` returns the letter, and `unzipSync` throws. -/
theorem unzip_differs : (letterLibrary.Implements letterCodec ∧ Detects letterCodec) ∧
      zlibHeader [120, 218, 75, 4, 0, 0, 98, 0, 98, 1, 2] = true ∧
      (∃ message, Returns (unzipSync letterLibrary [120, 218, 75, 4, 0, 0, 98, 0, 98, 1, 2]) (.error message)) ∧
      Returns (inflateSync letterLibrary [120, 218, 75, 4, 0, 0, 98, 0, 98, 1, 2]) (.ok [97]) := by
  refine ⟨⟨letterLibrary_implements, letterCodec_detects⟩, by decide, ?_, ?_⟩
  · have hv : (letterCodec .detect).verdict [120, 218, 75, 4, 0, 0, 98, 0, 98, 1, 2] = .ended 9 [97] := by decide
    have hrest : (letterCodec .detect).verdict [1, 2] = .bad [] := by decide
    obtain ⟨r, ⟨message, rfl⟩, hr⟩ := inflate_returns letterLibrary_implements
      (.next hv (by decide) (.fails (fun n w h => by cases hrest.symm.trans h)))
    exact ⟨message, hr⟩
  · have hv : (letterCodec .zlib).verdict [120, 218, 75, 4, 0, 0, 98, 0, 98, 1, 2] = .ended 9 [97] := by decide
    obtain ⟨r, rfl, hr⟩ := inflate_returns letterLibrary_implements (inflate_stream hv); exact hr

end NodeCompat.Zlib
