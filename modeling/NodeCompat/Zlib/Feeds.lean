import NodeCompat.Zlib.Inflate

/-!
# Decoding chunk by chunk

A decoder that is handed its input in chunks is, after each of them, inside a stream or after one (`Place`). `Feeds` says
what comes out for a chunk, and `Reads` what is to come out for all that follows: the two go together (`Feeds.reads`), so the
chunks do not matter. They are what `Decodes` says of the whole input when nothing but padding comes after a zero byte
between streams (`Decodes.reads`): at the start of a chunk, a decoder does not know that it has seen one.
-/

namespace NodeCompat.Zlib

open List

/-- Inside a stream, of which `fed` has been taken and `given` has come out, or after a stream. -/
inductive Place
  | inside (fed given : Bytes)
  | after

variable {d : Decoder UInt8 UInt8} {bits : Framing}

/-- What comes out for a chunk, the place after it, and whether some of it is left over; nothing for a chunk that is refused. -/
inductive Feeds (d : Decoder UInt8 UInt8) (bits : Framing) : Place → Bytes → Bytes → Option (Place × Bool) → Prop
  | more {fed given chunk w : Bytes} : d.verdict (fed ++ chunk) = .more w →
      Feeds d bits (.inside fed given) chunk (w.drop given.length) (some (.inside (fed ++ chunk) w, false))
  | ended {fed given chunk w out : Bytes} {n : Nat} {res : Option (Place × Bool)} :
      d.verdict (fed ++ chunk) = .ended n w → Feeds d bits .after (chunk.drop (n - fed.length)) out res →
      Feeds d bits (.inside fed given) chunk (w.drop given.length ++ out) res
  | bad {fed given chunk w : Bytes} : d.verdict (fed ++ chunk) = .bad w →
      Feeds d bits (.inside fed given) chunk (w.drop given.length) none
  | stop {chunk : Bytes} : stops bits chunk = true → Feeds d bits .after chunk [] (some (.after, decide (chunk ≠ [])))
  | restart {chunk out : Bytes} {res : Option (Place × Bool)} : stops bits chunk = false →
      Feeds d bits (.inside [] []) chunk out res → Feeds d bits .after chunk out res

/-! ## Something comes out -/

theorem Feeds.exists_after (d : Decoder UInt8 UInt8) (bits : Framing) (chunk : Bytes) :
    ∃ out res, Feeds d bits .after chunk out res := by
  induction h : chunk.length using Nat.strongRecOn generalizing chunk with
  | ind k ih =>
    by_cases hs : stops bits chunk = true
    · exact ⟨_, _, .stop hs⟩
    · have hs : stops bits chunk = false := by simpa using hs
      have hnil : [] ++ chunk = chunk := nil_append chunk
      cases hv : d.verdict chunk with
      | more w => exact ⟨_, _, .restart hs (.more (by rw [hnil]; exact hv))⟩
      | bad w => exact ⟨_, _, .restart hs (.bad (by rw [hnil]; exact hv))⟩
      | ended n w =>
        have hn := d.ended_le hv
        obtain ⟨out, res, hrest⟩ := ih (chunk.drop n).length (by rw [length_drop]; omega) (chunk.drop n) rfl
        exact ⟨_, _, .restart hs (.ended (by rw [hnil]; exact hv) hrest)⟩

theorem Feeds.exists (d : Decoder UInt8 UInt8) (bits : Framing) (p : Place) (chunk : Bytes) :
    ∃ out res, Feeds d bits p chunk out res := by
  cases p with
  | after => exact Feeds.exists_after d bits chunk
  | inside fed given =>
    cases hv : d.verdict (fed ++ chunk) with
    | more w => exact ⟨_, _, .more hv⟩
    | bad w => exact ⟨_, _, .bad hv⟩
    | ended n w =>
      obtain ⟨out, res, hrest⟩ := Feeds.exists_after d bits (chunk.drop (n - fed.length)); exact ⟨_, _, .ended hv hrest⟩

/-! ## What is still to come -/

/-- Nothing is read of it, chunk by chunk either. -/
def Quiet (bits : Framing) (rest : Bytes) : Prop := (bits = .gzip ∨ bits = .detect) → ∀ x ∈ rest, x = 0

/-- What is to come out for the rest of the input, or that it cannot be decoded. -/
inductive Reads (d : Decoder UInt8 UInt8) (bits : Framing) : Place → Bytes → Option Bytes → Prop
  | ended {fed given rest w : Bytes} {n : Nat} {r : Option Bytes} : d.verdict (fed ++ rest) = .ended n w →
      Reads d bits .after (rest.drop (n - fed.length)) r →
      Reads d bits (.inside fed given) rest (r.map (w.drop given.length ++ ·))
  | fails {fed given rest : Bytes} : (∀ n w, d.verdict (fed ++ rest) ≠ .ended n w) → Reads d bits (.inside fed given) rest none
  | quiet {rest : Bytes} : Quiet bits rest → Reads d bits .after rest (some [])
  | next {rest : Bytes} {r : Option Bytes} : stops bits rest = false → Reads d bits (.inside [] []) rest r →
      Reads d bits .after rest r

theorem Quiet.stops {rest : Bytes} (h : Quiet bits rest) : stops bits rest = true := by
  cases rest with
  | nil => simp [Zlib.stops]
  | cons x rest =>
    by_cases hb : bits = .gzip ∨ bits = .detect
    · simp [Zlib.stops, h hb x mem_cons_self]
    · push Not at hb
      simp [Zlib.stops, hb.1, hb.2]

theorem Quiet.of_append {chunk rest : Bytes} (h : Quiet bits (chunk ++ rest)) : Quiet bits chunk ∧ Quiet bits rest :=
  ⟨fun hb x hx => h hb x (mem_append_left _ hx), fun hb x hx => h hb x (mem_append_right _ hx)⟩

/-- What has come out stands at the front of what is decoded. -/
def Place.Valid (d : Decoder UInt8 UInt8) : Place → Prop
  | .inside fed given => given <+: (d.verdict fed).out
  | .after => True

/-- What is to come out after a chunk, for what was to come out before it. -/
def Follows (d : Decoder UInt8 UInt8) (bits : Framing) (out rest : Bytes) (r : Option Bytes) : Option (Place × Bool) → Prop
  | none => r = none
  | some (q, leftover) => ∃ r', Reads d bits q rest r' ∧ r = r'.map (out ++ ·) ∧ (leftover = true → q = .after ∧ Quiet bits rest)

theorem Follows.prepend {out₁ out₂ rest : Bytes} {r : Option Bytes} {res : Option (Place × Bool)}
    (h : Follows d bits out₂ rest r res) : Follows d bits (out₁ ++ out₂) rest (r.map (out₁ ++ ·)) res := by
  cases res with
  | none => obtain rfl : r = none := h; rfl
  | some p =>
    obtain ⟨r', hr', rfl, hleft⟩ := h
    refine ⟨r', hr', ?_, hleft⟩
    simp [Function.comp_def]

theorem stops_append {chunk rest : Bytes} (h : stops bits chunk = true) (hne : chunk ≠ []) : stops bits (chunk ++ rest) = true := by
  cases chunk with
  | nil => exact absurd rfl hne
  | cons x chunk => simpa [stops] using h

/-- **Chunk by chunk, what was to come out comes out.** -/
theorem Feeds.reads {p : Place} {chunk out : Bytes} {res : Option (Place × Bool)} (h : Feeds d bits p chunk out res) :
    p.Valid d → ∀ {rest r}, Reads d bits p (chunk ++ rest) r → Follows d bits out rest r res := by
  induction h with
  | @more fed given chunk w hv =>
    intro hvalid rest r hr
    have hlen : given.length ≤ w.length := by
      have := (hvalid.trans (d.out_append fed chunk)).length_le; rwa [hv] at this
    cases hr with
    | fails hno =>
      refine ⟨none, .fails (fun n w' hw => hno n w' ?_), rfl, nofun⟩
      rwa [append_assoc] at hw
    | @ended _ _ _ w' n r hended hrest =>
      rw [← append_assoc] at hended
      have hn : (fed ++ chunk).length < n := by
        by_contra hle
        have := d.ended_of_le hended (by omega); rw [hv] at this; cases this
      rw [length_append] at hn
      have hdrop : (chunk ++ rest).drop (n - fed.length) = rest.drop (n - (fed ++ chunk).length) := by
        rw [drop_append, drop_of_length_le (by omega), nil_append, length_append]
        congr 1
        omega
      rw [hdrop] at hrest
      obtain ⟨t, ht⟩ : w <+: w' := by
        have := d.out_append (fed ++ chunk) rest; rwa [hv, hended] at this
      refine ⟨_, .ended hended hrest, ?_, nofun⟩
      rw [← ht, drop_append_of_le_length hlen, drop_left]; simp [Function.comp_def]
  | @ended fed given chunk w out n res hv hrest ih =>
    intro _ rest r hr
    have hended := d.ended_append rest hv
    rw [append_assoc] at hended
    have hn := (d.ended_le hv).2
    rw [length_append] at hn
    cases hr with
    | fails hno => exact absurd hended (hno n w)
    | ended hv' hr' =>
      obtain ⟨rfl, rfl⟩ := Verdict.ended.inj (hended.symm.trans hv')
      rw [drop_append_of_le_length (by omega)] at hr'; exact (ih trivial hr').prepend
  | @bad fed given chunk w hv =>
    intro _ rest r hr
    have hbad := d.bad_append rest hv
    rw [append_assoc] at hbad
    cases hr with
    | fails hno => rfl
    | ended hv' _ => cases hbad.symm.trans hv'
  | @stop chunk hs =>
    intro _ rest r hr
    cases hr with
    | quiet hq => exact ⟨some [], .quiet hq.of_append.2, rfl, fun _ => ⟨rfl, hq.of_append.2⟩⟩
    | next hs' hr' =>
      have hnil : chunk = [] := by
        by_contra hne
        rw [stops_append hs hne] at hs'
        cases hs'
      subst hnil; exact ⟨r, .next hs' hr', by simp, by simp⟩
  | @restart chunk out res hs _ ih =>
    intro _ rest r hr
    have hne : chunk ≠ [] := by rintro rfl; simp [stops] at hs
    cases hr with
    | quiet hq => rw [hq.of_append.1.stops] at hs; cases hs
    | next _ hr' => exact ih nil_prefix hr'

/-! ## The whole input -/

/-- A complete stream. -/
def Complete (d : Decoder UInt8 UInt8) (m : Bytes) : Prop := ∃ w, d.verdict m = .ended m.length w

/-- A prefix of complete streams, with zero padding behind them. -/
def Sound (d : Decoder UInt8 UInt8) (x : Bytes) : Prop :=
  ∃ (members : List Bytes) (padding : Nat), (∀ m ∈ members, Complete d m) ∧
    x <+: members.flatten ++ List.replicate padding 0

/-- No stream begins with a zero byte, where a zero byte is not read. -/
def Nonzero (d : Decoder UInt8 UInt8) (bits : Framing) : Prop :=
  (bits = .gzip ∨ bits = .detect) → ∀ t n w, d.verdict (0 :: t) ≠ .ended n w

theorem all_zero {x : Bytes} {k : Nat} (h : x <+: List.replicate k 0) : ∀ b ∈ x, b = 0 :=
  fun _ hb => eq_of_mem_replicate (h.subset hb)

/-- The first stream of a sound input is one of the sequence, and the rest of it is sound. -/
theorem Sound.rest (hz : ∀ t n w, d.verdict (0 :: t) ≠ .ended n w) {x : Bytes} {n : Nat} {w : Bytes} (hx : Sound d x)
    (hv : d.verdict x = .ended n w) : Sound d (x.drop n) := by
  obtain ⟨members, padding, hall, hpre⟩ := hx
  obtain ⟨t, ht⟩ := hpre
  have hbig := d.ended_append t hv
  rw [ht] at hbig
  cases members with
  | nil =>
    rw [flatten_nil, nil_append] at hbig
    cases padding with
    | zero => exact absurd hbig (d.not_ended_nil n w)
    | succ k => exact absurd hbig (hz _ n w)
  | cons m members =>
    obtain ⟨w', hm⟩ := hall m mem_cons_self
    have hm := d.ended_append (members.flatten ++ List.replicate padding 0) hm
    rw [← append_assoc, ← flatten_cons] at hm
    obtain ⟨rfl, -⟩ := Verdict.ended.inj (hbig.symm.trans hm)
    refine ⟨members, padding, fun m' hm' => hall m' (mem_cons_of_mem _ hm'), t, ?_⟩
    have hle := (d.ended_le hv).2
    rw [← drop_append_of_le_length hle, ht, flatten_cons, append_assoc, drop_left]

theorem Sound.quiet (hz : ∀ t n w, d.verdict (0 :: t) ≠ .ended n w) {t : Bytes} (hx : Sound d (0 :: t)) :
    ∀ b ∈ 0 :: t, b = 0 := by
  obtain ⟨members, padding, hall, hpre⟩ := hx
  cases members with
  | nil => rw [flatten_nil, nil_append] at hpre; exact all_zero hpre
  | cons m members =>
    obtain ⟨w, hm⟩ := hall m mem_cons_self
    cases m with
    | nil => exact absurd hm (d.not_ended_nil _ w)
    | cons b m =>
      rw [flatten_cons, append_assoc, cons_append, cons_prefix_cons] at hpre
      obtain ⟨rfl, -⟩ := hpre; exact absurd hm (hz m _ w)

/-- **On a sound input, what is to come out is what is decoded.** -/
theorem Decodes.reads (hz : Nonzero d bits) {x : Bytes} {r : Option Bytes} (h : Decodes d bits x r) :
    Sound d x → Reads d bits (.inside [] []) x r := by
  induction h with
  | @last x n w hv hs =>
    intro hx
    have hquiet : Quiet bits (x.drop n) := by
      intro hb
      have hrest := hx.rest (hz hb) hv
      revert hrest hs
      cases x.drop n with
      | nil => simp
      | cons b t =>
        intro hs hrest
        rcases hb with rfl | rfl <;>
        · obtain rfl : b = 0 := by simpa [stops] using hs
          exact hrest.quiet (hz (by simp))
    have hr := Reads.quiet (d := d) hquiet
    have hlast := @Reads.ended d bits [] [] x w n _ hv hr; simpa using hlast
  | @next x n w r hv hs _ ih =>
    intro hx
    have hb : bits = .gzip ∨ bits = .detect := by
      by_contra hb
      push Not at hb
      simp [stops, hb.1, hb.2] at hs
    have hrest := ih (hx.rest (hz hb) hv)
    exact @Reads.ended d bits [] [] x w n r hv (.next hs hrest)
  | fails hno => exact fun _ => .fails hno

end NodeCompat.Zlib
