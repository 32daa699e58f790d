import NodeCompat.Zlib.Feeds
import NodeCompat.Zlib.Stream

/-!
# The steps of an inflating stream

Between two steps an inflating stream stands at a place of the decoding (`Stands`), and a step gives a piece of what comes
out for the rest of the chunk (`inflateStep_stepped`): a whole `kChunk` when there is more, and all of it when there is none.
-/

namespace NodeCompat.Zlib

open List

variable {z : Codecs} {d : Framing → Decoder UInt8 UInt8}

/-- The place at which a stream stands: with nothing to be drained, all that is told by its input has come out. -/
inductive Stream.Stands (d : Framing → Decoder UInt8 UInt8) (s : Stream z.Inflater) : Place → Prop
  | inside {fed given : Bytes} : s.betweenMembers = false → s.ended = false → (z.machine s.bits).At s.z fed given →
      (s.draining = false → (d s.bits).verdict fed = .more given) → Stands d s (.inside fed given)
  | between {fed given : Bytes} : s.betweenMembers = true → s.ended = false → s.draining = false →
      (s.bits = .gzip ∨ s.bits = .detect) → (z.machine s.bits).At s.z fed given → Stands d s .after
  | ended : s.ended = true → s.draining = false → s.bits ≠ .gzip ∧ s.bits ≠ .detect → Stands d s .after

/-! ## A call -/

theorem Feeds.advance {d : Decoder UInt8 UInt8} {bits : Framing} {fed given rest out o : Bytes} {c : Nat}
    {res : Option (Place × Bool)} (h : Feeds d bits (.inside fed given) rest out res) (hc : c ≤ rest.length)
    (hgiven : given ++ o <+: (d.verdict (fed ++ rest)).out)
    (hwithin : ∀ {n w}, d.verdict (fed ++ rest) = .ended n w → fed.length + c ≤ n) :
    ∃ out', out = o ++ out' ∧ Feeds d bits (.inside (fed ++ rest.take c) (given ++ o)) (rest.drop c) out' res := by
  have hall : fed ++ rest.take c ++ rest.drop c = fed ++ rest := by rw [append_assoc, take_append_drop]
  have hdrop : ∀ {w : Bytes}, given ++ o <+: w → w.drop given.length = o ++ w.drop (given ++ o).length := by
    rintro w ⟨t, rfl⟩; rw [drop_left, append_assoc, drop_left]
  cases h with
  | @more _ _ _ w hv =>
    rw [hv] at hgiven
    refine ⟨_, hdrop hgiven, ?_⟩
    rw [← hall] at hv ⊢; exact .more hv
  | @ended _ _ _ w out n _ hv hrest =>
    have hn := hwithin hv
    rw [hv] at hgiven
    have hw := hdrop (w := w) hgiven
    refine ⟨w.drop (given ++ o).length ++ out, ?_, .ended (hall ▸ hv) ?_⟩
    · rw [hw, append_assoc]
    · rw [length_append, length_take, Nat.min_eq_left hc, drop_drop]
      convert hrest using 2
      omega
  | @bad _ _ _ w hv => rw [hv] at hgiven; exact ⟨_, hdrop hgiven, .bad (hall ▸ hv)⟩

/-- A call with the rest of a chunk, or with the part of it that a call can take. -/
inductive Called (d : Decoder UInt8 UInt8) (bits : Framing) (fed given rest : Bytes) (room : Nat) (out : Bytes)
    (res : Option (Place × Bool)) (a : Answer z.Inflater UInt8 Bytes) : Prop
  | error {e : Bytes} : a.code = .error e → res = none → Called d bits fed given rest room out res a
  | streamEnd {out' : Bytes} : a.code = .streamEnd → out = a.output ++ out' →
      Feeds d bits .after (rest.drop a.consumed) out' res → (fed = [] → 0 < a.consumed) →
      Called d bits fed given rest room out res a
  | goesOn {out' : Bytes} : a.code = .ok ∨ a.code = .bufError → out = a.output ++ out' →
      Feeds d bits (.inside (fed ++ rest.take a.consumed) (given ++ a.output)) (rest.drop a.consumed) out' res →
      (a.output.length < room → a.consumed = min rest.length uIntMax ∧
        d.verdict (fed ++ rest.take a.consumed) = .more (given ++ a.output)) →
      Called d bits fed given rest room out res a

theorem inflate_called {d : Decoder UInt8 UInt8} {bits : Framing} (hz : (z.machine bits).Implements d) {s : z.Inflater}
    {fed given rest out : Bytes} {room : Nat} {res : Option (Place × Bool)} (hs : (z.machine bits).At s fed given)
    (hroom : 0 < room) (h : Feeds d bits (.inside fed given) rest out res) :
    let a := z.inflate s (rest.take (min rest.length uIntMax)) room
    Called d bits fed given rest room out res a ∧ a.consumed ≤ rest.length ∧ a.output.length ≤ room ∧
      (z.machine bits).At a.state (fed ++ rest.take a.consumed) (given ++ a.output) := by
  have ha := hz hs (rest.take (min rest.length uIntMax)) room hroom
  have hat := Machine.At.call (rest.take (min rest.length uIntMax)) hroom hs
  change Answers _ _ _ _ _ (z.inflate s (rest.take (min rest.length uIntMax)) room) at ha
  change (z.machine bits).At (z.inflate s (rest.take (min rest.length uIntMax)) room).state
    (fed ++ (rest.take (min rest.length uIntMax)).take (z.inflate s (rest.take (min rest.length uIntMax)) room).consumed)
    (given ++ (z.inflate s (rest.take (min rest.length uIntMax)) room).output) at hat
  intro a
  generalize ha' : z.inflate s (rest.take (min rest.length uIntMax)) room = a' at ha hat
  obtain rfl : a = a' := ha'
  have hlen : (rest.take (min rest.length uIntMax)).length = min rest.length uIntMax := by
    rw [length_take]; omega
  have hle := ha.consumed_le
  rw [hlen] at hle
  rw [take_take, Nat.min_eq_left hle] at hat
  have hall : fed ++ rest.take (min rest.length uIntMax) ++ rest.drop (min rest.length uIntMax) = fed ++ rest := by
    rw [append_assoc, take_append_drop]
  have hsplit : fed ++ rest.take a.consumed ++ rest.drop a.consumed = fed ++ rest := by
    rw [append_assoc, take_append_drop]
  have hc : a.consumed ≤ rest.length := by omega
  refine ⟨?_, hc, ha.output_le, hat⟩
  have hgoesOn : a.code = .ok ∨ a.code = .bufError → Called d bits fed given rest room out res a := by
    intro hcode
    obtain ⟨out', hout, hrest⟩ := h.advance hc
      (by simpa only [hsplit] using hz.given_prefix hat (rest.drop a.consumed))
      (by
        intro n w hv
        rw [← hsplit] at hv
        have := hz.fed_le hat hv
        rwa [length_append, length_take, Nat.min_eq_left hc] at this)
    refine .goesOn hcode hout hrest fun hlt => ?_
    have hfull := (ha.full hcode).resolve_left (by omega)
    rw [hlen] at hfull
    refine ⟨hfull, ?_⟩
    rw [hfull]; exact ha.more hcode hlt
  cases hcode : a.code with
  | ok => exact hgoesOn (.inl hcode)
  | bufError => exact hgoesOn (.inr hcode)
  | error e =>
    obtain ⟨w, hw⟩ := ha.error hcode
    have hbad := d.bad_append (rest.drop (min rest.length uIntMax)) hw
    rw [hall] at hbad
    refine .error hcode ?_
    cases h with
    | more hv | ended hv _ => cases hbad.symm.trans hv
    | bad _ => rfl
  | streamEnd =>
    have hw := ha.streamEnd hcode
    have hended := d.ended_append (rest.drop (min rest.length uIntMax)) hw
    rw [hall] at hended
    cases h with
    | more hv | bad hv => cases hended.symm.trans hv
    | @ended _ _ _ w out n _ hv hrest =>
      obtain ⟨rfl, rfl⟩ := Verdict.ended.inj (hended.symm.trans hv)
      rw [Nat.add_sub_cancel_left] at hrest
      refine .streamEnd hcode (by rw [drop_left]) hrest ?_
      rintro rfl
      have := (d.ended_le hw).1; simpa using this

/-! ## The rounds of a step -/

namespace Stream

variable {σ : Type}

theorem length_rest (s : Stream σ) : s.rest.length = s.remainingOf := length_drop

theorem remainingOf_eq_zero {s : Stream σ} : s.remainingOf = 0 ↔ s.rest = [] := by
  rw [← length_rest, length_eq_zero_iff]

/-- What the steps leave alone. -/
structure Same (s s' : Stream σ) : Prop where
  bits : s'.bits = s.bits
  leftover : s'.leftover = s.leftover
  finishing : s'.finishing = s.finishing

/-- A step is the last one for a chunk. -/
def Idle (s : Stream σ) : Prop := s.ended = true ∨ s.stopped = true ∨ s.remainingOf = 0 ∧ s.draining = false

/-- A stream that has stopped has seen a zero byte after a member. -/
def Halted (s : Stream σ) : Prop := s.stopped = true → s.betweenMembers = true ∧ s.nextOf = 0

end Stream

open Zlib.Stream

theorem stops_zero {s : Stream z.Inflater} (h : s.nextOf = 0) : stops s.bits s.rest = true := by
  revert h
  unfold nextOf
  cases s.rest with
  | nil => simp [stops]
  | cons b rest =>
    intro h
    obtain rfl : b = 0 := h; simp [stops]

theorem nextOf_of_stops {s : Stream z.Inflater} (hbits : s.bits = .gzip ∨ s.bits = .detect) (h : stops s.bits s.rest = true)
    (hne : s.rest ≠ []) : s.nextOf = 0 := by
  revert h hne
  unfold nextOf
  cases s.rest with
  | nil => simp
  | cons b rest =>
    intro h _
    rcases hbits with hb | hb <;> simpa [stops, hb] using h

theorem Stream.Stands.idle {s : Stream z.Inflater} {p : Place} {out : Bytes} {res : Option (Place × Bool)} (hs : s.Stands d p)
    (hidle : s.Idle) (hhalted : s.Halted) (h : Feeds (d s.bits) s.bits p s.rest out res) :
    out = [] ∧ res = some (p, decide (s.rest ≠ [])) ∧ s.draining = false := by
  cases hs with
  | inside hbetween hended hat hverdict =>
    have hdone : s.remainingOf = 0 ∧ s.draining = false := by
      rcases hidle with he | hstop | hdone
      · rw [hended] at he; cases he
      · rw [(hhalted hstop).1] at hbetween; cases hbetween
      · exact hdone
    have hrest := remainingOf_eq_zero.1 hdone.1
    rw [hrest] at h ⊢
    have hmore := hverdict hdone.2
    cases h with
    | more hv =>
      rw [append_nil] at hv ⊢
      obtain rfl := Verdict.more.inj (hmore.symm.trans hv); exact ⟨drop_length, rfl, hdone.2⟩
    | ended hv _ | bad hv =>
      rw [append_nil] at hv
      cases hmore.symm.trans hv
  | between hbetween hended hdrain _ _ =>
    have hstops : stops s.bits s.rest = true := by
      rcases hidle with he | hstop | hdone
      · rw [hended] at he; cases he
      · exact stops_zero (hhalted hstop).2
      · rw [remainingOf_eq_zero.1 hdone.1]; simp [stops]
    cases h with
    | stop _ => exact ⟨rfl, rfl, hdrain⟩
    | restart hno _ => cases hstops.symm.trans hno
  | ended _ hdrain hbits =>
    cases h with
    | stop _ => exact ⟨rfl, rfl, hdrain⟩
    | restart hno _ => simp [stops, hbits.1, hbits.2] at hno

/-- What the rounds leave: an error, or a longer output and the place after it. -/
inductive Rounded (d : Framing → Decoder UInt8 UInt8) (s : Stream z.Inflater) (output out : Bytes)
    (res : Option (Place × Bool)) : Except Bytes (Bytes × Stream z.Inflater) → Prop
  | error {e : Bytes} : res = none → Rounded d s output out res (.error e)
  | ok {s' : Stream z.Inflater} {p : Place} {output' out' : Bytes} : output' ++ out' = output ++ out → s'.Stands d p →
      Feeds (d s'.bits) s'.bits p s'.rest out' res → s.Same s' → s'.Halted → output'.length ≤ kChunk →
      (output'.length = kChunk ∧ s'.stopped = false ∨ s'.Idle) → Rounded d s output out res (.ok (output', s'))

/-- How many rounds there may be. -/
def rounds (s : Stream z.Inflater) (output : Bytes) : Nat :=
  if output.length < kChunk then 2 * s.remainingOf + (if s.betweenMembers then 1 else if s.draining then 3 else 2) else 0

section Rounds

variable {s : Stream z.Inflater} {output : Bytes}

theorem rounds_between (output : Bytes) (h : s.betweenMembers = true) : rounds s output ≤ 2 * s.remainingOf + 1 := by
  rw [rounds, if_pos h]
  split <;> omega

theorem rounds_inside (output : Bytes) (h : s.betweenMembers = false) (hdrain : s.draining = false) :
    rounds s output ≤ 2 * s.remainingOf + 2 := by
  rw [rounds, h, hdrain]
  split <;> simp

theorem rounds_full (h : output.length = kChunk) : rounds s output = 0 := by
  rw [rounds, if_neg (by omega)]

theorem le_rounds (s : Stream z.Inflater) (hlt : output.length < kChunk) : 2 * s.remainingOf + 1 ≤ rounds s output := by
  rw [rounds, if_pos hlt]
  split
  · omega
  · split <;> omega

theorem le_rounds_inside (h : s.betweenMembers = false) (hlt : output.length < kChunk) :
    2 * s.remainingOf + 2 ≤ rounds s output := by
  rw [rounds, if_pos hlt, h]
  cases s.draining <;> simp

theorem le_rounds_draining (h : s.betweenMembers = false) (hdrain : s.draining = true) (hlt : output.length < kChunk) :
    2 * s.remainingOf + 3 ≤ rounds s output := by
  rw [rounds, if_pos hlt, h, hdrain]; simp

end Rounds

theorem Rounded.of_later {s s₁ : Stream z.Inflater} {output output₁ out out₁ : Bytes} {res : Option (Place × Bool)}
    {r : Except Bytes (Bytes × Stream z.Inflater)} (h : Rounded d s₁ output₁ out₁ res r)
    (hout : output₁ ++ out₁ = output ++ out) (hsame : s.Same s₁) : Rounded d s output out res r := by
  cases h with
  | error hres => exact .error hres
  | ok ho hs hf hsame' hh hle hlast =>
    exact .ok (ho.trans hout) hs hf ⟨hsame'.bits.trans hsame.bits, hsame'.leftover.trans hsame.leftover,
      hsame'.finishing.trans hsame.finishing⟩ hh hle hlast

theorem begin_stands {s : Stream z.Inflater} {p : Place} {out : Bytes} {res : Option (Place × Bool)} (hs : s.Stands d p)
    (hended : s.ended = false) (hrest : ¬ (s.remainingOf = 0 ∧ s.draining = false))
    (hnext : ¬ (s.betweenMembers = true ∧ s.nextOf = 0)) (h : Feeds (d s.bits) s.bits p s.rest out res) :
    ∃ fed given, (s.begin z).Stands d (.inside fed given) ∧ Feeds (d s.bits) s.bits (.inside fed given) s.rest out res ∧
      (s.betweenMembers = true → fed = []) := by
  cases hs with
  | @inside fed given hbetween _ hat hverdict =>
    refine ⟨fed, given, ?_, h, fun hb => ?_⟩
    · rw [begin, hbetween]; exact .inside hbetween hended hat hverdict
    · rw [hbetween] at hb; cases hb
  | between hbetween _ hdrain hbits hat =>
    have hgo : Feeds (d s.bits) s.bits (.inside [] []) s.rest out res := by
      cases h with
      | restart _ h => exact h
      | stop hstops =>
        have hne : s.rest ≠ [] := fun hnil => hrest ⟨remainingOf_eq_zero.2 hnil, hdrain⟩
        exact absurd ⟨hbetween, nextOf_of_stops hbits hstops hne⟩ hnext
    refine ⟨[], [], ?_, hgo, fun _ => rfl⟩
    rw [begin, hbetween]
    exact .inside rfl hended (Machine.At.reset hat) (fun _ => (d s.bits).verdict_nil)
  | ended he _ _ => cases he.symm.trans hended

section Begin

variable (s : Stream z.Inflater)

theorem begin_rest : (s.begin z).rest = s.rest := by
  unfold begin
  split <;> rfl

theorem begin_bits : (s.begin z).bits = s.bits := by
  unfold begin
  split <;> rfl

theorem begin_ended : (s.begin z).ended = s.ended := by
  unfold begin
  split <;> rfl

theorem begin_stopped : (s.begin z).stopped = s.stopped := by
  unfold begin
  split <;> rfl

theorem begin_between : (s.begin z).betweenMembers = false := by
  unfold begin
  split
  · rfl
  · next h => simpa using h

theorem begin_same : s.Same (s.begin z) := by
  unfold begin
  split <;> exact ⟨rfl, rfl, rfl⟩

end Begin

theorem rest_called {σ : Type} (s : Stream σ) (a : Answer σ UInt8 Bytes) (room : Nat) :
    (s.called a room).rest = s.rest.drop a.consumed := by
  rw [rest, rest, drop_drop]; rfl

section Round

variable {s : Stream z.Inflater} {output : Bytes} (hgo : output.length < kChunk ∧ s.ended = false ∧ s.stopped = false)
  (hidle : ¬ (s.remainingOf = 0 ∧ s.draining = false)) (hnext : ¬ (s.betweenMembers = true ∧ s.nextOf = 0))
  {a : Answer z.Inflater UInt8 Bytes}
  (ha : z.inflate (s.begin z).z (s.rest.take (min s.rest.length uIntMax)) (kChunk - output.length) = a)

include hgo hidle hnext ha

theorem inflateRounds_error {message : Bytes} (hcode : a.code = .error message) (fuel : Nat) :
    inflateRounds z (fuel + 1) s output = some (.error message) := by
  rw [inflateRounds, if_pos hgo]
  dsimp only; rw [if_neg hidle, if_neg hnext, begin_rest, ← length_rest, ha, hcode]

theorem inflateRounds_end (hcode : a.code = .streamEnd) (fuel : Nat) : inflateRounds z (fuel + 1) s output =
      if s.bits ≠ .gzip ∧ s.bits ≠ .detect then some (.ok (output ++ a.output,
          { (s.begin z).called a (kChunk - output.length) with draining := false, ended := true }))
      else inflateRounds z fuel { (s.begin z).called a (kChunk - output.length) with draining := false, betweenMembers := true }
        (output ++ a.output) := by
  rw [inflateRounds, if_pos hgo]
  dsimp only
  rw [if_neg hidle, if_neg hnext, begin_rest, ← length_rest, ha, hcode, begin_bits]
  dsimp only; rw [if_pos rfl]

theorem inflateRounds_call (hcode : a.code = .ok ∨ a.code = .bufError) (fuel : Nat) :
    inflateRounds z (fuel + 1) s output =
      if a.consumed = 0 ∧ a.output.length = 0 then
        if s.remainingOf = 0 then some (.ok (output ++ a.output, (s.begin z).called a (kChunk - output.length)))
        else some (.error (text "unexpected end of file"))
      else inflateRounds z fuel ((s.begin z).called a (kChunk - output.length)) (output ++ a.output) := by
  rw [inflateRounds, if_pos hgo]
  dsimp only
  rw [if_neg hidle, if_neg hnext, begin_rest, ← length_rest, ha]
  rcases hcode with hc | hc <;>
  · rw [hc]
    dsimp only; rw [if_neg (by simp)]

end Round

theorem called_stands {s : Stream z.Inflater} {fed given : Bytes} {a : Answer z.Inflater UInt8 Bytes} {room : Nat}
    (hended : s.ended = false) (hat : (z.machine s.bits).At a.state (fed ++ s.rest.take a.consumed) (given ++ a.output))
    (hmore : a.output.length < room →
      (d s.bits).verdict (fed ++ s.rest.take a.consumed) = .more (given ++ a.output)) :
    ((s.begin z).called a room).Stands d (.inside (fed ++ s.rest.take a.consumed) (given ++ a.output)) := by
  refine .inside (begin_between s) ((begin_ended s).trans hended) ?_ fun hdrain => ?_
  · rw [← begin_bits s] at hat; exact hat
  · have hroom : ¬ room - a.output.length = 0 := of_decide_eq_false hdrain
    rw [← begin_bits s] at hmore; exact hmore (by omega)

theorem remaining_called (s : Stream z.Inflater) (a : Answer z.Inflater UInt8 Bytes) (room : Nat) :
    ((s.begin z).called a room).remainingOf = s.remainingOf - a.consumed := by
  rw [← length_rest, rest_called, begin_rest, length_drop, length_rest]

theorem member_stands {s : Stream z.Inflater} {fed given : Bytes} {a : Answer z.Inflater UInt8 Bytes} (room : Nat)
    (hended : s.ended = false) (hbits : s.bits = .gzip ∨ s.bits = .detect) (hat : (z.machine s.bits).At a.state fed given) :
    ({ (s.begin z).called a room with draining := false, betweenMembers := true } : Stream z.Inflater).Stands d .after := by
  rw [← begin_bits s] at hbits hat; exact .between rfl ((begin_ended s).trans hended) rfl hbits hat

/-- The end of a member leaves fewer rounds: a member that has been begun in the round has taken something. -/
theorem rounds_member {s : Stream z.Inflater} {output : Bytes} {a : Answer z.Inflater UInt8 Bytes}
    (hlt : output.length < kChunk) (hc : a.consumed ≤ s.remainingOf) (hpos : s.betweenMembers = true → 0 < a.consumed) :
    rounds ({ (s.begin z).called a (kChunk - output.length) with draining := false, betweenMembers := true } :
      Stream z.Inflater) (output ++ a.output) < rounds s output := by
  have hle := rounds_between (output ++ a.output) (s := { (s.begin z).called a (kChunk - output.length) with
    draining := false, betweenMembers := true }) rfl
  have hr := remaining_called s a (kChunk - output.length)
  change _ ≤ 2 * ((s.begin z).called a (kChunk - output.length)).remainingOf + 1 at hle
  rw [hr] at hle
  cases hb : s.betweenMembers with
  | true =>
    have hpos := hpos hb
    have hmany := le_rounds s hlt; omega
  | false => have hmany := le_rounds_inside hb hlt; omega

/-- So does any other call: the output is full, or some of the chunk is taken, or what was to be drained has been. -/
theorem rounds_called {s : Stream z.Inflater} {output : Bytes} {a : Answer z.Inflater UInt8 Bytes}
    (hlt : output.length < kChunk) (hc : a.consumed ≤ s.remainingOf) (ho : a.output.length ≤ kChunk - output.length)
    (hmin : a.output.length < kChunk - output.length → a.consumed = min s.rest.length uIntMax)
    (hdraining : s.remainingOf = 0 → s.betweenMembers = false ∧ s.draining = true) :
    rounds ((s.begin z).called a (kChunk - output.length)) (output ++ a.output) < rounds s output := by
  have hmany := le_rounds s hlt
  by_cases hroom : a.output.length < kChunk - output.length
  · have hdrain : ((s.begin z).called a (kChunk - output.length)).draining = false := decide_eq_false (by omega)
    have hle := rounds_inside (output ++ a.output) (s := (s.begin z).called a (kChunk - output.length)) (begin_between s) hdrain
    have hmin := hmin hroom
    have hmax : 0 < uIntMax := by decide
    rw [remaining_called] at hle
    rw [length_rest] at hmin
    by_cases hzero : s.remainingOf = 0
    · have hmany := le_rounds_draining (hdraining hzero).1 (hdraining hzero).2 hlt; omega
    · omega
  · rw [rounds_full (by rw [length_append]; omega)]; omega

/-- What one round does: it is the last one, or it goes on with fewer rounds to come. -/
inductive Round (d : Framing → Decoder UInt8 UInt8) (s : Stream z.Inflater) (output out : Bytes) (res : Option (Place × Bool)) :
    Prop
  | stops {r : Except Bytes (Bytes × Stream z.Inflater)} : (∀ fuel, inflateRounds z (fuel + 1) s output = some r) →
      Rounded d s output out res r → Round d s output out res
  | goesOn {s₁ : Stream z.Inflater} {p : Place} {output₁ out₁ : Bytes} :
      (∀ fuel, inflateRounds z (fuel + 1) s output = inflateRounds z fuel s₁ output₁) →
      rounds s₁ output₁ < rounds s output → output₁.length ≤ kChunk → s₁.Stands d p → s₁.stopped = false →
      Feeds (d s₁.bits) s₁.bits p s₁.rest out₁ res → output₁ ++ out₁ = output ++ out → s.Same s₁ → Round d s output out res

section Round

variable {s : Stream z.Inflater} {output out out' fed given : Bytes} {res : Option (Place × Bool)}
  {a : Answer z.Inflater UInt8 Bytes}

section

variable (hgo : output.length < kChunk ∧ s.ended = false ∧ s.stopped = false)
include hgo

theorem called_within (ho : a.output.length ≤ kChunk - output.length) (hout : out = a.output ++ out') :
    output ++ a.output ++ out' = output ++ out ∧ (output ++ a.output).length ≤ kChunk ∧
      ((s.begin z).called a (kChunk - output.length)).stopped = false := by
  refine ⟨by rw [hout, append_assoc], ?_, (begin_stopped s).trans hgo.2.2⟩
  rw [length_append]; omega

/-- A round with a call that ends a stream: a zlib or a raw stream is the only one, a member may be followed by others. -/
theorem round_end
    (hround : ∀ fuel, inflateRounds z (fuel + 1) s output =
      if s.bits ≠ .gzip ∧ s.bits ≠ .detect then some (.ok (output ++ a.output,
          { (s.begin z).called a (kChunk - output.length) with draining := false, ended := true }))
      else inflateRounds z fuel { (s.begin z).called a (kChunk - output.length) with draining := false, betweenMembers := true }
        (output ++ a.output))
    (hc : a.consumed ≤ s.remainingOf) (ho : a.output.length ≤ kChunk - output.length)
    (hat : (z.machine s.bits).At a.state fed given) (hout : out = a.output ++ out')
    (hrest : Feeds (d s.bits) s.bits .after (s.rest.drop a.consumed) out' res)
    (hpos : s.betweenMembers = true → 0 < a.consumed) : Round d s output out res := by
  obtain ⟨hall, hlen, hstop'⟩ := called_within hgo ho hout
  obtain ⟨hlt, hended, hstop⟩ := hgo
  have hfeeds : Feeds (d (s.begin z).bits) (s.begin z).bits .after
      ((s.begin z).called a (kChunk - output.length)).rest out' res := by rwa [rest_called, begin_rest, begin_bits]
  by_cases hbits : s.bits ≠ .gzip ∧ s.bits ≠ .detect
  · have hbits' : (s.begin z).bits ≠ .gzip ∧ (s.begin z).bits ≠ .detect := by rwa [begin_bits]
    refine .stops (fun fuel => (hround fuel).trans (if_pos hbits)) (.ok hall (.ended rfl rfl hbits') hfeeds
      ⟨begin_bits s, (begin_same s).leftover, (begin_same s).finishing⟩ ?_ hlen (.inr (.inl rfl)))
    intro ht
    cases ht.symm.trans hstop'
  · have hbits' : s.bits = .gzip ∨ s.bits = .detect := by
      by_contra hno
      push Not at hno
      exact hbits hno
    exact .goesOn (fun fuel => (hround fuel).trans (if_neg hbits)) (rounds_member hlt hc hpos) hlen
      (member_stands (kChunk - output.length) hended hbits' hat) hstop' hfeeds hall
      ⟨begin_bits s, (begin_same s).leftover, (begin_same s).finishing⟩

/-- A round with a call that does not end a stream: without progress it is the last one, as nothing was left of the chunk. -/
theorem round_call
    (hround : ∀ fuel, inflateRounds z (fuel + 1) s output =
      if a.consumed = 0 ∧ a.output.length = 0 then
        if s.remainingOf = 0 then some (.ok (output ++ a.output, (s.begin z).called a (kChunk - output.length)))
        else some (.error (text "unexpected end of file"))
      else inflateRounds z fuel ((s.begin z).called a (kChunk - output.length)) (output ++ a.output))
    (hc : a.consumed ≤ s.remainingOf) (ho : a.output.length ≤ kChunk - output.length)
    (hat : (z.machine s.bits).At a.state (fed ++ s.rest.take a.consumed) (given ++ a.output)) (hout : out = a.output ++ out')
    (hrest : Feeds (d s.bits) s.bits (.inside (fed ++ s.rest.take a.consumed) (given ++ a.output))
      (s.rest.drop a.consumed) out' res)
    (hmore : a.output.length < kChunk - output.length → a.consumed = min s.rest.length uIntMax ∧
      (d s.bits).verdict (fed ++ s.rest.take a.consumed) = .more (given ++ a.output))
    (hdraining : s.remainingOf = 0 → s.betweenMembers = false ∧ s.draining = true) : Round d s output out res := by
  obtain ⟨hall, hlen, hstop'⟩ := called_within hgo ho hout
  obtain ⟨hlt, hended, hstop⟩ := hgo
  have hsame : s.Same ((s.begin z).called a (kChunk - output.length)) :=
    ⟨begin_bits s, (begin_same s).leftover, (begin_same s).finishing⟩
  have hs₁ := called_stands (d := d) hended hat (fun hroom => (hmore hroom).2)
  have hfeeds : Feeds (d (s.begin z).bits) (s.begin z).bits (.inside (fed ++ s.rest.take a.consumed) (given ++ a.output))
      ((s.begin z).called a (kChunk - output.length)).rest out' res := by rwa [rest_called, begin_rest, begin_bits]
  by_cases hnone : a.consumed = 0 ∧ a.output.length = 0
  · have hzero : s.remainingOf = 0 := by
      have hmin := (hmore (by omega)).1
      have hpos : 0 < uIntMax := by decide
      rw [hnone.1, length_rest] at hmin; omega
    refine .stops (fun fuel => (hround fuel).trans ((if_pos hnone).trans (if_pos hzero)))
      (.ok hall hs₁ hfeeds hsame ?_ hlen (.inr (.inr (.inr ⟨?_, ?_⟩))))
    · intro ht
      cases ht.symm.trans hstop'
    · rw [remaining_called]; omega
    · exact decide_eq_false (by omega)
  · exact .goesOn (fun fuel => (hround fuel).trans (if_neg hnone))
      (rounds_called hlt hc ho (fun hroom => (hmore hroom).1) hdraining) hlen hs₁ hstop' hfeeds hall hsame

end

end Round

theorem inflateRounds_round (hz : z.Implements d) {s : Stream z.Inflater} {p : Place} {output out : Bytes}
    {res : Option (Place × Bool)} (hle : output.length ≤ kChunk) (hs : s.Stands d p) (hstop : s.stopped = false)
    (h : Feeds (d s.bits) s.bits p s.rest out res) : Round d s output out res := by
  have hhalted : s.Halted := by
    intro ht
    cases ht.symm.trans hstop
  by_cases hgo : output.length < kChunk ∧ s.ended = false ∧ s.stopped = false
  swap
  · refine .stops (fun fuel => ?_) (.ok rfl hs h ⟨rfl, rfl, rfl⟩ hhalted hle ?_)
    · rw [inflateRounds, if_neg hgo]
    · by_cases hlt : output.length < kChunk
      · exact .inr (.inl (by simpa [hlt, hstop] using hgo))
      · exact .inl ⟨by omega, hstop⟩
  obtain ⟨hlt, hended, -⟩ := id hgo
  by_cases hidle : s.remainingOf = 0 ∧ s.draining = false
  · refine .stops (fun fuel => ?_) (.ok rfl hs h ⟨rfl, rfl, rfl⟩ hhalted hle (.inr (.inr (.inr hidle))))
    rw [inflateRounds, if_pos hgo]; rw [if_pos hidle]
  by_cases hnext : s.betweenMembers = true ∧ s.nextOf = 0
  · have hs' : ({ s with stopped := true } : Stream z.Inflater).Stands d p := by
      cases hs with
      | inside hb _ _ _ => cases hb.symm.trans hnext.1
      | between hb he hd hbits hat => exact .between hb he hd hbits hat
      | ended he _ _ => cases he.symm.trans hended
    refine .stops (fun fuel => ?_) (.ok rfl hs' h ⟨rfl, rfl, rfl⟩ (fun _ => hnext) hle (.inr (.inr (.inl rfl))))
    rw [inflateRounds, if_pos hgo]; rw [if_neg hidle, if_pos hnext]
  obtain ⟨fed, given, hb, hfeeds, hfresh⟩ := begin_stands hs hended hidle hnext h
  have hat : (z.machine s.bits).At (s.begin z).z fed given := by
    cases hb with
    | inside _ _ hat _ => rwa [begin_bits] at hat
  have hdraining : s.remainingOf = 0 → s.betweenMembers = false ∧ s.draining = true := by
    intro hzero
    have hd : s.draining = true := by simpa [hzero] using hidle
    refine ⟨?_, hd⟩
    cases hs with
    | inside hb _ _ _ => exact hb
    | between _ _ hd' _ _ => cases hd'.symm.trans hd
    | ended he _ _ => cases he.symm.trans hended
  obtain ⟨hcall, hc, ho, hat'⟩ := inflate_called (hz s.bits) hat (by omega : 0 < kChunk - output.length) hfeeds
  have hc := hc.trans (Nat.le_of_eq (length_rest s))
  cases hcall with
  | error hcode hres => exact .stops (inflateRounds_error hgo hidle hnext rfl hcode) (.error hres)
  | streamEnd hcode hout hrest hpos =>
    exact round_end hgo (inflateRounds_end hgo hidle hnext rfl hcode) hc ho hat' hout hrest (fun hb => hpos (hfresh hb))
  | goesOn hcode hout hrest hmore =>
    exact round_call hgo (inflateRounds_call hgo hidle hnext rfl hcode) hc ho hat' hout hrest hmore hdraining

/-- **The rounds come to an end**, and they leave what is told by the input. -/
theorem inflateRounds_rounded (hz : z.Implements d) (k : Nat) : ∀ {s : Stream z.Inflater} {p : Place} {output out : Bytes}
    {res : Option (Place × Bool)}, rounds s output = k → output.length ≤ kChunk → s.Stands d p → s.stopped = false →
      Feeds (d s.bits) s.bits p s.rest out res →
      ∃ r, (∀ fuel > k, inflateRounds z fuel s output = some r) ∧ Rounded d s output out res r := by
  induction k using Nat.strongRecOn with
  | ind k ih =>
    intro s p output out res hk hle hs hstop h
    cases inflateRounds_round hz hle hs hstop h with
    | @stops r hround hrounded =>
      refine ⟨r, fun fuel hf => ?_, hrounded⟩
      obtain ⟨f, rfl⟩ := Nat.exists_eq_add_of_lt hf; exact hround (k + f)
    | goesOn hround hfewer hle₁ hs₁ hstop₁ hfeeds hall hsame =>
      obtain ⟨r, hr, hrounded⟩ := ih _ (hk ▸ hfewer) rfl hle₁ hs₁ hstop₁ hfeeds
      refine ⟨r, fun fuel hf => ?_, hrounded.of_later hall hsame⟩
      obtain ⟨f, rfl⟩ := Nat.exists_eq_add_of_lt hf
      exact (hround (k + f)).trans (hr (k + f) (by omega))

/-! ## A step -/

/-- What a step gives of what comes out for the rest of the chunk: a piece of it, or all. -/
inductive Stepped (d : Framing → Decoder UInt8 UInt8) (s : Stream z.Inflater) (out : Bytes) (res : Option (Place × Bool)) :
    Except Bytes (Bytes × Stream z.Inflater) → Prop
  | error {e : Bytes} : res = none → Stepped d s out res (.error e)
  | more {s' : Stream z.Inflater} {p : Place} {piece out' : Bytes} : out = piece ++ out' → piece.length = kChunk →
      s'.Stands d p → Feeds (d s'.bits) s'.bits p s'.rest out' res → s.Same s' → s'.stopped = false →
      streamPending (z := z) (.inflating s') = true → Stepped d s out res (.ok (piece, s'))
  | last {s' : Stream z.Inflater} {p : Place} : s'.Stands d p → res = some (p, s'.leftover) → s'.bits = s.bits →
      s'.finishing = false → s'.draining = false → streamPending (z := z) (.inflating s') = false → Stepped d s out res (.ok (out, s'))

theorem Stream.Stands.refilled {s : Stream z.Inflater} {p : Place} (hs : s.Stands d p) (input : Bytes) (offset : Nat)
    (stopped leftover : Bool) : ({ s with input, offset, stopped, leftover } : Stream z.Inflater).Stands d p := by
  cases hs with
  | inside hb he hat hv => exact .inside hb he hat hv
  | between hb he hd hbits hat => exact .between hb he hd hbits hat
  | ended he hd hbits => exact .ended he hd hbits

theorem inflateStep_stepped (hz : z.Implements d) {s : Stream z.Inflater} {p : Place} {out : Bytes}
    {res : Option (Place × Bool)} (hs : s.Stands d p) (hstop : s.stopped = false) (hleft : s.leftover = false)
    (hfin : s.finishing = false) (h : Feeds (d s.bits) s.bits p s.rest out res) :
    ∃ r, (∀ fuel > rounds s [], inflateStep z fuel s = some r) ∧ Stepped d s out res r := by
  obtain ⟨r, hr, hrounded⟩ := inflateRounds_rounded hz (rounds s []) rfl (Nat.zero_le _) hs hstop h
  cases hrounded with
  | @error e hres =>
    refine ⟨.error e, fun fuel hf => ?_, .error hres⟩
    rw [inflateStep, hr fuel hf]
  | @ok s' p' output' out' hall hs' hfeeds hsame hhalted hle hlast =>
    rw [nil_append] at hall
    refine ⟨.ok (output', if s'.ended || s'.stopped then { s' with leftover := decide (0 < s'.remainingOf) } else s'), ?_, ?_⟩
    · intro fuel hf; rw [inflateStep, hr fuel hf]
    by_cases hidle : s'.Idle
    · obtain ⟨rfl, rfl, hdrain⟩ := hs'.idle hidle hhalted hfeeds
      rw [append_nil] at hall
      subst hall
      by_cases hover : (s'.ended || s'.stopped) = true
      · rw [if_pos hover]
        refine .last (hs'.refilled _ _ _ _) ?_ hsame.bits (hsame.finishing.trans hfin) hdrain ?_
        · rw [← length_rest]; simp [length_pos_iff]
        · rcases Bool.or_eq_true_iff.1 hover with ho | ho <;> simp [streamPending, ho]
      · rw [if_neg hover]
        simp only [Bool.or_eq_true, not_or, Bool.not_eq_true] at hover
        have hdone : s'.remainingOf = 0 ∧ s'.draining = false := by
          simpa [Stream.Idle, hover.1, hover.2] using hidle
        refine .last hs' ?_ hsame.bits (hsame.finishing.trans hfin) hdrain ?_
        · rw [remainingOf_eq_zero.1 hdone.1, hsame.leftover, hleft]; rfl
        · simp [streamPending, hdone.1, hdone.2]
    · obtain ⟨hfull, hstop'⟩ := hlast.resolve_right hidle
      have hended : s'.ended = false := by
        by_contra hno
        exact hidle (.inl (by simpa using hno))
      have hsome : ¬ (s'.remainingOf = 0 ∧ s'.draining = false) := fun hdone => hidle (.inr (.inr hdone))
      rw [if_neg (by simp [hended, hstop'])]
      refine .more hall.symm hfull hs' hfeeds hsame hstop' ?_
      simp only [streamPending, hsame.finishing, hfin, hended, hstop', Bool.not_false, Bool.true_and, Bool.or_eq_true,
        decide_eq_true_eq]
      by_contra hno
      push Not at hno
      exact hsome ⟨by omega, by simpa using hno.1⟩

end NodeCompat.Zlib
