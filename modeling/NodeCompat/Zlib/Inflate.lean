import NodeCompat.Bytes
import NodeCompat.Lib.Codec

/-!
# One-shot decompression

The zlib library is a parameter: its inflating streams are machines, one for each framing, and what is known of them is that
they implement a decoder (`Machine.Implements`). `inflate` calls such a machine until the stream ends, and starts it anew for
each further stream of a gzip file. It returns on every input, and what it returns is told by the decoder alone
(`inflate_decodes`).
-/

namespace NodeCompat.Zlib

open List

/-! ## The library -/

/-- The `windowBits` that node's classes use: 15, 31, -15 and 47. -/
inductive Framing
  | zlib | gzip | raw | detect
deriving DecidableEq

/-- What is used of the zlib library to decompress; the error of a code is its message, `msg` or the default one. -/
structure Library where
  Inflater : Type
  inflateInit2 : Framing → Inflater
  inflateReset : Inflater → Inflater
  inflate : Inflater → Bytes → Nat → Answer Inflater UInt8 Bytes

/-- The inflating streams of a framing. -/
def Library.machine (z : Library) (bits : Framing) : Machine z.Inflater UInt8 UInt8 Bytes where
  init := z.inflateInit2 bits
  reset := z.inflateReset
  call := z.inflate

/-- The library decodes as `d` says, in each framing. -/
def Library.Implements (z : Library) (d : Framing → Decoder UInt8 UInt8) : Prop :=
  ∀ bits, (z.machine bits).Implements (d bits)

/-! ## A library for every family of decoders -/

section OfDecoders

variable (d : Framing → Decoder UInt8 UInt8) (e : Bytes)

/-- The library whose streams keep their framing, and all that they have been fed. -/
def Library.ofDecoders : Library where
  Inflater := Framing × (Bytes × Nat)
  inflateInit2 bits := (bits, ((d bits).machine e).init)
  inflateReset s := (s.1, ((d s.1).machine e).reset s.2)
  inflate s input room :=
    let a := ((d s.1).machine e).call s.2 input room
    { code := a.code, consumed := a.consumed, output := a.output, state := (s.1, a.state) }

theorem Library.ofDecoders_at {bits : Framing} {s : Framing × (Bytes × Nat)} {fed given : Bytes}
    (h : ((Library.ofDecoders d e).machine bits).At s fed given) : s.1 = bits ∧ ((d bits).machine e).At s.2 fed given := by
  induction h with
  | init => exact ⟨rfl, .init⟩
  | reset _ ih => obtain ⟨rfl, hat⟩ := ih; exact ⟨rfl, .reset hat⟩
  | call input hroom _ ih => obtain ⟨rfl, hat⟩ := ih; exact ⟨rfl, .call input hroom hat⟩

theorem Library.ofDecoders_implements : (Library.ofDecoders d e).Implements d := by
  intro bits s fed given hs input room hroom
  obtain ⟨rfl, hat⟩ := Library.ofDecoders_at d e hs
  exact ((d s.1).machine_implements e hat input room hroom).of_eq rfl rfl rfl

end OfDecoders

/-! ## `inflate` -/

def chunk : Nat := 64 * 1024

/-- The largest `uInt`. -/
def uIntMax : Nat := 4294967295

/-- What the inner loop leaves: `code`, the input that it has not taken, and what has been put out. -/
structure Pumped (σ : Type) where
  code : Code Bytes
  left : Bytes
  output : Bytes
  state : σ

section Loops

variable (z : Library)

/-- The inner loop of `inflate`: again while the room is full. -/
def pump : Nat → z.Inflater → Bytes → Bytes → Option (Except Bytes (Pumped z.Inflater))
  | 0, _, _, _ => none
  | fuel + 1, s, input, output =>
    let a := z.inflate s input chunk
    match a.code with
    | .error message => some (.error message)
    | code =>
      if code = .ok ∧ chunk - a.output.length = 0 then pump fuel a.state (input.drop a.consumed) (output ++ a.output)
      else some (.ok { code, left := input.drop a.consumed, output := output ++ a.output, state := a.state })

/-- After a stream: nothing follows that is read. -/
def stops (bits : Framing) (next : Bytes) : Bool :=
  next = [] || (bits ≠ .gzip && bits ≠ .detect) || next.head? = some 0

/-- The outer loop, over what is left of the input. -/
def inflateLoop (bits : Framing) : Nat → z.Inflater → Bytes → Bytes → Option (Except Bytes Bytes)
  | 0, _, _, _ => none
  | fuel + 1, s, next, output =>
    let take := next.take uIntMax
    match pump z (fuel + 1) s take output with
    | none => none
    | some (.error message) => some (.error message)
    | some (.ok p) =>
      let rest := next.drop (take.length - p.left.length)
      if p.code = .streamEnd then
        if stops bits rest then some (.ok p.output) else inflateLoop bits fuel (z.inflateReset p.state) rest p.output
      else if rest = [] ∨ take.length = p.left.length then some (.error (text "unexpected end of file"))
      else inflateLoop bits fuel p.state rest p.output

/-- `inflate`, which may run for as long as `fuel` lets it. -/
def inflate (bits : Framing) (bytes : Bytes) (fuel : Nat) : Option (Except Bytes Bytes) :=
  inflateLoop z bits fuel (z.inflateInit2 bits) bytes []

def inflateSync : Bytes → Nat → Option (Except Bytes Bytes) := inflate z .zlib

def gunzipSync : Bytes → Nat → Option (Except Bytes Bytes) := inflate z .gzip

def inflateRawSync : Bytes → Nat → Option (Except Bytes Bytes) := inflate z .raw

def unzipSync : Bytes → Nat → Option (Except Bytes Bytes) := inflate z .detect

end Loops

variable {α : Type} {r : α}

/-- The call returns `result`: it does whenever it may run long enough. -/
def Returns {α : Type} (call : Nat → Option α) (result : α) : Prop :=
  ∃ least, ∀ fuel ≥ least, call fuel = some result

theorem Returns.unique {call : Nat → Option α} {r' : α} (h : Returns call r) (h' : Returns call r') : r = r' := by
  obtain ⟨n, hn⟩ := h
  obtain ⟨n', hn'⟩ := h'
  exact Option.some.inj ((hn (max n n') (Nat.le_max_left _ _)).symm.trans (hn' (max n n') (Nat.le_max_right _ _)))

theorem Returns.congr {call call' : Nat → Option α} (h : Returns call r) (heq : ∀ fuel, call' fuel = call fuel) :
    Returns call' r := by
  obtain rfl : call' = call := funext heq; exact h

theorem Returns.step {call call' : Nat → Option α} (n : Nat) (h : Returns call r)
    (hstep : ∀ fuel ≥ n, call' (fuel + 1) = call fuel) : Returns call' r := by
  obtain ⟨least, hleast⟩ := h
  refine ⟨max n least + 1, fun fuel hf => ?_⟩
  obtain ⟨f, rfl⟩ := Nat.exists_eq_add_of_le' (Nat.le_of_succ_le hf : max n least ≤ fuel)
  obtain ⟨k, hk⟩ : ∃ k, f + max n least = k + 1 := ⟨f + max n least - 1, by omega⟩
  rw [hk, hstep k (by omega)]; exact hleast k (by omega)

theorem Returns.pure (r : α) : Returns (fun _ => some r) r := ⟨0, fun _ _ => rfl⟩

theorem Returns.map {β : Type} {call : Nat → Option α} (f : α → β) (h : Returns call r) :
    Returns (fun fuel => (call fuel).map f) (f r) := by
  obtain ⟨least, hleast⟩ := h
  refine ⟨least, fun fuel hf => ?_⟩
  dsimp only; rw [hleast fuel hf]; rfl

/-! ## What the decoder says of an input -/

/-- The contents of the streams that are read of an input, or that it cannot be decoded. -/
inductive Decodes (d : Decoder UInt8 UInt8) (bits : Framing) : Bytes → Option Bytes → Prop
  | last {x : Bytes} {n : Nat} {w : Bytes} : d.verdict x = .ended n w → stops bits (x.drop n) = true →
      Decodes d bits x (some w)
  | next {x : Bytes} {n : Nat} {w : Bytes} {r : Option Bytes} : d.verdict x = .ended n w →
      stops bits (x.drop n) = false → Decodes d bits (x.drop n) r → Decodes d bits x (r.map (w ++ ·))
  | fails {x : Bytes} : (∀ n w, d.verdict x ≠ .ended n w) → Decodes d bits x none

theorem Decodes.unique {d : Decoder UInt8 UInt8} {bits : Framing} {x : Bytes} {r r' : Option Bytes}
    (h : Decodes d bits x r) (h' : Decodes d bits x r') : r = r' := by
  induction h generalizing r' with
  | last hv hs =>
    cases h' with
    | last hv' _ => obtain ⟨rfl, rfl⟩ := Verdict.ended.inj (hv.symm.trans hv'); rfl
    | next hv' hs' _ =>
      obtain ⟨rfl, rfl⟩ := Verdict.ended.inj (hv.symm.trans hv')
      cases hs.symm.trans hs'
    | fails hno => exact absurd hv (hno _ _)
  | next hv hs _ ih =>
    cases h' with
    | last hv' hs' =>
      obtain ⟨rfl, rfl⟩ := Verdict.ended.inj (hv.symm.trans hv')
      cases hs.symm.trans hs'
    | next hv' _ hr' => obtain ⟨rfl, rfl⟩ := Verdict.ended.inj (hv.symm.trans hv'); rw [ih hr']
    | fails hno => exact absurd hv (hno _ _)
  | fails hno =>
    cases h' with
    | last hv' _ | next hv' _ _ => exact absurd hv' (hno _ _)
    | fails _ => rfl

theorem Decodes.front {d : Decoder UInt8 UInt8} {bits : Framing} {x w : Bytes} (h : Decodes d bits x (some w)) :
    ∃ n w₁, d.verdict x = .ended n w₁ ∧ w₁ <+: w := by
  generalize hr : some w = r at h
  cases h with
  | last hv _ => obtain rfl := Option.some.inj hr; exact ⟨_, _, hv, prefix_refl _⟩
  | next hv _ hrest =>
    obtain ⟨w', -, rfl⟩ := Option.map_eq_some_iff.1 hr.symm; exact ⟨_, _, hv, prefix_append _ _⟩
  | fails _ => cases hr

/-! ## The loops -/

section Spec

variable {z : Library} {d : Decoder UInt8 UInt8} {bits : Framing}

/-- What the inner loop leaves, for a verdict on all the input of the stream so far. -/
def Pumps (z : Library) (bits : Framing) (fed given input output : Bytes) : Verdict UInt8 →
    Except Bytes (Pumped z.Inflater) → Prop
  | .ended n w, r => ∃ p, r = .ok p ∧ p.code = .streamEnd ∧ p.left = input.drop (n - fed.length) ∧
      p.output = output ++ w.drop given.length ∧ (z.machine bits).At p.state (fed ++ input.take (n - fed.length)) w
  | .more w, r => ∃ p, r = .ok p ∧ p.code ≠ .streamEnd ∧ p.left = [] ∧ p.output = output ++ w.drop given.length ∧
      (z.machine bits).At p.state (fed ++ input) w
  | .bad _, r => ∃ message, r = .error message

theorem Pumps.cons {v : Verdict UInt8} {fed given input output out : Bytes} {c : Nat} {r : Except Bytes (Pumped z.Inflater)}
    (hwithin : ∀ {n w}, v = .ended n w → fed.length + c ≤ n) (hc : c ≤ input.length) (hout : given ++ out <+: v.out)
    (h : Pumps z bits (fed ++ input.take c) (given ++ out) (input.drop c) (output ++ out) v r) :
    Pumps z bits fed given input output v r := by
  have hlen : (fed ++ input.take c).length = fed.length + c := by
    rw [length_append, length_take, Nat.min_eq_left hc]
  have hgiven : ∀ {w : Bytes}, given ++ out <+: w → output ++ out ++ w.drop (given ++ out).length =
      output ++ w.drop given.length := by
    rintro w ⟨t, rfl⟩; rw [drop_left, append_assoc, append_assoc, drop_left]
  cases v with
  | ended n w =>
    have hn := hwithin rfl
    have hsum : c + (n - (fed.length + c)) = n - fed.length := by omega
    obtain ⟨p, hp, hcode, hleft, houtput, hat⟩ := h
    rw [hlen] at hleft hat
    refine ⟨p, hp, hcode, ?_, houtput.trans (hgiven hout), ?_⟩
    · rw [hleft, drop_drop, hsum]
    · rwa [append_assoc, ← take_add, hsum] at hat
  | more w =>
    obtain ⟨p, hp, hcode, hleft, houtput, hat⟩ := h
    refine ⟨p, hp, hcode, hleft, houtput.trans (hgiven hout), ?_⟩
    rwa [append_assoc, take_append_drop] at hat
  | bad w => exact h

theorem pump_pumps (hz : (z.machine bits).Implements d) : ∀ (fuel : Nat) {s : z.Inflater} {fed given : Bytes}
    (_ : (z.machine bits).At s fed given) (input output : Bytes),
    (d.verdict (fed ++ input)).out.length - given.length < fuel →
      ∃ r, pump z fuel s input output = some r ∧ Pumps z bits fed given input output (d.verdict (fed ++ input)) r
  | 0, _, _, _, _, _, _, h => absurd h (Nat.not_lt_zero _)
  | fuel + 1, s, fed, given, hs, input, output, h => by
    have ha := hz hs input chunk (by decide)
    have hat := Machine.At.call input (by decide : 0 < chunk) hs
    change Answers _ _ _ _ _ (z.inflate s input chunk) at ha
    change (z.machine bits).At (z.inflate s input chunk).state (fed ++ input.take (z.inflate s input chunk).consumed)
      (given ++ (z.inflate s input chunk).output) at hat
    rw [pump]
    generalize z.inflate s input chunk = a at ha hat
    have hle : given.length + a.output.length ≤ (d.verdict (fed ++ input)).out.length := by
      have := ha.out.length_le; rwa [length_append] at this
    cases hcode : a.code with
    | error message =>
      obtain ⟨w, hw⟩ := ha.error hcode; rw [hw]; exact ⟨_, rfl, message, rfl⟩
    | streamEnd =>
      have hw := ha.streamEnd hcode
      rw [hw]
      dsimp only
      rw [if_neg (by simp)]
      refine ⟨_, rfl, _, rfl, rfl, ?_, ?_, ?_⟩
      · rw [Nat.add_sub_cancel_left]
      · rw [drop_left]
      · rwa [Nat.add_sub_cancel_left]
    | bufError =>
      obtain ⟨hc, ho⟩ := ha.bufError hcode
      have hroom : a.output.length < chunk := by rw [ho]; decide
      have hw := ha.more (.inr hcode) hroom
      have hinput : a.consumed = input.length := (ha.full (.inr hcode)).resolve_left (by omega)
      rw [hw]
      dsimp only
      rw [if_neg (by simp)]
      refine ⟨_, rfl, _, rfl, by simp, ?_, ?_, ?_⟩
      · rw [hinput, drop_length]
      · rw [drop_left]
      · rwa [hinput, take_length] at hat
    | ok =>
      dsimp only
      by_cases hfull : chunk - a.output.length = 0
      · rw [if_pos ⟨rfl, hfull⟩]
        have hall : fed ++ input.take a.consumed ++ input.drop a.consumed = fed ++ input := by
          rw [append_assoc, take_append_drop]
        have hpos : 0 < a.output.length := by
          have : 0 < chunk := by decide
          omega
        obtain ⟨r, hr, hpumps⟩ := pump_pumps hz fuel hat (input.drop a.consumed) (output ++ a.output) (by
          rw [hall, length_append]
          omega)
        rw [hall] at hpumps; exact ⟨r, hr, hpumps.cons ha.within ha.consumed_le ha.out⟩
      · rw [if_neg (by simp [hfull])]
        have hroom : a.output.length < chunk := by omega
        have hw := ha.more (.inl hcode) hroom
        have hinput : a.consumed = input.length := (ha.full (.inl hcode)).resolve_left (by omega)
        rw [hw]
        refine ⟨_, rfl, _, rfl, by simp, ?_, ?_, ?_⟩
        · rw [hinput, drop_length]
        · rw [drop_left]
        · rwa [hinput, take_length] at hat

theorem pump_mono : ∀ {fuel : Nat} {s : z.Inflater} {input output : Bytes} {r : Except Bytes (Pumped z.Inflater)},
    pump z fuel s input output = some r → ∀ {fuel'}, fuel ≤ fuel' → pump z fuel' s input output = some r
  | 0, _, _, _, _, h, _, _ => by cases h
  | fuel + 1, s, input, output, r, h, fuel', hle => by
    obtain ⟨k, rfl⟩ := Nat.exists_eq_add_of_le' (Nat.le_of_succ_le hle : fuel ≤ fuel')
    cases k with
    | zero => omega
    | succ k =>
      rw [Nat.add_comm, ← Nat.add_assoc]
      rw [pump] at h ⊢
      cases hcode : (z.inflate s input chunk).code with
      | error message | streamEnd | bufError => rwa [hcode] at h
      | ok =>
        rw [hcode] at h
        dsimp only at h ⊢
        split at h
        · next hfull =>
          rw [if_pos hfull]; exact pump_mono h (by omega)
        · next hfull => rwa [if_neg hfull]

/-- A result, for what the streams of an input stand for. -/
def Tells (given output : Bytes) : Option Bytes → Except Bytes Bytes → Prop
  | some w, r => r = .ok (output ++ w.drop given.length)
  | none, r => ∃ message, r = .error message

theorem inflateLoop_tells (hz : (z.machine bits).Implements d) (k : Nat) : ∀ (next : Bytes), next.length = k →
    ∀ {s : z.Inflater} {fed given : Bytes} (_ : (z.machine bits).At s fed given) (_ : ∀ n w, d.verdict fed ≠ .ended n w)
      (output : Bytes), ∃ w r, Decodes d bits (fed ++ next) w ∧ Tells given output w r ∧
        ∃ least, ∀ fuel ≥ least, inflateLoop z bits fuel s next output = some r := by
  induction k using Nat.strongRecOn with
  | ind k ih =>
    intro next hk s fed given hs hopen output
    generalize htake : next.take uIntMax = take
    have hnext : take ++ next.drop uIntMax = next := by rw [← htake, take_append_drop]
    have htotal : fed ++ take ++ next.drop uIntMax = fed ++ next := by rw [append_assoc, hnext]
    obtain ⟨r₀, hr₀, hpumps⟩ := pump_pumps hz ((d.verdict (fed ++ take)).out.length + 1) hs take output (by omega)
    have hloop : ∀ fuel ≥ (d.verdict (fed ++ take)).out.length, pump z (fuel + 1) s (next.take uIntMax) output = some r₀ := by
      intro fuel hf; rw [htake]; exact pump_mono hr₀ (by omega)
    cases hv : d.verdict (fed ++ take) with
    | bad w =>
      rw [hv] at hpumps
      obtain ⟨message, rfl⟩ := hpumps
      have hbad := d.bad_append (next.drop uIntMax) hv
      rw [htotal] at hbad
      refine ⟨none, _, .fails (by rw [hbad]; simp), ⟨message, rfl⟩, (d.verdict (fed ++ take)).out.length + 1, ?_⟩
      intro fuel hf
      obtain ⟨f, rfl⟩ := Nat.exists_eq_add_of_le' hf
      rw [← Nat.add_assoc, inflateLoop]; rw [hloop _ (by omega)]
    | ended n w =>
      rw [hv] at hpumps
      obtain ⟨p, rfl, hcode, hleft, houtput, hat⟩ := hpumps
      have hended := d.ended_append (next.drop uIntMax) hv
      rw [htotal] at hended
      have hn := d.ended_le hv
      have hfed := hz.fed_le hs hv
      rw [length_append] at hn
      have hrest : next.drop (take.length - p.left.length) = (fed ++ next).drop n := by
        rw [hleft, length_drop, drop_append, drop_of_length_le hfed, nil_append]
        congr 1
        omega
      have hgiven : given.length ≤ w.length := by
        have := (hz.given_prefix hs take).length_le; rwa [hv] at this
      by_cases hstop : stops bits ((fed ++ next).drop n) = true
      · refine ⟨some w, .ok p.output, .last hended hstop, ?_, (d.verdict (fed ++ take)).out.length + 1, ?_⟩
        · rw [houtput]; rfl
        · intro fuel hf
          obtain ⟨f, rfl⟩ := Nat.exists_eq_add_of_le' hf
          rw [← Nat.add_assoc, inflateLoop]
          rw [hloop _ (by omega)]
          dsimp only; rw [htake, hrest, if_pos hcode, if_pos hstop]
      · have hlt : ((fed ++ next).drop n).length < k := by
          have hbeyond : ¬ n ≤ fed.length := fun hle => hopen n w (d.ended_of_le hv hle)
          have hle := (d.ended_le hended).2
          rw [length_append] at hle; rw [length_drop, length_append]; omega
        obtain ⟨w', r, hdec, htells, least, hleast⟩ := ih _ hlt _ rfl (Machine.At.reset hat) d.not_ended_nil p.output
        have hstop' : stops bits ((fed ++ next).drop n) = false := by simpa using hstop
        refine ⟨_, r, .next hended hstop' hdec, ?_, max least ((d.verdict (fed ++ take)).out.length) + 1, ?_⟩
        · cases w' with
          | none => exact htells
          | some w' =>
            rw [Option.map_some]
            refine htells.trans ?_
            rw [houtput, drop_append_of_le_length hgiven, append_assoc]; rfl
        · intro fuel hf
          obtain ⟨f, rfl⟩ := Nat.exists_eq_add_of_le' hf
          rw [← Nat.add_assoc, inflateLoop]
          rw [hloop _ (by omega)]
          dsimp only
          rw [htake, hrest, if_pos hcode, if_neg (by simp [hstop'])]; exact hleast _ (by omega)
    | more w =>
      rw [hv] at hpumps
      obtain ⟨p, rfl, hcode, hleft, houtput, hat⟩ := hpumps
      have hlen : take.length - p.left.length = take.length := by rw [hleft, length_nil, Nat.sub_zero]
      have hrest : next.drop (take.length - p.left.length) = next.drop uIntMax := by
        rw [hlen, ← htake, length_take]
        rcases Nat.le_total uIntMax next.length with hle | hle
        · rw [Nat.min_eq_left hle]
        · rw [Nat.min_eq_right hle, drop_length, drop_of_length_le hle]
      by_cases hend : next.drop uIntMax = []
      · rw [hend, append_nil] at htotal
        refine ⟨none, .error (text "unexpected end of file"), .fails (by rw [← htotal, hv]; simp), ⟨_, rfl⟩,
          (d.verdict (fed ++ take)).out.length + 1, ?_⟩
        intro fuel hf
        obtain ⟨f, rfl⟩ := Nat.exists_eq_add_of_le' hf
        rw [← Nat.add_assoc, inflateLoop]
        dsimp only
        rw [hloop _ (by omega)]
        dsimp only; rw [htake, hrest, if_neg hcode, if_pos (.inl hend)]
      · have hlong : uIntMax < next.length := by
          by_contra hle
          exact hend (drop_of_length_le (by omega))
        have hmax : take.length = uIntMax := by rw [← htake, length_take]; omega
        have hpos : 0 < uIntMax := by decide
        have hlt : (next.drop uIntMax).length < k := by rw [length_drop]; omega
        obtain ⟨w', r, hdec, htells, least, hleast⟩ :=
          ih _ hlt _ rfl hat (fun n w' h => by rw [hv] at h; cases h) p.output
        rw [htotal] at hdec
        refine ⟨w', r, hdec, ?_, max least ((d.verdict (fed ++ take)).out.length) + 1, ?_⟩
        · cases w' with
          | none => exact htells
          | some w' =>
            -- what the parts give stands at the front of what the streams stand for
            obtain ⟨n, w₁, hended, hfront⟩ := hdec.front
            have hout := d.out_append (fed ++ take) (next.drop uIntMax)
            rw [htotal, hv, hended] at hout
            obtain ⟨t, rfl⟩ := hout.trans hfront
            have hgiven := (hz.given_prefix hs take).length_le
            rw [hv] at hgiven
            refine htells.trans ?_
            rw [houtput]
            change Except.ok (output ++ w.drop given.length ++ (w ++ t).drop w.length) = _
            rw [drop_left, append_assoc]
            exact congrArg (fun u => Except.ok (output ++ u)) (drop_append_of_le_length hgiven).symm
        · intro fuel hf
          obtain ⟨f, rfl⟩ := Nat.exists_eq_add_of_le' hf
          rw [← Nat.add_assoc, inflateLoop]
          dsimp only
          rw [hloop _ (by omega)]
          dsimp only
          rw [htake, hrest, if_neg hcode, if_neg (by rw [hleft, hmax]; simp [hend]; omega)]
          exact hleast _ (by omega)

end Spec

/-- **`inflate` returns on every input**, and it returns what the decoder says: the contents of the streams, or an error. -/
theorem inflate_decodes {z : Library} {d : Framing → Decoder UInt8 UInt8} (hz : z.Implements d) (bits : Framing) (x : Bytes) :
    ∃ w r, Decodes (d bits) bits x w ∧ Tells [] [] w r ∧ Returns (inflate z bits x) r := by
  exact inflateLoop_tells (hz bits) x.length x rfl (Machine.At.init (m := z.machine bits)) (d bits).not_ended_nil []

theorem inflate_returns {z : Library} {d : Framing → Decoder UInt8 UInt8} (hz : z.Implements d) {bits : Framing} {x : Bytes}
    {w : Option Bytes} (h : Decodes (d bits) bits x w) : ∃ r, Tells [] [] w r ∧ Returns (inflate z bits x) r := by
  obtain ⟨w', r, h', htells, hr⟩ := inflate_decodes hz bits x
  obtain rfl := h.unique h'; exact ⟨r, htells, hr⟩

end NodeCompat.Zlib
