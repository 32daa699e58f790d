import Mathlib.Algebra.Ring.Nat
import Mathlib.Data.List.Infix

/-!
# Stream decoders, and machines that decode piece by piece

A `Decoder` says of every input, read from the start of a stream, whether it holds a complete stream, is the beginning of
one, or of none, and what has been decoded. A `Machine` is handed input and room for output, call by call; it takes as much
and gives as much as it can (`Implements`). What it has taken and given so far is all that its answers depend on (`At`), so
callers that cut the input in different ways come to the same verdict.

`Decoder.machine` is a machine for any decoder, and `Decoder.ofTable` a decoder that knows some streams.
-/

namespace NodeCompat

open List

/-! ## Decoders -/

/-- What an input is: it holds a stream of `n` symbols, or the beginning of a stream, or of none. -/
inductive Verdict (β : Type)
  | ended (n : Nat) (out : List β)
  | more (out : List β)
  | bad (out : List β)
deriving DecidableEq

/-- What is decoded of it. -/
def Verdict.out {β : Type} : Verdict β → List β
  | .ended _ out => out
  | .more out => out
  | .bad out => out

/-- A decoder of streams that say themselves where they end. -/
structure Decoder (α β : Type) where
  verdict : List α → Verdict β
  verdict_nil : verdict [] = .more []
  ended_le : ∀ {x n w}, verdict x = .ended n w → 0 < n ∧ n ≤ x.length
  ended_take : ∀ {x n w}, verdict x = .ended n w → verdict (x.take n) = .ended n w
  ended_append : ∀ {x n w} (t), verdict x = .ended n w → verdict (x ++ t) = .ended n w
  bad_append : ∀ {x w} (t), verdict x = .bad w → verdict (x ++ t) = .bad w
  out_append : ∀ x t, (verdict x).out <+: (verdict (x ++ t)).out

namespace Decoder

variable {α β : Type} (d : Decoder α β)

theorem not_ended_nil (n : Nat) (w : List β) : d.verdict [] ≠ .ended n w := by
  rw [d.verdict_nil]; simp

theorem ended_of_le {x t : List α} {n : Nat} {w : List β} (h : d.verdict (x ++ t) = .ended n w) (hle : n ≤ x.length) :
    d.verdict x = .ended n w := by
  have htake := d.ended_take h
  rw [take_append_of_le_length hle] at htake
  have := d.ended_append (x.drop n) htake; rwa [take_append_drop] at this

end Decoder

/-! ## Machines -/

inductive Code (ε : Type)
  | ok | streamEnd | bufError
  | error (e : ε)
deriving DecidableEq

/-- The answer to a call: what has been taken of the input, what has been given, and the next state. -/
structure Answer (σ β ε : Type) where
  code : Code ε
  consumed : Nat
  output : List β
  state : σ

structure Machine (σ α β ε : Type) where
  init : σ
  reset : σ → σ
  call : σ → List α → Nat → Answer σ β ε

variable {σ α β ε : Type}

/-- The state of a machine that has taken and given these symbols since its start or its last reset. -/
inductive Machine.At (m : Machine σ α β ε) : σ → List α → List β → Prop
  | init : m.At m.init [] []
  | reset {s : σ} {fed : List α} {given : List β} : m.At s fed given → m.At (m.reset s) [] []
  | call {s : σ} {fed : List α} {given : List β} (input : List α) {room : Nat} : 0 < room → m.At s fed given →
      m.At (m.call s input room).state (fed ++ input.take (m.call s input room).consumed)
        (given ++ (m.call s input room).output)

/-- An answer that fits the verdict on all that has been fed, with the new input: no more than there is to take and to give;
the input is at its end or the room is full, unless the stream has ended or is bad; with room left all is given. -/
structure Answers (v : Verdict β) (fed : Nat) (given : List β) (input : Nat) (room : Nat) (a : Answer σ β ε) : Prop where
  consumed_le : a.consumed ≤ input
  output_le : a.output.length ≤ room
  out : given ++ a.output <+: v.out
  within : ∀ {n w}, v = .ended n w → fed + a.consumed ≤ n
  streamEnd : a.code = .streamEnd → v = .ended (fed + a.consumed) (given ++ a.output)
  error : ∀ {e}, a.code = .error e → ∃ w, v = .bad w
  full : a.code = .ok ∨ a.code = .bufError → a.output.length = room ∨ a.consumed = input
  more : a.code = .ok ∨ a.code = .bufError → a.output.length < room → v = .more (given ++ a.output)
  bufError : a.code = .bufError → a.consumed = 0 ∧ a.output = []

theorem Answers.of_eq {σ' : Type} {v : Verdict β} {fed : Nat} {given : List β} {input room : Nat} {a : Answer σ β ε}
    {a' : Answer σ' β ε} (h : Answers v fed given input room a) (hcode : a'.code = a.code) (hc : a'.consumed = a.consumed)
    (ho : a'.output = a.output) : Answers v fed given input room a' := by
  obtain ⟨code, consumed, output, state⟩ := a'; subst hcode hc ho; exact { h with }

/-- The machine decodes as the decoder says. -/
def Machine.Implements (m : Machine σ α β ε) (d : Decoder α β) : Prop :=
  ∀ {s : σ} {fed : List α} {given : List β}, m.At s fed given → ∀ (input : List α) (room : Nat), 0 < room →
    Answers (d.verdict (fed ++ input)) fed.length given input.length room (m.call s input room)

theorem Machine.Implements.given_prefix {m : Machine σ α β ε} {d : Decoder α β} (h : m.Implements d) {s : σ} {fed : List α}
    {given : List β} (hs : m.At s fed given) (input : List α) : given <+: (d.verdict (fed ++ input)).out :=
  (prefix_append given _).trans (h hs input 1 Nat.one_pos).out

theorem Machine.Implements.fed_le {m : Machine σ α β ε} {d : Decoder α β} (h : m.Implements d) {s : σ} {fed : List α}
    {given : List β} (hs : m.At s fed given) {input : List α} {n : Nat} {w : List β}
    (hv : d.verdict (fed ++ input) = .ended n w) : fed.length ≤ n :=
  (Nat.le_add_right _ _).trans ((h hs input 1 Nat.one_pos).within hv)

/-! ## A machine for a decoder -/

namespace Decoder

/-- How much of an input is taken: not beyond the end of the stream. -/
def taken (v : Verdict β) (fed input : Nat) : Nat :=
  match v with
  | .ended n _ => n - fed
  | _ => input

def codeOf (v : Verdict β) (e : ε) (full stuck : Bool) : Code ε :=
  if full then .ok
  else
    match v with
    | .ended _ _ => .streamEnd
    | .bad _ => .error e
    | .more _ => if stuck then .bufError else .ok

/-- The machine that keeps what it has been fed, and how much it has given. -/
def machine (d : Decoder α β) (e : ε) : Machine (List α × Nat) α β ε where
  init := ([], 0)
  reset := fun _ => ([], 0)
  call := fun s input room =>
    let v := d.verdict (s.1 ++ input)
    let pending := v.out.drop s.2
    let consumed := taken v s.1.length input.length
    { code := codeOf v e (decide (room < pending.length)) (consumed = 0 ∧ pending = [])
      consumed
      output := pending.take room
      state := (s.1 ++ input.take consumed, s.2 + (pending.take room).length) }

section Ideal

variable (d : Decoder α β)

theorem verdict_taken {fed : List α} (input : List α) (h : ∀ n w, d.verdict fed = .ended n w → fed.length ≤ n) :
    d.verdict (fed ++ input.take (taken (d.verdict (fed ++ input)) fed.length input.length)) = d.verdict (fed ++ input) := by
  cases hv : d.verdict (fed ++ input) with
  | ended n w =>
    have hle : fed.length ≤ n := by
      by_contra hlt
      exact hlt (h n w (d.ended_of_le hv (by omega)))
    have htake := d.ended_take hv; rwa [take_append, take_of_length_le hle] at htake
  | more w => rwa [show taken (.more w) fed.length input.length = input.length from rfl, take_length]
  | bad w => rwa [show taken (.bad w) fed.length input.length = input.length from rfl, take_length]

theorem call_consumed (e : ε) (s : List α × Nat) (input : List α) (room : Nat) :
    ((d.machine e).call s input room).consumed = taken (d.verdict (s.1 ++ input)) s.1.length input.length := rfl

theorem call_output (e : ε) (s : List α × Nat) (input : List α) (room : Nat) :
    ((d.machine e).call s input room).output = ((d.verdict (s.1 ++ input)).out.drop s.2).take room := rfl

theorem machine_at {e : ε} {s : List α × Nat} {fed : List α} {given : List β} (h : (d.machine e).At s fed given) :
    s = (fed, given.length) ∧ given <+: (d.verdict fed).out ∧ ∀ n w, d.verdict fed = .ended n w → fed.length ≤ n := by
  induction h with
  | init | reset _ _ => exact ⟨rfl, nil_prefix, fun n w _ => Nat.zero_le n⟩
  | @call s fed given input room hroom _ ih =>
    obtain ⟨rfl, hgiven, hle⟩ := ih
    have hverdict := d.verdict_taken input hle
    rw [call_consumed, call_output]
    dsimp only
    rw [hverdict]
    refine ⟨by simp [machine], ?_, fun n w hn => ?_⟩
    · obtain ⟨t, ht⟩ := hgiven.trans (d.out_append fed input)
      rw [← ht, drop_left]; exact (prefix_append_right_inj given).2 (List.take_prefix room t)
    · have hfed : fed.length ≤ n := by
        by_contra hlt
        exact hlt (hle n w (d.ended_of_le hn (by omega)))
      rw [hn, taken, length_append, length_take]; omega

theorem codeOf_cases (v : Verdict β) (e : ε) (full stuck : Bool) : (full = true ∧ codeOf v e full stuck = .ok) ∨
      full = false ∧ ((∃ n w, v = .ended n w ∧ codeOf v e full stuck = .streamEnd) ∨
        (∃ w, v = .bad w ∧ codeOf v e full stuck = .error e) ∨
        ∃ w, v = .more w ∧ (stuck = true ∧ codeOf v e full stuck = .bufError ∨
          stuck = false ∧ codeOf v e full stuck = .ok)) := by
  cases full with
  | true => exact .inl ⟨rfl, rfl⟩
  | false =>
    refine .inr ⟨rfl, ?_⟩
    cases v with
    | ended n w => exact .inl ⟨n, w, rfl, rfl⟩
    | bad w => exact .inr (.inl ⟨w, rfl, rfl⟩)
    | more w =>
      refine .inr (.inr ⟨w, rfl, ?_⟩)
      cases stuck with
      | true => exact .inl ⟨rfl, rfl⟩
      | false => exact .inr ⟨rfl, rfl⟩

/-- **There is a machine for every decoder.** -/
theorem machine_implements (e : ε) : (d.machine e).Implements d := by
  intro s fed given hs input room hroom
  obtain ⟨rfl, hgiven, hle⟩ := d.machine_at hs
  obtain ⟨t, ht⟩ := hgiven.trans (d.out_append fed input)
  have hpending : (d.verdict (fed ++ input)).out.drop given.length = t := by rw [← ht, drop_left]
  have hfed : ∀ {n w}, d.verdict (fed ++ input) = .ended n w → fed.length ≤ n ∧ n ≤ fed.length + input.length := by
    intro n w hv
    have hn := (d.ended_le hv).2
    rw [length_append] at hn
    refine ⟨?_, hn⟩
    by_contra hlt
    exact hlt (hle n w (d.ended_of_le hv (by omega)))
  have hcode : ((d.machine e).call (fed, given.length) input room).code = codeOf (d.verdict (fed ++ input)) e
      (decide (room < t.length)) (taken (d.verdict (fed ++ input)) fed.length input.length = 0 ∧ t = []) := by
    rw [← hpending]; rfl
  have hconsumed := d.call_consumed e (fed, given.length) input room
  have houtput := d.call_output e (fed, given.length) input room
  rw [hpending] at houtput
  dsimp only at hconsumed
  generalize (d.machine e).call (fed, given.length) input room = a at hcode hconsumed houtput
  generalize hstuck : decide (taken (d.verdict (fed ++ input)) fed.length input.length = 0 ∧ t = []) = stuck at hcode
  generalize d.verdict (fed ++ input) = v at *
  have hlen : a.output.length = min room t.length := by rw [houtput, length_take]
  have hall : decide (room < t.length) = false → given ++ a.output = v.out := by
    intro hr
    have hr := of_decide_eq_false hr; rw [houtput, take_of_length_le (by omega), ht]
  have hfull : decide (room < t.length) = true → a.output.length = room := by
    intro hr
    have hr := of_decide_eq_true hr; omega
  have hconsumed_le : a.consumed ≤ input.length := by
    rw [hconsumed]
    cases v with
    | ended n w =>
      have := hfed rfl; rw [taken]; omega
    | more w | bad w => exact Nat.le_refl _
  have hwithin : ∀ {n w}, v = .ended n w → fed.length + a.consumed ≤ n := by
    rintro n w rfl
    have := hfed rfl; rw [hconsumed, taken]; omega
  have hout : given ++ a.output <+: v.out := by
    rw [houtput, ← ht]; exact (prefix_append_right_inj given).2 (List.take_prefix room t)
  obtain ⟨hr, hc⟩ | ⟨hr, ⟨n, w, rfl, hc⟩ | ⟨w, rfl, hc⟩ | ⟨w, rfl, ⟨hs, hc⟩ | ⟨hs, hc⟩⟩⟩ :=
    codeOf_cases v e (decide (room < t.length)) stuck
  all_goals
    rw [hc] at hcode
    refine ⟨hconsumed_le, by omega, hout, hwithin, ?_, ?_, ?_, ?_, ?_⟩
    all_goals simp only [hcode, reduceCtorEq, false_implies, or_false, false_or, implies_true, true_implies]
  · exact .inl (hfull hr)
  · intro hlt
    have := hfull hr; omega
  · have := hfed rfl; rw [hall hr, hconsumed, taken, Nat.add_sub_cancel' this.1]; rfl
  · exact fun _ => ⟨w, rfl⟩
  · exact .inr hconsumed
  · intro _; rw [hall hr]; rfl
  · rw [hs] at hstuck
    obtain ⟨h₁, h₂⟩ := of_decide_eq_true hstuck; rw [hconsumed, houtput, h₁, h₂]; simp
  · exact .inr hconsumed
  · intro _; rw [hall hr]; rfl

end Ideal

/-! ## A decoder that knows some streams -/

section Table

variable [DecidableEq α]

variable {table : List (List α × List β)} {x : List α} {w : List β}

/-- The streams of a table, with what they stand for. -/
def lookupStream : List (List α × List β) → List α → Verdict β
  | [], _ => .bad []
  | (m, w) :: table, x => if m <+: x then .ended m.length w else if x <+: m then .more [] else lookupStream table x

theorem lookupStream_ended {n : Nat}
    (h : lookupStream table x = .ended n w) : (x.take n, w) ∈ table ∧ n ≤ x.length := by
  induction table with
  | nil => cases h
  | cons e table ih =>
    obtain ⟨m, v⟩ := e
    rw [lookupStream] at h
    split at h
    · next hm =>
      obtain ⟨rfl, rfl⟩ := Verdict.ended.inj h; rw [← prefix_iff_eq_take.1 hm]; exact ⟨mem_cons_self, hm.length_le⟩
    · split at h
      · cases h
      · exact ⟨mem_cons_of_mem _ (ih h).1, (ih h).2⟩

theorem lookupStream_append (t : List α)
    (h : ∀ w, lookupStream table x ≠ .more w) : lookupStream table (x ++ t) = lookupStream table x := by
  induction table with
  | nil => rfl
  | cons e table ih =>
    obtain ⟨m, v⟩ := e
    rw [lookupStream] at h ⊢
    rw [lookupStream]
    by_cases hm : m <+: x
    · rw [if_pos hm, if_pos (hm.trans (prefix_append x t))]
    · rw [if_neg hm] at h ⊢
      by_cases hx : x <+: m
      · rw [if_pos hx] at h; exact absurd rfl (h [])
      · rw [if_neg hx] at h ⊢
        have hm' : ¬ m <+: x ++ t := by
          intro hp
          rcases prefix_or_prefix_of_prefix hp (prefix_append x t) with hmx | hxm
          · exact hm hmx
          · exact hx hxm
        rw [if_neg hm', if_neg (fun hp => hx ((prefix_append x t).trans hp)), ih h]

theorem lookupStream_more (h : lookupStream table x = .more w) : w = [] := by
  induction table with
  | nil => cases h
  | cons e table ih =>
    obtain ⟨m, v⟩ := e
    rw [lookupStream] at h
    split at h
    · cases h
    · split at h
      · exact (Verdict.more.inj h).symm
      · exact ih h

/-- A stream of the table is known as soon as it is there, if it is not the beginning of another. -/
theorem lookupStream_take {n : Nat}
    (h : lookupStream table x = .ended n w) (hfree : ∀ e ∈ table, x.take n <+: e.1 → e.1 = x.take n) :
    lookupStream table (x.take n) = .ended n w := by
  induction table with
  | nil => cases h
  | cons e table ih =>
    obtain ⟨m, v⟩ := e
    rw [forall_mem_cons] at hfree
    rw [lookupStream] at h ⊢
    by_cases hm : m <+: x
    · rw [if_pos hm] at h
      obtain ⟨rfl, rfl⟩ := Verdict.ended.inj h; rw [if_pos (by rw [← prefix_iff_eq_take.1 hm])]
    · have hm' : ¬ m <+: x.take n := fun hp => hm (hp.trans (List.take_prefix n x))
      rw [if_neg hm] at h
      rw [if_neg hm', if_neg (fun hp => hm' (hfree.1 hp ▸ prefix_refl _))]
      split at h
      · cases h
      · exact ih h hfree.2

theorem lookupStream_nil {e : List α × List β} (hne : e.1 ≠ []) : lookupStream (e :: table) [] = .more [] := by
  rw [lookupStream, if_neg (by simpa using hne), if_pos nil_prefix]

/-- A table of streams, none of them empty or the beginning of another. -/
def ofTable (table : List (List α × List β)) (hsome : table ≠ []) (hne : ∀ e ∈ table, e.1 ≠ [])
    (hfree : ∀ e ∈ table, ∀ e' ∈ table, e.1 <+: e'.1 → e'.1 = e.1) : Decoder α β where
  verdict := lookupStream table
  verdict_nil := by
    cases table with
    | nil => exact absurd rfl hsome
    | cons e table => exact lookupStream_nil (hne e mem_cons_self)
  ended_le := by
    intro x n w h
    obtain ⟨hmem, hle⟩ := lookupStream_ended h
    refine ⟨Nat.pos_of_ne_zero ?_, hle⟩
    rintro rfl
    exact hne _ hmem rfl
  ended_take := fun h => lookupStream_take h (fun e he hp => hfree _ (lookupStream_ended h).1 e he hp)
  ended_append := fun t h => (lookupStream_append t (by rw [h]; simp)).trans h
  bad_append := fun t h => (lookupStream_append t (by rw [h]; simp)).trans h
  out_append := by
    intro x t
    cases h : lookupStream table x with
    | more w => rw [lookupStream_more h]; exact nil_prefix
    | ended n w => rw [lookupStream_append t (by rw [h]; simp), h]
    | bad w => rw [lookupStream_append t (by rw [h]; simp), h]

end Table

end Decoder

end NodeCompat
