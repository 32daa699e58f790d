import NodeCompat.Lib.Codec

/-!
# Machines that encode piece by piece

An `Encoder` is handed content and room for output, call by call, and is told when no more content will come. It may keep
back what it has taken for as long as more may come; in the end all that it has given is a stream that a decoder reads as the
content (`Encodes`).

`Encoder.ofWhole` is an encoder that keeps back everything until the end.
-/

namespace NodeCompat

open List

inductive Flush
  | noFlush | finish
deriving DecidableEq

/-- A machine that is told with each call whether more will come. -/
structure Encoder (σ α β ε : Type) where
  init : σ
  call : σ → List α → Nat → Flush → Answer σ β ε

namespace Encoder

variable {σ α β ε : Type}

/-- The state of an encoder that has taken and given these symbols, and the last thing that it was told. -/
inductive At (m : Encoder σ α β ε) : σ → List α → List β → Flush → Prop
  | init : At m m.init [] [] .noFlush
  | write {s : σ} {fed : List α} {given : List β} (input : List α) {room : Nat} : 0 < room → At m s fed given .noFlush →
      At m (m.call s input room .noFlush).state (fed ++ input.take (m.call s input room .noFlush).consumed)
        (given ++ (m.call s input room .noFlush).output) .noFlush
  | finish {s : σ} {fed : List α} {given : List β} {told : Flush} {room : Nat} : 0 < room → At m s fed given told →
      At m (m.call s [] room .finish).state fed (given ++ (m.call s [] room .finish).output) .finish

/-- An answer while more may come: the room is full or the input is at its end. -/
structure Writes (input room : Nat) (a : Answer σ β ε) : Prop where
  code : a.code = .ok ∨ a.code = .bufError
  consumed_le : a.consumed ≤ input
  full : a.output.length = room ∨ a.consumed = input

/-- An answer when no more will come: the room is full or all that has been given is a stream of the content. -/
structure Finishes (d : Decoder β α) (u : List α) (given : List β) (room : Nat) (a : Answer σ β ε) : Prop where
  consumed : a.consumed = 0
  done : a.code = .streamEnd ∧ d.verdict (given ++ a.output) = .ended (given ++ a.output).length u ∨
    (a.code = .ok ∨ a.code = .bufError) ∧ a.output.length = room

/-- The machine encodes the content `u`, however it is cut: and no more comes out than some number of symbols. -/
structure Encodes (m : Encoder σ α β ε) (d : Decoder β α) (u : List α) : Prop where
  writes : ∀ {s fed given}, m.At s fed given .noFlush → ∀ (input : List α) {room : Nat}, fed ++ input <+: u → 0 < room →
    Writes input.length room (m.call s input room .noFlush)
  finishes : ∀ {s given told}, m.At s u given told → ∀ {room : Nat}, 0 < room →
    Finishes d u given room (m.call s [] room .finish)
  bounded : ∃ n, ∀ {s fed given told}, m.At s fed given told → fed <+: u → (told = .finish → fed = u) → given.length ≤ n

/-! ## An encoder that keeps everything back -/

section OfWhole

variable (whole : List α → List β)

/-- The encoder that takes all, and gives the stream in the end. -/
def ofWhole : Encoder (List α × Nat) α β ε where
  init := ([], 0)
  call := fun s input room flush =>
    match flush with
    | .noFlush => { code := .ok, consumed := input.length, output := [], state := (s.1 ++ input, s.2) }
    | .finish =>
      let pending := (whole (s.1 ++ input)).drop s.2
      { code := if room < pending.length then .ok else .streamEnd
        consumed := input.length
        output := pending.take room
        state := (s.1 ++ input, s.2 + (pending.take room).length) }

variable {whole}

theorem ofWhole_at {s : List α × Nat} {fed : List α} {given : List β} {told : Flush}
    (h : (ofWhole (ε := ε) whole).At s fed given told) :
    s = (fed, given.length) ∧ given <+: whole fed ∧ (told = .noFlush → given = []) := by
  induction h with
  | init => exact ⟨rfl, nil_prefix, fun _ => rfl⟩
  | write input _ _ ih =>
    obtain ⟨rfl, -, hnil⟩ := ih
    obtain rfl := hnil rfl
    refine ⟨?_, nil_prefix, fun _ => rfl⟩
    simp [ofWhole]
  | @finish s fed given told room _ _ ih =>
    obtain ⟨rfl, ⟨t, ht⟩, -⟩ := ih
    have hpending : (whole fed).drop given.length = t := by rw [← ht, drop_left]
    refine ⟨by simp [ofWhole], ?_, nofun⟩
    simp only [ofWhole, append_nil, hpending]
    rw [← ht]; exact (prefix_append_right_inj given).2 (List.take_prefix room t)

/-- **It encodes what the decoder reads back.** -/
theorem ofWhole_encodes {d : Decoder β α} {u : List α} (h : d.verdict (whole u) = .ended (whole u).length u) :
    (ofWhole (ε := ε) whole).Encodes d u where
  writes := fun _ _ _ _ _ => ⟨.inl rfl, Nat.le_refl _, .inr rfl⟩
  finishes := by
    intro s given told hs room _
    obtain ⟨rfl, ⟨t, ht⟩, -⟩ := ofWhole_at hs
    have hpending : (whole u).drop given.length = t := by rw [← ht, drop_left]
    refine ⟨rfl, ?_⟩
    simp only [ofWhole, append_nil, hpending]
    by_cases hroom : room < t.length
    · right; rw [if_pos hroom, length_take]; exact ⟨.inl rfl, by omega⟩
    · left; rw [if_neg hroom, take_of_length_le (by omega), ht]; exact ⟨rfl, h⟩
  bounded := by
    refine ⟨(whole u).length, ?_⟩
    intro s fed given told hs _ htold
    obtain ⟨-, hgiven, hnil⟩ := ofWhole_at hs
    cases told with
    | noFlush => rw [hnil rfl]; exact Nat.zero_le _
    | finish => rw [← htold rfl]; exact hgiven.length_le

end OfWhole

end Encoder

end NodeCompat
