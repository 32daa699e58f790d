import Mathlib.Algebra.Ring.Nat
import Mathlib.Data.List.Induction

/-!
# Big-endian numbers

A number as `n` bytes, most significant first, and as it is put together from bytes by shifts.
-/

namespace NodeCompat

open List

/-- The last `n` bytes of a number. -/
def bigEndian (n v : Nat) : List UInt8 := (List.range n).map (fun i => UInt8.ofNat (v / 256 ^ (n - 1 - i)))

/-- The number that bytes stand for. -/
def ofBigEndian (bs : List UInt8) : Nat := bs.foldl (fun n b => n * 256 + b.toNat) 0

theorem ofBigEndian_append (a b : List UInt8) : ofBigEndian (a ++ b) = ofBigEndian a * 256 ^ b.length + ofBigEndian b := by
  induction b using List.reverseRecOn with
  | nil => simp [ofBigEndian]
  | append_singleton b x ih =>
    have hsnoc : ∀ s : List UInt8, ofBigEndian (s ++ [x]) = ofBigEndian s * 256 + x.toNat := fun s => by simp [ofBigEndian]
    rw [← append_assoc, hsnoc, hsnoc, ih, length_append, length_singleton, Nat.pow_succ, Nat.add_mul, Nat.mul_assoc,
      Nat.add_assoc]

theorem ofBigEndian_cons (x : UInt8) (a : List UInt8) : ofBigEndian (x :: a) = x.toNat * 256 ^ a.length + ofBigEndian a := by
  rw [← singleton_append, ofBigEndian_append]; simp [ofBigEndian]

theorem ofBigEndian_lt (b : List UInt8) : ofBigEndian b < 256 ^ b.length := by
  induction b with
  | nil => simp [ofBigEndian]
  | cons x b ih =>
    have hx := x.toNat_lt
    have hmul : (x.toNat + 1) * 256 ^ b.length ≤ 256 * 256 ^ b.length := Nat.mul_le_mul_right _ (by omega)
    rw [Nat.add_mul, Nat.one_mul] at hmul
    rw [ofBigEndian_cons, length_cons, Nat.pow_succ, Nat.mul_comm (256 ^ b.length)]; omega

theorem ofBigEndian_take (b : List UInt8) (w : Nat) :
    ofBigEndian (b.take w) = ofBigEndian b / 2 ^ (8 * (b.length - w)) := by
  have hlt := ofBigEndian_lt (b.drop w)
  conv_rhs => rw [← take_append_drop w b, ofBigEndian_append, take_append_drop]
  rw [length_drop] at hlt ⊢
  have hpow : 2 ^ (8 * (b.length - w)) = 256 ^ (b.length - w) := by rw [Nat.pow_mul]
  rw [hpow, Nat.mul_comm, Nat.mul_add_div (Nat.pow_pos (by omega)), Nat.div_eq_of_lt hlt, Nat.add_zero]

theorem shiftRight_bytes (v k : Nat) : v >>> (8 * k) = v / 256 ^ k := by
  rw [Nat.shiftRight_eq_div_pow, Nat.pow_mul]

theorem or_bytes (a : Nat) {b k : Nat} (hb : b < 2 ^ k) : a * 2 ^ k ||| b = a * 2 ^ k + b := by
  have := Nat.shiftLeft_add_eq_or_of_lt hb a; rw [Nat.shiftLeft_eq] at this; exact this.symm

theorem word_of_bytes (b₀ b₁ b₂ b₃ : UInt8) :
    b₀.toUInt32 <<< 24 ||| b₁.toUInt32 <<< 16 ||| b₂.toUInt32 <<< 8 ||| b₃.toUInt32 = UInt32.ofNat (ofBigEndian [b₀, b₁, b₂, b₃]) := by
  have h₀ := b₀.toNat_lt
  have h₁ := b₁.toNat_lt
  have h₂ := b₂.toNat_lt
  have h₃ := b₃.toNat_lt
  apply UInt32.toNat_inj.1
  have hshift : ∀ (b : UInt8) (k : Nat), k ≤ 24 → (b.toUInt32 <<< UInt32.ofNat k).toNat = b.toNat * 2 ^ k := by
    intro b k hk
    have hb := b.toNat_lt
    have hle : b.toNat * 2 ^ k < 2 ^ 8 * 2 ^ 24 := Nat.mul_lt_mul_of_lt_of_le hb (Nat.pow_le_pow_right (by omega) hk) (by decide)
    rw [UInt32.toNat_shiftLeft, UInt32.toNat_ofNat', UInt8.toNat_toUInt32, Nat.mod_eq_of_lt (a := k) (by omega),
      Nat.mod_eq_of_lt (a := k) (by omega), Nat.shiftLeft_eq, Nat.mod_eq_of_lt (by omega)]
  have h24 := hshift b₀ 24 (by omega)
  have h16 := hshift b₁ 16 (by omega)
  have h8 := hshift b₂ 8 (by omega)
  have e₁ := or_bytes b₀.toNat (b := b₁.toNat * 2 ^ 16) (k := 24) (by omega)
  have e₂ := or_bytes (b₀.toNat * 2 ^ 8 + b₁.toNat) (b := b₂.toNat * 2 ^ 8) (k := 16) (by omega)
  have e₃ := or_bytes ((b₀.toNat * 2 ^ 8 + b₁.toNat) * 2 ^ 8 + b₂.toNat) (b := b₃.toNat) (k := 8) (by omega)
  rw [show b₀.toNat * 2 ^ 24 + b₁.toNat * 2 ^ 16 = (b₀.toNat * 2 ^ 8 + b₁.toNat) * 2 ^ 16 by omega] at e₁
  rw [show (b₀.toNat * 2 ^ 8 + b₁.toNat) * 2 ^ 16 + b₂.toNat * 2 ^ 8 =
    ((b₀.toNat * 2 ^ 8 + b₁.toNat) * 2 ^ 8 + b₂.toNat) * 2 ^ 8 by omega] at e₂
  rw [UInt32.toNat_or, UInt32.toNat_or, UInt32.toNat_or, UInt8.toNat_toUInt32, UInt32.toNat_ofNat', ofBigEndian]
  simp only [foldl_cons, foldl_nil]
  rw [Nat.mod_eq_of_lt (by omega)]
  calc _ = ((b₀.toNat * 2 ^ 24 ||| b₁.toNat * 2 ^ 16) ||| b₂.toNat * 2 ^ 8) ||| b₃.toNat :=
        congrArg₂ (fun x y => (x ||| y) ||| b₃.toNat) (congrArg₂ (fun x y => x ||| y) h24 h16) h8
    _ = ((b₀.toNat * 2 ^ 8 + b₁.toNat) * 2 ^ 8 + b₂.toNat) * 2 ^ 8 + b₃.toNat := by rw [e₁, e₂, e₃]
    _ = _ := by omega

end NodeCompat
