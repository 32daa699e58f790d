import NodeCompat.Buffer.ToString
import Mathlib.Data.Rat.Floor

/-!
# Numbers as bytes of a Buffer

`Buffer.from(values)` and `Buffer.alloc(size, fill)` convert a double to a 64-bit integer without a check, and keep its lowest
byte. The conversion is undefined in C++ below zero and from 2⁶⁴ on (`Fault.undefined`); in between the byte is the residue
modulo 256 (`byteOf_eq`).
-/

namespace NodeCompat.Buffer

inductive Double
  | nan
  | infinite (negative : Bool)
  | finite (q : ℚ)

inductive Fault
  | rangeError (message : Bytes)
  | typeError (message : Bytes)
  | undefined
  deriving DecidableEq

/-- `std::trunc` -/
def trunc (q : ℚ) : Int := if q < 0 then q.ceil else q.floor

/-- `static_cast<std::size_t>` on a 64-bit target, and `static_cast<std::uint64_t>`. -/
def toSize (integer : Int) : Except Fault Nat := if 0 ≤ integer ∧ integer < 2 ^ 64 then .ok integer.toNat else .error .undefined

/-- `static_cast<std::uint8_t>(static_cast<std::uint64_t>(…) & 0xffu)` -/
def byteOf (value : Double) : Except Fault UInt8 := do
  let bits ← toSize (match value with
    | .finite q => trunc q
    | _ => 0)
  return UInt8.ofNat (bits &&& 0xff)

/-- `Buffer.from(values)`, the bytes of the new buffer. -/
def fromValues (values : List Double) : Except Fault Bytes := values.mapM byteOf

def allocationSize (value : Double) : Except Fault Nat :=
  match value with
  | .finite q =>
    if q < 0 ∨ (2 ^ 63 : Int) < trunc q then .error (.rangeError (text "Buffer size is outside the supported range"))
    else toSize (trunc q)
  | _ => .error (.rangeError (text "Buffer size is outside the supported range"))

/-- `Buffer.alloc(size, fill)` -/
def alloc (size fill : Double) : Except Fault Bytes := do
  let byte ← byteOf fill
  let count ← allocationSize size
  return List.replicate count byte

/-! ## Integers -/

theorem trunc_intCast (n : Int) : trunc (n : ℚ) = n := by
  unfold trunc
  split
  · exact Rat.ceil_intCast n
  · exact Rat.floor_intCast n

/-- What a number is modulo 256. -/
def residue (n : Int) : UInt8 := UInt8.ofNat (n % 256).toNat

theorem byteOf_eq (n : Int) :
    byteOf (.finite n) = if 0 ≤ n ∧ n < 2 ^ 64 then .ok (residue n) else .error .undefined := by
  show (toSize (trunc n) >>= fun bits => pure (UInt8.ofNat (bits &&& 0xff))) = _
  rw [trunc_intCast, toSize]
  split
  · next h =>
    have hand : n.toNat &&& 0xff = (n % 256).toNat := by
      rw [show (0xff : Nat) = 2 ^ 8 - 1 from rfl, Nat.and_two_pow_sub_one_eq_mod]; omega
    show Except.ok (UInt8.ofNat (n.toNat &&& 0xff)) = _; rw [hand]; rfl
  · rfl

theorem fromValues_eq (values : List Int) : fromValues (values.map fun n : Int => .finite n) = .ok (values.map residue) ↔
    ∀ n ∈ values, 0 ≤ n ∧ n < 2 ^ 64 := by
  induction values with
  | nil => simp [fromValues, pure, Except.pure]
  | cons n values ih =>
    rw [List.map_cons, fromValues, List.mapM_cons, byteOf_eq, List.forall_mem_cons, ← ih, fromValues]
    split
    · next h =>
      rw [iff_true_intro h, true_and]
      cases hrest : List.mapM byteOf (values.map fun n : Int => Double.finite n) with
      | error e => simp [bind, Except.bind]
      | ok rest => simp [bind, Except.bind, pure, Except.pure]
    · next h => exact iff_of_false (by simp [bind, Except.bind]) (fun hall => h hall.1)

/-- **Numbers become bytes** modulo 256 where they are representable in 64 bits, and only there. -/
theorem number_bytes (values : List Int) (size fill : Int) :
    (fromValues (values.map fun n : Int => .finite n) = .ok (values.map residue) ↔ ∀ n ∈ values, 0 ≤ n ∧ n < 2 ^ 64) ∧
    (0 ≤ size ∧ size ≤ 2 ^ 63 →
      (alloc (.finite size) (.finite fill) = .ok (List.replicate size.toNat (residue fill)) ↔ 0 ≤ fill ∧ fill < 2 ^ 64)) := by
  refine ⟨fromValues_eq values, fun hsize => ?_⟩
  have hcount : allocationSize (.finite size) = .ok size.toNat := by
    have hneg : ¬ (size : ℚ) < 0 := by exact_mod_cast Int.not_lt.2 hsize.1
    rw [allocationSize, trunc_intCast, if_neg (by simp only [hneg, false_or]; omega), toSize, if_pos (by omega)]
  rw [alloc, byteOf_eq, hcount]
  split
  · next h => exact iff_of_true rfl h
  · next h => exact iff_of_false (by simp [bind, Except.bind]) h

/-- One byte of 300. -/
theorem number_bytes_wrap : alloc (.finite (1 : Int)) (.finite (300 : Int)) = .ok [44] :=
  ((number_bytes [] 1 300).2 (by decide)).2 (by decide)

/-- `Buffer.from([-1])` is left undefined. -/
theorem negative_undefined : ¬ ∀ values : List Int,
    fromValues (values.map fun n : Int => .finite n) = .ok (values.map residue) := by
  intro h
  have hone := h [-1]; rw [fromValues_eq] at hone; exact absurd (hone (-1) (by simp)) (by decide)

end NodeCompat.Buffer
