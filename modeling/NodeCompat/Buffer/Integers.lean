import NodeCompat.Buffer.Numbers
import NodeCompat.Lib.BigEndian
import NodeCompat.Lib.Words

/-!
# Integers in a Buffer

The fixed-width reads and writes, and `swap32`, on the memory that a view shows a range of. What a call has written stays
written when it throws. A signed write checks its value before its offset, and hands its bits to the unsigned one.
-/

namespace NodeCompat.Buffer

open List

/-- A range of memory; a size is exact as a double. -/
structure View where
  data : Nat
  size : Nat
  exact : size ≤ 2 ^ 53

abbrev Call (α : Type) := ExceptT Fault (StateM Memory) α

def Call.run {α : Type} (c : Call α) (m : Memory) : Except Fault α × Memory := StateT.run (ExceptT.run c) m

/-! ## Offsets -/

/-- The largest `size_t` as a double is 2⁶⁴, and converting that is undefined. -/
def integerOffset (value : Double) (message : Bytes) : Except Fault Nat :=
  match value with
  | .finite q => if q < 0 ∨ (trunc q : ℚ) ≠ q ∨ 2 ^ 64 < q then .error (.rangeError message) else toSize (trunc q)
  | _ => .error (.rangeError message)

def readableOffset (view : View) (value : Double) (width : Nat) : Except Fault Nat := do
  let offset ← integerOffset value (text "Offset is outside the bounds of the Buffer")
  if view.size < offset ∨ view.size - offset < width then throw (.rangeError (text "Offset is outside the bounds of the Buffer"))
  return offset

/-! ## Fixed widths -/

/-- The bytes from an address on. -/
def bytesAt (n a : Nat) (m : Memory) : Bytes := (range n).map fun i => m (a + i)

/-- The bytes are written one after the other. -/
def putBytes (a : Nat) : Bytes → Memory → Memory
  | [], m => m
  | b :: bs, m => putBytes (a + 1) bs (Function.update m a b)

/-- The bytes of a word, the highest first. -/
def bytesOf (bits : UInt32) : Bytes :=
  [(bits >>> 24).toUInt8, (bits >>> 16).toUInt8, (bits >>> 8).toUInt8, bits.toUInt8]

def bitsOf : Bytes → UInt32
  | [b₀, b₁, b₂, b₃] => b₀.toUInt32 <<< 24 ||| b₁.toUInt32 <<< 16 ||| b₂.toUInt32 <<< 8 ||| b₃.toUInt32
  | _ => 0

/-- The order in which a word is stored. -/
def order (little : Bool) (bytes : Bytes) : Bytes := if little then bytes.reverse else bytes

def readUInt8 (view : View) (offset : Double) : Call Int := do
  let index ← readableOffset view offset 1
  return ((← get) (view.data + index)).toNat

def readUInt32 (little : Bool) (view : View) (offset : Double) : Call Int := do
  let index ← readableOffset view offset 4
  return (bitsOf (order little (bytesAt 4 (view.data + index) (← get)))).toNat

def readUInt32LE := readUInt32 true

def readUInt32BE := readUInt32 false

def readInt32 (little : Bool) (view : View) (offset : Double) : Call Int := do
  return (UInt32.ofNat (← readUInt32 little view offset).toNat).toInt32.toInt

def readInt32LE := readInt32 true

def readInt32BE := readInt32 false

/-- `integer` of a value that is to be written, in its range. -/
def writableInteger (value : Double) (low high : Int) (message : Bytes) : Except Fault Int :=
  match value with
  | .finite q => if trunc q < low ∨ high < trunc q then .error (.rangeError message) else .ok (trunc q)
  | _ => .error (.rangeError message)

/-- The unsigned writes; `bytes` are those of a number. -/
def writeUnsigned (width : Nat) (high : Int) (message : Bytes) (bytes : Nat → Bytes) (view : View) (value offset : Double) :
    Call Int := do
  let index ← readableOffset view offset width
  let integer ← writableInteger value 0 high message
  modify (putBytes (view.data + index) (bytes integer.toNat))
  return index + width

def writeUInt8 := writeUnsigned 1 255 (text "Value is outside the range of a uint8") fun n => [UInt8.ofNat n]

def writeUInt32 (little : Bool) :=
  writeUnsigned 4 4294967295 (text "Value is outside the range of a uint32") fun n => order little (bytesOf (UInt32.ofNat n))

def writeUInt32LE := writeUInt32 true

def writeUInt32BE := writeUInt32 false

def writeInt32 (little : Bool) (view : View) (value offset : Double) : Call Int := do
  let integer ← writableInteger value (-2147483648) 2147483647 (text "Value is outside the range of an int32")
  writeUInt32 little view (.finite ((Int32.ofInt integer).toUInt32.toNat : Int)) offset

def writeInt32LE := writeInt32 true

def writeInt32BE := writeInt32 false

inductive Kind
  | uint8
  | uint32 (little : Bool)
  | int32 (little : Bool)

namespace Kind

def width : Kind → Nat
  | .uint8 => 1
  | _ => 4

def low : Kind → Int
  | .int32 _ => -2147483648
  | _ => 0

def high : Kind → Int
  | .uint8 => 255
  | .uint32 _ => 4294967295
  | .int32 _ => 2147483647

def read : Kind → View → Double → Call Int
  | .uint8 => readUInt8
  | .uint32 little => readUInt32 little
  | .int32 little => readInt32 little

def write : Kind → View → Double → Double → Call Int
  | .uint8 => writeUInt8
  | .uint32 little => writeUInt32 little
  | .int32 little => writeInt32 little

end Kind

/-- `std::swap(data[a], data[b])` -/
def swap (a b : Nat) (m : Memory) : Memory := Function.update (Function.update m a (m b)) b (m a)

/-- The loop of `swap32`. -/
def swapFrom (view : View) (index : Nat) (m : Memory) : Memory :=
  if index + 3 < view.size then
    let data := view.data + index
    swapFrom view (index + 4) (swap (data + 1) (data + 2) (swap data (data + 3) m))
  else m
termination_by view.size - index

def swap32 (view : View) : Call View := do
  if view.size % 4 ≠ 0 then throw (.rangeError (text "Buffer size must be a multiple of 32-bits"))
  modify (swapFrom view 0)
  return view

/-! ## Bytes -/

variable {a x : Nat} {bs : Bytes} {m : Memory}

theorem putBytes_of_not_mem (h : x < a ∨ a + bs.length ≤ x) : putBytes a bs m x = m x := by
  induction bs generalizing a m with
  | nil => rfl
  | cons b bs ih =>
    rw [length_cons] at h
    have hne : x ≠ a := by omega
    rw [putBytes, ih (by omega), Function.update_of_ne hne]

theorem bytesAt_putBytes : bytesAt bs.length a (putBytes a bs m) = bs := by
  induction bs generalizing a m with
  | nil => rfl
  | cons b bs ih =>
    have hhead : putBytes (a + 1) bs (Function.update m a b) (a + 0) = b :=
      (putBytes_of_not_mem (.inl (Nat.lt_succ_self a))).trans (Function.update_self a b m)
    have htail : bytesAt bs.length (a + 1) (putBytes (a + 1) bs (Function.update m a b)) = bs := ih
    rw [bytesAt, length_cons, range_succ_eq_map, map_cons, map_map, putBytes, hhead]
    refine congrArg (b :: ·) (Eq.trans (map_congr_left fun i _ => ?_) htail)
    exact congrArg (putBytes (a + 1) bs (Function.update m a b)) (Nat.add_right_comm a i 1)

theorem bitsOf_bytesOf (bits : UInt32) : bitsOf (bytesOf bits) = bits := by
  have hlt := bits.toNat_lt
  rw [bytesOf, bitsOf, word_of_bytes]
  apply UInt32.toNat_inj.1
  simp only [ofBigEndian, foldl_cons, foldl_nil, UInt32.toNat_toUInt8, UInt32.toNat_shiftRight, UInt32.toNat_ofNat',
    Nat.shiftRight_eq_div_pow, UInt32.reduceToNat, Nat.reduceMod, Nat.reducePow]
  omega

theorem length_order (little : Bool) : (order little bs).length = bs.length := by
  cases little <;> simp [order]

theorem order_order (little : Bool) : order little (order little bs) = bs := by
  cases little <;> simp [order]

/-! ## A read after a write -/

namespace Kind

/-- What a member stores of an integer. -/
def bytes (kind : Kind) (v : Int) : Bytes :=
  match kind with
  | .uint8 => [UInt8.ofNat v.toNat]
  | .uint32 little => order little (bytesOf (UInt32.ofNat v.toNat))
  | .int32 little => order little (bytesOf (Int32.ofInt v).toUInt32)

/-- What a member makes of the bytes it reads. -/
def value (kind : Kind) (bs : Bytes) : Int :=
  match kind with
  | .uint8 => (bs.headD 0).toNat
  | .uint32 little => (bitsOf (order little bs)).toNat
  | .int32 little => (bitsOf (order little bs)).toInt32.toInt

theorem length_bytes (kind : Kind) (v : Int) : (kind.bytes v).length = kind.width := by
  cases kind <;> simp [bytes, width, length_order, bytesOf]

theorem value_bytes {kind : Kind} {v : Int} (hlow : kind.low ≤ v) (hhigh : v ≤ kind.high) : kind.value (kind.bytes v) = v := by
  cases kind with
  | uint8 =>
    change 0 ≤ v at hlow; change v ≤ 255 at hhigh
    show ((UInt8.ofNat v.toNat).toNat : Int) = v
    rw [UInt8.toNat_ofNat', Nat.mod_eq_of_lt (by omega), Int.toNat_of_nonneg hlow]
  | uint32 little =>
    change 0 ≤ v at hlow; change v ≤ 4294967295 at hhigh
    rw [value, bytes, order_order, bitsOf_bytesOf, UInt32.toNat_ofNat', Nat.mod_eq_of_lt (by omega), Int.toNat_of_nonneg hlow]
  | int32 little =>
    change -2147483648 ≤ v at hlow; change v ≤ 2147483647 at hhigh
    rw [value, bytes, order_order, bitsOf_bytesOf, Int32.toInt32_toUInt32]
    exact Int32.toInt_ofInt_of_le (by omega) (by omega)

end Kind

variable {view : View} {offset value : Double} {index : Nat} {v n : Int}

theorem readableOffset_ok {width : Nat} (h₀ : 0 ≤ n) (h₁ : n + width ≤ view.size) :
    readableOffset view (.finite n) width = .ok n.toNat := by
  have hexact := view.exact
  have hneg : ¬ (n : ℚ) < 0 := by exact_mod_cast Int.not_lt.2 h₀
  have hlarge : ¬ (2 : ℚ) ^ 64 < n := by exact_mod_cast (by omega : ¬ (2 : Int) ^ 64 < n)
  have hoffset (message : Bytes) : integerOffset (.finite n) message = .ok n.toNat := by
    rw [integerOffset, trunc_intCast, if_neg (by simp [hneg, hlarge]), toSize, if_pos (by omega)]
  rw [readableOffset, hoffset]
  exact if_neg (by omega)

theorem writableInteger_ok {low high : Int} {message : Bytes} (hlow : low ≤ v) (hhigh : v ≤ high) :
    writableInteger (.finite v) low high message = .ok v := by
  rw [writableInteger, trunc_intCast, if_neg (by omega)]

theorem read_ok (kind : Kind) (h : readableOffset view offset kind.width = .ok index) :
    (kind.read view offset).run m = (.ok (kind.value (bytesAt kind.width (view.data + index) m)), m) := by
  cases kind with
  | uint8 =>
    change readableOffset view offset 1 = .ok index at h
    rw [Kind.read, readUInt8, h]; rfl
  | uint32 little =>
    change readableOffset view offset 4 = .ok index at h
    rw [Kind.read, readUInt32, h]; rfl
  | int32 little =>
    change readableOffset view offset 4 = .ok index at h
    rw [Kind.read, readInt32, readUInt32, h]
    show (Except.ok (UInt32.ofNat (bitsOf (order little (bytesAt 4 (view.data + index) m))).toNat).toInt32.toInt, m) = _
    rw [UInt32.ofNat_toNat]; rfl

section

variable {width : Nat} {high : Int} {message : Bytes} {bytes : Nat → Bytes} {fault : Fault} {m' : Memory}

theorem writeUnsigned_ok (h : readableOffset view offset width = .ok index) (hlow : 0 ≤ v) (hhigh : v ≤ high) :
    (writeUnsigned width high message bytes view (.finite v) offset).run m =
      (.ok (index + width), putBytes (view.data + index) (bytes v.toNat) m) := by
  rw [writeUnsigned, h]
  show Call.run (liftM (writableInteger (.finite v) 0 high message) >>= _) m = _
  rw [writableInteger_ok hlow hhigh]; rfl

theorem writeUnsigned_error (h : (writeUnsigned width high message bytes view value offset).run m = (.error fault, m')) :
    m' = m := by
  rw [writeUnsigned] at h
  cases hoffset : readableOffset view offset width with
  | error f => rw [hoffset] at h; exact (Prod.mk.inj h).2.symm
  | ok index =>
    rw [hoffset] at h
    change Call.run (liftM (writableInteger value 0 high message) >>= _) m = _ at h
    cases hvalue : writableInteger value 0 high message with
    | error f => rw [hvalue] at h; exact (Prod.mk.inj h).2.symm
    | ok integer => rw [hvalue] at h; cases (Prod.mk.inj h).1

theorem write_ok {kind : Kind} (h : readableOffset view offset kind.width = .ok index) (hlow : kind.low ≤ v)
    (hhigh : v ≤ kind.high) :
    (kind.write view (.finite v) offset).run m = (.ok (index + kind.width), putBytes (view.data + index) (kind.bytes v) m) := by
  cases kind with
  | uint8 => unfold Kind.write writeUInt8; exact writeUnsigned_ok h hlow hhigh
  | uint32 little => unfold Kind.write writeUInt32; exact writeUnsigned_ok h hlow hhigh
  | int32 little =>
    have hlt := (Int32.ofInt v).toUInt32.toNat_lt
    change readableOffset view offset 4 = .ok index at h
    change -2147483648 ≤ v at hlow; change v ≤ 2147483647 at hhigh
    rw [Kind.write, writeInt32, writableInteger_ok hlow hhigh]
    show (writeUInt32 little view (.finite ((Int32.ofInt v).toUInt32.toNat : Int)) offset).run m = _
    rw [writeUInt32, writeUnsigned_ok h (by omega) (by omega), Int.toNat_natCast, UInt32.ofNat_toNat]; rfl

/-- **A call that throws writes nothing.** -/
theorem write_error {kind : Kind} (h : (kind.write view value offset).run m = (.error fault, m')) : m' = m := by
  cases kind with
  | uint8 => unfold Kind.write writeUInt8 at h; exact writeUnsigned_error h
  | uint32 little => unfold Kind.write writeUInt32 at h; exact writeUnsigned_error h
  | int32 little =>
    rw [Kind.write, writeInt32] at h
    cases hvalue : writableInteger value (-2147483648) 2147483647 (text "Value is outside the range of an int32") with
    | error f => rw [hvalue] at h; exact (Prod.mk.inj h).2.symm
    | ok integer =>
      rw [hvalue] at h
      change (writeUInt32 little view _ offset).run m = (.error fault, m') at h
      rw [writeUInt32] at h; exact writeUnsigned_error h

theorem read_error {kind : Kind} (h : (kind.read view offset).run m = (.error fault, m')) : m' = m := by
  cases hoffset : readableOffset view offset kind.width with
  | ok index => cases (read_ok kind hoffset).symm.trans h
  | error f =>
    cases kind with
    | uint8 =>
      change readableOffset view offset 1 = _ at hoffset
      rw [Kind.read, readUInt8, hoffset] at h; exact (Prod.mk.inj h).2.symm
    | uint32 little =>
      change readableOffset view offset 4 = _ at hoffset
      rw [Kind.read, readUInt32, hoffset] at h; exact (Prod.mk.inj h).2.symm
    | int32 little =>
      change readableOffset view offset 4 = _ at hoffset
      rw [Kind.read, readInt32, readUInt32, hoffset] at h; exact (Prod.mk.inj h).2.symm

theorem swap32_error (h : (swap32 view).run m = (.error fault, m')) : m' = m := by
  unfold swap32 at h
  split at h
  · exact (Prod.mk.inj h).2.symm
  · cases (Prod.mk.inj h).1

end

/-! ## `swap32` -/

/-- Where the byte at `i` goes within its word. -/
def mirror (i : Nat) : Nat := i + 3 - 2 * (i % 4)

theorem swap_apply {a b x : Nat} : swap a b m x = if x = b then m a else if x = a then m b else m x := by
  simp only [swap, Function.update_apply]

theorem swapFrom_apply (hsize : view.size % 4 = 0) (hindex : index % 4 = 0) (x : Nat) : swapFrom view index m x =
    if view.data + index ≤ x ∧ x < view.data + view.size then m (view.data + mirror (x - view.data)) else m x := by
  fun_induction swapFrom view index m with
  | case1 index m h data ih =>
    rw [ih (by omega)]
    unfold mirror
    by_cases hrest : view.data + (index + 4) ≤ x ∧ x < view.data + view.size
    · rw [if_pos hrest, if_pos (by omega)]
      simp only [swap_apply, data]
      split_ifs <;> first | rfl | omega
    · rw [if_neg hrest]
      simp only [swap_apply, data]
      split_ifs <;> first | rfl | omega | exact congrArg m (by omega)
  | case2 index m h => exact (if_neg (by omega)).symm

theorem bytesAt_swapFrom (hsize : view.size % 4 = 0) (hindex : index % 4 = 0) (hlt : index < view.size) :
    bytesAt 4 (view.data + index) (swapFrom view 0 m) = (bytesAt 4 (view.data + index) m).reverse := by
  have hbyte (i : Nat) (hi : i < 4) : swapFrom view 0 m (view.data + index + i) = m (view.data + index + (3 - i)) := by
    rw [swapFrom_apply hsize (Nat.zero_mod 4), if_pos (by omega)]; exact congrArg m (by unfold mirror; omega)
  have hfirst : swapFrom view 0 m (view.data + index) = m (view.data + index + 3) := hbyte 0 (by omega)
  simp [bytesAt, range_succ, hbyte, hfirst]

theorem swapFrom_swapFrom (hsize : view.size % 4 = 0) : swapFrom view 0 (swapFrom view 0 m) = m := by
  funext x
  rw [swapFrom_apply hsize (Nat.zero_mod 4)]
  split
  · rw [swapFrom_apply hsize (Nat.zero_mod 4), if_pos (by unfold mirror; omega)]; exact congrArg m (by unfold mirror; omega)
  · next hout => rw [swapFrom_apply hsize (Nat.zero_mod 4), if_neg hout]

/-- **Integers are read as they were written**, nothing else is written, and `swap32` turns one byte order into the other. -/
theorem integer_round_trip :
    (∀ (kind : Kind) (view : View) (offset v : Int) (m : Memory), 0 ≤ offset → offset + kind.width ≤ view.size →
      kind.low ≤ v → v ≤ kind.high → ∃ m',
        (kind.write view (.finite v) (.finite offset)).run m = (.ok (offset + kind.width), m') ∧
        (kind.read view (.finite offset)).run m' = (.ok v, m') ∧
        ∀ x : Nat, (x < view.data + offset ∨ view.data + offset + kind.width ≤ x) → m' x = m x) ∧
    (∀ (kind : Kind) (view : View) (value offset : Double) (m m' : Memory) (message : Bytes),
      ((kind.write view value offset).run m = (.error (.rangeError message), m') ∨
        (kind.read view offset).run m = (.error (.rangeError message), m') ∨
        (swap32 view).run m = (.error (.rangeError message), m')) → m' = m) ∧
    ∀ (view : View) (m : Memory), view.size % 4 = 0 → ∃ m', (swap32 view).run m = (.ok view, m') ∧
      (∀ offset : Nat, offset % 4 = 0 → offset < view.size → ∃ v,
        (readUInt32BE view (.finite (offset : Int))).run m' = (.ok v, m') ∧
        (readUInt32LE view (.finite (offset : Int))).run m = (.ok v, m)) ∧
      (swap32 view).run m' = (.ok view, m) := by
  refine ⟨fun kind view offset v m h₀ h₁ hlow hhigh => ?_, fun _ _ _ _ _ _ _ h => ?_, fun view m hsize => ?_⟩
  · have hoffset := readableOffset_ok h₀ h₁
    refine ⟨_, (write_ok hoffset hlow hhigh).trans (by rw [Int.toNat_of_nonneg h₀]), ?_, fun x hx => ?_⟩
    · rw [read_ok kind hoffset, ← kind.length_bytes v, bytesAt_putBytes, Kind.value_bytes hlow hhigh]
    · exact putBytes_of_not_mem (by rw [kind.length_bytes]; omega)
  · exact h.elim write_error fun h => h.elim read_error swap32_error
  · have hrun (m : Memory) : (swap32 view).run m = (.ok view, swapFrom view 0 m) := by
      rw [swap32, if_neg (not_not_intro hsize)]; rfl
    refine ⟨_, hrun m, fun offset hmod hlt => ?_, by rw [hrun, swapFrom_swapFrom hsize]⟩
    have hoffset : readableOffset view (.finite (offset : Int)) 4 = .ok offset := readableOffset_ok (by omega) (by omega)
    refine ⟨_, read_ok (.uint32 false) hoffset, (read_ok (.uint32 true) hoffset).trans ?_⟩
    show _ = (Except.ok ((bitsOf (bytesAt 4 (view.data + offset) (swapFrom view 0 m))).toNat : Int), m)
    rw [bytesAt_swapFrom hsize hmod hlt]; rfl

theorem integer_round_trip_eight :
    (∃ m', (writeInt32BE ⟨0, 8, by decide⟩ (.finite (-2 : Int)) (.finite (4 : Int))).run (fun _ => 0) = (.ok 8, m') ∧
      (readInt32BE ⟨0, 8, by decide⟩ (.finite (4 : Int))).run m' = (.ok (-2), m') ∧ m' 3 = 0) ∧
    (∀ m', (writeUInt8 ⟨0, 8, by decide⟩ .nan .nan).run (fun _ => 0) =
      (.error (.rangeError (text "Offset is outside the bounds of the Buffer")), m') → m' 0 = 0) ∧
    ∃ m', (swap32 ⟨0, 8, by decide⟩).run m' = (.ok ⟨0, 8, by decide⟩, fun _ => 0) := by
  obtain ⟨hwrite, herror, hswap⟩ := integer_round_trip
  refine ⟨?_, fun m' h => ?_, ?_⟩
  · obtain ⟨m', hw, hr, hframe⟩ :=
      hwrite (.int32 false) ⟨0, 8, by decide⟩ 4 (-2) (fun _ => 0) (by decide) (by decide) (by decide) (by decide)
    exact ⟨m', hw, hr, hframe 3 (by decide)⟩
  · rw [herror .uint8 _ _ _ _ m' _ (.inl h)]
  · obtain ⟨m', -, -, h⟩ := hswap ⟨0, 8, by decide⟩ (fun _ => 0) (by decide)
    exact ⟨m', h⟩

end NodeCompat.Buffer
