import NodeCompat.Crypto.Sha224
import NodeCompat.Lib.Mac
import Mathlib.Data.Rat.Floor

/-!
# `hmacOf` and `pbkdf2` on Windows

CNG hashes, apart from SHA-224, which is in the tree; HMAC, and PBKDF2 for what CNG does not derive, are loops over the
hashes. CNG is a parameter: `cng` is the digest of the bytes that a hash object was given, and `derive` what
`BCryptDeriveKeyPBKDF2` fills in, if it does. Writes into a buffer are `none` where they would be past its end.
-/

namespace NodeCompat.Crypto

open List Option

inductive Algorithm
  | md5 | sha1 | sha224 | sha256 | sha384 | sha512
deriving DecidableEq

/-- `algorithm`, of a name in lower case. -/
def algorithm (name : Bytes) : Option Algorithm :=
  if name = text "md5" then some .md5
  else if name = text "sha1" ∨ name = text "sha-1" then some .sha1
  else if name = text "sha224" ∨ name = text "sha-224" then some .sha224
  else if name = text "sha256" ∨ name = text "sha-256" then some .sha256
  else if name = text "sha384" ∨ name = text "sha-384" then some .sha384
  else if name = text "sha512" ∨ name = text "sha-512" then some .sha512
  else none

def digestSize : Algorithm → Nat
  | .md5 => 16
  | .sha1 => 20
  | .sha224 => 28
  | .sha256 => 32
  | .sha384 => 48
  | .sha512 => 64

def blockSize (value : Algorithm) : Nat := if value = .sha384 ∨ value = .sha512 then 128 else 64

theorem digestSize_pos (value : Algorithm) : 0 < digestSize value := by cases value <;> decide

theorem digestSize_le (value : Algorithm) : digestSize value ≤ blockSize value := by cases value <;> decide

/-- CNG's digests have the declared sizes. -/
def Declared (cng : Algorithm → Bytes → Bytes) : Prop := ∀ value m, (cng value m).length = digestSize value

/-! ## `Hasher` -/

theorem nil_lt : ([] : Bytes).length < 64 := by decide

structure Hasher where
  algorithm : Algorithm
  /-- What CNG's hash object was given. -/
  hash : Bytes := []
  sha224 : Sha224 := { used_lt := nil_lt }

namespace Hasher

/-- The loop of `update`, which hands over at most 2^30 bytes at a time. -/
def hashData (hash bytes : Bytes) : Bytes :=
  if bytes = [] then hash
  else
    let chunk := min bytes.length 0x40000000
    hashData (hash ++ bytes.take chunk) (bytes.drop chunk)
termination_by bytes.length
decreasing_by
  have := length_pos_iff.2 ‹¬bytes = []›
  rw [length_drop]
  omega

def update (h : Hasher) (bytes : Bytes) : Hasher :=
  if h.algorithm = .sha224 then { h with sha224 := h.sha224.update bytes } else { h with hash := hashData h.hash bytes }

def finish (cng : Algorithm → Bytes → Bytes) (h : Hasher) : Bytes :=
  if h.algorithm = .sha224 then h.sha224.finish else cng h.algorithm h.hash

end Hasher

/-! ## The functions -/

/-- A copy of `source` into a buffer. -/
def store (buffer : Bytes) (offset : Nat) (source : Bytes) : Option Bytes :=
  if offset + source.length ≤ buffer.length then
    some (buffer.take offset ++ source ++ buffer.drop (offset + source.length))
  else none

section

variable (cng : Algorithm → Bytes → Bytes) (value : Algorithm)

/-- `padded` -/
def paddedKey (key : Bytes) : Option Bytes :=
  let padded := List.replicate (blockSize value) 0
  if key.length > blockSize value then store padded 0 ((({ algorithm := value } : Hasher).update key).finish cng)
  else if key.length > 0 then store padded 0 key
  else some padded

def hmacOf (key bytes : Bytes) : Option Bytes := do
  let padded ← paddedKey cng value key
  let inner := ((({ algorithm := value } : Hasher).update (padded.map (· ^^^ 0x36))).update bytes).finish cng
  return ((({ algorithm := value } : Hasher).update (padded.map (· ^^^ 0x5c))).update inner).finish cng

/-- The rounds that are left of a block, with `u` and `t`. -/
def rounds (password : Bytes) : Nat → Bytes → Bytes → Option Bytes
  | 0, _, t => some t
  | n + 1, u, t => do
    let u ← hmacOf cng value password u
    rounds password n u (List.zipWith (· ^^^ ·) t u)

/-- `block`, with the index behind the salt. -/
def indexed (salt : Bytes) (index : Nat) : Bytes :=
  salt ++ [UInt8.ofNat (index >>> 24), UInt8.ofNat (index >>> 16), UInt8.ofNat (index >>> 8), UInt8.ofNat index]

/-- The loop over the blocks of the result, from an offset. -/
def deriveBlocks (password salt : Bytes) (iterations keyLength : Nat) (result : Bytes) (offset index : Nat) : Option Bytes :=
  if offset < keyLength then do
    let u ← hmacOf cng value password (indexed salt index)
    let t ← rounds cng value password (iterations - 1) u u
    let result ← store result offset (t.take (min (digestSize value) (keyLength - offset)))
    deriveBlocks password salt iterations keyLength result (offset + digestSize value) (index + 1)
  else some result
termination_by keyLength - offset
decreasing_by
  have := digestSize_pos value
  omega

end

/-- What a JavaScript program is told. -/
inductive CryptoError
  | iterations
  | keyLength
  | unsupported (digest : Bytes)
  | deriving
deriving DecidableEq

namespace CryptoError

def name : CryptoError → Bytes
  | .iterations | .keyLength => text "RangeError"
  | .unsupported _ | .deriving => text "Error"

def message : CryptoError → Bytes
  | .iterations => text "PBKDF2 iterations must be a positive integer"
  | .keyLength => text "PBKDF2 key length is out of range"
  | .unsupported digest => text "Digest method not supported: " ++ digest
  | .deriving => text "Deriving bits failed"

end CryptoError

/-- A double that is an integer between bounds; `none` is a number that is not finite. -/
def integerBetween (low high : Int) (number : Option ℚ) : Option Nat :=
  match number with
  | none => none
  | some q => if q < low ∨ high < q ∨ (⌊q⌋ : ℚ) ≠ q then none else some ⌊q⌋.toNat

/-- The inner `none` is a write past the end of a buffer. -/
def pbkdf2 (cng : Algorithm → Bytes → Bytes) (derive : Algorithm → Bytes → Bytes → Nat → Nat → Option Bytes)
    (password salt : Bytes) (iterations keyLength : Option ℚ) (name : Bytes) : Except CryptoError (Option Bytes) := do
  let some iterations := integerBetween 1 2147483647 iterations | .error .iterations
  let some keyLength := integerBetween 0 2147483647 keyLength | .error .keyLength
  let some method := algorithm (name.map lowerByte) | .error (.unsupported (name.map lowerByte))
  if keyLength = 0 then .error .deriving
  else
    let derived := if method ≠ .sha224 ∧ method ≠ .md5 then derive method password salt iterations keyLength else none
    match derived with
    | some result => .ok (some result)
    | none => .ok (deriveBlocks cng method password salt iterations keyLength (List.replicate keyLength 0) 0 1)

/-! ## Hashes -/

/-- The digest of a message at once. -/
def digestOf (cng : Algorithm → Bytes → Bytes) (value : Algorithm) (m : Bytes) : Bytes :=
  (({ algorithm := value } : Hasher).update m).finish cng

open Hasher

theorem hashData_eq (bytes : Bytes) : ∀ hash : Bytes, Hasher.hashData hash bytes = hash ++ bytes := by
  induction hk : bytes.length using Nat.strongRecOn generalizing bytes with
  | ind n ih =>
    intro hash
    subst hk
    rw [hashData]
    split
    · next hnil => rw [hnil, append_nil]
    · next hnil =>
      have := length_pos_iff.2 hnil; rw [ih _ (by rw [length_drop]; omega) (bytes.drop _) rfl, append_assoc, take_append_drop]

theorem Hasher.update_update (h : Hasher) (a b : Bytes) : (h.update a).update b = h.update (a ++ b) := by
  by_cases hs : h.algorithm = .sha224
  · simp [update, hs, Sha224.update_update]
  · simp [update, hs, hashData_eq]

theorem length_digestOf {cng : Algorithm → Bytes → Bytes} (hc : Declared cng) (value : Algorithm) (m : Bytes) :
    (digestOf cng value m).length = digestSize value := by
  by_cases hs : value = .sha224
  · simp [digestOf, finish, update, hs, Sha224.length_finish, digestSize]
  · simp [digestOf, finish, update, hs, hc value]

/-! ## HMAC -/

theorem store_zeros {n : Nat} {source : Bytes} (h : source.length ≤ n) :
    store (List.replicate n 0) 0 source = some (source ++ List.replicate (n - source.length) 0) := by
  simp [store, h]

theorem paddedKey_eq {cng : Algorithm → Bytes → Bytes} (hc : Declared cng) (value : Algorithm) (key : Bytes) :
    paddedKey cng value key = some (Mac.blockKey (digestOf cng value) (blockSize value) key) := by
  have hdigest : (digestOf cng value key).length ≤ blockSize value := by
    rw [length_digestOf hc]; exact digestSize_le value
  rw [paddedKey, Mac.blockKey]
  split
  · exact store_zeros hdigest
  · split
    · exact store_zeros (by omega)
    · next hkey =>
      obtain rfl : key = [] := length_eq_zero_iff.1 (by omega); rfl

/-- **`hmacOf` is HMAC.** -/
theorem hmacOf_eq {cng : Algorithm → Bytes → Bytes} (hc : Declared cng) (value : Algorithm) (key bytes : Bytes) :
    hmacOf cng value key bytes = some (Mac.hmac (digestOf cng value) (blockSize value) key bytes) := by
  simp only [hmacOf, paddedKey_eq hc, bind_eq_bind, bind_some, update_update]; rfl

/-! ## PBKDF2 -/

theorem indexed_eq (salt : Bytes) (index : Nat) : indexed salt index = salt ++ bigEndian 4 index := by
  have hbytes := shiftRight_bytes index
  have h24 := hbytes 3
  have h16 := hbytes 2
  have h8 := hbytes 1
  have h0 := hbytes 0
  simp only [Nat.reduceMul, Nat.shiftRight_zero] at h24 h16 h8 h0
  rw [indexed, h24, h16, h8]; simp [bigEndian, range_succ]

theorem rounds_eq {cng : Algorithm → Bytes → Bytes} (hc : Declared cng) (value : Algorithm) (password salt : Bytes) (i : Nat) :
    ∀ (n j : Nat), rounds cng value password n (Mac.u (Mac.hmac (digestOf cng value) (blockSize value)) password salt i j)
      (Mac.xored (Mac.hmac (digestOf cng value) (blockSize value)) password salt i j) =
        some (Mac.xored (Mac.hmac (digestOf cng value) (blockSize value)) password salt i (j + n))
  | 0, j => rfl
  | n + 1, j => by
    rw [rounds, hmacOf_eq hc, bind_eq_bind, bind_some]
    exact (rounds_eq hc value password salt i n (j + 1)).trans (by rw [Nat.add_right_comm, Nat.add_assoc])

theorem length_flatMap_blocks {T : Nat → Bytes} {hLen : Nat} (hT : ∀ i, (T i).length = hLen) (n : Nat) :
    ((List.range n).flatMap (fun i => T (i + 1))).length = n * hLen := by
  rw [length_flatMap, map_congr_left (fun i _ => hT (i + 1)), map_const', sum_replicate, length_range,
    Nat.nsmul_eq_mul]

theorem flatMap_blocks {T : Nat → Bytes} {hLen dkLen : Nat} (hT : ∀ i, (T i).length = hLen) (hpos : 0 < hLen) (hdk : 0 < dkLen) :
    ((List.range ((dkLen + hLen - 1) / hLen)).flatMap (fun i => T (i + 1))).take dkLen =
      (List.range ((dkLen + hLen - 1) / hLen - 1)).flatMap (fun i => T (i + 1)) ++
        (T ((dkLen + hLen - 1) / hLen)).take (dkLen - ((dkLen + hLen - 1) / hLen - 1) * hLen) := by
  have hlength := length_flatMap_blocks hT
  obtain ⟨l, hl⟩ : ∃ l, (dkLen + hLen - 1) / hLen = l + 1 :=
    Nat.exists_eq_succ_of_ne_zero (Nat.div_pos (by omega) hpos).ne'
  have hle : l * hLen ≤ dkLen := by
    have := Nat.div_mul_le_self (dkLen + hLen - 1) hLen; rw [hl, Nat.succ_mul] at this; omega
  rw [hl, Nat.add_sub_cancel, range_succ, flatMap_append, take_append, hlength,
    take_of_length_le (by rw [hlength]; exact hle)]
  simp

theorem store_behind {done source : Bytes} {offset n : Nat} (hoff : done.length = offset) (h : source.length ≤ n) :
    store (done ++ List.replicate n 0) offset source = some (done ++ source ++ List.replicate (n - source.length) 0) := by
  subst hoff
  rw [store, if_pos (by rw [length_append, length_replicate]; omega), take_left, drop_append]
  simp

section

variable {cng : Algorithm → Bytes → Bytes} (hc : Declared cng) (value : Algorithm) (password salt : Bytes)
include hc

theorem block_eq (iterations i : Nat) :
    (do let u ← hmacOf cng value password (indexed salt i)
        rounds cng value password (iterations - 1) u u) =
      some (Mac.F (Mac.hmac (digestOf cng value) (blockSize value)) password salt iterations i) := by
  rw [hmacOf_eq hc, bind_eq_bind, bind_some, indexed_eq]
  have := rounds_eq hc value password salt i (iterations - 1) 0; rwa [Nat.zero_add] at this

/-- **The loop**: with the first `i` blocks in place, it puts the others behind them. -/
theorem deriveBlocks_eq (iterations keyLength i : Nat) {T : Nat → Bytes}
    (hT : T = Mac.F (Mac.hmac (digestOf cng value) (blockSize value)) password salt iterations)
    (hoff : i * digestSize value < keyLength + digestSize value) {result : Bytes}
    (hresult : result = ((List.range i).flatMap (fun j => T (j + 1))).take keyLength ++
      List.replicate (keyLength - i * digestSize value) 0) :
    deriveBlocks cng value password salt iterations keyLength result (i * digestSize value) (i + 1) =
      some (((List.range ((keyLength + digestSize value - 1) / digestSize value)).flatMap (fun j => T (j + 1))).take keyLength) := by
  have hpos := digestSize_pos value
  have hlen : ∀ j, (T j).length = digestSize value := by
    intro j
    rw [hT]
    exact Mac.length_F (fun P m => Mac.length_hmac (length_digestOf hc value) _ P m) iterations j
  induction hm : keyLength - i * digestSize value using Nat.strongRecOn generalizing i result with
  | ind m ih =>
    subst hm
    have hdone := length_flatMap_blocks hlen i
    rw [deriveBlocks]
    split
    · next hlt =>
      have hblock := block_eq hc value password salt iterations (i + 1)
      rw [← hT] at hblock
      have hstep : ∀ (k : Bytes → Option Bytes), (do
          let u ← hmacOf cng value password (indexed salt (i + 1))
          let t ← rounds cng value password (iterations - 1) u u
          k t) = k (T (i + 1)) := by
        intro k; rw [← bind_some (T (i + 1)) k, ← hblock]; simp only [bind_eq_bind, bind_assoc]
      have hsource : ((T (i + 1)).take (min (digestSize value) (keyLength - i * digestSize value))).length =
          min (digestSize value) (keyLength - i * digestSize value) := by
        rw [length_take, hlen]; omega
      rw [hstep, hresult, take_of_length_le (by omega), store_behind hdone (by rw [hsource]; omega), bind_eq_bind,
        bind_some, hsource, ← Nat.succ_mul]
      refine ih _ ?_ (i + 1) ?_ ?_ rfl
      · rw [Nat.succ_mul]; omega
      · rw [Nat.succ_mul]; omega
      · have hfirst : ((List.range i).flatMap (fun j => T (j + 1))).take keyLength = (List.range i).flatMap (fun j => T (j + 1)) :=
          take_of_length_le (by omega)
        have htake : ([i].flatMap (fun j => T (j + 1))).take (keyLength - i * digestSize value) =
            (T (i + 1)).take (min (digestSize value) (keyLength - i * digestSize value)) := by
          rw [flatMap_singleton, Nat.min_comm, ← take_take, take_of_length_le (i := digestSize value) (hlen _).le]
        have hzeros : keyLength - i * digestSize value - min (digestSize value) (keyLength - i * digestSize value) =
            keyLength - (i + 1) * digestSize value := by
          rw [Nat.succ_mul]; omega
        rw [range_succ, flatMap_append, take_append, hdone, hfirst, htake, hzeros]
    · next hge =>
      have hlast : (keyLength + digestSize value - 1) / digestSize value = i :=
        Nat.div_eq_of_lt_le (by omega) (by rw [Nat.succ_mul]; omega)
      rw [hlast, hresult, show keyLength - i * digestSize value = 0 by omega]
      simp

/-- **The loop is PBKDF2.** -/
theorem deriveBlocks_rfc (iterations : Nat) {keyLength : Nat} (hk : 1 ≤ keyLength) : ∃ result, result.length = keyLength ∧
    deriveBlocks cng value password salt iterations keyLength (List.replicate keyLength 0) 0 1 = some result ∧
    result = Mac.pbkdf2 (Mac.hmac (digestOf cng value) (blockSize value)) (digestSize value) password salt iterations keyLength := by
  have hpos := digestSize_pos value
  have hlen : ∀ i, (Mac.F (Mac.hmac (digestOf cng value) (blockSize value)) password salt iterations i).length =
      digestSize value :=
    fun i => Mac.length_F (fun P m => Mac.length_hmac (length_digestOf hc value) _ P m) iterations i
  have hzeros : List.replicate keyLength (0 : UInt8) = ((List.range 0).flatMap (fun j =>
        Mac.F (Mac.hmac (digestOf cng value) (blockSize value)) password salt iterations (j + 1))).take keyLength ++
      List.replicate (keyLength - 0 * digestSize value) 0 := by simp
  have hloop := deriveBlocks_eq hc value password salt iterations keyLength 0 rfl (by omega) hzeros
  rw [Nat.zero_mul] at hloop
  refine ⟨_, ?_, hloop, ?_⟩
  · have := Nat.lt_div_mul_add (a := keyLength + digestSize value - 1) hpos
    rw [length_take, length_flatMap_blocks hlen]; omega
  · rw [flatMap_blocks hlen hpos hk]; rfl

end

theorem integerBetween_eq_some (low n : Nat) (number : Option ℚ) :
    integerBetween low 2147483647 number = some n ↔ number = some (n : ℚ) ∧ low ≤ n ∧ n ≤ 2147483647 := by
  rcases number with _ | q
  · simp [integerBetween]
  · rw [integerBetween, some.injEq]
    split
    · next h =>
      refine iff_of_false (by simp) ?_
      rintro ⟨rfl, hlow, hhigh⟩
      rcases h with h | h | h
      · rw [Int.cast_natCast, Nat.cast_lt] at h; omega
      · have hlt : 2147483647 < n := by exact_mod_cast h
        omega
      · exact h (by simp)
    · next h =>
      simp only [not_or, not_lt, not_not] at h
      obtain ⟨hlow, hhigh, hfloor⟩ := h
      have hpos : 0 ≤ ⌊q⌋ := Int.floor_nonneg.2 (le_trans (by simp) hlow)
      obtain ⟨m, hm⟩ := Int.eq_ofNat_of_zero_le hpos
      obtain rfl : q = m := by rw [← hfloor, hm, Int.cast_natCast]
      rw [Int.floor_natCast, Int.toNat_natCast, some.injEq, Nat.cast_inj]
      have hlow' : low ≤ m := by exact_mod_cast hlow
      have hhigh' : m ≤ 2147483647 := by exact_mod_cast hhigh
      constructor
      · rintro rfl; exact ⟨rfl, hlow', hhigh'⟩
      · exact fun h => h.1

theorem pbkdf2_valid {cng : Algorithm → Bytes → Bytes} (hc : Declared cng)
    (derive : Algorithm → Bytes → Bytes → Nat → Nat → Option Bytes) (password salt name : Bytes)
    (iterations keyLength : Option ℚ) (i k : Nat) (method : Algorithm) (hi : integerBetween 1 2147483647 iterations = some i)
    (hk : integerBetween 0 2147483647 keyLength = some k) (hm : algorithm (name.map lowerByte) = some method) (hpos : 1 ≤ k) :
    pbkdf2 cng derive password salt iterations keyLength name =
      .ok (some ((if method ≠ .sha224 ∧ method ≠ .md5 then derive method password salt i k else none).getD
        (Mac.pbkdf2 (Mac.hmac (digestOf cng method) (blockSize method)) (digestSize method) password salt i k))) := by
  obtain ⟨_, -, hloop, rfl⟩ := deriveBlocks_rfc hc method password salt i hpos
  rw [pbkdf2, hi, hk, hm]
  dsimp only
  rw [if_neg (by omega)]
  generalize (if method ≠ .sha224 ∧ method ≠ .md5 then derive method password salt i k else none) = derived
  cases derived with
  | none => rw [hloop]; rfl
  | some key => rfl

/-- **`pbkdf2` answers with the key of the RFC**, or with what CNG derives, and does so exactly for integers in range and a
digest that is known. -/
theorem pbkdf2_ok_iff {cng : Algorithm → Bytes → Bytes} (hc : Declared cng)
    (derive : Algorithm → Bytes → Bytes → Nat → Nat → Option Bytes) (password salt name : Bytes)
    (iterations keyLength : Option ℚ) (result : Option Bytes) :
    pbkdf2 cng derive password salt iterations keyLength name = .ok result ↔
      ∃ (i k : Nat) (method : Algorithm), iterations = some (i : ℚ) ∧ 1 ≤ i ∧ i ≤ 2147483647 ∧ keyLength = some (k : ℚ) ∧
        1 ≤ k ∧ k ≤ 2147483647 ∧ algorithm (name.map lowerByte) = some method ∧
        result = some ((if method ≠ .sha224 ∧ method ≠ .md5 then derive method password salt i k else none).getD
          (Mac.pbkdf2 (Mac.hmac (digestOf cng method) (blockSize method)) (digestSize method) password salt i k)) := by
  have hone (i : Nat) := integerBetween_eq_some 1 i iterations
  have hzero (k : Nat) := integerBetween_eq_some 0 k keyLength
  rw [Nat.cast_one] at hone
  rw [Nat.cast_zero] at hzero
  have hvalid := pbkdf2_valid hc derive password salt name iterations keyLength
  constructor
  · intro h
    cases hi : integerBetween 1 2147483647 iterations with
    | none => rw [pbkdf2, hi] at h; cases h
    | some i =>
      cases hk : integerBetween 0 2147483647 keyLength with
      | none => rw [pbkdf2, hi, hk] at h; cases h
      | some k =>
        cases hm : algorithm (name.map lowerByte) with
        | none => rw [pbkdf2, hi, hk, hm] at h; cases h
        | some method =>
          obtain ⟨rfl, hi1, hi2⟩ := (hone i).1 hi
          obtain ⟨rfl, -, hk2⟩ := (hzero k).1 hk
          rcases Nat.eq_zero_or_pos k with rfl | hpos
          · rw [pbkdf2, hi, hk, hm] at h; cases h
          · rw [hvalid i k method hi hk hm hpos] at h; cases h; exact ⟨i, k, method, rfl, hi1, hi2, rfl, hpos, hk2, rfl, rfl⟩
  · rintro ⟨i, k, method, hi, hi1, hi2, hk, hk1, hk2, hm, rfl⟩
    exact hvalid i k method ((hone i).2 ⟨hi, hi1, hi2⟩) ((hzero k).2 ⟨hk, k.zero_le, hk2⟩) hm hk1

/-- **HMAC and PBKDF2**: both are what the RFCs say, for all lengths, and no write is past the end of its buffer. -/
theorem hmac_pbkdf2 {cng : Algorithm → Bytes → Bytes} (hc : Declared cng) (value : Algorithm) :
    (∀ key bytes, hmacOf cng value key bytes = some (Mac.hmac (digestOf cng value) (blockSize value) key bytes)) ∧
      ∀ password salt iterations keyLength, 1 ≤ iterations → 1 ≤ keyLength → keyLength ≤ 2 ^ 31 - 1 →
        ∃ result, result.length = keyLength ∧
          deriveBlocks cng value password salt iterations keyLength (List.replicate keyLength 0) 0 1 = some result ∧
          result = Mac.pbkdf2 (Mac.hmac (digestOf cng value) (blockSize value)) (digestSize value) password salt iterations
            keyLength :=
  ⟨hmacOf_eq hc value, fun password salt iterations _ _ hk _ => deriveBlocks_rfc hc value password salt iterations hk⟩

/-- MD5 on what is hashed for an empty key: nothing, or the index of the first block, behind the inner pad, and the digests
of these behind the outer pad. -/
def emptyKeyMd5 (value : Algorithm) (m : Bytes) : Bytes :=
  let inner : Bytes := [0xc5, 0x73, 0x8f, 0xfb, 0xaa, 0x1f, 0xf9, 0xd6, 0x2e, 0x68, 0x88, 0x41, 0xe8, 0x9e, 0x60, 0x8e]
  let indexedInner : Bytes := [0x85, 0x98, 0x36, 0xee, 0x8d, 0x97, 0xf7, 0xe2, 0x20, 0xec, 0xf5, 0xc8, 0x01, 0x64, 0xd7, 0xe8]
  let digest : Bytes :=
    if m = List.replicate 64 0x36 then inner
    else if m = List.replicate 64 0x5c ++ inner then [0x74, 0xe6, 0xf7, 0x29, 0x8a, 0x9c, 0x2d, 0x16, 0x89, 0x35, 0xf5, 0x8c, 0x00, 0x1b, 0xad, 0x88]
    else if m = List.replicate 64 0x36 ++ [0, 0, 0, 1] then indexedInner
    else if m = List.replicate 64 0x5c ++ indexedInner then [0x9c, 0x62, 0x7e, 0xf8, 0xf3, 0x72, 0x3c, 0x91, 0x4c, 0x7b, 0xf2, 0x5e, 0x23, 0x44, 0xa8, 0xed]
    else List.replicate 16 0
  digest.take (digestSize value) ++ List.replicate (digestSize value - 16) 0

theorem declared_emptyKeyMd5 : Declared emptyKeyMd5 := by
  intro value m
  have hdigest : 16 ≤ digestSize value := by cases value <;> decide
  unfold emptyKeyMd5
  simp only [apply_ite List.length, length_append, length_take, length_replicate, length_cons, length_nil,
    ite_self]
  omega

/-- The authentication code of the empty message, and a key of four bytes, with an empty key. -/
theorem hmac_pbkdf2_md5 : hmacOf emptyKeyMd5 .md5 [] [] = some [0x74, 0xe6, 0xf7, 0x29, 0x8a, 0x9c, 0x2d, 0x16, 0x89, 0x35, 0xf5, 0x8c, 0x00, 0x1b, 0xad, 0x88] ∧
    deriveBlocks emptyKeyMd5 .md5 [] [] 1 4 (List.replicate 4 0) 0 1 = some [0x9c, 0x62, 0x7e, 0xf8] := by
  obtain ⟨hmac, hderive⟩ := hmac_pbkdf2 declared_emptyKeyMd5 .md5
  obtain ⟨result, -, hloop, hresult⟩ := hderive [] [] 1 4 (by decide) (by decide) (by decide)
  rw [hmac, hloop.trans (congrArg some hresult)]
  decide +kernel

theorem pbkdf2_ok_iff_md5 : pbkdf2 emptyKeyMd5 (fun _ _ _ _ _ => none) [] [] (some 1) (some 4) (text "MD5") =
    .ok (some [0x9c, 0x62, 0x7e, 0xf8]) :=
  (pbkdf2_ok_iff declared_emptyKeyMd5 _ [] [] _ _ _ _).2 ⟨1, 4, .md5, by simp, by decide, by decide, by simp, by decide,
    by decide, by decide, by decide +kernel⟩

end NodeCompat.Crypto
