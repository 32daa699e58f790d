import NodeCompat.Bytes
import NodeCompat.Lib.Sha2
import Mathlib.Data.List.GetD

/-!
# `Sha224`

The hash that CNG does not offer: a chaining value, the length so far, and a buffer of less than a block, which `update` fills
and compresses. `finish` pads through `update`. Whatever the message was cut into, it is the digest of FIPS 180-4
(`finish_update`).

`length_` is a 64-bit counter; bytes behind `used_` in `buffer_` are never read, so the buffer is the bytes before it.
-/

namespace NodeCompat.Crypto

open List Sha2

/-- The round constants. -/
def k : List UInt32 :=
  [0x428a2f98, 0x71374491, 0xb5c0fbcf, 0xe9b5dba5, 0x3956c25b, 0x59f111f1, 0x923f82a4, 0xab1c5ed5, 0xd807aa98, 0x12835b01,
   0x243185be, 0x550c7dc3, 0x72be5d74, 0x80deb1fe, 0x9bdc06a7, 0xc19bf174, 0xe49b69c1, 0xefbe4786, 0x0fc19dc6, 0x240ca1cc,
   0x2de92c6f, 0x4a7484aa, 0x5cb0a9dc, 0x76f988da, 0x983e5152, 0xa831c66d, 0xb00327c8, 0xbf597fc7, 0xc6e00bf3, 0xd5a79147,
   0x06ca6351, 0x14292967, 0x27b70a85, 0x2e1b2138, 0x4d2c6dfc, 0x53380d13, 0x650a7354, 0x766a0abb, 0x81c2c92e, 0x92722c85,
   0xa2bfe8a1, 0xa81a664b, 0xc24b8b70, 0xc76c51a3, 0xd192e819, 0xd6990624, 0xf40e3585, 0x106aa070, 0x19a4c116, 0x1e376c08,
   0x2748774c, 0x34b0bcb5, 0x391c0cb3, 0x4ed8aa4a, 0x5b9cca4f, 0x682e6ff3, 0x748f82ee, 0x78a5636f, 0x84c87814, 0x8cc70208,
   0x90befffa, 0xa4506ceb, 0xbef9a3f7, 0xc67178f2]

def rotate (value count : UInt32) : UInt32 := (value >>> count) ||| (value <<< (32 - count))

/-- `state_`, and the working variables. -/
structure Chain where
  a : UInt32 := 0xc1059ed8
  b : UInt32 := 0x367cd507
  c : UInt32 := 0x3070dd17
  d : UInt32 := 0xf70e5939
  e : UInt32 := 0xffc00b31
  f : UInt32 := 0x68581511
  g : UInt32 := 0x64f98fa7
  h : UInt32 := 0xbefa4fa4
deriving DecidableEq

/-- A word of the block. -/
def loadWord (block : Bytes) (index : Nat) : UInt32 :=
  (block.getD (index * 4) 0).toUInt32 <<< 24 ||| (block.getD (index * 4 + 1) 0).toUInt32 <<< 16 |||
    (block.getD (index * 4 + 2) 0).toUInt32 <<< 8 ||| (block.getD (index * 4 + 3) 0).toUInt32

/-- `w[index]`, from the words before it. -/
def nextWord (w : List UInt32) (index : Nat) : UInt32 :=
  let w15 := w.getD (index - 15) 0
  let w2 := w.getD (index - 2) 0
  let s0 := rotate w15 7 ^^^ rotate w15 18 ^^^ (w15 >>> 3)
  let s1 := rotate w2 17 ^^^ rotate w2 19 ^^^ (w2 >>> 10)
  w.getD (index - 16) 0 + s0 + w.getD (index - 7) 0 + s1

/-- `w`, after the first `n` rounds of its second loop. -/
def expanded (block : Bytes) (n : Nat) : List UInt32 :=
  (List.range n).foldl (fun w j => w ++ [nextWord w (16 + j)]) ((List.range 16).map (loadWord block))

def Chain.round (s : Chain) (k w : UInt32) : Chain :=
  let t1 := s.h + (rotate s.e 6 ^^^ rotate s.e 11 ^^^ rotate s.e 25) + ((s.e &&& s.f) ^^^ (~~~s.e &&& s.g)) + k + w
  let t2 := (rotate s.a 2 ^^^ rotate s.a 13 ^^^ rotate s.a 22) + ((s.a &&& s.b) ^^^ (s.a &&& s.c) ^^^ (s.b &&& s.c))
  { h := s.g, g := s.f, f := s.e, e := s.d + t1, d := s.c, c := s.b, b := s.a, a := t1 + t2 }

def compress (state : Chain) (block : Bytes) : Chain :=
  let w := expanded block 48
  let t := (List.range 64).foldl (fun s index => s.round (k.getD index 0) (w.getD index 0)) state
  { a := state.a + t.a, b := state.b + t.b, c := state.c + t.c, d := state.d + t.d, e := state.e + t.e, f := state.f + t.f,
    g := state.g + t.g, h := state.h + t.h }

structure Sha224 where
  state : Chain := {}
  length : UInt64 := 0
  buffer : Bytes := []
  used_lt : buffer.length < 64 := by decide

namespace Sha224

/-- The bytes that are copied have filled the buffer, or not. -/
def filled (h : Sha224) (buffer : Bytes) (hle : buffer.length ≤ 64) : Sha224 :=
  if hfull : buffer.length = 64 then { h with state := compress h.state buffer, buffer := [], used_lt := by decide }
  else { h with buffer, used_lt := by omega }

/-- The loop of `update`. -/
def absorb (h : Sha224) (bytes : Bytes) : Sha224 :=
  if hnil : bytes = [] then h
  else
    let take := min bytes.length (64 - h.buffer.length)
    have hle : (h.buffer ++ bytes.take take).length ≤ 64 := by
      have := h.used_lt
      rw [length_append, length_take]
      omega
    absorb (h.filled (h.buffer ++ bytes.take take) hle) (bytes.drop take)
termination_by bytes.length
decreasing_by
  have := h.used_lt
  have := length_pos_iff.2 hnil
  rw [length_drop]
  omega

def update (h : Sha224) (bytes : Bytes) : Sha224 := { h with length := h.length + UInt64.ofNat bytes.length }.absorb bytes

/-! ## What `update` leaves -/

theorem eq_of {g h : Sha224} (hs : g.state = h.state) (hl : g.length = h.length) (hb : g.buffer = h.buffer) : g = h := by
  cases g
  cases h
  cases hs
  cases hl
  cases hb; rfl

theorem absorb_round (h : Sha224) {bytes : Bytes} (hnil : bytes ≠ []) : ∃ (take : Nat)
    (hle : (h.buffer ++ bytes.take take).length ≤ 64), 0 < take ∧
      h.absorb bytes = (h.filled (h.buffer ++ bytes.take take) hle).absorb (bytes.drop take) := by
  have hlt := h.used_lt
  have hpos := length_pos_iff.2 hnil
  refine ⟨min bytes.length (64 - h.buffer.length), ?_, by omega, ?_⟩
  · rw [length_append, length_take]; omega
  · rw [absorb, dif_neg hnil]

theorem absorb_spec (h : Sha224) (bytes : Bytes) :
    (h.absorb bytes).state = (blocks 64 (h.buffer ++ bytes)).foldl compress h.state ∧
      (h.absorb bytes).buffer = leftover 64 (h.buffer ++ bytes) ∧ (h.absorb bytes).length = h.length := by
  induction hk : bytes.length using Nat.strongRecOn generalizing h bytes with
  | ind m ih =>
    subst hk
    by_cases hnil : bytes = []
    · rw [absorb, dif_pos hnil, hnil, append_nil, blocks_short h.used_lt, leftover_short h.used_lt]; exact ⟨rfl, rfl, rfl⟩
    · have hpos := length_pos_iff.2 hnil
      obtain ⟨take, hle, htake, hround⟩ := h.absorb_round hnil
      have hsplit : h.buffer ++ bytes = (h.buffer ++ bytes.take take) ++ bytes.drop take := by
        rw [append_assoc, take_append_drop]
      obtain ⟨hs, hb, hl⟩ := ih (bytes.drop take).length (by rw [length_drop]; omega)
        (h.filled (h.buffer ++ bytes.take take) hle) (bytes.drop take) rfl
      rw [hround, hs, hb, hl, hsplit, filled]
      split
      · next hfull =>
        rw [blocks_block (by decide) hfull, leftover_block (by decide) hfull]; exact ⟨rfl, rfl, rfl⟩
      · exact ⟨rfl, rfl, rfl⟩

theorem update_spec (h : Sha224) (bytes : Bytes) :
    (h.update bytes).state = (blocks 64 (h.buffer ++ bytes)).foldl compress h.state ∧
      (h.update bytes).buffer = leftover 64 (h.buffer ++ bytes) ∧
      (h.update bytes).length = h.length + UInt64.ofNat bytes.length :=
  absorb_spec { h with length := h.length + UInt64.ofNat bytes.length } bytes

theorem update_nil (h : Sha224) : h.update [] = h := by
  obtain ⟨hs, hb, hl⟩ := h.update_spec []
  rw [append_nil] at hs hb
  refine eq_of ?_ ?_ ?_
  · rw [hs, blocks_short h.used_lt]; rfl
  · rw [hl]; exact UInt64.add_zero _
  · rw [hb, leftover_short h.used_lt]

/-- **Two updates are one.** -/
theorem update_update (h : Sha224) (a b : Bytes) : (h.update a).update b = h.update (a ++ b) := by
  obtain ⟨hs, hb, hl⟩ := h.update_spec a
  obtain ⟨hs₂, hb₂, hl₂⟩ := (h.update a).update_spec b
  obtain ⟨hs₁, hb₁, hl₁⟩ := h.update_spec (a ++ b)
  obtain ⟨hblocks, hrest⟩ := blocks_append (n := 64) (by decide) (h.buffer ++ a) b
  rw [append_assoc] at hblocks hrest
  refine eq_of ?_ ?_ ?_
  · rw [hs₂, hs₁, hs, hb, hblocks, foldl_append]
  · rw [hl₂, hl₁, hl, length_append, UInt64.ofNat_add, UInt64.add_assoc]
  · rw [hb₂, hb₁, hb, hrest]

theorem foldl_update (chunks : List Bytes) : ∀ (h : Sha224), chunks.foldl update h = h.update chunks.flatten := by
  induction chunks with
  | nil => exact fun h => (update_nil h).symm
  | cons c chunks ih => intro h; rw [foldl_cons, ih, update_update, flatten_cons]

theorem used_update (h : Sha224) (bytes : Bytes) :
    (h.update bytes).buffer.length = (h.buffer.length + bytes.length) % 64 := by
  rw [(h.update_spec bytes).2.1, length_leftover (by decide), length_append]

/-! ## Finishing -/

/-- `while (used_ != 56) update(&zero, 1)` -/
def padZeros (h : Sha224) : Sha224 := if h.buffer.length = 56 then h else padZeros (h.update [0])
termination_by (120 - h.buffer.length) % 64
decreasing_by
  have := h.used_lt
  rw [used_update, length_singleton]
  omega

/-- The bytes of a word. -/
def storeWord (word : UInt32) : Bytes := (List.range 4).map (fun index => (word >>> UInt32.ofNat (24 - 8 * index)).toUInt8)

def finish (h : Sha224) : Bytes :=
  let bits := h.length * 8
  let tail := (List.range 8).map (fun index => (bits >>> UInt64.ofNat (56 - 8 * index)).toUInt8)
  let s := (((h.update [0x80]).padZeros).update tail).state
  [s.a, s.b, s.c, s.d, s.e, s.f, s.g].flatMap storeWord

theorem padZeros_eq (h : Sha224) : h.padZeros = h.update (List.replicate ((120 - h.buffer.length) % 64) 0) := by
  induction hk : (120 - h.buffer.length) % 64 generalizing h with
  | zero =>
    have := h.used_lt; rw [padZeros, if_pos (by omega)]; exact (update_nil h).symm
  | succ m ih =>
    have hlt := h.used_lt
    have hused := h.used_update [0]
    rw [length_singleton] at hused
    rw [padZeros, if_neg (by omega), ih (h.update [0]) (by omega), update_update]; rfl

end Sha224

/-! ## The compression is the standard's -/

def Chain.toHash (s : Chain) : Sha2.Hash := ⟨s.a, s.b, s.c, s.d, s.e, s.f, s.g, s.h⟩

theorem toHash_round (s : Chain) (k w : UInt32) : (s.round k w).toHash = s.toHash.round k w := rfl

theorem k_eq : k = Sha2.primes.map Sha2.constant := by decide +kernel

theorem initial_eq : ({} : Chain).toHash = Sha2.initial := by decide +kernel

theorem loadWord_eq {block : Bytes} (h : block.length = 64) {t : Nat} (ht : t < 16) : loadWord block t = Sha2.blockWord block t := by
  have hcut : (block.drop (4 * t)).take 4 =
      [block.getD (t * 4) 0, block.getD (t * 4 + 1) 0, block.getD (t * 4 + 2) 0, block.getD (t * 4 + 3) 0] := by
    apply ext_getElem
    · simp only [length_take, length_drop, length_cons, length_nil]; omega
    · intro i h₁ h₂
      simp only [length_cons, length_nil] at h₂
      have hget : ((block.drop (4 * t)).take 4)[i] = block.getD (t * 4 + i) 0 := by
        rw [getElem_take, getElem_drop, getD_eq_getElem _ _ (by omega)]; simp only [Nat.mul_comm]
      rw [hget]
      match i, h₂ with
      | 0, _ | 1, _ | 2, _ | 3, _ => rfl
  rw [loadWord, word_of_bytes, blockWord, hcut]

theorem expanded_eq {block : Bytes} (h : block.length = 64) (n : Nat) :
    expanded block n = (List.range (16 + n)).map (Sha2.schedule block) := by
  induction n with
  | zero =>
    refine map_congr_left fun t ht => ?_
    have ht := mem_range.1 ht; rw [loadWord_eq h ht, schedule, if_pos ht]
  | succ n ih =>
    have hget : ∀ d, 0 < d → d ≤ 16 → (expanded block n).getD (16 + n - d) 0 = schedule block (16 + n - d) := by
      intro d hpos hle; rw [ih, getD_eq_getElem _ _ (by rw [length_map, length_range]; omega), getElem_map, getElem_range]
    have hnext : nextWord (expanded block n) (16 + n) = schedule block (16 + n) := by
      rw [nextWord, schedule, if_neg (by omega), hget 15 (by decide) (by decide), hget 2 (by decide) (by decide),
        hget 16 (by decide) (by decide), hget 7 (by decide) (by decide)]
      show _ + smallSigma₀ _ + _ + smallSigma₁ _ = _
      ac_rfl
    have hsnoc : expanded block (n + 1) = expanded block n ++ [nextWord (expanded block n) (16 + n)] := by
      rw [expanded, range_succ (n := n), foldl_append]; rfl
    rw [hsnoc, hnext, ih, ← Nat.add_assoc, range_succ, map_append]; rfl

theorem toHash_compress (s : Chain) {block : Bytes} (h : block.length = 64) :
    (compress s block).toHash = Sha2.compress s.toHash block := by
  have hrounds : ∀ (l : List Nat) (s : Chain), (∀ t ∈ l, t < 64) →
      (l.foldl (fun s t => s.round (k.getD t 0) ((expanded block 48).getD t 0)) s).toHash =
        l.foldl (fun s t => s.round (constant (primes.getD t 0)) (schedule block t)) s.toHash := by
    intro l
    induction l with
    | nil => exact fun s _ => rfl
    | cons t l ih =>
      intro s hl
      have ht := hl t (by simp)
      have hk : k.getD t 0 = constant (primes.getD t 0) := by
        have hlen := length_primes
        rw [k_eq, getD_eq_getElem _ _ (by rw [length_map]; omega), getElem_map, getD_eq_getElem _ _ (by omega)]
      have hw : (expanded block 48).getD t 0 = schedule block t := by
        rw [expanded_eq h, getD_eq_getElem _ _ (by rw [length_map, length_range]; omega), getElem_map,
          getElem_range]
      rw [foldl_cons, foldl_cons, hk, hw, ih _ (fun t ht => hl t (by simp [ht])), toHash_round]
  exact congrArg s.toHash.add (hrounds (List.range 64) s fun t ht => mem_range.1 ht)

theorem toHash_foldl : ∀ {bs : List Bytes} (s : Chain), (∀ b ∈ bs, b.length = 64) →
    (bs.foldl compress s).toHash = bs.foldl Sha2.compress s.toHash
  | [], _, _ => rfl
  | b :: bs, s, h => by
    rw [foldl_cons, foldl_cons, toHash_foldl _ (fun c hc => h c (by simp [hc])), toHash_compress s (h b (by simp))]

namespace Sha224

/-! ## The digest -/

theorem storeWord_eq (w : UInt32) : storeWord w = bigEndian 4 w.toNat := by
  refine map_congr_left fun i hi => ?_
  have hi := mem_range.1 hi
  rw [show 24 - 8 * i = 8 * (4 - 1 - i) by omega, UInt32.toUInt8, UInt32.toNat_shiftRight, UInt32.toNat_ofNat',
    Nat.mod_eq_of_lt (a := 8 * (4 - 1 - i)) (by omega), Nat.mod_eq_of_lt (a := 8 * (4 - 1 - i)) (by omega), shiftRight_bytes]

theorem tail_eq {length : Nat} (h : length < 2 ^ 61) :
    (List.range 8).map (fun index => ((UInt64.ofNat length * 8) >>> UInt64.ofNat (56 - 8 * index)).toUInt8) =
      bigEndian 8 (8 * length) := by
  refine map_congr_left fun i hi => ?_
  have hi := mem_range.1 hi
  have hbits : (UInt64.ofNat length * 8).toNat = 8 * length := by
    rw [UInt64.toNat_mul, UInt64.toNat_ofNat', Nat.mod_eq_of_lt (a := length) (by omega)]
    show length * 8 % 2 ^ 64 = 8 * length; omega
  rw [show 56 - 8 * i = 8 * (8 - 1 - i) by omega, UInt64.toUInt8, UInt64.toNat_shiftRight, hbits, UInt64.toNat_ofNat',
    Nat.mod_eq_of_lt (a := 8 * (8 - 1 - i)) (by omega), Nat.mod_eq_of_lt (a := 8 * (8 - 1 - i)) (by omega), shiftRight_bytes]

theorem padded_eq {message : Bytes} (h : message.length < 2 ^ 61) :
    ((({} : Sha224).update message).update [0x80]).padZeros.update
      ((List.range 8).map (fun index => (((({} : Sha224).update message).length * 8) >>> UInt64.ofNat (56 - 8 * index)).toUInt8)) =
      ({} : Sha224).update (Sha2.pad message) := by
  have hlength : (({} : Sha224).update message).length = UInt64.ofNat message.length := by
    rw [(update_spec _ _).2.2]; exact UInt64.zero_add _
  have hzeros : (120 - (({} : Sha224).update (message ++ [0x80])).buffer.length) % 64 = zeros message.length := by
    rw [used_update, length_append, length_singleton, zeros]
    show (120 - (0 + (message.length + 1)) % 64) % 64 = (119 - message.length % 64) % 64; omega
  rw [hlength, tail_eq h, update_update, padZeros_eq, hzeros, update_update, update_update, ← append_assoc, pad]

/-- **`Sha224` is SHA-224**, whatever the message was cut into. -/
theorem finish_update (chunks : List Bytes) (h : chunks.flatten.length < 2 ^ 61) :
    (chunks.foldl update {}).finish = Sha2.sha224 chunks.flatten := by
  have hblocks : ∀ b ∈ blocks 64 (pad chunks.flatten), b.length = 64 := fun b hb => length_of_mem_blocks hb
  have hstate := toHash_foldl {} hblocks
  rw [initial_eq] at hstate
  have hwords : ∀ s : Chain, [s.a, s.b, s.c, s.d, s.e, s.f, s.g] = s.toHash.words.take 7 := fun s => rfl
  have hstore : storeWord = fun w => bigEndian 4 w.toNat := funext storeWord_eq
  rw [foldl_update, finish, padded_eq h, (update_spec _ _).1, nil_append, hwords, hstate, hstore]
  rfl

theorem length_finish (h : Sha224) : h.finish.length = 28 := by
  simp [finish, storeWord]

/-- A message that leaves no room for its length in the last block, in two pieces and an empty one. -/
theorem finish_update_pieces : ([List.replicate 40 97, [], List.replicate 16 97].foldl update {}).finish =
    Sha2.sha224 [List.replicate 40 97, [], List.replicate 16 97].flatten :=
  finish_update _ (by decide)

example : (({} : Sha224).update (text "abc")).finish =
    [0x23, 0x09, 0x7d, 0x22, 0x34, 0x05, 0xd8, 0x22, 0x86, 0x42, 0xa4, 0x77, 0xbd, 0xa2, 0x55, 0xb3, 0x2a, 0xad, 0xbc, 0xe4, 0xbd,
      0xa0, 0xb3, 0xf7, 0xe3, 0x6c, 0x9d, 0xa7] := by decide +kernel

end Sha224

end NodeCompat.Crypto
