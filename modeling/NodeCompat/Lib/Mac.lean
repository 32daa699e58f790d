import NodeCompat.Lib.BigEndian

/-!
# HMAC and PBKDF2

HMAC over a hash function with blocks of `B` bytes, as RFC 2104 has it, and PBKDF2 over a pseudorandom function with values of
`hLen` bytes, as RFC 8018 has it.
-/

namespace NodeCompat.Mac

abbrev Octets := List UInt8

/-! ## HMAC -/

/-- The key as one block: hashed when it is longer, and filled up with zeros. -/
def blockKey (hash : Octets → Octets) (B : Nat) (key : Octets) : Octets :=
  let key := if B < key.length then hash key else key
  key ++ List.replicate (B - key.length) 0

def ipad (block : Octets) : Octets := block.map (· ^^^ 0x36)
def opad (block : Octets) : Octets := block.map (· ^^^ 0x5c)

def hmac (hash : Octets → Octets) (B : Nat) (key message : Octets) : Octets :=
  hash (opad (blockKey hash B key) ++ hash (ipad (blockKey hash B key) ++ message))

/-! ## PBKDF2 -/

variable (prf : Octets → Octets → Octets) (hLen : Nat) (P S : Octets)

/-- `U_{j+1}` of block `i`. -/
def u (i : Nat) : Nat → Octets
  | 0 => prf P (S ++ bigEndian 4 i)
  | j + 1 => prf P (u i j)

/-- `U_1 ⊕ ... ⊕ U_{j+1}`. -/
def xored (i : Nat) : Nat → Octets
  | 0 => u prf P S i 0
  | j + 1 => List.zipWith (· ^^^ ·) (xored i j) (u prf P S i (j + 1))

/-- `T_i` -/
def F (c i : Nat) : Octets := xored prf P S i (c - 1)

def pbkdf2 (c dkLen : Nat) : Octets :=
  let l := (dkLen + hLen - 1) / hLen
  let r := dkLen - (l - 1) * hLen
  (List.range (l - 1)).flatMap (fun i => F prf P S c (i + 1)) ++ (F prf P S c l).take r

variable {prf hLen P S}

theorem length_u (h : ∀ P m, (prf P m).length = hLen) (i : Nat) : ∀ j, (u prf P S i j).length = hLen
  | 0 => h _ _
  | _ + 1 => h _ _

theorem length_F (h : ∀ P m, (prf P m).length = hLen) (c i : Nat) : (F prf P S c i).length = hLen := by
  have hxored : ∀ j, (xored prf P S i j).length = hLen := by
    intro j
    induction j with
    | zero => exact length_u h i 0
    | succ j ih => rw [xored, List.length_zipWith, ih, length_u h, Nat.min_self]
  exact hxored (c - 1)

theorem length_hmac {hash : Octets → Octets} {n : Nat} (h : ∀ m, (hash m).length = n) (B : Nat) (key message : Octets) :
    (hmac hash B key message).length = n := h _

end NodeCompat.Mac
