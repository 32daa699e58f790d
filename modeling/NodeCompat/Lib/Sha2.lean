import NodeCompat.Lib.BigEndian
import NodeCompat.Lib.Blocks
import Mathlib.Data.Nat.NthRoot.Defs

/-!
# SHA-224 as FIPS 180-4 defines it

The functions, the constants (the first 32 bits of the fractions of the cube roots of the first 64 primes, and the second 32
bits of those of the square roots of the ninth to sixteenth), the padding and the digest, for messages of whole bytes. There
is nothing of an implementation here: the message is there at once, and the schedule is a recursion.
-/

namespace NodeCompat.Sha2

abbrev Word := UInt32

/-! ## Functions -/

def rotr (n x : Word) : Word := (x >>> n) ||| (x <<< (32 - n))

def ch (x y z : Word) : Word := (x &&& y) ^^^ (~~~x &&& z)
def maj (x y z : Word) : Word := (x &&& y) ^^^ (x &&& z) ^^^ (y &&& z)
def bigSigma₀ (x : Word) : Word := rotr 2 x ^^^ rotr 13 x ^^^ rotr 22 x
def bigSigma₁ (x : Word) : Word := rotr 6 x ^^^ rotr 11 x ^^^ rotr 25 x
def smallSigma₀ (x : Word) : Word := rotr 7 x ^^^ rotr 18 x ^^^ (x >>> 3)
def smallSigma₁ (x : Word) : Word := rotr 17 x ^^^ rotr 19 x ^^^ (x >>> 10)

/-! ## Constants -/

/-- The first 64 primes: a number below 312 that is none has a divisor below 18. -/
def primes : List Nat :=
  (List.range 312).filter (fun p => 2 ≤ p && (List.range 18).all (fun d => d < 2 || p ≤ d || p % d != 0))

def constant (p : Nat) : Word := UInt32.ofNat (Nat.nthRoot 3 (p * 2 ^ 96))

def initialWord (p : Nat) : Word := UInt32.ofNat (Nat.nthRoot 2 (p * 2 ^ 128))

/-! ## The hash computation -/

/-- The working variables, and a hash value. -/
structure Hash where
  a : Word
  b : Word
  c : Word
  d : Word
  e : Word
  f : Word
  g : Word
  h : Word
deriving DecidableEq

namespace Hash

def words (s : Hash) : List Word := [s.a, s.b, s.c, s.d, s.e, s.f, s.g, s.h]

def add (s t : Hash) : Hash :=
  ⟨s.a + t.a, s.b + t.b, s.c + t.c, s.d + t.d, s.e + t.e, s.f + t.f, s.g + t.g, s.h + t.h⟩

/-- A round. -/
def round (s : Hash) (k w : Word) : Hash :=
  let t₁ := s.h + bigSigma₁ s.e + ch s.e s.f s.g + k + w
  let t₂ := bigSigma₀ s.a + maj s.a s.b s.c
  { h := s.g, g := s.f, f := s.e, e := s.d + t₁, d := s.c, c := s.b, b := s.a, a := t₁ + t₂ }

end Hash

def initial : Hash where
  a := initialWord 23
  b := initialWord 29
  c := initialWord 31
  d := initialWord 37
  e := initialWord 41
  f := initialWord 43
  g := initialWord 47
  h := initialWord 53

/-- The words of a block. -/
def blockWord (block : List UInt8) (t : Nat) : Word := UInt32.ofNat (ofBigEndian ((block.drop (4 * t)).take 4))

/-- The message schedule. -/
def schedule (block : List UInt8) (t : Nat) : Word :=
  if t < 16 then blockWord block t
  else
    smallSigma₁ (schedule block (t - 2)) + schedule block (t - 7) + smallSigma₀ (schedule block (t - 15)) + schedule block (t - 16)

/-- The next hash value. -/
def compress (s : Hash) (block : List UInt8) : Hash :=
  s.add ((List.range 64).foldl (fun s t => s.round (constant (primes.getD t 0)) (schedule block t)) s)

/-- The zero bytes between the end of the message, with the byte that marks it, and the length. -/
def zeros (length : Nat) : Nat := (119 - length % 64) % 64

def pad (message : List UInt8) : List UInt8 :=
  message ++ [0x80] ++ List.replicate (zeros message.length) 0 ++ bigEndian 8 (8 * message.length)

/-- **The digest.** -/
def sha224 (message : List UInt8) : List UInt8 :=
  (((blocks 64 (pad message)).foldl compress initial).words.take 7).flatMap (fun w => bigEndian 4 w.toNat)

/-! ## The constants -/

theorem length_primes : primes.length = 64 := by decide +kernel

end NodeCompat.Sha2
