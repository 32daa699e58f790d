import NodeCompat.Lib.Run
import NodeCompat.Lib.Probing
import NodeCompat.Lib.Words
import Mathlib.Data.List.Pairwise

/-!
# The size-class allocator

`allocate` and `release` of the pool behind `operator new`: blocks of up to 4096 bytes are carved out of 1 MiB chunks, one
size class to a chunk, and recycled through free lists that are linked inside the free blocks; the others are `malloc`'s.
`release` learns the class of a block from the base of its chunk, through a table with open addressing and a one-entry cache in
front of it. What the program holds (`live`), the chunks that have been registered and the blocks that have been carved are
history: no code reads them.
-/

namespace NodeCompat.Alloc

open Memory Probing

def kGranule : Nat := 16
def kMaxPooled : Nat := 4096
def kClassCount : Nat := kMaxPooled / kGranule
def kChunkSize : Nat := 1 <<< 20
def kChunkTableSize : Nat := 8192
def kMaxProbe : Nat := 64

/-- The size of a pointer, and of a link of a free list. -/
def kPointer : Nat := 8

/-- A block that the program holds: where it is, the size it asked for, and the class it was carved for, 0 for a block of
`malloc`. -/
structure Block where
  addr : Nat
  size : Nat
  klass : Nat
deriving DecidableEq

/-- What the block spans. -/
def Block.room (b : Block) : Nat := if b.klass = 0 then max b.size 1 else b.klass * kGranule

structure Pool where
  table : Nat → Nat := fun _ => 0
  free : Nat → Nat := fun _ => 0
  bump : Nat → Nat := fun _ => 0
  bumpEnd : Nat → Nat := fun _ => 0
  anyChunk : Bool := false
  lastBase : Nat := 0
  lastClass : Nat := 0
  mem : Memory := fun _ => 0
  live : List Block := []
  chunks : List (Nat × Nat) := []
  carved : List (Nat × Nat) := []

/-! ## The chunk table -/

def chunkSlot (base : Nat) : Nat := (base >>> 20) * 0x9E3779B97F4A7C15 % 2 ^ 64 % kChunkTableSize

def nextSlot (slot : Nat) : Nat := (slot + 1) % kChunkTableSize

def chunkEntry (base klass : Nat) : Nat := (base >>> 20) <<< 12 ||| klass

/-- The probes of `registerChunk`. -/
def registerLoop (table : Nat → Nat) (entry : Nat) : Nat → Nat → Option (Nat → Nat)
  | 0, _ => none
  | n + 1, slot =>
    if table slot = 0 then some (Function.update table slot entry) else registerLoop table entry n (nextSlot slot)

def registerChunk (table : Nat → Nat) (base klass : Nat) : Option (Nat → Nat) :=
  registerLoop table (chunkEntry base klass) kMaxProbe (chunkSlot base)

/-- The probes of `lookupChunkClass`. An entry without its low twelve bits is its key. -/
def lookupLoop (table : Nat → Nat) (key : Nat) : Nat → Nat → Nat
  | 0, _ => 0
  | n + 1, slot =>
    if table slot = 0 then 0
    else if table slot >>> 12 <<< 12 = key then table slot &&& 0xFFF
    else lookupLoop table key n (nextSlot slot)

def lookupChunkClass (table : Nat → Nat) (base : Nat) : Nat :=
  lookupLoop table ((base >>> 20) <<< 12) kMaxProbe (chunkSlot base)

/-- The base of the chunk that an address would be in. -/
def baseOf (ptr : Nat) : Nat := ptr >>> 20 <<< 20

/-! ## allocate -/

/-- The class of a size, in 64-bit arithmetic. -/
def klassOf (size : Nat) : Nat := (size + kGranule - 1) % 2 ^ 64 / kGranule

namespace Pool

/-- The first block of the free list. -/
def pop (s : Pool) (klass size : Nat) : Pool := { s with
    free := Function.update s.free (klass - 1) (load kPointer s.mem (s.free (klass - 1)))
    live := ⟨s.free (klass - 1), size, klass⟩ :: s.live }

/-- The bump range moves to a chunk that has been mapped, if it can be registered. `chunk` is 0 when nothing was mapped. -/
def refill (s : Pool) (klass chunk : Nat) : Pool :=
  if chunk = 0 then s
  else
    match registerChunk s.table chunk klass with
    | some table =>
      { s with
        table
        anyChunk := true
        bump := Function.update s.bump (klass - 1) chunk
        bumpEnd := Function.update s.bumpEnd (klass - 1) (chunk + kChunkSize)
        chunks := (chunk, klass) :: s.chunks }
    | none => s

/-- The next block of the bump range. -/
def carve (s : Pool) (klass size : Nat) : Pool := { s with
    bump := Function.update s.bump (klass - 1) (s.bump (klass - 1) + klass * kGranule)
    live := ⟨s.bump (klass - 1), size, klass⟩ :: s.live
    carved := (s.bump (klass - 1), klass) :: s.carved }

/-- Whether the bump range has room for a block. -/
def hasRoom (s : Pool) (klass : Nat) : Bool :=
  s.bump (klass - 1) ≠ 0 && klass * kGranule ≤ s.bumpEnd (klass - 1) - s.bump (klass - 1)

def malloc (s : Pool) (size block : Nat) : Pool := { s with live := ⟨block, size, 0⟩ :: s.live }

/-- `pooled` is false under `GEA_NO_POOL_ALLOC`; `chunk` and `block` are what `mapChunk` and `malloc` answer if they are
called. -/
def allocate (s : Pool) (pooled : Bool) (size chunk block : Nat) : Pool :=
  let klass := klassOf size
  if pooled ∧ 1 ≤ klass ∧ klass ≤ kClassCount then
    if s.free (klass - 1) ≠ 0 then s.pop klass size
    else
      let s := if s.hasRoom klass then s else s.refill klass chunk
      if s.hasRoom klass then s.carve klass size else s.malloc size block
  else s.malloc size block

/-! ## release -/

/-- The class that `release` finds for a pointer. -/
def classify (s : Pool) (ptr : Nat) : Nat :=
  if !s.anyChunk then 0
  else if baseOf ptr = s.lastBase ∧ s.lastClass ≠ 0 then s.lastClass
  else lookupChunkClass s.table (baseOf ptr)

/-- The block goes to the front of the free list of its class, or back to `malloc`. -/
def release (s : Pool) (ptr : Nat) : Pool :=
  if ptr = 0 then s
  else
    let klass := s.classify ptr
    let s := { s with live := s.live.filter (·.addr ≠ ptr) }
    if klass = 0 then s
    else { s with
        lastBase := baseOf ptr
        lastClass := klass
        mem := store kPointer s.mem ptr (s.free (klass - 1))
        free := Function.update s.free (klass - 1) ptr }

/-! ## Histories -/

/-- What the program does: it allocates, releases, and writes a byte of a block that it holds. -/
inductive Label
  | allocate (size chunk block : Nat)
  | release (ptr : Nat)
  | write (addr : Nat) (byte : UInt8)

def step (pooled : Bool) (s : Pool) : Label → Option Pool
  | .allocate size chunk block => some (s.allocate pooled size chunk block)
  | .release ptr => some (s.release ptr)
  | .write addr byte => some { s with mem := Function.update s.mem addr byte }

/-- Two ranges of addresses have none in common. -/
def Apart (a n b m : Nat) : Prop := a + n ≤ b ∨ b + m ≤ a

/-- The system hands out what nobody has: chunks that are aligned and apart from the chunks and from `malloc`'s blocks, and
blocks apart from both. A program releases what it holds, and writes to what it holds. -/
def Proper (s : Pool) : Label → Prop
  | .allocate size chunk block =>
    (chunk ≠ 0 → kChunkSize ∣ chunk ∧ chunk + kChunkSize ≤ 2 ^ 64 ∧
        (∀ c ∈ s.chunks, Apart chunk kChunkSize c.1 kChunkSize) ∧
        ∀ b ∈ s.live, b.klass = 0 → Apart chunk kChunkSize b.addr b.room) ∧
      size < 2 ^ 64 ∧ block ≠ 0 ∧ block + max size 1 ≤ 2 ^ 64 ∧
      (∀ c ∈ s.chunks, Apart block (max size 1) c.1 kChunkSize) ∧
      ∀ b ∈ s.live, b.klass = 0 → Apart block (max size 1) b.addr b.room
  | .release ptr => ptr = 0 ∨ ∃ b ∈ s.live, b.addr = ptr
  | .write addr _ => ∃ b ∈ s.live, b.addr ≤ addr ∧ addr < b.addr + b.room

instance (s : Pool) (l : Label) : Decidable (s.Proper l) := by
  cases l <;> unfold Proper Apart <;> infer_instance

/-! ## What is claimed -/

structure Sound (s : Pool) : Prop where
  disjoint : s.live.Pairwise fun b c => Apart b.addr b.room c.addr c.room
  fits : ∀ b ∈ s.live, b.size ≤ b.room
  lists : ∀ klass, 1 ≤ klass → klass ≤ kClassCount → ∃ blocks, Chain kPointer s.mem (s.free (klass - 1)) blocks ∧
    blocks.Nodup ∧ ∀ a ∈ blocks, (a, klass) ∈ s.carved ∧ ∀ b ∈ s.live, Apart a (klass * kGranule) b.addr b.room
  once : ∀ a k k', (a, k) ∈ s.carved → (a, k') ∈ s.carved → k = k'
  pushed : ∀ b ∈ s.live, b.klass ≠ 0 → (b.addr, b.klass) ∈ s.carved ∧
    (s.release b.addr).free = Function.update s.free (b.klass - 1) b.addr
  links : ∀ b ∈ s.live, ∀ c ∈ (s.release b.addr).live, ∀ x, c.addr ≤ x → x < c.addr + c.room →
    (s.release b.addr).mem x = s.mem x
  malloc : ∀ b ∈ s.live, b.klass = 0 → s.classify b.addr = 0
  found : ∀ c ∈ s.chunks, lookupChunkClass s.table c.1 = c.2

end Pool

/-! ## The chunk table finds its chunks -/

theorem baseOf_eq (ptr : Nat) : baseOf ptr = ptr / 2 ^ 20 * 2 ^ 20 := by
  unfold baseOf; rw [Nat.shiftRight_eq_div_pow, Nat.shiftLeft_eq]

/-- The key of a base in the table. -/
def keyOf (base : Nat) : Nat := (base >>> 20) <<< 12

theorem keyOf_eq (base : Nat) : keyOf base = base / 2 ^ 20 * 2 ^ 12 := by
  unfold keyOf; rw [Nat.shiftRight_eq_div_pow, Nat.shiftLeft_eq]

theorem chunkEntry_eq {base klass : Nat} (hk : klass ≤ kClassCount) : chunkEntry base klass = keyOf base + klass := by
  have hlt : klass < 2 ^ 12 := Nat.lt_of_le_of_lt hk (by decide)
  exact (Nat.shiftLeft_add_eq_or_of_lt hlt _).symm

theorem entry_key {base klass : Nat} (hk : klass ≤ kClassCount) : chunkEntry base klass >>> 12 <<< 12 = keyOf base := by
  have hlt : klass < 2 ^ 12 := Nat.lt_of_le_of_lt hk (by decide)
  rw [chunkEntry_eq hk, keyOf_eq, Nat.shiftRight_eq_div_pow, Nat.shiftLeft_eq]; omega

theorem entry_class {base klass : Nat} (hk : klass ≤ kClassCount) : chunkEntry base klass &&& 0xFFF = klass := by
  have hlt : klass < 2 ^ 12 := Nat.lt_of_le_of_lt hk (by decide)
  have hmask : (0xFFF : Nat) = 2 ^ 12 - 1 := by decide
  rw [chunkEntry_eq hk, keyOf_eq, hmask, Nat.and_two_pow_sub_one_eq_mod]; omega

theorem keyOf_inj {b c : Nat} (hb : kChunkSize ∣ b) (hc : kChunkSize ∣ c) (h : keyOf b = keyOf c) : b = c := by
  have hsize : kChunkSize = 2 ^ 20 := by decide
  rw [hsize] at hb hc; rw [keyOf_eq, keyOf_eq] at h; omega

theorem registerLoop_eq (table : Nat → Nat) (entry n slot : Nat) :
    registerLoop table entry n slot = Probing.insert nextSlot 0 table entry n slot := by
  induction n generalizing slot with
  | zero => rfl
  | succ n ih =>
    rw [registerLoop, Probing.insert, ih]

theorem lookupLoop_eq (table : Nat → Nat) (key n slot : Nat) : lookupLoop table key n slot =
    ((Probing.find nextSlot 0 (fun e => e >>> 12 <<< 12) table key n slot).map (· &&& 0xFFF)).getD 0 := by
  induction n generalizing slot with
  | zero => rfl
  | succ n ih =>
    rw [lookupLoop, Probing.find, ih]
    by_cases h₀ : table slot = 0
    · rw [if_pos h₀, if_pos h₀]; rfl
    · rw [if_neg h₀, if_neg h₀]
      by_cases hk : table slot >>> 12 <<< 12 = key
      · rw [if_pos hk, if_pos hk]; rfl
      · rw [if_neg hk, if_neg hk]

/-- What the table has, against the chunks. -/
structure Registered (table : Nat → Nat) (chunks : List (Nat × Nat)) : Prop where
  keys : ∀ slot, table slot ≠ 0 → ∃ c ∈ chunks, table slot >>> 12 <<< 12 = keyOf c.1
  found : ∀ c ∈ chunks, Probing.find nextSlot 0 (fun e => e >>> 12 <<< 12) table (keyOf c.1) kMaxProbe (chunkSlot c.1) =
    some (chunkEntry c.1 c.2)

namespace Registered

variable {table table' : Nat → Nat} {chunks : List (Nat × Nat)} {base klass : Nat}

section

variable (h : Registered table chunks)
include h

/-- **A chunk joins the table**, and every other one stays where it is found. -/
theorem register (hreg : registerChunk table base klass = some table')
    (hnew : ∀ c ∈ chunks, keyOf c.1 ≠ keyOf base) (h₁ : 1 ≤ klass) (hk : klass ≤ kClassCount) :
    Registered table' ((base, klass) :: chunks) := by
  rw [registerChunk, registerLoop_eq] at hreg
  constructor
  · intro slot hslot
    obtain ⟨slot', h₀, rfl⟩ := insert_eq hreg
    by_cases hs : slot = slot'
    · subst hs; rw [Function.update_self]; exact ⟨_, List.mem_cons_self, entry_key hk⟩
    · rw [Function.update_of_ne hs] at hslot ⊢
      obtain ⟨c, hc, hkey⟩ := h.keys slot hslot; exact ⟨c, List.mem_cons_of_mem _ hc, hkey⟩
  · rintro c (_ | ⟨_, hc⟩)
    · have hne : chunkEntry base klass ≠ 0 := by rw [chunkEntry_eq hk]; omega
      have hf : Probing.find nextSlot 0 (fun e => e >>> 12 <<< 12) table' (chunkEntry base klass >>> 12 <<< 12) kMaxProbe
          (chunkSlot base) = some (chunkEntry base klass) := by
        refine find_insert hreg hne fun slot hslot => ?_
        obtain ⟨c, hc, hkey⟩ := h.keys slot hslot; rw [hkey, entry_key hk]; exact hnew c hc
      rw [entry_key hk] at hf; exact hf
    · exact find_insert_of_find hreg (h.found c hc)

theorem lookup {c : Nat × Nat} (hc : c ∈ chunks) (hk : c.2 ≤ kClassCount) : lookupChunkClass table c.1 = c.2 := by
  have hf := h.found c hc
  rw [lookupChunkClass, lookupLoop_eq]
  rw [keyOf] at hf; rw [hf]; exact entry_class hk

theorem lookup_other (hnew : ∀ c ∈ chunks, keyOf c.1 ≠ keyOf base) : lookupChunkClass table base = 0 := by
  have hf : Probing.find nextSlot 0 (fun e => e >>> 12 <<< 12) table (keyOf base) kMaxProbe (chunkSlot base) = none := by
    refine find_none fun slot hslot => ?_
    obtain ⟨c, hc, hkey⟩ := h.keys slot hslot; rw [hkey]; exact hnew c hc
  rw [keyOf] at hf; rw [lookupChunkClass, lookupLoop_eq, hf]; rfl

end

end Registered

end NodeCompat.Alloc
