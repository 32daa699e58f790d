import Mathlib.Algebra.Ring.Nat
import Mathlib.Logic.Function.Basic

/-!
# Words in a byte memory

Little-endian words of `n` bytes in a memory of bytes, and lists that are linked through the first word of each element
(`Chain`). A store changes its own bytes only, so a list is kept by whatever leaves the words of its elements alone
(`Chain.congr`).
-/

namespace NodeCompat

abbrev Memory := Nat → UInt8

namespace Memory

/-- The word of `n` bytes at an address. -/
def load : Nat → Memory → Nat → Nat
  | 0, _, _ => 0
  | n + 1, m, a => (m a).toNat + 256 * load n m (a + 1)

def store : Nat → Memory → Nat → Nat → Memory
  | 0, m, _, _ => m
  | n + 1, m, a, v => store n (Function.update m a (UInt8.ofNat v)) (a + 1) (v / 256)

variable {m m' : Memory} {n a b v : Nat}

theorem store_of_not_mem (h : b < a ∨ a + n ≤ b) : store n m a v b = m b := by
  induction n generalizing m a v with
  | zero => rfl
  | succ n ih =>
    have hb : b ≠ a := by omega
    rw [store, ih (by omega), Function.update_of_ne hb]

theorem load_congr (h : ∀ b, a ≤ b → b < a + n → m b = m' b) : load n m a = load n m' a := by
  induction n generalizing a with
  | zero => rfl
  | succ n ih =>
    have hhead : m a = m' a := h a (Nat.le_refl _) (by omega)
    have htail : load n m (a + 1) = load n m' (a + 1) := ih fun b h₁ h₂ => h b (by omega) (by omega)
    rw [load, load, hhead, htail]

theorem load_store (hv : v < 256 ^ n) : load n (store n m a v) a = v := by
  induction n generalizing m a v with
  | zero =>
    rw [Nat.pow_zero] at hv; rw [load]; omega
  | succ n ih =>
    have hlow : (store n (Function.update m a (UInt8.ofNat v)) (a + 1) (v / 256) a).toNat = v % 256 := by
      rw [store_of_not_mem (.inl (Nat.lt_succ_self a)), Function.update_self, UInt8.toNat_ofNat']
    have hdiv : v / 256 < 256 ^ n := by
      rw [Nat.pow_succ] at hv; exact Nat.div_lt_of_lt_mul (by rw [Nat.mul_comm]; exact hv)
    rw [load, store, hlow, ih hdiv]; omega

/-- A list of elements linked through words of `n` bytes; 0 ends it. -/
def Chain (n : Nat) (m : Memory) : Nat → List Nat → Prop
  | a, [] => a = 0
  | a, b :: bs => a = b ∧ a ≠ 0 ∧ Chain n m (load n m a) bs

theorem Chain.congr {bs : List Nat} (h : Chain n m a bs) (hw : ∀ b ∈ bs, load n m b = load n m' b) : Chain n m' a bs := by
  induction bs generalizing a with
  | nil => exact h
  | cons b bs ih =>
    obtain ⟨rfl, hne, hrest⟩ := h
    refine ⟨rfl, hne, ?_⟩
    rw [← hw a List.mem_cons_self]; exact ih hrest fun c hc => hw c (List.mem_cons_of_mem a hc)

end Memory

end NodeCompat
