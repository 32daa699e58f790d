import Mathlib.Algebra.Ring.Nat

/-!
# UTF-16

The code units of a string of Unicode scalar values. No character's units begin another's, so they determine the string
(`utf16_injective`).
-/

namespace NodeCompat

/-- The code units of a character: one, or a surrogate pair. -/
def utf16Char (c : Char) : List UInt16 :=
  if c.toNat < 0x10000 then [UInt16.ofNat c.toNat]
  else [UInt16.ofNat (0xD800 + (c.toNat - 0x10000) / 0x400), UInt16.ofNat (0xDC00 + (c.toNat - 0x10000) % 0x400)]

/-- The code units of a string. -/
def utf16 (s : List Char) : List UInt16 := s.flatMap utf16Char

theorem utf16_append (s t : List Char) : utf16 (s ++ t) = utf16 s ++ utf16 t := List.flatMap_append

theorem utf16_flatMap {α : Type} (f : α → List Char) (as : List α) :
    as.flatMap (fun a => utf16 (f a)) = utf16 (as.flatMap f) := by
  induction as with
  | nil => rfl
  | cons a as ih => rw [List.flatMap_cons, List.flatMap_cons, ih, utf16_append]

theorem unit_inj {m n : Nat} (hm : m < 0x10000) (hn : n < 0x10000) (h : UInt16.ofNat m = UInt16.ofNat n) : m = n := by
  have h' := congrArg UInt16.toNat h
  rw [UInt16.toNat_ofNat', UInt16.toNat_ofNat'] at h'; omega

theorem char_inj {c d : Char} (h : c.toNat = d.toNat) : c = d := Char.ext (UInt32.toNat_inj.1 h)

theorem toNat_scalar (c : Char) : c.toNat < 0xD800 ∨ 0xDFFF < c.toNat ∧ c.toNat < 0x110000 := c.valid

theorem utf16Char_append {c d : Char} {u v : List UInt16} (h : utf16Char c ++ u = utf16Char d ++ v) : c = d ∧ u = v := by
  have hc := toNat_scalar c
  have hd := toNat_scalar d
  unfold utf16Char at h
  split at h
  · split at h
    · obtain ⟨hu, hv⟩ := List.cons.inj h; exact ⟨char_inj (unit_inj (by omega) (by omega) hu), hv⟩
    · have hu := unit_inj (by omega) (by omega) (List.cons.inj h).1; omega
  · split at h
    · have hu := unit_inj (by omega) (by omega) (List.cons.inj h).1; omega
    · obtain ⟨hu, h⟩ := List.cons.inj h
      obtain ⟨hl, hv⟩ := List.cons.inj h
      have hu' := unit_inj (by omega) (by omega) hu
      have hl' := unit_inj (by omega) (by omega) hl
      exact ⟨char_inj (by omega), hv⟩

theorem utf16Char_ne_nil (c : Char) : utf16Char c ≠ [] := by
  unfold utf16Char
  split <;> exact List.cons_ne_nil _ _

/-- **The units determine the string.** -/
theorem utf16_injective {s t : List Char} (h : utf16 s = utf16 t) : s = t := by
  induction s generalizing t with
  | nil =>
    cases t with
    | nil => rfl
    | cons d t => exact absurd (List.append_eq_nil_iff.1 h.symm).1 (utf16Char_ne_nil d)
  | cons c s ih =>
    cases t with
    | nil => exact absurd (List.append_eq_nil_iff.1 h).1 (utf16Char_ne_nil c)
    | cons d t => obtain ⟨rfl, hst⟩ := utf16Char_append h; rw [ih hst]

end NodeCompat
