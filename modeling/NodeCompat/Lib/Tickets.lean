import Mathlib.Algebra.Ring.Nat

/-!
# Tickets

A log of tickets that are issued, revoked and used. A ticket is void once it has been revoked after it was issued; a log that
is respected uses no void ticket (`Respects.never`).
-/

namespace NodeCompat

open List

inductive Ticket
  | issued (id : Nat)
  | revoked (id : Nat)
  | used (id : Nat)
deriving DecidableEq

namespace Ticket

/-- The tickets issued, in order. -/
def issuedIds (log : List Ticket) : List Nat := log.filterMap fun
  | issued id => some id
  | _ => none

/-- The tickets used, in order. -/
def usedIds (log : List Ticket) : List Nat := log.filterMap fun
  | used id => some id
  | _ => none

/-- It has been revoked after it was issued. -/
def Void (log : List Ticket) (id : Nat) : Prop :=
  ∃ before after, log = before ++ revoked id :: after ∧ issued id ∈ before

/-- Whatever is used is not void. -/
def Respects (log : List Ticket) : Prop := ∀ before after id, log = before ++ used id :: after → ¬ Void before id

variable {log : List Ticket} {id : Nat} {e : Ticket}

@[simp] theorem issuedIds_append (log log' : List Ticket) : issuedIds (log ++ log') = issuedIds log ++ issuedIds log' :=
  filterMap_append

@[simp] theorem usedIds_append (log log' : List Ticket) : usedIds (log ++ log') = usedIds log ++ usedIds log' :=
  filterMap_append

theorem mem_issuedIds : id ∈ issuedIds log ↔ issued id ∈ log := by
  rw [issuedIds, mem_filterMap]
  constructor
  · rintro ⟨e, he, hid⟩
    cases e with
    | issued i => cases hid; exact he
    | revoked i | used i => cases hid
  · exact fun h => ⟨_, h, rfl⟩

theorem mem_usedIds : id ∈ usedIds log ↔ used id ∈ log := by
  rw [usedIds, mem_filterMap]
  constructor
  · rintro ⟨e, he, hid⟩
    cases e with
    | issued i | revoked i => cases hid
    | used i => cases hid; exact he
  · exact fun h => ⟨_, h, rfl⟩

theorem concat_split {before after : List Ticket} {f : Ticket} (h : log ++ [e] = before ++ f :: after) :
    (∃ after', log = before ++ f :: after' ∧ after = after' ++ [e]) ∨ (log = before ∧ e = f ∧ after = []) := by
  rcases eq_nil_or_concat after with rfl | ⟨after', g, rfl⟩
  · obtain ⟨rfl, hf⟩ := append_inj' h rfl; exact .inr ⟨rfl, singleton_inj.1 hf, rfl⟩
  · rw [concat_eq_append, ← cons_append, ← append_assoc] at h
    obtain ⟨rfl, hg⟩ := append_inj' h rfl
    rw [concat_eq_append, singleton_inj.1 hg]; exact .inl ⟨after', rfl, rfl⟩

theorem void_concat : Void (log ++ [e]) id ↔ Void log id ∨ e = revoked id ∧ issued id ∈ log := by
  constructor
  · rintro ⟨before, after, hlog, hin⟩
    obtain ⟨after', rfl, -⟩ | ⟨rfl, rfl, -⟩ := concat_split hlog
    · exact .inl ⟨before, after', rfl, hin⟩
    · exact .inr ⟨rfl, hin⟩
  · rintro (⟨before, after, rfl, hin⟩ | ⟨rfl, hin⟩)
    · exact ⟨before, after ++ [e], by simp, hin⟩
    · exact ⟨log, [], rfl, hin⟩

theorem Void.mem_issued (h : Void log id) : issued id ∈ log := by
  obtain ⟨before, after, rfl, hin⟩ := h; exact mem_append_left _ hin

theorem respects_nil : Respects [] := by
  rintro before after id h
  cases before <;> cases h

theorem respects_concat : Respects (log ++ [e]) ↔ Respects log ∧ ∀ id, e = used id → ¬ Void log id := by
  constructor
  · intro h
    refine ⟨fun before after id hlog => h before (after ++ [e]) id (by rw [hlog]; simp), ?_⟩
    rintro id rfl; exact h log [] id rfl
  · rintro ⟨h, he⟩ before after id hlog
    obtain ⟨after', hl, -⟩ | ⟨rfl, rfl, -⟩ := concat_split hlog
    · exact h before after' id hl
    · exact he id rfl

/-- **A void ticket is never used again.** -/
theorem Respects.never (h : Respects log) {before after : List Ticket} (hlog : log = before ++ revoked id :: after)
    (hin : issued id ∈ before) : used id ∉ after := by
  intro hu
  obtain ⟨mid, rest, rfl⟩ := append_of_mem hu
  refine h (before ++ revoked id :: mid) rest id (by rw [hlog]; simp) ?_
  exact ⟨before, mid, rfl, hin⟩

end Ticket

end NodeCompat
