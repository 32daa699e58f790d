import Mathlib.Algebra.Ring.Nat

/-!
# Runs of a guarded step function

`step s l` is `some s'` when the label `l` is enabled in `s`. A `Run` is a sequence of steps whose labels all meet a
condition `P` on the state before them; `runs` replays labels without a condition. An invariant that every such step
keeps holds in every state a run gets to (`Run.invariant`).
-/

namespace NodeCompat

variable {σ l : Type}

/-- Replays labels; `none` when one is not enabled. -/
def runs (step : σ → l → Option σ) : σ → List l → Option σ
  | s, [] => some s
  | s, a :: as => (step s a).bind (fun s' => runs step s' as)

theorem runs_append (step : σ → l → Option σ) (s : σ) (as bs : List l) :
    runs step s (as ++ bs) = (runs step s as).bind (fun s' => runs step s' bs) := by
  induction as generalizing s with
  | nil => rfl
  | cons a as ih => simp [runs, ih, Option.bind_assoc]

/-- A run from `s` to `s'` along `as`, each step of which meets `P`. -/
inductive Run (step : σ → l → Option σ) (P : σ → l → Prop) : σ → List l → σ → Prop
  | nil (s : σ) : Run step P s [] s
  | cons {s s' s'' : σ} {a : l} {as : List l} : P s a → step s a = some s' → Run step P s' as s'' →
      Run step P s (a :: as) s''

namespace Run

variable {step : σ → l → Option σ} {P Q : σ → l → Prop} {s s' : σ} {as : List l}

/-- **The invariant rule.** -/
theorem invariant {I : σ → Prop} (hstep : ∀ s a s', I s → P s a → step s a = some s' → I s') (h : Run step P s as s')
    (hs : I s) : I s' := by
  induction h with
  | nil s => exact hs
  | cons hp hst _ ih => exact ih (hstep _ _ _ hs hp hst)

theorem mono (hPQ : ∀ s a, P s a → Q s a) (h : Run step P s as s') : Run step Q s as s' := by
  induction h with
  | nil s => exact .nil s
  | cons hp hst _ ih => exact .cons (hPQ _ _ hp) hst ih

theorem append {s'' : σ} {bs : List l} (h : Run step P s as s') (h' : Run step P s' bs s'') :
    Run step P s (as ++ bs) s'' := by
  induction h with
  | nil s => exact h'
  | cons hp hst _ ih => exact .cons hp hst (ih h')

/-- **Lockstep simulation**: a machine that can follow each step follows the run. -/
theorem simulate {τ : Type} {step' : τ → l → Option τ} (P' : τ → l → Prop) {R : τ → σ → Prop}
    (hstep : ∀ t s a s', R t s → P s a → step s a = some s' → P' t a ∧ ∃ t', step' t a = some t' ∧ R t' s')
    (h : Run step P s as s') {t : τ} (ht : R t s) : ∃ t', Run step' P' t as t' ∧ R t' s' := by
  induction h generalizing t with
  | nil s => exact ⟨t, .nil t, ht⟩
  | cons hp hst _ ih =>
    obtain ⟨hp', t₁, h₁, hR⟩ := hstep _ _ _ _ ht hp hst
    obtain ⟨t', h', hR'⟩ := ih hR; exact ⟨t', .cons hp' h₁ h', hR'⟩

theorem replay (h : Run step P s as s') : runs step s as = some s' := by
  induction h with
  | nil s => rfl
  | cons _ hst _ ih => simp [runs, hst, ih]

theorem of_runs : ∀ {as : List l} {s : σ}, runs step s as = some s' → Run step (fun _ _ => True) s as s'
  | [], s, h => by cases h; exact .nil _
  | a :: as, s, h => by obtain ⟨t, ht, h'⟩ := Option.bind_eq_some_iff.1 h; exact .cons trivial ht (of_runs h')

theorem of_guarded (p : σ → l → Bool) : ∀ {as : List l} {s : σ},
    runs (fun s a => if p s a then step s a else none) s as = some s' → Run step (fun s a => p s a = true) s as s'
  | [], s, h => by cases h; exact .nil _
  | a :: as, s, h => by
    obtain ⟨t, ht, h'⟩ := Option.bind_eq_some_iff.1 h
    dsimp only at ht
    split at ht
    · next hp => exact .cons hp ht (of_guarded p h')
    · cases ht

end Run

end NodeCompat
