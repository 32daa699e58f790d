import Mathlib.Algebra.Ring.Nat

/-!
# Consumers fed in pieces

A consumer keeps a state and a buffer of unread symbols. One `Round` either makes progress (`go`: a new state, the rest
of the buffer, the events it emits), waits for more input (`wait`), or stops for good (`halt`). `feed` runs rounds
until one waits or halts; `feedAll` feeds a list of pieces one after the other.

A consumer is `Local` when a round that makes progress only depends on the symbols it uses, and a round that waits
loses nothing. For a local consumer, feeding pieces is feeding their concatenation (`feedAll_eq_feed`) as soon as every
halt on a part of the input is also what the whole input leads to (`HaltStable`): that is the only way in which the cuts
can show.
-/

namespace NodeCompat

open List

/-- What one round does. -/
inductive Round (σ α ε η : Type)
  | wait (s : σ) (rest : List α)
  | halt (out : List ε) (h : η)
  | go (s : σ) (rest : List α) (out : List ε)

/-- How a run over the buffered input ends. -/
inductive Final (σ α η : Type)
  | waiting (s : σ) (rest : List α)
  | halted (h : η)

/-- A round function with a weight that progress lowers. -/
structure Consumer (σ α ε η : Type) where
  round : σ → List α → Round σ α ε η
  weight : σ → List α → Nat
  weight_lt : ∀ {s b s' r out}, round s b = .go s' r out → weight s' r < weight s b

namespace Consumer

variable {σ α ε η : Type} (C : Consumer σ α ε η)

/-- Rounds until one waits or halts: the events, and how it ends. -/
def feed (s : σ) (b : List α) : List ε × Final σ α η :=
  match _ : C.round s b with
  | .wait s' r => ([], .waiting s' r)
  | .halt out h => (out, .halted h)
  | .go s' r out => (out ++ (feed s' r).1, (feed s' r).2)
termination_by C.weight s b
decreasing_by all_goals exact C.weight_lt ‹_›

/-- Pieces fed one after the other, starting with the buffer `b`. -/
def feedAll : σ → List α → List (List α) → List ε × Final σ α η
  | s, b, [] => ([], .waiting s b)
  | s, b, x :: xs =>
    match C.feed s (b ++ x) with
    | (out, .halted h) => (out, .halted h)
    | (out, .waiting s' r) => (out ++ (feedAll s' r xs).1, (feedAll s' r xs).2)

/-- Progress only depends on the symbols it uses; waiting loses nothing. -/
structure Local : Prop where
  go_used : ∀ {s b s' r out}, C.round s b = .go s' r out → ∃ u, b = u ++ r ∧ ∀ y, C.round s (u ++ y) = .go s' y out
  wait_resume : ∀ {s b s' r}, C.round s b = .wait s' r → ∀ y, C.round s' (r ++ y) = C.round s (b ++ y)

/-- Some rounds of progress, with the events they emit. -/
inductive Goes : σ → List α → List ε → σ → List α → Prop
  | refl (s : σ) (b : List α) : Goes s b [] s b
  | step {s b s' r s'' r' out out'} : C.round s b = .go s' r out → Goes s' r out' s'' r' →
      Goes s b (out ++ out') s'' r'

/-- A halt on a part of the input the consumer gets to is what the whole of that input leads to. -/
def HaltStable (s : σ) (b : List α) : Prop :=
  ∀ es s' x y, C.Goes s b es s' (x ++ y) → ∀ out h, C.round s' x = .halt out h →
    C.feed s' (x ++ y) = (out, .halted h)

variable {C}

/-! ## One round of a run -/

variable {b r : List α} {out : List ε} {s' : σ}

theorem feed_wait {s : σ} (h : C.round s b = .wait s' r) : C.feed s b = ([], .waiting s' r) := by
  rw [feed]; split <;> simp_all

theorem feed_halt {s : σ} {e : η} (h : C.round s b = .halt out e) : C.feed s b = (out, .halted e) := by
  rw [feed]; split <;> simp_all

theorem feed_go {s : σ} (h : C.round s b = .go s' r out) :
    C.feed s b = (out ++ (C.feed s' r).1, (C.feed s' r).2) := by
  rw [feed]; split <;> simp_all

theorem Local.go_append (hC : C.Local) {s : σ} (h : C.round s b = .go s' r out)
    (y : List α) : C.round s (b ++ y) = .go s' (r ++ y) out := by
  obtain ⟨u, hu, hgo⟩ := hC.go_used h; rw [hu, append_assoc]; exact hgo (r ++ y)

theorem feed_congr {s : σ} {b' : List α} (h : C.round s b = C.round s' b') : C.feed s b = C.feed s' b' := by
  cases hr : C.round s b with
  | wait t r => rw [feed_wait hr, feed_wait (h ▸ hr)]
  | halt out e => rw [feed_halt hr, feed_halt (h ▸ hr)]
  | go t r out =>
    have hr' : C.round s' b' = .go t r out := h ▸ hr
    rw [feed_go hr, feed_go hr']

theorem feed_goes {s : σ} (h : C.Goes s b out s' r) : C.feed s b = (out ++ (C.feed s' r).1, (C.feed s' r).2) := by
  induction h with
  | refl s b => simp
  | step hr _ ih => rw [feed_go hr, ih, append_assoc]

theorem goes_of_waiting {s : σ} (h : C.feed s b = (out, .waiting s' r)) :
    ∃ t q, C.Goes s b out t q ∧ C.round t q = .wait s' r := by
  induction hn : C.weight s b using Nat.strongRecOn generalizing s b out with
  | ind n ih =>
    cases hr : C.round s b with
    | wait t q =>
      rw [feed_wait hr] at h
      cases h; exact ⟨s, b, .refl s b, hr⟩
    | halt o e => rw [feed_halt hr] at h; cases h
    | go t q o =>
      rw [feed_go hr] at h
      obtain ⟨ho, hf⟩ := Prod.mk.inj h
      obtain ⟨t', q', hg, hw⟩ := ih _ (hn ▸ C.weight_lt hr) (Prod.ext rfl hf) rfl
      exact ⟨t', q', ho ▸ .step hr hg, hw⟩

namespace Goes

theorem trans {s s' s'' : σ} {b b' b'' : List α} {out out' : List ε} (h : C.Goes s b out s' b')
    (h' : C.Goes s' b' out' s'' b'') : C.Goes s b (out ++ out') s'' b'' := by
  induction h with
  | refl s b => exact h'
  | step hr _ ih => rw [append_assoc]; exact .step hr (ih h')

theorem used (hC : C.Local) {s s' : σ} {b r : List α} {out : List ε} (h : C.Goes s b out s' r) :
    ∃ u, b = u ++ r ∧ ∀ y, C.Goes s (u ++ y) out s' y := by
  induction h with
  | refl s b => exact ⟨[], rfl, fun y => .refl s y⟩
  | step hr _ ih =>
    obtain ⟨u, hu, hgo⟩ := hC.go_used hr
    obtain ⟨v, hv, hg⟩ := ih
    refine ⟨u ++ v, by rw [hu, hv, append_assoc], fun y => ?_⟩
    rw [append_assoc]; exact .step (hgo (v ++ y)) (hg y)

theorem extend (hC : C.Local) {s s' : σ} {b r : List α} {out : List ε} (h : C.Goes s b out s' r) (y : List α) :
    C.Goes s (b ++ y) out s' (r ++ y) := by
  obtain ⟨u, hu, hg⟩ := h.used hC; rw [hu, append_assoc]; exact hg (r ++ y)

end Goes

/-! ## Pieces -/

variable {b r : List α} {out : List ε} {s' : σ}

theorem HaltStable.goes {s : σ} {b' : List α} {es : List ε} (h : C.HaltStable s b) (hg : C.Goes s b es s' b') :
    C.HaltStable s' b' :=
  fun _ t x y hg' => h _ t x y (hg.trans hg')

theorem feed_append (hC : C.Local) {s : σ} {x : List α} (h : C.feed s x = (out, .waiting s' r))
    (y : List α) : C.feed s (x ++ y) = (out ++ (C.feed s' (r ++ y)).1, (C.feed s' (r ++ y)).2) := by
  obtain ⟨t, q, hg, hw⟩ := goes_of_waiting h
  rw [feed_goes (hg.extend hC y), feed_congr (hC.wait_resume hw y)]

/-- A piece that halts the consumer decides the run over a longer input, if halts are stable there. -/
theorem feed_halted_append (hC : C.Local) {s : σ} {x y : List α} {e : η}
    (hs : C.HaltStable s (x ++ y)) (h : C.feed s x = (out, .halted e)) : C.feed s (x ++ y) = (out, .halted e) := by
  induction hn : C.weight s x using Nat.strongRecOn generalizing s x out with
  | ind n ih =>
    cases hr : C.round s x with
    | wait t q => rw [feed_wait hr] at h; cases h
    | halt o e' =>
      rw [feed_halt hr] at h
      cases h; exact hs [] s x y (.refl _ _) _ _ hr
    | go t q o =>
      rw [feed_go hr] at h
      obtain ⟨ho, hf⟩ := Prod.mk.inj h
      have hr' := hC.go_append hr y
      have := ih _ (hn ▸ C.weight_lt hr) (hs.goes (.step hr' (.refl _ _))) (Prod.ext rfl hf) rfl
      rw [feed_go hr', this, ← ho]

/-- Pieces fed from a state that resumes a round of `t` on `q`: the run of `t` over all of it. -/
theorem feedAll_resumed (hC : C.Local) : ∀ {s t : σ} {b q : List α} {xs : List (List α)}, C.round t q = .wait s b →
    C.HaltStable t (q ++ xs.flatten) → C.feedAll s b xs = C.feed t (q ++ xs.flatten)
  | s, t, b, q, [], hw, _ => by simp [feedAll, feed_wait hw]
  | s, t, b, q, x :: xs, hw, hs => by
    rw [flatten_cons, ← append_assoc] at hs ⊢
    unfold feedAll
    rw [feed_congr (hC.wait_resume hw x)]
    cases hf : C.feed t (q ++ x) with
    | mk out f =>
      cases f with
      | halted e => exact (feed_halted_append hC hs hf).symm
      | waiting s' r =>
        obtain ⟨t', q', hg, hw'⟩ := goes_of_waiting hf
        have hg' := hg.extend hC xs.flatten
        simp only [feed_goes hg', feedAll_resumed hC hw' (hs.goes hg')]

/-- **Cuts do not show**: feeding pieces is feeding their concatenation, if halts are stable on it. -/
theorem feedAll_eq_feed (hC : C.Local) {s : σ} {xs : List (List α)} (hw : C.round s b = .wait s b)
    (hs : C.HaltStable s (b ++ xs.flatten)) : C.feedAll s b xs = C.feed s (b ++ xs.flatten) :=
  feedAll_resumed hC hw hs

/-- **Pieces are fed up to the first that halts**: the run over them is the run over the shortest part of the input that halts
and ends with a piece, or over all of it. -/
theorem feedAll_shortest (hC : C.Local) : ∀ (xs : List (List α)) {s s' : σ} {u r : List α} {out : List ε},
    C.feed s u = (out, .waiting s' r) → ∃ ys zs, xs = ys ++ zs ∧
      C.feed s (u ++ ys.flatten) = (out ++ (C.feedAll s' r xs).1, (C.feedAll s' r xs).2) ∧
      (zs = [] ∨ ∃ e, (C.feedAll s' r xs).2 = .halted e) ∧
      ∀ ys' x zs', ys = ys' ++ x :: zs' → ∃ out' t q, C.feed s (u ++ ys'.flatten) = (out', .waiting t q)
  | [], s, s', u, r, out, h => by
    refine ⟨[], [], rfl, ?_, .inl rfl, fun ys' x zs' hy => by simp at hy⟩
    rw [flatten_nil, append_nil, h]; simp [feedAll]
  | x :: xs, s, s', u, r, out, h => by
    have happ := feed_append hC h x
    unfold feedAll
    rcases hf : C.feed s' (r ++ x) with ⟨o, e | e⟩
    · rw [hf] at happ
      obtain ⟨ys, zs, rfl, hrun, hend, hall⟩ := feedAll_shortest hC xs happ
      refine ⟨x :: ys, zs, rfl, ?_, hend, fun ys' x' zs' hy => ?_⟩
      · rw [flatten_cons, ← append_assoc, hrun, append_assoc]
      · cases ys' with
        | nil => exact ⟨out, s', r, by rw [flatten_nil, append_nil, h]⟩
        | cons y ys' =>
          cases hy
          obtain ⟨out', t, q, hw⟩ := hall ys' x' zs' rfl
          exact ⟨out', t, q, by rw [flatten_cons, ← append_assoc, hw]⟩
    · rw [hf] at happ
      refine ⟨[x], xs, rfl, ?_, .inr ⟨e, rfl⟩, fun ys' x' zs' hy => ?_⟩
      · rw [flatten_singleton, happ]
      · cases ys' with
        | nil => exact ⟨out, s', r, by rw [flatten_nil, append_nil, h]⟩
        | cons y ys' => simp at hy

/-! ## Paths along which cuts do not show -/

theorem HaltStable.of_wait {s : σ} (hw : C.round s b = .wait s' r)
    (hn : ∀ x y, b = x ++ y → ∀ o e, C.round s x ≠ .halt o e) : C.HaltStable s b := by
  intro es t x y hg o e he
  generalize hq : x ++ y = q at hg
  cases hg with
  | refl => exact absurd he (hn x y hq.symm o e)
  | step hr _ => rw [hw] at hr; cases hr

theorem HaltStable.of_go {s : σ} (hr : C.round s b = .go s' r out)
    (hn : ∀ x y, b = x ++ y → ∀ o e, C.round s x ≠ .halt o e) (h : C.HaltStable s' r) : C.HaltStable s b := by
  intro es t x y hg o e he
  generalize hq : x ++ y = q at hg
  cases hg with
  | refl => exact absurd he (hn x y hq.symm o e)
  | step hr' hg' =>
    rw [hr] at hr'
    cases hr'; subst hq; exact h _ t x y hg' o e he

/-- Rounds of progress that halt on no part of the buffer. -/
structure Leads (C : Consumer σ α ε η) (s : σ) (b : List α) (out : List ε) (s' : σ) (r : List α) : Prop where
  goes : C.Goes s b out s' r
  stable : C.HaltStable s' r → C.HaltStable s b

namespace Leads

theorem refl (s : σ) (b : List α) : C.Leads s b [] s b := ⟨.refl s b, id⟩

theorem trans {s s' s'' : σ} {b b' b'' : List α} {out out' : List ε} (h : C.Leads s b out s' b')
    (h' : C.Leads s' b' out' s'' b'') : C.Leads s b (out ++ out') s'' b'' :=
  ⟨h.goes.trans h'.goes, fun hs => h.stable (h'.stable hs)⟩

theorem of_go {s s' : σ} {b r : List α} {out : List ε} (hr : C.round s b = .go s' r out)
    (hn : ∀ x y, b = x ++ y → ∀ o e, C.round s x ≠ .halt o e) : C.Leads s b out s' r :=
  ⟨by simpa using Goes.step hr (.refl s' r), .of_go hr hn⟩

end Leads

end Consumer

end NodeCompat
