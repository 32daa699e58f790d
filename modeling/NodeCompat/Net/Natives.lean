import NodeCompat.Net.Socket

/-!
# Attempts and native handles

How the attempts of a socket and the native handles belong together (`Natives.Ok`), and what does not change any more once an
attempt is settled (`Natives.Grows`).
-/

namespace NodeCompat.Net

open List Bool Function

namespace Natives

/-- A handle has one attempt, which it notifies until it is the socket's; its `connect` comes at most once. -/
structure Ok (n : Natives) : Prop where
  zero : n.handle 0 = {}
  fresh : ∀ h, n.handleCount < h → n.handle h = {}
  unmade : ∀ a, n.attemptCount ≤ a → n.attempt a = {}
  bound : ∀ a, (n.attempt a).nativeId ≤ n.handleCount
  owned : ∀ h, 0 < h → h ≤ n.handleCount → ∃ a, (n.attempt a).nativeId = h
  inj : ∀ a a', (n.attempt a).nativeId ≠ 0 → (n.attempt a).nativeId = (n.attempt a').nativeId → a = a'
  notify : ∀ h a, (n.handle h).notify = some a → (n.attempt a).nativeId = h
  connects : ∀ h, (n.handle h).events.count .connect ≤ if (n.handle h).connectPushed then 1 else 0

/-- What does not change any more: settled attempts, destroyed handles, and handles whose `connect` was taken. -/
structure Grows (n n' : Natives) : Prop where
  made : n.attemptCount ≤ n'.attemptCount
  settled : ∀ a, a < n.attemptCount → (n.attempt a).settled = true → n'.attempt a = n.attempt a
  destroyed : ∀ h, (n.handle h).destroyed = true → (n'.handle h).destroyed = true
  spent : ∀ h, (n.handle h).connectPushed = true → (n.handle h).events.count .connect = 0 →
    (n'.handle h).connectPushed = true ∧ (n'.handle h).events.count .connect = 0

variable {n : Natives}

theorem Grows.refl (n : Natives) : Grows n n := ⟨Nat.le_refl _, fun _ _ _ => rfl, fun _ h => h, fun _ h h' => ⟨h, h'⟩⟩

theorem Ok.made_of_handle (h : n.Ok) {a : AttemptId} (ha : (n.attempt a).nativeId ≠ 0) : a < n.attemptCount := by
  by_contra hle
  rw [h.unmade a (Nat.le_of_not_lt hle)] at ha; exact ha rfl

/-- What a handle may become. -/
def Follows (h h' : Handle) : Prop :=
  (h'.notify = h.notify ∨ h'.notify = none) ∧ h'.events.count .connect ≤ if h'.connectPushed then 1 else 0

theorem Ok.of_same_ids {n' : Natives} (h : n.Ok) (hcount : n'.handleCount = n.handleCount)
    (hids : ∀ a, (n'.attempt a).nativeId = (n.attempt a).nativeId) (hunmade : ∀ a, n'.attemptCount ≤ a → n'.attempt a = {})
    (hhandle : ∀ i, n'.handle i = n.handle i ∨ i ≠ 0 ∧ i ≤ n.handleCount ∧ Follows (n.handle i) (n'.handle i)) : n'.Ok := by
  constructor
  · obtain heq | ⟨hne, -⟩ := hhandle 0
    · rw [heq]; exact h.zero
    · exact absurd rfl hne
  · intro i hi
    rw [hcount] at hi
    obtain heq | ⟨-, hle, -⟩ := hhandle i
    · rw [heq]; exact h.fresh i hi
    · exact absurd hle (Nat.not_le.2 hi)
  · exact hunmade
  · intro a; rw [hids, hcount]; exact h.bound a
  · intro i h₀ h₁
    obtain ⟨a, ha⟩ := h.owned i h₀ (hcount ▸ h₁); exact ⟨a, (hids a).trans ha⟩
  · intro a a' ha haa; rw [hids] at ha haa; rw [hids] at haa; exact h.inj a a' ha haa
  · intro i a hi
    rw [hids]
    obtain heq | ⟨-, -, hn | hn, -⟩ := hhandle i
    · exact h.notify i a (heq ▸ hi)
    · exact h.notify i a (hn ▸ hi)
    · rw [hn] at hi; cases hi
  · intro i
    obtain heq | ⟨-, -, -, hc⟩ := hhandle i
    · rw [heq]; exact h.connects i
    · exact hc

theorem Ok.setHandle (h : n.Ok) {i : Nat} {f : Handle → Handle} (hi : i ≤ n.handleCount)
    (hf : Follows (n.handle i) (f (n.handle i))) : (n.setHandle i f).Ok := by
  refine h.of_same_ids rfl (fun _ => rfl) h.unmade ?_
  intro j
  by_cases hj : j = i ∧ i ≠ 0
  · obtain ⟨rfl, hzero⟩ := hj
    refine .inr ⟨hzero, hi, ?_⟩
    simpa [Natives.setHandle, hzero] using hf
  · refine .inl ?_
    simp only [Natives.setHandle]
    split
    · rfl
    · next hzero => exact update_of_ne (fun hji => hj ⟨hji, hzero⟩) _ _

theorem Grows.setHandle {i : Nat} {f : Handle → Handle}
    (hdestroyed : (n.handle i).destroyed = true → (f (n.handle i)).destroyed = true)
    (hspent : (n.handle i).connectPushed = true → (n.handle i).events.count .connect = 0 →
      (f (n.handle i)).connectPushed = true ∧ (f (n.handle i)).events.count .connect = 0) : Grows n (n.setHandle i f) := by
  by_cases hzero : i = 0
  · subst hzero; simpa [Natives.setHandle] using Grows.refl n
  refine ⟨Nat.le_refl _, fun _ _ _ => rfl, ?_, ?_⟩
  · intro j hj
    by_cases heq : j = i
    · subst heq; simpa [Natives.setHandle, hzero] using hdestroyed hj
    · simpa [Natives.setHandle, hzero, update_of_ne heq] using hj
  · intro j hp hc
    by_cases heq : j = i
    · subst heq; simpa [Natives.setHandle, hzero] using hspent hp hc
    · simpa [Natives.setHandle, hzero, update_of_ne heq] using ⟨hp, hc⟩

theorem Ok.setAttempt (h : n.Ok) {a : AttemptId} {f : ConnectAttempt → ConnectAttempt} (ha : a < n.attemptCount)
    (hid : (f (n.attempt a)).nativeId = (n.attempt a).nativeId) : (n.setAttempt a f).Ok := by
  refine h.of_same_ids rfl ?_ ?_ (fun _ => .inl rfl)
  · intro b
    by_cases heq : b = a
    · subst heq; simpa [Natives.setAttempt] using hid
    · simp [Natives.setAttempt, update_of_ne heq]
  · intro b hb
    have hne : b ≠ a := by rintro rfl; exact absurd ha (Nat.not_lt.2 hb)
    simpa [Natives.setAttempt, update_of_ne hne] using h.unmade b hb

theorem Grows.setAttempt {a : AttemptId} {f : ConnectAttempt → ConnectAttempt} (ha : (n.attempt a).settled = false) :
    Grows n (n.setAttempt a f) := by
  refine ⟨Nat.le_refl _, ?_, fun _ h => h, fun _ h h' => ⟨h, h'⟩⟩
  intro b _ hb
  have hne : b ≠ a := by rintro rfl; simp [ha] at hb
  simp [Natives.setAttempt, update_of_ne hne]

@[simp] theorem settleAll_nativeId (n : Natives) (as : List AttemptId) (a : AttemptId) :
    ((n.settleAll as).attempt a).nativeId = (n.attempt a).nativeId := by
  simp only [settleAll]
  split <;> rfl

@[simp] theorem settleAll_target (n : Natives) (as : List AttemptId) (a : AttemptId) :
    ((n.settleAll as).attempt a).target = (n.attempt a).target := by
  simp only [settleAll]
  split <;> rfl

@[simp] theorem settleAll_error (n : Natives) (as : List AttemptId) (a : AttemptId) :
    ((n.settleAll as).attempt a).error = (n.attempt a).error := by
  simp only [settleAll]
  split <;> rfl

@[simp] theorem settleAll_settled (n : Natives) (as : List AttemptId) (a : AttemptId) :
    ((n.settleAll as).attempt a).settled = (decide (a ∈ as) || (n.attempt a).settled) := by
  simp only [settleAll]
  split <;> simp [*]

theorem settleAll_handle (n : Natives) (as : List AttemptId) (h : Nat) : (n.settleAll as).handle h = n.handle h ∨
      h ≠ 0 ∧ (∃ a ∈ as, (n.attempt a).settled = false ∧ (n.attempt a).nativeId = h) ∧
        (n.settleAll as).handle h = { n.handle h with destroyed := true } := by
  simp only [settleAll]
  split
  · next hc =>
    obtain ⟨h₀, hany⟩ := hc
    simp only [any_eq_true, and_eq_true, not_eq_true', decide_eq_true_eq] at hany
    exact .inr ⟨h₀, hany, rfl⟩
  · exact .inl rfl

theorem settleAll_destroyed {as : List AttemptId} {a : AttemptId} (ha : a ∈ as) (hs : (n.attempt a).settled = false)
    (hid : (n.attempt a).nativeId ≠ 0) : ((n.settleAll as).handle (n.attempt a).nativeId).destroyed = true := by
  simp only [settleAll]; rw [if_pos ⟨hid, any_eq_true.2 ⟨a, ha, by simp [hs]⟩⟩]

theorem Ok.settleAll (h : n.Ok) {as : List AttemptId} (has : ∀ a ∈ as, a < n.attemptCount) : (n.settleAll as).Ok := by
  refine h.of_same_ids rfl (settleAll_nativeId n as) ?_ ?_
  · intro b hb
    have hne : b ∉ as := fun hmem => absurd (has b hmem) (Nat.not_lt.2 hb)
    simpa [Natives.settleAll, hne] using h.unmade b hb
  · intro i
    obtain heq | ⟨hzero, ⟨a, -, -, rfl⟩, heq⟩ := settleAll_handle n as i
    · exact .inl heq
    · rw [heq]; exact .inr ⟨hzero, h.bound a, .inl rfl, h.connects _⟩

theorem Grows.settleAll (n : Natives) (as : List AttemptId) : Grows n (n.settleAll as) := by
  refine ⟨Nat.le_refl _, ?_, ?_, ?_⟩
  · intro a _ ha
    simp only [Natives.settleAll]
    split
    · cases hn : n.attempt a
      simp_all
    · rfl
  · intro i hi
    obtain heq | ⟨-, -, heq⟩ := settleAll_handle n as i
    · rwa [heq]
    · rw [heq]
  · intro i hp hc
    obtain heq | ⟨-, -, heq⟩ := settleAll_handle n as i <;> (rw [heq]; exact ⟨hp, hc⟩)

theorem Grows.trans {n₁ n₂ n₃ : Natives} (h : Grows n₁ n₂) (h' : Grows n₂ n₃) : Grows n₁ n₃ := by
  refine ⟨h.made.trans h'.made, ?_, fun i hi => h'.destroyed i (h.destroyed i hi), ?_⟩
  · intro a ha hs
    have h₂ := h.settled a ha hs
    rw [h'.settled a (Nat.lt_of_lt_of_le ha h.made) (by rw [h₂]; exact hs), h₂]
  · intro i hp hc
    obtain ⟨hp', hc'⟩ := h.spent i hp hc; exact h'.spent i hp' hc'

theorem Ok.newAttempt (h : n.Ok) (target : Target) : (n.newAttempt target).Ok := by
  refine h.of_same_ids rfl ?_ ?_ (fun _ => .inl rfl)
  · intro b
    by_cases heq : b = n.attemptCount
    · subst heq; simp [Natives.newAttempt, Natives.setAttempt, h.unmade]
    · simp [Natives.newAttempt, Natives.setAttempt, update_of_ne heq]
  · intro b hb
    have hne : b ≠ n.attemptCount := by rintro rfl; exact absurd hb (Nat.not_le.2 (Nat.lt_succ_self _))
    simpa [Natives.newAttempt, Natives.setAttempt, update_of_ne hne] using h.unmade b (Nat.le_of_succ_le hb)

theorem Grows.newAttempt (n : Natives) (target : Target) : Grows n (n.newAttempt target) := by
  refine ⟨Nat.le_succ _, ?_, fun _ h => h, fun _ h h' => ⟨h, h'⟩⟩
  intro a ha _; simp [Natives.newAttempt, Natives.setAttempt, update_of_ne (Nat.ne_of_lt ha)]

theorem Ok.newHandle (h : n.Ok) {a : AttemptId} (ha : a < n.attemptCount) (hnone : (n.attempt a).nativeId = 0) :
    (n.newHandle a).Ok := by
  have hself : ((n.newHandle a).attempt a).nativeId = n.handleCount + 1 := by
    simp [Natives.newHandle, Natives.setAttempt]
  have hother : ∀ b, b ≠ a → (n.newHandle a).attempt b = n.attempt b := by
    intro b hb; simp [Natives.newHandle, Natives.setAttempt, Natives.setHandle, update_of_ne hb]
  have hhandle : ∀ i, i ≠ n.handleCount + 1 → (n.newHandle a).handle i = n.handle i := by
    intro i hi; simp [Natives.newHandle, Natives.setAttempt, Natives.setHandle, update_of_ne hi]
  have hnew : (n.newHandle a).handle (n.handleCount + 1) = { notify := some a } := by
    simp [Natives.newHandle, Natives.setAttempt, Natives.setHandle]
  constructor
  · rw [hhandle 0 (by omega)]; exact h.zero
  · intro i hi; simp only [Natives.newHandle] at hi; rw [hhandle i (by omega)]; exact h.fresh i (by omega)
  · intro b hb
    have hne : b ≠ a := by rintro rfl; exact absurd ha (Nat.not_lt.2 hb)
    rw [hother b hne]; exact h.unmade b hb
  · intro b
    by_cases heq : b = a
    · subst heq; exact Nat.le_of_eq hself
    · rw [hother b heq]; exact Nat.le_succ_of_le (h.bound b)
  · intro i h₀ h₁
    by_cases hi : i = n.handleCount + 1
    · exact ⟨a, hself.trans hi.symm⟩
    · obtain ⟨b, hb⟩ := h.owned i h₀ (by simp only [Natives.newHandle] at h₁; omega)
      have hne : b ≠ a := by rintro rfl; omega
      exact ⟨b, by rw [hother b hne, hb]⟩
  · intro b b' hb hbb
    have hb₁ := h.bound b
    have hb₂ := h.bound b'
    by_cases h₁ : b = a <;> by_cases h₂ : b' = a
    · rw [h₁, h₂]
    · subst h₁; rw [hself, hother b' h₂] at hbb; omega
    · subst h₂; rw [hself, hother b h₁] at hbb; omega
    · rw [hother b h₁] at hb hbb; rw [hother b' h₂] at hbb; exact h.inj b b' hb hbb
  · intro i b hi
    by_cases heq : i = n.handleCount + 1
    · subst heq
      rw [hnew] at hi
      cases hi; exact hself
    · rw [hhandle i heq] at hi
      have hid := h.notify i b hi
      have hne : b ≠ a := by
        rintro rfl; rw [hnone] at hid; subst hid; simp [h.zero] at hi
      rw [hother b hne]; exact hid
  · intro i
    by_cases heq : i = n.handleCount + 1
    · subst heq; simp [hnew]
    · rw [hhandle i heq]; exact h.connects i

theorem Ok.grows_newHandle (h : n.Ok) {a : AttemptId} (ha : (n.attempt a).settled = false) : Grows n (n.newHandle a) := by
  have hfresh := h.fresh (n.handleCount + 1) (Nat.lt_succ_self _)
  have hset : Grows n (n.setHandle (n.handleCount + 1) (fun _ => { notify := some a })) :=
    Grows.setHandle (by simp [hfresh]) (by simp [hfresh])
  have hattempt := Grows.setAttempt (n := n.setHandle (n.handleCount + 1) (fun _ => { notify := some a }))
    (f := fun attempt => { attempt with nativeId := n.handleCount + 1 }) (a := a) ha
  obtain ⟨h₁, h₂, h₃, h₄⟩ := hset.trans hattempt; exact ⟨h₁, h₂, h₃, h₄⟩

/-! ## The winner -/

/-- What `winAttempt` does to attempts and handles. -/
def win (n : Natives) (attempts : List AttemptId) (a : AttemptId) (ops : List HandleOp) : Natives :=
  ((n.setAttempt a (fun attempt => { attempt with settled := true })).settleAll (attempts.erase a)).setHandle
    (n.attempt a).nativeId (fun h => { h with notify := none, ops := h.ops ++ ops })

section

variable {attempts : List AttemptId} {a : AttemptId} (ops : List HandleOp)

variable (b : AttemptId)

theorem win_nativeId : ((n.win attempts a ops).attempt b).nativeId = (n.attempt b).nativeId := by
  simp only [win, setHandle, settleAll_nativeId]
  by_cases hb : b = a
  · simp [hb, setAttempt]
  · simp [setAttempt, update_of_ne hb]

theorem win_target : ((n.win attempts a ops).attempt b).target = (n.attempt b).target := by
  simp only [win, setHandle, settleAll_target]
  by_cases hb : b = a
  · simp [hb, setAttempt]
  · simp [setAttempt, update_of_ne hb]

theorem win_error : ((n.win attempts a ops).attempt b).error = (n.attempt b).error := by
  simp only [win, setHandle, settleAll_error]
  by_cases hb : b = a
  · simp [hb, setAttempt]
  · simp [setAttempt, update_of_ne hb]

theorem win_settled {b : AttemptId} (hb : b = a ∨ b ∈ attempts ∨ (n.attempt b).settled = true) :
    ((n.win attempts a ops).attempt b).settled = true := by
  simp only [win, setHandle, settleAll_settled, or_eq_true, decide_eq_true_eq]
  by_cases heq : b = a
  · simp [heq, setAttempt]
  · obtain hb | hb | hb := hb
    · exact absurd hb heq
    · exact .inl ((mem_erase_of_ne heq).2 hb)
    · simp [setAttempt, update_of_ne heq, hb]

theorem win_ops (i : Nat) : ((n.win attempts a ops).handle i).ops =
    if i = (n.attempt a).nativeId ∧ i ≠ 0 then (n.handle i).ops ++ ops else (n.handle i).ops := by
  have hsettle : ∀ j, (((n.setAttempt a (fun attempt => { attempt with settled := true })).settleAll (attempts.erase a)).handle
      j).ops = (n.handle j).ops := by
    intro j
    simp only [settleAll]
    split <;> rfl
  simp only [win, setHandle]
  by_cases hzero : (n.attempt a).nativeId = 0
  · rw [if_pos hzero, if_neg (by omega)]; exact hsettle i
  · rw [if_neg hzero]
    by_cases hi : i = (n.attempt a).nativeId
    · rw [if_pos (by omega), hi, update_self]
      dsimp only; rw [hsettle]
    · rw [if_neg (fun hand => hi hand.1), update_of_ne hi]
      exact hsettle i

theorem Ok.win (h : n.Ok) (ha : a < n.attemptCount) (hattempts : ∀ b ∈ attempts, b < n.attemptCount) :
    (n.win attempts a ops).Ok := by
  have h₁ := h.setAttempt (f := fun attempt => { attempt with settled := true }) ha rfl
  have h₂ := h₁.settleAll (fun b (hb : b ∈ attempts.erase a) => hattempts b (mem_of_mem_erase hb))
  exact h₂.setHandle (h.bound a) ⟨.inr rfl, h₂.connects _⟩

theorem Grows.win (ha : (n.attempt a).settled = false) : Grows n (n.win attempts a ops) := by
  have h₁ := Grows.setAttempt (f := fun attempt => { attempt with settled := true }) ha
  have h₂ := h₁.trans (Grows.settleAll _ (attempts.erase a))
  exact h₂.trans (Grows.setHandle (fun h => h) (fun hp hc => ⟨hp, hc⟩))

theorem Ok.win_destroyed (h : n.Ok) {b : AttemptId} (hb : b ∈ attempts) (hne : b ≠ a) (hs : (n.attempt b).settled = false)
    (hid : (n.attempt b).nativeId ≠ 0) : ((n.win attempts a ops).handle (n.attempt b).nativeId).destroyed = true := by
  have hsame : (n.setAttempt a (fun attempt => { attempt with settled := true })).attempt b = n.attempt b := by
    simp [Natives.setAttempt, update_of_ne hne]
  have hhandle : (n.attempt b).nativeId ≠ (n.attempt a).nativeId := fun heq => hne (h.inj b a hid heq)
  have hdes := settleAll_destroyed (n := n.setAttempt a (fun attempt => { attempt with settled := true }))
    ((mem_erase_of_ne hne).2 hb : b ∈ attempts.erase a) (by rw [hsame]; exact hs) (by rw [hsame]; exact hid)
  rw [hsame] at hdes
  simp only [Natives.win, Natives.setHandle]
  split
  · exact hdes
  · rwa [update_of_ne hhandle]

end

end Natives

end NodeCompat.Net
