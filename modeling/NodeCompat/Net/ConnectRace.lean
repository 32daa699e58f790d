import NodeCompat.Net.Natives

/-!
# The race of the connection attempts

`RecordOk` is what the record of a call says about its attempts, and `Raced` how the fields of the socket follow the record of
the current call.
-/

namespace NodeCompat.Net

open List Function Natives

variable {isIP : Bytes → Nat}

/-! ## The record of a call -/

structure RecordOk (isIP : Bytes → Nat) (n : Natives) (r : CallRecord) : Prop where
  made : ∀ a ∈ r.attempts, a < n.attemptCount
  once : r.connects ≤ 1
  inTime : r.lateConnect = false
  /-- The handle of the winner is that of an attempt, and its `connect` was taken. -/
  winner : ∀ h, r.winner = some h → h ≠ 0 ∧ (n.handle h).connectPushed = true ∧ (n.handle h).events.count .connect = 0 ∧
    ∃ a ∈ r.attempts, (n.attempt a).nativeId = h ∧ (n.attempt a).settled = true
  /-- An attempt that is settled has failed, never had a handle, has had it destroyed, or is the winner. -/
  settled : ∀ a ∈ r.attempts, (n.attempt a).settled = true → (n.attempt a).error ≠ none ∨ (n.attempt a).nativeId = 0 ∨
    (n.handle (n.attempt a).nativeId).destroyed = true ∨ r.winner = some (n.attempt a).nativeId
  /-- The targets are tried in order. -/
  order : r.attempts ≠ [] → ∃ ans, r.answer = some ans ∧ r.attempts.map (fun a => (n.attempt a).target) <+: ans.targets isIP
  /-- The aggregate error has the error of every attempt, and every target was tried. -/
  aggregate : ∀ errors, SocketError.aggregate errors ∈ r.raised →
    r.attempts.map (fun a => (n.attempt a).error) = errors.map some ∧
      ∃ ans, r.answer = some ans ∧ r.attempts.map (fun a => (n.attempt a).target) = ans.targets isIP

/-- Every attempt of the call is settled. -/
def Finished (n : Natives) (r : CallRecord) : Prop := ∀ a ∈ r.attempts, (n.attempt a).settled = true

variable {n n' : Natives} {r : CallRecord}

theorem RecordOk.grows (h : RecordOk isIP n r) (hf : Finished n r) (hg : n.Grows n') : RecordOk isIP n' r ∧ Finished n' r := by
  have hsame : ∀ a ∈ r.attempts, n'.attempt a = n.attempt a := fun a ha => hg.settled a (h.made a ha) (hf a ha)
  have htargets : r.attempts.map (fun a => (n'.attempt a).target) = r.attempts.map (fun a => (n.attempt a).target) :=
    map_congr_left (fun a ha => by rw [hsame a ha])
  have herrors : r.attempts.map (fun a => (n'.attempt a).error) = r.attempts.map (fun a => (n.attempt a).error) :=
    map_congr_left (fun a ha => by rw [hsame a ha])
  refine ⟨⟨?_, h.once, h.inTime, ?_, ?_, ?_, ?_⟩, ?_⟩
  · intro a ha; exact Nat.lt_of_lt_of_le (h.made a ha) hg.made
  · intro i hi
    obtain ⟨hzero, hp, hc, a, ha, hid, hs⟩ := h.winner i hi
    obtain ⟨hp', hc'⟩ := hg.spent i hp hc
    exact ⟨hzero, hp', hc', a, ha, by rw [hsame a ha]; exact hid, by rw [hsame a ha]; exact hs⟩
  · intro a ha hs
    rw [hsame a ha] at hs ⊢
    obtain he | hz | hd | hw := h.settled a ha hs
    · exact .inl he
    · exact .inr (.inl hz)
    · exact .inr (.inr (.inl (hg.destroyed _ hd)))
    · exact .inr (.inr (.inr hw))
  · rw [htargets]; exact h.order
  · rw [herrors, htargets]; exact h.aggregate
  · intro a ha; rw [hsame a ha]; exact hf a ha

theorem RecordOk.of_same_attempts (h : RecordOk isIP n r) (hg : n.Grows n') (hattempt : n'.attempt = n.attempt) :
    RecordOk isIP n' r := by
  refine ⟨fun a ha => Nat.lt_of_lt_of_le (h.made a ha) hg.made, h.once, h.inTime, ?_, ?_, ?_, ?_⟩
  · intro i hi
    obtain ⟨hzero, hp, hc, hex⟩ := h.winner i hi
    obtain ⟨hp', hc'⟩ := hg.spent i hp hc; rw [hattempt]; exact ⟨hzero, hp', hc', hex⟩
  · intro a ha hs
    rw [hattempt] at hs ⊢
    obtain he | hz | hd | hw := h.settled a ha hs
    · exact .inl he
    · exact .inr (.inl hz)
    · exact .inr (.inr (.inl (hg.destroyed _ hd)))
    · exact .inr (.inr (.inr hw))
  · rw [hattempt]; exact h.order
  · rw [hattempt]; exact h.aggregate

/-! ## The race -/

structure Raced (isIP : Bytes → Nat) (s : Race) : Prop where
  natives : s.toNatives.Ok
  idle : s.connecting = true → s.nativeId = 0 ∧ s.destroyed = false
  ended : s.now.ended = s.destroyed
  /-- Attempts that are not settled are those of the current call, while it is connecting. -/
  live : ∀ a, a < s.attemptCount → (s.attempt a).settled = false → s.connecting = true ∧ a ∈ s.attempts
  racing : s.connecting = true → s.attempts = s.now.attempts ∧ s.now.winner = none ∧ s.now.connects = 0 ∧ s.now.raised = []
  quiet : s.connecting = false → s.attempts = [] ∧ s.attemptTimer = none
  failed : s.connecting = true → ∀ a ∈ s.attempts, (s.attempt a).settled = true → (s.attempt a).error ≠ none
  won : s.nativeId = s.now.winner.getD 0
  /-- Every attempt is one of a call. -/
  listed : ∀ a, a < s.attemptCount → a ∈ s.now.attempts ∨ ∃ r ∈ s.past, a ∈ r.attempts
  past : ∀ r ∈ s.past, RecordOk isIP s.toNatives r ∧ Finished s.toNatives r
  now : RecordOk isIP s.toNatives s.now
  begun : s.now.begun = true → ∃ ans, s.now.answer = some ans ∧ s.attemptTargets = ans.targets isIP ∧
    s.now.attempts.map (fun a => (s.attempt a).target) = s.attemptTargets.take s.attemptNext
  unbegun : s.now.begun = false → s.now.attempts = []
  timer : ∀ g a, s.attemptTimer = some (g, a) → g = s.connectGeneration ∧ s.now.begun = true

namespace Raced

variable {s : Race}

variable {a : AttemptId}

section

variable (h : Raced isIP s)
include h

theorem past_grows (hg : s.toNatives.Grows n') :
    ∀ r ∈ s.past, RecordOk isIP n' r ∧ Finished n' r := fun r hr => (h.past r hr).1.grows (h.past r hr).2 hg

theorem made (ha : a ∈ s.attempts) : a < s.attemptCount := by
  cases hc : s.connecting with
  | true => exact h.now.made a ((h.racing hc).1 ▸ ha)
  | false => simp [(h.quiet hc).1] at ha

theorem winner_eq (hne : s.nativeId ≠ 0) : s.now.winner = some s.nativeId := by
  have hwon := h.won
  cases hw : s.now.winner with
  | none => rw [hw] at hwon; exact absurd hwon hne
  | some i =>
    rw [hw] at hwon; rw [hwon]; rfl

theorem begun_of_live (hmade : a < s.attemptCount) (hs : (s.attempt a).settled = false) : s.now.begun = true := by
  obtain ⟨hc, hmem⟩ := h.live a hmade hs
  by_contra hb
  have hnil := h.unbegun (by simpa using hb); rw [(h.racing hc).1, hnil] at hmem; cases hmem

theorem finished (hc : s.connecting = false) : Finished s.toNatives s.now := by
  intro a ha
  by_contra hs
  have := (h.live a (h.now.made a ha) (by simpa using hs)).1; simp [hc] at this

theorem setHandle {i : Nat} {f : Handle → Handle} (hi : i ≤ s.handleCount)
    (hf : Natives.Follows (s.handle i) (f (s.handle i)))
    (hdestroyed : (s.handle i).destroyed = true → (f (s.handle i)).destroyed = true)
    (hspent : (s.handle i).connectPushed = true → (s.handle i).events.count .connect = 0 →
      (f (s.handle i)).connectPushed = true ∧ (f (s.handle i)).events.count .connect = 0) :
    Raced isIP { s with toNatives := s.toNatives.setHandle i f } := by
  have hg : s.toNatives.Grows (s.toNatives.setHandle i f) := Natives.Grows.setHandle hdestroyed hspent
  exact ⟨h.natives.setHandle hi hf, h.idle, h.ended, h.live, h.racing, h.quiet, h.failed, h.won, h.listed, h.past_grows hg,
    h.now.of_same_attempts hg rfl, h.begun, h.unbegun, h.timer⟩

theorem note (requested : List HandleOp) (closes : Nat) :
    Raced isIP { s with now := { s.now with requested, closes } } :=
  ⟨h.natives, h.idle, h.ended, h.live, h.racing, h.quiet, h.failed, h.won, h.listed, h.past,
    ⟨h.now.made, h.now.once, h.now.inTime, h.now.winner, h.now.settled, h.now.order, h.now.aggregate⟩, h.begun, h.unbegun,
    h.timer⟩

theorem answer (hc : s.connecting = true) (hbegun : s.now.begun = false) (ans : Answered) :
    Raced isIP { s with now := { s.now with answer := some ans } } := by
  have hnone := h.unbegun hbegun
  refine ⟨h.natives, h.idle, h.ended, h.live, h.racing, h.quiet, h.failed, h.won, h.listed, h.past,
    ⟨h.now.made, h.now.once, h.now.inTime, h.now.winner, h.now.settled, ?_, ?_⟩, ?_, h.unbegun, h.timer⟩
  · intro hne; exact absurd hnone hne
  · intro errors hmem; simp [(h.racing hc).2.2.2] at hmem
  · intro hb; simp [hbegun] at hb

theorem start (hbegun : s.now.begun = false) {ans : Answered} (hans : s.now.answer = some ans) :
    Raced isIP { s with attemptTargets := ans.targets isIP, attemptNext := 0, now := { s.now with begun := true } } := by
  have hnone := h.unbegun hbegun
  refine ⟨h.natives, h.idle, h.ended, h.live, h.racing, h.quiet, h.failed, h.won, h.listed, h.past,
    ⟨h.now.made, h.now.once, h.now.inTime, h.now.winner, h.now.settled, h.now.order, h.now.aggregate⟩, ?_, ?_, ?_⟩
  · intro _; exact ⟨ans, hans, rfl, by simp [hnone]⟩
  · intro hb; cases hb
  · intro g a hga; exact ⟨(h.timer g a hga).1, rfl⟩

theorem clearTimer : Raced isIP { s with attemptTimer := none } :=
  ⟨h.natives, h.idle, h.ended, h.live, h.racing, fun hc => ⟨(h.quiet hc).1, rfl⟩, h.failed, h.won, h.listed, h.past, h.now, h.begun,
    h.unbegun, by simp⟩

section

variable (hc : s.connecting = true)
include hc

theorem startNext (hbegun : s.now.begun = true) {target : Target}
    (ht : s.attemptTargets[s.attemptNext]? = some target) :
    Raced isIP { s with
      toNatives := s.toNatives.newAttempt target
      attemptTimer := none
      attemptNext := s.attemptNext + 1
      attempts := s.attempts ++ [s.attemptCount]
      now := { s.now with attempts := s.now.attempts ++ [s.attemptCount] } } := by
  obtain ⟨hattempts, hwinner, hconnects, hraised⟩ := h.racing hc
  obtain ⟨ans, hans, htargets, htaken⟩ := h.begun hbegun
  have hother : ∀ a, a < s.attemptCount → (s.toNatives.newAttempt target).attempt a = s.attempt a := by
    intro a ha; simp [newAttempt, setAttempt, update_of_ne (Nat.ne_of_lt ha)]
  have hnew : (s.toNatives.newAttempt target).attempt s.attemptCount = { target } := by
    simp [newAttempt, setAttempt]
  have hmap : ∀ {β : Type} (f : ConnectAttempt → β),
      s.now.attempts.map (fun a => f ((s.toNatives.newAttempt target).attempt a)) = s.now.attempts.map (fun a => f (s.attempt a)) :=
    fun f => map_congr_left (fun a ha => by rw [hother a (h.now.made a ha)])
  have htaken' : (s.now.attempts ++ [s.attemptCount]).map (fun a => ((s.toNatives.newAttempt target).attempt a).target) =
      s.attemptTargets.take (s.attemptNext + 1) := by
    rw [map_append, hmap (fun a => a.target), htaken, take_add_one, ht]
    simp [hnew]
  refine ⟨h.natives.newAttempt target, h.idle, h.ended, ?_, ?_, ?_, ?_, h.won, ?_,
    h.past_grows (Natives.Grows.newAttempt _ target), ⟨?_, h.now.once, h.now.inTime, ?_, ?_, ?_, ?_⟩, ?_, ?_, by simp⟩
  · intro a ha hs
    refine ⟨hc, ?_⟩
    by_cases heq : a = s.attemptCount
    · simp [heq]
    · have hlt : a < s.attemptCount := Nat.lt_of_le_of_ne (Nat.lt_succ_iff.1 ha) heq
      rw [hother a hlt] at hs; exact mem_append_left _ (h.live a hlt hs).2
  · intro _; exact ⟨by simp only [hattempts], hwinner, hconnects, hraised⟩
  · intro hc'; simp [hc] at hc'
  · intro _ a ha hs
    obtain ha | ha := mem_append.1 ha
    · rw [hother a (h.made ha)] at hs ⊢; exact h.failed hc a ha hs
    · rw [mem_singleton] at ha; subst ha; simp [hnew] at hs
  · intro a ha
    by_cases heq : a = s.attemptCount
    · exact .inl (by simp [heq])
    · obtain hnow | hpast := h.listed a (Nat.lt_of_le_of_ne (Nat.lt_succ_iff.1 ha) heq)
      · exact .inl (mem_append_left _ hnow)
      · exact .inr hpast
  · intro a ha
    obtain ha | ha := mem_append.1 ha
    · exact Nat.lt_succ_of_lt (h.now.made a ha)
    · rw [mem_singleton] at ha; subst ha; exact Nat.lt_succ_self _
  · intro i hi; simp [hwinner] at hi
  · intro a ha hs
    obtain ha | ha := mem_append.1 ha
    · rw [hother a (h.now.made a ha)] at hs ⊢; exact .inl (h.failed hc a (hattempts ▸ ha) hs)
    · rw [mem_singleton] at ha; subst ha; simp [hnew] at hs
  · intro _
    refine ⟨ans, hans, ?_⟩
    rw [htaken', htargets]; exact take_prefix _ _
  · intro errors hmem; simp [hraised] at hmem
  · intro _; exact ⟨ans, hans, htargets, htaken'⟩
  · intro hb; simp [hbegun] at hb

/-- An attempt of the current call, while it is connecting, is changed other than in its target and its handles: it gets a
handle, or it fails. -/
theorem setLive (ha : (s.attempt a).settled = false)
    (hok : n'.Ok) (hg : s.toNatives.Grows n') (hcount : n'.attemptCount = s.attemptCount)
    (hother : ∀ b, b ≠ a → n'.attempt b = s.attempt b) (htarget : (n'.attempt a).target = (s.attempt a).target)
    (hfailed : (n'.attempt a).settled = true → (n'.attempt a).error ≠ none) :
    Raced isIP { s with toNatives := n' } := by
  obtain ⟨hattempts, hwinner, hconnects, hraised⟩ := h.racing hc
  have htargets : s.now.attempts.map (fun a => (n'.attempt a).target) = s.now.attempts.map (fun a => (s.attempt a).target) := by
    refine map_congr_left (fun b _ => ?_)
    by_cases heq : b = a
    · rw [heq, htarget]
    · rw [hother b heq]
  have hfails : ∀ b ∈ s.now.attempts, (n'.attempt b).settled = true → (n'.attempt b).error ≠ none := by
    intro b hb hs
    by_cases heq : b = a
    · subst heq; exact hfailed hs
    · rw [hother b heq] at hs ⊢; exact h.failed hc b (hattempts ▸ hb) hs
  refine ⟨hok, h.idle, h.ended, ?_, h.racing, h.quiet, ?_, h.won, ?_, h.past_grows hg, ⟨?_, h.now.once, h.now.inTime, ?_, ?_, ?_, ?_⟩,
    ?_, h.unbegun, h.timer⟩
  · intro b hb hs
    by_cases heq : b = a
    · subst heq; exact h.live b (hcount ▸ hb) ha
    · rw [hother b heq] at hs; exact h.live b (hcount ▸ hb) hs
  · intro _ b hb; exact hfails b (hattempts ▸ hb)
  · intro b hb; exact h.listed b (hcount ▸ hb)
  · intro b hb; rw [hcount]; exact h.now.made b hb
  · intro i hi; simp [hwinner] at hi
  · intro b hb hs; exact .inl (hfails b hb hs)
  · rw [htargets]; exact h.now.order
  · intro errors hmem; simp [hraised] at hmem
  · rw [htargets]; exact h.begun

theorem newHandle (hmade : a < s.attemptCount)
    (ha : (s.attempt a).settled = false) (hnone : (s.attempt a).nativeId = 0) :
    Raced isIP { s with toNatives := s.toNatives.newHandle a } := by
  refine h.setLive hc ha (h.natives.newHandle hmade hnone) (h.natives.grows_newHandle ha) rfl ?_ ?_ ?_
  · intro b hb; simp [Natives.newHandle, Natives.setAttempt, Natives.setHandle, update_of_ne hb]
  · simp [Natives.newHandle, Natives.setAttempt, Natives.setHandle]
  · simp [Natives.newHandle, Natives.setAttempt, Natives.setHandle, ha]

theorem fail (hmade : a < s.attemptCount)
    (ha : (s.attempt a).settled = false) (error : AttemptError) :
    Raced isIP { s with toNatives := s.toNatives.setAttempt a (fun attempt =>
      { attempt with settled := true, error := some error }) } := by
  refine h.setLive hc ha (h.natives.setAttempt hmade rfl) (Natives.Grows.setAttempt ha) rfl ?_ ?_ ?_
  · intro b hb; simp [setAttempt, update_of_ne hb]
  · simp [setAttempt]
  · simp [setAttempt]

theorem settled_all (ha : a ∈ s.now.attempts) : (s.attempt a).error ≠ none ∨ (s.attempt a).nativeId = 0 ∨
      ((s.toNatives.settleAll s.attempts).handle (s.attempt a).nativeId).destroyed = true := by
  have hmem : a ∈ s.attempts := (h.racing hc).1 ▸ ha
  by_cases hs : (s.attempt a).settled = true
  · exact .inl (h.failed hc a hmem hs)
  · by_cases hzero : (s.attempt a).nativeId = 0
    · exact .inr (.inl hzero)
    · exact .inr (.inr (settleAll_destroyed hmem (by simpa using hs) hzero))

end

/-- The call is destroyed: its attempts are abandoned, with an aggregate error only when all of them have failed. -/
theorem abandon (raised : List SocketError)
    (hraised : ∀ errors, SocketError.aggregate errors ∈ raised → SocketError.aggregate errors ∈ s.now.raised ∨
      s.now.attempts.map (fun a => (s.attempt a).error) = errors.map some ∧
        ∃ ans, s.now.answer = some ans ∧ s.now.attempts.map (fun a => (s.attempt a).target) = ans.targets isIP) :
    Raced isIP { s with
      toNatives := s.toNatives.settleAll s.attempts
      destroyed := true
      connecting := false
      connectGeneration := s.connectGeneration + 1
      attemptTimer := none
      attempts := []
      now := { s.now with ended := true, raised } } := by
  have hg := Natives.Grows.settleAll s.toNatives s.attempts
  refine ⟨h.natives.settleAll (fun a ha => h.made ha), by simp, rfl, ?_, by simp, fun _ => ⟨rfl, rfl⟩, by simp, h.won, h.listed,
    h.past_grows hg, ⟨h.now.made, h.now.once, h.now.inTime, ?_, ?_, ?_, ?_⟩, ?_, h.unbegun, by simp⟩
  · intro a ha hs
    rw [settleAll_settled] at hs
    simp only [Bool.or_eq_false_iff, decide_eq_false_iff_not] at hs
    exact absurd (h.live a ha hs.2).2 hs.1
  · intro i hi
    obtain ⟨hzero, hp, hcnt, a, ha, hid, hs⟩ := h.now.winner i hi
    obtain ⟨hp', hcnt'⟩ := hg.spent i hp hcnt
    exact ⟨hzero, hp', hcnt', a, ha, by simpa using hid, by simp [hs]⟩
  · intro a ha _
    simp only [settleAll_nativeId, settleAll_error]
    cases hc : s.connecting with
    | true =>
      obtain he | hz | hdes := h.settled_all hc ha
      · exact .inl he
      · exact .inr (.inl hz)
      · exact .inr (.inr (.inl hdes))
    | false =>
      obtain he | hz | hdes | hw := h.now.settled a ha (h.finished hc a ha)
      · exact .inl he
      · exact .inr (.inl hz)
      · exact .inr (.inr (.inl (hg.destroyed _ hdes)))
      · exact .inr (.inr (.inr hw))
  · simpa using h.now.order
  · intro errors hmem
    simp only [settleAll_error, settleAll_target]
    obtain hold | hnew := hraised errors hmem
    · exact h.now.aggregate errors hold
    · exact hnew
  · simpa using h.begun

theorem win (hc : s.connecting = true) (ha : a ∈ s.attempts)
    (hs : (s.attempt a).settled = false) (hid : (s.attempt a).nativeId ≠ 0)
    (hpushed : (s.handle (s.attempt a).nativeId).connectPushed = true)
    (htaken : (s.handle (s.attempt a).nativeId).events.count .connect = 0) (ops : List HandleOp) :
    Raced isIP { s with
      toNatives := s.toNatives.win s.attempts a ops
      nativeId := (s.attempt a).nativeId
      connecting := false
      attemptTimer := none
      attempts := []
      now := { s.now with
        winner := some (s.attempt a).nativeId
        connects := s.now.connects + 1
        lateConnect := s.now.lateConnect || s.now.ended } } := by
  obtain ⟨hattempts, hwinner, hconnects, hraised⟩ := h.racing hc
  have hg : s.toNatives.Grows (s.toNatives.win s.attempts a ops) := Natives.Grows.win ops hs
  have htargets : s.now.attempts.map (fun b => ((s.toNatives.win s.attempts a ops).attempt b).target) =
      s.now.attempts.map (fun b => (s.attempt b).target) := map_congr_left (fun b _ => win_target ops b)
  refine ⟨h.natives.win ops (h.made ha) (fun b hb => h.made hb), by simp, h.ended, ?_, by simp, fun _ => ⟨rfl, rfl⟩, by simp,
    rfl, h.listed, h.past_grows hg, ⟨?_, ?_, ?_, ?_, ?_, ?_, ?_⟩, ?_, h.unbegun, by simp⟩
  · intro b hb hsb
    rw [win_settled ops] at hsb
    · cases hsb
    · cases hold : (s.attempt b).settled with
      | true => exact .inr (.inr rfl)
      | false => exact .inr (.inl (h.live b hb hold).2)
  · exact h.now.made
  · simp [hconnects]
  · simp [h.now.inTime, h.ended, (h.idle hc).2]
  · intro i hi
    cases hi
    obtain ⟨hp', hc'⟩ := hg.spent _ hpushed htaken
    exact ⟨hid, hp', hc', a, hattempts ▸ ha, win_nativeId ops a, win_settled ops (.inl rfl)⟩
  · intro b hb _
    rw [win_error, win_nativeId]
    by_cases heq : b = a
    · exact .inr (.inr (.inr (by rw [heq])))
    · have hmem : b ∈ s.attempts := hattempts ▸ hb
      cases hold : (s.attempt b).settled with
      | true => exact .inl (h.failed hc b hmem hold)
      | false =>
        by_cases hzero : (s.attempt b).nativeId = 0
        · exact .inr (.inl hzero)
        · exact .inr (.inr (.inl (h.natives.win_destroyed ops hmem heq hold hzero)))
  · rw [htargets]; exact h.now.order
  · intro errors hmem; simp [hraised] at hmem
  · rw [htargets]; exact h.begun

theorem peerClose (hnative : s.nativeId ≠ 0) :
    Raced isIP { s with connecting := false, destroyed := true, now := { s.now with ended := true } } := by
  have hc : s.connecting = false := by
    by_contra hc
    exact hnative (h.idle (by simpa using hc)).1
  have hover := h.quiet hc
  refine ⟨h.natives, by simp, rfl, ?_, by simp, fun _ => hover, by simp, h.won, h.listed, h.past,
    ⟨h.now.made, h.now.once, h.now.inTime, h.now.winner, h.now.settled, h.now.order, h.now.aggregate⟩, h.begun, h.unbegun, h.timer⟩
  intro a ha hs
  have := (h.live a ha hs).1; simp [hc] at this

theorem reset (hc : s.connecting = false) (answer : Option Answered) : Raced isIP { s with
      past := s.past ++ [s.now]
      now := { answer }
      connectGeneration := s.connectGeneration + 1
      destroyed := false
      connecting := true
      nativeId := 0
      attempts := []
      attemptTargets := []
      attemptNext := 0 } := by
  have hover := h.quiet hc
  refine ⟨h.natives, fun _ => ⟨rfl, rfl⟩, rfl, ?_, fun _ => ⟨rfl, rfl, rfl, rfl⟩, by simp, by simp, rfl, ?_, ?_,
    ⟨by simp, by simp, rfl, by simp, by simp, by simp, by simp⟩, by simp, fun _ => rfl, ?_⟩
  · intro a ha hs
    have := (h.live a ha hs).1; simp [hc] at this
  · intro a ha
    obtain hnow | ⟨r, hr, har⟩ := h.listed a ha
    · exact .inr ⟨s.now, by simp, hnow⟩
    · exact .inr ⟨r, mem_append_left _ hr, har⟩
  · intro r hr
    obtain hr | hr := mem_append.1 hr
    · exact h.past r hr
    · rw [mem_singleton] at hr; subst hr; exact ⟨h.now, h.finished hc⟩
  · intro g a hga; simp [hover.2] at hga

end

end Raced

end NodeCompat.Net
