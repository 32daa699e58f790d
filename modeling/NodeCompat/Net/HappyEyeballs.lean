import NodeCompat.Net.RaceSteps
import NodeCompat.Net.RaceOrder

/-!
# The race over whole runs

The generation of a `connect` retires its callbacks, but not the `close` of an earlier `destroy`, which belongs to the object:
a `connect` before it is over gets it (`stale_close_taken`). When no `connect` comes before that (`composed`), every call has a
fair race, and what belongs to an abandoned call changes nothing (`race_fair`).
-/

namespace NodeCompat.Net

open List

open Socket

variable {isIP : Bytes → Nat}

/-! ## The condition -/

namespace SocketConfig

/-- The `close` of the call before has been emitted and its listeners have returned; or there was nothing to close. -/
def closeOver (c : SocketConfig) : Bool :=
  (!c.socket.destroyed || c.socket.closeEmitted) && !c.works.any Work.closes && !c.socket.microtasks.any Microtask.closes

/-- A `connect` goes through only when the call before is over, also after its listener was registered. -/
def composed (c : SocketConfig) : Label → Bool
  | .tick _ =>
    match c.works with
    | .reset _ :: _ => !c.socket.busy && c.closeOver
    | _ => true
  | _ => true

theorem composed_reset {c : SocketConfig} {o : ConnectOptions} {ws : List Work} {created : Created}
    (h : c.composed (.tick created) = true) (hw : c.works = .reset o :: ws) :
    c.socket.connecting = false ∧ (c.socket.nativeId ≠ 0 → c.socket.destroyed = true) ∧
      (c.socket.destroyed = true → c.socket.closeEmitted = true) ∧ (∀ m ∈ c.socket.microtasks, m.closes = false) ∧
      ∀ w ∈ ws, w.closes = false := by
  simp only [composed, hw, closeOver, Socket.busy, Bool.and_eq_true, Bool.not_eq_true', Bool.or_eq_false_iff,
    Bool.and_eq_false_iff, Bool.or_eq_true, List.any_eq_false, Bool.not_eq_true] at h
  obtain ⟨⟨hnative, hc⟩, ⟨hd, hworks⟩, htasks⟩ := h
  refine ⟨hc, ?_, ?_, htasks, fun w hmem => hworks w (mem_cons_of_mem _ hmem)⟩
  · intro hne; simpa [hne] using hnative
  · intro hd'; simpa [hd'] using hd

end SocketConfig

/-! ## Steps -/

theorem unwind_sublist (ws : List Work) : (unwind ws).Sublist ws := dropWhile_sublist _

namespace Orderly

theorem event {s : Socket} {ws : List Work} (h : Orderly isIP s ws) {i : Nat} (hi : i ≤ s.handleCount) {e : NativeEvent}
    (hconnect : e = .connect → (s.handle i).connectPushed = false) :
    Orderly isIP (s.native i (fun handle =>
      { handle with events := handle.events ++ [e], connectPushed := handle.connectPushed || e = .connect })) ws := by
  have hcount := h.raced.natives.connects i
  refine h.native hi ⟨.inl rfl, ?_⟩ (fun hd => hd) ?_
  · rw [count_append, count_singleton]
    by_cases he : e = .connect
    · rw [hconnect he] at hcount; simp only [he, beq_self_eq_true, if_true, decide_true, Bool.or_true]; simpa using hcount
    · simpa [he] using hcount
  · intro hp hzero
    have he : e ≠ .connect := by intro he; simp [hconnect he] at hp
    exact ⟨by simp [hp], by simp [hzero, he]⟩

theorem notified {s : Socket} (h : Orderly isIP s []) (i : Nat) (hi : 0 < i) :
    Orderly isIP s [match (s.handle i).notify with | some a => .dispatchAttempt a | none => .dispatch] := by
  split
  · next a ha =>
    have hid := h.raced.natives.notify i a ha
    have hmade : a < s.attemptCount := h.raced.natives.made_of_handle (by omega)
    exact h.push (w := .dispatchAttempt a) hmade rfl rfl
  · exact h.push trivial rfl rfl

theorem step {c c' : SocketConfig} {l : SocketConfig.Label} (h : Orderly isIP c.socket c.works) (hcond : c.composed l = true)
    (hstep : c.step isIP l = some c') : Orderly isIP c'.socket c'.works := by
  cases l with
  | tick created =>
    simp only [SocketConfig.step] at hstep
    split at hstep
    · cases hstep
    · next w ws hw =>
      split at hstep
      · cases hstep
      · cases hstep
        rw [hw] at h
        refine h.tick created ?_
        rintro o rfl
        obtain ⟨hc, -, -, htasks, hworks⟩ := SocketConfig.composed_reset hcond hw
        exact ⟨hc, htasks, hworks⟩
  | call k =>
    simp only [SocketConfig.step] at hstep
    split at hstep
    · cases hstep; exact h.callMethod k
    · cases hstep
  | answer index a =>
    simp only [SocketConfig.step] at hstep
    split at hstep
    · split at hstep
      · cases hstep
      · next l hl =>
        cases hstep
        obtain ⟨herased, hcb⟩ := h.answered hl
        dsimp only [SocketConfig.proceed]
        split
        · exact herased.onLookupAll hcb a
        · exact herased.onLookupOne hcb a
    · cases hstep
  | ret =>
    simp only [SocketConfig.step] at hstep
    split at hstep
    · cases hstep
    · next w ws hw =>
      split at hstep
      · cases hstep; rw [hw] at h; exact h.pop
      · cases hstep
  | throw =>
    simp only [SocketConfig.step] at hstep
    split at hstep
    · cases hstep
    · next w ws hw =>
      split at hstep
      · cases hstep; rw [hw] at h; exact h.pop.drop (unwind_sublist ws)
      · cases hstep
  | microtask index =>
    simp only [SocketConfig.step] at hstep
    split at hstep
    · next m hw hm =>
      cases hstep; rw [hw] at h; exact h.runMicrotask hm
    · cases hstep
  | timer =>
    simp only [SocketConfig.step] at hstep
    split at hstep
    · next g a hw ht =>
      cases hstep; rw [hw] at h; exact h.onTimer ht
    · cases hstep
  | event i e =>
    simp only [SocketConfig.step] at hstep
    split at hstep
    · next hi =>
      cases hstep; exact h.event hi.2.1 hi.2.2
    · cases hstep
  | notify i =>
    simp only [SocketConfig.step] at hstep
    split at hstep
    · next hw =>
      split at hstep
      · next hi =>
        cases hstep; rw [hw] at h; exact h.notified i hi.1
      · cases hstep
    · cases hstep

theorem init : Orderly isIP ({} : Socket) [] := by
  have hnatives : ({} : Natives).Ok := by
    constructor <;> simp
    omega
  have hrecord : RecordOk isIP {} {} := by constructor <;> simp
  have hraced : Raced isIP ({} : Race) := by constructor <;> simp [hnatives, hrecord]
  constructor <;> simp [hraced, starters]

end Orderly

/-! ## What the race is to be -/

/-- The race of a call: at most one `connect`, none behind its end; the targets in their order, each once; the losers of a
winner have failed or are destroyed; the aggregate error has one error for every target. -/
structure FairRace (isIP : Bytes → Nat) (n : Natives) (r : CallRecord) : Prop where
  once : r.connects ≤ 1
  inTime : r.lateConnect = false
  order : r.attempts ≠ [] →
    ∃ ans, r.answer = some ans ∧ r.attempts.map (fun a => (n.attempt a).target) <+: ans.expected isIP
  distinct : (r.attempts.map (fun a => (n.attempt a).target)).Nodup
  losers : ∀ h, r.winner = some h → ∃ a ∈ r.attempts, (n.attempt a).nativeId = h ∧
    ∀ b ∈ r.attempts, b ≠ a → (n.attempt b).nativeId ≠ 0 →
      (n.attempt b).error ≠ none ∨ (n.handle (n.attempt b).nativeId).destroyed = true
  aggregate : ∀ errors, SocketError.aggregate errors ∈ r.raised →
    r.attempts.map (fun a => (n.attempt a).error) = errors.map some ∧
      ∃ ans, r.answer = some ans ∧ r.attempts.map (fun a => (n.attempt a).target) = ans.expected isIP

/-- The generation of what is waiting; the microtask of a `close` has none. -/
def Socket.Work.generation : Work → Option Nat
  | .lookupOne _ g _ _ => some g
  | .lookupAll _ g _ _ _ _ => some g
  | .create g _ => some g
  | .afterTimeout g => some g
  | .afterFailed g _ => some g
  | _ => none

def Microtask.generation : Microtask → Option Nat
  | .begin _ g _ => some g
  | .destroy _ g _ => some g
  | .failAttempt _ g _ _ => some g
  | .emitClose _ => none

def Microtask.call : Microtask → Nat
  | .begin call _ _ => call
  | .destroy call _ _ => call
  | .failAttempt call _ _ _ => call
  | .emitClose call => call

/-- What an abandoned call has left behind: its lookups, microtasks, frames and attempts do nothing, the timer is that of a
call that is connecting, and the `close` that is waiting is that of the current call. -/
structure Retired (isIP : Bytes → Nat) (c : SocketConfig) : Prop where
  answer : ∀ index l a c', c.socket.lookups[index]? = some l → l.call ≠ c.socket.call ∨ c.socket.now.ended = true →
    c.step isIP (.answer index a) = some c' →
      c' = { c with socket := { c.socket with lookups := c.socket.lookups.eraseIdx index } }
  microtask : ∀ index m c', c.socket.microtasks[index]? = some m → m.call ≠ c.socket.call ∨
      c.socket.now.ended = true ∧ m.closes = false →
    c.step isIP (.microtask index) = some c' →
      c' = { c with socket := { c.socket with microtasks := c.socket.microtasks.eraseIdx index } }
  frame : ∀ w ws g created c', c.works = w :: ws → w.generation = some g →
    g ≠ c.socket.connectGeneration ∨ c.socket.now.ended = true → c.step isIP (.tick created) = some c' →
      c' = { c with works := ws }
  attempt : ∀ r ∈ c.socket.past ++ [c.socket.now], r ∈ c.socket.past ∨ c.socket.now.ended = true → ∀ a ∈ r.attempts,
    c.socket.dispatchAttempt a = (c.socket, [])
  timer : ∀ g a, c.socket.attemptTimer = some (g, a) →
    c.socket.connecting = true ∧ c.socket.now.ended = false ∧ g = c.socket.connectGeneration
  close : ∀ w ∈ c.works, w.closes = true → c.socket.now.ended = true ∧
    (w = .destroyRest c.socket.call ∨ w = .clearSelf c.socket.call)

structure RaceOk (isIP : Bytes → Nat) (c : SocketConfig) : Prop where
  calls : ∀ r ∈ c.socket.past ++ [c.socket.now], FairRace isIP c.socket.toNatives r
  native : c.socket.nativeId = c.socket.now.winner.getD 0
  owned : ∀ h, 0 < h → h ≤ c.socket.handleCount →
    ∃ r ∈ c.socket.past ++ [c.socket.now], ∃ a ∈ r.attempts, (c.socket.attempt a).nativeId = h
  retired : Retired isIP c

/-! ## What the invariant says of it -/

theorem RecordOk.fair {n : Natives} {r : CallRecord} (hn : n.Ok) (h : RecordOk isIP n r)
    (hf : r.winner ≠ none → Finished n r) : FairRace isIP n r := by
  have horder : r.attempts ≠ [] →
      ∃ ans, r.answer = some ans ∧ r.attempts.map (fun a => (n.attempt a).target) <+: ans.expected isIP := by
    intro hne
    obtain ⟨ans, hans, hprefix⟩ := h.order hne
    rw [targets_eq] at hprefix; exact ⟨ans, hans, hprefix⟩
  refine ⟨h.once, h.inTime, horder, ?_, ?_, ?_⟩
  · by_cases hne : r.attempts = []
    · simp [hne]
    · obtain ⟨ans, -, hprefix⟩ := horder hne; exact (expected_nodup isIP ans).sublist hprefix.sublist
  · intro i hi
    obtain ⟨hzero, -, -, a, ha, hid, -⟩ := h.winner i hi
    refine ⟨a, ha, hid, ?_⟩
    intro b hb hne hnative
    obtain he | hz | hd | hw := h.settled b hb (hf (by simp [hi]) b hb)
    · exact .inl he
    · exact absurd hz hnative
    · exact .inr hd
    · rw [hi, Option.some.injEq] at hw; exact absurd (hn.inj b a hnative (hw.symm.trans hid.symm)) hne
  · intro errors hmem
    obtain ⟨herrors, ans, hans, htargets⟩ := h.aggregate errors hmem
    rw [targets_eq] at htargets; exact ⟨herrors, ans, hans, htargets⟩

open Microtask

namespace Orderly

variable {s : Socket} {ws : List Work}

section

variable (h : Orderly isIP s ws)
include h

theorem idle_of_ended (hd : s.now.ended = true) : s.connecting = false := by
  by_contra hc
  have := (h.raced.idle (by simpa using hc)).2; rw [← h.raced.ended, hd] at this; cases this

theorem fairRace {r : CallRecord} (hr : r ∈ s.past ++ [s.now]) : FairRace isIP s.toNatives r := by
  obtain hr | hr := mem_append.1 hr
  · exact (h.raced.past r hr).1.fair h.raced.natives (fun _ => (h.raced.past r hr).2)
  · rw [mem_singleton] at hr
    subst hr
    refine h.raced.now.fair h.raced.natives (fun hw => h.raced.finished ?_)
    by_contra hc
    exact hw (h.raced.racing (by simpa using hc)).2.1

theorem settled {r : CallRecord} (hr : r ∈ s.past ++ [s.now]) (hold : r ∈ s.past ∨ s.now.ended = true)
    {a : AttemptId} (ha : a ∈ r.attempts) : (s.attempt a).settled = true := by
  have hpast : r ∈ s.past → (s.attempt a).settled = true := fun hmem => (h.raced.past r hmem).2 a ha
  obtain hr | hr := mem_append.1 hr
  · exact hpast hr
  · obtain hmem | hd := hold
    · exact hpast hmem
    · rw [mem_singleton] at hr; subst hr; exact h.raced.finished (h.idle_of_ended hd) a ha

theorem old_lookup {l : PendingLookup} (hl : l ∈ s.lookups)
    (hold : l.call ≠ s.call ∨ s.now.ended = true) : l.generation ≠ s.connectGeneration := by
  intro heq
  obtain ⟨hcall, hc⟩ := (h.lookups l hl).current heq
  obtain hne | hd := hold
  · exact hne hcall
  · simp [h.idle_of_ended hd] at hc

theorem old_microtask {m : Microtask} (hm : m ∈ s.microtasks)
    (hold : m.call ≠ s.call ∨ s.now.ended = true ∧ m.closes = false) :
    m.closes = false ∧ (m.generation ≠ some s.connectGeneration ∨ s.now.ended = true) := by
  have hok := h.tasks m hm
  cases m with
  | begin call g targets =>
    refine ⟨rfl, ?_⟩
    obtain hne | ⟨hd, -⟩ := hold
    · refine .inl (fun heq => hne (hok.2 ?_).1)
      simpa [generation] using heq
    · exact .inr hd
  | destroy call g error =>
    refine ⟨rfl, ?_⟩
    obtain hne | ⟨hd, -⟩ := hold
    · refine .inl (fun heq => hne (hok.2.1 ?_))
      simpa [generation] using heq
    · exact .inr hd
  | failAttempt call g a error =>
    refine ⟨rfl, ?_⟩
    obtain hne | ⟨hd, -⟩ := hold
    · refine .inl (fun heq => hne (hok.2.2 ?_))
      simpa [generation] using heq
    · exact .inr hd
  | emitClose call =>
    obtain hne | ⟨-, hcloses⟩ := hold
    · exact absurd hok.1 hne
    · cases hcloses

theorem runMicrotask_old {m : Microtask} (hok : TaskOk isIP s.toRace m) (hcloses : m.closes = false)
    (hold : m.generation ≠ some s.connectGeneration ∨ s.now.ended = true) : s.runMicrotask m = (s, []) := by
  have hidle : s.now.ended = true → s.connecting = false := h.idle_of_ended
  cases m with
  | begin call g targets =>
    simp only [Socket.runMicrotask]
    rw [if_pos]
    obtain hne | hd := hold
    · exact .inl (fun heq => hne (by rw [generation, heq]))
    · exact .inr (hidle hd)
  | destroy call g error =>
    simp only [Socket.runMicrotask]
    rw [if_neg]
    rintro ⟨heq, hc⟩
    obtain hne | hd := hold
    · exact hne (by rw [generation, heq])
    · simp [hidle hd] at hc
  | failAttempt call g a error =>
    simp only [Socket.runMicrotask]
    rw [if_neg]
    rintro ⟨heq, hs⟩
    obtain hne | hd := hold
    · exact hne (by rw [generation, heq])
    · have hc := (h.raced.live a hok.2.1 hs).1; simp [hidle hd] at hc
  | emitClose call => cases hcloses

theorem tick_old {w : Work} {g : Nat} (hw : w.generation = some g)
    (hold : g ≠ s.connectGeneration ∨ s.now.ended = true) (created : Created) : s.tick isIP created w = (s, []) := by
  have hguard : g ≠ s.connectGeneration ∨ s.connecting = false := by
    obtain hne | hd := hold
    · exact .inl hne
    · exact .inr (h.idle_of_ended hd)
  cases w with
  | lookupOne call g' error address | lookupAll call g' addresses candidate left b | afterTimeout g' => cases hw; exact if_pos hguard
  | create g' a =>
    cases hw; simp only [Socket.tick, Socket.create]; rw [if_pos hguard]
  | afterFailed g' error => cases hw; exact if_pos hguard
  | _ => cases hw

end

end Orderly

theorem Orderly.retired {c : SocketConfig} (h : Orderly isIP c.socket c.works) : Retired isIP c := by
  constructor
  · intro index l a c' hl hold hstep
    have hne := h.old_lookup (mem_of_getElem? hl) hold
    simp only [SocketConfig.step, hl] at hstep
    split at hstep
    · cases hstep
      have hall : ({ c.socket with lookups := c.socket.lookups.eraseIdx index } : Socket).onLookupAll l.call l.generation a =
          ({ c.socket with lookups := c.socket.lookups.eraseIdx index }, []) := if_pos (.inl hne)
      have hone : ({ c.socket with lookups := c.socket.lookups.eraseIdx index } : Socket).onLookupOne l.call l.generation a =
          ({ c.socket with lookups := c.socket.lookups.eraseIdx index }, []) := if_pos hne
      rw [hall, hone, ite_self]; rfl
    · cases hstep
  · intro index m c' hm hold hstep
    simp only [SocketConfig.step, hm] at hstep
    split at hstep
    · next m' hw hm' =>
      cases hm'
      cases hstep
      obtain ⟨hcloses, hgeneration⟩ := h.old_microtask (mem_of_getElem? hm) hold
      obtain ⟨htaken, hok, -⟩ := h.taken hm
      rw [htaken.runMicrotask_old hok hcloses hgeneration]; simp [SocketConfig.proceed, hw]
    · cases hstep
  · intro w ws g created c' hw hg hold hstep
    simp only [SocketConfig.step, hw] at hstep
    split at hstep
    · cases hstep
    · cases hstep; rw [h.tick_old hg hold created]; rfl
  · intro r hr hold a ha; rw [Socket.dispatchAttempt, if_pos (h.settled hr hold ha)]
  · intro g a ht
    have hc : c.socket.connecting = true := by
      by_contra hc
      simp [(h.raced.quiet (by simpa using hc)).2] at ht
    exact ⟨hc, h.raced.ended.trans (h.raced.idle hc).2, (h.raced.timer g a ht).1⟩
  · intro w hw hcloses
    have hok := h.works w hw
    cases w with
    | destroyRest call => exact ⟨h.raced.ended.trans hok.2, .inl (by rw [hok.1]; rfl)⟩
    | clearSelf call => exact ⟨h.raced.ended.trans hok.2, .inr (by rw [hok.1]; rfl)⟩
    | _ => cases hcloses

theorem Orderly.raceOk {c : SocketConfig} (h : Orderly isIP c.socket c.works) : RaceOk isIP c := by
  refine ⟨fun r hr => h.fairRace hr, h.raced.won, ?_, h.retired⟩
  intro i hpos hle
  obtain ⟨a, ha⟩ := h.raced.natives.owned i hpos hle
  obtain hnow | ⟨r, hr, har⟩ := h.raced.listed a (h.raced.natives.made_of_handle (by omega))
  · exact ⟨c.socket.now, by simp, a, hnow, ha⟩
  · exact ⟨r, mem_append_left _ hr, a, har, ha⟩

/-- **Every call has a fair race**, and what belongs to an abandoned call changes nothing, in runs in which no `connect` goes
through before the call before it is over. -/
theorem race_fair (isIP : Bytes → Nat) {labels : List SocketConfig.Label} {c : SocketConfig}
    (h : Run (SocketConfig.step isIP) (fun c l => c.composed l = true) {} labels c) : RaceOk isIP c := by
  have horderly : Orderly isIP c.socket c.works :=
    h.invariant (I := fun c => Orderly isIP c.socket c.works) (fun c l c' hok hcond hstep => hok.step hcond hstep) Orderly.init
  exact horderly.raceOk

/-- `isIP` on the addresses of the examples below. -/
def loopbackIP (host : Bytes) : Nat :=
  if host = text "127.0.0.1" then 4 else if host = text "::1" then 6 else 0

/-- A host with an address of each family: the first attempt runs into the timer, the second one wins. -/
def raceLabels : List SocketConfig.Label :=
  [.call (.connect { host := text "localhost", port := 80 }), .tick .handle,
    .answer 0 ⟨none, .inr [(text "::1", 6), (text "127.0.0.1", 4)], 0⟩, .ret, .tick .handle, .ret, .tick .handle, .ret,
    .tick .handle, .ret, .timer, .ret, .tick .handle, .ret, .tick .handle, .event 2 .connect, .notify 2, .tick .handle]

theorem race_fair_second : ∃ c : SocketConfig, RaceOk loopbackIP c ∧ c.socket.nativeId = 2 ∧ c.socket.now.connects = 1 ∧
    (c.socket.handle 1).destroyed = true := by
  have hany : (runs (fun (c : SocketConfig) l => if c.composed l then c.step loopbackIP l else none) {} raceLabels).any
      (fun c => c.socket.nativeId = 2 ∧ c.socket.now.connects = 1 ∧ (c.socket.handle 1).destroyed = true) = true := by
    decide +kernel
  obtain ⟨c, hruns, hc⟩ := (Option.any_eq_true _ _).1 hany
  have hrun := Run.of_guarded _ hruns; exact ⟨c, race_fair loopbackIP hrun, by simpa using hc⟩

/-- The microtask of the `close` of a destroyed call is still waiting when the next `connect` goes through: it emits the `close`
of the new call. -/
theorem stale_close_taken : ∃ labels c, Run (SocketConfig.step loopbackIP) (fun _ _ => True) {} labels c ∧
    ¬ RaceOk loopbackIP c := by
  have hany : (runs (SocketConfig.step loopbackIP) {} [.call (.connect { host := text "127.0.0.1", port := 80 }), .tick .handle,
      .call (.destroy none), .call (.connect { host := text "127.0.0.1", port := 80 }), .tick .handle]).any
      (fun c => c.socket.microtasks[1]? = some (.emitClose 1) ∧ c.socket.call = 2 ∧ c.socket.closeEmitted = false ∧
        (c.step loopbackIP (.microtask 1)).any (fun c' => c'.socket.closeEmitted)) = true := by
    decide +kernel
  obtain ⟨c, hruns, hc⟩ := (Option.any_eq_true _ _).1 hany
  simp only [decide_eq_true_eq] at hc
  obtain ⟨htask, hcall, hemitted, hnext⟩ := hc
  refine ⟨_, c, Run.of_runs hruns, ?_⟩
  intro hok
  obtain ⟨c', hstep, hclosed⟩ := (Option.any_eq_true _ _).1 hnext
  have hsame := hok.retired.microtask 1 _ c' htask (.inl (by rw [hcall]; decide)) hstep
  rw [hsame] at hclosed; simp [hemitted] at hclosed

end NodeCompat.Net
