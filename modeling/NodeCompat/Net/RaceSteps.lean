import NodeCompat.Net.ConnectRace

/-!
# What is waiting for a socket

Callbacks, microtasks and the methods under way carry the generation of their call. `Orderly` says that those of the current
generation are those of the current call, that at most one of them can begin the attempts, and `Raced`; every method keeps it.
-/

namespace NodeCompat.Net

open List Function

open Socket Natives

variable {isIP : Bytes → Nat}

/-! ## Waiting -/

def WorkOk (isIP : Bytes → Nat) (s : Race) : Work → Prop
  | .lookupOne call g _ address => g ≤ s.connectGeneration ∧
      (g = s.connectGeneration → call = s.past.length ∧ s.now.answer = some (.one address))
  | .lookupAll call g addresses candidate left b => g ≤ s.connectGeneration ∧
      (g = s.connectGeneration → call = s.past.length ∧ s.now.answer = some (.all addresses) ∧
        ∃ done, addresses = done ++ candidate :: left ∧ b = done.foldl (Buckets.add isIP) {})
  | .create g a => g ≤ s.connectGeneration ∧ a < s.attemptCount ∧ (s.attempt a).nativeId = 0 ∧
      (g = s.connectGeneration → s.connecting = true → (s.attempt a).settled = false)
  | .afterTimeout g => g ≤ s.connectGeneration ∧ (g = s.connectGeneration → s.now.begun = true)
  | .afterFailed g _ => g ≤ s.connectGeneration ∧ (g = s.connectGeneration → s.now.begun = true)
  | .dispatchAttempt a => a < s.attemptCount
  | .destroyRest call => call = s.past.length ∧ s.destroyed = true
  | .clearSelf call => call = s.past.length ∧ s.destroyed = true
  | _ => True

def TaskOk (isIP : Bytes → Nat) (s : Race) : Microtask → Prop
  | .begin call g targets => g ≤ s.connectGeneration ∧
      (g = s.connectGeneration → call = s.past.length ∧ ∃ ans, s.now.answer = some ans ∧ targets = ans.targets isIP)
  | .destroy call g error => g ≤ s.connectGeneration ∧ (g = s.connectGeneration → call = s.past.length) ∧
      ∀ errors, error ≠ .aggregate errors
  | .failAttempt call g a _ => g ≤ s.connectGeneration ∧ a < s.attemptCount ∧
      (g = s.connectGeneration → call = s.past.length)
  | .emitClose call => call = s.past.length ∧ s.destroyed = true

structure LookupOk (s : Race) (l : PendingLookup) : Prop where
  old : l.generation ≤ s.connectGeneration
  current : l.generation = s.connectGeneration → l.call = s.past.length ∧ s.connecting = true

/-- Work and microtasks that can begin the attempts of a generation. -/
def Socket.Work.starts (g : Nat) : Work → Bool
  | .lookupOne _ g' _ _ => g' = g
  | .lookupAll _ g' _ _ _ _ => g' = g
  | _ => false

def Microtask.starts (g : Nat) : Microtask → Bool
  | .begin _ g' _ => g' = g
  | _ => false

def starters (s : Socket) (ws : List Work) (g : Nat) : Nat :=
  s.lookups.countP (fun l => l.generation = g) + s.microtasks.countP (Microtask.starts g) + ws.countP (Work.starts g)

def Socket.Work.creates : Work → Option AttemptId
  | .create _ a => some a
  | _ => none

structure Orderly (isIP : Bytes → Nat) (s : Socket) (ws : List Work) : Prop where
  raced : Raced isIP s.toRace
  works : ∀ w ∈ ws, WorkOk isIP s.toRace w
  tasks : ∀ m ∈ s.microtasks, TaskOk isIP s.toRace m
  lookups : ∀ l ∈ s.lookups, LookupOk s.toRace l
  creates : (ws.filterMap Work.creates).Nodup
  single : starters s ws s.connectGeneration + (if s.now.begun then 1 else 0) ≤ 1

/-! ## Changes of the race -/

/-- What keeps things waiting: the same call, and what the current generation stands for. -/
structure Carries (s s' : Race) : Prop where
  generation : s.connectGeneration ≤ s'.connectGeneration
  call : s'.past.length = s.past.length
  answer : s'.connectGeneration = s.connectGeneration → s'.now.answer = s.now.answer
  begun : s'.connectGeneration = s.connectGeneration → s.now.begun = true → s'.now.begun = true
  connecting : s'.connectGeneration = s.connectGeneration → s'.connecting = true → s.connecting = true
  destroyed : s.destroyed = true → s'.destroyed = true
  made : s.attemptCount ≤ s'.attemptCount

/-- An attempt without a handle is left alone. -/
def Bare (s s' : Race) (a : AttemptId) : Prop := (s'.attempt a).nativeId = 0 ∧
    (s'.connectGeneration = s.connectGeneration → s'.connecting = true → (s.attempt a).settled = false →
      (s'.attempt a).settled = false)

variable {s s' : Race}

theorem WorkOk.carry {w : Work} (h : WorkOk isIP s w) (hc : Carries s s') (hbare : ∀ g a, w = .create g a → Bare s s' a) :
    WorkOk isIP s' w := by
  have hgen := hc.generation
  have hsame : ∀ {g : Nat}, g ≤ s.connectGeneration → g = s'.connectGeneration → s'.connectGeneration = s.connectGeneration :=
    fun hle heq => by omega
  cases w with
  | user | reset o | afterConnect | dispatch | afterFinish | afterEnd => trivial
  | lookupOne call g error address =>
    refine ⟨h.1.trans hgen, fun heq => ?_⟩
    obtain ⟨hcall, hans⟩ := h.2 (heq.trans (hsame h.1 heq))
    exact ⟨hcall.trans hc.call.symm, (hc.answer (hsame h.1 heq)).trans hans⟩
  | lookupAll call g addresses candidate left b =>
    refine ⟨h.1.trans hgen, fun heq => ?_⟩
    obtain ⟨hcall, hans, hdone⟩ := h.2 (heq.trans (hsame h.1 heq))
    exact ⟨hcall.trans hc.call.symm, (hc.answer (hsame h.1 heq)).trans hans, hdone⟩
  | create g a =>
    obtain ⟨hzero, hsettled⟩ := hbare g a rfl
    refine ⟨h.1.trans hgen, Nat.lt_of_lt_of_le h.2.1 hc.made, hzero, fun heq hcon => ?_⟩
    have hs := hsame h.1 heq
    exact hsettled hs hcon (h.2.2.2 (heq.trans hs) (hc.connecting hs hcon))
  | afterTimeout g | afterFailed g error => exact ⟨h.1.trans hgen, fun heq => hc.begun (hsame h.1 heq) (h.2 (heq.trans (hsame h.1 heq)))⟩
  | dispatchAttempt a => exact Nat.lt_of_lt_of_le h hc.made
  | destroyRest call | clearSelf call => exact ⟨h.1.trans hc.call.symm, hc.destroyed h.2⟩

theorem TaskOk.carry {m : Microtask} (h : TaskOk isIP s m) (hc : Carries s s') : TaskOk isIP s' m := by
  have hgen := hc.generation
  have hsame : ∀ {g : Nat}, g ≤ s.connectGeneration → g = s'.connectGeneration → s'.connectGeneration = s.connectGeneration :=
    fun hle heq => by omega
  cases m with
  | begin call g targets =>
    refine ⟨h.1.trans hgen, fun heq => ?_⟩
    have hs := hsame h.1 heq
    obtain ⟨hcall, ans, hans, ht⟩ := h.2 (heq.trans hs)
    exact ⟨hcall.trans hc.call.symm, ans, (hc.answer hs).trans hans, ht⟩
  | destroy call g error =>
    exact ⟨h.1.trans hgen, fun heq => (h.2.1 (heq.trans (hsame h.1 heq))).trans hc.call.symm, h.2.2⟩
  | failAttempt call g a error =>
    exact ⟨h.1.trans hgen, Nat.lt_of_lt_of_le h.2.1 hc.made,
      fun heq => (h.2.2 (heq.trans (hsame h.1 heq))).trans hc.call.symm⟩
  | emitClose call => exact ⟨h.1.trans hc.call.symm, hc.destroyed h.2⟩

theorem map_eq_filterMap {α β : Type} {f : α → Option β} {l : List α} (h : ∀ a ∈ l, f a ≠ none) :
    l.map f = (l.filterMap f).map some := by
  induction l with
  | nil => rfl
  | cons a l ih =>
    cases hf : f a with
    | none => exact absurd hf (h a mem_cons_self)
    | some b => simp [hf, ih (fun a' ha' => h a' (mem_cons_of_mem _ ha'))]

/-! ## The stack and the queues -/

open Microtask

namespace Orderly

variable {s s' : Socket} {ws : List Work} {w : Work}

variable {a : AttemptId} {g i : Nat}

theorem starters_cons (s : Socket) (w : Work) (ws : List Work) (g : Nat) :
    starters s (w :: ws) g = starters s ws g + if w.starts g then 1 else 0 := by
  simp only [starters, countP_cons]; omega

theorem starters_new (h : Orderly isIP s ws) (hg : s.connectGeneration < g) : starters s ws g = 0 := by
  have h₁ : s.lookups.countP (fun l => l.generation = g) = 0 := by
    rw [countP_eq_zero]
    intro l hl
    have := (h.lookups l hl).old; simp only [decide_eq_true_eq]; omega
  have h₂ : s.microtasks.countP (starts g) = 0 := by
    rw [countP_eq_zero]
    intro m hm
    have hok := h.tasks m hm
    cases m with
    | begin call g' targets =>
      have := hok.1; simp only [starts, decide_eq_true_eq]; omega
    | _ => simp [starts]
  have h₃ : ws.countP (Work.starts g) = 0 := by
    rw [countP_eq_zero]
    intro w hw
    have hok := h.works w hw
    cases w with
    | lookupOne call g' error address | lookupAll call g' addresses candidate left b =>
      have := hok.1; simp only [Work.starts, decide_eq_true_eq]; omega
    | _ => simp [Work.starts]
  simp [starters, h₁, h₂, h₃]

theorem no_lookup (h : Orderly isIP s ws) (hbegun : s.now.begun = true) {l : PendingLookup} (hl : l ∈ s.lookups) :
    l.generation ≠ s.connectGeneration := by
  intro heq
  have hpos : 0 < s.lookups.countP (fun l => l.generation = s.connectGeneration) :=
    countP_pos_iff.2 ⟨l, hl, by simpa using heq⟩
  have := h.single; simp only [starters, hbegun, if_true] at this; omega

theorem pop (h : Orderly isIP s (w :: ws)) : Orderly isIP s ws := by
  refine ⟨h.raced, fun v hv => h.works v (mem_cons_of_mem _ hv), h.tasks, h.lookups, ?_, ?_⟩
  · have := h.creates
    rw [filterMap_cons] at this
    split at this
    · exact this
    · exact (nodup_cons.1 this).2
  · have := h.single; rw [starters_cons] at this; omega

section

variable (h : Orderly isIP s ws)
include h

theorem push (hok : WorkOk isIP s.toRace w) (hstarts : w.starts s.connectGeneration = false)
    (hcreates : w.creates = none) : Orderly isIP s (w :: ws) := by
  refine ⟨h.raced, ?_, h.tasks, h.lookups, ?_, ?_⟩
  · intro v hv
    obtain rfl | hv := mem_cons.1 hv
    · exact hok
    · exact h.works v hv
  · rw [filterMap_cons, hcreates]; exact h.creates
  · rw [starters_cons, hstarts]; exact h.single

theorem user : Orderly isIP s (.user :: ws) := h.push trivial rfl rfl

theorem drop {ws' : List Work} (hsub : ws'.Sublist ws) : Orderly isIP s ws' := by
  refine ⟨h.raced, fun w hw => h.works w (hsub.subset hw), h.tasks, h.lookups, h.creates.sublist (hsub.filterMap _), ?_⟩
  have hle := hsub.countP_le (p := Work.starts s.connectGeneration)
  have := h.single; simp only [starters] at this ⊢; omega

theorem task {m : Microtask} (hok : TaskOk isIP s.toRace m)
    (hstarts : m.starts s.connectGeneration = false) : Orderly isIP { s with microtasks := s.microtasks ++ [m] } ws := by
  refine ⟨h.raced, h.works, ?_, h.lookups, h.creates, ?_⟩
  · exact forall_mem_append.2 ⟨h.tasks, forall_mem_singleton.2 hok⟩
  · have := h.single; simp only [starters, countP_append, countP_singleton, hstarts] at this ⊢; simpa using this

theorem carry (hr : Raced isIP s'.toRace) (hc : Carries s.toRace s'.toRace)
    (hbare : ∀ a ∈ ws.filterMap Work.creates, Bare s.toRace s'.toRace a) (hlookups : s'.lookups = s.lookups)
    (htasks : s'.microtasks = s.microtasks)
    (hcon : s'.connectGeneration = s.connectGeneration → s.connecting = true → s'.connecting = true ∨ s.now.begun = true)
    (hsingle : s'.connectGeneration = s.connectGeneration → s'.now.begun = true →
      s.now.begun = true ∨ starters s ws s.connectGeneration = 0) : Orderly isIP s' ws := by
  have hgen := hc.generation
  have hstarters : ∀ g, starters s' ws g = starters s ws g := by
    intro g; simp only [starters, hlookups, htasks]
  refine ⟨hr, ?_, ?_, ?_, h.creates, ?_⟩
  · intro w hw
    refine (h.works w hw).carry hc ?_
    rintro g a rfl; exact hbare a (mem_filterMap.2 ⟨_, hw, rfl⟩)
  · intro m hm; exact (h.tasks m (htasks ▸ hm)).carry hc
  · intro l hl
    rw [hlookups] at hl
    obtain ⟨hold, hcur⟩ := h.lookups l hl
    refine ⟨hold.trans hgen, fun heq => ?_⟩
    have hsame : s'.connectGeneration = s.connectGeneration := by omega
    obtain ⟨hcall, hconn⟩ := hcur (heq.trans hsame)
    refine ⟨hcall.trans hc.call.symm, ?_⟩
    obtain hok | hbegun := hcon hsame hconn
    · exact hok
    · exact absurd (heq.trans hsame) (h.no_lookup hbegun hl)
  · rw [hstarters]
    by_cases hsame : s'.connectGeneration = s.connectGeneration
    · rw [hsame]
      have := h.single
      split
      · next hb =>
        obtain hb' | hzero := hsingle hsame hb
        · simpa [hb'] using this
        · omega
      · split at this <;> omega
    · rw [h.starters_new (Nat.lt_of_le_of_ne hgen (Ne.symm hsame))]
      split <;> omega

theorem mem_creates (ha : a ∈ ws.filterMap Work.creates) : a < s.attemptCount ∧ (s.attempt a).nativeId = 0 := by
  obtain ⟨w, hw, hwa⟩ := mem_filterMap.1 ha
  have hok := h.works w hw
  cases w with
  | create g b => cases hwa; exact ⟨hok.2.1, hok.2.2.1⟩
  | _ => cases hwa

end

/-! ## Handles -/

section

variable (h : Orderly isIP s ws)
include h

theorem native {f : Handle → Handle} (hi : i ≤ s.handleCount)
    (hf : Natives.Follows (s.handle i) (f (s.handle i)))
    (hdestroyed : (s.handle i).destroyed = true → (f (s.handle i)).destroyed = true)
    (hspent : (s.handle i).connectPushed = true → (s.handle i).events.count .connect = 0 →
      (f (s.handle i)).connectPushed = true ∧ (f (s.handle i)).events.count .connect = 0) :
    Orderly isIP (s.native i f) ws := by
  refine h.carry (h.raced.setHandle hi hf hdestroyed hspent) ⟨Nat.le_refl _, rfl, fun _ => rfl, fun _ hb => hb, fun _ hc => hc,
    fun hd => hd, Nat.le_refl _⟩ ?_ rfl rfl (fun _ hc => .inl hc) (fun _ hb => .inl hb)
  intro a ha; exact ⟨(h.mem_creates ha).2, fun _ _ hs => hs⟩

theorem ask {f : Handle → Handle} (hnotify : (f (s.handle s.nativeId)).notify = (s.handle s.nativeId).notify)
    (hevents : (f (s.handle s.nativeId)).events = (s.handle s.nativeId).events)
    (hpushed : (f (s.handle s.nativeId)).connectPushed = (s.handle s.nativeId).connectPushed)
    (hdestroyed : (s.handle s.nativeId).destroyed = true → (f (s.handle s.nativeId)).destroyed = true) :
    Orderly isIP (s.native s.nativeId f) ws := by
  have hi : s.nativeId ≤ s.handleCount := by
    by_cases hzero : s.nativeId = 0
    · omega
    · obtain ⟨-, -, -, a, -, hid, -⟩ := h.raced.now.winner s.nativeId (h.raced.winner_eq hzero)
      exact hid ▸ h.raced.natives.bound a
  refine h.native hi ⟨.inl hnotify, ?_⟩ hdestroyed ?_
  · rw [hevents, hpushed]; exact h.raced.natives.connects _
  · intro hp hc; rw [hevents, hpushed]; exact ⟨hp, hc⟩

theorem fields (hrace : s'.toRace = s.toRace) (hlookups : s'.lookups = s.lookups)
    (htasks : s'.microtasks = s.microtasks) : Orderly isIP s' ws := by
  refine h.carry (hrace ▸ h.raced) (hrace ▸ ⟨Nat.le_refl _, rfl, fun _ => rfl, fun _ hb => hb, fun _ hc => hc,
    fun hd => hd, Nat.le_refl _⟩) ?_ hlookups htasks (fun _ hc => .inl (hrace ▸ hc)) (fun _ hb => .inl (hrace ▸ hb))
  intro a ha; rw [hrace]; exact ⟨(h.mem_creates ha).2, fun _ _ hs => hs⟩

theorem note (requested : List HandleOp) (closes : Nat) :
    Orderly isIP { s with now := { s.now with requested, closes } } ws := by
  refine h.carry (h.raced.note requested closes) ⟨Nat.le_refl _, rfl, fun _ => rfl, fun _ hb => hb, fun _ hc => hc,
    fun hd => hd, Nat.le_refl _⟩ ?_ rfl rfl (fun _ hc => .inl hc) (fun _ hb => .inl hb)
  intro a ha; exact ⟨(h.mem_creates ha).2, fun _ _ hs => hs⟩

end

/-! ## Destroying and closing -/

theorem destroyRest (h : Orderly isIP s ws) (hd : s.destroyed = true) : Orderly isIP (s.destroyRest s.call) ws := by
  have hask := h.ask (f := fun handle => { handle with destroyed := true }) rfl rfl rfl (fun _ => rfl)
  exact hask.task ⟨rfl, hd⟩ rfl

/-- What an error that `destroy` is given says. -/
def Justified (isIP : Bytes → Nat) (s : Socket) (error : SocketError) : Prop :=
  ∀ errors, error = .aggregate errors → s.now.attempts.map (fun a => (s.attempt a).error) = errors.map some ∧
    ∃ ans, s.now.answer = some ans ∧ s.now.attempts.map (fun a => (s.attempt a).target) = ans.targets isIP

theorem abandon (h : Orderly isIP s ws) {error : Option SocketError} (herror : ∀ e, error = some e → Justified isIP s e) :
    Orderly isIP { ({ s with destroyed := true, connecting := false, readyState := .closed } : Socket).abandonAttempts with
      now := { s.now with ended := true, raised := s.now.raised ++ error.toList } } ws := by
  have hraced := h.raced.abandon (s.now.raised ++ error.toList) (by
    intro errors hmem
    obtain hold | hnew := mem_append.1 hmem
    · exact .inl hold
    · exact .inr (herror _ (by simpa using hnew) errors rfl))
  have hnew : s.connectGeneration + 1 ≠ s.connectGeneration := Nat.succ_ne_self _
  refine h.carry hraced ⟨Nat.le_succ _, rfl, fun heq => absurd heq hnew, fun heq => absurd heq hnew, fun heq => absurd heq hnew,
    fun _ => rfl, Nat.le_refl _⟩ ?_ rfl rfl (fun heq => absurd heq hnew) (fun heq => absurd heq hnew)
  intro a ha
  exact ⟨(settleAll_nativeId _ _ a).trans (h.mem_creates ha).2, fun heq => absurd heq hnew⟩

theorem destroy (h : Orderly isIP s ws) {error : Option SocketError} (herror : ∀ e, error = some e → Justified isIP s e) :
    Orderly isIP (s.destroy error).1 ((s.destroy error).2 ++ ws) := by
  have habandon := h.abandon herror
  unfold Socket.destroy
  split
  · exact h
  · cases error with
    | none =>
      have hraised : s.now.raised ++ (none : Option SocketError).toList = s.now.raised := by simp
      rw [hraised] at habandon; exact habandon.destroyRest rfl
    | some e => exact (habandon.push (w := .destroyRest s.call) ⟨rfl, rfl⟩ rfl rfl).user

theorem emitClose (h : Orderly isIP s ws) (hd : s.destroyed = true) : Orderly isIP s.emitClose.1 (s.emitClose.2 ++ ws) := by
  unfold Socket.emitClose
  split
  · exact h
  · have hnote : Orderly isIP { s with closeEmitted := true, now := { s.now with closes := s.now.closes + 1 } } ws :=
      (h.note s.now.requested (s.now.closes + 1)).fields rfl rfl rfl
    exact (hnote.push (w := .clearSelf s.call) ⟨rfl, hd⟩ rfl rfl).user

/-! ## Attempts -/

theorem startNextAttempt (h : Orderly isIP s ws) (hc : s.connecting = true) (hbegun : s.now.begun = true) :
    Orderly isIP s.startNextAttempt.1 (s.startNextAttempt.2 ++ ws) := by
  unfold Socket.startNextAttempt
  dsimp only
  split
  · exact h.carry h.raced.clearTimer ⟨Nat.le_refl _, rfl, fun _ => rfl, fun _ hb => hb, fun _ hc => hc, fun hd => hd,
      Nat.le_refl _⟩ (fun a ha => ⟨(h.mem_creates ha).2, fun _ _ hs => hs⟩) rfl rfl (fun _ hc => .inl hc) (fun _ hb => .inl hb)
  · next target ht =>
    have hold : ∀ a, a < s.attemptCount → (s.newAttempt target).attempt a = s.attempt a := by
      intro a ha; simp [newAttempt, setAttempt, update_of_ne (Nat.ne_of_lt ha)]
    have hcarry : Orderly isIP { s with
        toNatives := s.newAttempt target
        attemptTimer := none
        attemptNext := s.attemptNext + 1
        attempts := s.attempts ++ [s.attemptCount]
        now := { s.now with attempts := s.now.attempts ++ [s.attemptCount] } } ws := h.carry
      (h.raced.startNext hc hbegun ht)
      ⟨Nat.le_refl _, rfl, fun _ => rfl, fun _ hb => hb, fun _ hc => hc, fun hd => hd, Nat.le_succ _⟩
      (fun a ha => by
        obtain ⟨hlt, hzero⟩ := h.mem_creates ha
        have hsame := hold a hlt
        exact ⟨by rw [hsame]; exact hzero, fun _ _ hs => by rw [hsame]; exact hs⟩)
      rfl rfl (fun _ hc => .inl hc) (fun _ hb => .inl hb)
    refine (?_ : Orderly isIP _ (.create s.connectGeneration s.attemptCount :: ws)).user
    refine ⟨hcarry.raced, ?_, hcarry.tasks, hcarry.lookups, ?_, hcarry.single⟩
    · intro w hw
      obtain rfl | hw := mem_cons.1 hw
      · exact ⟨Nat.le_refl _, Nat.lt_succ_self _, by simp [newAttempt, setAttempt],
          fun _ _ => by simp [newAttempt, setAttempt]⟩
      · exact hcarry.works w hw
    · refine nodup_cons.2 ⟨?_, h.creates⟩
      intro hmem; exact absurd (h.mem_creates hmem).1 (Nat.lt_irrefl _)

theorem beginAttempts (h : Orderly isIP s ws) (hc : s.connecting = true) (hbegun : s.now.begun = false)
    (hnone : starters s ws s.connectGeneration = 0) {ans : Answered} (hans : s.now.answer = some ans) (multiple : Bool) :
    Orderly isIP (s.beginAttempts (ans.targets isIP) multiple).1 ((s.beginAttempts (ans.targets isIP) multiple).2 ++ ws) := by
  have hstart : Orderly isIP { s with
      attemptTargets := ans.targets isIP
      attemptNext := 0
      attemptMultiple := multiple
      now := { s.now with begun := true } } ws := h.carry (h.raced.start hbegun hans)
    ⟨Nat.le_refl _, rfl, fun _ => rfl, fun _ _ => rfl, fun _ hc => hc, fun hd => hd, Nat.le_refl _⟩
    (fun a ha => ⟨(h.mem_creates ha).2, fun _ _ hs => hs⟩) rfl rfl (fun _ hc => .inl hc) (fun _ _ => .inr hnone)
  exact hstart.startNextAttempt hc rfl

theorem create (g : Nat) (a : AttemptId) (created : Created) (h : Orderly isIP s (.create g a :: ws)) :
    Orderly isIP (s.create g a created) ws := by
  have hok := h.works _ mem_cons_self
  unfold Socket.create
  split
  · exact h.pop
  · next hnot =>
    simp only [ne_eq, not_or, Decidable.not_not, Bool.not_eq_false] at hnot
    obtain ⟨rfl, hc⟩ := hnot
    obtain ⟨-, hmade, hzero, hsettled⟩ := hok
    have hs := hsettled rfl hc
    cases created with
    | failed errno message => exact h.pop.task ⟨Nat.le_refl _, hmade, fun _ => rfl⟩ rfl
    | handle =>
      have hnodup := h.creates
      rw [filterMap_cons] at hnodup
      have hnot : a ∉ ws.filterMap Work.creates := (nodup_cons.1 hnodup).1
      have hbegun : s.now.begun = true := h.raced.begun_of_live hmade hs
      have hcarry : Orderly isIP { s with toNatives := s.newHandle a } ws := by
        refine h.pop.carry (h.raced.newHandle hc hmade hs hzero) ⟨Nat.le_refl _, rfl, fun _ => rfl, fun _ hb => hb,
          fun _ hc => hc, fun hd => hd, Nat.le_refl _⟩ ?_ rfl rfl (fun _ hc => .inl hc) (fun _ hb => .inl hb)
        intro b hb
        have hne : b ≠ a := by rintro rfl; exact hnot hb
        have hsame : (s.newHandle a).attempt b = s.attempt b := by
          simp [newHandle, setAttempt, setHandle, update_of_ne hne]
        exact ⟨by rw [hsame]; exact (h.pop.mem_creates hb).2, fun _ _ hsb => by rw [hsame]; exact hsb⟩
      dsimp only
      split
      · have hr := hcarry.raced
        refine hcarry.carry ⟨hr.natives, hr.idle, hr.ended, hr.live, hr.racing, ?_, hr.failed, hr.won, hr.listed, hr.past, hr.now,
          hr.begun, hr.unbegun, ?_⟩ ⟨Nat.le_refl _, rfl, fun _ => rfl, fun _ hb => hb, fun _ hc => hc, fun hd => hd, Nat.le_refl _⟩
          (fun a ha => ⟨(hcarry.mem_creates ha).2, fun _ _ hs => hs⟩) rfl rfl (fun _ hc => .inl hc) (fun _ hb => .inl hb)
        · intro hcf; simp [hc] at hcf
        · intro g b hgb
          cases hgb; exact ⟨rfl, hbegun⟩
      · exact hcarry

theorem failAttempt (h : Orderly isIP s ws) (hmade : a < s.attemptCount) (hs : (s.attempt a).settled = false)
    (hbare : a ∉ ws.filterMap Work.creates) (error : AttemptError) :
    Orderly isIP (s.failAttempt a error).1 ((s.failAttempt a error).2 ++ ws) := by
  obtain ⟨hc, hmem⟩ := h.raced.live a hmade hs
  have hbegun : s.now.begun = true := h.raced.begun_of_live hmade hs
  have hcarry : Orderly isIP { s with toNatives := s.setAttempt a (fun attempt =>
      { attempt with settled := true, error := some error }) } ws := by
    refine h.carry (h.raced.fail hc hmade hs error) ⟨Nat.le_refl _, rfl, fun _ => rfl, fun _ hb => hb, fun _ hc => hc,
      fun hd => hd, Nat.le_refl _⟩ ?_ rfl rfl (fun _ hc => .inl hc) (fun _ hb => .inl hb)
    intro b hb
    have hne : b ≠ a := by rintro rfl; exact hbare hb
    have hsame : (s.setAttempt a (fun attempt => { attempt with settled := true, error := some error })).attempt b =
        s.attempt b := by
      simp [setAttempt, update_of_ne hne]
    exact ⟨by rw [hsame]; exact (h.mem_creates hb).2, fun _ _ hsb => by rw [hsame]; exact hsb⟩
  exact (hcarry.push (w := .afterFailed s.connectGeneration error) ⟨Nat.le_refl _, fun _ => hbegun⟩ rfl rfl).user

theorem afterTimeout (g : Nat) (h : Orderly isIP s (.afterTimeout g :: ws)) :
    Orderly isIP (s.afterTimeout g).1 ((s.afterTimeout g).2 ++ ws) := by
  have hok := h.works _ mem_cons_self
  unfold Socket.afterTimeout
  split
  · exact h.pop
  · next hnot =>
    simp only [ne_eq, not_or, Decidable.not_not, Bool.not_eq_false] at hnot
    obtain ⟨rfl, hc⟩ := hnot
    split
    · exact h.pop.startNextAttempt hc (hok.2 rfl)
    · exact h.pop

theorem afterFailed (g : Nat) (error : AttemptError) (h : Orderly isIP s (.afterFailed g error :: ws)) :
    Orderly isIP (s.afterFailed g error).1 ((s.afterFailed g error).2 ++ ws) := by
  have hok := h.works _ mem_cons_self
  unfold Socket.afterFailed
  split
  · exact h.pop
  · next hnot =>
    simp only [ne_eq, not_or, Decidable.not_not, Bool.not_eq_false] at hnot
    obtain ⟨rfl, hc⟩ := hnot
    split
    · refine h.pop.destroy ?_
      rintro e he errors rfl; cases he
    · split
      · exact h.pop.startNextAttempt hc (hok.2 rfl)
      · next hlen =>
        split
        · next hall =>
          refine h.pop.destroy ?_
          rintro e he errors rfl
          cases he
          obtain ⟨ans, hans, htargets, htaken⟩ := h.raced.begun (hok.2 rfl)
          have hattempts := (h.raced.racing hc).1
          rw [take_of_length_le (Nat.le_of_not_lt hlen)] at htaken
          refine ⟨?_, ans, hans, by rw [htaken, htargets]⟩
          rw [hattempts]
          refine map_eq_filterMap (fun a ha => h.raced.failed hc a (hattempts ▸ ha) ?_)
          exact all_eq_true.1 hall a (hattempts ▸ ha)
        · exact h.pop

/-! ## Events of the native side -/

section

variable (h : Orderly isIP s ws)
include h

theorem handle_of_events (hne : (s.handle i).events ≠ []) : i ≠ 0 ∧ i ≤ s.handleCount := by
  constructor
  · rintro rfl; simp [h.raced.natives.zero] at hne
  · by_contra hlt
    simp [h.raced.natives.fresh i (Nat.lt_of_not_le hlt)] at hne

theorem takeEvent {e : NativeEvent} (ht : s.takeEvent i = some (e, s')) :
    Orderly isIP s' ws ∧ i ≠ 0 ∧ i ≤ s.handleCount ∧ s'.attempt = s.attempt ∧ s.attemptCount = s'.attemptCount ∧
      e ∈ (s.handle i).events ∧ s'.toRace = { s.toRace with toNatives := s'.toNatives } ∧
      (e = .connect → (s'.handle i).connectPushed = true ∧ (s'.handle i).events.count .connect = 0) := by
  unfold Socket.takeEvent at ht
  split at ht
  · cases ht
  · next e' es hevents =>
    cases ht
    obtain ⟨hzero, hle⟩ := h.handle_of_events (i := i) (by simp [hevents])
    have hcount := h.raced.natives.connects i
    rw [hevents, count_cons] at hcount
    have hself : ((s.native i (fun handle => { handle with events := es })).handle i) = { s.handle i with events := es } := by
      simp [Socket.native, setHandle, hzero]
    refine ⟨h.native hle ⟨.inl rfl, ?_⟩ (fun hd => hd) ?_, hzero, hle, rfl, rfl, by simp [hevents], rfl, ?_⟩
    · exact Nat.le_trans (Nat.le_add_right _ _) hcount
    · intro hp hc; rw [hevents, count_cons] at hc; exact ⟨hp, by dsimp only; omega⟩
    · rintro rfl
      rw [hself]
      dsimp only
      simp only [beq_self_eq_true, if_true] at hcount
      split at hcount
      · next hp => exact ⟨hp, by omega⟩
      · omega

theorem winAttempt (hmade : a < s.attemptCount) (hs : (s.attempt a).settled = false)
    (hid : (s.attempt a).nativeId ≠ 0) (hpushed : (s.handle (s.attempt a).nativeId).connectPushed = true)
    (htaken : (s.handle (s.attempt a).nativeId).events.count .connect = 0) : Orderly isIP (s.winAttempt a) ws := by
  obtain ⟨hc, hmem⟩ := h.raced.live a hmade hs
  have hbegun : s.now.begun = true := h.raced.begun_of_live hmade hs
  refine h.carry (h.raced.win hc hmem hs hid hpushed htaken (s.connectingWrites.map HandleOp.write))
    ⟨Nat.le_refl _, rfl, fun _ => rfl, fun _ hb => hb, ?_, fun hd => hd, Nat.le_refl _⟩ ?_ rfl rfl (fun _ _ => .inr hbegun)
    (fun _ hb => .inl hb)
  · intro _ hcf; cases hcf
  · intro b hb
    refine ⟨(win_nativeId _ b).trans (h.mem_creates hb).2, ?_⟩
    intro _ hcf; cases hcf

theorem handEnd : Orderly isIP s.handEnd ws := by
  unfold Socket.handEnd
  split
  · have hf : Orderly isIP ({ s with connectingEnd := false, readyState := .readOnly } : Socket) ws := h.fields rfl rfl rfl
    exact hf.ask rfl rfl rfl (fun hd => hd)
  · exact h

theorem afterConnect : Orderly isIP s.afterConnect.1 (s.afterConnect.2 ++ ws) := by
  unfold Socket.afterConnect
  split
  · exact h.handEnd
  · exact h.handEnd.push (w := .dispatch) trivial rfl rfl

end

theorem dispatchAttempt (a : AttemptId) (h : Orderly isIP s (.dispatchAttempt a :: ws)) :
    Orderly isIP (s.dispatchAttempt a).1 ((s.dispatchAttempt a).2 ++ ws) := by
  have hmade : a < s.attemptCount := h.works _ mem_cons_self
  unfold Socket.dispatchAttempt
  split
  · exact h.pop
  · next hs =>
    have hs' : (s.attempt a).settled = false := by simpa using hs
    split
    · exact h.pop
    · next s₁ ht =>
      obtain ⟨h₁, hzero, -, hattempt, hcount, -, -, hspent⟩ := h.pop.takeEvent ht
      obtain ⟨hpushed, htaken⟩ := hspent rfl
      rw [← hattempt] at hs' hzero hpushed htaken
      exact ((h₁.winAttempt (hcount ▸ hmade) hs' hzero hpushed htaken).push (w := .afterConnect) trivial rfl rfl).user
    · next e s₁ ht =>
      obtain ⟨h₁, hzero, -, hattempt, hcount, -⟩ := h.pop.takeEvent ht
      rw [← hattempt] at hs' hzero
      refine h₁.failAttempt (hcount ▸ hmade) hs' ?_ _
      intro hmem; exact hzero (h₁.mem_creates hmem).2
    · next e s₁ _ _ ht =>
      obtain ⟨h₁, -, -, -, hcount, -⟩ := h.pop.takeEvent ht
      exact h₁.push (w := .dispatchAttempt a) (show a < s₁.attemptCount from hcount ▸ hmade) rfl rfl

theorem peerClose (h : Orderly isIP s ws) (hnative : s.nativeId ≠ 0) :
    Orderly isIP { s with connecting := false, destroyed := true, readyState := .closed, now := { s.now with ended := true } }
      ws := by
  have hc : s.connecting = false := by
    by_contra hc
    exact hnative (h.raced.idle (by simpa using hc)).1
  refine h.carry (h.raced.peerClose hnative) ⟨Nat.le_refl _, rfl, fun _ => rfl, fun _ hb => hb, ?_, fun _ => rfl,
    Nat.le_refl _⟩ ?_ rfl rfl ?_ (fun _ hb => .inl hb)
  · intro _ hcf; cases hcf
  · intro a ha; exact ⟨(h.mem_creates ha).2, fun _ _ hs => hs⟩
  · intro _ hct; simp [hc] at hct

theorem onEvent (h : Orderly isIP s ws) (hnative : s.nativeId ≠ 0) {e : NativeEvent} (he : e ≠ .connect) :
    Orderly isIP (s.onEvent e).1 ((s.onEvent e).2 ++ ws) := by
  have hloop : Orderly isIP s (.dispatch :: ws) := h.push trivial rfl rfl
  cases e with
  | connect => exact absurd rfl he
  | data | drain => exact hloop.user
  | error e =>
    have hc : s.connecting = false := by
      by_contra hc
      exact hnative (h.raced.idle (by simpa using hc)).1
    have hsame : ({ s with connecting := false } : Socket) = s := by rw [← hc]
    show Orderly isIP { s with connecting := false } _; rw [hsame]; exact hloop.user
  | close =>
    have hclose := (hloop.peerClose hnative).emitClose rfl
    simp only [Socket.onEvent, append_assoc, singleton_append]; exact hclose
  | finish => exact (hloop.push (w := .afterFinish) trivial rfl rfl).user
  | ended =>
    have hready : Orderly isIP (if s.readyState = .readOnly then s else { s with readyState := .writeOnly }) (.dispatch :: ws) := by
      split
      · exact hloop
      · exact hloop.fields rfl rfl rfl
    exact (hready.push (w := .afterEnd) trivial rfl rfl).user

theorem dispatch (h : Orderly isIP s ws) : Orderly isIP s.dispatch.1 (s.dispatch.2 ++ ws) := by
  unfold Socket.dispatch
  split
  · exact h
  · next e s₁ ht =>
    obtain ⟨h₁, hzero, -, -, -, hevent, hrace, -⟩ := h.takeEvent ht
    refine h₁.onEvent (by rw [hrace]; exact hzero) ?_
    rintro rfl
    obtain ⟨-, -, hcount, -⟩ := h.raced.now.winner _ (h.raced.winner_eq hzero)
    exact absurd hevent (count_eq_zero.1 hcount)

/-! ## The methods of the program -/

theorem write (h : Orderly isIP s ws) (data : Bytes) : Orderly isIP (s.write data) ws := by
  have hnote : Orderly isIP (s.note (.write data)) ws := h.note (s.now.requested ++ [HandleOp.write data]) s.now.closes
  unfold Socket.write
  split
  · exact h
  · split
    · exact hnote.fields rfl rfl rfl
    · exact hnote.ask rfl rfl rfl (fun hd => hd)

theorem endWrites (h : Orderly isIP s ws) : Orderly isIP s.endWrites ws := by
  have hnote : Orderly isIP (s.note .ending) ws := h.note (s.now.requested ++ [HandleOp.ending]) s.now.closes
  unfold Socket.endWrites
  split
  · split
    · exact h.fields rfl rfl rfl
    · exact hnote.fields rfl rfl rfl
  · split
    · exact h
    · have hready : Orderly isIP { s.note .ending with readyState := .readOnly } ws := hnote.fields rfl rfl rfl
      exact hready.ask rfl rfl rfl (fun hd => hd)

/-! ## Lookups -/

section

variable (h : Orderly isIP s ws)
include h

theorem pushStarter (hok : WorkOk isIP s.toRace w) (hcreates : w.creates = none)
    (hbegun : s.now.begun = false) (hnone : starters s ws s.connectGeneration = 0) : Orderly isIP s (w :: ws) := by
  refine ⟨h.raced, ?_, h.tasks, h.lookups, ?_, ?_⟩
  · intro v hv
    obtain rfl | hv := mem_cons.1 hv
    · exact hok
    · exact h.works v hv
  · rw [filterMap_cons, hcreates]; exact h.creates
  · rw [starters_cons, hnone, hbegun]
    split <;> simp

theorem taskStarter {m : Microtask} (hok : TaskOk isIP s.toRace m) (hbegun : s.now.begun = false)
    (hnone : starters s ws s.connectGeneration = 0) : Orderly isIP { s with microtasks := s.microtasks ++ [m] } ws := by
  refine ⟨h.raced, h.works, ?_, h.lookups, h.creates, ?_⟩
  · exact forall_mem_append.2 ⟨h.tasks, forall_mem_singleton.2 hok⟩
  · simp only [starters] at hnone
    simp only [starters, countP_append, countP_singleton, hbegun]
    split <;> simp <;> omega

theorem answer (hc : s.connecting = true) (hbegun : s.now.begun = false)
    (hnone : starters s ws s.connectGeneration = 0) (ans : Answered) :
    Orderly isIP { s with now := { s.now with answer := some ans } } ws := by
  simp only [starters, Nat.add_eq_zero_iff, countP_eq_zero] at hnone
  obtain ⟨⟨-, htasks⟩, hworks⟩ := hnone
  refine ⟨h.raced.answer hc hbegun ans, ?_, ?_, fun l hl => ⟨(h.lookups l hl).old, (h.lookups l hl).current⟩, h.creates,
    h.single⟩
  · intro w hw
    have hok := h.works w hw
    have hstarts := hworks w hw
    cases w with
    | lookupOne call g error address | lookupAll call g addresses candidate left b =>
      refine ⟨hok.1, fun heq => absurd ?_ hstarts⟩
      simpa [Work.starts] using heq
    | _ => exact hok
  · intro m hm
    have hok := h.tasks m hm
    have hstarts := htasks m hm
    cases m with
    | begin call g targets =>
      refine ⟨hok.1, fun heq => absurd ?_ hstarts⟩
      simpa [starts] using heq
    | _ => exact hok

theorem lookupNext (hc : s.connecting = true) (hbegun : s.now.begun = false)
    (hnone : starters s ws s.connectGeneration = 0) {addresses done left : List Target} {b : Buckets}
    (hans : s.now.answer = some (.all addresses)) (haddresses : addresses = done ++ left)
    (hb : b = done.foldl (Buckets.add isIP) {}) :
    Orderly isIP (s.lookupNext s.call s.connectGeneration addresses b left).1
      ((s.lookupNext s.call s.connectGeneration addresses b left).2 ++ ws) := by
  cases left with
  | cons candidate left =>
    exact (h.pushStarter (w := .lookupAll s.call s.connectGeneration addresses candidate left b)
      ⟨Nat.le_refl _, fun _ => ⟨rfl, hans, done, haddresses, hb⟩⟩ rfl hbegun hnone).user
  | nil =>
    have htargets : interleave b.first b.second = (Answered.all addresses).targets isIP := by
      rw [append_nil] at haddresses; rw [hb, haddresses]; rfl
    simp only [Socket.lookupNext]
    split
    · refine h.destroy ?_
      rintro e he errors rfl; cases he
    · split
      · exact h.taskStarter ⟨Nat.le_refl _, fun _ => ⟨rfl, _, hans, htargets⟩⟩ hbegun hnone
      · rw [htargets]; exact h.beginAttempts hc hbegun hnone hans true

end

/-- A callback of a generation: the current one can still begin the attempts. -/
structure Callback (s : Socket) (ws : List Work) (call g : Nat) : Prop where
  old : g ≤ s.connectGeneration
  current : g = s.connectGeneration → call = s.call ∧ s.connecting = true ∧ s.now.begun = false ∧
    starters s ws s.connectGeneration = 0

theorem onLookupAll (h : Orderly isIP s ws) {call : Nat} (hcb : Callback s ws call g) (a : LookupAnswer) :
    Orderly isIP (s.onLookupAll call g a).1 ((s.onLookupAll call g a).2 ++ ws) := by
  unfold Socket.onLookupAll
  split
  · exact h
  · next hnot =>
    simp only [ne_eq, not_or, Decidable.not_not, Bool.not_eq_false] at hnot
    obtain ⟨rfl, hc⟩ := hnot
    obtain ⟨rfl, -, hbegun, hnone⟩ := hcb.current rfl
    split
    · refine h.destroy ?_
      rintro e he errors rfl; cases he
    · exact (h.answer hc hbegun hnone _).lookupNext hc hbegun hnone rfl (nil_append _).symm rfl

theorem onLookupOne (h : Orderly isIP s ws) {call : Nat} (hcb : Callback s ws call g) (a : LookupAnswer) :
    Orderly isIP (s.onLookupOne call g a).1 ((s.onLookupOne call g a).2 ++ ws) := by
  unfold Socket.onLookupOne
  split
  · exact h
  · next hnot =>
    simp only [ne_eq, Decidable.not_not] at hnot
    subst hnot
    obtain ⟨rfl, hc, hbegun, hnone⟩ := hcb.current rfl
    exact ((h.answer hc hbegun hnone (.one a.address)).pushStarter (w := .lookupOne s.call s.connectGeneration a.error a.address)
      ⟨Nat.le_refl _, fun _ => ⟨rfl, rfl⟩⟩ rfl hbegun hnone).user

theorem callback_of_starts (h : Orderly isIP s (w :: ws)) (hw : w.starts s.connectGeneration = true) :
    s.now.begun = false ∧ starters s ws s.connectGeneration = 0 := by
  have hsingle := h.single
  rw [starters_cons, hw] at hsingle
  cases hb : s.now.begun with
  | true => simp [hb] at hsingle
  | false => simpa [hb] using hsingle

theorem afterCandidate (call g : Nat) (addresses : List Target) (candidate : Target) (left : List Target) (b : Buckets)
    (h : Orderly isIP s (.lookupAll call g addresses candidate left b :: ws)) :
    Orderly isIP (s.afterCandidate isIP call g addresses candidate left b).1
      ((s.afterCandidate isIP call g addresses candidate left b).2 ++ ws) := by
  have hok := h.works _ mem_cons_self
  unfold Socket.afterCandidate
  split
  · exact h.pop
  · next hnot =>
    simp only [ne_eq, not_or, Decidable.not_not, Bool.not_eq_false] at hnot
    obtain ⟨rfl, hc⟩ := hnot
    obtain ⟨hcall, hans, done, haddresses, hb⟩ := hok.2 rfl
    obtain ⟨hbegun, hnone⟩ := h.callback_of_starts (by simp [Work.starts])
    rw [hcall]
    have haddresses' : addresses = (done ++ [candidate]) ++ left := by simpa using haddresses
    refine h.pop.lookupNext hc hbegun hnone hans haddresses' ?_
    rw [foldl_append, ← hb]; rfl

theorem afterLookup (call g : Nat) (error : Option Nat) (address : Bytes)
    (h : Orderly isIP s (.lookupOne call g error address :: ws)) :
    Orderly isIP (s.afterLookup isIP call g error address).1 ((s.afterLookup isIP call g error address).2 ++ ws) := by
  have hok := h.works _ mem_cons_self
  unfold Socket.afterLookup
  split
  · exact h.pop
  · next hnot =>
    simp only [ne_eq, not_or, Decidable.not_not, Bool.not_eq_false] at hnot
    obtain ⟨rfl, hc⟩ := hnot
    obtain ⟨hcall, hans⟩ := hok.2 rfl
    obtain ⟨hbegun, hnone⟩ := h.callback_of_starts (by simp [Work.starts])
    split
    · exact h.pop.task ⟨Nat.le_refl _, fun _ => hcall, by simp⟩ rfl
    · split
      · exact h.pop.task ⟨Nat.le_refl _, fun _ => hcall, by simp⟩ rfl
      · exact h.pop.beginAttempts hc hbegun hnone hans false

end Orderly

/-! ## Connecting -/

/-- Work and microtasks of the `close` of a call. -/
def Socket.Work.closes : Work → Bool
  | .destroyRest _ => true
  | .clearSelf _ => true
  | _ => false

def Microtask.closes : Microtask → Bool
  | .emitClose _ => true
  | _ => false

namespace Orderly

variable {s s' : Socket} {ws : List Work} {w : Work}

/-- A new call, when the `close` of the one before is over: whatever is waiting is of an old generation. -/
theorem renew (h : Orderly isIP s ws) (hc : s.connecting = false) (htasks : ∀ m ∈ s.microtasks, m.closes = false)
    (hworks : ∀ w ∈ ws, w.closes = false) (o : ConnectOptions) (answer : Option Answered) :
    Orderly isIP { s with
      past := s.past ++ [s.now]
      now := { answer }
      connectGeneration := s.connectGeneration + 1
      destroyed := false
      self := true
      closeEmitted := false
      connecting := true
      readyState := .opening
      nativeId := 0
      attempts := []
      attemptTargets := []
      attemptNext := 0
      attemptPort := o.port
      attemptMultiple := false
      connectingWrites := []
      connectingEnd := false } ws := by
  have hnew : ∀ {g : Nat}, g ≤ s.connectGeneration → g ≠ s.connectGeneration + 1 := fun hle heq => by omega
  refine ⟨h.raced.reset hc answer, ?_, ?_, ?_, h.creates, ?_⟩
  · intro w hw
    have hok := h.works w hw
    have hclose := hworks w hw
    cases w with
    | lookupOne call g error address => exact ⟨Nat.le_succ_of_le hok.1, fun heq => absurd heq (hnew hok.1)⟩
    | lookupAll call g addresses candidate left b | afterTimeout g => exact ⟨Nat.le_succ_of_le hok.1, fun heq => absurd heq (hnew hok.1)⟩
    | create g a => exact ⟨Nat.le_succ_of_le hok.1, hok.2.1, hok.2.2.1, fun heq => absurd heq (hnew hok.1)⟩
    | afterFailed g error => exact ⟨Nat.le_succ_of_le hok.1, fun heq => absurd heq (hnew hok.1)⟩
    | destroyRest call | clearSelf call => cases hclose
    | _ => exact hok
  · intro m hm
    have hok := h.tasks m hm
    have hclose := htasks m hm
    cases m with
    | begin call g targets => exact ⟨Nat.le_succ_of_le hok.1, fun heq => absurd heq (hnew hok.1)⟩
    | destroy call g error => exact ⟨Nat.le_succ_of_le hok.1, fun heq => absurd heq (hnew hok.1), hok.2.2⟩
    | failAttempt call g a error => exact ⟨Nat.le_succ_of_le hok.1, hok.2.1, fun heq => absurd heq (hnew hok.1)⟩
    | emitClose call => cases hclose
  · intro l hl
    have hok := h.lookups l hl
    exact ⟨Nat.le_succ_of_le hok.old, fun heq => absurd heq (hnew hok.old)⟩
  · have hzero : starters s ws (s.connectGeneration + 1) = 0 := h.starters_new (Nat.lt_succ_self _)
    simp only [starters] at hzero ⊢; simp [hzero]

theorem reset (h : Orderly isIP s ws) (hc : s.connecting = false) (htasks : ∀ m ∈ s.microtasks, m.closes = false)
    (hworks : ∀ w ∈ ws, w.closes = false) (o : ConnectOptions) :
    Orderly isIP (s.reset isIP o).1 ((s.reset isIP o).2 ++ ws) := by
  have hzero : starters s ws (s.connectGeneration + 1) = 0 := h.starters_new (Nat.lt_succ_self _)
  unfold Socket.reset
  split
  · exact (h.renew hc htasks hworks o (some (.literal o.host))).taskStarter
      ⟨Nat.le_refl _, fun _ => ⟨rfl, _, rfl, rfl⟩⟩ rfl hzero
  · have hrenew := h.renew hc htasks hworks o none
    refine user ⟨hrenew.raced, hrenew.works, hrenew.tasks, ?_, hrenew.creates, ?_⟩
    · intro l hl
      obtain hl | hl := mem_append.1 hl
      · exact hrenew.lookups l hl
      · rw [mem_singleton] at hl; subst hl; exact ⟨Nat.le_refl _, fun _ => ⟨rfl, rfl⟩⟩
    · simp only [starters] at hzero
      simp only [starters, countP_append, countP_singleton]
      simp
      omega

/-! ## Callbacks -/

theorem countP_eraseIdx_add {α : Type} (p : α → Bool) {l : List α} {i : Nat} {x : α} (h : l[i]? = some x) :
    (l.eraseIdx i).countP p + (if p x then 1 else 0) = l.countP p := by
  induction l generalizing i with
  | nil => simp at h
  | cons y l ih =>
    cases i with
    | zero =>
      simp only [getElem?_cons_zero, Option.some.injEq] at h; subst h; simp [countP_cons]
    | succ i =>
      have := ih (i := i) (by simpa using h); simp only [eraseIdx_cons_succ, countP_cons]; omega

theorem answered (h : Orderly isIP s ws) {index : Nat} {l : PendingLookup} (hl : s.lookups[index]? = some l) :
    Orderly isIP { s with lookups := s.lookups.eraseIdx index } ws ∧
      Callback { s with lookups := s.lookups.eraseIdx index } ws l.call l.generation := by
  have hmem : l ∈ s.lookups := mem_of_getElem? hl
  obtain ⟨hold, hcur⟩ := h.lookups l hmem
  have hcount := fun g => countP_eraseIdx_add (fun l : PendingLookup => l.generation = g) hl
  have hsingle := h.single
  have hcount' := hcount s.connectGeneration
  refine ⟨⟨h.raced, h.works, h.tasks, fun l' hl' => h.lookups l' (mem_of_mem_eraseIdx hl'), h.creates, ?_⟩, hold, ?_⟩
  · simp only [starters] at hsingle ⊢; omega
  · intro heq
    obtain ⟨hcall, hc⟩ := hcur heq
    rw [if_pos (by simpa using heq)] at hcount'
    simp only [starters] at hsingle ⊢
    cases hb : s.now.begun with
    | true => rw [hb, if_pos rfl] at hsingle; omega
    | false => exact ⟨hcall, hc, rfl, by omega⟩

theorem taken (h : Orderly isIP s ws) {index : Nat} {m : Microtask} (hm : s.microtasks[index]? = some m) :
    Orderly isIP { s with microtasks := s.microtasks.eraseIdx index } ws ∧ TaskOk isIP s.toRace m ∧
      (m.starts s.connectGeneration = true → s.now.begun = false ∧
        starters { s with microtasks := s.microtasks.eraseIdx index } ws s.connectGeneration = 0) := by
  have hmem : m ∈ s.microtasks := mem_of_getElem? hm
  have hcount := countP_eraseIdx_add (starts s.connectGeneration) hm
  have hsingle := h.single
  refine ⟨⟨h.raced, h.works, fun m' hm' => h.tasks m' (mem_of_mem_eraseIdx hm'), h.lookups, h.creates, ?_⟩,
    h.tasks m hmem, ?_⟩
  · simp only [starters] at hsingle ⊢; omega
  · intro hstarts
    rw [if_pos hstarts] at hcount
    simp only [starters] at hsingle ⊢
    cases hb : s.now.begun with
    | true => rw [hb, if_pos rfl] at hsingle; omega
    | false => exact ⟨rfl, by omega⟩

theorem runMicrotask (h : Orderly isIP s []) {index : Nat} {m : Microtask} (hm : s.microtasks[index]? = some m) :
    Orderly isIP (({ s with microtasks := s.microtasks.eraseIdx index } : Socket).runMicrotask m).1
      ((({ s with microtasks := s.microtasks.eraseIdx index } : Socket).runMicrotask m).2 ++ []) := by
  obtain ⟨htaken, hok, hstarts⟩ := h.taken hm
  cases m with
  | begin call g targets =>
    simp only [Socket.runMicrotask]
    split
    · exact htaken
    · next hnot =>
      simp only [ne_eq, not_or, Decidable.not_not, Bool.not_eq_false] at hnot
      obtain ⟨rfl, hc⟩ := hnot
      obtain ⟨-, ans, hans, rfl⟩ := hok.2 rfl
      obtain ⟨hbegun, hnone⟩ := hstarts (by simp [starts])
      exact htaken.beginAttempts hc hbegun hnone hans false
  | destroy call g error =>
    simp only [Socket.runMicrotask]
    split
    · refine htaken.destroy ?_
      rintro e he errors rfl
      cases he; exact absurd rfl (hok.2.2 errors)
    · exact htaken
  | failAttempt call g a error =>
    simp only [Socket.runMicrotask]
    split
    · next hcond => exact htaken.failAttempt hok.2.1 hcond.2 (by simp) error
    · exact htaken
  | emitClose call => exact htaken.emitClose hok.2

theorem onTimer (h : Orderly isIP s []) {g : Nat} {a : AttemptId} (ht : s.attemptTimer = some (g, a)) :
    Orderly isIP (s.onTimer g a).1 ((s.onTimer g a).2 ++ []) := by
  obtain ⟨hg, hbegun⟩ := h.raced.timer g a ht
  have hclear : Orderly isIP { s with attemptTimer := none } [] := h.carry h.raced.clearTimer ⟨Nat.le_refl _, rfl, fun _ => rfl,
    fun _ hb => hb, fun _ hc => hc, fun hd => hd, Nat.le_refl _⟩ (by simp) rfl rfl (fun _ hc => .inl hc) (fun _ hb => .inl hb)
  unfold Socket.onTimer
  dsimp only
  split
  · exact hclear
  · exact (hclear.push (w := .afterTimeout g) ⟨Nat.le_of_eq hg, fun _ => hbegun⟩ rfl rfl).user

/-! ## Steps -/

theorem callMethod (h : Orderly isIP s ws) (k : Call) :
    Orderly isIP (s.callMethod k).1 ((s.callMethod k).2 ++ ws) := by
  cases k with
  | connect o =>
    simp only [Socket.callMethod]
    split
    · exact h
    · have hreset : Orderly isIP s (.reset o :: ws) := h.push trivial rfl rfl
      split
      · exact hreset.user
      · exact hreset
  | write data => exact h.write data
  | endWrites => exact h.endWrites
  | destroySoon =>
    simp only [Socket.callMethod]
    split
    · exact h
    · have hsoon : Orderly isIP { s with destroyAfterFinish := true } ws := h.fields rfl rfl rfl; exact hsoon.endWrites
  | destroy error =>
    refine h.destroy ?_
    rintro e he errors rfl
    cases error <;> cases he

theorem tick (created : Created) (h : Orderly isIP s (w :: ws)) (hreset : ∀ o, w = .reset o → s.connecting = false ∧
      (∀ m ∈ s.microtasks, m.closes = false) ∧ ∀ v ∈ ws, v.closes = false) :
    Orderly isIP (s.tick isIP created w).1 ((s.tick isIP created w).2 ++ ws) := by
  cases w with
  | user => exact h
  | reset o => obtain ⟨hc, htasks, hworks⟩ := hreset o rfl; exact h.pop.reset hc htasks hworks o
  | lookupOne call g error address => exact afterLookup call g error address h
  | lookupAll call g addresses candidate left b => exact afterCandidate call g addresses candidate left b h
  | create g a => exact Orderly.create g a created h
  | afterTimeout g => exact Orderly.afterTimeout g h
  | dispatchAttempt a => exact Orderly.dispatchAttempt a h
  | afterFailed g error => exact Orderly.afterFailed g error h
  | afterConnect => exact h.pop.afterConnect
  | dispatch => exact h.pop.dispatch
  | afterFinish =>
    simp only [Socket.tick]
    split
    · exact h.pop.destroy (by simp)
    · exact h.pop
  | afterEnd =>
    simp only [Socket.tick]
    split
    · exact h.pop.endWrites
    · exact h.pop
  | destroyRest call =>
    obtain ⟨hcall, hd⟩ := h.works _ mem_cons_self
    have hrest := h.pop.destroyRest hd; rw [hcall]; exact hrest
  | clearSelf call => exact h.pop.fields rfl rfl rfl

end Orderly

end NodeCompat.Net
