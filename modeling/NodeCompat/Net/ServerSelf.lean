import NodeCompat.Net.NetServer

/-!
# `Server` of node:net: how long it refers to itself

A server refers to itself from `listen` until its `close` was emitted. The reference belongs to the object: `listen` sets it,
and the loop that emits `close` clears it behind the listeners, whatever they have done. `ServerKept` is what holds when none of
them listens again.
-/

namespace NodeCompat.Net

open List Function

/-- A native server: its events, and whether `close` was pushed, which happens once. -/
structure ServerHandle where
  events : List NetServerEvent := []
  closePushed : Bool := false
deriving DecidableEq

/-- Its `close` was taken. -/
def ServerHandle.spent (h : ServerHandle) : Prop := h.closePushed = true ∧ h.events.count .close = 0

structure Server where
  nativeId : Nat := 0
  listening : Bool := false
  self : Bool := false
  handle : Nat → ServerHandle := fun _ => {}
  handleCount : Nat := 0

namespace Server

/-- User code, and what the methods do behind it: `listen` behind `once('listening')`, `close` behind `once('close')`, and
`dispatchNativeEvents` of a handle, also behind `close`. -/
inductive Work
  | user
  | listen
  | close
  | dispatch (id : Nat)
  | afterClose (id : Nat)
deriving DecidableEq

def Work.isUser : Work → Bool
  | .user => true
  | _ => false

/-- Frames that go on with the events of a handle. -/
def Work.loops : Work → Bool
  | .dispatch _ => true
  | .afterClose _ => true
  | _ => false

/-- `close` is being emitted. -/
def Work.closes : Work → Bool
  | .afterClose _ => true
  | _ => false

variable (s : Server)

/-- `listen`, up to the registration of its listener; it throws when the server listens or the port is none. -/
def listen (port : Nat) (listener : Bool) : List Work :=
  if s.nativeId ≠ 0 ∨ s.listening = true ∨ 65535 < port then []
  else (if listener then [.user] else []) ++ [.listen]

/-- `listen`, behind it: the native side has a server, or fails. -/
def listenRest (created : Bool) : Server :=
  let s := { s with self := true }
  if created then { s with nativeId := s.handleCount + 1, handleCount := s.handleCount + 1 }
  else { s with self := false }

def close (callback : Bool) : List Work :=
  if s.nativeId = 0 then [] else (if callback then [.user] else []) ++ [.close]

def setHandle (id : Nat) (f : ServerHandle → ServerHandle) : Server :=
  { s with handle := Function.update s.handle id (f (s.handle id)) }

/-- One round of `dispatchNativeEvents`. -/
def dispatch (id : Nat) : Server × List Work :=
  match (s.handle id).events with
  | [] => (s, [])
  | e :: es =>
    let s := s.setHandle id (fun h => { h with events := es })
    match e with
    | .listening => ({ s with listening := true }, [.user, .dispatch id])
    | .close => ({ s with listening := false, nativeId := 0 }, [.user, .afterClose id])
    | _ => (s, [.user, .dispatch id])

/-- A piece of work other than user code; `created` is what the native side answers to `listen`. -/
def tick (created : Bool) : Work → Server × List Work
  | .user => (s, [.user])
  | .listen => (s.listenRest created, [])
  | .close => ({ s with listening := false }, [])
  | .dispatch id => s.dispatch id
  | .afterClose id => ({ s with self := false }, [.dispatch id])

end Server

/-- The server and the methods under way. -/
structure ServerConfig where
  server : Server := {}
  works : List Server.Work := []

namespace ServerConfig

inductive Label
  | tick (created : Bool)
  | listen (port : Nat) (listener : Bool)
  | close (callback : Bool)
  | ret
  | throw
  | event (id : Nat) (e : NetServerEvent)
  | notify
deriving DecidableEq

variable (c : ServerConfig)

def inUser : Bool := c.works.head?.all Server.Work.isUser

def step : Label → Option ServerConfig
  | .tick created =>
    match c.works with
    | [] => none
    | w :: ws =>
      if w.isUser then none else some ⟨(c.server.tick created w).1, (c.server.tick created w).2 ++ ws⟩
  | .listen port listener => if c.inUser then some { c with works := c.server.listen port listener ++ c.works } else none
  | .close callback => if c.inUser then some { c with works := c.server.close callback ++ c.works } else none
  | .ret =>
    match c.works with
    | [] => none
    | w :: ws => if w.isUser then some { c with works := ws } else none
  | .throw =>
    match c.works with
    | [] => none
    | w :: ws => if w.isUser then some { c with works := ws.dropWhile (fun w => !w.isUser) } else none
  | .event id e =>
    if 0 < id ∧ id ≤ c.server.handleCount ∧ (e = .close → (c.server.handle id).closePushed = false) then
      some { c with server := c.server.setHandle id (fun h =>
        { h with events := h.events ++ [e], closePushed := h.closePushed || e = .close }) }
    else none
  | .notify =>
    match c.works with
    | [] => if c.server.nativeId = 0 then some c else some { c with works := [.dispatch c.server.nativeId] }
    | _ :: _ => none

/-- `listen` goes through only when no server is there and no `close` is being emitted, also behind the registration of its
listener. -/
def composed : Label → Bool
  | .tick _ =>
    match c.works with
    | .listen :: ws => c.server.nativeId = 0 && !ws.any Server.Work.closes
    | _ => true
  | _ => true

end ServerConfig

/-! ## The invariant -/

structure ServerKept (s : Server) (ws : List Server.Work) : Prop where
  zero : s.handle 0 = {}
  fresh : ∀ id, s.handleCount < id → s.handle id = {}
  closes : ∀ id, (s.handle id).events.count .close ≤ if (s.handle id).closePushed then 1 else 0
  current : ∀ id, 0 < id → id ≤ s.handleCount → id = s.nativeId ∨ (s.handle id).spent
  self : s.nativeId ≠ 0 → s.self = true
  closing : ∀ id, Server.Work.afterClose id ∈ ws → s.nativeId = 0 ∧ s.self = true
  loops : ws.countP Server.Work.loops ≤ 1

namespace ServerKept

open Server

variable {s : Server} {ws ws' : List Work} {w : Work}

theorem drop (h : ServerKept s ws) (hsub : ws'.Sublist ws) : ServerKept s ws' :=
  ⟨h.zero, h.fresh, h.closes, h.current, h.self, fun id hmem => h.closing id (hsub.subset hmem),
    Nat.le_trans hsub.countP_le h.loops⟩

theorem push (h : ServerKept s ws) (hw : w.loops = false) : ServerKept s (w :: ws) := by
  refine ⟨h.zero, h.fresh, h.closes, h.current, h.self, ?_, ?_⟩
  · intro id hmem
    obtain rfl | hmem := mem_cons.1 hmem
    · cases hw
    · exact h.closing id hmem
  · rw [countP_cons_of_neg (by simp [hw])]; exact h.loops

theorem alone (h : ServerKept s (w :: ws)) (hw : w.loops = true) : ws.countP Work.loops = 0 := by
  have hloops := h.loops; rw [countP_cons_of_pos hw] at hloops; omega

theorem not_closing (hloops : ws.countP Work.loops = 0) (id : Nat) : Work.afterClose id ∉ ws := by
  intro hmem; rw [countP_eq_zero] at hloops; exact hloops _ hmem rfl

theorem loop (h : ServerKept s ws) (hloops : ws.countP Work.loops = 0) (id : Nat) : ServerKept s (.dispatch id :: ws) := by
  refine ⟨h.zero, h.fresh, h.closes, h.current, h.self, ?_, ?_⟩
  · intro i hmem; exact h.closing i (by simpa using hmem)
  · rw [countP_cons_of_pos rfl]; omega

theorem setHandle_spent {id : Nat} {f : ServerHandle → ServerHandle} (hf : (s.handle id).spent → (f (s.handle id)).spent) :
    ∀ i, (s.handle i).spent → ((s.setHandle id f).handle i).spent := by
  intro i hi
  by_cases heq : i = id
  · subst heq; simpa [Server.setHandle] using hf hi
  · simpa [Server.setHandle, update_of_ne heq] using hi

theorem setHandle (h : ServerKept s ws) {id : Nat} (hpos : 0 < id) (hle : id ≤ s.handleCount) {f : ServerHandle → ServerHandle}
    (hcloses : (f (s.handle id)).events.count .close ≤ if (f (s.handle id)).closePushed then 1 else 0)
    (hspent : (s.handle id).spent → (f (s.handle id)).spent) : ServerKept (s.setHandle id f) ws := by
  have hother : ∀ i, i ≠ id → (s.setHandle id f).handle i = s.handle i := by
    intro i hi; simp [Server.setHandle, update_of_ne hi]
  refine ⟨?_, ?_, ?_, ?_, h.self, h.closing, h.loops⟩
  · rw [hother 0 (by omega)]; exact h.zero
  · intro i hi
    have hi' : s.handleCount < i := hi
    rw [hother i (by omega)]; exact h.fresh i hi'
  · intro i
    by_cases heq : i = id
    · subst heq; simpa [Server.setHandle] using hcloses
    · rw [hother i heq]; exact h.closes i
  · intro i h₀ h₁
    obtain hcur | hold := h.current i h₀ h₁
    · exact .inl hcur
    · exact .inr (setHandle_spent hspent i hold)

theorem listenRest (h : ServerKept s ws) (hzero : s.nativeId = 0) (hclosing : ∀ id, Work.afterClose id ∉ ws) (created : Bool) :
    ServerKept (s.listenRest created) ws := by
  cases created with
  | false =>
    exact ⟨h.zero, h.fresh, h.closes, h.current, fun hne => absurd hzero hne, fun id hmem => absurd hmem (hclosing id), h.loops⟩
  | true =>
    refine ⟨h.zero, ?_, h.closes, ?_, fun _ => rfl, fun id hmem => absurd hmem (hclosing id), h.loops⟩
    · intro id hid; exact h.fresh id (Nat.lt_of_succ_lt hid)
    · intro id h₀ h₁
      by_cases heq : id = s.handleCount + 1
      · exact .inl heq
      · obtain hcur | hold := h.current id h₀ (Nat.lt_succ_iff.1 (Nat.lt_of_le_of_ne h₁ heq))
        · omega
        · exact .inr hold

theorem dispatch (id : Nat) (h : ServerKept s (.dispatch id :: ws)) :
    ServerKept (s.dispatch id).1 ((s.dispatch id).2 ++ ws) := by
  have hloops := h.alone rfl
  have hpop : ServerKept s ws := h.drop (sublist_cons_self _ _)
  unfold Server.dispatch
  split
  · exact hpop
  · next e es hevents =>
    have hpos : 0 < id := by
      by_contra hle
      obtain rfl : id = 0 := by omega
      simp [h.zero] at hevents
    have hle : id ≤ s.handleCount := by
      by_contra hlt
      simp [h.fresh id (by omega)] at hevents
    have hcount := h.closes id
    rw [hevents, count_cons] at hcount
    have hset : ServerKept (s.setHandle id (fun handle => { handle with events := es })) ws := by
      refine hpop.setHandle hpos hle (by dsimp only; omega) ?_
      rintro ⟨hp, hzero⟩
      rw [hevents, count_cons] at hzero; exact ⟨hp, by dsimp only; omega⟩
    cases e with
    | close =>
      simp only [beq_self_eq_true, if_true] at hcount
      have hpushed : (s.handle id).closePushed = true := by
        by_contra hp
        simp [hp] at hcount
      rw [hpushed, if_pos rfl] at hcount
      have hcur : id = s.nativeId := by
        refine (h.current id hpos hle).resolve_right ?_
        rintro ⟨-, hzero⟩; simp [hevents] at hzero
      refine push (w := .user) ⟨hset.zero, hset.fresh, hset.closes, ?_, fun hne => absurd rfl hne, ?_, ?_⟩ rfl
      · intro i h₀ h₁
        refine .inr ?_
        by_cases heq : i = id
        · subst heq; simp only [Server.setHandle, update_self]; exact ⟨hpushed, by dsimp only; omega⟩
        · refine (hset.current i h₀ h₁).resolve_left ?_
          intro hi; exact heq (hi.trans hcur.symm)
      · intro _ _; exact ⟨rfl, h.self (by omega)⟩
      · show (Work.afterClose id :: ws).countP Work.loops ≤ 1; rw [countP_cons_of_pos rfl]; omega
    | listening =>
      have hlistening : ServerKept { s.setHandle id (fun handle => { handle with events := es }) with listening := true } ws :=
        ⟨hset.zero, hset.fresh, hset.closes, hset.current, hset.self, hset.closing, hset.loops⟩
      exact (hlistening.loop hloops id).push rfl
    | connection | error | drop => exact (hset.loop hloops id).push rfl

theorem tick (created : Bool) (h : ServerKept s (w :: ws))
    (hlisten : w = .listen → s.nativeId = 0 ∧ ∀ id, Work.afterClose id ∉ ws) :
    ServerKept (s.tick created w).1 ((s.tick created w).2 ++ ws) := by
  have hpop : ServerKept s ws := h.drop (sublist_cons_self _ _)
  cases w with
  | user => exact h
  | listen => exact hpop.listenRest (hlisten rfl).1 (hlisten rfl).2 created
  | close => exact ⟨hpop.zero, hpop.fresh, hpop.closes, hpop.current, hpop.self, hpop.closing, hpop.loops⟩
  | dispatch id => exact ServerKept.dispatch id h
  | afterClose id =>
    have hloops := h.alone rfl
    obtain ⟨hzero, -⟩ := h.closing id mem_cons_self
    have hclear : ServerKept { s with self := false } ws := ⟨hpop.zero, hpop.fresh, hpop.closes, hpop.current,
      fun hne => absurd hzero hne, fun i hmem => absurd hmem (not_closing hloops i), hpop.loops⟩
    exact hclear.loop hloops id

theorem event (h : ServerKept s ws) {id : Nat} (hpos : 0 < id) (hle : id ≤ s.handleCount) {e : NetServerEvent}
    (hclose : e = .close → (s.handle id).closePushed = false) :
    ServerKept (s.setHandle id (fun handle =>
      { handle with events := handle.events ++ [e], closePushed := handle.closePushed || e = .close })) ws := by
  have hcount := h.closes id
  refine h.setHandle hpos hle ?_ ?_
  · rw [count_append, count_singleton]
    by_cases he : e = .close
    · rw [hclose he] at hcount; simp only [he, beq_self_eq_true, if_true, decide_true, Bool.or_true]; simpa using hcount
    · simpa [he] using hcount
  · rintro ⟨hp, hzero⟩
    have he : e ≠ .close := by intro he; simp [hclose he] at hp
    exact ⟨by simp [hp], by simp [hzero, he]⟩

theorem step {c c' : ServerConfig} {l : ServerConfig.Label} (h : ServerKept c.server c.works) (hcond : c.composed l = true)
    (hstep : c.step l = some c') : ServerKept c'.server c'.works := by
  cases l with
  | tick created =>
    simp only [ServerConfig.step] at hstep
    split at hstep
    · cases hstep
    · next w ws hw =>
      split at hstep
      · cases hstep
      · cases hstep
        rw [hw] at h
        refine h.tick created ?_
        rintro rfl
        simp only [ServerConfig.composed, hw, Bool.and_eq_true, decide_eq_true_eq, Bool.not_eq_true', any_eq_false] at hcond
        exact ⟨hcond.1, fun id hmem => hcond.2 _ hmem rfl⟩
  | listen port listener =>
    simp only [ServerConfig.step] at hstep
    split at hstep
    · cases hstep
      dsimp only [Server.listen]
      split
      · exact h
      · have hlisten : ServerKept c.server (.listen :: c.works) := h.push rfl
        split
        · exact hlisten.push rfl
        · exact hlisten
    · cases hstep
  | close callback =>
    simp only [ServerConfig.step] at hstep
    split at hstep
    · cases hstep
      dsimp only [Server.close]
      split
      · exact h
      · have hclose : ServerKept c.server (.close :: c.works) := h.push rfl
        split
        · exact hclose.push rfl
        · exact hclose
    · cases hstep
  | ret =>
    simp only [ServerConfig.step] at hstep
    split at hstep
    · cases hstep
    · next w ws hw =>
      split at hstep
      · cases hstep; rw [hw] at h; exact h.drop (sublist_cons_self _ _)
      · cases hstep
  | throw =>
    simp only [ServerConfig.step] at hstep
    split at hstep
    · cases hstep
    · next w ws hw =>
      split at hstep
      · cases hstep; rw [hw] at h; exact h.drop ((dropWhile_sublist _).trans (sublist_cons_self _ _))
      · cases hstep
  | event id e =>
    simp only [ServerConfig.step] at hstep
    split at hstep
    · next hid =>
      cases hstep; exact h.event hid.1 hid.2.1 hid.2.2
    · cases hstep
  | notify =>
    simp only [ServerConfig.step] at hstep
    split at hstep
    · next hw =>
      split at hstep
      · cases hstep; exact h
      · cases hstep; rw [hw] at h; exact h.loop rfl _
    · cases hstep

end ServerKept

/-- From `listen` until its `close` is taken, a native server is the server's and the server refers to itself; and it still does
while `close` is being emitted. -/
structure ServerLife (c : ServerConfig) : Prop where
  self : ∀ id, 0 < id → id ≤ c.server.handleCount → ¬ (c.server.handle id).spent →
    c.server.nativeId = id ∧ c.server.self = true
  closing : ∀ id, Server.Work.afterClose id ∈ c.works → c.server.self = true

theorem ServerKept.run {labels : List ServerConfig.Label} {c : ServerConfig}
    (h : Run ServerConfig.step (fun c l => c.composed l = true) {} labels c) : ServerKept c.server c.works := by
  refine h.invariant (I := fun c => ServerKept c.server c.works) (fun c l c' hok hcond hstep => hok.step hcond hstep) ?_
  constructor <;> simp
  omega

theorem ServerKept.life {c : ServerConfig} (h : ServerKept c.server c.works) : ServerLife c := by
  constructor
  · intro id hpos hle hspent
    have hcur := (h.current id hpos hle).resolve_right hspent; exact ⟨hcur.symm, h.self (by omega)⟩
  · intro id hmem; exact (h.closing id hmem).2

end NodeCompat.Net
