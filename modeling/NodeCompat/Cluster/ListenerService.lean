import NodeCompat.Bytes
import NodeCompat.Lib.FreeSlots
import NodeCompat.Lib.Run
import Mathlib.Data.List.Nodup

/-!
# The listener service of a primary on Windows

The primary owns one listening socket for each address and hands duplicates of it to its workers. It keeps the process
ids of its children in a table of 256 cells, where 0 marks a free one, and the listeners in one of 64 slots. Nothing
says so when a table is full. `sharing_of_run`: while neither table overflows, live children are known, other processes
are not, and two requests for one address are answered from one socket.
-/

namespace NodeCompat.Cluster.Listeners

open List Option

/-! ## Errors -/

inductive Errno
  | EACCES | EADDRINUSE | EADDRNOTAVAIL | EAFNOSUPPORT | EAGAIN | EALREADY | EBADF | ECANCELED | ECONNABORTED | ECONNREFUSED
  | ECONNRESET | EDESTADDRREQ | EFAULT | EHOSTUNREACH | EINPROGRESS | EINTR | EINVAL | EIO | EISCONN | EMFILE | EMSGSIZE
  | ENAMETOOLONG | ENETDOWN | ENETRESET | ENETUNREACH | ENOBUFS | ENOMEM | ENOPROTOOPT | ENOTCONN | ENOTSOCK | EOPNOTSUPP
  | EPIPE | EPROTONOSUPPORT | EPROTOTYPE | ETIMEDOUT
deriving DecidableEq

inductive WinsockError
  | WSAEWOULDBLOCK | WSAEINPROGRESS | WSAEALREADY | WSAENOTSOCK | WSAEDESTADDRREQ | WSAEMSGSIZE | WSAEPROTOTYPE
  | WSAENOPROTOOPT | WSAEPROTONOSUPPORT | WSAESOCKTNOSUPPORT | WSAEOPNOTSUPP | WSAEPFNOSUPPORT | WSAEAFNOSUPPORT
  | WSAEADDRINUSE | WSAEADDRNOTAVAIL | WSAENETDOWN | WSAENETUNREACH | WSAENETRESET | WSAECONNABORTED | WSAECONNRESET
  | WSAENOBUFS | WSAEISCONN | WSAENOTCONN | WSAESHUTDOWN | WSAETIMEDOUT | WSAECONNREFUSED | WSAEHOSTDOWN | WSAEHOSTUNREACH
  | WSAEMFILE | WSAEINVAL | WSAEFAULT | WSAEACCES | WSAEINTR | WSAEBADF | WSA_INVALID_HANDLE | WSAENAMETOOLONG
  | WSA_NOT_ENOUGH_MEMORY | WSAECANCELLED | WSA_OPERATION_ABORTED
  | other (code : Nat)
deriving DecidableEq

/-- `errnoFromWinsock`; `none` is 0. -/
def errnoFromWinsock : Option WinsockError → Option Errno
  | none => none
  | some .WSAEWOULDBLOCK => some .EAGAIN
  | some .WSAEINPROGRESS => some .EINPROGRESS
  | some .WSAEALREADY => some .EALREADY
  | some .WSAENOTSOCK => some .ENOTSOCK
  | some .WSAEDESTADDRREQ => some .EDESTADDRREQ
  | some .WSAEMSGSIZE => some .EMSGSIZE
  | some .WSAEPROTOTYPE => some .EPROTOTYPE
  | some .WSAENOPROTOOPT => some .ENOPROTOOPT
  | some .WSAEPROTONOSUPPORT => some .EPROTONOSUPPORT
  | some .WSAESOCKTNOSUPPORT => some .EPROTONOSUPPORT
  | some .WSAEOPNOTSUPP => some .EOPNOTSUPP
  | some .WSAEPFNOSUPPORT => some .EAFNOSUPPORT
  | some .WSAEAFNOSUPPORT => some .EAFNOSUPPORT
  | some .WSAEADDRINUSE => some .EADDRINUSE
  | some .WSAEADDRNOTAVAIL => some .EADDRNOTAVAIL
  | some .WSAENETDOWN => some .ENETDOWN
  | some .WSAENETUNREACH => some .ENETUNREACH
  | some .WSAENETRESET => some .ENETRESET
  | some .WSAECONNABORTED => some .ECONNABORTED
  | some .WSAECONNRESET => some .ECONNRESET
  | some .WSAENOBUFS => some .ENOBUFS
  | some .WSAEISCONN => some .EISCONN
  | some .WSAENOTCONN => some .ENOTCONN
  | some .WSAESHUTDOWN => some .EPIPE
  | some .WSAETIMEDOUT => some .ETIMEDOUT
  | some .WSAECONNREFUSED => some .ECONNREFUSED
  | some .WSAEHOSTDOWN => some .EHOSTUNREACH
  | some .WSAEHOSTUNREACH => some .EHOSTUNREACH
  | some .WSAEMFILE => some .EMFILE
  | some .WSAEINVAL => some .EINVAL
  | some .WSAEFAULT => some .EFAULT
  | some .WSAEACCES => some .EACCES
  | some .WSAEINTR => some .EINTR
  | some .WSAEBADF => some .EBADF
  | some .WSA_INVALID_HANDLE => some .EBADF
  | some .WSAENAMETOOLONG => some .ENAMETOOLONG
  | some .WSA_NOT_ENOUGH_MEMORY => some .ENOMEM
  | some .WSAECANCELLED => some .ECANCELED
  | some .WSA_OPERATION_ABORTED => some .ECANCELED
  | some (.other _) => some Errno.EIO

theorem errnoFromWinsock_eq_EACCES {e : Option WinsockError} :
    errnoFromWinsock e = some .EACCES ↔ e = some .WSAEACCES := by
  cases e with
  | none => simp [errnoFromWinsock]
  | some e => cases e <;> simp [errnoFromWinsock]

/-! ## Requests and replies -/

/-- `sizeof(sockaddr_storage)` -/
def storageSize : Nat := 128

def kClusterListenMagic : UInt32 := 0x6765614c

def SOMAXCONN : Int := 0x7fffffff

def AF_INET6 : Nat := 23

structure ClusterListenRequest where
  magic : UInt32 := kClusterListenMagic
  backlog : Int := 0
  ipv6Only : Int := 0
  addressLength : Int
  address : Bytes
  whole : address.length = storageSize

/-- The bytes of the address that is asked for. -/
def ClusterListenRequest.wanted (request : ClusterListenRequest) : Bytes := request.address.take request.addressLength.toNat

/-- `request.address.ss_family` -/
def ClusterListenRequest.family (request : ClusterListenRequest) : Nat :=
  match request.address with
  | low :: high :: _ => low.toNat + 256 * high.toNat
  | _ => 0

def ClusterListenRequest.WellFormed (request : ClusterListenRequest) : Prop :=
  request.magic = kClusterListenMagic ∧ 0 < request.addressLength ∧ request.addressLength ≤ storageSize

instance (request : ClusterListenRequest) : Decidable request.WellFormed := by
  unfold ClusterListenRequest.WellFormed
  infer_instance

/-- The protocol info of a duplicate: of which socket, and for which process. -/
structure Duplicate where
  socket : Nat
  process : Nat
deriving DecidableEq

structure ClusterListenReply where
  error : Option Errno := none
  info : Option Duplicate := none

/-! ## The service -/

structure ClusterListenerSlot where
  address : Bytes
  socket : Nat

/-- The two tables. -/
structure ClusterListenerService where
  children : FreeSlots Nat 256 := .empty
  slots : List ClusterListenerSlot := []
  slotsFit : slots.length ≤ 64 := by decide

def registerClusterChild (s : ClusterListenerService) (pid : Nat) : ClusterListenerService :=
  { s with children := s.children.insert 0 pid }

def forgetClusterChild (s : ClusterListenerService) (pid : Nat) : ClusterListenerService :=
  { s with children := s.children.remove 0 pid }

inductive SocketOption
  | exclusiveAddrUse
  | ipv6Only (on : Bool)
deriving DecidableEq

/-- What the system calls answer during a request: `WSAGetLastError` after each, `none` where it worked. -/
structure Winsock where
  WSASocketW : Nat → Except WinsockError Nat
  bind : Nat → List SocketOption → Bytes → Option WinsockError
  listen : Nat → Int → Option WinsockError
  WSADuplicateSocketW : Nat → Nat → Option WinsockError

def socketOptions (request : ClusterListenRequest) : List SocketOption :=
  .exclusiveAddrUse :: (if request.family = AF_INET6 then [.ipv6Only (request.ipv6Only != 0)] else [])

/-- A new listener for the address. -/
def openListener (os : Winsock) (request : ClusterListenRequest) : Except (Option Errno) Nat :=
  match os.WSASocketW request.family with
  | .error e => .error (errnoFromWinsock (some e))
  | .ok listener =>
    match os.bind listener (socketOptions request) request.wanted with
    | some e => .error (errnoFromWinsock (some e))
    | none =>
      match os.listen listener (if 0 < request.backlog then request.backlog else SOMAXCONN) with
      | some e => .error (errnoFromWinsock (some e))
      | none => .ok listener

/-- The listener is remembered if there is a slot left. -/
def remember (s : ClusterListenerService) (slot : ClusterListenerSlot) : ClusterListenerService :=
  if h : s.slots.length < 64 then { s with slots := s.slots ++ [slot], slotsFit := by rw [length_append]; exact h }
  else s

/-- The loop over the slots, which goes on after a match. -/
def findListener (s : ClusterListenerService) (address : Bytes) : Option Nat :=
  s.slots.foldl (fun listener slot => if slot.address = address then some slot.socket else listener) none

/-- A duplicate of the listener for the process. -/
def duplicateFor (os : Winsock) (listener pid : Nat) : ClusterListenReply :=
  match os.WSADuplicateSocketW listener pid with
  | some e => { error := errnoFromWinsock (some e) }
  | none => { info := some ⟨listener, pid⟩ }

def answerClusterListen (os : Winsock) (s : ClusterListenerService) (request : ClusterListenRequest) (pid : Nat) :
    ClusterListenerService × ClusterListenReply :=
  if ¬request.WellFormed then (s, { error := some .EINVAL })
  else if pid ∉ s.children.cells then (s, { error := some .EACCES })
  else
    match findListener s request.wanted with
    | some listener => (s, duplicateFor os listener pid)
    | none =>
      match openListener os request with
      | .error e => (s, { error := e })
      | .ok listener => (remember s ⟨request.wanted, listener⟩, duplicateFor os listener pid)

/-! ## Runs -/

/-- An answer that was given, and whether the process was a live child then. -/
structure Answer where
  pid : Nat
  live : Bool
  request : ClusterListenRequest
  os : Winsock
  reply : ClusterListenReply

/-- The service, the children that are spawned and not reaped, and the answers, the newest first. -/
structure Watched where
  service : ClusterListenerService := {}
  live : List Nat := []
  answers : List Answer := []

inductive Call
  -- of `spawnChild` and `reapExitedChildren`
  | register (pid : Nat)
  | forget (pid : Nat)
  -- of the helper thread
  | answer (request : ClusterListenRequest) (pid : Nat) (os : Winsock)

def step (w : Watched) : Call → Option Watched
  | .register pid => some { w with service := registerClusterChild w.service pid, live := pid :: w.live }
  | .forget pid => some { w with service := forgetClusterChild w.service pid, live := w.live.filter (· ≠ pid) }
  | .answer request pid os =>
    let (service, reply) := answerClusterListen os w.service request pid
    some { w with service, answers := ⟨pid, decide (pid ∈ w.live), request, os, reply⟩ :: w.answers }

/-- No system call answers `WSAEACCES`. -/
structure Winsock.Permits (os : Winsock) : Prop where
  socket : ∀ family, os.WSASocketW family ≠ .error .WSAEACCES
  bind : ∀ listener options address, os.bind listener options address ≠ some .WSAEACCES
  listen : ∀ listener backlog, os.listen listener backlog ≠ some .WSAEACCES
  duplicate : ∀ listener pid, os.WSADuplicateSocketW listener pid ≠ some .WSAEACCES

/-- Neither table overflows: there are less than 256 live children when one is spawned, and when a new address is bound
a slot is left. Other processes have an id and send requests, and the system permits what children ask for. -/
def Fits (w : Watched) : Call → Prop
  | .register pid => pid ≠ 0 ∧ w.live.length < 256
  | .forget _ => True
  | .answer request pid os =>
    (pid ∈ w.live → os.Permits ∧
      (w.service.slots.length < 64 ∨ (∃ slot ∈ w.service.slots, slot.address = request.wanted) ∨
        (∃ e, openListener os request = .error e))) ∧
    (pid ∉ w.live → pid ≠ 0 ∧ request.WellFormed)

/-- What the service promises of the answers so far. -/
structure Sharing (w : Watched) : Prop where
  child : ∀ a ∈ w.answers, a.live = true → a.reply.error ≠ some .EACCES
  stranger : ∀ a ∈ w.answers, a.live = false → a.reply.error = some .EACCES ∧ a.reply.info = none
  one : ∀ a ∈ w.answers, ∀ b ∈ w.answers, a.request.wanted = b.request.wanted → ∀ d ∈ a.reply.info, ∀ d' ∈ b.reply.info,
    d.socket = d'.socket
  /-- After a granted request, the others for the address get duplicates of its socket: nothing is bound for them. -/
  again : w.answers.Pairwise (fun later a => later.live = true → later.request.WellFormed →
    later.request.wanted = a.request.wanted → ∀ d ∈ a.reply.info,
      later.reply = duplicateFor later.os d.socket later.pid)

/-! ## The listeners -/

variable {s : ClusterListenerService} {os : Winsock} {request : ClusterListenRequest} {pid listener : Nat} {address : Bytes}

theorem findListener_eq (s : ClusterListenerService) (address : Bytes) :
    findListener s address = (s.slots.filter (fun slot => slot.address = address)).getLast?.map (·.socket) := by
  rw [findListener]
  induction s.slots using List.reverseRecOn with
  | nil => rfl
  | append_singleton slots slot ih =>
    rw [foldl_append, foldl_cons, foldl_nil, ih, filter_append]
    by_cases h : slot.address = address <;> simp [h]

theorem findListener_mem (h : findListener s address = some listener) : ⟨address, listener⟩ ∈ s.slots := by
  rw [findListener_eq] at h
  obtain ⟨slot, hslot, rfl⟩ := map_eq_some_iff.1 h
  have hmem := mem_filter.1 (mem_of_getLast? hslot)
  obtain rfl : slot.address = address := by simpa using hmem.2
  exact hmem.1

theorem findListener_none : findListener s address = none ↔ ∀ slot ∈ s.slots, slot.address ≠ address := by
  rw [findListener_eq, map_eq_none_iff, getLast?_eq_none_iff, filter_eq_nil_iff]; simp

theorem socket_unique (hd : (s.slots.map ClusterListenerSlot.address).Nodup) {x y : Nat} (hx : ⟨address, x⟩ ∈ s.slots)
    (hy : ⟨address, y⟩ ∈ s.slots) : x = y := by
  simpa using inj_on_of_nodup_map hd hx hy rfl

theorem openListener_error (hp : os.Permits) {e : Option Errno} (h : openListener os request = .error e) :
    e ≠ some .EACCES := by
  unfold openListener at h
  split at h
  · next err hs =>
    cases h; rw [ne_eq, errnoFromWinsock_eq_EACCES, Option.some.injEq]; exact fun he => hp.socket _ (he ▸ hs)
  · split at h
    · next err hb =>
      cases h; rw [ne_eq, errnoFromWinsock_eq_EACCES]; exact hb ▸ hp.bind _ _ _
    · split at h
      · next err hl =>
        cases h; rw [ne_eq, errnoFromWinsock_eq_EACCES]; exact hl ▸ hp.listen _ _
      · cases h

theorem duplicateFor_error (hp : os.Permits) : (duplicateFor os listener pid).error ≠ some .EACCES := by
  unfold duplicateFor
  split
  · next e he =>
    rw [ne_eq, errnoFromWinsock_eq_EACCES]; exact he ▸ hp.duplicate _ _
  · exact some_ne_none _ ∘ Eq.symm

theorem duplicateFor_info {d : Duplicate} (h : d ∈ (duplicateFor os listener pid).info) : d = ⟨listener, pid⟩ := by
  unfold duplicateFor at h
  split at h
  · cases h
  · exact (Option.some.inj h).symm

theorem remember_slots (slot : ClusterListenerSlot) (h : s.slots.length < 64) : (remember s slot).slots = s.slots ++ [slot] := by
  rw [remember, dif_pos h]

@[simp] theorem remember_children (slot : ClusterListenerSlot) : (remember s slot).children = s.children := by
  unfold remember
  split <;> rfl

theorem answer_cases (os : Winsock) (s : ClusterListenerService) (request : ClusterListenRequest) (pid : Nat) :
    (¬request.WellFormed ∧ answerClusterListen os s request pid = (s, { error := some .EINVAL })) ∨
    (request.WellFormed ∧ pid ∉ s.children.cells ∧
      answerClusterListen os s request pid = (s, { error := some .EACCES })) ∨
    (pid ∈ s.children.cells ∧ ∃ listener, findListener s request.wanted = some listener ∧
      answerClusterListen os s request pid = (s, duplicateFor os listener pid)) ∨
    (pid ∈ s.children.cells ∧ findListener s request.wanted = none ∧ ∃ e, openListener os request = .error e ∧
      answerClusterListen os s request pid = (s, { error := e })) ∨
    (pid ∈ s.children.cells ∧ findListener s request.wanted = none ∧ ∃ listener, openListener os request = .ok listener ∧
      answerClusterListen os s request pid = (remember s ⟨request.wanted, listener⟩, duplicateFor os listener pid)) := by
  unfold answerClusterListen
  by_cases hw : request.WellFormed
  · by_cases hk : pid ∈ s.children.cells
    · cases hf : findListener s request.wanted with
      | some listener => simp [hw, hk]
      | none =>
        cases ho : openListener os request with
        | error e | ok listener => simp [hw, hk]
    · simp [hw, hk]
  · simp [hw]

/-! ## The invariant -/

structure Inv (w : Watched) : Prop where
  known : (w.service.children.used 0).Perm w.live
  nonzero : 0 ∉ w.live
  distinct : (w.service.slots.map ClusterListenerSlot.address).Nodup
  child : ∀ a ∈ w.answers, a.live = true → a.reply.error ≠ some .EACCES
  stranger : ∀ a ∈ w.answers, a.live = false → a.reply.error = some .EACCES ∧ a.reply.info = none
  held : ∀ a ∈ w.answers, ∀ d ∈ a.reply.info, ⟨a.request.wanted, d.socket⟩ ∈ w.service.slots
  again : w.answers.Pairwise (fun later a => later.live = true → later.request.WellFormed →
    later.request.wanted = a.request.wanted → ∀ d ∈ a.reply.info,
      later.reply = duplicateFor later.os d.socket later.pid)

namespace Inv

variable {w w' : Watched}

theorem init : Inv {} := by
  refine ⟨Perm.nil, not_mem_nil, nodup_nil, ?_, ?_, ?_, Pairwise.nil⟩
  all_goals exact fun a ha => absurd ha not_mem_nil

theorem mem_cells (h : Inv w) (hp : pid ≠ 0) : pid ∈ w.service.children.cells ↔ pid ∈ w.live := by
  rw [← FreeSlots.mem_used hp, h.known.mem_iff]

theorem live_mem_cells (h : Inv w) (hl : pid ∈ w.live) : pid ∈ w.service.children.cells :=
  (h.mem_cells (fun hz => h.nonzero (hz ▸ hl))).2 hl

theorem register (h : Inv w) (hp : pid ≠ 0) (hroom : w.live.length < 256) :
    Inv { w with service := registerClusterChild w.service pid, live := pid :: w.live } := by
  refine { h with known := ?_, nonzero := not_mem_cons_of_ne_of_not_mem hp.symm h.nonzero, distinct := h.distinct,
                  held := h.held }
  have hlen : (w.service.children.used 0).length < 256 := by rwa [h.known.length_eq]
  exact (FreeSlots.used_insert hp hlen).trans (h.known.cons pid)

theorem forget (h : Inv w) : Inv { w with service := forgetClusterChild w.service pid, live := w.live.filter (· ≠ pid) } := by
  refine { h with known := ?_, nonzero := fun hz => h.nonzero (mem_of_mem_filter hz), distinct := h.distinct,
                  held := h.held }
  have hused := @FreeSlots.used_remove Nat _ 256 0 pid w.service.children
  exact hused ▸ h.known.filter _

theorem cons (h : Inv w) {s : ClusterListenerService} {a : Answer} (hcells : s.children = w.service.children)
    (hslots : w.service.slots ⊆ s.slots) (hdistinct : (s.slots.map ClusterListenerSlot.address).Nodup)
    (hchild : a.live = true → a.reply.error ≠ some .EACCES)
    (hstranger : a.live = false → a.reply.error = some .EACCES ∧ a.reply.info = none)
    (hheld : ∀ d ∈ a.reply.info, ⟨a.request.wanted, d.socket⟩ ∈ s.slots)
    (hagain : a.live = true → a.request.WellFormed → ∀ x, ⟨a.request.wanted, x⟩ ∈ w.service.slots →
      a.reply = duplicateFor a.os x a.pid) :
    Inv { w with service := s, answers := a :: w.answers } := by
  refine ⟨hcells ▸ h.known, h.nonzero, hdistinct, ?_, ?_, ?_, ?_⟩
  · exact forall_mem_cons.2 ⟨hchild, h.child⟩
  · exact forall_mem_cons.2 ⟨hstranger, h.stranger⟩
  · exact forall_mem_cons.2 ⟨hheld, fun b hb d hd => hslots (h.held b hb d hd)⟩
  · refine pairwise_cons.2 ⟨fun b hb hl hw heq d hd => hagain hl hw _ ?_, h.again⟩
    rw [heq]; exact h.held b hb d hd

theorem answer (h : Inv w) (hfits : Fits w (.answer request pid os)) : Inv { w with
      service := (answerClusterListen os w.service request pid).1
      answers := ⟨pid, decide (pid ∈ w.live), request, os, (answerClusterListen os w.service request pid).2⟩ :: w.answers } := by
  obtain ⟨hlive, hstray⟩ := hfits
  -- a process in the table is a live child, or the request is one of 0, which the condition leaves out
  have hcells : pid ∈ w.service.children.cells → pid ∈ w.live := fun hk => by
    by_contra hl
    exact hl ((h.mem_cells (hstray hl).1).1 hk)
  obtain ⟨hw, heq⟩ | ⟨hw, hk, heq⟩ | ⟨hk, x, hf, heq⟩ | ⟨hk, hf, e, ho, heq⟩ | ⟨hk, hf, x, ho, heq⟩ :=
    answer_cases os w.service request pid
  · rw [heq]
    refine h.cons rfl (Subset.refl _) h.distinct (fun _ => by simp) (fun hl => ?_) (fun d hd => by cases hd)
      (fun _ hwf => absurd hwf hw)
    exact absurd (hstray (of_decide_eq_false hl)).2 hw
  · rw [heq]
    have hnot : pid ∉ w.live := fun hl => hk (h.live_mem_cells hl)
    exact h.cons rfl (Subset.refl _) h.distinct (fun hl => absurd (of_decide_eq_true hl) hnot)
      (fun _ => ⟨rfl, rfl⟩) (fun d hd => by cases hd) (fun hl => absurd (of_decide_eq_true hl) hnot)
  · rw [heq]
    have hl := hcells hk
    refine h.cons rfl (Subset.refl _) h.distinct (fun _ => duplicateFor_error (hlive hl).1)
      (fun hn => absurd hl (of_decide_eq_false hn)) (fun d hd => ?_) (fun _ _ y hy => ?_)
    · rw [duplicateFor_info hd]; exact findListener_mem hf
    · rw [socket_unique h.distinct (findListener_mem hf) hy]
  · rw [heq]
    have hl := hcells hk
    exact h.cons rfl (Subset.refl _) h.distinct (fun _ => openListener_error (hlive hl).1 ho)
      (fun hn => absurd hl (of_decide_eq_false hn)) (fun d hd => by cases hd)
      (fun _ _ y hy => absurd rfl (findListener_none.1 hf _ hy))
  · rw [heq]
    have hl := hcells hk
    have hroom : w.service.slots.length < 64 := by
      obtain hlt | ⟨slot, hmem, hslot⟩ | ⟨e, he⟩ := (hlive hl).2
      · exact hlt
      · exact absurd hslot (findListener_none.1 hf slot hmem)
      · rw [ho] at he; cases he
    have hslots := remember_slots ⟨request.wanted, x⟩ hroom
    refine h.cons (remember_children _) (fun slot hm => ?_) ?_ (fun _ => duplicateFor_error (hlive hl).1)
      (fun hn => absurd hl (of_decide_eq_false hn)) (fun d hd => ?_)
      (fun _ _ y hy => absurd rfl (findListener_none.1 hf _ hy))
    · rw [hslots]; exact mem_append_left _ hm
    · rw [hslots, map_append]
      refine Nodup.append h.distinct (nodup_singleton _) (disjoint_singleton.2 fun hm => ?_)
      obtain ⟨slot, hmem, haddr⟩ := List.mem_map.1 hm; exact findListener_none.1 hf slot hmem haddr
    · rw [duplicateFor_info hd, hslots]; exact mem_append_right _ mem_cons_self

theorem step {call : Call} (h : Inv w) (hfits : Fits w call) (hstep : Listeners.step w call = some w') : Inv w' := by
  cases call with
  | register pid => cases hstep; exact h.register hfits.1 hfits.2
  | forget pid => cases hstep; exact h.forget
  | answer request pid os => cases hstep; exact h.answer hfits

theorem sharing (h : Inv w) : Sharing w := by
  refine ⟨h.child, h.stranger, fun a ha b hb heq d hd d' hd' => ?_, h.again⟩
  exact socket_unique h.distinct (h.held a ha d hd) (heq ▸ h.held b hb d' hd')

end Inv

/-- While neither table overflows, live children are known, other processes are not, and all requests for one address are
answered from one socket. -/
theorem sharing_of_run {calls : List Call} {w : Watched} (h : Run step Fits {} calls w) : Sharing w :=
  (h.invariant (fun _ _ _ hi hf hs => hi.step hf hs) Inv.init).sharing

/-! ## Full tables -/

/-- A request for a port of the IPv4 wildcard address. -/
def requestFor (port : UInt16) : ClusterListenRequest where
  addressLength := 16
  address := [2, 0, UInt8.ofNat (port.toNat / 256), UInt8.ofNat port.toNat] ++ List.replicate 124 0
  whole := by simp [storageSize]

/-- A system that grants everything, with the handle that a new socket gets. -/
def granting (handle : Nat) : Winsock where
  WSASocketW _ := .ok handle
  bind _ _ _ := none
  listen _ _ := none
  WSADuplicateSocketW _ _ := none

theorem granting_permits (handle : Nat) : (granting handle).Permits := by
  constructor <;> simp [granting]

/-- Two workers that ask for port 80, the second after a stranger. -/
theorem sharing_two : Sharing
    { service := { children := ⟨[4, 8], by decide⟩, slots := [⟨(requestFor 80).wanted, 100⟩] }
      live := [8, 4]
      answers := [⟨8, true, requestFor 80, granting 200, { info := some ⟨100, 8⟩ }⟩,
        ⟨12, false, requestFor 80, granting 200, { error := some .EACCES }⟩,
        ⟨4, true, requestFor 80, granting 100, { info := some ⟨100, 4⟩ }⟩] } := by
  apply @sharing_of_run [.register 4, .register 8, .answer (requestFor 80) 4 (granting 100),
    .answer (requestFor 80) 12 (granting 200), .answer (requestFor 80) 8 (granting 200)]
  refine .cons ⟨by decide, by decide⟩ rfl ?_
  refine .cons ⟨by decide, by decide⟩ rfl ?_
  refine .cons ⟨fun _ => ⟨granting_permits _, .inl (by decide)⟩, fun hn => absurd (by decide) hn⟩ rfl ?_
  refine .cons ⟨fun hn => absurd hn (by decide), fun _ => ⟨by decide, by decide⟩⟩ rfl ?_
  exact .cons ⟨fun _ => ⟨granting_permits _, .inl (by decide)⟩, fun hn => absurd (by decide) hn⟩ rfl (.nil _)

/-- `n` children, with the ids from 1 on. -/
def forks (n : Nat) : List Call := (List.range n).map (fun i => .register (i + 1))

/-- The 257th child asks for port 80. -/
def manyChildren : List Call := forks 257 ++ [.answer (requestFor 80) 257 (granting 1)]

theorem runs_forks {n : Nat} (hn : n ≤ 256) :
    ∃ w, runs step {} (forks n) = some w ∧ w.service.children.cells = (List.range n).map (· + 1) := by
  induction n with
  | zero => exact ⟨{}, rfl, rfl⟩
  | succ n ih =>
    obtain ⟨w, hw, hcells⟩ := ih (by omega)
    refine ⟨_, by rw [forks, range_succ, map_append, runs_append, ← forks, hw]; rfl, ?_⟩
    have hfree : (0 : Nat) ∉ w.service.children.cells := by simp [hcells]
    have hroom : w.service.children.cells.length < 256 := by rw [hcells, length_map, length_range]; exact hn
    rw [registerClusterChild, FreeSlots.cells_insert_room hfree hroom, hcells, range_succ, map_append]
    rfl

theorem manyChildren_refused : ∃ w, runs step {} manyChildren = some w ∧ ¬ Sharing w := by
  obtain ⟨w, hw, hcells⟩ := runs_forks (Nat.le_refl 256)
  have hfree : (0 : Nat) ∉ w.service.children.cells := by simp [hcells]
  have hfull : w.service.children.cells.length = 256 := by rw [hcells]; simp
  have hrun : runs step {} manyChildren = runs step w [.register 257, .answer (requestFor 80) 257 (granting 1)] := by
    rw [manyChildren, forks, range_succ, map_append, ← forks, append_assoc, runs_append, hw]; rfl
  have hstranger : (257 : Nat) ∉ (registerClusterChild w.service 257).children.cells := by
    rw [registerClusterChild, FreeSlots.insert_full hfree hfull, hcells]; simp
  have hanswer : answerClusterListen (granting 1) (registerClusterChild w.service 257) (requestFor 80) 257 =
      (registerClusterChild w.service 257, { error := some .EACCES }) := by
    rw [answerClusterListen, if_neg (not_not.2 (by decide)), if_pos hstranger]
  have herror : (answerClusterListen (granting 1) (registerClusterChild w.service 257) (requestFor 80) 257).2.error =
      some .EACCES := by rw [hanswer]
  refine ⟨_, by rw [hrun]; rfl, fun hs => ?_⟩
  exact hs.child _ mem_cons_self (by simp) herror

/-- With 64 addresses held, two workers ask for any port. -/
def manyAddresses : List Call :=
  [.register 4, .register 8] ++ (List.range 64).map (fun i => .answer (requestFor (UInt16.ofNat (i + 1))) 4 (granting i)) ++
    [.answer (requestFor 0) 4 (granting 100), .answer (requestFor 0) 8 (granting 101)]

theorem answer_granting {port : UInt16} (handle : Nat) (hknown : pid ∈ s.children.cells)
    (hnew : ∀ slot ∈ s.slots, slot.address ≠ (requestFor port).wanted) :
    answerClusterListen (granting handle) s (requestFor port) pid =
      (remember s ⟨(requestFor port).wanted, handle⟩, { info := some ⟨handle, pid⟩ }) := by
  have hformed : (requestFor port).WellFormed := ⟨rfl, (by decide : (0 : Int) < 16), (by decide : (16 : Int) ≤ 128)⟩
  rw [answerClusterListen, if_neg (not_not.2 hformed), if_neg (not_not.2 hknown), findListener_none.2 hnew]; rfl

theorem wanted_ne {i j : Nat} (hi : i < 65) (hj : j < 65) (hne : i ≠ j) :
    (requestFor (UInt16.ofNat i)).wanted ≠ (requestFor (UInt16.ofNat j)).wanted := by
  intro h
  have hbyte : (UInt8.ofNat (UInt16.ofNat i).toNat).toNat = (UInt8.ofNat (UInt16.ofNat j).toNat).toNat :=
    congrArg (fun address => (address.getD 3 0).toNat) h
  simp only [UInt8.toNat_ofNat', UInt16.toNat_ofNat'] at hbyte; omega

theorem runs_ports {n : Nat} (hn : n ≤ 64) : ∃ w, runs step {} ([.register 4, .register 8] ++
      (List.range n).map (fun i => .answer (requestFor (UInt16.ofNat (i + 1))) 4 (granting i))) = some w ∧
    w.service.children.cells = [4, 8] ∧
    w.service.slots = (List.range n).map (fun i => ⟨(requestFor (UInt16.ofNat (i + 1))).wanted, i⟩) := by
  induction n with
  | zero => exact ⟨_, rfl, rfl, rfl⟩
  | succ n ih =>
    obtain ⟨w, hw, hcells, hslots⟩ := ih (by omega)
    have hnew : ∀ slot ∈ w.service.slots, slot.address ≠ (requestFor (UInt16.ofNat (n + 1))).wanted := by
      simp only [hslots, List.forall_mem_map, mem_range]; exact fun i hi => wanted_ne (by omega) (by omega) (by omega)
    have hanswer := answer_granting n (show 4 ∈ w.service.children.cells by simp [hcells]) hnew
    rw [range_succ, map_append, ← append_assoc, runs_append, hw]
    simp only [bind_some, map_cons, map_nil, runs, step, hanswer]
    refine ⟨_, rfl, ?_, ?_⟩
    · rw [remember_children, hcells]
    · rw [remember_slots _ (by rw [hslots, length_map, length_range]; omega), hslots, map_append]; rfl

theorem manyAddresses_split : ∃ w, runs step {} manyAddresses = some w ∧ ¬ Sharing w := by
  obtain ⟨w, hw, hcells, hslots⟩ := runs_ports (Nat.le_refl 64)
  have hanswer (handle : Nat) {pid : Nat} (hpid : pid ∈ [4, 8]) : answerClusterListen (granting handle) w.service
      (requestFor 0) pid = (w.service, { info := some ⟨handle, pid⟩ }) := by
    rw [answer_granting handle (hcells ▸ hpid), remember, dif_neg (by simp [hslots])]
    simp only [hslots, List.forall_mem_map, mem_range]; exact fun i hi => wanted_ne (j := 0) (by omega) (by omega) (by omega)
  rw [manyAddresses, runs_append, hw]
  simp only [bind_some, runs, step, hanswer, mem_cons, true_or, or_true]
  refine ⟨_, rfl, fun hs => ?_⟩
  have := hs.one _ mem_cons_self _ (mem_cons_of_mem _ mem_cons_self) rfl _ rfl _ rfl
  cases this

/-- A live child is refused, and two workers get different sockets for one address. -/
theorem tables_overflow : (∃ w, runs step {} manyChildren = some w ∧ ¬ Sharing w) ∧
    (∃ w, runs step {} manyAddresses = some w ∧ ¬ Sharing w) :=
  ⟨manyChildren_refused, manyAddresses_split⟩

end NodeCompat.Cluster.Listeners
