import NodeCompat.Stream.Readable

/-!
# How `net.Socket` hands on what it receives

A chunk that arrives is delivered at once, or waits in `pendingChunks_` while the socket is paused; `resume` delivers what
waits, until a listener pauses the socket again. To deliver is to emit `'data'`, with the text of the chunk once an encoding
is set, or to write to the target of `pipe`. What was delivered and what waits is what arrived, in order (`inOrder`).

Chunks come from the event loop, so never while a listener runs.
-/

namespace NodeCompat.Net

open List
open NodeCompat.Stream (BufferEncoding)

structure SocketData where
  paused : Bool := false
  pendingChunks : List Bytes := []
  encoding : Option BufferEncoding := none
  -- `pipeTarget_` is set
  piped : Bool := false
  deriving DecidableEq

open SocketData

namespace SocketData

inductive Event
  | received (chunk : Bytes)
  -- `'data'`, with the text when an encoding is set
  | data (chunk : Bytes) (decoded : Option (List UInt16))
  -- `write` of the target
  | written (chunk : Bytes)
  deriving DecidableEq

inductive Frame
  -- `dispatchNativeEvents` in `deliverChunk`
  | dispatching
  -- `resume` in `deliverChunk`
  | resuming
  deriving DecidableEq

inductive Call
  | receive (chunk : Bytes)
  | pause
  | resume
  | setEncoding (encoding : BufferEncoding)
  | pipe
  deriving DecidableEq

variable (toString : BufferEncoding → Bytes → List UInt16) (s : SocketData)

/-- What `deliverChunk` shows. -/
def deliverChunk (chunk : Bytes) : Event :=
  if s.piped then .written chunk
  else
    match s.encoding with
    | none => .data chunk none
    | some e => .data chunk (some (toString e chunk))

/-- A round of the loop of `resume`, or its end. -/
def deliverPending : Block SocketData Frame Event :=
  match s.paused, s.pendingChunks with
  | false, chunk :: rest =>
    { state := { s with pendingChunks := rest }, seen := [s.deliverChunk toString chunk], frames := [.resuming] }
  | _, _ => { state := s }

def call : Call → Block SocketData Frame Event
  | .receive chunk =>
    if s.paused then { state := { s with pendingChunks := s.pendingChunks ++ [chunk] }, seen := [.received chunk] }
    else { state := s, seen := [.received chunk, s.deliverChunk toString chunk], frames := [.dispatching] }
  | .pause => { state := { s with paused := true } }
  | .resume => { s with paused := false }.deliverPending toString
  | .setEncoding encoding => { state := { s with encoding := some encoding } }
  | .pipe => { state := { s with piped := true } }

def program : Reentrant SocketData Call Frame Event where
  call s k := some (s.call toString k)
  resume s
    | .dispatching => { state := s }
    | .resuming => s.deliverPending toString
  task
    | .receive _ => true
    | _ => false

/-! ## Order -/

def received (es : List Event) : List Bytes := es.filterMap fun
    | .received chunk => some chunk
    | _ => none

def delivered (es : List Event) : List Bytes := es.filterMap fun
    | .data chunk _ => some chunk
    | .written chunk => some chunk
    | .received _ => none

/-- What was delivered and what waits is what arrived, in order; and nothing waits in a socket that is not paused and
delivers nothing. -/
structure InOrder (c : Config SocketData Frame Event) : Prop where
  order : delivered c.trace ++ c.state.pendingChunks = received c.trace
  idle : c.state.paused = false → c.state.pendingChunks ≠ [] → .resuming ∈ c.stack

variable {toString} {s}

theorem received_append (es es' : List Event) : received (es ++ es') = received es ++ received es' := filterMap_append

theorem delivered_append (es es' : List Event) : delivered (es ++ es') = delivered es ++ delivered es' := filterMap_append

variable {e : BufferEncoding} {c : Config SocketData Frame Event}

variable (toString s) in
theorem delivered_deliverChunk (chunk : Bytes) :
    delivered [s.deliverChunk toString chunk] = [chunk] ∧ received [s.deliverChunk toString chunk] = [] := by
  unfold deliverChunk
  split
  · exact ⟨rfl, rfl⟩
  · split <;> exact ⟨rfl, rfl⟩

theorem deliverPending_inOrder {stack : List Frame} {trace : List Event}
    (h : delivered trace ++ s.pendingChunks = received trace) : InOrder ((s.deliverPending toString).onto stack trace) := by
  unfold deliverPending
  split
  · next chunk rest hp hq =>
    obtain ⟨hd, hr⟩ := delivered_deliverChunk toString s chunk
    refine ⟨?_, fun _ _ => mem_cons_self⟩
    show delivered (trace ++ _) ++ rest = received (trace ++ _)
    rw [delivered_append, received_append, hd, hr, append_nil, ← h, hq, append_assoc]; rfl
  · next hn =>
    refine ⟨?_, fun hp hne => ?_⟩
    · show delivered (trace ++ []) ++ s.pendingChunks = received (trace ++ []); rw [append_nil, h]
    · obtain ⟨chunk, rest, hq⟩ := exists_cons_of_ne_nil hne; exact absurd hq (hn chunk rest hp)

theorem call_inOrder (k : Call) (ht : (program toString).task k = true → c.stack = [])
    (h : InOrder c) : InOrder ((c.state.call toString k).onto c.stack c.trace) := by
  cases k with
  | receive chunk =>
    have hstack := ht rfl
    unfold call
    dsimp only
    split
    · next hp =>
      refine ⟨?_, fun hn => absurd hp (by simpa using hn)⟩
      show delivered (c.trace ++ [.received chunk]) ++ (c.state.pendingChunks ++ [chunk]) = received (c.trace ++ [.received chunk])
      rw [delivered_append, received_append, ← h.order, append_assoc, ← append_assoc (delivered [_])]
      simp [delivered, received]
    · next hp =>
      have hnil : c.state.pendingChunks = [] := by
        by_contra hne
        have hmem := h.idle (by simpa using hp) hne; rw [hstack] at hmem; cases hmem
      obtain ⟨hd, hr⟩ := delivered_deliverChunk toString c.state chunk
      have horder := h.order
      rw [hnil, append_nil] at horder
      refine ⟨?_, fun _ hne => absurd hnil hne⟩
      show delivered (c.trace ++ ([.received chunk] ++ [_])) ++ c.state.pendingChunks = received (c.trace ++ ([.received chunk] ++ [_]))
      rw [delivered_append, delivered_append, received_append, received_append, hd, hr, hnil, horder]
      simp [delivered, received]
  | pause =>
    refine ⟨?_, nofun⟩
    show delivered (c.trace ++ []) ++ c.state.pendingChunks = received (c.trace ++ [])
    rw [append_nil, h.order]
  | resume => exact deliverPending_inOrder h.order
  | setEncoding encoding | pipe =>
    refine ⟨?_, h.idle⟩
    show delivered (c.trace ++ []) ++ c.state.pendingChunks = received (c.trace ++ [])
    rw [append_nil, h.order]

/-- **What arrives is delivered in order.** -/
theorem inOrder {P : Config SocketData Frame Event → Move Call → Prop} {ls : List (Move Call)}
    (h : Run (program toString).step P { state := {} } ls c) : InOrder c := by
  refine Reentrant.invariant (fun c k b hI _ ht hb => ?_) (fun c f fs hI hs => ?_) h ⟨rfl, fun _ hne => absurd rfl hne⟩
  · cases hb; exact call_inOrder k ht hI
  · cases f with
    | dispatching =>
      refine ⟨?_, fun hp hne => ?_⟩
      · show delivered (c.trace ++ []) ++ c.state.pendingChunks = received (c.trace ++ []); rw [append_nil, hI.order]
      · have hmem := hI.idle hp hne
        rw [hs] at hmem
        obtain hf | hmem := mem_cons.1 hmem
        · cases hf
        · exact hmem
    | resuming => exact deliverPending_inOrder hI.order

/-! ## Text -/

/-- The texts that went out. -/
def texts (es : List Event) : List (List UInt16) := es.filterMap fun
    | .data _ decoded => decoded
    | _ => none

/-- The encoding is set before anything arrives, and the socket is not piped. -/
def Textual (e : BufferEncoding) (c : Config SocketData Frame Event) : Move Call → Prop
  | .call (.receive _) => c.state.encoding = some e
  | .call (.setEncoding e') => e' = e
  | .call .pipe => False
  | _ => True

/-- Chunks go out as their texts. -/
structure Decoded (toString : BufferEncoding → Bytes → List UInt16) (e : BufferEncoding)
    (c : Config SocketData Frame Event) : Prop where
  texts : texts c.trace = (delivered c.trace).map (toString e)
  piped : c.state.piped = false
  encoding : c.state.encoding = some e ∨ c.state.pendingChunks = []

theorem texts_append (es es' : List Event) : texts (es ++ es') = texts es ++ texts es' := filterMap_append

theorem texts_deliverChunk (chunk : Bytes) (hp : s.piped = false) (he : s.encoding = some e) :
    texts [s.deliverChunk toString chunk] = [toString e chunk] := by
  simp [deliverChunk, hp, he, texts]

theorem deliverPending_decoded (stack stack' : List Frame) {trace : List Event}
    (h : Decoded toString e ⟨s, stack, trace⟩) :
    Decoded toString e ((s.deliverPending toString).onto stack' trace) := by
  unfold deliverPending
  split
  · next chunk rest hp hq =>
    have he : s.encoding = some e := by
      obtain he | hn := h.encoding
      · exact he
      · rw [show s.pendingChunks = [] from hn] at hq; cases hq
    obtain ⟨hd, -⟩ := delivered_deliverChunk toString s chunk
    refine ⟨?_, h.piped, .inl he⟩
    show texts (trace ++ [_]) = (delivered (trace ++ [_])).map (toString e)
    rw [texts_append, delivered_append, hd, texts_deliverChunk chunk h.piped he, map_append, ← h.texts]
    rfl
  · refine ⟨?_, h.piped, h.encoding⟩
    show texts (trace ++ []) = (delivered (trace ++ [])).map (toString e); rw [append_nil, h.texts]

theorem call_decoded (k : Call) (hP : Textual e c (.call k))
    (h : Decoded toString e c) : Decoded toString e ((c.state.call toString k).onto c.stack c.trace) := by
  have hquiet : texts (c.trace ++ []) = (delivered (c.trace ++ [])).map (toString e) := by
    rw [append_nil, h.texts]
  cases k with
  | receive chunk =>
    have he : c.state.encoding = some e := hP
    unfold call
    dsimp only
    split
    · refine ⟨?_, h.piped, .inl he⟩
      show texts (c.trace ++ [.received chunk]) = (delivered (c.trace ++ [.received chunk])).map (toString e)
      rw [texts_append, delivered_append, map_append, ← h.texts]; rfl
    · obtain ⟨hd, -⟩ := delivered_deliverChunk toString c.state chunk
      refine ⟨?_, h.piped, .inl he⟩
      show texts (c.trace ++ ([.received chunk] ++ [_])) = (delivered (c.trace ++ ([.received chunk] ++ [_]))).map (toString e)
      rw [texts_append, texts_append, delivered_append, delivered_append, hd, texts_deliverChunk chunk h.piped he, map_append,
        ← h.texts]
      rfl
  | pause => exact ⟨hquiet, h.piped, h.encoding⟩
  | resume => exact deliverPending_decoded c.stack _ ⟨h.texts, h.piped, h.encoding⟩
  | setEncoding encoding => obtain rfl : encoding = e := hP; exact ⟨hquiet, h.piped, .inl rfl⟩
  | pipe => exact hP.elim

theorem decoded {ls : List (Move Call)}
    (h : Run (program toString).step (Textual e) { state := {} } ls c) : Decoded toString e c := by
  refine Reentrant.invariant (fun c k b hI hP _ hb => ?_) (fun c f fs hI _ => ?_) h ⟨rfl, rfl, .inr rfl⟩
  · cases hb; exact call_decoded k hP hI
  · cases f with
    | dispatching =>
      refine ⟨?_, hI.piped, hI.encoding⟩
      show texts (c.trace ++ []) = (delivered (c.trace ++ [])).map (toString e)
      rw [append_nil, hI.texts]
    | resuming => exact deliverPending_decoded c.stack fs ⟨hI.texts, hI.piped, hI.encoding⟩

end SocketData

end NodeCompat.Net
