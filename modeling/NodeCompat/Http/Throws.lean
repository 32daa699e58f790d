import NodeCompat.Http.HeadBlock
import NodeCompat.Http.Machine
import NodeCompat.Lib.Lines

/-!
# Handlers that throw

What `runHandler` makes of a handler that throws before its response is complete: the header block that was serialized but
not released is taken back (`headMark_`), the 500 is queued and the connection closes. `Unreleased` says what `headMark_`
stands for while nothing of the block has been released; every operation keeps it or releases the block (`Released`), and a
connection that has completed its requests has no block left (`Settled`). Once something is released, the 500 goes behind it
(`throw_yields_500`).
-/

namespace NodeCompat.Http

open List

/-! ## The operations of a handler -/

namespace Response

/-- A value of a hint: a string, or an array that is joined. -/
def hintText : HeaderValue → Bytes
  | .one value => value
  | .many values => joined (text ", ") values

/-- The 103 response. -/
def earlyHints (hints : List (Bytes × HeaderValue)) (linkValue : Bytes) : Bytes :=
  text "HTTP/1.1 103 Early Hints\r\nLink: " ++ linkValue ++ crlf ++
    (hints.filter (fun h => h.1 != text "link")).flatMap (fun h => h.1 ++ text ": " ++ hintText h.2 ++ crlf) ++ crlf

/-- The bytes that `writeEarlyHints` writes: none behind the header block, and none without a link. -/
def hintBytes (r : Response) (hints : List (Bytes × HeaderValue)) : Bytes :=
  match hints.lookup (text "link") with
  | none => []
  | some link => if r.headersCommitted || hintText link == [] then [] else earlyHints hints (hintText link)

def writeEarlyHints (r : Response) (hints : List (Bytes × HeaderValue)) : Response :=
  match hints.lookup (text "link") with
  | none => r
  | some link =>
    if r.headersCommitted || hintText link == [] then r else r.emit (.body (earlyHints hints (hintText link)))

/-- What can be done with a response, and what the reactor does in between. -/
inductive Op
  | call (ev : Event)
  | writeEarlyHints (hints : List (Bytes × HeaderValue))
  | finish (chunk : Payload)

/-- The operations of the response itself: while a handler runs, the loop does not. -/
def Op.inHandler : Op → Bool
  | call (.ready _) => false
  | call (.returns _) => false
  | _ => true

/-- Whether the operation releases the header block. -/
def Op.releases : Op → Bool
  | call .flushHeaders => true
  | call (.write _) => true
  | finish _ => true
  | _ => false

variable (now : UtcTime) (toLowerCase : Bytes → Bytes)

def perform (r : Response) : Op → Response
  | .call ev => r.apply now toLowerCase ev
  | .writeEarlyHints hints => r.writeEarlyHints hints
  | .finish chunk => r.endWith now chunk

def performAll (r : Response) (ops : List Op) : Response := ops.foldl (fun r op => r.perform now toLowerCase op) r

/-- The 103 responses among the operations. -/
def hintsOf (r : Response) : List Op → Bytes
  | [] => []
  | op :: ops =>
    (match op with
      | .writeEarlyHints hints => r.hintBytes hints
      | _ => []) ++ (r.perform now toLowerCase op).hintsOf ops

end Response

/-- `runHandler` after the responder call. -/
def Conn.returned (c : Conn) (throws : Bool) : Conn :=
  let c := c.clearRequest
  let c := if throws && c.busy then
      { { c with out := Session.unsentHead c.out }.enqueueResponseBytes internalError with busy := false, closing := true }
    else c
  { c with closing := c.closing || (c.busy && c.peerClosed) }

/-! ## Exchanges -/

/-- A request and what is done with its response; `interim` is what the parser has queued for it. -/
structure Exchange where
  interim : Bytes
  method : Bytes
  httpVersion : Bytes
  keepAlive : Bool
  ops : List Response.Op

/-- A request is dispatched in a pass of the connection. -/
def Conn.dispatched (c : Conn) (interim : Bytes) : Conn :=
  { c with out := c.out.append interim, busy := true, processing := true }

variable (now : UtcTime) (toLowerCase : Bytes → Bytes)

/-- The response of an exchange, when its operations are done. -/
def Conn.exchange (c : Conn) (x : Exchange) : Response :=
  (Response.create (c.dispatched x.interim) x.method x.httpVersion x.keepAlive).performAll now toLowerCase x.ops

/-- The connection behind some exchanges. -/
def Conn.exchanges (c : Conn) (xs : List Exchange) : Conn := xs.foldl (fun c x => (c.exchange now toLowerCase x).conn) c

/-- Every exchange is completed before the next one starts. -/
def Conn.Completes (c : Conn) : List Exchange → Prop
  | [] => True
  | x :: xs => (c.exchange now toLowerCase x).finished = true ∧ (c.exchange now toLowerCase x).conn.Completes xs

/-! ## Where the block starts -/

namespace Output

variable {o o' o'' : Output} {d d' : Bytes} {mark : Option Nat}

/-- Bytes are appended and nothing is sent; `mark` is where the block starts then. -/
structure Writes (o o' : Output) (d : Bytes) (mark : Option Nat) : Prop where
  outbuf : o'.outbuf = o.outbuf ++ d
  outsent : o'.outsent = o.outsent
  sent : o'.sent = o.sent
  headMark : o'.headMark = mark

theorem Writes.trans (h : o.Writes o' d mark) (h' : o'.Writes o'' d' o'.headMark) : o.Writes o'' (d ++ d') mark where
  outbuf := by rw [h'.outbuf, h.outbuf, append_assoc]
  outsent := h'.outsent.trans h.outsent
  sent := h'.sent.trans h.sent
  headMark := h'.headMark.trans h.headMark

theorem writes_headFields (fs : List (Bytes × Bytes)) (o : Output) :
    ∃ d, o.Writes (fs.foldl (fun o f => o.apply (.headField f.1 f.2)) o) d o.headMark := by
  induction fs generalizing o with
  | nil => exact ⟨[], by simp, rfl, rfl, rfl⟩
  | cons f fs ih =>
    obtain ⟨d, h⟩ := ih (o.apply (.headField f.1 f.2))
    have hm : (o.apply (.headField f.1 f.2)).headMark = o.headMark := by
      show ((o.noteField f.1 f.2).append _).headMark = _; rw [noteField_noted]; rfl
    obtain ⟨h₁, h₂, h₃, -⟩ := o.apply_frame (.headField f.1 f.2)
    have hf : o.Writes (o.apply (.headField f.1 f.2)) _ o.headMark := ⟨h₁, h₂, h₃, hm⟩
    exact ⟨_, hf.trans h⟩

theorem headMark_flush (h : o.headMark = none) : o.flush.2.headMark = none := by
  unfold flush
  dsimp only
  split
  · rfl
  · exact h
  · exact h

end Output

theorem Conn.flushUnlessProcessing_mark (c : Conn) : c.flushUnlessProcessing.busy = c.busy ∧
    (c.out.headMark = none → c.flushUnlessProcessing.out.headMark = none) := by
  unfold flushUnlessProcessing
  split
  · exact ⟨rfl, id⟩
  · exact ⟨rfl, Output.headMark_flush⟩

open Conn

theorem Conn.output_body_mark (c : Conn) (op : OutOp) (h : op.isBody = true) :
    (c.output op).busy = c.busy ∧ (c.output op).out.headMark = none := by
  have hm := (c.out.apply_headMark op).1 h
  unfold output
  rw [if_pos h]
  obtain ⟨h₁, h₂⟩ := flushUnlessProcessing_mark { c with out := c.out.apply op }; exact ⟨h₁, h₂ hm⟩

namespace Response

variable {r : Response} {s : Bytes}

theorem statusLine_ne_nil (status : Nat) (message : Bytes) : statusLine status message ≠ [] := by
  have ht : text "HTTP/1.1 " ≠ [] := by decide
  rw [statusLine_eq]; simp [ht]

theorem serialize_writes (r : Response) (fs : List (Bytes × Bytes)) (len : Option Nat) :
    ∃ o d sup ch keep, (r.beginHead.headFields fs).endHead now len = { r with
          conn := { r.conn with out := o }, headersCommitted := true, suppressBody := sup, chunked := ch,
          keepAliveFinal := keep } ∧
      d ≠ [] ∧ r.conn.out.Writes o d (some r.conn.out.outbuf.length) := by
  obtain ⟨message, hmessage⟩ : ∃ m, m = if r.statusMessage = [] then statusText r.statusCode else r.statusMessage := ⟨_, rfl⟩
  have hconn : ∀ (gs : List (Bytes × Bytes)) (c : Conn), gs.foldl (fun c f => c.output (.headField f.1 f.2)) c =
      { c with out := gs.foldl (fun o f => o.apply (.headField f.1 f.2)) c.out } := by
    intro gs
    induction gs with
    | nil => intro c; rfl
    | cons f gs ih => intro c; exact ih (c.output (.headField f.1 f.2))
  obtain ⟨o₁, ho₁⟩ : ∃ o, o = r.conn.out.apply (.headBegin r.statusCode message) := ⟨_, rfl⟩
  have hbegin : r.conn.out.Writes o₁ (statusLine r.statusCode message) (some r.conn.out.outbuf.length) := by
    subst ho₁; exact ⟨rfl, rfl, rfl, rfl⟩
  obtain ⟨d₂, hfields⟩ := o₁.writes_headFields fs
  obtain ⟨o₂, ho₂⟩ : ∃ o, o = fs.foldl (fun o f => o.apply (.headField f.1 f.2)) o₁ := ⟨_, rfl⟩
  rw [← ho₂] at hfields
  have hend : o₂.Writes (o₂.apply (.headEnd r.headFlags len (httpDate now))) _ o₂.headMark := ⟨rfl, rfl, rfl, rfl⟩
  have hall := (hbegin.trans hfields).trans hend
  refine ⟨_, _, r.suppressBody || r.noBody, (o₂.headTail r.headFlags len (httpDate now)).2.chunked,
    (o₂.headTail r.headFlags len (httpDate now)).2.keepAlive, ?_, ?_, hall⟩
  · rw [headFields_eq]
    have hc : fs.foldl (fun c f => c.output (.headField f.1 f.2)) r.beginHead.conn = { r.conn with out := o₂ } := by
      rw [hconn, ho₂, ho₁, hmessage]; rfl
    rw [hc]; rfl
  · simp [statusLine_ne_nil]

/-! ## Releasing the block -/

/-- What a payload does, whatever it is framed with: it is out, and there is no block behind it. -/
theorem emits (r : Response) (a b c : Bytes) (hm : r.headWritten = true → r.conn.out.headMark = none) :
    ∃ conn, r.emitPayloadBytes a b c = { r with conn, headWritten := true } ∧ conn.busy = r.conn.busy ∧
      conn.out.headMark = none ∧ ∀ s, r.conn.Holds s → conn.Holds (s ++ (a ++ b ++ c)) := by
  have hbody : ∀ (r : Response) (d : Bytes), r.headWritten = true → r.conn.out.headMark = none →
      ∃ conn, (if d.length > 0 then r.emit (.body d) else r) = { r with conn } ∧ conn.busy = r.conn.busy ∧
        conn.out.headMark = none := by
    intro r d hw hm
    split
    · exact ⟨_, rfl, r.conn.output_body_mark _ rfl⟩
    · exact ⟨r.conn, rfl, rfl, hm⟩
  have hfirst : ∃ conn, r.emitPayload a = { r with conn, headWritten := true } ∧ conn.busy = r.conn.busy ∧
      conn.out.headMark = none := by
    unfold emitPayload
    split
    · exact ⟨_, rfl, r.conn.output_body_mark _ rfl⟩
    · next hw =>
      have hw' : r.headWritten = true := by simpa using hw
      obtain ⟨conn, h, hb, hn⟩ := hbody r a hw' (hm hw')
      refine ⟨conn, ?_, hb, hn⟩
      rw [h, hw']
  obtain ⟨c₁, h₁, hb₁, hn₁⟩ := hfirst
  obtain ⟨c₂, h₂, hb₂, hn₂⟩ := hbody { r with conn := c₁, headWritten := true } b rfl hn₁
  obtain ⟨c₃, h₃, hb₃, hn₃⟩ := hbody { r with conn := c₂, headWritten := true } c rfl hn₂
  have heq : r.emitPayloadBytes a b c = { r with conn := c₃, headWritten := true } := by
    unfold emitPayloadBytes
    dsimp only; rw [h₁, h₂, h₃]
  obtain ⟨conn, w, hs, hholds⟩ := r.sends_emitPayloadBytes a b c
  have hconn : conn = c₃ := by rw [heq] at hs; exact (congrArg Response.conn hs).symm
  exact ⟨c₃, heq, hb₃.trans (hb₂.trans hb₁), hn₃, fun s h => hconn ▸ hholds s h⟩

theorem emitPayload_eq (r : Response) (a : Bytes) : r.emitPayload a = r.emitPayloadBytes a [] [] := rfl

theorem write_emits (r : Response) (hl : (r.finished || r.destroyed) = false) (chunk : Payload) :
    ∃ a b c, (r.write now chunk).2 = (r.commitHeaders now none).emitPayloadBytes a b c := by
  rw [write, if_neg (by rw [hl]; decide)]
  cases chunk with
  | string d => exact ⟨_, [], [], rfl⟩
  | octets d =>
    dsimp only
    split
    · exact ⟨[], [], [], rfl⟩
    · split
      · exact ⟨hexText d.length ++ crlf, d, crlf, rfl⟩
      · exact ⟨[], d, [], rfl⟩

theorem finish_mark (r : Response) (chunk : Payload) (hm : r.headWritten = true → r.conn.out.headMark = none) :
    ∃ conn, r.finish chunk = { r with conn, headWritten := true } ∧ conn.out.headMark = none ∧
      (r.conn.out.Ok → conn.out.Ok) := by
  have hemits : ∀ a b c, ∃ conn, r.emitPayloadBytes a b c = { r with conn, headWritten := true } ∧ conn.out.headMark = none ∧
      (r.conn.out.Ok → conn.out.Ok) := by
    intro a b c
    obtain ⟨conn, h, -, hn, hholds⟩ := r.emits a b c hm
    exact ⟨conn, h, hn, fun hok => (hholds _ ⟨hok, rfl⟩).1⟩
  by_cases hs : r.suppressBody = true
  · cases chunk with
    | string d | octets d => rw [finish, if_pos hs]; exact hemits [] [] []
  · by_cases hc : r.chunked = true
    · cases chunk with
      | string d =>
        rw [finish, if_neg hs, if_pos hc]
        refine ⟨r.conn.output (.finalChunk d), rfl, (r.conn.output_body_mark (.finalChunk d) rfl).2, fun hok => ?_⟩
        exact (holds_output ⟨hok, rfl⟩ (.finalChunk d)).1
      | octets d => rw [finish, if_neg hs, if_pos hc]; exact hemits _ _ _
    · cases chunk with
      | string d => rw [finish, if_neg hs, if_neg hc]; exact hemits d [] []
      | octets d => rw [finish, if_neg hs, if_neg hc]; exact hemits [] d []

/-! ## A connection between its requests -/

/-- What is known of the block of a response, whatever has been done with it. -/
structure Marked (r : Response) : Prop where
  ok : r.conn.out.Ok
  uncommitted : r.headersCommitted = false → r.conn.out.headMark = none ∧ r.headWritten = false
  written : r.headWritten = true → r.conn.out.headMark = none
  ended : r.finished = true → r.headWritten = true

theorem Marked.update (h : r.Marked) {c : Conn} {st : Staged} {code : Nat} {message : Bytes} {date : Bool} (hok : c.out.Ok)
    (hm : r.conn.out.headMark = none → c.out.headMark = none) :
    ({ r with conn := c, staged := st, statusCode := code, statusMessage := message, sendDate := date } : Response).Marked where
  ok := hok
  uncommitted := fun hu => ⟨hm (h.uncommitted hu).1, (h.uncommitted hu).2⟩
  written := fun hw => hm (h.written hw)
  ended := h.ended

theorem marked_serialize (hok : r.conn.out.Ok) (hw : r.headWritten = false) (fs : List (Bytes × Bytes)) (len : Option Nat)
    (hf : r.finished = false) : ((r.beginHead.headFields fs).endHead now len).Marked := by
  obtain ⟨o, d, sup, ch, keep, hr, -, hd⟩ := r.serialize_writes now fs len
  rw [hr]
  refine ⟨?_, nofun, ?_, ?_⟩
  · show o.outsent ≤ o.outbuf.length
    have : r.conn.out.outsent ≤ r.conn.out.outbuf.length := hok
    rw [hd.outsent, hd.outbuf, length_append]; omega
  · intro h; exact absurd (hw.symm.trans h) (by decide)
  · intro h; exact absurd (hf.symm.trans h) (by decide)

theorem Marked.unfinished (h : r.Marked) (hu : r.headersCommitted = false) : r.finished = false := by
  cases hf : r.finished with
  | false => rfl
  | true =>
    have := (h.uncommitted hu).2; rw [h.ended hf] at this; cases this

theorem Marked.commit (h : r.Marked) (len : Option Nat) : (r.commitHeaders now len).Marked := by
  unfold commitHeaders
  split
  · exact h
  · next hc =>
    have hu : r.headersCommitted = false := by simpa using hc
    exact marked_serialize now h.ok (h.uncommitted hu).2 _ len (h.unfinished hu)

theorem commit_committed (r : Response) (len : Option Nat) : (r.commitHeaders now len).headersCommitted = true := by
  unfold commitHeaders
  split
  · next hc => exact hc
  · obtain ⟨o, d, sup, ch, keep, hr, -, -⟩ := r.serialize_writes now r.staged.fields len; rw [hr]

section

variable (h : r.Marked)
include h

theorem Marked.emits (hc : r.headersCommitted = true) (a b c : Bytes) : (r.emitPayloadBytes a b c).Marked := by
  obtain ⟨conn, hr, -, hn, hholds⟩ := r.emits a b c h.written
  rw [hr]
  refine ⟨(hholds _ ⟨h.ok, rfl⟩).1, fun hu => ?_, fun _ => hn, fun _ => rfl⟩
  exact absurd (hc.symm.trans hu) (by decide)

theorem Marked.writeHead (status : Nat) (headers : HeaderEntries) :
    (r.writeHead now toLowerCase status headers).Marked := by
  have h' : ({ r with statusCode := status } : Response).Marked := h.update h.ok id
  unfold Response.writeHead
  dsimp only
  split
  · next hc =>
    have hu : r.headersCommitted = false := by
      simp only [Bool.and_eq_true, Bool.not_eq_true'] at hc; exact hc.1
    exact marked_serialize (r := { r with statusCode := status }) now h.ok (h.uncommitted hu).2 _ none (h.unfinished hu)
  · obtain ⟨st, hst⟩ := stageEntries_eq toLowerCase headers { r with statusCode := status }
    rw [hst]
    exact Marked.commit (r := { r with statusCode := status, staged := st }) now (h'.update h.ok id) none

theorem Marked.endWith (chunk : Payload) : (r.endWith now chunk).Marked ∧
    ((r.finished || r.destroyed) = false → (r.endWith now chunk).finished = true) := by
  unfold Response.endWith
  split
  · next hl => exact ⟨h, fun hl' => absurd (hl.symm.trans hl') (by decide)⟩
  · have hr : ∀ len, ({ r with finished := true } : Response).commitHeaders now len =
        { r.commitHeaders now len with finished := true } := by
      intro len
      unfold commitHeaders
      split
      · rfl
      · rw [headFields_eq, headFields_eq]; rfl
    have hm := h.commit now (some chunk.bytes.length)
    have hc := r.commit_committed now (some chunk.bytes.length)
    rw [hr]
    obtain ⟨conn, hfin, hn, hok⟩ :=
      finish_mark ({ r.commitHeaders now (some chunk.bytes.length) with finished := true } : Response) chunk hm.written
    rw [hfin]
    refine ⟨⟨hok hm.ok, fun hu => ?_, fun _ => hn, fun _ => rfl⟩, fun _ => rfl⟩
    exact absurd (hc.symm.trans hu) (by decide)

/-- **Every operation keeps what is known of the block.** -/
theorem Marked.perform (op : Op) : (r.perform now toLowerCase op).Marked := by
  cases op with
  | finish chunk => exact (h.endWith now chunk).1
  | writeEarlyHints hints =>
    unfold Response.perform Response.writeEarlyHints
    dsimp only
    split
    · exact h
    · split
      · exact h
      · next link _ hc =>
        obtain ⟨-, hn⟩ := r.conn.output_body_mark (.body (earlyHints hints (hintText link))) rfl
        exact h.update (holds_output ⟨h.ok, rfl⟩ _).1 (fun _ => hn)
  | call ev =>
    cases ev with
    | setHeader name value | appendHeader name value | removeHeader name | statusCode code | statusMessage message => exact h.update h.ok id
    | sendDate on => exact h.update h.ok id
    | writeHead status headers => exact h.writeHead now toLowerCase status headers
    | flushHeaders => exact (h.commit now none).emits (r.commit_committed now none) [] [] []
    | write chunk =>
      by_cases hl : (r.finished || r.destroyed) = true
      · have hw : r.perform now toLowerCase (.call (.write chunk)) = r := by
          show (r.write now chunk).2 = r; rw [write, if_pos hl]
        rw [hw]; exact h
      · obtain ⟨a, b, c, hw⟩ := r.write_emits now (by simpa using hl) chunk
        show (r.write now chunk).2.Marked
        rw [hw]; exact (h.commit now none).emits (r.commit_committed now none) a b c
    | ready ev =>
      obtain ⟨c, hr, hholds⟩ := r.holds_ready ev
      have hn : r.conn.out.headMark = none → (r.ready ev).conn.out.headMark = none := by
        intro hn
        have hstart : (r.conn.startReady ev).1.out.headMark = none := by
          unfold startReady
          split
          · exact hn
          · split
            · dsimp only
              split
              · exact hn
              · split <;> exact hn
            · exact Output.headMark_flush hn
        unfold Response.ready
        split
        · exact hn
        · dsimp only
          split
          · exact Output.headMark_flush hstart
          · exact hstart
      show (r.ready ev).Marked; rw [hr] at hn ⊢; exact h.update (hholds _ ⟨h.ok, rfl⟩).1 hn
    | returns was =>
      obtain ⟨c, hr, hholds⟩ := r.holds_returns was
      have hn : r.conn.out.headMark = none → (r.returns was).conn.out.headMark = none := by
        intro hn
        unfold Response.returns; exact (flushUnlessProcessing_mark _).2 hn
      show (r.returns was).Marked; rw [hr] at hn ⊢; exact h.update (hholds _ ⟨h.ok, rfl⟩).1 hn

theorem Marked.committed (hf : r.finished = true) : r.headersCommitted = true := by
  cases hc : r.headersCommitted with
  | true => rfl
  | false =>
    have := h.unfinished hc; rw [hf] at this; cases this

theorem Marked.finished_perform (hf : r.finished = true) (op : Op) :
    (r.perform now toLowerCase op).finished = true := by
  have hover : (r.finished || r.destroyed) = true := by simp [hf]
  have hc := h.committed hf
  cases op with
  | finish chunk =>
    show (r.endWith now chunk).finished = true; rw [Response.endWith, if_pos hover]; exact hf
  | writeEarlyHints hints =>
    unfold Response.perform Response.writeEarlyHints
    dsimp only
    split
    · exact hf
    · rw [if_pos (by simp [hc])]; exact hf
  | call ev =>
    cases ev with
    | writeHead status headers =>
      obtain ⟨st, hst⟩ := stageEntries_eq toLowerCase headers { r with statusCode := status }
      show (r.writeHead now toLowerCase status headers).finished = true
      rw [Response.writeHead, if_neg (by simp [hc]), hst,
        commitHeaders_committed (r := { r with statusCode := status, staged := st }) now hc]
      exact hf
    | flushHeaders =>
      show (r.flushHeaders now).finished = true
      obtain ⟨conn, hr, -⟩ := r.emits [] [] [] h.written
      rw [flushHeaders, commitHeaders_committed now hc, emitPayload_eq, hr]; exact hf
    | write chunk =>
      show (r.write now chunk).2.finished = true; rw [write, if_pos hover]; exact hf
    | ready ev =>
      obtain ⟨c, hr, -⟩ := r.holds_ready ev
      show (r.ready ev).finished = true; rw [hr]; exact hf
    | _ => exact hf

end

theorem Marked.finished_performAll (ops : List Op) (h : r.Marked) (hf : r.finished = true) :
    (r.performAll now toLowerCase ops).finished = true := by
  induction ops generalizing r with
  | nil => exact hf
  | cons op ops ih => exact ih (h.perform now toLowerCase op) (h.finished_perform now toLowerCase hf op)

theorem Marked.performAll (ops : List Op) (h : r.Marked) : (r.performAll now toLowerCase ops).Marked := by
  induction ops generalizing r with
  | nil => exact h
  | cons op ops ih => exact ih (h.perform now toLowerCase op)

end Response

/-- No header block is left over. -/
structure Conn.Settled (c : Conn) : Prop where
  ok : c.out.Ok
  noBlock : c.out.headMark = none

theorem Conn.Settled.create {c : Conn} (h : c.Settled) (x : Exchange) :
    (Response.create (c.dispatched x.interim) x.method x.httpVersion x.keepAlive).Marked where
  ok := Output.ok_append h.ok x.interim
  uncommitted := fun _ => ⟨h.noBlock, rfl⟩
  written := nofun
  ended := nofun

/-- **Completed exchanges leave no block.** -/
theorem Conn.Settled.exchanges {xs : List Exchange} : ∀ {c : Conn}, c.Settled → c.Completes now toLowerCase xs →
    (c.exchanges now toLowerCase xs).Settled := by
  induction xs with
  | nil => exact fun h _ => h
  | cons x xs ih =>
    intro c h hc
    have hm := (h.create x).performAll now toLowerCase x.ops
    exact ih ⟨hm.ok, hm.written (hm.ended hc.1)⟩ hc.2

/-! ## The handler of one request -/

namespace Response

variable {r : Response} {s : Bytes}

/-- Nothing of the block is released: what stands before it in the stream is `s`. -/
structure Unreleased (r : Response) (s : Bytes) : Prop where
  live : (r.finished || r.destroyed) = false
  unwritten : r.headWritten = false
  busy : r.conn.busy = true
  block : (r.headersCommitted = false ∧ r.conn.out.headMark = none ∧ r.conn.Holds s) ∨
    (r.headersCommitted = true ∧ ∃ mark, r.conn.out.headMark = some mark ∧ r.conn.out.outsent ≤ mark ∧
      mark < r.conn.out.outbuf.length ∧ r.conn.out.sent ++ (r.conn.out.outbuf.take mark).drop r.conn.out.outsent = s)

/-- The block is released, and more may be: it stands behind `s`. -/
structure Released (r : Response) (s : Bytes) : Prop where
  live : (r.finished || r.destroyed) = false
  committed : r.headersCommitted = true
  written : r.headWritten = true
  busy : r.conn.busy = true
  noBlock : r.conn.out.headMark = none
  holds : ∃ tail, tail ≠ [] ∧ r.conn.Holds (s ++ tail)

theorem Unreleased.update (h : r.Unreleased s) {st : Staged} {code : Nat} {message : Bytes} {date : Bool} :
    ({ r with staged := st, statusCode := code, statusMessage := message, sendDate := date } : Response).Unreleased s :=
  ⟨h.live, h.unwritten, h.busy, h.block⟩

theorem Released.update (h : r.Released s) {st : Staged} {code : Nat} {message : Bytes} {date : Bool} :
    ({ r with staged := st, statusCode := code, statusMessage := message, sendDate := date } : Response).Released s :=
  ⟨h.live, h.committed, h.written, h.busy, h.noBlock, h.holds⟩

theorem Unreleased.holds (h : r.Unreleased s) (hc : r.headersCommitted = true) :
    ∃ tail, tail ≠ [] ∧ r.conn.Holds (s ++ tail) := by
  rcases h.block with ⟨hu, -⟩ | ⟨-, mark, -, hsent, hlt, hs⟩
  · exact absurd (hc.symm.trans hu) (by decide)
  · refine ⟨r.conn.out.outbuf.drop mark, ?_, ?_, ?_⟩
    · intro hnil
      have := congrArg List.length hnil; simp only [length_drop, length_nil] at this; omega
    · show r.conn.out.outsent ≤ r.conn.out.outbuf.length; omega
    · have hsplit : r.conn.out.outbuf = r.conn.out.outbuf.take mark ++ r.conn.out.outbuf.drop mark :=
        (take_append_drop mark _).symm
      have hlen : r.conn.out.outsent ≤ (r.conn.out.outbuf.take mark).length := by rw [length_take]; omega
      show r.conn.out.sent ++ r.conn.out.outbuf.drop r.conn.out.outsent = _
      conv => lhs; rw [hsplit]
      rw [drop_append_of_le_length hlen, ← append_assoc, hs]

theorem Unreleased.stream_tail (h : r.Unreleased s) : ∃ tail, r.conn.out.stream = s ++ tail := by
  cases hc : r.headersCommitted with
  | true => obtain ⟨tail, -, hh⟩ := h.holds hc; exact ⟨tail, hh.2⟩
  | false =>
    rcases h.block with ⟨-, -, hh⟩ | ⟨hc', -⟩
    · exact ⟨[], by rw [append_nil]; exact hh.2⟩
    · exact absurd (hc'.symm.trans hc) (by decide)

/-- **The recovery takes the block back**, and nothing else. -/
theorem Unreleased.taken_back (h : r.Unreleased s) : ({ r.conn with out := Session.unsentHead r.conn.out } : Conn).Holds s := by
  unfold Session.unsentHead
  rcases h.block with ⟨-, hn, hh⟩ | ⟨-, mark, hn, hsent, hlt, hs⟩
  · rw [hn]; exact hh
  · rw [hn]
    dsimp only
    rw [if_pos ⟨hsent, Nat.le_of_lt hlt⟩]
    refine ⟨?_, hs⟩
    show r.conn.out.outsent ≤ (r.conn.out.outbuf.take mark).length; rw [length_take]; omega

theorem Released.not_taken_back (h : r.Released s) {t : Bytes} (hh : r.conn.Holds t) :
    ({ r.conn with out := Session.unsentHead r.conn.out } : Conn).Holds t := by
  unfold Session.unsentHead; rw [h.noBlock]; exact hh

section

variable (h : r.Unreleased s)
include h

theorem Unreleased.serialize (hu : r.headersCommitted = false) (fs : List (Bytes × Bytes))
    (len : Option Nat) : ((r.beginHead.headFields fs).endHead now len).Unreleased s := by
  obtain ⟨o, d, sup, ch, keep, hr, hd, hw⟩ := r.serialize_writes now fs len
  rcases h.block with ⟨-, -, hok, hs⟩ | ⟨hc, -⟩
  · rw [hr]
    refine ⟨h.live, h.unwritten, h.busy, .inr ⟨rfl, _, hw.headMark, ?_, ?_, ?_⟩⟩
    · rw [hw.outsent]; exact hok
    · have := length_pos_iff.2 hd; rw [hw.outbuf, length_append]; omega
    · rw [hw.outbuf, hw.outsent, hw.sent, take_left]; exact hs
  · exact absurd (hc.symm.trans hu) (by decide)

theorem Unreleased.commit (len : Option Nat) : (r.commitHeaders now len).Unreleased s := by
  unfold commitHeaders
  split
  · exact h
  · next hc => exact h.serialize now (by simpa using hc) _ len

theorem Unreleased.writeHead (status : Nat) (headers : HeaderEntries) :
    (r.writeHead now toLowerCase status headers).Unreleased s := by
  unfold Response.writeHead
  dsimp only
  split
  · next hc =>
    simp only [Bool.and_eq_true, Bool.not_eq_true'] at hc
    exact Unreleased.serialize (r := { r with statusCode := status }) now h.update hc.1 _ none
  · obtain ⟨st, hst⟩ := stageEntries_eq toLowerCase headers { r with statusCode := status }
    rw [hst]
    exact Unreleased.commit (r := { r with statusCode := status, staged := st }) now h.update none

theorem Unreleased.emits (hc : r.headersCommitted = true) (a b c : Bytes) :
    (r.emitPayloadBytes a b c).Released s := by
  obtain ⟨tail, ht, hh⟩ := h.holds hc
  obtain ⟨conn, hr, hb, hn, hholds⟩ := r.emits a b c (fun hw => absurd (h.unwritten.symm.trans hw) (by decide))
  rw [hr]
  refine ⟨h.live, hc, rfl, hb.trans h.busy, hn, tail ++ (a ++ b ++ c), by simp [ht], ?_⟩
  rw [← append_assoc]; exact hholds _ hh

end

theorem Released.emits (h : r.Released s) (a b c : Bytes) : (r.emitPayloadBytes a b c).Released s := by
  obtain ⟨tail, ht, hh⟩ := h.holds
  obtain ⟨conn, hr, hb, hn, hholds⟩ := r.emits a b c (fun _ => h.noBlock)
  rw [hr]
  refine ⟨h.live, h.committed, rfl, hb.trans h.busy, hn, tail ++ (a ++ b ++ c), by simp [ht], ?_⟩
  rw [← append_assoc]; exact hholds _ hh

/-- What an operation writes of 103 responses. -/
def hintsIn (r : Response) : Op → Bytes
  | .writeEarlyHints hints => r.hintBytes hints
  | _ => []

theorem hintsOf_cons (r : Response) (op : Op) (ops : List Op) :
    r.hintsOf now toLowerCase (op :: ops) = r.hintsIn op ++ (r.perform now toLowerCase op).hintsOf now toLowerCase ops := by
  cases op <;> rfl

/-- **An operation that releases nothing.** -/
theorem Unreleased.perform (h : r.Unreleased s) {op : Op} (hin : op.inHandler = true) (hr : op.releases = false) :
    (r.perform now toLowerCase op).Unreleased (s ++ r.hintsIn op) := by
  cases op with
  | finish chunk => cases hr
  | writeEarlyHints hints =>
    unfold Response.perform Response.writeEarlyHints hintsIn hintBytes
    dsimp only
    split
    · rw [append_nil]; exact h
    · split
      · rw [append_nil]; exact h
      · next link _ hc =>
        have hu : r.headersCommitted = false := by
          simp only [Bool.or_eq_true, not_or, Bool.not_eq_true] at hc; exact hc.1
        rcases h.block with ⟨-, -, hh⟩ | ⟨hc', -⟩
        · obtain ⟨hb, hn⟩ := r.conn.output_body_mark (.body (earlyHints hints (hintText link))) rfl
          exact ⟨h.live, h.unwritten, hb.trans h.busy, .inl ⟨hu, hn, holds_output hh _⟩⟩
        · exact absurd (hc'.symm.trans hu) (by decide)
  | call ev =>
    have hnone : r.hintsIn (.call ev) = [] := rfl
    rw [hnone, append_nil]
    cases ev with
    | setHeader name value | appendHeader name value | removeHeader name | statusCode code | statusMessage message => exact h.update
    | sendDate on => exact h.update
    | writeHead status headers => exact h.writeHead now toLowerCase status headers
    | flushHeaders | write chunk => cases hr
    | ready ev | returns was => cases hin

/-- **An operation that releases the block.** -/
theorem Unreleased.release (h : r.Unreleased s) {op : Op} (hr : op.releases = true) (hf : ∀ chunk, op ≠ .finish chunk) :
    (r.perform now toLowerCase op).Released (s ++ r.hintsIn op) := by
  have hc := r.commit_committed now none
  cases op with
  | finish chunk => exact absurd rfl (hf chunk)
  | writeEarlyHints hints => cases hr
  | call ev =>
    have hnone : r.hintsIn (.call ev) = [] := rfl
    rw [hnone, append_nil]
    cases ev with
    | flushHeaders => exact (h.commit now none).emits hc [] [] []
    | write chunk =>
      obtain ⟨a, b, c, hw⟩ := r.write_emits now h.live chunk
      show (r.write now chunk).2.Released s; rw [hw]; exact (h.commit now none).emits hc a b c
    | _ => cases hr

/-- **An operation behind the released block.** -/
theorem Released.perform (h : r.Released s) {op : Op} (hin : op.inHandler = true) (hf : ∀ chunk, op ≠ .finish chunk) :
    (r.perform now toLowerCase op).Released s ∧ r.hintsIn op = [] := by
  have hc := commitHeaders_committed now h.committed none
  cases op with
  | finish chunk => exact absurd rfl (hf chunk)
  | writeEarlyHints hints =>
    unfold Response.perform Response.writeEarlyHints hintsIn hintBytes
    dsimp only
    split
    · exact ⟨h, rfl⟩
    · rw [if_pos (by simp [h.committed]), if_pos (by simp [h.committed])]; exact ⟨h, rfl⟩
  | call ev =>
    refine ⟨?_, rfl⟩
    cases ev with
    | setHeader name value | appendHeader name value | removeHeader name | statusCode code | statusMessage message => exact h.update
    | sendDate on => exact h.update
    | writeHead status headers =>
      obtain ⟨st, hst⟩ := stageEntries_eq toLowerCase headers { r with statusCode := status }
      show (r.writeHead now toLowerCase status headers).Released s
      rw [Response.writeHead, if_neg (by simp [h.committed]), hst,
        commitHeaders_committed (r := { r with statusCode := status, staged := st }) now h.committed]
      exact h.update
    | flushHeaders =>
      show (r.flushHeaders now).Released s; rw [flushHeaders, hc]; exact h.emits [] [] []
    | write chunk =>
      obtain ⟨a, b, c, hw⟩ := r.write_emits now h.live chunk
      show (r.write now chunk).2.Released s; rw [hw, hc]; exact h.emits a b c
    | ready ev | returns was => cases hin

theorem not_finish {op : Op} {ops : List Op} (hm : r.Marked) (hl : (r.finished || r.destroyed) = false)
    (hopen : (r.performAll now toLowerCase (op :: ops)).finished = false) : ∀ chunk, op ≠ .finish chunk := by
  rintro chunk rfl
  have hf := (hm.endWith now chunk).2 hl
  have := Marked.finished_performAll now toLowerCase ops (hm.endWith now chunk).1 hf
  exact absurd (this.symm.trans hopen) (by decide)

theorem Released.performAll (ops : List Op) (h : r.Released s) (hm : r.Marked) (hin : ∀ op ∈ ops, op.inHandler = true)
    (hopen : (r.performAll now toLowerCase ops).finished = false) :
    (r.performAll now toLowerCase ops).Released s ∧ r.hintsOf now toLowerCase ops = [] := by
  induction ops generalizing r with
  | nil => exact ⟨h, rfl⟩
  | cons op ops ih =>
    obtain ⟨h', hh⟩ := h.perform now toLowerCase (hin op mem_cons_self) (not_finish now toLowerCase hm h.live hopen)
    obtain ⟨h'', hh'⟩ := ih h' (hm.perform now toLowerCase op) (fun x hx => hin x (mem_cons_of_mem op hx)) hopen
    exact ⟨h'', by rw [hintsOf_cons, hh, hh']; rfl⟩

/-- **The operations of a handler, up to its throw.** -/
theorem Unreleased.performAll (ops : List Op) (h : r.Unreleased s) (hm : r.Marked) (hin : ∀ op ∈ ops, op.inHandler = true)
    (hopen : (r.performAll now toLowerCase ops).finished = false) :
    ((∀ op ∈ ops, op.releases = false) ∧
        (r.performAll now toLowerCase ops).Unreleased (s ++ r.hintsOf now toLowerCase ops)) ∨
      ((∃ op ∈ ops, op.releases = true) ∧
        (r.performAll now toLowerCase ops).Released (s ++ r.hintsOf now toLowerCase ops)) := by
  induction ops generalizing r s with
  | nil => exact .inl ⟨by simp, by rw [hintsOf, append_nil]; exact h⟩
  | cons op ops ih =>
    have hop := hin op mem_cons_self
    have hops : ∀ x ∈ ops, x.inHandler = true := fun x hx => hin x (mem_cons_of_mem op hx)
    have hm' := hm.perform now toLowerCase op
    rw [hintsOf_cons, ← append_assoc]
    cases hr : op.releases with
    | true =>
      have h' := h.release now toLowerCase hr (not_finish now toLowerCase hm h.live hopen)
      obtain ⟨h'', hh⟩ := h'.performAll now toLowerCase ops hm' hops hopen
      rw [hh, append_nil]; exact .inr ⟨⟨op, mem_cons_self, hr⟩, h''⟩
    | false =>
      rcases ih (h.perform now toLowerCase hop hr) hm' hops hopen with ⟨hall, h'⟩ | ⟨⟨x, hx, hxr⟩, h'⟩
      · refine .inl ⟨fun x hx => ?_, h'⟩
        rcases mem_cons.1 hx with rfl | hx
        · exact hr
        · exact hall x hx
      · exact .inr ⟨⟨x, mem_cons_of_mem op hx, hxr⟩, h'⟩

end Response

/-! ## The throw -/

theorem Conn.returned_throws {c : Conn} {s : Bytes} (hb : c.busy = true)
    (h : ({ c with out := Session.unsentHead c.out } : Conn).Holds s) :
    (c.returned true).Holds (s ++ internalError) ∧ (c.returned true).busy = false ∧ (c.returned true).closing = true := by
  have hc : c.clearRequest.busy = true := hb
  have hh : ({ c.clearRequest with out := Session.unsentHead c.out } : Conn).Holds s := h
  have hq := holds_output hh (.body internalError)
  unfold returned
  dsimp only
  rw [if_pos (by rw [hc]; rfl)]
  exact ⟨hq, rfl, rfl⟩

theorem read_internalError (isHead : Bool) (next : Bytes) :
    Client.read isHead (internalError ++ next) = some ⟨[], next, true⟩ := by
  have hi : internalError = statusLine 500 (text "Internal Server Error") ++ (fieldLines
      [(text "Content-Length", text "0"), (text "Connection", text "close")] ++ crlf) := by
    decide +kernel
  have hm : cr ∉ text "Internal Server Error" := by decide
  have hfs : ∀ f ∈ [(text "Content-Length", text "0"), (text "Connection", text "close")], cr ∉ f.1 ∧ cr ∉ f.2 := by decide
  rw [hi, append_assoc, append_assoc, Client.read, readHead_head (by omega) (by omega) hm hfs]
  cases isHead with
  | true =>
    have : Client.bodyEnd true 500 ([(text "Content-Length", text "0"), (text "Connection", text "close")].map seen) =
        some .absent := by decide +kernel
    rw [this]; rfl
  | false =>
    have : Client.bodyEnd false 500 ([(text "Content-Length", text "0"), (text "Connection", text "close")].map seen) =
        some (.length 0) := by decide +kernel
    rw [this]; simp [Client.readBody]

open Response in
/-- **A handler that throws yields exactly a 500 exactly when it has released nothing.** The connection has completed any
earlier requests, its socket has taken any of their bytes, and the handler has done anything but end its response. What the
request adds to the stream is then the interim responses and the 500, or a truncated response; the connection closes, and
what was in the stream before stays as it is. -/
theorem throw_yields_500 (now : UtcTime) (toLowerCase : Bytes → Bytes) (recvs : List RecvResult) (sends : List SendResult)
    (earlier : List Exchange) (x : Exchange)
    (hearlier : ({ recvs, out := { sends } } : Conn).Completes now toLowerCase earlier)
    (hx : ∀ op ∈ x.ops, op.inHandler = true) :
    let c := ({ recvs, out := { sends } } : Conn).exchanges now toLowerCase earlier
    let r := c.exchange now toLowerCase x
    let hints := (create (c.dispatched x.interim) x.method x.httpVersion x.keepAlive).hintsOf now toLowerCase x.ops
    r.finished = false →
    ∃ own answered, r.conn.out.stream = c.out.stream ++ own ∧ (r.conn.returned true).out.stream = c.out.stream ++ answered ∧
      (r.conn.returned true).busy = false ∧ (r.conn.returned true).closing = true ∧
      (answered = x.interim ++ hints ++ internalError ∨ answered <+: own ↔ ∀ op ∈ x.ops, op.releases = false) ∧
      ∀ isHead next, Client.read isHead (internalError ++ next) = some ⟨[], next, true⟩ := by
  intro c r hints hopen
  have hstart : ({ recvs, out := { sends } } : Conn).Settled := ⟨Nat.le_refl 0, rfl⟩
  have hc : c.Settled := hstart.exchanges now toLowerCase hearlier
  have hfresh : (create (c.dispatched x.interim) x.method x.httpVersion x.keepAlive).Unreleased (c.out.stream ++ x.interim) :=
    ⟨rfl, rfl, rfl, .inl ⟨rfl, hc.noBlock, Output.ok_append hc.ok x.interim, Output.stream_append hc.ok x.interim⟩⟩
  rcases hfresh.performAll now toLowerCase x.ops (hc.create x) hx hopen with ⟨hall, h⟩ | ⟨⟨op, hop, hrel⟩, h⟩
  · obtain ⟨hholds, hbusy, hclosing⟩ := returned_throws h.busy h.taken_back
    obtain ⟨tail, htail⟩ := h.stream_tail
    refine ⟨x.interim ++ hints ++ tail, x.interim ++ hints ++ internalError, ?_, ?_, hbusy, hclosing,
      ⟨fun _ => hall, fun _ => .inl rfl⟩, read_internalError⟩
    · exact htail.trans (by simp [hints])
    · exact hholds.2.trans (by simp [hints])
  · obtain ⟨tail, htail, hh⟩ := h.holds
    obtain ⟨hholds, hbusy, hclosing⟩ := returned_throws h.busy (h.not_taken_back hh)
    refine ⟨x.interim ++ hints ++ tail, x.interim ++ hints ++ tail ++ internalError, ?_, ?_, hbusy, hclosing, ⟨?_, ?_⟩,
      read_internalError⟩
    · exact hh.2.trans (by simp [hints])
    · exact hholds.2.trans (by simp [hints])
    · have hpos : 0 < tail.length := length_pos_iff.2 htail
      have hint : 0 < internalError.length := by decide
      rintro (he | hp)
      · have := congrArg List.length he; simp only [length_append] at this; omega
      · have := hp.length_le; simp only [length_append] at this; omega
    · intro hall; exact absurd (hrel.symm.trans (hall op hop)) (by decide)

/-- A request answered in full, and one whose handler throws behind `writeHead`. -/
def answeredExchange : Exchange where
  interim := []
  method := text "GET"
  httpVersion := text "HTTP/1.1"
  keepAlive := true
  ops := [.call (.write (.string (text "a"))), .finish (.string [])]

def throwingExchange : Exchange where
  interim := []
  method := text "GET"
  httpVersion := text "HTTP/1.1"
  keepAlive := true
  ops := [.writeEarlyHints [(text "link", .one (text "</a>"))], .call (.writeHead 200 [])]

theorem throw_yields_500_pipelined :
    let c := ({} : Conn).exchanges epoch id [answeredExchange]
    let r := c.exchange epoch id throwingExchange
    r.finished = false ∧ ∃ answered, (r.conn.returned true).out.stream = c.out.stream ++ answered ∧
      (answered = Response.earlyHints [(text "link", .one (text "</a>"))] (text "</a>") ++ internalError ∨
        answered <+: r.conn.out.stream.drop c.out.stream.length) := by
  intro c r
  have hcomplete : ({ recvs := [], out := { sends := [] } } : Conn).Completes epoch id [answeredExchange] := by
    constructor
    · decide +kernel
    · trivial
  have hopen : r.finished = false := by decide +kernel
  obtain ⟨own, answered, hown, hstream, -, -, hiff, -⟩ := throw_yields_500 epoch id [] [] [answeredExchange] throwingExchange
    hcomplete (by decide) hopen
  refine ⟨hopen, answered, hstream, ?_⟩
  have hdrop : r.conn.out.stream.drop c.out.stream.length = own := by
    have h : r.conn.out.stream = c.out.stream ++ own := hown; rw [h, drop_left]
  rw [hdrop]; exact hiff.2 (by decide)

/-- A handler that throws behind its first write. -/
def brokenExchange : Exchange where
  interim := []
  method := text "GET"
  httpVersion := text "HTTP/1.1"
  keepAlive := true
  ops := [.call (.write (.string (text "a")))]

/-- The 500 follows a head and a part of a body. -/
theorem status_line_in_body : ¬ ∀ (x : Exchange), (∀ op ∈ x.ops, op.inHandler = true) →
    let r := ({} : Conn).exchange epoch id x
    r.finished = false →
    (r.conn.returned true).out.stream = x.interim ++
        (Response.create (({} : Conn).dispatched x.interim) x.method x.httpVersion x.keepAlive).hintsOf epoch id x.ops ++
        internalError ∨
      (r.conn.returned true).out.stream <+: r.conn.out.stream := by
  intro h
  have := h brokenExchange (by decide) (by decide +kernel)
  revert this
  decide +kernel

end NodeCompat.Http
