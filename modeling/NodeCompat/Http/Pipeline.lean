import NodeCompat.Http.Sync
import NodeCompat.Http.Acts

/-!
# Pipelining

What holds of one connection in every run, whoever completes its responses and when.

* `Decoded`: the calls made so far are what the parser makes of the bytes received so far, in one piece; a parked request
  is the next of them. Nothing is parsed while a request is dispatched or parked, so clearing the request fields behind
  a handler hits no newer request.
* `Written`: what is queued is the bytes enqueued for each request, in the order of the requests, in every run in which a
  response is written between its call and its completion only, and completes with its header block released.
-/

namespace NodeCompat.Http

open List Bool Consumer

/-! ## Concatenations -/

/-- The first `n` values, one behind the other. -/
def concat (f : Nat → Bytes) (n : Nat) : Bytes := (List.range n).flatMap f

theorem concat_succ (f : Nat → Bytes) (n : Nat) : concat f (n + 1) = concat f n ++ f n := by
  simp [concat, range_succ]

theorem concat_congr {f g : Nat → Bytes} : ∀ {n : Nat}, (∀ j < n, f j = g j) → concat f n = concat g n
  | 0, _ => rfl
  | n + 1, h => by
    rw [concat_succ, concat_succ, h n (Nat.lt_succ_self n), concat_congr (fun j hj => h j (Nat.lt_succ_of_lt hj))]

theorem concat_last {f : Nat → Bytes} {i : Nat} : ∀ {n : Nat}, i < n → (∀ j, i < j → j < n → f j = []) →
    concat f n = concat f i ++ f i
  | 0, hi, _ => absurd hi (Nat.not_lt_zero i)
  | n + 1, hi, hz => by
    rw [concat_succ]
    by_cases h : i = n
    · rw [h]
    · have hin : i < n := by omega
      rw [hz n hin (Nat.lt_succ_self n), append_nil]
      exact concat_last hin (fun j hj hjn => hz j hj (Nat.lt_succ_of_lt hjn))

theorem concat_set {f : Nat → Bytes} {i n : Nat} (hi : i < n) (hz : ∀ j, i < j → j < n → f j = []) (g : Bytes) :
    concat (fun j => if j = i then g else f j) n = concat f i ++ g := by
  have hz' : ∀ j, i < j → j < n → (fun j => if j = i then g else f j) j = [] := by
    intro j hj hjn
    have : j ≠ i := by omega
    simp only [if_neg this]; exact hz j hj hjn
  rw [concat_last hi hz']
  simp only [if_true]
  congr 1
  refine concat_congr fun j hj => ?_
  have : j ≠ i := by omega
  simp only [if_neg this]

/-! ## The calls -/

/-- The reader of a connection that is kept. -/
abbrev decoder : Consumer (Parser × Nat) UInt8 Call Stop := reader (fun _ _ => true)

/-- At a request boundary the next round does not look at the request fields, if it makes progress: a head sets them all. -/
theorem iterate_boundary {p q : Parser} (hp : p.state = .head) (hq : q.state = .head) (b : Bytes) :
    p.iterate b = .wait p b ∧ q.iterate b = .wait q b ∨ p.iterate b = q.iterate b := by
  simp only [Parser.iterate, hp, hq, Parser.iterateHead]
  cases find crlfcrlf b with
  | some i => exact .inr rfl
  | none =>
    dsimp only
    split
    · exact .inr rfl
    · exact .inl ⟨rfl, rfl⟩

theorem feed_boundary {p q : Parser} (hp : p.state = .head) (hq : q.state = .head) (n : Nat) (b : Bytes) :
    (decoder.feed (p, n) b).1 = (decoder.feed (q, n) b).1 := by
  rcases iterate_boundary hp hq b with ⟨h₁, h₂⟩ | h
  · have hw : ∀ {p : Parser}, p.iterate b = .wait p b → decoder.round (p, n) b = .wait (p, n) b := by
      intro p h; simp only [reader_round, readerRound, h]
    rw [feed_wait (hw h₁), feed_wait (hw h₂)]
  · have hr : decoder.round (p, n) b = decoder.round (q, n) b := by
      simp only [reader_round, readerRound, h]
    rw [feed_congr hr]

namespace Session

/-- The request that is parked, if one is. -/
def parkedCalls (s : Session) : List Call := if s.deferred then [s.parser.call (s.calls.length == 0)] else []

/-- The calls are those of the bytes received, and the rest of those is still to come from the buffer. -/
def Decoded (s : Session) : Prop := ∀ y, (decoder.feed ({}, 0) (s.received ++ y)).1 =
    s.calls ++ s.parkedCalls ++ (decoder.feed (s.parser, s.accepted) (s.inbuf ++ y)).1

variable {s s' : Session}

theorem Decoded.congr (h : s.Decoded) (hr : s'.received = s.received) (hc : s'.calls = s.calls)
    (hd : s'.deferred = s.deferred) (hp : s'.parser = s.parser) (hb : s'.inbuf = s.inbuf) : s'.Decoded := by
  intro y; simp only [parkedCalls, accepted, hr, hc, hd, hp, hb]; exact h y

theorem decoded_accept (recvs : List RecvResult) (sends : List SendResult) : (accept recvs sends).Decoded :=
  fun _ => rfl

theorem decoded_unparked (hd : s.deferred = false) : s.Decoded ↔ ∀ y, (decoder.feed ({}, 0) (s.received ++ y)).1 =
    s.calls ++ (decoder.feed (s.parser, s.calls.length) (s.inbuf ++ y)).1 := by
  simp only [Decoded, parkedCalls, accepted, hd, false_eq_true, if_false, append_nil, Nat.add_zero]

theorem decoded_parked (hd : s.deferred = true) : s.Decoded ↔ ∀ y, (decoder.feed ({}, 0) (s.received ++ y)).1 =
    s.calls ++ [s.parser.call (s.calls.length == 0)] ++
      (decoder.feed (s.parser, s.calls.length + 1) (s.inbuf ++ y)).1 := by
  simp only [Decoded, parkedCalls, accepted, hd, if_true]

namespace Decoded

theorem stop (h : s.Decoded) (hv : s.Valid) (hp : s.parse = .stop s') : s'.Decoded := by
  rcases parse_stop hp with ⟨rfl, -⟩ | ⟨hb, hc, ⟨p, b, hi, rfl⟩ | ⟨status, reason, -, rfl⟩⟩
  · exact h
  · have hd := (hv.idle hb).1
    have hr : decoder.round (s.parser, s.calls.length) s.inbuf = .wait (p, s.calls.length) b := by
      simp only [reader_round, readerRound, hi]
    refine (decoded_unparked ?_).2 fun y => ?_
    · exact hd
    · rw [(decoded_unparked hd).1 h y, ← feed_congr (reader_local.wait_resume hr y)]
  · obtain ⟨closed, heq⟩ := sendErrorAndClose_frame s.toConn status reason; rw [heq]; exact h.congr rfl rfl rfl rfl rfl

theorem more (h : s.Decoded) (hv : s.Valid) (hp : s.parse = .more s') : s'.Decoded := by
  obtain ⟨hb, -, p, b, out, hi, rfl⟩ := parse_more hp
  have hd := (hv.idle hb).1
  have hr : decoder.round (s.parser, s.calls.length) s.inbuf = .go (p, s.calls.length) b [] := by
    simp only [reader_round, readerRound, hi]
  refine (decoded_unparked ?_).2 fun y => ?_
  · exact hd
  · have hy := (decoded_unparked hd).1 h y; rw [feed_go (reader_local.go_append hr y)] at hy; exact hy

theorem request (h : s.Decoded) (hv : s.Valid) (hp : s.parse = .request s') (y : Bytes) :
    (decoder.feed ({}, 0) (s'.received ++ y)).1 = s'.calls ++ [s'.parser.call (s'.calls.length == 0)] ++
      (decoder.feed (s'.parser, s'.calls.length + 1) (s'.inbuf ++ y)).1 := by
  obtain ⟨hb, -, p, b, out, hi, rfl⟩ := parse_request hp
  have hr : decoder.round (s.parser, s.calls.length) s.inbuf =
      .go (p.clear, s.calls.length + 1) b [p.call (s.calls.length == 0)] := by
    simp only [reader_round, readerRound, hi, if_true]
  have hh : p.state = .head := Parser.iterate_dispatch_state hi
  have hc : p.clear.state = .head := hh
  have hy := (decoded_unparked (hv.idle hb).1).1 h y
  rw [feed_go (reader_local.go_append hr y)] at hy
  rw [feed_boundary hc hh, ← append_assoc] at hy; exact hy

theorem call (hd : s.deferred = false) (hf : s.firstRequest = (s.calls.length == 0))
    (h : ∀ y, (decoder.feed ({}, 0) (s.received ++ y)).1 = s.calls ++ [s.parser.call (s.calls.length == 0)] ++
      (decoder.feed (s.parser, s.calls.length + 1) (s.inbuf ++ y)).1) : s.call.Decoded := by
  have hcalls : s.call.calls = s.calls ++ [s.parser.call (s.calls.length == 0)] := by rw [← hf]; rfl
  refine (decoded_unparked ?_).2 fun y => ?_
  · exact hd
  · rw [hcalls, length_append, length_singleton]; exact h y

section

variable (h : s.Decoded)
include h

theorem request_call (hv : s.Valid) (hp : s.parse = .request s') : s'.call.Decoded := by
  refine call (hv.request_call hp).2.2.deferred ?_ (h.request hv hp)
  obtain ⟨-, -, p, b, out, hi, rfl⟩ := parse_request hp; exact hv.first

theorem request_park (hv : s.Valid) (hp : s.parse = .request s') : s'.park.Decoded := by
  have hy := h.request hv hp; exact (decoded_parked rfl).2 hy

theorem resume_call (hv : s.Valid) (hd : s.deferred = true) : s.resume.call.Decoded := by
  refine call ?_ ?_ ((decoded_parked hd).1 h)
  · rfl
  · exact hv.first

/-- The fields cleared behind a handler are those of its own request: the parser is at a boundary. -/
theorem returned (hr : s.Running) (hp : s.processing = true) (throws : Bool) : (s.returned throws).Decoded := by
  have hclear : ({ s with toConn := s.toConn.clearRequest } : Session).Decoded := by
    refine (decoded_unparked ?_).2 fun y => ?_
    · exact hr.deferred
    · have hy := (decoded_unparked hr.deferred).1 h y
      rw [feed_boundary hr.head (q := s.parser.clear) hr.head] at hy; exact hy
  unfold Session.returned
  dsimp only
  split
  · rw [recover_frame (s := { s with toConn := s.toConn.clearRequest }) hp]; exact hclear.congr rfl rfl rfl rfl rfl
  · exact hclear.congr rfl rfl rfl rfl rfl

theorem endPass (was : Bool) : (s.endPass was).Decoded := by
  obtain ⟨closed, heq⟩ := flush_frame { s.toConn with processing := was }
  unfold Session.endPass; rw [heq]; exact h.congr rfl rfl rfl rfl rfl

theorem output (i : Nat) (op : OutOp) : (s.output i op).Decoded := by
  obtain ⟨closed, heq⟩ := s.output_frame i op; rw [heq]; exact h.congr rfl rfl rfl rfl rfl

theorem startReady (e : Revents) : (s.startReady e).1.Decoded := by
  obtain ⟨out, closed, peerClosed, processing, d, recvs, heq, -, -⟩ := s.startReady_frame e
  rw [heq]
  intro y
  have hy := h (d ++ y); rw [← append_assoc, ← append_assoc] at hy; exact hy

end

end Decoded

theorem decoded_acts {m : Machine} {id : Nat} {l : Label} (hv : s.Valid) (ha : m.Acts id l s s') (h : s.Decoded) :
    s'.Decoded := by
  cases ha with
  | stop hst hp hparse => exact (h.stop hv hparse).endPass false
  | more hst hp hparse => exact h.more hv hparse
  | call hst hp hparse => exact h.request_call hv hparse
  | park hst hp hparse => exact h.request_park hv hparse
  | resume hd => exact h.resume_call hv hd
  | ret hp hr => exact h.returned hr hp _
  | ready hp => exact h.startReady _
  | out hi => exact h.output _ _
  | doneInside hi hn hp | donePass hi hn hp | destroy => exact h.congr rfl rfl rfl rfl rfl

theorem Valid.accepted_le (h : s.Valid) : s.accepted ≤ s.completed + 1 := by
  unfold accepted
  cases hd : s.deferred with
  | true =>
    have := (h.parked hd).2.1; simp only [if_true]; omega
  | false =>
    simp only [false_eq_true, if_false]
    by_cases hr : s.refused = none
    · cases hb : s.busy with
      | false => exact Nat.le_succ_of_le (h.idle hb).2.2.ge
      | true => exact (h.waiting hb hd hr).ge
    · exact Nat.le_succ_of_le (h.stopped hr).2.ge

theorem Valid.finished_before (h : s.Valid) {i : Nat} (hi : i + 1 < s.accepted) : i ∈ s.finished := by
  by_contra hn
  unfold accepted at hi
  by_cases hlt : i < s.calls.length
  · obtain ⟨h₁, h₂, -⟩ := h.unfinished i hlt hn; simp only [h₂, false_eq_true, if_false] at hi; omega
  · split at hi <;> omega

/-! ## The bytes -/

/-- What is queued is what has been enqueued, request after request. `beyond` and `window`: nothing is enqueued for a
request that is not being parsed or answered; while a response is awaited, nothing for the request behind it. `mark`: an
unreleased header block belongs to the response awaited. -/
structure Written (s : Session) : Prop where
  stream : s.out.stream = concat s.enqueued (s.calls.length + 1)
  beyond : ∀ j, s.calls.length < j → s.enqueued j = []
  window : s.completed < s.calls.length → s.enqueued s.calls.length = []
  mark : ∀ k, s.out.headMark = some k → k ≤ s.out.outbuf.length ∧ s.completed < s.calls.length ∧
    s.out.outbuf.length - k ≤ (s.enqueued (s.calls.length - 1)).length

theorem written_accept (recvs : List RecvResult) (sends : List SendResult) : (accept recvs sends).Written where
  stream := rfl
  beyond _ _ := rfl
  window := by rintro ⟨⟩
  mark := by rintro k ⟨⟩

theorem flush_headMark {o : Output} {k : Nat} (h : o.flush.2.headMark = some k) :
    o.headMark = some k ∧ o.flush.2.outbuf = o.outbuf := by
  simp only [Output.flush] at h ⊢
  split at h
  · cases h
  · exact ⟨h, rfl⟩
  · exact ⟨h, rfl⟩

theorem eq_append_take {x d a b : Bytes} (h : x ++ d = a ++ b) (hd : d.length ≤ b.length) :
    x = a ++ b.take (b.length - d.length) := by
  rcases append_eq_append_iff.1 h with ⟨c, rfl, rfl⟩ | ⟨c, rfl, rfl⟩
  · have hc : c = [] := eq_nil_of_length_eq_zero (by rw [length_append] at hd; omega); simp [hc]
  · simp

theorem unsentHead_stream {o : Output} {a b : Bytes} (hs : o.stream = a ++ b)
    (hm : ∀ k, o.headMark = some k → o.outbuf.length - k ≤ b.length) :
    (unsentHead o).stream = a ++ b.take (b.length - (o.outbuf.length - (unsentHead o).outbuf.length)) := by
  unfold unsentHead
  split
  · simpa using hs
  · next k hk =>
    split
    · next hle =>
      have hcut : o.outbuf.drop o.outsent = (o.outbuf.take k).drop o.outsent ++ o.outbuf.drop k := by
        rw [← drop_append_of_le_length (by rw [length_take]; omega), take_append_drop]
      have hb := hm k hk
      simp only [Output.stream, length_take, Nat.min_eq_left hle.2] at hs ⊢
      rw [hcut, ← append_assoc] at hs
      have hd : (o.outbuf.drop k).length = o.outbuf.length - k := length_drop
      rw [← hd] at hb ⊢; exact eq_append_take hs hb
    · simpa using hs

namespace Written

theorem congr (h : s.Written) (ho : s'.out = s.out ∨ s'.out = s.out.flush.2) (hc : s'.calls = s.calls)
    (he : s'.enqueued = s.enqueued) (hn : s'.completed = s.completed) : s'.Written := by
  refine ⟨?_, ?_, ?_, ?_⟩
  · rw [hc, he, ← h.stream]
    rcases ho with ho | ho
    · rw [ho]
    · rw [ho, Output.stream_flush]
  · rw [hc, he]; exact h.beyond
  · rw [hc, he, hn]; exact h.window
  · rw [hc, he, hn]
    intro k hk
    rcases ho with ho | ho
    · rw [ho] at hk ⊢; exact h.mark k hk
    · rw [ho] at hk ⊢
      obtain ⟨h₁, h₂⟩ := flush_headMark hk; rw [h₂]; exact h.mark k h₁

theorem released (h : s.Written) (hc : s.completed = s.calls.length) : s.out.headMark = none := by
  cases hm : s.out.headMark with
  | none => rfl
  | some k => exact absurd (h.mark k hm).2.1 (by omega)

theorem log_next (h : s.Written) (hv : s.Valid) (hc : s.completed = s.calls.length) (data : Bytes) (o : Output)
    (ho : o = s.out.append data ∨ o = s.out.enqueue data) : ({ s with out := o } : Session).log s.calls.length data |>.Written := by
  have hmark : o.headMark = none := by
    rcases ho with rfl | rfl
    · exact h.released hc
    · rfl
  have hstream : o.stream = s.out.stream ++ data := by
    rcases ho with rfl | rfl
    · exact Output.stream_append hv.out_ok data
    · exact Output.stream_enqueue hv.out_ok data
  refine ⟨?_, ?_, ?_, ?_⟩
  · show o.stream = concat _ (s.calls.length + 1)
    rw [hstream, h.stream]
    simp only [log]
    rw [concat_set (Nat.lt_succ_self _) (fun j h₁ h₂ => absurd h₁ (by omega)), concat_succ, append_assoc]
  · intro j hj
    have : j ≠ s.calls.length := by
      have : s.calls.length < j := hj
      omega
    simp only [log, if_neg this]; exact h.beyond j hj
  · intro hlt
    have : s.completed < s.calls.length := hlt
    omega
  · intro k hk
    have : o.headMark = some k := hk
    rw [hmark] at this; cases this

theorem stop (h : s.Written) (hv : s.Valid) (hp : s.parse = .stop s') : s'.Written := by
  rcases parse_stop hp with ⟨rfl, -⟩ | ⟨hb, hc, ⟨p, b, -, rfl⟩ | ⟨status, reason, -, rfl⟩⟩
  · exact h
  · exact h.congr (.inl rfl) rfl rfl rfl
  · obtain ⟨closed, heq⟩ := sendErrorAndClose_frame s.toConn status reason
    rw [heq]
    refine (h.log_next hv (hv.idle hb).2.2 (errorResponse status reason) _ (.inr rfl)).congr ?_ rfl rfl rfl
    cases s.processing with
    | true => exact .inl rfl
    | false => exact .inr rfl

theorem more (h : s.Written) (hv : s.Valid) (hp : s.parse = .more s') : s'.Written := by
  obtain ⟨hb, -, p, b, out, -, rfl⟩ := parse_more hp
  exact (h.log_next hv (hv.idle hb).2.2 out _ (.inl rfl)).congr (.inl rfl) rfl rfl rfl

theorem request (h : s.Written) (hv : s.Valid) (hp : s.parse = .request s') :
    s'.Written ∧ s'.completed = s'.calls.length := by
  obtain ⟨hb, -, p, b, out, -, rfl⟩ := parse_request hp
  have hc := (hv.idle hb).2.2
  exact ⟨(h.log_next hv hc out _ (.inl rfl)).congr (.inl rfl) rfl rfl rfl, hc⟩

theorem call (h : s.Written) (hc : s.completed = s.calls.length) : s.call.Written := by
  have hlen : s.call.calls.length = s.calls.length + 1 := by simp [Session.call, Conn.call]
  have hnext : s.enqueued (s.calls.length + 1) = [] := h.beyond _ (Nat.lt_succ_self _)
  refine ⟨?_, ?_, ?_, ?_⟩
  · rw [hlen, concat_succ]; exact h.stream.trans (by rw [show s.call.enqueued = s.enqueued from rfl, hnext, append_nil])
  · rw [hlen]; exact fun j hj => h.beyond j (by omega)
  · rw [hlen]; exact fun _ => hnext
  · intro k hk; exact absurd ((h.released hc).symm.trans hk) (by simp)

section

variable (h : s.Written)
include h

theorem endPass (was : Bool) : (s.endPass was).Written := by
  obtain ⟨closed, heq⟩ := flush_frame { s.toConn with processing := was }
  unfold Session.endPass
  rw [heq]
  refine h.congr ?_ rfl rfl rfl
  cases was with
  | true => exact .inl rfl
  | false => exact .inr rfl

theorem startReady (e : Revents) : (s.startReady e).1.Written := by
  obtain ⟨out, closed, peerClosed, processing, d, recvs, heq, ho, -⟩ := s.startReady_frame e
  rw [heq]; exact h.congr ho rfl rfl rfl

theorem after (hc : s.completed < s.calls.length) (j : Nat) (hj : s.calls.length - 1 < j) : s.enqueued j = [] := by
  by_cases hn : j = s.calls.length
  · rw [hn]; exact h.window hc
  · exact h.beyond j (by omega)

theorem stream_awaited (hc : s.completed < s.calls.length) :
    s.out.stream = concat s.enqueued (s.calls.length - 1) ++ s.enqueued (s.calls.length - 1) := by
  rw [h.stream]; exact concat_last (by omega) (fun j hj _ => h.after hc j hj)

theorem output (hv : s.Valid) {i : Nat} (hi : i + 1 = s.calls.length) (hc : s.completed ≤ i) (op : OutOp) :
    (s.output i op).Written := by
  obtain rfl : i = s.calls.length - 1 := by omega
  have hlt : s.completed < s.calls.length := by omega
  have happ : (({ s with out := s.out.apply op } : Session).log (s.calls.length - 1) (op.bytes s.out)).Written := by
    refine ⟨?_, ?_, fun _ => ?_, ?_⟩
    · simp only [log]
      rw [Output.stream_apply hv.out_ok, h.stream_awaited hlt,
        concat_set (by omega) (fun j hj _ => h.after hlt j hj), append_assoc]
    · intro j hj
      have hj' : s.calls.length < j := hj
      have hne : j ≠ s.calls.length - 1 := by omega
      simp only [log, if_neg hne]; exact h.beyond j hj'
    · have hne : s.calls.length ≠ s.calls.length - 1 := by omega
      simp only [log, if_neg hne]; exact h.window hlt
    · intro k hk
      have hk' : (s.out.apply op).headMark = some k := hk
      have hbuf := (s.out.apply_frame op).1
      simp only [log, if_true, hbuf, length_append]
      cases hb : op.isBody with
      | true =>
        rw [(s.out.apply_headMark op).1 hb] at hk'
        cases hk'
      | false =>
        rcases (s.out.apply_headMark op).2 hb with hm | hm
        · rw [hm] at hk'
          obtain ⟨h₁, -, h₃⟩ := h.mark k hk'; omega
        · rw [hm] at hk'
          cases hk'; omega
  obtain ⟨closed, heq⟩ := s.output_frame (s.calls.length - 1) op
  rw [heq]
  refine happ.congr ?_ rfl rfl rfl
  cases s.processing || !op.isBody with
  | true => exact .inl rfl
  | false => exact .inr rfl

theorem complete (hv : s.Valid) {i : Nat} (hi : i < s.calls.length) (hn : i ∉ s.finished)
    (hm : s.out.headMark = none) (keepAlive : Bool) : (s.complete i keepAlive).Written := by
  have hc : max s.completed (i + 1) = s.calls.length := ((hv.complete hi hn keepAlive).idle rfl).2.2
  refine ⟨h.stream, h.beyond, fun hlt => ?_, fun k hk => ?_⟩
  · have : max s.completed (i + 1) < s.calls.length := hlt
    omega
  · exact absurd (hm.symm.trans hk) (by simp)

theorem recover (hv : s.Valid) (hp : s.processing = true) (hlt : s.completed < s.calls.length) :
    s.recover.Written := by
  rw [recover_frame hp]
  refine ⟨?_, ?_, ?_, ?_⟩
  · dsimp only
    rw [concat_set (by omega) (fun j hj _ => h.after hlt j hj), Output.stream_enqueue (Valid.ok_unsentHead hv.out_ok),
      unsentHead_stream (h.stream_awaited hlt) (fun k hk => (h.mark k hk).2.2), append_assoc]
  · intro j hj
    have hne : j ≠ s.calls.length - 1 := by
      have : s.calls.length < j := hj
      omega
    simp only [if_neg hne]; exact h.beyond j hj
  · intro hlt'; exact absurd hlt' (Nat.lt_irrefl _)
  · rintro k ⟨⟩

theorem returned (hv : s.Valid) (hr : s.Running) (hp : s.processing = true) (throws : Bool) :
    (s.returned throws).Written := by
  have hclear : ({ s with toConn := s.toConn.clearRequest } : Session).Written := h.congr (.inl rfl) rfl rfl rfl
  unfold Session.returned
  dsimp only
  split
  · next hb =>
    have hbusy : s.busy = true := (and_eq_true _ _ ▸ hb).2
    have hwait := hv.waiting hbusy hr.deferred hr.refused
    refine (hclear.recover ?_ hp ?_).congr (.inl rfl) rfl rfl rfl
    · exact ⟨hv.out_ok, hv.first, hv.idle, hv.waiting, hv.parked, hv.stopped, hv.unfinished⟩
    · show s.completed < s.calls.length; omega
  · exact hclear.congr (.inl rfl) rfl rfl rfl

end

end Written

end Session

namespace Machine

/-- Connection `id` is written to by the response awaited, and completed by a response whose header block is released,
as `end()` and `respond()` do. -/
def Timely (id : Nat) (m : Machine) : Label → Prop
  | .out j i _ => j = id → ∀ s, m.sessions id = some s → s.completed ≤ i
  | .done j _ _ => j = id → ∀ s, m.sessions id = some s → s.out.headMark = none
  | _ => True

theorem written_acts {m : Machine} {id : Nat} {l : Label} {s s' : Session} (ht : m.Timely id l) (hs : m.sessions id = some s)
    (hv : s.Valid) (ha : m.Acts id l s s') (h : s.Written) : s'.Written := by
  cases ha with
  | stop hst hp hparse => exact (h.stop hv hparse).endPass false
  | more hst hp hparse => exact h.more hv hparse
  | call hst hp hparse => obtain ⟨hw, hc⟩ := h.request hv hparse; exact hw.call hc
  | park hst hp hparse => exact (h.request hv hparse).1.congr (.inl rfl) rfl rfl rfl
  | resume hd =>
    have hres : s.resume.Written := h.congr (.inl rfl) rfl rfl rfl; exact hres.call (hv.parked hd).2.1
  | ret hp hr => exact h.returned hv hr hp _
  | ready hp => exact h.startReady _
  | @out _ i op hi =>
    have hle := ht rfl s hs
    have hacc := hv.accepted_le
    unfold Session.accepted at hacc; exact h.output hv (by omega) hle op
  | doneInside hi hn hp => exact h.complete hv hi hn (ht rfl s hs) _
  | @donePass _ i keepAlive hi hn hp =>
    exact (h.complete hv hi hn (ht rfl s hs) keepAlive).congr (.inl rfl) rfl rfl rfl
  | destroy => exact h.congr (.inl rfl) rfl rfl rfl

end Machine

/-- **Pipelining stays ordered.** In every state of every run, for every connection: at most one request is dispatched or
parked and not completed, and every response before it has ended; the responder calls, and the parked request behind
them, are the first requests that the bytes received decode to. If every response writes between its call and its
completion only, what is sent and queued is the bytes enqueued for each request, in the order of the requests. -/
theorem pipelining_ordered {ls : List Label} {m : Machine} (h : Run Machine.step (fun _ _ => True) {} ls m) {id : Nat}
    {s : Session} (hs : m.sessions id = some s) :
    s.accepted ≤ s.completed + 1 ∧ (∀ i, i + 1 < s.accepted → i ∈ s.finished) ∧
      s.calls ++ s.parkedCalls <+: (decoder.feed ({}, 0) s.received).1 ∧
      (Run Machine.step (Machine.Timely id) {} ls m →
        s.out.sent ++ s.out.outbuf.drop s.out.outsent = concat s.enqueued (s.calls.length + 1)) := by
  have hv : s.Valid := (Machine.reachable h).1.valid id s hs
  have hdec : s.Decoded := Machine.session_invariant Session.decoded_accept
    (fun _ _ _ _ _ _ hv ha hq => Session.decoded_acts hv ha hq) h hs
  refine ⟨hv.accepted_le, fun i hi => hv.finished_before hi, ?_, fun ht => ?_⟩
  · have hd := hdec []; rw [append_nil, append_nil] at hd; exact ⟨_, hd.symm⟩
  · have hw : s.Written := Machine.session_invariant Session.written_accept
      (fun _ _ _ _ ht hs hv ha hq => Machine.written_acts ht hs hv ha hq) ht hs
    exact hw.stream

theorem pipelined_pos : 0 < (text "GET /a HTTP/1.1\r\n\r\nGET /b HTTP/1.1\r\n\r\n").length := by decide

theorem pipelined_le : (text "GET /a HTTP/1.1\r\n\r\nGET /b HTTP/1.1\r\n\r\n").length ≤ kRecvBuffer := by decide

theorem third_pos : 0 < (text "GET /c HTTP/1.1\r\n\r\n").length := by decide

theorem third_le : (text "GET /c HTTP/1.1\r\n\r\n").length ≤ kRecvBuffer := by decide

/-- Two pipelined requests on connection 0. The handler of connection 1 answers the first, and so parks the second, which
is answered by its own handler. -/
def pipelinedRun : List Label :=
  [.accept [.data (text "GET /a HTTP/1.1\r\n\r\nGET /b HTTP/1.1\r\n\r\n") pipelined_pos pipelined_le] [.took 99],
    .ready 0 { pollin := true }, .tau, .ret false, .tau, .tau,
    .accept [.data (text "GET /c HTTP/1.1\r\n\r\n") third_pos third_le] [],
    .ready 1 { pollin := true }, .tau, .out 0 0 (.body (text "first")), .done 0 0 true, .tau, .tau, .ret false, .tau,
    .out 0 1 (.body (text "second")), .done 0 1 true]

/-- `Timely`, as a check. -/
def Machine.timely (id : Nat) (m : Machine) : Label → Bool
  | .out j i _ => j != id || (m.sessions id).all (fun s => s.completed ≤ i)
  | .done j _ _ => j != id || (m.sessions id).all (fun s => s.out.headMark == none)
  | _ => true

theorem Machine.timely_iff (id : Nat) (m : Machine) (l : Label) : m.timely id l = true ↔ m.Timely id l := by
  cases l with
  | out j i op | done j i k => cases hs : m.sessions id <;> by_cases hj : j = id <;> simp [timely, Timely, hs, hj]
  | _ => simp [timely, Timely]

theorem pipelining_ordered_parked : ∃ m s, Run Machine.step (Machine.Timely 0) {} pipelinedRun m ∧ m.sessions 0 = some s ∧
    s.accepted = 2 ∧ s.out.sent ++ s.out.outbuf.drop s.out.outsent = text "firstsecond" ∧
    s.out.sent ++ s.out.outbuf.drop s.out.outsent = concat s.enqueued (s.calls.length + 1) := by
  have h : ((runs (fun (m : Machine) l => if m.timely 0 l then m.step l else none) {} pipelinedRun).bind (fun m =>
      (m.sessions 0).map (fun s => (s.accepted, s.out.sent ++ s.out.outbuf.drop s.out.outsent)))) =
      some (2, text "firstsecond") := by
    decide +kernel
  obtain ⟨m, hm, h⟩ := Option.bind_eq_some_iff.1 h
  obtain ⟨s, hs, h⟩ := Option.map_eq_some_iff.1 h
  obtain ⟨h₁, h₂⟩ := Prod.mk.inj h
  have hrun : Run Machine.step (Machine.Timely 0) {} pipelinedRun m :=
    (Run.of_guarded (fun (m : Machine) l => m.timely 0 l) hm).mono (fun m l ht => (m.timely_iff 0 l).1 ht)
  exact ⟨m, s, hrun, hs, h₁, h₂, (pipelining_ordered (hrun.mono (fun _ _ _ => trivial)) hs).2.2.2 hrun⟩

end NodeCompat.Http
