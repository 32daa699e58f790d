import NodeCompat.Http.Sync

/-!
# Read boundaries

The reader halts on a part of its input as it does on the whole of it, with one exception: in `kChunkSize` the parser
refuses a line that has not ended within 1024 buffered bytes, but takes a longer one that is buffered whole. So the
reads show exactly when the parse comes to such a line (`CutFree`); the head, whose limit is checked again when its end
is found, does not have this gap.
-/

namespace NodeCompat.Http

open List Consumer Http.Parser

/-- Wherever a parse of `b` in one piece comes to a chunk-size line with 1024 bytes or more before its CRLF, the rest is
refused with 400 before another request is complete. -/
def CutFree (k : Nat → Call → Bool) (b : Bytes) : Prop :=
  ∀ es s r, (reader k).Goes ({}, 0) b es s r → s.1.state = .chunkSize → ∀ eol, find crlf r = some eol → 1024 ≤ eol →
    (reader k).feed s r = ([], .halted (.refused 400))

variable {k : Nat → Call → Bool}

/-- A refused piece of a chunk-size line: 400, and the line is longer than 1023 bytes if it ends at all. -/
theorem size_line_refused {p : Parser} {x : Bytes} {status : Nat} {reason : Bytes} (hs : p.state = .chunkSize)
    (hn : find crlf x = none) (h : p.iterate x = .reject status reason) : status = 400 ∧ 1024 < x.length := by
  rw [iterate_size_unended hs hn] at h
  split at h
  · next hl => cases h; exact ⟨rfl, hl⟩
  · cases h

theorem CutFree.haltStable {b : Bytes} (h : CutFree k b) : (reader k).HaltStable ({}, 0) b := by
  intro es s x y hg out e hr
  have hround := hr
  simp only [reader_round, readerRound] at hr
  split at hr
  · cases hr
  · next status reason hi =>
    cases hr
    by_cases hc : s.1.state = .chunkSize ∧ find crlf x = none
    · obtain ⟨hs, hn⟩ := hc
      obtain ⟨rfl, hl⟩ := size_line_refused hs hn hi
      cases hf : find crlf (x ++ y) with
      | none =>
        apply feed_halt
        simp only [reader_round, readerRound, iterate_size_unended hs hf]
        rw [if_pos (by simp; omega)]
      | some eol =>
        have := find_none_append hn hf; rw [length_crlf] at this; exact h es s (x ++ y) hg hs eol hf (by omega)
    · apply feed_halt
      simp only [reader_round, readerRound]
      rw [iterate_reject_append hi (fun hs hn => hc ⟨hs, hn⟩) y]
  · cases hr
  · next p r out' hi =>
    split at hr
    · cases hr
    · next hk =>
      cases hr
      have hset := settles_iterate s.1 x
      rw [hi] at hset
      obtain ⟨u, hu, hy⟩ := hset
      apply feed_halt
      simp only [reader_round, readerRound, hu, append_assoc, hy, if_neg hk]

/-- A chunk-size line with at most 1023 bytes before its CRLF, if the parser is at one. -/
def ShortSizeLine (p : Parser) (b : Bytes) : Prop := p.state = .chunkSize → ∀ eol, find crlf b = some eol → eol < 1024

/-- Where the reader makes progress and is not at a long chunk-size line, it halts on no part of the buffer. -/
theorem round_ne_halt {s s' : Parser × Nat} {b r : Bytes} {out : List Call}
    (hr : (reader k).round s b = .go s' r out) (hl : ShortSizeLine s.1 b) (x y : Bytes) (hb : b = x ++ y) (o : List Call)
    (e : Stop) : (reader k).round s x ≠ .halt o e := by
  intro hx
  simp only [reader_round, readerRound] at hx hr
  split at hx
  · cases hx
  · next status reason hi =>
    have hc : s.1.state = .chunkSize → find crlf x ≠ none := by
      intro hs hn
      obtain ⟨-, hlen⟩ := size_line_refused hs hn hi
      cases hf : find crlf b with
      | none => rw [iterate_size_unended hs hf, if_pos (by rw [hb]; simp; omega)] at hr; cases hr
      | some eol =>
        have h₁ := hl hs eol hf
        have h₂ := find_none_append hn (hb ▸ hf); rw [length_crlf] at h₂; omega
    rw [hb, iterate_reject_append hi hc y] at hr; cases hr
  · cases hx
  · next p r' out' hi =>
    split at hx
    · cases hx
    · next hk =>
      have hset := settles_iterate s.1 x
      rw [hi] at hset
      obtain ⟨u, hu, hy⟩ := hset
      rw [hb, hu, append_assoc, hy] at hr; simp only [if_neg hk] at hr; cases hr

theorem feedAll_cut {b r : Bytes} {es : List Call} {s : Parser × Nat} (hg : (reader k).Goes ({}, 0) b es s r)
    (hs : s.1.state = .chunkSize) {eol : Nat} (hf : find crlf r = some eol) (hl : 1024 ≤ eol) :
    ∃ xs, xs.flatten = b ∧ (reader k).feedAll ({}, 0) [] xs = (es, .halted (.refused 400)) := by
  obtain ⟨u, hu, hgy⟩ := hg.used reader_local
  have hle := find_le hf
  rw [length_crlf] at hle
  have hw : (reader k).feed s [] = ([], .waiting s []) := by
    apply feed_wait
    have hn : find crlf ([] : Bytes) = none := rfl
    simp [reader_round, readerRound, iterate_size_unended hs hn]
  have h₁ : (reader k).feed ({}, 0) u = (es, .waiting s []) := by
    have := hgy []; rw [append_nil] at this; rw [feed_goes this, hw, append_nil]
  have h₂ : (reader k).feed s (r.take (eol + 1)) = ([], .halted (.refused 400)) := by
    apply feed_halt
    have hn : find crlf (r.take (eol + 1)) = none := find_take_none hf (by simp)
    simp only [reader_round, readerRound, iterate_size_unended hs hn]; rw [if_pos (by simp; omega)]
  refine ⟨[u, r.take (eol + 1), r.drop (eol + 1)], by simp [hu], ?_⟩
  simp only [feedAll, nil_append, h₁, h₂, append_nil]

theorem Conn.Shows.refused_eq {c : Conn} {f : Final (Parser × Nat) UInt8 Stop} (h : c.Shows f) {status : Nat}
    (hr : c.refused = some status) : f = .halted (.refused status) := by
  cases f with
  | waiting s b => rw [h.1.refused] at hr; cases hr
  | halted e =>
    cases e with
    | refused st => rw [h.2] at hr; cases hr; rfl
    | closing => rw [h.2] at hr; cases hr

theorem Conn.Shows.refused_congr {c d : Conn} {f : Final (Parser × Nat) UInt8 Stop} (hc : c.Shows f) (hd : d.Shows f) :
    c.refused = d.refused := by
  cases f with
  | waiting s b => rw [hc.1.refused, hd.1.refused]
  | halted e => cases e <;> rw [hc.2, hd.2]

/-- **Reads show exactly where a long chunk-size line is accepted.** Two ways of cutting `b` into reads lead to the same
responder calls and the same parser-level status, for every way of sending, iff `b` is cut-free. -/
theorem reads_agree_iff_cutFree (R : Responder) (b : Bytes) :
    (∀ xs ys : List Bytes, ∀ sends sends' : List SendResult, xs.flatten = b → ys.flatten = b →
      ((Conn.accepted sends).reads R xs).calls = ((Conn.accepted sends').reads R ys).calls ∧
        ((Conn.accepted sends).reads R xs).refused = ((Conn.accepted sends').reads R ys).refused) ↔
    CutFree R.keeps b := by
  constructor
  · intro h es s r hg hs eol hf hl
    obtain ⟨xs, hxs, hcut⟩ := feedAll_cut hg hs hf hl
    obtain ⟨h₁, h₂⟩ := reads_feedAll R xs (Conn.accepted []) (Conn.accepted_idle _)
    obtain ⟨g₁, g₂⟩ := reads_feedAll R [b] (Conn.accepted []) (Conn.accepted_idle _)
    obtain ⟨hcalls, hrefused⟩ := h xs [b] [] [] hxs (by simp)
    have hone : (reader R.keeps).feedAll ({}, 0) [] [b] = (reader R.keeps).feed ({}, 0) b := by
      simp only [feedAll, nil_append]
      split <;> simp_all
    change _ = [] ++ ((reader R.keeps).feedAll ({}, 0) [] _).1 at h₁ g₁
    change Conn.Shows _ ((reader R.keeps).feedAll ({}, 0) [] _).2 at h₂ g₂
    rw [hcut] at h₁ h₂
    rw [hone, feed_goes hg] at g₁ g₂
    rw [h₁, g₁] at hcalls
    have hev : ((reader R.keeps).feed s r).1 = [] := by simpa using hcalls
    have hfin : ((reader R.keeps).feed s r).2 = .halted (.refused 400) := g₂.refused_eq (hrefused ▸ h₂.2)
    exact Prod.ext hev hfin
  · intro h xs ys sends sends' hx hy
    have hw : (reader R.keeps).round ({}, 0) [] = .wait ({}, 0) [] := rfl
    have key : ∀ zs : List Bytes, zs.flatten = b →
        (reader R.keeps).feedAll ({}, 0) [] zs = (reader R.keeps).feed ({}, 0) b := by
      intro zs hz
      have hs : (reader R.keeps).HaltStable ({}, 0) ([] ++ zs.flatten) := by rw [hz]; exact h.haltStable
      rw [feedAll_eq_feed reader_local hw hs, hz, nil_append]
    obtain ⟨h₁, h₂⟩ := reads_feedAll R xs (Conn.accepted sends) (Conn.accepted_idle _)
    obtain ⟨g₁, g₂⟩ := reads_feedAll R ys (Conn.accepted sends') (Conn.accepted_idle _)
    change _ = [] ++ ((reader R.keeps).feedAll ({}, 0) [] _).1 at h₁ g₁
    change Conn.Shows _ ((reader R.keeps).feedAll ({}, 0) [] _).2 at h₂ g₂
    rw [key xs hx] at h₁ h₂; rw [key ys hy] at g₁ g₂; exact ⟨h₁.trans g₁.symm, h₂.refused_congr g₂⟩

/-- A chunked request whose last chunk-size line has 1024 bytes before its CRLF. -/
def longSizeLine : Bytes :=
  text "POST / HTTP/1.1\r\nTransfer-Encoding: chunked\r\n\r\n" ++ text "0;" ++ List.replicate 1022 (120 : UInt8) ++
    crlf ++ crlf

theorem reads_differ_at_long_size_line :
    ¬ ∀ xs ys : List Bytes, xs.flatten = longSizeLine → ys.flatten = longSizeLine →
      ((Conn.accepted []).reads (fun _ _ => {}) xs).calls = ((Conn.accepted []).reads (fun _ _ => {}) ys).calls ∧
        ((Conn.accepted []).reads (fun _ _ => {}) xs).refused = ((Conn.accepted []).reads (fun _ _ => {}) ys).refused := by
  intro h
  have := (h [longSizeLine] [longSizeLine.take 1072, longSizeLine.drop 1072] (by simp) (by simp)).2
  revert this
  decide +kernel

end NodeCompat.Http
