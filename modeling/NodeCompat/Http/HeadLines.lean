import NodeCompat.Http.FieldLines
import NodeCompat.Http.HeadBlock

/-!
# The lines of a header block

A block is read back by its lines: the status line, one line for each field of the application, and the lines that `headEnd`
adds, up to the first empty line. No layer looks at what a status message, a name or a value consists of, so this is so
exactly when none of them holds a CRLF (`head_reads_back`).
-/

namespace NodeCompat.Http

open List

namespace HeadBlock

/-- The lines that the block was written as. -/
def lines (b : HeadBlock) : List Bytes :=
  (text "HTTP/1.1 " ++ decimal b.status ++ [sp] ++ b.message) :: b.emitted.map fieldText

theorem joined_fieldLines (l : Bytes) (fs : List (Bytes × Bytes)) :
    l ++ crlf ++ fieldLines fs = joined crlf (l :: fs.map fieldText) ++ crlf := by
  induction fs generalizing l with
  | nil => simp [fieldLines, joined]
  | cons f fs ih =>
    have hj : joined crlf (l :: (f :: fs).map fieldText) = l ++ (crlf ++ joined crlf (fieldText f :: fs.map fieldText)) := rfl
    rw [hj]
    simp only [append_assoc]; rw [← ih (fieldText f)]; simp [fieldLines]

theorem bytes_joined (b : HeadBlock) : b.bytes = joined crlf b.lines ++ crlfcrlf := by
  unfold bytes lines
  rw [statusLine_eq, ← append_assoc, joined_fieldLines, append_assoc]; rfl

/-- **The block is read back**: the first empty line of the output is the end of the block, and what stands before it has
exactly the lines of the block. -/
def ReadsBack (b : HeadBlock) (body : Bytes) : Prop :=
  ∃ i, find crlfcrlf (b.bytes ++ body) = some i ∧ i + 4 = b.bytes.length ∧ headLines ((b.bytes ++ body).take i) = b.lines

/-- Neither the status message nor a field of the application holds a CRLF. -/
def Unbroken (b : HeadBlock) : Prop :=
  find crlf b.message = none ∧ ∀ f ∈ b.fields, find crlf f.1 = none ∧ find crlf f.2 = none

instance (b : HeadBlock) : Decidable b.Unbroken :=
  inferInstanceAs (Decidable (find crlf b.message = none ∧ ∀ f ∈ b.fields, find crlf f.1 = none ∧ find crlf f.2 = none))

theorem fieldText_unbroken (f : Bytes × Bytes) : find crlf (fieldText f) = none ↔ find crlf f.1 = none ∧ find crlf f.2 = none := by
  have ht : text ": " = [colon, sp] := by decide
  have hsp : find [cr, lf] (sp :: f.2) = none ↔ find [cr, lf] f.2 = none := by
    have h := find_none_part (c := cr) (d := lf) (x := sp) (by decide) (by decide) f.2 []
    rw [nil_append] at h; rw [h]; exact ⟨And.right, fun hf => ⟨rfl, hf⟩⟩
  have he : fieldText f = f.1 ++ colon :: sp :: f.2 := by
    unfold fieldText; rw [ht]; simp
  rw [he, crlf, find_none_part (by decide) (by decide), hsp]

theorem statusText_unbroken (status : Nat) (message : Bytes) :
    find crlf (text "HTTP/1.1 " ++ decimal status ++ [sp] ++ message) = none ↔ find crlf message = none := by
  have hcr : cr ∉ text "HTTP/1.1 " ++ decimal status := by
    have ht : cr ∉ text "HTTP/1.1 " := by decide
    have hd : cr ∉ decimal status := not_mem_decimal (by decide) status
    simp only [mem_append, not_or]; exact ⟨ht, hd⟩
  rw [append_assoc, singleton_append, crlf, find_none_part (by decide) (by decide)]
  exact ⟨And.right, fun h => ⟨find_none_of_not_mem hcr, h⟩⟩

theorem auto_unbroken {b : HeadBlock} (hd : cr ∉ b.date) : ∀ f ∈ b.auto, find crlf (fieldText f) = none := by
  have hline : ∀ {f : Bytes × Bytes}, cr ∉ f.1 → cr ∉ f.2 → find crlf (fieldText f) = none := fun h₁ h₂ =>
    (fieldText_unbroken _).2 ⟨find_none_of_not_mem h₁, find_none_of_not_mem h₂⟩
  have hconn : ∀ k : Bool, ∀ f ∈ connectionFields k, cr ∉ f.1 ∧ cr ∉ f.2 := by decide
  have hdate : cr ∉ text "Date" := by decide
  have hlength : cr ∉ text "Content-Length" := by decide
  intro f hf
  simp only [auto, mem_append] at hf
  rcases hf with (hf | hf) | hf
  · split at hf
    · rw [mem_singleton.1 hf]; exact hline hdate hd
    · cases hf
  · split at hf
    · cases hf
    · exact hline (hconn _ f hf).1 (hconn _ f hf).2
  · split at hf
    · rw [mem_singleton.1 hf]; exact hline hlength (not_mem_decimal (by decide) _)
    · split at hf
      · rw [mem_singleton.1 hf]; exact hline (f := (text "Transfer-Encoding", text "chunked")) (by decide) (by decide)
      · cases hf

theorem lines_unbroken {b : HeadBlock} (hd : cr ∉ b.date) : (∀ l ∈ b.lines, find crlf l = none) ↔ b.Unbroken := by
  unfold lines emitted Unbroken
  rw [forall_mem_cons, statusText_unbroken, map_append, forall_mem_append]
  refine and_congr_right fun _ => ?_
  constructor
  · rintro ⟨h, -⟩ f hf; exact (fieldText_unbroken f).1 (h _ (mem_map_of_mem hf))
  · intro h
    refine ⟨fun l hl => ?_, fun l hl => ?_⟩
    · obtain ⟨f, hf, rfl⟩ := mem_map.1 hl; exact (fieldText_unbroken f).2 (h f hf)
    · obtain ⟨f, hf, rfl⟩ := mem_map.1 hl; exact auto_unbroken hd f hf

theorem lines_ne_nil {b : HeadBlock} : ∀ l ∈ b.lines, l ≠ [] := by
  have ht : text "HTTP/1.1 " ≠ [] := by decide
  have hc : text ": " ≠ [] := by decide
  intro l hl
  rcases mem_cons.1 hl with rfl | hl
  · simp [ht]
  · obtain ⟨f, -, rfl⟩ := mem_map.1 hl; simp [fieldText, hc]

/-- **A block is read back exactly when it is unbroken.** -/
theorem readsBack_iff {b : HeadBlock} (hd : cr ∉ b.date) (body : Bytes) : b.ReadsBack body ↔ b.Unbroken := by
  have hlen : b.bytes.length = (joined crlf b.lines).length + 4 := by
    rw [bytes_joined, length_append, length_crlfcrlf]
  have htake : (b.bytes ++ body).take (joined crlf b.lines).length = joined crlf b.lines := by
    rw [bytes_joined, append_assoc, take_left]
  have hsplit : headLines (joined crlf b.lines) = b.lines ↔ ∀ l ∈ b.lines, find crlf l = none :=
    splitLines_joined_iff cr_ne_lf (cons_ne_nil _ _)
  rw [← lines_unbroken hd]
  constructor
  · rintro ⟨i, -, hi, hl⟩
    rw [show i = (joined crlf b.lines).length by omega, htake] at hl
    exact hsplit.1 hl
  · intro h
    refine ⟨(joined crlf b.lines).length, ?_, hlen.symm, by rw [htake]; exact hsplit.2 h⟩
    rw [bytes_joined, append_assoc]
    exact find_blank cr_ne_lf body (cons_ne_nil _ _) (fun l hl => ⟨lines_ne_nil l hl, h l hl⟩)

end HeadBlock

theorem Response.blockOf_date (now : UtcTime) (toLowerCase : Bytes → Bytes) (es : List Response.Event) (last : Payload)
    (r : Response) : (r.blockOf now toLowerCase es last).date = httpDate now := by
  induction es generalizing r with
  | nil => rfl
  | cons ev es ih =>
    cases ev with
    | writeHead status headers =>
      unfold Response.blockOf
      dsimp only
      split <;> rfl
    | flushHeaders | write chunk => rfl
    | _ => exact ih _

open Response in
/-- **Header blocks are read back line by line exactly when the application put no CRLF into them.** Whatever calls are made
on a response, its bytes are a header block and a body, and the block is the status line, a line for each field that was
staged, and the lines that `headEnd` adds, up to the first empty line, exactly when the block is unbroken. -/
theorem head_reads_back (now : UtcTime) (toLowerCase : Bytes → Bytes) (c : Conn) (hc : c.out.Ok)
    (method httpVersion : Bytes) (keepAlive : Bool) (events : List Response.Event) (last : Payload) :
    let b := (create c method httpVersion keepAlive).blockOf now toLowerCase events last
    ∃ body, ((create c method httpVersion keepAlive).answer now toLowerCase events last).conn.out.stream =
        c.out.stream ++ (b.bytes ++ body) ∧
      (b.ReadsBack body ↔ b.Unbroken) := by
  intro b
  obtain ⟨body, hs, -, -⟩ := (fresh_create c hc method httpVersion keepAlive).answer now toLowerCase events last
  refine ⟨body, hs, HeadBlock.readsBack_iff ?_ body⟩
  rw [blockOf_date]; exact httpDate_line now

/-- A value with a CR of its own. -/
def bareReturn : List Response.Event :=
  [.setHeader (text "X-Trace") (.many [text "a\rb", text "c"]), .statusMessage (text "Fine")]

open Response in
theorem head_reads_back_bare_return : ({} : Conn).out.Ok ∧
    let b := (create {} (text "GET") (text "HTTP/1.1") true).blockOf epoch id bareReturn (.string (text "!"))
    b.fields = [(text "X-Trace", text "a\rb"), (text "X-Trace", text "c")] ∧ ∃ body, b.ReadsBack body := by
  have hc : ({} : Conn).out.Ok := by show 0 ≤ 0; omega
  obtain ⟨body, -, h⟩ := head_reads_back epoch id {} hc (text "GET") (text "HTTP/1.1") true bareReturn (.string (text "!"))
  exact ⟨hc, by decide +kernel, body, h.2 (by decide +kernel)⟩

/-- A value that adds a field line. -/
def splitEvents : List Response.Event := [.setHeader (text "X-Trace") (.one (text "a\r\nSet-Cookie: b"))]

open Response in
/-- A value with a CRLF is not read back. -/
theorem header_value_splits : ¬ ∀ (events : List Response.Event) (last : Payload),
    let b := (create {} (text "GET") (text "HTTP/1.1") true).blockOf epoch id events last
    ∃ body, ((create {} (text "GET") (text "HTTP/1.1") true).answer epoch id events last).conn.out.stream = b.bytes ++ body ∧
      b.ReadsBack body := by
  intro h
  obtain ⟨body, -, hb⟩ := h splitEvents (.string [])
  have hu := (HeadBlock.readsBack_iff (by rw [blockOf_date]; exact httpDate_line epoch) body).1 hb
  revert hu
  decide +kernel

end NodeCompat.Http
