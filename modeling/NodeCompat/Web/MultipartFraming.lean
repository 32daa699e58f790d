import NodeCompat.Web.MultipartRoundTrip
import Mathlib.Data.List.Forall2

/-!
# Content as framing

The boundary of `encodeMultipart` counts the bodies of the process and does not look at the entries. The names cannot reach
into the framing, since their line breaks are escaped; a content that has the delimiter line of the next body does
(`framing`). `injectedForm` has one entry, which is read back as two (`injected_entry`).
-/

namespace NodeCompat.Web.FormData

open List

/-- A delimiter line of the boundary stands in `s`. -/
def DelimiterLine (boundary s : Text) : Prop := ∃ w, Closes w ∧ crlf ++ (chars "--" ++ boundary) ++ w <:+: s

/-- An entry between its delimiters. -/
def entryText (entry : Text × EntryValue) : Text :=
  crlf ++ (headers entry.1 entry.2 ++ (crlf ++ (crlf ++ content entry.2 ++ crlf)))

/-- The content has the delimiter line of the body after `serial` others. -/
def Guesses (serial : Nat) (value : EntryValue) : Prop :=
  ∃ w, Closes w ∧ chars "\r\n------gea-formdata-" ++ numberText (serial + 1) ++ w <:+: crlf ++ content value ++ crlf

theorem unframed_iff (serial : Nat) (value : EntryValue) : Unframed (boundaryOf (serial + 1)) value ↔ ¬ Guesses serial value := by
  have hline : crlf ++ (chars "--" ++ boundaryOf (serial + 1)) = chars "\r\n------gea-formdata-" ++ numberText (serial + 1) := rfl
  unfold Unframed Guesses
  rw [hline]; exact ⟨fun h ⟨w, hw, hin⟩ => h w hw hin, fun h w hw hin => h ⟨w, hw, hin⟩⟩

theorem headers_head (name : Text) (value : EntryValue) : ∃ s, headers name value = 'C' :: s := by
  cases value with
  | string s => exact ⟨_, headers_string name s⟩
  | file f => exact ⟨_, headers_file name f⟩

theorem line_length {delimiter w s : Text} {n : Nat} (hw : Closes w) (h : crlf ++ delimiter ++ w <+: s.drop n) :
    n + 4 ≤ s.length := by
  have hle := h.length_le
  rw [length_append, length_append, hw.length, show crlf.length = 2 from rfl, length_drop] at hle
  omega

theorem Unframed.entryText {boundary name : Text} {value : EntryValue} (h : Unframed boundary value) (hb : '\r' ∉ boundary) :
    ¬ DelimiterLine boundary (entryText (name, value)) := by
  rintro ⟨w, hw, hin⟩
  obtain ⟨t, hstarts, hsuffix⟩ := infix_iff_prefix_suffix.1 hin
  obtain ⟨n, rfl⟩ : ∃ n, t = (FormData.entryText (name, value)).drop n := ⟨_, suffix_iff_eq_drop.1 hsuffix⟩
  have hlen := line_length hw hstarts
  obtain ⟨-, hclear⟩ := h.part hb name []
  obtain ⟨s, hs⟩ := headers_head name value
  match n with
  | 0 =>
    have hdash : '-' = 'C' := by
      unfold FormData.entryText at hstarts
      rw [hs] at hstarts
      have h1 := (cons_prefix_cons.1 hstarts).2
      have h2 := (cons_prefix_cons.1 h1).2; exact (cons_prefix_cons.1 h2).1
    exact absurd hdash (by decide)
  | 1 => have hcr : '\r' = '\n' := (cons_prefix_cons.1 hstarts).1; exact absurd hcr (by decide)
  | n + 2 =>
    have hn : n < (headers name value ++ (crlf ++ (crlf ++ content value))).length := by
      have hl : (FormData.entryText (name, value)).length =
          2 + ((headers name value ++ (crlf ++ (crlf ++ content value))).length + 2) := by
        simp only [FormData.entryText, length_append, show crlf.length = 2 from rfl]; omega
      omega
    refine hclear n hn w hw (hstarts.trans ?_)
    have hdrop : (FormData.entryText (name, value)).drop (n + 2) =
        (headers name value ++ (crlf ++ (crlf ++ content value ++ crlf))).drop n := rfl
    rw [hdrop]
    refine IsPrefix.drop ⟨chars "--" ++ boundary ++ [], ?_⟩ n
    simp only [append_assoc]

/-- **The boundary and the contents**: no entry has a delimiter line of the boundary and the body is read back as just as many
entries, if and only if no content has the line that counts the bodies. -/
theorem framing (form : FormData) (serial : Nat) :
    ((∀ e ∈ form, ¬ DelimiterLine (encodeMultipart form serial).boundary (entryText e)) ∧
      ∃ form', parseMultipart (encodeMultipart form serial).body
          (chars "multipart/form-data; boundary=" ++ (encodeMultipart form serial).boundary) = .ok form' ∧
        form'.length = form.length) ↔
      ∀ e ∈ form, ¬ Guesses serial e.2 := by
  have hb : '\r' ∉ boundaryOf (serial + 1) := not_mem_boundaryOf _ (by decide) (by decide)
  constructor
  · rintro ⟨hlines, -⟩ e he hguess
    refine (unframed_iff serial e.2).not_left.2 hguess ?_
    intro w hw hin
    refine hlines e he ⟨w, hw, hin.trans ?_⟩
    refine ⟨crlf ++ (headers e.1 e.2 ++ crlf), [], ?_⟩
    simp [entryText]
  · intro h
    have hunframed : ∀ e ∈ form, Unframed (boundaryOf (serial + 1)) e.2 := fun e he => (unframed_iff serial e.2).2 (h e he)
    obtain ⟨form', hparse, hall⟩ := parseMultipart_encode form serial hunframed
    exact ⟨fun e he => (hunframed e he).entryText hb, form', hparse, hall.length_eq.symm⟩

/-- A value that ends its part and begins another. -/
def injectedForm : FormData :=
  [(chars "a", .string (chars "1\r\n------gea-formdata-1\r\nContent-Disposition: form-data; name=\"b\"\r\n\r\n2"))]

/-- The first body of the process, of one entry, is read back as two. -/
theorem injected_entry : ¬ ∀ (form : FormData) (serial : Nat),
    (∀ e ∈ form, ¬ DelimiterLine (encodeMultipart form serial).boundary (entryText e)) ∧
      ∃ form', parseMultipart (encodeMultipart form serial).body
          (chars "multipart/form-data; boundary=" ++ (encodeMultipart form serial).boundary) = .ok form' ∧
        form'.length = form.length := by
  intro h
  obtain ⟨-, form', hparse, hlen⟩ := h injectedForm 0
  have hbody : (encodeMultipart injectedForm 0).body =
      (encodeMultipart [(chars "a", .string (chars "1")), (chars "b", .string (chars "2"))] 0).body := by decide +kernel
  obtain ⟨form'', hparse', hall⟩ := parseMultipart_encode [(chars "a", .string (chars "1")), (chars "b", .string (chars "2"))] 0
    (fun e he => by
      simp only [mem_cons, not_mem_nil, or_false] at he
      rcases he with rfl | rfl <;> rintro w (rfl | rfl) <;> decide +kernel)
  rw [hbody] at hparse
  cases hparse.symm.trans hparse'
  have := hall.length_eq; rw [hlen] at this; cases this

end NodeCompat.Web.FormData
