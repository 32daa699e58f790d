import Mathlib.Algebra.Ring.Nat
import Mathlib.Data.List.TakeWhile
import Mathlib.Tactic.Common

/-!
# The command line of a worker on Windows

A process is started there with one string: `spawnChild` joins the arguments with `appendQuotedArgument`, and the worker
splits the string again. `commandLineToArgv` is the documented reading: the program name ends at the next quote or blank and
knows no escapes; behind it, blanks separate the arguments outside quotes, and a run of backslashes is special only in front
of a quote, where two stand for one and an odd one takes the quote as it is.

Strings are lists of code units.
-/

namespace NodeCompat.Cluster

open List Option

abbrev WString := List UInt16

def backslash : UInt16 := 92
def quote : UInt16 := 34
def space : UInt16 := 32
def tabulator : UInt16 := 9

/-- `L" \t\n\v\""` -/
def quotable : WString := [space, tabulator, 10, 11, quote]

/-- An argument that is written as it is. -/
def isPlain (argument : WString) : Bool := !argument.isEmpty && argument.all (fun c => !quotable.contains c)

/-- A round of the loop over the argument, with the line and `backslashes`. -/
def quoteUnit (s : WString × Nat) (character : UInt16) : WString × Nat :=
  if character = backslash then (s.1, s.2 + 1)
  else if character = quote then (s.1 ++ List.replicate (s.2 * 2 + 1) backslash ++ [character], 0)
  else (s.1 ++ List.replicate s.2 backslash ++ [character], 0)

def appendQuotedArgument (line argument : WString) : WString :=
  let line := if line.isEmpty then line else line ++ [space]
  if isPlain argument then line ++ argument
  else
    let (line, backslashes) := argument.foldl quoteUnit (line ++ [quote], 0)
    line ++ List.replicate (backslashes * 2) backslash ++ [quote]

/-- The `commandLine` of `spawnChild`. -/
def commandLine (args : List WString) : WString := args.foldl appendQuotedArgument []

/-! ## The documented reading -/

def isBlankUnit (c : UInt16) : Bool := c == space || c == tabulator

/-- The arguments behind the program name: whether a quote is open, the backslashes that were just read, and what there is
of an argument. -/
def argumentsOf (quoted : Bool) (slashes : Nat) (current : Option WString) : WString → List WString
  | [] => current.toList.map (fun a => a ++ List.replicate slashes backslash)
  | c :: rest =>
    if c = backslash then argumentsOf quoted (slashes + 1) (some (current.getD [])) rest
    else if c = quote then
      let a := current.getD [] ++ List.replicate (slashes / 2) backslash
      if slashes % 2 = 0 then argumentsOf (!quoted) 0 (some a) rest else argumentsOf quoted 0 (some (a ++ [quote])) rest
    else if isBlankUnit c && !quoted then
      current.toList.map (fun a => a ++ List.replicate slashes backslash) ++ argumentsOf false 0 none rest
    else argumentsOf quoted 0 (some (current.getD [] ++ List.replicate slashes backslash ++ [c])) rest

/-- The program name, and what is behind it. -/
def programName : WString → WString × WString
  | [] => ([], [])
  | c :: rest =>
    if c = quote then (rest.takeWhile (· ≠ quote), (rest.dropWhile (· ≠ quote)).tail)
    else ((c :: rest).takeWhile (fun c => !isBlankUnit c), (c :: rest).dropWhile (fun c => !isBlankUnit c))

/-- A line ends at its first zero. -/
def commandLineToArgv (line : WString) : List WString :=
  let (program, rest) := programName (line.takeWhile (· ≠ 0))
  program :: argumentsOf false 0 none rest

/-! ## Writing -/

/-- What is left to write of an argument, with its closing quote, after `n` backslashes. -/
def quotedRest (n : Nat) : WString → WString
  | [] => List.replicate (n * 2) backslash ++ [quote]
  | c :: argument =>
    if c = backslash then quotedRest (n + 1) argument
    else if c = quote then List.replicate (n * 2 + 1) backslash ++ c :: quotedRest 0 argument
    else List.replicate n backslash ++ c :: quotedRest 0 argument

/-- An argument as it is written. -/
def written (argument : WString) : WString := if isPlain argument then argument else quote :: quotedRest 0 argument

theorem foldl_quoteUnit (argument : WString) : ∀ (line : WString) (n : Nat),
    (argument.foldl quoteUnit (line, n)).1 ++ List.replicate ((argument.foldl quoteUnit (line, n)).2 * 2) backslash ++ [quote] =
      line ++ quotedRest n argument := by
  induction argument with
  | nil =>
    intro line n; rw [quotedRest, ← append_assoc]; rfl
  | cons c argument ih =>
    intro line n
    rw [foldl_cons, quoteUnit, quotedRest]
    split
    · exact ih line (n + 1)
    · split <;> (rw [ih]; simp)

theorem appendQuotedArgument_eq (line argument : WString) :
    appendQuotedArgument line argument = (if line.isEmpty then line else line ++ [space]) ++ written argument := by
  unfold appendQuotedArgument written
  dsimp only
  split
  · rfl
  · rw [foldl_quoteUnit, append_assoc, singleton_append]

theorem written_ne_nil (argument : WString) : written argument ≠ [] := by
  unfold written
  split
  · next h =>
    intro hnil; rw [hnil] at h; cases h
  · exact cons_ne_nil _ _

theorem foldl_appendQuotedArgument (args : List WString) : ∀ {line : WString}, line ≠ [] →
    args.foldl appendQuotedArgument line = line ++ args.flatMap (fun a => space :: written a) := by
  induction args with
  | nil => simp
  | cons a args ih =>
    intro line h
    have hstep : appendQuotedArgument line a = line ++ space :: written a := by
      rw [appendQuotedArgument_eq, if_neg (by simpa using h)]; simp
    rw [foldl_cons, hstep, ih (by simp)]; simp

theorem commandLine_cons (program : WString) (args : List WString) :
    commandLine (program :: args) = written program ++ args.flatMap (fun a => space :: written a) := by
  have hfirst : appendQuotedArgument [] program = written program := by rw [appendQuotedArgument_eq]; rfl
  rw [commandLine, foldl_cons, hfirst, foldl_appendQuotedArgument args (written_ne_nil program)]

/-! ## Reading back -/

theorem argumentsOf_space (s : WString) : argumentsOf false 0 none (space :: s) = argumentsOf false 0 none s := rfl

theorem argumentsOf_backslashes (quoted : Bool) (a rest : WString) : ∀ (m n : Nat),
    argumentsOf quoted m (some a) (List.replicate n backslash ++ rest) = argumentsOf quoted (m + n) (some a) rest
  | m, 0 => rfl
  | m, n + 1 => by
    rw [replicate_succ, cons_append, argumentsOf, if_pos rfl, getD_some,
      argumentsOf_backslashes quoted a rest (m + 1) n, Nat.add_right_comm, Nat.add_assoc]

/-- **Inside the quotes**, what was written is read, and the quotes are closed behind it. -/
theorem argumentsOf_quotedRest (rest : WString) (argument : WString) : ∀ (n : Nat) (a : WString),
    argumentsOf true 0 (some a) (quotedRest n argument ++ rest) =
      argumentsOf false 0 (some (a ++ List.replicate n backslash ++ argument)) rest := by
  induction argument with
  | nil =>
    intro n a
    rw [quotedRest, append_assoc, argumentsOf_backslashes, singleton_append, argumentsOf, if_neg (by decide), if_pos rfl,
      if_pos (by omega), append_nil, getD_some, show (0 + n * 2) / 2 = n by omega]
    rfl
  | cons c argument ih =>
    intro n a
    rw [quotedRest]
    split
    · next hc =>
      rw [ih, hc, replicate_succ', append_assoc, append_assoc, append_assoc, singleton_append]
    · next hc =>
      split
      · next hq =>
        rw [append_assoc, argumentsOf_backslashes, cons_append, argumentsOf, if_neg hc, if_pos hq, if_neg (by omega), ih,
          getD_some, show (0 + (n * 2 + 1)) / 2 = n by omega, hq]
        simp
      · next hq =>
        rw [append_assoc, argumentsOf_backslashes, cons_append, argumentsOf, if_neg hc, if_neg hq, if_neg (by simp), ih,
          getD_some, Nat.zero_add]
        simp

theorem not_special {c : UInt16} (h : quotable.contains c = false) : c ≠ quote ∧ isBlankUnit c = false := by
  simp only [quotable, contains_cons, Bool.or_eq_false_iff, beq_eq_false_iff_ne] at h
  refine ⟨h.2.2.2.2.1, ?_⟩
  rw [isBlankUnit, Bool.or_eq_false_iff, beq_eq_false_iff_ne, beq_eq_false_iff_ne]
  exact ⟨h.1, h.2.1⟩

/-- Outside the quotes, a plain argument is read up to its end: the next argument is behind a space, or there is none. -/
theorem argumentsOf_plain {args : List WString} (argument : WString) : ∀ (n : Nat) (a : WString),
    (∀ c ∈ argument, quotable.contains c = false) →
    argumentsOf false n (some a) (argument ++ args.flatMap (fun a => space :: written a)) =
      (a ++ List.replicate n backslash ++ argument) :: argumentsOf false 0 none (args.flatMap (fun a => space :: written a)) := by
  induction argument with
  | nil =>
    intro n a _
    cases args with
    | nil => simp [argumentsOf]
    | cons b args => rw [flatMap_cons, cons_append, nil_append, argumentsOf_space, append_nil]; rfl
  | cons c argument ih =>
    intro n a h
    obtain ⟨hq, hb⟩ := not_special (h c (by simp))
    have hrest : ∀ c ∈ argument, quotable.contains c = false := fun d hd => h d (by simp [hd])
    rw [cons_append, argumentsOf]
    split
    · next hc =>
      rw [getD_some, ih (n + 1) a hrest, hc, replicate_succ']; simp
    · rw [if_neg (by simp [hb]), ih 0 _ hrest]; simp

/-- **Every list of arguments is read back**, whatever it is made of. -/
theorem argumentsOf_written (args : List WString) :
    argumentsOf false 0 none (args.flatMap (fun a => space :: written a)) = args := by
  induction args with
  | nil => rfl
  | cons a args ih =>
    rw [flatMap_cons, cons_append, argumentsOf_space, written]
    split
    · next h =>
      simp only [isPlain, Bool.and_eq_true, Bool.not_eq_true', List.all_eq_true] at h
      obtain ⟨c, a, rfl⟩ := exists_cons_of_ne_nil (show a ≠ [] by simpa using h.1)
      have hbegin : ∀ s : WString, argumentsOf false 0 none (c :: s) = argumentsOf false 0 (some []) (c :: s) := by
        intro s
        obtain ⟨-, hb⟩ := not_special (h.2 c (by simp)); simp [argumentsOf, hb]
      rw [cons_append, hbegin, ← cons_append, argumentsOf_plain (c :: a) 0 [] h.2, ih]; simp
    · have hopen : ∀ s : WString, argumentsOf false 0 none (quote :: s) = argumentsOf true 0 (some []) s := fun s => rfl
      rw [cons_append, hopen, argumentsOf_quotedRest]
      have hplain := @argumentsOf_plain args [] 0 a (by simp)
      simp only [nil_append, replicate_zero, append_nil] at hplain ⊢; rw [hplain, ih]

/-! ## The program name -/

theorem quotedRest_eq {argument : WString} : ∀ (n : Nat), quote ∉ argument →
    (argument = [] → n = 0) → argument.getLast? ≠ some backslash →
    quotedRest n argument = List.replicate n backslash ++ argument ++ [quote] := by
  induction argument with
  | nil =>
    intro n _ hn _; rw [hn rfl]; rfl
  | cons c argument ih =>
    intro n hq _ hlast
    simp only [mem_cons, not_or] at hq
    have hlast' : argument.getLast? ≠ some backslash := by
      intro h
      apply hlast
      rw [getLast?_cons, h]; rfl
    rw [quotedRest]
    split
    · next hc =>
      have hne : argument ≠ [] := by rintro rfl; exact hlast (by rw [hc]; rfl)
      rw [ih (n + 1) hq.2 (fun h => absurd h hne) hlast', hc, replicate_succ']
      simp
    · rw [if_neg (Ne.symm hq.1), ih 0 hq.2 (fun _ => rfl) hlast']
      simp

theorem zero_not_mem_written {argument : WString} (h : (0 : UInt16) ∉ argument) : (0 : UInt16) ∉ written argument := by
  have hslashes : ∀ n, (0 : UInt16) ∉ List.replicate n backslash := by
    intro n hmem; exact absurd (eq_of_mem_replicate hmem) (by decide)
  have hrest : ∀ (argument : WString) (n : Nat), (0 : UInt16) ∉ argument → (0 : UInt16) ∉ quotedRest n argument := by
    intro argument
    induction argument with
    | nil =>
      intro n _; rw [quotedRest, mem_append, not_or]; exact ⟨hslashes _, by decide⟩
    | cons c argument ih =>
      intro n hno
      simp only [mem_cons, not_or] at hno
      rw [quotedRest]
      split
      · exact ih _ hno.2
      · split <;> (rw [mem_append, mem_cons, not_or, not_or]; exact ⟨hslashes _, hno.1, ih 0 hno.2⟩)
  unfold written
  split
  · exact h
  · rw [mem_cons, not_or]; exact ⟨by decide, hrest argument 0 h⟩

theorem programName_written {program : WString} {args : List WString} (hquote : quote ∉ program)
    (hlast : isPlain program = false → program.getLast? ≠ some backslash) :
    programName (written program ++ args.flatMap (fun a => space :: written a)) =
      (program, args.flatMap (fun a => space :: written a)) := by
  cases hp : isPlain program with
  | true =>
    have hplain := hp
    simp only [isPlain, Bool.and_eq_true, Bool.not_eq_true', List.all_eq_true] at hplain
    obtain ⟨c, p, rfl⟩ := exists_cons_of_ne_nil (show program ≠ [] by simpa using hplain.1)
    have hblank : ∀ d ∈ c :: p, (!isBlankUnit d) = true := by
      intro d hd; rw [(not_special (hplain.2 d hd)).2]; rfl
    rw [written, if_pos hp, cons_append, programName, if_neg (not_special (hplain.2 c (by simp))).1, ← cons_append,
      takeWhile_append_of_pos hblank, dropWhile_append_of_pos hblank]
    cases args with
    | nil => simp
    | cons a args => simp [isBlankUnit]
  | false =>
    have hfree : ∀ d ∈ program, decide (d ≠ quote) = true := by
      intro d hd
      rw [decide_eq_true_eq]
      rintro rfl; exact hquote hd
    rw [written, if_neg (by simp [hp]), quotedRest_eq 0 hquote (fun _ => rfl) (hlast hp), cons_append, programName, if_pos rfl]
    simp only [replicate_zero, nil_append, append_assoc, singleton_append]
    rw [takeWhile_append_of_pos hfree, dropWhile_append_of_pos hfree]; simp

/-- **The arguments survive the command line**: reading it gives the list it was built from, when the program name, which is
read without escapes, has no quote and, if it is quoted, no backslash at its end. -/
theorem commandLineToArgv_commandLine (program : WString) (args : List WString)
    (hnul : ∀ a ∈ program :: args, (0 : UInt16) ∉ a) (hquote : quote ∉ program)
    (hlast : isPlain program = false → program.getLast? ≠ some backslash) :
    commandLineToArgv (commandLine (program :: args)) = program :: args := by
  have hzero : ∀ c ∈ commandLine (program :: args), decide (c ≠ 0) = true := by
    intro c hc
    rw [decide_eq_true_eq]
    rintro rfl
    rw [commandLine_cons, mem_append, mem_flatMap] at hc
    obtain hc | ⟨a, ha, hc⟩ := hc
    · exact zero_not_mem_written (hnul program (by simp)) hc
    · rcases mem_cons.1 hc with hc | hc
      · exact absurd hc (by decide)
      · exact zero_not_mem_written (hnul a (by simp [ha])) hc
  rw [commandLineToArgv, takeWhile_eq_self_iff.2 hzero, commandLine_cons, programName_written hquote hlast]
  exact congrArg (List.cons program) (argumentsOf_written args)

/-- A blank in the program's path, a backslash and a quote in an argument, and an empty argument. -/
theorem commandLineToArgv_commandLine_blank :
    commandLineToArgv (commandLine [[65, space, 66], [backslash, quote, backslash, space], []]) =
      [[65, space, 66], [backslash, quote, backslash, space], []] :=
  commandLineToArgv_commandLine _ _ (by decide) (by decide) (by decide)

end NodeCompat.Cluster
