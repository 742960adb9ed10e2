/-
# Line ends and lines

Text arrives with three spellings of a line end: a carriage return followed by a line feed, a lone
carriage return, and a lone line feed.  The specification normalises them before scanning (section
4, `normalize_newlines`), and everything else in the library counts lines by line feeds only.

`unify` is that step.  The specified operation replaces every pair by a line feed and then every
carriage return that is left; `unify` goes through the text once, and looks one character ahead
instead.  The two are the same function (`unify_eq_replaced`, with the theory of spellings), since
the first replacement leaves no carriage return before a line feed.  Proofs see neither the
accumulator nor the order of the cases behind `unify`, but one equation for each spelling.

* `unify_crlf`, `unify_cr`, `unify_cons`: **one equation per spelling.**
* `not_mem_unify`: **no carriage return survives**, so unifying again changes nothing.
* `join_split`: **a text is its lines joined by line feeds.**  There is one line more than there are
  line feeds, and a text that ends with one has an empty last line.

Lines are also made here: the blanks and the carets of a display are one text repeated.  How often
that can be done is not a matter of the text but of the machine, which holds texts of some length
and counts up to some number.  So what a machine refuses is a parameter (`Repetition.Limit`), and no
result of the library depends on its value.
-/

namespace IndentLisp.Lines

/-! ## 1. One spelling of a line end -/

/-- The characters of `done`, latest first, followed by the unified rest.  A carriage return and a
line feed are taken together, which is why the pair stands before the other cases. -/
def unifyOnto (done : List Char) : List Char → List Char
  | [] => done.reverse
  | '\r' :: '\n' :: cs => unifyOnto ('\n' :: done) cs
  | c :: cs => unifyOnto ((if c = '\r' then '\n' else c) :: done) cs

/-- Every line end, however it is spelled, becomes one line feed: the operation
`normalize_newlines`. -/
def unify (cs : List Char) : List Char :=
  unifyOnto [] cs

theorem unifyOnto_eq (done cs : List Char) :
    unifyOnto done cs = done.reverse ++ unify cs := by
  unfold unify
  suffices h : ∀ done acc cs : List Char,
      unifyOnto (done ++ acc) cs = acc.reverse ++ unifyOnto done cs by
    simpa using h [] done cs
  intro done acc cs
  fun_induction unifyOnto done cs generalizing acc with
  | case1 done => simp [unifyOnto]
  | case2 done cs ih => simpa [unifyOnto] using ih acc
  | case3 done c cs hc ih =>
    rw [unifyOnto.eq_3 _ _ _ hc]
    simpa using ih acc

/-- A carriage return and the line feed after it are one line end. -/
@[simp] theorem unify_crlf (cs : List Char) : unify ('\r' :: '\n' :: cs) = '\n' :: unify cs := by
  rw [unify, unifyOnto, unifyOnto_eq]
  rfl

/-- A carriage return that no line feed follows is a line end of its own. -/
theorem unify_cr {cs : List Char} (h : ∀ r, cs ≠ '\n' :: r) :
    unify ('\r' :: cs) = '\n' :: unify cs := by
  rw [unify, unifyOnto.eq_3 _ _ _ (fun r _ hr => h r hr), unifyOnto_eq]
  rfl

/-- Any other character stays. -/
theorem unify_cons {c : Char} (cs : List Char) (h : c ≠ '\r') :
    unify (c :: cs) = c :: unify cs := by
  rw [unify, unifyOnto.eq_3 _ _ _ (fun _ hc _ => h hc), unifyOnto_eq, if_neg h]
  rfl

/-- **No carriage return survives.** -/
theorem not_mem_unify (cs : List Char) : '\r' ∉ unify cs := by
  suffices h : ∀ done : List Char, '\r' ∉ done → '\r' ∉ unifyOnto done cs from h [] (by simp)
  intro done
  fun_induction unifyOnto done cs with
  | case1 done => simp
  | case2 done cs ih => intro h; exact ih (by simpa using h)
  | case3 done c cs hc ih =>
    intro h
    refine ih ?_
    simp only [List.mem_cons, not_or]
    refine ⟨?_, h⟩
    split
    · decide
    · rename_i hne
      exact fun e => hne e.symm

/-- A text without carriage returns is as it should be. -/
theorem unify_of_notMem {cs : List Char} (h : '\r' ∉ cs) : unify cs = cs := by
  induction cs with
  | nil => rfl
  | cons c cs ih =>
    simp only [List.mem_cons, not_or] at h
    rw [unify_cons cs (Ne.symm h.1), ih h.2]

theorem unify_unify (cs : List Char) : unify (unify cs) = unify cs :=
  unify_of_notMem (not_mem_unify cs)

/-! ## 2. Lines -/

/-- The lines of a text: its pieces between line feeds, the empty ones included.  These are the
lines of a source file (section 5), and they are counted from one. -/
def split (cs : List Char) : List (List Char) :=
  cs.splitOn '\n'

/-- **A text is its lines joined by line feeds.** -/
theorem join_split (cs : List Char) : ['\n'].intercalate (split cs) = cs :=
  List.intercalate_splitOn '\n'

/-- The part of a text before its first line feed: the rest of the line, where the text is what lies
ahead of a reader (`_rest_of_line`). -/
def first (cs : List Char) : List Char :=
  cs.takeWhile (· ≠ '\n')

end IndentLisp.Lines

namespace IndentLisp

/-! ## 3. Rows -/

/-- Why a text cannot be repeated so many times.  A machine finds the two out in this order: whether
the count is a number that it has, and then whether there is room. -/
inductive RepetitionError where
  /-- The count, or the length of what would come out, is no signed number of 64 bits. -/
  | count
  /-- What would come out is too long to be held. -/
  | room
deriving DecidableEq, Repr

/-- The wording of a failure. -/
def RepetitionError.message : RepetitionError → String
  | .count => "a count is too large"
  | .room => "a text is too long"

namespace Repetition

/-- What a machine has against a text of some length being repeated so many times; `none` where it
can be done.  A count below zero is a count, though what comes out is empty. -/
abbrev Limit := Nat → Int → Option RepetitionError

/-- A machine on which every text can be held. -/
def unlimited : Limit := fun _ _ => none

/-- The first number that has no signed form of 64 bits. -/
def wordLimit : Int := 9223372036854775808

/-- A machine that counts in signed numbers of 64 bits and holds texts up to the length `room`.  **A
count below zero repeats a text not at all, but is still a count.** -/
def within (room : Int) : Limit := fun length count =>
  if count < -wordLimit ∨ wordLimit ≤ count ∨ wordLimit ≤ length * count then some .count
  else if room < length * count then some .room
  else none

/-- A machine that holds texts up to the length of two to the power of 31.  It is the one that the
program runs on; every result about a display is stated for any limit. -/
def usual : Limit := within 2147483648

end Repetition

end IndentLisp
