/-
# Line ends

A block looks at a run of line ends as a whole, and at the tabs after it (section 4, the newline
rule).  There are three things that such a run can do, one equation for each: a classic block goes
on (`Nesting.breakLine_open`), an indented block goes on at the depth of the tabs
(`Nesting.breakLine_line`), and **any other block ends, and with it all its lists**
(`Nesting.breakLine_last`).

A text is taken apart into runs first: so many copies of a character, and then something that starts
with another one (`exists_run`).  A line end within a block is then always a case of one of the
three equations.

What comes after the run hardly matters (`Nesting.exists_breakLine`), so it can be replaced, as long
as the run does not get longer: no line end may follow where no tab does, and no tab in an indented
block.
-/
import IndentLisp.Proofs.Reader.Scan

namespace IndentLisp

/-! ## 1. Runs -/

/-- The copies of a character at the front of a text. -/
theorem takeWhile_eq_replicate (c : Char) (cs : List Char) :
    cs.takeWhile (· = c) = List.replicate (cs.takeWhile (· = c)).length c :=
  List.eq_replicate_iff.mpr ⟨rfl, fun d hd => by
    simpa using List.all_eq_true.mp List.all_takeWhile d hd⟩

theorem head?_dropWhile_ne (c : Char) (cs : List Char) :
    (cs.dropWhile (· = c)).head? ≠ some c := by
  intro h
  have hn := List.head?_dropWhile_not (· = c) cs
  rw [h] at hn
  simp at hn

/-- A text starts with a run of each character, which may be empty.  What comes after the run starts
with another character, or is nothing. -/
theorem exists_run (c : Char) (cs : List Char) :
    ∃ k rest, cs = List.replicate k c ++ rest ∧ rest.head? ≠ some c := by
  refine ⟨(cs.takeWhile (· = c)).length, cs.dropWhile (· = c), ?_, head?_dropWhile_ne c cs⟩
  rw [← takeWhile_eq_replicate, List.takeWhile_append_dropWhile]

/-- And with a run of at least one where it starts with the character. -/
theorem exists_run_cons (c : Char) (cs : List Char) :
    ∃ k rest, c :: cs = List.replicate (k + 1) c ++ rest ∧ rest.head? ≠ some c := by
  obtain ⟨k, rest, rfl, hr⟩ := exists_run c cs
  exact ⟨k, rest, by rw [List.replicate_succ, List.cons_append], hr⟩

theorem length_run {c : Char} {rest : List Char} (k : Nat) (h : rest.head? ≠ some c) :
    ((List.replicate k c ++ rest).takeWhile (· = c)).length = k := by
  rw [takeWhile_append, List.length_replicate]
  · intro d hd
    simp [List.eq_of_mem_replicate hd]
  · intro d hd
    have hne : d ≠ c := fun e => h (by rw [hd, e])
    simp [hne]

theorem drop_run (c : Char) (k : Nat) (rest : List Char) :
    (List.replicate k c ++ rest).drop k = rest :=
  List.drop_left' List.length_replicate

/-! ## 2. A run of line ends in a block -/

namespace Nesting

variable {n : Nesting} {rest : List Char}

/-- A classic block goes on while a parenthesis is open. -/
theorem breakLine_open (j : Nat) (hs : n.style = .classic) (h0 : n.opened ≠ 0)
    (hn : rest.head? ≠ some '\n') :
    n.breakLine (List.replicate (j + 1) '\n' ++ rest) = ⟨j + 1, [], some n⟩ := by
  unfold breakLine
  simp only [length_run (j + 1) hn, hs, if_neg h0]

/-- An indented block goes on where a tab follows, at the depth of the tabs. -/
theorem breakLine_line (j k : Nat) (hs : n.style = .indented) (ht : rest.head? ≠ some '\t') :
    n.breakLine (List.replicate (j + 1) '\n' ++ (List.replicate (k + 1) '\t' ++ rest)) =
      ⟨j + 1 + (k + 1), Stroke.line n.depth (k + 1), some { n with depth := k + 1 }⟩ := by
  have hn : (List.replicate (k + 1) '\t' ++ rest).head? ≠ some '\n' := by
    simp [List.replicate_succ]
  unfold breakLine
  simp only [length_run (j + 1) hn, hs, drop_run, length_run (k + 1) ht]

/-- **Any other block ends**, and with it all its lists: an indented one before a line without tabs,
and a classic one whose parentheses are all closed. -/
theorem breakLine_last (j : Nat) (hn : rest.head? ≠ some '\n')
    (hc : n.style = .classic → n.opened = 0) (ht : n.style = .indented → rest.head? ≠ some '\t') :
    n.breakLine (List.replicate (j + 1) '\n' ++ rest) =
      ⟨j + 1, List.replicate n.level .leave, none⟩ := by
  obtain ⟨style, depth, opened⟩ := n
  unfold breakLine
  cases style with
  | classic =>
    obtain rfl : opened = 0 := hc rfl
    simp only [length_run (j + 1) hn, if_true]
    rfl
  | indented =>
    have htabs : (rest.takeWhile (· = '\t')).length = 0 := length_run 0 (ht rfl)
    simp only [length_run (j + 1) hn, drop_run, htabs]

/-- **What comes after line ends hardly matters**: they are passed, with the tabs after them in an
indented block, and what is there instead of the rest must not make the line ends more, nor the tabs
of an indented block. -/
theorem exists_breakLine (n : Nesting) (cs : List Char) :
    ∃ j k rest, '\n' :: cs = List.replicate (j + 1) '\n' ++ (List.replicate k '\t' ++ rest) ∧
      (n.breakLine ('\n' :: cs)).passed = j + 1 + k ∧
      (rest.head? = some '\n' → k ≠ 0) ∧ (rest.head? = some '\t' → n.style = .classic) ∧
      ∀ rest' : List Char, (rest'.head? = some '\n' → k ≠ 0) →
        (rest'.head? = some '\t' → n.style = .classic) →
        n.breakLine (List.replicate (j + 1) '\n' ++ (List.replicate k '\t' ++ rest')) =
          n.breakLine ('\n' :: cs) := by
  obtain ⟨j, ds, hcs, hn⟩ := exists_run_cons '\n' cs
  rw [hcs]
  -- Without tabs, what comes after the line ends is no line end.
  have hzero : ∀ {es : List Char}, (es.head? = some '\n' → 0 ≠ 0) → es.head? ≠ some '\n' :=
    fun h e => h e rfl
  cases hstyle : n.style with
  | classic =>
    refine ⟨j, 0, ds, rfl, ?_, fun h => absurd h hn, fun _ => rfl, fun rest' h' _ => ?_⟩
    · by_cases h0 : n.opened = 0
      · rw [breakLine_last j hn (fun _ => h0) (by simp [hstyle])]
      · rw [breakLine_open j hstyle h0 hn]
    · by_cases h0 : n.opened = 0
      · rw [breakLine_last j hn (fun _ => h0) (by simp [hstyle])]
        exact breakLine_last j (hzero h') (fun _ => h0) (by simp [hstyle])
      · rw [breakLine_open j hstyle h0 hn]
        exact breakLine_open j hstyle h0 (hzero h')
  | indented =>
    obtain ⟨k, rest, rfl, ht⟩ := exists_run '\t' ds
    have htab : ∀ {es : List Char}, (es.head? = some '\t' → Reader.Style.indented = .classic) →
        es.head? ≠ some '\t' := fun h e => nomatch h e
    cases k with
    | zero =>
      have hn : rest.head? ≠ some '\n' := hn
      refine ⟨j, 0, rest, rfl, ?_, fun h => absurd h hn, fun h => absurd h ht,
        fun rest' h' ht' => ?_⟩
      · exact congrArg Move.passed (breakLine_last j hn (by simp [hstyle]) (fun _ => ht))
      · exact (breakLine_last j (hzero h') (by simp [hstyle]) (fun _ => htab ht')).trans
          (breakLine_last j hn (by simp [hstyle]) (fun _ => ht)).symm
    | succ k =>
      refine ⟨j, k + 1, rest, rfl, ?_, fun _ => Nat.succ_ne_zero k, fun h => absurd h ht,
        fun rest' _ ht' => ?_⟩
      · rw [breakLine_line j k hstyle ht]
      · rw [breakLine_line j k hstyle ht, breakLine_line j k hstyle (htab ht')]

/-- What is passed at line ends is a run of them, and a run of tabs. -/
theorem take_breakLine (n : Nesting) (cs : List Char) :
    ∃ j k, ('\n' :: cs).take (n.breakLine ('\n' :: cs)).passed =
      List.replicate (j + 1) '\n' ++ List.replicate k '\t' := by
  obtain ⟨j, k, rest, hcs, hp, -⟩ := n.exists_breakLine cs
  refine ⟨j, k, ?_⟩
  rw [hp, hcs, ← List.append_assoc]
  exact List.take_left' (by simp)

end Nesting

end IndentLisp
