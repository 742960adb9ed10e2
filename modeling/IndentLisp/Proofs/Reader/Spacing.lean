/-
# Spacing

There are edits of the layout of a text that a reader does not notice: further line ends after a
line end, and blanks on a line that holds something else before them (`Respaced`).  The line ends
join a run, at the end of which a block finds the same as before, and the blanks are not among those
at which a block looks after its line ends.  So **a text without comments is read to the same tree
after any number of edits** (`read_respaced`).  A comment in a block takes its line end along: the
line end after that would be the first one to the block.

An edit says where it is made in terms of the text alone: at a place between lexemes, after a line
end or where the line is not blank.  The turns of a scan come to such a place or to the line ends
before it (`Between.run`), and there the rest of the text is replaced by the rest of the edited one.

One edit at a time is enough, since an edited text has no comments either; so the theorem is for any
sequence of edits, each made in the text that the ones before it left.

* `Between.run`: where a scan is before a line end between lexemes.
* `found_run`: a run of line ends is as good as one.
* `Respaced.found`: one edit.
-/
import IndentLisp.Proofs.Reader.Comments
import Mathlib.Logic.Relation

namespace IndentLisp

/-! ## 1. Edits -/

/-- **An edit of the layout of a text**, at a place between its lexemes: line ends after a line end,
or blanks where a part of the line is not blank.  Where the blanks are put on that line is free,
also before its end. -/
inductive Respaced : List Char → List Char → Prop
  | lineEnds {front rest : List Char} (k : Nat) :
      Between front ('\n' :: rest) →
      Respaced (front ++ '\n' :: rest) (front ++ '\n' :: (List.replicate k '\n' ++ rest))
  | blanks {front rest line : List Char} :
      Between front rest → isBlankLine (Lines.last front) ≠ true → isBlankLine line = true →
      Respaced (front ++ rest) (front ++ (line ++ rest))

/-! ## 2. What an edit keeps -/

/-- **A run of line ends is as good as one**, in a block of either style and between blocks. -/
theorem found_run (m : Option Nesting) (j : Nat) (cs : List Char) :
    (scan m (List.replicate (j + 1) '\n' ++ cs)).found = (scan m ('\n' :: cs)).found := by
  induction j with
  | zero => rfl
  | succ j ih =>
    rw [← ih, List.replicate_succ, List.replicate_succ, List.cons_append, List.cons_append]
    cases m with
    | none => exact found_gap _
    | some n => exact found_more_ends n _

/-- **A scan comes to the line ends before a place**, or to the place, where a line end comes next
in a text without comments. -/
theorem Between.run {front rest : List Char} (h : Between front ('\n' :: rest))
    (hc : IndentLisp.isCommentFree (front ++ '\n' :: rest) = true)
    (ho : (scan none (front ++ '\n' :: rest)).offence? = none) :
    ∃ before j xs m, front = before ++ List.replicate j '\n' ∧
      Passes none before xs m (List.replicate (j + 1) '\n' ++ rest) := by
  rcases (h.located ho).before_lineEnd with ⟨before, j, m, xs, hfront, -, hp⟩ |
    ⟨_, _, _, _, rfl, -, hp⟩
  · exact ⟨before, j, xs, m, hfront, hp⟩
  · rw [List.append_assoc] at hc
    exact absurd hc hp.not_isCommentFree

namespace Respaced

variable {cs cs' : List Char}

/-- An edit brings no comment. -/
theorem isCommentFree (h : Respaced cs cs') (hc : IndentLisp.isCommentFree cs = true) :
    IndentLisp.isCommentFree cs' = true := by
  cases h with
  | @lineEnds front rest k hb =>
    have hrest := hb.isCommentFree hc
    rw [isCommentFree_sign rfl] at hrest
    refine hb.isCommentFree_replace (fun d hd => Or.inr hd) hc ?_
    rw [isCommentFree_sign rfl, isCommentFree_signs]
    · exact hrest
    · intro d hd
      rw [List.eq_of_mem_replicate hd]
      rfl
  | @blanks front rest line hb _ hline =>
    have hline := isBlankLine_iff.mp hline
    refine hb.isCommentFree_replace ?_ hc ?_
    · intro d hd
      cases line with
      | nil => exact Or.inr hd
      | cons c line =>
        obtain rfl : c = d := Option.some.inj hd
        rcases hline c List.mem_cons_self with rfl | rfl <;> exact Or.inl rfl
    · rw [isCommentFree_signs]
      · exact hb.isCommentFree hc
      · intro d hd
        rcases hline d hd with rfl | rfl <;> rfl

/-- **An edit changes nothing of what is found.** -/
theorem found (h : Respaced cs cs') (hc : IndentLisp.isCommentFree cs = true)
    (ho : (scan none cs).offence? = none) : (scan none cs').found = (scan none cs).found := by
  cases h with
  | @lineEnds front rest k hb =>
    obtain ⟨before, j, xs, m, rfl, hp⟩ := hb.run hc ho
    have hp' : Passes none before xs m (List.replicate (j + k + 1) '\n' ++ rest) :=
      hp.replace_ends (j + k) rest
    have hmore : List.replicate (j + k + 1) '\n' ++ rest =
        List.replicate j '\n' ++ '\n' :: (List.replicate k '\n' ++ rest) := by
      rw [Nat.add_assoc, ← List.replicate_append_replicate, List.append_assoc, List.replicate_succ,
        List.cons_append]
    have hrun : List.replicate (j + 1) '\n' ++ rest = List.replicate j '\n' ++ '\n' :: rest := by
      rw [List.replicate_succ', List.append_assoc, List.singleton_append]
    rw [List.append_assoc, List.append_assoc, ← hmore, ← hrun, hp'.found, hp.found, found_run,
      found_run]
  | @blanks front rest line hb hlast hline =>
    cases hb.located ho with
    | @turn m xs hp =>
      cases line with
      | nil => rfl
      | cons c line =>
        have hdelimiter : ∀ d, (c :: line ++ rest).head? = some d → Token.isDelimiter d = true := by
          intro d hd
          obtain rfl : c = d := Option.some.inj hd
          rcases isBlankLine_iff.mp hline c List.mem_cons_self with rfl | rfl <;> rfl
        have hp' := hp.trailing hlast (Or.inr hc) hdelimiter
        rw [hp'.found, hp.found, found_blanks hline]
    | @lineEnds before n j i xs hfront _ =>
      -- Only tabs lie behind on the line.
      rw [hfront, Lines.last_append_ends before j (by simp [List.mem_replicate])] at hlast
      exact absurd (isBlankLine_tabs i) hlast
    | comment hfront _ _ hp =>
      rw [hfront, List.append_assoc] at hc
      exact absurd hc hp.not_isCommentFree

end Respaced

/-! ## 3. Whole texts -/

/-- **Spacing is free in a text without comments.**  After any number of edits of its layout, such a
text is read to the same tree. -/
theorem read_respaced {text text' file : String} {t : Tree} (ht : read text file = .ok t)
    (hc : isCommentFree (Lines.unify text.toList) = true)
    (he : Relation.ReflTransGen Respaced (Lines.unify text.toList) (Lines.unify text'.toList)) :
    read text' file = .ok t := by
  have hkeep : ∀ {cs}, Relation.ReflTransGen Respaced (Lines.unify text.toList) cs →
      (scan none cs).found = (scan none (Lines.unify text.toList)).found ∧
      isCommentFree cs = true := by
    intro cs he
    induction he with
    | refl => exact ⟨rfl, hc⟩
    | tail _ hedit ih =>
      obtain ⟨hfound, hfree⟩ := ih
      have ho := (congrArg Prod.snd hfound).trans (read_eq_ok_iff.mp ht).1
      exact ⟨(hedit.found hfree ho).trans hfound, hedit.isCommentFree hfree⟩
  exact read_of_found (hkeep he).1 ht

theorem read_respaced_indented_line :
    ∃ t, read "f\n\tx" "f" = .ok t ∧ read "f \n\n\tx" "f" = .ok t := by
  have hread : read "f\n\tx" "f" = .ok (draftOf "f\n\tx").tree.unwrap :=
    read_eq_ok_iff.mpr ⟨by decide +kernel, rfl⟩
  have htext : Lines.unify "f\n\tx".toList = ['f'] ++ ['\n', '\t', 'x'] := by decide
  have htext' : Lines.unify "f \n\n\tx".toList =
      ['f', ' '] ++ '\n' :: (List.replicate 1 '\n' ++ ['\t', 'x']) := by decide
  have hfree : isCommentFree (Lines.unify "f\n\tx".toList) = true := by decide +kernel
  have hf : ∀ {rest}, Token.length? ('f' :: rest) = some 1 → Between ['f'] rest :=
    fun hk => Between.token (by decide) hk (.start _)
  -- A blank at the end of the first line, and then an empty line after it.
  have hblank : Respaced (['f'] ++ ['\n', '\t', 'x']) (['f'] ++ ([' '] ++ ['\n', '\t', 'x'])) :=
    .blanks (hf (by decide)) (by decide) (by decide)
  have hline : Respaced (['f', ' '] ++ '\n' :: ['\t', 'x'])
      (['f', ' '] ++ '\n' :: (List.replicate 1 '\n' ++ ['\t', 'x'])) :=
    .lineEnds 1 (.sign (by decide) (hf (by decide)))
  refine ⟨_, hread, read_respaced hread hfree ?_⟩
  rw [htext, htext']
  exact (Relation.ReflTransGen.single hblank).tail hline

end IndentLisp
