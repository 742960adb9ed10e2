/-
# How a line starts

Where only blanks lie behind a scan on its line, the turns that it took on that line passed blanks
and nothing else.  So there are two ways in which it came to the line (`Passes.lineStart`): either
**any text could stand there** in place of the line, as between blocks and after a comment in a
block, or the line ends before it were those of a block, which looks at the tabs after them.

That is the question wherever a line is taken out or put in that holds blanks or a comment.  In the
first case the reader comes to the line as it would come to any other, and nothing about the line
end before it was decided by the line.  In the second it was: the line ends of the block, and what
it draws after them, have been read together with the tabs of the line.

Where something else lies behind on the line, a token or a parenthesis, the turn that passed it has
not looked beyond a delimiter, and the rest can be replaced by whatever starts with one
(`Passes.trailing`); only a comment behind would be changed by that.

* `isBlankLine`: a line of blanks; it may be empty.
* `Passes.LineStart`: the two ways.
* `Between.lineStart`: every line that starts after a line end between lexemes starts in one of
  them.
* `Passes.blank_of_none`: between blocks, only blanks lie behind on the line.
-/
import IndentLisp.Proofs.Reader.Places
import IndentLisp.Proofs.Text.Lines

namespace IndentLisp

/-- Whether a line holds blanks only. -/
def isBlankLine (cs : List Char) : Bool :=
  cs.all fun c => c = ' ' || c = '\t'

theorem isBlankLine_iff {cs : List Char} :
    isBlankLine cs = true ↔ ∀ c ∈ cs, c = ' ' ∨ c = '\t' := by
  simp [isBlankLine]

theorem isBlankLine_append {cs ds : List Char} :
    isBlankLine (cs ++ ds) = true ↔ isBlankLine cs = true ∧ isBlankLine ds = true := by
  simp [isBlankLine, List.all_append]

namespace Lines

/-- After a line end a line starts. -/
theorem last_append_lineEnd (cs : List Char) : last (cs ++ ['\n']) = [] := by
  rw [last_append_singleton, if_pos rfl]

/-- A blank joins the last line of a text. -/
theorem last_append_blank {c : Char} (hc : c = ' ' ∨ c = '\t') (cs : List Char) :
    last (cs ++ [c]) = last cs ++ [c] := by
  have hn : c ≠ '\n' := by rcases hc with rfl | rfl <;> decide
  rw [last_append_singleton, if_neg hn]

/-- A line that ends with something else is not blank. -/
theorem not_isBlankLine_last {cs : List Char} {z : Char} (hz : z ≠ ' ' ∧ z ≠ '\t' ∧ z ≠ '\n') :
    ¬ isBlankLine (last (cs ++ [z])) = true := by
  rw [last_append_singleton, if_neg hz.2.2, isBlankLine_append]
  rintro ⟨-, h⟩
  simp [isBlankLine, hz.1, hz.2.1] at h

/-- After line ends, the last line is what comes after them. -/
theorem last_append_ends (cs : List Char) (j : Nat) {ds : List Char} (hd : '\n' ∉ ds) :
    last (cs ++ (List.replicate (j + 1) '\n' ++ ds)) = ds := by
  rw [List.replicate_succ', List.append_assoc, ← List.append_assoc, List.singleton_append,
    last_append_cons, last_of_notMem hd]

/-- After a blank, the last line is blank if it was before. -/
theorem isBlankLine_last_append {c : Char} (hc : c = ' ' ∨ c = '\t') (cs : List Char) :
    isBlankLine (last (cs ++ [c])) = true ↔ isBlankLine (last cs) = true := by
  rw [last_append_blank hc, isBlankLine_append]
  exact and_iff_left (isBlankLine_iff.mpr (by simpa using hc))

end Lines

/-- The last line after line ends and tabs. -/
theorem Nesting.last_breakLine (n : Nesting) (front cs : List Char) :
    ∃ k, Lines.last (front ++ ('\n' :: cs).take (n.breakLine ('\n' :: cs)).passed) =
      List.replicate k '\t' := by
  obtain ⟨j, k, hchunk⟩ := n.take_breakLine cs
  refine ⟨k, ?_⟩
  rw [hchunk]
  exact Lines.last_append_ends front j (by simp [List.mem_replicate])

theorem isBlankLine_tabs (k : Nat) : isBlankLine (List.replicate k '\t') = true :=
  isBlankLine_iff.mpr fun _ hc => Or.inr (List.eq_of_mem_replicate hc)

namespace Passes

variable {front rest : List Char} {xs : List Stroke} {m : Option Nesting}

/-- **Between blocks, only blanks lie behind on the line**, if the line is not over.  A block that
was on the line has ended with it, and a comment between blocks goes up to the line end. -/
theorem blank_of_none (h : Passes none front xs m rest) (hm : m = none) {d : Char}
    (hd : rest.head? = some d) (hn : d ≠ '\n') : isBlankLine (Lines.last front) = true := by
  induction h generalizing d with
  | refl => rfl
  | @turn front xs m' c cs v hp hv ih =>
    cases turn_of_move hv with
    | gap hc =>
      show isBlankLine (Lines.last (front ++ [c])) = true
      by_cases hc' : c = '\n'
      · rw [Lines.last_append_singleton, if_pos hc']
        rfl
      · have hb : c = ' ' ∨ c = '\t' := by simpa [hc'] using hc
        exact (Lines.isBlankLine_last_append hb front).mpr (ih rfl rfl hc')
    | remark =>
      -- A comment between blocks goes up to the line end.
      rw [lineLength_comment, List.drop_succ_cons] at hd
      rcases drop_lineLength cs with hnil | ⟨ds, hds⟩
      · simp [hnil] at hd
      · rw [hds] at hd
        exact absurd (Option.some.inj hd).symm hn
    | @lineEnd n _ =>
      obtain ⟨k, hk⟩ := n.last_breakLine front cs
      rw [hk]
      exact isBlankLine_tabs k
    | classic | indented | opening | closing | blank | comment | token => cases hm

/-- A parenthesis is nothing of a blank line, and neither is a token. -/
theorem not_blank_of_turn {front : List Char} {m : Option Nesting} {c : Char} {cs : List Char}
    {v : Move} (hv : move m c cs = .ok v)
    (hb : isBlankLine (Lines.last (front ++ (c :: cs).take v.passed)) = true) :
    c = ' ' ∨ c = '\t' ∨ c = '\n' ∨ c = ';' ∨ v.passed = 0 := by
  cases turn_of_move hv with
  | gap hc => rcases hc with hc | hc | hc <;> simp [hc]
  | remark | comment | lineEnd => simp
  | indented => simp
  | blank hc => rcases hc with hc | hc <;> simp [hc]
  | classic | opening | closing => exact absurd hb (Lines.not_isBlankLine_last (by decide))
  | token _ hk =>
    obtain ⟨init, z, htake, hz⟩ := Token.last_of_length? hk
    rw [htake, ← List.append_assoc] at hb
    exact absurd hb (Lines.not_isBlankLine_last hz)

/-- **How a line starts** on which only blanks lie behind.  Any text could stand where it starts, or
the line ends before it are those of a block.  In the second case the scan comes to these line ends,
and what it does there depends on the line. -/
inductive LineStart (front rest : List Char) : Prop
  | free {before : List Char} {m : Option Nesting} {xs : List Stroke} :
      front = before ++ Lines.last front → (∀ rest', Passes none before xs m rest') →
      LineStart front rest
  | block {before : List Char} {n : Nesting} {j : Nat} {xs : List Stroke} :
      front = before ++ (List.replicate (j + 1) '\n' ++ Lines.last front) →
      Passes none before xs (some n) (List.replicate (j + 1) '\n' ++ (Lines.last front ++ rest)) →
      LineStart front rest

/-- A blank on the line changes nothing about its start. -/
theorem LineStart.blank {front cs : List Char} {c : Char} (hc : c = ' ' ∨ c = '\t')
    (h : LineStart front (c :: cs)) : LineStart (front ++ [c]) cs := by
  have hlast := Lines.last_append_blank hc front
  cases h with
  | @free before m xs hfront hfree =>
    have hfront' : front ++ [c] = before ++ Lines.last (front ++ [c]) := by
      rw [hlast, ← List.append_assoc, ← hfront]
    exact .free hfront' hfree
  | @block before n j xs hfront hp =>
    have hfront' : front ++ [c] =
        before ++ (List.replicate (j + 1) '\n' ++ Lines.last (front ++ [c])) := by
      rw [hlast, ← List.append_assoc, ← List.append_assoc, List.append_assoc before, ← hfront]
    have hp' : Passes none before xs (some n)
        (List.replicate (j + 1) '\n' ++ (Lines.last (front ++ [c]) ++ cs)) := by
      rw [hlast, List.append_assoc, List.singleton_append]
      exact hp
    exact .block hfront' hp'

/-- A line that starts at a place where any text could stand. -/
theorem LineStart.of_free {front rest : List Char} {m : Option Nesting} {xs : List Stroke}
    (hl : Lines.last front = []) (h : ∀ rest', Passes none front xs m rest') :
    LineStart front rest := by
  refine .free ?_ h
  rw [hl, List.append_nil]

/-- A line after line ends of a block. -/
theorem LineStart.of_ends {before front cs : List Char} {n : Nesting} {j : Nat} {xs : List Stroke}
    (hfront : front = before ++ List.replicate (j + 1) '\n')
    (h : Passes none before xs (some n) (List.replicate (j + 1) '\n' ++ cs)) :
    LineStart front cs := by
  have hlast : Lines.last front = [] := by
    have hends : Lines.last (before ++ (List.replicate (j + 1) '\n' ++ [])) = [] :=
      Lines.last_append_ends before j (by simp)
    rwa [List.append_nil, ← hfront] at hends
  have hfront' : front = before ++ (List.replicate (j + 1) '\n' ++ Lines.last front) := by
    rw [hlast, List.append_nil, ← hfront]
  have h' : Passes none before xs (some n)
      (List.replicate (j + 1) '\n' ++ (Lines.last front ++ cs)) := by
    rwa [hlast, List.nil_append]
  exact .block hfront' h'

/-- A line after a line end that a scan comes to. -/
theorem LineStart.of_lineEnd {front cs : List Char} {m : Option Nesting} {xs : List Stroke}
    (h : Passes none front xs m ('\n' :: cs)) : LineStart (front ++ ['\n']) cs := by
  cases m with
  | none =>
    exact .of_free (Lines.last_append_lineEnd front) fun rest' => turn (h.replace rfl (Or.inl rfl))
      (move_gap (by simp) rest')
  | some n =>
    have hfront : front ++ ['\n'] = front ++ List.replicate (0 + 1) '\n' := rfl
    exact .of_ends hfront h

/-- A comment in a block that something follows has a line end, after which the last line is
empty. -/
theorem last_comment (front : List Char) {cs : List Char} {d : Char}
    (hd : ((';' :: cs).drop (lineLength (';' :: cs) + 1)).head? = some d) :
    ∃ ds, cs.drop (lineLength cs) = '\n' :: ds ∧
      Lines.last (front ++ (';' :: cs).take (lineLength (';' :: cs) + 1)) = [] := by
  rw [lineLength_comment] at hd ⊢
  rcases drop_lineLength cs with hnil | ⟨ds, hds⟩
  · rw [List.drop_succ_cons, ← List.drop_drop, hnil] at hd
    cases hd
  · refine ⟨ds, hds, ?_⟩
    have htake : (';' :: cs).take (lineLength cs + 1 + 1) =
        (';' :: cs.take (lineLength cs)) ++ ['\n'] := by
      rw [List.take_succ_cons, List.take_add, hds]
      rfl
    rw [htake, ← List.append_assoc, Lines.last_append_lineEnd]

/-- **Where only blanks lie behind on a line**, and a blank or a comment comes next, the turns on
the line passed blanks and nothing else.  The induction is on the way to the place, by what the last
turn passed. -/
theorem lineStart (h : Passes none front xs m rest) {d : Char} (hd : rest.head? = some d)
    (hds : d = ' ' ∨ d = '\t' ∨ d = ';') (hb : isBlankLine (Lines.last front) = true) :
    LineStart front rest := by
  induction h generalizing d with
  | refl => exact .of_free rfl fun _ => .refl
  | @turn front xs m' c cs v hp hv ih =>
    have hother := not_blank_of_turn hv hb
    have hblank : c = ' ' ∨ c = '\t' → isBlankLine (Lines.last (front ++ [c])) = true →
        LineStart (front ++ [c]) cs := fun hc hb =>
      (ih rfl (or_assoc.mp (Or.inl hc)) ((Lines.isBlankLine_last_append hc front).mp hb)).blank hc
    cases turn_of_move hv with
    | gap hc =>
      by_cases hc' : c = '\n'
      · subst hc'
        exact .of_lineEnd hp
      · exact hblank (by simpa [hc'] using hc) hb
    | blank hc => exact hblank hc hb
    | @lineEnd n _ =>
      obtain ⟨j, k, hchunk⟩ := n.take_breakLine cs
      have hlast : Lines.last (front ++ ('\n' :: cs).take (n.breakLine ('\n' :: cs)).passed) =
          List.replicate k '\t' := by
        rw [hchunk]
        exact Lines.last_append_ends front j (by simp [List.mem_replicate])
      have hpasses : Passes none front xs (some n) (List.replicate (j + 1) '\n' ++
          (List.replicate k '\t' ++ ('\n' :: cs).drop (n.breakLine ('\n' :: cs)).passed)) := by
        rw [← List.append_assoc, ← hchunk, List.take_append_drop]
        exact hp
      rw [← hlast] at hpasses
      refine .block ?_ hpasses
      rw [hlast, hchunk]
    | @comment n _ =>
      obtain ⟨ds, hds, hlast⟩ := last_comment front hd
      have hfree : ∀ rest', Passes none (front ++ (';' :: cs).take (lineLength (';' :: cs) + 1))
          (xs ++ []) (some n) rest' := by
        intro rest'
        obtain ⟨cs', hv', ht, hdrop⟩ := move_comment_replace n hds rest'
        exact turn_of_parts (hp.replace rfl (Or.inl rfl)) hv' ht hdrop
      exact .of_free hlast hfree
    | remark =>
      -- A comment between blocks goes up to the line end.
      rw [lineLength_comment, List.drop_succ_cons] at hd
      rcases drop_lineLength cs with hnil | ⟨ds, hds'⟩
      · simp [hnil] at hd
      · rw [hds'] at hd
        cases hd
        exact absurd hds (by decide)
    | indented hc _ =>
      cases hd
      exact absurd hds (by simp [hc])
    | classic | opening | closing => exact absurd hother (by simp)
    | token hc hk =>
      obtain ⟨-, -, h1, h2, h3, h4⟩ := Token.isStart_iff.mp hc
      simp [h1, h2, h3, h4, Nat.ne_of_gt (Token.length?_pos hk)] at hother

/-- **Where something else lies behind on the line**, and not a comment, the rest can be replaced by
nothing, and by a text that starts with a delimiter.  A comment behind would take the replaced text
in. -/
theorem trailing (h : Passes none front xs m rest) (hb : isBlankLine (Lines.last front) ≠ true)
    (hc : (∃ d, rest.head? = some d ∧ d ≠ '\n') ∨ IndentLisp.isCommentFree (front ++ rest) = true)
    {rest' : List Char} (hr : ∀ e, rest'.head? = some e → Token.isDelimiter e = true) :
    Passes none front xs m rest' := by
  cases h with
  | refl => exact absurd rfl hb
  | @turn front xs m' c cs v hp hv =>
    have hplain : v.passed ≠ 0 → c ≠ '\n' → c ≠ ';' →
        Passes none (front ++ (c :: cs).take v.passed) (xs ++ v.strokes) v.next rest' :=
      fun h0 hn hs => hp.replace_plain hv h0 hn hs hr
    rw [List.append_assoc, List.take_append_drop] at hc
    have hcomment : c = ';' → IndentLisp.isCommentFree (front ++ c :: cs) ≠ true := by
      rintro rfl
      exact hp.not_isCommentFree
    cases turn_of_move hv with
    | gap hgap =>
      by_cases hn : c = '\n'
      · subst hn
        exact absurd (congrArg isBlankLine (Lines.last_append_lineEnd front)) hb
      · exact hplain Nat.one_ne_zero hn (by rintro rfl; simp at hgap)
    | remark =>
      -- A comment between blocks goes up to the line end.
      obtain ⟨d, hd, hn⟩ := hc.resolve_right (hcomment rfl)
      rw [lineLength_comment, List.drop_succ_cons] at hd
      rcases drop_lineLength cs with hnil | ⟨ds, hds⟩
      · simp [hnil] at hd
      · rw [hds] at hd
        exact absurd (Option.some.inj hd).symm hn
    | indented hother _ =>
      rw [List.take_zero, List.append_nil] at hb
      exact absurd (hp.blank_of_none rfl rfl hother.2.2.1) hb
    | @lineEnd n _ =>
      obtain ⟨k, hk⟩ := n.last_breakLine front cs
      rw [hk] at hb
      exact absurd (isBlankLine_tabs k) hb
    | @comment n _ =>
      obtain ⟨d, hd, -⟩ := hc.resolve_right (hcomment rfl)
      obtain ⟨ds, -, hlast⟩ := last_comment front hd
      rw [hlast] at hb
      exact absurd rfl hb
    | classic => exact hplain Nat.one_ne_zero (by decide) (by decide)
    | opening => exact hplain Nat.one_ne_zero (by decide) (by decide)
    | closing => exact hplain Nat.one_ne_zero (by decide) (by decide)
    | blank hblank =>
      exact hplain Nat.one_ne_zero (by rcases hblank with rfl | rfl <;> decide)
        (by rcases hblank with rfl | rfl <;> decide)
    | token hstart hk =>
      obtain ⟨-, -, -, -, hn, hs⟩ := Token.isStart_iff.mp hstart
      exact hplain (Nat.ne_of_gt (Token.length?_pos hk)) hn hs

end Passes

/-- **How a line starts** after a line end between lexemes. -/
theorem Between.lineStart {front cs : List Char} (h : Between front ('\n' :: cs))
    (ho : (scan none (front ++ '\n' :: cs)).offence? = none) :
    Passes.LineStart (front ++ ['\n']) cs := by
  rcases (h.located ho).before_lineEnd with ⟨before, j, m, xs, rfl, hm, hp⟩ |
    ⟨_, _, _, _, rfl, hline, hp⟩
  · cases m with
    | none =>
      obtain rfl : j = 0 := hm rfl
      rw [List.replicate_zero, List.append_nil]
      exact .of_lineEnd hp
    | some n =>
      have hfront : before ++ List.replicate j '\n' ++ ['\n'] =
          before ++ List.replicate (j + 1) '\n' := by
        rw [List.replicate_succ', List.append_assoc]
      exact .of_ends hfront hp
  · exact .of_free (Lines.last_append_lineEnd _) fun rest' => hp.pastComment hline rest'

end IndentLisp
