/-
# Blank lines

The specification has a block count the tabs after a run of line breaks (section 4, block
processing), and it does so before it looks at what the line holds.  To a reader between blocks, in
a classic block, and after a comment in a block, a line that is empty and one that holds blanks are
therefore the same.  In an indented block they are not: the tabs that are counted are those of the
first line that is not empty, and **a line of blanks is not empty**.  Without a tab it ends the
block; with tabs it is a line of its own, which starts lists.

Emptying such a line makes no difference just if the lists that it starts are ones that the next
line is in anyhow (`read_emptied`).  That the condition is enough is a matter of following both
texts up to the line, and of putting what is found there into the form that the tabs of the next
line tell (`found_emptied_iff`).  That it is needed comes from the tree: where the strokes differ
the trees say different things (`found_line_of_data`), since an indented block has drawn something
before its first line break.

Nothing is claimed of a line of blanks within a token: what is emptied there is a part of a string.

* `Overlooked`: what the tabs tell of a line of blanks and of the next line.
* `found_emptied_iff`: an indented block with such a line and without it.
* `read_emptied`: emptying a line of a text.
* `blank_line_starts_a_list`: the smallest text where that makes a difference.
-/
import IndentLisp.Proofs.Reader.Retrace

namespace IndentLisp

/-! ## 1. Emptying a line -/

/-- **Whether a block of such a depth reads what comes after a line of blanks as if the line were
empty.**  Neither this line nor the next one has a tab, and the block is over; or the next line is
deeper than this one, which is deeper than the block. -/
def Overlooked (depth : Nat) (line next : List Char) : Prop :=
  tabsOf line = 0 ∧ nextTabs next = 0 ∨ depth < tabsOf line ∧ tabsOf line < nextTabs next

/-- **An indented block finds the same where a line of blanks is emptied** just if the line is
overlooked. -/
theorem found_emptied_iff {n : Nesting} {line rest : List Char} (hs : n.style = .indented) (j : Nat)
    (hb : isBlankLine line = true) (hne : line ≠ [])
    (hrest : ∀ c, rest.head? = some c → c = '\n') :
    (scan (some n) (List.replicate (j + 1) '\n' ++ rest)).found =
        (scan (some n) (List.replicate (j + 1) '\n' ++ (line ++ rest))).found ↔
      Overlooked n.depth line rest := by
  have hn : (line ++ rest).head? ≠ some '\n' := by
    obtain ⟨c, cs, rfl⟩ := List.exists_cons_of_ne_nil hne
    rcases isBlankLine_iff.mp hb c List.mem_cons_self with rfl | rfl <;> simp
  have ht : rest.head? ≠ some '\t' := fun h => absurd (hrest _ h) (by decide)
  rw [found_nextLine hs j rest, found_blankStart hs j hb hn ht, Overlooked]
  by_cases h0 : tabsOf line = 0
  · rw [h0, found_ended_iff hs rest, and_iff_right rfl,
      or_iff_left fun h => absurd h.1 (Nat.not_lt_zero _)]
  · rw [found_between_iff hs h0 hrest, or_iff_right fun h => h0 h.1]

/-! ## 2. Whole texts -/

/-- **Whether a reader overlooks a line** of blanks, with what comes after it, wherever it meets
line ends before that in an indented block. -/
def Reader.Overlooks (text file : String) (line rest : List Char) : Prop :=
  ∀ k b r j, Visits text file k (some b) r → b.style = .indented →
    r.cursor.ahead = List.replicate (j + 1) '\n' ++ (line ++ rest) → Overlooked b.depth line rest

section Text

variable {text text' file : String} {before line rest : List Char}

/-- **What is found in a text stays the same where an overlooked line is emptied.** -/
theorem found_emptied (htext : Lines.unify text.toList = before ++ ['\n'] ++ (line ++ rest))
    (hstart : Passes.LineStart (before ++ ['\n']) (line ++ rest)) (hb : isBlankLine line = true)
    (hne : line ≠ []) (hrest : ∀ c, rest.head? = some c → c = '\n')
    (htext' : Lines.unify text'.toList = before ++ ['\n'] ++ rest)
    (hover : Reader.Overlooks text file line rest) :
    (scanText text').found = (scanText text).found := by
  -- What is replaced is all that comes after the line end.
  have hnil : before ++ ['\n'] ++ [] = before ++ ['\n'] := List.append_nil _
  have hlast : Lines.last (before ++ ['\n'] ++ []) = [] := by
    rw [hnil, Lines.last_append_lineEnd]
  rw [← hnil] at hstart
  refine found_of_lineStart file hstart hlast htext htext'
    (fun m => (found_blanks hb m rest).symm) fun k n handle r j hv hs ha _ => ?_
  exact (found_emptied_iff hs j hb hne hrest).mpr (hover k _ r j hv hs ha)

/-- **A line is overlooked if the text says the same without it.** -/
theorem overlooks_of_data {t t' : Tree} (ht : read text file = .ok t)
    (ht' : read text' file = .ok t') (hdata : t'.data = t.data)
    (htext : Lines.unify text.toList = before ++ ['\n'] ++ (line ++ rest))
    (hb : isBlankLine line = true) (hne : line ≠ [])
    (hrest : ∀ c, rest.head? = some c → c = '\n')
    (htext' : Lines.unify text'.toList = before ++ ['\n'] ++ rest) :
    Reader.Overlooks text file line rest := by
  intro k b r j hv hs ha
  obtain ⟨n, hn, hdepth, -, hfound⟩ := found_line_of_data ht ht' hdata hv hs ha htext htext'
  rw [← hdepth]
  exact (found_emptied_iff hn j hb hne hrest).mp hfound

end Text

/-- **Emptying lines.**  In a text that is read to a tree, let a line end between lexemes come
before a line that holds blanks and nothing else.  The text with that line empty is read to the same
tree if the reader overlooks the line, and to one that says the same just if it does. -/
theorem read_emptied {text text' file : String} {t : Tree} {before line rest : List Char}
    (ht : read text file = .ok t)
    (htext : Lines.unify text.toList = before ++ '\n' :: (line ++ rest))
    (hplace : Between before ('\n' :: (line ++ rest))) (hb : isBlankLine line = true)
    (hne : line ≠ []) (hrest : ∀ c, rest.head? = some c → c = '\n')
    (htext' : Lines.unify text'.toList = before ++ '\n' :: rest) :
    (Reader.Overlooks text file line rest → read text' file = .ok t) ∧
      ∀ t', read text' file = .ok t' → t'.data = t.data → Reader.Overlooks text file line rest := by
  have ho : (scan none (before ++ '\n' :: (line ++ rest))).offence? = none := by
    rw [← htext]
    exact (read_eq_ok_iff.mp ht).1
  have hstart := hplace.lineStart ho
  rw [List.append_cons] at htext htext'
  constructor
  · intro hover
    exact read_of_found (found_emptied htext hstart hb hne hrest htext' hover) ht
  · intro t' ht' hdata
    exact overlooks_of_data ht ht' hdata htext hb hne hrest htext'

theorem read_emptied_before_a_deeper_line :
    ∃ t, read "a\n\t\n\t\tb" "f" = .ok t ∧ read "a\n\n\t\tb" "f" = .ok t := by
  have hread : read "a\n\t\n\t\tb" "f" = .ok (draftOf "a\n\t\n\t\tb").tree.unwrap :=
    read_eq_ok_iff.mpr ⟨by decide +kernel, rfl⟩
  have hread' : read "a\n\n\t\tb" "f" = .ok (draftOf "a\n\n\t\tb").tree.unwrap :=
    read_eq_ok_iff.mpr ⟨by decide +kernel, rfl⟩
  have hdata : (draftOf "a\n\n\t\tb").tree.unwrap.data =
      (draftOf "a\n\t\n\t\tb").tree.unwrap.data := by
    decide +kernel
  have htext : Lines.unify "a\n\t\n\t\tb".toList =
      ['a'] ++ '\n' :: (['\t'] ++ ['\n', '\t', '\t', 'b']) := by
    decide
  have htext' : Lines.unify "a\n\n\t\tb".toList =
      ['a'] ++ '\n' :: ['\n', '\t', '\t', 'b'] := by decide
  have hplace : Between ['a'] ('\n' :: (['\t'] ++ ['\n', '\t', '\t', 'b'])) :=
    Between.token (by decide) (by decide : Token.length? ('a' :: _) = some 1) (.start _)
  obtain ⟨hsame, hover⟩ := read_emptied hread htext hplace (by decide) (by decide) (by simp) htext'
  exact ⟨_, hread, hsame (hover _ hread' hdata)⟩

/-- The tab of a line of blanks starts a list in an indented block, and the next line starts another
one. -/
theorem blank_line_starts_a_list :
    ∃ t t', read "a\n\t\n\tb" "f" = .ok t ∧
      Lines.unify "a\n\t\n\tb".toList = ['a'] ++ '\n' :: (['\t'] ++ ['\n', '\t', 'b']) ∧
      Between ['a'] ('\n' :: (['\t'] ++ ['\n', '\t', 'b'])) ∧ isBlankLine ['\t'] = true ∧
      Lines.unify "a\n\n\tb".toList = ['a'] ++ '\n' :: ['\n', '\t', 'b'] ∧
      read "a\n\n\tb" "f" = .ok t' ∧ t'.data ≠ t.data := by
  have hread : read "a\n\t\n\tb" "f" = .ok (draftOf "a\n\t\n\tb").tree.unwrap :=
    read_eq_ok_iff.mpr ⟨by decide +kernel, rfl⟩
  have hread' : read "a\n\n\tb" "f" = .ok (draftOf "a\n\n\tb").tree.unwrap :=
    read_eq_ok_iff.mpr ⟨by decide +kernel, rfl⟩
  have hdata : (draftOf "a\n\n\tb").tree.unwrap.data ≠ (draftOf "a\n\t\n\tb").tree.unwrap.data := by
    decide +kernel
  have hplace : Between ['a'] ('\n' :: (['\t'] ++ ['\n', '\t', 'b'])) :=
    Between.token (by decide) (by decide : Token.length? ('a' :: _) = some 1) (.start _)
  exact ⟨_, _, hread, by decide, hplace, by decide, by decide, hread', hdata⟩

end IndentLisp
