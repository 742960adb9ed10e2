/-
# From one line to the next

What a scan finds in a text is told here by what stands at its front.  Blanks and comments draw
nothing, wherever they stand (`found_dropRemarks`).  In a block a comment takes the line end after
it along, so that the lines around it are one line to the reader.

Line ends are another matter.  Between blocks they draw nothing, and neither do they in a classic
block in which a parenthesis is open; any other classic block they end.  In an indented block they
are read together with the tabs of the first line after them that is not empty: without tabs the
block is over, and with tabs it goes on, after strokes that the depth of the block and the number of
tabs determine (`Nesting.lineStrokes`).  So **what is found after line ends in an indented block is
told by the tabs of the next line, and by what comes after them** (`found_nextLine`).

These are the rules of the specification for a newline and for a comment (section 4, block
processing), told from the text alone.  Criteria for an edit to keep a tree are read off them: the
two texts are followed up to the edit, and from there each is put into this form.

* `nextLines`, `dropRemarks`: what comes after a comment, and after blanks and comments.
* `nextTabs`, `nextText`: the tabs of the next line, and what comes after them.
* `found_ends`: line ends that end a block.
* `Nesting.lineStrokes_deeper`, `Nesting.deeper_of_length`: a line between two others that draws
  nothing of its own.
-/
import IndentLisp.Proofs.Reader.LineStart
import IndentLisp.Proofs.Reader.Position
import IndentLisp.Proofs.Reader.Spot

namespace IndentLisp

/-! ## 1. Blanks and comments -/

/-- What comes after the line at the front of a text. -/
def nextLines (cs : List Char) : List Char :=
  cs.drop (lineLength cs + 1)

theorem nextLines_comment (cs : List Char) : nextLines (';' :: cs) = nextLines cs := by
  rw [nextLines, lineLength_comment, List.drop_succ_cons, nextLines]

/-- What comes after the characters at the front of a text that pass a test, and after the comments
among them, which take their line ends along. -/
def dropThrough (p : Char → Bool) : List Char → List Char
  | [] => []
  | c :: cs =>
    if p c then dropThrough p cs
    else if c = ';' then dropThrough p (nextLines cs)
    else c :: cs
termination_by cs => cs.length
decreasing_by
  · exact Nat.lt_succ_self _
  · rw [nextLines, List.length_drop, List.length_cons]
    omega

/-- What comes after the blanks and comments at the front of a text. -/
def dropRemarks (cs : List Char) : List Char :=
  dropThrough (fun c => c = ' ' ∨ c = '\t') cs

/-- What is left starts with no character that is dropped. -/
theorem head_dropThrough {p : Char → Bool} {cs ds : List Char} {c : Char}
    (h : dropThrough p cs = c :: ds) : p c = false ∧ c ≠ ';' := by
  fun_induction dropThrough p cs with
  | case1 => cases h
  | case2 d cs hd ih => exact ih h
  | case3 cs hd ih => exact ih h
  | case4 d cs hd hs =>
    cases h
    exact ⟨(Bool.not_eq_true _).mp hd, hs⟩

theorem head_dropRemarks {cs ds : List Char} {c : Char} (h : dropRemarks cs = c :: ds) :
    c ≠ ' ' ∧ c ≠ '\t' ∧ c ≠ ';' := by
  obtain ⟨hb, hs⟩ := head_dropThrough h
  rw [decide_eq_false_iff_not, not_or] at hb
  exact ⟨hb.1, hb.2, hs⟩

/-- A blank draws nothing. -/
theorem found_blank {c : Char} (hc : c = ' ' ∨ c = '\t') (m : Option Nesting) (cs : List Char) :
    (scan m (c :: cs)).found = (scan m cs).found := by
  exact found_of_move (move_anyBlank hc m cs)

theorem found_blanks {line : List Char} (hb : isBlankLine line = true) (m : Option Nesting)
    (cs : List Char) : (scan m (line ++ cs)).found = (scan m cs).found := by
  induction line with
  | nil => rfl
  | cons c line ih =>
    obtain ⟨hc, hline⟩ := List.forall_mem_cons.mp (isBlankLine_iff.mp hb)
    rw [List.cons_append, found_blank hc, ih (isBlankLine_iff.mpr hline)]

theorem offence_blanks {line : List Char} (hb : isBlankLine line = true) (m : Option Nesting)
    (cs : List Char) : (scan m (line ++ cs)).offence? = (scan m cs).offence? :=
  congrArg Prod.snd (found_blanks hb m cs)

/-- A line end between blocks draws nothing. -/
theorem found_gap (cs : List Char) : (scan none ('\n' :: cs)).found = (scan none cs).found :=
  found_of_move (move_gap (by simp) cs)

/-- A comment draws nothing, and neither does its line end. -/
theorem found_comment (m : Option Nesting) (cs : List Char) :
    (scan m (';' :: cs)).found = (scan m (nextLines cs)).found := by
  cases m with
  | some n =>
    have hmove : move (some n) ';' cs = .ok ⟨lineLength cs + 2, [], some n⟩ := by
      simp [move, Nesting.move, lineLength_comment]
    exact found_of_move hmove
  | none =>
    have hmove : move none ';' cs = .ok ⟨lineLength cs + 1, [], none⟩ := by
      simp [move, moveBetween_comment, lineLength_comment]
    rw [found_of_move hmove, List.drop_succ_cons, nextLines, ← List.drop_drop]
    rcases drop_lineLength cs with hnil | ⟨ds, hds⟩
    · rw [hnil]
      rfl
    · rw [hds, found_gap]
      rfl

/-- **Blanks and comments draw nothing.** -/
theorem found_dropRemarks (m : Option Nesting) (cs : List Char) :
    (scan m (dropRemarks cs)).found = (scan m cs).found := by
  unfold dropRemarks
  fun_induction dropThrough (fun c => c = ' ' ∨ c = '\t') cs with
  | case1 => rfl
  | case2 c cs hc ih => rw [ih, found_blank (of_decide_eq_true hc)]
  | case3 cs hc ih => rw [ih, found_comment]
  | case4 => rfl

theorem offence_dropRemarks (m : Option Nesting) (cs : List Char) :
    (scan m (dropRemarks cs)).offence? = (scan m cs).offence? :=
  congrArg Prod.snd (found_dropRemarks m cs)

/-! ## 2. Line ends -/

/-- Line ends in a classic block that goes on draw nothing. -/
theorem found_open_ends {n : Nesting} (hs : n.style = .classic) (h0 : n.opened ≠ 0) (j : Nat)
    (cs : List Char) :
    (scan (some n) (List.replicate j '\n' ++ cs)).found = (scan (some n) cs).found := by
  have hrun : ∀ (i : Nat) (rest : List Char), rest.head? ≠ some '\n' →
      (scan (some n) (List.replicate i '\n' ++ rest)).found = (scan (some n) rest).found := by
    intro i rest hn
    cases i with
    | zero => rfl
    | succ i =>
      have hmove : move (some n) '\n' (List.replicate i '\n' ++ rest) =
          .ok ⟨i + 1, [], some n⟩ := by
        have hopen := Nesting.breakLine_open i hs h0 hn
        rw [List.replicate_succ, List.cons_append] at hopen
        rw [move_breakLine, hopen]
      rw [List.replicate_succ, List.cons_append, found_of_move hmove, List.drop_succ_cons, drop_run]
  obtain ⟨i, rest, rfl, hn⟩ := exists_run '\n' cs
  rw [← List.append_assoc, List.replicate_append_replicate, hrun (j + i) rest hn, hrun i rest hn]

/-- One line end more or less in a run is the same. -/
theorem found_more_ends (n : Nesting) (cs : List Char) :
    (scan (some n) ('\n' :: '\n' :: cs)).found = (scan (some n) ('\n' :: cs)).found := by
  have hbreak : n.breakLine ('\n' :: '\n' :: cs) =
      { n.breakLine ('\n' :: cs) with passed := (n.breakLine ('\n' :: cs)).passed + 1 } := by
    unfold Nesting.breakLine
    simp only [List.takeWhile_cons, decide_true, if_true, List.length_cons, List.drop_succ_cons]
    cases n.style with
    | classic => by_cases h0 : n.opened = 0 <;> simp only [h0, if_true, if_false]
    | indented =>
      cases ((cs.drop (cs.takeWhile (· = '\n')).length).takeWhile (· = '\t')).length with
      | zero => rfl
      | succ tabs => simp only [Nat.add_right_comm]
  rw [scan_ok (move_breakLine n _), scan_ok (move_breakLine n _), hbreak, List.drop_succ_cons]
  rfl

/-- What is found after line ends that end a block. -/
theorem found_ends {n : Nesting} {cs : List Char} (j : Nat) (hends : n.EndsBefore cs) :
    (scan (some n) (List.replicate (j + 1) '\n' ++ cs)).found =
      Stroke.before (List.replicate n.level .leave) (scan none cs).found := by
  have hm : ∀ n', some n = some n' → n'.EndsBefore cs := by
    rintro n' ⟨⟩
    exact hends
  rw [scan_ends j hm]
  rfl

/-- So a classic block does not tell one text from another after line ends, if neither the reader
between blocks nor the block itself does. -/
theorem found_ends_classic {n : Nesting} (hs : n.style = .classic) (j : Nat) {cs ds : List Char}
    (h : ∀ m, (scan m cs).found = (scan m ds).found) :
    (scan (some n) (List.replicate (j + 1) '\n' ++ cs)).found =
      (scan (some n) (List.replicate (j + 1) '\n' ++ ds)).found := by
  by_cases h0 : n.opened = 0
  · have hends := Nesting.endsBefore_classic hs h0
    rw [found_ends j (hends _), found_ends j (hends _), h]
  · rw [found_open_ends hs h0, found_open_ends hs h0, h]

/-- What is found after line ends and tabs in an indented block. -/
theorem found_tabs {n : Nesting} (j k : Nat) (hs : n.style = .indented) {cs : List Char}
    (ht : cs.head? ≠ some '\t') :
    (scan (some n) (List.replicate (j + 1) '\n' ++ (List.replicate (k + 1) '\t' ++ cs))).found =
      Stroke.before (Stroke.line n.depth (k + 1))
        (scan (some { n with depth := k + 1 }) cs).found := by
  have hbreak := Nesting.breakLine_line j k hs ht
  rw [List.replicate_succ, List.cons_append] at hbreak ⊢
  have hmove : move (some n) '\n' (List.replicate j '\n' ++ (List.replicate (k + 1) '\t' ++ cs)) =
      .ok ⟨j + 1 + (k + 1), Stroke.line n.depth (k + 1), some { n with depth := k + 1 }⟩ := by
    rw [move_breakLine, hbreak]
  rw [scan_ok hmove, Scan.found_after, ← List.cons_append, ← List.replicate_succ, ← List.drop_drop,
    drop_run, drop_run]

/-! ## 3. The tabs of the next line -/

/-- How many tabs a line starts with. -/
def tabsOf (cs : List Char) : Nat :=
  (cs.takeWhile (· = '\t')).length

/-- How many tabs the first line starts with that is not empty. -/
def nextTabs (cs : List Char) : Nat :=
  tabsOf (cs.dropWhile (· = '\n'))

/-- What comes after these tabs. -/
def nextText (cs : List Char) : List Char :=
  (cs.dropWhile (· = '\n')).dropWhile (· = '\t')

theorem tabsOf_run {rest : List Char} (k : Nat) (ht : rest.head? ≠ some '\t') :
    tabsOf (List.replicate k '\t' ++ rest) = k :=
  length_run k ht

/-- A text is line ends, the tabs of the next line, and what comes after them. -/
theorem exists_nextLine (cs : List Char) : ∃ i,
    cs = List.replicate i '\n' ++ (List.replicate (nextTabs cs) '\t' ++ nextText cs) ∧
      (List.replicate (nextTabs cs) '\t' ++ nextText cs).head? ≠ some '\n' ∧
      (nextText cs).head? ≠ some '\t' := by
  obtain ⟨i, ds, rfl, hn⟩ := exists_run '\n' cs
  obtain ⟨k, rest, rfl, ht⟩ := exists_run '\t' ds
  rw [nextTabs, nextText, dropWhile_run i hn, dropWhile_run k ht, tabsOf_run k ht]
  exact ⟨i, rfl, hn, ht⟩

/-- The next line is the line at the front of a text that does not start with a line end. -/
theorem nextTabs_of_head {cs : List Char} (h : cs.head? ≠ some '\n') : nextTabs cs = tabsOf cs := by
  have hstay : cs.dropWhile (· = '\n') = cs := dropWhile_run 0 h
  rw [nextTabs, hstay]

theorem nextText_run {rest : List Char} (k : Nat)
    (hn : (List.replicate k '\t' ++ rest).head? ≠ some '\n') (ht : rest.head? ≠ some '\t') :
    nextText (List.replicate k '\t' ++ rest) = rest := by
  have hstay : (List.replicate k '\t' ++ rest).dropWhile (· = '\n') =
      List.replicate k '\t' ++ rest := dropWhile_run 0 hn
  rw [nextText, hstay, dropWhile_run k ht]

namespace Nesting

variable {n : Nesting}

/-- The strokes by which a line with so many tabs starts in an indented block.  Without tabs the
block ends. -/
def lineStrokes (n : Nesting) (tabs : Nat) : List Stroke :=
  if tabs = 0 then List.replicate n.level .leave else Stroke.line n.depth tabs

/-- How such a line nests. -/
def onLine (n : Nesting) (tabs : Nat) : Option Nesting :=
  if tabs = 0 then none else some { n with depth := tabs }

/-- Lines that go deeper and deeper start the lists of the last one. -/
theorem lineStrokes_deeper {i k : Nat} (hi : n.depth < i) (hk : i < k) :
    n.lineStrokes i ++ ({ n with depth := i } : Nesting).lineStrokes k = n.lineStrokes k := by
  have hi0 : i ≠ 0 := Nat.ne_of_gt (Nat.zero_lt_of_lt hi)
  have hk0 : k ≠ 0 := Nat.ne_of_gt (Nat.zero_lt_of_lt hk)
  simp only [lineStrokes, if_neg hi0, if_neg hk0, Stroke.line, if_pos hi, if_pos hk,
    if_pos (Nat.lt_trans hi hk), List.replicate_append_replicate]
  congr 1
  omega

theorem length_lineStrokes (hs : n.style = .indented) (k : Nat) :
    (n.lineStrokes k).length =
      if k = 0 then 1 + n.depth + n.opened
      else if n.depth < k then k - n.depth else n.depth - k + 2 := by
  unfold lineStrokes Stroke.line
  split
  · rw [List.length_replicate, level_of_indented hs]
  · split <;> simp

/-- **Otherwise the line between leaves strokes of its own**, and so there are more of them. -/
theorem deeper_of_length (hs : n.style = .indented) {i k : Nat} (hi : i ≠ 0)
    (h : (n.lineStrokes i).length + (({ n with depth := i } : Nesting).lineStrokes k).length =
      (n.lineStrokes k).length) : n.depth < i ∧ i < k := by
  have hs' : ({ n with depth := i } : Nesting).style = .indented := hs
  rw [length_lineStrokes hs, length_lineStrokes hs', length_lineStrokes hs, if_neg hi] at h
  simp only at h
  split_ifs at h <;> omega

/-- A block that ends draws something else than a block that goes on. -/
theorem lineStrokes_zero_ne (hs : n.style = .indented) {k : Nat} (hk : k ≠ 0)
    (xs ys : List Stroke) : n.lineStrokes 0 ++ xs ≠ n.lineStrokes k ++ ys := by
  -- A line starts a list before it has ended as many as are open.
  obtain ⟨j, zs, hline, hj⟩ : ∃ j zs,
      n.lineStrokes k = List.replicate j .leave ++ .enter :: zs ∧ j < n.level := by
    rw [lineStrokes, if_neg hk, Stroke.line, level_of_indented hs]
    split
    · obtain ⟨i, hi⟩ := Nat.exists_eq_succ_of_ne_zero (Nat.sub_ne_zero_of_lt ‹_›)
      exact ⟨0, List.replicate i .enter, by rw [hi]; rfl, by omega⟩
    · exact ⟨n.depth - k + 1, [], rfl, by omega⟩
  intro h
  rw [hline, lineStrokes, if_pos rfl] at h
  have hget := congrArg (·[j]?) h
  simp [List.getElem?_append, hj] at hget

end Nesting

/-- **What is found after line ends in an indented block** is told by the tabs of the next line. -/
theorem found_nextLine {n : Nesting} (hs : n.style = .indented) (j : Nat) (cs : List Char) :
    (scan (some n) (List.replicate (j + 1) '\n' ++ cs)).found =
      Stroke.before (n.lineStrokes (nextTabs cs))
        (scan (n.onLine (nextTabs cs)) (nextText cs)).found := by
  obtain ⟨i, hcs, hn, ht⟩ := exists_nextLine cs
  generalize nextTabs cs = k at hcs hn
  generalize nextText cs = rest at hcs hn ht
  rw [hcs, ← List.append_assoc, List.replicate_append_replicate, Nat.add_right_comm]
  cases k with
  | zero =>
    have hstay : rest.dropWhile (· = '\n') = rest := dropWhile_run 0 hn
    have hends : n.EndsBefore rest := Nesting.endsBefore_indented hs (by rwa [hstay])
    exact found_ends (j + i) hends
  | succ k => exact found_tabs (j + i) k hs ht

/-- At the end of a line, or of the text, what is found is told by the tabs of the next line as
well. -/
theorem found_lineEnd {n : Nesting} {rest : List Char} (hs : n.style = .indented)
    (hrest : ∀ c, rest.head? = some c → c = '\n') :
    (scan (some n) rest).found =
      Stroke.before (n.lineStrokes (nextTabs rest))
        (scan (n.onLine (nextTabs rest)) (nextText rest)).found := by
  cases rest with
  | nil =>
    show (scan (some n) []).found =
      Stroke.before (List.replicate n.level .leave) (scan none []).found
    simp [scan_nil, Scan.found, levelOf, Stroke.before]
  | cons c cs =>
    obtain rfl : c = '\n' := hrest c rfl
    exact found_nextLine hs 0 cs

/-- Between blocks line ends and tabs draw nothing. -/
theorem found_nextText (cs : List Char) :
    (scan none cs).found = (scan none (nextText cs)).found := by
  obtain ⟨i, hcs, -, -⟩ := exists_nextLine cs
  generalize nextTabs cs = k at hcs
  generalize nextText cs = rest at hcs
  rw [hcs, scan_none_ends, Scan.found_after]
  exact found_blanks (isBlankLine_tabs k) none rest

/-! ## 4. A line of blanks before another line -/

section BlankLine

variable {n : Nesting}

/-- What is found where the next line starts with blanks, and does not end with them. -/
theorem found_blankStart {line tail : List Char} (hs : n.style = .indented) (j : Nat)
    (hb : isBlankLine line = true) (hn : (line ++ tail).head? ≠ some '\n')
    (ht : tail.head? ≠ some '\t') :
    (scan (some n) (List.replicate (j + 1) '\n' ++ (line ++ tail))).found =
      Stroke.before (n.lineStrokes (tabsOf line)) (scan (n.onLine (tabsOf line)) tail).found := by
  obtain ⟨k, line', rfl, hl⟩ := exists_run '\t' line
  have hl' : (line' ++ tail).head? ≠ some '\t' := by
    cases line' with
    | nil => exact ht
    | cons c cs => exact hl
  rw [List.append_assoc] at hn ⊢
  rw [found_nextLine hs, nextTabs_of_head hn, tabsOf_run k hl', nextText_run k hn hl',
    tabsOf_run k hl, found_blanks (isBlankLine_append.mp hb).2]

/-- A line without tabs makes no difference just if the next one has none either: the block is
over. -/
theorem found_ended_iff (hs : n.style = .indented) (next : List Char) :
    Stroke.before (n.lineStrokes (nextTabs next))
        (scan (n.onLine (nextTabs next)) (nextText next)).found =
      Stroke.before (n.lineStrokes 0) (scan (n.onLine 0) next).found ↔
      nextTabs next = 0 := by
  have hnone : n.onLine 0 = none := rfl
  rw [hnone, found_nextText next]
  constructor
  · intro h
    by_contra hnext
    exact Nesting.lineStrokes_zero_ne hs hnext _ _ (congrArg Prod.fst h).symm
  · intro hnext
    rw [hnext]
    rfl

/-- A line with tabs and nothing after them makes no difference just if it leads down to the next
one. -/
theorem found_between_iff (hs : n.style = .indented) {k : Nat} (hk : k ≠ 0) {next : List Char}
    (hnext : ∀ c, next.head? = some c → c = '\n') :
    Stroke.before (n.lineStrokes (nextTabs next))
        (scan (n.onLine (nextTabs next)) (nextText next)).found =
      Stroke.before (n.lineStrokes k) (scan (n.onLine k) next).found ↔
      n.depth < k ∧ k < nextTabs next := by
  have hs' : ({ n with depth := k } : Nesting).style = .indented := hs
  have hline : n.onLine k = some { n with depth := k } := if_neg hk
  have hsame : ({ n with depth := k } : Nesting).onLine (nextTabs next) =
      n.onLine (nextTabs next) :=
    rfl
  rw [hline, found_lineEnd hs' hnext, hsame, ← Stroke.before_append]
  constructor
  · intro h
    have hstrokes := congrArg List.length (List.append_cancel_right (congrArg Prod.fst h))
    rw [List.length_append] at hstrokes
    exact Nesting.deeper_of_length hs hk hstrokes.symm
  · rintro ⟨hlt, hlt'⟩
    rw [Nesting.lineStrokes_deeper hlt hlt']

end BlankLine

end IndentLisp
