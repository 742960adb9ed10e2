/-
# Comments

The specification takes a comment up to the end of its line, and in a block the line break that ends
it as well (section 4, block processing: `;`).  So **a comment with its line break counts as one
blank** (`read_blanked`), and the lines around it are one line to the reader.

An editor that takes a comment out does something else: it leaves the line break where it is, or it
takes a whole line out.  In the first case the reader meets a line break that it had not met; in the
second one it does not meet the tabs of a line that it had counted.  Either makes a difference, and
where it makes none is told here by the block that the reader is in, and by what comes next:

* a line break in a classic block makes none while a parenthesis is open, and at the end of the
  block unless a token comes next, which belongs to the block only on its own line
  (`found_closed_iff`);
* in an indented block it makes none in a run of line breaks; before a line with tabs, if that line
  leads down to a deeper one (`found_line_iff`); and before one without, if the block is over there
  anyhow (`found_over_iff`);
* a line that holds nothing but the comment makes none outside an indented block; in one it has to
  be indented like the next line, or to lie on the way down to it (`found_commentLine_iff`).

These conditions are exact.  The text without the comment is read to the same tree under them
(`Reader.Harmless`), by following both texts up to the comment and comparing what is found after it.
Otherwise what is found differs, and since what a text draws can be read off its tree, up to lists
that are stripped before the comment is met, **the trees say different things**: this half is
`strokes_eq_of_data`.

* `Reader.Block.AllowsBreak`, `Aligned`: where a line break makes no difference, and where a line
  does not.
* `read_uncommented`: taking a comment out.
* `comment_joins_lines`: the smallest text where that makes a difference.
-/
import IndentLisp.Proofs.Reader.Openings

namespace IndentLisp

/-! ## 1. Line breaks without effect -/

/-- Whether a block reads what comes next in the same way where a line break comes before it.  In a
classic block a parenthesis is open, or no token comes next.  In an indented block there are further
line breaks; or the next line is deeper, and leads to one that is deeper still; or the block is over
there anyhow. -/
def Reader.Block.AllowsBreak (b : Reader.Block) (next : List Char) : Prop :=
  match b.style with
  | .classic => b.opened ≠ 0 ∨ ∀ c, (dropRemarks next).head? = some c → Token.isStart c = false
  | .indented =>
    next.head? = some '\n' ∨
      (b.depth < tabsOf next ∧ tabsOf next < leadsTo next) ∨
      (tabsOf next = 0 ∧ (∀ c, (dropRemarks next).head? = some c → c = '\n') ∧
        nextTabs (dropRemarks next) = 0)

section Break

variable {n : Nesting} {next : List Char}

omit next in
/-- Where no offence is found, the first turn is one of those that there are. -/
theorem exists_turn {m : Option Nesting} {c : Char} {cs : List Char}
    (ho : (scan m (c :: cs)).offence? = none) : ∃ v, move m c cs = .ok v ∧ Turn m c cs v := by
  rw [scan] at ho
  split at ho
  · cases ho
  · rename_i v hv
    exact ⟨v, hv, turn_of_move hv⟩

/-- What starts an indented block starts a list. -/
theorem found_start {c : Char} (hb : c ≠ ' ' ∧ c ≠ '\t' ∧ c ≠ '\n' ∧ c ≠ ';') (hp : c ≠ '(')
    (cs : List Char) :
    (scan none (c :: cs)).found =
      Stroke.before [.enter] (scan (inLine 0 0) (c :: cs)).found := by
  have hmove : move none c cs = .ok ⟨0, [.enter], inLine 0 0⟩ :=
    congrArg Except.ok (moveBetween_other hb hp cs)
  rw [scan_ok hmove, Scan.found_after]
  rfl

/-- A token is a leaf. -/
theorem found_token {c : Char} {cs : List Char} {k : Nat} (hc : Token.isStart c = true)
    (hk : Token.length? (c :: cs) = some k) (n : Nesting) : ∃ xs,
    (scan (some n) (c :: cs)).found.1 = .leaf (String.ofList ((c :: cs).take k)) :: xs := by
  rw [scan_ok (move_token hc hk n), Scan.found_after]
  exact ⟨_, rfl⟩

/-- **After a closed classic block**, what comes next on the same line starts a block as well as it
goes on with this one, just if it is no token. -/
theorem found_closed_iff (hn : n = ⟨.classic, 0, 0⟩)
    (ho : (scan (some n) next).offence? = none) :
    (scan none next).found = (scan (some n) next).found ↔
      ∀ c, (dropRemarks next).head? = some c → Token.isStart c = false := by
  subst hn
  rw [← offence_dropRemarks] at ho
  rw [← found_dropRemarks none, ← found_dropRemarks (some _)]
  cases hm : dropRemarks next with
  | nil => simp [scan_nil, Scan.found, levelOf, Nesting.level]
  | cons c cs =>
    obtain ⟨h1, h2, h3⟩ := head_dropRemarks hm
    rw [hm] at ho
    obtain ⟨v, -, hturn⟩ := exists_turn ho
    simp only [List.head?_cons, Option.some.injEq, forall_eq']
    cases hturn with
    | opening =>
      -- The parenthesis is the first of a block, or one of this block again.
      have hsame : (scan none ('(' :: cs)).found = (scan (inParens 0) ('(' :: cs)).found := by
        rw [scan_ok (move_start cs), scan_ok (move_opening 0 cs)]
      exact iff_of_true hsame (by decide)
    | closing h0 => exact absurd rfl h0
    | blank hb => exact absurd hb (not_or.mpr ⟨h1, h2⟩)
    | comment => exact absurd rfl h3
    | lineEnd =>
      -- The block ends.
      have hends := found_ends 0 (Nesting.endsBefore_classic (n := ⟨.classic, 0, 0⟩) rfl rfl cs)
      exact iff_of_true ((found_gap cs).trans hends.symm) (by decide)
    | token hc hk =>
      have hn : c ≠ '\n' := by
        rintro rfl
        exact absurd hc (by decide)
      have hp : c ≠ '(' := by
        rintro rfl
        exact absurd hc (by decide)
      refine iff_of_false (fun h => ?_) (by simp [hc])
      -- A leaf of the list around the block, or of one of its own.
      obtain ⟨xs, hxs⟩ := found_token hc hk ⟨.classic, 0, 0⟩
      have hstrokes := congrArg Prod.fst h
      rw [found_start ⟨h1, h2, hn, h3⟩ hp, hxs] at hstrokes
      cases hstrokes

/-- **An indented block is over before what comes next**, with or without a line break there, just
if nothing but line breaks comes before a line without tabs. -/
theorem found_over_iff (hs : n.style = .indented) (ho : (scan (some n) next).offence? = none) :
    Stroke.before (n.lineStrokes 0) (scan none next).found = (scan (some n) next).found ↔
      (∀ c, (dropRemarks next).head? = some c → c = '\n') ∧ nextTabs (dropRemarks next) = 0 := by
  rw [← offence_dropRemarks] at ho
  rw [← found_dropRemarks none, ← found_dropRemarks (some _)]
  have hhead := @head_dropRemarks next
  generalize dropRemarks next = rest at ho hhead
  by_cases hend : ∀ c, rest.head? = some c → c = '\n'
  · rw [and_iff_right hend, found_lineEnd hs hend, eq_comm]
    exact found_ended_iff hs rest
  refine iff_of_false (fun h => ?_) fun h => hend h.1
  obtain ⟨c, hc, hn⟩ : ∃ c, rest.head? = some c ∧ c ≠ '\n' := by simpa using hend
  obtain ⟨cs, rfl⟩ := List.head?_eq_some_iff.mp hc
  obtain ⟨h1, h2, h3⟩ := hhead rfl
  -- The block that ends draws the end of a list first.
  have hleave : n.lineStrokes 0 = .leave :: List.replicate (n.depth + n.opened) .leave := by
    rw [Nesting.lineStrokes, if_pos rfl, Nesting.level_of_indented hs, Nat.add_assoc,
      Nat.add_comm 1, List.replicate_succ]
  rw [hleave] at h
  obtain ⟨v, hv, hturn⟩ := exists_turn ho
  cases hturn with
  | opening =>
    rw [scan_ok hv] at h
    cases congrArg Prod.fst h
  | closing h0 =>
    -- The parenthesis is one too many for a block of its own.
    rw [found_start ⟨h1, h2, hn, h3⟩ (by decide)] at h
    have hoffence : (scan (inLine 0 0) (')' :: cs)).offence? = none :=
      (congrArg Prod.snd h).trans ho
    obtain ⟨_, -, hextra⟩ := exists_turn hoffence
    cases hextra with
    | closing h0 => exact h0 rfl
    | blank hb => exact absurd hb (by decide)
    | token hc => cases hc
  | blank hb => exact absurd hb (not_or.mpr ⟨h1, h2⟩)
  | comment => exact absurd rfl h3
  | lineEnd => exact absurd rfl hn
  | token hc hk =>
    obtain ⟨xs, hxs⟩ := found_token hc hk n
    have hstrokes := congrArg Prod.fst h
    rw [hxs] at hstrokes
    cases hstrokes

/-- **A line break in a block makes no difference** just where the block allows it. -/
theorem found_break_iff {handle : Nat} (hdepth : n.style = .classic → n.depth = 0)
    (ho : (scan (some n) next).offence? = none) :
    (scan (some n) ('\n' :: next)).found = (scan (some n) next).found ↔
      (n.block handle).AllowsBreak next := by
  obtain ⟨style, depth, opened⟩ := n
  cases style with
  | classic =>
    obtain rfl : depth = 0 := hdepth rfl
    show _ ↔ opened ≠ 0 ∨ _
    by_cases h0 : opened = 0
    · subst h0
      have hends := found_ends 0 (Nesting.endsBefore_classic (n := ⟨.classic, 0, 0⟩) rfl rfl next)
      rw [or_iff_right (not_not_intro rfl), ← found_closed_iff rfl ho]
      exact Eq.congr_left hends
    · exact iff_of_true (found_open_ends rfl h0 1 next) (Or.inl h0)
  | indented =>
    show _ ↔ next.head? = some '\n' ∨ _
    by_cases hn : next.head? = some '\n'
    · -- The line break is one more in a run.
      obtain ⟨cs, rfl⟩ := List.head?_eq_some_iff.mp hn
      exact iff_of_true (found_more_ends _ cs) (Or.inl hn)
    obtain ⟨k, rest, rfl, ht⟩ := exists_run '\t' next
    have hbreak := found_blankStart (n := ⟨.indented, depth, opened⟩) rfl 0
        (isBlankLine_tabs k) hn ht
    have htabs : tabsOf (List.replicate k '\t') = k := by simp [tabsOf]
    rw [htabs] at hbreak
    rw [or_iff_right hn, tabsOf_run k ht]
    refine (Eq.congr_left hbreak).trans ?_
    cases k with
    | zero =>
      rw [or_iff_right fun h => absurd h.1 (Nat.not_lt_zero _), and_iff_right rfl]
      exact found_over_iff rfl ho
    | succ k =>
      rw [or_iff_left fun h => absurd h.1 (Nat.succ_ne_zero _), leadsTo_tabs,
        found_blanks (isBlankLine_tabs _)]
      rw [offence_blanks (isBlankLine_tabs _)] at ho
      exact found_line_iff (Nat.succ_ne_zero _) ho

end Break

/-! ## 2. Lines of comments -/

/-- Whether a block of such a depth reads what comes next in the same way where a line comes before
it that starts with so many tabs and holds nothing but a comment.  A line without tabs ends the
block, and so does what comes next.  A line with tabs comes before one with as many; or it is deeper
than the block and leads, by way of the next line if that is not empty, to a line that is deeper
still. -/
def Aligned (depth tabs : Nat) (next : List Char) : Prop :=
  if tabs = 0 then nextTabs next = 0
  else
    tabsOf next = tabs ∨
      depth < tabs ∧ tabs < leadsTo next ∧
        (next.head? = some '\n' ∨ depth < tabsOf next ∧ tabsOf next < leadsTo next)

section CommentLine

variable {n : Nesting} {line next cs : List Char}

/-- A line with so many tabs and nothing after them, before what comes next. -/
theorem found_lineBefore_iff (hs : n.style = .indented) {tabs : Nat}
    (ho : (scan (n.onLine tabs) next).offence? = none) :
    Stroke.before (n.lineStrokes (nextTabs next))
        (scan (n.onLine (nextTabs next)) (nextText next)).found =
      Stroke.before (n.lineStrokes tabs) (scan (n.onLine tabs) next).found ↔
      Aligned n.depth tabs next := by
  unfold Aligned
  by_cases h0 : tabs = 0
  · rw [h0, if_pos rfl]
    exact found_ended_iff hs next
  rw [if_neg h0]
  by_cases hend : ∀ c, next.head? = some c → c = '\n'
  · -- The next line is empty, and the one after that decides.
    rw [found_between_iff hs h0 hend, leadsTo_of_lineEnd hend]
    cases next with
    | nil => simp [nextTabs, tabsOf, Ne.symm h0]
    | cons c cs =>
      obtain rfl : c = '\n' := hend c rfl
      have hzero : tabsOf ('\n' :: cs) = 0 := rfl
      simp [hzero, Ne.symm h0]
  have hn : next.head? ≠ some '\n' := by
    intro hn
    refine hend fun c hc => ?_
    rw [hn] at hc
    exact (Option.some.inj hc).symm
  obtain ⟨k, rest, rfl, ht⟩ := exists_run '\t' next
  rw [nextTabs_of_head hn, tabsOf_run k ht, nextText_run k hn ht, leadsTo_tabs, or_iff_right hn,
    found_blanks (isBlankLine_tabs k)]
  by_cases hk : k = 0
  · -- The block ends there.
    rw [hk]
    refine iff_of_false (fun h => ?_) fun h => ?_
    · exact Nesting.lineStrokes_zero_ne hs h0 _ _ (congrArg Prod.fst h)
    · rcases h with h | ⟨-, -, h, -⟩
      · exact h0 h.symm
      · exact absurd h (Nat.not_lt_zero _)
  by_cases hsame : k = tabs
  · rw [hsame]
    exact iff_of_true rfl (Or.inl rfl)
  obtain ⟨style, depth, opened⟩ := n
  obtain rfl : style = .indented := hs
  have honLine : ∀ {i : Nat}, i ≠ 0 →
      (⟨.indented, depth, opened⟩ : Nesting).onLine i = inLine i opened := fun hi => if_neg hi
  have hline : ∀ {i : Nat}, i ≠ 0 →
      (⟨.indented, depth, opened⟩ : Nesting).lineStrokes i = Stroke.line depth i := fun hi =>
    if_neg hi
  rw [honLine h0, offence_blanks (isBlankLine_tabs k)] at ho
  rw [hline hk, hline h0, honLine hk, honLine h0, or_iff_right hsame, eq_comm,
    found_lines_iff (Ne.symm hsame) ho, and_assoc]

/-- **A line of an indented block that holds nothing but a comment** makes no difference just if it
is aligned. -/
theorem found_commentLine_iff (hs : n.style = .indented) (j : Nat) (hb : isBlankLine line = true)
    (ho : (scan (some n) (List.replicate (j + 1) '\n' ++ (line ++ ';' :: cs))).offence? = none) :
    (scan (some n) (List.replicate (j + 1) '\n' ++ nextLines cs)).found =
        (scan (some n) (List.replicate (j + 1) '\n' ++ (line ++ ';' :: cs))).found ↔
      Aligned n.depth (tabsOf line) (nextLines cs) := by
  have hn : (line ++ ';' :: cs).head? ≠ some '\n' := by
    cases line with
    | nil => simp
    | cons c line =>
      rcases isBlankLine_iff.mp hb c List.mem_cons_self with rfl | rfl <;> simp
  have hline := found_blankStart hs j hb hn (by simp)
  rw [found_comment] at hline
  have ho : (scan (n.onLine (tabsOf line)) (nextLines cs)).offence? = none :=
    (congrArg Prod.snd hline).symm.trans ho
  rw [hline, found_nextLine hs]
  exact found_lineBefore_iff hs ho

end CommentLine

/-- Where a comment is left out up to the end of its line, the line break that stays there makes no
difference just where the block allows it. -/
theorem found_remark_iff {n : Nesting} {handle : Nat} {cs : List Char}
    (hdepth : n.style = .classic → n.depth = 0)
    (ho : (scan (some n) (nextLines cs)).offence? = none) :
    (scan (some n) (cs.drop (lineLength cs))).found = (scan (some n) (nextLines cs)).found ↔
      (n.block handle).AllowsBreak (nextLines cs) := by
  rw [nextLines, ← List.drop_drop] at ho ⊢
  rcases drop_lineLength cs with hnil | ⟨ds, hds⟩
  · rw [hnil]
    refine iff_of_true rfl ?_
    unfold Reader.Block.AllowsBreak
    cases (n.block handle).style <;> simp [dropRemarks, dropThrough, tabsOf, nextTabs]
  · rw [hds] at ho ⊢
    exact found_break_iff hdepth ho

/-! ## 3. Whole texts -/

/-- A classic block has no depth. -/
theorem Passes.depth_eq {front rest : List Char} {xs : List Stroke} {m : Option Nesting}
    (h : Passes none front xs m rest) {n : Nesting} (hm : m = some n) (hs : n.style = .classic) :
    n.depth = 0 := by
  induction h generalizing n with
  | refl => cases hm
  | @turn front xs m' c cs v hp hv ih =>
    cases turn_of_move hv with
    | gap | remark => cases hm
    | classic =>
      cases hm
      rfl
    | indented =>
      cases hm
      cases hs
    | @opening n' _ =>
      cases hm
      exact ih (n := n') rfl hs
    | @closing n' _ _ =>
      cases hm
      exact ih (n := n') rfl hs
    | blank | comment | token =>
      cases hm
      exact ih rfl hs
    | @lineEnd n' _ =>
      obtain rfl := n'.eq_of_breakLine hm hs
      exact ih rfl hs

namespace Cursor

/-- The text with a blank in place of the comment at the cursor and its line end. -/
def blanked (c : Cursor) : List Char :=
  c.behind.reverse ++ ' ' :: nextLines c.ahead

/-- The text without the comment at the cursor, as an editor takes it out: with its line, if nothing
else is on that, and up to the end of its line otherwise. -/
def uncommented (c : Cursor) : List Char :=
  if isBlankLine c.startOfLine then (c.behind.dropWhile (· ≠ '\n')).reverse ++ nextLines c.ahead
  else c.behind.reverse ++ c.ahead.drop (lineLength c.ahead)

/-- The text behind a cursor is that before its line and that on its line. -/
theorem before_append_startOfLine (c : Cursor) :
    (c.behind.dropWhile (· ≠ '\n')).reverse ++ c.startOfLine = c.behind.reverse := by
  rw [startOfLine, ← List.reverse_append, List.takeWhile_append_dropWhile]

end Cursor

/-- **Whether the line break that a comment leaves behind, or takes along with its line, makes no
difference.** -/
def Reader.Harmless (text file : String) (o : Option Block) (r : Reader) : Prop :=
  if isBlankLine r.cursor.startOfLine then
    ∀ k b r' j, Visits text file k (some b) r' → b.style = .indented →
      r'.cursor.ahead = List.replicate (j + 1) '\n' ++ (r.cursor.startOfLine ++ r.cursor.ahead) →
      Aligned b.depth (tabsOf r.cursor.startOfLine) (nextLines r.cursor.ahead)
  else ∀ b, o = some b → b.AllowsBreak (nextLines r.cursor.ahead)

/-- **A comment with its line end counts as one blank**, in a block and between blocks. -/
theorem read_blanked {text file : String} {t : Tree} {k : Nat} {o : Option Reader.Block}
    {r : Reader} (ht : read text file = .ok t) (hv : Reader.Visits text file k o r)
    (hc : r.cursor.ahead.head? = some ';') {text' : String}
    (htext : Lines.unify text'.toList = r.cursor.blanked) : read text' file = .ok t := by
  obtain ⟨m, xs, -, hp⟩ := hv.passes
  obtain ⟨cs, ha⟩ := List.head?_eq_some_iff.mp hc
  have hp' : Passes none r.cursor.behind.reverse xs m (' ' :: nextLines r.cursor.ahead) :=
    hp.replace rfl (Or.inr ⟨hc, rfl⟩)
  refine read_of_found ?_ ht
  rw [found_of_passes hp hv.text_eq.symm, found_of_passes hp' htext, found_blank (Or.inl rfl), ha,
    nextLines_comment, found_comment]

section Uncommented

variable {text text' file : String} {t t' : Tree} {k : Nat} {o : Option Reader.Block} {r : Reader}
  {cs : List Char}

/-- A comment after something else on its line: it is met within a block, and the text without it is
the same up to there. -/
theorem exists_passes_rest (hv : Reader.Visits text file k o r) (ha : r.cursor.ahead = ';' :: cs)
    (hb : isBlankLine r.cursor.startOfLine ≠ true) : ∃ n xs handle,
    o = some (n.block handle) ∧ Passes none r.cursor.behind.reverse xs (some n) (';' :: cs) ∧
      Passes none r.cursor.behind.reverse xs (some n) (cs.drop (lineLength cs)) := by
  obtain ⟨m, xs, ⟨d, -, ho, -⟩, hp⟩ := hv.passes
  rw [r.cursor.startOfLine_eq] at hb
  rw [ha] at hp
  cases m with
  | none => exact absurd (hp.blank_of_none rfl rfl (by decide)) hb
  | some n =>
    refine ⟨n, xs, _, ho, hp, hp.trailing hb (Or.inl ⟨';', rfl, by decide⟩) fun c hc => ?_⟩
    rcases drop_lineLength cs with hnil | ⟨ds, hds⟩
    · simp [hnil] at hc
    · rw [hds] at hc
      cases hc
      rfl

/-- The text of a comment, and the one without it, where the comment is not alone on its line. -/
theorem texts_rest (hv : Reader.Visits text file k o r) (ha : r.cursor.ahead = ';' :: cs)
    (hb : isBlankLine r.cursor.startOfLine ≠ true)
    (htext : Lines.unify text'.toList = r.cursor.uncommented) :
    Lines.unify text.toList = r.cursor.behind.reverse ++ ';' :: cs ∧
      Lines.unify text'.toList = r.cursor.behind.reverse ++ cs.drop (lineLength cs) := by
  rw [Cursor.uncommented, if_neg hb, ha, lineLength_comment, List.drop_succ_cons] at htext
  refine ⟨?_, htext⟩
  rw [← hv.text_eq, Cursor.text, ha]

/-- The same where it is. -/
theorem texts_line (hv : Reader.Visits text file k o r) (ha : r.cursor.ahead = ';' :: cs)
    (hb : isBlankLine r.cursor.startOfLine = true)
    (htext : Lines.unify text'.toList = r.cursor.uncommented) : ∃ before,
    before ++ r.cursor.startOfLine = r.cursor.behind.reverse ∧
      Lines.unify text.toList = before ++ (r.cursor.startOfLine ++ ';' :: cs) ∧
      Lines.unify text'.toList = before ++ nextLines cs := by
  have hbehind := r.cursor.before_append_startOfLine
  rw [Cursor.uncommented, if_pos hb, ha, nextLines_comment] at htext
  refine ⟨_, hbehind, ?_, htext⟩
  rw [← List.append_assoc, hbehind, ← hv.text_eq, Cursor.text, ha]

/-- **Without a comment that is alone on its line** the same is found, if the line is aligned. -/
theorem found_uncommented_line (hv : Reader.Visits text file k o r)
    (ha : r.cursor.ahead = ';' :: cs) (hb : isBlankLine r.cursor.startOfLine = true)
    (hh : Reader.Harmless text file o r) (ho : (scanText text).offence? = none)
    (htext : Lines.unify text'.toList = r.cursor.uncommented) :
    (scanText text').found = (scanText text).found := by
  obtain ⟨m, xs, -, hp⟩ := hv.passes
  obtain ⟨before, hbehind, hsource, hsource'⟩ := texts_line hv ha hb htext
  have hlast : Lines.last r.cursor.behind.reverse = r.cursor.startOfLine :=
    r.cursor.startOfLine_eq.symm
  rw [ha] at hp
  have hstart := hp.lineStart rfl (Or.inr (Or.inr rfl)) (hlast ▸ hb)
  rw [← hbehind] at hlast hstart
  rw [Reader.Harmless, if_pos hb, ha, nextLines_comment] at hh
  refine found_of_lineStart file hstart hlast hsource hsource' (fun m => ?_)
    fun k' n handle r' j hv' hs ha' hoffence => ?_
  · rw [found_blanks hb, found_comment]
  · exact (found_commentLine_iff hs j hb (hoffence.trans ho)).mpr (hh k' _ r' j hv' hs ha')

/-- **The line is aligned if the text without it says the same.** -/
theorem harmless_line_of_data (ht : read text file = .ok t) (ht' : read text' file = .ok t')
    (hdata : t'.data = t.data) (hv : Reader.Visits text file k o r)
    (ha : r.cursor.ahead = ';' :: cs) (hb : isBlankLine r.cursor.startOfLine = true)
    (htext : Lines.unify text'.toList = r.cursor.uncommented) :
    Reader.Harmless text file o r := by
  obtain ⟨before, -, hsource, hsource'⟩ := texts_line hv ha hb htext
  rw [Reader.Harmless, if_pos hb, ha, nextLines_comment]
  intro k' b r' j hv' hs ha'
  obtain ⟨n, hn, hdepth, ho, hfound⟩ :=
    found_line_of_data ht ht' hdata hv' hs ha' hsource hsource'
  rw [← hdepth]
  exact (found_commentLine_iff hn j hb ho).mp hfound

/-- **Without a comment after something else on its line** the same is found, if the block allows a
line break there. -/
theorem found_uncommented_rest (hv : Reader.Visits text file k o r)
    (ha : r.cursor.ahead = ';' :: cs) (hb : isBlankLine r.cursor.startOfLine ≠ true)
    (hh : Reader.Harmless text file o r) (ho : (scanText text).offence? = none)
    (htext : Lines.unify text'.toList = r.cursor.uncommented) :
    (scanText text').found = (scanText text).found := by
  obtain ⟨n, xs, handle, hblock, hp, hp'⟩ := exists_passes_rest hv ha hb
  obtain ⟨hsource, hsource'⟩ := texts_rest hv ha hb htext
  rw [Reader.Harmless, if_neg hb, ha, nextLines_comment] at hh
  have hfound := found_of_passes hp hsource
  rw [found_comment] at hfound
  have ho : (scan (some n) (nextLines cs)).offence? = none :=
    (congrArg Prod.snd hfound).symm.trans ho
  rw [found_of_passes hp' hsource', hfound,
    (found_remark_iff (hp.depth_eq rfl) ho).mpr (hh _ hblock)]

/-- **The block allows it if the text without the comment says the same.** -/
theorem harmless_rest_of_data (ht : read text file = .ok t) (ht' : read text' file = .ok t')
    (hdata : t'.data = t.data) (hv : Reader.Visits text file k o r)
    (ha : r.cursor.ahead = ';' :: cs) (hb : isBlankLine r.cursor.startOfLine ≠ true)
    (htext : Lines.unify text'.toList = r.cursor.uncommented) :
    Reader.Harmless text file o r := by
  obtain ⟨n, xs, handle, rfl, hp, hp'⟩ := exists_passes_rest hv ha hb
  obtain ⟨hsource, hsource'⟩ := texts_rest hv ha hb htext
  rw [Reader.Harmless, if_neg hb, ha, nextLines_comment]
  rintro b ⟨⟩
  by_cases hopen : n.style = .classic ∧ n.opened ≠ 0
  · -- An open parenthesis allows it anyhow.
    unfold Reader.Block.AllowsBreak
    rw [show (n.block handle).style = .classic from hopen.1]
    exact Or.inl hopen.2
  have hfront : ∃ x ∈ xs, x ≠ .enter := by
    cases hs : n.style with
    | classic =>
      have h0 : n.opened = 0 := by
        by_contra h0
        exact hopen ⟨hs, h0⟩
      exact ⟨.leave, hp.mem_leave rfl hs h0, nofun⟩
    | indented =>
      refine (hp.exists_ne_enter rfl hs).resolve_right ?_
      rintro ⟨c, hc, ⟨-, -, -, hn⟩, -⟩
      exact hn (Option.some.inj hc).symm
  have hfound := found_of_passes hp hsource
  rw [found_comment] at hfound
  have ho : (scan (some n) (nextLines cs)).offence? = none :=
    (congrArg Prod.snd hfound).symm.trans (read_eq_ok_iff.mp ht).1
  refine (found_remark_iff (hp.depth_eq rfl) ho).mp ?_
  rw [← found_comment]
  exact found_of_data ht ht' hdata hp hp' hsource hsource' hfront

end Uncommented

/-- **Taking comments out.**  Wherever a reader meets a comment in a text that is read to a tree,
the text with a blank in place of the comment and its line break is read to the same tree.  The text
without the comment, as an editor takes it out, is read to the same tree if the line break that is
left there or taken along makes no difference, and to one that says the same just if it makes
none. -/
theorem read_uncommented {text file : String} {t : Tree} {k : Nat} {o : Option Reader.Block}
    {r : Reader} (ht : read text file = .ok t) (hv : Reader.Visits text file k o r)
    (hc : r.cursor.ahead.head? = some ';') :
    (∀ text', Lines.unify text'.toList = r.cursor.blanked → read text' file = .ok t) ∧
    ∀ text', Lines.unify text'.toList = r.cursor.uncommented →
      (Reader.Harmless text file o r → read text' file = .ok t) ∧
      ∀ t', read text' file = .ok t' → t'.data = t.data → Reader.Harmless text file o r := by
  refine ⟨fun text' htext => read_blanked ht hv hc htext, fun text' htext => ?_⟩
  have ho := (read_eq_ok_iff.mp ht).1
  obtain ⟨cs, ha⟩ := List.head?_eq_some_iff.mp hc
  by_cases hb : isBlankLine r.cursor.startOfLine = true
  · exact ⟨fun hh => read_of_found (found_uncommented_line hv ha hb hh ho htext) ht,
      fun t' ht' hdata => harmless_line_of_data ht ht' hdata hv ha hb htext⟩
  · exact ⟨fun hh => read_of_found (found_uncommented_rest hv ha hb hh ho htext) ht,
      fun t' ht' hdata => harmless_rest_of_data ht ht' hdata hv ha hb htext⟩

theorem read_uncommented_in_parentheses :
    ∃ t, read "(a ; c\nb)" "f" = .ok t ∧ read "(a  b)" "f" = .ok t ∧
    read "(a \nb)" "f" = .ok t := by
  have hread : read "(a ; c\nb)" "f" = .ok (draftOf "(a ; c\nb)").tree.unwrap :=
    read_eq_ok_iff.mpr ⟨by decide +kernel, rfl⟩
  have hplace : Reaches none (Lines.unify "(a ; c\nb)".toList) (inParens 1)
      [';', ' ', 'c', '\n', 'b', ')'] := by
    have htoken : Token.length? ['a', ' ', ';', ' ', 'c', '\n', 'b', ')'] = some 1 := by decide
    exact ((Reaches.refl.turn (move_start _)).turn (move_token (by decide) htoken _)).turn
      (move_blank (Or.inl rfl) _ _)
  have htext : Lines.unify "(a ; c\nb)".toList =
      ['(', 'a', ' '] ++ [';', ' ', 'c', '\n', 'b', ')'] := rfl
  obtain ⟨k, o, r, hv, ⟨d, -, ho, -⟩, hbehind, ha⟩ := Reader.visits_behind "f" hplace htext
  have hc : r.cursor.ahead.head? = some ';' := by rw [ha]; rfl
  have hblank : isBlankLine r.cursor.startOfLine = false := by
    rw [Cursor.startOfLine, hbehind]
    decide
  have hharmless : Reader.Harmless "(a ; c\nb)" "f" o r := by
    rw [Reader.Harmless, hblank, ho]
    rintro b ⟨⟩
    exact Or.inl Nat.one_ne_zero
  obtain ⟨hblanked, huncommented⟩ := read_uncommented hread hv hc
  refine ⟨_, hread, hblanked _ ?_, (huncommented _ ?_).1 hharmless⟩
  · rw [Cursor.blanked, hbehind, ha]
    decide
  · rw [Cursor.uncommented, hblank, hbehind, ha]
    decide

/-- In a block, the line after a comment goes on where the comment stands.  Taken out up to the end
of its line, the comment leaves a line end that the reader had not met: the next line starts a block
of its own. -/
theorem comment_joins_lines :
    ∃ t t' k o r, read "a ; c\nb" "f" = .ok t ∧ Reader.Visits "a ; c\nb" "f" k o r ∧
      r.cursor.ahead.head? = some ';' ∧ Lines.unify "a \nb".toList = r.cursor.uncommented ∧
      read "a \nb" "f" = .ok t' ∧ t'.data ≠ t.data := by
  have hplace : Reaches none (Lines.unify "a ; c\nb".toList) (some ⟨.indented, 0, 0⟩)
      [';', ' ', 'c', '\n', 'b'] := by
    have hstart : move none 'a' [' ', ';', ' ', 'c', '\n', 'b'] = _ :=
      congrArg Except.ok (moveBetween_other (by decide) (by decide) _)
    have htoken : Token.length? ['a', ' ', ';', ' ', 'c', '\n', 'b'] = some 1 := by decide
    exact ((Reaches.refl.turn hstart).turn (move_token (by decide) htoken _)).turn
      (move_blank (Or.inl rfl) _ _)
  have htext : Lines.unify "a ; c\nb".toList = ['a', ' '] ++ [';', ' ', 'c', '\n', 'b'] := rfl
  obtain ⟨k, o, r, hv, -, hbehind, ha⟩ := Reader.visits_behind "f" hplace htext
  have hc : r.cursor.ahead.head? = some ';' := by rw [ha]; rfl
  have huncommented : Lines.unify "a \nb".toList = r.cursor.uncommented := by
    rw [Cursor.uncommented, Cursor.startOfLine, hbehind, ha]
    decide
  have hread : read "a ; c\nb" "f" = .ok (draftOf "a ; c\nb").tree.unwrap :=
    read_eq_ok_iff.mpr ⟨by decide +kernel, rfl⟩
  have hread' : read "a \nb" "f" = .ok (draftOf "a \nb").tree.unwrap :=
    read_eq_ok_iff.mpr ⟨by decide +kernel, rfl⟩
  have hdata : (draftOf "a \nb").tree.unwrap.data ≠ (draftOf "a ; c\nb").tree.unwrap.data := by
    decide +kernel
  exact ⟨_, _, k, o, r, hread, hv, hc, huncommented, hread', hdata⟩

end IndentLisp
