/-
# Separate blocks

A blank line ends the block before it, whatever that block is at: a classic block whose parentheses
are closed, an indented block, a comment that takes the first line end along, a line of nothing but
tabs.  So what stands after the blank line is read as if it stood alone, unless it starts with a
tab.

That the two line ends are enough, and that one would not be, is due to comments: a comment in a
block takes one line end along, and it is the other one that ends the block.  That the second text
must not start with a tab is the rule for lines; that the classic blocks of the first are closed is
needed, as an open parenthesis would take the second text in.

The proof goes by the turns of the first text.  Each is the same when the blank line and the second
text follow, unless it looks for a line end itself, at the end of the text (`move_append`); there
are two such turns, for line ends and for a comment, and they are treated one by one.  What the
second text draws then follows on an empty stack of lists, and so is said after what the first says.

* `scan_append_break`: a text, a blank line and another text are scanned one after the other.
* `Offence.report_below`: a report depends on the line that it is about and on the rest of the text,
  and otherwise only on the number of the line.
* `read_separated`: **the two texts do not depend on each other**, in what they say or in what is
  wrong with the second.
-/
import IndentLisp.Proofs.Reader.Passage
import IndentLisp.Proofs.Reader.Position
import IndentLisp.Proofs.Reader.RoundTrip
import IndentLisp.Proofs.Tree.Frame

namespace IndentLisp

/-! ## 1. The end of a block -/

/-- Whether a line end can end the block: all parentheses of a classic block are closed.  An
indented block can always end. -/
def Closable (m : Option Nesting) : Prop :=
  ∀ n, m = some n → n.style = .classic → n.opened = 0

/-- A line end ends such a block unless a tab follows. -/
theorem Closable.endsBefore {m : Option Nesting} (hm : Closable m) {cs : List Char}
    (ht : (cs.dropWhile (· = '\n')).head? ≠ some '\t') : ∀ n, m = some n → n.EndsBefore cs :=
  fun n hn => ⟨hm n hn, fun _ => ht⟩

/-! ## 2. A text before a blank line -/

section Append

variable {m : Option Nesting} {c : Char} {cs rest : List Char} {v : Move}

/-- A turn that is the same after a longer text. -/
theorem move_of_parts {cs' : List Char} (h : move m c cs' = .ok v)
    (ht : (c :: cs').take v.passed = (c :: cs).take v.passed)
    (hd : (c :: cs').drop v.passed = (c :: cs).drop v.passed ++ rest) :
    move m c (cs ++ rest) = .ok v := by
  have hcs : c :: cs' = c :: (cs ++ rest) := by
    rw [← List.take_append_drop v.passed (c :: cs'), ht, hd, ← List.append_assoc,
      List.take_append_drop, List.cons_append]
  rwa [← (List.cons.inj hcs).2]

/-- **A turn does not see a line end after the text**, unless it stops before it: line ends of a
block and a comment in a block may be the last of the text, and would then go on. -/
theorem move_append (h : move m c cs = .ok v)
    (hc : (c :: cs).drop v.passed ≠ [] ∨ m = none ∨ c ≠ '\n' ∧ c ≠ ';') :
    move m c (cs ++ '\n' :: rest) = .ok v := by
  cases hd : (c :: cs).drop v.passed with
  | cons d ds =>
    have hhead : ((c :: cs).drop v.passed).head? = some d := by
      rw [hd]
      rfl
    obtain ⟨cs', hv, htake, hdrop⟩ :=
      move_replace h (show ((c :: cs).drop v.passed ++ '\n' :: rest).head? = some d by rw [hd]; rfl)
        (Or.inl hhead)
    exact move_of_parts hv htake hdrop
  | nil =>
    have hplain : v.passed ≠ 0 → c ≠ '\n' → c ≠ ';' → move m c (cs ++ '\n' :: rest) = .ok v := by
      intro hp hn hs
      obtain ⟨cs', hv, htake, hdrop⟩ :=
        move_plain h hp hn hs (show ∀ d, ('\n' :: rest).head? = some d → _ by
          rintro d ⟨⟩
          exact Or.inl rfl)
      exact move_of_parts hv htake (by rw [hdrop, hd, List.nil_append])
    have hother : ∀ n, m = some n → c ≠ '\n' ∧ c ≠ ';' := by
      rintro n rfl
      rcases hc with hc | hc | hc
      · exact absurd hd hc
      · cases hc
      · exact hc
    cases turn_of_move h with
    | gap hb => exact move_gap hb _
    | remark =>
      obtain ⟨cs', hv, htake, hdrop⟩ :=
        move_remark cs (show ∀ d, ('\n' :: rest).head? = some d → d = '\n' by
          rintro d ⟨⟩
          rfl)
      exact move_of_parts hv htake (by rw [hdrop, hd, List.nil_append])
    | indented => cases hd
    | classic => exact hplain Nat.one_ne_zero (by decide) (by decide)
    | @opening n _ => exact hplain Nat.one_ne_zero (by decide) (by decide)
    | @closing n _ _ => exact hplain Nat.one_ne_zero (by decide) (by decide)
    | @blank n _ _ _ => exact hplain Nat.one_ne_zero (hother n rfl).1 (hother n rfl).2
    | @lineEnd n _ => exact absurd rfl (hother n rfl).1
    | @comment n _ => exact absurd rfl (hother n rfl).2
    | @token n _ _ _ _ hk =>
      exact hplain (Nat.ne_of_gt (Token.length?_pos hk)) (hother n rfl).1 (hother n rfl).2

/-- A turn stays within the text, unless it looks for the line end of a comment. -/
theorem passed_le (h : move m c cs = .ok v) : v.passed ≤ cs.length + 1 ∨ m ≠ none ∧ c = ';' := by
  cases turn_of_move h with
  | gap | classic | opening | closing | blank => exact Or.inl (Nat.succ_pos _)
  | remark =>
    rw [lineLength_comment]
    exact Or.inl (Nat.succ_le_succ (List.takeWhile_sublist _).length_le)
  | indented => exact Or.inl (Nat.zero_le _)
  | @lineEnd n _ =>
    obtain ⟨j, k, old, hcs, hp, -⟩ := n.exists_breakLine cs
    have hlen := congrArg List.length hcs
    simp only [List.length_cons, List.length_append, List.length_replicate] at hlen
    exact Or.inl (by omega)
  | comment => exact Or.inr ⟨by simp, rfl⟩
  | token _ hk => exact Or.inl (Token.length?_le hk)

/-- What a scan comes to after a blank line, if it comes to that after its first turn. -/
theorem scan_append_of_move (h : move m c cs = .ok v)
    (h' : move m c (cs ++ '\n' :: '\n' :: rest) = .ok v)
    (hp : v.passed ≤ cs.length + 1)
    (hrest : scan v.next ((c :: cs).drop v.passed ++ '\n' :: '\n' :: rest) =
      (scan none rest).after
        ⟨((c :: cs).drop v.passed).length + 2, (scan v.next ((c :: cs).drop v.passed)).strokes,
          none⟩) :
    scan m (c :: cs ++ '\n' :: '\n' :: rest) =
      (scan none rest).after ⟨(c :: cs).length + 2, (scan m (c :: cs)).strokes, none⟩ := by
  have hdrop : (c :: (cs ++ '\n' :: '\n' :: rest)).drop v.passed =
      (c :: cs).drop v.passed ++ '\n' :: '\n' :: rest := by
    rw [← List.cons_append, List.drop_append_of_le_length (by simpa using hp)]
  have hlen : v.passed + (((c :: cs).drop v.passed).length + 2) = (c :: cs).length + 2 := by
    rw [List.length_drop, List.length_cons]
    omega
  rw [List.cons_append, scan_ok h', hdrop, hrest, Scan.after_after, Move.followedBy, hlen,
    scan_ok h]
  rfl

/-- Line ends at the end of a text and those of the blank line after it are one run. -/
theorem scan_ends_append {n : Nesting} (j : Nat) (hm : Closable (some n))
    (ht : (rest.dropWhile (· = '\n')).head? ≠ some '\t') :
    scan (some n) (List.replicate (j + 1) '\n' ++ '\n' :: '\n' :: rest) =
      (scan none rest).after
        ⟨j + 3, (scan (some n) (List.replicate (j + 1) '\n')).strokes, none⟩ := by
  have hall : List.replicate (j + 1) '\n' ++ '\n' :: '\n' :: rest =
      List.replicate (j + 2 + 1) '\n' ++ rest := by
    rw [show '\n' :: '\n' :: rest = List.replicate 2 '\n' ++ rest from rfl, ← List.append_assoc,
      List.replicate_append_replicate]
  have halone : scan (some n) (List.replicate (j + 1) '\n' ++ []) = _ :=
    scan_ends j (hm.endsBefore (by simp))
  rw [List.append_nil] at halone
  rw [hall, scan_ends (j + 2) (hm.endsBefore ht), halone, scan_nil]
  simp [Scan.after, levelOf]

/-- Line ends that a text ends with, before a blank line. -/
theorem scan_lineEnd_append {n : Nesting}
    (hd : ('\n' :: cs).drop (n.breakLine ('\n' :: cs)).passed = [])
    (hm : Closable (n.breakLine ('\n' :: cs)).next)
    (ht : (rest.dropWhile (· = '\n')).head? ≠ some '\t')
    (hsame : move (some n) '\n' (cs ++ '\n' :: '\n' :: rest) = .ok (n.breakLine ('\n' :: cs)) →
      scan (some n) ('\n' :: cs ++ '\n' :: '\n' :: rest) =
        (scan none rest).after ⟨cs.length + 3, (scan (some n) ('\n' :: cs)).strokes, none⟩) :
    scan (some n) ('\n' :: cs ++ '\n' :: '\n' :: rest) =
      (scan none rest).after ⟨cs.length + 3, (scan (some n) ('\n' :: cs)).strokes, none⟩ := by
  obtain ⟨j, k, old, hcs, hp, -, -, hbreak⟩ := n.exists_breakLine cs
  obtain rfl : old = [] := by
    rw [hp, hcs, ← List.drop_drop, drop_run, drop_run] at hd
    exact hd
  rw [List.append_nil] at hcs
  cases k with
  | succ k =>
    -- Tabs come last, and are seen as before.
    refine hsame ?_
    have hmove := hbreak ('\n' :: '\n' :: rest) (fun _ => Nat.succ_ne_zero k) (by simp)
    rw [← List.append_assoc, ← hcs] at hmove
    rw [move_breakLine, ← hmove, List.cons_append]
  | zero =>
    rw [List.replicate_zero, List.append_nil] at hcs
    have hclosable : Closable (some n) := by
      rintro n' ⟨⟩ hs
      by_cases h0 : n.opened = 0
      · exact h0
      · have hopen : n.breakLine (List.replicate (j + 1) '\n' ++ []) = _ :=
          Nesting.breakLine_open j hs h0 (by simp)
        rw [List.append_nil, ← hcs] at hopen
        rw [hopen] at hm
        exact hm n rfl hs
    have hlen : cs.length = j := by
      simpa using congrArg List.length hcs
    rw [hcs, scan_ends_append j hclosable ht, hlen]

/-- A comment that a text ends with, before a blank line. -/
theorem scan_comment_append {n : Nesting} (hd : cs.drop (lineLength cs + 1) = [])
    (hm : Closable (some n)) (ht : (rest.dropWhile (· = '\n')).head? ≠ some '\t')
    (hsame : move (some n) ';' (cs ++ '\n' :: '\n' :: rest) =
        .ok ⟨lineLength (';' :: cs) + 1, [], some n⟩ → lineLength (';' :: cs) + 1 ≤ cs.length + 1 →
      scan (some n) (';' :: cs ++ '\n' :: '\n' :: rest) =
        (scan none rest).after ⟨cs.length + 3, (scan (some n) (';' :: cs)).strokes, none⟩) :
    scan (some n) (';' :: cs ++ '\n' :: '\n' :: rest) =
      (scan none rest).after ⟨cs.length + 3, (scan (some n) (';' :: cs)).strokes, none⟩ := by
  have hline : cs = cs.take (lineLength cs) ++ cs.drop (lineLength cs) :=
    (List.take_append_drop _ _).symm
  rcases drop_lineLength cs with hnil | ⟨ds, hds⟩
  · -- The comment has no line end but the first of the blank line.
    have hcs : cs.take (lineLength cs) = cs := by
      rw [hnil, List.append_nil] at hline
      exact hline.symm
    have hn : '\n' ∉ cs := hcs ▸ notMem_line cs
    have hmove := move_comment n hn ('\n' :: rest)
    have halone : move (some n) ';' cs = .ok ⟨cs.length + 2, [], some n⟩ := by
      have hlen : lineLength cs = cs.length := by
        rw [← length_line, hcs]
      simp [move, Nesting.move, lineLength_comment, hlen]
    have hleft : (';' :: (cs ++ '\n' :: '\n' :: rest)).drop (cs.length + 2) = '\n' :: rest := by
      simp [← List.drop_drop]
    have hnone : (';' :: cs).drop (cs.length + 2) = [] := List.drop_eq_nil_of_le (by simp)
    rw [List.cons_append, scan_ok hmove, hleft, scan_ok halone, hnone,
      show '\n' :: rest = List.replicate (0 + 1) '\n' ++ rest from rfl,
        scan_ends 0 (hm.endsBefore ht),
      Scan.after_after, scan_nil]
    rfl
  · -- The comment has a line end of its own.
    obtain rfl : ds = [] := by
      rw [← List.drop_drop, hds] at hd
      exact hd
    rw [hds] at hline
    have hlen : cs.length = lineLength cs + 1 := by
      rw [← length_line cs]
      exact (congrArg List.length hline).trans List.length_append
    refine hsame ?_ ?_
    · have hmove := move_comment n (notMem_line cs) ('\n' :: '\n' :: rest)
      rw [length_line, ← List.singleton_append, ← List.append_assoc, ← hline] at hmove
      rw [hmove, lineLength_comment]
    · exact Nat.le_of_eq (by rw [lineLength_comment, hlen])

/-- **A text, a blank line and another text are scanned one after the other**, if the blank line can
end the block that the first text ends in.  The induction is on the turns of the first text, with
its end as the two cases in which a turn looks further. -/
theorem scan_append_break (ho : (scan m cs).offence? = none)
    (hm : ∀ m', Reaches m cs m' [] → Closable m')
    (ht : (rest.dropWhile (· = '\n')).head? ≠ some '\t') :
    scan m (cs ++ '\n' :: '\n' :: rest) =
      (scan none rest).after ⟨cs.length + 2, (scan m cs).strokes, none⟩ := by
  fun_induction scan m cs with
  | case1 m => exact scan_ends 1 ((hm m .refl).endsBefore ht)
  | case2 m c cs o hv => cases ho
  | case3 m c cs v hv ih =>
    have ih := ih ho fun m' hr => hm m' (Reaches.cons hv hr)
    have hsame : move m c (cs ++ '\n' :: '\n' :: rest) = .ok v → v.passed ≤ cs.length + 1 →
        scan m (c :: cs ++ '\n' :: '\n' :: rest) =
          (scan none rest).after ⟨(c :: cs).length + 2, (scan m (c :: cs)).strokes, none⟩ :=
      fun h hp => scan_append_of_move hv h hp ih
    rw [← scan_ok hv]
    have hle := passed_le hv
    cases hd : (c :: cs).drop v.passed with
    | cons d ds =>
      -- Something is left, so the turn stays within the text.
      have hlt : v.passed < cs.length + 1 := by
        have hlen := congrArg List.length hd
        rw [List.length_drop, List.length_cons, List.length_cons] at hlen
        omega
      exact hsame (move_append hv (Or.inl (by simp [hd]))) (Nat.le_of_lt hlt)
    | nil =>
      have hnext : Closable v.next := by
        refine hm v.next (Reaches.cons hv ?_)
        rw [hd]
        exact .refl
      cases turn_of_move hv with
      | gap | remark =>
        exact hsame (move_append hv (Or.inr (Or.inl rfl))) (hle.resolve_right fun h => h.1 rfl)
      | indented => cases hd
      | lineEnd =>
        exact scan_lineEnd_append hd hnext ht fun h => hsame h (hle.resolve_right (by simp))
      | comment =>
        rw [lineLength_comment, List.drop_succ_cons] at hd
        exact scan_comment_append hd hnext ht hsame
      | classic | opening | closing =>
        exact hsame (move_append hv (Or.inr (Or.inr (by decide)))) (hle.resolve_right (by simp))
      | blank hb =>
        have hc : c ≠ '\n' ∧ c ≠ ';' := by rcases hb with rfl | rfl <;> decide
        exact hsame (move_append hv (Or.inr (Or.inr hc))) (hle.resolve_right fun h => hc.2 h.2)
      | token hb _ =>
        have hc : c ≠ '\n' ∧ c ≠ ';' := (Token.isStart_iff.mp hb).2.2.2.2
        exact hsame (move_append hv (Or.inr (Or.inr hc))) (hle.resolve_right fun h => hc.2 h.2)

end Append

/-! ## 3. Two texts -/

/-- A scan without offence ends every list that it starts. -/
theorem level_draw_scan {m : Option Nesting} {cs : List Char} {d : Draft}
    (ho : (scan m cs).offence? = none) (hl : d.level = levelOf m) :
    (d.draw (scan m cs).strokes).level = 0 := by
  fun_induction scan m cs generalizing d with
  | case1 m => rw [Draft.level_draw_leave, hl, Nat.sub_self]
  | case2 m c cs o hv => cases ho
  | case3 m c cs v hv ih =>
    rw [Scan.after, Draft.draw_append]
    exact ih ho (level_draw_move hv hl)

/-- What a text says under handle `0`. -/
theorem subtree_of_read {text file : String} {t : Tree} (h : read text file = .ok t) :
    t.subtree 0 = .ok (.list (draftOf text).said) := by
  obtain ⟨ho, rfl⟩ := read_eq_ok_iff.mp h
  exact Draft.subtree_zero (level_draw_scan ho rfl)

/-- A span so many lines further down. -/
def Span.below (n : Nat) (s : Span) : Span :=
  { s with startLine := s.startLine + n, endLine := s.endLine + n }

/-- The same report so many lines further down. -/
def Rejection.below (n : Nat) (e : Rejection) : Rejection :=
  { e with diagnostic := { e.diagnostic with
      labels := e.diagnostic.labels.map fun l => { l with span := l.span.below n } } }

/-- **A report depends on the line that it is about and on the rest of the text**, and otherwise
only on the number of the line.  What lies on earlier lines is not quoted. -/
theorem Offence.report_below {here here' : Cursor} {n : Nat} (ha : here'.ahead = here.ahead)
    (hs : here'.startOfLine = here.startOfLine) (hl : here'.place.line = here.place.line + n)
    (hc : here'.place.column = here.place.column) (file : String) (o : Offence) :
    o.report file here' = (o.report file here).below n := by
  have hrest : here'.restOfLine = here.restOfLine := by
    rw [Cursor.restOfLine, Cursor.restOfLine, ha]
  have hfixes : o.suggestions here' = o.suggestions here := by
    cases o <;> simp only [Offence.suggestions, Cursor.lineWithoutHere, hrest, hs]
  have hspan : Offence.span file here' = (Offence.span file here).below n := by
    simp only [Offence.span, Span.below, hl, hc, Int.natCast_add]
  simp only [Offence.report, Rejection.below, hfixes, hspan, hrest, ha, List.map_cons, List.map_nil]

section Texts

variable {t1 t2 file : String} {tree1 : Tree}

/-- A text, a blank line and another text, as a reader sees them. -/
theorem unify_separated (h1 : '\r' ∉ t1.toList) (h2 : '\r' ∉ t2.toList) :
    Lines.unify (t1 ++ "\n\n" ++ t2).toList = t1.toList ++ '\n' :: '\n' :: t2.toList := by
  have htext : (t1 ++ "\n\n" ++ t2).toList = t1.toList ++ '\n' :: '\n' :: t2.toList := by
    rw [String.toList_append, String.toList_append, List.append_assoc]
    rfl
  rw [htext, Lines.unify_of_notMem]
  simp [h1, h2]

/-- **The scans of two texts, one after the other.** -/
theorem scanText_separated (h1 : '\r' ∉ t1.toList) (h2 : '\r' ∉ t2.toList)
    (hread : read t1 file = .ok tree1)
    (hclosed : ∀ k b r, Reader.Visits t1 file k (some b) r → r.cursor.ahead = [] →
      b.style = .classic → b.opened = 0)
    (ht : (t2.toList.dropWhile (· = '\n')).head? ≠ some '\t') :
    scanText (t1 ++ "\n\n" ++ t2) =
      (scanText t2).after ⟨t1.toList.length + 2, (scanText t1).strokes, none⟩ := by
  have ho := (read_eq_ok_iff.mp hread).1
  rw [scanText, Lines.unify_of_notMem h1] at ho
  rw [scanText, scanText, scanText, unify_separated h1 h2, Lines.unify_of_notMem h1,
    Lines.unify_of_notMem h2]
  refine scan_append_break ho ?_ ht
  rintro m' hr n rfl hs
  rw [← Lines.unify_of_notMem h1] at hr
  obtain ⟨k, o, r, hv, ⟨d, -, rfl, -⟩, ha⟩ := Reader.visits_of_reaches file hr
  exact hclosed k _ r hv ha hs

/-- The place of an offence in the second text, as one of both texts. -/
theorem report_separated (file : String) (h1 : '\r' ∉ t1.toList) (h2 : '\r' ∉ t2.toList)
    (hscan : scanText (t1 ++ "\n\n" ++ t2) =
      (scanText t2).after ⟨t1.toList.length + 2, (scanText t1).strokes, none⟩) (o : Offence) :
    o.report file (placeOf (t1 ++ "\n\n" ++ t2)) =
      (o.report file (placeOf t2)).below ((t1 ++ "\n\n").toList.count '\n') := by
  have hpassed : (scanText (t1 ++ "\n\n" ++ t2)).passed =
      (t1.toList ++ ['\n', '\n']).length + (scanText t2).passed := by
    rw [hscan, List.length_append]
    rfl
  have hsource : Lines.unify (t1 ++ "\n\n" ++ t2).toList =
      (t1.toList ++ ['\n', '\n']) ++ Lines.unify t2.toList := by
    rw [unify_separated h1 h2, Lines.unify_of_notMem h2, List.append_assoc]
    rfl
  have hbehind : (placeOf (t1 ++ "\n\n" ++ t2)).behind.reverse =
      (t1.toList ++ ['\n']) ++ '\n' :: (placeOf t2).behind.reverse := by
    rw [behind_placeOf, behind_placeOf, hsource, hpassed, List.take_length_add_append]
    simp
  have hlast : Lines.last (placeOf (t1 ++ "\n\n" ++ t2)).behind.reverse =
      Lines.last (placeOf t2).behind.reverse := by
    rw [hbehind, Lines.last_append_cons]
  have hplace := Cursor.placed_iff.mp (placed_placeOf (t1 ++ "\n\n" ++ t2))
  have hplace2 := Cursor.placed_iff.mp (placed_placeOf t2)
  refine Offence.report_below ?_ ?_ ?_ ?_ file o
  · have hahead : ∀ t : String,
        (placeOf t).ahead = (Lines.unify t.toList).drop (scanText t).passed := fun t => by
      rw [placeOf, Cursor.skip_ahead]
      rfl
    rw [hahead, hahead, hsource, hpassed, List.drop_length_add_append]
  · rw [Cursor.startOfLine_eq, Cursor.startOfLine_eq, hlast]
  · have hcount : (t1 ++ "\n\n").toList.count '\n' = t1.toList.count '\n' + 2 := by
      rw [String.toList_append, List.count_append]
      rfl
    rw [hplace, hplace2, hcount, hbehind]
    simp only [Place.after, List.count_append, List.count_cons, List.count_nil, beq_self_eq_true,
      if_true]
    omega
  · rw [hplace, hplace2, Place.after, Place.after, hlast]

/-- **Texts that a blank line separates do not depend on each other.**  If the first text is read,
with the parentheses of its classic blocks closed where it ends, and the second does not start with
a tab, then both together say what the first says and then what the second says, and what is wrong
with the second text is wrong in the same way with both together, as many lines further down as come
before. -/
theorem read_separated (h1 : '\r' ∉ t1.toList) (h2 : '\r' ∉ t2.toList)
    (hread : read t1 file = .ok tree1)
    (hclosed : ∀ k b r, Reader.Visits t1 file k (some b) r → r.cursor.ahead = [] →
      b.style = .classic → b.opened = 0)
    (ht : (t2.toList.dropWhile (· = '\n')).head? ≠ some '\t') :
    (∀ tree2, read t2 file = .ok tree2 →
      ∃ tree ds1 ds2, read (t1 ++ "\n\n" ++ t2) file = .ok tree ∧
        tree1.subtree 0 = .ok (.list ds1) ∧ tree2.subtree 0 = .ok (.list ds2) ∧
        tree.subtree 0 = .ok (.list (ds1 ++ ds2))) ∧
    (∀ failure, read t2 file = .error failure →
      ∃ e, failure = .rejected e ∧ read (t1 ++ "\n\n" ++ t2) file =
        .error (.rejected (e.below ((t1 ++ "\n\n").toList.count '\n')))) := by
  have hscan := scanText_separated h1 h2 hread hclosed ht
  constructor
  · intro tree2 hread2
    obtain ⟨ho2, -⟩ := read_eq_ok_iff.mp hread2
    have hboth : read (t1 ++ "\n\n" ++ t2) file =
        .ok (draftOf (t1 ++ "\n\n" ++ t2)).tree.unwrap := by
      refine read_eq_ok_iff.mpr ⟨?_, rfl⟩
      rw [hscan]
      exact ho2
    have hsaid : (draftOf (t1 ++ "\n\n" ++ t2)).said = (draftOf t1).said ++ (draftOf t2).said := by
      have hdraw : draftOf (t1 ++ "\n\n" ++ t2) = (draftOf t1).draw (scanText t2).strokes := by
        rw [draftOf, hscan, Scan.after, Draft.draw_append]
        rfl
      rw [hdraw]
      exact Draft.said_draw (level_draw_scan (read_eq_ok_iff.mp hread).1 rfl)
        (level_draw_scan ho2 rfl)
    refine ⟨_, _, _, hboth, subtree_of_read hread, subtree_of_read hread2, ?_⟩
    rw [← hsaid]
    exact subtree_of_read hboth
  · intro failure hfail
    rw [read_eq] at hfail
    cases ho2 : (scanText t2).offence? with
    | none =>
      rw [ho2] at hfail
      cases hfail
    | some o =>
      rw [ho2] at hfail
      have hboth := read_eq (t1 ++ "\n\n" ++ t2) file
      have ho : (scanText (t1 ++ "\n\n" ++ t2)).offence? = some o := by
        rw [hscan]
        exact ho2
      rw [ho] at hboth
      refine ⟨_, (Except.error.inj hfail).symm, ?_⟩
      have hreport := report_separated file h1 h2 hscan o
      exact hboth.trans (congrArg (Except.error ∘ ReadFailure.rejected) hreport)

end Texts

theorem read_separated_after_a_classic_block :
    ∃ e, read "b\n c)" "f" = .error (.rejected e) ∧
      read ("(a)" ++ "\n\n" ++ "b\n c)") "f" = .error (.rejected (e.below 2)) := by
  have hread : read "(a)" "f" = .ok (draftOf "(a)").tree.unwrap :=
    read_eq_ok_iff.mpr ⟨by decide +kernel, rfl⟩
  have hfail := read_eq "b\n c)" "f"
  rw [show (scanText "b\n c)").offence? = some .extraClose by decide +kernel] at hfail
  have hclosed : ∀ k b r, Reader.Visits "(a)" "f" k (some b) r → r.cursor.ahead = [] →
      b.style = .classic → b.opened = 0 := by
    intro k b r hv ha _
    obtain ⟨m, hf, hr⟩ := hv.fits
    rw [ha, show Lines.unify "(a)".toList = ['(', 'a', ')'] from rfl] at hr
    -- Three turns lead to the end.
    have hr := (hr.head (move_start _)).resolve_left (by simp)
    have htoken : Token.length? ['a', ')'] = some 1 := by decide
    have hr := (hr.head (move_token (by decide) htoken _)).resolve_left (by simp)
    have hr := (hr.head (move_closing 0 [])).resolve_left (by simp)
    obtain ⟨rfl, -⟩ := hr.nil
    obtain ⟨n, d, hn, -, rfl, -⟩ := Reader.fits_some hf
    cases hn
    rfl
  have htext : '\r' ∉ "b\n c)".toList := by decide
  obtain ⟨e, he, hboth⟩ := (read_separated (by decide) htext hread hclosed (by decide)).2 _ hfail
  cases he
  exact ⟨_, hfail, hboth⟩

end IndentLisp
