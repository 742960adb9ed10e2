/-
# Source order

Whatever a text nests, the tree holds its tokens in the order of the text, and the handles of the
tree in that order are `0, 1, 2, …`.  Both hold of the tree that a reading ends with and of the tree
that an offence leaves behind.

Indentation and parentheses decide where a token is put, and never which one comes first: a token is
put at the end of the innermost open list, behind everything that was drawn before it.  That is the
second half of the argument, and was proved of drafts.  The first half is here: the tokens that a
reader takes are those that anyone finds who goes through the text and sees no structure in it
(`flatTokens`), for whom a parenthesis is a blank and a comment is one whatever the block is.

That the reader treats a comment in two ways makes no difference to its tokens, and neither do the
tabs that it counts after line ends; so each turn passes the tokens that it draws
(`flatTokens_move`).  To say this of the text up to where a reading stops, it is said of the front
of the text, cut at any place after the turn.

* `flatTokens`: the tokens of a text for someone who sees no structure in it.
* `flatTokens_scan`: a scan draws the tokens of the text that it passes, as far as it comes.
* `Reader.stop`: the reader as a reading leaves it, with a tree or with an offence.
* `read_source_order`: **no token is lost, doubled or moved, and the handles follow the source.**
-/
import IndentLisp.Proofs.Reader.Drawing
import IndentLisp.Proofs.Token.Ending

namespace IndentLisp

/-! ## 1. Tokens without structure -/

/-- The tokens of a text from left to right, `none` if one is malformed.  Parentheses count for no
more than blanks, and a comment goes to the end of its line, wherever it stands. -/
def flatTokens : List Char → Option (List String)
  | [] => some []
  | c :: cs =>
    if c = ';' then flatTokens (cs.dropWhile (· ≠ '\n'))
    else if Token.isStart c then
      match h : Token.length? (c :: cs) with
      | some n =>
        have := Token.length?_pos h
        (flatTokens ((c :: cs).drop n)).map (String.ofList ((c :: cs).take n) :: ·)
      | none => none
    else flatTokens cs
termination_by cs => cs.length
decreasing_by
  · exact Nat.lt_succ_of_le (List.dropWhile_sublist _).length_le
  · rw [List.length_drop, List.length_cons]
    omega
  · exact Nat.lt_succ_self _

@[simp] theorem flatTokens_nil : flatTokens [] = some [] := by
  rw [flatTokens]

theorem flatTokens_comment (cs : List Char) :
    flatTokens (';' :: cs) = flatTokens (cs.dropWhile (· ≠ '\n')) := by
  rw [flatTokens, if_pos rfl]

/-- Whether a character means nothing to someone who sees no structure. -/
def isGap (c : Char) : Bool :=
  !Token.isStart c && c ≠ ';'

theorem flatTokens_gap {c : Char} (hc : isGap c = true) (cs : List Char) :
    flatTokens (c :: cs) = flatTokens cs := by
  simp only [isGap, Bool.and_eq_true, Bool.not_eq_true', decide_eq_true_eq] at hc
  rw [flatTokens, if_neg hc.2, if_neg (by simp [hc.1])]

theorem flatTokens_gaps {gaps : List Char} (h : ∀ c ∈ gaps, isGap c = true) (cs : List Char) :
    flatTokens (gaps ++ cs) = flatTokens cs := by
  induction gaps with
  | nil => rfl
  | cons c gaps ih =>
    rw [List.cons_append, flatTokens_gap (h c List.mem_cons_self),
      ih fun d hd => h d (List.mem_cons_of_mem _ hd)]

theorem flatTokens_token {c : Char} {cs : List Char} {n : Nat} (hc : Token.isStart c = true)
    (h : Token.length? (c :: cs) = some n) :
    flatTokens (c :: cs) =
      (flatTokens ((c :: cs).drop n)).map (String.ofList ((c :: cs).take n) :: ·) := by
  have hne : c ≠ ';' := (Token.isStart_iff.mp hc).2.2.2.2.2
  rw [flatTokens, if_neg hne, if_pos hc]
  split
  · rename_i m hm
    rw [h] at hm
    cases hm
    rfl
  · rename_i hn
    rw [h] at hn
    cases hn

/-! ## 2. What a scan passes -/

/-- A comment is passed as a whole, wherever the text is cut after it. -/
theorem flatTokens_line (cs : List Char) (k : Nat) :
    flatTokens ((';' :: cs).take (lineLength (';' :: cs) + k)) =
      flatTokens (((';' :: cs).drop (lineLength (';' :: cs))).take k) := by
  have hall : ∀ c ∈ cs.take (lineLength cs), decide (c ≠ '\n') = true := by
    intro c hc
    have hne : c ≠ '\n' := fun e => notMem_line cs (e ▸ hc)
    simp [hne]
  rw [lineLength_comment, Nat.add_right_comm, List.take_succ_cons, List.drop_succ_cons,
    flatTokens_comment, List.take_add, List.dropWhile_append_of_pos hall]
  -- What is left is empty or starts with a line end, before which nothing more is dropped.
  rcases drop_lineLength cs with hd | ⟨ds, hd⟩
  · rw [hd, List.take_nil, List.dropWhile_nil]
  · rw [hd]
    cases k with
    | zero => rfl
    | succ k => rw [List.take_succ_cons, List.dropWhile_cons_of_neg (by decide)]

/-- Characters at the front that are all gaps are passed as a whole. -/
theorem flatTokens_run {p : Char → Bool} (h : ∀ c, p c = true → isGap c = true) (cs : List Char)
    (k : Nat) : flatTokens (cs.take ((cs.takeWhile p).length + k)) =
      flatTokens ((cs.drop (cs.takeWhile p).length).take k) := by
  rw [List.take_add, take_takeWhile]
  exact flatTokens_gaps (fun c hc => h c (List.all_eq_true.mp List.all_takeWhile c hc)) _

/-- Line ends, and the tabs after them, hold no token, and draw none. -/
theorem flatTokens_breakLine (n : Nesting) (cs : List Char) (k : Nat) :
    (n.breakLine cs).strokes.filterMap Stroke.text? = [] ∧
      flatTokens (cs.take ((n.breakLine cs).passed + k)) =
        flatTokens ((cs.drop (n.breakLine cs).passed).take k) := by
  have hend : ∀ c, decide (c = '\n') = true → isGap c = true := by
    intro c hc
    rw [of_decide_eq_true hc]
    rfl
  have htab : ∀ c, decide (c = '\t') = true → isGap c = true := by
    intro c hc
    rw [of_decide_eq_true hc]
    rfl
  obtain ⟨style, depth, opened⟩ := n
  unfold Nesting.breakLine
  cases style with
  | classic =>
    simp only
    split <;> exact ⟨rfl, flatTokens_run hend cs k⟩
  | indented =>
    simp only
    split
    · exact ⟨by simp [Stroke.text?], flatTokens_run hend cs k⟩
    · rename_i tabs ht
      refine ⟨Stroke.text?_line _ _, ?_⟩
      have ht : tabs + 1 = _ := ht.symm
      simp only
      rw [Nat.add_assoc, flatTokens_run hend, ht, flatTokens_run htab, List.drop_drop]

/-- One gap. -/
theorem flatTokens_one {c : Char} (hc : isGap c = true) (cs : List Char) (k : Nat) :
    flatTokens ((c :: cs).take (1 + k)) = flatTokens (((c :: cs).drop 1).take k) := by
  rw [Nat.add_comm, List.take_succ_cons, flatTokens_gap hc]
  rfl

/-- A comment with the line end after it. -/
theorem flatTokens_wholeLine (cs : List Char) (k : Nat) :
    flatTokens ((';' :: cs).take (lineLength (';' :: cs) + 1 + k)) =
      flatTokens (((';' :: cs).drop (lineLength (';' :: cs) + 1)).take k) := by
  rw [Nat.add_assoc, flatTokens_line, ← List.drop_drop]
  rcases drop_lineLength (';' :: cs) with hd | ⟨ds, hd⟩
  · simp [hd]
  · rw [hd]
    exact flatTokens_one rfl ds k

/-- **Each turn of a scan draws the tokens that it passes.**  The text may be cut anywhere behind
the turn, which is how the statement is used for the part of a text that was read. -/
theorem flatTokens_move {m : Option Nesting} {c : Char} {cs : List Char} {v : Move}
    (h : move m c cs = .ok v) (k : Nat) :
    flatTokens ((c :: cs).take (v.passed + k)) =
      (flatTokens (((c :: cs).drop v.passed).take k)).map
        (v.strokes.filterMap Stroke.text? ++ ·) := by
  have hid : ∀ o : Option (List String), o.map ([] ++ ·) = o := by
    intro o
    cases o <;> rfl
  cases turn_of_move h with
  | gap hc =>
    have hgap : isGap c = true := by rcases hc with rfl | rfl | rfl <;> rfl
    exact (flatTokens_one hgap cs k).trans (hid _).symm
  | remark => exact (flatTokens_line cs k).trans (hid _).symm
  | classic | opening | closing => exact (flatTokens_one rfl cs k).trans (hid _).symm
  | indented =>
    rw [Nat.zero_add]
    exact (hid _).symm
  | blank hc =>
    have hgap : isGap c = true := by rcases hc with rfl | rfl <;> rfl
    exact (flatTokens_one hgap cs k).trans (hid _).symm
  | @lineEnd n _ =>
    obtain ⟨hs, hp⟩ := flatTokens_breakLine n ('\n' :: cs) k
    rw [hp, hs, hid]
  | comment => exact (flatTokens_wholeLine cs k).trans (hid _).symm
  | @token n _ _ j hc hj =>
    have hpos := Token.length?_pos hj
    have ht := Token.length?_take hj (Nat.le_add_right j k)
    have hx : (c :: cs).take (j + k) = c :: cs.take (j + k - 1) := by
      rw [show j + k = j + k - 1 + 1 by omega, List.take_succ_cons]
      rfl
    rw [hx] at ht
    rw [hx, flatTokens_token hc ht, ← hx, List.drop_take, List.take_take,
      Nat.add_sub_cancel_left, Nat.min_eq_left (Nat.le_add_right j k)]
    rfl

/-- **A scan draws the tokens of the text that it passes**, as far as it comes.  In particular that
part of the text has no malformed token, whatever comes after it. -/
theorem flatTokens_scan (m : Option Nesting) (cs : List Char) :
    flatTokens (cs.take (scan m cs).passed) =
      some ((scan m cs).strokes.filterMap Stroke.text?) := by
  fun_induction scan m cs with
  | case1 m => simp [Stroke.text?]
  | case2 m c cs o h => simp
  | case3 m c cs v h ih =>
    simp only [Scan.after]
    rw [flatTokens_move h, ih, Option.map_some, List.filterMap_append]

/-! ## 3. The tree -/

/-- The reader as a reading leaves it, with a tree or with an offence.  A caller who keeps the
reader can look at its tree in either case. -/
def Reader.stop (text file : String) : Reader :=
  match Reader.readAll (.ofText text file) with
  | .ok _ r => r
  | .error _ r => r

namespace Cursor

/-- What a cursor passes comes to lie behind it. -/
theorem behind_skip (n : Nat) (c : Cursor) :
    (c.skip n).behind = (c.ahead.take n).reverse ++ c.behind := by
  induction n generalizing c with
  | zero => simp [skip]
  | succ n ih =>
    obtain ⟨behind, _ | ⟨x, xs⟩, place⟩ := c
    · rw [skip, ih]
      simp [advance]
    · rw [skip, ih]
      simp [advance]

end Cursor

/-- What a reading leaves is what the scan draws, and its text up to the place to which the scan
comes. -/
theorem Reader.stop_eq (text file : String) :
    (Reader.stop text file).cursor = placeOf text ∧
      ((scanText text).offence? = none →
        (Reader.stop text file).tree = (draftOf text).tree.unwrap) ∧
      ((scanText text).offence? ≠ none → (Reader.stop text file).tree = (draftOf text).tree) := by
  unfold Reader.stop
  rw [readAll_eq]
  cases (scanText text).offence? <;> simp

theorem text_placeOf (text : String) : (placeOf text).text = Lines.unify text.toList := by
  rw [placeOf, Cursor.text_skip]
  rfl

/-- The tokens of the text up to the place to which it can be read. -/
theorem flatTokens_behind (text : String) :
    flatTokens (placeOf text).behind.reverse = some (draftOf text).texts := by
  have hstart : Draft.start.texts = [] := rfl
  rw [placeOf, Cursor.behind_skip, draftOf, Draft.texts_draw, hstart]
  simp only [Cursor.ofText, List.append_nil, List.nil_append, List.reverse_reverse]
  exact flatTokens_scan none (Lines.unify text.toList)

/-- The branch at handle `0` is the same before and after the root moves. -/
theorem Reader.branchAt_stop (text file : String) :
    (Reader.stop text file).tree.nodes = (draftOf text).tree.nodes ∧
      ∀ h h', (Reader.stop text file).tree.branchAt 0 h = (draftOf text).tree.branchAt 0 h' := by
  obtain ⟨-, hok, herr⟩ := Reader.stop_eq text file
  by_cases ho : (scanText text).offence? = none
  · rw [hok ho]
    exact ⟨rfl, fun h _ => (draftOf text).tree.branchAt_unwrap 0 h⟩
  · rw [herr ho]
    exact ⟨rfl, fun _ _ => rfl⟩

/-- **No token is lost, doubled or moved, and the handles follow the source.**  Where a reading
stops, with a tree or at an offence, a walk from handle `0` meets the handles `0, 1, 2, …` in turn,
and the leaves that it meets hold the tokens of the text behind the cursor.  A reading that ends
with a tree has the whole text behind it, and all of these leaves under its root. -/
theorem read_source_order (text file : String) :
    let r := Reader.stop text file
    r.cursor.text = Lines.unify text.toList ∧
    ∃ h0 : 0 < r.tree.nodes.size,
      (r.tree.branchAt 0 h0).handles = List.range r.tree.size ∧
      flatTokens r.cursor.behind.reverse = some ((r.tree.branchAt 0 h0).leaves.map Prod.snd) ∧
      ∀ t, read text file = .ok t →
        t = r.tree ∧ r.cursor.ahead = [] ∧ t.leaves = (r.tree.branchAt 0 h0).leaves := by
  intro r
  obtain ⟨hc, hok, -⟩ := Reader.stop_eq text file
  obtain ⟨hn, hb⟩ := Reader.branchAt_stop text file
  have hd : 0 < (draftOf text).tree.nodes.size := (draftOf text).size_pos
  have h0 : 0 < r.tree.nodes.size := by
    rw [hn]
    exact hd
  refine ⟨?_, h0, ?_, ?_, fun t ht => ?_⟩
  · rw [hc, text_placeOf]
  · rw [hb h0 hd, Tree.size, hn]
    exact (draftOf text).handles_branchAt_zero hd
  · rw [hb h0 hd, hc, flatTokens_behind, (draftOf text).leaves_branchAt_zero]
  · obtain ⟨ho, ht⟩ := read_eq_ok_iff.mp ht
    refine ⟨(hok ho ▸ ht).symm, ?_, ?_⟩
    · rw [hc, placeOf, Cursor.skip_ahead]
      exact List.drop_eq_nil_of_le (passed_scan ho)
    · rw [hb h0 hd, ← ht]
      exact (draftOf text).leaves_unwrap

end IndentLisp
