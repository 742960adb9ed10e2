/-
# Highlighting cuts a text as reading does

A reader goes through a text step by step, and so does highlighting, by other rules and in other
steps: it takes blanks together, a string in several pieces, and leaves to a piece of its own the
line end that a comment within a block takes along.  **What it marks on the way are the parentheses,
tokens and comments that the reader passes**, each with its offset and its text.

The comparison goes by way of the scan, which goes through a text as a reader does but builds no
tree.  One turn of it passes at the front of a text what highlighting marks there (`cuts_of_move`),
so a whole text that has no offence is marked where its turns pass something (`cuts_scan`).  A turn
of the scan is a step of the reader, and passes a token or a comment just if the step does
(`Reader.takes_iff`, `Reader.skips_iff`).  The two are put together for the text that was read.

What a reader passes is said of its steps alone: `Reader.Takes` is a step that passes a parenthesis
or a token, the text of which is then behind it, and `Reader.Skips` is one that passes a comment.
So the theorem speaks of the reader itself, at every state that the reading goes through (`Visits`).

* `Reader.Visits.offset_add`: the offset of a reader tells how much of its text is left.
* `exists_visit_iff`: from turns of the scan to states of the reading.
* `pieces_cut_as_read`: what this comes to for the pieces of a text that is read to a tree.

Nothing is said of a text that is rejected, where highlighting goes on and the reader does not; nor
of one with other blanks, where the two part ways.
-/
import IndentLisp.Proofs.Highlight.Cuts
import IndentLisp.Proofs.Reader.Position
import IndentLisp.Proofs.Reader.Separation

namespace IndentLisp

/-! ## 1. What a reader passes -/

namespace Reader

/-- A step of a reader that passes a parenthesis or a token.  Steps that pass nothing start a block.
What stands at the cursor tells it from a step that passes a blank or a comment. -/
def Takes (o : Option Block) (r : Reader) (s : String) : Prop :=
  s ≠ "" ∧ (∃ c cs, r.cursor.ahead = c :: cs ∧ startsBlock c = true) ∧
    ∃ o' r', Step o r o' r' ∧ r.cursor.ahead = s.toList ++ r'.cursor.ahead

/-- A step of a reader that passes a comment: the rest of the line, and within a block the line end
as well.  The text is that of the comment alone. -/
def Skips (o : Option Block) (r : Reader) (s : String) : Prop :=
  r.cursor.ahead.head? = some ';' ∧ s = String.ofList r.cursor.restOfLine ∧
    ∃ o' r', Step o r o' r' ∧
      r'.cursor = if o = none then r.cursor.skipLine else r.cursor.skipLine.advance

end Reader

/-- What a turn marks: the parenthesis or the token that it passes, or the comment. -/
def Move.mark? (v : Move) (c : Char) (cs : List Char) : Option Mark :=
  if c = ';' then some (.comment (String.ofList ((c :: cs).take (lineLength (c :: cs)))))
  else if Reader.startsBlock c ∧ v.passed ≠ 0 then
    some (.item (String.ofList ((c :: cs).take v.passed)))
  else none

section Turns

variable {m : Option Nesting} {c : Char} {cs : List Char} {v : Move}

theorem Move.mark?_comment (v : Move) (cs : List Char) :
    v.mark? ';' cs =
      some (.comment (String.ofList ((';' :: cs).take (lineLength (';' :: cs))))) := by
  rw [mark?, if_pos rfl]

theorem Move.mark?_blank (hc : c = ' ' ∨ c = '\t' ∨ c = '\n') (v : Move) (cs : List Char) :
    v.mark? c cs = none := by
  rcases hc with rfl | rfl | rfl <;> rfl

theorem Move.mark?_item (hc : Reader.startsBlock c = true) (hpos : v.passed ≠ 0) :
    v.mark? c cs = some (.item (String.ofList ((c :: cs).take v.passed))) := by
  rw [mark?, if_neg (Reader.startsBlock_iff.mp hc).2.2.2, if_pos ⟨hc, hpos⟩]

namespace Highlight

/-! ## 2. What highlighting marks -/

/-- **What a turn passes is what highlighting marks.**  The line end that a comment within a block
takes along is a blank to highlighting, and so are the tabs after line ends. -/
theorem cuts_of_move (hv : move m c cs = .ok v) (hs : PlainlySpaced (c :: cs)) (offset : Nat) :
    ∃ offset', offset' + ((c :: cs).drop v.passed).length = offset + (c :: cs).length ∧
      Cuts ⟨none, offset, c :: cs⟩ ((v.mark? c cs).toList.map (offset, ·))
        ⟨none, offset', (c :: cs).drop v.passed⟩ := by
  -- The offsets go with the lengths wherever a turn stays within the text.
  have hlen : ∀ {n}, n ≤ cs.length + 1 →
      offset + n + ((c :: cs).drop n).length = offset + (c :: cs).length := by
    intro n hn
    rw [List.length_drop, List.length_cons]
    omega
  cases turn_of_move hv with
  | gap hc =>
    have hb : isBlank c = true := by rcases hc with rfl | rfl | rfl <;> rfl
    rw [Move.mark?_blank hc]
    exact ⟨offset + 1, hlen (Nat.le_add_left 1 _), Cuts.blank hb offset cs⟩
  | remark =>
    rw [Move.mark?_comment]
    exact ⟨_, hlen (run_le _ (';' :: cs)), Cuts.comment offset cs⟩
  | classic | opening =>
    rw [Move.mark?_item rfl Nat.one_ne_zero]
    exact ⟨offset + 1, hlen (Nat.le_add_left 1 _), Cuts.parenthesis (Or.inl rfl) offset cs⟩
  | closing =>
    rw [Move.mark?_item rfl Nat.one_ne_zero]
    exact ⟨offset + 1, hlen (Nat.le_add_left 1 _), Cuts.parenthesis (Or.inr rfl) offset cs⟩
  | indented hc _ =>
    have hnone : (⟨0, [.enter], some ⟨.indented, 0, 0⟩⟩ : Move).mark? c cs = none := by
      simp [Move.mark?, hc]
    rw [hnone]
    exact ⟨offset, rfl, Cuts.refl _⟩
  | blank hc =>
    have hb : isBlank c = true := by rcases hc with rfl | rfl <;> rfl
    rw [Move.mark?_blank (by rcases hc with rfl | rfl <;> simp)]
    exact ⟨offset + 1, hlen (Nat.le_add_left 1 _), Cuts.blank hb offset cs⟩
  | @lineEnd n =>
    obtain ⟨j, k, rest, hcs, hp, -⟩ := n.exists_breakLine cs
    have hrun : (List.replicate (j + 1) '\n' ++ List.replicate k '\t').length = j + 1 + k := by simp
    have hblank : ∀ d ∈ List.replicate (j + 1) '\n' ++ List.replicate k '\t', isBlank d = true := by
      intro d hd
      rcases List.mem_append.mp hd with hd | hd
      · rw [List.eq_of_mem_replicate hd]
        rfl
      · rw [List.eq_of_mem_replicate hd]
        rfl
    rw [← List.append_assoc] at hcs
    rw [Move.mark?_blank (by simp), hp, hcs, ← hrun, List.drop_left]
    exact ⟨_, by simp only [List.length_append, Nat.add_assoc], Cuts.blanks hblank offset rest⟩
  | comment =>
    have hcut := Cuts.comment offset cs
    have hoffset : offset + lineLength (';' :: cs) +
        ((';' :: cs).drop (lineLength (';' :: cs))).length =
        offset + (';' :: cs).length := hlen (run_le _ (';' :: cs))
    rw [Move.mark?_comment, ← List.drop_drop]
    -- The comment takes the line end along, if there is one.
    rcases drop_lineLength (';' :: cs) with hd | ⟨ds, hd⟩
    · rw [hd] at hcut hoffset ⊢
      exact ⟨_, hoffset, hcut⟩
    · rw [hd] at hcut hoffset ⊢
      have htrans := hcut.trans (Cuts.blank rfl _ ds)
      rw [List.append_nil] at htrans
      refine ⟨_, ?_, htrans⟩
      rw [← hoffset, List.drop_one, List.tail_cons, List.length_cons, Nat.add_assoc _ 1,
        Nat.add_comm 1]
  | token hc hk =>
    have hstart : Reader.startsBlock c = true := by
      obtain ⟨-, -, h3, h4, h5, h6⟩ := Token.isStart_iff.mp hc
      exact Reader.startsBlock_iff.mpr ⟨h3, h4, h5, h6⟩
    rw [Move.mark?_item hstart (Nat.ne_of_gt (Token.length?_pos hk))]
    exact ⟨_, hlen (Token.length?_le hk), Cuts.token hs hc hk offset⟩

/-- **A text without offence is marked where its scan passes something**, and nowhere else.  The
marks are told by the states that the scan reaches, so that no list of them has to be computed. -/
theorem cuts_scan (h : (scan m cs).offence? = none) (hs : PlainlySpaced cs) (offset : Nat) :
    ∃ marks, Cuts ⟨none, offset, cs⟩ marks ⟨none, offset + cs.length, []⟩ ∧
      ∀ o x, (o, x) ∈ marks ↔ ∃ m' d ds v, Reaches m cs m' (d :: ds) ∧ move m' d ds = .ok v ∧
        v.mark? d ds = some x ∧ o + (d :: ds).length = offset + cs.length := by
  fun_induction scan m cs generalizing offset with
  | case1 m =>
    refine ⟨[], Cuts.refl _, ?_⟩
    intro o x
    constructor
    · intro hx
      cases hx
    · rintro ⟨m', d, ds, v, hr, -⟩
      cases hr.nil.2
  | case2 m c cs o hm => cases h
  | case3 m c cs v hv ih =>
    obtain ⟨offset', hlen, hcut⟩ := cuts_of_move hv hs offset
    obtain ⟨marks, hrest, hmem⟩ := ih h (hs.drop _) offset'
    rw [hlen] at hrest hmem
    refine ⟨_, hcut.trans hrest, ?_⟩
    intro o x
    rw [List.mem_append, hmem]
    constructor
    · rintro (hx | ⟨m', d, ds, w, hr, hw⟩)
      · obtain ⟨y, hy, he⟩ := List.mem_map.mp hx
        cases he
        exact ⟨m, c, cs, v, .refl, hv, Option.mem_toList.mp hy, rfl⟩
      · exact ⟨m', d, ds, w, hr.cons hv, hw⟩
    · rintro ⟨m', d, ds, w, hr, hw, hx, ho⟩
      rcases hr.head hv with ⟨rfl, he⟩ | hr
      · cases he
        rw [hv] at hw
        cases hw
        obtain rfl : o = offset := Nat.add_right_cancel ho
        exact Or.inl (List.mem_map.mpr ⟨x, Option.mem_toList.mpr hx, rfl⟩)
      · exact Or.inr ⟨m', d, ds, w, hr, hw, hx, ho⟩

end Highlight

/-! ## 3. Turns and steps -/

namespace Reader

variable {o : Option Block} {r : Reader} {s : String}

/-- **A step passes a parenthesis or a token just if the turn marks it.**  Steps and turns
correspond, and what a step passes is what its cursor moves over. -/
theorem takes_iff (hf : Fits m o r) (ha : r.cursor.ahead = c :: cs)
    (hv : IndentLisp.move m c cs = .ok v) :
    Takes o r s ↔ v.mark? c cs = some (.item s) := by
  constructor
  · rintro ⟨hne, ⟨c', cs', ha', hc⟩, o', r', hs, hpass⟩
    obtain ⟨d, ds, w, hd, hw, -, hcur⟩ := hs.fits hf
    cases ha.symm.trans ha'
    cases ha.symm.trans hd
    cases hv.symm.trans hw
    rw [hcur, Cursor.skip_ahead, ha] at hpass
    have htake : (c :: cs).take v.passed = s.toList :=
      List.append_cancel_right ((List.take_append_drop _ _).trans hpass)
    have hpos : v.passed ≠ 0 := by
      intro h0
      rw [h0, List.take_zero] at htake
      exact hne (String.toList_injective htake.symm)
    rw [Move.mark?_item hc hpos, htake, String.ofList_toList]
  · intro hm
    rw [Move.mark?] at hm
    split at hm
    · cases hm
    · split at hm
      · rename_i hc
        cases hm
        obtain ⟨o', r', hs, -, hcur⟩ := exists_step hf ha hv
        refine ⟨?_, ⟨c, cs, ha, hc.1⟩, o', r', hs, ?_⟩
        · intro he
          have hnil : (c :: cs).take v.passed = [] :=
            String.toList_ofList.symm.trans (congrArg String.toList he)
          simp [hc.2] at hnil
        · rw [hcur, Cursor.skip_ahead, ha, String.toList_ofList, List.take_append_drop]
      · cases hm

/-- **A step passes a comment just if the turn marks it**, between blocks and within one.  That a
comment starts with its semicolon and goes to the end of the line is the same for both. -/
theorem skips_iff (hf : Fits m o r) (ha : r.cursor.ahead = c :: cs)
    (hv : IndentLisp.move m c cs = .ok v) :
    Skips o r s ↔ v.mark? c cs = some (.comment s) := by
  have hline : String.ofList r.cursor.restOfLine =
      String.ofList ((c :: cs).take (lineLength (c :: cs))) := by
    rw [Cursor.restOfLine, ha, lineLength, take_takeWhile, Lines.first]
  constructor
  · rintro ⟨hc, rfl, -⟩
    rw [ha] at hc
    cases hc
    rw [Move.mark?_comment, hline]
  · intro hm
    rw [Move.mark?] at hm
    split at hm
    · rename_i hc
      subst hc
      cases hm
      obtain ⟨o', r', hs, -, hcur⟩ := exists_step hf ha hv
      refine ⟨by rw [ha]; rfl, hline.symm, o', r', hs, ?_⟩
      have hskip : r.cursor.skip (lineLength (';' :: cs)) = r.cursor.skipLine := by
        rw [lineLength, ← ha]
        rfl
      obtain ⟨d, -, ho, -⟩ := hf
      rw [hcur, ho]
      cases turn_of_move hv with
      | gap h => rcases h with h | h | h <;> cases h
      | remark => exact hskip
      | indented h _ => exact absurd rfl h.2.2.2
      | blank h => rcases h with h | h <;> cases h
      | comment =>
        rw [Cursor.skip_add, hskip]
        rfl
      | token h _ => exact absurd rfl (Token.isStart_iff.mp h).2.2.2.2.2
    · split at hm <;> cases hm

end Reader

end Turns

/-! ## 4. A text that is read -/

namespace Reader.Visits

variable {text file : String} {k : Nat} {o : Option Block} {r : Reader}

/-- Its place is the one that the text behind determines. -/
theorem placed (h : Visits text file k o r) : r.cursor.Placed := by
  obtain ⟨j, hj⟩ := h.exists_skip
  rw [hj]
  exact Cursor.placed_skip (Cursor.placed_ofText _) j

/-- The offset of a reader tells how much of its text is left. -/
theorem offset_add (h : Visits text file k o r) :
    r.cursor.place.offset + r.cursor.ahead.length = (Lines.unify text.toList).length := by
  rw [← h.text_eq, Cursor.placed_iff.mp h.placed, Cursor.text, List.length_append]
  rfl

end Reader.Visits

namespace Highlight

open Reader (Visits Takes Skips)

variable {text file : String}

/-- A carriage return would be blank. -/
theorem unify_of_plainlySpaced {cs : List Char} (hs : PlainlySpaced cs) : Lines.unify cs = cs := by
  refine Lines.unify_of_notMem ?_
  intro hm
  rcases hs '\r' hm rfl with h | h | h <;> cases h

/-- **What highlighting marks in a text that is read** is what the turns of its scan mark; and no
character fits nowhere. -/
theorem mem_marksOf_pieces {t : Tree} (ht : read text file = .ok t)
    (hs : PlainlySpaced text.toList) :
    errorsOf (pieces text) = [] ∧ ∀ offset x, (offset, x) ∈ marksOf none (pieces text) ↔
      ∃ m d ds v, Reaches none text.toList m (d :: ds) ∧ move m d ds = .ok v ∧
        v.mark? d ds = some x ∧ offset + (d :: ds).length = text.toList.length := by
  have ho : (scan none text.toList).offence? = none := by
    have ho := (read_eq_ok_iff.mp ht).1
    rwa [scanText, unify_of_plainlySpaced hs] at ho
  obtain ⟨marks, hcuts, hmem⟩ := cuts_scan ho hs 0
  obtain ⟨before', hmarks, herrors⟩ := hcuts none
  rw [Nat.zero_add] at hmem
  have hpieces : View.pieces ⟨none, 0, text.toList⟩ none = pieces text := (pieces_eq text).symm
  have hnil : View.pieces ⟨none, 0 + text.toList.length, []⟩ before' = [] := piecesFrom_nil _ _ _
  rw [hpieces, hnil] at hmarks herrors
  refine ⟨herrors, ?_⟩
  intro offset x
  rw [← hmem, hmarks]
  simp [marksOf, glue]

/-- A mark that the turns of the scan set is set at a state of the reading, whatever the mark means
there.  It is stated for any property of a state that a turn decides, and used for both kinds of
marks. -/
theorem exists_visit_iff {P : Option Reader.Block → Reader → Prop} {x : Mark} {offset : Nat}
    (hs : PlainlySpaced text.toList) (hstep : ∀ o r, P o r → ∃ o' r', Reader.Step o r o' r')
    (hmark : ∀ {m o r c cs v}, Reader.Fits m o r → r.cursor.ahead = c :: cs → move m c cs = .ok v →
      (P o r ↔ v.mark? c cs = some x)) :
    (∃ m d ds v, Reaches none text.toList m (d :: ds) ∧ move m d ds = .ok v ∧
        v.mark? d ds = some x ∧ offset + (d :: ds).length = text.toList.length) ↔
      ∃ k o r, Visits text file k o r ∧ r.cursor.place.offset = offset ∧ P o r := by
  have hunify := unify_of_plainlySpaced hs
  constructor
  · rintro ⟨m, d, ds, v, hr, hv, hx, hlen⟩
    obtain ⟨k, o, r, hvisits, hf, ha⟩ := Reader.visits_of_reaches file (hunify.symm ▸ hr)
    have hoffset := hvisits.offset_add
    rw [hunify, ha, ← hlen] at hoffset
    exact ⟨k, o, r, hvisits, Nat.add_right_cancel hoffset, (hmark hf ha hv).mpr hx⟩
  · rintro ⟨k, o, r, hvisits, rfl, hp⟩
    obtain ⟨m, hf, hr⟩ := hvisits.fits
    obtain ⟨o', r', hturn⟩ := hstep o r hp
    obtain ⟨d, ds, v, ha, hv, -, -⟩ := hturn.fits hf
    have hoffset := hvisits.offset_add
    rw [hunify, ha] at hr hoffset
    exact ⟨m, d, ds, v, hr, hv, (hmark hf ha hv).mp hp, hoffset⟩

theorem mem_marksOf_item {ps : List Piece} {offset : Nat} {s : String} :
    (offset, .item s) ∈ marksOf none ps ↔
      ∃ p ∈ glue none ps, p.offset = offset ∧ p.text = s ∧ p.kind ≠ .text ∧ p.kind ≠ .comment := by
  have hmark : ∀ p : Piece, p.mark? = some (offset, .item s) ↔
      p.offset = offset ∧ p.text = s ∧ p.kind ≠ .text ∧ p.kind ≠ .comment := by
    rintro ⟨o, kind, s'⟩
    cases kind <;> simp [Piece.mark?]
  simp only [marksOf, List.mem_filterMap, hmark]

theorem mem_marksOf_comment {ps : List Piece} {offset : Nat} {s : String} :
    (offset, .comment s) ∈ marksOf none ps ↔
      ∃ p ∈ glue none ps, p.offset = offset ∧ p.text = s ∧ p.kind = .comment := by
  have hmark : ∀ p : Piece, p.mark? = some (offset, .comment s) ↔
      p.offset = offset ∧ p.text = s ∧ p.kind = .comment := by
    rintro ⟨o, kind, s'⟩
    cases kind <;> simp [Piece.mark?]
  simp only [marksOf, List.mem_filterMap, hmark]

/-- **Highlighting and reading cut a text the same way.**  The pieces of any text cover it.  If the
text is read to a tree and is blank nowhere but at spaces, tabs and line feeds, its pieces with
those of each string put together cover it too; of these, those that are neither blanks nor comments
are just the parentheses and tokens that the reader takes, at the same offsets and with the same
texts; the comments are just those that the reader skips; and no character fits nowhere. -/
theorem pieces_cut_as_read (text : String) :
    Covers (pieces text) text ∧
    ∀ file t, read text file = .ok t → PlainlySpaced text.toList →
      Covers (glue none (pieces text)) text ∧
      (∀ offset s,
        (∃ p ∈ glue none (pieces text), p.offset = offset ∧ p.text = s ∧ p.kind ≠ .text ∧
          p.kind ≠ .comment) ↔
          ∃ k o r, Visits text file k o r ∧ r.cursor.place.offset = offset ∧ Takes o r s) ∧
      (∀ offset s,
        (∃ p ∈ glue none (pieces text), p.offset = offset ∧ p.text = s ∧ p.kind = .comment) ↔
          ∃ k o r, Visits text file k o r ∧ r.cursor.place.offset = offset ∧ Skips o r s) ∧
      ∀ p ∈ pieces text, p.kind ≠ .error := by
  constructor
  · exact covers_pieces text
  · intro file t ht hs
    obtain ⟨herrors, hmarks⟩ := mem_marksOf_pieces ht hs
    refine ⟨covers_glue_pieces text, ?_, ?_, ?_⟩
    · intro offset s
      rw [← mem_marksOf_item, hmarks]
      exact exists_visit_iff hs (fun _ _ ⟨_, _, o', r', h, _⟩ => ⟨o', r', h⟩) Reader.takes_iff
    · intro offset s
      rw [← mem_marksOf_comment, hmarks]
      exact exists_visit_iff hs (fun _ _ ⟨_, _, o', r', h, _⟩ => ⟨o', r', h⟩) Reader.skips_iff
    · intro p hp he
      have hmem : p ∈ errorsOf (pieces text) := List.mem_filter.mpr ⟨hp, decide_eq_true he⟩
      rw [herrors] at hmem
      cases hmem

/-- A string in four pieces, with a line end, a semicolon and an escaped quote in it; a symbol with
a semicolon; a comment. -/
theorem pieces_cut_as_read_string :
    (∃ t, read "(if \"a\n;\\\"\" 1;2\n;b\n)" "f" = .ok t) ∧
      (∃ k o r, Visits "(if \"a\n;\\\"\" 1;2\n;b\n)" "f" k o r ∧ r.cursor.place.offset = 4 ∧
        Takes o r "\"a\n;\\\"\"") ∧
      (∃ k o r, Visits "(if \"a\n;\\\"\" 1;2\n;b\n)" "f" k o r ∧ r.cursor.place.offset = 12 ∧
        Takes o r "1;2") ∧
      (∃ k o r, Visits "(if \"a\n;\\\"\" 1;2\n;b\n)" "f" k o r ∧ r.cursor.place.offset = 16 ∧
        Skips o r ";b") := by
  have hread : read "(if \"a\n;\\\"\" 1;2\n;b\n)" "f" =
      .ok (draftOf "(if \"a\n;\\\"\" 1;2\n;b\n)").tree.unwrap :=
        read_eq_ok_iff.mpr ⟨by decide +kernel, rfl⟩
  have hspaced : PlainlySpaced "(if \"a\n;\\\"\" 1;2\n;b\n)".toList := by
    decide +kernel
  obtain ⟨-, hcut⟩ := pieces_cut_as_read "(if \"a\n;\\\"\" 1;2\n;b\n)"
  obtain ⟨-, htakes, hskips, -⟩ := hcut "f" _ hread hspaced
  refine ⟨⟨_, hread⟩, (htakes _ _).mp ?_, (htakes _ _).mp ?_, (hskips _ _).mp ?_⟩
  · decide +kernel
  · decide +kernel
  · decide +kernel

end Highlight

end IndentLisp
