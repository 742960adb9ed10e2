/-
# Where a reader stands

The line and the column of a reader are counted up as it goes, the rest of its line and the text
before it on that line are cut from the text around it, and a source is cut into lines without any
reader.  **All three agree**: a report names a line and a column of the source, and what it quotes
is what stands there (`Rejection.PointsAt`).

Two things are put together for this.  However a reader is asked, its cursor only moves forward, and
so its place is the one after the text behind it; then its line is the one with that number among
the lines of the source (`Cursor.line?_ofText`).  And where a text is rejected, the cursor is at a
character and not at the end of a line: at the quote or at the parenthesis that is at fault
(`Offence.mark_of_scan`).

What a report says is said at once, in one structure with a field for each of its parts: the span,
the remainder, the note and the fixes.  Only two of the fields depend on which offence it is.

* `Cursor.line`: the whole line of a cursor.
* `Offence.mark`: the character at which an offence is found.
* `Offence.pointsAt_report`: a report at a mark points at it.
* `read_positions`: **the place of a reader after any requests, and the place of a report.**

The requests are those that a caller can make of a reader, in any order and also after one has
failed.  Columns count characters; how wide a character is shown is not considered.
-/
import IndentLisp.Proofs.Reader.Forward
import IndentLisp.Proofs.Reader.SourceOrder
import IndentLisp.Proofs.Text.Lines

namespace IndentLisp

/-! ## 1. The line of a cursor -/

namespace Cursor

/-- The text behind a cursor is the part of the text up to its place. -/
theorem behind_eq_take {c : Cursor} (h : c.Placed) :
    c.behind.reverse = c.text.take c.place.offset := by
  rw [placed_iff.mp h]
  simp [text, Place.after]

/-- And the text ahead is the rest. -/
theorem ahead_eq_drop {c : Cursor} (h : c.Placed) : c.ahead = c.text.drop c.place.offset := by
  rw [placed_iff.mp h]
  simp [text, Place.after]

theorem offset_le {c : Cursor} (h : c.Placed) : c.place.offset ≤ c.text.length := by
  rw [placed_iff.mp h]
  simp [text, Place.after]

theorem startOfLine_eq (c : Cursor) : c.startOfLine = Lines.last c.behind.reverse := by
  rw [startOfLine, Lines.last, List.reverse_reverse]

/-- The whole line of a cursor. -/
def line (c : Cursor) : List Char :=
  c.startOfLine ++ c.restOfLine

theorem notMem_line (c : Cursor) : '\n' ∉ c.line := by
  rw [line, startOfLine_eq, List.mem_append, not_or]
  exact ⟨Lines.notMem_last _, Lines.notMem_first _⟩

/-- **The line of a cursor is the one that its place names.**  The source is cut into lines by
itself, from a text whose line ends may be of any kind. -/
theorem line?_ofText {c : Cursor} (h : c.Placed) {s : String}
    (hs : c.text = Lines.unify s.toList) (file : String) :
    (Source.ofText file s).line? c.place.line = some (String.ofList c.line) := by
  have hl : c.place.line = 1 + c.behind.reverse.count '\n' := by
    rw [placed_iff.mp h]
    rfl
  have hx := Lines.getElem?_split c.behind.reverse c.ahead
  rw [← startOfLine_eq] at hx
  have hindex : ((c.place.line : Int) - 1).toNat = c.behind.reverse.count '\n' := by omega
  rw [Source.line?, if_pos (by omega), hindex, Source.lines, Source.ofText,
    String.toList_ofList, ← hs, text, List.getElem?_map, hx]
  rfl

end Cursor

/-! ## 2. Where a scan stops -/

namespace Offence

/-- The character at which an offence is found. -/
def mark : Offence → Char
  | .unterminatedString => '"'
  | .malformedCharacter => '\''
  | .extraClose => ')'

end Offence

/-- An offence is found at its mark. -/
theorem mark_of_move {m : Option Nesting} {c : Char} {cs : List Char} {o : Offence}
    (h : move m c cs = .error o) : c = o.mark := by
  cases m with
  | none => cases h
  | some n =>
    have hf := Front.of_cases c cs
    simp only [move, Nesting.move] at h
    cases ho : Front.of c cs with
    | closing =>
      rw [ho] at hf h
      simp only at h
      split at h
      · cases h
        exact hf
      · cases h
    | fault o' =>
      rw [ho] at hf h
      cases h
      rcases hf.2.2 with ⟨rfl, rfl⟩ | ⟨rfl, rfl⟩ <;> rfl
    | opening | blank | lineEnd | comment | token =>
      rw [ho] at h
      cases h

/-- **A scan stops at the mark of its offence**, so there is text left where it stops, and the
cursor of the report is on a character. -/
theorem mark_of_scan {m : Option Nesting} {cs : List Char} {o : Offence}
    (h : (scan m cs).offence? = some o) : ∃ ds, cs.drop (scan m cs).passed = o.mark :: ds := by
  fun_induction scan m cs with
  | case1 m => cases h
  | case2 m c cs o' hm =>
    cases h
    exact ⟨cs, by rw [mark_of_move hm]; rfl⟩
  | case3 m c cs v hm ih =>
    obtain ⟨ds, hd⟩ := ih h
    exact ⟨ds, by rw [Scan.after, ← hd, List.drop_drop]⟩

theorem placed_placeOf (text : String) : (placeOf text).Placed :=
  Cursor.placed_skip (Cursor.placed_ofText _) _

/-- What a scan passes lies behind the place where it stops. -/
theorem behind_placeOf (text : String) :
    (placeOf text).behind.reverse = (Lines.unify text.toList).take (scanText text).passed := by
  rw [placeOf, Cursor.behind_skip, Cursor.ofText, List.append_nil, List.reverse_reverse]

theorem place_placeOf (text : String) :
    (placeOf text).place = Place.after ((Lines.unify text.toList).take (scanText text).passed) := by
  rw [Cursor.placed_iff.mp (placed_placeOf text), behind_placeOf]

/-- A text that is not read has an offence, and the cursor stops at its mark. -/
theorem offence_of_read {text file : String} {failure : ReadFailure}
    (h : read text file = .error failure) :
    ∃ (o : Offence) (ds : List Char), failure = .rejected (o.report file (placeOf text)) ∧
      (placeOf text).ahead = o.mark :: ds := by
  rw [read_eq] at h
  cases ho : (scanText text).offence? with
  | none =>
    rw [ho] at h
    cases h
  | some o =>
    rw [ho] at h
    obtain ⟨ds, hd⟩ := mark_of_scan ho
    refine ⟨o, ds, (Except.error.inj h).symm, ?_⟩
    rw [placeOf, Cursor.skip_ahead]
    exact hd

/-- A cursor at a mark is within its line. -/
theorem Cursor.restOfLine_mark {c : Cursor} {o : Offence} {ds : List Char}
    (h : c.ahead = o.mark :: ds) : c.restOfLine = o.mark :: Lines.first ds := by
  have hne : o.mark ≠ '\n' := by cases o <;> decide
  rw [restOfLine, h, Lines.first, List.takeWhile_cons_of_pos (by simp [hne])]
  rfl

/-! ## 3. Reports -/

/-- What a report has to do with the source: it names the character `row[column]` of the source,
which stands at an offset of the text.  The rest of the text starts there, and the rest of the line
is the note.  The fix for an extra parenthesis is the line without it, and the fix for an open
string is the rest of the line with a quote behind it.  What the fix would do is not said. -/
structure Rejection.PointsAt (e : Rejection) (file text : String) (span : Span) (row : List Char)
    (column offset : Nat) : Prop where
  span_eq : e.diagnostic.span? = some span
  file_eq : span.file = file
  line_eq : (Source.ofText file text).line? span.startLine = some (String.ofList row)
  column_eq : span.startColumn = column + 1
  column_lt : column < row.length
  startLine_eq : span.startLine = 1 + ((Lines.unify text.toList).take offset).count '\n'
  startOfLine_eq : Lines.last ((Lines.unify text.toList).take offset) = row.take column
  getElem_eq : row[column]? = (Lines.unify text.toList)[offset]?
  remainder_eq : e.remainder = String.ofList ((Lines.unify text.toList).drop offset)
  notes_eq : e.diagnostic.notes = ["remaining input: " ++ String.ofList (row.drop column)]
  extraClose : e.diagnostic.code = "E010" → row[column]? = some ')' ∧
    e.diagnostic.suggestions = [⟨"remove the extra ')'", String.ofList (row.eraseIdx column)⟩]
  openString : e.diagnostic.code = "E001" →
    e.diagnostic.suggestions = [⟨"close the string", String.ofList (row.drop column ++ ['"'])⟩]

/-- **A report at a mark points at it.** -/
theorem Offence.pointsAt_report {here : Cursor} {o : Offence} {ds : List Char} {text : String}
    (hp : here.Placed) (ht : here.text = Lines.unify text.toList) (ha : here.ahead = o.mark :: ds)
    (file : String) :
    (o.report file here).PointsAt file text (Offence.span file here) here.line
      here.startOfLine.length here.place.offset := by
  have hplace := Cursor.placed_iff.mp hp
  have hrest := Cursor.restOfLine_mark ha
  have htake : (Lines.unify text.toList).take here.place.offset = here.behind.reverse := by
    rw [← ht, Cursor.behind_eq_take hp]
  have hdrop : (Lines.unify text.toList).drop here.place.offset = here.ahead := by
    rw [← ht, Cursor.ahead_eq_drop hp]
  have hstart : here.line.drop here.startOfLine.length = here.restOfLine := List.drop_left
  have hmark : here.line[here.startOfLine.length]? = some o.mark := by
    rw [Cursor.line, List.getElem?_append_right (Nat.le_refl _), Nat.sub_self, hrest]
    rfl
  refine
    { span_eq := rfl
      file_eq := rfl
      line_eq := Cursor.line?_ofText hp ht file
      column_eq := ?_
      column_lt := ?_
      startLine_eq := ?_
      startOfLine_eq := ?_
      getElem_eq := ?_
      remainder_eq := ?_
      notes_eq := ?_
      extraClose := ?_
      openString := ?_ }
  · have hcolumn : here.place.column = 1 + here.startOfLine.length := by
      rw [hplace, Cursor.startOfLine_eq]
      rfl
    show (here.place.column : Int) = _
    omega
  · exact (List.getElem?_eq_some_iff.mp hmark).1
  · have hline : here.place.line = 1 + here.behind.reverse.count '\n' := by
      rw [hplace]
      rfl
    show (here.place.line : Int) = _
    rw [htake]
    omega
  · rw [htake, ← Cursor.startOfLine_eq, Cursor.line, List.take_left]
  · rw [hmark, ← List.head?_drop, hdrop, ha]
    rfl
  · rw [hdrop]
    rfl
  · rw [hstart]
    rfl
  · intro hcode
    have hcode : o.code = "E010" := hcode
    cases o with
    | extraClose =>
      refine ⟨hmark, ?_⟩
      rw [Cursor.line, List.eraseIdx_append_of_length_le (Nat.le_refl _), Nat.sub_self,
        List.eraseIdx_zero, ← List.drop_one]
      rfl
    | unterminatedString | malformedCharacter => exact absurd hcode (by decide)
  · intro hcode
    have hcode : o.code = "E001" := hcode
    cases o with
    | unterminatedString =>
      rw [hstart]
      rfl
    | extraClose | malformedCharacter => exact absurd hcode (by decide)

/-- **A reader always knows where it stands, and so do its reports.**  Whatever is asked of a
reader, in whatever order and with whatever success, its offset is within the text, its line is one
more than the number of line ends up to there, and its column one more than the number of characters
since the last of them.  Where a text is not read, the report points at a character of a line of the
source. -/
theorem read_positions :
    (∀ (text file : String) (requests : List Reader.Request),
      let source := Lines.unify text.toList
      let here := (requests.foldl Reader.perform (.ofText text file)).cursor
      here.text = source ∧ here.place.offset ≤ source.length ∧
        here.behind.reverse = source.take here.place.offset ∧
        here.place.line = 1 + (source.take here.place.offset).count '\n' ∧
        here.place.column = 1 + (Lines.last (source.take here.place.offset)).length) ∧
    (∀ (text file : String) (failure : ReadFailure), read text file = .error failure →
      ∃ (e : Rejection) (span : Span) (line : List Char) (column offset : Nat),
        failure = .rejected e ∧ e.PointsAt file text span line column offset) := by
  constructor
  · intro text file requests source here
    obtain ⟨ht, hp⟩ := Reader.cursor_perform requests (.ofText text file) (Cursor.placed_ofText _)
    have ht : here.text = source := ht
    have hb : here.behind.reverse = source.take here.place.offset := by
      rw [← ht]
      exact Cursor.behind_eq_take hp
    have hplace := Cursor.placed_iff.mp hp
    refine ⟨ht, ht ▸ Cursor.offset_le hp, hb, ?_, ?_⟩
    · rw [← hb]
      exact congrArg Place.line hplace
    · rw [← hb]
      exact congrArg Place.column hplace
  · intro text file failure h
    obtain ⟨o, ds, rfl, ha⟩ := offence_of_read h
    exact ⟨_, _, _, _, _, rfl,
      Offence.pointsAt_report (placed_placeOf text) (text_placeOf text) ha file⟩

theorem read_positions_open_string :
    ∃ failure, read "(a\r\n  \"b" "f" = .error failure ∧
      ∃ (e : Rejection) (span : Span) (line : List Char) (column offset : Nat),
        failure = .rejected e ∧ e.PointsAt "f" "(a\r\n  \"b" span line column offset := by
  have ho : (scanText "(a\r\n  \"b").offence? = some .unterminatedString := by decide +kernel
  have hread := read_eq "(a\r\n  \"b" "f"
  rw [ho] at hread
  exact ⟨_, hread, read_positions.2 _ _ _ hread⟩

end IndentLisp
