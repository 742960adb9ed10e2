/-
# The row of carets

Below the excerpt of a source stands a row with a caret for the column that a report names (section
5).  Both lines start with a margin, and the two margins are not of one width: that of the excerpt
holds the number of the line, in four columns or as many as it needs, and that of the carets does
not make room for it.  **So the caret stands to the left of its character**, by two columns, and by
one more for each digit of the number beyond four (`caret_left_of_character`).

The margin of an excerpt is two blanks, the number, and a bar between blanks: nine columns, or more
(`length_excerptMargin`).  The margin of the carets is five blanks, a bar and a blank: seven
columns, whatever the number (`length_caretMargin`).  What follows the margins is the same in both,
the characters of the line up to the column of the report, or as many blanks; so the distance
between the caret and its character is the difference of the margins, and does not depend on the
text.

The theorem is about every text that is rejected.  That the report of an offence names one place on
one line of its source is taken from the theory of positions, and that place is one of a character
and not of the end of a line: there is always something on it that the caret could point at.

* `render_one`: the two lines of a label within one line, as they stand in the output.
* `caret_misses_character`: the smallest case, with both lines in full.

A row of carets has no tabs.  Where the line has one in front of the column, the caret is off by
more on a terminal that widens it, and nothing is said of that.
-/
import IndentLisp.Proofs.Diagnostic.Renderer
import IndentLisp.Proofs.Reader.Position

namespace IndentLisp

/-! ## 1. The lines of an output -/

/-- Two texts without line feeds are two lines, next to each other. -/
theorem Lines.split_two {before after : List (List Char)} {cs ds : List Char} (hc : '\n' ∉ cs)
    (hd : '\n' ∉ ds) :
    split (['\n'].intercalate (before ++ [cs, ds] ++ after)) =
      before.flatMap split ++ [cs, ds] ++ after.flatMap split := by
  have hline : ∀ {xs : List Char}, '\n' ∉ xs → split xs = [xs] := List.splitOn_eq_singleton
  rw [split_intercalate (by simp), List.flatMap_append, List.flatMap_append, List.flatMap_cons,
    List.flatMap_cons, List.flatMap_nil, hline hc, hline hd]
  rfl

namespace Renderer

open Terminal

/-! ## 2. The two lines of a label -/

/-- A number is written with digits, and a sign. -/
theorem mem_toString {n : Int} {c : Char} (h : c ∈ (toString n).toList) :
    c.isDigit = true ∨ c = '-' := by
  have hdigit : ∀ {k : Nat}, c ∈ k.repr.toList → c.isDigit = true := by
    intro k hk
    rw [Nat.toList_repr] at hk
    exact Nat.isDigit_of_mem_toDigits (by decide) (by decide) hk
  rw [Int.toString_eq_repr, Int.repr_eq_if] at h
  split at h
  · exact Or.inl (hdigit h)
  · rw [String.toList_append] at h
    rcases List.mem_append.mp h with h | h
    · exact Or.inr (List.mem_singleton.mp h)
    · exact Or.inl (hdigit h)

/-- What stands in the column of the line numbers. -/
theorem mem_gutter {n : Int} {c : Char} (h : c ∈ (gutter n).toList) :
    c = ' ' ∨ c.isDigit = true ∨ c = '-' := by
  rw [gutter, String.toList_append, String.toList_ofList] at h
  rcases List.mem_append.mp h with h | h
  · exact Or.inl (List.eq_of_mem_replicate h)
  · exact Or.inr (mem_toString h)

/-- A line number takes four columns, or as many as it has digits.  It is put to the right of its
columns, with blanks before it. -/
theorem length_gutter (n : Int) : (gutter n).toList.length = max 4 (toString n).length := by
  rw [gutter]
  simp only [String.toList_append, String.toList_ofList, List.length_append, List.length_replicate,
    String.length_toList]
  omega

/-- The margin of an excerpt: two blanks, the number of the line in its columns, and a bar between
blanks. -/
def excerptMargin (n : Int) : List Char :=
  [' ', ' '] ++ (gutter n).toList ++ [' ', '|', ' ']

/-- The margin of a row of carets, and the blanks before the carets: five blanks, a bar and a blank,
and then one blank for each column before that of the report. -/
def caretMargin (s : Span) : List Char :=
  [' ', ' ', ' ', ' ', ' ', '|', ' '] ++ List.replicate (s.startColumn - 1).toNat ' '

/-- The line of an excerpt, without colour. -/
theorem toList_excerpt (n : Int) (line : String) :
    (shown false (margin (gutter n ++ " |") [.text (" " ++ line)])).toList =
      excerptMargin n ++ line.toList := by
  simp [shown, margin, inked, Piece.chars, excerptMargin]

/-- The row of carets, without colour. -/
theorem toList_caretRow (ink : Ink) (s : Span) :
    (shown false (margin "   |" ([.text (" " ++ padding s)] ++ inked ink (carets s)))).toList =
      caretMargin s ++ List.replicate (caretCount s).toNat '^' := by
  simp [shown, margin, inked, Piece.chars, padding, carets, caretMargin]

theorem length_excerptMargin (n : Int) :
    (excerptMargin n).length = 5 + max 4 (toString n).length := by
  rw [excerptMargin, List.length_append, List.length_append, length_gutter]
  simp only [List.length_cons, List.length_nil]
  omega

theorem notMem_excerptMargin (n : Int) : '\n' ∉ excerptMargin n := by
  intro h
  rw [excerptMargin, List.mem_append, List.mem_append] at h
  rcases h with (h | h) | h
  · exact absurd h (by decide)
  · rcases mem_gutter h with h | h | h <;> exact absurd h (by decide)
  · exact absurd h (by decide)

theorem mem_caretMargin {s : Span} {c : Char} (h : c ∈ caretMargin s) : c = ' ' ∨ c = '|' := by
  rw [caretMargin, List.mem_append] at h
  rcases h with h | h
  · obtain h | h | h : c = ' ' ∨ c = '|' ∨ c = ' ' := by simpa using h
    · exact Or.inl h
    · exact Or.inr h
    · exact Or.inl h
  · exact Or.inl (List.eq_of_mem_replicate h)

theorem length_caretMargin {s : Span} {column : Nat} (h : s.startColumn = column + 1) :
    (caretMargin s).length = 7 + column := by
  have hcolumn : (s.startColumn - 1).toNat = column := by omega
  rw [caretMargin, hcolumn, List.length_append, List.length_replicate]
  rfl

/-- **A label within one line of a source is shown by that line and a row of carets**, one right
after the other.  Where the two stand in the output, and what else is in it, is left open, as only
one line above the other matters. -/
theorem render_one {files : FileTree} {r : Renderer} {d : Diagnostic} {label : Label} {s : Source}
    {line : String} (hc : r.color = false) (hd : d.labels = [label])
    (hk : r.known.lookup label.span.file = some (some s))
    (hl : s.line? label.span.startLine = some line) (hs : label.span.startLine = label.span.endLine)
    (hm : label.message = "") :
    ∃ output before after, render files d r = .ok output r ∧
      output.toList = ['\n'].intercalate (before ++
        [excerptMargin label.span.startLine ++ line.toList,
          caretMargin label.span ++ List.replicate (caretCount label.span).toNat '^'] ++
            after) := by
  have hlines : labelLines d.severity.ink label (some line) =
      [margin "-->" [.text (" " ++ label.span.shown)], margin "   |" []] ++
        [margin (gutter label.span.startLine ++ " |") [.text (" " ++ line)],
          margin "   |" ([.text (" " ++ padding label.span)] ++
            inked d.severity.ink (carets label.span))] := by
    simp [labelLines, hs, hm]
  have hkept : ∀ other ∈ d.labels, ∃ found, r.known.lookup other.span.file = some found := by
    rw [hd]
    exact List.forall_mem_singleton.mpr ⟨_, hk⟩
  have hexcerpt : excerpt? (finds files r) label = some line := by
    simp only [excerpt?, finds, hk]
    exact hl
  have hlayout : layout files d r = _ := layout_known hkept
  rw [hd, List.map_singleton, hexcerpt, hlines, List.flatten_singleton] at hlayout
  have hrender : ∀ {lines : List (List Piece)}, layout files d r = .ok lines r →
      render files d r = .ok ("\n".intercalate (lines.map (shown false))) r := by
    intro lines h
    rw [render_eq, h, ← hc]
  let text := fun line : List Piece => (shown false line).toList
  refine ⟨_, [headline d, margin "-->" [.text (" " ++ label.span.shown)],
    margin "   |" []].map text,
    (d.notes.map noteLine ++ d.suggestions.flatMap suggestionLines).map text, hrender hlayout, ?_⟩
  rw [String.toList_intercalate, ← toList_excerpt, ← toList_caretRow d.severity.ink]
  simp [text, Function.comp_def]

end Renderer

/-! ## 3. Where the caret stands -/

open Renderer in
/-- **The caret stands to the left of its character.**  Whatever the text, its report is shown with
the line of the source and, on the next line of the output, one caret.  It stands two columns to the
left of the character that the report names, and one more for each digit of the line number beyond
four. -/
theorem caret_left_of_character (files : FileTree) {text file : String} {e : Rejection}
    (h : read text file = .error (.rejected e)) :
    ∃ (span : Span) (row : List Char) (column : Nat) (output : String) (r : Renderer)
      (above below : List (List Char)) (lead blanks : List Char),
      e.diagnostic.span? = some span ∧
      (Source.ofText file text).line? span.startLine = some (String.ofList row) ∧
      span.startColumn = column + 1 ∧ column < row.length ∧
      render files e.diagnostic (.ofTexts false [(file, text)]) = .ok output r ∧
      Lines.split output.toList = above ++ [lead ++ row, blanks ++ ['^']] ++ below ∧
      '^' ∉ blanks ∧
      lead.length + column = blanks.length + (max 4 (toString span.startLine).length - 2) := by
  obtain ⟨o, rest, he, ha⟩ := offence_of_read h
  obtain rfl : e = o.report file (placeOf text) := ReadFailure.rejected.inj he
  have hpoints := Offence.pointsAt_report (placed_placeOf text) (text_placeOf text) ha file
  have hknown : (ofTexts false [(file, text)]).known.lookup file =
      some (some (.ofText file text)) := by
    simp [ofTexts]
  obtain ⟨output, before, after, hrender, hout⟩ :=
    render_one (show (ofTexts false [(file, text)]).color = false from rfl)
      (show (o.report file (placeOf text)).diagnostic.labels =
        [⟨Offence.span file (placeOf text), ""⟩] from rfl)
      hknown hpoints.line_eq rfl rfl
  -- A report names one character, so there is one caret.
  have hcount : caretCount (Offence.span file (placeOf text)) = 1 := by
    simp [caretCount, Offence.span]
  simp only [hcount, Int.toNat_one, List.replicate_one, String.toList_ofList] at hout
  have hblank : ∀ c ∈ caretMargin (Offence.span file (placeOf text)), c ≠ '\n' ∧ c ≠ '^' := by
    intro c hc
    rcases mem_caretMargin hc with rfl | rfl <;> decide
  have hrow : '\n' ∉ excerptMargin (Offence.span file (placeOf text)).startLine ++
      (placeOf text).line := by
    rw [List.mem_append, not_or]
    exact ⟨notMem_excerptMargin _, (placeOf text).notMem_line⟩
  have hcaret : '\n' ∉ caretMargin (Offence.span file (placeOf text)) ++ ['^'] := by
    rw [List.mem_append, not_or]
    exact ⟨fun hm => (hblank _ hm).1 rfl, by decide⟩
  refine ⟨Offence.span file (placeOf text), _, _, output, _, before.flatMap Lines.split,
    after.flatMap Lines.split, excerptMargin (Offence.span file (placeOf text)).startLine,
    caretMargin (Offence.span file (placeOf text)), hpoints.span_eq, hpoints.line_eq,
    hpoints.column_eq, hpoints.column_lt, hrender, ?_, fun hm => (hblank _ hm).2 rfl, ?_⟩
  · rw [hout, Lines.split_two hrow hcaret]
  · rw [length_caretMargin hpoints.column_eq, length_excerptMargin]
    omega

open Renderer in
theorem caret_left_of_character_on_second_line :
    ∃ (e : Rejection) (span : Span) (row : List Char) (column : Nat) (output : String)
    (r : Renderer)
      (above below : List (List Char)) (lead blanks : List Char),
      read "(a\n  b) c)" "f" = .error (.rejected e) ∧ e.diagnostic.span? = some span ∧
      (Source.ofText "f" "(a\n  b) c)").line? span.startLine = some (String.ofList row) ∧
      span.startColumn = column + 1 ∧
      render (.empty ["w"]) e.diagnostic (.ofTexts false [("f", "(a\n  b) c)")]) = .ok output r ∧
      Lines.split output.toList = above ++ [lead ++ row, blanks ++ ['^']] ++ below ∧ '^' ∉ blanks ∧
      lead.length + column = blanks.length + (max 4 (toString span.startLine).length - 2) := by
  have hoffence : (scanText "(a\n  b) c)").offence? = some .extraClose := by decide +kernel
  have hread := read_of_offence hoffence "f"
  obtain ⟨span, row, column, output, r, above, below, lead, blanks, hspan, hrow, hcolumn, -,
    hlines⟩ :=
    caret_left_of_character (.empty ["w"]) hread
  exact ⟨_, span, row, column, output, r, above, below, lead, blanks, hread, hspan, hrow, hcolumn,
    hlines⟩

open Renderer in
/-- **The caret misses the character**: in the output there are ten characters before the
parenthesis too many, and eight before the caret on the next line. -/
theorem caret_misses_character :
    ∃ e span output r, read "a)" "f" = .error (.rejected e) ∧ e.diagnostic.span? = some span ∧
      span.startColumn = 2 ∧ (Source.ofText "f" "a)").line? span.startLine = some "a)" ∧
      render (.empty ["w"]) e.diagnostic (.ofTexts false [("f", "a)")]) = .ok output r ∧
      ((Lines.split output.toList).drop 3).take 2 = ["     1 | a)".toList, "     |  ^".toList] ∧
      "     1 | a)".toList.idxOf ')' = 10 ∧ "     |  ^".toList.idxOf '^' = 8 := by
  have hoffence : (scanText "a)").offence? = some .extraClose := by decide +kernel
  have hread := read_of_offence hoffence "f"
  exact ⟨_, _, _, _, hread, rfl, by decide +kernel, by decide +kernel, rfl, by decide +kernel,
    by decide, by decide⟩

end IndentLisp
