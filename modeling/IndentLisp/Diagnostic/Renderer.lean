/-
# Showing diagnostics

A diagnostic is shown with an excerpt of the source that each label points into, and a row of carets
below the excerpt (section 5, `DiagnosticRenderer`).  First comes the headline, then the lines of
the labels one after another, then a line for each note and two for each suggestion.  The
specification asks for source line and caret, and leaves the widths of the margins open; they are
those of `labelLines`.

A renderer keeps the sources it has shown.  Those it is given at the start are never read from the
file tree; **any other source is read the first time a label asks for it, and what was found then,
be it nothing, is what every later label gets**.  A source that is not text makes the whole
rendering fail, and is not kept: the failure is one of decoding, and the renderer keeps a failure of
the file system only.

What is shown is decided in two steps.  `layout` looks up the sources and makes lines of pieces; it
is there that rendering can fail, and that the renderer changes.  Then the pieces become text, and
only that looks at whether colour is on.  So a rendering in colour and one without look up the same
sources, and fail alike.

A span may have been made up, and ask for a row of carets that no machine could hold.  The blanks
and the carets of a row are one text repeated, so what a machine refuses comes from
`Repetition.Limit`.  `Renderer.render` knows no such limit: it is the rendering of a diagnostic
whose spans lie in a text.  `Renderer.renderWithin` takes a limit, and looks at the rows one label
after another, in the order in which they are made, before it lays anything out.
-/
import IndentLisp.Diagnostic
import IndentLisp.Terminal
import IndentLisp.Files.Tree

namespace IndentLisp

/-- The ink of a severity: errors are red, and warnings are yellow. -/
def Severity.ink : Severity → Terminal.Ink
  | .error => .red
  | .warning => .yellow

/-- The source of a file, named by its path: the operation `load`.  It fails where the file is not
there, and where it is not text. -/
def Source.load (files : FileTree) (p : Path) : Except FileError Source :=
  return .ofText p.shown (← files.readText p)

/-- Whether colour is on, and the sources kept so far; `none` is a source that is not there. -/
structure Renderer where
  color : Bool
  known : List (String × Option Source)

namespace Renderer

open Terminal

/-! ## 1. Excerpts -/

/-- A renderer that is given some texts by name, so that input that was never in a file has an
excerpt too.  Of two texts with one name the later counts. -/
def ofTexts (color : Bool) (texts : List (String × String)) : Renderer where
  color := color
  known := texts.reverse.map fun (name, text) => (name, some (.ofText name text))

/-- The source with a name: as it is kept, or else as the file tree has it now, which is then kept
(`_get_source_line`).  A name that is that of no file is kept as nothing, and so is a file that
cannot be read; one that is not text ends the rendering. -/
def source (files : FileTree) (name : String) :
    EStateM FileError Renderer (Option Source) := fun r =>
  match r.known.lookup name with
  | some found => .ok found r
  | none =>
    let path := Path.ofText name
    if files.isFile path then
      match Source.load files path with
      | .ok s => .ok (some s) { r with known := (name, some s) :: r.known }
      | .error .undecodable => .error .undecodable r
      | .error _ => .ok none { r with known := (name, none) :: r.known }
    else .ok none { r with known := (name, none) :: r.known }

/-- The line of a named source.  There is none if there is no source, or if it has no such line. -/
def line? (files : FileTree) (name : String) (n : Int) :
    EStateM FileError Renderer (Option String) := do
  let found ← source files name
  return found.bind fun s => s.line? n

/-! ## 2. Lines of a rendering -/

/-- A number at the right of a column of four.  A longer number takes the room that it needs. -/
def gutter (n : Int) : String :=
  let digits := toString n
  String.ofList (List.replicate (4 - digits.length) ' ') ++ digits

/-- A text in an ink, which ends with it. -/
def inked (ink : Ink) (s : String) : List Piece :=
  [.ink ink, .text s, .ink .plain]

/-- The line that names the severity, the code and the message. -/
def headline (d : Diagnostic) : List Piece :=
  inked d.severity.ink (d.severity.word ++ "[" ++ d.code ++ "]") ++
    inked .bold (": " ++ d.message)

/-- A line that starts with a mark in the margin. -/
def margin (mark : String) (rest : List Piece) : List Piece :=
  [.text "  "] ++ inked .blue mark ++ rest

/-- The blanks before the carets, one for each column before that of the span. -/
def padding (s : Span) : String :=
  String.ofList (List.replicate (s.startColumn - 1).toNat ' ')

/-- The number of carets: one for each column of a span, and at least one. -/
def caretCount (s : Span) : Int :=
  max 1 (s.endColumn - s.startColumn + 1)

/-- The carets. -/
def carets (s : Span) : String :=
  String.ofList (List.replicate (caretCount s).toNat '^')

/-- The lines that show a label, given the source line that it starts on: where it points, an empty
line, the source line behind its number, the carets, and what the label says.  Carets stand below a
span within one line.  Of a span over several lines without a source line the number is shown alone,
and a label that says nothing has no line for that. -/
def labelLines (ink : Ink) (label : Label) (line? : Option String) : List (List Piece) :=
  let span := label.span
  let number := gutter span.startLine ++ " |"
  [margin "-->" [.text (" " ++ span.shown)], margin "   |" []] ++
    (match line? with
      | some line => [margin number [.text (" " ++ line)]]
      | none => []) ++
    (if span.startLine = span.endLine then
      [margin "   |" ([.text (" " ++ padding span)] ++ inked ink (carets span))]
    else if line?.isNone then [margin number []]
    else []) ++
    (if label.message = "" then []
    else [margin "   |" ([.text "   "] ++ inked ink label.message)])

/-- The line of a note. -/
def noteLine (note : String) : List Piece :=
  margin "=" [.text (" note: " ++ note)]

/-- The two lines of a suggestion: what to do, and the text that results. -/
def suggestionLines (s : Suggestion) : List (List Piece) :=
  [margin "help:" [.text (" " ++ s.message)], margin "try:" [.text (" " ++ s.replacement)]]

/-! ## 3. Rendering -/

/-- The lines of a diagnostic, in the order in which they are shown.  The source of a label is
looked up when its lines are made, and the next label may find it kept. -/
def layout (files : FileTree) (d : Diagnostic) :
    EStateM FileError Renderer (List (List Piece)) := do
  let labels ← d.labels.mapM fun label => do
    return labelLines d.severity.ink label (← line? files label.span.file label.span.startLine)
  return [headline d] ++ labels.flatten ++ d.notes.map noteLine ++
    d.suggestions.flatMap suggestionLines

/-- The text of a diagnostic: the operation `render`.  Its lines are joined by line feeds, and no
line feed comes after the last. -/
def render (files : FileTree) (d : Diagnostic) : EStateM FileError Renderer String := do
  let lines ← layout files d
  return "\n".intercalate (lines.map (shown (← get).color))

/-! ## 4. Spans that were made up -/

/-- Why a diagnostic could not be rendered. -/
inductive Error where
  /-- A source could not be read. -/
  | file (e : FileError)
  /-- A row of carets could not be made. -/
  | row (e : RepetitionError)
deriving DecidableEq, Repr

/-- Why the row of carets below a span cannot be made; `none` where it can, or where there is no
such row.  The blanks before the carets are made first. -/
def rowError? (limit : Repetition.Limit) (s : Span) : Option RepetitionError :=
  if s.startLine = s.endLine then
    (limit 1 (s.startColumn - 1)).or (limit 1 (caretCount s))
  else none

/-- Looks up the lines of labels, up to the first whose row of carets cannot be made.  The source of
that label is still looked up, since its line is shown above the row. -/
def checkRows (limit : Repetition.Limit) (files : FileTree) :
    List Label → EStateM Error Renderer Unit
  | [] => pure ()
  | label :: labels => do
    let _ ← EStateM.adaptExcept .file (line? files label.span.file label.span.startLine)
    match rowError? limit label.span with
    | some e => throw (.row e)
    | none => checkRows limit files labels

/-- The text of a diagnostic whose spans may point anywhere, on a machine that cannot make every
row. -/
def renderWithin (limit : Repetition.Limit) (files : FileTree) (d : Diagnostic) :
    EStateM Error Renderer String := do
  checkRows limit files d.labels
  EStateM.adaptExcept .file (render files d)

/-- The text of a diagnostic whose spans may point anywhere, on the usual machine. -/
def renderAny (files : FileTree) (d : Diagnostic) : EStateM Error Renderer String :=
  renderWithin Repetition.usual files d

end Renderer

end IndentLisp
