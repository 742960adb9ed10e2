/-
# Sources and diagnostics

A source is a named text whose line ends are unified.  A diagnostic is a message with a code, the
places in sources that it points at, notes, and suggested fixes (section 5).  A `Rejection` is the
one diagnostic that ends the reading of a text, with the input that was left: the specification's
`ParseError`, which carries exactly one, since reading stops at the first problem.

Places are spans of lines and columns, both counted from one.  They tell a line by its number among
the lines between line feeds, and by nothing else that could end a line, so that a diagnostic and
the reader that made it mean the same line.

A diagnostic is a record that anyone may make.  So nothing is said here of where its spans point, of
which codes there are, or of whether a replacement repairs anything: such facts hold of the
diagnostics that reading a text ends with, and are proved of those.  A span may lie outside every
text, before its first line or before its first column, and showing it has to be defined for that
case as well.

* `Span`, `Source`: places, and the texts that they lie in (`Span`, `SourceFile`).
* `Diagnostic`: a message with what belongs to it.
* `Rejection`: why reading ended, and where.
-/
import IndentLisp.Text.Lines

namespace IndentLisp

/-! ## 1. Sources and places in them -/

/-- A range of a named text.  A span that a diagnostic brings may point anywhere, so its numbers
are not bound to be positive. -/
structure Span where
  file : String
  startLine : Int
  startColumn : Int
  endLine : Int
  endColumn : Int
deriving DecidableEq, Repr

/-- Where the span starts: the name, the line and the column. -/
def Span.shown (s : Span) : String :=
  s.file ++ ":" ++ toString s.startLine ++ ":" ++ toString s.startColumn

/-- A named text in which every line ends in a line feed, save the last. -/
structure Source where
  name : String
  content : String
deriving DecidableEq, Repr

namespace Source

/-- The source of a text whose line ends may be of any kind: `SourceFile`, which normalises them
when it is made. -/
def ofText (name text : String) : Source where
  name := name
  content := String.ofList (Lines.unify text.toList)

/-- The lines of the source, split at line feeds only. -/
def lines (s : Source) : List String :=
  (Lines.split s.content.toList).map String.ofList

/-- The line with number `n`, counted from one: the operation `line_at`.  There is none before the
first or after the last. -/
def line? (s : Source) (n : Int) : Option String :=
  if 1 ≤ n then s.lines[(n - 1).toNat]? else none

end Source

/-! ## 2. Diagnostics -/

/-- How bad it is.  An error fails a check, and a warning does not. -/
inductive Severity where
  | error
  | warning
deriving DecidableEq, Repr

/-- The word that a diagnostic starts with. -/
def Severity.word : Severity → String
  | .error => "error"
  | .warning => "warning"

/-- A place in a source, and what to say about it, which may be nothing. -/
structure Label where
  span : Span
  message : String
deriving DecidableEq, Repr

/-- A fix: what to do, and the text that results.  The text is that of a line, or of the rest of
one, and not of a whole source. -/
structure Suggestion where
  message : String
  replacement : String
deriving DecidableEq, Repr

/-- A message to the author of a source.  Its labels, notes and suggestions are shown in this order,
each in the order of its list. -/
structure Diagnostic where
  severity : Severity
  code : String
  message : String
  labels : List Label := []
  suggestions : List Suggestion := []
  notes : List String := []
deriving DecidableEq, Repr

/-- The code and the message on one line, as a caller sees them who shows no excerpt. -/
def Diagnostic.headline (d : Diagnostic) : String :=
  d.code ++ ": " ++ d.message

/-- Where a diagnostic points first, if it points anywhere. -/
def Diagnostic.span? (d : Diagnostic) : Option Span :=
  d.labels.head?.map Label.span

/-- The end of the reading of a text: why, and what was not read.  The remainder starts with the
character that gave offence. -/
structure Rejection where
  diagnostic : Diagnostic
  remainder : String
deriving DecidableEq, Repr

end IndentLisp
