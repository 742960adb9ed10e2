/-
# Offences

What makes a text unreadable (section 5).  There are three offences, and each is reported where the
cursor stands: a string without its closing quote (E001), a character token that is none (E002), and
a closing parenthesis with nothing to close (E010).  Open parentheses at the end of a text are no
offence, and neither is any depth of tabs.

An offence is a value with no place in it.  The report that it makes is a function of the cursor
(`Offence.report`, the operation `_error`), and so all of what a diagnostic says is told by which
offence it is and where: its code and wording, a span of the one character at the cursor, a note
with the rest of the line, and the fix on offer.  Facts about reports are proved once of this
function, and not of the places in a reader where one is made.

The fixes are texts and nothing more.  That of an open string closes it on the line where it starts,
and that of an extra parenthesis is the line without it; whether the text can be read after that is
another matter.
-/
import IndentLisp.Diagnostic
import IndentLisp.Reader.Cursor

namespace IndentLisp

/-- Why a text cannot be read. -/
inductive Offence where
  | unterminatedString
  | malformedCharacter
  | extraClose
deriving DecidableEq, Repr

namespace Offence

/-- The code of an offence. -/
def code : Offence → String
  | .unterminatedString => "E001"
  | .malformedCharacter => "E002"
  | .extraClose => "E010"

/-- The wording of an offence. -/
def message : Offence → String
  | .unterminatedString => "unterminated string literal"
  | .malformedCharacter => "malformed character literal"
  | .extraClose => "unexpected ')' with no open parenthesis"

/-- The fixes on offer: a string is closed at the end of its first line, and an extra parenthesis is
taken out of its line.  A malformed character comes with none. -/
def suggestions (here : Cursor) : Offence → List Suggestion
  | .unterminatedString => [⟨"close the string", String.ofList (here.restOfLine ++ ['"'])⟩]
  | .malformedCharacter => []
  | .extraClose => [⟨"remove the extra ')'", String.ofList here.lineWithoutHere⟩]

/-- The one character at the cursor, as a span. -/
def span (file : String) (here : Cursor) : Span :=
  ⟨file, here.place.line, here.place.column, here.place.line, here.place.column⟩

/-- The report of an offence at the cursor: the operation `_error`, with the codes and wordings of
section 5.  The remainder is all that lies ahead, and the note quotes its first line. -/
def report (file : String) (here : Cursor) (o : Offence) : Rejection where
  diagnostic := {
    severity := .error
    code := o.code
    message := o.message
    labels := [⟨span file here, ""⟩]
    suggestions := o.suggestions here
    notes := ["remaining input: " ++ String.ofList here.restOfLine] }
  remainder := String.ofList here.ahead

end Offence

end IndentLisp
