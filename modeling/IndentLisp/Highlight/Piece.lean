/-
# Highlighting

Cuts a text into pieces, says what each of them is, and shows them on a terminal (section 10).
Unlike reading, highlighting never fails: **every character belongs to exactly one piece**, and a
character that fits nowhere is a piece of its own kind.

Highlighting knows two modes, outside and inside a string.  In each the rules are tried in a fixed
order, and the first that fits says how long the piece is (`frontPiece`).  The kinds are those that
the specification lists: comments, strings, characters, numbers, parentheses and special forms, with
text for blanks and names for whatever else is a symbol.  A number, a keyword or a constant is one
only as a whole item, so each of these rules looks at what follows it (`endsItem`), and the rule for
keywords looks at what stands before it as well (`startsItem`).  That is the one place where a piece
depends on the text behind it, and the one character it depends on is carried along.

A highlighter has a vocabulary of its own.  What separates items for it is any white space
(`isBlank`), where reading knows space, tab and line feed only, so the two part ways at some texts;
which ones is for the theory to say.  What is shown is the piece as it is, in the ink of its kind,
line by line: **no ink spans a line end** (`Piece.display`), so that what follows a line end is
shown plain whatever comes before it.

* `pieces`: the pieces of a text as it stands.
* `prepare`: what a text is turned into before it is cut for display.
* `display`: a text, made ready, cut and shown.

Cutting ends because each piece takes the character that it starts at, whatever the rule says of its
length.
-/
import IndentLisp.Token
import IndentLisp.Text.Lines

namespace IndentLisp

/-- White space in the sense of Unicode, together with the four information separators.  Reading
itself knows no other separators than space, tab and line feed. -/
def isBlank (c : Char) : Bool :=
  let n := c.toNat
  (0x09 ≤ n && n ≤ 0x0D) || (0x1C ≤ n && n ≤ 0x20) || n = 0x85 || n = 0xA0 || n = 0x1680 ||
    (0x2000 ≤ n && n ≤ 0x200A) || n = 0x2028 || n = 0x2029 || n = 0x202F || n = 0x205F ||
    n = 0x3000

/-- The characters after which a display starts a new line.  There are more of them than a reader
knows, which splits its lines at line feeds alone. -/
def isLineBoundary (c : Char) : Bool :=
  let n := c.toNat
  (0x0A ≤ n && n ≤ 0x0D) || (0x1C ≤ n && n ≤ 0x1E) || n = 0x85 || n = 0x2028 || n = 0x2029

end IndentLisp

namespace IndentLisp.Highlight

/-! ## 1. Kinds -/

/-- What a piece is: the kinds of section 10, with one for what fits nowhere. -/
inductive Kind where
  | text
  | comment
  | string
  | character
  | escape
  | punctuation
  | float
  | integer
  | keyword
  | constant
  | name
  | error
deriving DecidableEq, Repr

/-- The full name of a kind, from the general to the special.  This is the name that a style sheet
would use. -/
def Kind.path : Kind → String
  | .text => "Token.Text"
  | .comment => "Token.Comment.Single"
  | .string => "Token.Literal.String"
  | .character => "Token.Literal.String.Char"
  | .escape => "Token.Literal.String.Escape"
  | .punctuation => "Token.Punctuation"
  | .float => "Token.Literal.Number.Float"
  | .integer => "Token.Literal.Number.Integer"
  | .keyword => "Token.Keyword"
  | .constant => "Token.Keyword.Constant"
  | .name => "Token.Name"
  | .error => "Token.Error"

/-- How a language makes itself known to a program that chooses among many: by a name, by other
names, by file names, or by a media type. -/
structure Language where
  name : String
  aliases : List String
  patterns : List String
  mediaTypes : List String
deriving DecidableEq, Repr

/-- The language that is highlighted here. -/
def language : Language where
  name := "Piklisp"
  aliases := ["piklisp", "plisp"]
  patterns := ["*.plisp"]
  mediaTypes := ["text/x-piklisp"]

/-- Whether a piece starts outside or inside a string.  A string is cut into several pieces, so the
mode outlives each of them. -/
inductive Mode where
  | outside
  | inString
deriving DecidableEq, Repr

/-! ## 2. Words and numbers -/

/-- The special forms of section 10: the words that are keywords at the start of an item. -/
def keywords : List String :=
  ["package", "import", "func", "var", "const", "type", "struct", "if", "else", "for", "switch",
    "case", "default", "return", "go", "defer"]

/-- The words that name a value. -/
def constants : List String :=
  ["true", "false", "nil"]

/-- Whether an item can end before `cs`: at the end of the text, before white space, a parenthesis
or a double quote. -/
def endsItem : List Char → Bool
  | [] => true
  | c :: _ => isBlank c || c = '(' || c = ')' || c = '"'

/-- Whether an item can start after a character, or at the start of the text.  After a closing
parenthesis none can, by this rule. -/
def startsItem : Option Char → Bool
  | none => true
  | some c => isBlank c || c = '('

/-- The length of the run of characters at the front that pass a test. -/
def run (p : Char → Bool) (cs : List Char) : Nat :=
  (cs.takeWhile p).length

/-- The length of the word of a list that is the item at the front.  The word has to be the whole
item, so `iffy` is not `if`. -/
def wordLength? (words : List String) (cs : List Char) : Option Nat :=
  (words.find? fun w => w.toList.isPrefixOf cs && endsItem (cs.drop w.length)).map String.length

/-- The length of the decimal digits at the front, a minus sign before them included.  A sign alone
is no number. -/
def digitsLength? (cs : List Char) : Option Nat :=
  let sign := if cs.head? = some '-' then 1 else 0
  match run Char.isDigit (cs.drop sign) with
  | 0 => none
  | n + 1 => some (sign + n + 1)

/-- The length of the whole number that is the item at the front. -/
def integerLength? (cs : List Char) : Option Nat := do
  let n ← digitsLength? cs
  if endsItem (cs.drop n) then some n else none

/-- The length of the number with a point that is the item at the front; there are digits on both
sides of the point. -/
def floatLength? (cs : List Char) : Option Nat := do
  let n ← digitsLength? cs
  let fraction := run Char.isDigit (cs.drop (n + 1))
  let total := n + 1 + fraction
  if cs[n]? = some '.' ∧ 0 < fraction ∧ endsItem (cs.drop total) then some total else none

/-! ## 3. The piece at the front -/

/-- The kind of the item at the front of a text outside strings, and its length: numbers first, the
longer kind before the shorter, then words, then names. -/
def frontItem (before : Option Char) (cs : List Char) : Kind × Nat :=
  match floatLength? cs with
  | some n => (.float, n)
  | none =>
    match integerLength? cs with
    | some n => (.integer, n)
    | none =>
      match if startsItem before then wordLength? keywords cs else none with
      | some n => (.keyword, n)
      | none =>
        match wordLength? constants cs with
        | some n => (.constant, n)
        | none => (.name, run (!Token.isDelimiter ·) cs)

/-- The kind and the length of the piece that starts with `c`, and the mode after it.  `before` is
the character in front of it.  Within a string an escape is a piece of its own, and a backslash that
escapes nothing is an error of one character. -/
def frontPiece (mode : Mode) (before : Option Char) (c : Char) (cs : List Char) :
    Kind × Nat × Mode :=
  match mode with
  | .outside =>
    if isBlank c then (.text, run isBlank (c :: cs), .outside)
    else if c = ';' then (.comment, run (· ≠ '\n') (c :: cs), .outside)
    else if c = '"' then (.string, 1, .inString)
    else if c = '(' ∨ c = ')' then (.punctuation, 1, .outside)
    else
      match if c = '\'' then Token.characterLength? cs else none with
      | some n => (.character, n, .outside)
      | none =>
        let (kind, n) := frontItem before (c :: cs)
        (kind, n, .outside)
  | .inString =>
    if c = '"' then (.string, 1, .outside)
    else if c = '\\' then
      match cs with
      | d :: _ => if d = '\n' then (.error, 1, .inString) else (.escape, 2, .inString)
      | [] => (.error, 1, .inString)
    else (.string, run (fun d => d ≠ '"' ∧ d ≠ '\\') (c :: cs), .inString)

/-! ## 4. All pieces -/

/-- A piece of a text, and where it starts. -/
structure Piece where
  offset : Nat
  kind : Kind
  text : String
deriving DecidableEq, Repr

/-- The pieces of `done`, latest first, followed by those of the rest.  A piece takes the character
that it starts at in any case, and so the rest gets shorter every time. -/
def piecesOnto (done : List Piece) (mode : Mode) (before : Option Char) (offset : Nat) :
    List Char → List Piece
  | [] => done.reverse
  | c :: cs =>
    let (kind, n, mode) := frontPiece mode before c cs
    let taken := c :: cs.take (n - 1)
    piecesOnto (⟨offset, kind, String.ofList taken⟩ :: done) mode taken.getLast?
      (offset + taken.length) (cs.drop (n - 1))
termination_by cs => cs.length
decreasing_by
  simp only [List.length_cons, List.length_drop]
  omega

/-- The pieces of a text as it stands, each with its offset. -/
def pieces (text : String) : List Piece :=
  piecesOnto [] .outside none 0 text.toList

/-- A text made ready for display: a byte order mark at its front is dropped, its line ends are
unified, and it ends in exactly one of them and starts with none. -/
def prepare (text : String) : String :=
  let cs :=
    match text.toList with
    | '\ufeff' :: cs => cs
    | cs => cs
  let inner := (Lines.unify cs).dropWhile (· = '\n')
  String.ofList ((inner.reverse.dropWhile (· = '\n')).reverse ++ ['\n'])

/-! ## 5. Pieces on a terminal -/

/-- The escape sequence that starts a kind's ink; some kinds have none. -/
def Kind.ink? : Kind → Option String
  | .comment => some "\x1b[37m"
  | .keyword | .constant | .float | .integer => some "\x1b[34m"
  | .string | .character | .escape => some "\x1b[33m"
  | .error => some "\x1b[04m\x1b[91m"
  | .text | .punctuation | .name => none

/-- The escape sequence that ends an ink. -/
def plain : String := "\x1b[39;49;00m"

/-- Cuts a text behind every line boundary. -/
def displayLines (cs : List Char) : List (List Char) :=
  cs.foldr (fun c lines =>
    if isLineBoundary c then [c] :: lines
    else
      match lines with
      | [] => [[c]]
      | l :: ls => (c :: l) :: ls) []

/-- One line of a piece.  Its line feed, if it ends in one, stays outside the ink, and a line that
is nothing else is inked all the same. -/
def displayLine (ink? : Option String) (line : List Char) : String :=
  let inside := String.ofList (line.filter (· ≠ '\n'))
  let body :=
    match ink? with
    | some ink => ink ++ inside ++ plain
    | none => inside
  if line.getLast? = some '\n' then body ++ "\n" else body

/-- A piece in its ink. -/
def Piece.display (p : Piece) : String :=
  String.join ((displayLines p.text.toList).map (displayLine p.kind.ink?))

/-- A text, made ready and highlighted: what the command `highlight` prints. -/
def display (text : String) : String :=
  String.join ((pieces (prepare text)).map Piece.display)

end IndentLisp.Highlight
