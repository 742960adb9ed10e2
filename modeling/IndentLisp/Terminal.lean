/-
# Colour on a terminal

Coloured text is a sequence of pieces: stretches of plain text, and inks that hold from where they
stand.  **Colour is decided when the pieces are shown**: an ink is an escape sequence if colour is
on and nothing if it is off (`_c`).  So a line of a diagnostic is one list of pieces, whether it is
shown in colour or not, and what the two outputs have in common is what they are made of.

`strip` removes the escape sequences from a text: an escape character and an opening bracket,
parameter characters, intermediate characters, and one final character.  It is not used to show
anything.  It is the usual reading of a coloured text as a plain one, against which the colouring is
measured: what a terminal without colour would show.

Sequences are removed from the left, each as long as it can be, and the search goes on behind it.  A
text can hold parts of a sequence that are none, and joining two texts can make a sequence out of
them; so removing sequences from a joined text is more than removing them from its parts.

* `Ink.code`: the five inks of a diagnostic.
* `shown`: a line of pieces as text.
* `afterSequence?`, `strip`: one sequence at the front of a text, and all of them.
-/

namespace IndentLisp.Terminal

/-! ## 1. Inks and pieces -/

/-- The inks of a diagnostic; `plain` ends whichever holds. -/
inductive Ink where
  | red
  | yellow
  | blue
  | bold
  | plain
deriving DecidableEq, Repr

/-- The escape sequence that turns an ink on. -/
def Ink.code : Ink → String
  | .red => "\x1b[1;31m"
  | .yellow => "\x1b[1;33m"
  | .blue => "\x1b[1;34m"
  | .bold => "\x1b[1m"
  | .plain => "\x1b[0m"

/-- A stretch of text, or a change of ink. -/
inductive Piece where
  | text (s : String)
  | ink (i : Ink)
deriving DecidableEq, Repr

/-- The characters of a piece.  An ink has none where colour is off. -/
def Piece.chars (color : Bool) : Piece → List Char
  | .text s => s.toList
  | .ink i => if color then i.code.toList else []

/-- A line of pieces, in colour or without. -/
def shown (color : Bool) (line : List Piece) : String :=
  String.ofList (line.flatMap (Piece.chars color))

/-! ## 2. Removing escape sequences -/

/-- Characters that may follow the opening bracket of an escape sequence. -/
def isParameter (c : Char) : Bool :=
  '0' ≤ c && c ≤ '?'

/-- Characters that may follow the parameters. -/
def isIntermediate (c : Char) : Bool :=
  ' ' ≤ c && c ≤ '/'

/-- Characters that end an escape sequence. -/
def isFinal (c : Char) : Bool :=
  '@' ≤ c && c ≤ '~'

/-- What follows the escape sequence at the front of a text, if there is one.  Parameters and
intermediate characters are taken as far as they go: none of them can end a sequence, so no shorter
reading could succeed. -/
def afterSequence? : List Char → Option (List Char)
  | '\x1b' :: '[' :: cs =>
    match (cs.dropWhile isParameter).dropWhile isIntermediate with
    | c :: rest => if isFinal c then some rest else none
    | [] => none
  | _ => none

theorem length_afterSequence? {cs rest : List Char} (h : afterSequence? cs = some rest) :
    rest.length < cs.length := by
  unfold afterSequence? at h
  split at h
  · rename_i cs
    have h1 := (List.dropWhile_sublist isParameter (l := cs)).length_le
    have h2 := (List.dropWhile_sublist isIntermediate (l := cs.dropWhile isParameter)).length_le
    split at h
    · rename_i c rest' heq
      split at h
      · have hr : rest' = rest := Option.some.inj h
        subst hr
        rw [heq] at h2
        simp only [List.length_cons] at *
        omega
      · simp at h
    · simp at h
  · simp at h

/-- The characters of `done`, latest first, followed by the rest without its escape sequences.  A
character that starts none is kept. -/
def stripOnto (done : List Char) : List Char → List Char
  | [] => done.reverse
  | c :: cs =>
    match h : afterSequence? (c :: cs) with
    | some rest =>
      have := length_afterSequence? h
      stripOnto done rest
    | none => stripOnto (c :: done) cs
termination_by cs => cs.length
decreasing_by
  · exact this
  · exact Nat.lt_succ_self _

/-- A text without its escape sequences. -/
def strip (s : String) : String :=
  String.ofList (stripOnto [] s.toList)

end IndentLisp.Terminal
