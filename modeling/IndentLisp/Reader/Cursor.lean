/-
# The cursor

Where a reader stands in its text: what lies behind it, what lies ahead, and its place, which is
counted up character by character (`_advance`).  Everything a reader looks at is at the front of
what lies ahead, so reading is recursion on a list; what lies behind is kept, the nearest character
first, since a report quotes the whole line that the cursor is on.

The place is carried along and not computed when it is asked for.  It is an offset, a line and a
column, the latter two counted from one, and only a line feed starts a line.  So there are two
things that could drift apart, and two lemmas say that they do not: moving never changes the text
(`Cursor.text_skip`), and the place is always the one that the text behind determines
(`Cursor.placed_skip`).

At the end of the text the cursor does not move, and moving further than the text goes is moving to
its end.  A reader that takes a token knows how long it is and never does that.
-/
import IndentLisp.Text.Lines

namespace IndentLisp

/-! ## 1. Places -/

/-- An offset from the start, and the line and column there, both counted from one. -/
structure Place where
  offset : Nat
  line : Nat
  column : Nat
deriving DecidableEq, Repr

namespace Place

/-- Before the first character. -/
def start : Place := ⟨0, 1, 1⟩

/-- The place after one more character.  A line feed belongs to the line that it ends. -/
def next (p : Place) (c : Char) : Place :=
  if c = '\n' then ⟨p.offset + 1, p.line + 1, 1⟩ else ⟨p.offset + 1, p.line, p.column + 1⟩

end Place

/-! ## 2. Cursors -/

/-- A position in a text: the characters behind it, nearest first, and those ahead. -/
structure Cursor where
  behind : List Char
  ahead : List Char
  place : Place
deriving DecidableEq, Repr

namespace Cursor

/-- Before the first character of a text. -/
def ofText (cs : List Char) : Cursor := ⟨[], cs, .start⟩

/-- The whole text, which no move changes. -/
def text (c : Cursor) : List Char :=
  c.behind.reverse ++ c.ahead

/-- One character further; at the end of the text, nowhere.  This is `_advance`. -/
def advance : Cursor → Cursor
  | ⟨behind, [], place⟩ => ⟨behind, [], place⟩
  | ⟨behind, c :: cs, place⟩ => ⟨c :: behind, cs, place.next c⟩

/-- A number of characters further. -/
def skip : Nat → Cursor → Cursor
  | 0, c => c
  | n + 1, c => c.advance.skip n

/-- Past all characters that pass a test, up to the first that does not. -/
def skipWhile (p : Char → Bool) (c : Cursor) : Cursor :=
  c.skip (c.ahead.takeWhile p).length

/-- To the end of the line, before its line feed: the operation `_skip_comment`.  Whether the line
feed is taken as well is for the caller to say. -/
def skipLine (c : Cursor) : Cursor :=
  c.skipWhile (· ≠ '\n')

/-- The text from the cursor to the end of its line: `_rest_of_line`. -/
def restOfLine (c : Cursor) : List Char :=
  Lines.first c.ahead

/-- The text from the start of the cursor's line to the cursor. -/
def startOfLine (c : Cursor) : List Char :=
  (c.behind.takeWhile (· ≠ '\n')).reverse

/-- The cursor's line without the character that the cursor is on: `_line_without_cursor`.  At the
end of a line there is no such character, and nothing is left out. -/
def lineWithoutHere (c : Cursor) : List Char :=
  c.startOfLine ++ c.restOfLine.drop 1

/-! ## 3. What moving does -/

@[simp] theorem advance_ahead (c : Cursor) : c.advance.ahead = c.ahead.drop 1 := by
  rcases c with ⟨behind, _ | ⟨x, xs⟩, place⟩ <;> rfl

@[simp] theorem skip_ahead (n : Nat) (c : Cursor) : (c.skip n).ahead = c.ahead.drop n := by
  induction n generalizing c with
  | zero => rfl
  | succ n ih => rw [skip, ih, advance_ahead, List.drop_drop, Nat.add_comm]

@[simp] theorem text_advance (c : Cursor) : c.advance.text = c.text := by
  rcases c with ⟨behind, _ | ⟨x, xs⟩, place⟩ <;> simp [advance, text]

/-- **Moving does not change the text.** -/
@[simp] theorem text_skip (n : Nat) (c : Cursor) : (c.skip n).text = c.text := by
  induction n generalizing c with
  | zero => rfl
  | succ n ih => rw [skip, ih, text_advance]

/-- The place that a text behind the cursor determines: what counting up from the start comes to. -/
def Placed (c : Cursor) : Prop :=
  c.place = c.behind.reverse.foldl Place.next .start

theorem placed_advance {c : Cursor} (h : c.Placed) : c.advance.Placed := by
  rcases c with ⟨behind, _ | ⟨x, xs⟩, place⟩
  · exact h
  · have h : place = behind.reverse.foldl Place.next .start := h
    simp only [Placed, advance, List.reverse_cons, List.foldl_append, List.foldl_cons,
      List.foldl_nil, h]

/-- **The place is always the one that the text behind determines.** -/
theorem placed_skip {c : Cursor} (h : c.Placed) (n : Nat) : (c.skip n).Placed := by
  induction n generalizing c with
  | zero => exact h
  | succ n ih => exact ih (placed_advance h)

theorem skipWhile_ahead (p : Char → Bool) (c : Cursor) :
    (c.skipWhile p).ahead = c.ahead.dropWhile p := by
  rw [skipWhile, skip_ahead]
  generalize c.ahead = cs
  induction cs with
  | nil => rfl
  | cons x xs ih =>
    by_cases hx : p x = true
    · simp [hx, ih]
    · simp [hx]

end Cursor

end IndentLisp
