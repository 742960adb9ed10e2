/-
# TOML values

The values of a document of settings (section 7).  A table keeps its fields in the order in which
they came to be, and no two of them share a name; the order is seen nowhere but in the table itself,
since settings are looked up by name.

A value that is to be a number with a point, or a moment in time, is kept as it is written.  All
that is ever asked of one is whether it counts as a yes (`Value.isTruthy`): a setting may be given a
value of any kind, and **a value is never checked for its kind**, so a color of `0.0` says no, and
an empty list says no as well.  A moment is always a yes.  For a number the question is whether it
is zero, which is not quite whether its digits are: a number that is too small for a float of 64
bits is read as zero.  That bound is exact here.  A number vanishes if it is no larger than half of
the least float, which is two to the power of minus 1074, since a tie goes to the even neighbour,
zero.

Nothing is computed with floats, then, and the test is one of natural numbers (`Value.vanishes`).
-/

namespace IndentLisp.Toml

/-- A value of one of the kinds of the language.  Numbers with a point and moments are kept as
written. -/
inductive Value where
  | string (s : String)
  | integer (n : Int)
  | float (written : String)
  | boolean (b : Bool)
  | moment (written : String)
  | array (items : List Value)
  | table (fields : List (String × Value))
deriving Inhabited

/-- The fields of a table, in order; no two of them share a name. -/
abbrev Table := List (String × Value)

namespace Value

/-- The table that a value is, if it is one.  Settings of a group are looked up in a table only. -/
def table? : Value → Option Table
  | .table fields => some fields
  | _ => none

/-- The number that the decimal digits among some characters spell.  Underscores and points between
them do not count. -/
def decimal (cs : List Char) : Nat :=
  (cs.filter Char.isDigit).foldl (fun n c => 10 * n + (c.toNat - '0'.toNat)) 0

/-- Whether `m` times ten to the power of `e` is at most two to the power of minus 1075.  Where the
number of digits settles it, no power is computed. -/
def vanishes (m : Nat) (e : Int) : Bool :=
  if m = 0 then true
  else
    let magnitude := e + (Nat.toDigits 10 m).length
    if -323 < magnitude then false
    else if magnitude < -323 then true
    else m * Nat.pow 2 1075 ≤ Nat.pow 10 (-e).toNat

/-- Whether a number with a point, as it is written, is zero.  The point is moved to the end of the
digits, and the exponent is lowered by the number of places it moved. -/
def writtenZero (s : String) : Bool :=
  let isMark := fun (c : Char) => c = 'e' || c = 'E'
  let mantissa := s.toList.takeWhile (!isMark ·)
  let exponent := s.toList.drop (mantissa.length + 1)
  let places := ((mantissa.dropWhile (· ≠ '.')).filter Char.isDigit).length
  let power : Int := decimal exponent
  mantissa.any Char.isDigit &&
    vanishes (decimal mantissa) ((if exponent.head? = some '-' then -power else power) - places)

/-- Whether a value counts as a yes: it is true, or not zero, or not empty, or a moment.  A name of
the wrong kind is no error. -/
def isTruthy : Value → Bool
  | .string s => s ≠ ""
  | .integer n => n ≠ 0
  | .float s => !writtenZero s
  | .boolean b => b
  | .moment _ => true
  | .array items => !items.isEmpty
  | .table fields => !fields.isEmpty

end Value

end IndentLisp.Toml
