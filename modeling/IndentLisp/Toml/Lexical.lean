/-
# Words of TOML

Blanks, comments, keys, strings, numbers and moments: what the documents of section 7 are made of,
by version 1.0.0 of the language.  Each reading function takes the characters ahead and answers what
it read and the characters after it, or `none` where the text is malformed; the answer of a fault
has no place in it, since the program reports none.

A value can be at fault in one other way: **a whole number in base ten has at most 4300 digits**.
The bound is one of the language that the settings are loaded in, and it counts for base ten alone,
so a number of any length can be written in base sixteen.

A word is read by the first letter that it shows, with two exceptions.  A string is told from one of
several lines by two more quotes, and up to two quotes before the closing three are part of what it
says (`moreQuotes`).  A value that starts with a digit is tried as a date first, then as a time of
day, and only then as a number: **what is written as a date but is no day of the calendar is an
error** and is not tried as anything else.

Where a function takes `fuel`, the fuel is a bound on how often it goes round, and its callers pass
the length of the text, which is always enough.
-/
import IndentLisp.Toml.Value

namespace IndentLisp.Toml

/-- Why a document cannot be read: it is malformed, or a number in it is too long. -/
inductive Fault where
  | malformed
  | tooManyDigits
deriving DecidableEq, Repr

/-- What was read, or else the text is malformed. -/
def orMalformed {α : Type} : Option α → Except Fault α
  | some a => .ok a
  | none => .error .malformed

/-! ## 1. Blanks and comments -/

/-- A blank within a line. -/
def isBlank (c : Char) : Bool :=
  c = ' ' || c = '\t'

/-- A blank or a line end. -/
def isBlankOrBreak (c : Char) : Bool :=
  isBlank c || c = '\n'

/-- A control character that may stand in no string of one line and in no comment. -/
def isIllegal (c : Char) : Bool :=
  (c.toNat < 0x20 && c ≠ '\t') || c.toNat = 0x7F

/-- Past the blanks of a line.  A line end is not passed. -/
def skipBlanks (cs : List Char) : List Char :=
  cs.dropWhile isBlank

/-- Past a comment, if there is one, to its line end. -/
def skipComment? (cs : List Char) : Option (List Char) :=
  match cs with
  | '#' :: rest =>
    if (rest.takeWhile (· ≠ '\n')).any isIllegal then none else some (rest.dropWhile (· ≠ '\n'))
  | _ => some cs

/-- Past blanks, line ends and comments.  `fuel` bounds the number of comments. -/
def skipLayout? : Nat → List Char → Option (List Char)
  | 0, cs => some cs
  | fuel + 1, cs =>
    match cs.dropWhile isBlankOrBreak with
    | '#' :: rest => do skipLayout? fuel (← skipComment? ('#' :: rest))
    | rest => some rest

/-- Past blanks, line ends and comments, as they may stand between the items of an array. -/
def skipAll? (cs : List Char) : Option (List Char) :=
  skipLayout? cs.length cs

/-! ## 2. Strings -/

/-- The value of a hexadecimal digit. -/
def hexDigit? (c : Char) : Option Nat :=
  if c.isDigit then some (c.toNat - '0'.toNat)
  else if 'a' ≤ c ∧ c ≤ 'f' then some (c.toNat - 'a'.toNat + 10)
  else if 'A' ≤ c ∧ c ≤ 'F' then some (c.toNat - 'A'.toNat + 10)
  else none

/-- The character whose number is written in exactly `width` hexadecimal digits.  A surrogate is the
number of no character. -/
def hexChar? (width : Nat) (cs : List Char) : Option (Char × List Char) := do
  let digits ← (cs.take width).mapM hexDigit?
  let n := digits.foldl (fun n d => 16 * n + d) 0
  if digits.length = width ∧ n.isValidChar then some (Char.ofNat n, cs.drop width) else none

/-- The character that an escape of one letter stands for. -/
def escape? : Char → Option Char
  | 'b' => some '\x08'
  | 't' => some '\t'
  | 'n' => some '\n'
  | 'f' => some '\x0c'
  | 'r' => some '\r'
  | '"' => some '"'
  | '\\' => some '\\'
  | _ => none

/-- What an escape stands for, given the characters after its backslash.  In a string of several
lines a backslash at the end of a line takes all blanks and line ends after it along. -/
def escaped? (multiline : Bool) : List Char → Option (List Char × List Char)
  | [] => none
  | 'u' :: cs => do
    let (c, rest) ← hexChar? 4 cs
    return ([c], rest)
  | 'U' :: cs => do
    let (c, rest) ← hexChar? 8 cs
    return ([c], rest)
  | c :: cs =>
    if multiline ∧ isBlankOrBreak c then
      match skipBlanks (c :: cs) with
      | [] => some ([], [])
      | '\n' :: rest => some ([], rest.dropWhile isBlankOrBreak)
      | _ => none
    else do return ([← escape? c], cs)

/-- The rest of a basic string; `done` holds what it says so far, latest first.  `fuel` bounds the
number of characters. -/
def basic? (multiline : Bool) :
    Nat → List Char → List Char → Option (List Char × List Char)
  | 0, _, _ => none
  | _ + 1, _, [] => none
  | fuel + 1, done, '"' :: cs =>
    if multiline then
      match cs with
      | '"' :: '"' :: rest => some (done.reverse, rest)
      | _ => basic? multiline fuel ('"' :: done) cs
    else some (done.reverse, cs)
  | fuel + 1, done, '\\' :: cs => do
    let (said, rest) ← escaped? multiline cs
    basic? multiline fuel (said.reverse ++ done) rest
  | fuel + 1, done, c :: cs =>
    if isIllegal c ∧ ¬ (multiline ∧ c = '\n') then none
    else basic? multiline fuel (c :: done) cs

/-- The rest of a literal string of one line.  There are no escapes in it. -/
def literal? (cs : List Char) : Option (List Char × List Char) :=
  let said := cs.takeWhile (· ≠ '\'')
  match cs.drop said.length with
  | [] => none
  | _ :: rest => if said.any isIllegal then none else some (said, rest)

/-- The rest of a literal string of several lines; `done` holds what it says so far, latest
first. -/
def literalLines? (done : List Char) : List Char → Option (List Char × List Char)
  | [] => none
  | '\'' :: '\'' :: '\'' :: rest => some (done.reverse, rest)
  | c :: cs => if isIllegal c ∧ c ≠ '\n' then none else literalLines? (c :: done) cs

/-- Up to two more quotes after the end of a string of several lines belong to it. -/
def moreQuotes (quote : Char) (said rest : List Char) : List Char × List Char :=
  let extra := (rest.take 2).takeWhile (· = quote)
  (said ++ extra, rest.drop extra.length)

/-- A line end right after the opening quotes is not part of a string of several lines. -/
def afterOpening : List Char → List Char
  | '\n' :: cs => cs
  | cs => cs

/-- A string of any kind, from its quote on: of several lines where three quotes stand, and else of
one. -/
def string? : List Char → Option (String × List Char)
  | '"' :: '"' :: '"' :: cs => do
    let (said, rest) ← basic? true (cs.length + 1) [] (afterOpening cs)
    let (said, rest) := moreQuotes '"' said rest
    return (String.ofList said, rest)
  | '\'' :: '\'' :: '\'' :: cs => do
    let (said, rest) ← literalLines? [] (afterOpening cs)
    let (said, rest) := moreQuotes '\'' said rest
    return (String.ofList said, rest)
  | '"' :: cs => do
    let (said, rest) ← basic? false (cs.length + 1) [] cs
    return (String.ofList said, rest)
  | '\'' :: cs => do
    let (said, rest) ← literal? cs
    return (String.ofList said, rest)
  | _ => none

/-! ## 3. Keys -/

/-- A character of a key without quotes. -/
def isBare (c : Char) : Bool :=
  c.isAlphanum || c = '-' || c = '_'

/-- One part of a key: bare, or a string of one line, which may be empty where a bare part may
not. -/
def keyPart? (cs : List Char) : Option (String × List Char) :=
  match cs with
  | '"' :: rest => do
    let (said, rest) ← basic? false (rest.length + 1) [] rest
    return (String.ofList said, rest)
  | '\'' :: rest => do
    let (said, rest) ← literal? rest
    return (String.ofList said, rest)
  | _ =>
    match cs.takeWhile isBare with
    | [] => none
    | bare => some (String.ofList bare, cs.drop bare.length)

/-- The parts of a key with dots between them, and the blanks after it.  `fuel` bounds the number
of parts. -/
def keyParts? : Nat → List Char → Option (List String × List Char)
  | 0, _ => none
  | fuel + 1, cs => do
    let (part, rest) ← keyPart? cs
    match skipBlanks rest with
    | '.' :: rest =>
      let (parts, rest) ← keyParts? fuel (skipBlanks rest)
      return (part :: parts, rest)
    | rest => return ([part], rest)

/-- A key, and the blanks after it. -/
def key? (cs : List Char) : Option (List String × List Char) :=
  keyParts? (cs.length + 1) cs

/-! ## 4. Numbers -/

/-- The digits of `done`, latest first, and those that follow, with single underscores allowed
before each of them. -/
def digitsOnto (isDigit : Char → Bool) (done : List Char) : List Char → List Char × List Char
  | [] => (done.reverse, [])
  | '_' :: d :: cs =>
    if isDigit d then digitsOnto isDigit (d :: done) cs else (done.reverse, '_' :: d :: cs)
  | c :: cs => if isDigit c then digitsOnto isDigit (c :: done) cs else (done.reverse, c :: cs)

/-- The digits at the front, with single underscores allowed between two of them; the underscores
are left out of the answer. -/
def digits (isDigit : Char → Bool) : List Char → List Char × List Char
  | [] => ([], [])
  | c :: cs => if isDigit c then digitsOnto isDigit [c] cs else ([], c :: cs)

/-- The number that digits spell in a base. -/
def spelled (base : Nat) (ds : List Char) : Nat :=
  ds.foldl (fun n d => base * n + (hexDigit? d).getD 0) 0

/-- A whole number in another base, after its `0` and the letter of the base. -/
def based? (base : Nat) (isDigit : Char → Bool) (cs : List Char) : Option (Value × List Char) :=
  match digits isDigit cs with
  | ([], _) => none
  | (ds, rest) => some (.integer (spelled base ds), rest)

/-- The length of a sign at the front. -/
def signLength (cs : List Char) : Nat :=
  match cs with
  | '+' :: _ | '-' :: _ => 1
  | _ => 0

/-- What follows the fraction at the front: a point and digits.  A point without digits is none. -/
def afterFraction (cs : List Char) : List Char :=
  match cs with
  | '.' :: rest =>
    match digits Char.isDigit rest with
    | ([], _) => cs
    | (_, rest) => rest
  | _ => cs

/-- What follows the exponent at the front: a letter, a sign, and digits. -/
def afterExponent (cs : List Char) : List Char :=
  match cs with
  | c :: rest =>
    if c = 'e' ∨ c = 'E' then
      match digits Char.isDigit (rest.drop (signLength rest)) with
      | ([], _) => cs
      | (_, rest) => rest
    else cs
  | [] => cs

/-- A number in base ten, whole or not.  A zero at the front stands alone. -/
def decimal? (cs : List Char) : Option (Value × List Char) :=
  let negative := cs.head? = some '-'
  let unsigned := cs.drop (signLength cs)
  let (ds, rest) :=
    match unsigned with
    | '0' :: rest => (['0'], rest)
    | _ => digits Char.isDigit unsigned
  if ds = [] then none
  else
    let after := afterExponent (afterFraction rest)
    if after.length < rest.length then
      some (.float (String.ofList (cs.take (cs.length - after.length))), after)
    else
      let n : Int := spelled 10 ds
      some (.integer (if negative then -n else n), rest)

/-- The number of digits that a whole number in base ten may have.  The bound is on its value, so
zeros at the front would not count, but there are none. -/
def maxDigits : Nat := 4300

/-- A number that is no moment: in base two, eight, ten or sixteen, infinite, or not a number.
Whether a number in base ten is too long is decided here and nowhere else. -/
def number (cs : List Char) : Except Fault (Value × List Char) :=
  let inBase : Option (Value × List Char) :=
    match cs with
    | '0' :: 'x' :: rest => based? 16 (fun c => (hexDigit? c).isSome) rest
    | '0' :: 'o' :: rest => based? 8 (fun c => '0' ≤ c && c ≤ '7') rest
    | '0' :: 'b' :: rest => based? 2 (fun c => c = '0' || c = '1') rest
    | _ => none
  match inBase with
  | some found => .ok found
  | none =>
    match decimal? cs with
    | some (.integer n, rest) =>
      if n.natAbs < Nat.pow 10 maxDigits then .ok (.integer n, rest) else .error .tooManyDigits
    | some found => .ok found
    | none =>
      let word := (cs.drop (signLength cs)).take 3
      let n := signLength cs + 3
      if word = ['i', 'n', 'f'] ∨ word = ['n', 'a', 'n'] then
        .ok (.float (String.ofList (cs.take n)), cs.drop n)
      else .error .malformed

/-! ## 5. Moments -/

/-- The number of exactly `width` decimal digits at the front, if it lies within bounds. -/
def field? (width low high : Nat) (cs : List Char) : Option (Nat × List Char) :=
  let ds := cs.take width
  let n := spelled 10 ds
  if ds.length = width ∧ ds.all Char.isDigit ∧ low ≤ n ∧ n ≤ high then some (n, cs.drop width)
  else none

/-- What follows a character at the front. -/
def after? (c : Char) : List Char → Option (List Char)
  | [] => none
  | d :: cs => if c = d then some cs else none

/-- The number of days in a month. -/
def monthDays (year month : Nat) : Nat :=
  if month = 2 then
    if year % 4 = 0 ∧ (year % 100 ≠ 0 ∨ year % 400 = 0) then 29 else 28
  else if month = 4 ∨ month = 6 ∨ month = 9 ∨ month = 11 then 30
  else 31

/-- What follows a time of day: hours, minutes and seconds, and perhaps a fraction of the latter. -/
def afterTime? (cs : List Char) : Option (List Char) := do
  let (_, cs) ← field? 2 0 23 cs
  let (_, cs) ← field? 2 0 59 (← after? ':' cs)
  let (_, cs) ← field? 2 0 59 (← after? ':' cs)
  match cs with
  | '.' :: rest =>
    let fraction := rest.takeWhile Char.isDigit
    return if fraction = [] then cs else rest.drop fraction.length
  | _ => return cs

/-- What follows the offset of a time, if there is one. -/
def afterOffset (cs : List Char) : List Char :=
  match cs with
  | 'Z' :: rest | 'z' :: rest => rest
  | '+' :: rest | '-' :: rest =>
    let offset : Option (List Char) := do
      let (_, rest) ← field? 2 0 23 rest
      let (_, rest) ← field? 2 0 59 (← after? ':' rest)
      return rest
    offset.getD cs
  | _ => cs

/-- Whether a date that is written well is in the calendar, and what follows it. -/
def afterDate? (cs : List Char) : Option (Bool × List Char) := do
  let (year, cs) ← field? 4 0 9999 cs
  let (month, cs) ← field? 2 1 12 (← after? '-' cs)
  let (day, cs) ← field? 2 1 31 (← after? '-' cs)
  return (1 ≤ year && day ≤ monthDays year month, cs)

/-- What follows a date and perhaps a time.  A letter or a blank that no time follows belongs to
what comes next. -/
def afterDateTime (cs : List Char) : List Char :=
  match cs with
  | c :: rest =>
    if c = 'T' ∨ c = 't' ∨ c = ' ' then
      match afterTime? rest with
      | some rest => afterOffset rest
      | none => cs
    else cs
  | [] => cs

/-- A value that starts with a digit, a sign or a letter: a moment or a number, tried in that
order. -/
def scalar (cs : List Char) : Except Fault (Value × List Char) :=
  let moment := fun (rest : List Char) =>
    .ok (Value.moment (String.ofList (cs.take (cs.length - rest.length))), rest)
  match afterDate? cs with
  | some (valid, rest) => if valid then moment (afterDateTime rest) else .error .malformed
  | none =>
    match afterTime? cs with
    | some rest => moment rest
    | none => number cs

end IndentLisp.Toml
