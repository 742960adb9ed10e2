/-
# Tokens

A token is a double-quoted string, a quoted character, or a bare run of characters.  Its first
character decides which of the three rules applies (section 4, `classify`), and `Token.length?` says
how far the token at the front of a text reaches (`find_token_end`); there is no token where that is
`none`:

* a **string** runs from a quote to the next quote that no backslash escapes; it may hold line
  feeds, but a backslash escapes any character except a line feed;
* a **character** is a single quote, an optional backslash, any one character except a line feed,
  and a single quote, the longer reading winning where both fit;
* a **symbol** is the longest run of characters that are no delimiters.

The specification gives the rules as patterns that are matched at a place of the text.  Here they
are functions of what lies ahead, by recursion on it, and the place is no part of them; `Token.end?`
puts it back.  That they are what the patterns match is proved against a description of the patterns
of its own, with the theory of tokens.

The semicolon and the parentheses are told apart by the reader before it asks for a token.  So a
symbol may hold a semicolon that it does not start with, and a string or a character may hold any of
them.

`length?_pos` and `length?_le` say that a token is never empty and never longer than its text.  That
is what makes a reader advance with every token.
-/

namespace IndentLisp

/-- The three rules: `TokenKind`. -/
inductive Token.Rule where
  | string
  | character
  | symbol
deriving DecidableEq, Repr

namespace Token.Rule

/-- The rule for a token that starts with `c`: the operation `classify`, of a text of one
character. -/
def ofChar (c : Char) : Token.Rule :=
  if c = '"' then .string else if c = '\'' then .character else .symbol

/-- The rule that a text stands for: a lone quote of either kind is its rule's mark, and any other
text is a symbol's. -/
def ofText (s : String) : Token.Rule :=
  match s.toList with
  | [c] => ofChar c
  | _ => .symbol

end Token.Rule

namespace Token

/-! ## 1. The three rules -/

/-- The characters that end a symbol.  The semicolon and the single quote are none: a symbol may
hold them, though it cannot start with either. -/
def isDelimiter (c : Char) : Bool :=
  c = ' ' || c = '\t' || c = '\n' || c = '"' || c = '(' || c = ')'

/-- The length of a string token of which `read` characters are already read and `cs` follow.  A
backslash takes the next character along, whatever it is, but a line feed: there is no token then,
since no other reading of the backslash is left. -/
def stringLength? (read : Nat) : List Char → Option Nat
  | [] => none
  | '"' :: _ => some (read + 1)
  | '\\' :: c :: cs => if c = '\n' then none else stringLength? (read + 2) cs
  | _ :: cs => stringLength? (read + 1) cs

/-- The length of a character token whose opening quote is read and which `cs` follow.  The reading
with a backslash is tried first, so that an escaped quote is one character and not the end of the
token. -/
def characterLength? : List Char → Option Nat
  | '\\' :: c :: '\'' :: _ => if c = '\n' then none else some 4
  | c :: '\'' :: _ => if c = '\n' then none else some 3
  | _ => none

/-- The length of the symbol at the front of a text; there is none at a delimiter. -/
def symbolLength? (cs : List Char) : Option Nat :=
  match (cs.takeWhile (!isDelimiter ·)).length with
  | 0 => none
  | n + 1 => some (n + 1)

/-- The length of the token at the front of a text, or `none` where no valid token starts: an open
string, a malformed character, or no token at all. -/
def length? : List Char → Option Nat
  | [] => none
  | c :: cs =>
    match Token.Rule.ofChar c with
    | .string => stringLength? 1 cs
    | .character => characterLength? cs
    | .symbol => symbolLength? (c :: cs)

/-- The place just past the token that starts at `start`: the operation `find_token_end`, where
`none` says that no valid token starts there. -/
def end? (text : List Char) (start : Nat) : Option Nat :=
  (length? (text.drop start)).map (start + ·)

/-! ## 2. Bounds -/

theorem stringLength?_bounds {read n : Nat} {cs : List Char} (h : stringLength? read cs = some n) :
    read < n ∧ n ≤ read + cs.length := by
  fun_induction stringLength? read cs with
  | case1 => simp at h
  | case2 read cs =>
    simp only [Option.some.injEq] at h
    simp only [List.length_cons]
    omega
  | case3 => simp at h
  | case4 read c cs hc ih =>
    have := ih h
    simp only [List.length_cons]
    omega
  | case5 read c cs hq hb ih =>
    have := ih h
    simp only [List.length_cons]
    omega

theorem characterLength?_bounds {n : Nat} {cs : List Char} (h : characterLength? cs = some n) :
    0 < n ∧ n ≤ 1 + cs.length := by
  unfold characterLength? at h
  split at h
  · split at h
    · simp at h
    · simp only [Option.some.injEq] at h
      simp only [List.length_cons]
      omega
  · split at h
    · simp at h
    · simp only [Option.some.injEq] at h
      simp only [List.length_cons]
      omega
  · simp at h

theorem symbolLength?_bounds {n : Nat} {cs : List Char} (h : symbolLength? cs = some n) :
    0 < n ∧ n ≤ cs.length := by
  have hle : (cs.takeWhile (!isDelimiter ·)).length ≤ cs.length :=
    (List.takeWhile_sublist _).length_le
  unfold symbolLength? at h
  split at h
  · simp at h
  · rename_i m hm
    simp only [Option.some.injEq] at h
    omega

/-- **A token is not empty.** -/
theorem length?_pos {n : Nat} {cs : List Char} (h : length? cs = some n) : 0 < n := by
  unfold length? at h
  split at h
  · simp at h
  · split at h
    · have := stringLength?_bounds h
      omega
    · exact (characterLength?_bounds h).1
    · exact (symbolLength?_bounds h).1

/-- **A token lies within its text.** -/
theorem length?_le {n : Nat} {cs : List Char} (h : length? cs = some n) : n ≤ cs.length := by
  unfold length? at h
  split at h
  · simp at h
  · simp only [List.length_cons]
    split at h
    · have := stringLength?_bounds h
      omega
    · have := characterLength?_bounds h
      omega
    · have := symbolLength?_bounds h
      simp only [List.length_cons] at this
      omega

end Token

end IndentLisp
