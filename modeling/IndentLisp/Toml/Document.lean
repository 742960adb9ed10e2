/-
# TOML documents

A document is a sequence of statements, one a line: a table header, an array-of-tables header, or a
key with its value.  Headers and dotted keys open tables along the way, and **what may still be
opened is restricted**: a value is never replaced, an inline table or array is closed for good, and
a table that was named once is not named again.

So a document is more than its data.  While it is read, `Document` keeps three sets of keys beside
the table of what was said.  The closed keys are those of inline tables and arrays: nothing below
one may be added to.  The named keys are those that a header named: no header names one again, and
no dotted key goes through one.  The pending keys are the tables that dotted keys of the current
header went through: the header's own fields may go through them again, and they count as named from
the next header on (`Document.settle`).  A header of an array of tables starts an item, and frees
what was said of the tables below the item before it (`Document.openItem`).

A value within a value needs a recursion of its own (`value`, `items`, `fields`, `keyValue`).  It is
bounded by fuel: a call for a value gets twice the length of the text, and each value and each
separator takes at least one character, so that the bound is never met.

* `parse`: the table that a text says, or why it says none.
-/
import IndentLisp.Toml.Lexical

namespace IndentLisp.Toml

/-! ## 1. Tables within tables -/

/-- A table with one field replaced, in its place.  A field that is not there is not added. -/
def setField (t : Table) (name : String) (v : Value) : Table :=
  t.map fun (k, old) => if k = name then (k, v) else (k, old)

/-- Changes the table that a path of names leads to, making tables where there is nothing.  If
`throughArrays` holds, an array stands for its last item on the way, as it does for headers but not
within an inline table. -/
def updateAt (throughArrays : Bool) (change : Table → Option Table) :
    List String → Table → Option Table
  | [], t => change t
  | name :: names, t =>
    match t.lookup name with
    | none => do return t ++ [(name, .table (← updateAt throughArrays change names []))]
    | some (.table sub) => do
      return setField t name (.table (← updateAt throughArrays change names sub))
    | some (.array items) =>
      match throughArrays, items.getLast? with
      | true, some (.table sub) => do
        let sub ← updateAt throughArrays change names sub
        return setField t name (.array (items.dropLast ++ [.table sub]))
      | _, _ => none
    | some _ => none

/-- A table with a new field at its end; a field that is there already is not replaced. -/
def addField (name : String) (v : Value) (t : Table) : Option Table :=
  if (t.lookup name).isSome then none else some (t ++ [(name, v)])

/-- A table with one more empty table at the end of an array of tables, which is made where there is
none. -/
def addItem (name : String) (t : Table) : Option Table :=
  match t.lookup name with
  | none => some (t ++ [(name, .array [.table []])])
  | some (.array items) => some (setField t name (.array (items ++ [.table []])))
  | some _ => none

/-- Whether a value is closed once it is written: an inline table or an array.  A table that a
header opened is not. -/
def isClosed : Value → Bool
  | .array _ | .table _ => true
  | _ => false

/-- Whether a key lies at or below one of some keys. -/
def under (keys : List (List String)) (key : List String) : Bool :=
  keys.any (·.isPrefixOf key)

/-! ## 2. Values -/

mutual

/-- A value.  `fuel` bounds the number of values and separators. -/
def value : Nat → List Char → Except Fault (Value × List Char)
  | 0, _ => .error .malformed
  | fuel + 1, cs =>
    match cs with
    | '"' :: _ | '\'' :: _ => do
      let (s, rest) ← orMalformed (string? cs)
      return (.string s, rest)
    | 't' :: 'r' :: 'u' :: 'e' :: rest => .ok (.boolean true, rest)
    | 'f' :: 'a' :: 'l' :: 's' :: 'e' :: rest => .ok (.boolean false, rest)
    | '[' :: rest => do items fuel [] (← orMalformed (skipAll? rest))
    | '\x7b' :: rest =>
      match skipBlanks rest with
      | '\x7d' :: rest => .ok (.table [], rest)
      | rest => fields fuel [] [] rest
    | _ => scalar cs

/-- The rest of an array, from before an item or its closing bracket. -/
def items : Nat → List Value → List Char → Except Fault (Value × List Char)
  | 0, _, _ => .error .malformed
  | fuel + 1, done, cs =>
    match cs with
    | ']' :: rest => .ok (.array done.reverse, rest)
    | _ => do
      let (v, rest) ← value fuel cs
      match ← orMalformed (skipAll? rest) with
      | ']' :: rest => return (.array (v :: done).reverse, rest)
      | ',' :: rest => items fuel (v :: done) (← orMalformed (skipAll? rest))
      | _ => .error .malformed

/-- The rest of an inline table, from before a key.  `closed` holds the keys of the inline tables
and arrays in it. -/
def fields : Nat → List (List String) → Table → List Char → Except Fault (Value × List Char)
  | 0, _, _, _ => .error .malformed
  | fuel + 1, closed, t, cs => do
    let (key, v, rest) ← keyValue fuel cs
    if under closed key then .error .malformed
    else
      let t ← orMalformed (updateAt false (addField (key.getLast?.getD "") v) key.dropLast t)
      match skipBlanks rest with
      | '\x7d' :: rest => return (.table t, rest)
      | ',' :: rest =>
        fields fuel (if isClosed v then key :: closed else closed) t (skipBlanks rest)
      | _ => .error .malformed

/-- A key, an equals sign, and a value: a statement of a document, and an entry of an inline
table. -/
def keyValue : Nat → List Char → Except Fault (List String × Value × List Char)
  | 0, _ => .error .malformed
  | fuel + 1, cs => do
    match ← orMalformed (key? cs) with
    | (key, '=' :: rest) =>
      let (v, rest) ← value fuel (skipBlanks rest)
      return (key, v, rest)
    | _ => .error .malformed

end

/-! ## 3. Statements -/

/-- What is read of a document: its data, the table that fields now go to, the keys that are closed
for good, those that no header may name again, and those that join the latter at the next
header. -/
structure Document where
  data : Table
  header : List String
  closed : List (List String)
  named : List (List String)
  pending : List (List String)

namespace Document

/-- Nothing read yet. -/
def empty : Document := ⟨[], [], [], [], []⟩

/-- A table header.  The table may be there already, as what an earlier header or dotted key went
through on its way. -/
def openTable (d : Document) (key : List String) : Option Document :=
  if key ∈ d.named ∨ under d.closed key then none
  else do
    let data ← updateAt true some key d.data
    return { d with data := data, header := key, named := key :: d.named }

/-- An array-of-tables header.  Everything below the key is free again. -/
def openItem (d : Document) (key : List String) : Option Document :=
  if under d.closed key then none
  else do
    let data ← updateAt true (addItem (key.getLast?.getD "")) key.dropLast d.data
    let free := fun keys : List (List String) => keys.filter fun k => !key.isPrefixOf k
    return { d with
      data := data, header := key, closed := free d.closed, named := key :: free d.named }

/-- A field of the current table.  The tables that a dotted key goes through must not have been
named by a header, and will not be named by one. -/
def addValue (d : Document) (key : List String) (v : Value) : Option Document :=
  let inner := (List.range key.length).tail.map fun i => d.header ++ key.take i
  let parent := d.header ++ key.dropLast
  if inner.any (· ∈ d.named) ∨ under d.closed parent then none
  else do
    let data ← updateAt true (addField (key.getLast?.getD "") v) parent d.data
    return { d with
      data := data
      closed := if isClosed v then (d.header ++ key) :: d.closed else d.closed
      pending := inner ++ d.pending }

/-- What joins the named keys at a header. -/
def settle (d : Document) : Document :=
  { d with named := d.pending ++ d.named, pending := [] }

/-- A statement at the front of a line, and what follows it on the line.  A line that holds a
comment alone is an empty statement. -/
def statement (d : Document) (cs : List Char) : Except Fault (Document × List Char) :=
  match cs with
  | '[' :: '[' :: rest => do
    match ← orMalformed (key? (skipBlanks rest)) with
    | (key, ']' :: ']' :: rest) => return (← orMalformed (d.settle.openItem key), rest)
    | _ => .error .malformed
  | '[' :: rest => do
    match ← orMalformed (key? (skipBlanks rest)) with
    | (key, ']' :: rest) => return (← orMalformed (d.settle.openTable key), rest)
    | _ => .error .malformed
  | '#' :: _ => .ok (d, cs)
  | _ => do
    let (key, v, rest) ← keyValue (2 * cs.length + 2) cs
    return (← orMalformed (d.addValue key v), rest)

/-- The lines of a document.  `fuel` bounds their number. -/
def lines : Nat → Document → List Char → Except Fault Document
  | 0, _, _ => .error .malformed
  | fuel + 1, d, cs =>
    match skipBlanks cs with
    | [] => .ok d
    | '\n' :: rest => lines fuel d rest
    | rest => do
      let (d, rest) ← d.statement rest
      match ← orMalformed (skipComment? (skipBlanks rest)) with
      | [] => return d
      | '\n' :: rest => lines fuel d rest
      | _ => .error .malformed

end Document

/-- The characters of `done`, latest first, and the rest, in which each carriage return that a line
feed follows is left out. -/
def joinBreaksOnto (done : List Char) : List Char → List Char
  | [] => done.reverse
  | '\r' :: '\n' :: cs => joinBreaksOnto ('\n' :: done) cs
  | c :: cs => joinBreaksOnto (c :: done) cs

/-- The table that a document says.  Line ends of two characters count as one before anything is
read. -/
def parse (text : String) : Except Fault Table :=
  let cs := joinBreaksOnto [] text.toList
  (Document.lines (cs.length + 1) .empty cs).map Document.data

end IndentLisp.Toml
