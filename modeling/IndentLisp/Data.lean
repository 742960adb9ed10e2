/-
# Tree data

What a subtree says, without its handles: a leaf is its text, and a list is the data of its items.
This is what the operation `to_data` answers (section 3), and two trees are equal when their root
data are.  Handles are left out on purpose: two readings that number their nodes differently, since
one of them met a list that was stripped later, can say the same.

Three printed forms are defined here, each by **one pass that writes in front of what follows**:

* `Data.classic`: fully parenthesised source (section 9, `to_classic`);
* `Data.listing`: one entry per node, indented by depth (`dump`);
* `Data.shown`: the form that a message shows, brackets around lists and quotes around leaves.

The pass takes what comes after the datum as an argument and joins nothing, so that a text is built
once and a deep tree costs no more than a flat one.  For the theory the other form is the useful
one: what is written in front of `rest` does not depend on it (`classicOnto_eq`, `listingOnto_eq`),
so a printed datum can be cut off the front of a longer text.  The functions and their lemmas are
mutual, one for a datum and one for the items of a list, as the type is nested.

`Data.unwrap` strips the lists that hold nothing but one item.  It is what the operation `collapse`
does to what a tree says; the tree itself only moves its root.
-/
import IndentLisp.Text.Quoted

namespace IndentLisp

/-- Nested lists of texts: the plain view of a subtree. -/
inductive Data where
  | leaf (text : String)
  | list (items : List Data)
deriving Inhabited, Repr

namespace Data

/-! ## 1. Equality is decidable -/

mutual

/-- Whether two data are equal.  The type is nested, so the test is written out; it follows both
data together, and stops where they differ. -/
def decEq : (a b : Data) → Decidable (a = b)
  | .leaf s, .leaf t =>
    if h : s = t then isTrue (by rw [h]) else isFalse (by simpa using h)
  | .list xs, .list ys =>
    match decEqItems xs ys with
    | isTrue h => isTrue (by rw [h])
    | isFalse h => isFalse (by simpa using h)
  | .leaf _, .list _ => isFalse (by simp)
  | .list _, .leaf _ => isFalse (by simp)

/-- Whether two lists of items are equal. -/
def decEqItems : (xs ys : List Data) → Decidable (xs = ys)
  | [], [] => isTrue rfl
  | x :: xs, y :: ys =>
    match decEq x y with
    | isFalse h => isFalse (by simp [h])
    | isTrue h =>
      match decEqItems xs ys with
      | isTrue h' => isTrue (by rw [h, h'])
      | isFalse h' => isFalse (by simp [h'])
  | [], _ :: _ => isFalse (by simp)
  | _ :: _, [] => isFalse (by simp)

end

instance : DecidableEq Data := decEq

/-! ## 2. Wrapping -/

/-- Strips the lists of exactly one item from the outside.  An empty list stays, and so does a list
of two. -/
def unwrap : Data → Data
  | .list [d] => d.unwrap
  | d => d

/-! ## 3. Classic syntax -/

mutual

/-- The classic form of a datum, followed by `rest`.  A leaf is written as it is: its text is a
token with its own quotes, if it has any. -/
def classicOnto (rest : List Char) : Data → List Char
  | .leaf s => s.toList ++ rest
  | .list items => '(' :: classicItems (')' :: rest) items

/-- The classic forms of items, a space between each two, followed by `rest`. -/
def classicItems (rest : List Char) : List Data → List Char
  | [] => rest
  | [d] => d.classicOnto rest
  | d :: e :: ds => d.classicOnto (' ' :: classicItems rest (e :: ds))

end

mutual

/-- What is written in front of `rest` does not depend on it. -/
theorem classicOnto_eq (rest : List Char) : (d : Data) →
    d.classicOnto rest = d.classicOnto [] ++ rest
  | .leaf s => by simp [classicOnto]
  | .list items => by
    rw [classicOnto, classicOnto, classicItems_eq (')' :: rest), classicItems_eq [')']]
    simp

theorem classicItems_eq (rest : List Char) : (ds : List Data) →
    classicItems rest ds = classicItems [] ds ++ rest
  | [] => by simp [classicItems]
  | [d] => by rw [classicItems, classicItems, classicOnto_eq rest d]
  | d :: e :: ds => by
    rw [classicItems, classicItems, classicOnto_eq _ d, classicItems_eq rest (e :: ds),
      classicOnto_eq (' ' :: classicItems [] (e :: ds)) d]
    simp

end

/-- Fully parenthesised source: the operation `to_classic`.  A leaf is written as its text, and a
list as its items between parentheses with one space between each two. -/
def classic (d : Data) : String :=
  String.ofList (d.classicOnto [])

/-! ## 4. Listing -/

/-- Two spaces per level; a level below zero has none. -/
def pad (depth : Int) : String :=
  String.ofList (List.replicate (2 * depth).toNat ' ')

mutual

/-- The entries of a datum at a depth, followed by `rest`.  The entry of a list says how many items
it has, and theirs come right after it, one level deeper. -/
def listingOnto (rest : List String) (depth : Int) : Data → List String
  | .leaf s => (pad depth ++ s) :: rest
  | .list items =>
    (pad depth ++ "list (" ++ toString items.length ++ ")") :: listingItems rest (depth + 1) items

/-- The entries of items that all stand at a depth, followed by `rest`. -/
def listingItems (rest : List String) (depth : Int) : List Data → List String
  | [] => rest
  | d :: ds => d.listingOnto (listingItems rest depth ds) depth

end

mutual

/-- What is listed before `rest` does not depend on it. -/
theorem listingOnto_eq (rest : List String) (depth : Int) : (d : Data) →
    d.listingOnto rest depth = d.listingOnto [] depth ++ rest
  | .leaf s => by simp [listingOnto]
  | .list items => by
    rw [listingOnto, listingOnto, listingItems_eq rest (depth + 1) items]
    simp

theorem listingItems_eq (rest : List String) (depth : Int) : (ds : List Data) →
    listingItems rest depth ds = listingItems [] depth ds ++ rest
  | [] => by simp [listingItems]
  | d :: ds => by
    rw [listingItems, listingItems, listingOnto_eq _ depth d, listingItems_eq rest depth ds,
      listingOnto_eq (listingItems [] depth ds) depth d]
    simp

end

/-- One entry per node, in preorder: the operation `dump`.  A leaf is its text, and a list tells how
many items it has. -/
def listing (d : Data) (depth : Int) : List String :=
  d.listingOnto [] depth

mutual

/-- The number of levels below that of the datum itself on which a listing has entries. -/
def height : Data → Nat
  | .leaf _ => 0
  | .list items => heightItems items

/-- The number of levels on which a listing of items has entries. -/
def heightItems : List Data → Nat
  | [] => 0
  | d :: ds => max (d.height + 1) (heightItems ds)

end

/-! ## 5. The form in messages -/

mutual

/-- The shown form of a datum, followed by `rest`. -/
def shownOnto (rest : List Char) : Data → List Char
  | .leaf s => (quoted s).toList ++ rest
  | .list items => '[' :: shownItems (']' :: rest) items

/-- The shown forms of items, a comma and a space between each two, followed by `rest`. -/
def shownItems (rest : List Char) : List Data → List Char
  | [] => rest
  | [d] => d.shownOnto rest
  | d :: e :: ds => d.shownOnto (',' :: ' ' :: shownItems rest (e :: ds))

end

/-- Brackets around lists and quotes around leaves, as a message shows a datum. -/
def shown (d : Data) : String :=
  String.ofList (d.shownOnto [])

end Data

end IndentLisp
