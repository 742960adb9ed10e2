/-
# Moving about in a tree

The operations that a caller names nodes by handle in (section 3, Operations).  A handle is any
integer that the caller came by, so each operation first asks whether it names a node at all, and a
negative one names none.

An operation that adds a node is a state transformer on `Tree`, and **one that fails hands back the
tree as it was**.  An operation that only looks is a function from the tree.  Every failure is a
`StructureError` of the specification: a mistake of the caller and never the result of a malformed
text.  They are told apart by what was wrong, and each has its own wording (`Refusal.message`).

The order of the tests is the order in which the specified operations make them: whether the handle
names a node, then whether the node can take a child, or whether it is the root.  A caller that
breaks two rules at once is told the first.

The current root is looked at by its handle.  After the lists around a lone item are stripped, it
may have a parent in the arena, and **the operations do not show it** (`Tree.parent`): the root has
no parent and depth 0, whatever its links say.

* `Tree.addList`, `Tree.addLeaf`: a new last child (`make_child`, `add_token`).
* `Tree.parent`, `Tree.depth`, `Tree.forms`: looking around, as the current root allows.
* `Tree.listingWithin`: the listing of a subtree, level by level, on a machine that may refuse one.
* `Tree.openLine`: where a line goes whose indentation differs from that of the line before (section
  4, `indent`).
-/
import IndentLisp.Tree.Basic
import IndentLisp.Text.Lines

namespace IndentLisp

/-! ## 1. What can go wrong -/

/-- Why an operation on a tree was refused: the ways in which a `StructureError` comes about. -/
inductive Refusal where
  /-- The handle names no node. -/
  | noSuchNode (n : Int)
  /-- A leaf holds no children. -/
  | listInLeaf (text : String)
  /-- A leaf holds no tokens. -/
  | leafInLeaf (text : String)
  /-- Nothing lies above the root. -/
  | noParent
  /-- A change of depth that is neither down, nor up, nor none. -/
  | unorderedChange
deriving DecidableEq, Repr

/-- The wording of a refusal.  A leaf is named by its text, quoted. -/
def Refusal.message : Refusal → String
  | .noSuchNode n => "no such node: " ++ toString n
  | .listInLeaf s => "cannot add a child to leaf " ++ quoted s
  | .leafInLeaf s => "cannot add a token to leaf " ++ quoted s
  | .noParent => "the root node has no parent"
  | .unorderedChange =>
    "depth change nan is not less than, equal to, or greater than zero"

namespace Tree

/-! ## 2. Looking at one node -/

/-- The index that a handle names: the check that every operation starts with (`_check`). -/
def index (t : Tree) (n : Int) : Except Refusal { i : Nat // i < t.nodes.size } :=
  if h : 0 ≤ n ∧ n.toNat < t.nodes.size then .ok ⟨n.toNat, h.2⟩ else .error (.noSuchNode n)

/-- The node that a handle names. -/
def node (t : Tree) (n : Int) : Except Refusal Node :=
  match t.index n with
  | .ok ⟨i, hi⟩ => .ok t.nodes[i]
  | .error e => .error e

/-- The text of a leaf; a list has none.  This is the operation `content`, and the five below are
those of the traversal contract. -/
def content (t : Tree) (n : Int) : Except Refusal (Option String) :=
  return (← t.node n).content?

/-- Whether a node is a leaf. -/
def isLeaf (t : Tree) (n : Int) : Except Refusal Bool :=
  return (← t.content n).isSome

/-- The handles of a node's children. -/
def children (t : Tree) (n : Int) : Except Refusal (Array Nat) :=
  return (← t.node n).children

/-- A node's first child, if it has one. -/
def firstChild (t : Tree) (n : Int) : Except Refusal (Option Nat) :=
  return (← t.children n)[0]?

/-- A node's last child, if it has one. -/
def lastChild (t : Tree) (n : Int) : Except Refusal (Option Nat) :=
  return (← t.children n).back?

/-- Whether a handle is that of the current root. -/
def isRoot (t : Tree) (n : Int) : Bool :=
  n = t.root

/-- The handle of a node's parent: the operation `parent`.  The current root has none, whatever its
links say. -/
def parent (t : Tree) (n : Int) : Except Refusal Nat :=
  match t.node n with
  | .error e => .error e
  | .ok x =>
    if n = t.root then .error .noParent
    else
      match x.parent? with
      | none => .error .noParent
      | some p => .ok p

/-- The data of the subtree under a handle: the operation `to_data`, of a node. -/
def subtree (t : Tree) (n : Int) : Except Refusal Data :=
  match t.index n with
  | .ok ⟨i, hi⟩ => .ok (t.dataAt i hi)
  | .error e => .error e

/-! ## 3. Looking further -/

/-- **A parent is older than its node.**  So going up comes to an end, from any handle. -/
theorem parent_lt {t : Tree} {n : Int} {p : Nat} (h : t.parent n = .ok p) : p < n.toNat := by
  unfold parent node at h
  cases hi : t.index n with
  | error e => simp [hi] at h
  | ok i =>
    obtain ⟨i, hlt⟩ := i
    have hn : i = n.toNat := by
      unfold index at hi
      split at hi
      · simpa using (congrArg Subtype.val (Except.ok.inj hi)).symm
      · simp at hi
    simp only [hi] at h
    split at h
    · simp at h
    · split at h
      · simp at h
      · rename_i q hq
        have hqp : q = p := Except.ok.inj h
        subst hqp
        subst hn
        exact (t.linked _ hlt).1 q hq

/-- The number of steps from a node up to the current root: the operation `depth`.  A node that is
not below the root has no depth: the way up ends at a node without a parent, which is refused. -/
def depth (t : Tree) (n : Int) : Except Refusal Nat :=
  if n = t.root then .ok 0
  else
    match h : t.parent n with
    | .error e => .error e
    | .ok p => (t.depth p).map (· + 1)
termination_by n.toNat
decreasing_by
  have := parent_lt h
  simpa using this

/-- The node that lies `k` steps above a node.  The handle itself is looked at only when a step is
made. -/
def ancestor (t : Tree) : Nat → Int → Except Refusal Int
  | 0, n => .ok n
  | k + 1, n =>
    match t.parent n with
    | .error e => .error e
    | .ok p => t.ancestor k p

/-- Why there is no listing of a subtree. -/
inductive ListingError where
  /-- The blanks that indent it could not be made. -/
  | indentation (e : RepetitionError)
  /-- The handle names no node. -/
  | refused (e : Refusal)
deriving DecidableEq, Repr

/-- The listing of the subtree under a handle, at a depth that the caller came by.  Each level of
the subtree is indented by two blanks more than the one above; the blanks of the first are made
before the handle is looked at. -/
def listingWithin (limit : Repetition.Limit) (t : Tree) (n depth : Int) :
    Except ListingError (List String) :=
  match limit 2 depth with
  | some e => .error (.indentation e)
  | none =>
    match t.subtree n with
    | .error e => .error (.refused e)
    | .ok d =>
      match (List.range d.height).findSome? fun (k : Nat) => limit 2 (depth + k + 1) with
      | some e => .error (.indentation e)
      | none => .ok (d.listing depth)

/-- The listing of a subtree on the usual machine: the operation `dump`, of a node and a depth. -/
def listing (t : Tree) (n depth : Int) : Except ListingError (List String) :=
  t.listingWithin Repetition.usual n depth

/-- The top-level forms: the operation `forms`.  A root that is still the outermost list wraps its
children; any other root is itself the one form. -/
def forms (t : Tree) : List Nat :=
  match t.rootNode with
  | .list none cs => cs.toList
  | _ => [t.root]

/-- What the top-level forms say. -/
def formData (t : Tree) : List Data :=
  t.forms.filterMap fun (n : Nat) => (t.subtree n).toOption

/-! ## 4. Adding nodes -/

/-- The index of a list that can take another child; for a leaf, the refusal that its text brings.
The two operations that add a node differ in the wording of that refusal. -/
def listIndex (t : Tree) (n : Int) (refusal : String → Refusal) :
    Except Refusal { i : Nat // i < t.nodes.size } :=
  match t.index n with
  | .error e => .error e
  | .ok ⟨i, hi⟩ =>
    match t.nodes[i].content? with
    | some s => .error (refusal s)
    | none => .ok ⟨i, hi⟩

/-- A new empty list as the last child of a list; answers its handle.  This is `make_child`. -/
def addList (n : Int) : EStateM Refusal Tree Nat := fun t =>
  match t.listIndex n .listInLeaf with
  | .error e => .error e t
  | .ok ⟨i, hi⟩ => .ok t.nodes.size (t.grow i hi none)

/-- A new leaf as the last child of a list: `add_token`, which answers nothing. -/
def addLeaf (n : Int) (text : String) : EStateM Refusal Tree Unit := fun t =>
  match t.listIndex n .leafInLeaf with
  | .error e => .error e t
  | .ok ⟨i, hi⟩ => .ok () (t.grow i hi (some text))

/-! ## 5. Indentation -/

/-- A change of depth: so many levels down, or up if below zero, or a change that compares with
nothing, as a number that is not one does. -/
inductive DepthChange where
  | levels (n : Int)
  | unordered
deriving DecidableEq, Repr

/-- A chain of `k + 1` new lists, each the child of the one before; answers the last one.  If the
first cannot be added, none is. -/
def addChain : Nat → Int → EStateM Refusal Tree Nat
  | 0, n => addList n
  | k + 1, n => do addChain k (← addList n)

/-- A new list beside the node that lies `k` steps above `n`, that is, in the list one step further
up.  All steps are made before anything is added. -/
def addBeside (k : Nat) (n : Int) : EStateM Refusal Tree Nat := fun t =>
  match t.ancestor (k + 1) n with
  | .error e => .error e t
  | .ok p => addList p t

/-- Where a line goes whose depth differs from that of the line before by `change`: the operation
`indent`.  A deeper line opens one nested list per level, and any other line opens a list beside the
one that far above. -/
def openLine (n : Int) : DepthChange → EStateM Refusal Tree Nat
  | .unordered => throw .unorderedChange
  | .levels d =>
    if 0 < d then addChain (d.toNat - 1) n else addBeside (-d).toNat n

end Tree

end IndentLisp
