/-
# The arena of a syntax tree

All nodes of a tree live in one array and are named by their index, the *handle* (section 3,
Node/Tree).  A node is a leaf, which holds a text, or a list, which holds the handles of its
children.  Nodes are only ever added: a new node becomes the last child of a list that is already
there, and what was there stays as it is.

The specification keeps three arrays side by side, for contents, parents and children, and states
that a node with a content has no children.  Here a node is one value of two kinds, so that a leaf
with children cannot be written down, and neither can a leaf without a parent.

A `Tree` carries one more invariant.  **Parents are older and children are newer than their node**
(`Node.WellLinked`), so that every walk along the links comes to an end: up by the handle, down by
its distance from the array's end.  It is a field of the structure, so a walk needs no hypothesis.
What it does not say is that the links agree with one another, and that is not needed to walk; it
holds of every tree that was grown from the empty one, and is proved there.

* `Tree.empty`, `Tree.grow`: the first tree, and **the one way in which an arena changes**.
* `Tree.dataAt`, `Tree.leavesOnto`: what a subtree says, and which leaves it has.
* `Tree.unwrap`: strips the lists around a lone item from the root.  The array stays as it is, and
  only the root moves.
-/
import IndentLisp.Data

namespace IndentLisp

/-! ## 1. Nodes -/

/-- A leaf with its text, or a list with its children's handles.  Only a list can lack a parent. -/
inductive Node where
  | leaf (parent : Nat) (text : String)
  | list (parent? : Option Nat) (children : Array Nat)
deriving DecidableEq, Repr

namespace Node

/-- The handle of the list that holds the node. -/
def parent? : Node → Option Nat
  | .leaf p _ => some p
  | .list p? _ => p?

/-- The text of a leaf. -/
def content? : Node → Option String
  | .leaf _ s => some s
  | .list _ _ => none

/-- The handles of a list's children; a leaf has none. -/
def children : Node → Array Nat
  | .leaf _ _ => #[]
  | .list _ cs => cs

/-- A list with one more child at its end.  A leaf takes none; the operations that add a node refuse
it before. -/
def addChild (c : Nat) : Node → Node
  | .leaf p s => .leaf p s
  | .list p? cs => .list p? (cs.push c)

/-- A node under `p` that has no children yet: a leaf if it comes with a text, and an empty list
otherwise. -/
def fresh (p : Nat) : Option String → Node
  | some s => .leaf p s
  | none => .list (some p) #[]

/-- The links of the node with handle `n` in an arena of `size` nodes: its parent is older, and its
children are newer, and there. -/
def WellLinked (n size : Nat) (x : Node) : Prop :=
  (∀ p, x.parent? = some p → p < n) ∧ ∀ c ∈ x.children, n < c ∧ c < size

@[simp] theorem parent?_addChild (c : Nat) (x : Node) : (x.addChild c).parent? = x.parent? := by
  cases x <;> rfl

@[simp] theorem content?_addChild (c : Nat) (x : Node) : (x.addChild c).content? = x.content? := by
  cases x <;> rfl

@[simp] theorem parent?_fresh (p : Nat) (text? : Option String) :
    (fresh p text?).parent? = some p := by
  cases text? <;> rfl

@[simp] theorem content?_fresh (p : Nat) (text? : Option String) :
    (fresh p text?).content? = text? := by
  cases text? <;> rfl

@[simp] theorem children_fresh (p : Nat) (text? : Option String) :
    (fresh p text?).children = #[] := by
  cases text? <;> rfl

/-- A list keeps its old children. -/
theorem mem_children_addChild {c d : Nat} {x : Node} (h : d ∈ (x.addChild c).children) :
    d ∈ x.children ∨ d = c := by
  cases x with
  | leaf p s => exact .inl h
  | list p? cs => simpa [addChild, children] using h

/-- A larger arena does not disturb a node's links. -/
theorem WellLinked.mono {n size size' : Nat} {x : Node} (h : x.WellLinked n size)
    (hs : size ≤ size') : x.WellLinked n size' :=
  ⟨h.1, fun c hc => ⟨(h.2 c hc).1, Nat.lt_of_lt_of_le (h.2 c hc).2 hs⟩⟩

end Node

/-! ## 2. Trees -/

/-- An arena with a root.  The root is handle `0` at first, and `unwrap` moves it.  A node above the
root stays in the array, where no operation finds it as a parent of the root. -/
structure Tree where
  nodes : Array Node
  root : Nat
  root_lt : root < nodes.size
  linked : ∀ (n : Nat) (h : n < nodes.size), nodes[n].WellLinked n nodes.size

namespace Tree

/-- The number of nodes ever made. -/
def size (t : Tree) : Nat :=
  t.nodes.size

/-- The node at the root. -/
def rootNode (t : Tree) : Node :=
  have := t.root_lt
  t.nodes[t.root]

/-- A lone root without children: what `Tree()` makes. -/
def empty : Tree where
  nodes := #[.list none #[]]
  root := 0
  root_lt := by decide
  linked := by
    intro n h
    have hn : n = 0 := by simpa using h
    subst hn
    exact ⟨by simp [Node.parent?], by simp [Node.children]⟩

instance : Inhabited Tree := ⟨empty⟩

/-- The arena with one more node, the last child of `p`: the step that `make_child` and `add_token`
share (`_new_node`).  The new handle is the number of nodes there were, so handles count up from
zero in the order in which nodes are made. -/
def grow (t : Tree) (p : Nat) (hp : p < t.nodes.size) (text? : Option String) : Tree where
  nodes := (t.nodes.modify p (·.addChild t.nodes.size)).push (.fresh p text?)
  root := t.root
  root_lt := by
    have := t.root_lt
    simp only [Array.size_push, Array.size_modify]
    omega
  linked := by
    intro n h
    simp only [Array.size_push, Array.size_modify] at h
    rw [Array.getElem_push]
    simp only [Array.size_push, Array.size_modify]
    split
    · rename_i hn
      rw [Array.getElem_modify]
      have old : t.nodes[n].WellLinked n (t.nodes.size + 1) :=
        (t.linked n hn).mono (Nat.le_succ _)
      split
      · refine ⟨by simpa using old.1, fun c hc => ?_⟩
        rcases Node.mem_children_addChild hc with hc | rfl
        · exact old.2 c hc
        · exact ⟨hn, Nat.lt_succ_self _⟩
      · exact old
    · refine ⟨fun q hq => ?_, by simp⟩
      have hq : p = q := by simpa using hq
      omega

@[simp] theorem size_grow (t : Tree) (p : Nat) (hp : p < t.nodes.size) (text? : Option String) :
    (t.grow p hp text?).size = t.size + 1 := by
  simp [size, grow]

/-- The nodes that were there stay, save that `p` has one more child. -/
theorem getElem?_grow (t : Tree) (p : Nat) (hp : p < t.nodes.size) (text? : Option String)
    {n : Nat} (hn : n < t.nodes.size) :
    (t.grow p hp text?).nodes[n]? =
      some (if p = n then t.nodes[n].addChild t.size else t.nodes[n]) := by
  simp only [grow, size]
  rw [Array.getElem?_push, Array.size_modify, if_neg (by omega), Array.getElem?_modify]
  simp [hn]
  split <;> simp

/-! ## 3. What a subtree says -/

/-- The data of the subtree at a handle.  Children are newer than their list, which is why the
recursion comes to an end. -/
def dataAt (t : Tree) (n : Nat) (hn : n < t.nodes.size) : Data :=
  match h : t.nodes[n] with
  | .leaf _ s => .leaf s
  | .list _ cs =>
    .list (cs.toList.attach.map fun ⟨c, hc⟩ =>
      have hl : n < c ∧ c < t.nodes.size :=
        (t.linked n hn).2 c (by rw [h]; simpa [Node.children] using hc)
      t.dataAt c hl.2)
termination_by t.nodes.size - n
decreasing_by omega

/-- The handles of the leaves of the subtree at a handle, from left to right, followed by
`rest`. -/
def leavesOnto (t : Tree) (n : Nat) (hn : n < t.nodes.size) (rest : List (Nat × String)) :
    List (Nat × String) :=
  match h : t.nodes[n] with
  | .leaf _ s => (n, s) :: rest
  | .list _ cs =>
    cs.toList.attach.foldr (fun ⟨c, hc⟩ rest =>
      have hl : n < c ∧ c < t.nodes.size :=
        (t.linked n hn).2 c (by rw [h]; simpa [Node.children] using hc)
      t.leavesOnto c hl.2 rest) rest
termination_by t.nodes.size - n
decreasing_by omega

/-- What the tree says: the operation `to_data`, of the root. -/
def data (t : Tree) : Data :=
  t.dataAt t.root t.root_lt

/-- The leaves under the root, from left to right, each with its text. -/
def leaves (t : Tree) : List (Nat × String) :=
  t.leavesOnto t.root t.root_lt []

/-- The form of a tree in messages. -/
def shown (t : Tree) : String :=
  "Tree(" ++ t.data.shown ++ ")"

/-! ## 4. Unwrapping -/

/-- The first node, from `n` downwards through lists of one child, that is not such a list.  It is a
leaf, an empty list, or a list of two children or more. -/
def lone (t : Tree) (n : Nat) (hn : n < t.nodes.size) : { m : Nat // m < t.nodes.size } :=
  match h : t.nodes[n] with
  | .leaf _ _ => ⟨n, hn⟩
  | .list _ cs =>
    if h1 : cs.size = 1 then
      have hl : n < cs[0] ∧ cs[0] < t.nodes.size :=
        (t.linked n hn).2 cs[0] (by rw [h]; simp [Node.children])
      t.lone cs[0] hl.2
    else ⟨n, hn⟩
termination_by t.nodes.size - n
decreasing_by omega

/-- Moves the root to the first node below it that is not a list of one child: the operation
`collapse`, whose loop goes down one list at a time. -/
def unwrap (t : Tree) : Tree where
  nodes := t.nodes
  root := (t.lone t.root t.root_lt).1
  root_lt := (t.lone t.root t.root_lt).2
  linked := t.linked

end Tree

end IndentLisp
