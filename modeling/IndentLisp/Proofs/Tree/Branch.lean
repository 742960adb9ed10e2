/-
# Branches

A branch is a node together with everything below it, each node under its handle.  What an arena
says at a handle (`Tree.dataAt`), the leaves it holds there (`Tree.leavesOnto`) and the order in
which a walk meets its nodes are all read off the branch at that handle (`Tree.branchAt`), so an
argument about an arena only has to say which branch lies where.

An arena is a table, and a recursion over it goes by handles; a branch is a term, and a proof about
it goes by its structure (`Branch.induction`).  The three functions of an arena that matter are
shown to be functions of the branch, once, and the recursion over handles is not needed after that.

The other direction is `Tree.Bears`: the nodes that a branch takes up, each with its text or its
children's handles, and the topmost one under the parent that is named.  **A branch that an arena
bears is the one at its handle** (`Tree.Bears.branchAt_eq`), so to know what an arena says it is
enough to name a branch that it bears.  And what an arena bears is easy to follow when it grows: **a
new node under `q` leaves every branch alone that `q` is not part of** (`Tree.Bears.grow`).

* `Branch.entries`, `Branch.leaves`, `Branch.handles`: the nodes in preorder, the leaves, the
  handles.
* `Tree.dataAt_eq`, `Tree.leavesOnto_eq`: what a subtree says, and its leaves, told by its branch.
* `Tree.dataAt_lone`, `Tree.leavesOnto_lone`: what unwrapping does to what a tree says, and to its
  leaves.  The lists around a lone item go, and no leaf does.
-/
import IndentLisp.Tree.Navigation

namespace IndentLisp

/-! ## 1. Branches -/

/-- A node under its handle, with everything below it. -/
inductive Branch where
  | leaf (n : Nat) (text : String)
  | list (n : Nat) (items : List Branch)
deriving Inhabited, Repr

namespace Branch

/-- Induction over branches: what holds of all items holds of their list.  The type is nested in
lists, so this is proved once and named in the inductions. -/
@[elab_as_elim]
theorem induction {motive : Branch → Prop} (leaf : ∀ n s, motive (.leaf n s))
    (list : ∀ n items, (∀ b ∈ items, motive b) → motive (.list n items)) : ∀ b, motive b
  | .leaf n s => leaf n s
  | .list n items => list n items fun b hb =>
    have : sizeOf b < sizeOf items := List.sizeOf_lt_of_mem hb
    induction leaf list b
termination_by b => sizeOf b
decreasing_by
  simp only [Branch.list.sizeOf_spec]
  omega

/-- The handle of the topmost node. -/
def handle : Branch → Nat
  | .leaf n _ => n
  | .list n _ => n

mutual

/-- The nodes of a branch as a walk meets them, parents first and children from left to right: each
handle, with the text of a leaf.  Handles, leaves and texts are all read off these. -/
def entries : Branch → List (Nat × Option String)
  | .leaf n s => [(n, some s)]
  | .list n items => (n, none) :: entriesOf items

/-- The nodes of several branches in turn. -/
def entriesOf : List Branch → List (Nat × Option String)
  | [] => []
  | b :: bs => b.entries ++ entriesOf bs

end

mutual

/-- What a branch says. -/
def data : Branch → Data
  | .leaf _ s => .leaf s
  | .list _ items => .list (dataOf items)

/-- What several branches say. -/
def dataOf : List Branch → List Data
  | [] => []
  | b :: bs => b.data :: dataOf bs

end

/-- The handles of a branch in preorder. -/
def handles (b : Branch) : List Nat :=
  b.entries.map Prod.fst

/-- The leaves of a branch from left to right, each handle with its text. -/
def leaves (b : Branch) : List (Nat × String) :=
  b.entries.filterMap fun e => e.2.map (e.1, ·)

theorem entriesOf_eq_flatMap (bs : List Branch) : entriesOf bs = bs.flatMap entries := by
  induction bs with
  | nil => rfl
  | cons b bs ih => rw [entriesOf, ih, List.flatMap_cons]

@[simp] theorem entriesOf_append (bs cs : List Branch) :
    entriesOf (bs ++ cs) = entriesOf bs ++ entriesOf cs := by
  simp [entriesOf_eq_flatMap]

theorem dataOf_eq_map (bs : List Branch) : dataOf bs = bs.map data := by
  induction bs with
  | nil => rfl
  | cons b bs ih => rw [dataOf, ih, List.map_cons]

theorem leaves_list (n : Nat) (items : List Branch) :
    (list n items).leaves = items.flatMap leaves := by
  rw [leaves, entries, List.filterMap_cons_none (by rfl), entriesOf_eq_flatMap,
    List.filterMap_flatMap]
  rfl

/-- The texts of the leaves, without their handles. -/
theorem texts_leaves (b : Branch) : b.leaves.map Prod.snd = b.entries.filterMap Prod.snd := by
  rw [leaves, List.map_filterMap]
  congr 1
  funext ⟨n, text?⟩
  cases text? <;> rfl

theorem entries_subset {b : Branch} {bs : List Branch} (h : b ∈ bs) :
    b.entries ⊆ entriesOf bs := by
  rw [entriesOf_eq_flatMap]
  exact fun e he => List.mem_flatMap.mpr ⟨b, h, he⟩

/-- A list has the handles of its items. -/
theorem handles_subset {b : Branch} {n : Nat} {items : List Branch} (h : b ∈ items) :
    b.handles ⊆ (list n items).handles := by
  intro m hm
  obtain ⟨e, he, rfl⟩ := List.mem_map.mp hm
  exact List.mem_map_of_mem (List.mem_cons_of_mem _ (entries_subset h he))

theorem mem_handles_self (b : Branch) : b.handle ∈ b.handles := by
  cases b <;> simp [handle, handles, entries]

end Branch

/-! ## 2. The branch at a handle -/

namespace Tree

/-- The branch of the node at a handle.  The recursion goes by the handles, as children are newer
than their parent, so it comes to an end in every arena. -/
def branchAt (t : Tree) (n : Nat) (hn : n < t.nodes.size) : Branch :=
  match h : t.nodes[n] with
  | .leaf _ s => .leaf n s
  | .list _ cs =>
    .list n (cs.toList.attach.map fun ⟨c, hc⟩ =>
      have hl : n < c ∧ c < t.nodes.size :=
        (t.linked n hn).2 c (by rw [h]; simpa [Node.children] using hc)
      t.branchAt c hl.2)
termination_by t.nodes.size - n
decreasing_by omega

theorem branchAt_leaf {t : Tree} {n p : Nat} {s : String} (hn : n < t.nodes.size)
    (h : t.nodes[n] = .leaf p s) : t.branchAt n hn = .leaf n s := by
  rw [branchAt]
  split
  · rename_i p' s' h'
    rw [h] at h'
    cases h'
    rfl
  · rename_i p? cs h'
    rw [h] at h'
    cases h'

/-- A list's branch is made of its children's. -/
theorem branchAt_list {t : Tree} {n : Nat} {p? : Option Nat} {cs : Array Nat}
    (hn : n < t.nodes.size) (h : t.nodes[n] = .list p? cs) :
    ∃ hc : ∀ c ∈ cs.toList, n < c ∧ c < t.nodes.size,
      t.branchAt n hn = .list n (cs.toList.attach.map fun c => t.branchAt c.1 (hc c.1 c.2).2) := by
  refine ⟨fun c hc => (t.linked n hn).2 c (by rw [h]; simpa [Node.children] using hc), ?_⟩
  rw [branchAt]
  split
  · rename_i p' s' h'
    rw [h] at h'
    cases h'
  · rename_i p?' cs' h'
    rw [h] at h'
    cases h'
    rfl

/-- **What a subtree says is what its branch says.** -/
theorem dataAt_eq (t : Tree) (n : Nat) (hn : n < t.nodes.size) :
    t.dataAt n hn = (t.branchAt n hn).data := by
  fun_induction dataAt t n hn with
  | case1 n hn p s h => rw [branchAt_leaf hn h, Branch.data]
  | case2 n hn p? cs h ih =>
    obtain ⟨hc, e⟩ := branchAt_list hn h
    rw [e, Branch.data, Branch.dataOf_eq_map, List.map_map]
    congr 1
    refine List.map_congr_left ?_
    rintro ⟨c, hmem⟩ -
    exact ih c hmem

/-- **The leaves below a handle are those of its branch.**  They are collected in front of what was
collected before, which is a parameter here. -/
theorem leavesOnto_eq (t : Tree) (n : Nat) (hn : n < t.nodes.size) (rest : List (Nat × String)) :
    t.leavesOnto n hn rest = (t.branchAt n hn).leaves ++ rest := by
  fun_induction leavesOnto t n hn rest with
  | case1 n hn rest p s h => rw [branchAt_leaf hn h, Branch.leaves, Branch.entries]; rfl
  | case2 n hn rest p? cs h ih =>
    obtain ⟨hc, e⟩ := branchAt_list hn h
    rw [e, Branch.leaves_list, List.flatMap_map]
    generalize cs.toList.attach = l
    induction l with
    | nil => rfl
    | cons c l ihl =>
      rw [List.foldr_cons, ihl, List.flatMap_cons, List.append_assoc]
      exact ih _ c.1 c.2

/-- A node that a walk meets, with its text if it is a leaf. -/
theorem content?_of_mem_entries {t : Tree} {n m : Nat} {text? : Option String}
    (hn : n < t.nodes.size) (h : (m, text?) ∈ (t.branchAt n hn).entries) :
    ∃ x, t.nodes[m]? = some x ∧ x.content? = text? := by
  fun_induction branchAt t n hn with
  | case1 n hn p s hx =>
    rw [Branch.entries, List.mem_singleton] at h
    obtain ⟨rfl, rfl⟩ := Prod.mk.inj h
    exact ⟨.leaf p s, Array.getElem?_eq_some_iff.mpr ⟨hn, hx⟩, rfl⟩
  | case2 n hn p? cs hx ih =>
    rw [Branch.entries, Branch.entriesOf_eq_flatMap] at h
    rcases List.mem_cons.mp h with h | h
    · obtain ⟨rfl, rfl⟩ := Prod.mk.inj h
      exact ⟨.list p? cs, Array.getElem?_eq_some_iff.mpr ⟨hn, hx⟩, rfl⟩
    · obtain ⟨b, hb, h⟩ := List.mem_flatMap.mp h
      obtain ⟨⟨c, hc⟩, -, rfl⟩ := List.mem_map.mp hb
      exact ih c hc h

/-! ## 3. Branches that an arena bears -/

mutual

/-- The nodes of a branch stand in the arena, each with its text or with its children's handles, and
the topmost one under the parent that is named. -/
def Bears (t : Tree) : Option Nat → Branch → Prop
  | none, .leaf _ _ => False
  | some p, .leaf n s => t.nodes[n]? = some (.leaf p s)
  | p?, .list n items =>
    t.nodes[n]? = some (.list p? (items.map Branch.handle).toArray) ∧ t.BearsAll n items

/-- The arena bears each of several branches under `p`. -/
def BearsAll (t : Tree) (p : Nat) : List Branch → Prop
  | [] => True
  | b :: bs => t.Bears (some p) b ∧ t.BearsAll p bs

end

@[simp] theorem bears_leaf {t : Tree} {p n : Nat} {s : String} :
    t.Bears (some p) (.leaf n s) ↔ t.nodes[n]? = some (.leaf p s) := by
  simp [Bears]

@[simp] theorem bears_list {t : Tree} {p? : Option Nat} {n : Nat} {items : List Branch} :
    t.Bears p? (.list n items) ↔
      t.nodes[n]? = some (.list p? (items.map Branch.handle).toArray) ∧ t.BearsAll n items := by
  cases p? <;> simp [Bears]

theorem bearsAll_iff {t : Tree} {p : Nat} {bs : List Branch} :
    t.BearsAll p bs ↔ ∀ b ∈ bs, t.Bears (some p) b := by
  induction bs with
  | nil => simp [BearsAll]
  | cons b bs ih => simp [BearsAll, ih]

/-- **A branch that an arena bears is the one at its handle.**  The induction is over the branch;
the arena has the same children at each of its nodes. -/
theorem Bears.branchAt_eq {t : Tree} {p? : Option Nat} {b : Branch} (h : t.Bears p? b) :
    ∃ hn : b.handle < t.nodes.size, t.branchAt b.handle hn = b := by
  induction b using Branch.induction generalizing p? with
  | leaf n s =>
    cases p? with
    | none => exact absurd h (by simp [Bears])
    | some p =>
      obtain ⟨hn, hx⟩ := Array.getElem?_eq_some_iff.mp (bears_leaf.mp h)
      exact ⟨hn, branchAt_leaf hn hx⟩
  | list n items ih =>
    obtain ⟨hx, hitems⟩ := bears_list.mp h
    obtain ⟨hn, hx⟩ := Array.getElem?_eq_some_iff.mp hx
    obtain ⟨hc, e⟩ := branchAt_list hn hx
    refine ⟨hn, e.trans (congrArg (Branch.list n) ?_)⟩
    refine List.ext_getElem (by simp) fun i h1 h2 => ?_
    obtain ⟨hb, e⟩ := ih items[i] (List.getElem_mem h2)
      (bearsAll_iff.mp hitems _ (List.getElem_mem h2))
    simpa using e

/-! ## 4. A new node -/

/-- A node that is not the new node's parent stays as it was. -/
theorem getElem?_grow_of_ne {t : Tree} {q n : Nat} {text? : Option String} {x : Node}
    (hq : q < t.nodes.size) (hne : q ≠ n) (h : t.nodes[n]? = some x) :
    (t.grow q hq text?).nodes[n]? = some x := by
  obtain ⟨hn, hx⟩ := Array.getElem?_eq_some_iff.mp h
  rw [getElem?_grow t q hq text? hn, if_neg hne, hx]

/-- The new node itself. -/
theorem getElem?_grow_self (t : Tree) {q : Nat} (hq : q < t.nodes.size) (text? : Option String) :
    (t.grow q hq text?).nodes[t.nodes.size]? = some (.fresh q text?) := by
  rw [grow, Array.getElem?_push, Array.size_modify, if_pos rfl]

/-- The new node's parent has one more child. -/
theorem getElem?_grow_parent {t : Tree} {q : Nat} {x : Node} (hq : q < t.nodes.size)
    (text? : Option String) (h : t.nodes[q]? = some x) :
    (t.grow q hq text?).nodes[q]? = some (x.addChild t.nodes.size) := by
  obtain ⟨_, hx⟩ := Array.getElem?_eq_some_iff.mp h
  rw [getElem?_grow t q hq text? hq, if_pos rfl, hx, size]

/-- **A new node under `q` leaves every branch alone that `q` is not part of.**  Its nodes are all
there before and none of them is the new parent, so each stays as it was. -/
theorem Bears.grow {t : Tree} {p? : Option Nat} {b : Branch} {q : Nat} {text? : Option String}
    (hq : q < t.nodes.size) (hb : q ∉ b.handles) (h : t.Bears p? b) :
    (t.grow q hq text?).Bears p? b := by
  induction b using Branch.induction generalizing p? with
  | leaf n s =>
    cases p? with
    | none => exact absurd h (by simp [Bears])
    | some p =>
      have hne : q ≠ n := by simpa [Branch.handles, Branch.entries] using hb
      exact bears_leaf.mpr (getElem?_grow_of_ne hq hne (bears_leaf.mp h))
  | list n items ih =>
    obtain ⟨hx, hitems⟩ := bears_list.mp h
    have hne : q ≠ n := fun e => hb (e ▸ Branch.mem_handles_self (.list n items))
    refine bears_list.mpr ⟨getElem?_grow_of_ne hq hne hx, bearsAll_iff.mpr fun b hmem => ?_⟩
    refine ih b hmem (fun hqb => hb ?_) (bearsAll_iff.mp hitems b hmem)
    exact Branch.handles_subset hmem hqb

/-! ## 5. Unwrapping -/

end Tree

/-- Only a list of one item is unwrapped. -/
theorem Data.unwrap_of_length_ne {ds : List Data} (h : ds.length ≠ 1) :
    (Data.list ds).unwrap = .list ds := by
  match ds with
  | [] | _ :: _ :: _ => simp [unwrap]
  | [d] => exact absurd rfl h

namespace Tree

/-- A list of one child holds that child's branch. -/
theorem branchAt_lone {t : Tree} {n c : Nat} {p? : Option Nat} (hn : n < t.nodes.size)
    (h : t.nodes[n] = .list p? #[c]) (hc : c < t.nodes.size) :
    t.branchAt n hn = .list n [t.branchAt c hc] := by
  obtain ⟨hcs, e⟩ := branchAt_list hn h
  rw [e]
  rfl

/-- **Unwrapping takes the list around a lone item away from what the tree says**, and the list
around that, as long as there is a lone item. -/
theorem dataAt_lone (t : Tree) (n : Nat) (hn : n < t.nodes.size) :
    t.dataAt (t.lone n hn).1 (t.lone n hn).2 = (t.dataAt n hn).unwrap := by
  fun_induction lone t n hn with
  | case1 n hn p s h => simp [dataAt_eq, branchAt_leaf hn h, Branch.data, Data.unwrap]
  | case2 n hn p? cs h h1 hl ih =>
    obtain ⟨c, rfl⟩ := Array.size_eq_one_iff.mp h1
    rw [ih, dataAt_eq t n hn, branchAt_lone hn h hl.2, dataAt_eq]
    simp [Branch.data, Branch.dataOf, Data.unwrap]
  | case3 n hn p? cs h h1 =>
    obtain ⟨hc, e⟩ := branchAt_list hn h
    rw [dataAt_eq, e, Branch.data, Data.unwrap_of_length_ne]
    simpa [Branch.dataOf_eq_map] using h1

/-- **Unwrapping loses no leaf.**  A list that is passed has one child, and all leaves below the
list are below that one. -/
theorem leavesOnto_lone (t : Tree) (n : Nat) (hn : n < t.nodes.size) (rest : List (Nat × String)) :
    t.leavesOnto (t.lone n hn).1 (t.lone n hn).2 rest = t.leavesOnto n hn rest := by
  fun_induction lone t n hn with
  | case1 n hn p s h => rfl
  | case2 n hn p? cs h h1 hl ih =>
    obtain ⟨c, rfl⟩ := Array.size_eq_one_iff.mp h1
    rw [ih, leavesOnto_eq t n hn, branchAt_lone hn h hl.2, leavesOnto_eq, Branch.leaves_list]
    simp
  | case3 n hn p? cs h h1 => rfl

/-- The branches of a tree do not depend on where its root is. -/
theorem branchAt_unwrap (t : Tree) (n : Nat) (hn : n < t.nodes.size) :
    t.unwrap.branchAt n hn = t.branchAt n hn := by
  fun_induction branchAt t n hn with
  | case1 n hn p s h => exact branchAt_leaf (t := t.unwrap) hn h
  | case2 n hn p? cs h ih =>
    obtain ⟨hc, e⟩ := branchAt_list (t := t.unwrap) hn h
    rw [e]
    congr 1
    refine List.map_congr_left ?_
    rintro ⟨c, hmem⟩ -
    exact ih c hmem

/-- What an unwrapped tree says. -/
theorem data_unwrap (t : Tree) : t.unwrap.data = t.data.unwrap := by
  rw [data, data, ← dataAt_lone, dataAt_eq, dataAt_eq]
  exact congrArg Branch.data (t.branchAt_unwrap _ _)

/-- The leaves of an unwrapped tree. -/
theorem leaves_unwrap (t : Tree) : t.unwrap.leaves = (t.branchAt t.root t.root_lt).leaves := by
  have h := t.leavesOnto_lone t.root t.root_lt []
  rw [leavesOnto_eq, leavesOnto_eq, List.append_nil, List.append_nil] at h
  rw [leaves, leavesOnto_eq, List.append_nil, ← h]
  exact congrArg Branch.leaves (t.branchAt_unwrap _ _)

end Tree

end IndentLisp
