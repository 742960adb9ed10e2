/-
# The links of a tree

A tree keeps every link twice, from a node to its children and back to its parent.  An arena only
ever changes in two ways: a list gets one more child, or the root moves down.  **Two lemmas carry
what holds of the links through all changes**, one for each way: `Arena.grow` and `Arena.unwrap`.

`Tree.Arena` is the invariant.  It says of every handle which nodes it is linked with and in which
order, and that there is no link beyond these; of the root it says only that there is a way down to
it from handle `0`.  That links lead to newer nodes is part of the type of trees already, so that
functions on trees end; here is the rest.

The second invariant is one of two trees, before and after (`Tree.Grows`): nodes stay, with their
texts and their parents, and a list only gets more children at its end.  It is reflexive and
transitive, so it holds of every run of operations if it holds of each.

* `Tree.Down`: so many steps from a node to a child of it lead there.
* `Tree.LoneDown`, `Tree.Settled`: the way that unwrapping takes, and where it ends.
* `Tree.down_lone`: unwrapping leads down, and this is all that the root needs.
* `Tree.Arena.depth_eq_ok_iff`: **the depth of a node is the number of child steps from the root to
  it**, and no other handle has a depth.

Depth is computed upwards, by parents, and the statement is about ways downwards; it is where the
two directions of a link meet (`Arena.mem_childList_iff`).  A node that does not lie under the root
has no depth, though it is in the arena: unwrapping may have moved the root past it.
-/
import IndentLisp.Proofs.Tree.Branch

namespace IndentLisp

namespace Tree

/-! ## 1. Links -/

/-- The handles of a node's children; a handle that names no node has none. -/
def childList (t : Tree) (n : Nat) : List Nat :=
  match t.nodes[n]? with
  | some x => x.children.toList
  | none => []

/-- The handle of the list that holds a node, wherever the root is.  A tree answers for the parent
of a node with this link, except at the root. -/
def parentLink (t : Tree) (n : Nat) : Option Nat :=
  t.nodes[n]?.bind Node.parent?

/-- The text of a leaf. -/
def textAt (t : Tree) (n : Nat) : Option String :=
  t.nodes[n]?.bind Node.content?

/-- `Down k m n`: `k` steps from a node to a child of it lead from `m` to `n`.  Only the links to
children count, and the root plays no part. -/
inductive Down (t : Tree) : Nat → Nat → Nat → Prop
  | refl (m : Nat) : t.Down 0 m m
  | step {k m n c : Nat} : t.Down k m n → c ∈ t.childList n → t.Down (k + 1) m c

/-- **How the links of a tree agree with each other**: handle `0` is under nothing, every other node
is under one older node, among whose children it is just once and among no other's, children stand
in the order of their age, a leaf has none, and the root lies below handle `0` or is it. -/
structure Arena (t : Tree) : Prop where
  origin : t.parentLink 0 = none
  parented : ∀ n, 0 < n → n < t.size →
    ∃ p < n, t.parentLink n = some p ∧ ∀ q, (t.childList q).count n = if q = p then 1 else 0
  increasing : ∀ n, (t.childList n).Pairwise (· < ·)
  childless : ∀ n s, t.textAt n = some s → t.childList n = []
  rooted : ∃ k, t.Down k 0 t.root

/-- **What never changes**: nodes stay, with their texts and their parents, and a list only gets
more children at its end. -/
structure Grows (t t' : Tree) : Prop where
  size_le : t.size ≤ t'.size
  text_eq : ∀ n < t.size, t'.textAt n = t.textAt n
  parent_eq : ∀ n < t.size, t'.parentLink n = t.parentLink n
  children_prefix : ∀ n < t.size, t.childList n <+: t'.childList n

variable {t t' : Tree} {n p c : Nat}

theorem size_pos (t : Tree) : 0 < t.size :=
  Nat.lt_of_le_of_lt (Nat.zero_le _) t.root_lt

/-- The children of a node are newer than it, and they are nodes. -/
theorem lt_of_mem_childList (h : c ∈ t.childList n) : n < c ∧ c < t.size := by
  unfold childList at h
  split at h
  · rename_i x hx
    obtain ⟨hn, rfl⟩ := Array.getElem?_eq_some_iff.mp hx
    exact (t.linked n hn).2 c (Array.mem_toList_iff.mp h)
  · exact absurd h List.not_mem_nil

theorem childList_of_le (h : t.size ≤ n) : t.childList n = [] := by
  unfold childList
  rw [Array.getElem?_eq_none h]

/-- A leaf has no children, as its node has no place for them. -/
theorem childList_of_textAt {s : String} (h : t.textAt n = some s) : t.childList n = [] := by
  unfold textAt at h
  unfold childList
  cases hx : t.nodes[n]? with
  | none => rfl
  | some x =>
    rw [hx] at h
    cases x with
    | leaf q s' => rfl
    | list q? cs => cases h

namespace Down

variable {k j m : Nat}

theorem trans (h : t.Down k p m) (h' : t.Down j m n) : t.Down (k + j) p n := by
  induction h' with
  | refl => exact h
  | step _ hc ih => exact .step (ih h) hc

/-- Each step down leads to a newer node. -/
theorem le (h : t.Down k m n) : m + k ≤ n := by
  induction h with
  | refl => exact Nat.le_refl _
  | step _ hc ih =>
    have hlt := (lt_of_mem_childList hc).1
    omega

/-- A way down stays a way down where lists only get more children. -/
theorem mono (hle : ∀ n, t.childList n ⊆ t'.childList n) (h : t.Down k m n) : t'.Down k m n := by
  induction h with
  | refl m => exact .refl m
  | step _ hc ih => exact .step ih (hle _ hc)

end Down

/-! ## 2. A new node -/

section Grow

variable (hp : p < t.nodes.size) (text? : Option String)

/-- A tree with a new node holds nothing beyond it. -/
theorem getElem?_grow_beyond (hn : t.size < n) : (t.grow p hp text?).nodes[n]? = none := by
  refine Array.getElem?_eq_none ?_
  have hs : (t.grow p hp text?).nodes.size = t.size + 1 := t.size_grow p hp text?
  omega

@[simp] theorem textAt_grow :
    (t.grow p hp text?).textAt n = if n = t.size then text? else t.textAt n := by
  unfold textAt
  rcases Nat.lt_trichotomy n t.size with hn | rfl | hn
  · rw [getElem?_grow t p hp text? hn, Array.getElem?_eq_getElem hn, if_neg (Nat.ne_of_lt hn)]
    split <;> simp
  · rw [if_pos rfl, size, getElem?_grow_self t hp text?]
    simp
  · have hold : t.nodes[n]? = none := Array.getElem?_eq_none (Nat.le_of_lt hn)
    rw [getElem?_grow_beyond hp text? hn, hold, if_neg (Nat.ne_of_gt hn)]

@[simp] theorem parentLink_grow :
    (t.grow p hp text?).parentLink n = if n = t.size then some p else t.parentLink n := by
  unfold parentLink
  rcases Nat.lt_trichotomy n t.size with hn | rfl | hn
  · rw [getElem?_grow t p hp text? hn, Array.getElem?_eq_getElem hn, if_neg (Nat.ne_of_lt hn)]
    split <;> simp
  · rw [if_pos rfl, size, getElem?_grow_self t hp text?]
    simp
  · have hold : t.nodes[n]? = none := Array.getElem?_eq_none (Nat.le_of_lt hn)
    rw [getElem?_grow_beyond hp text? hn, hold, if_neg (Nat.ne_of_gt hn)]

variable {hp text?}

/-- **The list that the new node is under has it as its last child**, and all else stays. -/
theorem childList_grow (hl : t.textAt p = none) :
    (t.grow p hp text?).childList n = t.childList n ++ if n = p then [t.size] else [] := by
  unfold childList
  rcases Nat.lt_trichotomy n t.size with hn | rfl | hn
  · have hn : n < t.nodes.size := hn
    rw [getElem?_grow t p hp text? hn, Array.getElem?_eq_getElem hn]
    by_cases hnp : n = p
    · subst hnp
      rw [textAt, Array.getElem?_eq_getElem hn] at hl
      rw [if_pos rfl, if_pos rfl]
      cases hx : t.nodes[n] with
      | leaf q s =>
        rw [hx] at hl
        cases hl
      | list q? cs => simp [Node.addChild, Node.children]
    · rw [if_neg (Ne.symm hnp), if_neg hnp, List.append_nil]
  · have hold : t.nodes[t.size]? = none := Array.getElem?_eq_none (Nat.le_refl _)
    rw [hold, size, getElem?_grow_self t hp text?, if_neg (Nat.ne_of_gt hp)]
    simp
  · have hold : t.nodes[n]? = none := Array.getElem?_eq_none (Nat.le_of_lt hn)
    have hne : n ≠ p := Nat.ne_of_gt (Nat.lt_trans hp hn)
    rw [getElem?_grow_beyond hp text? hn, hold, if_neg hne, List.append_nil]

end Grow

/-- **A new node under a list keeps the links in agreement.**  It is newer than the list and is put
at the end of its children; and it has no children and is under nothing else. -/
theorem Arena.grow (h : t.Arena) {hp : p < t.nodes.size} (hl : t.textAt p = none)
    (text? : Option String) : (t.grow p hp text?).Arena := by
  have hold : ∀ q, (t.childList q).count t.size = 0 := by
    intro q
    refine List.count_eq_zero.mpr fun hm => ?_
    exact absurd (lt_of_mem_childList hm).2 (Nat.lt_irrefl _)
  constructor
  · rw [parentLink_grow, if_neg (Nat.ne_of_lt t.size_pos)]
    exact h.origin
  · intro n h0 hn
    rw [size_grow] at hn
    by_cases hns : n = t.size
    · subst hns
      refine ⟨p, hp, by rw [parentLink_grow, if_pos rfl], ?_⟩
      intro q
      rw [childList_grow hl, List.count_append, hold q, Nat.zero_add]
      by_cases hq : q = p
      · simp [hq]
      · simp [hq]
    · obtain ⟨r, hr, hlink, hcount⟩ := h.parented n h0 (by omega)
      refine ⟨r, hr, by rw [parentLink_grow, if_neg hns, hlink], ?_⟩
      intro q
      have hnew : (if q = p then [t.size] else []).count n = 0 := by
        split <;> simp [Ne.symm hns]
      rw [childList_grow hl, List.count_append, hcount q, hnew, Nat.add_zero]
  · intro n
    rw [childList_grow hl]
    split
    · refine List.pairwise_append.mpr ⟨h.increasing n, List.pairwise_singleton _ _, ?_⟩
      intro c hc d hd
      rw [List.mem_singleton.mp hd]
      exact (lt_of_mem_childList hc).2
    · rw [List.append_nil]
      exact h.increasing n
  · exact fun n s => childList_of_textAt
  · obtain ⟨k, hk⟩ := h.rooted
    refine ⟨k, hk.mono fun q c hc => ?_⟩
    rw [childList_grow hl]
    exact List.mem_append_left _ hc

theorem Grows.refl (t : Tree) : t.Grows t :=
  ⟨Nat.le_refl _, fun _ _ => rfl, fun _ _ => rfl, fun _ _ => List.prefix_refl _⟩

theorem Grows.trans {t'' : Tree} (h : t.Grows t') (h' : t'.Grows t'') : t.Grows t'' := by
  refine ⟨Nat.le_trans h.size_le h'.size_le, ?_, ?_, ?_⟩
  · intro n hn
    rw [h'.text_eq n (Nat.lt_of_lt_of_le hn h.size_le), h.text_eq n hn]
  · intro n hn
    rw [h'.parent_eq n (Nat.lt_of_lt_of_le hn h.size_le), h.parent_eq n hn]
  · intro n hn
    exact (h.children_prefix n hn).trans (h'.children_prefix n (Nat.lt_of_lt_of_le hn h.size_le))

theorem grows_grow {hp : p < t.nodes.size} (hl : t.textAt p = none) (text? : Option String) :
    t.Grows (t.grow p hp text?) := by
  constructor
  · rw [size_grow]
    exact Nat.le_succ _
  · intro n hn
    rw [textAt_grow, if_neg (Nat.ne_of_lt hn)]
  · intro n hn
    rw [parentLink_grow, if_neg (Nat.ne_of_lt hn)]
  · intro n _
    rw [childList_grow hl]
    exact List.prefix_append _ _

/-! ## 3. The root moves -/

/-- The number of lists of one child that unwrapping passes on its way down from a node.  It is
computed along the same way as unwrapping itself. -/
def loneSteps (t : Tree) (n : Nat) : Nat :=
  match h : t.childList n with
  | [c] => t.loneSteps c + 1
  | _ => 0
termination_by t.size - n
decreasing_by
  have hc := lt_of_mem_childList (h ▸ List.mem_singleton_self c)
  omega

theorem childList_of_list {p? : Option Nat} {cs : Array Nat} (hn : n < t.nodes.size)
    (h : t.nodes[n] = .list p? cs) : t.childList n = cs.toList := by
  rw [childList, Array.getElem?_eq_getElem hn, h]
  rfl

theorem childList_of_leaf {s : String} (hn : n < t.nodes.size) (h : t.nodes[n] = .leaf p s) :
    t.childList n = [] := by
  rw [childList, Array.getElem?_eq_getElem hn, h]
  rfl

/-- Where a list of one child leads. -/
theorem lone_of_singleton (hn : n < t.nodes.size) (h : t.childList n = [c]) :
    ∃ hc : c < t.nodes.size, t.lone n hn = t.lone c hc ∧ t.loneSteps n = t.loneSteps c + 1 := by
  have hone : ∀ {p? : Option Nat} {cs : Array Nat}, t.nodes[n] = .list p? cs → cs = #[c] := by
    intro p? cs hx
    rw [childList_of_list hn hx] at h
    exact Array.toList_inj.mp h
  have hleaf : ∀ {p : Nat} {s : String}, t.nodes[n] ≠ .leaf p s := by
    intro p s hx
    rw [childList_of_leaf hn hx] at h
    cases h
  have hc : c < t.nodes.size := (lt_of_mem_childList (h ▸ List.mem_singleton_self c)).2
  have h1 : (#[c] : Array Nat).size = 1 := rfl
  refine ⟨hc, ?_, ?_⟩
  · rw [lone]
    split
    · rename_i hx
      exact absurd hx hleaf
    · rename_i hx
      obtain rfl := hone hx
      exact dif_pos h1
  · rw [loneSteps]
    split
    · rename_i c' hc'
      rw [h] at hc'
      cases hc'
      rfl
    · rename_i hx
      exact absurd h (hx c)

/-- Any other node leads nowhere. -/
theorem lone_of_length_ne (hn : n < t.nodes.size) (h : (t.childList n).length ≠ 1) :
    (t.lone n hn).1 = n ∧ t.loneSteps n = 0 := by
  have hsize : ∀ {p? : Option Nat} {cs : Array Nat}, t.nodes[n] = .list p? cs → cs.size ≠ 1 := by
    intro p? cs hx
    rw [childList_of_list hn hx, Array.length_toList] at h
    exact h
  constructor
  · rw [lone]
    split
    · rfl
    · rename_i hx
      rw [dif_neg (hsize hx)]
  · rw [loneSteps]
    split
    · rename_i c hc
      rw [hc] at h
      exact absurd rfl h
    · rfl

/-- `LoneDown k m n`: `k` steps lead from `m` to `n`, each of them from a list to its only child. -/
inductive LoneDown (t : Tree) : Nat → Nat → Nat → Prop
  | refl (m : Nat) : t.LoneDown 0 m m
  | step {k m c n : Nat} :
      t.textAt m = none → t.childList m = [c] → t.LoneDown k c n → t.LoneDown (k + 1) m n

/-- A node that unwrapping does not step over: a leaf, or a list that does not have exactly one
child.  An empty list is settled. -/
def Settled (t : Tree) (n : Nat) : Prop :=
  t.textAt n ≠ none ∨ (t.childList n).length ≠ 1

/-- What has a child is a list. -/
theorem textAt_of_childList (h : t.childList n ≠ []) : t.textAt n = none := by
  cases hs : t.textAt n with
  | none => rfl
  | some s => exact absurd (childList_of_textAt hs) h

/-- The way that unwrapping takes. -/
theorem loneDown_lone (t : Tree) (n : Nat) (hn : n < t.nodes.size) :
    t.LoneDown (t.loneSteps n) n (t.lone n hn).1 ∧ t.Settled (t.lone n hn).1 := by
  by_cases h1 : (t.childList n).length = 1
  · obtain ⟨c, hc⟩ := List.length_eq_one_iff.mp h1
    have hlt := (lt_of_mem_childList (hc ▸ List.mem_singleton_self c)).1
    obtain ⟨hsize, hlone, hsteps⟩ := lone_of_singleton hn hc
    have hlist : t.textAt n = none := textAt_of_childList (by simp [hc])
    obtain ⟨hdown, hsettled⟩ := t.loneDown_lone c hsize
    rw [hlone, hsteps]
    exact ⟨.step hlist hc hdown, hsettled⟩
  · obtain ⟨hlone, hsteps⟩ := lone_of_length_ne hn h1
    rw [hlone, hsteps]
    exact ⟨.refl n, .inr h1⟩
termination_by t.nodes.size - n

theorem LoneDown.down {k m : Nat} (h : t.LoneDown k m n) : t.Down k m n := by
  induction h with
  | refl m => exact .refl m
  | @step k m c n _ hc _ ih =>
    have hfirst : t.Down 1 m c := (Down.refl m).step (hc ▸ List.mem_singleton_self c)
    rw [Nat.add_comm]
    exact hfirst.trans ih

/-- **Unwrapping leads down**, one child step for each list that it passes. -/
theorem down_lone (t : Tree) (n : Nat) (hn : n < t.nodes.size) :
    t.Down (t.loneSteps n) n (t.lone n hn).1 :=
  (t.loneDown_lone n hn).1.down

/-- **Moving the root down keeps the links in agreement**: it stays below handle `0`, and no link
changes. -/
theorem Arena.unwrap (h : t.Arena) : t.unwrap.Arena := by
  obtain ⟨k, hk⟩ := h.rooted
  have hdown : t.Down (k + t.loneSteps t.root) 0 t.unwrap.root :=
    hk.trans (t.down_lone t.root t.root_lt)
  have hsame : ∀ n, t.childList n ⊆ t.unwrap.childList n :=
    fun n => List.Subset.refl (t.childList n)
  exact ⟨h.origin, h.parented, h.increasing, h.childless, _, hdown.mono hsame⟩

theorem grows_unwrap (t : Tree) : t.Grows t.unwrap :=
  ⟨Nat.le_refl _, fun _ _ => rfl, fun _ _ => rfl, fun _ _ => List.prefix_refl _⟩

theorem arena_empty : empty.Arena := by
  have hchild : ∀ q, empty.childList q = [] := by
    intro q
    cases q with
    | zero => rfl
    | succ q => exact childList_of_le (Nat.succ_le_succ (Nat.zero_le q))
  constructor
  · rfl
  · intro n h0 hn
    have hsize : empty.size = 1 := rfl
    omega
  · intro n
    rw [hchild]
    exact List.Pairwise.nil
  · exact fun n s => childList_of_textAt
  · exact ⟨0, .refl 0⟩

/-! ## 4. Depth -/

/-- A node is one of its parent's children, and of no other list's. -/
theorem Arena.mem_childList_iff (h : t.Arena) : c ∈ t.childList n ↔ t.parentLink c = some n := by
  constructor
  · intro hc
    obtain ⟨hlt, hsize⟩ := lt_of_mem_childList hc
    obtain ⟨p, -, hlink, hcount⟩ := h.parented c (by omega) hsize
    have hpos := List.count_pos_iff.mpr hc
    rw [hcount n] at hpos
    split at hpos
    · rename_i hnp
      rw [hnp, hlink]
    · omega
  · intro hlink
    have hsize : c < t.size := by
      refine Nat.lt_of_not_le fun hle => ?_
      rw [parentLink, Array.getElem?_eq_none hle] at hlink
      cases hlink
    have h0 : 0 < c := by
      refine Nat.pos_of_ne_zero fun h0 => ?_
      rw [h0, h.origin] at hlink
      cases hlink
    obtain ⟨p, -, hlink', hcount⟩ := h.parented c h0 hsize
    obtain rfl : p = n := Option.some.inj (hlink'.symm.trans hlink)
    refine List.count_pos_iff.mp ?_
    rw [hcount p, if_pos rfl]
    exact Nat.one_pos

/-- The index of a handle is the handle. -/
theorem eq_of_index {z : Int} {i : { i : Nat // i < t.nodes.size }} (h : t.index z = .ok i) :
    z = i.1 := by
  unfold index at h
  split at h
  · rename_i hz
    cases h
    exact (Int.toNat_of_nonneg hz.1).symm
  · cases h

/-- A handle names a node if it is that node's index. -/
theorem node_eq_ok_iff {z : Int} {x : Node} :
    t.node z = .ok x ↔ ∃ n : Nat, z = n ∧ t.nodes[n]? = some x := by
  unfold node
  constructor
  · intro h
    cases hi : t.index z with
    | error e =>
      rw [hi] at h
      cases h
    | ok i =>
      rw [hi] at h
      cases h
      exact ⟨i.1, eq_of_index hi, Array.getElem?_eq_getElem i.2⟩
  · rintro ⟨n, rfl, hx⟩
    obtain ⟨hn, rfl⟩ := Array.getElem?_eq_some_iff.mp hx
    have hi : t.index n = .ok ⟨n, hn⟩ := by
      simp [index, hn]
    rw [hi]

/-- What a tree answers for the parent of a node. -/
theorem parent_eq_ok_iff {z : Int} :
    t.parent z = .ok p ↔ ∃ n : Nat, z = n ∧ n ≠ t.root ∧ t.parentLink n = some p := by
  unfold parent
  constructor
  · intro h
    cases hx : t.node z with
    | error e =>
      rw [hx] at h
      cases h
    | ok x =>
      obtain ⟨n, rfl, hn⟩ := node_eq_ok_iff.mp hx
      rw [hx] at h
      by_cases hr : (n : Int) = t.root
      · simp [hr] at h
      · simp only [if_neg hr] at h
        have hlink : x.parent? = some p := by
          cases hp : x.parent? with
          | none =>
            rw [hp] at h
            cases h
          | some q =>
            rw [hp] at h
            exact congrArg some (Except.ok.inj h)
        refine ⟨n, rfl, by omega, ?_⟩
        rw [parentLink, hn]
        exact hlink
  · rintro ⟨n, rfl, hr, hlink⟩
    obtain ⟨x, hn, hp⟩ := Option.bind_eq_some_iff.mp hlink
    rw [node_eq_ok_iff.mpr ⟨n, rfl, hn⟩]
    simp only [hp]
    exact if_neg (by omega)

theorem depth_root : t.depth t.root = .ok 0 := by
  rw [depth, if_pos rfl]

/-- A node is one step deeper than its parent. -/
theorem depth_of_parent {z : Int} (hz : z ≠ t.root) (h : t.parent z = .ok p) :
    t.depth z = (t.depth p).map (· + 1) := by
  rw [depth, if_neg hz]
  split
  · rename_i e he
    rw [h] at he
    cases he
  · rename_i q hq
    rw [h] at hq
    cases hq
    rfl

/-- Where a node has a depth, there is a way down to it.  The depth is counted on the way up, and
the way is the same one, taken back. -/
theorem Arena.down_of_depth (h : t.Arena) {z : Int} {k : Nat} (hd : t.depth z = .ok k) :
    ∃ n : Nat, z = n ∧ t.Down k t.root n := by
  fun_induction depth t z generalizing k with
  | case1 =>
    cases hd
    exact ⟨t.root, rfl, .refl _⟩
  | case2 => cases hd
  | case3 z hz p hp ih =>
    obtain ⟨n, rfl, -, hlink⟩ := parent_eq_ok_iff.mp hp
    cases hdp : t.depth p with
    | error e =>
      rw [hdp] at hd
      cases hd
    | ok j =>
      rw [hdp] at hd
      cases hd
      obtain ⟨m, hm, hdown⟩ := ih hdp
      obtain rfl : p = m := by omega
      exact ⟨n, rfl, .step hdown (h.mem_childList_iff.mpr hlink)⟩

/-- Where there is a way down, its number of steps is the depth: going up leads back on it. -/
theorem Arena.depth_of_down (h : t.Arena) {k : Nat} (hd : t.Down k t.root n) :
    t.depth n = .ok k := by
  generalize hr : t.root = r at hd
  induction hd with
  | refl m =>
    rw [← hr]
    exact depth_root
  | @step k m n c hdown hc ih =>
    have hle := hdown.le
    have hlt := (lt_of_mem_childList hc).1
    have hparent : t.parent c = .ok n :=
      parent_eq_ok_iff.mpr ⟨c, rfl, by omega, h.mem_childList_iff.mp hc⟩
    rw [depth_of_parent (by omega) hparent, ih hr]
    rfl

/-- **The depth of a node is the number of child steps from the root to it**, and any other handle
has none.  In particular a node has one depth at most, so there is no other way down to it. -/
theorem Arena.depth_eq_ok_iff (h : t.Arena) {z : Int} {k : Nat} :
    t.depth z = .ok k ↔ ∃ n : Nat, z = n ∧ t.Down k t.root n := by
  constructor
  · exact h.down_of_depth
  · rintro ⟨n, rfl, hd⟩
    exact h.depth_of_down hd

end Tree

end IndentLisp
