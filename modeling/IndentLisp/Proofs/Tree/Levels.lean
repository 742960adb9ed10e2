/-
# How deep leaves lie

A leaf that is drawn while so many lists are open below the root lies one step below the innermost
of them, and stays there: nodes that are added later do not change its depth, and **unwrapping takes
as many steps off every depth as it moves the root** (`Draft.leafDepths_unwrap`).

So the depth of a leaf is settled when it is drawn, up to one number that is the same for all leaves
of the tree.  A reader draws a leaf when it passes a token, and knows by then how many lists are
open; how many steps the root goes down is known when the text is over.

That unwrapping never takes off more than there is deserves a proof: depths are natural numbers, and
a difference would hide it.  It is the second half of `Draft.leafDepths_unwrap`, and holds because
every leaf lies below the root wherever that goes, as unwrapping loses no leaf.

* `Tree.leafDepths`: the leaves of a tree with their depths.
* `Draft.down_here`: the innermost open list lies as deep as there are lists open below the root.
* `Draft.leafDepths_leaf`: a leaf is drawn one step below it.
* `Draft.leafDepths_enter`, `Draft.leafDepths_leave`, `Draft.leafDepths_quiet`: other strokes leave
  the leaves where they are.
* `Tree.Arena.depth_unwrap`: what moving the root does to one node.
-/
import IndentLisp.Proofs.Tree.Forms

namespace IndentLisp

namespace Tree

variable {t : Tree} {n p : Nat}

/-- The leaves under the root from left to right, each text with its depth.  A tree answers depths
by handle, and each answer could be a refusal; that none is, is for the theorems to say. -/
def leafDepths (t : Tree) : List (String × Except Refusal Nat) :=
  t.leaves.map fun leaf => (leaf.2, t.depth leaf.1)

/-! ## 1. Ways down -/

/-- There is a way down to every node. -/
theorem Arena.exists_down (h : t.Arena) (hn : n < t.size) : ∃ k, t.Down k 0 n := by
  induction n using Nat.strongRecOn with
  | _ n ih =>
    rcases Nat.eq_zero_or_pos n with rfl | h0
    · exact ⟨0, .refl 0⟩
    · obtain ⟨p, hp, hlink, -⟩ := h.parented n h0 hn
      obtain ⟨k, hk⟩ := ih p hp (Nat.lt_trans hp hn)
      exact ⟨k + 1, hk.step (h.mem_childList_iff.mpr hlink)⟩

/-- A new node does not change the depth of another one. -/
theorem Arena.depth_grow (h : t.Arena) (hr : t.root = 0) {hp : p < t.nodes.size}
    (hl : t.textAt p = none) (text? : Option String) (hn : n < t.size) :
    (t.grow p hp text?).depth n = t.depth n := by
  obtain ⟨k, hk⟩ := h.exists_down hn
  have hk' : (t.grow p hp text?).Down k 0 n := by
    refine hk.mono fun q c hc => ?_
    rw [childList_grow hl]
    exact List.mem_append_left _ hc
  have hr' : (t.grow p hp text?).root = 0 := hr
  rw [← hr] at hk
  rw [← hr'] at hk'
  rw [h.depth_of_down hk, (h.grow hl text?).depth_of_down hk']

/-- A leaf of a branch lies below its topmost node. -/
theorem exists_down_of_mem_leaves {leaf : Nat × String} (hn : n < t.nodes.size)
    (h : leaf ∈ (t.branchAt n hn).leaves) : ∃ k, t.Down k n leaf.1 := by
  fun_induction branchAt t n hn with
  | case1 n hn q s hx =>
    rw [Branch.leaves, Branch.entries] at h
    obtain rfl : leaf = (n, s) := by simpa using h
    exact ⟨0, .refl n⟩
  | case2 n hn q? cs hx ih =>
    rw [Branch.leaves_list] at h
    obtain ⟨b, hb, h⟩ := List.mem_flatMap.mp h
    obtain ⟨⟨c, hc⟩, -, rfl⟩ := List.mem_map.mp hb
    obtain ⟨k, hk⟩ := ih c hc h
    have hstep : t.Down 1 n c := by
      refine (Down.refl n).step ?_
      rw [childList_of_list hn hx]
      exact hc
    exact ⟨1 + k, hstep.trans hk⟩

/-! ## 2. Moving the root down -/

/-- The ways down do not depend on where the root is. -/
theorem down_unwrap {k m : Nat} : t.unwrap.Down k m n ↔ t.Down k m n := by
  have hsame : ∀ q, t.unwrap.childList q = t.childList q := fun q => rfl
  constructor
  · intro h
    refine h.mono fun q c hc => ?_
    rwa [hsame] at hc
  · intro h
    refine h.mono fun q c hc => ?_
    rwa [hsame]

/-- Unwrapping does not depend on where the root is. -/
theorem lone_unwrap (t : Tree) (n : Nat) (hn : n < t.nodes.size) :
    (t.unwrap.lone n hn).1 = (t.lone n hn).1 ∧ t.unwrap.loneSteps n = t.loneSteps n := by
  by_cases h1 : (t.childList n).length = 1
  · obtain ⟨c, hc⟩ := List.length_eq_one_iff.mp h1
    have hlt := (lt_of_mem_childList (hc ▸ List.mem_singleton_self c)).1
    obtain ⟨hsize, hlone, hsteps⟩ := lone_of_singleton hn hc
    obtain ⟨_, hlone', hsteps'⟩ := lone_of_singleton (t := t.unwrap) hn hc
    obtain ⟨ih, ih'⟩ := t.lone_unwrap c hsize
    rw [hlone, hlone', hsteps, hsteps']
    exact ⟨ih, congrArg (· + 1) ih'⟩
  · obtain ⟨hlone, hsteps⟩ := lone_of_length_ne hn h1
    obtain ⟨hlone', hsteps'⟩ := lone_of_length_ne (t := t.unwrap) hn h1
    rw [hlone, hlone', hsteps, hsteps']
    exact ⟨rfl, rfl⟩
termination_by t.nodes.size - n

/-- **A node that lies below the new root is nearer to it by the steps that the root went down**,
and it was no less deep before.  There is one way down to the node, and the new root is on it. -/
theorem Arena.depth_unwrap (h : t.Arena) {k j : Nat} (hd : t.depth n = .ok k)
    (hj : t.Down j t.unwrap.root n) :
    t.unwrap.depth n = .ok (k - t.loneSteps t.root) ∧ t.loneSteps t.root ≤ k := by
  have hroot : t.Down (t.loneSteps t.root + j) t.root n :=
    (t.down_lone t.root t.root_lt).trans hj
  have hk : k = t.loneSteps t.root + j := by
    rw [h.depth_of_down hroot] at hd
    exact (Except.ok.inj hd).symm
  refine ⟨?_, by omega⟩
  rw [h.unwrap.depth_of_down (down_unwrap.mpr hj), hk, Nat.add_sub_cancel_left]

end Tree

/-! ## 3. Drafts -/

namespace Draft

variable {d : Draft}

/-- The leaves that were drawn, each handle with its text. -/
def leaves (d : Draft) : List (Nat × String) :=
  d.entries.filterMap fun e => e.2.map (e.1, ·)

/-- The leaves that were drawn, each text with its depth. -/
def leafDepths (d : Draft) : List (String × Except Refusal Nat) :=
  d.leaves.map fun leaf => (leaf.2, d.tree.depth leaf.1)

theorem lt_of_mem_leaves {leaf : Nat × String} (h : leaf ∈ d.leaves) : leaf.1 < d.tree.size := by
  obtain ⟨e, he, hleaf⟩ := List.mem_filterMap.mp h
  obtain ⟨s, -, rfl⟩ := Option.map_eq_some_iff.mp hleaf
  have hmem : e.1 ∈ Site.handles (d.here :: d.above) := List.mem_map_of_mem he
  rw [d.sound.numbered] at hmem
  exact List.mem_range.mp hmem

/-- **The innermost open list lies as deep as there are lists open below the root.**  Each open list
is a child of the one around it. -/
theorem down_here (d : Draft) : d.tree.Down d.level 0 d.here.handle := by
  induction hk : d.level generalizing d with
  | zero =>
    rw [handle_here_of_level hk]
    exact .refl 0
  | succ k ih =>
    cases ha : d.above with
    | nil => simp [level, ha] at hk
    | cons s rest =>
      have hup := ih d.leave (by rw [level_leave, hk, Nat.add_sub_cancel])
      rw [tree_leave, here_leave d ha] at hup
      refine hup.step ?_
      have hspine := d.sound.spine.2
      rw [ha] at hspine
      obtain ⟨hs, hx⟩ := Array.getElem?_eq_some_iff.mp hspine.1
      rw [Tree.childList_of_list hs hx]
      simp

/-- A new node leaves the leaves that there are where they are. -/
theorem map_depth_grow (ha : d.tree.Arena) (text? : Option String) :
    (d.leaves.map fun leaf => (leaf.2, (d.tree.grow d.here.handle d.here_lt text?).depth leaf.1)) =
      d.leafDepths := by
  refine List.map_congr_left fun leaf hleaf => ?_
  rw [ha.depth_grow d.sound.root_eq d.textAt_here text? (lt_of_mem_leaves hleaf)]

theorem leafDepths_enter (ha : d.tree.Arena) : d.enter.leafDepths = d.leafDepths := by
  have hleaves : d.enter.leaves = d.leaves := by
    rw [leaves, entries_enter, List.filterMap_append, leaves]
    simp
  rw [leafDepths, hleaves]
  exact map_depth_grow ha none

/-- **A leaf lies one step below the innermost open list**, and the leaves before it lie where they
lay. -/
theorem leafDepths_leaf (ha : d.tree.Arena) (s : String) :
    (d.leaf s).leafDepths = d.leafDepths ++ [(s, .ok (d.level + 1))] := by
  have hleaves : (d.leaf s).leaves = d.leaves ++ [(d.tree.size, s)] := by
    rw [leaves, entries_leaf, List.filterMap_append, leaves]
    rfl
  have hnew : (d.leaf s).tree.depth d.tree.size = .ok (d.level + 1) := by
    have hdown := (d.leaf s).down_here.step (c := d.tree.size) (by
      rw [Tree.childList, (d.leaf s).node_here]
      simp [leaf, Branch.handle, Node.children, Tree.size])
    have hroot : (d.leaf s).tree.root = 0 := (d.leaf s).sound.root_eq
    rw [level_leaf, ← hroot] at hdown
    exact (arena_stroke ha (.leaf s)).depth_of_down hdown
  rw [leafDepths, hleaves, List.map_append, List.map_singleton, hnew]
  congr 1
  exact map_depth_grow ha (some s)

theorem leafDepths_leave (d : Draft) : d.leave.leafDepths = d.leafDepths := by
  rw [leafDepths, leaves, entries_leave, tree_leave, leafDepths, leaves]

/-- Strokes that draw no leaf leave the leaves where they are. -/
theorem leafDepths_quiet (ha : d.tree.Arena) {xs : List Stroke}
    (h : xs.filterMap Stroke.text? = []) :
    (d.draw xs).leafDepths = d.leafDepths := by
  induction xs generalizing d with
  | nil => rfl
  | cons x xs ih =>
    cases x with
    | leaf s => simp [Stroke.text?] at h
    | enter =>
      rw [draw_cons, ih (arena_stroke ha .enter) h, stroke_enter, leafDepths_enter ha]
    | leave =>
      rw [draw_cons, ih (arena_stroke ha .leave) h, stroke_leave, leafDepths_leave]

/-- The root goes down from handle `0`. -/
theorem root_unwrap (d : Draft) (h0 : 0 < d.tree.unwrap.nodes.size) :
    d.tree.unwrap.root = (d.tree.unwrap.lone 0 h0).1 ∧
      d.tree.loneSteps d.tree.root = d.tree.unwrap.loneSteps 0 := by
  have hroot : ∀ n (hn : n < d.tree.nodes.size), n = 0 →
      (d.tree.lone n hn).1 = (d.tree.unwrap.lone 0 h0).1 ∧
        d.tree.loneSteps n = d.tree.unwrap.loneSteps 0 := by
    rintro n hn rfl
    obtain ⟨h1, h2⟩ := d.tree.lone_unwrap 0 hn
    exact ⟨h1.symm, h2.symm⟩
  exact hroot _ _ d.sound.root_eq

/-- **Unwrapping takes as many steps off every depth as it moves the root.** -/
theorem leafDepths_unwrap (ha : d.tree.Arena) :
    (d.tree.unwrap.leafDepths = d.leafDepths.map fun leaf =>
      (leaf.1, leaf.2.map (· - d.tree.loneSteps d.tree.root))) ∧
    ∀ s k, (s, .ok k) ∈ d.leafDepths → d.tree.loneSteps d.tree.root ≤ k := by
  have hleaves : d.tree.unwrap.leaves = d.leaves := by
    rw [leaves_unwrap, Branch.leaves, entries_branchAt_zero, leaves]
  have hdepth : ∀ leaf ∈ d.leaves, ∃ k, d.tree.depth leaf.1 = .ok k ∧
      d.tree.unwrap.depth leaf.1 = .ok (k - d.tree.loneSteps d.tree.root) ∧
      d.tree.loneSteps d.tree.root ≤ k := by
    intro leaf hleaf
    obtain ⟨k, hk⟩ := ha.exists_down (lt_of_mem_leaves hleaf)
    have hroot : d.tree.root = 0 := d.sound.root_eq
    rw [← hroot] at hk
    rw [← hleaves, Tree.leaves, Tree.leavesOnto_eq, List.append_nil] at hleaf
    obtain ⟨j, hj⟩ := Tree.exists_down_of_mem_leaves _ hleaf
    exact ⟨k, ha.depth_of_down hk,
      ha.depth_unwrap (ha.depth_of_down hk) (Tree.down_unwrap.mp hj)⟩
  constructor
  · rw [Tree.leafDepths, hleaves, leafDepths, List.map_map]
    refine List.map_congr_left fun leaf hleaf => ?_
    obtain ⟨k, hk, hk', -⟩ := hdepth leaf hleaf
    rw [hk', Function.comp_apply, hk]
    rfl
  · intro s k hmem
    obtain ⟨leaf, hleaf, he⟩ := List.mem_map.mp hmem
    obtain ⟨k', hk', -, hle⟩ := hdepth leaf hleaf
    rw [hk'] at he
    cases he
    exact hle

end Draft

end IndentLisp
