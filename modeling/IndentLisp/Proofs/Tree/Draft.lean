/-
# Drafts

A tree that is built from left to right is built by three strokes: `enter` starts a list in the
innermost open list, `leaf` adds a leaf to that list, and `leave` ends it.  A `Draft` is the tree
after some strokes together with the lists that are still open, each with what it holds so far.

This is what stands between a reader and its tree.  A reader calls the operations of a tree, and
each of its calls is at the innermost open list, or goes up from there; so each is a stroke, or
several (section 5), and is never refused.  What a reader does is then said as a sequence of
strokes, and what a tree comes to is said of the strokes, without any handles.

A draft carries its invariant (`Draft.Sound`): the open lists form a chain of links down from the
root, each the last child of the one before, and the arena bears everything else.  **The handles of
a draft, read off in preorder, are `0, 1, 2, …`** (`Sound.numbered`), since every new node goes to
the end of that order.  Since the invariant is part of the structure, a stroke is a function on
drafts, and no lemma has to carry it along.

* `Draft.draw`: a draft after some more strokes.
* `Draft.level`: how many lists are open below the root.
* `Draft.branchAt_zero`: when every list but the root is ended, what the root holds is the whole
  tree.
* `Draft.entries_branchAt_zero`, `Draft.handles_branchAt_zero`: a walk through the tree meets its
  nodes in the order in which they were drawn, whichever lists are still open.
* `Draft.addList_here`, `addLeaf_here`, `parent_here`, `openLine_here`: **each operation of a tree
  at the innermost open list is a stroke, or several.**

The root does not end: a `leave` at the root does nothing.  A reader never asks for one.
-/
import IndentLisp.Proofs.Tree.Branch

namespace IndentLisp

/-! ## 1. Open lists -/

/-- A list that is still open, with the branches that it holds so far.  Its node is in the arena
already, and its children are the branches, followed by the open list within it if there is one. -/
structure Site where
  handle : Nat
  items : List Branch

namespace Site

/-- The nodes of open lists, the innermost list first, in preorder. -/
def entries : List Site → List (Nat × Option String)
  | [] => []
  | s :: above => entries above ++ (s.handle, none) :: Branch.entriesOf s.items

/-- The handles of open lists in preorder. -/
def handles (sites : List Site) : List Nat :=
  (entries sites).map Prod.fst

theorem handle_mem_handles {s : Site} {sites : List Site} (h : s ∈ sites) :
    s.handle ∈ handles sites := by
  induction sites with
  | nil => simp at h
  | cons x above ih =>
    simp only [handles, entries, List.map_append, List.map_cons, List.mem_append, List.mem_cons]
    rcases List.mem_cons.mp h with rfl | h
    · exact Or.inr (Or.inl rfl)
    · exact Or.inl (ih h)

/-- What an open list holds is numbered along with it. -/
theorem items_subset {s : Site} {sites : List Site} {b : Branch} (h : s ∈ sites)
    (hb : b ∈ s.items) : b.handles ⊆ handles sites := by
  induction sites with
  | nil => simp at h
  | cons x above ih =>
    intro m hm
    simp only [handles, entries, List.map_append, List.map_cons, List.mem_append, List.mem_cons]
    rcases List.mem_cons.mp h with rfl | h
    · obtain ⟨e, he, rfl⟩ := List.mem_map.mp hm
      exact Or.inr (Or.inr (List.mem_map_of_mem (Branch.entries_subset hb he)))
    · exact Or.inl (ih h hm)

end Site

namespace Tree

/-- The links of open lists, the innermost first: each list is under the one that encloses it, and
its last children are `next`.  Of the innermost list there is nothing next; of any other it is the
list within. -/
def Spine (t : Tree) : List Nat → List Site → Prop
  | _, [] => True
  | next, s :: above =>
    t.nodes[s.handle]? =
        some (.list (above.head?.map Site.handle) (s.items.map Branch.handle ++ next).toArray) ∧
      t.Spine [s.handle] above

/-- A new node under `q` leaves the links of lists alone among which `q` is not. -/
theorem Spine.grow {t : Tree} {next : List Nat} {sites : List Site} {q : Nat}
    {text? : Option String} (hq : q < t.nodes.size) (hn : q ∉ Site.handles sites)
    (h : t.Spine next sites) : (t.grow q hq text?).Spine next sites := by
  induction sites generalizing next with
  | nil => trivial
  | cons s above ih =>
    have hs : q ≠ s.handle := fun e => hn (e ▸ Site.handle_mem_handles List.mem_cons_self)
    have ha : q ∉ Site.handles above := by
      intro hq
      refine hn ?_
      simp only [Site.handles, Site.entries, List.map_append]
      exact List.mem_append_left _ hq
    exact ⟨getElem?_grow_of_ne _ hs h.1, ih ha h.2⟩

end Tree

/-! ## 2. Drafts -/

/-- What a tree under construction and its open lists have to do with each other: where the root is,
how the nodes are numbered, how the open lists are linked, and that the arena bears what they
hold. -/
structure Draft.Sound (t : Tree) (sites : List Site) : Prop where
  root_eq : t.root = 0
  numbered : Site.handles sites = List.range t.nodes.size
  spine : t.Spine [] sites
  borne : ∀ s ∈ sites, t.BearsAll s.handle s.items

/-- A tree under construction, its innermost open list, and the lists that enclose that one. -/
structure Draft where
  tree : Tree
  here : Site
  above : List Site
  sound : Draft.Sound tree (here :: above)

namespace Draft

variable (d : Draft)

/-- The number of open lists below the root.  It is what a reader's count of lines and parentheses
is compared with. -/
def level : Nat :=
  d.above.length

/-- A lone root. -/
def start : Draft where
  tree := .empty
  here := ⟨0, []⟩
  above := []
  sound := ⟨rfl, rfl, ⟨rfl, trivial⟩, by simp [Tree.BearsAll]⟩

theorem node_here : d.tree.nodes[d.here.handle]? =
    some (.list (d.above.head?.map Site.handle) (d.here.items.map Branch.handle).toArray) := by
  simpa using d.sound.spine.1

theorem here_lt : d.here.handle < d.tree.nodes.size :=
  (Array.getElem?_eq_some_iff.mp d.node_here).1

theorem size_pos : 0 < d.tree.nodes.size :=
  Nat.lt_of_le_of_lt (Nat.zero_le _) d.here_lt

/-- No handle is used twice, and the innermost open list is part of nothing else. -/
theorem here_notMem :
    d.here.handle ∉ Site.handles d.above ∧ ∀ b ∈ d.here.items, d.here.handle ∉ b.handles := by
  have hnd : (Site.handles (d.here :: d.above)).Nodup := by
    rw [d.sound.numbered]
    exact List.nodup_range
  simp only [Site.handles, Site.entries, List.map_append, List.map_cons] at hnd
  obtain ⟨-, hcons, hdis⟩ := List.nodup_append.mp hnd
  refine ⟨fun h => hdis _ h _ List.mem_cons_self rfl, fun b hb h => ?_⟩
  obtain ⟨e, he, heq⟩ := List.mem_map.mp h
  refine (List.nodup_cons.mp hcons).1 ?_
  rw [← heq]
  exact List.mem_map_of_mem (Branch.entries_subset hb he)

/-- **A new node under the innermost open list disturbs nothing that is there.**  What the open
lists hold does not have that list in it, since handles are in order and each is used once. -/
theorem borne_grow (text? : Option String) :
    ∀ s ∈ d.here :: d.above,
      (d.tree.grow d.here.handle d.here_lt text?).BearsAll s.handle s.items := by
  intro s hs
  refine Tree.bearsAll_iff.mpr fun b hb => ?_
  refine Tree.Bears.grow d.here_lt (fun h => ?_) (Tree.bearsAll_iff.mp (d.sound.borne s hs) b hb)
  rcases List.mem_cons.mp hs with rfl | hs
  · exact d.here_notMem.2 b hb h
  · exact d.here_notMem.1 (Site.items_subset hs hb h)

theorem numbered_grow (text? : Option String) {sites : List Site}
    (h : Site.entries sites = Site.entries (d.here :: d.above) ++ [(d.tree.nodes.size, text?)]) :
    Site.handles sites =
      List.range (d.tree.grow d.here.handle d.here_lt text?).nodes.size := by
  have hsize : (d.tree.grow d.here.handle d.here_lt text?).nodes.size = d.tree.nodes.size + 1 :=
    d.tree.size_grow _ _ _
  rw [hsize, List.range_succ, ← d.sound.numbered, Site.handles, h, List.map_append]
  rfl

/-- The innermost open list with a new child. -/
theorem node_here_grow (text? : Option String) :
    (d.tree.grow d.here.handle d.here_lt text?).nodes[d.here.handle]? =
      some (.list (d.above.head?.map Site.handle)
        (d.here.items.map Branch.handle ++ [d.tree.nodes.size]).toArray) := by
  rw [Tree.getElem?_grow_parent d.here_lt text? d.node_here]
  simp [Node.addChild]

/-- A new list starts in the innermost open list, and is the innermost one from then on.  Its node
goes to the end of the arena. -/
def enter : Draft where
  tree := d.tree.grow d.here.handle d.here_lt none
  here := ⟨d.tree.nodes.size, []⟩
  above := d.here :: d.above
  sound :=
    { root_eq := d.sound.root_eq
      numbered := d.numbered_grow none (by simp [Site.entries, Branch.entriesOf])
      spine :=
        ⟨by simpa [Node.fresh] using Tree.getElem?_grow_self d.tree d.here_lt none,
          d.node_here_grow none, d.sound.spine.2.grow d.here_lt d.here_notMem.1⟩
      borne := by
        intro s hs
        rcases List.mem_cons.mp hs with rfl | hs
        · trivial
        · exact d.borne_grow none s hs }

/-- A new leaf in the innermost open list. -/
def leaf (text : String) : Draft where
  tree := d.tree.grow d.here.handle d.here_lt (some text)
  here := ⟨d.here.handle, d.here.items ++ [.leaf d.tree.nodes.size text]⟩
  above := d.above
  sound :=
    { root_eq := d.sound.root_eq
      numbered := d.numbered_grow (some text) (by
        simp [Site.entries, Branch.entriesOf, Branch.entries])
      spine :=
        ⟨by simpa [Branch.handle] using d.node_here_grow (some text),
          d.sound.spine.2.grow d.here_lt d.here_notMem.1⟩
      borne := by
        intro s hs
        rcases List.mem_cons.mp hs with rfl | hs
        · refine Tree.bearsAll_iff.mpr fun b hb => ?_
          rcases List.mem_append.mp hb with hb | hb
          · exact Tree.bearsAll_iff.mp (d.borne_grow _ _ List.mem_cons_self) b hb
          · rw [List.mem_singleton.mp hb]
            exact Tree.bears_leaf.mpr (Tree.getElem?_grow_self d.tree d.here_lt (some text))
        · exact d.borne_grow _ s (List.mem_cons_of_mem _ hs) }

/-- The innermost open list ends.  The root stays open.  No node changes; it is only that the list
is a branch of the list around it from then on. -/
def leave : Draft :=
  match h : d.above with
  | [] => d
  | s :: rest =>
    { tree := d.tree
      here := ⟨s.handle, s.items ++ [.list d.here.handle d.here.items]⟩
      above := rest
      sound := by
        have hs := d.sound
        rw [h] at hs
        refine ⟨hs.root_eq, ?_, ?_, ?_⟩
        · rw [← hs.numbered]
          simp [Site.handles, Site.entries, Branch.entriesOf, Branch.entries]
        · have := hs.spine.2
          exact ⟨by simpa [Branch.handle] using this.1, this.2⟩
        · intro x hx
          rcases List.mem_cons.mp hx with rfl | hx
          · refine Tree.bearsAll_iff.mpr fun b hb => ?_
            rcases List.mem_append.mp hb with hb | hb
            · exact Tree.bearsAll_iff.mp (hs.borne s (by simp)) b hb
            · rw [List.mem_singleton.mp hb]
              exact Tree.bears_list.mpr
                ⟨by simpa using hs.spine.1, hs.borne d.here List.mem_cons_self⟩
          · exact hs.borne x (by simp [hx]) }

@[simp] theorem tree_leave : d.leave.tree = d.tree := by
  unfold leave
  split <;> rfl

@[simp] theorem above_leave : d.leave.above = d.above.tail := by
  unfold leave
  split
  · rename_i h
    rw [h]
    rfl
  · rename_i s rest h
    exact (congrArg List.tail h).symm

/-- A list that ends becomes the last branch of the list that encloses it. -/
theorem here_leave {s : Site} {rest : List Site} (h : d.above = s :: rest) :
    d.leave.here = ⟨s.handle, s.items ++ [.list d.here.handle d.here.items]⟩ := by
  unfold leave
  split
  · rename_i h'
    rw [h] at h'
    cases h'
  · rename_i s' rest' h'
    rw [h] at h'
    cases h'
    rfl

@[simp] theorem level_enter : d.enter.level = d.level + 1 := rfl

@[simp] theorem level_leaf (s : String) : (d.leaf s).level = d.level := rfl

@[simp] theorem level_leave : d.leave.level = d.level - 1 := by
  simp [level]

end Draft

/-! ## 3. Strokes -/

/-- One step in the building of a tree.  There is no step that puts a node anywhere but at the end
of the innermost open list. -/
inductive Stroke where
  | enter
  | leaf (text : String)
  | leave
deriving DecidableEq, Repr

namespace Stroke

/-- The text that a stroke adds to the tree. -/
def text? : Stroke → Option String
  | .leaf s => some s
  | _ => none

/-- The strokes by which a line starts whose depth differs from that of the line before: one list
more for each level down, or one list less for each level up and one more, and a new list in place
of the one that the line before was in. -/
def line (depth tabs : Nat) : List Stroke :=
  if depth < tabs then List.replicate (tabs - depth) enter
  else List.replicate (depth - tabs + 1) leave ++ [enter]

/-- The start of a line adds no text. -/
theorem text?_line (depth tabs : Nat) : (line depth tabs).filterMap text? = [] := by
  unfold line
  split <;> simp [text?]

/-- The end of lists adds none. -/
theorem text?_leave (k : Nat) : (List.replicate k leave).filterMap text? = [] := by
  simp [text?]

end Stroke

namespace Draft

/-- A draft after one stroke. -/
def stroke (d : Draft) : Stroke → Draft
  | .enter => d.enter
  | .leaf s => d.leaf s
  | .leave => d.leave

/-- A draft after some strokes. -/
def draw (d : Draft) (strokes : List Stroke) : Draft :=
  strokes.foldl stroke d

variable (d : Draft)

@[simp] theorem draw_nil : d.draw [] = d := rfl

@[simp] theorem draw_cons (x : Stroke) (xs : List Stroke) :
    d.draw (x :: xs) = (d.stroke x).draw xs := rfl

@[simp] theorem draw_append (xs ys : List Stroke) :
    d.draw (xs ++ ys) = (d.draw xs).draw ys := List.foldl_append

@[simp] theorem stroke_enter : d.stroke .enter = d.enter := rfl

@[simp] theorem stroke_leaf (s : String) : d.stroke (.leaf s) = d.leaf s := rfl

@[simp] theorem stroke_leave : d.stroke .leave = d.leave := rfl

theorem level_draw_enter (k : Nat) :
    (d.draw (List.replicate k .enter)).level = d.level + k := by
  induction k generalizing d with
  | zero => rfl
  | succ k ih =>
    rw [List.replicate_succ, draw_cons, ih, stroke_enter, level_enter]
    omega

theorem level_draw_leave (k : Nat) :
    (d.draw (List.replicate k .leave)).level = d.level - k := by
  induction k generalizing d with
  | zero => rfl
  | succ k ih =>
    rw [List.replicate_succ, draw_cons, ih, stroke_leave, level_leave]
    omega

/-- Ending lists does not change the tree. -/
theorem tree_draw_leave (k : Nat) : (d.draw (List.replicate k .leave)).tree = d.tree := by
  induction k generalizing d with
  | zero => rfl
  | succ k ih => rw [List.replicate_succ, draw_cons, ih, stroke_leave, tree_leave]

/-- **The strokes of a line lead to the level that its tabs tell**, above which the same
parentheses are open as before. -/
theorem level_draw_line {depth tabs opened : Nat} (h : d.level = 1 + depth + opened)
    (ht : 0 < tabs) : (d.draw (Stroke.line depth tabs)).level = 1 + tabs + opened := by
  unfold Stroke.line
  split
  · rw [level_draw_enter]
    omega
  · rw [draw_append, draw_cons, draw_nil, stroke_enter, level_enter, level_draw_leave]
    omega

/-! ## 4. What a finished draft says -/

/-- The nodes of the tree in preorder. -/
def entries : List (Nat × Option String) :=
  Site.entries (d.here :: d.above)

theorem entries_enter : d.enter.entries = d.entries ++ [(d.tree.nodes.size, none)] := by
  simp [entries, enter, Site.entries, Branch.entriesOf]

theorem entries_leaf (s : String) :
    (d.leaf s).entries = d.entries ++ [(d.tree.nodes.size, some s)] := by
  simp [entries, leaf, Site.entries, Branch.entriesOf, Branch.entries]

theorem entries_leave : d.leave.entries = d.entries := by
  unfold entries leave
  split
  · rfl
  · rename_i s rest h
    simp [h, Site.entries, Branch.entriesOf, Branch.entries]

/-- The texts of the leaves, in preorder. -/
def texts : List String :=
  d.entries.filterMap Prod.snd

/-- **Strokes add their texts in the order in which they come.** -/
theorem texts_draw (xs : List Stroke) :
    (d.draw xs).texts = d.texts ++ xs.filterMap Stroke.text? := by
  induction xs generalizing d with
  | nil => simp
  | cons x xs ih =>
    rw [draw_cons, ih]
    cases x with
    | enter =>
      rw [List.filterMap_cons_none rfl, stroke_enter, texts, entries_enter]
      simp [texts]
    | leaf s =>
      rw [List.filterMap_cons_some (show (Stroke.leaf s).text? = some s from rfl), stroke_leaf,
        texts, entries_leaf]
      simp [texts]
    | leave => rw [List.filterMap_cons_none rfl, stroke_leave, texts, entries_leave, texts]

variable {d}

/-- The outermost list is the root. -/
theorem handle_here_of_level (h : d.level = 0) : d.here.handle = 0 := by
  have ha : d.above = [] := List.length_eq_zero_iff.mp h
  have hn := d.sound.numbered
  obtain ⟨m, hm⟩ := Nat.exists_eq_succ_of_ne_zero (Nat.ne_of_gt d.size_pos)
  rw [ha, hm, List.range_succ_eq_map] at hn
  simp only [Site.handles, Site.entries, List.nil_append, List.map_cons, List.cons.injEq] at hn
  exact hn.1

/-- **When every list but the root is ended, what the root holds is the whole tree.**  The arena
bears the root's branches then, and the root is a list of them. -/
theorem branchAt_zero (h : d.level = 0) : ∃ h0 : 0 < d.tree.nodes.size,
    d.tree.branchAt 0 h0 = .list 0 d.here.items := by
  have ha : d.above = [] := List.length_eq_zero_iff.mp h
  have hb : d.tree.Bears none (.list 0 d.here.items) := by
    have hx := d.node_here
    have hi := d.sound.borne d.here List.mem_cons_self
    rw [handle_here_of_level h] at hx hi
    rw [ha] at hx
    exact Tree.bears_list.mpr ⟨hx, hi⟩
  exact hb.branchAt_eq

theorem entries_draw_leave (d : Draft) (k : Nat) :
    (d.draw (List.replicate k .leave)).entries = d.entries := by
  induction k generalizing d with
  | zero => rfl
  | succ k ih => rw [List.replicate_succ, draw_cons, ih, stroke_leave, entries_leave]

/-- **A walk through the tree meets its nodes in the order in which they were drawn**, whichever
lists are still open: to end them does not change the tree, and after that the root holds
everything. -/
theorem entries_branchAt_zero (d : Draft) (h0 : 0 < d.tree.nodes.size) :
    (d.tree.branchAt 0 h0).entries = d.entries := by
  let closed := d.draw (List.replicate d.level .leave)
  have hl : closed.level = 0 := by
    rw [level_draw_leave, Nat.sub_self]
  have ha : closed.above = [] := List.length_eq_zero_iff.mp hl
  have ht : closed.tree = d.tree := d.tree_draw_leave d.level
  obtain ⟨h0', e⟩ := branchAt_zero hl
  have hb : (closed.tree.branchAt 0 h0').entries = closed.entries := by
    rw [e, entries, ha, Branch.entries, Site.entries, Site.entries, handle_here_of_level hl]
    rfl
  rw [d.entries_draw_leave] at hb
  revert h0'
  rw [ht]
  exact fun _ _ hb => hb

/-- **The nodes are numbered in preorder.** -/
theorem handles_branchAt_zero (d : Draft) (h0 : 0 < d.tree.nodes.size) :
    (d.tree.branchAt 0 h0).handles = List.range d.tree.nodes.size := by
  rw [Branch.handles, d.entries_branchAt_zero h0]
  exact d.sound.numbered

/-- The leaves hold the texts that were drawn. -/
theorem leaves_branchAt_zero (d : Draft) (h0 : 0 < d.tree.nodes.size) :
    (d.tree.branchAt 0 h0).leaves.map Prod.snd = d.texts := by
  rw [Branch.texts_leaves, d.entries_branchAt_zero h0, texts]

/-- Unwrapping keeps every leaf under the root. -/
theorem leaves_unwrap (d : Draft) :
    d.tree.unwrap.leaves = (d.tree.branchAt 0 d.size_pos).leaves := by
  have hroot : ∀ n (hn : n < d.tree.nodes.size), d.tree.root = n →
      d.tree.unwrap.leaves = (d.tree.branchAt n hn).leaves := by
    rintro n hn rfl
    exact d.tree.leaves_unwrap
  exact hroot 0 d.size_pos d.sound.root_eq

end Draft

/-! ## 5. Operations at the innermost open list -/

namespace Tree

theorem index_ok {t : Tree} {n : Nat} (hn : n < t.nodes.size) : t.index n = .ok ⟨n, hn⟩ := by
  simp [index, hn]

theorem listIndex_ok {t : Tree} {n : Nat} {p? : Option Nat} {cs : Array Nat}
    {refusal : String → Refusal} (hn : n < t.nodes.size) (h : t.nodes[n]? = some (.list p? cs)) :
    t.listIndex n refusal = .ok ⟨n, hn⟩ := by
  obtain ⟨_, hx⟩ := Array.getElem?_eq_some_iff.mp h
  simp [listIndex, index_ok hn, hx, Node.content?]

end Tree

namespace Draft

variable (d : Draft)

/-- Adding a list is `enter`. -/
theorem addList_here :
    Tree.addList d.here.handle d.tree = .ok d.enter.here.handle d.enter.tree := by
  simp only [Tree.addList, Tree.listIndex_ok d.here_lt d.node_here]
  rfl

/-- Adding a leaf is `leaf`. -/
theorem addLeaf_here (s : String) :
    Tree.addLeaf d.here.handle s d.tree = .ok () (d.leaf s).tree := by
  simp only [Tree.addLeaf, Tree.listIndex_ok d.here_lt d.node_here]
  rfl

variable {d}

/-- The innermost open list is under the one that encloses it, and so is not the root. -/
theorem here_ne_zero (h : d.level ≠ 0) : d.here.handle ≠ 0 := by
  intro h0
  cases ha : d.above with
  | nil => simp [level, ha] at h
  | cons s rest =>
    obtain ⟨hn, hx⟩ := Array.getElem?_eq_some_iff.mp d.node_here
    have hlt := (d.tree.linked _ hn).1 s.handle (by simp [hx, ha, Node.parent?])
    omega

/-- **The root is the list at level zero.** -/
theorem isRoot_here : d.tree.isRoot d.here.handle = true ↔ d.level = 0 := by
  rw [Tree.isRoot, d.sound.root_eq, decide_eq_true_eq]
  by_cases h : d.level = 0
  · simp [h, handle_here_of_level h]
  · simp [h, here_ne_zero h]

/-- Going up is `leave`. -/
theorem parent_here (h : d.level ≠ 0) :
    d.tree.parent d.here.handle = .ok d.leave.here.handle := by
  cases ha : d.above with
  | nil => simp [level, ha] at h
  | cons s rest =>
    obtain ⟨hn, hx⟩ := Array.getElem?_eq_some_iff.mp d.node_here
    have h0 : (d.here.handle : Int) ≠ (0 : Nat) := by
      have := here_ne_zero h
      omega
    simp only [Tree.parent, Tree.node, Tree.index_ok d.here_lt, d.sound.root_eq, if_neg h0]
    rw [hx, ha, here_leave d ha]
    rfl

/-- Going up several times is as many `leave`s, **as long as there are that many levels**.  Beyond
that a tree would refuse, where a draft stays at the root. -/
theorem ancestor_here {k : Nat} (h : k ≤ d.level) :
    d.tree.ancestor k d.here.handle =
      .ok (d.draw (List.replicate k .leave)).here.handle := by
  induction k generalizing d with
  | zero => rfl
  | succ k ih =>
    have hk : k ≤ d.leave.level := by
      rw [level_leave]
      omega
    rw [Tree.ancestor, parent_here (by omega), List.replicate_succ, draw_cons]
    simpa using ih hk

theorem addChain_here (k : Nat) :
    Tree.addChain k d.here.handle d.tree =
      .ok (d.draw (List.replicate (k + 1) .enter)).here.handle
        (d.draw (List.replicate (k + 1) .enter)).tree := by
  induction k generalizing d with
  | zero => exact d.addList_here
  | succ k ih =>
    rw [List.replicate_succ, draw_cons]
    have h := ih (d := d.enter)
    simp only [Tree.addChain, bind, EStateM.bind, d.addList_here]
    exact h

/-- **Opening a line is drawing its strokes**, and is never refused where the lists are open that
it has to end. -/
theorem openLine_here {depth tabs opened : Nat} (h : d.level = 1 + depth + opened)
    (ht : 0 < tabs) :
    Tree.openLine d.here.handle (.levels ((tabs : Nat) - depth)) d.tree =
      .ok (d.draw (Stroke.line depth tabs)).here.handle
        (d.draw (Stroke.line depth tabs)).tree := by
  unfold Stroke.line
  by_cases hlt : depth < tabs
  · have hk : ((tabs : Int) - depth).toNat - 1 + 1 = tabs - depth := by omega
    have hc := addChain_here (d := d) (((tabs : Int) - depth).toNat - 1)
    rw [if_pos hlt, Tree.openLine, if_pos (by omega), hc, hk]
  · have hk : (-((tabs : Int) - depth)).toNat + 1 = depth - tabs + 1 := by omega
    rw [if_neg hlt, Tree.openLine, if_neg (by omega), Tree.addBeside, hk,
      ancestor_here (by omega), draw_append, draw_cons, draw_nil, stroke_enter]
    have ha := (d.draw (List.replicate (depth - tabs + 1) .leave)).addList_here
    rw [tree_draw_leave] at ha
    exact ha

end Draft

end IndentLisp
