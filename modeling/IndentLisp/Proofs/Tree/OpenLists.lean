/-
# Open lists

The lists that are open in a draft are a stack of handles, the innermost one on top.  A stroke
starts a list with a new handle, ends the one on top, or leaves the stack alone.  So **a list that
is ended is never open again**, and one that stays open keeps the same lists around it.

What several strokes do to the stack is told by one number: how many of the lists that were open
have ended since (`Draft.Keeps`).  What stands above the others by then is new, with handles that
were not in use before.  From that number follows whether a given list is still open.  A list that
is open within so many others, with so many on top of it, stays open if no more end than stand on
top of it (`Draft.Keeps.openWithin`), and has ended otherwise (`Draft.Keeps.notMem`); and once it
has ended it is not open again, because lists that start have new handles
(`Draft.Keeps.notMem_of_notMem`).

What comes next to a list in the tree is decided at the moment after it ends.  The list around it is
then the innermost one, and has the list as its last child; so what is drawn there, if anything is,
becomes its next sibling (`Draft.nextSibling_leave`).  Siblings stay next to each other, as a list
only gets more children at its end.

* `Draft.spine`: the stack.
* `Draft.keeps_line`: how many lists the start of a line ends.
* `Draft.OpenWithin`: a list is open, and what stands on top of it is newer.
* `Tree.NextSibling`: one node comes right after another; it does so after one at most.
-/
import IndentLisp.Proofs.Tree.Forms

namespace IndentLisp

namespace Tree

variable {t t' : Tree} {q q' n n' m : Nat}

/-! ## 1. Siblings -/

/-- Node `m` comes right after node `n` among the children of node `q`. -/
def NextSibling (t : Tree) (q n m : Nat) : Prop :=
  ∃ before after, t.childList q = before ++ n :: m :: after

theorem NextSibling.mem (h : t.NextSibling q n m) : n ∈ t.childList q ∧ m ∈ t.childList q := by
  obtain ⟨before, after, h⟩ := h
  rw [h]
  simp

/-- Siblings stay where they are in a tree that only grows. -/
theorem NextSibling.grows (h : t.NextSibling q n m) (hg : t.Grows t') : t'.NextSibling q n m := by
  have hq : q < t.size := by
    refine Nat.lt_of_not_le ?_
    intro hle
    have hmem := h.mem.1
    rw [childList_of_le hle] at hmem
    exact absurd hmem List.not_mem_nil
  obtain ⟨before, after, h⟩ := h
  obtain ⟨more, hmore⟩ := hg.children_prefix q hq
  refine ⟨before, after ++ more, ?_⟩
  rw [← hmore, h]
  simp

/-- **A node comes right after one node at most**, and among the children of one list.  Children
stand in the order of their age, and each is a child of one list only. -/
theorem Arena.nextSibling_unique (ha : t.Arena) (h : t.NextSibling q n m)
    (h' : t.NextSibling q' n' m) : q = q' ∧ n = n' := by
  have hq : q = q' := by
    have hlink := ha.mem_childList_iff.mp h.mem.2
    have hlink' := ha.mem_childList_iff.mp h'.mem.2
    exact Option.some.inj (hlink.symm.trans hlink')
  subst hq
  refine ⟨rfl, ?_⟩
  have hnd : (t.childList q).Nodup := (ha.increasing q).imp Nat.ne_of_lt
  obtain ⟨before, after, hc⟩ := h
  obtain ⟨before', after', hc'⟩ := h'
  rw [← List.singleton_append, ← List.append_assoc] at hc hc'
  rw [hc] at hnd
  -- No child comes twice, so the two splits around `m` are the same.
  have hfront : m ∉ before ++ [n] :=
    fun hm => (List.nodup_append.mp hnd).2.2 m hm m List.mem_cons_self rfl
  have hback : m ∉ after := (List.nodup_cons.mp (List.nodup_append.mp hnd).2.1).1
  obtain ⟨hsame, -, -⟩ := (List.append_cons_inj_of_notMem hfront hback).mp (hc.symm.trans hc')
  exact List.head_eq_of_cons_eq (List.append_inj' hsame rfl).2

end Tree

namespace Draft

variable {d d' : Draft}

/-- A stroke only lets the tree grow. -/
theorem grows_stroke (d : Draft) (x : Stroke) : d.tree.Grows (d.stroke x).tree := by
  have hgrow : ∀ text?, d.tree.Grows (d.tree.grow d.here.handle d.here_lt text?) :=
    Tree.grows_grow d.textAt_here
  cases x with
  | enter => exact hgrow none
  | leaf s => exact hgrow (some s)
  | leave =>
    rw [stroke_leave, tree_leave]
    exact .refl d.tree

theorem grows_draw (d : Draft) (xs : List Stroke) : d.tree.Grows (d.draw xs).tree := by
  induction xs generalizing d with
  | nil => exact .refl d.tree
  | cons x xs ih => exact (d.grows_stroke x).trans (ih (d.stroke x))

/-- What is drawn has the next handle that is free, its text, and the innermost open list for its
parent. -/
theorem drawn_stroke (d : Draft) {x : Stroke} (hx : x ≠ .leave) :
    d.tree.size < (d.stroke x).tree.size ∧ (d.stroke x).tree.textAt d.tree.size = x.text? ∧
      (d.stroke x).tree.parentLink d.tree.size = some d.here.handle := by
  have hgrow : ∀ text?, d.tree.size < (d.tree.grow d.here.handle d.here_lt text?).size ∧
      (d.tree.grow d.here.handle d.here_lt text?).textAt d.tree.size = text? ∧
      (d.tree.grow d.here.handle d.here_lt text?).parentLink d.tree.size = some d.here.handle := by
    intro text?
    rw [Tree.size_grow, Tree.textAt_grow, if_pos rfl, Tree.parentLink_grow, if_pos rfl]
    exact ⟨Nat.lt_succ_self _, rfl, rfl⟩
  cases x with
  | enter => exact hgrow none
  | leaf s => exact hgrow (some s)
  | leave => exact absurd rfl hx

/-- **What is drawn after a list has ended is its next sibling**, in the list around it.  It makes
no difference what has been drawn within the list, or which strokes come later. -/
theorem nextSibling_leave (h0 : d.level ≠ 0) {x : Stroke} (hx : x ≠ .leave) :
    (d.leave.stroke x).tree.NextSibling d.leave.here.handle d.here.handle d.tree.size := by
  obtain ⟨s, rest, ha⟩ : ∃ s rest, d.above = s :: rest := by
    cases ha : d.above with
    | nil => simp [level, ha] at h0
    | cons s rest => exact ⟨s, rest, rfl⟩
  have hitems : d.leave.tree.childList d.leave.here.handle =
      s.items.map Branch.handle ++ [d.here.handle] := by
    rw [childList_here, here_leave d ha]
    simp [Branch.handle]
  have hgrow : ∀ text?,
      (d.leave.tree.grow d.leave.here.handle d.leave.here_lt text?).NextSibling
        d.leave.here.handle d.here.handle d.tree.size := by
    intro text?
    refine ⟨s.items.map Branch.handle, [], ?_⟩
    rw [Tree.childList_grow d.leave.textAt_here, hitems, if_pos rfl, tree_leave, List.append_assoc]
    rfl
  cases x with
  | enter => exact hgrow none
  | leaf s => exact hgrow (some s)
  | leave => exact absurd rfl hx

/-! ## 2. The stack of open lists -/

/-- The handles of the lists that are open, the innermost first.  The last one is that of the root,
which does not end. -/
def spine (d : Draft) : List Nat :=
  (d.here :: d.above).map Site.handle

@[simp] theorem length_spine (d : Draft) : d.spine.length = d.level + 1 := by
  simp [spine, level]

theorem spine_enter (d : Draft) : d.enter.spine = d.tree.size :: d.spine := rfl

theorem spine_leaf (d : Draft) (s : String) : (d.leaf s).spine = d.spine := rfl

theorem spine_leave (h : d.level ≠ 0) : d.leave.spine = d.spine.tail := by
  cases ha : d.above with
  | nil => simp [level, ha] at h
  | cons s rest => simp [spine, here_leave d ha, above_leave, ha]

theorem lt_of_mem_spine {n : Nat} (h : n ∈ d.spine) : n < d.tree.size := by
  obtain ⟨s, hs, rfl⟩ := List.mem_map.mp h
  have hmem := Site.handle_mem_handles hs
  rw [d.sound.numbered] at hmem
  exact List.mem_range.mp hmem

/-- Another draft whose open lists are those of this one but the `j` innermost, and new ones on top
of them.  New means that their handles were not in use in the first draft. -/
def Keeps (j : Nat) (d d' : Draft) : Prop :=
  ∃ front, d'.spine = front ++ d.spine.drop j ∧ ∀ n ∈ front, d.tree.size ≤ n

theorem Keeps.refl (d : Draft) : Keeps 0 d d :=
  ⟨[], rfl, by simp⟩

/-- A new list comes on top. -/
theorem Keeps.enter {j : Nat} (h : Keeps j d d') (hg : d.tree.Grows d'.tree) :
    Keeps j d d'.enter := by
  obtain ⟨front, hs, hf⟩ := h
  refine ⟨d'.tree.size :: front, ?_, ?_⟩
  · rw [spine_enter, hs, List.cons_append]
  · intro n hn
    rcases List.mem_cons.mp hn with rfl | hn
    · exact hg.size_le
    · exact hf n hn

theorem keeps_enter (d : Draft) (k : Nat) : Keeps 0 d (d.draw (List.replicate k .enter)) := by
  induction k with
  | zero => exact .refl d
  | succ k ih =>
    rw [List.replicate_succ', draw_append]
    exact ih.enter (d.grows_draw _)

theorem keeps_leave {k : Nat} (h : k ≤ d.level) : Keeps k d (d.draw (List.replicate k .leave)) := by
  refine ⟨[], ?_, by simp⟩
  induction k generalizing d with
  | zero => rfl
  | succ k ih =>
    have hk : k ≤ d.leave.level := by
      rw [level_leave]
      omega
    rw [List.replicate_succ, draw_cons, stroke_leave, ih hk, spine_leave (by omega), List.drop_tail]

/-- The start of a line ends a list for each level up, and one more for the line before.  Where it
goes down it ends none; the difference of natural numbers is zero then, as it should be. -/
theorem keeps_line {depth tabs opened : Nat} (h : d.level = 1 + depth + opened) (ht : 0 < tabs) :
    Keeps (depth + 1 - tabs) d (d.draw (Stroke.line depth tabs)) := by
  unfold Stroke.line
  split
  · rw [show depth + 1 - tabs = 0 by omega]
    exact keeps_enter d (tabs - depth)
  · rw [show depth + 1 - tabs = depth - tabs + 1 by omega, draw_append]
    exact (keeps_leave (by omega)).enter (d.grows_draw _)

/-! ## 3. A list that stays open, or ends -/

/-- List `p` is open right within the lists `base`, and the lists on top of it are newer.  The lists
around it are older, as they were open when it started. -/
def OpenWithin (d : Draft) (p : Nat) (base : List Nat) : Prop :=
  ∃ front, d.spine = front ++ p :: base ∧ (∀ n ∈ front, p < n) ∧ ∀ n ∈ base, n < p

variable {p : Nat} {base : List Nat} {j : Nat}

/-- A list that starts is open within all that were open. -/
theorem openWithin_enter (d : Draft) : d.enter.OpenWithin d.tree.size d.spine :=
  ⟨[], rfl, by simp, fun _ => lt_of_mem_spine⟩

theorem OpenWithin.lt (h : d.OpenWithin p base) : p < d.tree.size := by
  obtain ⟨front, hs, -⟩ := h
  exact lt_of_mem_spine (by simp [hs])

theorem OpenWithin.length_le (h : d.OpenWithin p base) : base.length ≤ d.level := by
  obtain ⟨front, hs, -⟩ := h
  have hlen := congrArg List.length hs
  simp only [length_spine, List.length_append, List.length_cons] at hlen
  omega

/-- It is the innermost one just if nothing is open within it. -/
theorem OpenWithin.here_eq_iff (h : d.OpenWithin p base) :
    d.here.handle = p ↔ d.level = base.length := by
  obtain ⟨front, hs, hf, -⟩ := h
  have hlen := congrArg List.length hs
  simp only [length_spine, List.length_append, List.length_cons] at hlen
  cases front with
  | nil =>
    have hhead : d.here.handle = p := List.head_eq_of_cons_eq hs
    exact iff_of_true hhead (by simpa using hlen)
  | cons n front =>
    have hhead : d.here.handle = n := List.head_eq_of_cons_eq hs
    have hlt : p < n := hf n List.mem_cons_self
    simp only [List.length_cons] at hlen
    exact iff_of_false (by omega) (by omega)

/-- **A list stays open if no more lists end than are open within it**, and the same lists stay
around it. -/
theorem Keeps.openWithin (h : d.OpenWithin p base) (hk : Keeps j d d')
    (hj : j + base.length ≤ d.level) :
    d'.OpenWithin p base := by
  have hlt := h.lt
  obtain ⟨front, hs, hf, hb⟩ := h
  obtain ⟨new, hs', hnew⟩ := hk
  have hlen := congrArg List.length hs
  simp only [length_spine, List.length_append, List.length_cons] at hlen
  refine ⟨new ++ front.drop j, ?_, ?_, hb⟩
  · rw [hs', hs, List.drop_append_of_le_length (by omega), List.append_assoc]
  · intro n hn
    rcases List.mem_append.mp hn with hn | hn
    · exact Nat.lt_of_lt_of_le hlt (hnew n hn)
    · exact hf n (List.mem_of_mem_drop hn)

/-- **And it ends if more do.** -/
theorem Keeps.notMem (h : d.OpenWithin p base) (hk : Keeps j d d')
    (hj : d.level < j + base.length) :
    p ∉ d'.spine := by
  have hlt := h.lt
  obtain ⟨front, hs, -, hb⟩ := h
  obtain ⟨new, hs', hnew⟩ := hk
  have hlen := congrArg List.length hs
  simp only [length_spine, List.length_append, List.length_cons] at hlen
  have hdrop : d.spine.drop j = base.drop (j - (front.length + 1)) := by
    obtain ⟨i, rfl⟩ : ∃ i, j = front.length + (i + 1) := ⟨j - (front.length + 1), by omega⟩
    rw [hs, List.drop_length_add_append, List.drop_succ_cons]
    congr 1
    omega
  rw [hs', hdrop]
  intro hp
  rcases List.mem_append.mp hp with hp | hp
  · exact absurd (hnew p hp) (Nat.not_le_of_lt hlt)
  · exact absurd (hb p (List.mem_of_mem_drop hp)) (Nat.lt_irrefl p)

/-- **A list that has ended is never open again**, as new lists have new handles. -/
theorem Keeps.notMem_of_notMem (hk : Keeps j d d') (hp : p ∉ d.spine) (hlt : p < d.tree.size) :
    p ∉ d'.spine := by
  obtain ⟨new, hs, hnew⟩ := hk
  rw [hs]
  intro hmem
  rcases List.mem_append.mp hmem with hmem | hmem
  · exact absurd (hnew p hmem) (Nat.not_le_of_lt hlt)
  · exact hp (List.mem_of_mem_drop hmem)

end Draft

end IndentLisp
