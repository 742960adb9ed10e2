/-
# The forms of a tree

A root that is still handle `0` wraps the top-level forms, and any other root is the one form
itself.  **Which of the two it is, the number of forms tells**: unwrapping leaves handle `0` just
where that holds one item.

So to know what the forms of a text say it is enough to know what the root said before unwrapping.
If that was one datum, the lists around it are gone, and what is left is the one form; otherwise the
data are the forms (`Data.forms`).  In the first case the datum may be a leaf, which is then a form
that is no list, and this is the one kind of form that is not written in parentheses.

* `Tree.Arena.forms_eq`: the forms are the children of handle `0`, or else the root alone.
* `Tree.Arena.data_of_root_zero`, `Tree.Arena.formData_of_root_ne`: what they say, in both cases.
* `Tree.isLeaf_eq_true_iff`: a form that is a leaf says its text alone.
* `Draft.root_unwrap_eq_zero_iff`: when the root stays.
* `Draft.formData_unwrap`: **what the forms of a tree say, told from what was drawn.**

Whether a root is handle `0` is asked by its parent: only handle `0` is under nothing.  That takes
the agreement of the links, which every draft has (`Draft.arena_draw`).
-/
import Mathlib.Data.List.Basic
import IndentLisp.Proofs.Tree.Strokes
import IndentLisp.Proofs.Tree.Links

namespace IndentLisp

/-- What the forms of a tree say that was drawn from data: a lone datum stands without the lists
around it.  Several data are the forms as they are, and none at all are no forms. -/
def Data.forms : List Data → List Data
  | [x] => [x.unwrap]
  | xs => xs

theorem Data.forms_of_length_ne {xs : List Data} (h : xs.length ≠ 1) : Data.forms xs = xs := by
  match xs with
  | [] => rfl
  | [_] => exact absurd rfl h
  | _ :: _ :: _ => rfl

namespace Tree

variable {t : Tree}

/-! ## 1. Forms -/

theorem parentLink_root (t : Tree) : t.parentLink t.root = t.rootNode.parent? := by
  rw [parentLink, Array.getElem?_eq_getElem t.root_lt]
  rfl

theorem childList_root (t : Tree) : t.childList t.root = t.rootNode.children.toList := by
  rw [childList, Array.getElem?_eq_getElem t.root_lt]
  rfl

/-- Only handle `0` is under nothing. -/
theorem Arena.root_eq_zero_iff (h : t.Arena) : t.root = 0 ↔ t.rootNode.parent? = none := by
  rw [← parentLink_root]
  constructor
  · intro h0
    rw [h0]
    exact h.origin
  · intro hp
    refine Nat.eq_zero_of_not_pos fun hpos => ?_
    obtain ⟨p, -, hlink, -⟩ := h.parented t.root hpos t.root_lt
    rw [hp] at hlink
    cases hlink

/-- **The forms are the children of handle `0`**, or else the root alone.  Whether the root is
handle `0` can be asked of the tree by the root's link to a parent. -/
theorem Arena.forms_eq (h : t.Arena) :
    t.forms = if t.root = 0 then t.childList t.root else [t.root] := by
  have hroot := h.root_eq_zero_iff
  rw [childList_root]
  unfold forms
  cases hx : t.rootNode with
  | leaf p s =>
    rw [hx] at hroot
    rw [if_neg (by simp [hroot, Node.parent?])]
  | list p? cs =>
    rw [hx] at hroot
    cases p? with
    | none => rw [if_pos (hroot.mpr rfl), Node.children]
    | some p => rw [if_neg (by simp [hroot, Node.parent?])]

theorem subtree_eq {n : Nat} (hn : n < t.nodes.size) : t.subtree n = .ok (t.dataAt n hn) := by
  have hindex : t.index n = .ok ⟨n, hn⟩ := by
    simp [index, hn]
  simp only [subtree, hindex]

/-- What several nodes say. -/
theorem filterMap_subtree {ns : List Nat} (h : ∀ n ∈ ns, n < t.nodes.size) :
    (ns.filterMap fun (n : Nat) => (t.subtree n).toOption) =
      ns.attach.map fun n => t.dataAt n.1 (h n.1 n.2) := by
  calc
    ns.filterMap (fun (n : Nat) => (t.subtree n).toOption) =
        (ns.attach.map Subtype.val).filterMap fun (n : Nat) => (t.subtree n).toOption := by
      rw [List.attach_map_subtype_val]
    _ = ns.attach.filterMap (some ∘ fun n => t.dataAt n.1 (h n.1 n.2)) := by
      rw [List.filterMap_map]
      refine List.filterMap_congr ?_
      rintro ⟨n, hn⟩ -
      simp only [Function.comp_apply, subtree_eq (h n hn)]
      rfl
    _ = ns.attach.map fun n => t.dataAt n.1 (h n.1 n.2) :=
      congrFun List.filterMap_eq_map _

/-- **A root that is still handle `0` says what the forms say.** -/
theorem Arena.data_of_root_zero (h : t.Arena) (h0 : t.root = 0) : t.data = .list t.formData := by
  have hforms := h.forms_eq
  rw [if_pos h0, childList_root] at hforms
  have hparent := h.root_eq_zero_iff.mp h0
  rw [data, dataAt_eq, formData]
  cases hx : t.rootNode with
  | leaf p s =>
    rw [hx] at hparent
    cases hparent
  | list p? cs =>
    rw [hx] at hforms
    obtain ⟨hcs, hb⟩ := branchAt_list t.root_lt hx
    have hlt : ∀ c ∈ cs.toList, c < t.nodes.size := fun c hc => (hcs c hc).2
    rw [hforms, hb, Branch.data, Branch.dataOf_eq_map, List.map_map, Node.children,
      filterMap_subtree hlt]
    simp only [dataAt_eq]
    rfl

/-- Any other root is the one form. -/
theorem Arena.formData_of_root_ne (h : t.Arena) (h0 : t.root ≠ 0) : t.formData = [t.data] := by
  have hforms := h.forms_eq
  rw [if_neg h0] at hforms
  rw [formData, hforms, List.filterMap_cons_some (b := t.data), List.filterMap_nil]
  rw [subtree_eq t.root_lt]
  rfl

/-- Each form says something. -/
theorem Arena.length_formData (h : t.Arena) : t.formData.length = t.forms.length := by
  have hlt : ∀ n ∈ t.forms, n < t.nodes.size := by
    intro n hn
    rw [h.forms_eq] at hn
    split at hn
    · exact (lt_of_mem_childList hn).2
    · rw [List.mem_singleton.mp hn]
      exact t.root_lt
  rw [formData, filterMap_subtree hlt, List.length_map, List.length_attach]

/-- A form that is a leaf says its text alone. -/
theorem isLeaf_eq_true_iff {n : Int} :
    t.isLeaf n = .ok true ↔ ∃ s, t.subtree n = .ok (.leaf s) := by
  unfold isLeaf content node subtree
  cases hi : t.index n with
  | error e => simp [bind, Except.bind]
  | ok i =>
    obtain ⟨i, hlt⟩ := i
    have hb := dataAt_eq t i hlt
    cases hx : t.nodes[i] with
    | leaf p s =>
      rw [branchAt_leaf hlt hx, Branch.data] at hb
      simp [bind, Except.bind, pure, Except.pure, hb, hx, Node.content?]
    | list p? cs =>
      obtain ⟨hcs, e⟩ := branchAt_list hlt hx
      rw [e, Branch.data] at hb
      simp [bind, Except.bind, pure, Except.pure, hb, hx, Node.content?]

/-! ## 2. Where the root goes -/

/-- Unwrapping stays at a node just if it has not one child. -/
theorem lone_eq_iff {n : Nat} (hn : n < t.nodes.size) :
    (t.lone n hn).1 = n ↔ (t.childList n).length ≠ 1 := by
  constructor
  · intro he h1
    obtain ⟨c, hc⟩ := List.length_eq_one_iff.mp h1
    have hlt := (lt_of_mem_childList (hc ▸ List.mem_singleton_self c)).1
    obtain ⟨hsize, hlone, -⟩ := lone_of_singleton hn hc
    have hle := (t.down_lone c hsize).le
    rw [← hlone, he] at hle
    omega
  · intro h1
    exact (lone_of_length_ne hn h1).1

end Tree

/-! ## 3. Drafts -/

namespace Draft

variable {d : Draft}

theorem textAt_here (d : Draft) : d.tree.textAt d.here.handle = none := by
  rw [Tree.textAt, d.node_here]
  rfl

theorem childList_here (d : Draft) :
    d.tree.childList d.here.handle = d.here.items.map Branch.handle := by
  rw [Tree.childList, d.node_here]
  simp [Node.children]

/-- A stroke keeps the links in agreement, as a node that it adds is under a list. -/
theorem arena_stroke (h : d.tree.Arena) (x : Stroke) : (d.stroke x).tree.Arena := by
  have hgrow : ∀ text?, (d.tree.grow d.here.handle d.here_lt text?).Arena := h.grow d.textAt_here
  cases x with
  | enter => exact hgrow none
  | leaf s => exact hgrow (some s)
  | leave =>
    rw [stroke_leave, tree_leave]
    exact h

theorem arena_draw (h : d.tree.Arena) (xs : List Stroke) : (d.draw xs).tree.Arena := by
  induction xs generalizing d with
  | nil => exact h
  | cons x xs ih => exact ih (arena_stroke h x)

/-- **The root stays where it does not hold just one item.**  If it holds one, unwrapping goes down
at least one step and never comes back to handle `0`. -/
theorem root_unwrap_eq_zero_iff (hl : d.level = 0) :
    d.tree.unwrap.root = 0 ↔ d.said.length ≠ 1 := by
  have hchildren := d.childList_here
  rw [handle_here_of_level hl] at hchildren
  have hlone : ∀ n (hn : n < d.tree.nodes.size), n = 0 →
      ((d.tree.lone n hn).1 = 0 ↔ d.said.length ≠ 1) := by
    rintro n hn rfl
    rw [Tree.lone_eq_iff hn, hchildren, List.length_map, said, List.length_map]
  exact hlone _ _ d.sound.root_eq

/-- **What the forms of a tree say, told from what was drawn.**  Each of the two cases is one of the
root, and what was drawn tells which it is. -/
theorem formData_unwrap (ha : d.tree.Arena) (hl : d.level = 0) :
    d.tree.unwrap.formData = Data.forms d.said := by
  have hroot := root_unwrap_eq_zero_iff hl
  have hdata : d.tree.unwrap.data = (Data.list d.said).unwrap := by
    rw [Tree.data_unwrap, data_of_level hl]
  by_cases h1 : d.said.length = 1
  · obtain ⟨x, hx⟩ := List.length_eq_one_iff.mp h1
    rw [ha.unwrap.formData_of_root_ne (fun h0 => hroot.mp h0 h1), hdata, hx]
    rfl
  · rw [Data.unwrap_of_length_ne h1, ha.unwrap.data_of_root_zero (hroot.mpr h1)] at hdata
    rw [Data.forms_of_length_ne h1]
    exact Data.list.inj hdata

end Draft

end IndentLisp
