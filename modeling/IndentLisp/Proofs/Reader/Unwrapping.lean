/-
# What unwrapping strips

The root moves down as long as it is a list of exactly one child (section 3, `collapse`).  **The way
that it takes is the only one that ends where unwrapping can go no further**
(`Tree.loneDown_settled_iff`), as each step of it is forced, and all that a tree answers afterwards
follows from the number of its steps.

No node is added, changed or taken away.  What changes is which node the answers are about: the data
lose one pair of parentheses for each step, the depths of the nodes below the new root lose as many
steps, and the nodes that the root has passed are no longer under it.  That the new root has no
parent is what the tree answers, whatever its links say.

The trees in question are all that a caller can come by (`Tree.Reachable`): a new tree, the tree
that a reading leaves, with success or not, and what any operation makes of one of these.  All of
them have links that agree.

* `Tree.LoneDown.unique`: there is one way down to where unwrapping ends.
* `Tree.LoneDown.dataAt`: each step takes one pair of parentheses off.
* `Tree.unwrap_unwrap`: a second unwrapping finds nothing to strip.
* `Tree.unwrap_strips`: **what unwrapping does to any of them**, and what its forms are.
-/
import Mathlib.Logic.Function.Iterate
import IndentLisp.Proofs.Reader.SourceOrder
import IndentLisp.Proofs.Tree.Levels
import IndentLisp.Proofs.Tree.Operations

namespace IndentLisp

namespace Tree

variable {t : Tree} {j k n m c : Nat}

/-! ## 1. The way down -/

/-- No step leads on from where unwrapping ends. -/
theorem Settled.childList_ne (h : t.Settled n) (hl : t.textAt n = none) : t.childList n ≠ [c] := by
  intro hc
  rcases h with h | h
  · exact h hl
  · exact h (by rw [hc]; rfl)

/-- **Ways that end at settled nodes are the same way**, as there is never a choice between two
steps, and neither can go on where the other ends. -/
theorem LoneDown.unique {n' : Nat} (h : t.LoneDown k m n) (h' : t.LoneDown j m n')
    (hn : t.Settled n) (hn' : t.Settled n') : j = k ∧ n' = n := by
  induction h generalizing j with
  | refl m =>
    cases h' with
    | refl => exact ⟨rfl, rfl⟩
    | step hl hc _ => exact absurd hc (hn.childList_ne hl)
  | step hl hc _ ih =>
    cases h' with
    | refl => exact absurd hc (hn'.childList_ne hl)
    | step _ hc' hrest =>
      obtain rfl := List.singleton_inj.mp (hc.symm.trans hc')
      obtain ⟨rfl, rfl⟩ := ih hrest hn
      exact ⟨rfl, rfl⟩

/-- **The root goes to the first settled node**, and it is only there that a way down through lists
of one child ends at one.  So the number of steps and the node are determined by the links. -/
theorem loneDown_settled_iff :
    t.LoneDown j t.root n ∧ t.Settled n ↔ j = t.loneSteps t.root ∧ n = t.unwrap.root := by
  obtain ⟨hdown, hsettled⟩ := t.loneDown_lone t.root t.root_lt
  constructor
  · rintro ⟨h, hn⟩
    exact hdown.unique h hsettled hn
  · rintro ⟨rfl, rfl⟩
    exact ⟨hdown, hsettled⟩

/-! ## 2. What is said below it -/

/-- A list of one child has the branch of that child in it, and nothing else. -/
theorem branchAt_of_singleton (hn : n < t.nodes.size) (h : t.childList n = [c])
    (hc : c < t.nodes.size) :
    t.branchAt n hn = .list n [t.branchAt c hc] := by
  cases hx : t.nodes[n] with
  | leaf p s =>
    rw [childList_of_leaf hn hx] at h
    cases h
  | list p? cs =>
    rw [childList_of_list hn hx] at h
    obtain rfl : cs = #[c] := Array.toList_inj.mp h
    exact branchAt_lone hn hx hc

/-- **Each step down takes one pair of parentheses off** what is said, and nothing else. -/
theorem LoneDown.dataAt (h : t.LoneDown k m n) (hm : m < t.nodes.size) (hn : n < t.nodes.size) :
    t.dataAt m hm = (fun x => Data.list [x])^[k] (t.dataAt n hn) := by
  induction h with
  | refl m => rfl
  | step _ hc hrest ih =>
    have hsize : _ < t.nodes.size := (lt_of_mem_childList (hc ▸ List.mem_singleton_self _)).2
    rw [Function.iterate_succ_apply', ← ih hsize hn, dataAt_eq, branchAt_of_singleton hm hc hsize,
      dataAt_eq]
    rfl

/-- A settled node is no list of one item. -/
theorem Settled.dataAt_ne (h : t.Settled n) (hn : n < t.nodes.size) (x : Data) :
    t.dataAt n hn ≠ .list [x] := by
  intro hx
  have hsays := t.says_dataAt n hn
  rw [hx] at hsays
  cases hsays with
  | list _ hl hitems =>
    rcases h with h | h
    · exact h hl
    · exact h hitems.length_eq

theorem data_unwrap_eq_dataAt (t : Tree) :
    t.unwrap.data = t.dataAt (t.lone t.root t.root_lt).1 (t.lone t.root t.root_lt).2 := by
  rw [data_unwrap, data, dataAt_lone]

/-- The leaves under the root stay, in their order. -/
theorem leaves_unwrap_eq (t : Tree) : t.unwrap.leaves = t.leaves := by
  rw [leaves_unwrap, leaves, leavesOnto_eq, List.append_nil]

/-- A second unwrapping finds nothing to strip. -/
theorem unwrap_unwrap (t : Tree) : t.unwrap.unwrap = t.unwrap := by
  have hsettled := (t.loneDown_lone t.root t.root_lt).2
  have hroot : t.unwrap.unwrap.root = t.unwrap.root :=
    (t.unwrap.loneDown_settled_iff.mp ⟨.refl _, hsettled⟩).2.symm
  have hsame : ∀ u v : Tree, u.nodes = v.nodes → u.root = v.root → u = v := by
    rintro ⟨nodes, root, hlt, hlinked⟩ ⟨nodes', root', hlt', hlinked'⟩ hnodes hroot
    obtain rfl : nodes = nodes' := hnodes
    obtain rfl : root = root' := hroot
    rfl
  exact hsame _ _ rfl hroot

/-! ## 3. The trees that a caller can come by -/

/-- A new tree, a tree that a reading left, whether it came to the end of its text or not, and such
a tree after an operation.  An operation may be refused, and the tree is then the same. -/
inductive Reachable : Tree → Prop
  | empty : Reachable empty
  | stop (text file : String) : Reachable (Reader.stop text file).tree
  | perform {t : Tree} (op : Operation) : Reachable t → Reachable (t.perform op)

/-- **Their links agree with each other.** -/
theorem Reachable.arena (h : t.Reachable) : t.Arena := by
  induction h with
  | empty => exact arena_empty
  | stop text file =>
    have hdraft : (draftOf text).tree.Arena := Draft.arena_draw arena_empty _
    obtain ⟨-, hok, herr⟩ := Reader.stop_eq text file
    by_cases ho : (scanText text).offence? = none
    · rw [hok ho]
      exact hdraft.unwrap
    · rw [herr ho]
      exact hdraft
  | perform op _ ih => exact ih.of_steps (steps_perform _ op)

theorem Reachable.run (h : t.Reachable) (ops : List Operation) : (t.run ops).Reachable := by
  induction ops generalizing t with
  | nil => exact h
  | cons op ops ih => exact ih (h.perform op)

theorem reachable_of_read {text file : String} (h : read text file = .ok t) : t.Reachable := by
  obtain ⟨ho, rfl⟩ := read_eq_ok_iff.mp h
  rw [← (Reader.stop_eq text file).2.1 ho]
  exact .stop text file

/-- **What unwrapping strips.**  Of any tree that a caller can come by only the root moves: through
lists of one child, to the first node that is no such list.  What the tree says loses a pair of
parentheses for each step, and has none left to lose; its leaves stay; each node below the new root
is nearer to it by the steps that were taken; the new root has no parent, whatever its links say,
and stays where it is when unwrapping comes again.  The forms are the children of a root that is
still handle `0`, and any other root is the one form. -/
theorem unwrap_strips (h : t.Reachable) :
    let steps := t.loneSteps t.root
    t.unwrap.nodes = t.nodes ∧
    (∀ j n, t.LoneDown j t.root n ∧ t.Settled n ↔ j = steps ∧ n = t.unwrap.root) ∧
    (t.unwrap.data = t.data.unwrap ∧ t.data = (fun x => Data.list [x])^[steps] t.unwrap.data ∧
      ∀ x, t.unwrap.data ≠ .list [x]) ∧
    t.unwrap.leaves = t.leaves ∧
    (∀ j n, t.Down j t.unwrap.root n → t.depth n = .ok (j + steps) ∧ t.unwrap.depth n = .ok j) ∧
    t.unwrap.parent t.unwrap.root = .error .noParent ∧
    t.unwrap.unwrap = t.unwrap ∧
    t.forms = (if t.root = 0 then t.childList 0 else [t.root]) := by
  intro steps
  have harena := h.arena
  obtain ⟨hdown, hsettled⟩ := t.loneDown_lone t.root t.root_lt
  refine ⟨rfl, fun j n => loneDown_settled_iff, ⟨t.data_unwrap, ?_, ?_⟩, t.leaves_unwrap_eq, ?_, ?_,
    t.unwrap_unwrap, ?_⟩
  · rw [data_unwrap_eq_dataAt]
    exact hdown.dataAt t.root_lt _
  · rw [data_unwrap_eq_dataAt]
    exact hsettled.dataAt_ne _
  · intro j n hj
    have hroot : t.Down (steps + j) t.root n := (t.down_lone t.root t.root_lt).trans hj
    rw [Nat.add_comm]
    exact ⟨harena.depth_of_down hroot, harena.unwrap.depth_of_down (down_unwrap.mpr hj)⟩
  · have hnode : t.unwrap.node t.unwrap.root = .ok t.unwrap.rootNode :=
      node_eq_ok_iff.mpr ⟨t.unwrap.root, rfl, Array.getElem?_eq_getElem t.unwrap.root_lt⟩
    rw [parent, hnode]
    exact if_pos rfl
  · rw [harena.forms_eq]
    by_cases h0 : t.root = 0
    · rw [if_pos h0, if_pos h0, h0]
    · rw [if_neg h0, if_neg h0]

/-- A pair in two lists of one item. -/
theorem unwrap_strips_nested_pair :
    let t := empty.run [.addList 0, .addList 1, .addLeaf 2 "a", .addLeaf 2 "b"]
    t.Reachable ∧ t.loneSteps t.root = 2 ∧ t.unwrap.root = 2 ∧ t.unwrap.depth 4 = .ok 1 ∧
      t.unwrap.parent t.unwrap.root = .error .noParent ∧ t.unwrap.forms = [2] := by
  intro t
  have h : t.Reachable := Reachable.empty.run _
  obtain ⟨-, hway, -, -, hdepth, hparent, -, -⟩ := unwrap_strips h
  have hdown : t.LoneDown 2 t.root 2 := .step rfl rfl (.step rfl rfl (.refl 2))
  obtain ⟨hsteps, hroot⟩ := (hway 2 2).mp ⟨hdown, .inr (by decide)⟩
  have hbelow : t.Down 1 t.unwrap.root 4 := by
    rw [← hroot]
    exact (Down.refl 2).step (by decide)
  have hmoved : t.unwrap.root ≠ 0 := by
    rw [← hroot]
    decide
  obtain ⟨-, -, -, -, -, -, -, hforms⟩ := unwrap_strips (h.perform .unwrap)
  have hone : t.unwrap.forms = [t.unwrap.root] := hforms.trans (if_neg hmoved)
  exact ⟨h, hsteps.symm, hroot.symm, (hdepth 1 4 hbelow).2, hparent, hone.trans (hroot ▸ rfl)⟩

end Tree

end IndentLisp
