/-
# What was there before

Strokes act on the innermost open list and its parents.  **What the root holds already stays in
front of what is drawn after it** (`Draft.follows_draw`), so that the data of two drawings in turn
are those of the one and then those of the other (`Draft.said_draw`).

This is a frame property.  It is proved by keeping two drafts side by side, one in which something
was drawn before and one that starts with nothing: the same lists are open in both and say the same,
but that the root of the first said something before (`Draft.Follows`).  One stroke keeps that up,
by its three cases, and so any number of strokes does.  The one case that needs a look is the end of
a list: at the root it is lost in both drafts, since both have the same lists open.

Handles play no part here.  What is compared is what the open lists say (`Draft.sayings`), as the
two drafts number their nodes differently.

* `Draft.sayings`: what each open list says so far, the innermost first.
* `Draft.sayings_leave`: a list that ends is said by the list around it.
* `Draft.subtree_zero`: what the tree says under handle `0` in the end.
-/
import IndentLisp.Proofs.Tree.Strokes

namespace IndentLisp.Draft

variable (d : Draft)

/-! ## 1. What the open lists say -/

/-- What each open list says so far, the innermost first.  It is all that two drafts are compared
by, and it has no handles in it. -/
def sayings : List (List Data) :=
  (d.here :: d.above).map fun s => s.items.map Branch.data

theorem sayings_enter : d.enter.sayings = [] :: d.sayings :=
  rfl

variable {d}

theorem sayings_leaf {xs : List Data} {rest : List (List Data)} (h : d.sayings = xs :: rest)
    (s : String) : (d.leaf s).sayings = (xs ++ [.leaf s]) :: rest := by
  obtain ⟨hx, hr⟩ := List.cons.inj h
  simp only [sayings, leaf, List.map_cons, List.map_append, List.map_nil, Branch.data] at hx hr ⊢
  rw [hx, hr]

/-- A list that ends is said by the list around it. -/
theorem sayings_leave {xs ys : List Data} {rest : List (List Data)}
    (h : d.sayings = xs :: ys :: rest) :
    d.leave.sayings = (ys ++ [.list xs]) :: rest := by
  cases ha : d.above with
  | nil => simp [sayings, ha] at h
  | cons s above =>
    simp only [sayings, ha, List.map_cons, List.cons.injEq] at h
    obtain ⟨hx, hy, hr⟩ := h
    simp only [sayings, here_leave d ha, above_leave, ha, List.tail_cons, List.map_cons,
      List.map_append, List.map_nil, Branch.data, Branch.dataOf_eq_map, hx, hy, hr]

/-- The root does not end. -/
theorem sayings_leave_root {xs : List Data} (h : d.sayings = [xs]) : d.leave.sayings = [xs] := by
  have ha : d.above = [] := by
    simpa [sayings] using congrArg List.tail h
  have hleave : d.leave = d := by
    unfold leave
    split
    · rfl
    · rename_i s rest hs
      rw [ha] at hs
      cases hs
  rw [hleave, h]

/-! ## 2. A drawing after another -/

/-- Two drafts that have the same lists open and say the same, but that the root of the first one
said something before.  Which draft it is that starts with less is fixed by what was said before. -/
def Follows (before : List Data) (d d' : Draft) : Prop :=
  ∃ inner root, d.sayings = inner ++ [before ++ root] ∧ d'.sayings = inner ++ [root]

variable {d' : Draft} {before : List Data}

/-- **A stroke leaves alone what was there before.**  It changes the innermost list and the one
around it; if one of these is the root, what it said before is at the front, and the change is at
the end. -/
theorem follows_stroke (h : Follows before d d') (x : Stroke) :
    Follows before (d.stroke x) (d'.stroke x) := by
  obtain ⟨inner, root, h1, h2⟩ := h
  cases x with
  | enter =>
    refine ⟨[] :: inner, root, ?_, ?_⟩
    · rw [stroke_enter, sayings_enter, h1, List.cons_append]
    · rw [stroke_enter, sayings_enter, h2, List.cons_append]
  | leaf s =>
    cases inner with
    | nil =>
      refine ⟨[], root ++ [Data.leaf s], ?_, sayings_leaf h2 s⟩
      rw [← List.append_assoc]
      exact sayings_leaf h1 s
    | cons xs inner =>
      rw [List.cons_append] at h1 h2
      refine ⟨(xs ++ [Data.leaf s]) :: inner, root, ?_, ?_⟩
      · rw [List.cons_append, stroke_leaf, sayings_leaf h1]
      · rw [List.cons_append, stroke_leaf, sayings_leaf h2]
  | leave =>
    match inner with
    | [] => exact ⟨[], root, sayings_leave_root h1, sayings_leave_root h2⟩
    | [xs] =>
      refine ⟨[], root ++ [Data.list xs], ?_, sayings_leave h2⟩
      rw [← List.append_assoc]
      exact sayings_leave h1
    | xs :: ys :: inner =>
      rw [List.cons_append, List.cons_append] at h1 h2
      refine ⟨(ys ++ [Data.list xs]) :: inner, root, ?_, ?_⟩
      · rw [List.cons_append, stroke_leave, sayings_leave h1]
      · rw [List.cons_append, stroke_leave, sayings_leave h2]

/-- **And so do any number of strokes.** -/
theorem follows_draw (h : Follows before d d') (xs : List Stroke) :
    Follows before (d.draw xs) (d'.draw xs) := by
  induction xs generalizing d d' with
  | nil => exact h
  | cons x xs ih => exact ih (follows_stroke h x)

/-- At level zero the root alone is open. -/
theorem sayings_of_level (h : d.level = 0) : d.sayings = [d.said] := by
  have ha : d.above = [] := List.length_eq_zero_iff.mp h
  rw [sayings, ha]
  rfl

/-- **What is drawn after something is said after it**, if both drawings end every list that they
start. -/
theorem said_draw {xs : List Stroke} (h : d.level = 0) (hxs : (start.draw xs).level = 0) :
    (d.draw xs).said = d.said ++ (start.draw xs).said := by
  have hstart : Follows d.said d start := by
    refine ⟨[], [], ?_, rfl⟩
    rw [List.append_nil]
    exact sayings_of_level h
  obtain ⟨inner, root, h1, h2⟩ := follows_draw hstart xs
  rw [sayings_of_level hxs] at h2
  obtain ⟨rfl, hroot⟩ := List.append_eq_singleton_iff.mp h2.symm |>.resolve_right (by simp)
  obtain rfl : root = (start.draw xs).said := by simpa using hroot
  exact (List.cons.inj h1).1

/-! ## 3. What the tree says -/

/-- **The data under handle `0`** are what the root of a draft says once every other list is
ended. -/
theorem subtree_zero (h : d.level = 0) : d.tree.unwrap.subtree 0 = .ok (.list d.said) := by
  have h0 : 0 < d.tree.nodes.size := d.size_pos
  have h0' : 0 < d.tree.unwrap.nodes.size := h0
  have hindex : d.tree.unwrap.index 0 = .ok ⟨0, h0'⟩ := Tree.index_ok h0'
  have hdata : d.tree.unwrap.dataAt 0 h0' = .list d.said := by
    rw [← dataAt_zero h h0, Tree.dataAt_eq, Tree.dataAt_eq]
    exact congrArg Branch.data (d.tree.branchAt_unwrap 0 h0')
  simp only [Tree.subtree, hindex, hdata]

end IndentLisp.Draft
