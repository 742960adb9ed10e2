/-
# Strokes that can be read off

Different strokes can lead to the same tree in two ways only: the root does not end, so that an end
too many is lost, and unwrapping takes lists away from around the root's only item.  **Up to that
the strokes can be read off what is said**, by the open lists at any time (`Draft.written_stroke`)
and by the finished tree in the end.

This is what a proof needs that two texts are *not* read to the same.  Two trees that are equal say
the same; then the strokes that drew them are the same, and so what the one text does at some point,
the other does as well.

The first of the two ways is no trouble, since a reader never ends the root.  The second is.
Unwrapping takes away as many lists on the one end as on the other (`Data.strokes_unwrap`), and from
the result nobody can tell how many.  But it can be told from the start of the strokes, if that is
known: both drawings start alike, and with something else than lists that start, so the same number
of lists was taken away from both (`Data.strokes_eq_of_unwrap`).

* `Draft.written`: the strokes that open lists tell.
* `Draft.written_line`: the start of a line is among them as it was drawn.
* `Data.leading`: how many lists strokes start before they do anything else.
-/
import IndentLisp.Proofs.Tree.Frame

namespace IndentLisp

namespace Data

/-! ## 1. Strokes of data -/

theorem strokesOf_append (xs ys : List Data) :
    strokesOf (xs ++ ys) = strokesOf xs ++ strokesOf ys := by
  induction xs with
  | nil => rfl
  | cons x xs ih => rw [List.cons_append, strokesOf, strokesOf, ih, List.append_assoc]

/-- **Unwrapping takes as many strokes away from the one end as from the other**: the start and the
end of each list around a lone item. -/
theorem strokes_unwrap (x : Data) :
    ∃ i, x.strokes = List.replicate i .enter ++ (x.unwrap.strokes ++ List.replicate i .leave) := by
  fun_induction unwrap x with
  | case1 x ih =>
    obtain ⟨i, hi⟩ := ih
    refine ⟨i + 1, ?_⟩
    rw [strokes, strokesOf, strokesOf, hi, List.replicate_succ, List.replicate_succ']
    simp only [List.append_assoc, List.append_nil, List.cons_append]
  | case2 x h => exact ⟨0, by simp⟩

/-- How many lists strokes start before they do anything else. -/
def leading (xs : List Stroke) : Nat :=
  (xs.takeWhile (· = .enter)).length

theorem leading_append {xs : List Stroke} (h : ∃ x ∈ xs, x ≠ .enter) (ys : List Stroke) :
    leading (xs ++ ys) = leading xs := by
  obtain ⟨x, hx, hne⟩ := h
  have hlen : (xs.takeWhile (· = .enter)).length ≠ xs.length := by
    intro hlen
    have hall : xs.takeWhile (· = .enter) = xs := (List.takeWhile_prefix _).eq_of_length hlen
    rw [← hall] at hx
    have := List.all_eq_true.mp List.all_takeWhile x hx
    exact hne (by simpa using this)
  rw [leading, leading, List.takeWhile_append, if_neg hlen]

theorem leading_enter (i : Nat) (xs : List Stroke) :
    leading (List.replicate i .enter ++ xs) = i + leading xs := by
  rw [leading, List.takeWhile_append_of_pos, List.length_append, List.length_replicate, leading]
  intro x hx
  exact decide_eq_true (List.eq_of_mem_replicate hx)

/-- A datum is not all lists that start. -/
theorem exists_mem_strokes (x : Data) : ∃ y ∈ x.strokes, y ≠ .enter := by
  cases x with
  | leaf s => exact ⟨.leaf s, by simp [strokes]⟩
  | list items => exact ⟨.leave, by simp [strokes]⟩

/-- **Data that are unwrapped to the same have the same strokes**, if their strokes start alike,
with something else than lists that start.  How many lists start before that is the same in both,
and so is the number of those that were taken away. -/
theorem strokes_eq_of_unwrap {x x' : Data} {front rest rest' : List Stroke}
    (h : x.unwrap = x'.unwrap) (hx : x.strokes = front ++ rest) (hx' : x'.strokes = front ++ rest')
    (hfront : ∃ y ∈ front, y ≠ .enter) : x.strokes = x'.strokes := by
  obtain ⟨i, hi⟩ := x.strokes_unwrap
  obtain ⟨i', hi'⟩ := x'.strokes_unwrap
  rw [← h] at hi'
  have hlead : ∀ j (y : Data),
      leading (List.replicate j .enter ++ (y.strokes ++ List.replicate j .leave)) =
      j + leading y.strokes := fun j y => by
    rw [leading_enter, leading_append y.exists_mem_strokes]
  have hsame : leading x.strokes = leading x'.strokes := by
    rw [hx, hx', leading_append hfront, leading_append hfront]
  rw [hi, hi', hlead, hlead] at hsame
  obtain rfl : i = i' := Nat.add_right_cancel hsame
  rw [hi, hi']

end Data

namespace Draft

/-! ## 2. Strokes of a draft -/

/-- The strokes by which open lists come to say what they say, the innermost first.  The root is one
of them, and its start is the first stroke. -/
def written : List (List Data) → List Stroke
  | [] => []
  | xs :: above => written above ++ .enter :: Data.strokesOf xs

variable {d : Draft}

/-- **A stroke comes after those that are written**, if it does not end the root.  A list that ends
is said by the list around it, where it is written from its start to its end. -/
theorem written_stroke {x : Stroke} (h : x = .leave → d.level ≠ 0) :
    written (d.stroke x).sayings = written d.sayings ++ [x] := by
  cases x with
  | enter =>
    rw [stroke_enter, sayings_enter]
    rfl
  | leaf s =>
    have hs : d.sayings = d.said :: d.above.map fun s => s.items.map Branch.data := rfl
    rw [stroke_leaf, sayings_leaf hs, hs, written, written, Data.strokesOf_append,
      List.append_assoc]
    rfl
  | leave =>
    cases ha : d.above with
    | nil => exact absurd (by rw [level, ha]; rfl) (h rfl)
    | cons s above =>
      have hs : d.sayings = d.said :: s.items.map Branch.data ::
          above.map fun s => s.items.map Branch.data := by
        rw [sayings, ha]
        rfl
      rw [stroke_leave, sayings_leave hs, hs, written, written, written, Data.strokesOf_append,
        Data.strokesOf, Data.strokes, Data.strokesOf]
      simp only [List.append_assoc, List.cons_append, List.append_nil]

theorem written_enter (k : Nat) :
    written (d.draw (List.replicate k .enter)).sayings =
      written d.sayings ++ List.replicate k .enter := by
  induction k with
  | zero => exact (List.append_nil _).symm
  | succ k ih =>
    rw [List.replicate_succ', draw_append, draw_cons, draw_nil,
      written_stroke (x := .enter) nofun, ih, List.append_assoc]

theorem written_leave {k : Nat} (h : k ≤ d.level) :
    written (d.draw (List.replicate k .leave)).sayings =
      written d.sayings ++ List.replicate k .leave := by
  induction k with
  | zero => exact (List.append_nil _).symm
  | succ k ih =>
    have hlevel : (d.draw (List.replicate k .leave)).level ≠ 0 := by
      rw [level_draw_leave]
      omega
    rw [List.replicate_succ', draw_append, draw_cons, draw_nil, written_stroke fun _ => hlevel,
      ih (Nat.le_of_succ_le h), List.append_assoc]

theorem written_line {depth tabs opened : Nat} (h : d.level = 1 + depth + opened) :
    written (d.draw (Stroke.line depth tabs)).sayings =
      written d.sayings ++ Stroke.line depth tabs := by
  unfold Stroke.line
  split
  · exact written_enter _
  · rw [draw_append, draw_cons, draw_nil, written_stroke (x := .enter) nofun,
      written_leave (by omega), List.append_assoc]

end Draft

end IndentLisp
