/-
# Data as strokes

Any datum can be drawn: `Data.strokes` are the strokes that add it to the innermost open list.
**They add just that branch and end every list that they start** (`Draft.draw_strokes`), so what a
tree says does not depend on where in a text its strokes were found.

The proof is by recursion on the datum, with one statement for a datum and one for several in turn;
it says of a draft that after the strokes the same list is innermost, in the same lists, and says
one datum more.  Nothing is said of handles: what the strokes number is a matter of the draft.

From this a tree can be told from the strokes that drew it, whenever these are the strokes of data.
And a text can be compared with another one by the strokes of both: if they draw the same, they are
read to the same, whatever stands between their tokens.

* `Data.texts`: the texts of the leaves, which are those of the branch (`Branch.texts_data`).
* `Draft.said`: what the innermost open list says so far.
* `Draft.data_of_level`: what the tree says once every list but the root is ended.
* `Draft.data_draw`: what a tree says that starts with nothing and is drawn from data.
-/
import IndentLisp.Proofs.Tree.Draft

namespace IndentLisp

namespace Data

/-! ## 1. Texts and strokes -/

mutual

/-- The texts of the leaves from left to right. -/
def texts : Data → List String
  | .leaf s => [s]
  | .list items => textsOf items

/-- The texts of several data in turn. -/
def textsOf : List Data → List String
  | [] => []
  | x :: xs => x.texts ++ textsOf xs

end

mutual

/-- The strokes that add a datum to the innermost open list.  They start as many lists as they end,
and never go up beyond the list where they begin. -/
def strokes : Data → List Stroke
  | .leaf s => [.leaf s]
  | .list items => .enter :: (strokesOf items ++ [.leave])

/-- The strokes that add several data in turn. -/
def strokesOf : List Data → List Stroke
  | [] => []
  | x :: xs => x.strokes ++ strokesOf xs

end

/-- Unwrapping leaves nothing to unwrap. -/
theorem unwrap_unwrap (x : Data) : x.unwrap.unwrap = x.unwrap := by
  fun_induction unwrap x with
  | case1 x ih => exact ih
  | case2 x h => rw [unwrap.eq_2 x h]

end Data

/-- A branch has the texts of what it says. -/
theorem Branch.texts_data (b : Branch) : b.data.texts = b.leaves.map Prod.snd := by
  induction b using Branch.induction with
  | leaf n s => rfl
  | list n items ih =>
    rw [leaves_list, data, Data.texts]
    induction items with
    | nil => rfl
    | cons b bs ihl =>
      rw [dataOf, Data.textsOf, ih b List.mem_cons_self,
        ihl fun c hc => ih c (List.mem_cons_of_mem _ hc), List.flatMap_cons, List.map_append]

/-- The texts of what a subtree says are those of its leaves. -/
theorem Tree.texts_dataAt (t : Tree) (n : Nat) (hn : n < t.nodes.size) :
    (t.dataAt n hn).texts = (t.leavesOnto n hn []).map Prod.snd := by
  rw [dataAt_eq, Branch.texts_data, leavesOnto_eq, List.append_nil]

namespace Draft

/-! ## 2. Drawing data -/

/-- What the innermost open list says so far. -/
def said (d : Draft) : List Data :=
  d.here.items.map Branch.data

mutual

/-- **The strokes of a datum add just that datum** to what the innermost open list says, and leave
the same lists open.  Nothing is said of the nodes that they add, but what these say. -/
theorem draw_strokes (x : Data) (d : Draft) :
    (d.draw x.strokes).said = d.said ++ [x] ∧
      (d.draw x.strokes).here.handle = d.here.handle ∧ (d.draw x.strokes).above = d.above :=
  match x with
  | .leaf s => by
    simp [Data.strokes, said, leaf, Branch.data]
  | .list items => by
    obtain ⟨hs, hh, ha⟩ := draw_strokesOf items d.enter
    rw [Data.strokes, draw_cons, draw_append, stroke_enter, draw_cons, draw_nil, stroke_leave]
    have hl := here_leave (d.enter.draw (Data.strokesOf items)) ha
    refine ⟨?_, by rw [hl], ?_⟩
    · have hs : (d.enter.draw (Data.strokesOf items)).here.items.map Branch.data = items := hs
      rw [said, hl, List.map_append, List.map_singleton, Branch.data, Branch.dataOf_eq_map,
        hs, said]
    · rw [above_leave, ha]
      rfl

/-- The strokes of several data. -/
theorem draw_strokesOf (xs : List Data) (d : Draft) :
    (d.draw (Data.strokesOf xs)).said = d.said ++ xs ∧
      (d.draw (Data.strokesOf xs)).here.handle = d.here.handle ∧
      (d.draw (Data.strokesOf xs)).above = d.above :=
  match xs with
  | [] => by simp [Data.strokesOf]
  | x :: xs => by
    obtain ⟨hs, hh, ha⟩ := draw_strokes x d
    obtain ⟨hs', hh', ha'⟩ := draw_strokesOf xs (d.draw x.strokes)
    rw [Data.strokesOf, draw_append, hs', hs, hh', hh, ha', ha, List.append_assoc]
    exact ⟨rfl, rfl, rfl⟩

end

variable {d : Draft}

/-- The data under handle `0` are what the root says, once every other list is ended. -/
theorem dataAt_zero (h : d.level = 0) (h0 : 0 < d.tree.nodes.size) :
    d.tree.dataAt 0 h0 = .list d.said := by
  obtain ⟨_, hb⟩ := branchAt_zero h
  rw [Tree.dataAt_eq, hb, Branch.data, Branch.dataOf_eq_map, said]

/-- What the tree says once every list but the root is ended: all that the root holds, in order.
Unwrapping comes after that. -/
theorem data_of_level (h : d.level = 0) : d.tree.data = .list d.said := by
  have hroot : ∀ n (hn : n < d.tree.nodes.size), n = 0 → d.tree.dataAt n hn = .list d.said := by
    rintro n hn rfl
    exact dataAt_zero h hn
  exact hroot _ _ d.sound.root_eq

/-- What a tree says that is drawn from data. -/
theorem data_draw (xs : List Data) : (start.draw (Data.strokesOf xs)).tree.data = .list xs := by
  obtain ⟨hs, -, ha⟩ := draw_strokesOf xs start
  have hl : (start.draw (Data.strokesOf xs)).level = 0 := by
    rw [level, ha]
    rfl
  rw [data_of_level hl, hs]
  rfl

end Draft

end IndentLisp
