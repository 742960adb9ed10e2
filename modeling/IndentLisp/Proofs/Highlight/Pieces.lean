/-
# Pieces that cover a text

Highlighting loses nothing and repeats nothing: **the pieces of a text are not empty, each starts
where the ones before it end, and their texts join to the whole** (`covers_pieces`).  This holds of
any pieces that are cut off the front of a text one after another, and putting neighbours together
keeps it.

That it holds does not depend on the rules at all, since a piece is cut off the front of what is
left, however long a rule says it is.  So this module knows nothing of kinds, and what the pieces
are is said elsewhere.

The definition of pieces carries those that are already cut along; an induction on the text needs
the ones of the rest (`piecesFrom`), and it needs the offset that they start at.  `Tiles` is the
invariant in that form: pieces laid one after another from an offset on.  `Covers` is what it comes
to at offset zero, in terms that do not mention how the pieces were found.

A string is cut into several pieces, the quotes, the escapes and the runs between them.  To compare
pieces with tokens, those of a string are put together (`glue`), from its opening quote to the
closing one.  A string that is not closed is put together up to the end of the text.

* `tiles_piecesFrom`, `tiles_glue`: the invariant, and why putting together keeps it.
* `covers_pieces`, `covers_glue_pieces`: **the pieces cover the text**, put together or not.
-/
import IndentLisp.Highlight.Piece

namespace IndentLisp.Highlight

/-! ## 1. One piece after another -/

/-- The pieces of the rest of a text at an offset.  It is the definition of pieces without those
that are already cut, which is the form for an induction on the text. -/
def piecesFrom (mode : Mode) (before : Option Char) (offset : Nat) : List Char → List Piece
  | [] => []
  | c :: cs =>
    let (kind, n, mode) := frontPiece mode before c cs
    let taken := c :: cs.take (n - 1)
    ⟨offset, kind, String.ofList taken⟩ ::
      piecesFrom mode taken.getLast? (offset + taken.length) (cs.drop (n - 1))
termination_by cs => cs.length
decreasing_by
  simp only [List.length_cons, List.length_drop]
  omega

section Cutting

variable {mode next : Mode} {before : Option Char} {n : Nat} {c : Char} {cs : List Char}
    {kind : Kind}

@[simp] theorem piecesFrom_nil (mode : Mode) (before : Option Char) (offset : Nat) :
    piecesFrom mode before offset [] = [] := by
  rw [piecesFrom]

/-- The piece at the front, and those of what comes after it, where the rule says a length that is
neither zero nor beyond the text.  All rules do; for each of them that is shown where its piece is
looked at. -/
theorem piecesFrom_cons (h : frontPiece mode before c cs = (kind, n, next)) (hpos : 0 < n)
    (hle : n ≤ cs.length + 1) (offset : Nat) :
    piecesFrom mode before offset (c :: cs) =
      ⟨offset, kind, String.ofList ((c :: cs).take n)⟩ ::
        piecesFrom next ((c :: cs).take n).getLast? (offset + n) ((c :: cs).drop n) := by
  obtain ⟨n, rfl⟩ := Nat.exists_eq_add_one_of_ne_zero (Nat.ne_of_gt hpos)
  have hlen : (c :: cs.take n).length = n + 1 := by
    rw [List.length_cons, List.length_take, Nat.min_eq_left (Nat.le_of_succ_le_succ hle)]
  rw [piecesFrom, h]
  simp only [Nat.add_sub_cancel, List.take_succ_cons, List.drop_succ_cons, hlen]

theorem piecesOnto_eq (done : List Piece) (mode : Mode) (before : Option Char) (offset : Nat)
    (cs : List Char) :
    piecesOnto done mode before offset cs = done.reverse ++ piecesFrom mode before offset cs := by
  fun_induction piecesOnto done mode before offset cs with
  | case1 done mode before offset => rw [piecesFrom_nil, List.append_nil]
  | case2 done mode before offset c cs kind n next hfront taken ih =>
    rw [ih, piecesFrom, hfront, List.reverse_cons, List.append_assoc, List.singleton_append]

/-- The pieces of a text are those from its start on. -/
theorem pieces_eq (text : String) : pieces text = piecesFrom .outside none 0 text.toList :=
  piecesOnto_eq [] .outside none 0 text.toList

end Cutting

/-! ## 2. Pieces that cover a text -/

/-- Pieces that lie one after another, from an offset on, and make up a text.  Each piece has its
own offset, and the offset of the next one is where it ends. -/
inductive Tiles : Nat → List Piece → List Char → Prop
  | nil {offset : Nat} : Tiles offset [] []
  | cons {p : Piece} {ps : List Piece} {cs : List Char} :
      p.text ≠ "" → Tiles (p.offset + p.text.length) ps cs →
      Tiles p.offset (p :: ps) (p.text.toList ++ cs)

/-- Pieces that make up a text: their texts join to it, none of them is empty, and each starts where
the ones before it end.  So every character belongs to exactly one piece. -/
structure Covers (ps : List Piece) (text : String) : Prop where
  join_eq : String.join (ps.map Piece.text) = text
  offset_eq : ∀ front p rest, ps = front ++ p :: rest →
    p.offset = (String.join (front.map Piece.text)).length
  text_ne : ∀ p ∈ ps, p.text ≠ ""

namespace Tiles

variable {offset : Nat} {p : Piece} {ps front rest : List Piece} {cs : List Char}

theorem join_eq (h : Tiles offset ps cs) : (String.join (ps.map Piece.text)).toList = cs := by
  induction h with
  | nil => rfl
  | cons _ _ ih => rw [List.map_cons, String.join_cons, String.toList_append, ih]

theorem text_ne (h : Tiles offset ps cs) : ∀ p ∈ ps, p.text ≠ "" := by
  induction h with
  | nil => intro p hp; cases hp
  | cons hne _ ih =>
    intro p hp
    rcases List.mem_cons.mp hp with rfl | hp
    · exact hne
    · exact ih p hp

theorem offset_eq (h : Tiles offset (front ++ p :: rest) cs) :
    p.offset = offset + (String.join (front.map Piece.text)).length := by
  induction front generalizing offset cs with
  | nil =>
    cases h
    rfl
  | cons q front ih =>
    cases h with
    | cons _ h =>
      rw [ih h, List.map_cons, String.join_cons, String.length_append, Nat.add_assoc]

theorem covers {text : String} (h : Tiles 0 ps text.toList) : Covers ps text where
  join_eq := String.toList_injective h.join_eq
  offset_eq front p rest hps := by
    rw [hps] at h
    rw [h.offset_eq, Nat.zero_add]
  text_ne := h.text_ne

end Tiles

/-- **Pieces are laid one after another**, by induction on what is left. -/
theorem tiles_piecesFrom (mode : Mode) (before : Option Char) (offset : Nat) (cs : List Char) :
    Tiles offset (piecesFrom mode before offset cs) cs := by
  fun_induction piecesFrom mode before offset cs with
  | case1 => exact .nil
  | case2 mode before offset c cs kind n next hfront taken ih =>
    have hcs : c :: cs = (String.ofList taken).toList ++ cs.drop (n - 1) := by
      rw [String.toList_ofList, List.cons_append, List.take_append_drop]
    have hne : String.ofList taken ≠ "" := fun h => by
      simpa [taken] using congrArg String.toList h
    rw [hcs]
    refine Tiles.cons (p := ⟨offset, kind, String.ofList taken⟩) hne ?_
    rw [String.length_ofList]
    exact ih

/-! ## 3. Strings put together -/

/-- Whether a piece is the quote that opens or closes a string. -/
def Piece.isQuote (p : Piece) : Bool :=
  p.kind = .string && p.text = "\""

/-- A piece with the text of the next one added. -/
def Piece.join (p q : Piece) : Piece :=
  { p with text := p.text ++ q.text }

/-- The pieces with those of each string put together, from its opening quote to the closing one.
`some p` is the front of a string that is not closed yet.  A quote within a string is escaped and is
no piece of its own. -/
def glue : Option Piece → List Piece → List Piece
  | none, [] => []
  | some p, [] => [p]
  | none, q :: qs => if q.isQuote then glue (some q) qs else q :: glue none qs
  | some p, q :: qs => if q.isQuote then p.join q :: glue none qs else glue (some (p.join q)) qs

/-- Two neighbours put together lie where they lay. -/
theorem Tiles.join {offset : Nat} {p q : Piece} {qs : List Piece} {cs : List Char}
    (h : Tiles offset (p :: q :: qs) cs) : Tiles offset (p.join q :: qs) cs := by
  cases h with
  | @cons _ _ cs' hp h =>
    generalize hoffset : p.offset + p.text.length = next at h
    cases h with
    | @cons _ _ cs' hq h =>
      rw [← hoffset] at h
      have hne : (p.join q).text ≠ "" := by
        intro he
        have hnil : p.text.toList ++ q.text.toList = [] := by
          rw [← String.toList_append]
          exact congrArg String.toList he
        exact hp (String.toList_injective (List.append_eq_nil_iff.mp hnil).1)
      have htext : p.text.toList ++ (q.text.toList ++ cs') = (p.join q).text.toList ++ cs' := by
        rw [Piece.join, String.toList_append, List.append_assoc]
      rw [htext]
      refine Tiles.cons (p := p.join q) hne ?_
      rw [Piece.join, String.length_append, ← Nat.add_assoc]
      exact h

/-- **Putting strings together keeps pieces one after another**, where the front of an open string
counts as the piece before them.  Only neighbours are ever put together. -/
theorem tiles_glue {offset : Nat} {o : Option Piece} {ps : List Piece} {cs : List Char}
    (h : Tiles offset (o.toList ++ ps) cs) : Tiles offset (glue o ps) cs := by
  fun_induction glue o ps generalizing offset cs with
  | case1 => exact h
  | case2 p => exact h
  | case3 q qs hq ih => exact ih h
  | case4 q qs hq ih =>
    cases h with
    | cons hne h => exact .cons hne (ih h)
  | case5 p q qs hq ih =>
    have hjoin : Tiles offset (p.join q :: qs) cs := h.join
    cases hjoin with
    | cons hne hrest => exact .cons hne (ih hrest)
  | case6 p q qs hq ih => exact ih h.join

theorem tiles_pieces (text : String) : Tiles 0 (pieces text) text.toList := by
  rw [pieces_eq]
  exact tiles_piecesFrom .outside none 0 text.toList

/-- **The pieces of a text cover it**, -/
theorem covers_pieces (text : String) : Covers (pieces text) text :=
  (tiles_pieces text).covers

/-- and so do they with the strings put together. -/
theorem covers_glue_pieces (text : String) : Covers (glue none (pieces text)) text :=
  (tiles_glue (tiles_pieces text)).covers

end IndentLisp.Highlight
