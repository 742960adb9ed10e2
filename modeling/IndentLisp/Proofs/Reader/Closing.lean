/-
# What a closing parenthesis closes

The specification lets a closing parenthesis in an indented block close an opening one of that
block, and reports one that has none to close (section 4).  What it does to the tree is simpler: it
ends the innermost open list, whatever opened that, a parenthesis or a line (`Reader.closeList`).
So what comes after it on its line stands next to that list.  **It is the list of the matching
parenthesis just if that stays open up to there and nothing is open within it.**

Where the two parentheses are on one line this is always so, since nothing but parentheses opens or
ends a list there.  Over several lines it depends on where the lines start.  A line within the
parentheses starts a list of its own, and a closing parenthesis on it ends the line and not the
list; a line that is less deep ends lists, and the one that the parenthesis opened may be among
them.

Matching is told by the text alone: the lexemes from the one parenthesis to the other are a list
with all that it holds.  That the reader counts the same is an induction over the turns
(`Reader.Spot.opened_of_matched`), in which the count of all open parentheses is compared with the
count of those within the pair.

* `lexemesAt_of_move`: the lexemes of a block, turn by turn, and wherever the text is cut.
* `Reader.Pair`: a pair of matching parentheses with an item after it on the same line.
* `Reader.Pair.node_eq_list_iff`: when the innermost list is that of the matching parenthesis.
* `read_next_sibling`: **next to which list that item stands.**
* `closing_ends_line`: the smallest text where it is another one.
-/
import IndentLisp.Proofs.Reader.Depth
import IndentLisp.Proofs.Reader.Spot

namespace IndentLisp

open Relation (ReflTransGen)

/-! ## 1. Lexemes of a block -/

namespace Lexeme

/-- A lexeme changes the count of all open parentheses as it does that of some of them, while one of
these is open. -/
theorem openAfter_sub {a opened : Nat} (h : a < opened) (x : Lexeme) :
    x.openAfter (opened - a) = x.openAfter opened - a := by
  cases x with
  | opening => exact (Nat.succ_sub (Nat.le_of_lt h)).symm
  | closing => exact Nat.sub_right_comm opened a 1
  | token => rfl

end Lexeme

section Turns

variable {n n' : Nesting} {c : Char} {cs : List Char} {v : Move}

/-- Blanks and line ends at the front are skipped. -/
theorem lexemesAt_gaps {gaps : List Char} (h : ∀ c ∈ gaps, c = ' ' ∨ c = '\t' ∨ c = '\n')
    (offset : Nat)
    (cs : List Char) : lexemesAt offset (gaps ++ cs) = lexemesAt (offset + gaps.length) cs := by
  induction gaps generalizing offset with
  | nil => rfl
  | cons c gaps ih =>
    rw [List.cons_append, lexemesAt_gap (h c List.mem_cons_self),
      ih fun d hd => h d (List.mem_cons_of_mem _ hd), List.length_cons, Nat.add_assoc,
      Nat.add_comm 1]

/-- A line has its length in any part of the text that holds it. -/
theorem lineLength_take {k : Nat} (hk : lineLength cs ≤ k) :
    lineLength (cs.take k) = lineLength cs := by
  obtain ⟨j, rfl⟩ := Nat.exists_eq_add_of_le hk
  rw [List.take_add, lineLength_append (notMem_line cs), length_line]
  intro c hc
  rcases drop_lineLength cs with hd | ⟨ds, hd⟩
  · simp [hd] at hc
  · rw [hd] at hc
    cases j with
    | zero => cases hc
    | succ j => exact (Option.some.inj hc).symm

/-- **What a turn of a block passes** is no lexeme, or one, by which the count of open parentheses
changes.  So it is wherever the text is cut after it, and the lexemes between two places can be told
turn by turn. -/
theorem lexemesAt_of_move (hv : move (some n) c cs = .ok v) (hn : v.next = some n')
    (offset k : Nat) :
    (n'.opened = n.opened ∧
      lexemesAt offset ((c :: cs).take (v.passed + k)) =
        lexemesAt (offset + v.passed) (((c :: cs).drop v.passed).take k)) ∨
      ∃ x : Lexeme, n'.opened = x.openAfter n.opened ∧
        lexemesAt offset ((c :: cs).take (v.passed + k)) =
          (lexemesAt (offset + v.passed) (((c :: cs).drop v.passed).take k)).map
            ((offset, x) :: ·) := by
  have hone : (c :: cs).take (1 + k) = c :: cs.take k := by
    rw [Nat.add_comm, List.take_succ_cons]
  cases turn_of_move hv with
  | opening =>
    cases hn
    refine Or.inr ⟨.opening, rfl, ?_⟩
    rw [hone, lexemesAt_opening]
    rfl
  | closing h0 =>
    cases hn
    refine Or.inr ⟨.closing, rfl, ?_⟩
    rw [hone, lexemesAt_closing]
    rfl
  | blank hc =>
    cases hn
    refine Or.inl ⟨rfl, ?_⟩
    rw [hone, lexemesAt_gap (by rcases hc with rfl | rfl <;> simp)]
    rfl
  | lineEnd =>
    refine Or.inl ⟨(next_breakLine hn).2, ?_⟩
    obtain ⟨i, j, rest, hcs, hp, -⟩ := n.exists_breakLine cs
    have hrun : (List.replicate (i + 1) '\n' ++ List.replicate j '\t').length = i + 1 + j := by simp
    rw [← List.append_assoc] at hcs
    rw [hp, hcs, ← hrun, List.drop_left, List.take_length_add_append]
    refine lexemesAt_gaps (fun d hd => ?_) offset _
    rcases List.mem_append.mp hd with hd | hd
    · exact Or.inr (Or.inr (List.eq_of_mem_replicate hd))
    · exact Or.inr (Or.inl (List.eq_of_mem_replicate hd))
  | comment =>
    cases hn
    refine Or.inl ⟨rfl, ?_⟩
    have htake : (';' :: cs).take (lineLength (';' :: cs) + 1 + k) =
        ';' :: cs.take (lineLength cs + 1 + k) := by
      rw [lineLength_comment, Nat.add_right_comm, List.take_succ_cons, Nat.add_right_comm]
    rw [htake, lexemesAt_comment, lineLength_take (by omega), lineLength_comment,
      List.drop_succ_cons, List.drop_take, Nat.add_sub_cancel_left]
  | @token _ _ _ j hc hj =>
    cases hn
    refine Or.inr ⟨.token (String.ofList ((c :: cs).take j)), rfl, ?_⟩
    have hpos := Token.length?_pos hj
    have ht := Token.length?_take hj (Nat.le_add_right j k)
    have hx : (c :: cs).take (j + k) = c :: cs.take (j + k - 1) := by
      rw [show j + k = j + k - 1 + 1 by omega, List.take_succ_cons]
      rfl
    rw [hx] at ht
    rw [hx, lexemesAt_token hc ht, ← hx, List.drop_take, List.take_take,
      Nat.add_sub_cancel_left, Nat.min_eq_left (Nat.le_add_right j k)]

/-- An item is drawn by one stroke, which adds a list or a token. -/
theorem strokes_of_item (hv : move (some n) c cs = .ok v) (hc : c = '(' ∨ Token.isStart c = true) :
    ∃ x : Stroke, v.strokes = [x] ∧ x ≠ .leave ∧
      x.text? = if c = '(' then none
        else (Token.length? (c :: cs)).map fun k => String.ofList ((c :: cs).take k) := by
  cases turn_of_move hv with
  | opening => exact ⟨.enter, rfl, by simp, rfl⟩
  | closing => rcases hc with hc | hc <;> cases hc
  | blank hb => rcases hb with rfl | rfl <;> rcases hc with hc | hc <;> cases hc
  | lineEnd => rcases hc with hc | hc <;> cases hc
  | comment => rcases hc with hc | hc <;> cases hc
  | token hs hk =>
    refine ⟨_, rfl, by simp, ?_⟩
    rw [if_neg (Token.isStart_iff.mp hs).1, hk]
    rfl

end Turns

/-! ## 2. Matching parentheses -/

namespace Reader.Spot

variable {s z : Spot} {d : Draft}

/-- **Matching parentheses**: where the lexemes up to a closing parenthesis close what is open
beyond `a` parentheses, and nothing before it does, the reader counts one more than `a` there.  If
they are all on one line, the depth is the same, and every turn spares the lists that are open
there. -/
theorem opened_of_matched {tail : List Char} (hz : z.ahead = ')' :: tail)
    (h : ReflTransGen Step s z)
    (hd : Shows d s) (hi : s.nesting.style = .indented) {a offset : Nat} {front : List Char}
    {ls : List (Nat × Lexeme)} (ha : s.ahead = front ++ z.ahead)
    (hl : lexemesAt offset (front ++ [')']) = some ls) :
    ls ≠ [] ∧ (a < s.nesting.opened →
      Lexeme.closesLast (s.nesting.opened - a) (ls.map Prod.snd) = true →
      z.nesting.opened = a + 1 ∧
      ('\n' ∉ front → z.nesting.depth = s.nesting.depth ∧
        ReflTransGen (Spares.Step (1 + s.nesting.depth + (a + 1))) s z)) := by
  induction h using ReflTransGen.head_induction_on generalizing d offset front ls with
  | refl =>
    obtain rfl : front = [] := by simpa using ha
    have hls : ls = [(offset, .closing)] := by
      rw [List.nil_append, lexemesAt_closing, lexemesAt_nil] at hl
      exact (Option.some.inj hl).symm
    subst hls
    refine ⟨by simp, ?_⟩
    intro hlt hclose
    have h1 : z.nesting.opened - a - 1 = 0 := by
      by_contra h0
      simp [Lexeme.closesLast, Lexeme.openAfter, h0] at hclose
    exact ⟨by omega, fun _ => ⟨rfl, .refl⟩⟩
  | @head s m hs hrest ih =>
    obtain ⟨c, cs, v, hc, hv, hn, hm, hd'⟩ := hd.step hs
    have hi' : m.nesting.style = .indented := (style_of_move hv hn).trans hi
    have hp : v.passed ≤ front.length := by
      have hle := length_le_of_steps hrest
      rw [hm, ha, hz, List.length_drop, List.length_append, List.length_cons] at hle
      omega
    have hm' : m.ahead = front.drop v.passed ++ z.ahead := by
      rw [hm, ha, List.drop_append_of_le_length hp]
    have htake : (c :: cs).take (v.passed + (front.length + 1 - v.passed)) = front ++ [')'] := by
      rw [← hc, ha, hz, Nat.add_sub_cancel' (by omega), List.take_length_add_append]
      rfl
    have hdrop : ((c :: cs).drop v.passed).take (front.length + 1 - v.passed) =
        front.drop v.passed ++ [')'] := by
      rw [← List.drop_append_of_le_length hp, ← htake, List.drop_take, Nat.add_sub_cancel_left]
    -- On one line the turn keeps the depth, and so spares what is open there.
    have hline : a < m.nesting.opened →
        ('\n' ∉ front.drop v.passed → z.nesting.depth = m.nesting.depth ∧
          ReflTransGen (Spares.Step (1 + m.nesting.depth + (a + 1))) m z) →
        '\n' ∉ front → z.nesting.depth = s.nesting.depth ∧
          ReflTransGen (Spares.Step (1 + s.nesting.depth + (a + 1))) s z := by
      intro hlt hrec hfront
      have hcn : c ≠ '\n' := by
        rintro rfl
        have hshort := hs.shortens
        rw [hc] at ha
        cases front with
        | nil => simp [hm', hc, ← ha] at hshort
        | cons f front => exact hfront (List.head_eq_of_cons_eq ha ▸ List.mem_cons_self)
      have hdepth := depth_of_move hv hn hcn
      obtain ⟨hz', hpath⟩ := hrec fun h => hfront (List.mem_of_mem_drop h)
      rw [hdepth] at hz' hpath
      refine ⟨hz', .head ⟨hs, (spares_iff hi' hc).mpr ?_⟩ hpath⟩
      rw [Nesting.spared, if_neg hcn, Nesting.level_of_indented hi', hdepth]
      exact Nat.add_le_add_left hlt _
    rcases lexemesAt_of_move hv hn offset (front.length + 1 - v.passed) with ⟨ho, hls⟩ |
      ⟨x, ho, hls⟩
    · rw [htake, hdrop, hl] at hls
      obtain ⟨hne, hrec⟩ := ih hd' hi' hm' hls.symm
      rw [ho] at hrec
      refine ⟨hne, ?_⟩
      intro hlt hclose
      obtain ⟨hz', hrec⟩ := hrec hlt hclose
      exact ⟨hz', hline (ho ▸ hlt) hrec⟩
    · rw [htake, hdrop, hl] at hls
      obtain ⟨ls', hl', rfl⟩ := Option.map_eq_some_iff.mp hls.symm
      obtain ⟨hne, hrec⟩ := ih hd' hi' hm' hl'
      refine ⟨by simp, ?_⟩
      intro hlt hclose
      rw [List.map_cons, Lexeme.closesLast, Lexeme.openAfter_sub hlt, ← ho] at hclose
      split at hclose
      · exact absurd (List.map_eq_nil_iff.mp (List.isEmpty_iff.mp hclose)) hne
      · have hlt' : a < m.nesting.opened := by omega
        obtain ⟨hz', hrec⟩ := hrec hlt' hclose
        exact ⟨hz', hline hlt' hrec⟩

/-- Blanks draw nothing. -/
theorem Shows.of_blanks {blanks : List Char} (hd : Shows d s)
    (hb : ∀ c ∈ blanks, c = ' ' ∨ c = '\t')
    (ha : s.ahead = blanks ++ z.ahead) (h : ReflTransGen Step s z) : Shows d z := by
  induction h using ReflTransGen.head_induction_on generalizing blanks with
  | refl => exact hd
  | @head s m hs hrest ih =>
    obtain ⟨c, cs, v, hc, hv, hn, hm, hd'⟩ := hd.step hs
    rw [hc] at ha hm
    cases blanks with
    | nil =>
      have hlt := hs.shortens
      have hle := length_le_of_steps hrest
      rw [hc, ha] at hlt
      exact absurd (Nat.lt_of_le_of_lt hle hlt) (Nat.lt_irrefl _)
    | cons b blanks =>
      obtain ⟨rfl, hcs⟩ := List.cons.inj ha
      rw [move_blank (hb c List.mem_cons_self)] at hv
      cases hv
      exact ih hd' (fun e he => hb e (List.mem_cons_of_mem _ he)) (hm.trans hcs)

theorem Step.unique {m m' : Spot} (h : Step s m) (h' : Step s m') : m = m' := by
  obtain ⟨hb, hr⟩ := EStateM.Result.ok.inj (h.symm.trans h')
  cases m
  cases m'
  exact congr (congrArg mk (Option.some.inj hb)) hr

end Reader.Spot

/-! ## 3. Pairs of parentheses -/

namespace Reader

/-- A pair of matching parentheses in an indented block of a text, with an item that follows on the
same line: the places of the two parentheses and of the item.  They match if the lexemes from the
one to the other are a parenthesis with all that comes up to the one that closes it.  A comment may
stand between them, and a parenthesis in it does not count. -/
structure Pair (text file : String) where
  opening : Spot
  closing : Spot
  next : Spot
  inner : List Char
  blanks : List Char
  first : Char
  rest : List Char
  visited : ∃ k, Visits text file k (some opening.block) opening.reader
  indented : opening.block.style = .indented
  inBlock : ReflTransGen Spot.Step opening closing
  onLine : ReflTransGen Spot.Step closing next
  opening_ahead : opening.ahead = '(' :: (inner ++ closing.ahead)
  closing_ahead : closing.ahead = ')' :: (blanks ++ next.ahead)
  next_ahead : next.ahead = first :: rest
  matched : ∃ ls, lexemesAt 0 ('(' :: (inner ++ [')'])) = some ls ∧
    Lexeme.isBlock (ls.map Prod.snd) = true
  blank : ∀ c ∈ blanks, c = ' ' ∨ c = '\t'
  item : first = '(' ∨ Token.isStart first = true

namespace Pair

variable {text file : String} (p : Pair text file)

/-- The handle of the list that the parenthesis opens: the next one that is free. -/
def list : Nat :=
  p.opening.reader.tree.size

/-- The handle of the item. -/
def itemNode : Nat :=
  p.next.reader.tree.size

/-- The text of the item, unless it is a list. -/
def itemText? : Option String :=
  if p.first = '(' then none
  else (Token.length? (p.first :: p.rest)).map fun k => String.ofList ((p.first :: p.rest).take k)

theorem level_opening : p.opening.level = 1 + p.opening.block.depth + p.opening.block.opened :=
  Nesting.level_of_indented p.indented

/-- Right after the parenthesis its list is open, and those are around it that were open before. -/
theorem exists_inside :
    ∃ (d : Draft) (inside : Spot), Spot.Shows d p.opening ∧ Spot.Shows d.enter inside ∧
    Spot.Spares.Step (p.opening.level + 1) p.opening inside ∧
    ReflTransGen Spot.Step inside p.closing ∧
    inside.ahead = p.inner ++ p.closing.ahead ∧
    inside.nesting = ⟨.indented, p.opening.block.depth, p.opening.block.opened + 1⟩ := by
  obtain ⟨k, hk⟩ := p.visited
  obtain ⟨m, hf, -⟩ := hk.fits
  obtain ⟨d, hd⟩ := Spot.exists_shows hf
  rcases p.inBlock.cases_head with h | ⟨inside, hs, hrest⟩
  · have ha := p.opening_ahead
    rw [h, p.closing_ahead] at ha
    cases ha
  · obtain ⟨c, cs, v, hc, hv, hn, ha, hd'⟩ := hd.step hs
    rw [p.opening_ahead] at hc ha
    obtain ⟨rfl, rfl⟩ := List.cons.inj hc
    simp only [IndentLisp.move, Nesting.move, Front.of_opening] at hv
    cases hv
    have hn : inside.nesting = ⟨.indented, p.opening.block.depth, p.opening.block.opened + 1⟩ := by
      rw [← p.indented]
      exact (Option.some.inj hn).symm
    refine ⟨d, inside, hd, hd', ⟨hs, ?_⟩, hrest, ha, hn⟩
    rw [Spot.spares_iff (by rw [hn]) p.opening_ahead, hn, p.level_opening]
    exact Nat.le_refl _

/-- **The count of open parentheses at the one that closes** is one more than before the one that
opens.  If the two are on one line, the depth is the same, and the list stays open in between. -/
theorem opened_closing : p.closing.block.opened = p.opening.block.opened + 1 ∧
    ('\n' ∉ p.inner → p.closing.block.depth = p.opening.block.depth ∧
      ReflTransGen (Spot.Spares.Step (p.opening.level + 1)) p.opening p.closing) := by
  obtain ⟨d, inside, hd, hd', hs, hrest, ha, hn⟩ := p.exists_inside
  obtain ⟨ls, hls, hblock⟩ := p.matched
  rw [lexemesAt_opening] at hls
  obtain ⟨ls', hls', rfl⟩ := Option.map_eq_some_iff.mp hls
  have hmatch := (Spot.opened_of_matched (a := p.opening.block.opened) p.closing_ahead hrest hd'
      (by rw [hn])
    ha hls').2
  simp only [hn, Nat.add_sub_cancel_left] at hmatch
  obtain ⟨hopened, hline⟩ := hmatch (Nat.lt_succ_self _) hblock
  refine ⟨hopened, ?_⟩
  intro h
  obtain ⟨hdepth, hpath⟩ := hline h
  refine ⟨hdepth, .head hs ?_⟩
  rw [p.level_opening]
  exact hpath

variable {t : Tree}

/-- **Where the item is drawn**: after the innermost list has ended, and before anything else is
drawn.  The blanks before the item draw nothing. -/
theorem exists_outside (h : read text file = .ok t) : ∃ (d : Draft) (x : Stroke) (xs : List Stroke),
    d.level ≠ 0 ∧ d.here.handle = p.closing.block.node ∧ d.tree.size = p.itemNode ∧ x ≠ .leave ∧
    x.text? = p.itemText? ∧ t = ((d.leave.stroke x).draw xs).tree.unwrap := by
  obtain ⟨d₀, inside, hd₀, -, -, -, -, -⟩ := p.exists_inside
  obtain ⟨d, hd⟩ := hd₀.steps p.inBlock
  have hi : p.closing.nesting.style = .indented :=
    (Spot.style_of_steps hd₀ p.inBlock).trans p.indented
  rcases p.onLine.cases_head with h' | ⟨outside, hs, hrest⟩
  · have ha := congrArg List.length p.closing_ahead
    rw [h'] at ha
    simp only [List.length_cons, List.length_append] at ha
    omega
  obtain ⟨c, cs, v, hc, hv, hn, ha, hd'⟩ := hd.step hs
  rw [p.closing_ahead] at hc ha
  obtain ⟨rfl, rfl⟩ := List.cons.inj hc
  have hleave : v.strokes = [.leave] ∧ v.passed = 1 := by
    cases turn_of_move hv with
    | closing => exact ⟨rfl, rfl⟩
    | blank hb => rcases hb with hb | hb <;> cases hb
    | token hb => exact absurd hb (by decide)
  rw [hleave.1] at hd'
  rw [hleave.2] at ha
  have hnext : Spot.Shows d.leave p.next := hd'.of_blanks p.blank ha hrest
  obtain ⟨k, hk⟩ := Spot.visits_of_steps (Spot.visits_of_steps p.visited p.inBlock) p.onLine
  obtain ⟨ho, ht⟩ := hnext.tree_of_read hk h
  rw [p.next_ahead] at ho ht
  have hlevel : d.level ≠ 0 := by
    rw [hd.level_eq, Spot.level, Nesting.level_of_indented hi]
    omega
  have hsize : d.tree.size = p.itemNode := by
    rw [itemNode, hnext.tree_eq, Draft.tree_leave]
  cases hv : IndentLisp.move (some p.next.nesting) p.first p.rest with
  | error o =>
    rw [scan] at ho
    split at ho
    · cases ho
    · rename_i v hv'
      rw [hv] at hv'
      cases hv'
  | ok v =>
    rw [scan_ok hv] at ht
    obtain ⟨x, hx, hne, htext⟩ := strokes_of_item hv p.item
    rw [Scan.after, hx] at ht
    exact ⟨d, x, _, hlevel, hd.node_eq.symm, hsize, hne, htext, ht⟩

/-- **The innermost list is that of the matching parenthesis** just if it stays open on the way, and
the line is as deep as where it was opened.  The counts of parentheses agree in any case, so it is
the depth that decides whether anything is open within the list. -/
theorem node_eq_list_iff : p.closing.block.node = p.list ↔
    p.closing.block.depth = p.opening.block.depth ∧
      ReflTransGen (Spot.Spares.Step (p.opening.level + 1)) p.opening p.closing := by
  obtain ⟨d, inside, hd, hd', hs, hrest, -, hn⟩ := p.exists_inside
  have hi : inside.nesting.style = .indented := by rw [hn]
  have hbase : d.spine.length = p.opening.level + 1 := by
    rw [Draft.length_spine, hd.level_eq]
  have hlist : p.list = d.tree.size := by
    rw [list, hd.tree_eq]
  have hclosing : p.closing.level = 1 + p.closing.block.depth + p.closing.block.opened :=
    Nesting.level_of_indented ((Spot.style_of_steps hd' hrest).trans hi)
  have hlevel : p.closing.level = p.opening.level + 1 ↔
      p.closing.block.depth = p.opening.block.depth := by
    rw [hclosing, p.level_opening, p.opened_closing.1]
    omega
  have hpath : ReflTransGen (Spot.Spares.Step (p.opening.level + 1)) p.opening p.closing ↔
      ReflTransGen (Spot.Spares.Step (p.opening.level + 1)) inside p.closing := by
    constructor
    · intro h
      rcases h.cases_head with h | ⟨inside', hs', hrest'⟩
      · have ha := p.opening_ahead
        rw [h, p.closing_ahead] at ha
        cases ha
      · exact hs.1.unique hs'.1 ▸ hrest'
    · intro h
      exact .head hs h
  rw [hlist, hd'.node_eq_iff hi d.openWithin_enter hrest, hbase, hlevel, hpath]

/-- The parenthesis opens a list in the one that is open there. -/
theorem list_of_read (h : read text file = .ok t) :
    t.textAt p.list = none ∧ t.parentLink p.list = some p.opening.block.node := by
  obtain ⟨d, inside, hd, hd', hs, -⟩ := p.exists_inside
  obtain ⟨k, hk⟩ := Spot.visits_of_steps p.visited (.single hs.1)
  obtain ⟨-, rfl⟩ := hd'.tree_of_read hk h
  have hgrows := (d.enter.grows_draw (scan (some inside.nesting) inside.ahead).strokes).trans
    (Tree.grows_unwrap _)
  obtain ⟨hlt, htext, hlink⟩ := d.drawn_stroke (x := .enter) (by simp)
  rw [list, hd.tree_eq, hd.node_eq]
  exact ⟨(hgrows.text_eq _ hlt).trans htext, (hgrows.parent_eq _ hlt).trans hlink⟩

end Pair

end Reader

/-! ## 4. Places by the number of turns -/

namespace Reader

/-- The place at the start of the block with which a text starts. -/
def Spot.first (text file : String) : Spot :=
  match startBlock (.ofText text file) with
  | .ok b r => ⟨b, r⟩
  | .error _ r => ⟨⟨.indented, 0, 0, 0⟩, r⟩

/-- The place after a number of turns, as far as the block goes. -/
def Spot.after : Nat → Spot → Spot
  | 0, s => s
  | k + 1, s =>
    match turn s.block s.reader with
    | .ok (some b) r => Spot.after k ⟨b, r⟩
    | _ => s

theorem Spot.steps_after (k : Nat) (s : Spot) : ReflTransGen Step s (s.after k) := by
  induction k generalizing s with
  | zero => exact .refl
  | succ k ih =>
    rw [after]
    split
    · rename_i b r hs
      exact ReflTransGen.head (show s.Step ⟨b, r⟩ from hs) (ih ⟨b, r⟩)
    · exact .refl

theorem Spot.visits_first {text : String} (file : String) (c : Char) (cs : List Char)
    (ha : Lines.unify text.toList = c :: cs) (hc : startsBlock c = true) :
    ∃ k, Visits text file k (some (first text file).block) (first text file).reader := by
  obtain ⟨v, b, r, -, hs, -⟩ := startBlock_of_fits (fits_ofText text file) ha hc
  rw [first, hs]
  exact ⟨1, .enter .start ha hc hs⟩

end Reader

/-! ## 5. Whole texts -/

/-- **A closing parenthesis in an indented block ends the innermost open list**, and the item that
comes next on the line is the next sibling of that list.  This is the list that the matching
parenthesis opened just if, from there on, the level of the block never falls below that list's,
line starts lead above it, and the closing parenthesis stands on a line as deep as that of the
opening one.  So it is where the two are on one line. -/
theorem read_next_sibling {text file : String} {t : Tree} (h : read text file = .ok t)
    (p : Reader.Pair text file) :
    (∃ q, t.NextSibling q p.closing.block.node p.itemNode) ∧
    (t.NextSibling p.opening.block.node p.list p.itemNode ↔
      p.closing.block.depth = p.opening.block.depth ∧
        ReflTransGen (Reader.Spot.Spares.Step (p.opening.level + 1)) p.opening p.closing) ∧
    ('\n' ∉ p.inner → t.NextSibling p.opening.block.node p.list p.itemNode) ∧
    t.textAt p.list = none ∧ t.textAt p.itemNode = p.itemText? := by
  have harena : t.Arena := by
    obtain ⟨-, rfl⟩ := read_eq_ok_iff.mp h
    exact (Draft.arena_draw Tree.arena_empty _).unwrap
  obtain ⟨hlist, hlink⟩ := p.list_of_read h
  obtain ⟨d, x, xs, h0, hnode, hsize, hx, htext, ht⟩ := p.exists_outside h
  have hgrows : (d.leave.stroke x).tree.Grows t := by
    rw [ht]
    exact ((d.leave.stroke x).grows_draw xs).trans (Tree.grows_unwrap _)
  have hbeside := (Draft.nextSibling_leave h0 hx).grows hgrows
  rw [hnode, hsize] at hbeside
  have hiff : t.NextSibling p.opening.block.node p.list p.itemNode ↔
      p.closing.block.depth = p.opening.block.depth ∧
        ReflTransGen (Reader.Spot.Spares.Step (p.opening.level + 1)) p.opening p.closing := by
    rw [← p.node_eq_list_iff]
    constructor
    · intro hnext
      exact (harena.nextSibling_unique hbeside hnext).2
    · intro hsame
      -- The list around the innermost one is the one in which the parenthesis stands.
      rw [hsame] at hbeside
      have hlink' := harena.mem_childList_iff.mp hbeside.mem.1
      rw [hlink] at hlink'
      rw [Option.some.inj hlink']
      exact hbeside
  refine ⟨⟨_, hbeside⟩, hiff, fun hline => hiff.mpr (p.opened_closing.2 hline), hlist, ?_⟩
  obtain ⟨hlt, hitem, -⟩ := d.leave.drawn_stroke hx
  rw [Draft.tree_leave, hsize] at hlt hitem
  rw [hgrows.text_eq _ hlt, hitem, htext]

/-- Lines in parentheses whose closing one stands on the line where they were opened, after those of
the line in between. -/
theorem read_next_sibling_over_lines : ∃ (t : Tree) (p : Reader.Pair "a\n\tb (c (\n\td) e) f" "f"),
    read "a\n\tb (c (\n\td) e) f" "f" = .ok t ∧ '\n' ∈ p.inner ∧ p.itemText? = some "f" ∧
      t.NextSibling p.opening.block.node p.list p.itemNode ∧ t.textAt p.itemNode = some "f" := by
  let p : Reader.Pair "a\n\tb (c (\n\td) e) f" "f" :=
    { opening := (Reader.Spot.first "a\n\tb (c (\n\td) e) f" "f").after 4
      closing := ((Reader.Spot.first "a\n\tb (c (\n\td) e) f" "f").after 4).after 9
      next := (((Reader.Spot.first "a\n\tb (c (\n\td) e) f" "f").after 4).after 9).after 2
      inner := "c (\n\td) e".toList
      blanks := [' ']
      first := 'f'
      rest := []
      visited := Reader.Spot.visits_of_steps
        (Reader.Spot.visits_first "f" 'a' "\n\tb (c (\n\td) e) f".toList (by decide +kernel)
          (by decide))
        (Reader.Spot.steps_after 4 _)
      indented := by decide +kernel
      inBlock := Reader.Spot.steps_after 9 _
      onLine := Reader.Spot.steps_after 2 _
      opening_ahead := by decide +kernel
      closing_ahead := by decide +kernel
      next_ahead := by decide +kernel
      matched := ⟨[(0, .opening), (1, .token "c"), (3, .opening), (6, .token "d"), (7, .closing),
        (9, .token "e"), (10, .closing)], by decide +kernel, by decide⟩
      blank := by simp
      item := Or.inr (by decide) }
  have hread : read "a\n\tb (c (\n\td) e) f" "f" =
      .ok (draftOf "a\n\tb (c (\n\td) e) f").tree.unwrap :=
    read_eq_ok_iff.mpr ⟨by decide +kernel, rfl⟩
  have hnode : p.closing.block.node = p.list := by decide +kernel
  obtain ⟨-, hiff, -, -, htext⟩ := read_next_sibling hread p
  have hitem : p.itemText? = some "f" := by decide +kernel
  exact ⟨_, p, hread, by decide, hitem, hiff.mpr (p.node_eq_list_iff.mp hnode), htext.trans hitem⟩

/-- Where a line starts between the parentheses and does not end before the closing one, that ends
the line. -/
theorem closing_ends_line : ∃ (t : Tree) (p : Reader.Pair "a (b\n\tc) d" "f"),
    read "a (b\n\tc) d" "f" = .ok t ∧ p.itemText? = some "d" ∧
      ¬ t.NextSibling p.opening.block.node p.list p.itemNode ∧
      t.data = .list [.leaf "a", .list [.leaf "b", .list [.leaf "c"], .leaf "d"]] := by
  let p : Reader.Pair "a (b\n\tc) d" "f" :=
    { opening := (Reader.Spot.first "a (b\n\tc) d" "f").after 2
      closing := ((Reader.Spot.first "a (b\n\tc) d" "f").after 2).after 4
      next := (((Reader.Spot.first "a (b\n\tc) d" "f").after 2).after 4).after 2
      inner := "b\n\tc".toList
      blanks := [' ']
      first := 'd'
      rest := []
      visited := Reader.Spot.visits_of_steps
        (Reader.Spot.visits_first "f" 'a' " (b\n\tc) d".toList (by decide +kernel) (by decide))
        (Reader.Spot.steps_after 2 _)
      indented := by decide +kernel
      inBlock := Reader.Spot.steps_after 4 _
      onLine := Reader.Spot.steps_after 2 _
      opening_ahead := by decide +kernel
      closing_ahead := by decide +kernel
      next_ahead := by decide +kernel
      matched := ⟨[(0, .opening), (1, .token "b"), (4, .token "c"), (5, .closing)],
        by decide +kernel, by decide⟩
      blank := by simp
      item := Or.inr (by decide) }
  refine ⟨(draftOf "a (b\n\tc) d").tree.unwrap, p, read_eq_ok_iff.mpr ⟨by decide +kernel, rfl⟩,
    by decide +kernel, fun h => ?_, by decide +kernel⟩
  have hmem : p.itemNode ∈ (draftOf "a (b\n\tc) d").tree.unwrap.childList p.opening.block.node :=
    h.mem.2
  revert hmem
  decide +kernel

end IndentLisp
