/-
# The depth of a token

How deep a token comes to lie can be told from its text by counting, block by block: a block that
starts with a parenthesis counts the parentheses that are open, and any other one counts its own
list, the tabs at the front of the line, and the parentheses that are open.  **The count is the
number of lists that are open below the root where the token is drawn** (`leafDepths_scan`), and
unwrapping takes its steps off.

So the depth of a token depends on the text before it, and on the whole text only through the number
of lists that are taken from around a lone item.  That number is one for all leaves, and it is not
larger than the depth of any (section 13, the second of the testable properties, in which the number
is left out).

The count is kept by a function of its own (`tokensAt`), which goes through the text as the rules
say and knows nothing of trees.  Each turn of the scan passes no token, or draws the one that it
passes (`tokensAt_of_move`); a token that is drawn lies one step below the innermost list.

The last part is about texts that are one list.  There parentheses alone count, and unwrapping takes
away the one list that is the root's only child, so the depth of a token is the number of
parentheses that are open before it.  The list must not hold just one item, since it would then be
taken away, too.

* `tokensAt`: the tokens of a text with their counts.
* `Lexeme.isBlock`, `Lexeme.tokensBelow`: texts that are one list, and what parentheses alone count
  in them.
* `read_depths`: **the depth of every leaf that is read.**
-/
import IndentLisp.Proofs.Reader.Layout
import IndentLisp.Proofs.Tree.Levels

namespace IndentLisp

/-! ## 1. Counting -/

/-- The block in which a text goes on after line ends, if it goes on in one: in a classic block
while a parenthesis is open, and in an indented one if tabs follow, which are its depth from there
on. -/
def Nesting.afterEnds (n : Nesting) (line : List Char) : Option Nesting :=
  match n.style with
  | .classic => if n.opened = 0 then none else some n
  | .indented =>
    if line.head? = some '\t' then some { n with depth := (line.takeWhile (· = '\t')).length }
    else none

/-- The tokens of what is left of a text, from within a block or from between blocks, each with the
level of its block there (`Nesting.level`).  A block starts at the first character that is no blank
and in no comment: a parenthesis makes it a classic one.  Its depth is the number of tabs after the
last line end that started a line of it; a line end that a comment takes along starts none. -/
def tokensAt : Option Nesting → List Char → List (String × Nat)
  | _, [] => []
  | none, c :: cs =>
    if c = ' ' ∨ c = '\t' ∨ c = '\n' then tokensAt none cs
    else if c = ';' then tokensAt none (cs.drop (lineLength cs))
    else if c = '(' then tokensAt (some ⟨.classic, 0, 1⟩) cs
    else tokensAt (some ⟨.indented, 0, 0⟩) (c :: cs)
  | some n, c :: cs =>
    if c = '(' then tokensAt (some { n with opened := n.opened + 1 }) cs
    else if c = ')' then tokensAt (some { n with opened := n.opened - 1 }) cs
    else if c = ' ' ∨ c = '\t' then tokensAt (some n) cs
    else if c = '\n' then
      let line := cs.drop (cs.takeWhile (· = '\n')).length
      tokensAt (n.afterEnds line) line
    else if c = ';' then tokensAt (some n) (cs.drop (lineLength cs + 1))
    else
      match h : Token.length? (c :: cs) with
      | some k =>
        have := Token.length?_pos h
        (String.ofList ((c :: cs).take k), n.level) :: tokensAt (some n) ((c :: cs).drop k)
      | none => []
termination_by m cs => 2 * cs.length + if m = none then 1 else 0
decreasing_by
  all_goals
    simp only [List.length_cons, List.length_drop, if_true, if_false]
    first
      | omega
      | split <;> omega

@[simp] theorem tokensAt_nil (m : Option Nesting) : tokensAt m [] = [] := by
  rw [tokensAt]

section Turns

variable {m : Option Nesting} {c : Char} {cs : List Char} {v : Move}

/-- Tabs in a line count for nothing. -/
theorem tokensAt_tabs (n : Nesting) (k : Nat) (cs : List Char) :
    tokensAt (some n) (List.replicate k '\t' ++ cs) = tokensAt (some n) cs := by
  induction k with
  | zero => rfl
  | succ k ih =>
    rw [List.replicate_succ, List.cons_append, tokensAt]
    simp [ih]

theorem tokensAt_ends (n : Nesting) (j : Nat) {rest : List Char} (hn : rest.head? ≠ some '\n') :
    tokensAt (some n) (List.replicate (j + 1) '\n' ++ rest) = tokensAt (n.afterEnds rest) rest := by
  rw [List.replicate_succ, List.cons_append, tokensAt]
  simp only [length_run j hn, drop_run]
  simp

/-- Line ends, and the tabs after them. -/
theorem tokensAt_breakLine (n : Nesting) (cs : List Char) :
    (n.breakLine ('\n' :: cs)).strokes.filterMap Stroke.text? = [] ∧
      tokensAt (some n) ('\n' :: cs) =
        tokensAt (n.breakLine ('\n' :: cs)).next
          (('\n' :: cs).drop (n.breakLine ('\n' :: cs)).passed) := by
  obtain ⟨j, rest, hcs, hn⟩ := exists_run_cons '\n' cs
  rw [hcs, tokensAt_ends n j hn]
  cases hs : n.style with
  | classic =>
    by_cases h0 : n.opened = 0
    · rw [Nesting.breakLine_last j hn (fun _ => h0) (by simp [hs]), drop_run]
      refine ⟨Stroke.text?_leave _, ?_⟩
      simp [Nesting.afterEnds, hs, h0]
    · rw [Nesting.breakLine_open j hs h0 hn, drop_run]
      refine ⟨rfl, ?_⟩
      simp [Nesting.afterEnds, hs, h0]
  | indented =>
    obtain ⟨k, rest, rfl, ht⟩ := exists_run '\t' rest
    cases k with
    | zero =>
      have ht' : (List.replicate 0 '\t' ++ rest).head? ≠ some '\t' := ht
      rw [Nesting.breakLine_last j hn (by simp [hs])
        (fun _ => ht'), drop_run, Nesting.afterEnds, hs]
      refine ⟨Stroke.text?_leave _, ?_⟩
      simp only [if_neg ht']
    | succ k =>
      have hnext : n.afterEnds (List.replicate (k + 1) '\t' ++ rest) =
          some { n with depth := k + 1 } := by
        simp only [Nesting.afterEnds, hs, length_run (k + 1) ht]
        simp [List.replicate_succ]
      rw [Nesting.breakLine_line j k hs ht, ← List.drop_drop, drop_run, drop_run, hnext,
        tokensAt_tabs]
      exact ⟨Stroke.text?_line n.depth (k + 1), rfl⟩

/-- **A turn passes no token, or draws the one that it passes** and counts nothing.  The level of a
token is the one before its turn, which is the one after it as well. -/
theorem tokensAt_of_move (h : move m c cs = .ok v) :
    (v.strokes.filterMap Stroke.text? = [] ∧
      tokensAt m (c :: cs) = tokensAt v.next ((c :: cs).drop v.passed)) ∨
    ∃ s, v.strokes = [.leaf s] ∧
      tokensAt m (c :: cs) = (s, levelOf m) :: tokensAt v.next ((c :: cs).drop v.passed) := by
  cases turn_of_move h with
  | gap hc => exact Or.inl ⟨rfl, by rcases hc with rfl | rfl | rfl <;> simp [tokensAt]⟩
  | remark =>
    refine Or.inl ⟨rfl, ?_⟩
    rw [lineLength_comment, List.drop_succ_cons, tokensAt]
    simp
  | classic => exact Or.inl ⟨rfl, by simp [tokensAt]⟩
  | indented hc ho =>
    refine Or.inl ⟨rfl, ?_⟩
    rw [List.drop_zero, tokensAt]
    simp [hc, ho]
  | opening => exact Or.inl ⟨rfl, by simp [tokensAt]⟩
  | closing h0 => exact Or.inl ⟨rfl, by simp [tokensAt]⟩
  | blank hc => exact Or.inl ⟨rfl, by rcases hc with rfl | rfl <;> simp [tokensAt]⟩
  | lineEnd => exact Or.inl (tokensAt_breakLine _ cs)
  | comment =>
    refine Or.inl ⟨rfl, ?_⟩
    rw [lineLength_comment, List.drop_succ_cons, tokensAt]
    simp
  | token hc hk =>
    obtain ⟨h1, h2, h3, h4, h5, h6⟩ := Token.isStart_iff.mp hc
    refine Or.inr ⟨_, rfl, ?_⟩
    rw [tokensAt]
    simp only [h1, h2, h3, h4, h5, h6, or_self, if_false]
    split
    · rename_i j hj
      rw [hk] at hj
      cases hj
      rfl
    · rename_i hj
      rw [hk] at hj
      cases hj

end Turns

/-- **A scan draws every token one step below the lists that are counted for it**, in a draft in
which as many lists are open as are counted at the start. -/
theorem leafDepths_scan {m : Option Nesting} {cs : List Char} {d : Draft} (ha : d.tree.Arena)
    (hl : d.level = levelOf m) (ho : (scan m cs).offence? = none) :
    (d.draw (scan m cs).strokes).leafDepths =
      d.leafDepths ++ (tokensAt m cs).map fun token => (token.1, .ok (token.2 + 1)) := by
  fun_induction scan m cs generalizing d with
  | case1 m =>
    rw [Draft.leafDepths_quiet ha (Stroke.text?_leave _), tokensAt_nil,
      List.map_nil, List.append_nil]
  | case2 m c cs o hv => cases ho
  | case3 m c cs v hv ih =>
    have hrest := ih (Draft.arena_draw ha v.strokes) (level_draw_move hv hl) ho
    rw [Scan.after, Draft.draw_append, hrest]
    rcases tokensAt_of_move hv with ⟨hs, ht⟩ | ⟨s, hs, ht⟩
    · rw [Draft.leafDepths_quiet ha hs, ht]
    · rw [hs, Draft.draw_cons, Draft.draw_nil, Draft.stroke_leaf, Draft.leafDepths_leaf ha, ht, hl,
        List.map_cons, List.append_assoc]
      rfl

/-! ## 2. A single list -/

namespace Lexeme

/-- Whether the last lexeme closes the last parenthesis that is open, and none before it does.  So
the lexemes are the rest of one list, and nothing comes after it. -/
def closesLast (opened : Nat) : List Lexeme → Bool
  | [] => false
  | x :: xs => if x.openAfter opened = 0 then xs.isEmpty else closesLast (x.openAfter opened) xs

/-- Whether lexemes are a parenthesis with all that comes up to the one that closes it. -/
def isBlock : List Lexeme → Bool
  | .opening :: xs => closesLast 1 xs
  | _ => false

/-- The tokens among lexemes, each with the number of parentheses that are open there.  This is the
count of the testable property, for a text in which parentheses alone nest. -/
def tokensBelow (opened : Nat) : List Lexeme → List (String × Nat)
  | [] => []
  | .token s :: xs => (s, opened) :: tokensBelow opened xs
  | x :: xs => tokensBelow (x.openAfter opened) xs

/-- Nothing stands outside a list, and nothing closes more than it. -/
theorem findings_of_closesLast {opened : Nat} {xs : List Lexeme} (h0 : opened ≠ 0)
    (h : closesLast opened xs = true) :
    enclosed opened xs = true ∧ findings opened xs = (xs.map stroke, none) := by
  induction xs generalizing opened with
  | nil => cases h
  | cons x xs ih =>
    rw [findings_cons (fun hx => h0 hx.2), List.map_cons]
    rw [closesLast] at h
    split at h
    · rename_i hx
      obtain rfl : xs = [] := List.isEmpty_iff.mp h
      cases x with
      | closing =>
        have h1 : opened - 1 = 0 := hx
        simp [enclosed, findings, openAfter, h1]
      | opening => cases hx
      | token s => exact absurd hx h0
    · rename_i hx
      obtain ⟨he, hf⟩ := ih hx h
      rw [hf]
      refine ⟨?_, rfl⟩
      cases x with
      | closing =>
        have hrest : enclosed (opened - 1) xs = true := he
        simp [enclosed, hrest]
      | opening => exact he
      | token s =>
        have hrest : enclosed opened xs = true := he
        simp [enclosed, h0, hrest]

end Lexeme

namespace Draft

variable {d : Draft} {xs : List Lexeme}

/-- Where parentheses alone nest, they are what is counted. -/
theorem leafDepths_lexemes (ha : d.tree.Arena) :
    (d.draw (xs.map Lexeme.stroke)).leafDepths =
      d.leafDepths ++ (Lexeme.tokensBelow d.level xs).map fun token =>
        (token.1, .ok (token.2 + 1)) := by
  induction xs generalizing d with
  | nil => simp [Lexeme.tokensBelow]
  | cons x xs ih =>
    rw [List.map_cons, draw_cons, ih (arena_stroke ha x.stroke)]
    cases x with
    | opening => rw [Lexeme.stroke, stroke_enter, leafDepths_enter ha]; rfl
    | closing => rw [Lexeme.stroke, stroke_leave, leafDepths_leave, level_leave]; rfl
    | token s =>
      rw [Lexeme.stroke, stroke_leaf, leafDepths_leaf ha, level_leaf, Lexeme.tokensBelow,
        List.map_cons, List.append_assoc]
      rfl

/-- Within a list nothing is added to the root. -/
theorem childList_zero_draw (h0 : d.level ≠ 0) (h : Lexeme.closesLast d.level xs = true) :
    (d.draw (xs.map Lexeme.stroke)).tree.childList 0 = d.tree.childList 0 := by
  have hgrow : ∀ {d : Draft} text?, d.level ≠ 0 →
      (d.tree.grow d.here.handle d.here_lt text?).childList 0 = d.tree.childList 0 := by
    intro d text? h0
    rw [Tree.childList_grow d.textAt_here, if_neg (Ne.symm (here_ne_zero h0)), List.append_nil]
  induction xs generalizing d with
  | nil => rfl
  | cons x xs ih =>
    have hlevel : (d.stroke x.stroke).level = x.openAfter d.level := by
      cases x with
      | opening => exact d.level_enter
      | closing => exact d.level_leave
      | token s => exact d.level_leaf s
    have hsame : (d.stroke x.stroke).tree.childList 0 = d.tree.childList 0 := by
      cases x with
      | opening => exact hgrow none h0
      | closing => exact congrArg (fun t : Tree => t.childList 0) d.tree_leave
      | token s => exact hgrow (some s) h0
    rw [Lexeme.closesLast] at h
    rw [List.map_cons, draw_cons]
    split at h
    · obtain rfl : xs = [] := List.isEmpty_iff.mp h
      exact hsame
    · rename_i hx
      rw [← hlevel] at hx h
      rw [ih hx h, hsame]

end Draft

/-! ## 3. Whole texts -/

theorem Tree.children_eq {t : Tree} {n : Nat} (hn : n < t.nodes.size) :
    t.children n = .ok (t.childList n).toArray := by
  rw [children, node_eq_ok_iff.mpr ⟨n, rfl, Array.getElem?_eq_getElem hn⟩, childList,
    Array.getElem?_eq_getElem hn]
  rfl

/-- The leaves of a tree that was read, before the root moved. -/
theorem leafDepths_draftOf {text : String} (ho : (scanText text).offence? = none) :
    (draftOf text).leafDepths =
      (tokensAt none (Lines.unify text.toList)).map fun token => (token.1, .ok (token.2 + 1)) :=
  leafDepths_scan Tree.arena_empty rfl ho

/-- A text that is a list is drawn as its lexemes say, and all of it below handle `1`. -/
theorem draftOf_block {text : String} {ls : List (Nat × Lexeme)}
    (hl : lexemesAt 0 (Lines.unify text.toList) = some ls)
    (hb : Lexeme.isBlock (ls.map Prod.snd) = true) :
    draftOf text = Draft.start.draw ((ls.map Prod.snd).map Lexeme.stroke) ∧
      (draftOf text).tree.childList 0 = [1] := by
  generalize hxs : ls.map Prod.snd = xs at hb
  match xs, hb with
  | .opening :: xs, hb =>
    have hclose : Lexeme.closesLast 1 xs = true := hb
    obtain ⟨he, hf⟩ := Lexeme.findings_of_closesLast Nat.one_ne_zero hclose
    have hfirst : Lexeme.findings 0 (.opening :: xs) =
        ((.opening :: xs).map Lexeme.stroke, none) := by
      rw [Lexeme.findings_cons (by simp), Lexeme.openAfter, hf]
      rfl
    have hscan : (scanText text).Fulfils 0 ls (Lexeme.findings 0 (ls.map Prod.snd)) := by
      refine scan_fulfils isClassic_none hl ?_
      rw [hxs]
      exact he
    rw [hxs, hfirst] at hscan
    obtain ⟨hstrokes, -⟩ := Prod.mk.inj hscan
    have hdraw : draftOf text = Draft.start.draw ((.opening :: xs).map Lexeme.stroke) :=
      congrArg Draft.start.draw hstrokes
    refine ⟨hdraw, ?_⟩
    rw [hdraw, List.map_cons, Draft.draw_cons]
    exact Draft.childList_zero_draw Nat.one_ne_zero hclose

/-- **The depth of every leaf that is read is one more than what is counted for its token, less the
steps that unwrapping takes.**  In a text that is one list of other than one item these are as many
as the parentheses that are open before the token. -/
theorem read_depths {text file : String} {t : Tree} (h : read text file = .ok t) :
    t.root = (t.lone 0 t.size_pos).1 ∧
    (∀ token ∈ tokensAt none (Lines.unify text.toList), t.loneSteps 0 ≤ token.2 + 1) ∧
    t.leafDepths = (tokensAt none (Lines.unify text.toList)).map (fun token =>
      (token.1, .ok (token.2 + 1 - t.loneSteps 0))) ∧
    ∀ ls, lexemesAt 0 (Lines.unify text.toList) = some ls →
    Lexeme.isBlock (ls.map Prod.snd) = true →
      (∀ cs, t.children 1 = .ok cs → cs.size ≠ 1) →
      t.leafDepths = (Lexeme.tokensBelow 0 (ls.map Prod.snd)).map fun token =>
        (token.1, .ok token.2) := by
  obtain ⟨ho, rfl⟩ := read_eq_ok_iff.mp h
  have ha : (draftOf text).tree.Arena := Draft.arena_draw Tree.arena_empty _
  have htokens := leafDepths_draftOf ho
  obtain ⟨hroot, hsteps⟩ := (draftOf text).root_unwrap (Tree.size_pos _)
  obtain ⟨hdepths, hle⟩ := Draft.leafDepths_unwrap ha
  simp only [hsteps] at hdepths hle
  refine ⟨hroot, ?_, ?_, ?_⟩
  · intro token htoken
    refine hle token.1 (token.2 + 1) ?_
    rw [htokens]
    exact List.mem_map.mpr ⟨token, htoken, rfl⟩
  · rw [hdepths, htokens, List.map_map]
    rfl
  · intro ls hl hb hitems
    obtain ⟨hdraw, hchild⟩ := draftOf_block hl hb
    obtain ⟨h1, -, hone⟩ :=
      Tree.lone_of_singleton (t := (draftOf text).tree.unwrap) (Tree.size_pos _) hchild
    have hzero := (Tree.lone_of_length_ne h1 (hitems _ (Tree.children_eq h1))).2
    have hlexemes : (draftOf text).leafDepths =
        (Lexeme.tokensBelow 0 (ls.map Prod.snd)).map fun token => (token.1, .ok (token.2 + 1)) := by
      rw [hdraw, Draft.leafDepths_lexemes Tree.arena_empty]
      rfl
    rw [hdepths, hone, hzero, hlexemes, List.map_map]
    rfl

/-- The first text has a line two tabs deeper, a parenthesis that stays open over line ends, and a
token after it is closed.  In the second a comment takes a line end along. -/
theorem read_depths_lines_and_single_list :
    (∃ t, read "a\n\t\tb (c\n\td\n\t(e)) f" "f" = .ok t ∧
      t.leafDepths =
        [("a", .ok 1), ("b", .ok 3), ("c", .ok 4), ("d", .ok 3), ("e", .ok 4), ("f", .ok 2)]) ∧
    ∃ t, read "(a (b ;)\n(c)) d)" "f" = .ok t ∧
      t.leafDepths = [("a", .ok 1), ("b", .ok 2), ("c", .ok 3), ("d", .ok 1)] := by
  constructor
  · let d := draftOf "a\n\t\tb (c\n\td\n\t(e)) f"
    have hread : read "a\n\t\tb (c\n\td\n\t(e)) f" "f" = .ok d.tree.unwrap :=
      read_eq_ok_iff.mpr ⟨by decide +kernel, rfl⟩
    have htokens : tokensAt none (Lines.unify "a\n\t\tb (c\n\td\n\t(e)) f".toList) =
        [("a", 1), ("b", 3), ("c", 4), ("d", 3), ("e", 4), ("f", 2)] := by
      decide +kernel
    have hsteps : d.tree.unwrap.loneSteps 0 = 1 := by
      decide +kernel
    refine ⟨_, hread, ?_⟩
    rw [(read_depths hread).2.2.1, htokens, hsteps]
    rfl
  · let d := draftOf "(a (b ;)\n(c)) d)"
    have hread : read "(a (b ;)\n(c)) d)" "f" = .ok d.tree.unwrap :=
      read_eq_ok_iff.mpr ⟨by decide +kernel, rfl⟩
    have hl : lexemesAt 0 (Lines.unify "(a (b ;)\n(c)) d)".toList) =
        some [(0, .opening), (1, .token "a"), (3, .opening), (4, .token "b"), (9, .opening),
          (10, .token "c"), (11, .closing), (12, .closing), (14, .token "d"), (15, .closing)] := by
      decide +kernel
    have hitems : ∀ cs, d.tree.unwrap.children 1 = .ok cs → cs.size ≠ 1 := by
      intro cs hcs
      have h1 : 1 < d.tree.unwrap.nodes.size := by decide +kernel
      have hlength : (d.tree.unwrap.childList 1).toArray.size ≠ 1 := by decide +kernel
      have hsame := (Tree.children_eq h1).symm.trans hcs
      cases hsame
      exact hlength
    refine ⟨_, hread, ?_⟩
    rw [(read_depths hread).2.2.2 _ hl (by decide) hitems]
    rfl

end IndentLisp
