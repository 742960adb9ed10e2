/-
# What a reader draws

A reader with a tree and a scan without one go through a text side by side.  What ties them together
at each turn is one equation, **the level of the innermost list is the one that the nesting counts**
(`Draft.level` against `levelOf`): by it the list is the root exactly if no parenthesis is open, and
every dedent finds the lists that it has to end.

So the operations of the tree that the reader calls are never refused, and each of them is a stroke.
That is shown action by action (`Reader.openList_eq`, `closeList_eq`, `breakLine_eq`,
`takeToken_ok`, `takeToken_fault`), under the equation as a hypothesis; and `level_draw_move` says
that a turn keeps the equation.  Everything after that is one induction on the text.

The reader of the specification has a loop within a loop, and the scan has one.  `Reader.rest` is
what is left to do of a reading, from within a block or from between blocks; it is the form in which
the two can be compared turn by turn.

* `Reader.turn_eq`: a turn of the reader is a turn of the scan, drawn.
* `Reader.rest_between`: so is a step between blocks.
* `Reader.rest_eq`: and so is the rest of a reading.
* `Reader.readAll_eq`, `read_eq`: **reading a text is scanning it and drawing the strokes.**
* `read_eq_ok_iff`, `read_eq_rejected_iff`: when there is a tree, and when there is an offence.

A text is rejected with the reader where the scan stops (`placeOf`), and the tree that it leaves is
the draft up to there (`draftOf`), not unwrapped.
-/
import IndentLisp.Proofs.Reader.Scan

namespace IndentLisp

namespace Cursor

theorem skip_add (a b : Nat) (c : Cursor) : c.skip (a + b) = (c.skip a).skip b := by
  induction a generalizing c with
  | zero => rw [Nat.zero_add]; rfl
  | succ a ih => rw [Nat.succ_add, skip, ih, skip]

end Cursor

/-! ## 1. The level after a turn -/

/-- **A turn keeps the count right**: its strokes lead to the level of the block that it leads to.
This is the one place where the depth rule for lines is compared with the number of open lists. -/
theorem level_draw_move {m : Option Nesting} {c : Char} {cs : List Char} {v : Move} {d : Draft}
    (h : move m c cs = .ok v) (hl : d.level = levelOf m) :
    (d.draw v.strokes).level = levelOf v.next := by
  cases turn_of_move h with
  | gap | remark | blank | comment | token => exact hl
  | classic | indented =>
    have hl : d.level = 0 := hl
    simp [levelOf, Nesting.level, hl]
  | @opening n _ =>
    have hl : d.level = n.level := hl
    obtain ⟨style, depth, opened⟩ := n
    cases style <;> simp [levelOf, Nesting.level, hl]
    omega
  | @closing n _ h0 =>
    have hl : d.level = n.level := hl
    obtain ⟨style, depth, opened⟩ := n
    have h0 : opened ≠ 0 := h0
    cases style <;> simp [levelOf, Nesting.level, hl]
    omega
  | @lineEnd n _ =>
    have hl : d.level = n.level := hl
    obtain ⟨style, depth, opened⟩ := n
    unfold Nesting.breakLine
    cases style with
    | classic =>
      simp only
      split
      · rename_i h0
        simpa [levelOf, Nesting.level, h0] using hl
      · exact hl
    | indented =>
      simp only
      split
      · rw [Draft.level_draw_leave, hl, Nat.sub_self]
        rfl
      · exact Draft.level_draw_line d hl (Nat.succ_pos _)

/-! ## 2. One turn -/

/-- A nesting with the list that takes what comes next. -/
def Nesting.block (n : Nesting) (node : Nat) : Reader.Block :=
  ⟨n.style, n.depth, n.opened, node⟩

namespace Reader

/-- Where some strokes and some characters lead: a reader whose tree is a draft's. -/
def drawn (file : String) (here : Cursor) (d : Draft) : Reader :=
  ⟨file, here, d.tree⟩

variable {file : String} {here : Cursor} {d : Draft} {n : Nesting}

theorem openList_eq : openList (n.block d.here.handle) (drawn file here d) =
    .ok ({ n with opened := n.opened + 1 }.block d.enter.here.handle)
      (drawn file (here.skip 1) d.enter) := by
  simp only [openList, bind, EStateM.bind, build, drawn, Nesting.block, Draft.addList_here]
  rfl

/-- A closing parenthesis is drawn as the end of one, or is an offence: the root is innermost just
where none of the parentheses of the block is open. -/
theorem closeList_eq (hl : d.level = n.level) :
    closeList (n.block d.here.handle) (drawn file here d) =
      if n.opened = 0 then
        .error (.rejected (Offence.report file here .extraClose)) (drawn file here d)
      else
        .ok ({ n with opened := n.opened - 1 }.block d.leave.here.handle)
          (drawn file (here.skip 1) d.leave) := by
  have hoff : ((drawn file here d).tree.isRoot (n.block d.here.handle).node ||
      ((n.block d.here.handle).style = .indented && (n.block d.here.handle).opened = 0)) = true ↔
      n.opened = 0 := by
    have hroot : (drawn file here d).tree.isRoot (n.block d.here.handle).node = true ↔
        n.level = 0 := hl ▸ Draft.isRoot_here
    rw [Bool.or_eq_true, Bool.and_eq_true, decide_eq_true_eq, decide_eq_true_eq, hroot]
    simp only [Nesting.block, Nesting.level]
    cases n.style <;> simp
  unfold closeList
  by_cases h0 : n.opened = 0
  · rw [if_pos (hoff.mpr h0), if_pos h0]
    rfl
  · have hl0 : d.level ≠ 0 := by
      rw [hl, Nesting.level]
      split <;> omega
    rw [if_neg (mt hoff.mp h0), if_neg h0]
    simp only [bind, EStateM.bind, ask, drawn, Nesting.block, Draft.parent_here hl0,
      Draft.tree_leave]
    rfl

theorem breakLine_eq (hl : d.level = n.level) :
    breakLine (n.block d.here.handle) (drawn file here d) =
      .ok ((n.breakLine here.ahead).next.map
          (·.block (d.draw (n.breakLine here.ahead).strokes).here.handle))
        (drawn file (here.skip (n.breakLine here.ahead).passed)
          (d.draw (n.breakLine here.ahead).strokes)) := by
  obtain ⟨style, depth, opened⟩ := n
  unfold breakLine Nesting.breakLine
  simp only [bind, EStateM.bind, move, drawn, Nesting.block, Cursor.skipWhile, Cursor.skip_ahead]
  cases style with
  | classic =>
    have hroot : d.tree.isRoot d.here.handle = true ↔ opened = 0 := by
      rw [Draft.isRoot_here, hl]
      rfl
    by_cases h0 : opened = 0
    · simp [hroot, h0]
    · simp [hroot, h0]
  | indented =>
    simp only
    generalize ((here.ahead.drop _).takeWhile (· = '\t')).length = tabs
    cases tabs with
    | zero => simp [Draft.tree_draw_leave]
    | succ tabs =>
      simp only [build, Draft.openLine_here hl (Nat.succ_pos tabs), Cursor.skip_add]
      rfl

theorem takeToken_ok {c : Char} {cs : List Char} {k : Nat} (ha : here.ahead = c :: cs)
    (hk : Token.length? (c :: cs) = some k) :
    takeToken d.here.handle (drawn file here d) =
      .ok () (drawn file (here.skip k) (d.leaf (String.ofList ((c :: cs).take k)))) := by
  unfold takeToken
  simp only [drawn, ha, hk, bind, EStateM.bind, build, Draft.addLeaf_here]
  rfl

theorem takeToken_fault {c : Char} {cs : List Char} {o : Offence} (ha : here.ahead = c :: cs)
    (hk : Token.length? (c :: cs) = none)
    (ho : c = '"' ∧ o = .unterminatedString ∨ c = '\'' ∧ o = .malformedCharacter) :
    takeToken d.here.handle (drawn file here d) =
      .error (.rejected (o.report file here)) (drawn file here d) := by
  unfold takeToken
  simp only [drawn, ha, hk]
  rcases ho with ⟨rfl, rfl⟩ | ⟨rfl, rfl⟩ <;> rfl

/-- **A turn of a reader is a turn of the scan, drawn.**  The reader fails just where the scan has
an offence, with the report of that offence at its cursor, and is left as it was. -/
theorem turn_eq (file : String) {c : Char} {cs : List Char} (hl : d.level = n.level)
    (ha : here.ahead = c :: cs) :
    turn (n.block d.here.handle) (drawn file here d) =
      match n.move c cs with
      | .error o => .error (.rejected (o.report file here)) (drawn file here d)
      | .ok v =>
        .ok (v.next.map (·.block (d.draw v.strokes).here.handle))
          (drawn file (here.skip v.passed) (d.draw v.strokes)) := by
  have hf := Front.of_cases c cs
  have hturn : turn (n.block d.here.handle) (drawn file here d) =
      if c = '(' then (some <$> openList (n.block d.here.handle)) (drawn file here d)
      else if c = ')' then (some <$> closeList (n.block d.here.handle)) (drawn file here d)
      else if c = ' ' ∨ c = '\t' then
        .ok (some (n.block d.here.handle)) (drawn file (here.skip 1) d)
      else if c = '\n' then breakLine (n.block d.here.handle) (drawn file here d)
      else if c = ';' then
        .ok (some (n.block d.here.handle)) (drawn file (here.skipLine.advance) d)
      else (do takeToken d.here.handle; return some (n.block d.here.handle))
        (drawn file here d) := by
    unfold turn
    simp only [drawn, ha]
    rfl
  rw [hturn]
  unfold Nesting.move
  cases ho : Front.of c cs with
  | opening =>
    rw [ho] at hf
    have hf : c = '(' := hf
    simp only [hf, if_true, Functor.map, EStateM.map, openList_eq]
    rfl
  | closing =>
    rw [ho] at hf
    have hf : c = ')' := hf
    simp only [hf, if_true, if_neg (show ¬ ')' = '(' by decide), Functor.map, EStateM.map,
      closeList_eq hl]
    by_cases h0 : n.opened = 0
    · simp only [if_pos h0]
    · simp only [if_neg h0]
      rfl
  | blank =>
    rw [ho] at hf
    have hf : c = ' ' ∨ c = '\t' := hf
    rcases hf with rfl | rfl <;> rfl
  | lineEnd =>
    rw [ho] at hf
    have hf : c = '\n' := hf
    subst hf
    simp [breakLine_eq hl, ha]
  | comment =>
    rw [ho] at hf
    have hf : c = ';' := hf
    subst hf
    have hskip : here.skipLine.advance = here.skip (lineLength (';' :: cs) + 1) := by
      rw [Cursor.skip_add, ← ha]
      rfl
    simp [hskip]
  | token k =>
    rw [ho] at hf
    obtain ⟨hs, hk⟩ := hf
    obtain ⟨h1, h2, h3, h4, h5, h6⟩ := Token.isStart_iff.mp hs
    simp only [h1, h2, h3, h4, h5, h6, or_self, if_false, bind, EStateM.bind, takeToken_ok ha hk]
    rfl
  | fault o =>
    rw [ho] at hf
    obtain ⟨hs, hk, hq⟩ := hf
    obtain ⟨h1, h2, h3, h4, h5, h6⟩ := Token.isStart_iff.mp hs
    simp only [h1, h2, h3, h4, h5, h6, or_self, if_false, bind, EStateM.bind,
      takeToken_fault ha hk hq]

/-! ## 3. Whole readings -/

/-- What a turn leads to within its block. -/
theorem block_of_turn {b : Block} {r : Reader}
    {x : EStateM.Result ReadFailure Reader (Option Block)}
    (h : turn b r = x) :
    block b r =
      match x with
      | .ok (some b') r' => block b' r'
      | .ok none r' => .ok () r'
      | .error e r' => .error e r' := by
  rw [block]
  split <;> rename_i ht <;> rw [h] at ht <;> subst ht <;> rfl

/-- What a step between blocks leads to. -/
theorem blocks_of_topLevel {r : Reader} {x : EStateM.Result ReadFailure Reader Unit}
    (hne : r.cursor.ahead ≠ []) (h : topLevel r = x) :
    blocks r =
      match x with
      | .ok _ r' => blocks r'
      | .error e r' => .error e r' := by
  rw [blocks, dif_neg hne]
  split <;> rename_i ht <;> rw [h] at ht <;> subst ht <;> rfl

/-- The rest of a reading, from within a block or from between blocks.  It is made of the reader's
own loops, so that nothing has to be shown of it in general. -/
def rest : Option Block → Action Unit
  | none => blocks
  | some b => do
    block b
    blocks

theorem rest_of_turn_ok {b : Block} {o : Option Block} {r r' : Reader}
    (h : turn b r = .ok o r') : rest (some b) r = rest o r' := by
  simp only [rest, bind, EStateM.bind, block_of_turn h]
  cases o <;> rfl

theorem rest_of_turn_error {b : Block} {e : ReadFailure} {r r' : Reader}
    (h : turn b r = .error e r') : rest (some b) r = .error e r' := by
  simp only [rest, bind, EStateM.bind, block_of_turn h]

theorem rest_nil {r : Reader} (h : r.cursor.ahead = []) (o : Option Block) :
    rest o r = .ok () r := by
  have hblocks : blocks r = .ok () r := by
    rw [blocks, dif_pos h]
  cases o with
  | none => exact hblocks
  | some b =>
    have hturn : turn b r = .ok none r := by
      unfold turn
      rw [h]
    rw [rest_of_turn_ok hturn]
    exact hblocks

/-- Starts a classic block after its parenthesis, with a list of its own under the root. -/
def startClassic : Action Block := do
  move Cursor.advance
  let node ← build fun t => Tree.addList t.root t
  return ⟨.classic, 0, 1, node⟩

/-- Starts an indented block before its first character, with a list of its own under the root. -/
def startIndented : Action Block := do
  let node ← build fun t => Tree.addList t.root t
  return ⟨.indented, 0, 0, node⟩

/-- Starts a block. -/
def startBlock : Action Block := fun r =>
  match r.cursor.ahead with
  | '(' :: _ => startClassic r
  | _ => startIndented r

/-- **A block is its start and its turns.** -/
theorem readBlock_eq : readBlock = startBlock >>= block := by
  funext r
  have hbind : ∀ x : Action Block, startBlock r = x r →
      (startBlock >>= block) r = (x >>= block) r := by
    intro x hx
    simp only [bind, EStateM.bind, hx]
  unfold readBlock
  split
  · rename_i cs ha
    have hs : startBlock r = startClassic r := by
      unfold startBlock
      rw [ha]
      rfl
    rw [hbind startClassic hs, startClassic]
    simp only [bind_assoc, pure_bind]
  · rename_i hne
    have hs : startBlock r = startIndented r := by
      unfold startBlock
      split
      · rename_i cs ha
        exact absurd ha (hne cs)
      · rfl
    rw [hbind startIndented hs, startIndented]
    simp only [bind_assoc, pure_bind]

/-- Where the rest of a reading starts a block. -/
theorem rest_of_startBlock {c : Char} {cs : List Char} {b : Block} {r r' : Reader}
    (ha : r.cursor.ahead = c :: cs) (hc : c ≠ ' ' ∧ c ≠ '\t' ∧ c ≠ '\n' ∧ c ≠ ';')
    (h : startBlock r = .ok b r') : rest none r = rest (some b) r' := by
  have htop : topLevel r = block b r' := by
    unfold topLevel
    rw [ha]
    simp only [hc, or_self, if_false, readBlock_eq, bind, EStateM.bind, h]
  simp only [rest, bind, EStateM.bind]
  cases hb : block b r' <;> rw [blocks_of_topLevel (by simp [ha]) (htop.trans hb)]

/-- Where the rest of a reading moves on between blocks. -/
theorem rest_of_topLevel {r r' : Reader} (hne : r.cursor.ahead ≠ [])
    (h : topLevel r = .ok () r') : rest none r = rest none r' := by
  rw [rest, blocks_of_topLevel hne h]

/-- The start of a block is a stroke. -/
theorem startBlock_eq (file : String) {c : Char} {cs : List Char} (hl : d.level = 0)
    (ha : here.ahead = c :: cs) :
    startBlock (drawn file here d) =
      if c = '(' then
        .ok (Nesting.block ⟨.classic, 0, 1⟩ d.enter.here.handle)
          (drawn file (here.skip 1) d.enter)
      else
        .ok (Nesting.block ⟨.indented, 0, 0⟩ d.enter.here.handle) (drawn file here d.enter) := by
  have hadd : Tree.addList d.tree.root d.tree = .ok d.enter.here.handle d.enter.tree := by
    rw [d.sound.root_eq, ← Draft.handle_here_of_level hl]
    exact d.addList_here
  unfold startBlock
  simp only [drawn, ha]
  split
  · rename_i hcs
    cases hcs
    simp only [if_true, startClassic, bind, EStateM.bind, move, build, hadd]
    rfl
  · rename_i hcs
    have hc : c ≠ '(' := fun e => hcs cs (e ▸ rfl)
    simp only [hc, if_false, startIndented, bind, EStateM.bind, build, hadd]
    rfl

/-- **A step between blocks is a turn of the scan, drawn.**  The start of a block is one, and the
block's turns come after it. -/
theorem rest_between {c : Char} {cs : List Char} (hl : d.level = 0) (ha : here.ahead = c :: cs) :
    rest none (drawn file here d) =
      rest ((moveBetween c cs).next.map
          (·.block (d.draw (moveBetween c cs).strokes).here.handle))
        (drawn file (here.skip (moveBetween c cs).passed) (d.draw (moveBetween c cs).strokes)) := by
  have hne : (drawn file here d).cursor.ahead ≠ [] := by
    simp [drawn, ha]
  have hstart := startBlock_eq file hl ha
  by_cases hb : c = ' ' ∨ c = '\t' ∨ c = '\n'
  · rw [moveBetween_blank hb]
    refine rest_of_topLevel hne ?_
    unfold topLevel
    simp only [drawn, ha, if_pos hb]
    rfl
  by_cases hs : c = ';'
  · subst hs
    rw [moveBetween_comment]
    refine rest_of_topLevel hne ?_
    unfold topLevel
    simp only [drawn, ha]
    simp [move, Cursor.skipLine, Cursor.skipWhile, lineLength, ha]
  have hc : c ≠ ' ' ∧ c ≠ '\t' ∧ c ≠ '\n' ∧ c ≠ ';' := by
    simp only [not_or] at hb
    exact ⟨hb.1, hb.2.1, hb.2.2, hs⟩
  by_cases ho : c = '('
  · subst ho
    rw [if_pos rfl] at hstart
    rw [moveBetween_opening]
    exact rest_of_startBlock ha hc hstart
  · rw [if_neg ho] at hstart
    rw [moveBetween_other hc ho]
    exact rest_of_startBlock ha hc hstart

/-- What a reading from `here` comes to, if the text ahead scans as `s`: a reader that has drawn the
strokes of the scan, or its offence, reported at the place to which the scan comes. -/
def outcome (file : String) (here : Cursor) (d : Draft) (s : Scan) :
    EStateM.Result ReadFailure Reader Unit :=
  match s.offence? with
  | none => .ok () (drawn file (here.skip s.passed) (d.draw s.strokes))
  | some o =>
    .error (.rejected (o.report file (here.skip s.passed)))
      (drawn file (here.skip s.passed) (d.draw s.strokes))

theorem outcome_after (s : Scan) (v : Move) :
    outcome file here d (s.after v) =
      outcome file (here.skip v.passed) (d.draw v.strokes) s := by
  simp only [outcome, Scan.after, Cursor.skip_add, Draft.draw_append]

/-- **The rest of a reading is the rest of the scan, drawn.**  The induction is on the text that is
left, along the turns of the scan; the equation of levels is the invariant. -/
theorem rest_eq {m : Option Nesting} {cs : List Char} (hl : d.level = levelOf m)
    (ha : here.ahead = cs) :
    rest (m.map (·.block d.here.handle)) (drawn file here d) =
      outcome file here d (scan m cs) := by
  fun_induction scan m cs generalizing here d with
  | case1 m =>
    rw [rest_nil ha]
    simp only [outcome, drawn, Draft.tree_draw_leave]
    rfl
  | case2 m c cs o h =>
    cases m with
    | none => simp [IndentLisp.move] at h
    | some n =>
      have ht := turn_eq file hl ha
      rw [show n.move c cs = .error o from h] at ht
      exact rest_of_turn_error ht
  | case3 m c cs v h ih =>
    have hnext : rest (m.map (·.block d.here.handle)) (drawn file here d) =
        rest (v.next.map (·.block (d.draw v.strokes).here.handle))
          (drawn file (here.skip v.passed) (d.draw v.strokes)) := by
      cases m with
      | none =>
        have hv : moveBetween c cs = v := Except.ok.inj h
        rw [← hv]
        exact rest_between hl ha
      | some n =>
        have ht := turn_eq file hl ha
        rw [show n.move c cs = .ok v from h] at ht
        exact rest_of_turn_ok ht
    rw [hnext, ih (level_draw_move h hl) (by rw [Cursor.skip_ahead, ha]), outcome_after]

end Reader

/-! ## 4. Whole texts -/

/-- The scan of a text, whose line ends may be of any kind. -/
def scanText (text : String) : Scan :=
  scan none (Lines.unify text.toList)

/-- The draft of a text, as far as it can be read.  Where there is no offence every list in it has
been ended but the root. -/
def draftOf (text : String) : Draft :=
  Draft.start.draw (scanText text).strokes

/-- The place to which a text can be read. -/
def placeOf (text : String) : Cursor :=
  (Cursor.ofText (Lines.unify text.toList)).skip (scanText text).passed

/-- **Reading a text is scanning it and drawing the strokes**, up to the first offence.  Only a
reading that comes to the end of the text strips the lists around a lone item. -/
theorem readAll_eq (text file : String) :
    Reader.readAll (.ofText text file) =
      match (scanText text).offence? with
      | none =>
        .ok (draftOf text).tree.unwrap.root ⟨file, placeOf text, (draftOf text).tree.unwrap⟩
      | some o =>
        .error (.rejected (o.report file (placeOf text)))
          ⟨file, placeOf text, (draftOf text).tree⟩ := by
  have h : Reader.blocks (.ofText text file) =
      Reader.outcome file (.ofText (Lines.unify text.toList)) Draft.start (scanText text) :=
    Reader.rest_eq (m := none) (d := Draft.start) rfl rfl
  simp only [Reader.readAll, bind, EStateM.bind, h, Reader.outcome, Reader.drawn]
  cases (scanText text).offence? <;> rfl

/-- The tree of a text, or its offence. -/
theorem read_eq (text file : String) :
    read text file =
      match (scanText text).offence? with
      | none => .ok (draftOf text).tree.unwrap
      | some o => .error (.rejected (o.report file (placeOf text))) := by
  rw [read, readAll_eq]
  cases (scanText text).offence? <;> rfl

theorem read_eq_ok_iff {text file : String} {t : Tree} :
    read text file = .ok t ↔ (scanText text).offence? = none ∧ (draftOf text).tree.unwrap = t := by
  rw [read_eq]
  cases (scanText text).offence? <;> simp

theorem read_of_offence {text : String} {o : Offence} (h : (scanText text).offence? = some o)
    (file : String) :
    read text file = .error (.rejected (o.report file (placeOf text))) := by
  rw [read_eq, h]

theorem read_eq_rejected_iff {text file : String} {e : Rejection} :
    read text file = .error (.rejected e) ↔
      ∃ o, (scanText text).offence? = some o ∧ o.report file (placeOf text) = e := by
  rw [read_eq]
  cases (scanText text).offence? <;> simp

end IndentLisp
