/-
# The reader

Reads a text into a tree, block by block (section 4, block scanning).  **A block that starts with a
parenthesis is classic**: parentheses alone nest, and line ends count for nothing until its own
parenthesis is closed.  **Any other block is indented**: the number of tabs at the front of each
further line says how deep the line lies, and parentheses nest within that.

A reader is a cursor and the tree built so far; the specification calls it `Parser`.  Each of its
actions is a state transformer, and one that fails leaves the reader as far as it came, together
with the cause.  The cause of a text is an offence; that the tree refuses, or that there is no token
where one is expected, are causes as well, of an action that is asked for out of turn.  **Reading a
text comes to neither of the latter**, which is proved and not built in.

The loop of the specification goes through a block character by character (`_parse_block`).  Here
its body is a function of its own, `Reader.turn`, with one action for each rule: the parentheses,
the blanks, the line ends, the comments, and the tokens.  What the loop keeps between two characters
is a `Block`: the style, the depth of the line, the parentheses that are open, and the list that
takes what comes next.

* `Reader.turn`: what one character, or one run of line ends, does within a block.
* `Reader.block`: turns until the block is over.  `turn_shortens` is why this ends.
* `Reader.topLevel`, `Reader.blocks`: what happens between blocks, until the text is over.
* `Reader.readAll`: that, and then `Tree.unwrap`.
* `read`: the tree of a text, or why there is none.

No bound on the number of turns is passed along.  A loop is a recursion on how much text is left,
and the lemmas of section 4 are there for its termination: every turn takes at least one character,
and so does every block.
-/
import IndentLisp.Token
import IndentLisp.Tree.Navigation
import IndentLisp.Reader.Offence

namespace IndentLisp

/-! ## 1. Readers -/

/-- Why an action of a reader failed. -/
inductive ReadFailure where
  /-- The text is at fault. -/
  | rejected (e : Rejection)
  /-- The tree refused. -/
  | refused (e : Refusal)
  /-- There is no text left. -/
  | endOfText
  /-- No token starts with the character at the cursor. -/
  | noToken
deriving DecidableEq, Repr

/-- The wording of a failure. -/
def ReadFailure.message : ReadFailure → String
  | .rejected e => e.diagnostic.headline
  | .refused e => e.message
  | .endOfText => "there is no text left"
  | .noToken => "no token starts here"

/-- A cursor in a named text, and the tree built so far. -/
structure Reader where
  file : String
  cursor : Cursor
  tree : Tree

namespace Reader

/-- What a reader does: an answer or a failure, and where either leaves it. -/
abbrev Action := EStateM ReadFailure Reader

/-- A reader at the start of a text, whose line ends may be of any kind. -/
def ofText (text file : String) : Reader where
  file := file
  cursor := .ofText (Lines.unify text.toList)
  tree := .empty

/-- The text that the reader reads. -/
def text (r : Reader) : String :=
  String.ofList r.cursor.text

/-- Moves the cursor.  The tree stays as it is, and this never fails. -/
def move (f : Cursor → Cursor) : Action Unit
  | ⟨file, cursor, tree⟩ => .ok () ⟨file, f cursor, tree⟩

/-- Passes the character at the cursor, and answers it: `_advance`, which a caller may ask for at
the end of the text as well. -/
def next : Action Char := fun r =>
  match r.cursor.ahead with
  | [] => .error .endOfText r
  | c :: _ => (do move Cursor.advance; return c) r

/-- Changes the tree.  The cursor stays where it is, also where the tree refuses. -/
def build {α : Type} (change : EStateM Refusal Tree α) : Action α
  | ⟨file, cursor, tree⟩ =>
    match change tree with
    | .ok a tree => .ok a ⟨file, cursor, tree⟩
    | .error e tree => .error (.refused e) ⟨file, cursor, tree⟩

/-- Asks the tree, and changes nothing. -/
def ask {α : Type} (question : Tree → Except Refusal α) : Action α := fun r =>
  match question r.tree with
  | .ok a => .ok a r
  | .error e => .error (.refused e) r

/-- Reports an offence at the cursor. -/
def offend {α : Type} (o : Offence) : Action α := fun r =>
  .error (.rejected (o.report r.file r.cursor)) r

/-! ## 2. Tokens -/

/-- Takes the token at the cursor into the list `node`: the operation `_read_token`.  The tree has
the token before the cursor moves.  Where no token ends, the rule that applies says which offence it
is; of a symbol there is none, since a character that starts a symbol is one. -/
def takeToken (node : Int) : Action Unit := fun r =>
  match Token.length? r.cursor.ahead with
  | some n =>
    (do
      build (Tree.addLeaf node (String.ofList (r.cursor.ahead.take n)))
      move (Cursor.skip n)) r
  | none =>
    match r.cursor.ahead with
    | [] => .error .endOfText r
    | c :: _ =>
      match Token.Rule.ofChar c with
      | .string => offend .unterminatedString r
      | .character => offend .malformedCharacter r
      | .symbol => .error .noToken r

/-! ## 3. Blocks -/

/-- How a block nests; it is settled by the first character. -/
inductive Style where
  | classic
  | indented
deriving DecidableEq, Repr

/-- Where the reader is within a block: the depth of the current line, the number of the block's own
parentheses that are open, and the list that takes what comes next.  A classic block counts the
parenthesis that it starts with among them, and has no lines. -/
structure Block where
  style : Style
  depth : Nat
  opened : Nat
  node : Nat
deriving DecidableEq, Repr

/-- An opening parenthesis starts a list, which is the last of the one it stands in:
`make_child`. -/
def openList (b : Block) : Action Block := do
  let node ← build (Tree.addList b.node)
  move Cursor.advance
  return { b with opened := b.opened + 1, node := node }

/-- A closing parenthesis ends a list, if one is open.  It is an offence at the root, and in an
indented block where none of its parentheses is open: **the lists of its lines are not closed by a
parenthesis**.  Which list is ended is told by the tree and not by the parentheses. -/
def closeList (b : Block) : Action Block := fun r =>
  if r.tree.isRoot b.node || (b.style = .indented && b.opened = 0) then
    offend .extraClose r
  else
    (do
      let node ← ask (·.parent b.node)
      move Cursor.advance
      return { b with opened := b.opened - 1, node := node }) r

/-- Line ends: the newline rule of section 4.  All of them in a row are taken at once.  A classic
block ends at them once its own parenthesis is closed; an indented block ends unless a tab follows,
and otherwise goes on at the depth that the tabs tell, by the depth-transition rule (`indent`). -/
def breakLine (b : Block) : Action (Option Block) := do
  move (Cursor.skipWhile (· = '\n'))
  fun r =>
    match b.style with
    | .classic => if r.tree.isRoot b.node then .ok none r else .ok (some b) r
    | .indented =>
      match (r.cursor.ahead.takeWhile (· = '\t')).length with
      | 0 => .ok none r
      | tabs + 1 =>
        (do
          move (Cursor.skip (tabs + 1))
          let node ← build (Tree.openLine b.node (.levels ((tabs + 1 : Nat) - b.depth)))
          return some { b with depth := tabs + 1, node := node }) r

/-- One turn within a block: where the block goes on, or `none` where it is over.  The cases are the
branches of the loop `_parse_block`, in its order.  A comment takes the line end after it along, so
that a block does not see it. -/
def turn (b : Block) : Action (Option Block) := fun r =>
  match r.cursor.ahead with
  | [] => .ok none r
  | c :: _ =>
    if c = '(' then (some <$> openList b) r
    else if c = ')' then (some <$> closeList b) r
    else if c = ' ' ∨ c = '\t' then (do move Cursor.advance; return some b) r
    else if c = '\n' then breakLine b r
    else if c = ';' then (do move fun here => here.skipLine.advance; return some b) r
    else (do takeToken b.node; return some b) r

/-! ## 4. Why a turn brings the reader forward -/

section Forward

variable {α β : Type} {r r' : Reader}

/-- An action in two parts that succeeds has two parts that succeed. -/
theorem ok_bind {x : Action α} {f : α → Action β} {b : β} (h : (x >>= f) r = .ok b r') :
    ∃ a s, x r = .ok a s ∧ f a s = .ok b r' := by
  simp only [bind, EStateM.bind] at h
  split at h
  · rename_i a s hx
    exact ⟨a, s, hx, h⟩
  · cases h

theorem ok_map {x : Action α} {f : α → β} {b : β} (h : (f <$> x) r = .ok b r') :
    ∃ a, x r = .ok a r' ∧ f a = b := by
  simp only [Functor.map, EStateM.map] at h
  split at h
  · rename_i a s hx
    cases h
    exact ⟨a, hx, rfl⟩
  · cases h

theorem cursor_of_move {f : Cursor → Cursor} {u : Unit} (h : move f r = .ok u r') :
    r'.cursor = f r.cursor := by
  obtain ⟨file, cursor, tree⟩ := r
  cases h
  rfl

theorem cursor_of_build {change : EStateM Refusal Tree α} {a : α}
    (h : build change r = .ok a r') : r'.cursor = r.cursor := by
  obtain ⟨file, cursor, tree⟩ := r
  simp only [build] at h
  split at h
  · cases h
    rfl
  · cases h

theorem eq_of_ask {question : Tree → Except Refusal α} {a : α}
    (h : ask question r = .ok a r') : r' = r := by
  simp only [ask] at h
  split at h
  · cases h
    rfl
  · cases h

theorem cursor_of_openList {b b' : Block} (h : openList b r = .ok b' r') :
    r'.cursor = r.cursor.advance := by
  obtain ⟨_, s, h1, h⟩ := ok_bind h
  obtain ⟨_, s', h2, h⟩ := ok_bind h
  cases h
  rw [cursor_of_move h2, cursor_of_build h1]

theorem cursor_of_closeList {b b' : Block} (h : closeList b r = .ok b' r') :
    r'.cursor = r.cursor.advance := by
  unfold closeList at h
  split at h
  · cases h
  · obtain ⟨_, s, h1, h⟩ := ok_bind h
    obtain ⟨_, s', h2, h⟩ := ok_bind h
    cases h
    rw [cursor_of_move h2, eq_of_ask h1]

/-- Past the line ends, and in an indented block past the tabs as well. -/
theorem length_ahead_of_breakLine {b : Block} {o : Option Block}
    (h : breakLine b r = .ok o r') :
    r'.cursor.ahead.length ≤ (r.cursor.ahead.dropWhile (· = '\n')).length := by
  obtain ⟨_, s, h1, h⟩ := ok_bind h
  have hs : s.cursor.ahead = r.cursor.ahead.dropWhile (· = '\n') := by
    rw [cursor_of_move h1, Cursor.skipWhile_ahead]
  rw [← hs]
  split at h
  · split at h <;> cases h <;> exact Nat.le_refl _
  · split at h
    · cases h
      exact Nat.le_refl _
    · obtain ⟨_, s1, h2, h⟩ := ok_bind h
      obtain ⟨_, s2, h3, h⟩ := ok_bind h
      cases h
      rw [cursor_of_build h3, cursor_of_move h2, Cursor.skip_ahead, List.length_drop]
      exact Nat.sub_le _ _

theorem cursor_of_takeToken {node : Int} {u : Unit} (h : takeToken node r = .ok u r') :
    ∃ n, 0 < n ∧ n ≤ r.cursor.ahead.length ∧ r'.cursor = r.cursor.skip n := by
  unfold takeToken at h
  split at h
  · rename_i n hn
    obtain ⟨_, s, h1, h⟩ := ok_bind h
    exact ⟨n, Token.length?_pos hn, Token.length?_le hn, by
      rw [cursor_of_move h, cursor_of_build h1]⟩
  · split at h
    · cases h
    · split at h <;> cases h

/-- **A turn brings the reader forward** wherever there is text left.  Each case is an action that
moves the cursor at least once; a run of line ends and a comment move it as far as they go. -/
theorem turn_shortens {b : Block} {o : Option Block} (h : turn b r = .ok o r')
    (hne : r.cursor.ahead ≠ []) : r'.cursor.ahead.length < r.cursor.ahead.length := by
  unfold turn at h
  split at h
  · rename_i he
    exact absurd he hne
  · rename_i c cs he
    have advanced : r'.cursor = r.cursor.advance →
        r'.cursor.ahead.length < r.cursor.ahead.length := by
      intro hc
      rw [hc, Cursor.advance_ahead, he]
      simp
    split at h
    · obtain ⟨_, h, -⟩ := ok_map h
      exact advanced (cursor_of_openList h)
    · split at h
      · obtain ⟨_, h, -⟩ := ok_map h
        exact advanced (cursor_of_closeList h)
      · split at h
        · obtain ⟨_, s, h1, h⟩ := ok_bind h
          cases h
          exact advanced (cursor_of_move h1)
        · split at h
          · rename_i hn
            refine Nat.lt_of_le_of_lt (length_ahead_of_breakLine h) ?_
            rw [he, hn]
            simpa using Nat.lt_succ_of_le (List.dropWhile_sublist (· = '\n') (l := cs)).length_le
          · split at h
            · obtain ⟨_, s, h1, h⟩ := ok_bind h
              cases h
              rw [cursor_of_move h1, Cursor.advance_ahead, Cursor.skipLine, Cursor.skipWhile_ahead,
                he, List.length_drop]
              have := (List.dropWhile_sublist (· ≠ '\n') (l := c :: cs)).length_le
              simp only [List.length_cons] at *
              omega
            · obtain ⟨_, s, h1, h⟩ := ok_bind h
              cases h
              obtain ⟨n, hpos, hle, hc⟩ := cursor_of_takeToken h1
              rw [hc, Cursor.skip_ahead, List.length_drop]
              omega

end Forward

/-! ## 5. Whole blocks and whole texts -/

/-- A block that goes on had text left. -/
theorem ahead_ne_nil_of_turn {b b' : Block} {r r' : Reader} (h : turn b r = .ok (some b') r') :
    r.cursor.ahead ≠ [] := by
  intro he
  simp [turn, he] at h

/-- Turns until the block is over: at the end of the text, at line ends that end it, or at an
offence. -/
def block (b : Block) : Action Unit := fun r =>
  match h : turn b r with
  | .ok (some b') r' =>
    have := turn_shortens h (ahead_ne_nil_of_turn h)
    block b' r'
  | .ok none r' => .ok () r'
  | .error e r' => .error e r'
termination_by r => r.cursor.ahead.length

/-- One block from its first character on.  In a classic block the block's own list stands for the
parenthesis that it starts with; the first character of an indented block is left to the first
turn. -/
def readBlock : Action Unit := fun r =>
  match r.cursor.ahead with
  | '(' :: _ =>
    (do
      move Cursor.advance
      let node ← build fun t => Tree.addList t.root t
      block ⟨.classic, 0, 1, node⟩) r
  | _ =>
    (do
      let node ← build fun t => Tree.addList t.root t
      block ⟨.indented, 0, 0, node⟩) r

theorem length_ahead_of_block {b : Block} {u : Unit} {r r' : Reader} (h : block b r = .ok u r') :
    r'.cursor.ahead.length ≤ r.cursor.ahead.length ∧
      (r.cursor.ahead ≠ [] → r'.cursor.ahead.length < r.cursor.ahead.length) := by
  fun_induction block b r with
  | case1 b r b' r1 ht _ ih =>
    have h1 := turn_shortens ht (ahead_ne_nil_of_turn ht)
    have h2 := (ih h).1
    exact ⟨by omega, fun _ => by omega⟩
  | case2 b r r1 ht =>
    cases h
    refine ⟨?_, turn_shortens ht⟩
    by_cases hne : r.cursor.ahead = []
    · simp only [turn, hne] at ht
      cases ht
      exact Nat.le_refl _
    · exact Nat.le_of_lt (turn_shortens ht hne)
  | case3 b r e r1 ht => cases h

/-- **A block takes at least one character.** -/
theorem readBlock_shortens {u : Unit} {r r' : Reader} (h : readBlock r = .ok u r')
    (hne : r.cursor.ahead ≠ []) : r'.cursor.ahead.length < r.cursor.ahead.length := by
  unfold readBlock at h
  split at h
  · rename_i cs he
    obtain ⟨_, s1, h1, h⟩ := ok_bind h
    obtain ⟨_, s2, h2, h⟩ := ok_bind h
    have hb := (length_ahead_of_block h).1
    rw [cursor_of_build h2, cursor_of_move h1, Cursor.advance_ahead, he] at hb
    rw [he]
    simpa using Nat.lt_succ_of_le hb
  · obtain ⟨_, s1, h1, h⟩ := ok_bind h
    have hb := (length_ahead_of_block h).2
    rw [cursor_of_build h1] at hb
    exact hb hne

/-- One step between blocks: past a blank, to the end of a comment's line, or through a block.
Between blocks a comment leaves its line end where it is, and the next step passes it. -/
def topLevel : Action Unit := fun r =>
  match r.cursor.ahead with
  | [] => .ok () r
  | c :: _ =>
    if c = ' ' ∨ c = '\t' ∨ c = '\n' then move Cursor.advance r
    else if c = ';' then move Cursor.skipLine r
    else readBlock r

/-- **A step between blocks brings the reader forward** wherever there is text left. -/
theorem topLevel_shortens {u : Unit} {r r' : Reader} (h : topLevel r = .ok u r')
    (hne : r.cursor.ahead ≠ []) : r'.cursor.ahead.length < r.cursor.ahead.length := by
  unfold topLevel at h
  split at h
  · rename_i he
    exact absurd he hne
  · rename_i c cs he
    split at h
    · rw [cursor_of_move h, Cursor.advance_ahead, he]
      simp
    · split at h
      · rename_i hc
        rw [cursor_of_move h, Cursor.skipLine, Cursor.skipWhile_ahead, he, hc]
        simpa using Nat.lt_succ_of_le (List.dropWhile_sublist (· ≠ '\n') (l := cs)).length_le
      · exact readBlock_shortens h hne

/-- Steps between blocks until the text is over. -/
def blocks : Action Unit := fun r =>
  if he : r.cursor.ahead = [] then .ok () r
  else
    match h : topLevel r with
    | .ok _ r' =>
      have := topLevel_shortens h he
      blocks r'
    | .error e r' => .error e r'
termination_by r => r.cursor.ahead.length

/-- Strips the lists around a lone item from the tree's root; answers the root. -/
def finish : Action Nat
  | ⟨file, cursor, tree⟩ =>
    let tree := tree.unwrap
    .ok tree.root ⟨file, cursor, tree⟩

/-- Reads the rest of the text; answers the root of the tree.  This is `Parser.parse`. -/
def readAll : Action Nat := do
  blocks
  finish

end Reader

/-- The tree of a text: the entry point `parse`.  A failure comes with no tree. -/
def read (text file : String) : Except ReadFailure Tree :=
  match Reader.readAll (.ofText text file) with
  | .ok _ r => .ok r.tree
  | .error e _ => .error e

end IndentLisp
