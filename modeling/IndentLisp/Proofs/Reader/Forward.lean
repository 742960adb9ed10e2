/-
# Readers go forward

Whatever a reader is asked to do, and however that ends, **its cursor only ever moves forward**
(`Reader.Forward`).  So the text stays the same, and the place is always the one at which the text
behind the cursor ends.

Nothing is assumed of the reader here.  Its tree may be in any state, and it may be asked for a
token at a parenthesis, or for a block in the midst of one; an action that fails leaves the reader
as far as it came, and it can be asked again.  That is why the statement is about every action and
its outcome of either kind, and not about the readings of whole texts.

The proof follows the actions.  It holds of each that moves the cursor by itself, of those that
leave the cursor alone, and of two in turn (`Reader.forward_bind`); so it holds of what is made of
them, and of a loop by induction on the text that is left.

* `Reader.forward_turn`, `forward_block`, `forward_blocks`: the actions, from a turn to a whole
  reading.
* `Reader.Request`, `Reader.perform`: what a caller can ask for, in any order and also after a
  failure.
* `Reader.cursor_perform`: **what any run of requests keeps.**
-/
import IndentLisp.Proofs.Reader.Drawing

namespace IndentLisp

/-! ## 1. Actions -/

namespace Reader

variable {α β : Type}

/-- The reader as an action leaves it, also where it fails.  A caller can go on with it in either
case. -/
def leftBy (x : Action α) (r : Reader) : Reader :=
  match x r with
  | .ok _ r' => r'
  | .error _ r' => r'

/-- An action moves the cursor of a reader forward, if at all.  By how much is left open; moving
beyond the end is moving to the end. -/
def Forward (x : Action α) (r : Reader) : Prop :=
  ∃ k, (leftBy x r).cursor = r.cursor.skip k

variable {x : Action α} {f : α → Action β} {r : Reader}

theorem forward_of_ok {a : α} {r' : Reader} (hx : x r = .ok a r') :
    Forward x r ↔ ∃ k, r'.cursor = r.cursor.skip k := by
  simp only [Forward, leftBy, hx]

theorem forward_of_error {e : ReadFailure} (hx : x r = .error e r) : Forward x r := by
  refine ⟨0, ?_⟩
  simp only [leftBy, hx, Cursor.skip]

theorem forward_of_eq {y : Action α} (h : x r = y r) (hy : Forward y r) : Forward x r := by
  obtain ⟨k, hk⟩ := hy
  refine ⟨k, ?_⟩
  rw [← hk, leftBy, leftBy, h]

theorem forward_pure (a : α) (r : Reader) : Forward (pure a) r := ⟨0, rfl⟩

/-- Two actions in turn move forward if both do.  The second starts where the first leaves the
reader, and only where the first succeeds. -/
theorem forward_bind (hx : Forward x r) (hf : ∀ a r', x r = .ok a r' → Forward (f a) r') :
    Forward (x >>= f) r := by
  obtain ⟨j, hj⟩ := hx
  cases hxr : x r with
  | error e r' =>
    refine ⟨j, ?_⟩
    rw [← hj]
    simp only [leftBy, bind, EStateM.bind, hxr]
  | ok a r' =>
    obtain ⟨k, hk⟩ := hf a r' hxr
    refine ⟨j + k, ?_⟩
    rw [Cursor.skip_add, ← hj]
    simp only [leftBy, bind, EStateM.bind, hxr] at hk ⊢
    exact hk

theorem forward_map {g : α → β} (hx : Forward x r) : Forward (g <$> x) r := by
  rw [map_eq_pure_bind]
  exact forward_bind hx fun a r' _ => forward_pure (g a) r'

theorem forward_move {g : Cursor → Cursor} (h : ∀ c, ∃ k, g c = c.skip k) (r : Reader) :
    Forward (move g) r := h r.cursor

theorem forward_advance (r : Reader) : Forward (move Cursor.advance) r :=
  forward_move (fun _ => ⟨1, rfl⟩) r

theorem forward_skip (n : Nat) (r : Reader) : Forward (move (Cursor.skip n)) r :=
  forward_move (fun _ => ⟨n, rfl⟩) r

theorem forward_skipWhile (p : Char → Bool) (r : Reader) : Forward (move (Cursor.skipWhile p)) r :=
  forward_move (fun _ => ⟨_, rfl⟩) r

theorem forward_build (change : EStateM Refusal Tree α) (r : Reader) :
    Forward (build change) r := by
  refine ⟨0, ?_⟩
  simp only [leftBy, build]
  cases change r.tree <;> rfl

theorem forward_ask (question : Tree → Except Refusal α) (r : Reader) :
    Forward (ask question) r := by
  refine ⟨0, ?_⟩
  simp only [leftBy, ask]
  cases question r.tree <;> rfl

theorem forward_next (r : Reader) : Forward next r := by
  cases ha : r.cursor.ahead with
  | nil =>
    refine forward_of_error (e := .endOfText) ?_
    simp only [next, ha]
  | cons c cs =>
    refine forward_of_eq (y := do move Cursor.advance; return c) ?_ ?_
    · simp only [next, ha]
    · exact forward_bind (forward_advance r) fun _ r' _ => forward_pure c r'

theorem forward_takeToken (node : Int) (r : Reader) : Forward (takeToken node) r := by
  cases hl : Token.length? r.cursor.ahead with
  | some n =>
    refine forward_of_eq (y := do
      build (Tree.addLeaf node (String.ofList (r.cursor.ahead.take n)))
      move (Cursor.skip n)) ?_ ?_
    · simp only [takeToken, hl]
    · exact forward_bind (forward_build _ r) fun _ r' _ => forward_skip n r'
  | none =>
    have herr : ∃ e, takeToken node r = .error e r := by
      simp only [takeToken, hl]
      cases r.cursor.ahead with
      | nil => exact ⟨_, rfl⟩
      | cons c cs =>
        simp only
        cases Token.Rule.ofChar c <;> exact ⟨_, rfl⟩
    obtain ⟨e, he⟩ := herr
    exact forward_of_error he

theorem forward_openList (b : Block) (r : Reader) : Forward (openList b) r :=
  forward_bind (forward_build _ r) fun _ r1 _ =>
    forward_bind (forward_advance r1) fun _ r2 _ => forward_pure _ r2

theorem forward_closeList (b : Block) (r : Reader) : Forward (closeList b) r := by
  by_cases h : (r.tree.isRoot b.node || (b.style = .indented && b.opened = 0)) = true
  · refine forward_of_error
      (e := .rejected (Offence.report r.file r.cursor .extraClose)) ?_
    rw [closeList, if_pos h]
    rfl
  · refine forward_of_eq (y := do
      let node ← ask (·.parent b.node)
      move Cursor.advance
      return { b with opened := b.opened - 1, node := node }) ?_ ?_
    · rw [closeList, if_neg h]
    · exact forward_bind (forward_ask _ r) fun _ r1 _ =>
        forward_bind (forward_advance r1) fun _ r2 _ => forward_pure _ r2

theorem forward_breakLine (b : Block) (r : Reader) : Forward (breakLine b) r := by
  refine forward_bind (forward_skipWhile _ r) fun _ r1 _ => ?_
  cases hs : b.style with
  | classic =>
    by_cases hr : r1.tree.isRoot b.node = true
    · exact forward_of_eq (y := pure none) (by simp only [hr, if_true]; rfl) (forward_pure _ r1)
    · exact forward_of_eq (y := pure (some b)) (by simp only [hr]; rfl) (forward_pure _ r1)
  | indented =>
    cases ht : (r1.cursor.ahead.takeWhile (· = '\t')).length with
    | zero => exact forward_of_eq (y := pure none) (by simp only [ht]; rfl) (forward_pure _ r1)
    | succ tabs =>
      refine forward_of_eq (y := do
        move (Cursor.skip (tabs + 1))
        let node ← build (Tree.openLine b.node (.levels ((tabs + 1 : Nat) - b.depth)))
        return some ⟨.indented, tabs + 1, b.opened, node⟩) ?_ ?_
      · simp only [ht]
      · exact forward_bind (forward_skip _ r1) fun _ r2 _ =>
          forward_bind (forward_build _ r2) fun _ r3 _ => forward_pure _ r3

/-- **A turn only moves forward.** -/
theorem forward_turn (b : Block) (r : Reader) : Forward (turn b) r := by
  cases ha : r.cursor.ahead with
  | nil => exact forward_of_eq (y := pure none) (by simp only [turn, ha]; rfl) (forward_pure _ r)
  | cons c cs =>
    by_cases h1 : c = '('
    · exact forward_of_eq (y := some <$> openList b) (by simp only [turn, ha, h1, if_true])
        (forward_map (forward_openList b r))
    by_cases h2 : c = ')'
    · exact forward_of_eq (y := some <$> closeList b) (by simp [turn, ha, h2])
        (forward_map (forward_closeList b r))
    by_cases h3 : c = ' ' ∨ c = '\t'
    · exact forward_of_eq (y := do move Cursor.advance; return some b)
        (by simp only [turn, ha, if_neg h1, if_neg h2, if_pos h3])
        (forward_bind (forward_advance r) fun _ r1 _ => forward_pure _ r1)
    by_cases h4 : c = '\n'
    · exact forward_of_eq (y := breakLine b) (by simp [turn, ha, h4])
        (forward_breakLine b r)
    by_cases h5 : c = ';'
    · refine forward_of_eq (y := do move fun here => here.skipLine.advance; return some b)
        (by simp [turn, ha, h5]) ?_
      refine forward_bind (forward_move (fun here => ?_) r) fun _ r1 _ => forward_pure _ r1
      exact ⟨_ + 1, (Cursor.skip_add _ 1 here).symm⟩
    · exact forward_of_eq (y := do takeToken b.node; return some b)
        (by simp only [turn, ha, if_neg h1, if_neg h2, if_neg h3, if_neg h4, if_neg h5])
        (forward_bind (forward_takeToken _ r) fun _ r1 _ => forward_pure _ r1)

theorem forward_block (b : Block) (r : Reader) : Forward (block b) r := by
  fun_induction block b r with
  | case1 b r b' r' ht _ ih =>
    obtain ⟨j, hj⟩ := (forward_of_ok ht).mp (forward_turn b r)
    obtain ⟨k, hk⟩ := ih
    refine ⟨j + k, ?_⟩
    rw [Cursor.skip_add, ← hj, ← hk, leftBy, leftBy, block_of_turn ht]
  | case2 b r r' ht =>
    obtain ⟨j, hj⟩ := (forward_of_ok ht).mp (forward_turn b r)
    refine ⟨j, ?_⟩
    rw [← hj, leftBy, block_of_turn ht]
  | case3 b r e r' ht =>
    obtain ⟨j, hj⟩ := forward_turn b r
    refine ⟨j, ?_⟩
    rw [← hj]
    simp only [leftBy, block_of_turn ht, ht]

theorem forward_startBlock (r : Reader) : Forward startBlock r := by
  have hclassic : Forward startClassic r :=
    forward_bind (forward_advance r) fun _ r1 _ =>
      forward_bind (forward_build _ r1) fun _ r2 _ => forward_pure _ r2
  have hindented : Forward startIndented r :=
    forward_bind (forward_build _ r) fun _ r1 _ => forward_pure _ r1
  by_cases ha : ∃ cs, r.cursor.ahead = '(' :: cs
  · obtain ⟨cs, ha⟩ := ha
    exact forward_of_eq (by simp only [startBlock, ha]) hclassic
  · refine forward_of_eq ?_ hindented
    unfold startBlock
    split
    · rename_i cs hcs
      exact absurd ⟨cs, hcs⟩ ha
    · rfl

theorem forward_readBlock (r : Reader) : Forward readBlock r := by
  rw [readBlock_eq]
  exact forward_bind (forward_startBlock r) fun b r1 _ => forward_block b r1

theorem forward_topLevel (r : Reader) : Forward topLevel r := by
  cases ha : r.cursor.ahead with
  | nil => exact forward_of_eq (y := pure ()) (by simp only [topLevel, ha]; rfl) (forward_pure _ r)
  | cons c cs =>
    by_cases h1 : c = ' ' ∨ c = '\t' ∨ c = '\n'
    · exact forward_of_eq (y := move Cursor.advance) (by simp only [topLevel, ha, if_pos h1])
        (forward_advance r)
    by_cases h2 : c = ';'
    · exact forward_of_eq (y := move Cursor.skipLine)
        (by simp only [topLevel, ha, if_neg h1, if_pos h2]) (forward_skipWhile _ r)
    · exact forward_of_eq (y := readBlock)
        (by simp only [topLevel, ha, if_neg h1, if_neg h2]) (forward_readBlock r)

theorem forward_blocks (r : Reader) : Forward blocks r := by
  fun_induction blocks r with
  | case1 r hn =>
    exact forward_of_eq (y := pure ()) (by rw [blocks, dif_pos hn]; rfl) (forward_pure _ r)
  | case2 r hn u r' ht _ ih =>
    obtain ⟨j, hj⟩ := (forward_of_ok ht).mp (forward_topLevel r)
    obtain ⟨k, hk⟩ := ih
    refine ⟨j + k, ?_⟩
    rw [Cursor.skip_add, ← hj, ← hk, leftBy, leftBy, blocks_of_topLevel hn ht]
  | case3 r hn e r' ht =>
    obtain ⟨j, hj⟩ := forward_topLevel r
    refine ⟨j, ?_⟩
    rw [← hj]
    simp only [leftBy, blocks_of_topLevel hn ht, ht]

theorem forward_readAll (r : Reader) : Forward readAll r :=
  forward_bind (forward_blocks r) fun _ _ _ => ⟨0, rfl⟩

/-! ## 2. Requests -/

/-- What a caller can ask of a reader.  A token may be asked for at any handle, also where none
stands; and a block, wherever the cursor is. -/
inductive Request where
  | next
  | skipLine
  | block
  | token (node : Int)
  | all
deriving DecidableEq, Repr

/-- The reader after a request, whether it was met or failed. -/
def perform (r : Reader) : Request → Reader
  | .next => leftBy next r
  | .skipLine => leftBy (move Cursor.skipLine) r
  | .block => leftBy readBlock r
  | .token node => leftBy (takeToken node) r
  | .all => leftBy readAll r

/-- **One request** moves the cursor forward. -/
theorem perform_forward (r : Reader) (q : Request) :
    ∃ k, (r.perform q).cursor = r.cursor.skip k := by
  cases q with
  | next => exact forward_next r
  | skipLine => exact forward_skipWhile _ r
  | block => exact forward_readBlock r
  | token node => exact forward_takeToken node r
  | all => exact forward_readAll r

/-- **Any run of requests** keeps the text, and the place at which the text behind the cursor ends.
The induction is on the requests. -/
theorem cursor_perform (requests : List Request) (r : Reader) (h : r.cursor.Placed) :
    (requests.foldl perform r).cursor.text = r.cursor.text ∧
      (requests.foldl perform r).cursor.Placed := by
  induction requests generalizing r with
  | nil => exact ⟨rfl, h⟩
  | cons q requests ih =>
    obtain ⟨k, hk⟩ := r.perform_forward q
    obtain ⟨ht, hp⟩ := ih (r.perform q) (hk ▸ Cursor.placed_skip h k)
    exact ⟨by rw [List.foldl_cons, ht, hk, Cursor.text_skip], hp⟩

end Reader

end IndentLisp
