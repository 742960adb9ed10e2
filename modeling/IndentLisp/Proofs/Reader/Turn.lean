/-
# Turns

What a reader does at one place of a text, without the tree: it passes some characters, draws some
strokes, and goes on within a block or between blocks.  This is the body of the specification's loop
`_parse_block` and of the one between blocks, in one function, with the strokes of a draft in place
of the operations of a tree.

Where a reader asks its tree whether the innermost list is the root, a turn looks at the count of
open parentheses (`Nesting`).  The two agree for every text, which is proved where the reader is
compared with the scan; it is what makes a turn a function of the text, and the whole theory of
texts possible without handles.

A run of line ends is one turn, together with the tabs after it in an indented block.  So is a
comment in a block with its line end.  Every other turn passes one character or one token, and the
start of an indented block passes nothing: its first character is left for the turn after that.

* `Front`: what stands at the front of a text.  **It is the same in every block**, whatever its
  style; only what follows from it differs.
* `Nesting.level`, `levelOf`: the number of lists that are open below the root.
* `move`: one turn, within a block or between blocks.
* `Turn`: **all that a turn can be**, one case for each (`turn_of_move`); no proof about `move` has
  to open its definition.
* `move_shortens`: why turns come to an end.
-/
import IndentLisp.Reader.Basic
import IndentLisp.Proofs.Tree.Draft

namespace IndentLisp

/-! ## 1. The front of a text -/

/-- What stands at the front of a text, told by the first character and, for tokens, by the rules
that find their ends.  A fault is a quote that starts no token. -/
inductive Front where
  | opening
  | closing
  | blank
  | lineEnd
  | comment
  | token (n : Nat)
  | fault (o : Offence)
deriving DecidableEq, Repr

namespace Front

/-- The front of a text that starts with `c`. -/
def of (c : Char) (cs : List Char) : Front :=
  if c = '(' then .opening
  else if c = ')' then .closing
  else if c = ' ' ∨ c = '\t' then .blank
  else if c = '\n' then .lineEnd
  else if c = ';' then .comment
  else
    match Token.length? (c :: cs) with
    | some n => .token n
    | none => .fault (if c = '"' then .unterminatedString else .malformedCharacter)

end Front

namespace Token

/-- Whether a token can start with a character: neither a parenthesis, nor a blank, nor a line end,
nor the start of a comment. -/
def isStart (c : Char) : Bool :=
  c ≠ '(' && c ≠ ')' && c ≠ ' ' && c ≠ '\t' && c ≠ '\n' && c ≠ ';'

theorem isStart_iff {c : Char} : isStart c = true ↔
    c ≠ '(' ∧ c ≠ ')' ∧ c ≠ ' ' ∧ c ≠ '\t' ∧ c ≠ '\n' ∧ c ≠ ';' := by
  simp [isStart, and_assoc]

/-- **A symbol is always found**: only quotes can fail to start a token.  So there are two offences
about tokens, one for each kind of quote. -/
theorem quote_of_length?_eq_none {c : Char} {cs : List Char} (hc : isStart c = true)
    (h : length? (c :: cs) = none) : c = '"' ∨ c = '\'' := by
  by_cases hq : c = '"' ∨ c = '\''
  · exact hq
  exfalso
  rw [not_or] at hq
  obtain ⟨h1, h2, h3, h4, h5, -⟩ := isStart_iff.mp hc
  have hd : isDelimiter c = false := by
    simp [isDelimiter, h1, h2, h3, h4, h5, hq.1]
  have hr : Rule.ofChar c = .symbol := by
    simp [Rule.ofChar, hq.1, hq.2]
  simp [length?, hr, symbolLength?, hd] at h

end Token

namespace Front

@[simp] theorem of_opening (cs : List Char) : Front.of '(' cs = .opening := by simp [Front.of]

@[simp] theorem of_closing (cs : List Char) : Front.of ')' cs = .closing := by simp [Front.of]

@[simp] theorem of_space (cs : List Char) : Front.of ' ' cs = .blank := by simp [Front.of]

@[simp] theorem of_tab (cs : List Char) : Front.of '\t' cs = .blank := by simp [Front.of]

@[simp] theorem of_lineEnd (cs : List Char) : Front.of '\n' cs = .lineEnd := by simp [Front.of]

@[simp] theorem of_comment (cs : List Char) : Front.of ';' cs = .comment := by simp [Front.of]

theorem of_token {c : Char} {cs : List Char} {n : Nat} (hc : Token.isStart c = true)
    (h : Token.length? (c :: cs) = some n) : Front.of c cs = .token n := by
  obtain ⟨h1, h2, h3, h4, h5, h6⟩ := Token.isStart_iff.mp hc
  simp [Front.of, h1, h2, h3, h4, h5, h6, h]

/-- What a front says of the text. -/
theorem of_cases (c : Char) (cs : List Char) :
    match Front.of c cs with
    | .opening => c = '('
    | .closing => c = ')'
    | .blank => c = ' ' ∨ c = '\t'
    | .lineEnd => c = '\n'
    | .comment => c = ';'
    | .token n => Token.isStart c = true ∧ Token.length? (c :: cs) = some n
    | .fault o => Token.isStart c = true ∧ Token.length? (c :: cs) = none ∧
        (c = '"' ∧ o = .unterminatedString ∨ c = '\'' ∧ o = .malformedCharacter) := by
  by_cases h1 : c = '('
  · simp [h1]
  by_cases h2 : c = ')'
  · simp [h2]
  by_cases h3 : c = ' '
  · simp [h3]
  by_cases h4 : c = '\t'
  · simp [h4]
  by_cases h5 : c = '\n'
  · simp [h5]
  by_cases h6 : c = ';'
  · simp [h6]
  have hc : Token.isStart c = true := Token.isStart_iff.mpr ⟨h1, h2, h3, h4, h5, h6⟩
  cases hl : Token.length? (c :: cs) with
  | some n =>
    rw [of_token hc hl]
    exact ⟨hc, rfl⟩
  | none =>
    have ho : Front.of c cs =
        .fault (if c = '"' then .unterminatedString else .malformedCharacter) := by
      simp [Front.of, h1, h2, h3, h4, h5, h6, hl]
    rw [ho]
    refine ⟨hc, rfl, ?_⟩
    rcases Token.quote_of_length?_eq_none hc hl with rfl | rfl
    · exact Or.inl ⟨rfl, rfl⟩
    · exact Or.inr ⟨rfl, rfl⟩

end Front

/-! ## 2. Turns -/

/-- How the current block nests: a block without its list in a tree.  A classic block has no lines,
and its depth stays zero. -/
structure Nesting where
  style : Reader.Style
  depth : Nat
  opened : Nat
deriving DecidableEq, Repr

/-- The number of open lists below the root.  A classic block's own list counts as one of its
parentheses; an indented block has a list of its own, and one more for each level of depth. -/
def Nesting.level (n : Nesting) : Nat :=
  match n.style with
  | .classic => n.opened
  | .indented => 1 + n.depth + n.opened

/-- The number of open lists below the root, within a block or between blocks. -/
def levelOf : Option Nesting → Nat
  | none => 0
  | some n => n.level

/-- What a turn does: the characters that it passes, the strokes that it draws, and the block in
which the scan goes on, if any.  The characters are counted, and not taken, as a comment may be
passed beyond the end of the text. -/
structure Move where
  passed : Nat
  strokes : List Stroke
  next : Option Nesting

/-- What comes after the characters at the front that pass a test. -/
theorem drop_takeWhile (p : Char → Bool) (cs : List Char) :
    cs.drop (cs.takeWhile p).length = cs.dropWhile p := by
  have h : (cs.takeWhile p ++ cs.dropWhile p).drop _ = cs.dropWhile p := List.drop_left
  rwa [List.takeWhile_append_dropWhile] at h

/-- The characters at the front that pass a test. -/
theorem take_takeWhile (p : Char → Bool) (cs : List Char) :
    cs.take (cs.takeWhile p).length = cs.takeWhile p := by
  have h : (cs.takeWhile p ++ cs.dropWhile p).take _ = cs.takeWhile p := List.take_left
  rwa [List.takeWhile_append_dropWhile] at h

/-- Characters that all pass a test, before one that does not. -/
theorem takeWhile_append {p : Char → Bool} {run rest : List Char} (h : ∀ c ∈ run, p c = true)
    (hr : ∀ c, rest.head? = some c → p c = false) : (run ++ rest).takeWhile p = run := by
  rw [List.takeWhile_append_of_pos h]
  cases rest with
  | nil => rw [List.takeWhile_nil, List.append_nil]
  | cons c cs =>
    have hc : ¬ p c = true := by simp [hr c rfl]
    rw [List.takeWhile_cons_of_neg hc, List.append_nil]

/-- The number of characters before the first line end, or all of them where there is none. -/
def lineLength (cs : List Char) : Nat :=
  (cs.takeWhile (· ≠ '\n')).length

/-- What comes after a line starts with a line end, if there is anything. -/
theorem drop_lineLength (cs : List Char) :
    cs.drop (lineLength cs) = [] ∨ ∃ ds, cs.drop (lineLength cs) = '\n' :: ds := by
  have h := List.head?_dropWhile_not (· ≠ '\n') cs
  rw [lineLength, drop_takeWhile]
  cases hd : cs.dropWhile (· ≠ '\n') with
  | nil => exact Or.inl rfl
  | cons d ds =>
    rw [hd] at h
    have hn : d = '\n' := by simpa using h
    exact Or.inr ⟨ds, by rw [hn]⟩

theorem lineLength_comment (cs : List Char) : lineLength (';' :: cs) = lineLength cs + 1 := by
  simp [lineLength]

theorem length_line (cs : List Char) : (cs.take (lineLength cs)).length = lineLength cs := by
  rw [lineLength, take_takeWhile]

theorem notMem_line (cs : List Char) : '\n' ∉ cs.take (lineLength cs) := by
  rw [lineLength, take_takeWhile]
  intro h
  have := List.all_eq_true.mp List.all_takeWhile _ h
  simp at this

/-- A line has the length that it is found to have, whatever comes after it. -/
theorem lineLength_append {line rest : List Char} (hl : '\n' ∉ line)
    (hr : ∀ c, rest.head? = some c → c = '\n') : lineLength (line ++ rest) = line.length := by
  rw [lineLength, takeWhile_append]
  · intro c hc
    have hne : c ≠ '\n' := fun e => hl (e ▸ hc)
    simp [hne]
  · intro c hc
    simp [hr c hc]

namespace Nesting

/-- Line ends, and the tabs after them in an indented block.  All line ends in a row are passed, and
of the tabs all or none: a block that ends leaves them, as there are none, and a classic block has
no use for them. -/
def breakLine (n : Nesting) (cs : List Char) : Move :=
  let ends := (cs.takeWhile (· = '\n')).length
  match n.style with
  | .classic => if n.opened = 0 then ⟨ends, [], none⟩ else ⟨ends, [], some n⟩
  | .indented =>
    match ((cs.drop ends).takeWhile (· = '\t')).length with
    | 0 => ⟨ends, List.replicate n.level .leave, none⟩
    | tabs + 1 =>
      ⟨ends + (tabs + 1), Stroke.line n.depth (tabs + 1), some { n with depth := tabs + 1 }⟩

/-- One turn within a block. -/
def move (n : Nesting) (c : Char) (cs : List Char) : Except Offence Move :=
  match Front.of c cs with
  | .opening => .ok ⟨1, [.enter], some { n with opened := n.opened + 1 }⟩
  | .closing =>
    if n.opened = 0 then .error .extraClose
    else .ok ⟨1, [.leave], some { n with opened := n.opened - 1 }⟩
  | .blank => .ok ⟨1, [], some n⟩
  | .lineEnd => .ok (n.breakLine (c :: cs))
  | .comment => .ok ⟨lineLength (c :: cs) + 1, [], some n⟩
  | .token k => .ok ⟨k, [.leaf (String.ofList ((c :: cs).take k))], some n⟩
  | .fault o => .error o

end Nesting

/-- One turn between blocks.  An indented block starts before its first character, which may be a
closing parenthesis: that is then the first turn of the block, and an offence. -/
def moveBetween (c : Char) (cs : List Char) : Move :=
  match Front.of c cs with
  | .blank | .lineEnd => ⟨1, [], none⟩
  | .comment => ⟨lineLength (c :: cs), [], none⟩
  | .opening => ⟨1, [.enter], some ⟨.classic, 0, 1⟩⟩
  | _ => ⟨0, [.enter], some ⟨.indented, 0, 0⟩⟩

theorem moveBetween_blank {c : Char} (hc : c = ' ' ∨ c = '\t' ∨ c = '\n') (cs : List Char) :
    moveBetween c cs = ⟨1, [], none⟩ := by
  rcases hc with rfl | rfl | rfl <;> simp [moveBetween]

theorem moveBetween_comment (cs : List Char) :
    moveBetween ';' cs = ⟨lineLength (';' :: cs), [], none⟩ := by
  simp [moveBetween]

theorem moveBetween_opening (cs : List Char) :
    moveBetween '(' cs = ⟨1, [.enter], some ⟨.classic, 0, 1⟩⟩ := by
  simp [moveBetween]

/-- Anything else starts an indented block. -/
theorem moveBetween_other {c : Char} (hb : c ≠ ' ' ∧ c ≠ '\t' ∧ c ≠ '\n' ∧ c ≠ ';')
    (ho : c ≠ '(') (cs : List Char) :
    moveBetween c cs = ⟨0, [.enter], some ⟨.indented, 0, 0⟩⟩ := by
  have hf := Front.of_cases c cs
  obtain ⟨h1, h2, h3, h4⟩ := hb
  unfold moveBetween
  cases hfront : Front.of c cs with
  | blank =>
    rw [hfront] at hf
    rcases hf with hf | hf
    · exact absurd hf h1
    · exact absurd hf h2
  | lineEnd =>
    rw [hfront] at hf
    exact absurd hf h3
  | comment =>
    rw [hfront] at hf
    exact absurd hf h4
  | opening =>
    rw [hfront] at hf
    exact absurd hf ho
  | closing | token | fault => rfl

/-- One turn. -/
def move : Option Nesting → Char → List Char → Except Offence Move
  | none, c, cs => .ok (moveBetween c cs)
  | some n, c, cs => n.move c cs

/-- What a turn can be, between blocks and within one.  Each case says what stands at the front, and
what the turn passes, draws and leads to; proofs about turns are by cases on it. -/
inductive Turn : Option Nesting → Char → List Char → Move → Prop
  | gap {c : Char} {cs : List Char} :
      c = ' ' ∨ c = '\t' ∨ c = '\n' → Turn none c cs ⟨1, [], none⟩
  | remark {cs : List Char} : Turn none ';' cs ⟨lineLength (';' :: cs), [], none⟩
  | classic {cs : List Char} : Turn none '(' cs ⟨1, [.enter], some ⟨.classic, 0, 1⟩⟩
  | indented {c : Char} {cs : List Char} :
      c ≠ ' ' ∧ c ≠ '\t' ∧ c ≠ '\n' ∧ c ≠ ';' → c ≠ '(' →
      Turn none c cs ⟨0, [.enter], some ⟨.indented, 0, 0⟩⟩
  | opening {n : Nesting} {cs : List Char} :
      Turn (some n) '(' cs ⟨1, [.enter], some { n with opened := n.opened + 1 }⟩
  | closing {n : Nesting} {cs : List Char} :
      n.opened ≠ 0 → Turn (some n) ')' cs ⟨1, [.leave], some { n with opened := n.opened - 1 }⟩
  | blank {n : Nesting} {c : Char} {cs : List Char} :
      c = ' ' ∨ c = '\t' → Turn (some n) c cs ⟨1, [], some n⟩
  | lineEnd {n : Nesting} {cs : List Char} : Turn (some n) '\n' cs (n.breakLine ('\n' :: cs))
  | comment {n : Nesting} {cs : List Char} :
      Turn (some n) ';' cs ⟨lineLength (';' :: cs) + 1, [], some n⟩
  | token {n : Nesting} {c : Char} {cs : List Char} {k : Nat} :
      Token.isStart c = true → Token.length? (c :: cs) = some k →
      Turn (some n) c cs ⟨k, [.leaf (String.ofList ((c :: cs).take k))], some n⟩

/-- **A turn is one of these.**  After this no proof has to look at how a turn is computed. -/
theorem turn_of_move {m : Option Nesting} {c : Char} {cs : List Char} {v : Move}
    (h : move m c cs = .ok v) : Turn m c cs v := by
  cases m with
  | none =>
    obtain rfl : moveBetween c cs = v := Except.ok.inj h
    by_cases hb : c = ' ' ∨ c = '\t' ∨ c = '\n'
    · rw [moveBetween_blank hb]
      exact .gap hb
    by_cases hs : c = ';'
    · rw [hs, moveBetween_comment]
      exact .remark
    by_cases ho : c = '('
    · rw [ho, moveBetween_opening]
      exact .classic
    have hc : c ≠ ' ' ∧ c ≠ '\t' ∧ c ≠ '\n' ∧ c ≠ ';' := by
      simp only [not_or] at hb
      exact ⟨hb.1, hb.2.1, hb.2.2, hs⟩
    rw [moveBetween_other hc ho]
    exact .indented hc ho
  | some n =>
    have hf := Front.of_cases c cs
    simp only [move, Nesting.move] at h
    cases ho : Front.of c cs with
    | opening =>
      rw [ho] at hf h
      obtain rfl : c = '(' := hf
      cases h
      exact .opening
    | closing =>
      rw [ho] at hf h
      obtain rfl : c = ')' := hf
      simp only at h
      split at h
      · cases h
      · rename_i h0
        cases h
        exact .closing h0
    | blank =>
      rw [ho] at hf h
      cases h
      exact .blank hf
    | lineEnd =>
      rw [ho] at hf h
      obtain rfl : c = '\n' := hf
      cases h
      exact .lineEnd
    | comment =>
      rw [ho] at hf h
      obtain rfl : c = ';' := hf
      cases h
      exact .comment
    | token k =>
      rw [ho] at hf h
      cases h
      exact .token hf.1 hf.2
    | fault o =>
      rw [ho] at h
      cases h

theorem breakLine_pos (n : Nesting) (cs : List Char) : 0 < (n.breakLine ('\n' :: cs)).passed := by
  unfold Nesting.breakLine
  simp only [List.takeWhile_cons, decide_true, if_true, List.length_cons]
  split
  · split <;> exact Nat.succ_pos _
  · split
    · exact Nat.succ_pos _
    · exact Nat.add_pos_right _ (Nat.succ_pos _)

/-- **A turn goes forward**, or starts a block.  The start of an indented block passes nothing, and
the turn after it does. -/
theorem move_forward {m : Option Nesting} {c : Char} {cs : List Char} {v : Move}
    (h : move m c cs = .ok v) : 0 < v.passed ∨ m = none ∧ v.next ≠ none := by
  cases turn_of_move h with
  | gap | classic | opening | closing | blank => exact Or.inl Nat.one_pos
  | remark =>
    rw [lineLength_comment]
    exact Or.inl (Nat.succ_pos _)
  | indented => exact Or.inr ⟨rfl, by simp⟩
  | lineEnd => exact Or.inl (breakLine_pos _ _)
  | comment => exact Or.inl (Nat.succ_pos _)
  | token _ hk => exact Or.inl (Token.length?_pos hk)

/-- What is left to do after a turn is less, where the start of a block counts as half a
character. -/
theorem move_shortens {m : Option Nesting} {c : Char} {cs : List Char} {v : Move}
    (h : move m c cs = .ok v) :
    2 * ((c :: cs).drop v.passed).length + (if v.next = none then 1 else 0) <
      2 * (c :: cs).length + (if m = none then 1 else 0) := by
  simp only [List.length_drop, List.length_cons]
  rcases move_forward h with hp | ⟨hm, hn⟩
  · split <;> split <;> omega
  · rw [if_pos hm, if_neg hn]
    omega

/-- Within a classic block in which `k` parentheses are open. -/
def inParens (k : Nat) : Option Nesting :=
  some ⟨.classic, 0, k⟩

theorem move_start (cs : List Char) : move none '(' cs = .ok ⟨1, [.enter], inParens 1⟩ :=
  congrArg Except.ok (moveBetween_opening cs)

theorem move_opening (k : Nat) (cs : List Char) :
    move (inParens k) '(' cs = .ok ⟨1, [.enter], inParens (k + 1)⟩ := by
  simp [move, Nesting.move, inParens]

theorem move_closing (k : Nat) (cs : List Char) :
    move (inParens (k + 1)) ')' cs = .ok ⟨1, [.leave], inParens k⟩ := by
  simp [move, Nesting.move, inParens]

theorem move_blank {c : Char} (hc : c = ' ' ∨ c = '\t') (cs : List Char) (n : Nesting) :
    move (some n) c cs = .ok ⟨1, [], some n⟩ := by
  rcases hc with rfl | rfl <;> simp [move, Nesting.move]

theorem move_breakLine (n : Nesting) (cs : List Char) :
    move (some n) '\n' cs = .ok (n.breakLine ('\n' :: cs)) := by
  simp only [move, Nesting.move, Front.of_lineEnd]

theorem move_token {c : Char} {cs : List Char} {k : Nat} (hc : Token.isStart c = true)
    (h : Token.length? (c :: cs) = some k) (n : Nesting) :
    move (some n) c cs = .ok ⟨k, [.leaf (String.ofList ((c :: cs).take k))], some n⟩ := by
  simp [move, Nesting.move, Front.of_token hc h]

end IndentLisp
