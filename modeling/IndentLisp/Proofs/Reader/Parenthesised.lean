/-
# Indentation as parentheses

Every text that can be read says the same as a text without indented blocks, which one pass from
left to right writes (`parenthesise`).  The pass copies what is between blocks and every classic
block.  It puts an indented block in parentheses of its own, writes parentheses for its line starts
and a blank for each of its comments, and closes at its end what is open there.

So indentation is another way to write parentheses, and nothing that can be said with the one cannot
be said with the other.  The parentheses of a line start are read off the rule for depths: an
opening one for each level down, or one closing for each level up and one more, and then an opening
one.  They are the strokes of that line, one by one (`Draws.line`).

The two scans go side by side.  **An indented block with `n.level` lists open is a classic block
with as many open parentheses** (`Nesting.closed`), and each turn of the one is a turn, or several,
of the other with the same strokes.  What takes care is where two parts of the new text meet: a
token must not go on, and line ends must not be more than they were.  The new text starts, at every
point, as the old one does there, or with a parenthesis or a blank (`head_parenthesise`), which ends
a token and ends a run of line ends.

* `Draws`: what the scan of a text draws that has classic blocks only.
* `draws_written`: one turn; `draws_parenthesise`: the simulation, by induction on the scan of the
  original.
* `read_parenthesised`: **the two texts are read to the same arena**, and all blocks of the new one
  are classic.
-/
import IndentLisp.Proofs.Reader.Progress
import IndentLisp.Proofs.Reader.RoundTrip

namespace IndentLisp

/-! ## 1. The pass -/

/-- What is written where an indented block ends: the parentheses that close its own list, the lists
of its lines and its own parentheses, and a line end.  Of a classic block nothing has to be
closed. -/
def blockEnd : Option Nesting → List Char
  | some ⟨.indented, depth, opened⟩ => List.replicate (1 + depth + opened) ')' ++ ['\n']
  | _ => []

/-- What is written for line ends and the tabs after them.  It is one parenthesis for each stroke by
which the line starts. -/
def lineStart (depth tabs : Nat) : List Char :=
  if depth < tabs then List.replicate (tabs - depth) '('
  else List.replicate (depth - tabs + 1) ')' ++ ['(']

/-- What is written for the characters that a turn passes.  In an indented block that is something
else at line ends and at a comment, and otherwise the characters are copied. -/
def written (m : Option Nesting) (c : Char) (cs : List Char) (v : Move) : List Char :=
  match m with
  | none =>
    match v.next with
    | some ⟨.indented, _, _⟩ => ['(']
    | _ => (c :: cs).take v.passed
  | some ⟨.classic, _, _⟩ => (c :: cs).take v.passed
  | some ⟨.indented, depth, _⟩ =>
    match Front.of c cs, v.next with
    | .lineEnd, some n => lineStart depth n.depth
    | .lineEnd, none => (c :: cs).take v.passed ++ blockEnd m
    | .comment, _ => [' ']
    | _, _ => (c :: cs).take v.passed

/-- The text without indented blocks.  What comes after an offence is copied. -/
def parenthesise (m : Option Nesting) : List Char → List Char
  | [] => blockEnd m
  | c :: cs =>
    match _h : move m c cs with
    | .error _ => c :: cs
    | .ok v => written m c cs v ++ parenthesise v.next ((c :: cs).drop v.passed)
termination_by cs => 2 * cs.length + if m = none then 1 else 0
decreasing_by exact move_shortens _h

theorem notMem_blockEnd (m : Option Nesting) : '\r' ∉ blockEnd m := by
  unfold blockEnd
  split <;> simp [List.mem_replicate]

/-- A text with parentheses in place of its indentation. -/
def parenthesised (text : String) : String :=
  String.ofList (parenthesise none (Lines.unify text.toList))

@[simp] theorem parenthesise_nil (m : Option Nesting) : parenthesise m [] = blockEnd m := by
  rw [parenthesise]

theorem parenthesise_error {m : Option Nesting} {c : Char} {cs : List Char} {o : Offence}
    (h : move m c cs = .error o) : parenthesise m (c :: cs) = c :: cs := by
  rw [parenthesise]
  split
  · rfl
  · rename_i v h'
    rw [h] at h'
    cases h'

theorem parenthesise_ok {m : Option Nesting} {c : Char} {cs : List Char} {v : Move}
    (h : move m c cs = .ok v) :
    parenthesise m (c :: cs) =
      written m c cs v ++ parenthesise v.next ((c :: cs).drop v.passed) := by
  rw [parenthesise]
  split
  · rename_i o h'
    rw [h] at h'
    cases h'
  · rename_i v' h'
    rw [h] at h'
    cases h'
    rfl

/-! ## 2. Texts with classic blocks only -/

/-- Whether a scan is within a classic block, or between blocks. -/
def IsClassic (m : Option Nesting) : Prop :=
  ∀ n, m = some n → n.style = .classic

/-- A scan that comes through classic blocks only. -/
def ClassicOnly (m : Option Nesting) (cs : List Char) : Prop :=
  ∀ m' ds, Reaches m cs m' ds → IsClassic m'

/-- A text with classic blocks only and without offence, and the strokes that its scan draws.  The
lemmas after it say how such a text can be made longer at its front. -/
structure Draws (m : Option Nesting) (cs : List Char) (strokes : List Stroke) : Prop where
  strokes_eq : (scan m cs).strokes = strokes
  sound : (scan m cs).offence? = none
  classic : ClassicOnly m cs

/-- A block with parentheses in place of its indentation: a classic one, with as many parentheses
open as lists.  A classic block is its own. -/
def Nesting.closed (n : Nesting) : Nesting :=
  ⟨.classic, 0, n.level⟩

theorem isClassic_none : IsClassic none := by
  intro n h
  cases h

theorem isClassic_inParens (k : Nat) : IsClassic (inParens k) := by
  intro n h
  cases h
  rfl

namespace Draws

theorem nil {m : Option Nesting} (hm : IsClassic m) :
    Draws m [] (List.replicate (levelOf m) .leave) := by
  refine ⟨by rw [scan_nil], by rw [scan_nil], ?_⟩
  intro m' ds h
  rwa [h.nil.1]

/-- **A turn adds its strokes.** -/
theorem step {m : Option Nesting} {c : Char} {cs : List Char} {v : Move} {xs : List Stroke}
    (hm : IsClassic m) (hv : move m c cs = .ok v)
    (h : Draws v.next ((c :: cs).drop v.passed) xs) : Draws m (c :: cs) (v.strokes ++ xs) := by
  refine ⟨?_, ?_, ?_⟩
  · rw [scan_ok hv, Scan.after, h.strokes_eq]
  · rw [scan_ok hv, Scan.after, h.sound]
  · intro m' ds hr
    rcases hr.head hv with ⟨rfl, -⟩ | hr
    · exact hm
    · exact h.classic m' ds hr

/-- A turn that passes just the first part of a text. -/
theorem chunk {m : Option Nesting} {c : Char} {chunk rest : List Char} {v : Move}
    {xs : List Stroke} (hm : IsClassic m) (hv : move m c (chunk ++ rest) = .ok v)
    (hp : v.passed = chunk.length + 1) (h : Draws v.next rest xs) :
    Draws m ((c :: chunk) ++ rest) (v.strokes ++ xs) := by
  have hrest : ((c :: chunk) ++ rest).drop v.passed = rest := by
    rw [hp]
    exact List.drop_left
  refine step hm hv ?_
  rwa [← hrest] at h

variable {k : Nat} {cs : List Char} {xs : List Stroke}

theorem start (h : Draws (inParens 1) cs xs) : Draws none ('(' :: cs) (.enter :: xs) :=
  step isClassic_none (move_start cs) h

theorem opening (h : Draws (inParens (k + 1)) cs xs) :
    Draws (inParens k) ('(' :: cs) (.enter :: xs) :=
  step (isClassic_inParens k) (move_opening k cs) h

theorem closing (h : Draws (inParens k) cs xs) :
    Draws (inParens (k + 1)) (')' :: cs) (.leave :: xs) :=
  step (isClassic_inParens (k + 1)) (move_closing k cs) h

theorem openings (j : Nat) (h : Draws (inParens (k + j)) cs xs) :
    Draws (inParens k) (List.replicate j '(' ++ cs) (List.replicate j .enter ++ xs) := by
  induction j generalizing k with
  | zero => exact h
  | succ j ih =>
    rw [List.replicate_succ, List.replicate_succ]
    refine opening (ih ?_)
    rwa [Nat.add_assoc, Nat.add_comm 1]

theorem closings (j : Nat) (h : Draws (inParens k) cs xs) :
    Draws (inParens (k + j)) (List.replicate j ')' ++ cs) (List.replicate j .leave ++ xs) := by
  induction j generalizing k with
  | zero => exact h
  | succ j ih =>
    rw [List.replicate_succ, List.replicate_succ]
    exact closing (ih h)

theorem blank {c : Char} (hc : c = ' ' ∨ c = '\t') (h : Draws (inParens k) cs xs) :
    Draws (inParens k) (c :: cs) xs :=
  step (isClassic_inParens k) (move_blank hc cs _) h

/-- Where a line starts, its parentheses draw what its tabs did. -/
theorem line {depth tabs opened : Nat}
    (h : Draws (inParens (1 + tabs + opened)) cs xs) :
    Draws (inParens (1 + depth + opened)) (lineStart depth tabs ++ cs)
      (Stroke.line depth tabs ++ xs) := by
  unfold lineStart Stroke.line
  split
  · refine openings (tabs - depth) ?_
    rwa [show 1 + depth + opened + (tabs - depth) = 1 + tabs + opened by omega]
  · have hopen := opening (k := tabs + opened) (by rwa [Nat.add_right_comm, Nat.add_comm tabs 1])
    have hclose := closings (depth - tabs + 1) hopen
    rw [List.append_assoc, List.append_assoc]
    rwa [show 1 + depth + opened = tabs + opened + (depth - tabs + 1) by omega]

/-- A token stays as it is where what follows it is replaced. -/
theorem token {c : Char} {ds : List Char} {n : Nat} (hc : Token.isStart c = true)
    (hn : Token.length? (c :: ds) = some n)
    (hr : ∀ d, cs.head? = some d →
      Token.isDelimiter d = true ∨ ((c :: ds).drop n).head? = some d)
    (h : Draws (inParens k) cs xs) :
    Draws (inParens k) ((c :: ds).take n ++ cs)
      (.leaf (String.ofList ((c :: ds).take n)) :: xs) := by
  have htok := Token.length?_replace hn hr
  have hlen : ((c :: ds).take n).length = n := List.length_take_of_le (Token.length?_le hn)
  obtain ⟨j, rfl⟩ := Nat.exists_eq_succ_of_ne_zero (Nat.ne_of_gt (Token.length?_pos hn))
  have hsame : (c :: (ds.take j ++ cs)).take (j + 1) = (c :: ds).take (j + 1) :=
    List.take_left' hlen
  have hmove : move (inParens k) c (ds.take j ++ cs) =
      .ok ⟨j + 1, [.leaf (String.ofList ((c :: ds).take (j + 1)))], inParens k⟩ := by
    rw [← hsame]
    exact move_token hc htok ⟨.classic, 0, k⟩
  exact chunk (isClassic_inParens k) hmove hlen.symm h

/-- Line ends within a classic block, or at its end. -/
theorem move_ends {j : Nat} (hr : ∀ d, cs.head? = some d → d ≠ '\n') :
    move (inParens k) '\n' (List.replicate j '\n' ++ cs) =
      .ok ⟨j + 1, [], if k = 0 then none else inParens k⟩ := by
  have hrun : ('\n' :: (List.replicate j '\n' ++ cs)).takeWhile (· = '\n') =
      List.replicate (j + 1) '\n' := by
    rw [← List.cons_append, ← List.replicate_succ]
    refine takeWhile_append (fun c hc => ?_) fun d hd => ?_
    · simp [List.eq_of_mem_replicate hc]
    · simp [hr d hd]
  simp only [move, inParens, Nesting.move, Front.of_lineEnd, Nesting.breakLine, hrun,
    List.length_replicate]
  split <;> rfl

theorem ends {j : Nat} (hr : ∀ d, cs.head? = some d → d ≠ '\n')
    (h : Draws (inParens (k + 1)) cs xs) :
    Draws (inParens (k + 1)) (List.replicate (j + 1) '\n' ++ cs) xs := by
  rw [List.replicate_succ]
  exact chunk (isClassic_inParens (k + 1)) (move_ends hr) (by simp) h

theorem lastEnds {j : Nat} (hr : ∀ d, cs.head? = some d → d ≠ '\n') (h : Draws none cs xs) :
    Draws (inParens 0) (List.replicate (j + 1) '\n' ++ cs) xs := by
  rw [List.replicate_succ]
  exact chunk (isClassic_inParens 0) (move_ends hr) (by simp) h

end Draws

/-! ## 3. The front of the new text -/

theorem replicate_cons {j : Nat} (h : 0 < j) (c : Char) :
    ∃ cs, List.replicate j c = c :: cs := by
  obtain ⟨i, rfl⟩ := Nat.exists_eq_succ_of_ne_zero (Nat.ne_of_gt h)
  exact ⟨_, List.replicate_succ⟩

/-- What is written for a turn is a parenthesis or a blank, or starts as the turn did. -/
theorem written_cons {m : Option Nesting} {c : Char} {cs : List Char} {v : Move}
    (hv : move m c cs = .ok v) :
    ∃ d ds, written m c cs v = d :: ds ∧ (d = '(' ∨ d = ')' ∨ d = ' ' ∨ d = c) := by
  have hcopy : 0 < v.passed → ∃ ds, (c :: cs).take v.passed = c :: ds := by
    intro hpos
    obtain ⟨j, hj⟩ := Nat.exists_eq_succ_of_ne_zero (Nat.ne_of_gt hpos)
    exact ⟨cs.take j, by rw [hj, List.take_succ_cons]⟩
  unfold written
  split
  · split
    · exact ⟨'(', [], rfl, by simp⟩
    · rename_i hnext
      have hpos : 0 < v.passed := by
        cases turn_of_move hv with
        | gap | classic => exact Nat.one_pos
        | remark =>
          rw [lineLength_comment]
          exact Nat.succ_pos _
        | indented => exact absurd rfl (hnext 0 0)
      obtain ⟨ds, hds⟩ := hcopy hpos
      exact ⟨c, ds, hds, by simp⟩
  all_goals
    have hpos : 0 < v.passed := by
      rcases move_forward hv with hpos | ⟨hnone, -⟩
      · exact hpos
      · cases hnone
    obtain ⟨ds, hds⟩ := hcopy hpos
  · exact ⟨c, ds, hds, by simp⟩
  · rename_i depth _
    split
    · rename_i n _ _
      unfold lineStart
      split
      · obtain ⟨es, hes⟩ := replicate_cons (j := n.depth - depth) (by omega) '('
        exact ⟨'(', es, hes, by simp⟩
      · obtain ⟨es, hes⟩ := replicate_cons (j := depth - n.depth + 1) (by omega) ')'
        exact ⟨')', es ++ ['('], by rw [hes]; rfl, by simp⟩
    · exact ⟨c, _, by rw [hds]; rfl, by simp⟩
    · exact ⟨' ', [], rfl, by simp⟩
    · exact ⟨c, ds, hds, by simp⟩

/-- **The new text starts as the old one does, or with a parenthesis or a blank.**  So where the old
text had ended a token the new one does, and it never has a line end more. -/
theorem head_parenthesise {m : Option Nesting} {cs : List Char} {d : Char}
    (h : (parenthesise m cs).head? = some d) :
    (Token.isDelimiter d = true ∧ d ≠ '\n') ∨ cs.head? = some d := by
  have hmark : d = '(' ∨ d = ')' ∨ d = ' ' → Token.isDelimiter d = true ∧ d ≠ '\n' := by
    rintro (rfl | rfl | rfl) <;> exact ⟨rfl, by decide⟩
  cases cs with
  | nil =>
    rw [parenthesise_nil] at h
    unfold blockEnd at h
    split at h
    · rename_i depth opened
      obtain ⟨es, hes⟩ := replicate_cons (j := 1 + depth + opened) (by omega) ')'
      rw [hes] at h
      cases h
      exact Or.inl (hmark (by simp))
    · cases h
  | cons c cs =>
    cases hv : move m c cs with
    | error o =>
      rw [parenthesise_error hv] at h
      exact Or.inr h
    | ok v =>
      obtain ⟨e, es, hes, he⟩ := written_cons hv
      rw [parenthesise_ok hv, hes] at h
      cases h
      rcases he with he | he | he | rfl
      · exact Or.inl (hmark (Or.inl he))
      · exact Or.inl (hmark (Or.inr (Or.inl he)))
      · exact Or.inl (hmark (Or.inr (Or.inr he)))
      · exact Or.inr rfl

/-! ## 4. The simulation -/

/-- What is written at the end of a text closes what is open there. -/
theorem draws_blockEnd (m : Option Nesting) :
    Draws (m.map Nesting.closed) (blockEnd m) (List.replicate (levelOf m) .leave) := by
  match m with
  | none => exact Draws.nil isClassic_none
  | some ⟨.classic, depth, opened⟩ => exact Draws.nil (isClassic_inParens opened)
  | some ⟨.indented, depth, opened⟩ =>
    have hend : Draws (inParens 0) (List.replicate 1 '\n' ++ []) [] :=
      Draws.lastEnds (by simp) (Draws.nil isClassic_none)
    have h := Draws.closings (1 + depth + opened) hend
    rw [Nat.zero_add, List.append_nil, List.append_nil] at h
    exact h

/-- A comment between blocks. -/
theorem draws_remark {cs rest : List Char} {xs : List Stroke}
    (hr : ∀ d, rest.head? = some d → d = '\n') (h : Draws none rest xs) :
    Draws none ((';' :: cs).take (lineLength (';' :: cs)) ++ rest) xs := by
  have hmove : move none ';' (cs.take (lineLength cs) ++ rest) =
      .ok ⟨lineLength cs + 1, [], none⟩ := by
    simp only [move, moveBetween_comment, lineLength_comment,
      lineLength_append (notMem_line cs) hr, length_line]
  rw [lineLength_comment, List.take_succ_cons]
  exact Draws.chunk isClassic_none hmove (by rw [length_line]) h

/-- A comment in a classic block, with the line end after it. -/
theorem draws_comment {cs rest : List Char} {k : Nat} {xs : List Stroke}
    (hr : cs.drop (lineLength cs + 1) = [] → rest = []) (h : Draws (inParens k) rest xs) :
    Draws (inParens k) (';' :: (cs.take (lineLength cs + 1) ++ rest)) xs := by
  have hmove : ∀ ds, move (inParens k) ';' ds = .ok ⟨lineLength ds + 2, [], inParens k⟩ := by
    intro ds
    simp [move, Nesting.move, inParens, lineLength_comment]
  refine Draws.step (isClassic_inParens k) (hmove _) ?_
  show Draws (inParens k) ((cs.take (lineLength cs + 1) ++ rest).drop
    (lineLength (cs.take (lineLength cs + 1) ++ rest) + 1)) xs
  rcases drop_lineLength cs with hd | ⟨ds, hd⟩
  · -- The comment ends with the text.
    have hlen : cs.length ≤ lineLength cs := List.drop_eq_nil_iff.mp hd
    obtain rfl : rest = [] := hr (List.drop_eq_nil_of_le (by omega))
    rwa [List.append_nil, List.take_of_length_le (by omega), List.drop_eq_nil_of_le (by omega)]
  · have htake : cs.take (lineLength cs + 1) = cs.take (lineLength cs) ++ ['\n'] := by
      rw [List.take_add, hd]
      rfl
    have hline : lineLength (cs.take (lineLength cs) ++ '\n' :: rest) =
        (cs.take (lineLength cs)).length := lineLength_append (notMem_line cs) (by simp)
    rw [htake, List.append_assoc, List.singleton_append, hline, ← List.drop_drop, List.drop_left]
    exact h

/-- Line ends in a block. -/
theorem draws_breakLine {n : Nesting} {cs : List Char} {xs : List Stroke}
    (h : Draws ((n.breakLine ('\n' :: cs)).next.map Nesting.closed)
      (parenthesise (n.breakLine ('\n' :: cs)).next
        (('\n' :: cs).drop (n.breakLine ('\n' :: cs)).passed)) xs) :
    Draws (inParens n.level)
      (written (some n) '\n' cs (n.breakLine ('\n' :: cs)) ++
        parenthesise (n.breakLine ('\n' :: cs)).next
          (('\n' :: cs).drop (n.breakLine ('\n' :: cs)).passed))
      ((n.breakLine ('\n' :: cs)).strokes ++ xs) := by
  obtain ⟨j, hj⟩ : ∃ j, (('\n' :: cs).takeWhile (· = '\n')).length = j + 1 :=
    ⟨(cs.takeWhile (· = '\n')).length, by simp⟩
  have hrun : ('\n' :: cs).take (j + 1) = List.replicate (j + 1) '\n' := by
    rw [← hj, take_takeWhile, List.eq_replicate_iff]
    exact ⟨rfl, fun c hc => by simpa using List.all_eq_true.mp List.all_takeWhile c hc⟩
  -- The run is as long as it can be, and the pass starts no other.
  have hr : ∀ m d, (parenthesise m (('\n' :: cs).drop (j + 1))).head? = some d → d ≠ '\n' := by
    intro m d hd
    rcases head_parenthesise hd with ⟨-, hne⟩ | hd
    · exact hne
    · have hstop := List.head?_dropWhile_not (· = '\n') ('\n' :: cs)
      rw [← drop_takeWhile, hj, hd] at hstop
      simpa using hstop
  obtain ⟨style, depth, opened⟩ := n
  cases style with
  | classic =>
    cases opened with
    | zero =>
      have hv : (⟨.classic, depth, 0⟩ : Nesting).breakLine ('\n' :: cs) = ⟨j + 1, [], none⟩ := by
        simp only [Nesting.breakLine, hj]
        rfl
      rw [hv] at h ⊢
      rw [written, hrun]
      exact Draws.lastEnds (hr none) h
    | succ k =>
      have hv : (⟨.classic, depth, k + 1⟩ : Nesting).breakLine ('\n' :: cs) =
          ⟨j + 1, [], some ⟨.classic, depth, k + 1⟩⟩ := by
        simp only [Nesting.breakLine, hj]
        rfl
      rw [hv] at h ⊢
      rw [written, hrun]
      exact Draws.ends (hr _) h
  | indented =>
    cases ht : ((('\n' :: cs).drop (j + 1)).takeWhile (· = '\t')).length with
    | zero =>
      have hv : (⟨.indented, depth, opened⟩ : Nesting).breakLine ('\n' :: cs) =
          ⟨j + 1, List.replicate (1 + depth + opened) .leave, none⟩ := by
        simp only [Nesting.breakLine, hj, ht, Nesting.level]
      rw [hv] at h ⊢
      obtain ⟨k, hk⟩ : ∃ k, 1 + depth + opened = k + 1 := ⟨depth + opened, by omega⟩
      have hend : Draws (inParens 0) _ xs := Draws.lastEnds (j := 0) (hr none) h
      have hclose := Draws.closings (k + 1) hend
      rw [Nat.zero_add] at hclose
      simp only [written, Front.of_lineEnd, blockEnd, Nesting.level, hrun, hk, List.append_assoc]
      exact Draws.ends (by simp [List.replicate_succ]) hclose
    | succ tabs =>
      have hv : (⟨.indented, depth, opened⟩ : Nesting).breakLine ('\n' :: cs) =
          ⟨j + 1 + (tabs + 1), Stroke.line depth (tabs + 1),
            some ⟨.indented, tabs + 1, opened⟩⟩ := by
        simp only [Nesting.breakLine, hj, ht]
      rw [hv] at h ⊢
      exact Draws.line h

/-- A turn of an indented block that is neither at a line end nor at a comment is copied, as is each
turn of a classic block. -/
theorem written_copy {n : Nesting} {c : Char} {cs : List Char} {v : Move} (hn : c ≠ '\n')
    (hc : c ≠ ';') : written (some n) c cs v = (c :: cs).take v.passed := by
  have hf := Front.of_cases c cs
  obtain ⟨style, depth, opened⟩ := n
  cases style with
  | classic => rfl
  | indented =>
    simp only [written]
    cases ho : Front.of c cs with
    | lineEnd =>
      rw [ho] at hf
      exact absurd hf hn
    | comment =>
      rw [ho] at hf
      exact absurd hf hc
    | opening | closing | blank | token | fault => rfl

/-- **One turn**: what is written for it draws what it drew.  The cases are those of a turn; the
strokes that come after it are given. -/
theorem draws_written {m : Option Nesting} {c : Char} {cs : List Char} {v : Move} {xs : List Stroke}
    (hv : move m c cs = .ok v)
    (h : Draws (v.next.map Nesting.closed) (parenthesise v.next ((c :: cs).drop v.passed)) xs) :
    Draws (m.map Nesting.closed)
      (written m c cs v ++ parenthesise v.next ((c :: cs).drop v.passed)) (v.strokes ++ xs) := by
  cases turn_of_move hv with
  | gap hc => exact Draws.step isClassic_none (congrArg Except.ok (moveBetween_blank hc _)) h
  | remark =>
    refine draws_remark (fun d hd => ?_) h
    rcases drop_lineLength (';' :: cs) with hnil | ⟨ds, hds⟩
    · simp [hnil, blockEnd] at hd
    · have hn : move none '\n' ds = .ok ⟨1, [], none⟩ :=
        congrArg Except.ok (moveBetween_blank (by simp) ds)
      rw [hds, parenthesise_ok hn] at hd
      simpa [written, eq_comm] using hd
  | classic | indented => exact Draws.start h
  | @opening n _ =>
    rw [written_copy (by decide) (by decide)]
    have hl : ({ n with opened := n.opened + 1 } : Nesting).level = n.level + 1 := by
      obtain ⟨style, depth, opened⟩ := n
      cases style <;> rfl
    refine Draws.opening ?_
    rw [← hl]
    exact h
  | @closing n _ h0 =>
    rw [written_copy (by decide) (by decide)]
    have hl : n.level = ({ n with opened := n.opened - 1 } : Nesting).level + 1 := by
      obtain ⟨style, depth, opened⟩ := n
      cases style <;> simp only [Nesting.level] at h0 ⊢ <;> omega
    show Draws (inParens n.level) _ _
    rw [hl]
    exact Draws.closing h
  | blank hc =>
    rw [written_copy (by rcases hc with rfl | rfl <;> decide)
      (by rcases hc with rfl | rfl <;> decide)]
    exact Draws.blank hc h
  | lineEnd => exact draws_breakLine h
  | @comment n _ =>
    rw [lineLength_comment] at h ⊢
    obtain ⟨style, depth, opened⟩ := n
    cases style with
    | classic =>
      refine draws_comment (fun hd => ?_) h
      rw [List.drop_succ_cons, hd]
      exact parenthesise_nil _
    | indented => exact Draws.blank (Or.inl rfl) h
  | token hc hk =>
    obtain ⟨-, -, -, -, hn, hs⟩ := Token.isStart_iff.mp hc
    rw [written_copy hn hs]
    -- What follows the token starts as before, or with a delimiter.
    exact Draws.token hc hk (fun d hd => (head_parenthesise hd).imp And.left id) h

/-- **The simulation**: the pass keeps every stroke.  The induction is on the turns of the original,
from its end backwards, as the front of the new text is what has to be known. -/
theorem draws_parenthesise {m : Option Nesting} {cs : List Char}
    (h : (scan m cs).offence? = none) :
    Draws (m.map Nesting.closed) (parenthesise m cs) (scan m cs).strokes := by
  fun_induction scan m cs with
  | case1 m =>
    rw [parenthesise_nil]
    exact draws_blockEnd m
  | case2 m c cs o hv => cases h
  | case3 m c cs v hv ih =>
    rw [parenthesise_ok hv]
    exact draws_written hv (ih h)

/-! ## 5. Whole texts -/

/-- The pass writes no carriage return of its own. -/
theorem notMem_written {m : Option Nesting} {c : Char} {cs : List Char} {v : Move}
    (h : '\r' ∉ c :: cs) : '\r' ∉ written m c cs v := by
  have htake : '\r' ∉ (c :: cs).take v.passed := fun hm => h (List.mem_of_mem_take hm)
  have hend : '\r' ∉ blockEnd m := notMem_blockEnd m
  unfold written
  split
  · split
    · simp
    · exact htake
  · exact htake
  · split
    · unfold lineStart
      split <;> simp [List.mem_replicate]
    · simp only [List.mem_append, not_or]
      exact ⟨htake, hend⟩
    · simp
    · exact htake

theorem notMem_parenthesise {m : Option Nesting} {cs : List Char} (h : '\r' ∉ cs) :
    '\r' ∉ parenthesise m cs := by
  fun_induction parenthesise m cs with
  | case1 m => exact notMem_blockEnd m
  | case2 m c cs o hv => exact h
  | case3 m c cs v hv ih =>
    simp only [List.mem_append, not_or]
    exact ⟨notMem_written h, ih fun hm => h (List.mem_of_mem_drop hm)⟩

/-- The new text scans as the old one does. -/
theorem draws_parenthesised {text : String} (h : (scanText text).offence? = none) :
    Draws none (Lines.unify (parenthesised text).toList) (scanText text).strokes := by
  have hcr : '\r' ∉ parenthesise none (Lines.unify text.toList) :=
    notMem_parenthesise (Lines.not_mem_unify text.toList)
  rw [parenthesised, String.toList_ofList, Lines.unify_of_notMem hcr]
  exact draws_parenthesise h

/-- **Indentation is sugar for parentheses.**  Whatever text is read to a tree, the text that has
parentheses in place of its indentation is read to the same arena with the same root, and all its
blocks are classic. -/
theorem read_parenthesised {text file : String} {t : Tree} (h : read text file = .ok t) :
    read (parenthesised text) file = .ok t ∧
      ∀ k b r, Reader.Visits (parenthesised text) file k (some b) r → b.style = .classic := by
  obtain ⟨ho, ht⟩ := read_eq_ok_iff.mp h
  have hd := draws_parenthesised ho
  refine ⟨read_eq_ok_iff.mpr ⟨hd.sound, ?_⟩, fun k b r hv => ?_⟩
  · rw [← ht, draftOf, draftOf, scanText, hd.strokes_eq]
  · obtain ⟨m, hf, hr⟩ := hv.fits
    obtain ⟨n, d, rfl, -, rfl, -⟩ := Reader.fits_some hf
    exact hd.classic _ _ hr n rfl

theorem read_parenthesised_nested_lines :
    parenthesised "f x\n\tg (a ; b\n\t\tc)\n(k)\n" = "(f x(g (a  \t\tc)\n))\n(k)\n" ∧
      ∃ t, read (parenthesised "f x\n\tg (a ; b\n\t\tc)\n(k)\n") "" = .ok t := by
  have h : read "f x\n\tg (a ; b\n\t\tc)\n(k)\n" "" =
      .ok (draftOf "f x\n\tg (a ; b\n\t\tc)\n(k)\n").tree.unwrap :=
    read_eq_ok_iff.mpr ⟨by decide +kernel, rfl⟩
  exact ⟨by decide +kernel, _, (read_parenthesised h).1⟩

end IndentLisp
