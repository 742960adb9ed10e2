/-
# Which texts are rejected

A text is rejected for a closing parenthesis that has nothing to close, or for a quote that starts
no token, and for nothing else (section 5).  Where such an offence is can be told without a tree and
without depths: a block needs only its style and **one count of its open parentheses** (`Tally`).

The count is kept block by block.  A classic block starts with one open parenthesis, its own, and
ends at line ends once none is open; an indented block starts with none, and goes on where a tab
follows its line ends, however deep.  How deep makes no difference to what is an offence, although
it makes one to which list a parenthesis closes: the reader counts parentheses as well, and asks its
tree for nothing else.

Lists that are open are no offence, neither at the end of a text nor where an indented block ends
with some of its parentheses open (`Reader.turn_lastEnds`).

* `firstOffence?`: the first offence of a text, found by counting.
* `offenceAt_move`: a turn of a scan keeps the count, however it nests; `offenceAt_scan` is the
  whole scan.
* `firstOffence?_eq`: the first offence of a text is the one at which its scan stops.
* `read_rejects_first_offence`: **a text is rejected for its first offence, where it stands, and
  read if it has none.**
-/
import IndentLisp.Proofs.Reader.LineEnds
import IndentLisp.Proofs.Reader.Position
import IndentLisp.Proofs.Reader.Progress

namespace IndentLisp

/-! ## 1. Counting -/

/-- The style of a block, and the number of its parentheses that are open.  The depth of its lines
is not in it, and no list of a tree. -/
structure Tally where
  style : Reader.Style
  opened : Nat
deriving DecidableEq, Repr

/-- Whether a block with this count goes on after line ends before `rest`: a classic block while a
parenthesis is open, and an indented one if a tab follows. -/
def Tally.goesOn (t : Tally) (rest : List Char) : Bool :=
  match t.style with
  | .classic => t.opened ≠ 0
  | .indented => rest.head? = some '\t'

/-- The first offence of what is left of a text at an offset, within a block or between blocks.  It
is the rule for blocks and parentheses written out in full, with a count in place of a tree. -/
def offenceAt (offset : Nat) : Option Tally → List Char → Option (Nat × Offence)
  | _, [] => none
  | none, c :: cs =>
    if c = ' ' ∨ c = '\t' ∨ c = '\n' then offenceAt (offset + 1) none cs
    else if c = ';' then offenceAt (offset + 1 + lineLength cs) none (cs.drop (lineLength cs))
    else if c = '(' then offenceAt (offset + 1) (some ⟨.classic, 1⟩) cs
    else offenceAt offset (some ⟨.indented, 0⟩) (c :: cs)
  | some t, c :: cs =>
    if c = '(' then offenceAt (offset + 1) (some { t with opened := t.opened + 1 }) cs
    else if c = ')' then
      if t.opened = 0 then some (offset, .extraClose)
      else offenceAt (offset + 1) (some { t with opened := t.opened - 1 }) cs
    else if c = ' ' ∨ c = '\t' then offenceAt (offset + 1) (some t) cs
    else if c = '\n' then
      let ends := (cs.takeWhile (· = '\n')).length
      if t.goesOn (cs.drop ends) then offenceAt (offset + 1 + ends) (some t) (cs.drop ends)
      else offenceAt (offset + 1 + ends) none (cs.drop ends)
    else if c = ';' then
      offenceAt (offset + 2 + lineLength cs) (some t) (cs.drop (lineLength cs + 1))
    else
      match h : Token.length? (c :: cs) with
      | some k =>
        have := Token.length?_pos h
        offenceAt (offset + k) (some t) ((c :: cs).drop k)
      | none => some (offset, if c = '"' then .unterminatedString else .malformedCharacter)
termination_by m cs => 2 * cs.length + if m = none then 1 else 0
decreasing_by
  all_goals
    simp only [List.length_cons, List.length_drop, if_true, if_false]
    omega

/-- The first offence of a text. -/
def firstOffence? (cs : List Char) : Option (Nat × Offence) :=
  offenceAt 0 none cs

@[simp] theorem offenceAt_nil (offset : Nat) (m : Option Tally) : offenceAt offset m [] = none := by
  rw [offenceAt]

/-- Blanks at the front of a line count for nothing. -/
theorem offenceAt_tabs (offset k : Nat) (t : Tally) (cs : List Char) :
    offenceAt offset (some t) (List.replicate k '\t' ++ cs) =
      offenceAt (offset + k) (some t) cs := by
  induction k generalizing offset with
  | zero => rfl
  | succ k ih =>
    rw [List.replicate_succ, List.cons_append, offenceAt]
    simp only [if_neg (show ¬ '\t' = '(' by decide), if_neg (show ¬ '\t' = ')' by decide), or_true,
      if_true]
    rw [ih, Nat.add_assoc, Nat.add_comm 1 k]

/-! ## 2. A count against a scan -/

/-- What a count keeps of a nesting. -/
def Nesting.tally (n : Nesting) : Tally :=
  ⟨n.style, n.opened⟩

/-- A run of line ends, by counting. -/
theorem offenceAt_ends (offset j : Nat) (t : Tally) {rest : List Char}
    (hn : rest.head? ≠ some '\n') :
    offenceAt offset (some t) (List.replicate (j + 1) '\n' ++ rest) =
      offenceAt (offset + (j + 1)) (if t.goesOn rest then some t else none) rest := by
  rw [List.replicate_succ, List.cons_append, offenceAt]
  simp only [length_run j hn, drop_run, Nat.add_assoc, Nat.add_comm 1 j]
  cases t.goesOn rest <;> simp

/-- Line ends, and the tabs after them. -/
theorem offenceAt_breakLine (offset : Nat) (n : Nesting) (cs : List Char) :
    offenceAt offset (some n.tally) ('\n' :: cs) =
      offenceAt (offset + (n.breakLine ('\n' :: cs)).passed)
        ((n.breakLine ('\n' :: cs)).next.map Nesting.tally)
        (('\n' :: cs).drop (n.breakLine ('\n' :: cs)).passed) := by
  obtain ⟨j, rest, hcs, hn⟩ := exists_run_cons '\n' cs
  rw [hcs, offenceAt_ends offset j n.tally hn]
  obtain ⟨style, depth, opened⟩ := n
  cases style with
  | classic =>
    by_cases h0 : opened = 0
    · rw [Nesting.breakLine_last j hn (fun _ => h0) (fun h => by cases h), drop_run]
      simp [Nesting.tally, Tally.goesOn, h0]
    · rw [Nesting.breakLine_open j rfl h0 hn, drop_run]
      simp [Nesting.tally, Tally.goesOn, h0]
  | indented =>
    obtain ⟨k, rest, rfl, ht⟩ := exists_run '\t' rest
    cases k with
    | zero =>
      have ht : (List.replicate 0 '\t' ++ rest).head? ≠ some '\t' := ht
      rw [Nesting.breakLine_last j hn (fun h => by cases h) (fun _ => ht), drop_run]
      have ht : rest.head? ≠ some '\t' := ht
      simp [Nesting.tally, Tally.goesOn, ht]
    | succ k =>
      rw [Nesting.breakLine_line j k rfl ht, ← List.drop_drop, drop_run, drop_run]
      simp only [Nesting.tally, Tally.goesOn, List.replicate_succ, List.cons_append,
        List.head?_cons, decide_true, if_true, Option.map_some]
      rw [← List.cons_append, ← List.replicate_succ, offenceAt_tabs, Nat.add_assoc]

/-- **A turn keeps the count**, however the block nests.  The count looks at line ends one run at a
time, and passes the tabs after it one by one. -/
theorem offenceAt_move {m : Option Nesting} {c : Char} {cs : List Char} {v : Move}
    (h : move m c cs = .ok v) (offset : Nat) :
    offenceAt offset (m.map Nesting.tally) (c :: cs) =
      offenceAt (offset + v.passed) (v.next.map Nesting.tally) ((c :: cs).drop v.passed) := by
  cases turn_of_move h with
  | gap hc => rcases hc with rfl | rfl | rfl <;> simp [offenceAt]
  | remark =>
    rw [lineLength_comment, List.drop_succ_cons, Option.map_none, offenceAt]
    simp [Nat.add_assoc, Nat.add_comm 1]
  | classic => simp [offenceAt, Nesting.tally]
  | indented hc ho =>
    rw [Option.map_none, offenceAt]
    simp [hc, ho, Nesting.tally]
  | opening => simp [offenceAt, Nesting.tally]
  | closing h0 => simp [offenceAt, Nesting.tally, h0]
  | blank hc => rcases hc with rfl | rfl <;> simp [offenceAt]
  | lineEnd => exact offenceAt_breakLine offset _ cs
  | comment =>
    rw [lineLength_comment, List.drop_succ_cons, Option.map_some, offenceAt]
    simp [Nat.add_assoc, Nat.add_comm 2]
  | token hc hk =>
    obtain ⟨h1, h2, h3, h4, h5, h6⟩ := Token.isStart_iff.mp hc
    rw [Option.map_some, offenceAt]
    simp only [h1, h2, h3, h4, h5, h6, or_self, if_false]
    split
    · rename_i j hj
      rw [hk] at hj
      cases hj
      rfl
    · rename_i hj
      rw [hk] at hj
      cases hj

/-- A turn that is none. -/
theorem offenceAt_error {m : Option Nesting} {c : Char} {cs : List Char} {o : Offence}
    (h : move m c cs = .error o) (offset : Nat) :
    offenceAt offset (m.map Nesting.tally) (c :: cs) = some (offset, o) := by
  cases m with
  | none => cases h
  | some n =>
    have hf := Front.of_cases c cs
    simp only [move, Nesting.move] at h
    rw [Option.map_some, offenceAt]
    cases ho : Front.of c cs with
    | closing =>
      rw [ho] at hf h
      obtain rfl : c = ')' := hf
      simp only at h
      split at h
      · rename_i h0
        cases h
        simp [Nesting.tally, h0]
      · cases h
    | fault o' =>
      rw [ho] at hf h
      cases h
      obtain ⟨hc, hl, hq⟩ := hf
      obtain ⟨h1, h2, h3, h4, h5, h6⟩ := Token.isStart_iff.mp hc
      simp only [h1, h2, h3, h4, h5, h6, or_self, if_false]
      split
      · rename_i k hk
        rw [hl] at hk
        cases hk
      · rcases hq with ⟨rfl, rfl⟩ | ⟨rfl, rfl⟩ <;> rfl
    | opening | blank | lineEnd | comment | token =>
      rw [ho] at h
      cases h

/-- **Counting finds the offence of the scan**, at the offset to which the scan comes.  There is
none just if the scan has none. -/
theorem offenceAt_scan (m : Option Nesting) (cs : List Char) (offset : Nat) :
    offenceAt offset (m.map Nesting.tally) cs =
      (scan m cs).offence?.map (offset + (scan m cs).passed, ·) := by
  fun_induction scan m cs generalizing offset with
  | case1 m => simp
  | case2 m c cs o h => exact offenceAt_error h offset
  | case3 m c cs v h ih =>
    rw [offenceAt_move h, ih, Scan.after, Nat.add_assoc]

/-- The first offence of a text is the one at which its scan stops. -/
theorem firstOffence?_eq (text : String) :
    firstOffence? (Lines.unify text.toList) =
      (scanText text).offence?.map ((scanText text).passed, ·) := by
  have h := offenceAt_scan none (Lines.unify text.toList) 0
  rw [Nat.zero_add] at h
  exact h

/-! ## 3. Whole texts -/

namespace Reader

/-- **An indented block ends wherever no tab follows its line ends**, whatever is open in it.
Neither its own list nor a parenthesis keeps it from that. -/
theorem turn_lastEnds {m : Option Nesting} {b : Block} {r : Reader} {j : Nat} {rest : List Char}
    (h : Fits m (some b) r) (hs : b.style = .indented)
    (ha : r.cursor.ahead = List.replicate (j + 1) '\n' ++ rest) (hn : rest.head? ≠ some '\n')
    (ht : rest.head? ≠ some '\t') :
    ∃ r', turn b r = .ok none r' ∧ r'.cursor.ahead = rest := by
  obtain ⟨n, d, -, hl, rfl, hr⟩ := fits_some h
  obtain ⟨style, depth, opened⟩ := n
  obtain rfl : style = .indented := hs
  have hmove : Nesting.move ⟨.indented, depth, opened⟩ '\n' (List.replicate j '\n' ++ rest) =
      .ok ⟨j + 1, List.replicate (1 + depth + opened) .leave, none⟩ := by
    simp only [Nesting.move, Front.of_lineEnd]
    rw [← List.cons_append, ← List.replicate_succ,
      Nesting.breakLine_last j hn (fun h => by cases h) (fun _ => ht), Nesting.level]
  have ha' : r.cursor.ahead = '\n' :: (List.replicate j '\n' ++ rest) := by
    rw [ha, List.replicate_succ, List.cons_append]
  have hturn := turn_eq r.file hl ha'
  rw [← hr, hmove] at hturn
  refine ⟨_, hturn, ?_⟩
  simp only [drawn, Cursor.skip_ahead, ha, drop_run]

end Reader

/-- **A text is rejected for its first offence, where it stands, and read if it has none.**
Counting open parentheses finds the offence, without a tree.  Lists that are open where the text
ends are no offence, and neither are those that are open where an indented block ends. -/
theorem read_rejects_first_offence (text file : String) :
    let source := Lines.unify text.toList
    ((∃ t, read text file = .ok t) ↔ firstOffence? source = none) ∧
    ((∃ e, read text file = .error (.rejected e)) ↔ ∃ p o, firstOffence? source = some (p, o)) ∧
    (∀ p o, firstOffence? source = some (p, o) →
      ∃ e, read text file = .error (.rejected e) ∧ e.diagnostic.code = o.code ∧
        source[p]? = some o.mark ∧ e.remainder = String.ofList (source.drop p) ∧
        let place := Place.after (source.take p)
        e.diagnostic.span? = some ⟨file, place.line, place.column, place.line, place.column⟩) ∧
    (∀ k b r, Reader.Visits text file k (some b) r →
      (r.cursor.ahead = [] → Reader.rest (some b) r = .ok () r) ∧
      (∀ j rest, b.style = .indented → r.cursor.ahead = List.replicate (j + 1) '\n' ++ rest →
        rest.head? ≠ some '\n' → rest.head? ≠ some '\t' →
        ∃ r', Reader.turn b r = .ok none r' ∧ r'.cursor.ahead = rest)) := by
  intro source
  have hfirst : firstOffence? source = (scanText text).offence?.map ((scanText text).passed, ·) :=
    firstOffence?_eq text
  have hread := read_eq text file
  refine ⟨?_, ?_, fun p o hp => ?_, fun k b r hv => ⟨fun ha => Reader.rest_nil ha _, ?_⟩⟩
  · rw [hread, hfirst]
    cases (scanText text).offence? <;> simp
  · rw [hread, hfirst]
    cases (scanText text).offence? <;> simp
  · rw [hfirst] at hp
    obtain ⟨o', ho, he⟩ := Option.map_eq_some_iff.mp hp
    cases he
    rw [ho] at hread
    obtain ⟨ds, hd⟩ := mark_of_scan ho
    have hdrop : (placeOf text).ahead = source.drop (scanText text).passed := by
      rw [placeOf, Cursor.skip_ahead]
      rfl
    refine ⟨_, hread, rfl, ?_, ?_, ?_⟩
    · rw [← List.head?_drop]
      exact congrArg List.head? hd
    · rw [← hdrop]
      rfl
    · rw [← place_placeOf]
      rfl
  · obtain ⟨m, hf, -⟩ := hv.fits
    exact fun j rest hs ha hn ht => Reader.turn_lastEnds hf hs ha hn ht

theorem read_rejects_first_offence_after_a_closed_block :
    firstOffence? (Lines.unify "(a\r\n b) c)".toList) = some (8, .extraClose) ∧
      ∃ e, read "(a\r\n b) c)" "f" = .error (.rejected e) ∧ e.remainder = ")" ∧
        e.diagnostic.span? = some ⟨"f", 2, 6, 2, 6⟩ := by
  have hfirst : firstOffence? (Lines.unify "(a\r\n b) c)".toList) = some (8, .extraClose) := by
    decide +kernel
  obtain ⟨e, he, -, -, hr, hs⟩ := (read_rejects_first_offence "(a\r\n b) c)" "f").2.2.1 _ _ hfirst
  exact ⟨hfirst, e, he, hr, hs⟩

end IndentLisp
