/-
# Layout between parentheses

Where every token stands inside a parenthesis, a reader finds in a text what it finds in the
sequence of its lexemes: blanks, line ends and comments between them count for nothing.  They may
end a block and start another one, or take a line end along and go on in the same block, but **a
classic block whose parentheses are all closed and the place between blocks are the same to the next
parenthesis**.

No block of such a text is indented, since only a token or a closing parenthesis outside all
parentheses could start one, and the latter is the end of the reading.  This is the invariant of the
induction (`IsClassic`, from the pass that writes parentheses for indentation), with a number of
open parentheses; what is found is told by a recursion on the lexemes that knows of no text
(`Lexeme.findings`).

The same holds of texts that are rejected, and there the place matters: the offsets of the lexemes
differ between two texts, but it is the same lexeme at which both are rejected.

* `lexemesAt`: the parentheses and tokens of a text, each with its offset.
* `Lexeme.enclosed`: every token stands inside a parenthesis.
* `lexemes_of_move`: a turn passes no lexeme and draws nothing, or passes one and draws it.
* `scan_fulfils`: a scan between parentheses finds what is found in the lexemes.
* `read_layout`: **texts with the same lexemes are read to the same arena, or rejected at the same
  one.**
-/
import IndentLisp.Proofs.Reader.Parenthesised
import IndentLisp.Proofs.Reader.Passage

namespace IndentLisp

/-! ## 1. Lexemes -/

/-- A parenthesis or a token. -/
inductive Lexeme where
  | opening
  | closing
  | token (text : String)
deriving DecidableEq, Repr

/-- The lexemes of what is left of a text at an offset, each with the offset at which it starts, or
`none` if a token is malformed.  Blanks and line ends are skipped, and a comment up to the end of
its line.  What follows it then is a line end, which is skipped as well, so that it makes no
difference whether a comment takes that along. -/
def lexemesAt (offset : Nat) : List Char → Option (List (Nat × Lexeme))
  | [] => some []
  | c :: cs =>
    if c = '(' then (lexemesAt (offset + 1) cs).map ((offset, .opening) :: ·)
    else if c = ')' then (lexemesAt (offset + 1) cs).map ((offset, .closing) :: ·)
    else if c = ' ' ∨ c = '\t' ∨ c = '\n' then lexemesAt (offset + 1) cs
    else if c = ';' then lexemesAt (offset + 1 + lineLength cs) (cs.drop (lineLength cs))
    else
      match h : Token.length? (c :: cs) with
      | some k =>
        have := Token.length?_pos h
        (lexemesAt (offset + k) ((c :: cs).drop k)).map
          ((offset, .token (String.ofList ((c :: cs).take k))) :: ·)
      | none => none
termination_by cs => cs.length
decreasing_by
  all_goals
    simp only [List.length_cons, List.length_drop]
    omega

namespace Lexeme

/-- The stroke that a lexeme stands for where parentheses alone nest. -/
def stroke : Lexeme → Stroke
  | .opening => .enter
  | .closing => .leave
  | .token s => .leaf s

/-- The number of open parentheses after a lexeme. -/
def openAfter (opened : Nat) : Lexeme → Nat
  | .opening => opened + 1
  | .closing => opened - 1
  | .token _ => opened

/-- Whether every token stands inside a parenthesis, where `opened` are open at first.  After a
parenthesis that closes nothing there is nothing more to ask, as nothing more is read. -/
def enclosed (opened : Nat) : List Lexeme → Bool
  | [] => true
  | .opening :: xs => enclosed (opened + 1) xs
  | .closing :: xs => opened = 0 || enclosed (opened - 1) xs
  | .token _ :: xs => opened ≠ 0 && enclosed opened xs

/-- What a reader finds in lexemes between parentheses, of which `opened` are open at first: the
strokes that it draws, and the number of lexemes before the first parenthesis that closes nothing,
if there is one.  Lists that are open at the end are ended there. -/
def findings (opened : Nat) : List Lexeme → List Stroke × Option Nat
  | [] => (List.replicate opened .leave, none)
  | x :: xs =>
    if x = .closing ∧ opened = 0 then ([], some 0)
    else
      (x.stroke :: (findings (x.openAfter opened) xs).1,
        (findings (x.openAfter opened) xs).2.map (· + 1))

theorem findings_extra (xs : List Lexeme) : findings 0 (.closing :: xs) = ([], some 0) := by
  simp [findings]

theorem findings_cons {opened : Nat} {x : Lexeme} (h : ¬ (x = .closing ∧ opened = 0))
    (xs : List Lexeme) :
    findings opened (x :: xs) =
      (x.stroke :: (findings (x.openAfter opened) xs).1,
        (findings (x.openAfter opened) xs).2.map (· + 1)) := by
  rw [findings, if_neg h]

/-- Tokens that are enclosed are enclosed in the rest as well. -/
theorem enclosed_tail {opened : Nat} {x : Lexeme} {xs : List Lexeme}
    (h : ¬ (x = .closing ∧ opened = 0)) (he : enclosed opened (x :: xs) = true) :
    enclosed (x.openAfter opened) xs = true := by
  cases x with
  | opening => exact he
  | closing =>
    have h0 : opened ≠ 0 := fun h0 => h ⟨rfl, h0⟩
    have hrest : enclosed (opened - 1) xs = true := by
      simpa [enclosed, h0] using he
    exact hrest
  | token s =>
    have h2 : opened ≠ 0 ∧ enclosed opened xs = true := by
      simpa [enclosed] using he
    exact h2.2

end Lexeme

section Lexemes

variable {offset : Nat} {c : Char} {cs : List Char}

@[simp] theorem lexemesAt_nil (offset : Nat) : lexemesAt offset [] = some [] := by
  rw [lexemesAt]

theorem lexemesAt_opening (offset : Nat) (cs : List Char) :
    lexemesAt offset ('(' :: cs) = (lexemesAt (offset + 1) cs).map ((offset, .opening) :: ·) := by
  rw [lexemesAt, if_pos rfl]

theorem lexemesAt_closing (offset : Nat) (cs : List Char) :
    lexemesAt offset (')' :: cs) = (lexemesAt (offset + 1) cs).map ((offset, .closing) :: ·) := by
  rw [lexemesAt, if_neg (by decide), if_pos rfl]

theorem lexemesAt_gap (hc : c = ' ' ∨ c = '\t' ∨ c = '\n') (offset : Nat) (cs : List Char) :
    lexemesAt offset (c :: cs) = lexemesAt (offset + 1) cs := by
  rcases hc with rfl | rfl | rfl <;> simp [lexemesAt]

theorem lexemesAt_remark (offset : Nat) (cs : List Char) :
    lexemesAt offset (';' :: cs) =
      lexemesAt (offset + (lineLength cs + 1)) (cs.drop (lineLength cs)) := by
  rw [lexemesAt]
  simp [Nat.add_assoc, Nat.add_comm 1]

/-- A comment may as well take its line end along. -/
theorem lexemesAt_comment (offset : Nat) (cs : List Char) :
    lexemesAt offset (';' :: cs) =
      lexemesAt (offset + (lineLength cs + 2)) (cs.drop (lineLength cs + 1)) := by
  rw [lexemesAt_remark, ← List.drop_drop]
  rcases drop_lineLength cs with hd | ⟨ds, hd⟩
  · simp [hd]
  · rw [hd, lexemesAt_gap (by simp)]
    rfl

theorem lexemesAt_ends (offset j : Nat) (cs : List Char) :
    lexemesAt offset (List.replicate j '\n' ++ cs) = lexemesAt (offset + j) cs := by
  induction j generalizing offset with
  | zero => rfl
  | succ j ih =>
    rw [List.replicate_succ, List.cons_append, lexemesAt_gap (by simp), ih, Nat.add_assoc,
      Nat.add_comm 1]

theorem lexemesAt_token {k : Nat} (hc : Token.isStart c = true)
    (h : Token.length? (c :: cs) = some k) (offset : Nat) :
    lexemesAt offset (c :: cs) =
      (lexemesAt (offset + k) ((c :: cs).drop k)).map
        ((offset, .token (String.ofList ((c :: cs).take k))) :: ·) := by
  obtain ⟨h1, h2, h3, h4, h5, h6⟩ := Token.isStart_iff.mp hc
  rw [lexemesAt]
  simp only [h1, h2, h3, h4, h5, h6, or_self, if_false]
  split
  · rename_i j hj
    rw [h] at hj
    cases hj
    rfl
  · rename_i hn
    rw [h] at hn
    cases hn

theorem lexemesAt_fault (hc : Token.isStart c = true) (h : Token.length? (c :: cs) = none)
    (offset : Nat) : lexemesAt offset (c :: cs) = none := by
  obtain ⟨h1, h2, h3, h4, h5, h6⟩ := Token.isStart_iff.mp hc
  rw [lexemesAt]
  simp only [h1, h2, h3, h4, h5, h6, or_self, if_false]
  split
  · rename_i j hj
    rw [h] at hj
    cases hj
  · rfl

/-- What is read at the front of lexemes that start with a token that is none of the other kinds. -/
theorem exists_token {ls : List (Nat × Lexeme)} (hc : Token.isStart c = true)
    (h : lexemesAt offset (c :: cs) = some ls) :
    ∃ s ls', ls = (offset, .token s) :: ls' := by
  cases hl : Token.length? (c :: cs) with
  | none =>
    rw [lexemesAt_fault hc hl] at h
    cases h
  | some k =>
    rw [lexemesAt_token hc hl] at h
    obtain ⟨ls', -, rfl⟩ := Option.map_eq_some_iff.mp h
    exact ⟨_, ls', rfl⟩

end Lexemes

/-! ## 2. Turns -/

section Turns

variable {m : Option Nesting} {c : Char} {cs : List Char} {v : Move}

/-- Line ends of a classic block lead on in the block, or between blocks where no parenthesis is
open. -/
theorem breakLine_classic {n : Nesting} (hs : n.style = .classic) (cs : List Char) (offset : Nat) :
    IsClassic (n.breakLine ('\n' :: cs)).next ∧ (n.breakLine ('\n' :: cs)).strokes = [] ∧
      levelOf (n.breakLine ('\n' :: cs)).next = n.level ∧
      lexemesAt offset ('\n' :: cs) =
        lexemesAt (offset + (n.breakLine ('\n' :: cs)).passed)
          (('\n' :: cs).drop (n.breakLine ('\n' :: cs)).passed) := by
  obtain ⟨j, rest, hcs, hn⟩ := exists_run_cons '\n' cs
  have hlevel : n.level = n.opened := by
    rw [Nesting.level, hs]
  rw [hcs]
  by_cases h0 : n.opened = 0
  · rw [Nesting.breakLine_last j hn (fun _ => h0) (by simp [hs]), drop_run]
    refine ⟨isClassic_none, ?_, ?_, lexemesAt_ends offset (j + 1) rest⟩
    · rw [hlevel, h0]
      rfl
    · rw [hlevel, h0]
      rfl
  · rw [Nesting.breakLine_open j hs h0 hn, drop_run]
    refine ⟨?_, rfl, rfl, lexemesAt_ends offset (j + 1) rest⟩
    rintro n' ⟨⟩
    exact hs

/-- A classic block is left for another style only between blocks, by a character that opens
nothing. -/
theorem isClassic_next (hm : IsClassic m) (hv : move m c cs = .ok v) :
    IsClassic v.next ∨
      m = none ∧ v = ⟨0, [.enter], some ⟨.indented, 0, 0⟩⟩ ∧
      (c = ')' ∨ Token.isStart c = true) := by
  have hsame : ∀ {n : Nesting} (k : Nat), m = some n → IsClassic (some { n with opened := k }) := by
    rintro n k rfl n' ⟨⟩
    exact hm n rfl
  cases turn_of_move hv with
  | gap | remark => exact Or.inl isClassic_none
  | classic => exact Or.inl (isClassic_inParens 1)
  | indented hb ho =>
    refine Or.inr ⟨rfl, rfl, ?_⟩
    by_cases hc : c = ')'
    · exact Or.inl hc
    · exact Or.inr (Token.isStart_iff.mpr ⟨ho, hc, hb⟩)
  | opening => exact Or.inl (hsame _ rfl)
  | closing => exact Or.inl (hsame _ rfl)
  | blank | comment | token => exact Or.inl hm
  | @lineEnd n _ => exact Or.inl (breakLine_classic (hm n rfl) cs 0).1

/-- **A turn between parentheses passes no lexeme and draws nothing, or passes one lexeme and draws
it.** -/
theorem lexemes_of_move (hm : IsClassic m) (hv : move m c cs = .ok v) (hn : IsClassic v.next)
    (offset : Nat) :
    (v.strokes = [] ∧ levelOf v.next = levelOf m ∧
      lexemesAt offset (c :: cs) = lexemesAt (offset + v.passed) ((c :: cs).drop v.passed)) ∨
    ∃ x : Lexeme, ¬ (x = .closing ∧ levelOf m = 0) ∧ v.strokes = [x.stroke] ∧
      levelOf v.next = x.openAfter (levelOf m) ∧
      lexemesAt offset (c :: cs) =
        (lexemesAt (offset + v.passed) ((c :: cs).drop v.passed)).map ((offset, x) :: ·) := by
  have hlevel : ∀ n, m = some n → n.level = n.opened := by
    rintro n rfl
    rw [Nesting.level, hm n rfl]
  cases turn_of_move hv with
  | gap hc => exact Or.inl ⟨rfl, rfl, lexemesAt_gap hc offset cs⟩
  | remark =>
    refine Or.inl ⟨rfl, rfl, ?_⟩
    rw [lineLength_comment, List.drop_succ_cons]
    exact lexemesAt_remark offset cs
  | classic =>
    exact Or.inr ⟨.opening, by simp, rfl, rfl, lexemesAt_opening offset cs⟩
  | indented =>
    have hs := hn _ rfl
    cases hs
  | @opening n _ =>
    refine Or.inr ⟨.opening, by simp, rfl, ?_, lexemesAt_opening offset cs⟩
    rw [levelOf, levelOf, hlevel n rfl, Nesting.level, hm n rfl]
    rfl
  | @closing n _ h0 =>
    refine Or.inr ⟨.closing, ?_, rfl, ?_, lexemesAt_closing offset cs⟩
    · rintro ⟨-, hl⟩
      rw [levelOf, hlevel n rfl] at hl
      exact h0 hl
    · rw [levelOf, levelOf, hlevel n rfl, Nesting.level, hm n rfl]
      rfl
  | blank hc => exact Or.inl ⟨rfl, rfl, lexemesAt_gap (or_assoc.mp (Or.inl hc)) offset cs⟩
  | @lineEnd n _ =>
    obtain ⟨-, hs, hl, hlex⟩ := breakLine_classic (hm n rfl) cs offset
    exact Or.inl ⟨hs, hl, hlex⟩
  | comment =>
    refine Or.inl ⟨rfl, rfl, ?_⟩
    rw [lineLength_comment, List.drop_succ_cons]
    exact lexemesAt_comment offset cs
  | token hc hk =>
    exact Or.inr ⟨.token _, by simp, rfl, rfl, lexemesAt_token hc hk offset⟩

/-- A turn that is none is at a parenthesis that closes nothing, if every token is well-formed. -/
theorem extra_of_error (hm : IsClassic m) {o : Offence} (hv : move m c cs = .error o) {offset : Nat}
    {ls : List (Nat × Lexeme)} (hl : lexemesAt offset (c :: cs) = some ls) :
    c = ')' ∧ levelOf m = 0 ∧ o = .extraClose := by
  cases m with
  | none => cases hv
  | some n =>
    have hf := Front.of_cases c cs
    simp only [move, Nesting.move] at hv
    cases ho : Front.of c cs with
    | closing =>
      rw [ho] at hf hv
      simp only at hv
      split at hv
      · rename_i h0
        cases hv
        refine ⟨hf, ?_, rfl⟩
        rw [levelOf, Nesting.level, hm n rfl]
        exact h0
      · cases hv
    | fault o' =>
      rw [ho] at hf
      obtain ⟨hc, hnone, -⟩ := hf
      rw [lexemesAt_fault hc hnone] at hl
      cases hl
    | opening | blank | lineEnd | comment | token =>
      rw [ho] at hv
      cases hv

end Turns

/-! ## 3. Scans -/

/-- Whether a scan from an offset on finds what is found in the lexemes there: the strokes and no
offence, or a parenthesis that closes nothing, at its offset. -/
def Scan.Fulfils (s : Scan) (offset : Nat) (ls : List (Nat × Lexeme))
    (findings : List Stroke × Option Nat) : Prop :=
  match findings.2 with
  | none => s.found = (findings.1, none)
  | some i => s.offence? = some .extraClose ∧ ls[i]? = some (offset + s.passed, .closing)

/-- A turn that passes no lexeme. -/
theorem Scan.Fulfils.quiet {s : Scan} {v : Move} {offset : Nat} {ls : List (Nat × Lexeme)}
    {f : List Stroke × Option Nat} (hs : v.strokes = []) (h : s.Fulfils (offset + v.passed) ls f) :
    (s.after v).Fulfils offset ls f := by
  unfold Fulfils at h ⊢
  cases hf : f.2 with
  | none =>
    rw [hf] at h
    rw [Scan.found_after, hs, h]
    rfl
  | some i =>
    rw [hf] at h
    simp only [Scan.after]
    rw [← Nat.add_assoc]
    exact h

/-- A turn that passes one. -/
theorem Scan.Fulfils.turn {s : Scan} {v : Move} {offset : Nat} {ls : List (Nat × Lexeme)}
    {f : List Stroke × Option Nat} {x : Lexeme} (hs : v.strokes = [x.stroke])
    (h : s.Fulfils (offset + v.passed) ls f) :
    (s.after v).Fulfils offset ((offset, x) :: ls) (x.stroke :: f.1, f.2.map (· + 1)) := by
  unfold Fulfils at h ⊢
  cases hf : f.2 with
  | none =>
    rw [hf] at h
    simp only [Option.map_none]
    rw [Scan.found_after, hs, h]
    rfl
  | some i =>
    rw [hf] at h
    simp only [Option.map_some, Scan.after, List.getElem?_cons_succ]
    rw [← Nat.add_assoc]
    exact h

/-- **A scan between parentheses finds what is found in the lexemes**, whatever stands between them.
The induction is on the turns; each passes no lexeme or one, and leads to a classic block or between
blocks. -/
theorem scan_fulfils {m : Option Nesting} {cs : List Char} (hm : IsClassic m) {offset : Nat}
    {ls : List (Nat × Lexeme)} (hl : lexemesAt offset cs = some ls)
    (he : Lexeme.enclosed (levelOf m) (ls.map Prod.snd) = true) :
    (scan m cs).Fulfils offset ls (Lexeme.findings (levelOf m) (ls.map Prod.snd)) := by
  fun_induction scan m cs generalizing offset ls with
  | case1 m =>
    rw [lexemesAt_nil] at hl
    cases hl
    rfl
  | case2 m c cs o hv =>
    obtain ⟨rfl, h0, rfl⟩ := extra_of_error hm hv hl
    rw [lexemesAt_closing] at hl
    obtain ⟨ls', -, rfl⟩ := Option.map_eq_some_iff.mp hl
    rw [h0, List.map_cons, Lexeme.findings_extra]
    exact ⟨rfl, rfl⟩
  | case3 m c cs v hv ih =>
    rcases isClassic_next hm hv with hn | ⟨rfl, rfl, hc⟩
    · rcases lexemes_of_move hm hv hn offset with ⟨hs, hlevel, hlex⟩ | ⟨x, hx, hs, hlevel, hlex⟩
      · rw [hlex] at hl
        rw [← hlevel] at he ⊢
        exact .quiet hs (ih hn hl he)
      · rw [hlex] at hl
        obtain ⟨ls', hl', rfl⟩ := Option.map_eq_some_iff.mp hl
        rw [List.map_cons] at he
        have he' := Lexeme.enclosed_tail hx he
        rw [← hlevel] at he'
        rw [List.map_cons, Lexeme.findings_cons hx, ← hlevel]
        exact .turn hs (ih hn hl' he')
    · rcases hc with rfl | hc
      · -- The block that starts with the parenthesis is rejected at it.
        rw [lexemesAt_closing] at hl
        obtain ⟨ls', -, rfl⟩ := Option.map_eq_some_iff.mp hl
        have herr : move (some ⟨.indented, 0, 0⟩) ')' cs = .error .extraClose := by
          simp [move, Nesting.move]
        have hscan : scan (some ⟨.indented, 0, 0⟩) (')' :: cs) = ⟨0, [], some .extraClose⟩ := by
          rw [scan]
          split
          · rename_i o ho
            rw [herr] at ho
            cases ho
            rfl
          · rename_i v' hv'
            rw [herr] at hv'
            cases hv'
        rw [List.drop_zero, hscan, List.map_cons]
        exact ⟨rfl, rfl⟩
      · -- A token between blocks is enclosed by nothing.
        obtain ⟨s, ls', rfl⟩ := exists_token hc hl
        cases he

/-! ## 4. Whole texts -/

/-- The cursor at an offset of a text. -/
def cursorAt (text : String) (offset : Nat) : Cursor :=
  (Cursor.ofText (Lines.unify text.toList)).skip offset

/-- What is read between parentheses depends on the lexemes only: the tree of a text, or the lexeme
at which it is rejected. -/
theorem read_of_findings {text : String} (file : String) {ls : List (Nat × Lexeme)}
    (hl : lexemesAt 0 (Lines.unify text.toList) = some ls)
    (he : Lexeme.enclosed 0 (ls.map Prod.snd) = true) :
    match (Lexeme.findings 0 (ls.map Prod.snd)).2 with
    | none =>
      read text file =
        .ok (Draft.start.draw (Lexeme.findings 0 (ls.map Prod.snd)).1).tree.unwrap
    | some i => ∃ p, ls[i]? = some (p, .closing) ∧
        read text file = .error (.rejected (Offence.extraClose.report file (cursorAt text p))) := by
  have h : (scanText text).Fulfils 0 ls (Lexeme.findings 0 (ls.map Prod.snd)) :=
    scan_fulfils isClassic_none hl he
  unfold Scan.Fulfils at h
  cases hf : (Lexeme.findings 0 (ls.map Prod.snd)).2 with
  | none =>
    rw [hf] at h
    obtain ⟨hs, ho⟩ := Prod.mk.inj h
    refine read_eq_ok_iff.mpr ⟨ho, ?_⟩
    rw [draftOf, hs]
  | some i =>
    rw [hf] at h
    obtain ⟨ho, hp⟩ := h
    refine ⟨(scanText text).passed, ?_, ?_⟩
    · rw [hp, Nat.zero_add]
    · rw [read_eq, ho]
      rfl

/-- **Layout does not matter between parentheses.**  Two texts that have the same lexemes, of which
every token stands inside a parenthesis, are both read, and to the same arena with the same root, or
both are rejected for a closing parenthesis that has nothing to close, and that is the same lexeme
in both. -/
theorem read_layout {text text' : String} (file file' : String) {ls ls' : List (Nat × Lexeme)}
    (hl : lexemesAt 0 (Lines.unify text.toList) = some ls)
    (hl' : lexemesAt 0 (Lines.unify text'.toList) = some ls')
    (hsame : ls.map Prod.snd = ls'.map Prod.snd)
    (he : Lexeme.enclosed 0 (ls.map Prod.snd) = true) :
    (∃ t, read text file = .ok t ∧ read text' file' = .ok t) ∨
      ∃ i p p' : Nat,
        ls[i]? = some (p, Lexeme.closing) ∧ ls'[i]? = some (p', Lexeme.closing) ∧
        read text file = .error (.rejected (Offence.extraClose.report file (cursorAt text p))) ∧
        read text' file' =
          .error (.rejected (Offence.extraClose.report file' (cursorAt text' p'))) := by
  have h := read_of_findings file hl he
  have h' := read_of_findings file' hl' (hsame ▸ he)
  rw [← hsame] at h'
  cases hf : (Lexeme.findings 0 (ls.map Prod.snd)).2 with
  | none =>
    rw [hf] at h h'
    exact Or.inl ⟨_, h, h'⟩
  | some i =>
    rw [hf] at h h'
    obtain ⟨p, hp, hread⟩ := h
    obtain ⟨p', hp', hread'⟩ := h'
    exact Or.inr ⟨i, p, p', hp, hp', hread, hread'⟩

/-- In the second text a comment takes a line end along and the first list is still open, while a
blank is all that stands between the two lists. -/
theorem read_layout_comment_and_shared_line :
    ∃ t, read "(a (b))\n(c)" "f" = .ok t ∧ read "(a ;(\n\t\t(b)) (c\n\n)" "g" = .ok t := by
  have hread : read "(a (b))\n(c)" "f" = .ok (draftOf "(a (b))\n(c)").tree.unwrap :=
    read_eq_ok_iff.mpr ⟨by decide +kernel, rfl⟩
  have hl : lexemesAt 0 (Lines.unify "(a (b))\n(c)".toList) =
      some [(0, .opening), (1, .token "a"), (3, .opening), (4, .token "b"), (5, .closing),
        (6, .closing), (8, .opening), (9, .token "c"), (10, .closing)] := by
    decide +kernel
  have hl' : lexemesAt 0 (Lines.unify "(a ;(\n\t\t(b)) (c\n\n)".toList) =
      some [(0, .opening), (1, .token "a"), (8, .opening), (9, .token "b"), (10, .closing),
        (11, .closing), (13, .opening), (14, .token "c"), (17, .closing)] := by
    decide +kernel
  rcases read_layout "f" "g" hl hl' rfl (by decide) with h | ⟨i, p, p', -, -, hfail, -⟩
  · exact h
  · rw [hread] at hfail
    cases hfail

end IndentLisp
