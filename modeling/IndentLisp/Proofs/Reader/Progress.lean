/-
# Reading never gets stuck

Every text is read to a tree or rejected for an offence.  The tree refuses nothing on the way, and
no reading runs past the end of its text.

That a reading ends is part of its definition, since its recursions are well-founded; that it ends
in one of two ways is not.  A reader could ask its tree for what that refuses, or look for a token
where there is none, and each of its actions can fail in that way when it is asked for out of turn.

The states that a reading goes through are those of `Reader.Visits`, which takes one turn at a time.
**One invariant carries the whole argument** (`Reader.Fits`): the tree is a draft, and the level of
its innermost list is the one that the block counts.  `Reader.turn_of_fits` is the step, and
`Reader.Visits.fits` the run.  The invariant holds at the start, and nothing but an offence ends it.

The states are not made up for the proof: what is left to do in each of them comes to what the whole
reading comes to (`Reader.Visits.rest_eq`), so they are the ones that the reader is in.  Other
statements about the course of a reading speak of them as well.

* `Reader.Visits.bound`: a reading takes at most two steps for each character, and one more.
* `Reader.ancestor_of_fits`: a line always finds the lists that it has to end.
* `read_total`: **what the invariant comes to.**
-/
import IndentLisp.Proofs.Reader.Drawing

namespace IndentLisp

namespace Cursor

theorem skip_of_ahead_nil {c : Cursor} (h : c.ahead = []) (k : Nat) : c.skip k = c := by
  induction k with
  | zero => rfl
  | succ k ih =>
    obtain ⟨behind, ahead, place⟩ := c
    subst h
    exact ih

/-- There is no moving past the end. -/
theorem skip_min (k : Nat) (c : Cursor) : c.skip k = c.skip (min k c.ahead.length) := by
  rcases Nat.le_total k c.ahead.length with h | h
  · rw [Nat.min_eq_left h]
  · obtain ⟨j, rfl⟩ := Nat.exists_eq_add_of_le h
    rw [Nat.min_eq_right h, skip_add, skip_of_ahead_nil (by simp)]

end Cursor

namespace Reader

/-! ## 1. The invariant -/

/-- Whether a block starts with a character, rather than a blank, a line end or a comment. -/
def startsBlock (c : Char) : Bool :=
  c ≠ ' ' && c ≠ '\t' && c ≠ '\n' && c ≠ ';'

theorem startsBlock_iff {c : Char} :
    startsBlock c = true ↔ c ≠ ' ' ∧ c ≠ '\t' ∧ c ≠ '\n' ∧ c ≠ ';' := by
  simp [startsBlock, and_assoc]

/-- A reader that stands where a scan does, and has drawn a draft whose innermost list is as deep as
the scan counts.  The block of the reader is the nesting of the scan, with that list. -/
def Fits (m : Option Nesting) (o : Option Block) (r : Reader) : Prop :=
  ∃ d : Draft, d.level = levelOf m ∧ o = m.map (·.block d.here.handle) ∧
    r = drawn r.file r.cursor d

variable {m : Option Nesting} {b : Block} {r : Reader} {c : Char} {cs : List Char}

theorem fits_ofText (text file : String) : Fits none none (.ofText text file) :=
  ⟨.start, rfl, rfl, rfl⟩

/-- A state within a block. -/
theorem fits_some (h : Fits m (some b) r) :
    ∃ (n : Nesting) (d : Draft), m = some n ∧ d.level = n.level ∧ b = n.block d.here.handle ∧
      r = drawn r.file r.cursor d := by
  obtain ⟨d, hl, ho, hr⟩ := h
  cases m with
  | none => cases ho
  | some n =>
    cases ho
    exact ⟨n, d, rfl, hl, rfl, hr⟩

/-- A state between blocks. -/
theorem fits_none (h : Fits m none r) :
    m = none ∧ ∃ d : Draft, d.level = 0 ∧ r = drawn r.file r.cursor d := by
  obtain ⟨d, hl, ho, hr⟩ := h
  cases m with
  | none => exact ⟨rfl, d, hl, hr⟩
  | some n => cases ho

/-- **One turn.**  It is one of the scan, and leads to a state that fits, unless the text is at
fault: then it leaves the reader as it was, with a report at its cursor. -/
theorem turn_of_fits (h : Fits m (some b) r) (ha : r.cursor.ahead = c :: cs) :
    (∃ v o r', IndentLisp.move m c cs = .ok v ∧ turn b r = .ok o r' ∧ Fits v.next o r' ∧
        0 < v.passed ∧ r'.cursor = r.cursor.skip v.passed) ∨
      ∃ o : Offence, turn b r = .error (.rejected (o.report r.file r.cursor)) r := by
  obtain ⟨n, d, rfl, hl, rfl, hr⟩ := fits_some h
  have ht := turn_eq r.file hl ha
  rw [← hr] at ht
  cases hm : n.move c cs with
  | error o =>
    rw [hm] at ht
    exact Or.inr ⟨o, ht⟩
  | ok v =>
    rw [hm] at ht
    have hm : IndentLisp.move (some n) c cs = .ok v := hm
    have hpos : 0 < v.passed := by
      rcases move_forward hm with hp | ⟨h0, -⟩
      · exact hp
      · cases h0
    exact Or.inl ⟨v, _, _, hm, ht, ⟨d.draw v.strokes, level_draw_move hm hl, rfl, rfl⟩, hpos, rfl⟩

/-- All turns of a block lead to its end or to an offence.  A block ends at the end of the text as
well, with lists open. -/
theorem block_of_fits (h : Fits m (some b) r) :
    (∃ r', block b r = .ok () r') ∨ ∃ e r', block b r = .error (.rejected e) r' := by
  fun_induction block b r generalizing m with
  | case1 b r b' r' ht _ ih =>
    obtain ⟨c, cs, ha⟩ := List.exists_cons_of_ne_nil (ahead_ne_nil_of_turn ht)
    rcases turn_of_fits h ha with ⟨v, o, r1, -, ht1, hf, -⟩ | ⟨o, ht1⟩
    · rw [ht] at ht1
      cases ht1
      exact ih hf
    · rw [ht] at ht1
      cases ht1
  | case2 b r r' ht => exact Or.inl ⟨r', rfl⟩
  | case3 b r e r' ht =>
    have hne : r.cursor.ahead ≠ [] := by
      intro hnil
      simp [turn, hnil] at ht
    obtain ⟨c, cs, ha⟩ := List.exists_cons_of_ne_nil hne
    rcases turn_of_fits h ha with ⟨v, o, r1, -, ht1, -⟩ | ⟨o, ht1⟩
    · rw [ht] at ht1
      cases ht1
    · rw [ht] at ht1
      cases ht1
      exact Or.inr ⟨_, _, rfl⟩

/-! ## 2. Between blocks -/

/-- A blank, a line end or a comment between blocks is passed. -/
theorem pass_of_fits (h : Fits m none r) (ha : r.cursor.ahead = c :: cs)
    (hc : startsBlock c = false) :
    ∃ v r', IndentLisp.move m c cs = .ok v ∧ topLevel r = .ok () r' ∧ Fits v.next none r' ∧
      r'.cursor = r.cursor.skip v.passed := by
  obtain ⟨rfl, d, hl, hr⟩ := fits_none h
  by_cases hb : c = ' ' ∨ c = '\t' ∨ c = '\n'
  · refine ⟨_, drawn r.file r.cursor.advance d, congrArg Except.ok (moveBetween_blank hb cs), ?_,
      ⟨d, hl, rfl, rfl⟩, rfl⟩
    unfold topLevel
    simp only [ha, if_pos hb]
    rw [hr]
    rfl
  · obtain rfl : c = ';' := by
      simp only [not_or] at hb
      simpa [startsBlock, hb] using hc
    refine ⟨_, drawn r.file r.cursor.skipLine d, congrArg Except.ok (moveBetween_comment cs), ?_,
      ⟨d, hl, rfl, rfl⟩, ?_⟩
    · unfold topLevel
      simp only [ha, if_neg hb, if_true]
      rw [hr]
      rfl
    · rw [lineLength, ← ha]
      rfl

/-- A block always starts. -/
theorem startBlock_of_fits (h : Fits m none r) (ha : r.cursor.ahead = c :: cs)
    (hc : startsBlock c = true) :
    ∃ v b r', IndentLisp.move m c cs = .ok v ∧ startBlock r = .ok b r' ∧ Fits v.next (some b) r' ∧
      r'.cursor = r.cursor.skip v.passed := by
  obtain ⟨rfl, d, hl, hr⟩ := fits_none h
  have hs := startBlock_eq r.file hl ha
  rw [← hr] at hs
  have hl1 : d.enter.level = 1 := by
    rw [Draft.level_enter, hl]
  by_cases ho : c = '('
  · subst ho
    rw [if_pos rfl] at hs
    exact ⟨_, _, _, congrArg Except.ok (moveBetween_opening cs), hs, ⟨d.enter, hl1, rfl, rfl⟩, rfl⟩
  · rw [if_neg ho] at hs
    exact ⟨_, _, _, congrArg Except.ok (moveBetween_other (startsBlock_iff.mp hc) ho cs), hs,
      ⟨d.enter, hl1, rfl, rfl⟩, rfl⟩

/-- **One step between blocks**: it passes a character or more, unless the text is at fault.  A
block counts as one step here, with all its turns. -/
theorem topLevel_of_fits (h : Fits m none r) (hne : r.cursor.ahead ≠ []) :
    (∃ r', topLevel r = .ok () r' ∧ r'.cursor.ahead.length < r.cursor.ahead.length) ∨
      ∃ e r', topLevel r = .error (.rejected e) r' := by
  obtain ⟨c, cs, ha⟩ := List.exists_cons_of_ne_nil hne
  cases hc : startsBlock c with
  | false =>
    obtain ⟨v, r', -, ht, -⟩ := pass_of_fits h ha hc
    exact Or.inl ⟨r', ht, topLevel_shortens ht hne⟩
  | true =>
    obtain ⟨v, b, r1, -, hs, hf, -⟩ := startBlock_of_fits h ha hc
    have htop : topLevel r = block b r1 := by
      unfold topLevel
      simp only [ha, startsBlock_iff.mp hc, or_self, if_false, readBlock_eq, bind, EStateM.bind, hs]
    rcases block_of_fits hf with ⟨r', hb⟩ | ⟨e, r', hb⟩
    · exact Or.inl ⟨r', htop.trans hb, topLevel_shortens (htop.trans hb) hne⟩
    · exact Or.inr ⟨e, r', htop.trans hb⟩

/-! ## 3. The states of a reading -/

/-- One step of a reading: it passes something between blocks, or starts a block, or is a turn of
one. -/
inductive Step : Option Block → Reader → Option Block → Reader → Prop
  | pass {c : Char} {cs : List Char} {r r' : Reader} :
      r.cursor.ahead = c :: cs → startsBlock c = false → topLevel r = .ok () r' →
      Step none r none r'
  | enter {c : Char} {cs : List Char} {b : Block} {r r' : Reader} :
      r.cursor.ahead = c :: cs → startsBlock c = true → startBlock r = .ok b r' →
      Step none r (some b) r'
  | turn {b : Block} {o : Option Block} {r r' : Reader} :
      r.cursor.ahead ≠ [] → turn b r = .ok o r' → Step (some b) r o r'

/-- **Every step is a turn of the scan.** -/
theorem Step.fits {o o' : Option Block} {r r' : Reader} (h : Step o r o' r') (hf : Fits m o r) :
    ∃ c cs v, r.cursor.ahead = c :: cs ∧ IndentLisp.move m c cs = .ok v ∧ Fits v.next o' r' ∧
      r'.cursor = r.cursor.skip v.passed := by
  cases h with
  | pass ha hc ht =>
    obtain ⟨v, r1, hm, ht1, hf1, hcur⟩ := pass_of_fits hf ha hc
    rw [ht] at ht1
    cases ht1
    exact ⟨_, _, v, ha, hm, hf1, hcur⟩
  | enter ha hc hs =>
    obtain ⟨v, b, r1, hm, hs1, hf1, hcur⟩ := startBlock_of_fits hf ha hc
    rw [hs] at hs1
    cases hs1
    exact ⟨_, _, v, ha, hm, hf1, hcur⟩
  | turn hne ht =>
    obtain ⟨c, cs, ha⟩ := List.exists_cons_of_ne_nil hne
    rcases turn_of_fits hf ha with ⟨v, o, r1, hm, ht1, hf1, -, hcur⟩ | ⟨o, ht1⟩
    · rw [ht] at ht1
      cases ht1
      exact ⟨c, cs, v, ha, hm, hf1, hcur⟩
    · rw [ht] at ht1
      cases ht1

/-- The states that the reading of a text goes through, each with the number of steps that lead to
it: a step passes something between blocks, or starts a block, or is a turn of one. -/
inductive Visits (text file : String) : Nat → Option Block → Reader → Prop
  | start : Visits text file 0 none (.ofText text file)
  | pass {k : Nat} {c : Char} {cs : List Char} {r r' : Reader} :
      Visits text file k none r → r.cursor.ahead = c :: cs → startsBlock c = false →
      topLevel r = .ok () r' → Visits text file (k + 1) none r'
  | enter {k : Nat} {c : Char} {cs : List Char} {b : Block} {r r' : Reader} :
      Visits text file k none r → r.cursor.ahead = c :: cs → startsBlock c = true →
      startBlock r = .ok b r' → Visits text file (k + 1) (some b) r'
  | turn {k : Nat} {b : Block} {o : Option Block} {r r' : Reader} :
      Visits text file k (some b) r → r.cursor.ahead ≠ [] →
      turn b r = .ok o r' → Visits text file (k + 1) o r'

theorem Visits.step {text file : String} {k : Nat} {o o' : Option Block} {r r' : Reader}
    (h : Visits text file k o r) (hs : Step o r o' r') : Visits text file (k + 1) o' r' := by
  cases hs with
  | pass ha hc ht => exact .pass h ha hc ht
  | enter ha hc hs => exact .enter h ha hc hs
  | turn hne ht => exact .turn h hne ht

/-- **Every state of a reading fits** a state of the scan that goes through the same text.  The
induction is on the steps. -/
theorem Visits.fits {text file : String} {k : Nat} {o : Option Block} (h : Visits text file k o r) :
    ∃ m, Fits m o r ∧ Reaches none (Lines.unify text.toList) m r.cursor.ahead := by
  have step : ∀ {o o' : Option Block} {r r' : Reader}, Step o r o' r' →
      (∃ m, Fits m o r ∧ Reaches none (Lines.unify text.toList) m r.cursor.ahead) →
      ∃ m, Fits m o' r' ∧ Reaches none (Lines.unify text.toList) m r'.cursor.ahead := by
    rintro o o' r r' hs ⟨m, hf, hr⟩
    obtain ⟨c, cs, v, ha, hm, hf', hcur⟩ := hs.fits hf
    refine ⟨v.next, hf', ?_⟩
    rw [hcur, Cursor.skip_ahead, ha]
    exact .turn (ha ▸ hr) hm
  induction h with
  | start => exact ⟨none, fits_ofText text file, .refl⟩
  | pass _ ha hc ht ih => exact step (.pass ha hc ht) ih
  | enter _ ha hc hs ih => exact step (.enter ha hc hs) ih
  | turn _ hne ht ih => exact step (.turn hne ht) ih

/-- **A reading comes to an end**: each step leaves less to do, where a start of a block counts as
half a character. -/
theorem Visits.bound {text file : String} {k : Nat} {o : Option Block}
    (h : Visits text file k o r) :
    k + 2 * r.cursor.ahead.length + (if o = none then 1 else 0) ≤
      2 * (Lines.unify text.toList).length + 1 := by
  induction h with
  | start =>
    simp only [ofText, Cursor.ofText, if_true]
    omega
  | pass _ ha _ ht ih =>
    have := topLevel_shortens ht (by simp [ha])
    simp only [if_true] at ih ⊢
    omega
  | enter hv ha hc hs ih =>
    obtain ⟨m, hf, -⟩ := hv.fits
    obtain ⟨v, b, r1, -, hs1, -, hcur⟩ := startBlock_of_fits hf ha hc
    rw [hs] at hs1
    cases hs1
    simp only [hcur, Cursor.skip_ahead, List.length_drop, if_true, reduceCtorEq, if_false] at ih ⊢
    omega
  | turn _ hne ht ih =>
    have := turn_shortens ht hne
    simp only [reduceCtorEq, if_false] at ih
    split <;> omega

/-- **The states are those of the reading itself**: what is left to do in each comes to what the
whole reading comes to, the tree and the cursor included. -/
theorem Visits.rest_eq {text file : String} {k : Nat} {o : Option Block} {r : Reader}
    (h : Visits text file k o r) : rest o r = blocks (.ofText text file) := by
  induction h with
  | start => rfl
  | pass _ ha _ ht ih =>
    rw [← ih]
    exact (rest_of_topLevel (by simp [ha]) ht).symm
  | enter _ ha hc hs ih =>
    rw [← ih]
    exact (rest_of_startBlock ha (startsBlock_iff.mp hc) hs).symm
  | turn _ _ ht ih =>
    rw [← ih]
    exact (rest_of_turn_ok ht).symm

/-! ## 4. What the tree is asked for -/

/-- **A line always finds the lists that it has to end**, whichever parentheses are open.  There are
as many lists open as the depth says, and the block's own, and those of the parentheses come on
top. -/
theorem ancestor_of_fits (h : Fits m (some b) r) (hs : b.style = .indented) {tabs : Nat}
    (ht : 0 < tabs) : ∃ p, r.tree.ancestor (b.depth - tabs + 1) b.node = .ok p := by
  obtain ⟨n, d, -, hl, rfl, hr⟩ := fits_some h
  have hl : d.level = 1 + n.depth + n.opened := by
    have hs : n.style = .indented := hs
    rw [hl, Nesting.level, hs]
  have ha := Draft.ancestor_here (d := d) (k := n.depth - tabs + 1) (by omega)
  rw [hr]
  exact ⟨_, ha⟩

/-- What comes next always goes into a list. -/
theorem isLeaf_of_fits (h : Fits m (some b) r) : r.tree.isLeaf b.node = .ok false := by
  obtain ⟨n, d, -, hl, rfl, hr⟩ := fits_some h
  obtain ⟨hn, hx⟩ := Array.getElem?_eq_some_iff.mp d.node_here
  rw [hr]
  simp only [drawn, Nesting.block, Tree.isLeaf, Tree.content, Tree.node, Tree.index_ok d.here_lt]
  rw [hx]
  rfl

end Reader

/-! ## 5. Every text is read or rejected -/

/-- **Every text is read to a tree or rejected for an offence.**  On the way, in the states from
which the rest of the reading is that of the whole, the tree is never asked for what it would
refuse: what comes next goes into a list, and a line finds the lists that it has to end.  Each turn
passes some of the text that is left, or ends the block where none is left, or rejects the text
where the reader stands; a step between blocks passes some of the text or rejects it, and there are
at most two steps for each character, and one more. -/
theorem read_total (text file : String) :
    ((∃ t, read text file = .ok t) ∨ ∃ e, read text file = .error (.rejected e)) ∧
    (∀ k o r, Reader.Visits text file k o r →
      Reader.rest o r = Reader.blocks (.ofText text file) ∧
      k ≤ 2 * (Lines.unify text.toList).length + 1) ∧
    (∀ k b r, Reader.Visits text file k (some b) r →
      r.tree.isLeaf b.node = .ok false ∧
      (b.style = .indented → ∀ tabs, 0 < tabs →
        ∃ p, r.tree.ancestor (b.depth - tabs + 1) b.node = .ok p) ∧
      ((∃ o k r', Reader.turn b r = .ok o r' ∧ 0 < k ∧ k ≤ r.cursor.ahead.length ∧
          r'.cursor = r.cursor.skip k) ∨
        (r.cursor.ahead = [] ∧ Reader.turn b r = .ok none r) ∨
        ∃ o : Offence, Reader.turn b r = .error (.rejected (o.report r.file r.cursor)) r)) ∧
    (∀ k r, Reader.Visits text file k none r → r.cursor.ahead ≠ [] →
      (∃ r', Reader.topLevel r = .ok () r' ∧
        r'.cursor.ahead.length < r.cursor.ahead.length) ∨
      ∃ e r', Reader.topLevel r = .error (.rejected e) r') := by
  refine ⟨?_, fun k o r h => ⟨h.rest_eq, ?_⟩, fun k b r h => ?_, fun k r h hne => ?_⟩
  · rw [read_eq]
    cases (scanText text).offence? with
    | none => exact Or.inl ⟨_, rfl⟩
    | some o => exact Or.inr ⟨_, rfl⟩
  · have := h.bound
    omega
  · obtain ⟨m, hf, -⟩ := h.fits
    refine ⟨Reader.isLeaf_of_fits hf, fun hs tabs ht => Reader.ancestor_of_fits hf hs ht, ?_⟩
    cases ha : r.cursor.ahead with
    | nil =>
      have ht : Reader.turn b r = .ok none r := by
        unfold Reader.turn
        rw [ha]
      exact Or.inr (Or.inl ⟨rfl, ht⟩)
    | cons c cs =>
      rcases Reader.turn_of_fits hf ha with ⟨v, o, r', -, ht, -, hpos, hcur⟩ | ho
      · have hmin : r'.cursor = r.cursor.skip (min v.passed (c :: cs).length) := by
          rw [hcur, Cursor.skip_min, ha]
        exact Or.inl ⟨o, _, r', ht, Nat.lt_min.mpr ⟨hpos, Nat.succ_pos _⟩,
          Nat.min_le_right _ _, hmin⟩
      · exact Or.inr (Or.inr ho)
  · obtain ⟨m, hf, -⟩ := h.fits
    exact Reader.topLevel_of_fits hf hne

end IndentLisp
