/-
# What a text drew can be read off its tree

A tree is drawn by strokes, one after another, and nothing that is drawn is taken back: the open
lists of a drawing say all that has been drawn so far (`written_scan`).  When a text is over there
is one open list left, and what that says is what the tree says, but for the lists around a lone
item, which are stripped.  So **the strokes of a text can be read off its tree**
(`strokes_of_read`), up to the number of lists that are stripped.

That number is lost, and with it the strokes cannot be told in general: `a` and `(a)` give one tree.
But two texts whose strokes have a common start can be compared, if that start holds any stroke but
the start of a list: what is stripped then starts within it, in both texts alike.  So **texts that
start alike and say the same are drawn by the same strokes** (`strokes_eq_of_data`).  This is what
turns a criterion for one reading being another into an exact one: where the strokes differ the
trees say different things.

A block has drawn such a stroke wherever a line end or a comment in it could matter: an indented
block from its first turn on (`Passes.exists_ne_enter`), and a classic one when its parentheses are
all closed (`Passes.mem_leave`).

With that, a line taken out of a text or put in can be followed in both directions.  The same is
found if every indented block that the reader is in at the line ends before it finds the same
(`found_of_lineStart`), and each does if the trees say the same (`found_line_of_data`).  What a
block finds there is told by the tabs of the line and of the next one, so an edit of a line is left
with a question about those.

* `found_of_passes`: what is found in a text, from a place of it.
* `found_of_data`: texts that start alike and say the same.
-/
import IndentLisp.Proofs.Reader.NextLine
import IndentLisp.Proofs.Reader.Separation
import IndentLisp.Proofs.Reader.Spot
import IndentLisp.Proofs.Tree.Written

namespace IndentLisp

/-! ## 1. The strokes of a text -/

/-- The strokes of a turn are written in what the open lists say. -/
theorem written_move {m : Option Nesting} {c : Char} {cs : List Char} {v : Move} {d : Draft}
    (hv : move m c cs = .ok v) (hl : d.level = levelOf m) :
    Draft.written (d.draw v.strokes).sayings = Draft.written d.sayings ++ v.strokes := by
  have hquiet : Draft.written (d.draw []).sayings = Draft.written d.sayings ++ [] :=
    (List.append_nil _).symm
  cases turn_of_move hv with
  | gap | remark | blank | comment => exact hquiet
  | classic | indented | opening => exact Draft.written_stroke (x := .enter) nofun
  | token => exact Draft.written_stroke (x := .leaf _) nofun
  | @closing n _ h0 =>
    refine Draft.written_stroke (x := .leave) fun _ => ?_
    rw [hl, levelOf, Nesting.level]
    cases n.style with
    | classic => exact h0
    | indented => exact Nat.ne_of_gt (Nat.add_pos_right _ (Nat.pos_of_ne_zero h0))
  | @lineEnd n _ =>
    unfold Nesting.breakLine
    cases hs : n.style with
    | classic =>
      simp only
      split <;> exact hquiet
    | indented =>
      simp only
      split
      · exact Draft.written_leave (Nat.le_of_eq hl.symm)
      · exact Draft.written_line (hl.trans (Nesting.level_of_indented hs))

/-- The strokes of a scan are. -/
theorem written_scan {m : Option Nesting} {cs : List Char} {d : Draft} (hl : d.level = levelOf m) :
    Draft.written (d.draw (scan m cs).strokes).sayings =
      Draft.written d.sayings ++ (scan m cs).strokes := by
  fun_induction scan m cs generalizing d with
  | case1 m => exact Draft.written_leave (Nat.le_of_eq hl.symm)
  | case2 m c cs o hv => exact (List.append_nil _).symm
  | case3 m c cs v hv ih =>
    rw [Scan.after, Draft.draw_append, ih (level_draw_move hv hl), written_move hv hl,
      List.append_assoc]

/-- **The strokes of a text can be read off its tree**, but for lists that are unwrapped. -/
theorem strokes_of_read {text file : String} {t : Tree} (ht : read text file = .ok t) :
    ∃ x : Data, x.unwrap = t.data ∧
    x.strokes = .enter :: ((scanText text).strokes ++ [.leave]) := by
  obtain ⟨ho, rfl⟩ := read_eq_ok_iff.mp ht
  have hlevel : (draftOf text).level = 0 := level_draw_scan ho rfl
  refine ⟨.list (draftOf text).said, ?_, ?_⟩
  · rw [Tree.data_unwrap, Draft.data_of_level hlevel]
  · have hwritten : Draft.written (draftOf text).sayings = .enter :: (scanText text).strokes :=
      written_scan (d := .start) rfl
    rw [Draft.sayings_of_level hlevel, Draft.written, Draft.written, List.nil_append] at hwritten
    rw [Data.strokes, (List.cons.inj hwritten).2]

/-- **Texts whose strokes start alike, and whose trees say the same, have the same strokes**, if
lists that are unwrapped are not all that they start with. -/
theorem strokes_eq_of_data {text text' file : String} {t t' : Tree} (ht : read text file = .ok t)
    (ht' : read text' file = .ok t') (hdata : t'.data = t.data) {front rest rest' : List Stroke}
    (hs : (scanText text).strokes = front ++ rest)
    (hs' : (scanText text').strokes = front ++ rest') (hfront : ∃ y ∈ front, y ≠ .enter) :
    rest' = rest := by
  obtain ⟨x, hx, hstrokes⟩ := strokes_of_read ht
  obtain ⟨x', hx', hstrokes'⟩ := strokes_of_read ht'
  rw [hs, List.append_assoc, ← List.cons_append] at hstrokes
  rw [hs', List.append_assoc, ← List.cons_append] at hstrokes'
  obtain ⟨y, hy, hne⟩ := hfront
  have hsame := Data.strokes_eq_of_unwrap (hx.trans (hdata.symm.trans hx'.symm)) hstrokes hstrokes'
    ⟨y, List.mem_cons_of_mem _ hy, hne⟩
  rw [hstrokes, hstrokes'] at hsame
  exact (List.append_cancel_right (List.append_cancel_left hsame)).symm

/-! ## 2. What a block has drawn -/

/-- Line ends leave a classic block as it is, or end it. -/
theorem Nesting.eq_of_breakLine (n : Nesting) {n' : Nesting} {cs : List Char}
    (h : (n.breakLine cs).next = some n') (hs : n'.style = .classic) : n = n' := by
  unfold breakLine at h
  cases hn : n.style with
  | classic =>
    rw [hn] at h
    by_cases h0 : n.opened = 0
    · simp [h0] at h
    · simpa [h0] using h
  | indented =>
    rw [hn] at h
    simp only at h
    split at h
    · cases h
    · cases h
      cases hs

namespace Passes

variable {front rest : List Char} {xs : List Stroke} {m : Option Nesting} {n : Nesting}

/-- In an indented block something has been drawn besides lists that start, or the turn at its first
character is still to come. -/
theorem exists_ne_enter (h : Passes none front xs m rest) (hm : m = some n)
    (hs : n.style = .indented) :
    (∃ x ∈ xs, x ≠ .enter) ∨
      ∃ c, rest.head? = some c ∧ (c ≠ ' ' ∧ c ≠ '\t' ∧ c ≠ '\n' ∧ c ≠ ';') ∧ c ≠ '(' := by
  induction h generalizing n with
  | refl => cases hm
  | @turn front xs m' c cs v hp hv ih =>
    cases m' with
    | none =>
      cases turn_of_move hv with
      | gap | remark => cases hm
      | classic =>
        cases hm
        cases hs
      | indented hc ho => exact Or.inr ⟨c, rfl, hc, ho⟩
    | some n' =>
      rcases ih rfl ((style_of_move hv hm).symm.trans hs) with ⟨x, hx, hne⟩ | ⟨d, hd, hc, ho⟩
      · exact Or.inl ⟨x, List.mem_append_left _ hx, hne⟩
      obtain rfl : c = d := Option.some.inj hd
      -- The first turn of a block is at a token, if it is not at a parenthesis too many.
      cases turn_of_move hv with
      | opening => exact absurd rfl ho
      | closing => exact Or.inl ⟨.leave, by simp, nofun⟩
      | blank hb => exact absurd hb (not_or.mpr ⟨hc.1, hc.2.1⟩)
      | lineEnd => exact absurd rfl hc.2.2.1
      | comment => exact absurd rfl hc.2.2.2
      | token => exact Or.inl ⟨.leaf _, List.mem_append_right _ (List.mem_singleton_self _), nofun⟩

/-- In a classic block whose parentheses are all closed a list has been ended. -/
theorem mem_leave (h : Passes none front xs m rest) (hm : m = some n) (hs : n.style = .classic)
    (h0 : n.opened = 0) : .leave ∈ xs := by
  induction h generalizing n with
  | refl => cases hm
  | @turn front xs m' c cs v hp hv ih =>
    cases turn_of_move hv with
    | gap | remark => cases hm
    | classic =>
      cases hm
      exact absurd h0 Nat.one_ne_zero
    | indented =>
      cases hm
      cases hs
    | opening =>
      cases hm
      exact absurd h0 (Nat.succ_ne_zero _)
    | closing => exact List.mem_append_right _ (List.mem_singleton_self _)
    | blank | comment | token =>
      cases hm
      exact List.mem_append_left _ (ih rfl hs h0)
    | @lineEnd n' _ =>
      obtain rfl := n'.eq_of_breakLine hm hs
      exact List.mem_append_left _ (ih rfl hs h0)

end Passes

/-! ## 3. Places in a text -/

namespace Reader

/-- The turns that lead a scan to where a reader is. -/
theorem Visits.passes {text file : String} {k : Nat} {o : Option Block} {r : Reader}
    (h : Visits text file k o r) :
    ∃ m xs, Fits m o r ∧ Passes none r.cursor.behind.reverse xs m r.cursor.ahead := by
  obtain ⟨m, hf, hr⟩ := h.fits
  obtain ⟨front, xs, hsource, hp⟩ := hr.passes
  have hfront : r.cursor.behind.reverse = front := by
    have ht := h.text_eq
    rw [hsource] at ht
    exact List.append_cancel_right ht
  exact ⟨m, xs, hf, hfront ▸ hp⟩

/-- A place in a text that a scan comes to is a place of the reading, with the text before it
behind. -/
theorem visits_behind {text : String} (file : String) {m : Option Nesting} {front rest : List Char}
    (h : Reaches none (Lines.unify text.toList) m rest)
    (ht : Lines.unify text.toList = front ++ rest) :
    ∃ k o r, Visits text file k o r ∧ Fits m o r ∧ r.cursor.behind = front.reverse ∧
      r.cursor.ahead = rest := by
  obtain ⟨k, o, r, hv, hf, ha⟩ := visits_of_reaches file h
  have hbehind : r.cursor.behind.reverse ++ r.cursor.ahead = front ++ rest := hv.text_eq.trans ht
  rw [ha] at hbehind
  exact ⟨k, o, r, hv, hf, List.reverse_eq_iff.mp (List.append_cancel_right hbehind), ha⟩

end Reader

/-- What is found in a text, by the turns that lead to a place of it. -/
theorem found_of_passes {text : String} {front rest : List Char} {xs : List Stroke}
    {m : Option Nesting} (h : Passes none front xs m rest)
    (ht : Lines.unify text.toList = front ++ rest) :
    (scanText text).found = Stroke.before xs (scan m rest).found := by
  rw [scanText, ht, h.found]

/-- **Where two texts that start alike say the same, the same is found from there on**, if something
has been drawn by then besides lists that start. -/
theorem found_of_data {text text' file : String} {t t' : Tree} (ht : read text file = .ok t)
    (ht' : read text' file = .ok t') (hdata : t'.data = t.data) {front rest rest' : List Char}
    {xs : List Stroke} {m : Option Nesting} (hp : Passes none front xs m rest)
    (hp' : Passes none front xs m rest') (hsource : Lines.unify text.toList = front ++ rest)
    (hsource' : Lines.unify text'.toList = front ++ rest') (hfront : ∃ x ∈ xs, x ≠ .enter) :
    (scan m rest').found = (scan m rest).found := by
  obtain ⟨hstrokes, hoffence⟩ := Prod.mk.inj (found_of_passes hp hsource)
  obtain ⟨hstrokes', hoffence'⟩ := Prod.mk.inj (found_of_passes hp' hsource')
  have hsame := strokes_eq_of_data ht ht' hdata hstrokes hstrokes' hfront
  have hnone : (scanText text').offence? = (scanText text).offence? := by
    rw [(read_eq_ok_iff.mp ht).1, (read_eq_ok_iff.mp ht').1]
  exact Prod.ext hsame (hoffence'.symm.trans (hnone.trans hoffence))

/-! ## 4. A line that is replaced -/

section Line

variable {text text' : String} {before line rest rest' : List Char}

/-- **A line replaced from its start on.**  The same is found in the text if every scan finds the
same in the two lines, and every indented block that the reader is in at the line ends before them
finds the same from there. -/
theorem found_of_lineStart (file : String)
    (hstart : Passes.LineStart (before ++ line) rest)
    (hlast : Lines.last (before ++ line) = line)
    (htext : Lines.unify text.toList = before ++ (line ++ rest))
    (htext' : Lines.unify text'.toList = before ++ rest')
    (hsame : ∀ m, (scan m rest').found = (scan m (line ++ rest)).found)
    (hblock : ∀ k n handle r j, Reader.Visits text file k (some (n.block handle)) r →
      n.style = .indented → r.cursor.ahead = List.replicate (j + 1) '\n' ++ (line ++ rest) →
      (scan (some n) (List.replicate (j + 1) '\n' ++ (line ++ rest))).offence? =
        (scanText text).offence? →
      (scan (some n) (List.replicate (j + 1) '\n' ++ rest')).found =
        (scan (some n) (List.replicate (j + 1) '\n' ++ (line ++ rest))).found) :
    (scanText text').found = (scanText text).found := by
  cases hstart with
  | free hfront hfree =>
    -- Any text could stand where the line starts.
    rw [hlast] at hfront
    obtain rfl := List.append_cancel_right hfront
    rw [found_of_passes (hfree _) htext', found_of_passes (hfree _) htext, hsame]
  | @block before' n j xs hfront hp =>
    -- The line ends before it are those of a block.
    rw [hlast] at hp
    rw [hlast, ← List.append_assoc] at hfront
    obtain rfl : before = before' ++ List.replicate (j + 1) '\n' := List.append_cancel_right hfront
    rw [List.append_assoc] at htext htext'
    have hfound := found_of_passes hp htext
    rw [found_of_passes (hp.replace_ends j rest') htext', hfound]
    congr 1
    cases hs : n.style with
    | classic => exact found_ends_classic hs j hsame
    | indented =>
      have hr := hp.reaches
      rw [← htext] at hr
      obtain ⟨k, o, r, hv, ⟨d, -, rfl, -⟩, ha⟩ := Reader.visits_of_reaches file hr
      exact hblock k n _ r j hv hs ha (congrArg Prod.snd hfound).symm

/-- **Where the texts say the same**, each such block does find the same from there. -/
theorem found_line_of_data {file : String} {t t' : Tree} (ht : read text file = .ok t)
    (ht' : read text' file = .ok t') (hdata : t'.data = t.data) {k j : Nat} {b : Reader.Block}
    {r : Reader} (hv : Reader.Visits text file k (some b) r) (hs : b.style = .indented)
    (ha : r.cursor.ahead = List.replicate (j + 1) '\n' ++ rest)
    (htext : Lines.unify text.toList = before ++ rest)
    (htext' : Lines.unify text'.toList = before ++ rest') :
    ∃ n : Nesting, n.style = .indented ∧ n.depth = b.depth ∧
      (scan (some n) (List.replicate (j + 1) '\n' ++ rest)).offence? = none ∧
      (scan (some n) (List.replicate (j + 1) '\n' ++ rest')).found =
        (scan (some n) (List.replicate (j + 1) '\n' ++ rest)).found := by
  obtain ⟨m, xs, hf, hp⟩ := hv.passes
  obtain ⟨n, d, rfl, -, rfl, -⟩ := Reader.fits_some hf
  have hsource : Lines.unify text.toList =
      r.cursor.behind.reverse ++ (List.replicate (j + 1) '\n' ++ rest) := by
    rw [← hv.text_eq, Cursor.text, ha]
  rw [ha] at hp
  -- What comes before is what lies behind, and the line ends.
  have hbefore : before = r.cursor.behind.reverse ++ List.replicate (j + 1) '\n' := by
    rw [hsource, ← List.append_assoc] at htext
    exact (List.append_cancel_right htext).symm
  rw [hbefore, List.append_assoc] at htext'
  have hfront : ∃ x ∈ xs, x ≠ .enter := by
    refine (hp.exists_ne_enter rfl hs).resolve_right ?_
    rintro ⟨c, hc, ⟨-, -, hn, -⟩, -⟩
    exact hn (Option.some.inj hc).symm
  have hoffence := congrArg Prod.snd (found_of_passes hp hsource)
  exact ⟨n, hs, rfl, hoffence.symm.trans (read_eq_ok_iff.mp ht).1,
    found_of_data ht ht' hdata hp (hp.replace_ends j rest') hsource htext' hfront⟩

end Line

end IndentLisp
