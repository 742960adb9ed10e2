/-
# Taking out an extra parenthesis

A text that is rejected for a closing parenthesis is offered a fix: its line without that
parenthesis (section 5, E010).  Taking the parenthesis out puts the text behind it next to the text
before it.  There a token can grow, a run of line ends or of tabs can grow, and a block can go on
that was over.  **A turn never comes less far for it** (`move_grows`), so nothing before the
parenthesis becomes an offence (`Passes.le_passed`).

The scan of the repaired text may pass the place of the parenthesis in the midst of a turn, of a
token or of a run that has grown.  What is claimed is that the text is read or rejected no earlier,
and not that it is rejected for something later in the original text.

That following the fixes comes to an end is a count: a repair leaves one closing parenthesis less.
The last text may be read, or may be rejected for another offence; for those no fix is followed
here.

* `RejectedAt`, `rejectedAt_iff`: where a text is rejected, by the reader and by its scan.
* `repair`: the text after the fix.
* `ExtraClose.line?_repair`: the fix is a line of the repaired text.
* `exists_repaired`: repairs come to an end.
* `read_repair`: **the fix is the line of the repaired text**, the repaired text is read or rejected
  no earlier, and no more repairs are needed than there are closing parentheses.
-/
import Mathlib.Logic.Function.Iterate
import IndentLisp.Proofs.Reader.Passage
import IndentLisp.Proofs.Reader.Position

namespace IndentLisp

/-! ## 1. Any text after a turn -/

/-- A line that goes on is no shorter. -/
theorem le_lineLength_append {line : List Char} (h : '\n' ∉ line) (rest : List Char) :
    line.length ≤ lineLength (line ++ rest) := by
  have hall : ∀ c ∈ line, (decide (c ≠ '\n')) = true := by
    intro c hc
    have hne : c ≠ '\n' := fun e => h (e ▸ hc)
    simp [hne]
  rw [lineLength, List.takeWhile_append_of_pos hall, List.length_append]
  exact Nat.le_add_right _ _

/-- The line at the front of a text is no shorter before any other text. -/
theorem lineLength_le_replace (cs rest : List Char) {k : Nat} (hk : lineLength cs ≤ k) :
    lineLength cs ≤ lineLength (cs.take k ++ rest) := by
  obtain ⟨i, rfl⟩ := Nat.exists_eq_add_of_le hk
  have hle := le_lineLength_append (notMem_line cs) ((cs.drop (lineLength cs)).take i ++ rest)
  rwa [length_line, ← List.append_assoc, ← List.take_add] at hle

/-- Line ends are passed, and so is a run of them that starts before. -/
theorem Nesting.le_passed_breakLine (n : Nesting) (j : Nat) (rest : List Char) :
    j ≤ (n.breakLine (List.replicate j '\n' ++ rest)).passed := by
  obtain ⟨i, rest, rfl, hn⟩ := exists_run '\n' rest
  have hends : ((List.replicate (j + i) '\n' ++ rest).takeWhile (· = '\n')).length = j + i :=
    length_run (j + i) hn
  rw [← List.append_assoc, List.replicate_append_replicate, Nesting.breakLine]
  simp only [hends]
  split
  · split <;> exact Nat.le_add_right _ _
  · split <;> simp only <;> omega

/-- **Line ends and tabs are passed no less far** before any other text.  There may be more of them,
and a block that was over may go on, and then its tabs are passed as well. -/
theorem Nesting.breakLine_grows (n : Nesting) (cs rest : List Char) :
    (n.breakLine ('\n' :: cs)).passed ≤
      (n.breakLine (('\n' :: cs).take (n.breakLine ('\n' :: cs)).passed ++ rest)).passed := by
  obtain ⟨j, ds, hcs, hn⟩ := exists_run_cons '\n' cs
  rw [hcs]
  have hends : (n.breakLine (List.replicate (j + 1) '\n' ++ ds)).passed = j + 1 →
      (n.breakLine (List.replicate (j + 1) '\n' ++ ds)).passed ≤
        (n.breakLine ((List.replicate (j + 1) '\n' ++ ds).take
          (n.breakLine (List.replicate (j + 1) '\n' ++ ds)).passed ++ rest)).passed := by
    intro hp
    rw [hp, (take_drop_append List.length_replicate ds).1]
    exact n.le_passed_breakLine (j + 1) rest
  cases hs : n.style with
  | classic =>
    by_cases h0 : n.opened = 0
    · exact hends (congrArg Move.passed (breakLine_last j hn (fun _ => h0) (by simp [hs])))
    · exact hends (congrArg Move.passed (breakLine_open j hs h0 hn))
  | indented =>
    obtain ⟨k, ds, rfl, ht⟩ := exists_run '\t' ds
    cases k with
    | zero =>
      exact hends (congrArg Move.passed (breakLine_last (n := n) j hn (by simp [hs]) fun _ => ht))
    | succ k =>
      -- The tabs that are passed can be followed by more of them.
      obtain ⟨i, rest, rfl, ht'⟩ := exists_run '\t' rest
      have htake : (List.replicate (j + 1) '\n' ++ (List.replicate (k + 1) '\t' ++ ds)).take
          (j + 1 + (k + 1)) = List.replicate (j + 1) '\n' ++ List.replicate (k + 1) '\t' := by
        rw [← List.append_assoc]
        exact List.take_left' (by simp)
      have hline := breakLine_line (n := n) j (k + i) hs ht'
      rw [breakLine_line j k hs ht, htake, List.append_assoc,
        ← List.append_assoc (List.replicate _ '\t'),
        List.replicate_append_replicate, Nat.add_right_comm k 1 i, hline]
      simp only
      omega

/-- **A turn comes no less far before any other text**, and it is no offence there.  The text is
kept up to the last character of the turn, which may be what made it end. -/
theorem move_grows {m : Option Nesting} {c : Char} {cs : List Char} {v : Move}
    (h : move m c cs = .ok v) (rest : List Char) :
    ∃ v', move m c (cs.take (v.passed - 1) ++ rest) = .ok v' ∧ v.passed ≤ v'.passed := by
  cases turn_of_move h with
  | gap hc => exact ⟨_, move_gap hc _, Nat.le_refl _⟩
  | remark =>
    refine ⟨_, congrArg Except.ok (moveBetween_comment _), ?_⟩
    rw [lineLength_comment, lineLength_comment, Nat.add_sub_cancel]
    exact Nat.succ_le_succ (lineLength_le_replace cs rest (Nat.le_refl _))
  | classic => exact ⟨_, congrArg Except.ok (moveBetween_opening _), Nat.le_refl _⟩
  | indented hc ho => exact ⟨_, congrArg Except.ok (moveBetween_other hc ho _), Nat.le_refl _⟩
  | @opening n _ => exact ⟨⟨1, [.enter], _⟩, by simp [move, Nesting.move], Nat.le_refl _⟩
  | @closing n _ h0 => exact ⟨⟨1, [.leave], _⟩, by simp [move, Nesting.move, h0], Nat.le_refl _⟩
  | blank hc => exact ⟨_, move_blank hc _ _, Nat.le_refl _⟩
  | @lineEnd n _ =>
    have hgrows := n.breakLine_grows cs rest
    obtain ⟨j, hj⟩ := Nat.exists_eq_succ_of_ne_zero (Nat.ne_of_gt (breakLine_pos n cs))
    refine ⟨_, move_breakLine n _, ?_⟩
    rw [hj] at hgrows ⊢
    exact hgrows
  | @comment n _ =>
    refine ⟨⟨_, [], some n⟩, by simp [move, Nesting.move]; rfl, ?_⟩
    rw [lineLength_comment, lineLength_comment]
    exact Nat.add_le_add_right (lineLength_le_replace cs rest (Nat.le_succ _)) 2
  | @token n _ _ k hc hk =>
    have hacc := Token.accepts_take hk
    obtain ⟨j, rfl⟩ := Nat.exists_eq_succ_of_ne_zero (Nat.ne_of_gt (Token.length?_pos hk))
    rw [List.take_succ_cons] at hacc
    obtain ⟨i, hi, hle⟩ := Token.exists_length? hacc rest
    rw [← List.take_succ_cons, List.length_take_of_le (Token.length?_le hk)] at hle
    exact ⟨_, move_token hc hi n, hle⟩

/-! ## 2. Any text after a place -/

namespace Passes

variable {m m' : Option Nesting} {front rest : List Char} {xs : List Stroke}

/-- A scan comes as far as its way to a place, and then as far as from there. -/
theorem add_le_passed (h : Passes m front xs m' rest) :
    front.length + (scan m' rest).passed ≤ (scan m (front ++ rest)).passed := by
  induction h with
  | refl => simp
  | @turn front _ m' d ds v _ hv ih =>
    have htake := List.length_take_le v.passed (d :: ds)
    rw [scan_ok hv, Scan.after] at ih
    rw [List.append_assoc, List.take_append_drop, List.length_append]
    simp only at ih
    omega

/-- **A scan comes to a place again, or past it**, whatever the text after that place is replaced
by.  The turns before it may be others, since one of them may go on beyond the place. -/
theorem le_passed (h : Passes m front xs m' rest) (rest' : List Char) :
    front.length ≤ (scan m (front ++ rest')).passed := by
  induction h generalizing rest' with
  | refl => exact Nat.zero_le _
  | @turn front xs m' d ds v hp hv ih =>
    obtain ⟨v', hv', hle⟩ := move_grows hv rest'
    cases hk : v.passed with
    | zero =>
      rw [List.take_zero, List.append_nil]
      exact ih rest'
    | succ k =>
      rw [hk, Nat.add_sub_cancel] at hv'
      have hreplaced : Passes m front xs _ (d :: (ds.take k ++ rest')) :=
        hp.replace rfl (Or.inl rfl)
      have hfar := hreplaced.add_le_passed
      have htake := List.length_take_le (k + 1) (d :: ds)
      rw [scan_ok hv', Scan.after, ← List.cons_append, ← List.take_succ_cons, ← List.append_assoc]
        at hfar
      rw [List.length_append]
      simp only at hfar
      omega

end Passes

/-- **Where a scan finds an offence, it comes at least as far** in any text that is the same up to
there. -/
theorem passed_le_of_offence {m : Option Nesting} {cs : List Char} {o : Offence}
    (h : (scan m cs).offence? = some o) (rest : List Char) :
    (scan m cs).passed ≤ (scan m (cs.take (scan m cs).passed ++ rest)).passed := by
  obtain ⟨ds, hd⟩ := mark_of_scan h
  obtain ⟨m', hr⟩ := exists_reaches_stop m cs
  obtain ⟨front, xs, hcs, hp⟩ := hr.passes
  have hlen := congrArg List.length hd
  rw [List.length_drop, List.length_cons] at hlen
  have htake : cs.take (scan m cs).passed = front :=
    List.append_cancel_right ((List.take_append_drop _ cs).trans hcs)
  have hfront : front.length = (scan m cs).passed := by
    rw [← htake]
    exact List.length_take_of_le (by omega)
  calc (scan m cs).passed = front.length := hfront.symm
    _ ≤ (scan m (front ++ rest)).passed := hp.le_passed rest
    _ = _ := by rw [htake]

/-! ## 3. Repairs -/

/-- A text is rejected at an offset: there the reader stops. -/
def RejectedAt (text file : String) (e : Rejection) (offset : Nat) : Prop :=
  ∃ r, Reader.readAll (.ofText text file) = .error (.rejected e) r ∧ r.cursor.place.offset = offset

/-- A text is rejected for a closing parenthesis. -/
def HasExtraClose (file text : String) : Prop :=
  ∃ e offset, RejectedAt text file e offset ∧ e.diagnostic.code = "E010"

/-- The text after the fix for an extra parenthesis: without the character at which it is rejected.
A text that is read, or rejected for something else, stays as it is.  Line ends are unified in what
is left. -/
def repair (file text : String) : String :=
  match Reader.readAll (.ofText text file) with
  | .error (.rejected e) r =>
    if e.diagnostic.code = "E010" then
      String.ofList ((Lines.unify text.toList).eraseIdx r.cursor.place.offset)
    else text
  | _ => text

variable {text file : String} {e : Rejection} {offset : Nat} {before rest : List Char}

/-- What stands around the mark of an offence. -/
theorem unify_eq_of_offence {o : Offence} (h : (scanText text).offence? = some o) :
    ∃ before rest, Lines.unify text.toList = before ++ o.mark :: rest ∧
      (placeOf text).behind.reverse = before ∧ (placeOf text).ahead = o.mark :: rest ∧
      (scanText text).passed = before.length := by
  obtain ⟨rest, hd⟩ := mark_of_scan h
  have hahead : (placeOf text).ahead = o.mark :: rest := by
    rw [placeOf, Cursor.skip_ahead]
    exact hd
  have htext := text_placeOf text
  rw [Cursor.text, hahead] at htext
  refine ⟨_, rest, htext.symm, rfl, hahead, ?_⟩
  have hlen := congrArg List.length hd
  rw [List.length_drop, List.length_cons] at hlen
  rw [behind_placeOf]
  refine (List.length_take_of_le ?_).symm
  show (scan none (Lines.unify text.toList)).passed ≤ _
  omega

/-- Where a scan finds an offence, the reader stops. -/
theorem offset_placeOf {o : Offence} (h : (scanText text).offence? = some o) :
    (placeOf text).place.offset = (scanText text).passed := by
  obtain ⟨before, rest, -, hb, -, hp⟩ := unify_eq_of_offence h
  rw [hp, Cursor.placed_iff.mp (placed_placeOf text), hb]
  rfl

/-- **Where a text is rejected is where its scan finds an offence.** -/
theorem rejectedAt_iff :
    RejectedAt text file e offset ↔
      ∃ o, (scanText text).offence? = some o ∧ o.report file (placeOf text) = e ∧
        (scanText text).passed = offset := by
  rw [RejectedAt, readAll_eq]
  cases ho : (scanText text).offence? with
  | none => simp
  | some o =>
    constructor
    · rintro ⟨r, hr, rfl⟩
      cases hr
      exact ⟨o, rfl, rfl, (offset_placeOf ho).symm⟩
    · rintro ⟨o', ho', rfl, rfl⟩
      cases ho'
      exact ⟨_, rfl, offset_placeOf ho⟩

/-- A text is read, or rejected where its scan stops. -/
theorem read_or_rejectedAt (text file : String) :
    (∃ t, read text file = .ok t) ∨ ∃ e, RejectedAt text file e (scanText text).passed := by
  cases ho : (scanText text).offence? with
  | none => exact Or.inl ⟨_, read_eq_ok_iff.mpr ⟨ho, rfl⟩⟩
  | some o => exact Or.inr ⟨_, rejectedAt_iff.mpr ⟨o, ho, rfl, rfl⟩⟩

/-- An extra parenthesis stands in a text, between a part that is scanned and the rest.  All that is
said of a rejection for a parenthesis is said of these two parts. -/
structure ExtraClose (text : String) (before rest : List Char) : Prop where
  unify_eq : Lines.unify text.toList = before ++ ')' :: rest
  behind_eq : (placeOf text).behind.reverse = before
  ahead_eq : (placeOf text).ahead = ')' :: rest
  offence : (scanText text).offence? = some .extraClose
  passed_eq : (scanText text).passed = before.length

/-- A text that is rejected for a closing parenthesis has an extra one. -/
theorem exists_extraClose (h : RejectedAt text file e offset) (hcode : e.diagnostic.code = "E010") :
    ∃ before rest, ExtraClose text before rest ∧ before.length = offset ∧
      e = Offence.extraClose.report file (placeOf text) := by
  obtain ⟨o, ho, rfl, rfl⟩ := rejectedAt_iff.mp h
  cases o with
  | extraClose =>
    obtain ⟨before, rest, hu, hb, ha, hp⟩ := unify_eq_of_offence ho
    exact ⟨before, rest, ⟨hu, hb, ha, ho, hp⟩, hp.symm, rfl⟩
  | unterminatedString => exact absurd (show "E001" = "E010" from hcode) (by decide)
  | malformedCharacter => exact absurd (show "E002" = "E010" from hcode) (by decide)

namespace ExtraClose

/-- **A repair takes the parenthesis out.** -/
theorem repair_eq (h : ExtraClose text before rest) (file : String) :
    repair file text = String.ofList (before ++ rest) := by
  have hcode : (Offence.extraClose.report file (placeOf text)).diagnostic.code = "E010" := rfl
  rw [repair, readAll_eq, h.offence]
  simp only [if_pos hcode]
  rw [offset_placeOf h.offence, h.passed_eq, h.unify_eq,
    List.eraseIdx_append_of_length_le (Nat.le_refl _), Nat.sub_self, List.eraseIdx_cons_zero]

/-- The line ends of what is left are unified. -/
theorem unify_repaired (h : ExtraClose text before rest) :
    Lines.unify (String.ofList (before ++ rest)).toList = before ++ rest := by
  rw [String.toList_ofList]
  refine Lines.unify_of_notMem fun hm => Lines.not_mem_unify text.toList ?_
  rw [h.unify_eq]
  rcases List.mem_append.mp hm with hm | hm
  · exact List.mem_append_left _ hm
  · exact List.mem_append_right _ (List.mem_cons_of_mem _ hm)

/-- **The repaired text is scanned as far as before**, or further. -/
theorem le_passed (h : ExtraClose text before rest) (file : String) :
    before.length ≤ (scanText (repair file text)).passed := by
  have hle := passed_le_of_offence h.offence rest
  have hpassed : (scan none (Lines.unify text.toList)).passed = before.length := h.passed_eq
  have htake : (Lines.unify text.toList).take before.length = before := by
    rw [h.unify_eq, List.take_left]
  rw [hpassed, htake] at hle
  rwa [scanText, h.repair_eq, h.unify_repaired]

/-- **The fix is a line of the repaired text**, with the number of the line of the parenthesis. -/
theorem line?_repair (h : ExtraClose text before rest) (file : String) :
    (Source.ofText file (repair file text)).line? (placeOf text).place.line =
      some (String.ofList (placeOf text).lineWithoutHere) := by
  -- The place of the parenthesis, in the repaired text.
  let here : Cursor := ⟨(placeOf text).behind, rest, (placeOf text).place⟩
  have htext : here.text = Lines.unify (repair file text).toList := by
    rw [h.repair_eq, h.unify_repaired, ← h.behind_eq]
    rfl
  have hrest : (placeOf text).restOfLine.drop 1 = here.restOfLine := by
    rw [Cursor.restOfLine_mark (o := .extraClose) h.ahead_eq]
    rfl
  have hline : (placeOf text).lineWithoutHere = here.line := by
    rw [Cursor.lineWithoutHere, hrest]
    rfl
  rw [hline]
  exact Cursor.line?_ofText (c := here) (placed_placeOf text) htext file

end ExtraClose

/-- A repair leaves one closing parenthesis less. -/
theorem HasExtraClose.count_repair (h : HasExtraClose file text) :
    (Lines.unify text.toList).count ')' =
      (Lines.unify (repair file text).toList).count ')' + 1 := by
  obtain ⟨e, offset, hr, hcode⟩ := h
  obtain ⟨before, rest, hx, -⟩ := exists_extraClose hr hcode
  rw [hx.repair_eq, hx.unify_repaired, hx.unify_eq, List.count_append, List.count_append,
    List.count_cons_self, Nat.add_assoc]

/-- **Repairs come to an end** after no more steps than there are closing parentheses.  The
induction is on their number, which a repair makes smaller by one. -/
theorem exists_repaired (file : String) (n : Nat) (text : String)
    (h : (Lines.unify text.toList).count ')' ≤ n) :
    ∃ k ≤ n, (∀ j < k, HasExtraClose file ((repair file)^[j] text)) ∧
      ¬ HasExtraClose file ((repair file)^[k] text) := by
  induction n generalizing text with
  | zero =>
    refine ⟨0, Nat.le_refl 0, fun j hj => absurd hj (Nat.not_lt_zero j), ?_⟩
    intro hx
    have hcount := HasExtraClose.count_repair (show HasExtraClose file text from hx)
    omega
  | succ n ih =>
    by_cases hx : HasExtraClose file text
    · have hcount := hx.count_repair
      obtain ⟨k, hk, hbefore, hlast⟩ := ih (repair file text) (by omega)
      refine ⟨k + 1, Nat.succ_le_succ hk, ?_, hlast⟩
      intro j hj
      cases j with
      | zero => exact hx
      | succ j => exact hbefore j (Nat.lt_of_succ_lt_succ hj)
    · exact ⟨0, Nat.zero_le _, fun j hj => absurd hj (Nat.not_lt_zero j), hx⟩

/-- **Following the fix for an extra parenthesis makes progress.**  Where a text is rejected for a
closing parenthesis, one stands there, and without it the line with the number that the report gives
is the fix, and the text is read or rejected no earlier.  Fix after fix, no text is rejected for a
closing parenthesis any more after at most as many steps as the text has closing parentheses. -/
theorem read_repair (text file : String) :
    (∀ e offset, RejectedAt text file e offset → e.diagnostic.code = "E010" →
      (Lines.unify text.toList)[offset]? = some ')' ∧
      repair file text = String.ofList ((Lines.unify text.toList).eraseIdx offset) ∧
      (∃ span fix, e.diagnostic.span? = some span ∧ e.diagnostic.suggestions = [fix] ∧
        (Source.ofText file (repair file text)).line? span.startLine = some fix.replacement) ∧
      ((∃ t, read (repair file text) file = .ok t) ∨
        ∃ e' offset', RejectedAt (repair file text) file e' offset' ∧ offset ≤ offset')) ∧
    ∃ k ≤ (Lines.unify text.toList).count ')',
      (∀ j < k, HasExtraClose file ((repair file)^[j] text)) ∧
        ¬ HasExtraClose file ((repair file)^[k] text) := by
  refine ⟨?_, exists_repaired file _ text (Nat.le_refl _)⟩
  intro e offset h hcode
  obtain ⟨before, rest, hx, rfl, rfl⟩ := exists_extraClose h hcode
  refine ⟨?_, ?_, ⟨_, _, rfl, rfl, hx.line?_repair file⟩, ?_⟩
  · rw [hx.unify_eq, List.getElem?_append_right (Nat.le_refl _), Nat.sub_self]
    rfl
  · rw [hx.repair_eq, hx.unify_eq, List.eraseIdx_append_of_length_le (Nat.le_refl _), Nat.sub_self,
      List.eraseIdx_cons_zero]
  · rcases read_or_rejectedAt (repair file text) file with hread | ⟨e', he'⟩
    · exact Or.inl hread
    · exact Or.inr ⟨e', _, he', hx.le_passed file⟩

theorem read_repair_longer_character :
    ∃ e, RejectedAt "a '\\')'\n)" "f" e 5 ∧ e.diagnostic.code = "E010" ∧
      repair "f" "a '\\')'\n)" = "a '\\''\n)" ∧
      (∃ span fix, e.diagnostic.span? = some span ∧ e.diagnostic.suggestions = [fix] ∧
        (Source.ofText "f" (repair "f" "a '\\')'\n)")).line? span.startLine =
          some fix.replacement) ∧
      ((∃ t, read (repair "f" "a '\\')'\n)") "f" = .ok t) ∨
        ∃ e' offset', RejectedAt (repair "f" "a '\\')'\n)") "f" e' offset' ∧ 5 ≤ offset') := by
  have hoffence : (scanText "a '\\')'\n)").offence? = some .extraClose := by decide +kernel
  have hpassed : (scanText "a '\\')'\n)").passed = 5 := by decide +kernel
  have hrejected : RejectedAt "a '\\')'\n)" "f"
      (Offence.extraClose.report "f" (placeOf "a '\\')'\n)")) 5 :=
    rejectedAt_iff.mpr ⟨_, hoffence, rfl, hpassed⟩
  obtain ⟨-, hrepair, hfix, hlater⟩ := (read_repair "a '\\')'\n)" "f").1 _ _ hrejected rfl
  exact ⟨_, hrejected, rfl, hrepair.trans (by decide +kernel), hfix, hlater⟩

end IndentLisp
