/-
# Closing an open string

A text that is rejected for an open string is offered a fix: the rest of its line with a quote
behind it (section 5, E001).  The fix does not look at how the line ends.  **It closes the string
exactly if an even number of backslashes stands at the end of the line** (`fix_closes_string_iff`).
An odd number leaves one backslash that escapes the new quote, and the fix is a string without an
end again (`fix_leaves_string_open`).

The rest of the line is an open string whatever comes after it in the text: a string that is open in
a text is open in every part at its front (`Token.length?_eq_none_of_append`).  How a quote at its
end is read depends on whether a backslash is left over there.  A backslash takes the next character
along, so going through the line takes two backslashes at a time off its end, or none
(`Token.endingBackslashes_escape`), and it is the parity that counts.

A string can also be open because a backslash stands before a line end, which it cannot escape.  The
fix has no line end behind the backslash, and so the same count decides.

* `Token.endingBackslashes`: how many backslashes a text ends with.
* `Token.stringLength?_quoted`: **what a quote does at the end of an open string.**
* `length?_of_scan`: at an offence for a quote, no token starts.
-/
import IndentLisp.Proofs.Reader.Position

namespace IndentLisp

/-! ## 1. A quote at the end of an open string -/

namespace Token

/-- The number of backslashes at the end of a text. -/
def endingBackslashes (cs : List Char) : Nat :=
  (cs.reverse.takeWhile (· = '\\')).length

/-- What stands before a text makes no difference if it does not end with a backslash. -/
theorem endingBackslashes_cons {c : Char} (hc : c ≠ '\\') (cs : List Char) :
    endingBackslashes (c :: cs) = endingBackslashes cs := by
  have hstop : [c].takeWhile (· = '\\') = [] := by simp [hc]
  rw [endingBackslashes, endingBackslashes, List.reverse_cons, List.takeWhile_append, hstop,
    List.append_nil]
  split
  · rename_i hall
    exact hall.symm
  · rfl

/-- **A backslash and the character that it escapes** change the number of backslashes at the end by
two, or not at all.  They do the former where everything after them is backslashes and the character
is one. -/
theorem endingBackslashes_escape (c : Char) (cs : List Char) :
    endingBackslashes ('\\' :: c :: cs) % 2 = endingBackslashes cs % 2 := by
  by_cases hc : c = '\\'
  · rw [hc, endingBackslashes, endingBackslashes, List.reverse_cons, List.reverse_cons,
      List.append_assoc, List.takeWhile_append]
    split
    · rename_i hall
      rw [List.length_append, hall]
      exact Nat.add_mod_right _ 2
    · rfl
  · have hstop : [c, '\\'].takeWhile (· = '\\') = [] := by simp [hc]
    rw [endingBackslashes, endingBackslashes, List.reverse_cons, List.reverse_cons,
      List.append_assoc, List.takeWhile_append]
    simp only [List.singleton_append, hstop, List.append_nil]
    split
    · rename_i hall
      rw [hall]
    · rfl

/-- **A quote at the end of an open string** closes it, unless a backslash escapes the quote.  The
string has no line feed in it, as it is part of one line. -/
theorem stringLength?_quoted {read : Nat} {cs : List Char} (hn : '\n' ∉ cs)
    (h : stringLength? read cs = none) :
    stringLength? read (cs ++ ['"']) =
      if endingBackslashes cs % 2 = 0 then some (read + cs.length + 1) else none := by
  fun_induction stringLength? read cs with
  | case1 => rfl
  | case2 => cases h
  | case3 => simp at hn
  | case4 read c cs hc ih =>
    have hn : '\n' ∉ cs := fun hm => hn (List.mem_cons_of_mem _ (List.mem_cons_of_mem _ hm))
    rw [List.cons_append, List.cons_append, stringLength?, if_neg hc, ih hn h,
      endingBackslashes_escape, List.length_cons, List.length_cons, Nat.add_right_comm read 2]
    rfl
  | case5 read c cs hq hb ih =>
    by_cases hc : c = '\\'
    · -- A backslash at the very end escapes the quote.
      subst hc
      cases cs with
      | nil => rfl
      | cons d ds => exact absurd rfl (hb d ds rfl)
    · have hn : '\n' ∉ cs := fun hm => hn (List.mem_cons_of_mem _ hm)
      rw [List.cons_append, stringLength?.eq_4 _ _ _ hq (fun _ _ e => absurd e hc), ih hn h,
        endingBackslashes_cons hc, List.length_cons, Nat.add_right_comm read 1, Nat.add_assoc read]

/-- A string that is open in a text is open in every part at its front. -/
theorem length?_eq_none_of_append {body rest : List Char}
    (h : length? ('"' :: (body ++ rest)) = none) :
    length? ('"' :: body) = none := by
  cases hl : length? ('"' :: body) with
  | none => rfl
  | some n =>
    have hlong := length?_string (accepts_take hl) (('"' :: body).drop n ++ rest)
    rw [← List.append_assoc, List.take_append_drop, List.cons_append, h] at hlong
    cases hlong

end Token

/-! ## 2. Where no token starts -/

/-- A turn that is none, and is not about a parenthesis, is where no token starts. -/
theorem length?_of_move {m : Option Nesting} {c : Char} {cs : List Char} {o : Offence}
    (h : move m c cs = .error o) (ho : o ≠ .extraClose) : Token.length? (c :: cs) = none := by
  cases m with
  | none => cases h
  | some n =>
    have hf := Front.of_cases c cs
    simp only [move, Nesting.move] at h
    cases hfront : Front.of c cs with
    | closing =>
      rw [hfront] at h
      simp only at h
      split at h
      · cases h
        exact absurd rfl ho
      · cases h
    | fault o' =>
      rw [hfront] at hf
      exact hf.2.1
    | opening | blank | lineEnd | comment | token =>
      rw [hfront] at h
      cases h

/-- **A scan that stops for a quote stops where no token starts.**  So what lies ahead of the cursor
is an open string, or a malformed character. -/
theorem length?_of_scan {m : Option Nesting} {cs : List Char} {o : Offence}
    (h : (scan m cs).offence? = some o) (ho : o ≠ .extraClose) :
    Token.length? (cs.drop (scan m cs).passed) = none := by
  fun_induction scan m cs with
  | case1 m => cases h
  | case2 m c cs o' hm =>
    cases h
    exact length?_of_move hm ho
  | case3 m c cs v hm ih =>
    rw [Scan.after, ← List.drop_drop]
    exact ih h

/-! ## 3. The fix for an open string -/

variable {text file : String} {e : Rejection}

/-- A text that is rejected for an open string has one at the place of the report, and the fix is
its first line with a quote behind it. -/
theorem exists_openString (h : read text file = .error (.rejected e))
    (hcode : e.diagnostic.code = "E001") :
    ∃ rest, e.remainder.toList = '"' :: rest ∧ Token.length? ('"' :: rest) = none ∧
      e.diagnostic.suggestions =
        [⟨"close the string", String.ofList ('"' :: Lines.first rest ++ ['"'])⟩] := by
  obtain ⟨o, ho, rfl⟩ := read_eq_rejected_iff.mp h
  cases o with
  | unterminatedString =>
    obtain ⟨rest, hd⟩ := mark_of_scan ho
    have hnone := length?_of_scan ho (by decide)
    rw [hd] at hnone
    have ha : (placeOf text).ahead = '"' :: rest := by
      rw [placeOf, Cursor.skip_ahead]
      exact hd
    have hline := Cursor.restOfLine_mark (o := .unterminatedString) ha
    refine ⟨rest, ?_, hnone, ?_⟩
    · rw [Offence.report, String.toList_ofList, ha]
    · simp only [Offence.report, Offence.suggestions, hline]
      rfl
  | malformedCharacter => exact absurd (show "E002" = "E001" from hcode) (by decide)
  | extraClose => exact absurd (show "E010" = "E001" from hcode) (by decide)

/-- **The fix for an open string closes it exactly if an even number of backslashes ends the line.**
Then it is one whole token, and otherwise no token starts it. -/
theorem fix_closes_string_iff (h : read text file = .error (.rejected e))
    (hcode : e.diagnostic.code = "E001") :
    ∃ fix, e.diagnostic.suggestions = [fix] ∧
      fix.replacement.toList = Lines.first e.remainder.toList ++ ['"'] ∧
      Token.end? fix.replacement.toList 0 =
        if Token.endingBackslashes (Lines.first e.remainder.toList) % 2 = 0
        then some fix.replacement.toList.length else none := by
  obtain ⟨rest, hr, hnone, hfix⟩ := exists_openString h hcode
  have hfirst : Lines.first e.remainder.toList = '"' :: Lines.first rest := by
    rw [hr, Lines.first, List.takeWhile_cons_of_pos (by decide)]
    rfl
  have hwhole : Token.length? ('"' :: (Lines.first rest ++ rest.dropWhile (· ≠ '\n'))) = none := by
    rw [Lines.first, List.takeWhile_append_dropWhile]
    exact hnone
  have hopen : Token.stringLength? 1 (Lines.first rest) = none :=
    Token.length?_eq_none_of_append hwhole
  have hquoted := Token.stringLength?_quoted (Lines.notMem_first rest) hopen
  refine ⟨_, hfix, ?_, ?_⟩
  · rw [String.toList_ofList, hfirst]
  · have htoken : Token.length? ('"' :: Lines.first rest ++ ['"']) =
        Token.stringLength? 1 (Lines.first rest ++ ['"']) := rfl
    rw [String.toList_ofList, hfirst, Token.endingBackslashes_cons (by decide), Token.end?,
      List.drop_zero, htoken, hquoted]
    split
    · simp only [Option.map_some, Option.some.injEq, List.length_append, List.length_cons,
        List.length_nil]
      omega
    · rfl

theorem fix_closes_string_iff_before_a_line_end :
    ∃ e, read "\"a\\\\\nb" "f" = .error (.rejected e) ∧ e.diagnostic.code = "E001" ∧
      ∃ fix, e.diagnostic.suggestions = [fix] ∧
        Token.end? fix.replacement.toList 0 = some fix.replacement.toList.length := by
  have hoffence : (scanText "\"a\\\\\nb").offence? = some .unterminatedString := by decide +kernel
  have hread := read_of_offence hoffence "f"
  obtain ⟨fix, hfix, -, hend⟩ := fix_closes_string_iff hread rfl
  have heven : Token.endingBackslashes (Lines.first
      (Offence.unterminatedString.report "f" (placeOf "\"a\\\\\nb")).remainder.toList) % 2 = 0 := by
    decide +kernel
  rw [if_pos heven] at hend
  exact ⟨_, hread, rfl, fix, hfix, hend⟩

/-- **The fix can leave the string open**: after `"a\` the new quote is escaped. -/
theorem fix_leaves_string_open :
    ∃ e fix, read "\"a\\" "f" = .error (.rejected e) ∧ e.diagnostic.code = "E001" ∧
      e.diagnostic.suggestions = [fix] ∧ fix.replacement = "\"a\\\"" ∧
      Token.end? fix.replacement.toList 0 = none := by
  have hoffence : (scanText "\"a\\").offence? = some .unterminatedString := by decide +kernel
  have hread := read_of_offence hoffence "f"
  have hfix : (Offence.unterminatedString.report "f" (placeOf "\"a\\")).diagnostic.suggestions =
      [⟨"close the string", "\"a\\\""⟩] := by decide +kernel
  exact ⟨_, _, hread, rfl, hfix, rfl, by decide +kernel⟩

end IndentLisp
