/-
# Where tokens end

How far a token reaches hardly depends on what comes after it (section 4, token classification).  A
string ends at its own quote, and the other two rules look one character ahead at most: a symbol
stops at the first delimiter, and a character token is longer by one if another single quote follows
`'\'`.

So a token can be moved to another text.  It is found there again, if nothing follows it there, or a
delimiter, or the character that followed it before (`length?_append`); and in particular it is
found in any part of its own text that holds it.  Blanks, parentheses and line ends are delimiters,
and so is a double quote, while a semicolon is none: a symbol goes on over it.

A text is a valid token if it is one token from its first character to its last.  Two more things
are asked of it, which the rules for tokens do not say: it starts no comment, since a reader looks
for a comment first, and it has no carriage return in it, since a reader never sees one.

* `last_of_length?`: what is found does not end with a blank or a line end.
* `Valid`: the texts that are one whole token.
* `valid_take`: **what a scan takes for a token is valid by itself.**
-/
import IndentLisp.Proofs.Reader.Turn
import IndentLisp.Proofs.Token.Language

namespace IndentLisp.Token

variable {rest rest' : List Char}

/-! ## 1. The three rules -/

/-- A string ends at its own quote, whatever follows.  The induction is over what is found of it, a
backslash with the character after it being one step. -/
theorem stringLength?_append {read : Nat} {body : List Char}
    (h : stringLength? read (body ++ rest) = some (read + body.length)) :
    stringLength? read (body ++ rest') = some (read + body.length) := by
  obtain ⟨inside, hi, htake⟩ := inside_of_stringLength? h
  rw [Nat.add_sub_cancel_left, List.take_left] at htake
  rw [htake, List.append_assoc, List.singleton_append, stringLength?_inside hi, List.length_append]
  rfl

/-- A character token ends at its second quote, or at its third.  The third is looked for where the
token is a quoted backslash, and is a matter of what follows. -/
theorem characterLength?_append {body : List Char}
    (h : characterLength? (body ++ rest) = some (1 + body.length))
    (hr : ∀ c, rest'.head? = some c → isDelimiter c = true ∨ rest.head? = some c) :
    characterLength? (body ++ rest') = some (1 + body.length) := by
  unfold characterLength? at h
  split at h
  · rename_i c ds he
    split at h
    · cases h
    · rename_i hc
      have hlen : body.length = 3 := by
        simp only [Option.some.injEq] at h
        omega
      have hb : body = ['\\', c, '\''] := by
        have hb : (body ++ rest).take _ = body := List.take_left' hlen
        rw [← hb, he]
        rfl
      rw [hb]
      simp [characterLength?, hc]
  · rename_i c ds hno he
    split at h
    · cases h
    · rename_i hc
      have hlen : body.length = 2 := by
        simp only [Option.some.injEq] at h
        omega
      have hb : body = [c, '\''] := by
        have hb : (body ++ rest).take _ = body := List.take_left' hlen
        rw [← hb, he]
        rfl
      -- No third quote follows: none did before, and a quote is no delimiter.
      have hq : ∀ r, c = '\\' → rest' ≠ '\'' :: r := by
        rintro r rfl rfl
        rcases hr '\'' rfl with hd | hd
        · exact absurd hd (by decide)
        · cases rest with
          | nil => cases hd
          | cons d ds' =>
            cases hd
            rw [hb] at he
            cases he
            exact hno _ rfl rfl
      rw [hb, List.cons_append, List.cons_append, List.nil_append,
        characterLength?.eq_2 _ _ hq, if_neg hc]
      rfl
  · cases h

/-- A symbol ends before a delimiter. -/
theorem symbolLength?_append {tok : List Char}
    (h : symbolLength? (tok ++ rest) = some tok.length)
    (hr : ∀ c, rest'.head? = some c → isDelimiter c = true ∨ rest.head? = some c) :
    symbolLength? (tok ++ rest') = some tok.length := by
  have hlen : ((tok ++ rest).takeWhile (!isDelimiter ·)).length = tok.length ∧ tok ≠ [] := by
    unfold symbolLength? at h
    split at h
    · cases h
    · rename_i n hn
      rw [Option.some.injEq] at h
      exact ⟨hn.trans h, by rintro rfl; simp at h⟩
  obtain ⟨hlen, hne⟩ := hlen
  have hpre : (tok ++ rest).takeWhile (!isDelimiter ·) = tok := by
    have hp : (tok ++ rest).takeWhile (!isDelimiter ·) <+: tok ++ rest := List.takeWhile_prefix _
    exact (List.prefix_of_prefix_length_le hp (List.prefix_append tok rest)
      (by omega)).eq_of_length hlen
  have hall : ∀ c ∈ tok, (!isDelimiter c) = true := by
    intro c hc
    rw [← hpre] at hc
    exact List.all_eq_true.mp List.all_takeWhile c hc
  have hstop : rest.takeWhile (!isDelimiter ·) = [] := by
    rw [List.takeWhile_append_of_pos hall] at hpre
    simpa using hpre
  have hstop' : rest'.takeWhile (!isDelimiter ·) = [] := by
    cases rest' with
    | nil => rfl
    | cons c cs =>
      have hd : isDelimiter c = true := by
        rcases hr c rfl with hd | hc
        · exact hd
        · cases rest with
          | nil => cases hc
          | cons d ds =>
            cases hc
            cases hd : isDelimiter c with
            | true => rfl
            | false => simp [hd] at hstop
      simp [hd]
  unfold symbolLength?
  rw [List.takeWhile_append_of_pos hall, hstop', List.append_nil]
  cases tok with
  | nil => exact absurd rfl hne
  | cons c cs => rfl

/-! ## 2. All rules -/

/-- **A token stays a token when what follows it is replaced**, if that starts as it did, or with a
delimiter, or is gone.  The first character of the token chooses the rule, and is the same. -/
theorem length?_append {tok : List Char} (h : length? (tok ++ rest) = some tok.length)
    (hr : ∀ c, rest'.head? = some c → isDelimiter c = true ∨ rest.head? = some c) :
    length? (tok ++ rest') = some tok.length := by
  cases tok with
  | nil => exact absurd (length?_pos h) (Nat.lt_irrefl 0)
  | cons c body =>
    simp only [List.cons_append, length?, List.length_cons, Nat.add_comm body.length] at h ⊢
    cases hc : Rule.ofChar c with
    | string =>
      rw [hc] at h
      exact stringLength?_append h
    | character =>
      rw [hc] at h
      exact characterLength?_append h hr
    | symbol =>
      rw [hc] at h
      simp only at h ⊢
      rw [← List.cons_append, Nat.add_comm, ← List.length_cons (a := c)] at h ⊢
      exact symbolLength?_append h hr

/-- What follows a token can be replaced. -/
theorem length?_replace {cs : List Char} {n : Nat} (h : length? cs = some n)
    (hr : ∀ c, rest.head? = some c → isDelimiter c = true ∨ (cs.drop n).head? = some c) :
    length? (cs.take n ++ rest) = some n := by
  have hlen : (cs.take n).length = n := List.length_take_of_le (length?_le h)
  have happ : length? (cs.take n ++ cs.drop n) = some (cs.take n).length := by
    rw [List.take_append_drop, hlen, h]
  exact (length?_append happ hr).trans (congrArg some hlen)

/-- A token is found in any part of the text that holds it.  What follows it there follows it in the
text as well, or nothing does. -/
theorem length?_take {cs : List Char} {n m : Nat} (h : length? cs = some n) (hm : n ≤ m) :
    length? (cs.take m) = some n := by
  obtain ⟨k, rfl⟩ := Nat.exists_eq_add_of_le hm
  rw [List.take_add]
  refine length?_replace h fun c hc => Or.inr ?_
  cases hd : cs.drop n with
  | nil => simp [hd] at hc
  | cons d ds =>
    cases k with
    | zero => simp at hc
    | succ k => simpa [hd] using hc

/-- What is found does not end with a blank or a line end. -/
theorem last_of_length? {cs : List Char} {n : Nat} (h : length? cs = some n) :
    ∃ init z, cs.take n = init ++ [z] ∧ z ≠ ' ' ∧ z ≠ '\t' ∧ z ≠ '\n' := by
  obtain ⟨c, -, hacc⟩ := exists_head_of_length? h
  exact hacc.last

/-! ## 3. Valid tokens -/

/-- A text that is one whole token, and that neither starts a comment nor holds a line end of
another kind than the one that a reader sees.  Its leaf is written as it is, so these are the texts
that a leaf may hold if it is to be read back. -/
structure Valid (s : String) : Prop where
  whole : end? s.toList 0 = some s.toList.length
  noComment : s.toList.head? ≠ some ';'
  unified : '\r' ∉ s.toList

namespace Valid

variable {s : String}

theorem length?_eq (h : Valid s) : length? s.toList = some s.toList.length := by
  have hw := h.whole
  rw [end?, List.drop_zero] at hw
  cases hl : length? s.toList with
  | none => simp [hl] at hw
  | some n => simpa [hl] using hw

/-- A valid token is found where it is written, if nothing or a delimiter follows. -/
theorem length?_append (h : Valid s) {rest : List Char}
    (hr : ∀ c, rest.head? = some c → isDelimiter c = true) :
    length? (s.toList ++ rest) = some s.toList.length := by
  have hl : length? (s.toList ++ []) = some s.toList.length := by
    rw [List.append_nil]
    exact h.length?_eq
  exact Token.length?_append hl fun c hc => Or.inl (hr c hc)

/-- A valid token starts as tokens do. -/
theorem exists_cons (h : Valid s) : ∃ c cs, s.toList = c :: cs ∧ isStart c = true := by
  have hl := h.length?_eq
  cases hs : s.toList with
  | nil => rw [hs] at hl; cases hl
  | cons c cs =>
    refine ⟨c, cs, rfl, isStart_iff.mpr ?_⟩
    have hc : c ≠ ';' := fun e => h.noComment (by rw [hs, e]; rfl)
    -- Any other character that is no start is a delimiter, which no symbol starts with.
    have hd : Rule.ofChar c = .symbol → isDelimiter c = false := by
      intro hr
      rw [hs, length?, hr] at hl
      cases hd : isDelimiter c with
      | false => rfl
      | true => simp [symbolLength?, hd] at hl
    refine ⟨?_, ?_, ?_, ?_, ?_, hc⟩ <;> rintro rfl <;> exact absurd (hd (by decide)) (by decide)

end Valid

/-- **What a scan takes for a token is valid by itself.**  It is found where it stands, and so it is
found where it stands alone; and it starts as tokens do. -/
theorem valid_take {c : Char} {cs : List Char} {n : Nat} (hc : isStart c = true)
    (h : length? (c :: cs) = some n) (hr : '\r' ∉ c :: cs) :
    Valid (String.ofList ((c :: cs).take n)) := by
  have hlen : ((c :: cs).take n).length = n := List.length_take_of_le (length?_le h)
  refine ⟨?_, ?_, ?_⟩
  · rw [end?, String.toList_ofList, List.drop_zero, length?_take h (Nat.le_refl n), hlen,
      Option.map_some, Nat.zero_add]
  · obtain ⟨-, -, -, -, -, hne⟩ := isStart_iff.mp hc
    obtain ⟨k, rfl⟩ := Nat.exists_eq_succ_of_ne_zero (Nat.ne_of_gt (length?_pos h))
    simpa using hne
  · rw [String.toList_ofList]
    exact fun hm => hr (List.mem_of_mem_take hm)

end IndentLisp.Token
