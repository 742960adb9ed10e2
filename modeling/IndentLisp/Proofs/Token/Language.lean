/-
# The language of a token

Which texts are tokens can be said without saying how one is found: each rule has its language
(`Token.Rule.Accepts`), and no rule looks at what comes after the token.  **A token is the longest
text of its rule's language that starts where the token starts**, and it is found exactly where
there is one.

The languages are those of the specification's token classification (section 4).  A string is what
can stand between two double quotes, where a backslash goes together with the character after it.  A
character token is one character between single quotes, or a backslash and one.  A symbol is a run
of characters that are no delimiters.  No line feed can be escaped, and none can be quoted as a
character, although a string may hold one.

That what is found is in the language, and that something is found where a text of the language
starts, are two inductions.  Maximality is where the rules differ.  There is only one string that
starts at a place, so there is nothing to compare; of character tokens there can be two, and the
longer is found; and a symbol goes on as far as it can.

* `accepts_take`: what is found is in the language.
* `exists_length?`: **where a text of the language starts, a token is found that is no shorter.**  A
  string that starts there is the token (`stringLength?_inside`), and so is the longer of two
  character tokens.
* `length?_eq_some_iff`, `length?_eq_none_iff`: what is found at the front of a text, exactly.
* `end?_longest`: the same for any place of a text, which is the form in which a caller asks.
-/
import IndentLisp.Token

namespace IndentLisp.Token

/-! ## 1. The languages -/

/-- What can stand between the quotes of a string: no quote, unless a backslash stands before it,
and no backslash, unless it stands before a character that is no line feed.  A line feed by itself
may stand there. -/
inductive Inside : List Char → Prop
  | nil : Inside []
  | plain {c : Char} {cs : List Char} : c ≠ '"' → c ≠ '\\' → Inside cs → Inside (c :: cs)
  | escape {c : Char} {cs : List Char} : c ≠ '\n' → Inside cs → Inside ('\\' :: c :: cs)

/-- The texts that are a token by a rule.  A text can be one by two rules, such as a quoted letter,
which is a symbol as well; its first character decides which rule is asked. -/
inductive Rule.Accepts : Rule → List Char → Prop
  | string {body : List Char} : Inside body → Accepts .string ('"' :: (body ++ ['"']))
  | character {c : Char} : c ≠ '\n' → Accepts .character ['\'', c, '\'']
  | escaped {c : Char} : c ≠ '\n' → Accepts .character ['\'', '\\', c, '\'']
  | symbol {cs : List Char} : cs ≠ [] → (∀ c ∈ cs, isDelimiter c = false) → Accepts .symbol cs

/-- **A token does not end with a blank or a line end.** -/
theorem Rule.Accepts.last {r : Rule} {cs : List Char} (h : r.Accepts cs) :
    ∃ init z, cs = init ++ [z] ∧ z ≠ ' ' ∧ z ≠ '\t' ∧ z ≠ '\n' := by
  cases h with
  | @string body _ => exact ⟨'"' :: body, '"', rfl, by decide⟩
  | @character c _ => exact ⟨['\'', c], '\'', rfl, by decide⟩
  | @escaped c _ => exact ⟨['\'', '\\', c], '\'', rfl, by decide⟩
  | symbol hne hall =>
    have hlast := hall _ (List.getLast_mem hne)
    refine ⟨_, _, (List.dropLast_concat_getLast hne).symm, ?_, ?_, ?_⟩ <;> intro e <;>
      rw [e] at hlast <;>
      exact absurd hlast (by decide)

/-- No token is empty. -/
theorem Rule.Accepts.ne_nil {r : Rule} {cs : List Char} (h : r.Accepts cs) : cs ≠ [] := by
  cases h with
  | string | character | escaped => exact List.cons_ne_nil _ _
  | symbol hne => exact hne

theorem Rule.ofChar_eq_string_iff {c : Char} : Rule.ofChar c = .string ↔ c = '"' := by
  unfold Rule.ofChar
  split
  · simp_all
  · split <;> simp_all

theorem Rule.ofChar_eq_character_iff {c : Char} : Rule.ofChar c = .character ↔ c = '\'' := by
  unfold Rule.ofChar
  split
  · rename_i h
    simp [h]
  · split <;> simp_all

/-! ## 2. What is found is in the language -/

/-- A string that is found ends with its quote, and what comes before that can stand between quotes.
The count of what is read already is carried along by the rule, and so by the induction. -/
theorem inside_of_stringLength? {read n : Nat} {cs : List Char}
    (h : stringLength? read cs = some n) :
    ∃ body, Inside body ∧ cs.take (n - read) = body ++ ['"'] := by
  fun_induction stringLength? read cs with
  | case1 => cases h
  | case2 read cs =>
    cases h
    exact ⟨[], .nil, by simp⟩
  | case3 => cases h
  | case4 read c cs hc ih =>
    obtain ⟨body, hb, hi⟩ := ih h
    have hlt := (stringLength?_bounds h).1
    refine ⟨'\\' :: c :: body, .escape hc hb, ?_⟩
    rw [show n - read = n - (read + 2) + 1 + 1 by omega, List.take_succ_cons,
      List.take_succ_cons, hi]
    rfl
  | case5 read c cs hq hb ih =>
    obtain ⟨body, hbody, hi⟩ := ih h
    have hlt := (stringLength?_bounds h).1
    have hne : c ≠ '\\' := by
      rintro rfl
      -- A backslash at the very end escapes nothing.
      cases cs with
      | nil => cases h
      | cons d ds => exact hb d ds rfl rfl
    refine ⟨c :: body, .plain hq hne hbody, ?_⟩
    rw [show n - read = n - (read + 1) + 1 by omega, List.take_succ_cons, hi]
    rfl

/-- A character token that is found is one of the two kinds. -/
theorem accepts_of_characterLength? {n : Nat} {cs : List Char} (h : characterLength? cs = some n) :
    Rule.character.Accepts (('\'' :: cs).take n) := by
  unfold characterLength? at h
  split at h
  · split at h
    · cases h
    · rename_i hc
      cases h
      exact .escaped hc
  · split at h
    · cases h
    · rename_i hc
      cases h
      exact .character hc
  · cases h

/-- A symbol that is found is the run of characters up to the first delimiter. -/
theorem symbolLength?_eq_some_iff {n : Nat} {cs : List Char} :
    symbolLength? cs = some n ↔ n = (cs.takeWhile (!isDelimiter ·)).length ∧ n ≠ 0 := by
  unfold symbolLength?
  split <;> rename_i hn <;> rw [hn]
  · simp
  · rw [Option.some.injEq]
    omega

theorem accepts_of_symbolLength? {n : Nat} {cs : List Char} (h : symbolLength? cs = some n) :
    Rule.symbol.Accepts (cs.take n) := by
  obtain ⟨rfl, h0⟩ := symbolLength?_eq_some_iff.mp h
  have htake : cs.take (cs.takeWhile (!isDelimiter ·)).length = cs.takeWhile (!isDelimiter ·) :=
    (List.prefix_iff_eq_take.mp (List.takeWhile_prefix _)).symm
  rw [htake]
  refine .symbol (fun hnil => h0 (by rw [hnil]; rfl)) fun c hc => ?_
  simpa using List.all_eq_true.mp List.all_takeWhile c hc

/-- **What is found is in the language** of the rule that its first character chooses.  The rules
are tried one by one. -/
theorem accepts_take {c : Char} {cs : List Char} {n : Nat} (h : length? (c :: cs) = some n) :
    (Rule.ofChar c).Accepts ((c :: cs).take n) := by
  have hpos := length?_pos h
  simp only [length?] at h
  cases hr : Rule.ofChar c with
  | string =>
    rw [hr] at h
    obtain ⟨body, hb, hi⟩ := inside_of_stringLength? h
    obtain rfl := Rule.ofChar_eq_string_iff.mp hr
    rw [show n = n - 1 + 1 by omega, List.take_succ_cons, hi]
    exact .string hb
  | character =>
    rw [hr] at h
    obtain rfl := Rule.ofChar_eq_character_iff.mp hr
    exact accepts_of_characterLength? h
  | symbol =>
    rw [hr] at h
    exact accepts_of_symbolLength? h

/-! ## 3. Where a text of the language starts, a token is found -/

/-- A string ends at the first quote that nothing escapes, so a text that can stand between quotes
is followed to its end. -/
theorem stringLength?_inside {body : List Char} (h : Inside body) (read : Nat) (rest : List Char) :
    stringLength? read (body ++ '"' :: rest) = some (read + body.length + 1) := by
  induction h generalizing read with
  | nil => rfl
  | @plain c cs hq hb _ ih =>
    rw [List.cons_append, stringLength?.eq_4 _ _ _ hq (fun _ _ e => absurd e hb), ih,
      List.length_cons]
    congr 1
    omega
  | @escape c cs hc _ ih =>
    rw [List.cons_append, List.cons_append, stringLength?, if_neg hc, ih, List.length_cons,
      List.length_cons]
    congr 1
    omega

/-- A character token of the longer kind is found wherever it starts. -/
theorem characterLength?_escaped {c : Char} (hc : c ≠ '\n') (rest : List Char) :
    characterLength? ('\\' :: c :: '\'' :: rest) = some 4 := by
  simp [characterLength?, hc]

/-- Where one of the shorter kind starts, it is found, or a longer one.  The longer one is a
backslash in quotes with one more quote behind it. -/
theorem characterLength?_short {c : Char} (hc : c ≠ '\n') (rest : List Char) :
    ∃ n, characterLength? (c :: '\'' :: rest) = some n ∧ 3 ≤ n := by
  by_cases hlong : c = '\\' ∧ rest.head? = some '\''
  · obtain ⟨rfl, hq⟩ := hlong
    obtain ⟨rest, rfl⟩ := List.head?_eq_some_iff.mp hq
    exact ⟨4, characterLength?_escaped (by decide) rest, by decide⟩
  · have hne : ∀ r, c = '\\' → rest ≠ '\'' :: r := by
      rintro r rfl rfl
      exact hlong ⟨rfl, rfl⟩
    exact ⟨3, by rw [characterLength?.eq_2 _ _ hne, if_neg hc], Nat.le_refl 3⟩

/-- A symbol that starts a text is found, or a longer one. -/
theorem symbolLength?_append_le {tok : List Char} (hne : tok ≠ [])
    (h : ∀ c ∈ tok, isDelimiter c = false)
    (rest : List Char) : ∃ n, symbolLength? (tok ++ rest) = some n ∧ tok.length ≤ n := by
  have hall : ∀ c ∈ tok, (!isDelimiter c) = true := fun c hc => by rw [h c hc]; rfl
  have hlen : ((tok ++ rest).takeWhile (!isDelimiter ·)).length =
      tok.length + (rest.takeWhile (!isDelimiter ·)).length := by
    rw [List.takeWhile_append_of_pos hall, List.length_append]
  have hpos := List.length_pos_iff.mpr hne
  refine ⟨_, symbolLength?_eq_some_iff.mpr ⟨rfl, ?_⟩, ?_⟩ <;> rw [hlen] <;> omega

/-- A string that starts a text is the token there. -/
theorem length?_string {tok : List Char} (h : Rule.string.Accepts tok) (rest : List Char) :
    length? (tok ++ rest) = some tok.length := by
  cases h with
  | @string body hb =>
    have htext : '"' :: (body ++ ['"']) ++ rest = '"' :: (body ++ '"' :: rest) := by simp
    rw [htext, length?, Rule.ofChar_eq_string_iff.mpr rfl]
    simp only [stringLength?_inside hb, List.length_cons, List.length_append, List.length_nil]
    congr 1
    omega

/-- **Where a text of the language starts, a token is found** that is no shorter.  Of a string and
of an escaped character it is that text; of the others it may be a longer one. -/
theorem exists_length? {c : Char} {body : List Char} (h : (Rule.ofChar c).Accepts (c :: body))
    (rest : List Char) : ∃ n, length? (c :: (body ++ rest)) = some n ∧ (c :: body).length ≤ n := by
  cases hr : Rule.ofChar c with
  | string =>
    rw [hr] at h
    exact ⟨_, length?_string h rest, Nat.le_refl _⟩
  | character =>
    rw [hr] at h
    simp only [length?, hr]
    cases h with
    | character hc => exact characterLength?_short hc rest
    | escaped hc => exact ⟨4, characterLength?_escaped hc rest, Nat.le_refl 4⟩
  | symbol =>
    rw [hr] at h
    simp only [length?, hr]
    cases h with
    | symbol hne hall => exact symbolLength?_append_le hne hall rest

/-! ## 4. The longest text of the language -/

/-- Where a slice at the front of a text is in the language, a token is found there that is no
shorter. -/
theorem exists_length?_of_take {c : Char} {cs : List Char} (hc : cs.head? = some c) {m : Nat}
    (hm : m ≤ cs.length) (h : (Rule.ofChar c).Accepts (cs.take m)) :
    ∃ n, length? cs = some n ∧ m ≤ n := by
  obtain ⟨cs, rfl⟩ := List.head?_eq_some_iff.mp hc
  cases m with
  | zero => exact absurd rfl h.ne_nil
  | succ m =>
    rw [List.take_succ_cons] at h
    obtain ⟨n, hn, hle⟩ := exists_length? h (cs.drop m)
    rw [List.take_append_drop] at hn
    rw [← List.take_succ_cons, List.length_take_of_le hm] at hle
    exact ⟨n, hn, hle⟩

/-- What is found starts with a character, and is in the language of the rule that this one
chooses. -/
theorem exists_head_of_length? {cs : List Char} {n : Nat} (h : length? cs = some n) :
    ∃ c, cs.head? = some c ∧ (Rule.ofChar c).Accepts (cs.take n) := by
  cases cs with
  | nil => cases h
  | cons c cs => exact ⟨c, rfl, accepts_take h⟩

/-- **The token at the front of a text is the longest slice there that is in the language.**  No
slice beyond the text counts, as it would be the whole text under another name. -/
theorem length?_eq_some_iff {cs : List Char} {n : Nat} :
    length? cs = some n ↔
      ∃ c, cs.head? = some c ∧ n ≤ cs.length ∧ (Rule.ofChar c).Accepts (cs.take n) ∧
        ∀ m, n < m → m ≤ cs.length → ¬ (Rule.ofChar c).Accepts (cs.take m) := by
  constructor
  · intro h
    obtain ⟨c, hc, hacc⟩ := exists_head_of_length? h
    refine ⟨c, hc, length?_le h, hacc, fun m hlt hm hacc' => ?_⟩
    obtain ⟨n', hn', hle⟩ := exists_length?_of_take hc hm hacc'
    obtain rfl : n = n' := Option.some.inj (h.symm.trans hn')
    omega
  · rintro ⟨c, hc, hle, hacc, hmax⟩
    obtain ⟨n', hn', hle'⟩ := exists_length?_of_take hc hle hacc
    obtain ⟨c', hc', hacc'⟩ := exists_head_of_length? hn'
    obtain rfl : c = c' := Option.some.inj (hc.symm.trans hc')
    rcases Nat.eq_or_lt_of_le hle' with rfl | hlt
    · exact hn'
    · exact absurd hacc' (hmax n' hlt (length?_le hn'))

/-- **There is no token just where no slice is in the language.** -/
theorem length?_eq_none_iff {cs : List Char} :
    length? cs = none ↔
      ∀ c, cs.head? = some c → ∀ n ≤ cs.length, ¬ (Rule.ofChar c).Accepts (cs.take n) := by
  constructor
  · intro hnone c hc n hn hacc
    obtain ⟨n', hn', -⟩ := exists_length?_of_take hc hn hacc
    rw [hnone] at hn'
    cases hn'
  · intro hno
    cases hl : length? cs with
    | none => rfl
    | some n =>
      obtain ⟨c, hc, hacc⟩ := exists_head_of_length? hl
      exact absurd hacc (hno c hc n (length?_le hl))

/-- Two strings that start at one place are one. -/
theorem eq_of_accepts_string {cs : List Char} {n m : Nat} (hn : n ≤ cs.length) (hm : m ≤ cs.length)
    (h : Rule.string.Accepts (cs.take n)) (h' : Rule.string.Accepts (cs.take m)) : n = m := by
  have hl := length?_string h (cs.drop n)
  have hl' := length?_string h' (cs.drop m)
  rw [List.take_append_drop, List.length_take_of_le hn] at hl
  rw [List.take_append_drop, List.length_take_of_le hm] at hl'
  exact Option.some.inj (hl.symm.trans hl')

/-- **Where a token ends.**  The place is the end of the longest slice of the text that starts where
the token does and is in the language of the rule that the first character chooses.  There is none
just if no slice that starts there is in that language.  Of strings no more than one starts at a
place.  What stands before the place makes no difference. -/
theorem end?_longest (text : List Char) (start : Nat) :
    (∀ e, end? text start = some e ↔
      ∃ c, text[start]? = some c ∧ e ≤ text.length ∧
      (Rule.ofChar c).Accepts (text.extract start e) ∧
        ∀ e', e < e' → e' ≤ text.length → ¬ (Rule.ofChar c).Accepts (text.extract start e')) ∧
    (end? text start = none ↔
      ∀ c, text[start]? = some c →
        ∀ e ≤ text.length, ¬ (Rule.ofChar c).Accepts (text.extract start e)) ∧
    (∀ e e', e ≤ text.length → e' ≤ text.length → Rule.string.Accepts (text.extract start e) →
      Rule.string.Accepts (text.extract start e') → e = e') ∧
    ∀ (text' : List Char) (start' : Nat), text'.drop start' = text.drop start →
      ∀ k, end? text' start' = some (start' + k) ↔ end? text start = some (start + k) := by
  -- A place is told by its distance from the start, as no slice before that is a token.
  have hlen : (text.drop start).length = text.length - start := List.length_drop
  have hafter : ∀ {e : Nat} {r : Rule}, r.Accepts (text.extract start e) → start < e := by
    intro e r h
    refine Nat.lt_of_not_le fun hle => h.ne_nil ?_
    rw [List.extract, Nat.sub_eq_zero_of_le hle, List.take_zero]
  have hslice : ∀ n, text.extract start (start + n) = (text.drop start).take n := by
    intro n
    rw [List.extract, Nat.add_sub_cancel_left]
  rw [← List.head?_drop]
  refine ⟨?_, ?_, ?_, ?_⟩
  · intro e
    rw [end?, Option.map_eq_some_iff]
    constructor
    · rintro ⟨n, hn, rfl⟩
      obtain ⟨c, hc, hle, hacc, hmax⟩ := length?_eq_some_iff.mp hn
      have hlt := hafter ((hslice n).symm ▸ hacc)
      refine ⟨c, hc, by omega, (hslice n).symm ▸ hacc, fun e' he hle' => ?_⟩
      exact hmax (e' - start) (by omega) (by omega)
    · rintro ⟨c, hc, hle, hacc, hmax⟩
      have hlt := hafter hacc
      refine ⟨e - start, length?_eq_some_iff.mpr
        ⟨c, hc, by omega, hacc, fun m hm hle' => ?_⟩, by omega⟩
      rw [← hslice]
      exact hmax (start + m) (by omega) (by omega)
  · rw [end?, Option.map_eq_none_iff, length?_eq_none_iff]
    refine forall₂_congr fun c hc => ⟨fun h e he => h (e - start) (by omega), fun h n hn hacc => ?_⟩
    rw [← hslice] at hacc
    have hlt := hafter hacc
    exact h (start + n) (by omega) hacc
  · intro e e' he he' h h'
    have hlt := hafter h
    have hlt' := hafter h'
    have heq := eq_of_accepts_string (by omega) (by omega) h h'
    omega
  · intro text' start' hd k
    simp only [end?, hd, Option.map_eq_some_iff, Nat.add_left_cancel_iff]

end IndentLisp.Token
