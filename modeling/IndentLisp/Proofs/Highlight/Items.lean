/-
# Items that are whole symbols

Highlighting has rules of its own for numbers, keywords and constants, and each of them looks at the
character after the item.  In a text that is blank nowhere but at spaces, tabs and line feeds **an
item that such a rule finds is the whole symbol at the front**, so none of them ever cuts a longer
symbol.

The condition on blanks is needed.  A form feed, say, ends an item for highlighting, and is part of
a symbol for a reader; in `1` with a form feed and a letter after it highlighting finds a number,
and a reader finds one symbol of three characters.  Where every blank is one of the three that both
know, an item ends at the end of the text or before a delimiter, which is where a symbol ends.

All rules come down to one fact about what they find, `HasItem`: some characters that are no
delimiters, and behind them a place where an item can end.  Each rule is shown to find no other
thing, and what follows from it is proved once.

* `PlainlySpaced`: a text in which highlighting and reading agree on what is blank.
* `HasItem`: an item at the front of a text, as the rules find it; `HasItem.run_eq`: how long it is.
* `length_frontItem`: what that comes to for the piece at the front.
-/
import IndentLisp.Highlight.Piece
import IndentLisp.Proofs.Reader.Turn

namespace IndentLisp.Highlight

/-- A text that is blank nowhere but at spaces, tabs and line feeds.  A carriage return is a blank
of another kind, so the line ends of such a text are unified already. -/
def PlainlySpaced (cs : List Char) : Prop :=
  ∀ c ∈ cs, isBlank c = true → c = ' ' ∨ c = '\t' ∨ c = '\n'

instance (cs : List Char) : Decidable (PlainlySpaced cs) :=
  List.decidableBAll _ cs

theorem PlainlySpaced.suffix {cs ds : List Char} (h : PlainlySpaced (cs ++ ds)) :
    PlainlySpaced ds :=
  fun c hc => h c (List.mem_append_right cs hc)

theorem PlainlySpaced.drop {cs : List Char} (h : PlainlySpaced cs) (n : Nat) :
    PlainlySpaced (cs.drop n) :=
  fun c hc => h c (List.mem_of_mem_drop hc)

/-! ## 1. Items -/

/-- A text with an item at its front: characters that are no delimiters, up to where an item can
end.  It says what the rules have in common, and not which kind of item it is. -/
def HasItem (n : Nat) (cs : List Char) : Prop :=
  ∃ item rest, cs = item ++ rest ∧ item.length = n ∧ (∀ c ∈ item, Token.isDelimiter c = false) ∧
    endsItem rest = true

variable {cs : List Char} {n : Nat}

/-- **An item is the whole symbol at the front.**  It can end only at the end of the text or before
a delimiter, since a blank in such a text is a delimiter. -/
theorem HasItem.run_eq (h : HasItem n cs) (hs : PlainlySpaced cs) :
    run (!Token.isDelimiter ·) cs = n := by
  obtain ⟨item, rest, rfl, rfl, hitem, hrest⟩ := h
  rw [run, takeWhile_append]
  · intro c hc
    simp [hitem c hc]
  · intro c hc
    obtain ⟨cs, rfl⟩ := List.head?_eq_some_iff.mp hc
    simp only [endsItem, Bool.or_eq_true, decide_eq_true_eq] at hrest
    rcases hrest with ((hb | rfl) | rfl) | rfl
    · rcases hs.suffix c List.mem_cons_self hb with rfl | rfl | rfl <;> rfl
    · rfl
    · rfl
    · rfl

theorem isDelimiter_of_isDigit {c : Char} (h : c.isDigit = true) : Token.isDelimiter c = false := by
  cases hd : Token.isDelimiter c with
  | false => rfl
  | true =>
    simp only [Token.isDelimiter, Bool.or_eq_true, decide_eq_true_eq] at hd
    rcases hd with ((((rfl | rfl) | rfl) | rfl) | rfl) | rfl <;> cases h

/-- Digits, with a minus sign before them or without, are at the front. -/
theorem exists_digits (h : digitsLength? cs = some n) :
    ∃ digits rest, cs = digits ++ rest ∧ digits.length = n ∧
    ∀ c ∈ digits, Token.isDelimiter c = false := by
  have hrun : ∀ ds : List Char, ∀ c ∈ ds.takeWhile Char.isDigit, Token.isDelimiter c = false :=
    fun ds c hc => isDelimiter_of_isDigit (List.all_eq_true.mp List.all_takeWhile c hc)
  have hlen : (if cs.head? = some '-' then 1 else 0) +
      run Char.isDigit (cs.drop (if cs.head? = some '-' then 1 else 0)) = n := by
    simp only [digitsLength?] at h
    split at h
    · cases h
    · rename_i k hk
      rw [hk]
      exact Option.some.inj h
  by_cases hm : cs.head? = some '-'
  · obtain ⟨ds, rfl⟩ := List.head?_eq_some_iff.mp hm
    rw [if_pos hm, List.drop_one, List.tail_cons, run] at hlen
    refine ⟨'-' :: ds.takeWhile Char.isDigit, ds.dropWhile Char.isDigit, ?_, ?_, ?_⟩
    · rw [List.cons_append, List.takeWhile_append_dropWhile]
    · rw [List.length_cons, Nat.add_comm, hlen]
    · intro c hc
      rcases List.mem_cons.mp hc with rfl | hc
      · decide
      · exact hrun ds c hc
  · rw [if_neg hm, List.drop_zero, Nat.zero_add, run] at hlen
    exact ⟨_, _, List.takeWhile_append_dropWhile.symm, hlen, hrun cs⟩

theorem hasItem_of_integerLength? (h : integerLength? cs = some n) : HasItem n cs := by
  simp only [integerLength?, Option.bind_eq_bind, Option.bind_eq_some_iff] at h
  obtain ⟨k, hk, h⟩ := h
  obtain ⟨digits, rest, rfl, rfl, hd⟩ := exists_digits hk
  rw [List.drop_left] at h
  split at h
  · rename_i he
    cases h
    exact ⟨digits, rest, rfl, rfl, hd, he⟩
  · cases h

theorem hasItem_of_floatLength? (h : floatLength? cs = some n) : HasItem n cs := by
  simp only [floatLength?, Option.bind_eq_bind, Option.bind_eq_some_iff] at h
  obtain ⟨k, hk, h⟩ := h
  obtain ⟨digits, rest, rfl, rfl, hd⟩ := exists_digits hk
  split at h
  · rename_i hf
    obtain ⟨hpoint, -, he⟩ := hf
    cases h
    rw [List.getElem?_append_right (Nat.le_refl _), Nat.sub_self] at hpoint
    cases rest with
    | nil => cases hpoint
    | cons c ds =>
      obtain rfl : c = '.' := Option.some.inj hpoint
      have hdrop : (digits ++ '.' :: ds).drop (digits.length + 1) = ds := by
        rw [← List.drop_drop, List.drop_left, List.drop_one, List.tail_cons]
      have hrest : (digits ++ '.' :: ds).drop (digits.length + 1 + run Char.isDigit ds) =
          ds.dropWhile Char.isDigit := by
        rw [← List.drop_drop, hdrop, run, drop_takeWhile]
      rw [hdrop] at he ⊢
      rw [hrest] at he
      refine ⟨digits ++ '.' :: ds.takeWhile Char.isDigit, _, ?_, ?_, ?_, he⟩
      · rw [List.append_assoc, List.cons_append, List.takeWhile_append_dropWhile]
      · rw [List.length_append, List.length_cons, run, Nat.add_assoc, Nat.add_comm 1]
      · intro c hc
        rcases List.mem_append.mp hc with hc | hc
        · exact hd c hc
        · rcases List.mem_cons.mp hc with rfl | hc
          · decide
          · exact isDelimiter_of_isDigit (List.all_eq_true.mp List.all_takeWhile c hc)
  · cases h

/-- No word holds a delimiter. -/
theorem isDelimiter_of_word {w : String} (hw : w ∈ keywords ++ constants) :
    ∀ c ∈ w.toList, Token.isDelimiter c = false := by
  have hall : (keywords ++ constants).all (fun w => w.toList.all (!Token.isDelimiter ·)) =
      true := by decide
  intro c hc
  simpa using List.all_eq_true.mp (List.all_eq_true.mp hall w hw) c hc

theorem hasItem_of_wordLength? {words : List String} (hw : ∀ w ∈ words, w ∈ keywords ++ constants)
    (h : wordLength? words cs = some n) : HasItem n cs := by
  obtain ⟨w, hfound, rfl⟩ := Option.map_eq_some_iff.mp h
  have hfits := List.find?_some hfound
  rw [Bool.and_eq_true] at hfits
  obtain ⟨rest, rfl⟩ := List.isPrefixOf_iff_prefix.mp hfits.1
  have he := hfits.2
  rw [← String.length_toList, List.drop_left] at he
  have hmem := hw w (List.mem_of_find?_eq_some hfound)
  exact ⟨w.toList, rest, rfl, String.length_toList, isDelimiter_of_word hmem, he⟩

/-- The kinds of the pieces that are a parenthesis or a token by themselves.  A string is none of
them, as it is cut in several pieces. -/
def Kind.isWhole : Kind → Bool
  | .character | .punctuation | .float | .integer | .keyword | .constant | .name => true
  | .text | .comment | .string | .escape | .error => false

/-- **A number, a keyword, a constant or a name is the whole symbol at the front.**  Which of them
it is depends on the rules and on what stands before it; how long it is does not. -/
theorem length_frontItem (before : Option Char) (hs : PlainlySpaced cs) :
    (frontItem before cs).1.isWhole = true ∧
      (frontItem before cs).2 = (cs.takeWhile (!Token.isDelimiter ·)).length := by
  have whole : ∀ {n}, HasItem n cs → n = (cs.takeWhile (!Token.isDelimiter ·)).length :=
    fun h => (h.run_eq hs).symm
  unfold frontItem
  split
  · rename_i n hn
    exact ⟨rfl, whole (hasItem_of_floatLength? hn)⟩
  · split
    · rename_i n hn
      exact ⟨rfl, whole (hasItem_of_integerLength? hn)⟩
    · split
      · rename_i n hn
        split at hn
        · exact ⟨rfl, whole (hasItem_of_wordLength? (fun w => List.mem_append_left _) hn)⟩
        · cases hn
      · split
        · rename_i n hn
          exact ⟨rfl, whole (hasItem_of_wordLength? (fun w => List.mem_append_right _) hn)⟩
        · exact ⟨rfl, rfl⟩

end IndentLisp.Highlight
