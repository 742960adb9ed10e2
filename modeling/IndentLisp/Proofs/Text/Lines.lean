/-
# Lines and places

A line of a text can be found in two ways: by its number among the pieces between line feeds
(`Lines.split`), and from a place within it, by looking back and ahead for a line feed.  **Both find
the same line** (`Lines.getElem?_split`), if the number is that of the line feeds behind the place.

A renderer finds the line of a report in the first way, and a reader quotes it in the second; so
this is what makes the excerpt of a report the line that the reader was on.

Likewise there are two ways to come by a place.  A cursor counts up its line and its column
character by character, and the place after a text can be read off the text: as many lines as there
are line feeds, and as many columns as there are characters on its last line (`Place.after`).
**Counting up leads there** (`Place.foldl_next`).  All that is said of positions elsewhere is said
of the text behind a cursor, by `Cursor.placed_iff`, and no counting is left.

* `Lines.last`: the part of a text after its last line feed.
* `Lines.eq_last`: a text is its last line, alone or after a line end.
* `Lines.split_intercalate`: the lines of texts that are joined by line feeds.

Section 2 is what an output needs: a text made of lines has the lines of its parts.
-/
import IndentLisp.Reader.Cursor

namespace IndentLisp

/-! ## 1. The line around a place -/

namespace Lines

/-- The part of a text after its last line feed; all of it where there is none. -/
def last (cs : List Char) : List Char :=
  (cs.reverse.takeWhile (· ≠ '\n')).reverse

theorem last_append_singleton (cs : List Char) (c : Char) :
    last (cs ++ [c]) = if c = '\n' then [] else last cs ++ [c] := by
  by_cases h : c = '\n' <;> simp [last, h]

/-- The first line of a text has no line end. -/
theorem notMem_first (cs : List Char) : '\n' ∉ first cs := by
  intro h
  have := List.all_eq_true.mp List.all_takeWhile _ h
  simp at this

/-- What comes before a line end is not on the last line. -/
theorem last_append_cons (cs ds : List Char) : last (cs ++ '\n' :: ds) = last ds := by
  have hstop : ('\n' :: cs.reverse).takeWhile (· ≠ '\n') = [] := by simp
  rw [last, last, List.reverse_append, List.reverse_cons, List.append_assoc, List.singleton_append,
    List.takeWhile_append, hstop]
  split
  · rename_i hlen
    rw [List.append_nil, (List.takeWhile_sublist _).eq_of_length hlen]
  · rfl

theorem notMem_last (cs : List Char) : '\n' ∉ last cs := by
  intro h
  have := List.all_eq_true.mp List.all_takeWhile _ (List.mem_reverse.mp h)
  simp at this

/-- A text is its last line, alone or after a line end.  This is how a proof gets hold of the last
line: either there is no line end at all, or the text ends in one and the line after it. -/
theorem eq_last (cs : List Char) :
    (cs = last cs ∧ '\n' ∉ cs) ∨ ∃ before, cs = before ++ '\n' :: last cs := by
  have h : (cs.reverse.dropWhile (· ≠ '\n')).reverse ++ last cs = cs := by
    rw [last, ← List.reverse_append, List.takeWhile_append_dropWhile, List.reverse_reverse]
  cases hd : cs.reverse.dropWhile (· ≠ '\n') with
  | nil =>
    rw [hd, List.reverse_nil, List.nil_append] at h
    exact Or.inl ⟨h.symm, h ▸ notMem_last cs⟩
  | cons d ds =>
    have hn := List.head?_dropWhile_not (· ≠ '\n') cs.reverse
    rw [hd] at hn
    have hn : d = '\n' := by simpa using hn
    rw [hd, hn, List.reverse_cons, List.append_assoc, List.singleton_append] at h
    exact Or.inr ⟨ds.reverse, h.symm⟩

/-- A text without line ends is one line. -/
theorem last_of_notMem {cs : List Char} (h : '\n' ∉ cs) : last cs = cs := by
  rcases eq_last cs with ⟨hc, -⟩ | ⟨before, hc⟩
  · exact hc.symm
  · refine absurd ?_ h
    rw [hc]
    simp

/-- A text has one line more than it has line ends. -/
theorem length_split (cs : List Char) : (split cs).length = cs.count '\n' + 1 := by
  induction cs with
  | nil => rfl
  | cons c cs ih =>
    rw [split, List.splitOn_cons_eq_if_modifyHead]
    by_cases h : c = '\n'
    · simpa [h, split] using ih
    · simpa [h, split] using ih

/-- The first line of a text. -/
theorem getElem?_split_zero (cs : List Char) : (split cs)[0]? = some (first cs) := by
  cases cs with
  | nil => rfl
  | cons c cs =>
    induction cs generalizing c with
    | nil => by_cases h : c = '\n' <;> simp [split, first, List.splitOn_cons_eq_if_modifyHead, h]
    | cons d ds ih =>
      rw [split, List.splitOn_cons_eq_if_modifyHead]
      by_cases h : c = '\n'
      · simp [h, first]
      · have := ih d
        rw [split] at this
        simp [h, first, this]

/-- **The line around a place** has the number of the line ends before it: the last line of what
lies behind, and the first of what lies ahead.  Nothing is asked of the place, which may be at a
line end or at the end of the text. -/
theorem getElem?_split (behind ahead : List Char) :
    (split (behind ++ ahead))[behind.count '\n']? = some (last behind ++ first ahead) := by
  have hfirst : ∀ line : List Char, '\n' ∉ line → first (line ++ ahead) = line ++ first ahead := by
    intro line hl
    refine List.takeWhile_append_of_pos fun c hc => ?_
    have hne : c ≠ '\n' := fun e => hl (e ▸ hc)
    simp [hne]
  rcases eq_last behind with ⟨h, hn⟩ | ⟨before, h⟩
  · rw [List.count_eq_zero_of_not_mem hn, getElem?_split_zero, hfirst behind hn, ← h]
  · have hn := notMem_last behind
    generalize last behind = line at h hn ⊢
    have hcount : behind.count '\n' = (split before).length := by
      rw [length_split, h]
      simp [List.count_eq_zero_of_not_mem hn]
    have hsplit : split (behind ++ ahead) = split before ++ split (line ++ ahead) := by
      rw [h, List.append_assoc, List.cons_append]
      exact List.splitOn_append_cons_of_beq before _ (by simp)
    rw [hcount, hsplit, List.getElem?_append_right (Nat.le_refl _), Nat.sub_self,
      getElem?_split_zero, hfirst line hn]

/-! ## 2. Pieces -/

/-- The pieces between copies of a character do not hold it. -/
theorem notMem_of_mem_splitOn {x : Char} {cs ds : List Char} (h : cs ∈ ds.splitOn x) : x ∉ cs := by
  induction ds generalizing cs with
  | nil =>
    obtain rfl : cs = [] := by simpa using h
    exact List.not_mem_nil
  | cons d ds ih =>
    rw [List.splitOn_cons_eq_if_modifyHead] at h
    split at h
    case isTrue =>
      rcases List.mem_cons.mp h with rfl | h
      · exact List.not_mem_nil
      · exact ih h
    case isFalse hd =>
      have hne : x ≠ d := fun he => hd (by simp [he])
      cases hs : ds.splitOn x with
      | nil => simp [hs] at h
      | cons first others =>
        rw [hs, List.modifyHead_cons] at h
        rcases List.mem_cons.mp h with rfl | h
        · have hfirst : x ∉ first := ih (by rw [hs]; exact List.mem_cons_self)
          simp [hne, hfirst]
        · exact ih (by rw [hs]; exact List.mem_cons_of_mem first h)

/-- A separator in front of joined pieces stands in front of each. -/
theorem cons_intercalate (x : Char) {pieces : List (List Char)} (h : pieces ≠ []) :
    x :: [x].intercalate pieces = pieces.flatMap (x :: ·) := by
  induction pieces with
  | nil => exact absurd rfl h
  | cons cs pieces ih =>
    cases pieces with
    | nil => simp
    | cons ds pieces =>
      rw [List.intercalate_cons_cons, List.append_assoc, List.singleton_append,
        ih (List.cons_ne_nil ds pieces), ← List.cons_append, ← List.flatMap_cons]

/-- **Texts joined by line feeds have the lines of the texts**, one after another.  A text that has
lines of its own contributes all of them, so this is the way to find a line of an output that was
put together from parts. -/
theorem split_intercalate {texts : List (List Char)} (h : texts ≠ []) :
    split (['\n'].intercalate texts) = texts.flatMap split := by
  induction texts with
  | nil => exact absurd rfl h
  | cons cs texts ih =>
    cases texts with
    | nil => simp [List.intercalate]
    | cons ds texts =>
      rw [List.intercalate_cons_cons, List.append_assoc, List.singleton_append, split,
        List.splitOn_append_cons_of_beq _ _ (by simp), List.flatMap_cons]
      congr 1
      exact ih (List.cons_ne_nil ds texts)

end Lines

/-! ## 3. Places -/

namespace Place

/-- The place after a text, read off the text: its length, one more than its line ends, and one more
than the characters of its last line. -/
def after (cs : List Char) : Place :=
  ⟨cs.length, 1 + cs.count '\n', 1 + (Lines.last cs).length⟩

/-- **Counting up leads to the place after the text.**  The induction adds a character at the end of
the text, where both sides change by the same rule: a line end starts a line, and any other
character takes a column. -/
theorem foldl_next (cs : List Char) : cs.foldl next start = after cs := by
  suffices h : ∀ ds : List Char, ds.reverse.foldl next start = after ds.reverse by
    simpa using h cs.reverse
  intro ds
  induction ds with
  | nil => rfl
  | cons d ds ih =>
    rw [List.reverse_cons, List.foldl_append, ih]
    simp only [List.foldl_cons, List.foldl_nil, after, next, Lines.last_append_singleton]
    by_cases h : d = '\n' <;> simp [h] <;> omega

end Place

namespace Cursor

theorem placed_iff {c : Cursor} : c.Placed ↔ c.place = Place.after c.behind.reverse := by
  rw [Placed, Place.foldl_next]

theorem placed_ofText (cs : List Char) : (Cursor.ofText cs).Placed := rfl

end Cursor

end IndentLisp
