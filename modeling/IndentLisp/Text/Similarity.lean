/-
# Similar texts

How much two texts have in common, for hints at what a misspelt word may have meant: the command
line (section 11) answers an option that it does not know with those that it might have been.

The longest run that both texts hold is taken out first, and then the same is done before it and
behind it (`common`).  This is not the longest common subsequence: a run that is taken out early can
keep two shorter ones apart.  Which run is taken where several are longest matters as well, so it is
said exactly: the one that starts first in the first text, and of these the one that starts first in
the second.

**Two texts are similar if at least three fifths of their characters are common** (`similar`).  A
character counts in both texts, so twice the number of common ones is compared with the sum of the
lengths.  The numbers are multiplied out, and nothing is rounded.

`longest_bound` says that a run lies within the first text.  It is there for the recursion of
`common`, which goes on with what comes before the run and with what comes after it: both are
shorter than the whole, because the run is not empty.
-/
import IndentLisp.Text.Order

namespace IndentLisp.Similarity

/-! ## 1. Runs -/

/-- The number of characters that two texts start with alike. -/
def alike : List Char → List Char → Nat
  | a :: as, b :: bs => if a = b then alike as bs + 1 else 0
  | _, _ => 0

/-- Where in the second text the longest run starts that the first one starts with, and its length.
Of several such runs the first counts: a later one has to be longer to take its place. -/
def longestStart (as : List Char) : List Char → Nat × Nat
  | [] => (0, 0)
  | b :: bs =>
    let here := alike as (b :: bs)
    let (start, length) := longestStart as bs
    if here < length then (start + 1, length) else (0, here)

/-- A run that two texts hold: where it starts in each of them, and its length. -/
structure Run where
  first : Nat
  second : Nat
  length : Nat
deriving DecidableEq, Repr

/-- A longest run that two texts hold.  Of several the one counts that starts first in the first
text, and of several such the one that starts first in the second. -/
def longest : List Char → List Char → Run
  | [], _ => ⟨0, 0, 0⟩
  | a :: as, bs =>
    let (start, length) := longestStart (a :: as) bs
    let later := longest as bs
    if length < later.length then { later with first := later.first + 1 } else ⟨0, start, length⟩

theorem alike_le (as bs : List Char) : alike as bs ≤ as.length := by
  fun_induction alike as bs with
  | case1 as bs b ih => simpa using ih
  | case2 => exact Nat.zero_le _
  | case3 => exact Nat.zero_le _

theorem longestStart_le (as bs : List Char) : (longestStart as bs).2 ≤ as.length := by
  induction bs with
  | nil => exact Nat.zero_le _
  | cons b bs ih =>
    simp only [longestStart]
    split
    · exact ih
    · exact alike_le as (b :: bs)

/-- **A run lies within the first text.** -/
theorem longest_bound (as bs : List Char) :
    (longest as bs).first + (longest as bs).length ≤ as.length := by
  induction as with
  | nil => exact Nat.le_refl _
  | cons a as ih =>
    simp only [longest]
    split
    · simp only [List.length_cons]
      omega
    · simpa using longestStart_le (a :: as) bs

/-! ## 2. Similarity -/

/-- The number of characters that two texts have in common: those of the longest run, and those that
are common before it in both and after it in both. -/
def common (as bs : List Char) : Nat :=
  match hr : longest as bs with
  | ⟨first, second, length⟩ =>
    if h : length = 0 then 0
    else
      have bound : first + length ≤ as.length := by simpa [hr] using longest_bound as bs
      common (as.take first) (bs.take second) + length +
        common (as.drop (first + length)) (bs.drop (second + length))
termination_by as.length
decreasing_by
  · rw [List.length_take]
    omega
  · rw [List.length_drop]
    omega

/-- Whether a word is similar to what may have been meant: three fifths of the characters of both
are common. -/
def similar (word meant : String) : Bool :=
  3 * (word.length + meant.length) ≤ 10 * common meant.toList word.toList

/-- The words among some that a word is similar to, in order. -/
def among (words : List String) (word : String) : List String :=
  (words.filter (similar word)).mergeSort textLe

end IndentLisp.Similarity
