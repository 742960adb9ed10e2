/-
# The order of texts

Texts are ordered by the numbers of their characters: **the first difference decides, and a text
comes before what continues it**.  The same rule, one level up, orders lists of texts, and so the
paths of a batch, which are reported in order (section 8, `check_directory`: sorted).

The order is stated once, for lists over any order of their items (`lexLe`), and used twice: for
texts as lists of characters, and for paths as lists of names.  Ordering paths by their components
is not ordering them by their spellings, since the slash between two components is a character like
any other; it is the first that a batch does.

What is needed of an order is that sorting by it gives one list only.  So three facts are proved of
the rule, each from the same fact about the items: of two lists one comes first (`lexLe_total`),
what comes before something comes before all that this comes before (`lexLe_trans`), and two lists
that come before each other are one (`lexLe_antisymm`).  The second of them needs the third of the
items: the rule looks at whether two items are equal before it looks at their order.
-/

namespace IndentLisp

section Lists

variable {α : Type} [DecidableEq α] {le : α → α → Bool}

/-- The order of lists that an order of their items makes.  Items that are equal are passed over,
and the first two that are not decide. -/
def lexLe (le : α → α → Bool) : List α → List α → Bool
  | [], _ => true
  | _ :: _, [] => false
  | a :: as, b :: bs => if a = b then lexLe le as bs else le a b

/-- Of two lists one comes first. -/
theorem lexLe_total (total : ∀ a b, le a b = true ∨ le b a = true) (as bs : List α) :
    lexLe le as bs = true ∨ lexLe le bs as = true := by
  induction as generalizing bs with
  | nil => exact .inl rfl
  | cons a as ih =>
    cases bs with
    | nil => exact .inr rfl
    | cons b bs =>
      by_cases hab : a = b
      · subst hab
        simpa [lexLe] using ih bs
      · have hba : ¬ b = a := fun h => hab h.symm
        simpa [lexLe, hab, hba] using total a b

/-- Two lists that both come first are one. -/
theorem lexLe_antisymm (antisymm : ∀ a b, le a b = true → le b a = true → a = b)
    {as bs : List α} (h : lexLe le as bs = true) (h' : lexLe le bs as = true) : as = bs := by
  induction as generalizing bs with
  | nil =>
    cases bs with
    | nil => rfl
    | cons b bs => simp [lexLe] at h'
  | cons a as ih =>
    cases bs with
    | nil => simp [lexLe] at h
    | cons b bs =>
      by_cases hab : a = b
      · subst hab
        simp only [lexLe, if_true] at h h'
        rw [ih h h']
      · have hba : ¬ b = a := fun e => hab e.symm
        simp only [lexLe, if_neg hab, if_neg hba] at h h'
        exact absurd (antisymm a b h h') hab

/-- What comes before a list comes before all that this list comes before.  The three lists are
followed together; where two of them differ first, the items there decide for the third as well. -/
theorem lexLe_trans (trans : ∀ a b c, le a b = true → le b c = true → le a c = true)
    (antisymm : ∀ a b, le a b = true → le b a = true → a = b) {as bs cs : List α}
    (h : lexLe le as bs = true) (h' : lexLe le bs cs = true) : lexLe le as cs = true := by
  induction as generalizing bs cs with
  | nil => rfl
  | cons a as ih =>
    cases bs with
    | nil => simp [lexLe] at h
    | cons b bs =>
      cases cs with
      | nil => simp [lexLe] at h'
      | cons c cs =>
        simp only [lexLe] at h h' ⊢
        by_cases hab : a = b
        · subst hab
          by_cases hac : a = c
          · subst hac
            simp only [if_true] at h h' ⊢
            exact ih h h'
          · simpa [hac] using h'
        · rw [if_neg hab] at h
          by_cases hbc : b = c
          · subst hbc
            rwa [if_neg hab]
          · rw [if_neg hbc] at h'
            by_cases hac : a = c
            · subst hac
              exact absurd (antisymm a b h h') hab
            · rw [if_neg hac]
              exact trans a b c h h'

end Lists

/-- The order of characters by number, which is that of their code points. -/
def charLe (a b : Char) : Bool :=
  decide (a.toNat ≤ b.toNat)

/-- The order of texts: that of their characters, one after another. -/
def textLe (s t : String) : Bool :=
  lexLe charLe s.toList t.toList

theorem charLe_total (a b : Char) : charLe a b = true ∨ charLe b a = true := by
  simpa [charLe] using Nat.le_total a.toNat b.toNat

theorem charLe_trans (a b c : Char) (h : charLe a b = true) (h' : charLe b c = true) :
    charLe a c = true := by
  simp only [charLe, decide_eq_true_eq] at *
  exact Nat.le_trans h h'

theorem charLe_antisymm (a b : Char) (h : charLe a b = true) (h' : charLe b a = true) : a = b := by
  simp only [charLe, decide_eq_true_eq] at *
  exact Char.ext (UInt32.toNat_inj.mp (Nat.le_antisymm h h'))

/-- Of two texts one comes first. -/
theorem textLe_total (s t : String) : textLe s t = true ∨ textLe t s = true :=
  lexLe_total charLe_total _ _

/-- What comes before a text comes before all that this text comes before. -/
theorem textLe_trans (s t u : String) (h : textLe s t = true) (h' : textLe t u = true) :
    textLe s u = true :=
  lexLe_trans charLe_trans charLe_antisymm h h'

/-- Two texts that both come first are one. -/
theorem textLe_antisymm (s t : String) (h : textLe s t = true) (h' : textLe t s = true) : s = t :=
  String.toList_inj.mp (lexLe_antisymm charLe_antisymm h h')

end IndentLisp
