/-
# Paths as text, and the order of paths

A path that is spelled by a text is plain: its components hold no slash and say something.  **A
plain path is what its own text spells** (`Path.ofText_shown`), so a file can be named by the text
of its path, as a diagnostic names it and as a renderer looks it up.  No other path can: a component
with a slash in it would come back as two, an empty one and a lone dot not at all, and a third slash
at the front would be lost.

Not every path that a check goes through is spelled by a text.  The sources below a directory are
the directory's path with names at its end, and a fixture directory is the project's path with
another one after it; both are plain if what they are made of is (`Path.Plain.extend`,
`Path.Plain.join`).

Paths are put in order by their components, and these as texts, by `lexLe`.  **Two that differ are
in the order that `<` has on lists** (`Path.le_iff_lt`), and so are two texts (`textLe_iff_lt`).  A
report lists its files in this order, which is not that of the paths as texts: `a/b` comes before
`a-b`, though of the two characters that differ the hyphen has the smaller number.

One lemma serves both levels.  Where an order of the items agrees with `<`, so does the order of the
lists (`lexLe_iff_lt`); texts are lists of characters, and paths are lists of texts.
-/
import IndentLisp.Files.Path
import IndentLisp.Proofs.Text.Lines
import Mathlib.Tactic.IntervalCases

namespace IndentLisp

namespace Path

variable {p q : Path}

/-- A component that is not dropped when a text is taken for a path, and that no slash cuts in two.
Two dots are one, and so is any text with a null character. -/
def IsComponent (c : String) : Prop :=
  c ≠ "" ∧ c ≠ "." ∧ '/' ∉ c.toList

/-- Of what is spelled by texts: at most two slashes, and components.  The number of slashes is two
at the most because more than two at the front of a text count as one. -/
structure Plain (p : Path) : Prop where
  slashes_le : p.slashes ≤ 2
  parts : ∀ c ∈ p.parts, IsComponent c

/-! ## 1. Paths and texts -/

theorem notMem_of_mem_pieces {s c : String} (hc : c ∈ pieces s) : '/' ∉ c.toList := by
  obtain ⟨cs, hcs, rfl⟩ := List.mem_map.mp hc
  rw [String.toList_ofList]
  exact Lines.notMem_of_mem_splitOn hcs

/-- What a text spells is plain. -/
theorem plain_ofText (s : String) : (ofText s).Plain where
  slashes_le := by
    unfold ofText leading
    dsimp only
    split <;> omega
  parts := by
    intro c hc
    obtain ⟨hc, hmeans⟩ := List.mem_filter.mp hc
    have hmeans : c ≠ "" ∧ c ≠ "." := by simpa using hmeans
    exact ⟨hmeans.1, hmeans.2, notMem_of_mem_pieces hc⟩

/-- Slashes at the front make empty pieces. -/
theorem splitOn_slashes (n : Nat) (cs : List Char) :
    (List.replicate n '/' ++ cs).splitOn '/' = List.replicate n [] ++ cs.splitOn '/' := by
  induction n with
  | zero => rfl
  | succ n ih =>
    rw [List.replicate_succ, List.cons_append, List.splitOn_cons_eq_if_modifyHead, ih,
      List.replicate_succ, List.cons_append]
    simp

/-- The text of a path that has components: its slashes, and then the components with a slash
between two of them. -/
theorem toList_shown (hne : p.parts ≠ []) : p.shown.toList =
    List.replicate p.slashes '/' ++ ['/'].intercalate (p.parts.map String.toList) := by
  rw [shown, if_neg fun hs => hne hs.2, String.toList_append, anchor, String.toList_ofList,
    String.toList_intercalate]
  rfl

/-- The pieces of a path as text are its components, after one that is empty for each slash.  The
empty pieces are the ones that spelling the path drops again. -/
theorem pieces_shown (h : p.Plain) (hne : p.parts ≠ []) :
    pieces p.shown = List.replicate p.slashes "" ++ p.parts := by
  have hparts : (['/'].intercalate (p.parts.map String.toList)).splitOn '/' =
      p.parts.map String.toList := by
    refine List.splitOn_intercalate '/' ?_ (by simpa using hne)
    intro cs hcs
    obtain ⟨c, hc, rfl⟩ := List.mem_map.mp hcs
    exact (h.parts c hc).2.2
  rw [pieces, toList_shown hne, splitOn_slashes, hparts, List.map_append, List.map_replicate,
    List.map_map]
  have hback : (String.ofList ∘ String.toList) = id := funext fun _ => String.ofList_toList
  rw [hback, List.map_id]

/-- A path as text starts with its slashes. -/
theorem leading_shown (h : p.Plain) (hne : p.parts ≠ []) : leading p.shown = p.slashes := by
  have hrest : (['/'].intercalate (p.parts.map String.toList)).takeWhile (· = '/') = [] := by
    cases hp : p.parts with
    | nil => exact absurd hp hne
    | cons c cs =>
      obtain ⟨hc, -, hslash⟩ := h.parts c (hp ▸ List.mem_cons_self)
      cases hl : c.toList with
      | nil => exact absurd (String.toList_eq_nil_iff.mp hl) hc
      | cons d ds =>
        have hd : d ≠ '/' := fun he => hslash (by simp [hl, he])
        cases cs <;> simp [hl, hd, List.intercalate]
  have hrun : (p.shown.toList.takeWhile (· = '/')).length = p.slashes := by
    rw [toList_shown hne, List.takeWhile_append_of_pos (by simp), hrest, List.append_nil,
      List.length_replicate]
  rw [leading, hrun]
  have hle := h.slashes_le
  interval_cases p.slashes <;> rfl

/-- **A plain path is what its own text spells.**  A path without components and slashes is shown as
a dot, which spells it as well, so there is no exception. -/
theorem ofText_shown (h : p.Plain) : ofText p.shown = p := by
  by_cases hne : p.parts = []
  · obtain ⟨n, parts⟩ := p
    obtain rfl : parts = [] := hne
    have hle : n ≤ 2 := h.slashes_le
    interval_cases n <;> decide +kernel
  · have hkeep : p.parts.filter (fun c => c ≠ "" ∧ c ≠ ".") = p.parts := by
      refine List.filter_eq_self.mpr ?_
      intro c hc
      simpa using ⟨(h.parts c hc).1, (h.parts c hc).2.1⟩
    rw [ofText, leading_shown h hne, pieces_shown h hne, List.filter_append, hkeep]
    have hnone : (List.replicate p.slashes "").filter (fun c => c ≠ "" ∧ c ≠ ".") = [] := by
      simp
    rw [hnone, List.nil_append]

/-! ## 2. What is made of plain paths -/

theorem Plain.extend (h : p.Plain) {more : List String} (hm : ∀ c ∈ more, IsComponent c) :
    (p.extend more).Plain where
  slashes_le := h.slashes_le
  parts := by
    intro c hc
    rcases List.mem_append.mp hc with hc | hc
    · exact h.parts c hc
    · exact hm c hc

theorem Plain.join (h : p.Plain) (hq : q.Plain) : (p.join q).Plain := by
  unfold Path.join
  split
  · exact h.extend hq.parts
  · exact hq

end Path

/-! ## 3. The order of texts and paths -/

/-- Where an order of the items agrees with `<`, so does the order of the lists.  Only the
comparison of different items matters, as equal ones are passed over by both orders. -/
theorem lexLe_iff_lt {α : Type} [DecidableEq α] [LT α] {le : α → α → Bool}
    (irrefl : ∀ a : α, ¬ a < a)
    (h : ∀ a b, a ≠ b → (le a b = true ↔ a < b)) {as bs : List α} (hne : as ≠ bs) :
    lexLe le as bs = true ↔ as < bs := by
  induction as generalizing bs with
  | nil =>
    cases bs with
    | nil => exact absurd rfl hne
    | cons b bs => simp [lexLe]
  | cons a as ih =>
    cases bs with
    | nil => simp [lexLe]
    | cons b bs =>
      rw [lexLe, List.cons_lt_cons_iff]
      by_cases hab : a = b
      · subst hab
        have htails : as ≠ bs := fun he => hne (by rw [he])
        simp [irrefl a, ih htails]
      · simp [hab, h a b hab]

theorem charLe_iff_lt (a b : Char) (hne : a ≠ b) : charLe a b = true ↔ a < b := by
  have hnat : a.toNat ≠ b.toNat := fun h => hne (Char.ext (UInt32.toNat_inj.mp h))
  rw [charLe, decide_eq_true_eq, Char.lt_def, UInt32.lt_iff_toNat_lt]
  exact Nat.le_iff_lt_or_eq.trans (or_iff_left hnat)

/-- Of two different texts, the one with the smaller character at the first difference comes first.
Characters are compared by their numbers and not by what they look like. -/
theorem textLe_iff_lt (s t : String) (hne : s ≠ t) : textLe s t = true ↔ s < t :=
  lexLe_iff_lt Char.lt_irrefl charLe_iff_lt fun h => hne (String.toList_inj.mp h)

namespace Path

theorem le_total (p q : Path) : p.le q = true ∨ q.le p = true :=
  lexLe_total textLe_total _ _

theorem le_trans (p q r : Path) (h : p.le q = true) (h' : q.le r = true) : p.le r = true :=
  lexLe_trans textLe_trans textLe_antisymm h h'

/-- **Of two different paths with the same slashes, the one with the smaller component at the first
difference comes first**, and a path comes before those that lead further down. -/
theorem le_iff_lt {p q : Path} (hs : p.slashes = q.slashes) (hne : p ≠ q) :
    p.le q = true ↔ p.parts < q.parts := by
  obtain ⟨n, ps⟩ := p
  obtain ⟨m, qs⟩ := q
  obtain rfl : n = m := hs
  have hparts : ps ≠ qs := fun h => hne (by rw [h])
  have hlt := lexLe_iff_lt String.lt_irrefl textLe_iff_lt hparts
  by_cases hn : n = 0
  · simpa [le, key, hn] using hlt
  · simpa [le, key, hn, lexLe, anchor] using hlt

end Path

end IndentLisp
