/-
# Places in a block

A reader goes through a block from place to place, a turn at a time.  What matters for its tree is
which lists are open at a place, and that can be told without the tree: **a list stays open as long
as every turn spares it**, and the depth of the lines and the count of open parentheses tell which
turns do (`Spot.Spares`).

A turn in an indented block ends lists in two ways only.  A closing parenthesis ends the innermost
one; a line that is not deeper than the one before ends one for each level up, and one more, and
starts a list of its own.  So after a turn the lists are spared that are below its level, and of a
line start those below the list of the line.  Nothing else about the turn matters, not which list
was opened by a parenthesis and which by a line.

The induction is on the turns, with a list and the lists around it fixed (`Draft.OpenWithin`).  As
long as every turn spares it, it is open, with the same lists around it; after the first turn that
does not it has ended, and stays so (`Spot.Shows.spares_or_notMem`).  Both halves together give an
exact criterion for a list to be the innermost one (`Spot.Shows.node_eq_iff`).

* `keeps_of_move`: which lists a turn ends.
* `Spot.Step`: the turns of a block; `Spot.Shows`: the draft behind a place.
* `Spot.Shows.openWithin_or_notMem`: one turn.
* `Spot.Shows.tree_of_read`: what is read in the end, from the draft at a place.
-/
import Mathlib.Logic.Relation
import IndentLisp.Proofs.Reader.LineEnds
import IndentLisp.Proofs.Reader.Progress
import IndentLisp.Proofs.Tree.OpenLists

namespace IndentLisp

open Relation (ReflTransGen)

/-! ## 1. Turns and open lists -/

section Turns

variable {n n' : Nesting} {c : Char} {cs : List Char} {v : Move}

theorem Nesting.level_of_indented (h : n.style = .indented) : n.level = 1 + n.depth + n.opened := by
  rw [level, h]

/-- Line ends keep the style of a block, and its count of open parentheses. -/
theorem next_breakLine (hn : (n.breakLine cs).next = some n') :
    n'.style = n.style ∧ n'.opened = n.opened := by
  unfold Nesting.breakLine at hn
  cases hs : n.style with
  | classic =>
    simp only [hs] at hn
    split at hn
    · cases hn
    · cases hn
      exact ⟨hs, rfl⟩
  | indented =>
    simp only [hs] at hn
    split at hn
    · cases hn
    · cases hn
      exact ⟨rfl, rfl⟩

/-- A block keeps its style. -/
theorem style_of_move (hv : move (some n) c cs = .ok v) (hn : v.next = some n') :
    n'.style = n.style := by
  cases turn_of_move hv with
  | opening | closing | blank | comment | token =>
    cases hn
    rfl
  | lineEnd => exact (next_breakLine hn).1

/-- Only line ends change its depth. -/
theorem depth_of_move (hv : move (some n) c cs = .ok v) (hn : v.next = some n') (hc : c ≠ '\n') :
    n'.depth = n.depth := by
  cases turn_of_move hv with
  | opening | closing | blank | comment | token =>
    cases hn
    rfl
  | lineEnd => exact absurd rfl hc

/-- The number of lists that stay open in a turn of an indented block that starts with character `c`
and leads to nesting `n`.  The list of a line is a new one and does not count, though it is on the
level of one that has ended. -/
def Nesting.spared (c : Char) (n : Nesting) : Nat :=
  if c = '\n' then n.level - 1 else n.level

/-- **What a turn does to the open lists**: those beyond the ones that it spares end.  A turn that
starts a list ends none. -/
theorem keeps_of_move {d : Draft} (hs : n.style = .indented) (hv : move (some n) c cs = .ok v)
    (hn : v.next = some n') (hl : d.level = n.level) :
    Draft.Keeps (n.level - n'.spared c) d (d.draw v.strokes) := by
  have hlevel : ∀ k, ({ n with opened := k } : Nesting).level = 1 + n.depth + k :=
    fun _ => Nesting.level_of_indented hs
  have hn0 : n.level = 1 + n.depth + n.opened := hlevel n.opened
  have hsame : c ≠ '\n' → n' = n → n.level - n'.spared c = 0 := by
    rintro hc rfl
    rw [Nesting.spared, if_neg hc, Nat.sub_self]
  cases turn_of_move hv with
  | opening =>
    cases hn
    rw [Nesting.spared, if_neg (by decide), hlevel (n.opened + 1), hn0,
      show 1 + n.depth + n.opened - (1 + n.depth + (n.opened + 1)) = 0 by omega]
    exact d.keeps_enter 1
  | closing h0 =>
    cases hn
    rw [Nesting.spared, if_neg (by decide), hlevel (n.opened - 1), hn0,
      show 1 + n.depth + n.opened - (1 + n.depth + (n.opened - 1)) = 1 by omega]
    exact Draft.keeps_leave (k := 1) (by omega)
  | blank hc =>
    cases hn
    rw [hsame (by rcases hc with rfl | rfl <;> decide) rfl]
    exact .refl d
  | comment =>
    cases hn
    rw [hsame (by decide) rfl]
    exact .refl d
  | token hc _ =>
    cases hn
    rw [hsame (Token.isStart_iff.mp hc).2.2.2.2.1 rfl]
    exact ⟨[], Draft.spine_leaf d _, by simp⟩
  | lineEnd =>
    unfold Nesting.breakLine at hn ⊢
    simp only [hs] at hn ⊢
    split at hn
    · cases hn
    · rename_i tabs _
      cases hn
      have hline : (⟨.indented, tabs + 1, n.opened⟩ : Nesting).level =
          1 + (tabs + 1) + n.opened := rfl
      rw [Nesting.spared, if_pos rfl, hline, hn0,
        show 1 + n.depth + n.opened - (1 + (tabs + 1) + n.opened - 1) =
          n.depth + 1 - (tabs + 1) by omega]
      exact Draft.keeps_line (hl.trans hn0) (Nat.succ_pos tabs)

end Turns

/-! ## 2. Places in a block -/

namespace Reader

/-- A place in a block: the block as far as it is read, and the reader there.  The two are what a
turn takes and what it leads to. -/
structure Spot where
  block : Block
  reader : Reader

namespace Spot

variable {s s' s'' : Spot} {d : Draft}

/-- The text that is left. -/
def ahead (s : Spot) : List Char :=
  s.reader.cursor.ahead

/-- How the block nests there. -/
def nesting (s : Spot) : Nesting :=
  ⟨s.block.style, s.block.depth, s.block.opened⟩

/-- The number of lists that are open below the root. -/
def level (s : Spot) : Nat :=
  s.nesting.level

/-- One turn leads on in the block. -/
def Step (s s' : Spot) : Prop :=
  turn s.block s.reader = .ok (some s'.block) s'.reader

/-- A turn after which `e` lists are open, not counting the list of a line that it starts.  It is
told by the counts after the turn and by the character at which the turn starts. -/
def Spares (e : Nat) (s s' : Spot) : Prop :=
  e ≤ s'.level ∧ (s.ahead.head? = some '\n' → e < s'.level)

/-- A draft whose tree the reader has there, with its innermost list.  There is one at every place
that a reading comes to, and the theorems name it where they need the open lists. -/
structure Shows (d : Draft) (s : Spot) : Prop where
  level_eq : d.level = s.level
  block_eq : s.block = s.nesting.block d.here.handle
  reader_eq : s.reader = drawn s.reader.file s.reader.cursor d

theorem Shows.tree_eq (h : Shows d s) : s.reader.tree = d.tree :=
  congrArg Reader.tree h.reader_eq

theorem Shows.node_eq (h : Shows d s) : s.block.node = d.here.handle :=
  congrArg Block.node h.block_eq

theorem exists_shows {m : Option Nesting} (h : Fits m (some s.block) s.reader) :
    ∃ d, Shows d s := by
  obtain ⟨n, d, -, hl, hb, hr⟩ := fits_some h
  have hn : s.nesting = n := by
    rw [nesting, hb]
    rfl
  subst hn
  exact ⟨d, hl, hb, hr⟩

/-- **A turn from place to place** is one of the scan, drawn. -/
theorem Shows.step (h : Shows d s) (hs : Step s s') :
    ∃ c cs v, s.ahead = c :: cs ∧ IndentLisp.move (some s.nesting) c cs = .ok v ∧
    v.next = some s'.nesting ∧
      s'.ahead = s.ahead.drop v.passed ∧ Shows (d.draw v.strokes) s' := by
  obtain ⟨c, cs, ha⟩ := List.exists_cons_of_ne_nil (ahead_ne_nil_of_turn hs)
  have ht := turn_eq s.reader.file h.level_eq ha
  rw [← h.block_eq, ← h.reader_eq, hs] at ht
  split at ht
  · cases ht
  · rename_i v hv
    obtain ⟨hb, hr⟩ := EStateM.Result.ok.inj ht
    cases hn : v.next with
    | none =>
      rw [hn] at hb
      cases hb
    | some n =>
      rw [hn] at hb
      have hb : s'.block = n.block (d.draw v.strokes).here.handle := Option.some.inj hb
      obtain rfl : s'.nesting = n := by
        rw [nesting, hb]
        rfl
      have hl := level_draw_move (m := some s.nesting) hv h.level_eq
      rw [hn] at hl
      have ha' : s'.ahead = s.ahead.drop v.passed := by
        rw [ahead, hr]
        exact Cursor.skip_ahead _ _
      refine ⟨c, cs, v, ha, hv, hn, ha', hl, hb, ?_⟩
      rw [hr]
      rfl

theorem Step.shortens (h : Step s s') : s'.ahead.length < s.ahead.length :=
  turn_shortens h (ahead_ne_nil_of_turn h)

theorem length_le_of_steps (h : ReflTransGen Step s s') : s'.ahead.length ≤ s.ahead.length := by
  induction h with
  | refl => exact Nat.le_refl _
  | tail _ hs ih => exact Nat.le_trans (Nat.le_of_lt hs.shortens) ih

/-- Some draft is shown wherever turns lead. -/
theorem Shows.steps (h : Shows d s) (hs : ReflTransGen Step s s') : ∃ d', Shows d' s' := by
  induction hs with
  | refl => exact ⟨d, h⟩
  | tail _ hs ih =>
    obtain ⟨d', h'⟩ := ih
    obtain ⟨-, -, v, -, -, -, -, hd⟩ := h'.step hs
    exact ⟨_, hd⟩

theorem style_of_steps (hd : Shows d s) (h : ReflTransGen Step s s') :
    s'.nesting.style = s.nesting.style := by
  induction h with
  | refl => rfl
  | tail h hs ih =>
    obtain ⟨d', hd'⟩ := hd.steps h
    obtain ⟨c, cs, v, -, hv, hn, -, -⟩ := hd'.step hs
    rw [style_of_move hv hn, ih]

theorem visits_of_steps {text file : String} (hv : ∃ k, Visits text file k (some s.block) s.reader)
    (h : ReflTransGen Step s s') : ∃ k, Visits text file k (some s'.block) s'.reader := by
  induction h with
  | refl => exact hv
  | tail _ hs ih =>
    obtain ⟨k, hk⟩ := ih
    exact ⟨k + 1, .turn hk (ahead_ne_nil_of_turn hs) hs⟩

/-- **What is read in the end**: the draft that is shown at a place, and what the scan draws from
there on. -/
theorem Shows.tree_of_read {text file : String} {t : Tree} {k : Nat} (hd : Shows d s)
    (hv : Visits text file k (some s.block) s.reader) (h : read text file = .ok t) :
    (scan (some s.nesting) s.ahead).offence? = none ∧
      t = (d.draw (scan (some s.nesting) s.ahead).strokes).tree.unwrap := by
  have hrest : blocks (.ofText text file) =
      outcome s.reader.file s.reader.cursor d (scan (some s.nesting) s.ahead) := by
    rw [← hv.rest_eq, hd.reader_eq, hd.block_eq]
    exact rest_eq (m := some s.nesting) hd.level_eq rfl
  rw [read, readAll] at h
  simp only [bind, EStateM.bind, hrest, outcome] at h
  cases ho : (scan (some s.nesting) s.ahead).offence? with
  | none =>
    rw [ho] at h
    cases h
    exact ⟨rfl, rfl⟩
  | some o =>
    rw [ho] at h
    cases h

/-! ## 3. A list in a block -/

/-- A turn that spares `e` lists. -/
def Spares.Step (e : Nat) (s s' : Spot) : Prop :=
  s.Step s' ∧ Spares e s s'

variable {p e : Nat} {base : List Nat}

theorem spares_iff {c : Char} {cs : List Char} (hi : s'.nesting.style = .indented)
    (ha : s.ahead = c :: cs) :
    Spares e s s' ↔ e ≤ s'.nesting.spared c := by
  have hpos : 0 < s'.level := by
    rw [level, Nesting.level_of_indented hi]
    omega
  rw [Spares, ha, Nesting.spared]
  simp only [List.head?_cons, Option.some.injEq]
  simp only [level] at hpos ⊢
  split
  · rename_i hc
    simp only [hc, forall_const]
    omega
  · rename_i hc
    simp only [hc, false_implies, and_true]

/-- **A list stays open in a turn that spares it with the lists around it**, and is never open again
after one that does not. -/
theorem Shows.openWithin_or_notMem (hd : Shows d s) (hi : s.nesting.style = .indented)
    (ho : d.OpenWithin p base) (hs : Step s s') :
    ∃ d', Shows d' s' ∧ (Spares base.length s s' → d'.OpenWithin p base) ∧
      (¬ Spares base.length s s' → p ∉ d'.spine ∧ p < d'.tree.size) := by
  obtain ⟨c, cs, v, ha, hv, hn, -, hd'⟩ := hd.step hs
  have hk := keeps_of_move hi hv hn hd.level_eq
  have hle := ho.length_le
  have hl : d.level = s.nesting.level := hd.level_eq
  rw [spares_iff ((style_of_move hv hn).trans hi) ha]
  refine ⟨_, hd', ?_, ?_⟩
  · intro h
    exact hk.openWithin ho (by omega)
  · intro h
    exact ⟨hk.notMem ho (by omega), Nat.lt_of_lt_of_le ho.lt (d.grows_draw _).size_le⟩

/-- It stays ended. -/
theorem Shows.notMem (hd : Shows d s) (hi : s.nesting.style = .indented) (hp : p ∉ d.spine)
    (hlt : p < d.tree.size) (hs : Step s s') :
    ∃ d', Shows d' s' ∧ p ∉ d'.spine ∧ p < d'.tree.size := by
  obtain ⟨c, cs, v, -, hv, hn, -, hd'⟩ := hd.step hs
  have hk := keeps_of_move hi hv hn hd.level_eq
  exact ⟨_, hd', hk.notMem_of_notMem hp hlt, Nat.lt_of_lt_of_le hlt (d.grows_draw _).size_le⟩

/-- **A list is open as long as every turn spares it**, and then never again.  The induction is on
the turns, from the place where the list is open. -/
theorem Shows.spares_or_notMem (hd : Shows d s) (hi : s.nesting.style = .indented)
    (ho : d.OpenWithin p base) (h : ReflTransGen Step s s') :
    ∃ d', Shows d' s' ∧
      ((d'.OpenWithin p base ∧ ReflTransGen (Spares.Step base.length) s s') ∨
        (p ∉ d'.spine ∧ p < d'.tree.size)) := by
  induction h with
  | refl => exact ⟨d, hd, Or.inl ⟨ho, .refl⟩⟩
  | @tail m s' hsm hs ih =>
    have hi' : m.nesting.style = .indented := (style_of_steps hd hsm).trans hi
    obtain ⟨d', hd', ⟨ho', hpath⟩ | ⟨hp, hlt⟩⟩ := ih
    · obtain ⟨d'', hd'', hopen, hended⟩ := hd'.openWithin_or_notMem hi' ho' hs
      by_cases hsp : Spares base.length m s'
      · exact ⟨d'', hd'', Or.inl ⟨hopen hsp, hpath.tail ⟨hs, hsp⟩⟩⟩
      · exact ⟨d'', hd'', Or.inr (hended hsp)⟩
    · obtain ⟨d'', hd'', h''⟩ := hd'.notMem hi' hp hlt hs
      exact ⟨d'', hd'', Or.inr h''⟩

theorem Shows.openWithin_of_spares (hd : Shows d s) (hi : s.nesting.style = .indented)
    (ho : d.OpenWithin p base) (h : ReflTransGen (Spares.Step base.length) s s') :
    ∃ d', Shows d' s' ∧ d'.OpenWithin p base := by
  induction h with
  | refl => exact ⟨d, hd, ho⟩
  | @tail m s' hsm hs ih =>
    have hle : Spares.Step base.length ≤ Step := fun _ _ h => h.1
    have hsteps : ReflTransGen Step s m := ReflTransGen.mono hle _ _ hsm
    obtain ⟨d', hd', ho'⟩ := ih
    obtain ⟨d'', hd'', hopen, -⟩ :=
      hd'.openWithin_or_notMem ((style_of_steps hd hsteps).trans hi) ho' hs.1
    exact ⟨d'', hd'', hopen hs.2⟩

/-- **Where it is the innermost one**: it was spared all the way, and nothing is open within it.
Both can be told from the counts of the reader. -/
theorem Shows.node_eq_iff (hd : Shows d s) (hi : s.nesting.style = .indented)
    (ho : d.OpenWithin p base) (h : ReflTransGen Step s s') :
    s'.block.node = p ↔ s'.level = base.length ∧ ReflTransGen (Spares.Step base.length) s s' := by
  constructor
  · intro hp
    obtain ⟨d', hd', ⟨ho', hpath⟩ | ⟨hended, -⟩⟩ := hd.spares_or_notMem hi ho h
    · rw [hd'.node_eq, ho'.here_eq_iff, hd'.level_eq] at hp
      exact ⟨hp, hpath⟩
    · rw [← hp, hd'.node_eq] at hended
      exact absurd List.mem_cons_self hended
  · rintro ⟨hl, hpath⟩
    obtain ⟨d', hd', ho'⟩ := hd.openWithin_of_spares hi ho hpath
    rw [hd'.node_eq, ho'.here_eq_iff, hd'.level_eq]
    exact hl

end Spot

end Reader

end IndentLisp
