/-
# Scans

A scan goes through a text as a reader does, but keeps no tree: it takes turns, and writes down the
strokes that a tree would be drawn with.  What a reader comes to is told by its scan, up to the
tree; so everything that is said of the texts that are read, or of where they are rejected, is said
of scans, and the tree comes in where it is asked what is drawn.

* `scan`: all turns.  A text ends every list that it leaves open.
* `passed_scan`: **a scan without offence goes through the whole text.**
* `Reaches`: the states in between; `exists_reaches_stop`: a scan stops at one of them.

A scan ends because of what is left to do, in half characters: a turn passes at least one character,
or starts a block, and the place between blocks counts as half a character more than one in a block.
That bound is the one of `move_shortens`, and a reading has no more steps than it allows.
-/
import IndentLisp.Proofs.Reader.Turn

namespace IndentLisp

/-! ## 1. Scans -/

/-- What a scan finds: how far it comes, the strokes that it draws, and the offence that stops it,
if one does.  Where an offence stops it, how far it comes is where the offence is. -/
structure Scan where
  passed : Nat
  strokes : List Stroke
  offence? : Option Offence

/-- A scan that comes after a turn. -/
def Scan.after (s : Scan) (v : Move) : Scan :=
  ⟨v.passed + s.passed, v.strokes ++ s.strokes, s.offence?⟩

/-- All turns, from within a block or from between blocks.  At the end of the text every list is
ended that is still open, so that what is drawn is always whole data. -/
def scan (m : Option Nesting) : List Char → Scan
  | [] => ⟨0, List.replicate (levelOf m) .leave, none⟩
  | c :: cs =>
    match _h : move m c cs with
    | .error o => ⟨0, [], some o⟩
    | .ok v => (scan v.next ((c :: cs).drop v.passed)).after v
termination_by cs => 2 * cs.length + if m = none then 1 else 0
decreasing_by exact move_shortens _h

@[simp] theorem scan_nil (m : Option Nesting) :
    scan m [] = ⟨0, List.replicate (levelOf m) .leave, none⟩ := by
  rw [scan]

theorem scan_ok {m : Option Nesting} {c : Char} {cs : List Char} {v : Move}
    (h : move m c cs = .ok v) :
    scan m (c :: cs) = (scan v.next ((c :: cs).drop v.passed)).after v := by
  rw [scan]
  split
  · rename_i o h'
    rw [h] at h'
    cases h'
  · rename_i v' h'
    rw [h] at h'
    cases h'
    rfl

/-- **A scan without offence goes through the whole text.**  It may go beyond it, by a comment in a
block whose line end is not there. -/
theorem passed_scan {m : Option Nesting} {cs : List Char} (h : (scan m cs).offence? = none) :
    cs.length ≤ (scan m cs).passed := by
  fun_induction scan m cs with
  | case1 m => exact Nat.le_refl 0
  | case2 m c cs o hm => cases h
  | case3 m c cs v hm ih =>
    have hrest : ((c :: cs).drop v.passed).length ≤ _ := ih h
    rw [List.length_drop] at hrest
    simp only [Scan.after]
    omega

/-! ## 2. The states of a scan -/

/-- The states to which the turns of a scan lead, each with the text that is left there.  What lies
behind is not part of it. -/
inductive Reaches (m : Option Nesting) (cs : List Char) : Option Nesting → List Char → Prop
  | refl : Reaches m cs m cs
  | turn {m' : Option Nesting} {d : Char} {ds : List Char} {v : Move} :
      Reaches m cs m' (d :: ds) → move m' d ds = .ok v →
      Reaches m cs v.next ((d :: ds).drop v.passed)

/-- What a scan reaches, it reaches at once or after its first turn. -/
theorem Reaches.head {m m' : Option Nesting} {c : Char} {cs ds : List Char} {v : Move}
    (hv : move m c cs = .ok v) (h : Reaches m (c :: cs) m' ds) :
    (m' = m ∧ ds = c :: cs) ∨ Reaches v.next ((c :: cs).drop v.passed) m' ds := by
  induction h with
  | refl => exact Or.inl ⟨rfl, rfl⟩
  | turn _ hw ih =>
    rcases ih with ⟨rfl, hd⟩ | ih
    · cases hd
      rw [hv] at hw
      cases hw
      exact Or.inr .refl
    · exact Or.inr (.turn ih hw)

/-- What is reached after a first turn is reached. -/
theorem Reaches.cons {m m' : Option Nesting} {c : Char} {cs ds : List Char} {v : Move}
    (hv : move m c cs = .ok v) (h : Reaches v.next ((c :: cs).drop v.passed) m' ds) :
    Reaches m (c :: cs) m' ds := by
  induction h with
  | refl => exact .turn .refl hv
  | turn _ hw ih => exact .turn ih hw

/-- **A scan stops at a state that it reaches.** -/
theorem exists_reaches_stop (m : Option Nesting) (cs : List Char) :
    ∃ m', Reaches m cs m' (cs.drop (scan m cs).passed) := by
  fun_induction scan m cs with
  | case1 m => exact ⟨m, .refl⟩
  | case2 m c cs o hm => exact ⟨m, .refl⟩
  | case3 m c cs v hm ih =>
    obtain ⟨m', h⟩ := ih
    rw [List.drop_drop] at h
    exact ⟨m', Reaches.cons hm h⟩

/-- At the end of a text there is no further turn. -/
theorem Reaches.nil {m m' : Option Nesting} {ds : List Char} (h : Reaches m [] m' ds) :
    m' = m ∧ ds = [] := by
  generalize hcs : ([] : List Char) = cs at h
  induction h with
  | refl => exact ⟨rfl, rfl⟩
  | turn _ _ ih =>
    obtain ⟨-, hd⟩ := ih
    cases hcs.trans hd.symm

end IndentLisp
