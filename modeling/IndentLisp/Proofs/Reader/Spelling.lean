/-
# Spellings of line ends

A text is its characters and its line ends, and each line end is spelled in one of three ways.
Spelling some of them differently gives another text with the same lines, unless a carriage return
comes to stand in front of a line feed that is the next line end: the two would be one.  **Texts
that differ only so are the same text to the reader** (`read_respelled`), to sources and to files.

The line ends of a text are read off from left to right (`Lines.marks`), with a carriage return and
a line feed after it as one of them, and `Lines.spell` is the way back.  What it means that a text
is spelled anew is said of the marks, each on its own.  Unifying is then to forget the spelling,
mark by mark (`Lines.unify_spell`), and everything that starts by unifying a text cannot tell two
such texts apart.

Line ends within a string count as well.  A token that runs over lines is the same token in both
texts, with line feeds in it.

* `Lines.Respelled`: the same text, with its line ends spelled in any other way.
* `Lines.Mark.Merge`: the one case to be left out.
* `Lines.unify_eq_replaced`: unifying is two replacements, one after the other.
* `Source.intercalate_lines`: a source is its lines, joined by line feeds.
* `read_respelled`: **the same reading, the same source and the same tree of a file.**
-/
import Mathlib.Data.List.Forall2
import IndentLisp.Proofs.Check
import IndentLisp.Proofs.Reader.SourceOrder

namespace IndentLisp

namespace Lines

variable {cs ds : List Char} {ms ns : List Mark}

/-! ## 1. Marks -/

/-- The spelling of a line end: both characters, a lone carriage return, or a lone line feed. -/
inductive Ending where
  | crlf
  | cr
  | lf
deriving DecidableEq, Repr

/-- How a line end is spelled. -/
def Ending.chars : Ending → List Char
  | .crlf => ['\r', '\n']
  | .cr => ['\r']
  | .lf => ['\n']

/-- A line end, or a character that is part of none. -/
inductive Mark where
  | char (c : Char) (plain : c ≠ '\r' ∧ c ≠ '\n')
  | ending (e : Ending)
deriving DecidableEq

namespace Mark

/-- How a mark is written. -/
def chars : Mark → List Char
  | .char c _ => [c]
  | .ending e => e.chars

/-- What is left of a mark when all line ends are the same. -/
def unified : Mark → Char
  | .char c _ => c
  | .ending _ => '\n'

/-- The mark that a character is by itself. -/
def ofChar (c : Char) : Mark :=
  if hr : c = '\r' then .ending .cr
  else if hn : c = '\n' then .ending .lf
  else .char c ⟨hr, hn⟩

/-- Two marks that differ at most in how they spell a line end.  Any of the three spellings can
stand for any other. -/
inductive Alike : Mark → Mark → Prop
  | char (c : Char) (plain : c ≠ '\r' ∧ c ≠ '\n') : Alike (.char c plain) (.char c plain)
  | ending (e f : Ending) : Alike (.ending e) (.ending f)

/-- Two line ends that would be one if the first were written in front of the second. -/
def Merge (m n : Mark) : Prop :=
  m = .ending .cr ∧ n = .ending .lf

instance : (m n : Mark) → Decidable (m.Alike n)
  | .char c hc, .char d hd =>
    decidable_of_iff (c = d) ⟨fun h => by subst h; exact .char c hc, fun h => by cases h; rfl⟩
  | .ending e, .ending f => isTrue (.ending e f)
  | .char _ _, .ending _ => isFalse nofun
  | .ending _, .char _ _ => isFalse nofun

instance (m n : Mark) : Decidable (m.Merge n) :=
  inferInstanceAs (Decidable (m = .ending .cr ∧ n = .ending .lf))

theorem chars_ofChar (c : Char) : (ofChar c).chars = [c] := by
  unfold ofChar
  split
  · rename_i hr
    rw [hr]
    rfl
  · split
    · rename_i hn
      rw [hn]
      rfl
    · rfl

theorem Alike.unified_eq {m n : Mark} (h : m.Alike n) : m.unified = n.unified := by
  cases h <;> rfl

end Mark

/-- The marks of a text.  A carriage return and the line feed after it are one line end, and any
other character is a mark by itself. -/
def marks : List Char → List Mark
  | [] => []
  | '\r' :: '\n' :: cs => .ending .crlf :: marks cs
  | c :: cs => .ofChar c :: marks cs

/-- The text that marks spell. -/
def spell (ms : List Mark) : List Char :=
  ms.flatMap Mark.chars

/-- **The marks of a text spell it.** -/
theorem spell_marks (cs : List Char) : spell (marks cs) = cs := by
  fun_induction marks cs with
  | case1 => rfl
  | case2 cs ih =>
    rw [spell, List.flatMap_cons, ← spell, ih]
    rfl
  | case3 c cs _ ih => rw [spell, List.flatMap_cons, ← spell, ih, Mark.chars_ofChar,
      List.singleton_append]

/-- The same text with its line ends spelled in any other way, each of them on its own, so long as
no two of them merge.  If two would, the new text has one line less. -/
def Respelled (cs ds : List Char) : Prop :=
  ∃ ms, List.Forall₂ Mark.Alike (marks cs) ms ∧ ms.IsChain (fun m n => ¬ m.Merge n) ∧ ds = spell ms

/-! ## 2. Unifying -/

/-- A line feed for each carriage return with a line feed after it. -/
def mergeCrlf : List Char → List Char
  | [] => []
  | '\r' :: '\n' :: cs => '\n' :: mergeCrlf cs
  | c :: cs => c :: mergeCrlf cs

/-- Unifying line ends is two replacements: one for the spelling of two characters, and then one for
the carriage returns that are left.  It is done in one pass here. -/
theorem unify_eq_replaced (cs : List Char) :
    unify cs = (mergeCrlf cs).map fun c => if c = '\r' then '\n' else c := by
  fun_induction mergeCrlf cs with
  | case1 => rfl
  | case2 cs ih =>
    rw [unify_crlf, ih]
    rfl
  | case3 c cs hcrlf ih =>
    rw [List.map_cons, ← ih]
    by_cases hr : c = '\r'
    · subst hr
      exact unify_cr fun r hr => hcrlf r rfl hr
    · rw [unify_cons cs hr, if_neg hr]

/-- The marks of a text, with all line ends the same, are the unified text. -/
theorem unify_eq_map_marks (cs : List Char) : unify cs = (marks cs).map Mark.unified := by
  fun_induction marks cs with
  | case1 => rfl
  | case2 cs ih =>
    rw [unify_crlf, ih]
    rfl
  | case3 c cs hcrlf ih =>
    rw [List.map_cons, ← ih]
    by_cases hr : c = '\r'
    · subst hr
      exact unify_cr fun r hr => hcrlf r rfl hr
    · rw [unify_cons cs hr, Mark.ofChar, dif_neg hr]
      split
      · rename_i hn
        rw [hn]
        rfl
      · rfl

/-- **Unifying forgets how line ends are spelled**, where no two of them merge.  The induction is on
the marks; a carriage return has to know that no line feed comes next. -/
theorem unify_spell (h : ms.IsChain fun m n => ¬ m.Merge n) :
    unify (spell ms) = ms.map Mark.unified := by
  induction ms with
  | nil => rfl
  | cons m ms ih =>
    have hrest : unify (spell ms) = ms.map Mark.unified := ih h.of_cons
    rw [spell, List.flatMap_cons, ← spell, List.map_cons, ← hrest]
    match m with
    | .char c hc => exact unify_cons _ hc.1
    | .ending .crlf => exact unify_crlf _
    | .ending .lf => exact unify_cons _ (by decide)
    | .ending .cr =>
      -- what comes next starts with no line feed, as it could only be that of a line end of its own
      refine unify_cr fun r hr => ?_
      match ms, h with
      | [], _ => cases hr
      | .char c hc :: _, _ => exact hc.2 (List.cons.inj hr).1
      | .ending .crlf :: _, _ => cases hr
      | .ending .cr :: _, _ => cases hr
      | .ending .lf :: _, h => exact (List.isChain_cons_cons.mp h).1 ⟨rfl, rfl⟩

theorem unify_respelled (h : Respelled cs ds) : unify ds = unify cs := by
  obtain ⟨ms, halike, hchain, rfl⟩ := h
  have heq : (marks cs).map Mark.unified = ms.map Mark.unified := by
    rw [← List.forall₂_eq_eq_eq, List.forall₂_map_left_iff, List.forall₂_map_right_iff]
    exact halike.imp fun _ _ h => h.unified_eq
  rw [unify_spell hchain, unify_eq_map_marks, heq]

end Lines

/-! ## 3. What is read -/

variable {text text' : String}

/-- A reading starts from the same reader. -/
theorem ofText_respelled (h : Lines.Respelled text.toList text'.toList) (file : String) :
    Reader.ofText text' file = Reader.ofText text file := by
  rw [Reader.ofText, Reader.ofText, Lines.unify_respelled h]

theorem Source.ofText_respelled (h : Lines.Respelled text.toList text'.toList) (name : String) :
    Source.ofText name text' = Source.ofText name text := by
  rw [Source.ofText, Source.ofText, Lines.unify_respelled h]

/-- A source is its lines joined by line feeds. -/
theorem Source.intercalate_lines (s : Source) : "\n".intercalate s.lines = s.content := by
  rw [← String.toList_inj, String.toList_intercalate, Source.lines, List.map_map]
  have hsame : String.toList ∘ String.ofList = id := funext fun cs => String.toList_ofList
  rw [hsame, List.map_id]
  exact Lines.join_split s.content.toList

/-- **A file that is text holds the tree of its text**, whatever name offences would point to. -/
theorem loadTree_eq_ok_iff {files : FileTree} {p : Path} {bytes : ByteArray} {t : Tree}
    (hb : files.readBytes p = .ok bytes) (hs : String.fromUTF8? bytes = some text) (file : String) :
    loadTree files p = .ok t ↔ read text file = .ok t := by
  have hname : read text p.shown = .ok t ↔ read text file = .ok t := by
    rw [read_eq_ok_iff, read_eq_ok_iff]
  rw [loadTree_of_text hb hs, ← hname]
  cases read text p.shown <;> simp [Except.mapError]

/-- **How line ends are spelled makes no difference.**  Texts that differ only in that leave the
reader in the same state, with the same tree or the same offence, make the same source, and as files
give the same tree, wherever they are.  And whatever a text is, its marks spell it, and a source of
it has a line feed in place of each line end and everything else as it was; that is what the reader
reads, no carriage return is left, and it is its lines joined by line feeds. -/
theorem read_respelled (h : Lines.Respelled text.toList text'.toList) :
    (∀ file, Reader.stop text' file = Reader.stop text file ∧ read text' file = read text file) ∧
    (∀ name, Source.ofText name text' = Source.ofText name text) ∧
    (∀ (files files' : FileTree) (p p' : Path) (bytes bytes' : ByteArray),
      files.readBytes p = .ok bytes → String.fromUTF8? bytes = some text →
      files'.readBytes p' = .ok bytes' → String.fromUTF8? bytes' = some text' →
      (∀ t, loadTree files' p' = .ok t ↔ loadTree files p = .ok t) ∧
        (p' = p → loadTree files' p' = loadTree files p)) ∧
    (∀ s name, Lines.spell (Lines.marks s.toList) = s.toList ∧
      (Source.ofText name s).content.toList = (Lines.marks s.toList).map Lines.Mark.unified ∧
      (Reader.stop s name).text = (Source.ofText name s).content ∧
      '\r' ∉ (Source.ofText name s).content.toList ∧
      "\n".intercalate (Source.ofText name s).lines = (Source.ofText name s).content) := by
  have hread : ∀ file, read text' file = read text file := by
    intro file
    rw [read, read, ofText_respelled h file]
  refine ⟨fun file => ⟨?_, hread file⟩, Source.ofText_respelled h, ?_, ?_⟩
  · rw [Reader.stop, Reader.stop, ofText_respelled h file]
  · intro files files' p p' bytes bytes' hb hs hb' hs'
    refine ⟨fun t => ?_, ?_⟩
    · rw [loadTree_eq_ok_iff hb' hs' p.shown, loadTree_eq_ok_iff hb hs p.shown, hread]
    · rintro rfl
      rw [loadTree_of_text hb' hs', loadTree_of_text hb hs, hread]
  · intro s name
    have hcontent : (Source.ofText name s).content.toList = Lines.unify s.toList :=
      String.toList_ofList
    refine ⟨Lines.spell_marks _, ?_, ?_, ?_, Source.intercalate_lines _⟩
    · rw [hcontent, Lines.unify_eq_map_marks]
    · rw [Reader.text, (Reader.stop_eq s name).1, text_placeOf]
      rfl
    · rw [hcontent]
      exact Lines.not_mem_unify _

/-- Three line ends, one of them inside a string. -/
def mixedText : String :=
  "a \r\n\"x\ry\"\n\tb"

/-- The same text, with each line end spelled in the way of the next one. -/
def mixedAround : String :=
  "a \r\"x\ny\"\r\n\tb"

/-- A file with each of the texts. -/
def mixedSpellings : FileTree :=
  ((FileTree.empty []).put ["a"] (.file mixedText.toUTF8)).put ["b"] (.file mixedAround.toUTF8)

theorem read_respelled_mixed :
    Lines.Respelled mixedText.toList mixedAround.toList ∧
    read mixedAround "f" = read mixedText "f" ∧
    (Source.ofText "f" mixedAround).lines = (Source.ofText "f" mixedText).lines ∧
    ∀ t, loadTree mixedSpellings (.ofText "b") = .ok t ↔
    loadTree mixedSpellings (.ofText "a") = .ok t := by
  have h : Lines.Respelled mixedText.toList mixedAround.toList :=
    ⟨Lines.marks mixedAround.toList, by decide +kernel, by decide +kernel, by decide +kernel⟩
  obtain ⟨hread, hsource, hload, -⟩ := read_respelled h
  have ha : mixedSpellings.readBytes (.ofText "a") = .ok mixedText.toUTF8 := by decide +kernel
  have hb : mixedSpellings.readBytes (.ofText "b") = .ok mixedAround.toUTF8 := by decide +kernel
  have htexts := hload _ _ _ _ _ _ ha (by decide +kernel) hb (by decide +kernel)
  exact ⟨h, (hread "f").2, congrArg Source.lines (hsource "f"), htexts.1⟩

end IndentLisp
