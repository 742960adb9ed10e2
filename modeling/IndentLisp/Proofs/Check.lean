/-
# Each file stands for itself

A check of a directory finds all its sources first, and then reads one after the other (section 8).
It ends early in two cases only: the path of something below the directory is too long for the
system to look at it, or a source is not text.  **Otherwise the report says of each source what
reading it alone says** (`Report.Tells`), in the order of the paths.

That a malformed source does not end the check is the last of the testable properties of section 13,
and it holds because a verdict holds an offence as well as a tree.  That a source which is not text
does end it is how the code is: such a file comes to no verdict.  The order in which the two cases
are met is settled as well: every path is looked at before any source is read.

* `mapM_ok_iff`, `mapM_error_iff`: what a walk through a list does, and where it fails.
* `sourcesUnder_increasing`: each source is found once, in the order of the paths.
* `Verdict.ofFile_of_text`: the verdict on a file depends on its text and on nothing else.
* `Report.ofDirectory_isolates`: **what a check of a directory comes to**, in all three cases.
* `Report.Parted`: what it means that a report falls into who passed and who failed.
* `Report.ofProject_of_first`, `Report.ofProject_of_all`: a project is checked one directory after
  the other, and the first that cannot be checked ends the check.

Nothing here depends on how a text is read.  All that is used of reading is that it does not matter
whether line ends are unified before (`read_unify`), since a loaded source has its line ends unified
already.
-/
import IndentLisp.Check
import IndentLisp.Proofs.Files.Tree
import IndentLisp.Proofs.Reader.Drawing
import IndentLisp.Proofs.Files.Path
import Mathlib.Data.List.Forall2

namespace IndentLisp

/-! ## 1. Going through a list -/

section Lists

variable {α β ε : Type} {f : α → Except ε β} {xs : List α} {ys : List β} {e : ε}

/-- A walk through a list succeeds where it succeeds on every item, and its answers are then those
for the items, in order. -/
theorem mapM_ok_iff : xs.mapM f = .ok ys ↔ List.Forall₂ (fun x y => f x = .ok y) xs ys := by
  induction xs generalizing ys with
  | nil => cases ys <;> simp [pure, Except.pure]
  | cons x xs ih =>
    rw [List.mapM_cons]
    cases hx : f x with
    | error e => cases ys <;> simp [bind, Except.bind, hx]
    | ok y =>
      cases hxs : xs.mapM f with
      | error e => cases ys <;> simp [bind, Except.bind, ← ih, hxs, hx]
      | ok tail => cases ys <;> simp [bind, Except.bind, pure, Except.pure, ← ih, hxs, hx]

/-- **It fails on the first item that it fails on**: on those before it there were answers, and
those after it are not looked at. -/
theorem mapM_error_iff : xs.mapM f = .error e ↔
    ∃ before x after ys, xs = before ++ x :: after ∧ before.mapM f = .ok ys ∧ f x = .error e := by
  induction xs with
  | nil => simp [pure, Except.pure]
  | cons x xs ih =>
    rw [List.mapM_cons]
    constructor
    · intro h
      cases hx : f x with
      | error e' =>
        obtain rfl : e' = e := by simpa [hx, bind, Except.bind] using h
        exact ⟨[], x, xs, [], rfl, rfl, hx⟩
      | ok y =>
        cases hxs : xs.mapM f with
        | ok tail => simp [hx, hxs, bind, Except.bind, pure, Except.pure] at h
        | error e' =>
          obtain rfl : e' = e := by simpa [hx, hxs, bind, Except.bind] using h
          obtain ⟨before, x', after, ys, rfl, hb, hx'⟩ := ih.mp hxs
          refine ⟨x :: before, x', after, y :: ys, rfl, ?_, hx'⟩
          rw [mapM_ok_iff] at hb ⊢
          exact .cons hx hb
    · rintro ⟨before, x', after, ys, hsplit, hb, hx'⟩
      cases before with
      | nil =>
        obtain ⟨rfl, rfl⟩ := List.cons.inj hsplit
        simp [hx', bind, Except.bind]
      | cons b before =>
        obtain ⟨rfl, rfl⟩ := List.cons.inj hsplit
        cases mapM_ok_iff.mp hb with
        | cons hx hbefore =>
          have hxs : (before ++ x' :: after).mapM f = .error e :=
            ih.mpr ⟨before, x', after, _, rfl, mapM_ok_iff.mpr hbefore, hx'⟩
          rw [hx, List.append_eq, hxs]
          rfl

theorem exists_mapM_ok (h : ∀ x ∈ xs, ∃ y, f x = .ok y) : ∃ ys, xs.mapM f = .ok ys := by
  cases hm : xs.mapM f with
  | ok ys => exact ⟨ys, rfl⟩
  | error e =>
    obtain ⟨before, x, after, -, hsplit, -, hx⟩ := mapM_error_iff.mp hm
    obtain ⟨y, hy⟩ := h x (by simp [hsplit])
    rw [hy] at hx
    cases hx

theorem exists_of_forall₂ {R : α → β → Prop} (h : List.Forall₂ R xs ys) {y : β} (hy : y ∈ ys) :
    ∃ x ∈ xs, R x y := by
  induction h with
  | nil => simp at hy
  | @cons x y' xs ys hR _ ih =>
    rcases List.mem_cons.mp hy with rfl | hy
    · exact ⟨x, List.mem_cons_self, hR⟩
    · obtain ⟨x', hx', hR'⟩ := ih hy
      exact ⟨x', List.mem_cons_of_mem x hx', hR'⟩

end Lists

/-! ## 2. Sources -/

section Sources

variable {files other : FileTree} {directory p : Path} {suffixes : List String} {bytes : ByteArray}

/-- The path of a file below a directory whose suffix is one of some, with what the file holds.  A
directory by such a name is none, but what lies in it may be. -/
def IsSource (files : FileTree) (directory : Path) (suffixes : List String) (p : Path)
    (bytes : ByteArray) : Prop :=
  files.Below directory p (.file bytes) ∧ p.suffix ∈ suffixes

/-- Whether an entry is no file that could not be read as text. -/
def Entry.isText : Entry → Bool
  | .file bytes => (String.fromUTF8? bytes).isSome
  | .directory => true

theorem IsSource.isText (h : IsSource files directory suffixes p bytes)
    (hall : files.entries.all (·.2.isText) = true) : String.fromUTF8? bytes ≠ none := by
  obtain ⟨k, hk⟩ := h.1.mem_entries
  have htext := List.all_eq_true.mp hall _ hk
  exact Option.isSome_iff_ne_none.mp htext

/-- The sources that are found are those that are there. -/
theorem mem_sourcesUnder (hr : ¬ files.Refuses directory) :
    p ∈ sourcesUnder files directory suffixes ↔
      ∃ bytes, IsSource files directory suffixes p bytes := by
  simp only [sourcesUnder, List.mem_mergeSort, List.mem_filter, FileTree.mem_filesUnder hr,
    List.contains_iff_mem, IsSource, exists_and_right]

/-- **Each source is found once, and they come in the order of their paths**, component by
component.  They all lie below one directory and so start with the same slashes, which the order
does not look at. -/
theorem sourcesUnder_increasing (files : FileTree) (directory : Path) (suffixes : List String) :
    (sourcesUnder files directory suffixes).Pairwise fun p q => p.parts < q.parts := by
  have hperm := List.mergeSort_perm
    ((files.filesUnder directory).filter fun p => suffixes.contains p.suffix) Path.le
  have hslashes : ∀ p ∈ sourcesUnder files directory suffixes, p.slashes = directory.slashes := by
    intro p hp
    have hp := List.mem_of_mem_filter (List.mem_of_mem_filter (hperm.mem_iff.mp hp))
    rcases FileTree.mem_pathsUnder.mp hp with ⟨e, l, names, -, -, -, rfl⟩ | ⟨rfl, -⟩ <;> rfl
  have hnodup : (sourcesUnder files directory suffixes).Nodup :=
    hperm.nodup_iff.mpr (((files.nodup_pathsUnder directory).filter _).filter _)
  have hsorted : (sourcesUnder files directory suffixes).Pairwise fun p q => p.le q = true := by
    refine List.pairwise_mergeSort Path.le_trans (fun p q => ?_) _
    exact (Bool.or_eq_true _ _).mpr (Path.le_total p q)
  refine (hsorted.and hnodup).imp_of_mem ?_
  intro p q hp hq h
  exact (Path.le_iff_lt ((hslashes p hp).trans (hslashes q hq).symm) h.2).mp h.1

/-- The order of the entries of a file tree does not matter. -/
theorem sourcesUnder_alike (h : files.Alike other) (hr : ¬ files.Refuses directory) :
    sourcesUnder files directory suffixes = sourcesUnder other directory suffixes := by
  have hnodup : ∀ t, (sourcesUnder t directory suffixes).Nodup := fun t => by
    refine (sourcesUnder_increasing t directory suffixes).imp ?_
    rintro p q hlt rfl
    exact List.lt_irrefl _ hlt
  have hperm := (List.perm_ext_iff_of_nodup (hnodup files) (hnodup other)).mpr fun p => by
    simp only [mem_sourcesUnder hr, mem_sourcesUnder (mt h.refuses_iff.mpr hr), IsSource,
      h.below_iff]
  refine hperm.eq_of_pairwise (fun p q _ _ hpq hqp => ?_) (sourcesUnder_increasing ..)
    (sourcesUnder_increasing ..)
  exact absurd hqp (List.lt_asymm hpq)

end Sources

/-! ## 3. Verdicts -/

/-- Reading unifies line ends itself, so it makes no difference to do so before. -/
theorem read_unify (s file : String) :
    read (String.ofList (Lines.unify s.toList)) file = read s file := by
  rw [read, read, Reader.ofText, Reader.ofText, String.toList_ofList, Lines.unify_unify]

/-- A text is read to a tree or rejected. -/
theorem read_eq_mapError (s file : String) :
    ∃ outcome : Except Rejection Tree, read s file = outcome.mapError .rejected := by
  rw [read_eq]
  cases (scanText s).offence? with
  | none => exact ⟨.ok _, rfl⟩
  | some o => exact ⟨.error _, rfl⟩

/-- **The tree of a file that is text is what reading its text gives**, named by the path.  The
source of the file has its line ends unified before it is read, which is no difference. -/
theorem loadTree_of_text {files : FileTree} {p : Path} {bytes : ByteArray} {s : String}
    (hb : files.readBytes p = .ok bytes) (hs : String.fromUTF8? bytes = some s) :
    loadTree files p = (read s p.shown).mapError .reading := by
  have hload : Source.load files p =
      .ok ⟨p.shown, String.ofList (Lines.unify (Lines.unify s.toList))⟩ := by
    simp [Source.load, FileTree.readText, FileTree.decode, hb, hs, bind, Except.bind, pure,
      Except.pure, Source.ofText]
  rw [loadTree, hload, Lines.unify_unify]
  simp only [read_unify]
  cases read s p.shown <;> rfl

namespace Verdict

variable {files other : FileTree} {p : Path} {bytes : ByteArray}

/-- **The verdict on a file that is text is what reading its text says**, whatever other files there
are.  The offence, if there is one, is reported in the file by the text of its path. -/
theorem ofFile_of_text {s : String} (hb : files.readBytes p = .ok bytes)
    (hs : String.fromUTF8? bytes = some s) :
    ∃ outcome, ofFile files p = .ok ⟨p, outcome⟩ ∧ read s p.shown = outcome.mapError .rejected := by
  obtain ⟨outcome, ho⟩ := read_eq_mapError s p.shown
  refine ⟨outcome, ?_, ho⟩
  rw [ofFile, loadTree_of_text hb hs, ho]
  cases outcome <;> rfl

theorem ofFile_of_not_text (hb : files.readBytes p = .ok bytes)
    (hs : String.fromUTF8? bytes = none) :
    ofFile files p = .error (.file .undecodable) := by
  simp [ofFile, loadTree, Source.load, FileTree.readText, FileTree.decode, hb, hs, bind,
    Except.bind]

theorem ofFile_alike (h : files.Alike other) : ofFile files = ofFile other := by
  funext p
  simp only [ofFile, loadTree, Source.load, h.readText_eq]

end Verdict

/-! ## 4. Reports -/

namespace Report

variable {files other : FileTree} {directory : Path} {suffixes : List String}

/-- What a report has to say of a directory: **it names each source once, in the order of the paths,
and says of it what reading its text alone says**.  That the sources are text is part of the last
field. -/
structure Tells (files : FileTree) (directory : Path) (suffixes : List String) (report : Report) :
    Prop where
  directory_eq : report.directory = directory
  mem_iff : ∀ p, p ∈ report.verdicts.map Verdict.path ↔
    ∃ bytes, IsSource files directory suffixes p bytes
  increasing : (report.verdicts.map Verdict.path).Pairwise fun p q => p.parts < q.parts
  alone : ∀ v ∈ report.verdicts, ∃ bytes s, IsSource files directory suffixes v.path bytes ∧
    String.fromUTF8? bytes = some s ∧ read s v.path.shown = v.outcome.mapError .rejected

theorem ofDirectory_of_refuses (hr : files.Refuses directory) :
    ofDirectory files directory suffixes = .error (.file .tooLong) := by
  rw [ofDirectory, FileTree.ifAllLooked, if_pos (FileTree.any_isTooLong_iff.mpr hr)]
  rfl

/-- Where everything can be looked at, the check goes through the sources. -/
theorem ofDirectory_eq (hr : ¬ files.Refuses directory) :
    ofDirectory files directory suffixes =
      ((sourcesUnder files directory suffixes).mapM (Verdict.ofFile files)).map
        (Report.mk directory) := by
  rw [ofDirectory, FileTree.ifAllLooked, if_neg (mt FileTree.any_isTooLong_iff.mp hr)]
  simp only [Except.mapError, bind, Except.bind, pure, Except.pure]
  cases (sourcesUnder files directory suffixes).mapM (Verdict.ofFile files) <;> rfl

/-- A source that is not text ends the check. -/
theorem ofDirectory_of_not_text (hr : ¬ files.Refuses directory) {p : Path} {bytes : ByteArray}
    (hp : IsSource files directory suffixes p bytes) (hs : String.fromUTF8? bytes = none) :
    ofDirectory files directory suffixes = .error (.file .undecodable) := by
  rw [ofDirectory_eq hr]
  cases hm : (sourcesUnder files directory suffixes).mapM (Verdict.ofFile files) with
  | ok verdicts =>
    -- every source has a verdict then, and this one has none
    have hmem := (mem_sourcesUnder hr).mpr ⟨bytes, hp⟩
    obtain ⟨v, -, hv⟩ := exists_of_forall₂ (mapM_ok_iff.mp hm).flip hmem
    rw [Verdict.ofFile_of_not_text (FileTree.readBytes_of_below hr hp.1) hs] at hv
    cases hv
  | error e =>
    obtain ⟨before, q, after, -, hsplit, -, hq⟩ := mapM_error_iff.mp hm
    obtain ⟨bytes', hb, -⟩ := (mem_sourcesUnder hr (p := q)).mp (by rw [hsplit]; simp)
    have hread := FileTree.readBytes_of_below hr hb
    cases hs' : String.fromUTF8? bytes' with
    | none =>
      rw [Verdict.ofFile_of_not_text hread hs'] at hq
      cases hq
      rfl
    | some s =>
      obtain ⟨outcome, ho, -⟩ := Verdict.ofFile_of_text hread hs'
      rw [ho] at hq
      cases hq

/-- **Where all the sources are text, there is a report that says of each what reading it alone
says.**  Whether a source can be read to a tree makes no difference to the others, as each has a
verdict of its own. -/
theorem ofDirectory_of_text (hr : ¬ files.Refuses directory)
    (htext : ∀ p bytes, IsSource files directory suffixes p bytes → String.fromUTF8? bytes ≠ none) :
    ∃ report, ofDirectory files directory suffixes = .ok report ∧
      report.Tells files directory suffixes := by
  have hverdict : ∀ p ∈ sourcesUnder files directory suffixes, ∃ v,
      Verdict.ofFile files p = .ok v := by
    intro p hp
    obtain ⟨bytes, hb⟩ := (mem_sourcesUnder hr).mp hp
    obtain ⟨s, hs⟩ := Option.ne_none_iff_exists'.mp (htext p bytes hb)
    obtain ⟨outcome, ho, -⟩ := Verdict.ofFile_of_text (FileTree.readBytes_of_below hr hb.1) hs
    exact ⟨_, ho⟩
  obtain ⟨verdicts, hm⟩ := exists_mapM_ok hverdict
  have hall := mapM_ok_iff.mp hm
  have hpath : ∀ p v, Verdict.ofFile files p = .ok v → p = v.path := by
    intro p v hv
    unfold Verdict.ofFile at hv
    split at hv <;> cases hv <;> rfl
  have hpaths : verdicts.map Verdict.path = sourcesUnder files directory suffixes :=
    (List.forall₂_eq_eq_eq ▸ List.forall₂_map_right_iff.mpr (hall.imp hpath)).symm
  refine ⟨⟨directory, verdicts⟩, ?_, rfl, ?_, ?_, ?_⟩
  · rw [ofDirectory_eq hr, hm]
    rfl
  · intro p
    rw [hpaths, mem_sourcesUnder hr]
  · rw [hpaths]
    exact sourcesUnder_increasing files directory suffixes
  · intro v hv
    obtain ⟨p, hp, hofFile⟩ := exists_of_forall₂ hall hv
    obtain ⟨bytes, hb⟩ := (mem_sourcesUnder hr).mp hp
    obtain ⟨s, hs⟩ := Option.ne_none_iff_exists'.mp (htext p bytes hb)
    obtain ⟨outcome, ho, hread⟩ := Verdict.ofFile_of_text (FileTree.readBytes_of_below hr hb.1) hs
    obtain rfl : v = ⟨p, outcome⟩ := by simpa [ho] using hofFile.symm
    exact ⟨bytes, s, hb, hs, hread⟩

/-- The order of the entries of a file tree does not matter. -/
theorem ofDirectory_alike (h : files.Alike other) :
    ofDirectory files directory suffixes = ofDirectory other directory suffixes := by
  by_cases hr : files.Refuses directory
  · rw [ofDirectory_of_refuses hr, ofDirectory_of_refuses (h.refuses_iff.mp hr)]
  · rw [ofDirectory_eq hr, ofDirectory_eq (mt h.refuses_iff.mpr hr), sourcesUnder_alike h hr,
      Verdict.ofFile_alike h]

/-- The two parts of a report: who passed and who failed, each in the order of the whole.  Neither
path stands in both, together they are as many as there are sources, and the report is in order just
if nobody failed. -/
structure Parted (report : Report) : Prop where
  passed_sublist : report.passed.Sublist report.verdicts
  failed_sublist : report.failed.Sublist report.verdicts
  passed_iff : ∀ v ∈ report.verdicts, v ∈ report.passed ↔ ∃ t, v.outcome = .ok t
  failed_iff : ∀ v ∈ report.verdicts, v ∈ report.failed ↔ ∃ e, v.outcome = .error e
  disjoint : (report.passed.map Verdict.path).Disjoint (report.failed.map Verdict.path)
  length_add : report.passed.length + report.failed.length = report.total
  ok_iff : report.ok = true ↔ report.failed = []

/-- **A report whose paths are all different falls into the two parts.** -/
theorem parted {report : Report} (h : (report.verdicts.map Verdict.path).Nodup) :
    report.Parted where
  passed_sublist := List.filter_sublist
  failed_sublist := List.filter_sublist
  passed_iff := by
    intro v hv
    cases ho : v.outcome <;> simp [passed, hv, Verdict.ok, ho, Except.toBool]
  failed_iff := by
    intro v hv
    cases ho : v.outcome <;> simp [failed, hv, Verdict.ok, ho, Except.toBool]
  disjoint := by
    intro p hp hf
    obtain ⟨v, hv, rfl⟩ := List.mem_map.mp hp
    obtain ⟨w, hw, hpath⟩ := List.mem_map.mp hf
    obtain ⟨hv, hok⟩ := List.mem_filter.mp hv
    obtain ⟨hw, hno⟩ := List.mem_filter.mp hw
    obtain rfl : w = v := List.inj_on_of_nodup_map h hw hv hpath
    rw [hok] at hno
    cases hno
  length_add := (List.length_eq_length_filter_add Verdict.ok).symm
  ok_iff := List.isEmpty_iff

/-- A report that tells of its directory falls into two parts, since its paths are in order and so
are all different. -/
theorem Tells.parted {report : Report} (h : report.Tells files directory suffixes) :
    report.Parted := by
  refine Report.parted (h.increasing.imp ?_)
  rintro p q hlt rfl
  exact List.lt_irrefl _ hlt

/-- **A check of a directory treats every file on its own.**  If the path of something below the
directory is too long for the system to look at it, the check ends with that failure, and no other
file is read.  Otherwise, if some source is not text in UTF-8, it ends with that one.  In all other
cases there is a report, which says of each source what reading it alone says, and falls into who
passed and who failed.  The order of the entries of the file tree does not matter. -/
theorem ofDirectory_isolates (files : FileTree) (directory : Path) (suffixes : List String) :
    (files.Refuses directory →
      ofDirectory files directory suffixes = .error (.file .tooLong)) ∧
    (¬ files.Refuses directory →
      (∃ p bytes, IsSource files directory suffixes p bytes ∧ String.fromUTF8? bytes = none) →
      ofDirectory files directory suffixes = .error (.file .undecodable)) ∧
    (¬ files.Refuses directory →
      (∀ p bytes, IsSource files directory suffixes p bytes → String.fromUTF8? bytes ≠ none) →
      ∃ report, ofDirectory files directory suffixes = .ok report ∧
        report.Tells files directory suffixes ∧ report.Parted) ∧
    ∀ other, files.Alike other →
      ofDirectory files directory suffixes = ofDirectory other directory suffixes := by
  refine ⟨ofDirectory_of_refuses, ?_, ?_, fun other h => ofDirectory_alike h⟩
  · rintro hr ⟨p, bytes, hp, hs⟩
    exact ofDirectory_of_not_text hr hp hs
  · intro hr htext
    obtain ⟨report, hok, htells⟩ := ofDirectory_of_text hr htext
    exact ⟨report, hok, htells, htells.parted⟩

/-- A directory with a file that is a tree and one that is not. -/
def mixedFiles : FileTree :=
  (((FileTree.empty []).put ["d"] .directory).put ["d", "b.plisp"] (.file "b".toUTF8)).put
    ["d", "a.plisp"] (.file ")".toUTF8)

theorem ofDirectory_isolates_mixed :
    ¬ mixedFiles.Refuses (.ofText "d") ∧
    (∀ p bytes, IsSource mixedFiles (.ofText "d") [".plisp"] p bytes →
      String.fromUTF8? bytes ≠ none) ∧
    ∃ report, ofDirectory mixedFiles (.ofText "d") [".plisp"] = .ok report ∧
      report.Tells mixedFiles (.ofText "d") [".plisp"] ∧ report.Parted := by
  have hr : ¬ mixedFiles.Refuses (.ofText "d") := by decide +kernel
  have htext : ∀ p bytes, IsSource mixedFiles (.ofText "d") [".plisp"] p bytes →
      String.fromUTF8? bytes ≠ none := by
    intro p bytes hp
    exact hp.isText (by decide +kernel)
  exact ⟨hr, htext, (ofDirectory_isolates mixedFiles (.ofText "d") [".plisp"]).2.2.1 hr htext⟩

/-- A directory with an empty file. -/
def farFiles : FileTree :=
  ((FileTree.empty []).put ["dddddddddddddddddddddddddddddd"] .directory).put
    ["dddddddddddddddddddddddddddddd", "aaaaaaaaaaaaaaaaaaaaaaaaa.plisp"] (.file .empty)

/-- A roundabout way to the directory, almost as long as a path may be. -/
def farDirectory : Path :=
  ⟨0, "dddddddddddddddddddddddddddddd" ::
    (List.replicate 119 ["..", "dddddddddddddddddddddddddddddd"]).flatten⟩

/-- **A file that is text may be too far away**: the path of the directory can be looked at, and the
path of the file below it cannot. -/
theorem ofDirectory_too_far :
    farFiles.isDirectory farDirectory = true ∧
    (∀ p bytes, IsSource farFiles farDirectory [".plisp"] p bytes → String.fromUTF8? bytes ≠ none) ∧
    ofDirectory farFiles farDirectory [".plisp"] = .error (.file .tooLong) := by
  have hr : farFiles.Refuses farDirectory := by decide +kernel
  refine ⟨by decide +kernel, ?_, ofDirectory_of_refuses hr⟩
  intro p bytes hp
  exact hp.isText (by decide +kernel)

/-! ## 5. Projects -/

section Projects

variable {project : Path} {names : List String} {settings : Settings}

/-- The directories that names stand for: seen from the project, or the project itself. -/
def fixtureDirectories (project : Path) : List String → List Path
  | [] => [project]
  | names => names.map fun name => project.join (.ofText name)

theorem fixtures?_eq (h : settings.fixtureDirs = .array (names.map .string)) :
    Settings.fixtures? project settings = some (fixtureDirectories project names) := by
  have hnames : ∀ names : List String,
      (names.map Toml.Value.string).mapM Settings.text? = some names := by
    intro names
    induction names with
    | nil => rfl
    | cons name names ih =>
      rw [List.map_cons, List.mapM_cons, ih]
      rfl
  rw [Settings.fixtures?, h, Settings.directories?, hnames, Option.map_some]
  cases names <;> rfl

theorem suffixes?_eq : Settings.suffixes? (.array (suffixes.map .string)) = some suffixes := by
  have hopen : (suffixes.map Toml.Value.string).any Toml.isClosed = false := by
    simp [Toml.isClosed]
  have htexts : (suffixes.map Toml.Value.string).filterMap Settings.text? = suffixes := by
    simp [List.filterMap_map, Function.comp_def, Settings.text?]
  simp [Settings.suffixes?, hopen, htexts]

/-- **One directory of a project**: where something is too long to be looked at, where there is no
directory, and where there is a report. -/
theorem ofFixture_of_refuses (hr : files.Refuses directory) :
    ofFixture files (.array (suffixes.map .string)) directory =
      .error (.load (.file .tooLong)) := by
  by_cases hlong : files.isTooLong directory = true
  · simp [ofFixture, FileTree.ifLooked, hlong, Except.mapError, bind, Except.bind]
  · have hdir : files.isDirectory directory = true := by
      obtain h | ⟨p, e, ⟨l, names, hd, -⟩, -⟩ := hr
      · exact absurd h hlong
      · simp [FileTree.isDirectory, hd]
    simp [ofFixture, FileTree.ifLooked, hlong, hdir, suffixes?_eq, ofDirectory_of_refuses hr,
      Except.mapError, bind, Except.bind]

theorem ofFixture_of_missing (hr : ¬ files.Refuses directory)
    (hdir : files.isDirectory directory = false) :
    ofFixture files (.array (suffixes.map .string)) directory = .error (.missing directory) := by
  have hlong : ¬ files.isTooLong directory = true := fun h => hr (.inl h)
  simp [ofFixture, FileTree.ifLooked, hlong, hdir, Except.mapError, bind, Except.bind]

theorem ofFixture_of_text (hr : ¬ files.Refuses directory)
    (hdir : files.isDirectory directory = true)
    (htext : ∀ p bytes, IsSource files directory suffixes p bytes → String.fromUTF8? bytes ≠ none) :
    ∃ report, ofFixture files (.array (suffixes.map .string)) directory = .ok report ∧
      report.Tells files directory suffixes := by
  have hlong : ¬ files.isTooLong directory = true := fun h => hr (.inl h)
  obtain ⟨report, hok, htells⟩ := ofDirectory_of_text hr htext
  refine ⟨report, ?_, htells⟩
  simp [ofFixture, FileTree.ifLooked, hlong, hdir, suffixes?_eq, hok, Except.mapError, bind,
    Except.bind]

/-- A project with names for its directories is checked one directory after the other. -/
theorem ofProject_eq (hnames : settings.fixtureDirs = .array (names.map .string))
    (hsuffixes : settings.extensions = .array (suffixes.map .string)) :
    ofProject files project settings =
      (fixtureDirectories project names).mapM
        (ofFixture files (.array (suffixes.map .string))) := by
  rw [ofProject, fixtures?_eq hnames, hsuffixes]

/-- **The first directory that cannot be checked ends the check**, with what ended the check of that
directory.  Nothing is said by the project of the directories before it, although they were
checked. -/
theorem ofProject_of_first (hnames : settings.fixtureDirs = .array (names.map .string))
    (hsuffixes : settings.extensions = .array (suffixes.map .string)) {before after : List Path}
    {e : CheckError} (hsplit : fixtureDirectories project names = before ++ directory :: after)
    (hbefore : ∀ b ∈ before, ∃ report,
      ofFixture files (.array (suffixes.map .string)) b = .ok report)
    (he : ofFixture files (.array (suffixes.map .string)) directory = .error e) :
    ofProject files project settings = .error e := by
  obtain ⟨reports, hreports⟩ := exists_mapM_ok hbefore
  rw [ofProject_eq hnames hsuffixes]
  exact mapM_error_iff.mpr ⟨before, directory, after, reports, hsplit, hreports, he⟩

/-- **Where all of them can be checked, there is a report on each**, in the order of the
settings. -/
theorem ofProject_of_all (hnames : settings.fixtureDirs = .array (names.map .string))
    (hsuffixes : settings.extensions = .array (suffixes.map .string))
    (hall : ∀ d ∈ fixtureDirectories project names, ∃ report,
      ofFixture files (.array (suffixes.map .string)) d = .ok report ∧
        report.Tells files d suffixes) :
    ∃ reports, ofProject files project settings = .ok reports ∧
      List.Forall₂ (fun d report => Tells files d suffixes report)
        (fixtureDirectories project names) reports := by
  obtain ⟨reports, hreports⟩ := exists_mapM_ok fun d hd => by
    obtain ⟨report, hok, -⟩ := hall d hd
    exact ⟨report, hok⟩
  refine ⟨reports, (ofProject_eq hnames hsuffixes).trans hreports, ?_⟩
  have hboth := (List.forall₂_and_left _ _).mpr ⟨fun d hd => hd, mapM_ok_iff.mp hreports⟩
  refine hboth.imp ?_
  rintro d report ⟨hd, hok⟩
  obtain ⟨report', hok', htells⟩ := hall d hd
  obtain rfl : report' = report := by simpa using hok'.symm.trans hok
  exact htells

end Projects

end Report

end IndentLisp
