/-
# Checking files

Reads every source file below a directory (section 8, the batch driver).  **Each file stands for
itself**: one that cannot be read as a tree fails alone, and the check goes on with the next.

What the specification promises of a batch is that a `ParseError` becomes a failed result and
nothing else.  Two things are none: a file that is no text, and a path that is too long for the
system to look at.  They end the whole check, with no report on the files before.  So a check
answers with a report or with the failure that ended it, and the two are kept apart from a report
that holds failed files.

All files of a directory are found and sorted before the first is read.  A report lists them in the
order of their paths, whether they passed or failed, each with its tree or with the rejection that
reading it ended with; the parts that passed and that failed, and the numbers, are read off the
list.

A project names its directories in its settings, or is the one directory itself.  They are checked
in the order of the settings, and the first that is not there, or that cannot be checked, ends the
run.

* `loadTree`: the tree of a file (`parse_file`).
* `Report.ofDirectory`: the report on a directory (`check_directory`).
* `Report.ofProject`: the reports on a project (`check_project`).
-/
import IndentLisp.Settings
import IndentLisp.Diagnostic.Renderer
import IndentLisp.Reader.Basic

namespace IndentLisp

/-! ## 1. One file -/

/-- Why there is no tree for a file. -/
inductive LoadError where
  /-- The file could not be read as text. -/
  | file (e : FileError)
  /-- The text could not be read as a tree. -/
  | reading (e : ReadFailure)
deriving DecidableEq, Repr

/-- The wording of a failure. -/
def LoadError.message : LoadError → String
  | .file e => e.message
  | .reading e => e.message

/-- The tree of a file: the operation `parse_file`.  The name that its spans carry is the text of
the path. -/
def loadTree (files : FileTree) (p : Path) : Except LoadError Tree :=
  match Source.load files p with
  | .error e => .error (.file e)
  | .ok source =>
    match read source.content source.name with
    | .error e => .error (.reading e)
    | .ok t => .ok t

/-! ## 2. One directory -/

/-- What the check says of a file: its tree, or why there is none.  The specification calls it
`FileResult`. -/
structure Verdict where
  path : Path
  outcome : Except Rejection Tree

/-- Whether there is a tree. -/
def Verdict.ok (r : Verdict) : Bool :=
  r.outcome.toBool

/-- Why there is none. -/
def Verdict.diagnostic? (r : Verdict) : Option Diagnostic :=
  match r.outcome with
  | .ok _ => none
  | .error e => some e.diagnostic

/-- The verdicts on the files below a directory: a `BatchReport`. -/
structure Report where
  directory : Path
  verdicts : List Verdict

namespace Report

/-- The number of files. -/
def total (r : Report) : Nat := r.verdicts.length

/-- The verdicts with a tree. -/
def passed (r : Report) : List Verdict := r.verdicts.filter Verdict.ok

/-- The verdicts without one. -/
def failed (r : Report) : List Verdict := r.verdicts.filter (!·.ok)

/-- Whether no file failed.  A report without files is one in which none failed. -/
def ok (r : Report) : Bool := r.failed.isEmpty

end Report

/-- The files below a directory that have one of some suffixes, in the order of their paths: the
operation `collect_sources`. -/
def sourcesUnder (files : FileTree) (directory : Path) (suffixes : List String) : List Path :=
  ((files.filesUnder directory).filter fun p => suffixes.contains p.suffix).mergeSort Path.le

/-- The verdict on a file.  Only an offence in its text makes it a failed one; any other failure is
one of the check. -/
def Verdict.ofFile (files : FileTree) (p : Path) : Except LoadError Verdict :=
  match loadTree files p with
  | .ok t => .ok ⟨p, .ok t⟩
  | .error (.reading (.rejected e)) => .ok ⟨p, .error e⟩
  | .error e => .error e

/-- The report on the files below a directory that have one of some suffixes: the operation
`check_directory`.  All of them are found before the first is read. -/
def Report.ofDirectory (files : FileTree) (directory : Path) (suffixes : List String) :
    Except LoadError Report := do
  let sources ← (files.ifAllLooked directory (sourcesUnder files directory suffixes)).mapError .file
  return ⟨directory, ← sources.mapM (Verdict.ofFile files)⟩

/-! ## 3. One project -/

/-- Why a project could not be checked. -/
inductive CheckError where
  /-- A directory that the settings name is not there. -/
  | missing (directory : Path)
  /-- A setting is not a list of names. -/
  | setting
  /-- A file could not be read. -/
  | load (e : LoadError)
deriving DecidableEq, Repr

/-- The wording of a failure. -/
def CheckError.message : CheckError → String
  | .missing directory => "fixture directory not found: " ++ directory.shown
  | .setting => "a setting is no list of names"
  | .load e => e.message

/-- The report on one of the directories of a project.  It has to be there, and the setting that
names the suffixes is looked at only then. -/
def Report.ofFixture (files : FileTree) (extensions : Toml.Value) (directory : Path) :
    Except CheckError Report := do
  if ← (files.ifLooked directory (files.isDirectory directory)).mapError (.load ∘ .file) then
    match Settings.suffixes? extensions with
    | none => .error .setting
    | some suffixes => (Report.ofDirectory files directory suffixes).mapError .load
  else .error (.missing directory)

/-- The reports on the directories that the settings of a project name, or else on its own, in
order: the operation `check_project`.  The first directory that cannot be checked ends the check. -/
def Report.ofProject (files : FileTree) (project : Path) (settings : Settings) :
    Except CheckError (List Report) :=
  match Settings.fixtures? project settings with
  | none => .error .setting
  | some directories => directories.mapM (Report.ofFixture files settings.extensions)

end IndentLisp
