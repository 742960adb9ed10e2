/-
# Running a command line

What the program prints for some arguments, and how it ends, as a function of the file tree (section
11).  Output is a sequence of texts, each to one of two streams; escape sequences are removed from
all of it when it goes anywhere but to a terminal (`Outcome.texts`), and not before, so what is
printed does not depend on where it goes.

A run is an `Action`: it prints, and goes on with an answer or ends.  It ends in one of two ways,
with an exit code or with a failure that no command expects (`Ending`).  The exit code is 0 where
all is well, 1 where a text could not be read, and 2 where the arguments make no sense.  A failure
is what the section leaves unsaid: settings that cannot be loaded, a file that is no text, a name
that cannot be a path.  **Such a failure ends the run where it comes up**, and what was printed
before it stays printed.

* `treeOrExit`: the tree of a file, or the report of its offence (`_parse_or_exit`).
* `checkDirectories`: `check` of a directory: the project, its reports, and the exit code.
* `runCommand`: the four commands, each on an operand that is known to fit.
* `run`: all of it, from the arguments on.

The settings that govern a file are looked for before the file is read (`_load_project`), for `view`
and `format` as well, though all that they decide there is whether a report is in color.
`highlight` reads no settings.
-/
import IndentLisp.Check
import IndentLisp.CommandLine.Usage
import IndentLisp.Highlight.Piece

namespace IndentLisp.CommandLine

/-! ## 1. Output -/

/-- Where output goes: reports and summaries of what failed to one stream, all else to the other. -/
inductive Stream where
  | out
  | err
deriving DecidableEq, Repr

/-- A failure that no command expects: of the settings, of a check, of a text, or of a file. -/
inductive Failure where
  | settings (e : SettingsError)
  | check (e : CheckError)
  | load (e : LoadError)
  | file (e : FileError)
deriving DecidableEq, Repr

/-- The wording of a failure. -/
def Failure.message : Failure → String
  | .settings e => e.message
  | .check e => e.message
  | .load e => e.message
  | .file e => e.message

/-- How a run ends: with an exit code, or with a failure that no command expects. -/
inductive Ending where
  | exit (code : Nat)
  | failed (f : Failure)
deriving DecidableEq, Repr

/-- The texts printed, in order, and the end. -/
structure Outcome where
  printed : List (Stream × String)
  ending : Ending

namespace Outcome

/-- The texts printed, each with its escape sequences only where its stream takes them. -/
def texts (o : Outcome) (color : Stream → Bool) : List (Stream × String) :=
  o.printed.map fun (stream, text) =>
    (stream, if color stream then text else Terminal.strip text)

/-- All that went to a stream, with escape sequences if `color` is on. -/
def text (o : Outcome) (color : Bool) (stream : Stream) : String :=
  String.join (((o.texts fun _ => color).filter fun (s, _) => s = stream).map Prod.snd)

end Outcome

/-- What a run does: it prints, and goes on with an answer or ends.  The texts are kept latest
first. -/
abbrev Action := EStateM Ending (List (Stream × String))

/-- Prints a text as it is, without a line end of its own. -/
def put (stream : Stream) (s : String) : Action Unit :=
  modify fun printed => (stream, s) :: printed

/-- Prints a line. -/
def say (stream : Stream) (s : String) : Action Unit :=
  put stream (s ++ "\n")

/-- Ends the run with an exit code. -/
def exit {α : Type} (code : Nat) : Action α :=
  throw (.exit code)

/-- Ends the run with a failure that no command expects, if it is one. -/
def expect {ε α : Type} (wrap : ε → Failure) : Except ε α → Action α
  | .ok a => pure a
  | .error e => throw (.failed (wrap e))

/-- All of what a run does.  A run that does not end itself ends well. -/
def Action.outcome (act : Action Unit) : Outcome :=
  match act [] with
  | .ok _ printed => ⟨printed.reverse, .exit 0⟩
  | .error ending printed => ⟨printed.reverse, ending⟩

/-! ## 2. Commands -/

/-- Prints a diagnostic with a renderer, which is then the one to go on with: it knows the files
that it has read. -/
def sayDiagnostic (files : FileTree) (r : Renderer) (d : Diagnostic) : Action Renderer :=
  match Renderer.render files d r with
  | .ok text r => do
    say .err text
    return r
  | .error e _ => throw (.failed (.file e))

/-- A renderer for a project: in color if the settings say so and no option says otherwise. -/
def rendererFor (settings : Settings) (noColor : Bool) : Renderer :=
  .ofTexts (settings.color.isTruthy && !noColor) []

/-- The tree of a file; an offence in its text is reported and ends the run (`_parse_or_exit`).  A
file that cannot be read is not reported; it is a failure. -/
def treeOrExit (files : FileTree) (file : String) (noColor : Bool) : Action Tree := do
  let path := Path.ofText file
  let (_, settings) ← expect .settings (Settings.governing files path)
  match loadTree files path with
  | .ok t => return t
  | .error (.reading (.rejected e)) =>
    let _ ← sayDiagnostic files (rendererFor settings noColor) e.diagnostic
    exit 1
  | .error e => throw (.failed (.load e))

/-- The warning for a directory without sources.  It does not change the exit code. -/
def noSources (directory : Path) : Diagnostic where
  severity := .warning
  code := "W001"
  message := "no source files found in " ++ directory.shown

/-- Prints a report: each failed file's diagnostic, a warning if there was no file, the count, and
the paths of the failed files.  The count goes to another stream than the rest. -/
def sayReport (files : FileTree) (r : Renderer) (report : Report) : Action Renderer := do
  let r ← (report.verdicts.filterMap Verdict.diagnostic?).foldlM (sayDiagnostic files) r
  let r ← if report.total = 0 then sayDiagnostic files r (noSources report.directory) else pure r
  say .out ("parsed " ++ toString report.passed.length ++ "/" ++ toString report.total ++
    " files in " ++ report.directory.shown)
  unless report.ok do
    say .err ("failed: " ++ ", ".intercalate (report.failed.map (·.path.shown)))
  return r

/-- Checks a directory's project.  All reports are made before the first is printed, so a directory
that is not there is all that is reported; one renderer serves them all. -/
def checkDirectories (files : FileTree) (path : Path) (noColor : Bool) : Action Unit := do
  let (project, settings) ← expect .settings (Settings.governing files path)
  match Report.ofProject files project settings with
  | .error (.missing directory) =>
    say .err ("error: " ++ (CheckError.missing directory).message)
    exit 1
  | .error e => throw (.failed (.check e))
  | .ok reports =>
    let _ ← reports.foldlM (sayReport files) (rendererFor settings noColor)
    unless reports.all Report.ok do exit 1

/-- Runs a command on its operand.  `check` of a file says that the file was read, and of a
directory what became of each; `format` prints one form after the other, and `view` one entry after
the other. -/
def runCommand (files : FileTree) (operand : String) (noColor : Bool) : Command → Action Unit
  | .check => do
    if files.isFile (.ofText operand) then
      let _ ← treeOrExit files operand noColor
      say .out ("parsed " ++ operand)
    else checkDirectories files (.ofText operand) noColor
  | .format => do
    let t ← treeOrExit files operand false
    t.formData.forM fun d => say .out d.classic
  | .highlight => do
    let text ← expect .file (files.readText (.ofText operand))
    put .out (Highlight.display text)
  | .view => do
    let t ← treeOrExit files operand false
    (t.data.listing 0).forM (say .out)

/-! ## 3. Arguments -/

/-- Reports a usage error and ends the run. -/
def refuse {α : Type} (topic : Topic) (e : UsageError) : Action α := do
  say .err (e.report topic)
  exit 2

/-- Sorts arguments, or reports what is wrong with them. -/
def sortOrRefuse (topic : Topic) (mixed : Bool) (args : List String) : Action Arguments :=
  match sortArguments ((options topic).map Prod.fst) mixed args with
  | .ok sorted => pure sorted
  | .error e => refuse topic e

/-- Answers the first option that asks for the version or for help, and ends the run then.  An
option that asks for neither is left for the command. -/
def answerOptions (topic : Topic) (options : List String) : Action Unit :=
  match options.find? fun o => o = "--version" ∨ o = "--help" with
  | none => pure ()
  | some o => do
    say .out (if o = "--help" then help topic else program ++ ", version " ++ version)
    exit 0

/-- What is wrong with the operand of a command, once it is known to be a path.  To `check`, a
directory is as good as a file. -/
def operandError? (files : FileTree) (c : Command) (operand : String) : Option UsageError :=
  match c, files.look? operand with
  | .check, none => some (.noSuchPath operand)
  | .check, some _ => none
  | _, none => some (.noSuchFile operand)
  | _, some .directory => some (.isDirectory operand)
  | _, some (.file _) => none

/-- Runs a command with its arguments. -/
def runArguments (files : FileTree) (c : Command) (args : List String) : Action Unit := do
  let sorted ← sortOrRefuse (some c) true args
  answerOptions (some c) sorted.options
  let (operand, extra) ←
    match sorted.operands with
    | operand :: extra => pure (operand, extra)
    | [] =>
      match c.otherwise? with
      | some operand => pure (operand, [])
      | none => refuse (some c) .missingFile
  if (Path.ofText operand).holdsNull then throw (.failed (.file .nullInPath))
  match operandError? files c operand with
  | some e => refuse (some c) e
  | none => pure ()
  match extra with
  | a :: others => refuse (some c) (.unexpected a others)
  | [] => runCommand files operand (sorted.options.contains "--no-color") c

/-- Runs the program.  Where the first operand is no command, options that two hyphens kept from
being read are read after all. -/
def runProgram (files : FileTree) (args : List String) : Action Unit := do
  if args = [] then
    say .err (help none)
    exit 2
  let sorted ← sortOrRefuse none false args
  answerOptions none sorted.options
  match sorted.operands with
  | [] => refuse none .missingCommand
  | name :: rest =>
    match Command.ofName? name with
    | some c => runArguments files c rest
    | none =>
      let sorted ← sortOrRefuse none false (name :: rest)
      answerOptions none sorted.options
      refuse none (.noSuchCommand name (Similarity.among (Command.all.map Command.name) name))

/-- The operand of the command that some arguments name, where they make that much sense. -/
def operand? (args : List String) : Option String :=
  match sortArguments ((options none).map Prod.fst) false args with
  | .ok ⟨_, name :: rest⟩ => do
    let c ← Command.ofName? name
    let sorted ← (sortArguments ((options (some c)).map Prod.fst) true rest).toOption
    sorted.operands.head?.or c.otherwise?
  | _ => none

/-- What the program prints for some arguments, and how it ends. -/
def run (files : FileTree) (args : List String) : Outcome :=
  (runProgram files args).outcome

end IndentLisp.CommandLine
