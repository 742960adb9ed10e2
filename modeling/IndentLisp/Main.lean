/-
# The program

Fetches the files that a command line is about into a file tree, runs the command line on that, and
prints what comes out.  **Only what can matter is fetched**: the operand, the files of settings that
could govern it, and, below each directory to check, the files with a suffix that counts.

This is the one module that acts on the world, and it decides nothing: the run itself is a function
of the file tree (`CommandLine.run`), and so is what it prints.  What is to be fetched depends on
the settings, which are fetched first; after that the same functions that the run will ask tell
which directories and which suffixes count.  Where they fail, nothing more is fetched, and the run
fails in the same way.

A file that is not there is left out, and the run finds it missing.  Links are not followed below a
directory, so a directory is entered once.  Colors are shown where a stream is a terminal.
-/
import IndentLisp.CommandLine.Run

namespace IndentLisp.Program

/-- Fetches a file, or a directory without what lies in it, if it is there.  A place that the tree
cannot hold is left out. -/
def fetch (files : FileTree) (p : Path) : IO FileTree := do
  let place := (← IO.currentDir) / p.shown
  if ← place.isDir then
    return (files.makeDirectory p).toOption.getD files
  else if ← place.pathExists then
    return (files.write p (← IO.FS.readBinFile place)).toOption.getD files
  else return files

/-- Fetches the files below a directory, at any depth, that have one of some suffixes. -/
partial def fetchUnder (suffixes : List String) (files : FileTree) (p : Path) : IO FileTree := do
  let entries ← ((← IO.currentDir) / p.shown).readDir
  entries.foldlM (fun files entry => do
    let q := p.extend [entry.fileName]
    let info ← entry.path.symlinkMetadata
    if info.type == .dir then fetchUnder suffixes files q
    else if suffixes.contains q.suffix then fetch files q
    else return files) files

/-- Fetches what the check of a directory reads: the settings say which directories it reads and
which suffixes count. -/
def fetchProject (files : FileTree) (p : Path) : IO FileTree := do
  match Settings.governing files p with
  | .error _ => return files
  | .ok (project, settings) =>
    let directories := (settings.fixtures? project).getD []
    let suffixes := (Settings.suffixes? settings.extensions).getD []
    directories.foldlM (fun files directory => do
      let files ← fetch files directory
      if files.isDirectory directory then fetchUnder suffixes files directory
      else return files) files

/-- Fetches what a run with some arguments reads.  Arguments that make no sense read nothing. -/
def fetchAll (args : List String) : IO FileTree := do
  let here := (Path.ofText (← IO.currentDir).toString).parts
  let files ← fetch (.empty here) (.ofLocation here)
  match CommandLine.operand? args with
  | none => return files
  | some operand =>
    let p := Path.ofText operand
    let files ← fetch files p
    let files ← (Settings.ancestors (Settings.directoryOf files p)).foldlM
      (fun files l => fetch files (Settings.fileIn l)) files
    if files.isDirectory p then fetchProject files p else return files

end IndentLisp.Program

/-- Runs the program, and answers its exit code. -/
def main (args : List String) : IO UInt32 := do
  let outcome := IndentLisp.CommandLine.run (← IndentLisp.Program.fetchAll args) args
  let out ← IO.getStdout
  let err ← IO.getStderr
  let outColor ← out.isTty
  let errColor ← err.isTty
  for (stream, text) in outcome.texts fun | .out => outColor | .err => errColor do
    match stream with
    | .out => out.putStr text
    | .err => err.putStr text
  match outcome.ending with
  | .exit code => return code.toUInt32
  | .failed e =>
    err.putStrLn ("error: " ++ e.message)
    return 1
