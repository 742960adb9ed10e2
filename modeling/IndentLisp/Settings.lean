/-
# Project settings

A project is governed by a file of settings in its directory or above it (section 7).  **The nearest
such file governs** (`Settings.search`, the operation `find_config`), and what it does not set is as
it is when nothing is set.

Settings are taken over as they are written, of whatever type, and are only looked at when they are
used.  A color that is a number is a color that is on or off as the number is zero; a text where a
list of names is expected names one directory for each of its characters.  Nothing is checked when
the file is loaded, save that a section is a section.  This is why the fields of `Settings` are TOML
values, and why reading a list of names off one can fail (`directories?`, `suffixes?`).

The search starts where a path leads on paper, at the directory that it names or that the file lies
in, and goes up to the root.  It looks for an entry of the name, be it a file or a directory; one
that is no file is found all the same, and loading it is what fails.  A place where the system
cannot look ends the search.

* `Settings.ofText`, `Settings.load`: settings from a document, and from a file (`load_config`).
* `Settings.search`: the nearest file of settings.
* `Settings.governing`: the directory that governs a path, with its settings.
* `Settings.fixtures?`, `Settings.suffixes?`: what a check needs of them.
-/
import IndentLisp.Files.Tree
import IndentLisp.Toml.Document

namespace IndentLisp

/-- The settings of a project, with the values that hold when nothing is set. -/
structure Settings where
  name : Toml.Value := .string "untitled"
  version : Toml.Value := .string "0.0.0"
  extensions : Toml.Value := .array [.string ".plisp"]
  fixtureDirs : Toml.Value := .array []
  color : Toml.Value := .boolean true

/-- Why settings could not be loaded. -/
inductive SettingsError where
  /-- The file could not be read. -/
  | file (e : FileError)
  /-- The file is no TOML document that can be read. -/
  | document (fault : Toml.Fault)
  /-- What should be a section is some other value. -/
  | noSection (name : String)
deriving DecidableEq, Repr

namespace Settings

/-- The name of a file of settings. -/
def fileName : String := "piklisp.toml"

end Settings

/-- The wording of a failure. -/
def SettingsError.message : SettingsError → String
  | .file e => Settings.fileName ++ ": " ++ e.message
  | .document .malformed => Settings.fileName ++ ": malformed"
  | .document .tooManyDigits => Settings.fileName ++ ": a number has too many digits"
  | .noSection name => Settings.fileName ++ ": " ++ name ++ " is no section"

namespace Settings

/-! ## 1. Loading -/

/-- A section of a document: its fields if it is a table, and nothing if there is none. -/
def section? (data : Toml.Table) (name : String) : Except SettingsError (Option Toml.Table) :=
  match data.lookup name with
  | none => .ok none
  | some v =>
    match v.table? with
    | some t => .ok (some t)
    | none => .error (.noSection name)

/-- A field of a section, or what it is otherwise. -/
def fieldOr (section? : Option Toml.Table) (name : String) (otherwise : Toml.Value) : Toml.Value :=
  (section?.bind (·.lookup name)).getD otherwise

/-- The settings that a document holds.  The three sections are looked at in this order, and the
first that is none ends it; any other section, and any other field, is passed over. -/
def ofTable (data : Toml.Table) : Except SettingsError Settings := do
  let package ← section? data "package"
  let check ← section? data "check"
  let style ← section? data "style"
  let unset : Settings := {}
  return {
    name := fieldOr package "name" unset.name
    version := fieldOr package "version" unset.version
    extensions := fieldOr check "extensions" unset.extensions
    fixtureDirs := fieldOr check "fixture_dirs" unset.fixtureDirs
    color := fieldOr style "color" unset.color }

/-- The settings that a text holds. -/
def ofText (text : String) : Except SettingsError Settings :=
  match Toml.parse text with
  | .error fault => .error (.document fault)
  | .ok data => ofTable data

/-- The settings in a file: the operation `load_config`. -/
def load (files : FileTree) (p : Path) : Except SettingsError Settings :=
  match files.readBytes p >>= FileTree.decode with
  | .error e => .error (.file e)
  | .ok text => ofText text

/-! ## 2. Finding -/

/-- A location and all those above it, the deepest first; the root is the last. -/
def ancestors (l : Location) : List Location :=
  (List.range (l.length + 1)).reverse.map l.take

/-- The directory that a path stands for: the path itself, or where the file that it names is. -/
def directoryOf (files : FileTree) (p : Path) : Location :=
  let l := files.resolve p
  if files.isFile (.ofLocation l) then l.dropLast else l

/-- The path of a file of settings in a directory. -/
def fileIn (directory : Location) : Path :=
  .ofLocation (directory ++ [fileName])

/-- The first file of settings that is in one of some directories.  The search fails where the
system cannot look whether one is there. -/
def firstIn (files : FileTree) : List Location → Except FileError (Option Path)
  | [] => .ok none
  | l :: ls =>
    match files.ifLooked (fileIn l) (files.holds (fileIn l)) with
    | .error e => .error e
    | .ok true => .ok (some (fileIn l))
    | .ok false => firstIn files ls

/-- The nearest file of settings, in the directory of a path or above it: the operation
`find_config`.  The path need not be there, but the system has to be able to look where it leads. -/
def search (files : FileTree) (p : Path) : Except FileError (Option Path) :=
  if p.holdsNull then .error .nullInPath
  else if files.isTooLong (.ofLocation (files.resolve p)) then .error .tooLong
  else firstIn files (ancestors (directoryOf files p))

/-- The wording for a search that finds nothing. -/
def notFound : String :=
  "No " ++ fileName ++ " found in any parent directory"

/-- The directory that governs a path, with its settings (`_load_project`).  Where nothing governs
it, the path itself goes by the settings that hold when nothing is set. -/
def governing (files : FileTree) (p : Path) : Except SettingsError (Path × Settings) :=
  match search files p with
  | .error e => .error (.file e)
  | .ok none => .ok (p, {})
  | .ok (some file) => do return (file.parent, ← load files file)

/-! ## 3. Using -/

/-- Each character of a text as a text. -/
def characters (s : String) : List String :=
  s.toList.map String.singleton

/-- The text that a value is. -/
def text? : Toml.Value → Option String
  | .string s => some s
  | _ => none

/-- The directories that a setting names.  A text names one for each of its characters, and a table
one for each of its fields. -/
def directories? : Toml.Value → Option (List String)
  | .string s => some (characters s)
  | .array items => items.mapM text?
  | .table fields => some (fields.map Prod.fst)
  | _ => none

/-- The directories that settings name, as seen from the project's own, or else its own alone. -/
def fixtures? (project : Path) (settings : Settings) : Option (List Path) :=
  (directories? settings.fixtureDirs).map fun
    | [] => [project]
    | names => names.map fun name => project.join (.ofText name)

/-- The suffixes that a setting names, as `directories?` reads it, except that other plain values in
an array are passed over. -/
def suffixes? : Toml.Value → Option (List String)
  | .string s => some (characters s)
  | .array items =>
    if items.any Toml.isClosed then none else some (items.filterMap text?)
  | .table fields => some (fields.map Prod.fst)
  | _ => none

end Settings

end IndentLisp
