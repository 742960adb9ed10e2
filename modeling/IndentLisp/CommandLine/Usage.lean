/-
# How the command line is used

The commands with their help texts, and the reading of arguments (section 11): which of them are
options, which are operands, and what is wrong with them.  There are four commands, `check`, `view`,
`format` and `highlight`, and one option of the program beside the one for help, `--version`.

What a text of help is about is a `Topic`, the program or one of its commands, and everything that
is printed about a topic follows from its name, its operand, its purpose and its options.  So the
texts of help and the reports of usage errors are put together here and are not written out.

**Options are read before anything is done with them**, so an unknown option is an error even where
help is asked for as well; and help that is asked for comes before any error in an operand.  The
options of a command may stand among its operands (`mixed`), and those of the program end where its
first operand stands, which names the command.  What is unknown is reported with the known words
that are like it (`Similarity.among`), in the order of likeness.

* `help`, `usage`: what is said about a topic.
* `UsageError.report`: what is printed where the arguments make no sense.
* `sortArguments`: the options and the operands of a topic, or what is wrong with them.
-/
import IndentLisp.Text.Quoted
import IndentLisp.Text.Similarity

namespace IndentLisp.CommandLine

/-! ## 1. Commands -/

/-- What the program can do: the commands of section 11. -/
inductive Command where
  | check
  | format
  | highlight
  | view
deriving DecidableEq, Repr

/-- The name of the program. -/
def program : String := "piklisp"

/-- The version of the program. -/
def version : String := "0.1.0"

namespace Command

/-- The name of a command. -/
def name : Command → String
  | .check => "check"
  | .format => "format"
  | .highlight => "highlight"
  | .view => "view"

/-- All commands, in the order of their names, which is the order of the help text. -/
def all : List Command := [.check, .format, .highlight, .view]

/-- The command with a name.  No part of a name stands for it. -/
def ofName? (s : String) : Option Command :=
  all.find? (·.name = s)

/-- What a command does. -/
def purpose : Command → String
  | .check => "Parse Piklisp sources and report the ones that fail."
  | .format => "Print each top-level form of a Piklisp source file in classic syntax."
  | .highlight => "Print a Piklisp source file with syntax highlighting."
  | .view => "Print the syntax tree of a Piklisp source file."

/-- What a command does, in the width of the list of commands, where one purpose is too long. -/
def shortPurpose : Command → String
  | .format => "Print each top-level form of a Piklisp source file in classic..."
  | c => c.purpose

/-- The operand of a command as its usage names it. -/
def operand : Command → String
  | .check => "[PATH]"
  | _ => "FILE"

/-- The operand of a command that is given none; some commands need one.  To check nothing is to
check the directory that the program runs in. -/
def otherwise? : Command → Option String
  | .check => some "."
  | _ => none

/-- The options of a command, each with what it does. -/
def options : Command → List (String × String)
  | .check =>
    [("--no-color", "Disable colored diagnostics."), ("--help", "Show this message and exit.")]
  | _ => [("--help", "Show this message and exit.")]

end Command

/-! ## 2. Help -/

/-- What a text of help is about: the program as a whole, or one of its commands. -/
abbrev Topic := Option Command

/-- The words that start a line for a topic. -/
def words : Topic → String
  | none => program
  | some c => program ++ " " ++ c.name

/-- The line that says how a topic is used. -/
def usage : Topic → String
  | none => "Usage: " ++ program ++ " [OPTIONS] COMMAND [ARGS]..."
  | some c => "Usage: " ++ words (some c) ++ " [OPTIONS] " ++ c.operand

/-- The options of a topic. -/
def options : Topic → List (String × String)
  | none =>
    [("--version", "Show the version and exit."), ("--help", "Show this message and exit.")]
  | some c => c.options

/-- Two columns, with two blanks in front of each.  The first is as wide as its widest entry. -/
def columns (rows : List (String × String)) : List String :=
  let width := rows.foldl (fun w (left, _) => max w left.length) 0
  rows.map fun (left, right) =>
    "  " ++ left ++ String.ofList (List.replicate (width - left.length) ' ') ++ "  " ++ right

/-- The lines of the help on a topic: its usage, its purpose, its options, and the commands if there
are any. -/
def helpLines (topic : Topic) : List String :=
  let purpose :=
    match topic with
    | none => "Reader for Piklisp classic and indentation-sensitive syntax."
    | some c => c.purpose
  let commands :=
    match topic with
    | none => ["", "Commands:"] ++ columns (Command.all.map fun c => (c.name, c.shortPurpose))
    | some _ => []
  [usage topic, "", "  " ++ purpose, "", "Options:"] ++ columns (options topic) ++ commands

/-- The help on a topic. -/
def help (topic : Topic) : String :=
  "\n".intercalate (helpLines topic)

/-! ## 3. What can be wrong -/

/-- Why the arguments make no sense.  What is unknown comes with what it may have meant. -/
inductive UsageError where
  | noSuchOption (option : String) (similar : List String)
  | takesNoValue (option : String)
  | noSuchCommand (name : String) (similar : List String)
  | missingCommand
  | missingFile
  | noSuchPath (path : String)
  | noSuchFile (path : String)
  | isDirectory (path : String)
  | unexpected (first : String) (others : List String)
deriving DecidableEq, Repr

namespace UsageError

/-- The hint at what may have been meant: a question about one word, or a list in brackets. -/
def hint : List String → String
  | [] => ""
  | [word] => " Did you mean " ++ quoted word ++ "?"
  | words => " (Did you mean one of: " ++ ", ".intercalate (words.map quoted) ++ "?)"

/-- The wording of a usage error. -/
def message : UsageError → String
  | .noSuchOption o similar => "No such option " ++ quoted o ++ "." ++ hint similar
  | .takesNoValue o => "Option " ++ quoted o ++ " does not take a value."
  | .noSuchCommand c similar => "No such command " ++ quoted c ++ "." ++ hint similar
  | .missingCommand => "Missing command."
  | .missingFile => "Missing argument 'FILE'."
  | .noSuchPath p => "Invalid value for '[PATH]': Path " ++ quoted p ++ " does not exist."
  | .noSuchFile p => "Invalid value for 'FILE': File " ++ quoted p ++ " does not exist."
  | .isDirectory p => "Invalid value for 'FILE': File " ++ quoted p ++ " is a directory."
  | .unexpected a [] => "Got unexpected extra argument (" ++ a ++ ")"
  | .unexpected a others =>
    "Got unexpected extra arguments (" ++ " ".intercalate (a :: others) ++ ")"

/-- The report of a usage error.  An option with a value too many is reported without a reminder of
how the topic is used. -/
def report (topic : Topic) (e : UsageError) : String :=
  let reminder :=
    match e with
    | .takesNoValue _ => []
    | _ => [usage topic, "Try '" ++ words topic ++ " --help' for help.", ""]
  "\n".intercalate (reminder ++ ["Error: " ++ e.message])

end UsageError

/-! ## 4. Options and operands -/

/-- The options among some arguments, in order, and the operands. -/
structure Arguments where
  options : List String
  operands : List String
deriving DecidableEq, Repr

/-- The option that an argument spells, of those that there are.  An argument that starts with two
hyphens is one long option, and any other is a row of short ones, of which there are none; only a
long one may have meant another. -/
def option? (known : List String) (arg : String) : Except UsageError String :=
  let long := String.ofList (arg.toList.takeWhile (· ≠ '='))
  if known.contains long then
    if long = arg then .ok long else .error (.takesNoValue long)
  else
    match arg.toList with
    | '-' :: '-' :: _ => .error (.noSuchOption long (Similarity.among known long))
    | cs => .error (.noSuchOption (String.ofList (cs.take 2)) [])

/-- Whether an argument is an option: a hyphen with something after it.  A hyphen alone is an
operand. -/
def isOption (arg : String) : Bool :=
  match arg.toList with
  | '-' :: _ :: _ => true
  | _ => false

/-- Tells options from operands; the first option that is none is the answer otherwise.  Two hyphens
alone end the options.  If `mixed` is off, so does the first operand. -/
def sortArguments (known : List String) (mixed : Bool) :
    List String → Except UsageError Arguments
  | [] => .ok ⟨[], []⟩
  | arg :: args =>
    if arg = "--" then .ok ⟨[], args⟩
    else if isOption arg then do
      let option ← option? known arg
      let rest ← sortArguments known mixed args
      return { rest with options := option :: rest.options }
    else if mixed then do
      let rest ← sortArguments known mixed args
      return { rest with operands := arg :: rest.operands }
    else .ok ⟨[], arg :: args⟩

end IndentLisp.CommandLine
