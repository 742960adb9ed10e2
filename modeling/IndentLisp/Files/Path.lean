/-
# Paths

A path is its components and the slashes it starts with.  Components that are empty or a single dot
say nothing and are dropped; two dots are kept, since what lies above a directory is for the file
tree to say.  One leading slash makes a path absolute; exactly two are kept as two, and more than
two count as one.

So two texts can spell one path, and it is the path that is compared, ordered and shown.  A project
names its fixture directories by such texts (section 7), a batch reports files by the text of their
paths (section 8), and a diagnostic names a file by it, under which a renderer looks it up again;
that the last of these finds the same file is proved with the theory of paths.

* `Path.ofText`, `Path.shown`: from text, and back.
* `Path.join`, `Path.parent`, `Path.name`, `Path.suffix`: the parts of a path, and paths seen from
  one another.
* `Path.le`: the order in which a batch reports files.
-/
import IndentLisp.Text.Order

namespace IndentLisp

/-- The leading slashes, of which there are at most two, and the components. -/
structure Path where
  slashes : Nat
  parts : List String
deriving DecidableEq, Repr

namespace Path

/-- The pieces of a text between slashes. -/
def pieces (s : String) : List String :=
  (s.toList.splitOn '/').map String.ofList

/-- The number of leading slashes that count: none, one, or exactly two. -/
def leading (s : String) : Nat :=
  match (s.toList.takeWhile (· = '/')).length with
  | 0 => 0
  | 2 => 2
  | _ => 1

/-- The path that a text spells.  The empty text spells the path without components, as a dot
does. -/
def ofText (s : String) : Path where
  slashes := leading s
  parts := (pieces s).filter fun c => c ≠ "" ∧ c ≠ "."

/-- The absolute path of a location in a file tree. -/
def ofLocation (parts : List String) : Path := ⟨1, parts⟩

/-- The leading slashes as text. -/
def anchor (p : Path) : String :=
  String.ofList (List.replicate p.slashes '/')

/-- A path as text; one without components is a dot, or its slashes. -/
def shown (p : Path) : String :=
  if p.slashes = 0 ∧ p.parts = [] then "." else p.anchor ++ "/".intercalate p.parts

/-- Components added at the end. -/
def extend (p : Path) (more : List String) : Path :=
  ⟨p.slashes, p.parts ++ more⟩

/-- What `q` means when seen from `p`: an absolute `q` means itself. -/
def join (p q : Path) : Path :=
  if q.slashes = 0 then p.extend q.parts else q

/-- The path without its last component.  One without components is its own parent. -/
def parent (p : Path) : Path :=
  ⟨p.slashes, p.parts.dropLast⟩

/-- The last component, or nothing. -/
def name (p : Path) : String :=
  p.parts.getLast?.getD ""

/-- The part of a name from its last dot on.  A dot that starts or ends the name marks no suffix. -/
def suffix (p : Path) : String :=
  let back := p.name.toList.reverse
  let tail := back.takeWhile (· ≠ '.')
  let stem := back.drop (tail.length + 1)
  if tail = [] ∨ stem = [] then "" else String.ofList ('.' :: tail.reverse)

/-- What paths are compared by: the slashes, if any, and then each component. -/
def key (p : Path) : List String :=
  if p.slashes = 0 then p.parts else p.anchor :: p.parts

/-- Whether some component holds a null character, which no system takes. -/
def holdsNull (p : Path) : Bool :=
  p.parts.any (·.toList.contains '\x00')

/-- The order of paths, component by component. -/
def le (p q : Path) : Bool :=
  lexLe textLe p.key q.key

end Path

end IndentLisp
