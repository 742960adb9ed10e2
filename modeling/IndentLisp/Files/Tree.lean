/-
# File trees

The files that a run sees, as a value: a finite map from locations to entries, and the directory
that relative paths start from.  A location is the list of names on the way down from the root,
which is a directory itself and needs no entry.  There are files and directories, and nothing else:
no links, no permissions, and no time at which an entry was written.

The structure carries what makes it a tree: no location has two entries, every location is made of
names, and **what is above an entry is a directory** (`FileTree.above`).  Putting an entry somewhere
asks whether it can stand there and does nothing otherwise, so every value of the type is a tree
that a system could have.

What a path leads to is decided component by component, as a system does it.  A path that holds a
null character leads nowhere, and so does one that is too long, or that goes through a name that is
too long; these are failures to look, and not the absence of a file.  A program that asks whether
there is a file there gets a failure as well, so each query that can fail in this way says so
(`FileTree.ifLooked`, `FileTree.ifAllLooked`).

* `FileTree.walk`: where a sequence of path components leads.  **Every step but the last has to find
  a directory**, also a step that goes up again.
* `FileTree.resolve`: where a path leads on paper, whether or not anything is there.
* `FileTree.readText`: the text of a file, with its line ends unified.
* `FileTree.filesUnder`: all files below a directory, at any depth; `FileTree.ifAllLooked`: **only
  where no path is too long to be looked at.**
* `FileTree.write`, `FileTree.remove`: what becomes of a tree; a file that is written makes the
  directories above it.
-/
import IndentLisp.Files.Path
import IndentLisp.Text.Lines

namespace IndentLisp

/-- What a location holds. -/
inductive Entry where
  | file (bytes : ByteArray)
  | directory

instance : (found : Option Entry) → Decidable (found = some .directory)
  | some .directory => isTrue rfl
  | some (.file _) => isFalse (by simp)
  | none => isFalse (by simp)

/-- Why a file could not be used. -/
inductive FileError where
  | notFound
  | notADirectory
  | isADirectory
  | alreadyExists
  | undecodable
  /-- The path holds a null character. -/
  | nullInPath
  /-- A name on the way, or the path as a whole, is too long. -/
  | tooLong
deriving DecidableEq, Repr

/-- The wording of a failure. -/
def FileError.message : FileError → String
  | .notFound => "no such file or directory"
  | .notADirectory => "not a directory"
  | .isADirectory => "is a directory"
  | .alreadyExists => "exists already"
  | .undecodable => "not a text in UTF-8"
  | .nullInPath => "a null character in a path"
  | .tooLong => "a name or a path is too long"

/-- The names on the way down from the root. -/
abbrev Location := List String

/-- Whether a text can be a name: it says where to go down, and holds no character that no name
has. -/
def isName (s : String) : Bool :=
  s ≠ "" && s ≠ "." && s ≠ ".." && !s.toList.contains '/' && !s.toList.contains '\x00'

/-- A location that an entry can have: it is not the root, and its names are names. -/
def Location.Proper (l : Location) : Prop :=
  l ≠ [] ∧ ∀ c ∈ l, isName c = true

instance (l : Location) : Decidable l.Proper := by
  unfold Location.Proper
  infer_instance

/-- A finite map from locations to entries, each of them in a directory, and the current
directory. -/
structure FileTree where
  entries : List (Location × Entry)
  here : Location
  nodup : (entries.map Prod.fst).Nodup
  proper : ∀ l ∈ entries.map Prod.fst, l.Proper
  above : ∀ l ∈ entries.map Prod.fst, l.dropLast ≠ [] → (l.dropLast, .directory) ∈ entries

namespace FileTree

/-! ## 1. The map -/

/-- No entries at all. -/
def empty (here : Location) : FileTree where
  entries := []
  here := here
  nodup := by simp
  proper := by simp
  above := by simp

/-- The entry at a location.  The root is a directory in every tree. -/
def find? (t : FileTree) (l : Location) : Option Entry :=
  if l = [] then some .directory else t.entries.lookup l

theorem lookup_eq_some_iff {es : List (Location × Entry)} (h : (es.map Prod.fst).Nodup)
    {l : Location} {e : Entry} : es.lookup l = some e ↔ (l, e) ∈ es := by
  induction es with
  | nil => simp
  | cons d es ih =>
    obtain ⟨k, d⟩ := d
    rw [List.map_cons, List.nodup_cons] at h
    by_cases hk : l = k
    · subst hk
      have hout : (l, e) ∉ es := fun hm => h.1 (List.mem_map.mpr ⟨(l, e), hm, rfl⟩)
      simp [hout, eq_comm]
    · have hb : (l == k) = false := by simpa using hk
      simp [List.lookup_cons, hb, hk, ih h.2]

/-- Below the root, what is found is what the map holds. -/
theorem find?_eq_some_iff (t : FileTree) {l : Location} (hl : l ≠ []) {e : Entry} :
    t.find? l = some e ↔ (l, e) ∈ t.entries := by
  rw [find?, if_neg hl, lookup_eq_some_iff t.nodup]

/-- **What is above an entry is a directory.** -/
theorem find?_dropLast (t : FileTree) {l : Location} {e : Entry} (h : t.find? l = some e) :
    t.find? l.dropLast = some .directory := by
  by_cases hl : l.dropLast = []
  · simp [hl, find?]
  · have hne : l ≠ [] := fun h0 => hl (by simp [h0])
    rw [find?_eq_some_iff t hne] at h
    exact (find?_eq_some_iff t hl).mpr (t.above l (List.mem_map_of_mem h) hl)

/-- Removes what is at a location, and all that lies below it.  What is left is still a tree: an
entry that stays is not below the location, and neither is the directory above it. -/
def without (t : FileTree) (l : Location) : FileTree where
  entries := t.entries.filter fun (k, _) => !l.isPrefixOf k
  here := t.here
  nodup := t.nodup.sublist (List.filter_sublist.map Prod.fst)
  proper := fun k hk => t.proper k ((List.filter_sublist.map Prod.fst).subset hk)
  above := by
    intro k hk hne
    obtain ⟨⟨k, e⟩, hm, rfl⟩ := List.mem_map.mp hk
    obtain ⟨hm, hp⟩ := List.mem_filter.mp hm
    refine List.mem_filter.mpr ⟨t.above k (List.mem_map_of_mem hm) hne, ?_⟩
    rw [Bool.not_eq_true', ← Bool.not_eq_true, List.isPrefixOf_iff_prefix] at hp ⊢
    exact fun hl => hp (hl.trans k.dropLast_prefix)

/-- Whether an entry can be put at a location: in a directory, and a file not in place of one. -/
def Takes (t : FileTree) (l : Location) (e : Entry) : Prop :=
  l.Proper ∧ t.find? l.dropLast = some .directory ∧
    (t.find? l = some .directory → some e = some .directory)

instance (t : FileTree) (l : Location) (e : Entry) : Decidable (t.Takes l e) := by
  unfold Takes
  infer_instance

/-- Puts an entry at a location, in place of what was there.  A location that does not take the
entry is left as it is. -/
def put (t : FileTree) (l : Location) (e : Entry) : FileTree :=
  if h : t.Takes l e then
    { entries := (t.entries.filter fun (k, _) => k ≠ l) ++ [(l, e)]
      here := t.here
      nodup := by
        rw [List.map_append, List.nodup_append]
        refine ⟨t.nodup.sublist (List.filter_sublist.map Prod.fst), by simp, ?_⟩
        intro a ha b hb
        have hb : b = l := by simpa using hb
        obtain ⟨⟨a', e'⟩, hmem, rfl⟩ := List.mem_map.mp ha
        have hne := (List.mem_filter.mp hmem).2
        subst hb
        simpa using hne
      proper := by
        intro a ha
        rw [List.map_append, List.mem_append] at ha
        rcases ha with ha | ha
        · exact t.proper a ((List.filter_sublist.map Prod.fst).subset ha)
        · have ha : a = l := by simpa using ha
          exact ha ▸ h.1
      above := by
        intro a ha hne
        -- what was at `l` may have been the directory above; then it still is one
        have hup : t.find? a.dropLast = some .directory := by
          rw [List.map_append, List.mem_append] at ha
          rcases ha with ha | ha
          · have ha := (List.filter_sublist.map Prod.fst).subset ha
            exact (find?_eq_some_iff t hne).mpr (t.above a ha hne)
          · have ha : a = l := by simpa using ha
            exact ha ▸ h.2.1
        rw [List.mem_append]
        by_cases hal : a.dropLast = l
        · rw [hal] at hup ⊢
          exact .inr (by simp [Option.some.inj (h.2.2 hup)])
        · exact .inl (List.mem_filter.mpr ⟨(find?_eq_some_iff t hne).mp hup, by simpa using hal⟩) }
  else t

theorem lookup_filter (es : List (Location × Entry)) (p : Location → Bool) (l : Location) :
    (es.filter fun (k, _) => p k).lookup l = if p l then es.lookup l else none := by
  induction es with
  | nil => simp
  | cons e es ih =>
    obtain ⟨k, e⟩ := e
    by_cases hk : l = k
    · subst hk
      by_cases hp : p l = true
      · simp [hp]
      · rw [Bool.not_eq_true] at hp
        simp [hp] at ih ⊢
        exact ih
    · have hb : (l == k) = false := by simpa using hk
      by_cases hp : p k = true
      · simp [hp, List.lookup_cons, hb, ih]
      · rw [Bool.not_eq_true] at hp
        simp [hp, List.lookup_cons, hb, ih]

/-- Nothing is found any more at a removed location or below it, and all else is found as before. -/
theorem find?_without (t : FileTree) (l : Location) {k : Location} (hk : k ≠ []) :
    (t.without l).find? k = if l.isPrefixOf k then none else t.find? k := by
  simp only [find?, without, if_neg hk, lookup_filter t.entries (fun k => !l.isPrefixOf k)]
  cases l.isPrefixOf k <;> rfl

/-- **An entry is found where it was put, and every other location is as before.** -/
theorem find?_put {t : FileTree} {l : Location} {e : Entry} (h : t.Takes l e) (k : Location) :
    (t.put l e).find? k = if k = l then some e else t.find? k := by
  by_cases hk : k = []
  · subst hk
    have : ([] : Location) ≠ l := fun h0 => h.1.1 h0.symm
    simp [find?, this]
  · simp only [find?, put, dif_pos h, if_neg hk]
    rw [List.lookup_append, lookup_filter t.entries (fun k => decide (k ≠ l))]
    by_cases hkl : k = l
    · subst hkl
      simp
    · have hb : (k == l) = false := by simpa using hkl
      simp [hkl, List.lookup_cons, hb]

/-! ## 2. Finding the way -/

/-- The number of bytes that a name may have. -/
def maxName : Nat := 255

/-- The number of bytes that a path may have as it is written. -/
def maxPath : Nat := 4095

/-- Where components lead from a location.  An empty component and a dot stay, two dots go up, and a
name goes down, unless it is too long; each of them has to start from a directory. -/
def walk (t : FileTree) (l : Location) : List String → Except FileError Location
  | [] => .ok l
  | c :: cs =>
    match t.find? l with
    | none => .error .notFound
    | some (.file _) => .error .notADirectory
    | some .directory =>
      if c = "" ∨ c = "." then t.walk l cs
      else if c = ".." then t.walk l.dropLast cs
      else if maxName < c.utf8ByteSize then .error .tooLong
      else t.walk (l ++ [c]) cs

/-- Where a path starts: at the root if it is absolute, and in the current directory otherwise. -/
def start (t : FileTree) (p : Path) : Location :=
  if p.slashes = 0 then t.here else []

/-- The location that a path leads to, and what is there.  The path as a whole is looked at before
the way. -/
def locate (t : FileTree) (p : Path) : Except FileError (Location × Entry) :=
  if p.holdsNull then .error .nullInPath
  else if maxPath < p.shown.utf8ByteSize then .error .tooLong
  else
    match t.walk (t.start p) p.parts with
    | .error e => .error e
    | .ok l =>
      match t.find? l with
      | none => .error .notFound
      | some e => .ok (l, e)

/-- Whether a name that is too long, or the length of the path itself, keeps the system from looking
where a path leads. -/
def isTooLong (t : FileTree) (p : Path) : Bool :=
  match t.locate p with
  | .error .tooLong => true
  | _ => false

/-- Runs a query about a path, unless the path is too long for the system to look where it leads. -/
def ifLooked {α : Type} (t : FileTree) (p : Path) (query : α) : Except FileError α :=
  if t.isTooLong p then .error .tooLong else .ok query

/-- What a path leads to as it is written.  A slash at its end asks for a directory, and neither the
empty path nor one that is too long leads anywhere. -/
def look? (t : FileTree) (written : String) : Option Entry :=
  if written = "" ∨ maxPath < written.utf8ByteSize then none
  else
    match t.walk (t.start (.ofText written)) (Path.pieces written) with
    | .error _ => none
    | .ok l => t.find? l

/-- Whether a path leads to a file. -/
def isFile (t : FileTree) (p : Path) : Bool :=
  match t.locate p with
  | .ok (_, .file _) => true
  | _ => false

/-- Whether a path leads to a directory. -/
def isDirectory (t : FileTree) (p : Path) : Bool :=
  match t.locate p with
  | .ok (_, .directory) => true
  | _ => false

/-- Whether a path leads to anything. -/
def holds (t : FileTree) (p : Path) : Bool :=
  match t.locate p with
  | .ok _ => true
  | .error _ => false

/-- Where a path leads when each pair of dots takes back the name before it.  Nothing has to be
there. -/
def resolve (t : FileTree) (p : Path) : Location :=
  p.parts.foldl (fun l c => if c = ".." then l.dropLast else l ++ [c]) (t.start p)

/-! ## 3. Reading -/

/-- The bytes of a file. -/
def readBytes (t : FileTree) (p : Path) : Except FileError ByteArray :=
  match t.locate p with
  | .error e => .error e
  | .ok (_, .directory) => .error .isADirectory
  | .ok (_, .file bytes) => .ok bytes

/-- The text that bytes spell in UTF-8; bytes that spell none are not text. -/
def decode (bytes : ByteArray) : Except FileError String :=
  match String.fromUTF8? bytes with
  | none => .error .undecodable
  | some s => .ok s

/-- The text of a file, in which every line ends in a line feed. -/
def readText (t : FileTree) (p : Path) : Except FileError String := do
  let s ← decode (← t.readBytes p)
  return String.ofList (Lines.unify s.toList)

/-- The paths of a directory and of all that lies below it, at any depth; none if there is no such
directory.  Each starts with the path of the directory as it was given. -/
def pathsUnder (t : FileTree) (p : Path) : List Path :=
  match t.locate p with
  | .ok (l, .directory) =>
    ((t.entries.map Prod.fst).filter l.isPrefixOf).map fun k => p.extend (k.drop l.length)
  | _ => []

/-- The paths of all files below a directory, at any depth. -/
def filesUnder (t : FileTree) (p : Path) : List Path :=
  (t.pathsUnder p).filter t.isFile

/-- Runs a query about all that lies below a directory, unless the path of some of it is too long
for the system to look there, or that of the directory. -/
def ifAllLooked {α : Type} (t : FileTree) (p : Path) (query : α) : Except FileError α :=
  if (p :: t.pathsUnder p).any t.isTooLong then .error .tooLong else .ok query

/-! ## 4. Writing -/

/-- Makes the directories that components lead through from a location, where they are missing;
answers where they lead. -/
def makeDirectories (t : FileTree) (l : Location) :
    List String → Except FileError (FileTree × Location)
  | [] => .ok (t, l)
  | c :: cs =>
    if c = "" ∨ c = "." then t.makeDirectories l cs
    else if c = ".." then t.makeDirectories l.dropLast cs
    else if maxName < c.utf8ByteSize then .error .tooLong
    else
      match t.find? (l ++ [c]) with
      | some .directory => t.makeDirectories (l ++ [c]) cs
      | some (.file _) => .error (if cs = [] then .alreadyExists else .notADirectory)
      | none =>
        if t.find? l = some .directory then
          (t.put (l ++ [c]) .directory).makeDirectories (l ++ [c]) cs
        else .error .notFound

/-- Makes a directory and those above it. -/
def makeDirectory (t : FileTree) (p : Path) : Except FileError FileTree :=
  if p.holdsNull then .error .nullInPath
  else (t.makeDirectories (t.start p) p.parts).map Prod.fst

/-- Writes a file, and makes the directories above it. -/
def write (t : FileTree) (p : Path) (bytes : ByteArray) : Except FileError FileTree :=
  if p.holdsNull then .error .nullInPath
  else if maxName < p.name.utf8ByteSize then .error .tooLong
  else do
    let (t, l) ← t.makeDirectories (t.start p) p.parent.parts
    let target := l ++ [p.name]
    if ¬ target.Proper ∨ t.find? target = some .directory then .error .isADirectory
    else if t.find? l ≠ some .directory then .error .notFound
    else return t.put target (.file bytes)

/-- Removes what a path leads to, with all that lies below it. -/
def remove (t : FileTree) (p : Path) : Except FileError FileTree :=
  match t.locate p with
  | .error e => .error e
  | .ok (l, _) => .ok (t.without l)

end FileTree

end IndentLisp
