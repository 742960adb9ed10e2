/-
# The project of an operand

An operand that leads to a directory can be used as a path throughout: it holds no null character,
leads to no file, and **the directory that governs it has a plain path**
(`Settings.plain_governing`), so that everything below is named by the text of its path.

The command line looks at an operand as it is written, with the empty pieces that its slashes make,
while everything after that goes along the path that it spells.  For a directory the two lead to the
same place; for a file they need not, since `f/` leads nowhere and the path that it spells leads to
`f`.  This is why an operand is known by `FileTree.look?` here, and by no look along a path.

The directory that governs an operand is one of two: the operand itself where there are no settings,
or the directory of the nearest file of settings.  The first is plain since a text spells it.  The
second is a location, and its names are on the way that the operand goes or on the way to where that
starts; each of them is a component of a plain path, or is the name of an entry.
-/
import IndentLisp.Proofs.Settings.Search

namespace IndentLisp

/-! ## 1. An operand that leads to a directory -/

section Operand

variable {files : FileTree} {operand : String}

/-- The way that the operand goes, by its pieces and not by the components of the path that it
spells.  A piece that is empty stays where it is, as it does in a directory. -/
theorem exists_walk_of_look? (h : files.look? operand = some .directory) :
    ∃ k, files.walk (files.start (.ofText operand)) (Path.pieces operand) = .ok k ∧
      files.find? k = some .directory := by
  unfold FileTree.look? at h
  split at h
  · cases h
  · split at h
    · cases h
    · exact ⟨_, by assumption, h⟩

/-- A relative path that leads to a directory does so as it is written. -/
theorem look?_shown {p : Path} (hp : p.Plain) (hs : p.slashes = 0) (hne : p.parts ≠ [])
    (hd : files.isDirectory p = true) : files.look? p.shown = some .directory := by
  unfold FileTree.isDirectory at hd
  split at hd
  case h_2 => cases hd
  case h_1 k hlocate =>
    obtain ⟨-, hlong, hw, hk⟩ := FileTree.locate_eq_ok_iff.mp hlocate
    have hwritten : p.shown ≠ "" := by
      intro h
      refine hne ?_
      rw [← Path.ofText_shown hp, h]
      decide +kernel
    have hpieces : Path.pieces p.shown = p.parts := by
      rw [Path.pieces_shown hp hne, hs]
      rfl
    rw [FileTree.look?, if_neg (not_or.mpr ⟨hwritten, Nat.not_lt.mpr hlong⟩), Path.ofText_shown hp,
      hpieces, hw]
    exact hk

theorem holdsNull_of_look? (h : files.look? operand = some .directory) :
    (Path.ofText operand).holdsNull = false := by
  obtain ⟨k, hw, hk⟩ := exists_walk_of_look? h
  rw [Path.holdsNull, List.any_eq_false]
  intro c hc
  obtain ⟨hc, hmeans⟩ := List.mem_filter.mp hc
  have hmeans : c ≠ "" ∧ c ≠ "." := by simpa using hmeans
  rw [Bool.not_eq_true]
  rcases (FileTree.walk_filter hw hk).2 c hc hmeans.1 hmeans.2 with rfl | hname
  · decide
  · exact FileTree.not_null hname

theorem isFile_of_look? (h : files.look? operand = some .directory) :
    files.isFile (.ofText operand) = false := by
  obtain ⟨k, hw, hk⟩ := exists_walk_of_look? h
  unfold FileTree.isFile
  split
  case h_2 => rfl
  case h_1 k' bytes hlocate =>
    obtain ⟨-, -, hw', hk'⟩ := FileTree.locate_eq_ok_iff.mp hlocate
    obtain rfl : k = k' := by
      have hgo := (FileTree.walk_filter hw hk).1
      simpa using hgo.symm.trans hw'
    rw [hk] at hk'
    cases hk'

/-- Where the operand starts from is a location of components. -/
theorem isComponent_start (h : files.look? operand = some .directory) :
    ∀ c ∈ files.start (.ofText operand), Path.IsComponent c := by
  obtain ⟨k, hw, hk⟩ := exists_walk_of_look? h
  obtain ⟨e, he⟩ := FileTree.find?_of_walk hw hk
  intro c hc
  exact isComponent_of_isName (FileTree.isName_of_find? (l := []) he c hc)

end Operand

/-! ## 2. The directory that governs it -/

namespace Settings

variable {files : FileTree} {operand : String} {project : Path} {settings : Settings}

/-- **The directory that governs an operand has a plain path.**  It is the operand's own path where
no file of settings is found; otherwise it is a location, and its names come from where relative
paths start or from the operand. -/
theorem plain_governing (h : files.look? operand = some .directory)
    (hg : governing files (.ofText operand) = .ok (project, settings)) : project.Plain := by
  unfold governing at hg
  split at hg
  case h_1 => cases hg
  case h_2 =>
    cases hg
    exact Path.plain_ofText operand
  case h_3 file hfile =>
    obtain ⟨loaded, hload, hpair⟩ : ∃ loaded, load files file = .ok loaded ∧
        (file.parent, loaded) = (project, settings) := by
      cases hl : load files file with
      | error e => simp [hl, bind, Except.bind] at hg
      | ok loaded => exact ⟨loaded, rfl,
          by simpa [hl, bind, Except.bind, pure, Except.pure] using hg⟩
    cases hpair
    obtain ⟨l, hl, rfl⟩ := exists_of_search hfile
    refine ⟨by simp [Path.parent, fileIn, Path.ofLocation], ?_⟩
    intro c hc
    have hc : c ∈ directoryOf files (.ofText operand) := by
      simp only [Path.parent, fileIn, Path.ofLocation, List.dropLast_concat] at hc
      exact hl.subset hc
    have hc : c ∈ files.resolve (.ofText operand) := by
      unfold directoryOf at hc
      dsimp only at hc
      split at hc
      · exact List.dropLast_subset _ hc
      · exact hc
    rcases FileTree.mem_resolve hc with hstart | ⟨hpart, -⟩
    · exact isComponent_start h c hstart
    · exact (Path.plain_ofText operand).parts c hpart

end Settings

end IndentLisp
