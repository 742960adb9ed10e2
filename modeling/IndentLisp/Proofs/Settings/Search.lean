/-
# The nearest file of settings

The search for settings asks one directory after another, the deepest first (`Settings.search`).
**It answers with the file in the deepest directory that has one** (`Settings.search_nearest`).

What could stand in the way is the length of paths: the system looks at no path that is too long,
and an answer from further up would then be given though a deeper directory may have a file.  But
paths only get shorter on the way up, so **what the system can look at in the deepest directory it
can look at in every one above** (`Settings.isTooLong_fileIn`).  The search either fails at once, at
the first directory that it asks, or it comes to an answer.

What the search finds is said of the entries and not of any look: `Settings.Nearest` is a location
above the start that holds an entry by the name of a file of settings, whatever kind of entry, such
that no deeper one does.  Between the two stands `FileTree.locate_ofLocation_iff`: a path without
dots leads to its own location, and nowhere else, if the system can look there.

* `Settings.find?_ancestors_eq_some_iff`: the first hit on the way up is the deepest.
* `Settings.firstIn_eq`: where the system can look everywhere, the search is the first hit.
* `Settings.startingAt`: the directory that the search starts in.

The one assumption is that relative paths start at a directory that is there.  Without it a path
could resolve to components that are the name of no entry.
-/
import Mathlib.Data.String.Basic
import IndentLisp.Proofs.Files.Path
import IndentLisp.Proofs.Files.Tree
import IndentLisp.Settings

namespace IndentLisp

/-! ## 1. Absolute paths of locations -/

theorem isComponent_of_isName {c : String} (h : isName c = true) : Path.IsComponent c := by
  simp only [isName, Bool.and_eq_true, decide_eq_true_eq, Bool.not_eq_true', List.contains_iff_mem,
    ← Bool.not_eq_true] at h
  exact ⟨h.1.1.1.1, h.1.1.1.2, h.1.2⟩

namespace FileTree

variable {t : FileTree} {l k : Location} {e : Entry}

theorem holdsNull_of_names {p : Path} (h : ∀ c ∈ p.parts, isName c = true) :
    p.holdsNull = false := by
  refine List.any_eq_false.mpr fun c hc => ?_
  rw [not_null (h c hc)]
  exact Bool.false_ne_true

/-- Names lead nowhere but to the location that they spell, as none of them stays or goes up.
Whether they lead anywhere is another question. -/
theorem eq_of_walk_names {names : List String} (hnames : ∀ c ∈ names, isName c = true)
    (h : t.walk l names = .ok k) : k = l ++ names := by
  induction names generalizing l with
  | nil =>
    rw [walk] at h
    rw [List.append_nil, ← Except.ok.inj h]
  | cons c names ih =>
    obtain ⟨hstay, hup⟩ := not_special (hnames c List.mem_cons_self)
    have hrest := ih (l := l ++ [c]) fun d hd => hnames d (List.mem_cons_of_mem c hd)
    unfold walk at h
    split at h
    case h_1 => cases h
    case h_2 => cases h
    case h_3 =>
      rw [if_neg hstay, if_neg hup] at h
      split at h
      · cases h
      · rw [hrest h, List.append_assoc, List.singleton_append]

/-- **A path of names leads to its own location**, if the system can look there.  So a look along
such a path is a question about the entries, and the search for settings becomes one. -/
theorem locate_ofLocation_iff (hnames : ∀ c ∈ l, isName c = true)
    (hlong : t.isTooLong (.ofLocation l) = false) :
    t.locate (.ofLocation l) = .ok (k, e) ↔ k = l ∧ t.find? l = some e := by
  constructor
  · intro h
    obtain ⟨-, -, hwalk, hfound⟩ := locate_eq_ok_iff.mp h
    obtain rfl : k = l := eq_of_walk_names hnames hwalk
    exact ⟨rfl, hfound⟩
  · rintro ⟨rfl, hfound⟩
    have hroot : t.locate (.ofLocation []) = .ok ([], .directory) :=
      locate_eq_ok_iff.mpr ⟨rfl, by decide +kernel, rfl, rfl⟩
    by_cases hk : k = []
    · subst hk
      rw [hroot, Option.some.inj (hfound.symm.trans (if_pos rfl))]
    · have hbelow : t.Below (.ofLocation []) (.ofLocation k) e :=
        ⟨[], k, hroot, hk, hfound, rfl⟩
      obtain ⟨k', hlocate⟩ := locate_of_below hbelow hlong
      obtain ⟨-, -, hwalk, -⟩ := locate_eq_ok_iff.mp hlocate
      rw [hlocate, eq_of_walk_names hnames hwalk]
      rfl

theorem holds_ofLocation_iff (hnames : ∀ c ∈ l, isName c = true)
    (hlong : t.isTooLong (.ofLocation l) = false) :
    t.holds (.ofLocation l) = true ↔ t.find? l ≠ none := by
  rw [Option.ne_none_iff_exists']
  unfold holds
  constructor
  · intro h
    split at h
    · rename_i found hfound
      obtain ⟨k, e⟩ := found
      exact ⟨e, ((locate_ofLocation_iff hnames hlong).mp hfound).2⟩
    · cases h
  · rintro ⟨e, he⟩
    rw [(locate_ofLocation_iff hnames hlong).mpr ⟨rfl, he⟩]

theorem isFile_ofLocation_iff (hnames : ∀ c ∈ l, isName c = true)
    (hlong : t.isTooLong (.ofLocation l) = false) :
    t.isFile (.ofLocation l) = true ↔ ∃ bytes, t.find? l = some (.file bytes) := by
  unfold isFile
  constructor
  · intro h
    split at h
    · rename_i k bytes hfound
      exact ⟨bytes, ((locate_ofLocation_iff hnames hlong).mp hfound).2⟩
    · cases h
  · rintro ⟨bytes, hb⟩
    rw [(locate_ofLocation_iff hnames hlong).mpr ⟨rfl, hb⟩]

/-- A path resolves to names on the way to where it starts from, and to some of its own
components. -/
theorem mem_resolve {p : Path} {c : String} (hc : c ∈ t.resolve p) :
    c ∈ t.start p ∨ c ∈ p.parts ∧ c ≠ ".." := by
  unfold resolve at hc
  generalize t.start p = l at hc ⊢
  generalize p.parts = cs at hc ⊢
  induction cs generalizing l with
  | nil => exact .inl hc
  | cons d ds ih =>
    rw [List.foldl_cons] at hc
    rcases ih _ hc with hl | ⟨hd, hup⟩
    · split at hl
      · exact .inl (l.dropLast_subset hl)
      · rename_i hup
        rcases List.mem_append.mp hl with hl | hl
        · exact .inl hl
        · obtain rfl := List.mem_singleton.mp hl
          exact .inr ⟨List.mem_cons_self, hup⟩
    · exact .inr ⟨List.mem_cons_of_mem d hd, hup⟩

/-- **Where a path resolves to goes by names**, if it starts at a directory that is there and holds
no null character.  What stays is dropped, and what goes up takes a name away. -/
theorem isName_of_mem_resolve {text c : String} (hhere : t.find? t.here = some .directory)
    (hnull : (Path.ofText text).holdsNull = false) (hc : c ∈ t.resolve (.ofText text)) :
    isName c = true := by
  rcases mem_resolve hc with hc | ⟨hc, hup⟩
  · unfold start at hc
    split at hc
    · exact isName_of_find? (l := []) hhere c hc
    · exact absurd hc List.not_mem_nil
  · obtain ⟨h1, h2, h3⟩ := (Path.plain_ofText text).parts c hc
    have h4 := List.any_eq_false.mp hnull c hc
    simpa [isName, h1, h2, hup, h3] using h4

/-- A name spells a path of one component. -/
theorem ofText_name {c : String} (hname : isName c = true) : Path.ofText c = ⟨0, [c]⟩ := by
  have hplain : (⟨0, [c]⟩ : Path).Plain := by
    refine ⟨Nat.zero_le 2, fun d hd => ?_⟩
    rw [List.mem_singleton.mp hd]
    exact isComponent_of_isName hname
  simpa [Path.shown, Path.anchor] using Path.ofText_shown hplain

/-- The system cannot look for a name that is too long. -/
theorem isTooLong_name {c : String} (hdir : t.find? l = some .directory) (hname : isName c = true)
    (hlong : maxName < c.utf8ByteSize) : t.isTooLong (.ofLocation (l ++ [c])) = true := by
  have hnull : (Path.ofLocation (l ++ [c])).holdsNull = false := by
    have hnames : ∀ d ∈ l, isName d = true := isName_of_find? (l := []) hdir
    exact holdsNull_of_names
      (List.forall_mem_append.mpr ⟨hnames, List.forall_mem_singleton.mpr hname⟩)
  have hwalk : t.walk [] (l ++ [c]) = .error .tooLong := by
    rw [walk_append, walk_names (l := []) hdir]
    obtain ⟨hstay, hup⟩ := not_special hname
    split
    · rename_i h
      split at h
      · rw [← h]
      · cases h
    · rename_i h
      split at h
      · cases h
      · obtain rfl := Except.ok.inj h
        rw [List.nil_append, walk, hdir]
        simp only [if_neg hstay, if_neg hup, if_pos hlong]
  rw [isTooLong_iff, locate, hnull, if_neg Bool.false_ne_true]
  split
  · rfl
  · rw [show t.walk (t.start (.ofLocation (l ++ [c]))) (Path.ofLocation (l ++ [c])).parts =
      .error .tooLong from hwalk]

end FileTree

namespace Settings

variable {files : FileTree} {p q : Path} {d a b : Location} {ls : List Location}

/-! ## 2. What the system can look at -/

theorem names_fileIn (h : ∀ c ∈ a, isName c = true) : ∀ c ∈ (fileIn a).parts, isName c = true :=
  List.forall_mem_append.mpr ⟨h, List.forall_mem_singleton.mpr (by decide)⟩

/-- A path in a directory above is no longer than the same one further down. -/
theorem utf8ByteSize_fileIn_le (h : a <+: d) :
    (fileIn a).shown.utf8ByteSize ≤ (fileIn d).shown.utf8ByteSize := by
  have htext : ∀ l : Location, (fileIn l).shown =
      String.ofList ((l ++ [fileName]).flatMap fun c => '/' :: c.toList) := by
    intro l
    have hparts : (fileIn l).parts ≠ [] := by simp [fileIn, Path.ofLocation]
    have hpieces : (l ++ [fileName]).map String.toList ≠ [] := by simp
    rw [← String.toList_inj, String.toList_ofList, Path.toList_shown hparts, ← List.flatMap_map]
    exact Lines.cons_intercalate '/' hpieces
  obtain ⟨more, rfl⟩ := h
  rw [htext, htext, String.utf8ByteSize_ofList, String.utf8ByteSize_ofList]
  refine String.utf8Len_le_of_sublist ?_
  rw [List.flatMap_append, List.flatMap_append, List.flatMap_append, List.append_assoc]
  exact (List.sublist_append_right _ _).append_left _

/-- **What the system can look at in a directory it can look at in every one above.**  The path is
shorter there, and its names are some of those that could be looked at further down. -/
theorem isTooLong_fileIn (hnull : (fileIn d).holdsNull = false)
    (hd : files.isTooLong (fileIn d) = false) (h : a <+: d) :
    files.isTooLong (fileIn a) = false := by
  have hsize := utf8ByteSize_fileIn_le h
  obtain ⟨more, rfl⟩ := h
  have hnull' : (fileIn a).holdsNull = false := by
    simp only [fileIn, Path.ofLocation, Path.holdsNull, List.any_append, Bool.or_eq_false_iff]
      at hnull ⊢
    exact ⟨hnull.1.1, hnull.2⟩
  rw [← Bool.not_eq_true, FileTree.isTooLong_iff] at hd ⊢
  unfold FileTree.locate at hd ⊢
  rw [hnull] at hd
  rw [hnull']
  by_cases hlong : FileTree.maxPath < (fileIn (a ++ more)).shown.utf8ByteSize
  · simp [hlong] at hd
  have hshort : ¬ FileTree.maxPath < (fileIn a).shown.utf8ByteSize := by omega
  have hwalk : files.walk [] (a ++ [fileName]) ≠ .error .tooLong := by
    intro hw
    have hdeep : files.walk [] (a ++ more ++ [fileName]) = .error .tooLong := by
      rw [FileTree.walk_append] at hw
      rw [List.append_assoc, FileTree.walk_append]
      cases hup : files.walk [] a with
      | error e => simpa [hup] using hw
      | ok k =>
        -- in a directory the name itself is short enough
        exfalso
        simp only [hup, FileTree.walk] at hw
        split at hw
        · cases hw
        · cases hw
        · rw [if_neg (by decide), if_neg (by decide), if_neg (by decide)] at hw
          cases hw
    refine hd ?_
    have hstart : files.walk (files.start (fileIn (a ++ more))) (fileIn (a ++ more)).parts =
        .error .tooLong := hdeep
    simp [hstart]
  have hstart : files.walk (files.start (fileIn a)) (fileIn a).parts ≠ .error .tooLong := hwalk
  intro herr
  simp only [Bool.false_eq_true, if_false, if_neg hshort] at herr
  split at herr
  · rename_i e he
    exact hstart (he.trans (congrArg Except.error (Except.error.inj herr)))
  · split at herr <;> cases herr

/-! ## 3. The way up -/

/-- The way up starts at the location itself. -/
theorem ancestors_eq_cons (d : Location) :
    ancestors d = d :: (List.range d.length).reverse.map d.take := by
  rw [ancestors, List.range_succ, List.reverse_append, List.reverse_singleton,
    List.singleton_append, List.map_cons, List.take_length]

/-- The way up from a location meets the locations above it, and no other. -/
theorem mem_ancestors : a ∈ ancestors d ↔ a <+: d := by
  rw [ancestors, List.mem_map, List.prefix_iff_eq_take]
  constructor
  · rintro ⟨k, hk, rfl⟩
    rw [List.mem_reverse, List.mem_range] at hk
    rw [List.length_take_of_le (by omega)]
  · intro h
    refine ⟨a.length, ?_, h.symm⟩
    have hle : a.length ≤ d.length := by
      rw [h, List.length_take]
      exact Nat.min_le_right _ _
    rw [List.mem_reverse, List.mem_range]
    omega

/-- It meets the deeper ones first.  With `mem_ancestors` this says all about the order of the
search that is needed. -/
theorem pairwise_ancestors (d : Location) :
    (ancestors d).Pairwise fun a b => b.length < a.length := by
  rw [ancestors, List.pairwise_map, List.pairwise_reverse]
  refine List.pairwise_lt_range.imp_of_mem ?_
  intro j k hj hk hlt
  rw [List.mem_range] at hj hk
  rw [List.length_take_of_le (by omega), List.length_take_of_le (by omega)]
  exact hlt

/-- **The first hit on the way up is the deepest**, whatever is hit.  Two locations above one and of
the same length are one, so there is no more than one deepest hit. -/
theorem find?_ancestors_eq_some_iff {hit : Location → Bool} :
    (ancestors d).find? hit = some a ↔
      a <+: d ∧ hit a = true ∧ ∀ b, b <+: d → hit b = true → b.length ≤ a.length := by
  have hfirst : ∀ a, (ancestors d).find? hit = some a →
      a <+: d ∧ hit a = true ∧ ∀ b, b <+: d → hit b = true → b.length ≤ a.length := by
    intro a h
    obtain ⟨ha, before, after, hsplit, hmiss⟩ := List.find?_eq_some_iff_append.mp h
    have hdeeper := pairwise_ancestors d
    rw [hsplit, List.pairwise_append, List.pairwise_cons] at hdeeper
    refine ⟨mem_ancestors.mp (List.mem_of_find?_eq_some h), ha, fun b hb hhit => ?_⟩
    have hmem := mem_ancestors.mpr hb
    rw [hsplit, List.mem_append, List.mem_cons] at hmem
    rcases hmem with hmem | rfl | hmem
    · have hno := hmiss b hmem
      rw [hhit] at hno
      cases hno
    · exact Nat.le_refl _
    · exact Nat.le_of_lt (hdeeper.2.1.1 b hmem)
  refine ⟨hfirst a, ?_⟩
  rintro ⟨ha, hhit, hdeepest⟩
  cases hfound : (ancestors d).find? hit with
  | none =>
    have hno := List.find?_eq_none.mp hfound a (mem_ancestors.mpr ha)
    exact absurd hhit hno
  | some a' =>
    obtain ⟨ha', hhit', hdeepest'⟩ := hfirst a' hfound
    have hlen := Nat.le_antisymm (hdeepest a' ha' hhit') (hdeepest' a ha hhit)
    rw [(List.prefix_of_prefix_length_le ha' ha hlen.le).eq_of_length hlen]

/-! ## 4. The search -/

/-- Directories in which the system can look are asked one after another.  The answer is then the
first that holds something by the name of a file of settings, and no failure can come up. -/
theorem firstIn_eq (h : ∀ l ∈ ls, files.isTooLong (fileIn l) = false) :
    firstIn files ls = .ok ((ls.find? fun l => files.holds (fileIn l)).map fileIn) := by
  induction ls with
  | nil => rfl
  | cons l ls ih =>
    have hrest := ih fun k hk => h k (List.mem_cons_of_mem l hk)
    rw [firstIn, FileTree.ifLooked, h l List.mem_cons_self]
    cases hl : files.holds (fileIn l) <;> simp [hl, hrest]

/-- What is found is in one of the directories. -/
theorem exists_of_firstIn (h : firstIn files ls = .ok (some q)) : ∃ l ∈ ls, q = fileIn l := by
  induction ls with
  | nil => cases h
  | cons l ls ih =>
    unfold firstIn at h
    split at h
    · cases h
    · exact ⟨l, List.mem_cons_self, (Option.some.inj (Except.ok.inj h)).symm⟩
    · obtain ⟨k, hk, hq⟩ := ih h
      exact ⟨k, List.mem_cons_of_mem l hk, hq⟩

theorem exists_of_search (h : search files p = .ok (some q)) :
    ∃ l, l <+: directoryOf files p ∧ q = fileIn l := by
  unfold search at h
  split at h
  · cases h
  · split at h
    · cases h
    · obtain ⟨l, hl, hq⟩ := exists_of_firstIn h
      exact ⟨l, mem_ancestors.mp hl, hq⟩

/-- The directory that a search starts in: the one at a location, or the one with the file that is
there. -/
def startingAt (files : FileTree) (l : Location) : Location :=
  match files.find? l with
  | some (.file _) => l.dropLast
  | _ => l

theorem directoryOf_eq (hnames : ∀ c ∈ files.resolve p, isName c = true)
    (hlong : files.isTooLong (.ofLocation (files.resolve p)) = false) :
    directoryOf files p = startingAt files (files.resolve p) := by
  have hfile := FileTree.isFile_ofLocation_iff hnames hlong
  unfold directoryOf startingAt
  dsimp only
  split
  · rename_i h
    obtain ⟨bytes, hb⟩ := hfile.mp h
    rw [hb]
  · rename_i h
    split
    · rename_i bytes hb
      exact absurd (hfile.mpr ⟨bytes, hb⟩) h
    · rfl

theorem mem_startingAt {l : Location} {c : String} (h : c ∈ startingAt files l) : c ∈ l := by
  unfold startingAt at h
  split at h
  · exact List.dropLast_subset l h
  · exact h

/-- A directory at or above a location holds a file of settings, and no deeper one does.  It is said
of entries alone, and of any entry by that name, as the search takes a directory for a file of
settings, too. -/
structure Nearest (files : FileTree) (d a : Location) : Prop where
  above : a <+: d
  held : files.find? (a ++ [fileName]) ≠ none
  deepest : ∀ b, b <+: d → files.find? (b ++ [fileName]) ≠ none → b.length ≤ a.length

instance (files : FileTree) (d a : Location) : Decidable (Nearest files d a) :=
  decidable_of_iff
    (a <+: d ∧ files.find? (a ++ [fileName]) ≠ none ∧
      ∀ b ∈ ancestors d, files.find? (b ++ [fileName]) ≠ none → b.length ≤ a.length)
    ⟨fun ⟨h1, h2, h3⟩ => ⟨h1, h2, fun b hb => h3 b (mem_ancestors.mpr hb)⟩,
      fun ⟨h1, h2, h3⟩ => ⟨h1, h2, fun b hb => h3 b (mem_ancestors.mp hb)⟩⟩

theorem holds_fileIn_iff (hnames : ∀ c ∈ a, isName c = true)
    (hlong : files.isTooLong (fileIn a) = false) :
    files.holds (fileIn a) = true ↔ files.find? (a ++ [fileName]) ≠ none :=
  FileTree.holds_ofLocation_iff (names_fileIn hnames) hlong

/-- Where the system can look in a directory, the first hit on the way up is what is nearest. -/
theorem find?_eq_some_iff_nearest (hnames : ∀ c ∈ d, isName c = true)
    (hlong : ∀ a, a <+: d → files.isTooLong (fileIn a) = false) :
    (ancestors d).find? (fun l => files.holds (fileIn l)) = some a ↔ Nearest files d a := by
  have hheld : ∀ a, a <+: d →
      (files.holds (fileIn a) = true ↔ files.find? (a ++ [fileName]) ≠ none) :=
    fun a ha => holds_fileIn_iff (fun c hc => hnames c (ha.subset hc)) (hlong a ha)
  rw [find?_ancestors_eq_some_iff]
  constructor
  · rintro ⟨ha, hhit, hdeep⟩
    exact ⟨ha, (hheld a ha).mp hhit, fun b hb hf => hdeep b hb ((hheld b hb).mpr hf)⟩
  · rintro ⟨ha, hf, hdeep⟩
    exact ⟨ha, (hheld a ha).mpr hf, fun b hb hhit => hdeep b hb ((hheld b hb).mp hhit)⟩

/-- **The search finds the nearest file of settings.**  It starts in the directory that a path
resolves to, or in the one with the file that is there.  Where a null character or the length of a
name or a path keeps the system from looking at the path, or for a file of settings in that
directory, it fails.  Otherwise it answers, with the file in the deepest directory from there up
that has one, whatever kind of entry that is, and with nothing if none has one. -/
theorem search_nearest (files : FileTree) (hhere : files.find? files.here = some .directory)
    (text : String) :
    let p := Path.ofText text
    let l := files.resolve p
    let d := startingAt files l
    (p.holdsNull = true → search files p = .error .nullInPath) ∧
    (p.holdsNull = false →
      (files.isTooLong (.ofLocation l) = true ∨ files.isTooLong (fileIn d) = true) →
      search files p = .error .tooLong) ∧
    (p.holdsNull = false →
      files.isTooLong (.ofLocation l) = false → files.isTooLong (fileIn d) = false →
      ∃ found, search files p = .ok found ∧
        (∀ q, found = some q ↔ ∃ a, Nearest files d a ∧ q = fileIn a) ∧
        (found = none ↔ ∀ a, a <+: d → files.find? (a ++ [fileName]) = none)) := by
  intro p l d
  have hnames : p.holdsNull = false → ∀ c ∈ l, isName c = true :=
    fun hnull c hc => FileTree.isName_of_mem_resolve hhere hnull hc
  have hwithin : ∀ c ∈ d, c ∈ l := fun c hc => mem_startingAt hc
  refine ⟨fun hnull => if_pos hnull, ?_, ?_⟩
  · intro hnull hlong
    rw [search, hnull, if_neg Bool.false_ne_true]
    by_cases hl : files.isTooLong (.ofLocation l) = true
    · exact if_pos hl
    · rw [if_neg hl, directoryOf_eq (hnames hnull) (by simpa using hl)]
      have hd := hlong.resolve_left hl
      rw [ancestors_eq_cons, firstIn, FileTree.ifLooked, if_pos hd]
  · intro hnull hl hd
    have hdnames : ∀ c ∈ d, isName c = true := fun c hc => hnames hnull c (hwithin c hc)
    have hdnull : (fileIn d).holdsNull = false := FileTree.holdsNull_of_names (names_fileIn hdnames)
    have hlooked : ∀ a, a <+: d → files.isTooLong (fileIn a) = false :=
      fun a ha => isTooLong_fileIn hdnull hd ha
    have hmiss : ∀ a, a <+: d →
        (¬ files.holds (fileIn a) = true ↔ files.find? (a ++ [fileName]) = none) := by
      intro a ha
      rw [holds_fileIn_iff (fun c hc => hdnames c (ha.subset hc)) (hlooked a ha), not_not]
    refine ⟨((ancestors d).find? fun l => files.holds (fileIn l)).map fileIn, ?_, ?_, ?_⟩
    · have hl : ¬ files.isTooLong (.ofLocation (files.resolve p)) = true := by
        rw [Bool.not_eq_true]
        exact hl
      rw [search, hnull, if_neg Bool.false_ne_true, if_neg hl,
        directoryOf_eq (hnames hnull) (by simpa using hl)]
      exact firstIn_eq fun a ha => hlooked a (mem_ancestors.mp ha)
    · intro q
      simp only [Option.map_eq_some_iff, find?_eq_some_iff_nearest hdnames hlooked, @eq_comm _ q]
    · rw [Option.map_eq_none_iff, List.find?_eq_none]
      constructor
      · intro h a ha
        exact (hmiss a ha).mp (h a (mem_ancestors.mpr ha))
      · intro h a ha
        exact (hmiss a (mem_ancestors.mp ha)).mpr (h a (mem_ancestors.mp ha))

/-- A file of settings below the root, and a directory by the same name further down. -/
def nestedFiles : FileTree :=
  (((((FileTree.empty ["w", "a"]).put ["w"] .directory).put ["w", fileName] (.file .empty)).put
    ["w", "a"] .directory).put ["w", "a", fileName] .directory).put ["w", "a", "f"] (.file .empty)

/-- From a file, by a way that goes up and down again, to the directory that has the name of a file
of settings. -/
theorem search_nearest_nested :
    nestedFiles.find? nestedFiles.here = some .directory ∧
    search nestedFiles (.ofText "../a/./f") = .ok (some (fileIn ["w", "a"])) := by
  have hhere : nestedFiles.find? nestedFiles.here = some .directory := by decide +kernel
  refine ⟨hhere, ?_⟩
  obtain ⟨-, -, hanswers⟩ := search_nearest nestedFiles hhere "../a/./f"
  obtain ⟨found, hsearch, hfound, -⟩ :=
    hanswers (by decide +kernel) (by decide +kernel) (by decide +kernel)
  have hnearest : Nearest nestedFiles ["w", "a"] ["w", "a"] := by decide +kernel
  have hstart : startingAt nestedFiles (nestedFiles.resolve (.ofText "../a/./f")) = ["w", "a"] := by
    decide +kernel
  rw [hsearch, (hfound _).mpr ⟨["w", "a"], hstart.symm ▸ hnearest, rfl⟩]

/-- A directory with a file of settings. -/
def plainFiles : FileTree :=
  ((FileTree.empty ["w"]).put ["w"] .directory).put ["w", fileName] (.file .empty)

/-- A name that is longer than any entry's. -/
def longName : String :=
  String.ofList (List.replicate 256 'a')

/-- **What is nearest is not found from a path that the system cannot look at**: one that holds a
null character, and one with a name that is too long. -/
theorem search_fails_below_nearest :
    (Nearest plainFiles (startingAt plainFiles (plainFiles.resolve (.ofText "\x00"))) ["w"] ∧
      search plainFiles (.ofText "\x00") = .error .nullInPath) ∧
    (Nearest plainFiles (startingAt plainFiles (plainFiles.resolve (.ofText longName))) ["w"] ∧
      search plainFiles (.ofText longName) = .error .tooLong) := by
  refine ⟨by decide +kernel, ?_⟩
  have hname : isName longName = true := by
    have hchars : longName.toList = List.replicate 256 'a' := String.toList_ofList
    have hnone : ∀ c : Char, c ≠ 'a' → longName.toList.contains c = false := by
      intro c hc
      rw [hchars, List.contains_replicate, beq_eq_false_iff_ne.mpr hc, Bool.false_and]
    rw [isName, hnone '/' (by decide), hnone '\x00' (by decide)]
    decide +kernel
  have hlong : FileTree.maxName < longName.utf8ByteSize := by decide +kernel
  have hresolve : plainFiles.resolve ⟨0, [longName]⟩ = ["w", longName] := by decide +kernel
  have hfirst : plainFiles.isTooLong (.ofLocation ["w", longName]) = true :=
    FileTree.isTooLong_name (l := ["w"]) (by decide +kernel) hname hlong
  have hnull : (⟨0, [longName]⟩ : Path).holdsNull = false :=
    FileTree.holdsNull_of_names (List.forall_mem_singleton.mpr hname)
  have hstart : startingAt plainFiles ["w", longName] = ["w", longName] := by decide +kernel
  have hnearest : Nearest plainFiles ["w", longName] ["w"] := by decide +kernel
  rw [FileTree.ofText_name hname, search, hresolve, hstart, hnull, if_neg Bool.false_ne_true,
    if_pos hfirst]
  exact ⟨hnearest, rfl⟩

end Settings

end IndentLisp
