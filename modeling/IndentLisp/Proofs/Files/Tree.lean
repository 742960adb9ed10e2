/-
# What lies below a directory

`FileTree.Below` says which path leads to an entry below a directory, in terms of locations alone.
**Going along the path finds that entry**, or else the path is too long for the system to look where
it leads (`FileTree.locate_of_below`).

A location is a list of names, and a path is a way to go from one, which may stay or go up.  What is
said of an entry is said of its location; what the program does, it does with a path.  So the first
section is about ways: the names on the way to an entry lead there (`walk_names`), and a way that
leads anywhere goes by names, apart from the components that stay or go up (`walk_filter`).  A way
can fail in one way only that the entries do not tell, by a name or a path that is too long, and
this is kept apart throughout: `FileTree.Refuses` says that some of what lies below a directory
cannot be looked at, or the directory itself, and what is said of listings is said where it does not
hold.

* `FileTree.mem_pathsUnder`, `FileTree.mem_filesUnder`: the listings hold just these paths, each of
  them once (`FileTree.nodup_pathsUnder`).
* `FileTree.readBytes_of_below`: what is listed can be read.
* `FileTree.Alike`: trees that find the same at every location, whatever the order of their entries,
  lead every path to the same place.

The last says that nothing depends on the order in which a directory lists its entries.  It is
proved one function after another, each from those that it is made of.
-/
import IndentLisp.Files.Tree
import Mathlib.Data.List.Induction
import Mathlib.Data.List.Nodup

namespace IndentLisp

namespace FileTree

variable {t u : FileTree} {l : Location} {names : List String} {e : Entry} {directory p : Path}

/-! ## 1. Going down -/

theorem not_special {c : String} (h : isName c = true) : ¬(c = "" ∨ c = ".") ∧ c ≠ ".." := by
  simp only [isName, Bool.and_eq_true, decide_eq_true_eq] at h
  exact ⟨fun hc => hc.elim h.1.1.1.1 h.1.1.1.2, h.1.1.2⟩

theorem not_null {c : String} (h : isName c = true) : c.toList.contains '\x00' = false := by
  simp only [isName, Bool.and_eq_true, Bool.not_eq_true'] at h
  exact h.2

/-- What an entry lies in is a directory, all the way up.  That is part of what a file tree is, and
is read off it here for a location that is given as a location and names below it. -/
theorem find?_above (h : t.find? (l ++ names) = some e) (k : Nat) (hk : k < names.length) :
    t.find? (l ++ names.take k) = some .directory := by
  induction names using List.reverseRecOn generalizing e k with
  | nil => exact absurd hk (Nat.not_lt_zero k)
  | append_singleton names c ih =>
    have hup := t.find?_dropLast h
    rw [← List.append_assoc, List.dropLast_concat] at hup
    rw [List.length_append, List.length_singleton] at hk
    rw [List.take_append_of_le_length (by omega)]
    rcases Nat.lt_succ_iff_lt_or_eq.mp hk with hlt | rfl
    · exact ih hup k hlt
    · rwa [List.take_length]

/-- The names of an entry are names. -/
theorem isName_of_find? (h : t.find? (l ++ names) = some e) : ∀ c ∈ names, isName c = true := by
  intro c hc
  have hne : l ++ names ≠ [] := List.append_ne_nil_of_right_ne_nil l (List.ne_nil_of_mem hc)
  have hm := List.mem_map_of_mem (f := Prod.fst) ((find?_eq_some_iff t hne).mp h)
  exact (t.proper _ hm).2 c (List.mem_append_right l hc)

/-- **The names on the way to an entry lead there**, unless one of them is too long.  No directory
on the way can be missing, and a name never stays or goes up, so there is nothing else that could go
wrong. -/
theorem walk_names (h : t.find? (l ++ names) = some e) :
    t.walk l names = if names.any (maxName < ·.utf8ByteSize) then .error .tooLong
      else .ok (l ++ names) := by
  induction names generalizing l with
  | nil => simp [walk]
  | cons c names ih =>
    have hdir : t.find? l = some .directory := by simpa using find?_above h 0 (Nat.zero_lt_succ _)
    obtain ⟨hstay, hup⟩ := not_special (isName_of_find? h c List.mem_cons_self)
    have hrest := ih (l := l ++ [c]) (by simpa using h)
    by_cases hlong : maxName < c.utf8ByteSize
    · simp [walk, hdir, hstay, hup, hlong]
    · simp [walk, hdir, hstay, hup, hlong, hrest]

theorem walk_append (t : FileTree) (l : Location) (cs ds : List String) :
    t.walk l (cs ++ ds) =
      match t.walk l cs with
      | .error e => .error e
      | .ok k => t.walk k ds := by
  induction cs generalizing l with
  | nil => rfl
  | cons c cs ih =>
    simp only [List.cons_append, walk, ih]
    cases t.find? l with
    | none => rfl
    | some e =>
      cases e with
      | file bytes => rfl
      | directory =>
        dsimp only
        split_ifs <;> rfl

theorem find?_of_walk {cs : List String} {k : Location} (hw : t.walk l cs = .ok k)
    (hk : t.find? k = some e) : ∃ e', t.find? l = some e' := by
  cases cs with
  | nil =>
    obtain rfl : l = k := by simpa [walk] using hw
    exact ⟨e, hk⟩
  | cons c cs =>
    unfold walk at hw
    split at hw
    · cases hw
    · cases hw
    · exact ⟨_, by assumption⟩

/-- **A way that leads somewhere goes by names**, apart from the components that stay or go up, and
those that stay can be left out.  So the text of an operand and the path that it spells lead to the
same directory. -/
theorem walk_filter {cs : List String} {k : Location} (hw : t.walk l cs = .ok k)
    (hk : t.find? k = some e) :
    t.walk l (cs.filter fun c => c ≠ "" ∧ c ≠ ".") = .ok k ∧
      ∀ c ∈ cs, c ≠ "" → c ≠ "." → c = ".." ∨ isName c = true := by
  induction cs generalizing l with
  | nil => exact ⟨hw, by simp⟩
  | cons c cs ih =>
    unfold walk at hw
    split at hw
    case h_1 => cases hw
    case h_2 => cases hw
    case h_3 hdir =>
      by_cases hstay : c = "" ∨ c = "."
      · rw [if_pos hstay] at hw
        obtain ⟨hgo, hall⟩ := ih hw
        rw [List.filter_cons_of_neg (by rcases hstay with rfl | rfl <;> simp)]
        refine ⟨hgo, ?_⟩
        intro d hd h1 h2
        rcases List.mem_cons.mp hd with rfl | hd
        · exact absurd hstay (not_or.mpr ⟨h1, h2⟩)
        · exact hall d hd h1 h2
      have hmeans := not_or.mp hstay
      rw [if_neg hstay] at hw
      rw [List.filter_cons_of_pos (by simpa using hmeans)]
      by_cases hup : c = ".."
      · rw [if_pos hup] at hw
        obtain ⟨hgo, hall⟩ := ih hw
        refine ⟨by rw [walk, hdir]; simp only [if_neg hstay, if_pos hup, hgo], ?_⟩
        intro d hd h1 h2
        rcases List.mem_cons.mp hd with rfl | hd
        · exact .inl hup
        · exact hall d hd h1 h2
      · rw [if_neg hup] at hw
        by_cases hlong : maxName < c.utf8ByteSize
        · simp [hlong] at hw
        rw [if_neg hlong] at hw
        obtain ⟨hgo, hall⟩ := ih hw
        obtain ⟨e', he'⟩ := find?_of_walk hw hk
        refine ⟨?_, fun d hd h1 h2 => ?_⟩
        · rw [walk, hdir]
          simp only [if_neg hstay, if_neg hup, if_neg hlong, hgo]
        rcases List.mem_cons.mp hd with rfl | hd
        · exact .inr (isName_of_find? he' d List.mem_cons_self)
        · exact hall d hd h1 h2

/-! ## 2. Paths below a directory -/

/-- The path leads to the entry, which lies below the directory at any depth.  What counts is where
the directory is and which names lead on from there; that the path can be gone along is not part of
it. -/
def Below (t : FileTree) (directory p : Path) (e : Entry) : Prop :=
  ∃ l names, t.locate directory = .ok (l, .directory) ∧ names ≠ [] ∧
    t.find? (l ++ names) = some e ∧ p = directory.extend names

/-- The path of something below the directory is too long for the system to look where it leads, or
that of the directory. -/
def Refuses (t : FileTree) (directory : Path) : Prop :=
  t.isTooLong directory = true ∨ ∃ p e, t.Below directory p e ∧ t.isTooLong p = true

theorem isTooLong_iff : t.isTooLong p = true ↔ t.locate p = .error .tooLong := by
  unfold isTooLong
  split <;> simp_all

theorem locate_eq_ok_iff {k : Location} : t.locate p = .ok (k, e) ↔
    p.holdsNull = false ∧ p.shown.utf8ByteSize ≤ maxPath ∧ t.walk (t.start p) p.parts = .ok k ∧
      t.find? k = some e := by
  unfold locate
  by_cases hnull : p.holdsNull = true
  · simp [hnull]
  by_cases hlong : maxPath < p.shown.utf8ByteSize
  · simp [hnull, hlong, Nat.not_le.mpr hlong]
  rw [if_neg hnull, if_neg hlong]
  simp only [Bool.not_eq_true] at hnull
  simp only [hnull, Nat.not_lt.mp hlong, true_and]
  cases t.walk (t.start p) p.parts with
  | error f => simp
  | ok k' =>
    simp only [Except.ok.injEq]
    constructor
    · intro h
      cases hf : t.find? k' with
      | none => simp [hf] at h
      | some e' =>
        simp only [hf, Except.ok.injEq, Prod.mk.injEq] at h
        obtain ⟨rfl, rfl⟩ := h
        exact ⟨rfl, hf⟩
    · rintro ⟨rfl, hf⟩
      simp only [hf]

/-- **Going along the path finds the entry**, unless the path is too long to be looked at.  The
length is that of the whole path as a text, and also that of each name. -/
theorem locate_of_below (h : t.Below directory p e) (hlong : t.isTooLong p = false) :
    ∃ k, t.locate p = .ok (k, e) := by
  obtain ⟨l, names, hd, -, hf, rfl⟩ := h
  obtain ⟨hnull, -, hwalk, -⟩ := locate_eq_ok_iff.mp hd
  have hnames : (directory.extend names).holdsNull = false := by
    have hno : names.any (·.toList.contains '\x00') = false := by
      rw [List.any_eq_false]
      intro c hc
      rw [not_null (isName_of_find? hf c hc)]
      exact Bool.false_ne_true
    rw [Path.holdsNull, Path.extend, List.any_append, hno, Bool.or_false]
    exact hnull
  have hgo : t.walk (t.start (directory.extend names)) (directory.extend names).parts =
      if names.any (maxName < ·.utf8ByteSize) then .error .tooLong else .ok (l ++ names) := by
    calc t.walk (t.start (directory.extend names)) (directory.extend names).parts
        = t.walk (t.start directory) (directory.parts ++ names) := rfl
      _ = t.walk l names := by rw [walk_append, hwalk]
      _ = _ := walk_names hf
  rw [← Bool.not_eq_true, isTooLong_iff] at hlong
  unfold locate at hlong ⊢
  rw [hnames, hgo] at hlong ⊢
  by_cases hp : maxPath < (directory.extend names).shown.utf8ByteSize
  · exact absurd (by simp [hp]) hlong
  by_cases hn : names.any (maxName < ·.utf8ByteSize) = true
  · exact absurd (by simp [hp, hn]) hlong
  · exact ⟨l ++ names, by simp [hp, hn, hf]⟩

/-- Where nothing is too long to be looked at, every path finds its entry. -/
theorem locate_of_not_refuses (hr : ¬ t.Refuses directory) (h : t.Below directory p e) :
    ∃ k, t.locate p = .ok (k, e) := by
  refine locate_of_below h ?_
  by_contra hlong
  exact hr (.inr ⟨p, e, h, by simpa using hlong⟩)

/-- What is below a directory is an entry of the tree. -/
theorem Below.mem_entries (h : t.Below directory p e) : ∃ k, (k, e) ∈ t.entries := by
  obtain ⟨l, names, -, hnames, hf, -⟩ := h
  exact ⟨_, (find?_eq_some_iff t (List.append_ne_nil_of_right_ne_nil l hnames)).mp hf⟩

/-! ## 3. Listings -/

/-- **The listing of a directory holds the paths of all that lies below it**, and its own, unless it
is the root.  The listing is made from the entries of the tree, at any depth, and not by going down
from the directory. -/
theorem mem_pathsUnder : p ∈ t.pathsUnder directory ↔ (∃ e, t.Below directory p e) ∨
    p = directory ∧ ∃ l, t.locate directory = .ok (l, .directory) ∧ l ≠ [] := by
  unfold pathsUnder
  split
  case h_2 hno =>
    simp only [List.not_mem_nil, false_iff, not_or, not_exists, not_and]
    exact ⟨fun e ⟨l, _, hd, _⟩ => hno l hd, fun _ l hd => absurd hd (hno l)⟩
  case h_1 l hd =>
    have hfound : t.find? l = some .directory := (locate_eq_ok_iff.mp hd).2.2.2
    constructor
    · intro h
      obtain ⟨k, hk, rfl⟩ := List.mem_map.mp h
      obtain ⟨hk, hprefix⟩ := List.mem_filter.mp hk
      obtain ⟨names, rfl⟩ := List.isPrefixOf_iff_prefix.mp hprefix
      obtain ⟨⟨_, e⟩, he, rfl⟩ := List.mem_map.mp hk
      have hne := (t.proper _ hk).1
      by_cases hnames : names = []
      · subst hnames
        exact .inr ⟨by simp [Path.extend], l, hd, by simpa using hne⟩
      · exact .inl ⟨e, l, names, hd, hnames, (find?_eq_some_iff t hne).mpr he, by simp⟩
    · rintro (⟨e, l', names, hd', hnames, hf, rfl⟩ | ⟨rfl, l', hd', hne⟩)
      · obtain rfl : l = l' := by simpa using hd.symm.trans hd'
        have he := (find?_eq_some_iff t (List.append_ne_nil_of_right_ne_nil l hnames)).mp hf
        refine List.mem_map.mpr
          ⟨l ++ names, List.mem_filter.mpr ⟨List.mem_map_of_mem he, ?_⟩, by simp⟩
        exact List.isPrefixOf_iff_prefix.mpr (List.prefix_append l names)
      · obtain rfl : l = l' := by simpa using hd.symm.trans hd'
        have he := (find?_eq_some_iff t hne).mp hfound
        refine List.mem_map.mpr ⟨l, List.mem_filter.mpr ⟨List.mem_map_of_mem he, ?_⟩, ?_⟩
        · exact List.isPrefixOf_iff_prefix.mpr (List.prefix_refl l)
        · simp [Path.extend]

/-- Each path is listed once. -/
theorem nodup_pathsUnder (t : FileTree) (directory : Path) : (t.pathsUnder directory).Nodup := by
  unfold pathsUnder
  split
  case h_2 => exact List.nodup_nil
  case h_1 l _ =>
    refine List.Nodup.map_on ?_ (t.nodup.sublist List.filter_sublist)
    intro a ha b hb hab
    have ha := List.isPrefixOf_iff_prefix.mp (List.mem_filter.mp ha).2
    have hb := List.isPrefixOf_iff_prefix.mp (List.mem_filter.mp hb).2
    have htails : a.drop l.length = b.drop l.length := by simpa [Path.extend] using hab
    rw [← List.prefix_iff_eq_append.mp ha, ← List.prefix_iff_eq_append.mp hb, htails]

theorem any_isTooLong_iff :
    (directory :: t.pathsUnder directory).any t.isTooLong = true ↔ t.Refuses directory := by
  simp only [List.any_cons, Bool.or_eq_true, List.any_eq_true, mem_pathsUnder, Refuses]
  constructor
  · rintro (h | ⟨p, ⟨e, hp⟩ | ⟨rfl, -⟩, h⟩)
    · exact .inl h
    · exact .inr ⟨p, e, hp, h⟩
    · exact .inl h
  · rintro (h | ⟨p, e, hp, h⟩)
    · exact .inl h
    · exact .inr ⟨p, .inl ⟨e, hp⟩, h⟩

instance (t : FileTree) (directory : Path) : Decidable (t.Refuses directory) :=
  decidable_of_iff _ any_isTooLong_iff

/-- **All the files below a directory are listed, and nothing else**, if all that lies there can be
looked at.  A directory below it is left out, whatever its name is. -/
theorem mem_filesUnder (hr : ¬ t.Refuses directory) :
    p ∈ t.filesUnder directory ↔ ∃ bytes, t.Below directory p (.file bytes) := by
  rw [filesUnder, List.mem_filter, mem_pathsUnder]
  constructor
  · rintro ⟨⟨e, hb⟩ | ⟨rfl, l, hd, -⟩, hfile⟩
    · obtain ⟨k, hk⟩ := locate_of_not_refuses hr hb
      cases e with
      | file bytes => exact ⟨bytes, hb⟩
      | directory => simp [isFile, hk] at hfile
    · simp [isFile, hd] at hfile
  · rintro ⟨bytes, hb⟩
    obtain ⟨k, hk⟩ := locate_of_not_refuses hr hb
    exact ⟨.inl ⟨_, hb⟩, by simp [isFile, hk]⟩

/-- The bytes of a file below a directory are read by its path. -/
theorem readBytes_of_below {bytes : ByteArray} (hr : ¬ t.Refuses directory)
    (h : t.Below directory p (.file bytes)) : t.readBytes p = .ok bytes := by
  obtain ⟨k, hk⟩ := locate_of_not_refuses hr h
  simp [readBytes, hk]

/-! ## 4. Trees that are alike -/

/-- The same is found at every location, and relative paths start at the same one.  How the entries
are kept, and in which order, is what the two trees need not have in common. -/
structure Alike (t u : FileTree) : Prop where
  find?_eq : t.find? = u.find?
  here_eq : t.here = u.here

theorem Alike.walk_eq (h : t.Alike u) (l : Location) (cs : List String) :
    t.walk l cs = u.walk l cs := by
  induction cs generalizing l with
  | nil => rfl
  | cons c cs ih => simp only [walk, h.find?_eq, ih]

/-- **Trees that are alike lead every path to the same place.**  Going along a path asks the tree
for nothing but what is found at locations. -/
theorem Alike.locate_eq (h : t.Alike u) : t.locate = u.locate := by
  funext p
  simp only [locate, start, h.here_eq, h.walk_eq, h.find?_eq]

theorem Alike.isTooLong_eq (h : t.Alike u) : t.isTooLong = u.isTooLong := by
  funext p
  simp only [isTooLong, h.locate_eq]

theorem Alike.below_iff (h : t.Alike u) : t.Below directory p e ↔ u.Below directory p e := by
  simp only [Below, h.locate_eq, h.find?_eq]

theorem Alike.refuses_iff (h : t.Alike u) : t.Refuses directory ↔ u.Refuses directory := by
  simp only [Refuses, h.isTooLong_eq, h.below_iff]

theorem Alike.readText_eq (h : t.Alike u) : t.readText = u.readText := by
  funext p
  simp only [readText, readBytes, h.locate_eq]

end FileTree

end IndentLisp
