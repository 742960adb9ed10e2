/-
# Formatting

A tree is formatted by writing each of its top-level forms in classic syntax, one after another,
with a line end between two (section 11, `format`).  The forms of the formatted text are blocks of
their own (`found_lines`), each in a style of its own: a list is a classic block, and a leaf an
indented one, which puts a list around it.  **So formatting keeps a tree but for the leaves among
several forms** (`read_formatted`), and after that has happened once it keeps everything.

A leaf among several forms comes from a text such as `(a) b`, in which it follows a list that is
closed, on the same line, and so is drawn at the root.  On a line of its own it starts a block.  A
lone leaf is another matter: it is written as it is and read as a block, whose list is then
stripped.

The line end after a form is the first one to its block, whether the form is a list or a leaf, and
no tab follows it; so the forms are separate, and each is passed as in a round trip.

* `Tree.formatted`: the text.
* `Data.reformed`: what formatting does to the forms, **all that it can do at once**
  (`Data.reformed_reformed`).
* `Data.map_asBlock_eq_iff`: it changes something just if there is a leaf among them.
* `read_formatted`: **formatting, in one case split, and once more.**
-/
import IndentLisp.Proofs.Reader.Separation
import IndentLisp.Proofs.Tree.Forms

namespace IndentLisp

/-- The top-level forms in classic syntax, a line end between each two. -/
def Tree.formatted (t : Tree) : String :=
  "\n".intercalate (t.formData.map Data.classic)

namespace Data

/-! ## 1. What formatting does to forms -/

/-- The forms of a text that holds the given forms, each as a block of its own.  It is what one
formatting does, in terms of data alone. -/
def reformed (xs : List Data) : List Data :=
  forms (xs.map asBlock)

theorem asBlock_asBlock (x : Data) : x.asBlock.asBlock = x.asBlock := by
  cases x <;> rfl

/-- A block is the form itself unless that is a leaf. -/
theorem asBlock_eq_self_iff {x : Data} : x.asBlock = x ↔ ∀ s, x ≠ .leaf s := by
  cases x with
  | leaf s => simp [asBlock]
  | list items => simp [asBlock]

/-- Just the leaves among several data are not blocks of their own. -/
theorem map_asBlock_eq_iff {xs : List Data} : xs.map asBlock = xs ↔ ¬ ∃ s, leaf s ∈ xs := by
  have hmap : xs.map asBlock = xs ↔ ∀ x ∈ xs, x.asBlock = x := by
    have h := List.map_inj_left (l := xs) (f := asBlock) (g := id)
    rw [List.map_id] at h
    exact h
  rw [hmap, not_exists]
  constructor
  · intro h s hs
    exact asBlock_eq_self_iff.mp (h _ hs) s rfl
  · intro h x hx
    refine asBlock_eq_self_iff.mpr fun s hs => h s ?_
    rw [← hs]
    exact hx

/-- **What was formatted once is kept.**  A block of its own is not changed by becoming one, and a
lone form has been stripped. -/
theorem reformed_reformed (xs : List Data) : reformed (reformed xs) = reformed xs := by
  by_cases h1 : xs.length = 1
  · obtain ⟨x, rfl⟩ := List.length_eq_one_iff.mp h1
    have hone : ∀ y, reformed [y] = [y.unwrap] := by
      intro y
      have hy := y.unwrap_list_asBlock
      rw [unwrap] at hy
      rw [reformed, List.map_singleton, forms, hy]
    rw [hone, hone, unwrap_unwrap]
  · have hne : (xs.map asBlock).length ≠ 1 := by
      rw [List.length_map]
      exact h1
    have hmap : (xs.map asBlock).map asBlock = xs.map asBlock := by
      rw [List.map_map]
      exact List.map_congr_left fun x _ => asBlock_asBlock x
    rw [reformed, reformed, forms_of_length_ne hne, hmap, forms_of_length_ne hne]

theorem texts_unwrap (x : Data) : x.unwrap.texts = x.texts := by
  fun_induction unwrap x with
  | case1 x ih =>
    rw [ih, texts.eq_2, textsOf, textsOf, List.append_nil]
  | case2 x h => rfl

/-- The forms have the leaves of what was drawn. -/
theorem textsOf_forms (xs : List Data) : textsOf (forms xs) = textsOf xs := by
  unfold forms
  split
  · simp [textsOf, texts_unwrap]
  · rfl

/-! ## 2. Lines of classic forms -/

/-- Classic forms, a line end between each two. -/
def lines : List Data → List Char
  | [] => []
  | [x] => x.classicOnto []
  | x :: y :: zs => x.classicOnto ('\n' :: lines (y :: zs))

theorem toList_lines (xs : List Data) :
    ("\n".intercalate (xs.map classic)).toList = lines xs := by
  fun_induction lines xs with
  | case1 => rfl
  | case2 x => simp [classic]
  | case3 x y zs ih =>
    rw [List.map_cons] at ih
    rw [List.map_cons, List.map_cons, String.intercalate_cons_cons, String.toList_append,
      String.toList_append, ih, classic, String.toList_ofList, classicOnto_eq ('\n' :: _)]
    simp

theorem notMem_lines (xs : List Data) (hx : ∀ s ∈ textsOf xs, '\r' ∉ s.toList) :
    '\r' ∉ lines xs := by
  fun_induction lines xs with
  | case1 => exact List.not_mem_nil
  | case2 x =>
    exact x.notMem_classicOnto (fun s hs => hx s (by simp [textsOf, hs])) List.not_mem_nil
  | case3 x y zs ih =>
    have hrest : '\r' ∉ lines (y :: zs) := ih fun s hs => hx s (List.mem_append_right _ hs)
    exact x.notMem_classicOnto (fun s hs => hx s (by simp [textsOf, hs])) (by simp [hrest])

/-- A classic form starts with a parenthesis or a token. -/
theorem exists_classicOnto_cons (x : Data) (hx : ∀ s ∈ x.texts, Token.Valid s) (rest : List Char) :
    ∃ c cs, x.classicOnto rest = c :: cs ∧ c ≠ '\n' ∧ c ≠ '\t' := by
  cases x with
  | leaf s =>
    have hs : Token.Valid s := hx s (by simp [texts])
    obtain ⟨c, cs, hcs, hc⟩ := hs.exists_cons
    obtain ⟨-, -, -, ht, hn, -⟩ := Token.isStart_iff.mp hc
    refine ⟨c, cs ++ rest, ?_, hn, ht⟩
    rw [classicOnto, hcs, List.cons_append]
  | list items => exact ⟨'(', _, by rw [classicOnto], by decide, by decide⟩

/-- Lines do not start with a tab, nor do they after line ends that they start with. -/
theorem head?_lines (x : Data) (xs : List Data) (hx : ∀ s ∈ textsOf (x :: xs), Token.Valid s) :
    ((lines (x :: xs)).dropWhile (· = '\n')).head? ≠ some '\t' := by
  have hfront : ∃ rest, lines (x :: xs) = x.classicOnto rest := by
    cases xs with
    | nil => exact ⟨_, rfl⟩
    | cons y zs => exact ⟨_, rfl⟩
  obtain ⟨rest, hlines⟩ := hfront
  obtain ⟨c, cs, hcs, hn, ht⟩ :=
    x.exists_classicOnto_cons (fun s hs => hx s (List.mem_append_left _ hs)) rest
  rw [hlines, hcs, List.dropWhile_cons_of_neg (by simpa using hn)]
  simpa using ht

end Data

/-- **Each form is a block**, whatever form comes before it. -/
theorem found_lines (xs : List Data) (hx : ∀ s ∈ Data.textsOf xs, Token.Valid s) :
    (scan none (Data.lines xs)).found = (Data.strokesOf (xs.map Data.asBlock), none) := by
  fun_induction Data.lines xs with
  | case1 =>
    rw [scan_nil]
    rfl
  | case2 x =>
    obtain ⟨hs, ho⟩ := scan_classic x fun s hs => hx s (by simp [Data.textsOf, hs])
    rw [Scan.found, hs, ho, List.map_singleton, Data.strokesOf, Data.strokesOf, List.append_nil]
  | case3 x y zs ih =>
    have hrest : ∀ s ∈ Data.textsOf (y :: zs), Token.Valid s :=
      fun s hs => hx s (List.mem_append_right _ hs)
    have hend : ∀ c, ('\n' :: Data.lines (y :: zs)).head? = some c →
        Token.isDelimiter c = true := by
      simp [Token.isDelimiter]
    obtain ⟨k, xs, hscan, hxs⟩ :=
      scan_classicBlock x (fun s hs => hx s (List.mem_append_left _ hs)) hend
    have hends : x.nesting.EndsBefore (Data.lines (y :: zs)) := by
      constructor
      · intro
        cases x <;> rfl
      · intro
        exact Data.head?_lines y zs hrest
    have hbreak : scan (some x.nesting) ('\n' :: Data.lines (y :: zs)) =
        (scan none (Data.lines (y :: zs))).after
          ⟨1, List.replicate x.nesting.level .leave, none⟩ := by
      refine scan_ends 0 ?_
      rintro n ⟨⟩
      exact hends
    rw [hscan, hbreak, Scan.found_after, Scan.found_after, ih hrest, ← Stroke.before_append, hxs]
    rfl

/-! ## 3. Formatted texts -/

theorem arena_draftOf (text : String) : (draftOf text).tree.Arena :=
  Draft.arena_draw Tree.arena_empty _

/-- **Forms are read as blocks.** -/
theorem read_lines (xs : List Data) (hx : ∀ s ∈ Data.textsOf xs, Token.Valid s) (file : String) :
    ∃ t, read ("\n".intercalate (xs.map Data.classic)) file = .ok t ∧
      t.data = (Data.list (xs.map Data.asBlock)).unwrap ∧ t.formData = Data.reformed xs := by
  have hcr : '\r' ∉ Data.lines xs := Data.notMem_lines xs fun s hs => (hx s hs).unified
  have hfound := found_lines xs hx
  generalize htext : "\n".intercalate (xs.map Data.classic) = text
  have hscan : scanText text = scan none (Data.lines xs) := by
    rw [scanText, ← htext, Data.toList_lines, Lines.unify_of_notMem hcr]
  rw [← hscan] at hfound
  obtain ⟨hs, ho⟩ := Prod.mk.inj hfound
  have hdraw : draftOf text = Draft.start.draw (Data.strokesOf (xs.map Data.asBlock)) := by
    rw [draftOf, hs]
  have hsaid : (draftOf text).said = xs.map Data.asBlock := by
    rw [hdraw, (Draft.draw_strokesOf _ _).1]
    rfl
  have hl : (draftOf text).level = 0 := level_draw_scan ho rfl
  refine ⟨(draftOf text).tree.unwrap, read_eq_ok_iff.mpr ⟨ho, rfl⟩, ?_, ?_⟩
  · rw [Tree.data_unwrap, Draft.data_of_level hl, hsaid]
  · rw [Draft.formData_unwrap (arena_draftOf text) hl, hsaid, Data.reformed]

/-- What is known of the forms of a tree that was read. -/
theorem formData_of_read {text file : String} {t : Tree} (h : read text file = .ok t) :
    (∀ s ∈ Data.textsOf t.formData, Token.Valid s) ∧ t.formData.length = t.forms.length ∧
      (t.root = 0 → t.formData.length ≠ 1 ∧ t.data = .list t.formData) ∧
      (t.root ≠ 0 → t.formData = [t.data] ∧ t.data.unwrap = t.data) := by
  obtain ⟨ho, rfl⟩ := read_eq_ok_iff.mp h
  have hl : (draftOf text).level = 0 := level_draw_scan ho rfl
  have ha := arena_draftOf text
  have hforms := Draft.formData_unwrap ha hl
  refine ⟨?_, ha.unwrap.length_formData, ?_, ?_⟩
  · intro s hs
    have htexts : Data.textsOf (draftOf text).said = (draftOf text).texts := by
      have h0 := (draftOf text).size_pos
      rw [← Draft.leaves_branchAt_zero _ h0, ← Branch.texts_data, ← Tree.dataAt_eq,
        Draft.dataAt_zero hl, Data.texts]
    rw [hforms, Data.textsOf_forms, htexts] at hs
    exact valid_of_mem_texts hs
  · intro h0
    have h1 := (Draft.root_unwrap_eq_zero_iff hl).mp h0
    refine ⟨?_, ha.unwrap.data_of_root_zero h0⟩
    rw [hforms, Data.forms_of_length_ne h1]
    exact h1
  · intro h0
    refine ⟨ha.unwrap.formData_of_root_ne h0, ?_⟩
    rw [Tree.data_unwrap, Data.unwrap_unwrap]

/-- A leaf among the forms is one of those that say a text alone. -/
theorem Tree.exists_leaf_form_iff {t : Tree} :
    (∃ n ∈ t.forms, t.isLeaf (n : Nat) = .ok true) ↔ ∃ s, Data.leaf s ∈ t.formData := by
  constructor
  · rintro ⟨n, hn, hleaf⟩
    obtain ⟨s, hs⟩ := isLeaf_eq_true_iff.mp hleaf
    refine ⟨s, List.mem_filterMap.mpr ⟨n, hn, ?_⟩⟩
    rw [hs]
    rfl
  · rintro ⟨s, hs⟩
    obtain ⟨n, hn, hsub⟩ := List.mem_filterMap.mp hs
    refine ⟨n, hn, isLeaf_eq_true_iff.mpr ⟨s, ?_⟩⟩
    cases hx : t.subtree (n : Nat) with
    | error e =>
      rw [hx] at hsub
      cases hsub
    | ok x =>
      rw [hx] at hsub
      cases hsub
      rfl

/-- **Formatting keeps what a tree says**, but that a leaf among several forms becomes a list of
itself.  So it keeps the tree just if there is no such leaf, and to format once more changes nothing
then. -/
theorem read_formatted {text file : String} {t : Tree} (h : read text file = .ok t)
    (file' : String) :
    ∃ t', read t.formatted file' = .ok t' ∧
      t'.data =
        (if t.root = 0 ∧ 2 ≤ t.forms.length then .list (t.formData.map Data.asBlock)
        else t.data) ∧
      (t'.data = t.data ↔ ¬ (t.root = 0 ∧ ∃ n ∈ t.forms, t.isLeaf (n : Nat) = .ok true)) ∧
      ∃ t'', read t'.formatted file' = .ok t'' ∧ t''.formatted = t'.formatted := by
  obtain ⟨hvalid, hlen, hzero, hone⟩ := formData_of_read h
  obtain ⟨t', hread, hdata, hforms⟩ := read_lines t.formData hvalid file'
  have hkept : t.root = 0 → t'.data = .list (t.formData.map Data.asBlock) := by
    intro h0
    rw [hdata, Data.unwrap_of_length_ne]
    rw [List.length_map]
    exact (hzero h0).1
  have hsame : t.root ≠ 0 → t'.data = t.data := by
    intro h0
    obtain ⟨hform, hunwrap⟩ := hone h0
    rw [hdata, hform, List.map_singleton, Data.unwrap_list_asBlock, hunwrap]
  refine ⟨t', hread, ?_, ?_, ?_⟩
  · by_cases h0 : t.root = 0
    · obtain ⟨hne, hlist⟩ := hzero h0
      rw [hkept h0]
      split
      · rfl
      · -- A wrapper that holds fewer than two forms is empty.
        have hnil : t.formData = [] := List.eq_nil_of_length_eq_zero (by omega)
        rw [hlist, hnil]
        rfl
    · rw [if_neg fun hw => h0 hw.1, hsame h0]
  · rw [Tree.exists_leaf_form_iff]
    by_cases h0 : t.root = 0
    · rw [hkept h0, (hzero h0).2, Data.list.injEq, Data.map_asBlock_eq_iff, and_iff_right h0]
    · exact iff_of_true (hsame h0) fun hw => h0 hw.1
  · obtain ⟨t'', hread', -, hforms'⟩ := read_lines t'.formData (formData_of_read hread).1 file'
    refine ⟨t'', hread', ?_⟩
    rw [Tree.formatted, Tree.formatted, hforms', hforms, Data.reformed_reformed]

/-- A leaf after a closed list stands among the forms, and the formatted text puts it on a line of
its own. -/
theorem read_formatted_leaf_after_list :
    ∃ t t', read "(a \"b\n\") c" "f" = .ok t ∧ read t.formatted "f" = .ok t' ∧
      t.data = .list [.list [.leaf "a", .leaf "\"b\n\""], .leaf "c"] ∧
      t'.data = .list [.list [.leaf "a", .leaf "\"b\n\""], .list [.leaf "c"]] ∧
      ∃ t'', read t'.formatted "f" = .ok t'' ∧ t''.formatted = t'.formatted := by
  have hread : read "(a \"b\n\") c" "f" = .ok (draftOf "(a \"b\n\") c").tree.unwrap :=
    read_eq_ok_iff.mpr ⟨by decide +kernel, rfl⟩
  obtain ⟨t', ht', hdata, -, hagain⟩ := read_formatted hread "f"
  rw [if_pos (by decide +kernel)] at hdata
  refine ⟨_, t', hread, ht', by decide +kernel, hdata.trans ?_, hagain⟩
  decide +kernel

end IndentLisp
