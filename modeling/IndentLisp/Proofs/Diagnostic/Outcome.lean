/-
# The outcome of a rendering

A rendering looks at the labels of a diagnostic one after another, and the first that cannot be
shown ends it (`obstacle?`): its source is not text, or its row of carets cannot be made.  So it
looks up the names of the labels up to there, and no others (`asked`).  **Its outcome depends on
nothing but what is seen under these names** (`renderWithin_outcome`), and what it has seen there is
kept, also where it fails (`lookup_next`).

The second half is what matters where files change.  A rendering that fails halfway has found
something under each name before the one that it failed at, and has found nothing under the names
after that; the first are kept from then on, and the others are looked up another time.

A label is seen twice, when the rows of carets are checked and when the lines are laid out.  The
first look keeps what it finds, so the second finds the same, and the lines can be said in terms of
what is found at the start (`finds_next`).

Everything is said for a machine that fails to make some rows of carets, whichever these are: the
limit is a parameter.  Where it is none, the check of the rows makes no difference at all
(`renderWithin_unlimited`), and rendering is what it is without that check.

* `outcome`, `next`: what a rendering gives, and the renderer to go on with.
* `checkRows_eq`: the first look at all labels.
* `renderWithin_congr`: files that are found alike make no difference.
-/
import IndentLisp.Proofs.Diagnostic.Colour

namespace IndentLisp

namespace Renderer

open Terminal

variable {limit : Repetition.Limit} {files : FileTree} {view : View} {r : Renderer} {d : Diagnostic}
    {name : String}

/-! ## 1. What a rendering gives, by what it sees -/

/-- Why a label cannot be shown: its source cannot be read, or its row of carets cannot be made.  A
source that is not there is no obstacle; the label is shown without an excerpt. -/
def obstacle? (limit : Repetition.Limit) (view : View) (label : Label) : Option Error :=
  match view label.span.file with
  | .error e => some (.file e)
  | .ok _ => (rowError? limit label.span).map .row

/-- What a rendering gives: the first obstacle, or else the lines of the diagnostic.  No renderer
and no file occurs in it but through what is seen. -/
def outcome (limit : Repetition.Limit) (view : View) (color : Bool) (d : Diagnostic) :
    Except Error String :=
  match d.labels.findSome? (obstacle? limit view) with
  | some e => .error e
  | none => .ok ("\n".intercalate ((lines d (excerpt? view)).map (shown color)))

/-- The names that are looked up: those of the labels up to the first that cannot be shown.  The
name of that one is among them, though nothing may be found there to keep. -/
def asked (limit : Repetition.Limit) (view : View) : List Label → List String
  | [] => []
  | label :: labels =>
    label.span.file :: if (obstacle? limit view label).isNone then asked limit view labels else []

theorem obstacle?_eq_none_iff {label : Label} : obstacle? limit view label = none ↔
    (∃ found, view label.span.file = .ok found) ∧ rowError? limit label.span = none := by
  unfold obstacle?
  cases view label.span.file <;> simp

theorem asked_of_no_obstacle {labels : List Label}
    (h : ∀ label ∈ labels, obstacle? limit view label = none) :
    asked limit view labels = labels.map fun label => label.span.file := by
  induction labels with
  | nil => rfl
  | cons label labels ih =>
    rw [asked, h label List.mem_cons_self,
      ih fun other ho => h other (List.mem_cons_of_mem label ho)]
    rfl

/-- The outcome is that of what is seen under the names of the labels. -/
theorem outcome_congr {view' : View} {color : Bool}
    (h : ∀ label ∈ d.labels, view label.span.file = view' label.span.file) :
    outcome limit view color d = outcome limit view' color d := by
  have hobstacle : d.labels.findSome? (obstacle? limit view) =
      d.labels.findSome? (obstacle? limit view') := by
    have hlabels : d.labels.map (obstacle? limit view) = d.labels.map (obstacle? limit view') := by
      refine List.map_congr_left fun label hl => ?_
      rw [obstacle?, obstacle?, h label hl]
    simpa [List.findSome?_map] using congrArg (List.findSome? id) hlabels
  have hlines : lines d (excerpt? view) = lines d (excerpt? view') := by
    have hlabels : ∀ label ∈ d.labels, labelLines d.severity.ink label (excerpt? view label) =
        labelLines d.severity.ink label (excerpt? view' label) := by
      intro label hl
      rw [excerpt?, excerpt?, h label hl]
    rw [lines, lines, List.map_congr_left hlabels]
  rw [outcome, outcome, hobstacle, hlines]

/-- Where there is an outcome to show, every label can be shown. -/
theorem obstacle?_of_outcome {color : Bool} {text : String}
    (h : outcome limit view color d = .ok text) :
    ∀ label ∈ d.labels, obstacle? limit view label = none := by
  unfold outcome at h
  split at h
  · cases h
  · rename_i hnone
    exact List.findSome?_eq_none_iff.mp hnone

/-! ## 2. What a rendering keeps -/

/-- The renderer after a look at a name. -/
def look (view : View) (r : Renderer) (name : String) : Renderer :=
  match view name with
  | .ok found => r.keep name found
  | .error _ => r

/-- The renderer after a rendering, whether it gave a text or failed.  It is the renderer from
before after a look at each name that was asked for. -/
def next (limit : Repetition.Limit) (files : FileTree) (r : Renderer) (labels : List Label) :
    Renderer :=
  (asked limit (finds files r) labels).foldl (look (finds files r)) r

theorem look_color (r : Renderer) (name : String) : (look view r name).color = r.color := by
  unfold look
  split
  · exact keep_color ..
  · rfl

theorem finds_look (name : String) : finds files (look (finds files r) r name) = finds files r := by
  unfold look
  split
  · rename_i found h
    exact funext fun other => finds_keep h other
  · rfl

/-- What is seen stays the same through a rendering.  A name that was kept is still kept, and one
that was looked up is kept with what the files have there. -/
theorem finds_next (labels : List Label) :
    finds files (next limit files r labels) = finds files r := by
  refine List.foldlRecOn (motive := fun r' => finds files r' = finds files r) _ _ rfl ?_
  intro r' h name _
  rw [← h]
  exact finds_look name

/-- **A look keeps what it finds under a name that has nothing kept yet.**  Nothing else changes,
and a look that fails changes nothing. -/
theorem lookup_look (r : Renderer) (other : String) : (look view r other).known.lookup name =
    (r.known.lookup name).or (if name = other then (view name).toOption else none) := by
  unfold look keep
  by_cases hn : name = other
  · subst hn
    rw [if_pos rfl]
    cases hv : view name with
    | error e => simp [Except.toOption]
    | ok found => cases hk : r.known.lookup name <;> simp [hk, Except.toOption]
  · rw [if_neg hn, Option.or_none]
    cases view other with
    | error e => rfl
    | ok found =>
      cases hk : r.known.lookup other with
      | none => simp only [List.lookup_cons, beq_false_of_ne hn]
      | some kept => rfl

theorem lookup_looks (names : List String) (r : Renderer) :
    (names.foldl (look view) r).known.lookup name =
    (r.known.lookup name).or (if name ∈ names then (view name).toOption else none) := by
  induction names generalizing r with
  | nil => simp
  | cons other names ih =>
    rw [List.foldl_cons, ih, lookup_look, Option.or_assoc]
    congr 1
    by_cases hn : name = other
    · subst hn
      by_cases hm : name ∈ names <;> simp [hm]
    · by_cases hm : name ∈ names <;> simp [hn, hm]

/-- **What a rendering keeps**: whatever was kept before, and what the files have under the names
that it looks up, where that can be read. -/
theorem lookup_next (labels : List Label) : (next limit files r labels).known.lookup name =
    (r.known.lookup name).or
      (if name ∈ asked limit (finds files r) labels then
        (lookUp files name).toOption else none) := by
  rw [next, lookup_looks]
  cases hk : r.known.lookup name with
  | some kept => rfl
  | none =>
    have hfinds : finds files r name = lookUp files name := by
      simp only [finds, hk]
    rw [hfinds]

theorem next_color (limit : Repetition.Limit) (files : FileTree) (r : Renderer)
    (labels : List Label) : (next limit files r labels).color = r.color :=
  List.foldlRecOn (motive := fun r' => r'.color = r.color) _ _ rfl fun r' h name _ =>
    (look_color r' name).trans h

theorem line?_eq (files : FileTree) (name : String) (n : Int) (r : Renderer) :
    line? files name n r =
    match finds files r name with
    | .ok found => .ok (found.bind fun s => s.line? n) (look (finds files r) r name)
    | .error e => .error e (look (finds files r) r name) := by
  simp only [line?, bind, EStateM.bind, source_eq, look]
  cases finds files r name <;> rfl

/-- **The check of the rows looks at every label up to the first obstacle**, and keeps what it
finds. -/
theorem checkRows_eq (labels : List Label) (r : Renderer) : checkRows limit files labels r =
    match labels.findSome? (obstacle? limit (finds files r)) with
    | some e => .error e (next limit files r labels)
    | none => .ok () (next limit files r labels) := by
  induction labels generalizing r with
  | nil => rfl
  | cons label labels ih =>
    have hline := line?_eq files label.span.file label.span.startLine r
    simp only [checkRows, bind, EStateM.bind, EStateM.adaptExcept, hline, next, asked,
      List.findSome?_cons, List.foldl_cons]
    cases hf : finds files r label.span.file with
    | error e => simp [obstacle?, hf]
    | ok found =>
      cases hrow : rowError? limit label.span with
      | some e =>
        simp only [obstacle?, hf, hrow]
        rfl
      | none =>
        have hrest := ih (look (finds files r) r label.span.file)
        rw [next, finds_look] at hrest
        simp only [obstacle?, hf, hrow, Option.map_none, Option.isNone_none, if_true]
        exact hrest

/-- **What a rendering does**: it gives its outcome, and keeps what it has looked up, whether it
fails or not. -/
theorem renderWithin_outcome (limit : Repetition.Limit) (files : FileTree) (d : Diagnostic)
    (r : Renderer) : renderWithin limit files d r =
    match outcome limit (finds files r) r.color d with
    | .ok text => .ok text (next limit files r d.labels)
    | .error e => .error e (next limit files r d.labels) := by
  simp only [renderWithin, bind, EStateM.bind, checkRows_eq, outcome]
  cases hstop : d.labels.findSome? (obstacle? limit (finds files r)) with
  | some e => rfl
  | none =>
    have hshown := List.findSome?_eq_none_iff.mp hstop
    -- every name is looked up and can be read, so all are kept when the lines are laid out
    have hkept : ∀ label ∈ d.labels, ∃ found,
        (next limit files r d.labels).known.lookup label.span.file = some found := by
      intro label hl
      obtain ⟨⟨found, hf⟩, -⟩ := obstacle?_eq_none_iff.mp (hshown label hl)
      have hasked : label.span.file ∈ asked limit (finds files r) d.labels := by
        rw [asked_of_no_obstacle hshown]
        exact List.mem_map_of_mem hl
      rw [next, lookup_looks, if_pos hasked, hf]
      cases r.known.lookup label.span.file <;> exact ⟨_, rfl⟩
    simp only [EStateM.adaptExcept, render_eq, layout_known hkept, finds_next, next_color]
    rfl

/-- Files that are found alike under every name make no difference to a rendering.  Names that are
kept are found alike in any files. -/
theorem renderWithin_congr {other : FileTree} (h : finds other r = finds files r) :
    renderWithin limit other d r = renderWithin limit files d r := by
  rw [renderWithin_outcome, renderWithin_outcome, next, next, h]

/-! ## 3. Machines on which every row can be made -/

/-- The lines of labels one after another, up to the first whose source cannot be read. -/
theorem showLabels_eq (files : FileTree) (ink : Ink) (labels : List Label) (r : Renderer) :
    EStateM.adaptExcept Error.file (labels.mapM (showLabel files ink)) r =
      match labels.findSome? (obstacle? Repetition.unlimited (finds files r)) with
      | some e => .error e (next Repetition.unlimited files r labels)
      | none => .ok
          (labels.map fun label => labelLines ink label (excerpt? (finds files r) label))
          (next Repetition.unlimited files r labels) := by
  induction labels generalizing r with
  | nil => rfl
  | cons label labels ih =>
    have hline := line?_eq files label.span.file label.span.startLine r
    rw [List.mapM_cons, next, asked, List.findSome?_cons, List.foldl_cons]
    cases hf : finds files r label.span.file with
    | error e => simp [showLabel, bind, EStateM.bind, EStateM.adaptExcept, hline, hf, obstacle?]
    | ok found =>
      have hnone : obstacle? Repetition.unlimited (finds files r) label = none := by
        refine obstacle?_eq_none_iff.mpr ⟨⟨found, hf⟩, ?_⟩
        unfold rowError?
        split <;> rfl
      have hexcerpt : excerpt? (finds files r) label =
          found.bind fun s => s.line? label.span.startLine := by
        rw [excerpt?, hf]
        rfl
      have hrest := ih (look (finds files r) r label.span.file)
      rw [next, finds_look] at hrest
      simp only [showLabel, bind, EStateM.bind, pure, EStateM.pure, EStateM.adaptExcept, hline, hf,
        hnone, Option.isNone_none, if_true, List.map_cons, hexcerpt]
      -- this label can be shown, so the others decide
      cases hfind : labels.findSome? (obstacle? Repetition.unlimited (finds files r)) with
      | some e =>
        rw [hfind] at hrest
        obtain ⟨e, hrun, rfl⟩ := exists_of_adapt_error hrest
        rw [hrun]
      | none =>
        rw [hfind] at hrest
        rw [exists_of_adapt hrest]

/-- **Where every row can be made, rendering is nothing but the rendering of the diagnostic.**  That
the rows are looked at beforehand makes no difference, and none to what is kept. -/
theorem renderWithin_unlimited (files : FileTree) (d : Diagnostic) :
    renderWithin Repetition.unlimited files d = EStateM.adaptExcept .file (render files d) := by
  funext r
  have hlayout : layout files d = d.labels.mapM (showLabel files d.severity.ink) >>= fun labels =>
      pure ([headline d] ++ labels.flatten ++ d.notes.map noteLine ++
        d.suggestions.flatMap suggestionLines) := rfl
  have hshow := showLabels_eq files d.severity.ink d.labels r
  simp only [renderWithin_outcome, outcome, EStateM.adaptExcept, render_eq, hlayout, bind,
    EStateM.bind, pure, EStateM.pure]
  cases hfind : d.labels.findSome? (obstacle? Repetition.unlimited (finds files r)) with
  | some e =>
    rw [hfind] at hshow
    obtain ⟨e, hrun, rfl⟩ := exists_of_adapt_error hshow
    rw [hrun]
  | none =>
    rw [hfind] at hshow
    rw [exists_of_adapt hshow]
    simp only [next_color, lines]

end Renderer

end IndentLisp
