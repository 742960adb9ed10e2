/-
# What a renderer keeps makes no difference

A renderer keeps the sources that it has looked up, by name, and never looks at a file twice.  While
it keeps only what the file tree has (`Renderer.Coherent`), **a diagnostic is shown as a renderer
shows it that has looked up nothing yet** (`Renderer.render_gives`), and the renderer to go on with
again keeps only that.

So where the files do not change, the order in which diagnostics are rendered does not matter, and
each can be said to have one text.  Where they do change, what is kept does matter; that is another
question, and this module has only the part of it that is common to both: what a single look does
(`Renderer.source_eq`).

The proof is by the structure of the actions.  `Renderer.Gives` says of an action that it answers
the same whatever a coherent renderer keeps; it holds of a look at a source that can be read, and is
kept up when actions follow each other.  The answer may depend on whether colour is on, which no
action changes.

* `Renderer.lookUp`: what the file tree has under a name.  A file that is no text is a failure, and
  one that is not there, or cannot be looked at, is nothing.
* `Renderer.finds`: what a renderer finds: what it keeps, or else what the file tree has.
* `Renderer.layout_known`: the lines of a diagnostic whose sources are all kept.
* `Renderer.render_eq`: what rendering does.
-/
import IndentLisp.Diagnostic.Renderer

namespace IndentLisp

namespace Renderer

variable {files : FileTree} {α β : Type}

/-! ## 1. What the file tree has -/

/-- What a look at a source gives, for each name: the source, or that there is none, or a failure.
A renderer on a file tree has such a view, and so has the file tree alone. -/
abbrev View :=
  String → Except FileError (Option Source)

/-- The line that a label starts on, by what is seen. -/
def excerpt? (view : View) (label : Label) : Option String :=
  (view label.span.file).toOption.join.bind fun s => s.line? label.span.startLine

/-- The source with a name as the file tree has it: nothing where there is no file, and a failure
where the file is not text. -/
def lookUp (files : FileTree) (name : String) : Except FileError (Option Source) :=
  if files.isFile (.ofText name) then
    match Source.load files (.ofText name) with
    | .ok s => .ok (some s)
    | .error .undecodable => .error .undecodable
    | .error _ => .ok none
  else .ok none

/-- What a renderer finds under a name: what it keeps, or else what the file tree has. -/
def finds (files : FileTree) (r : Renderer) (name : String) : Except FileError (Option Source) :=
  match r.known.lookup name with
  | some found => .ok found
  | none => lookUp files name

/-- The renderer that keeps what was found under a name from now on.  What is kept under it already
is not replaced. -/
def keep (r : Renderer) (name : String) (found : Option Source) : Renderer :=
  match r.known.lookup name with
  | some _ => r
  | none => { r with known := (name, found) :: r.known }

theorem keep_color (r : Renderer) (name : String) (found : Option Source) :
    (r.keep name found).color = r.color := by
  unfold keep
  split <;> rfl

/-- **What a look at a source does**: it answers with what is found, which is kept, or fails and
keeps nothing. -/
theorem source_eq (name : String) (r : Renderer) :
    source files name r = match finds files r name with
      | .ok found => .ok found (r.keep name found)
      | .error e => .error e r := by
  unfold source finds keep lookUp
  cases r.known.lookup name with
  | some found => rfl
  | none =>
    simp only
    split
    · cases Source.load files (.ofText name) with
      | ok s => rfl
      | error e => cases e <;> rfl
    · rfl

/-- What is kept is what would be found again. -/
theorem finds_keep {r : Renderer} {name : String} {found : Option Source}
    (h : finds files r name = .ok found) (other : String) :
    finds files (r.keep name found) other = finds files r other := by
  unfold keep
  cases hk : r.known.lookup name with
  | some kept => rfl
  | none =>
    by_cases hn : other = name
    · subst hn
      rw [h]
      simp only [finds, List.lookup_cons, beq_self_eq_true]
    · simp only [finds, List.lookup_cons, beq_false_of_ne hn]

/-- The renderer keeps only what the file tree has.  It is so of a renderer that has looked up
nothing, and stays so while the files do not change. -/
def Coherent (files : FileTree) (r : Renderer) : Prop :=
  ∀ name found, r.known.lookup name = some found → lookUp files name = .ok found

theorem coherent_nil (files : FileTree) (color : Bool) : Coherent files ⟨color, []⟩ := by
  intro name found h
  cases h

theorem Coherent.keep {r : Renderer} {name : String} {found : Option Source} (hr : Coherent files r)
    (h : lookUp files name = .ok found) : Coherent files (r.keep name found) := by
  unfold Renderer.keep
  cases hk : r.known.lookup name with
  | some kept => exact hr
  | none =>
    intro name' found' h'
    simp only [List.lookup_cons] at h'
    split at h'
    case h_1 heq =>
      obtain rfl : name' = name := by simpa using heq
      exact Option.some.inj h' ▸ h
    case h_2 => exact hr name' found' h'

/-- Actions that leave the renderer as it is, one after another. -/
theorem mapM_stay {f : β → EStateM FileError Renderer α} {g : β → α} {r : Renderer} {xs : List β}
    (h : ∀ x ∈ xs, f x r = .ok (g x) r) : xs.mapM f r = .ok (xs.map g) r := by
  induction xs with
  | nil => rfl
  | cons x xs ih =>
    rw [List.mapM_cons]
    simp only [bind, EStateM.bind, h x List.mem_cons_self,
      ih fun y hy => h y (List.mem_cons_of_mem x hy)]
    rfl

/-- A look at the line that a label starts on, and the lines that show the label. -/
def showLabel (files : FileTree) (ink : Terminal.Ink) (label : Label) :
    EStateM FileError Renderer (List (List Terminal.Piece)) := do
  return labelLines ink label (← line? files label.span.file label.span.startLine)

/-- **The lines of a diagnostic whose sources are all kept.**  Laying them out keeps nothing more,
so the renderer to go on with is the same. -/
theorem layout_known {d : Diagnostic} {r : Renderer}
    (h : ∀ label ∈ d.labels, ∃ found, r.known.lookup label.span.file = some found) :
    layout files d r = .ok ([headline d] ++
      (d.labels.map fun label =>
        labelLines d.severity.ink label (excerpt? (finds files r) label)).flatten ++
      d.notes.map noteLine ++ d.suggestions.flatMap suggestionLines) r := by
  have hlabels : d.labels.mapM (showLabel files d.severity.ink) r = .ok (d.labels.map fun label =>
      labelLines d.severity.ink label (excerpt? (finds files r) label)) r := by
    refine mapM_stay fun label hl => ?_
    obtain ⟨found, hk⟩ := h label hl
    simp only [showLabel, line?, bind, EStateM.bind, source_eq, excerpt?, finds, keep, hk]
    rfl
  have hlayout : layout files d = d.labels.mapM (showLabel files d.severity.ink) >>= fun labels =>
      pure ([headline d] ++ labels.flatten ++ d.notes.map noteLine ++
        d.suggestions.flatMap suggestionLines) := rfl
  rw [hlayout]
  simp only [bind, EStateM.bind, hlabels]
  rfl

/-- **What rendering does**: it lays out the lines, and then shows them in colour or without. -/
theorem render_eq (d : Diagnostic) (r : Renderer) :
    render files d r = match layout files d r with
      | .ok lines r' => .ok ("\n".intercalate (lines.map (Terminal.shown r'.color))) r'
      | .error e r' => .error e r' := by
  simp only [render, bind, EStateM.bind]
  cases layout files d r <;> rfl

/-! ## 2. Actions of a renderer -/

/-- Whatever a coherent renderer keeps, the action succeeds and answers the same, which may depend
on whether colour is on; and the renderer stays coherent.  Such actions can be put together in any
order. -/
def Gives (files : FileTree) (act : EStateM FileError Renderer α) (a : Bool → α) : Prop :=
  ∀ r, Coherent files r →
    ∃ r', Coherent files r' ∧ r'.color = r.color ∧ act r = .ok (a r.color) r'

theorem Gives.pure (a : α) : Gives files (Pure.pure a) fun _ => a :=
  fun r hr => ⟨r, hr, rfl, rfl⟩

theorem Gives.bind {act : EStateM FileError Renderer α} {next : α → EStateM FileError Renderer β}
    {a : Bool → α} {b : α → Bool → β} (h : Gives files act a)
    (h' : ∀ x, Gives files (next x) (b x)) :
    Gives files (act >>= next) fun color => b (a color) color := by
  intro r hr
  obtain ⟨r₁, hr₁, hc₁, h₁⟩ := h r hr
  obtain ⟨r₂, hr₂, hc₂, h₂⟩ := h' (a r.color) r₁ hr₁
  refine ⟨r₂, hr₂, hc₂.trans hc₁, ?_⟩
  simp only [Bind.bind, EStateM.bind, h₁, h₂, hc₁]

theorem Gives.mapM {f : β → EStateM FileError Renderer α} {xs : List β}
    (h : ∀ x ∈ xs, ∃ a, Gives files (f x) a) : ∃ as, Gives files (xs.mapM f) as := by
  induction xs with
  | nil => exact ⟨_, Gives.pure []⟩
  | cons x xs ih =>
    obtain ⟨a, ha⟩ := h x List.mem_cons_self
    obtain ⟨as, has⟩ := ih fun y hy => h y (List.mem_cons_of_mem x hy)
    rw [List.mapM_cons]
    exact ⟨_, ha.bind fun y => has.bind fun ys => Gives.pure (y :: ys)⟩

/-- **A look at a source finds what the file tree has.** -/
theorem source_gives {name : String} {found : Option Source} (h : lookUp files name = .ok found) :
    Gives files (source files name) fun _ => found := by
  intro r hr
  have hfinds : finds files r name = .ok found := by
    unfold finds
    split
    case h_1 kept hk => exact (hr name kept hk).symm.trans h
    case h_2 => exact h
  refine ⟨r.keep name found, hr.keep h, keep_color .., ?_⟩
  rw [source_eq, hfinds]

/-- **Rendering succeeds if every label is in a file that is text, or in none**, and its text is
that of a renderer that has looked up nothing yet.  A file that is not there is shown without an
excerpt. -/
theorem render_gives {d : Diagnostic}
    (h : ∀ label ∈ d.labels, ∃ found, lookUp files label.span.file = .ok found) :
    ∃ text, Gives files (render files d) text := by
  have hmap : ∃ labels, Gives files (d.labels.mapM fun label => do
      return labelLines d.severity.ink label (← line? files label.span.file label.span.startLine))
      labels := by
    refine Gives.mapM ?_
    intro label hl
    obtain ⟨found, hf⟩ := h label hl
    exact ⟨_, ((source_gives hf).bind fun s => Gives.pure _).bind fun s => Gives.pure _⟩
  obtain ⟨labels, hlabels⟩ := hmap
  have hget : ∀ lines : List (List Terminal.Piece), Gives files
      (do return "\n".intercalate (lines.map (Terminal.shown (← get).color)))
      fun color => "\n".intercalate (lines.map (Terminal.shown color)) :=
    fun lines r hr => ⟨r, hr, rfl, rfl⟩
  exact ⟨_, (hlabels.bind fun ls => Gives.pure _).bind hget⟩

end Renderer

end IndentLisp
