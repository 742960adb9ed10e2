/-
# What a renderer has found once, it keeps

A renderer is used many times while files come and go.  A run is a sequence of events: files are
written and removed, or changed in whatever way, and diagnostics are rendered (`Session.after`).

**A name is seen as the first look that could read it found it**, be it nothing, and whatever has
become of the file since (`Session.lookup_after`).  A name that was given a text at the start is
seen with that text, and what the files have there makes no difference.  So a diagnostic that was
shown once is shown the same at every later point of the run (`Session.excerpts_frozen`).

The step and the run are one statement each.  An event keeps whatever was kept before, and what it
finds (`Session.lookup_step`); a run keeps whatever was kept before, and what the first look of the
run finds (`Session.lookup_after`, by induction on the events).  What is seen at a point is what is
kept there, or else what the files have then (`Session.sees_eq`), and what a rendering gives depends
on that alone.  Nothing else about renderings is used.

The one case with a trap in it is a rendering that fails.  It has looked at some names, and has kept
what it found there; at the name that it failed at it keeps nothing, and the file may be put right
later.  So the first look that counts is the first that could read what is there (`Session.look?`).

* `lookup_ofTexts`: what a renderer has at the start: of several texts for one name the last.
* `Session.kept_of_rendered`: what is shown is kept, under the names of all labels.

A file is what a name leads to: two names for one file are looked up apart.  The machine, with the
rows of carets that it cannot make, is the same throughout.
-/
import IndentLisp.Proofs.Diagnostic.Outcome

namespace IndentLisp

namespace Renderer

/-! ## 1. Texts that are given at the start -/

/-- The text that is given for a name: of several the last, as each is put down in place of the one
before. -/
def given? (texts : List (String × String)) (name : String) : Option String :=
  texts.reverse.lookup name

/-- A renderer starts with the given texts, and with nothing else. -/
theorem lookup_ofTexts (color : Bool) (texts : List (String × String)) (name : String) :
    (ofTexts color texts).known.lookup name =
      (given? texts name).map fun text => some (.ofText name text) := by
  unfold ofTexts given?
  induction texts.reverse with
  | nil => rfl
  | cons entry entries ih =>
    obtain ⟨other, text⟩ := entry
    rw [List.map_cons, List.lookup_cons, List.lookup_cons]
    by_cases hn : name = other
    · subst hn
      simp
    · rw [beq_false_of_ne hn]
      exact ih

/-! ## 2. Runs -/

/-- Something that happens while a renderer is in use.  Writing and removing go through the file
tree's own operations, and the third event stands for whatever else may happen to the files. -/
inductive Event where
  /-- A file is written, if it can be. -/
  | write (path : Path) (bytes : ByteArray)
  /-- What a path leads to is removed, if it leads to anything. -/
  | remove (path : Path)
  /-- Whatever else happens to the files. -/
  | change (files : FileTree)
  /-- A diagnostic is rendered. -/
  | render (d : Diagnostic)

/-- A renderer in use on a machine, and the files as they are. -/
structure Session where
  limit : Repetition.Limit
  files : FileTree
  renderer : Renderer

namespace Session

/-- A session at its start. -/
def start (limit : Repetition.Limit) (files : FileTree) (color : Bool)
    (texts : List (String × String)) : Session where
  limit := limit
  files := files
  renderer := .ofTexts color texts

/-- What a rendering gives now. -/
def rendered (s : Session) (d : Diagnostic) : Except Error String :=
  match renderWithin s.limit s.files d s.renderer with
  | .ok text _ => .ok text
  | .error e _ => .error e

/-- What a look at each name gives now. -/
def sees (s : Session) : View :=
  finds s.files s.renderer

/-- What an event does.  What cannot be written or removed leaves the files as they are, and a
rendering that fails still changes the renderer. -/
def step (s : Session) : Event → Session
  | .write path bytes => { s with files := (s.files.write path bytes).toOption.getD s.files }
  | .remove path => { s with files := (s.files.remove path).toOption.getD s.files }
  | .change files => { s with files := files }
  | .render d =>
    match renderWithin s.limit s.files d s.renderer with
    | .ok _ r => { s with renderer := r }
    | .error _ r => { s with renderer := r }

/-- The session after a run of events. -/
def after (s : Session) (events : List Event) : Session :=
  events.foldl step s

/-- What a rendering finds in the files under a name, be it nothing, if it looks the name up and can
read what is there.  Whether the renderer already keeps something for the name is not asked. -/
def look? (s : Session) (name : String) : Event → Option (Option Source)
  | .render d =>
    if name ∈ asked s.limit s.sees d.labels then (lookUp s.files name).toOption else none
  | _ => none

/-- What the first rendering of a run to look a name up, and to be able to read what is there,
finds.  Where there is no such rendering, nothing was found. -/
def firstLook? (name : String) (s : Session) : List Event → Option (Option Source)
  | [] => none
  | e :: events => (s.look? name e).or (firstLook? name (s.step e) events)

variable {s : Session} {d : Diagnostic} {name text : String}

theorem rendered_eq (s : Session) (d : Diagnostic) :
    s.rendered d = outcome s.limit s.sees s.renderer.color d := by
  have hsees : s.sees = finds s.files s.renderer := rfl
  rw [rendered, renderWithin_outcome, hsees]
  cases outcome s.limit (finds s.files s.renderer) s.renderer.color d <;> rfl

theorem renderer_step_render (s : Session) (d : Diagnostic) :
    (s.step (.render d)).renderer = next s.limit s.files s.renderer d.labels := by
  rw [step, renderWithin_outcome]
  cases outcome s.limit (finds s.files s.renderer) s.renderer.color d <;> rfl

/-- **What an event keeps**: whatever was kept before, and what it finds.  Only a rendering keeps
anything, and what was kept is never replaced. -/
theorem lookup_step (s : Session) (e : Event) : (s.step e).renderer.known.lookup name =
    (s.renderer.known.lookup name).or (s.look? name e) := by
  cases e with
  | write path bytes => exact Option.or_none.symm
  | remove path => exact Option.or_none.symm
  | change files => exact Option.or_none.symm
  | render d =>
    rw [renderer_step_render, lookup_next]
    rfl

/-- **What a run keeps**: whatever was kept before, and what the first look finds.  The induction is
on the events, with the session as it is before the first of them left open. -/
theorem lookup_after (s : Session) (events : List Event) :
    (s.after events).renderer.known.lookup name =
    (s.renderer.known.lookup name).or (s.firstLook? name events) := by
  induction events generalizing s with
  | nil => exact Option.or_none.symm
  | cons e events ih =>
    calc ((s.step e).after events).renderer.known.lookup name
        = ((s.step e).renderer.known.lookup name).or ((s.step e).firstLook? name events) :=
          ih (s.step e)
      _ = (s.renderer.known.lookup name).or
        ((s.look? name e).or ((s.step e).firstLook? name events)) := by
        rw [lookup_step, Option.or_assoc]

theorem limit_step (s : Session) (e : Event) : (s.step e).limit = s.limit := by
  cases e with
  | write path bytes => rfl
  | remove path => rfl
  | change files => rfl
  | render d =>
    rw [step]
    split <;> rfl

/-- Nothing that happens changes the machine. -/
theorem limit_after (s : Session) (events : List Event) : (s.after events).limit = s.limit :=
  List.foldlRecOn (motive := fun s' => s'.limit = s.limit) _ _ rfl fun s' h e _ =>
    (limit_step s' e).trans h

theorem color_step (s : Session) (e : Event) : (s.step e).renderer.color = s.renderer.color := by
  cases e with
  | write path bytes => rfl
  | remove path => rfl
  | change files => rfl
  | render d => rw [renderer_step_render, next_color]

theorem color_after (s : Session) (events : List Event) :
    (s.after events).renderer.color = s.renderer.color :=
  List.foldlRecOn (motive := fun s' => s'.renderer.color = s.renderer.color) _ _ rfl fun s' h e _ =>
    (color_step s' e).trans h

/-- What is seen is what is kept, or else what the files have now. -/
theorem sees_eq (s : Session) (name : String) : s.sees name =
    match s.renderer.known.lookup name with
    | some found => .ok found
    | none => lookUp s.files name := rfl

/-- What has been kept is seen from then on. -/
theorem sees_after_of_kept {found : Option Source} (h : s.renderer.known.lookup name = some found)
    (events : List Event) : (s.after events).sees name = .ok found := by
  rw [sees_eq, lookup_after, h, Option.some_or]

/-- **What is shown is kept**: the names of all labels, with what was seen there.  A rendering that
gives a text has met no obstacle and so has looked up all of them. -/
theorem kept_of_rendered (h : s.rendered d = .ok text) : ∀ label ∈ d.labels, ∃ found,
    s.sees label.span.file = .ok found ∧
      (s.step (.render d)).renderer.known.lookup label.span.file = some found := by
  intro label hl
  rw [rendered_eq] at h
  have hshown := obstacle?_of_outcome h
  obtain ⟨⟨found, hf⟩, -⟩ := obstacle?_eq_none_iff.mp (hshown label hl)
  refine ⟨found, hf, ?_⟩
  -- no label ends the rendering, so the name is looked up
  have hasked : label.span.file ∈ asked s.limit s.sees d.labels := by
    rw [asked_of_no_obstacle hshown]
    exact List.mem_map_of_mem hl
  rw [lookup_step, look?, if_pos hasked]
  rw [sees_eq] at hf
  cases hk : s.renderer.known.lookup label.span.file with
  | some kept =>
    rw [hk] at hf
    cases hf
    rfl
  | none =>
    rw [hk] at hf
    simp only [hf]
    rfl

/-! ## 3. Excerpts are frozen -/

/-- **What has been found once is shown from then on.**  At every point of a run, whatever has
happened to the files:

* under a name with a given text, that text is seen;
* under any other name is seen what was there, be it nothing, when a rendering first looked the name
  up and could read what was there; without such a rendering, what the files have now;
* what is seen decides the outcome of every rendering;
* what the files have under a name with a given text makes no difference;
* and a diagnostic that is shown is shown the same at every later point. -/
theorem excerpts_frozen (limit : Repetition.Limit) (files : FileTree) (color : Bool)
    (texts : List (String × String)) (events : List Event) :
    let now := (start limit files color texts).after events
    (∀ name text, given? texts name = some text → now.sees name = .ok (some (.ofText name text))) ∧
    (∀ name, given? texts name = none →
      now.sees name = match firstLook? name (start limit files color texts) events with
        | some found => .ok found
        | none => lookUp now.files name) ∧
    (∀ d, now.rendered d = outcome limit now.sees color d) ∧
    (∀ other : FileTree, (∀ name, given? texts name = none →
      lookUp other name = lookUp now.files name) →
      ∀ d, renderWithin limit other d now.renderer = renderWithin limit now.files d now.renderer) ∧
    (∀ d text more, now.rendered d = .ok text →
      ((now.step (.render d)).after more).rendered d = .ok text) := by
  intro now
  have hkept : ∀ name, now.renderer.known.lookup name =
      ((given? texts name).map fun text => some (.ofText name text)).or
        (firstLook? name (start limit files color texts) events) := by
    intro name
    rw [lookup_after, start, lookup_ofTexts]
  have hcolor : now.renderer.color = color := color_after _ events
  have hlimit : now.limit = limit := limit_after _ events
  refine ⟨?_, ?_, ?_, ?_, ?_⟩
  · intro name text hname
    rw [sees_eq, hkept, hname, Option.map_some, Option.some_or]
  · intro name hname
    rw [sees_eq, hkept, hname, Option.map_none, Option.none_or]
  · intro d
    rw [rendered_eq, hcolor, hlimit]
  · intro other hother d
    refine renderWithin_congr (funext fun name => ?_)
    unfold finds
    cases hk : now.renderer.known.lookup name with
    | some found => rfl
    | none =>
      rw [hkept, Option.or_eq_none_iff, Option.map_eq_none_iff] at hk
      exact hother name hk.1
  · intro d text more h
    have hsame : ∀ label ∈ d.labels,
        ((now.step (.render d)).after more).sees label.span.file = now.sees label.span.file := by
      intro label hl
      obtain ⟨found, hsees, hfound⟩ := kept_of_rendered h label hl
      rw [sees_after_of_kept hfound, hsees]
    have hcolors : ((now.step (.render d)).after more).renderer.color = now.renderer.color :=
      color_after now (.render d :: more)
    have hlimits : ((now.step (.render d)).after more).limit = now.limit :=
      limit_after now (.render d :: more)
    rw [rendered_eq, outcome_congr hsame, hcolors, hlimits, ← rendered_eq, h]

/-- A directory with nothing in it. -/
def emptyPlace : FileTree :=
  (FileTree.empty ["w"]).put ["w"] .directory

/-- A warning with a label on the first line of each of three files. -/
def threeLabels : Diagnostic where
  severity := .warning
  code := "W1"
  message := "m"
  labels := ["absent", "broken", "late"].map fun name => ⟨⟨name, 1, 1, 1, 1⟩, ""⟩

/-- A rendering that has found nothing under the first name when the second file, which is not text,
ends it; and then all three files are written. -/
def failsHalfway : List Event :=
  [.write (.ofText "broken") (.mk #[255]), .render threeLabels,
    .write (.ofText "absent") "a".toUTF8,
    .write (.ofText "broken") "b".toUTF8, .write (.ofText "late") "c".toUTF8]

theorem excerpts_frozen_past_a_failure :
    let now := (start Repetition.usual emptyPlace false [("given", "g")]).after failsHalfway
    let text := "warning[W1]: m\n" ++
      "  --> absent:1:1\n     |\n     | ^\n" ++
      "  --> broken:1:1\n     |\n     1 | b\n     | ^\n" ++
      "  --> late:1:1\n     |\n     1 | c\n     | ^"
    now.sees "given" = .ok (some (.ofText "given" "g")) ∧ now.sees "absent" = .ok none ∧
      now.rendered threeLabels = .ok text ∧
      ((now.step (.render threeLabels)).after
        [.remove (.ofText "broken"), .write (.ofText "late") "d".toUTF8]).rendered threeLabels =
          .ok text := by
  intro now text
  obtain ⟨hgiven, hfirst, -, -, hshown⟩ :=
    excerpts_frozen Repetition.usual emptyPlace false [("given", "g")] failsHalfway
  have habsent : firstLook? "absent"
      (start Repetition.usual emptyPlace false [("given", "g")]) failsHalfway = some none := by
    decide +kernel
  have htext : now.rendered threeLabels = .ok text := by
    have hoption : (now.rendered threeLabels).toOption = some text := by decide +kernel
    cases h : now.rendered threeLabels with
    | ok shown =>
      rw [h] at hoption
      exact congrArg Except.ok (Option.some.inj hoption)
    | error e =>
      rw [h] at hoption
      cases hoption
  refine ⟨hgiven "given" "g" (by decide), ?_, htext, hshown _ _ _ htext⟩
  rw [hfirst "absent" (by decide), habsent]

end Session

end Renderer

end IndentLisp
