/-
# Colour does not change what is shown

A diagnostic rendered in colour and the same diagnostic rendered without are two runs of one
renderer, on one file tree.  **They look up the same sources and fail alike** (`Blind`), and what
they show is made of the same lines (`laidOut_ok`): the colour decides only what an ink comes to.

Every line but the first has a mark in the margin, and what follows is one text, or a text without
escape characters and a text in an ink (`Row`).  The first ends its text at a closing bracket before
it changes the ink.  So every line is settled, and **the outputs are the same without their escape
sequences** (`strip_renderWithin`), though a message, a file name or a line of a source may hold any
part of one.

The converse question is whether the output without colour has escape sequences of its own.  It has
none that the renderer puts there: an escape character in it comes from a string of the diagnostic
or from a line that is shown (`Diagnostic.Clean`).  This is read off the same rows, each of which
says of its texts under which condition they have none.

* `row_lines`: every line but the first is a row, by going through the kinds of lines once.
* `blind_laidOut`: all that comes before the colour does not look at it, by the structure of the
  actions.
* `renderWithin_eq`: rendering lays out the lines, and then shows them in colour or without.
* `strip_renderWithin`: **both halves together**, for any row limit of the machine.

A text that may end in the front of a sequence stands at the end of its row, with nothing but the
end of an ink after it.  Each of the three shapes of `Row` says so.
-/
import IndentLisp.Proofs.Terminal
import IndentLisp.Proofs.Diagnostic.Renderer
import IndentLisp.Proofs.Diagnostic.Excerpt

namespace IndentLisp

open Terminal

/-- No escape character. -/
def Unescaped (s : String) : Prop :=
  '\x1b' ∉ s.toList

instance (s : String) : Decidable (Unescaped s) :=
  inferInstanceAs (Decidable ('\x1b' ∉ s.toList))

theorem unescaped_append {s t : String} (hs : Unescaped s) (ht : Unescaped t) :
    Unescaped (s ++ t) := by
  rw [Unescaped, String.toList_append, List.mem_append, not_or]
  exact ⟨hs, ht⟩

/-- The strings of a diagnostic. -/
def Diagnostic.strings (d : Diagnostic) : List String :=
  [d.code, d.message] ++ d.labels.flatMap (fun label => [label.span.file, label.message]) ++
    d.notes ++
    d.suggestions.flatMap fun s => [s.message, s.replacement]

/-- No string that the lines of a diagnostic are made of has an escape character, those of the
sources included.  Of a source only the lines that are shown count. -/
structure Diagnostic.Clean (d : Diagnostic) (line? : Label → Option String) : Prop where
  strings : ∀ s ∈ d.strings, Unescaped s
  lines : ∀ label ∈ d.labels, ∀ line ∈ line? label, Unescaped line

namespace Renderer

variable {limit : Repetition.Limit} {files : FileTree} {ε α β : Type}

/-! ## 1. The lines of a diagnostic -/

/-- The lines of a diagnostic, given the source line that each label starts on. -/
def lines (d : Diagnostic) (line? : Label → Option String) : List (List Piece) :=
  [headline d] ++
    (d.labels.map fun label => labelLines d.severity.ink label (line? label)).flatten ++
    d.notes.map noteLine ++ d.suggestions.flatMap suggestionLines

/-- A line with a mark in the margin, and nothing more than a text and a text in an ink.  If the
diagnostic is clean, so are the texts; the mark has no escape character in any case, nor has a text
with an ink after it.  The condition is a parameter, so that one case analysis serves the theorem
with it and the one without. -/
inductive Row (clean : Prop) : List Piece → Prop
  | bare {mark : String} : Unescaped mark → Row clean (margin mark [])
  | text {mark s : String} :
      Unescaped mark → (clean → Unescaped s) → Row clean (margin mark [.text s])
  | inked {mark s t : String} {ink : Ink} : Unescaped mark → Unescaped s → (clean → Unescaped t) →
      Row clean (margin mark ([.text s] ++ inked ink t))

theorem settled_margin {mark : String} {rest : List Piece} (hm : Unescaped mark)
    (hr : Settled rest) :
    Settled (margin mark rest) := by
  have hblanks : Closed "  ".toList := closed_of_notMem (by decide)
  exact .text hblanks (.ink (.text (closed_of_notMem hm) (.ink hr)))

/-- **A row is settled**, whatever its texts are: what is not free of escape characters stands at
its end. -/
theorem Row.settled {clean : Prop} {line : List Piece} (h : Row clean line) : Settled line := by
  cases h with
  | bare hm => exact settled_margin hm .nil
  | text hm _ => exact settled_margin hm (.last fun _ hp => nomatch hp)
  | inked hm hs _ => exact settled_margin hm (.text (closed_of_notMem hs) (.inked _ _))

theorem settled_headline (d : Diagnostic) : Settled (headline d) := by
  have hclosed : Closed (d.severity.word ++ "[" ++ d.code ++ "]").toList := by
    rw [String.toList_append]
    exact closed_bracket _
  exact .ink (.text hclosed (.ink (.inked _ _)))

theorem quiet_append {line line' : List Piece} (h : Quiet line) (h' : Quiet line') :
    Quiet (line ++ line') := by
  intro s hs
  exact (List.mem_append.mp hs).elim (h s) (h' s)

theorem quiet_text {s : String} (h : Unescaped s) : Quiet [.text s] := by
  intro t ht
  cases List.mem_singleton.mp ht
  exact h

theorem quiet_inked {ink : Ink} {s : String} (h : Unescaped s) : Quiet (inked ink s) := by
  intro t ht
  simp only [Renderer.inked, List.mem_cons, reduceCtorEq, List.not_mem_nil, or_false, false_or,
    Piece.text.injEq] at ht
  exact ht ▸ h

theorem quiet_margin {mark : String} {rest : List Piece} (hm : Unescaped mark) (hr : Quiet rest) :
    Quiet (margin mark rest) := by
  have hblanks : Unescaped "  " := by decide
  exact quiet_append (quiet_append (quiet_text hblanks) (quiet_inked hm)) hr

theorem Row.quiet {clean : Prop} {line : List Piece} (h : Row clean line) (hc : clean) :
    Quiet line := by
  cases h with
  | bare hm => exact quiet_margin hm fun s hs => nomatch hs
  | text hm hs => exact quiet_margin hm (quiet_text (hs hc))
  | inked hm hs ht => exact quiet_margin hm (quiet_append (quiet_text hs) (quiet_inked (ht hc)))

/-! ## 2. The lines are rows -/

theorem unescaped_toString (n : Int) : Unescaped (toString n) := by
  intro h
  rcases mem_toString h with h | h <;> exact absurd h (by decide)

theorem unescaped_gutter (n : Int) : Unescaped (gutter n) := by
  intro h
  rcases mem_gutter h with h | h | h <;> exact absurd h (by decide)

theorem unescaped_replicate {c : Char} (hc : c ≠ '\x1b') (k : Nat) :
    Unescaped (String.ofList (List.replicate k c)) := by
  intro h
  rw [String.toList_ofList] at h
  exact hc (List.eq_of_mem_replicate h).symm

theorem unescaped_shown {s : Span} (h : Unescaped s.file) : Unescaped s.shown := by
  have hcolon : Unescaped ":" := by decide
  exact unescaped_append (unescaped_append (unescaped_append (unescaped_append h hcolon)
    (unescaped_toString _)) hcolon) (unescaped_toString _)

/-- The lines of a label are rows: its place, its excerpt with the row of carets, and its message,
whichever of them there are. -/
theorem row_labelLines {clean : Prop} {ink : Ink} {label : Label} {line? : Option String}
    (hfile : clean → Unescaped label.span.file) (hmessage : clean → Unescaped label.message)
    (hline : clean → ∀ line ∈ line?, Unescaped line) :
    ∀ line ∈ labelLines ink label line?, Row clean line := by
  have hblank : Unescaped " " := by decide
  have hbar : Unescaped "   |" := by decide
  have hnumber : Unescaped (gutter label.span.startLine ++ " |") :=
    unescaped_append (unescaped_gutter _) (by decide)
  intro line hl
  simp only [labelLines, List.mem_append] at hl
  rcases hl with ((hplace | hsource) | hcarets) | hsays
  · rcases List.mem_cons.mp hplace with rfl | hplace
    · exact .text (by decide) fun hc => unescaped_append hblank (unescaped_shown (hfile hc))
    · cases List.mem_singleton.mp hplace
      exact .bare hbar
  · cases line? with
    | none => cases hsource
    | some text =>
      cases List.mem_singleton.mp hsource
      exact .text hnumber fun hc => unescaped_append hblank (hline hc text rfl)
  · split at hcarets
    · cases List.mem_singleton.mp hcarets
      exact .inked hbar (unescaped_append hblank (unescaped_replicate (by decide) _)) fun _ =>
        unescaped_replicate (by decide) _
    · split at hcarets
      · cases List.mem_singleton.mp hcarets
        exact .bare hnumber
      · cases hcarets
  · split at hsays
    · cases hsays
    · cases List.mem_singleton.mp hsays
      exact .inked hbar (by decide) hmessage

/-- **Every line of a diagnostic but the first is a row.**  The notes are texts behind a mark, and a
suggestion is one with its replacement below it in an ink. -/
theorem row_lines {d : Diagnostic} {line? : Label → Option String} {line : List Piece}
    (h : line ∈ lines d line?) : line = headline d ∨ Row (d.Clean line?) line := by
  have hown : ∀ {s : String}, s ∈ d.strings → d.Clean line? → Unescaped s :=
    fun hs hc => hc.strings _ hs
  rw [lines, List.mem_append, List.mem_append, List.mem_append] at h
  rcases h with ((hhead | hlabel) | hnote) | hfix
  · exact Or.inl (List.mem_singleton.mp hhead)
  · obtain ⟨rows, hrows, hl⟩ := List.mem_flatten.mp hlabel
    obtain ⟨label, hd, rfl⟩ := List.mem_map.mp hrows
    have hmem : ∀ s ∈ [label.span.file, label.message], s ∈ d.strings := by
      intro s hs
      have hlabels : s ∈ d.labels.flatMap fun label => [label.span.file, label.message] :=
        List.mem_flatMap.mpr ⟨label, hd, hs⟩
      exact List.mem_append_left _ (List.mem_append_left _ (List.mem_append_right _ hlabels))
    exact Or.inr (row_labelLines (hown (hmem _ List.mem_cons_self))
      (hown (hmem _ (List.mem_cons_of_mem _ List.mem_cons_self)))
        (fun hc => hc.lines label hd) line hl)
  · obtain ⟨note, hd, rfl⟩ := List.mem_map.mp hnote
    have hmem : note ∈ d.strings := List.mem_append_left _ (List.mem_append_right _ hd)
    exact Or.inr (.text (by decide) fun hc => unescaped_append (by decide) (hown hmem hc))
  · obtain ⟨fix, hd, hl⟩ := List.mem_flatMap.mp hfix
    have hmem : ∀ s ∈ [fix.message, fix.replacement], s ∈ d.strings := fun s hs =>
      List.mem_append_right _ (List.mem_flatMap.mpr ⟨fix, hd, hs⟩)
    have hblank : Unescaped " " := by decide
    rcases List.mem_cons.mp hl with rfl | hl
    · exact Or.inr (.text (by decide) fun hc =>
        unescaped_append hblank (hown (hmem _ List.mem_cons_self) hc))
    · cases List.mem_singleton.mp hl
      exact Or.inr (.text (by decide) fun hc =>
        unescaped_append hblank (hown (hmem _ (List.mem_cons_of_mem _ List.mem_cons_self)) hc))

theorem settled_lines {d : Diagnostic} {line? : Label → Option String} :
    ∀ line ∈ lines d line?, Settled line := by
  intro line hl
  rcases row_lines hl with rfl | hrow
  · exact settled_headline d
  · exact hrow.settled

theorem quiet_lines {d : Diagnostic} {line? : Label → Option String} (h : d.Clean line?) :
    ∀ line ∈ lines d line?, Quiet line := by
  intro line hl
  rcases row_lines hl with rfl | hrow
  · have hword : Unescaped d.severity.word := by cases d.severity <;> decide
    have hcode : Unescaped d.code := h.strings _ (by simp [Diagnostic.strings])
    have hmessage : Unescaped d.message := h.strings _ (by simp [Diagnostic.strings])
    exact quiet_append
      (quiet_inked (unescaped_append (unescaped_append (unescaped_append hword (by decide)) hcode)
        (by decide)))
      (quiet_inked (unescaped_append (by decide) hmessage))
  · exact hrow.quiet h

/-! ## 3. What does not look at the colour -/

/-- The outcome, with the colour of the renderer to go on with set. -/
def recolour (color : Bool) : EStateM.Result ε Renderer α → EStateM.Result ε Renderer α
  | .ok a r => .ok a { r with color := color }
  | .error e r => .error e { r with color := color }

/-- The action does the same whatever the colour, which it leaves as it is.  What it answers, what
it keeps and how it fails do not depend on it. -/
def Blind (act : EStateM ε Renderer α) : Prop :=
  ∀ (r : Renderer) (color : Bool), act { r with color := color } = recolour color (act r)

theorem Blind.pure (a : α) : Blind (Pure.pure a : EStateM ε Renderer α) :=
  fun _ _ => rfl

theorem Blind.throw (e : ε) : Blind (MonadExcept.throw e : EStateM ε Renderer α) :=
  fun _ _ => rfl

theorem Blind.bind {act : EStateM ε Renderer α} {next : α → EStateM ε Renderer β} (h : Blind act)
    (h' : ∀ a, Blind (next a)) : Blind (act >>= next) := by
  intro r color
  simp only [Bind.bind, EStateM.bind, h r color]
  cases act r with
  | ok a r' => exact h' a r' color
  | error e r' => rfl

theorem Blind.adapt {ε' : Type} {f : ε → ε'} {act : EStateM ε Renderer α} (h : Blind act) :
    Blind (EStateM.adaptExcept f act) := by
  intro r color
  simp only [EStateM.adaptExcept, h r color]
  cases act r <;> rfl

theorem Blind.mapM {f : β → EStateM ε Renderer α} (h : ∀ b, Blind (f b)) (bs : List β) :
    Blind (bs.mapM f) := by
  induction bs with
  | nil => exact Blind.pure []
  | cons b bs ih =>
    rw [List.mapM_cons]
    exact (h b).bind fun a => ih.bind fun as => Blind.pure (a :: as)

theorem blind_source (name : String) : Blind (source files name) := by
  intro r color
  have hfinds : finds files { r with color := color } name = finds files r name := rfl
  rw [source_eq, source_eq, hfinds]
  cases finds files r name with
  | ok found =>
    simp only [recolour, keep]
    cases r.known.lookup name <;> rfl
  | error e => rfl

theorem blind_line? (name : String) (n : Int) : Blind (line? files name n) :=
  (blind_source name).bind fun _ => Blind.pure _

theorem blind_checkRows (labels : List Label) : Blind (checkRows limit files labels) := by
  induction labels with
  | nil => exact Blind.pure ()
  | cons label labels ih =>
    rw [checkRows]
    refine (blind_line? _ _).adapt.bind fun _ => ?_
    cases rowError? limit label.span with
    | some e => exact Blind.throw (Error.row e)
    | none => exact ih

theorem blind_layout (d : Diagnostic) : Blind (layout files d) := by
  have hlabel : ∀ label, Blind (showLabel files d.severity.ink label) :=
    fun label => (blind_line? _ _).bind fun _ => Blind.pure _
  exact (Blind.mapM hlabel d.labels).bind fun _ => Blind.pure _

/-- All of the rendering that comes before the colour: the check of the rows, and then the lines of
the diagnostic as pieces that know their inks. -/
def laidOut (limit : Repetition.Limit) (files : FileTree) (d : Diagnostic) :
    EStateM Error Renderer (List (List Piece)) := do
  checkRows limit files d.labels
  EStateM.adaptExcept .file (layout files d)

theorem blind_laidOut (d : Diagnostic) : Blind (laidOut limit files d) :=
  (blind_checkRows d.labels).bind fun _ => (blind_layout d).adapt

/-- **Rendering lays out the lines, and then shows them in colour or without.**  It is the last step
alone that looks at the colour. -/
theorem renderWithin_eq (d : Diagnostic) (r : Renderer) :
    renderWithin limit files d r = match laidOut limit files d r with
      | .ok lines r' => .ok ("\n".intercalate (lines.map (shown r'.color))) r'
      | .error e r' => .error e r' := by
  simp only [renderWithin, laidOut, bind, EStateM.bind, EStateM.adaptExcept]
  cases checkRows limit files d.labels r with
  | error e r' => rfl
  | ok _ r' =>
    simp only [render_eq]
    cases layout files d r' <;> rfl

/-! ## 4. The lines that are laid out -/

/-- The line that a label starts on, as a renderer finds it. -/
def startLine? (files : FileTree) (r : Renderer) (label : Label) : Option String :=
  match line? files label.span.file label.span.startLine r with
  | .ok line _ => line
  | .error _ _ => none

theorem startLine?_eq (r : Renderer) (label : Label) :
    startLine? files r label = excerpt? (finds files r) label := by
  simp only [startLine?, line?, bind, EStateM.bind, source_eq, excerpt?]
  cases finds files r label.span.file <;> rfl

theorem exists_of_bind {act : EStateM ε Renderer α} {next : α → EStateM ε Renderer β}
    {r r' : Renderer} {b : β} (h : (act >>= next) r = .ok b r') :
    ∃ a r₁, act r = .ok a r₁ ∧ next a r₁ = .ok b r' := by
  simp only [Bind.bind, EStateM.bind] at h
  split at h
  · exact ⟨_, _, ‹_›, h⟩
  · cases h

theorem exists_of_adapt {ε' : Type} {f : ε → ε'} {act : EStateM ε Renderer α} {r r' : Renderer}
    {a : α} (h : EStateM.adaptExcept f act r = .ok a r') : act r = .ok a r' := by
  simp only [EStateM.adaptExcept] at h
  split at h
  · cases h
  · rename_i hact
    cases h
    exact hact

theorem exists_of_adapt_error {ε' : Type} {f : ε → ε'} {act : EStateM ε Renderer α}
    {r r' : Renderer} {e' : ε'} (h : EStateM.adaptExcept f act r = .error e' r') :
    ∃ e, act r = .error e r' ∧ f e = e' := by
  simp only [EStateM.adaptExcept] at h
  split at h
  · rename_i e r₁ hact
    cases h
    exact ⟨e, hact, rfl⟩
  · cases h

/-- A look at the line of a label finds that line, and afterwards the same lines are found.  So the
look that checks the rows does not disturb the one that lays out the lines. -/
theorem line?_ok {r r' : Renderer} {label : Label} {line : Option String}
    (h : line? files label.span.file label.span.startLine r = .ok line r') :
    line = startLine? files r label ∧ startLine? files r' = startLine? files r := by
  obtain ⟨found, r₁, hsource, hline⟩ := exists_of_bind h
  cases hline
  rw [source_eq] at hsource
  cases hfinds : finds files r label.span.file with
  | error e =>
    rw [hfinds] at hsource
    cases hsource
  | ok found' =>
    rw [hfinds] at hsource
    cases hsource
    refine ⟨by rw [startLine?_eq, excerpt?, hfinds]; rfl, ?_⟩
    funext other
    rw [startLine?_eq, startLine?_eq, excerpt?, excerpt?, finds_keep hfinds]

theorem checkRows_ok {labels : List Label} {r r' : Renderer}
    (h : checkRows limit files labels r = .ok () r') :
    startLine? files r' = startLine? files r := by
  induction labels generalizing r with
  | nil =>
    cases h
    rfl
  | cons label labels ih =>
    obtain ⟨line, r₁, hline, hrest⟩ := exists_of_bind h
    have hsame := (line?_ok (exists_of_adapt hline)).2
    cases hrow : rowError? limit label.span with
    | some e =>
      simp only [hrow] at hrest
      cases hrest
    | none =>
      simp only [hrow] at hrest
      rw [ih hrest, hsame]

theorem mapM_showLabel_ok {ink : Ink} {labels : List Label} {r r' : Renderer}
    {rows : List (List (List Piece))} (h : labels.mapM (showLabel files ink) r = .ok rows r') :
    rows = labels.map fun label => labelLines ink label (startLine? files r label) := by
  induction labels generalizing r rows with
  | nil =>
    cases h
    rfl
  | cons label labels ih =>
    rw [List.mapM_cons] at h
    obtain ⟨row, r₁, hrow, hrest⟩ := exists_of_bind h
    obtain ⟨line, r₂, hline, hpure⟩ := exists_of_bind hrow
    cases hpure
    obtain ⟨rfl, hsame⟩ := line?_ok hline
    obtain ⟨rows', r₃, hrows, hpure⟩ := exists_of_bind hrest
    cases hpure
    rw [ih hrows, hsame, List.map_cons]

/-- **What is laid out are the lines of the diagnostic**, with the lines of the sources that the
renderer finds at the start. -/
theorem layout_ok {d : Diagnostic} {r r' : Renderer} {ls : List (List Piece)}
    (h : layout files d r = .ok ls r') : ls = lines d (startLine? files r) := by
  obtain ⟨rows, r₁, hrows, hpure⟩ := exists_of_bind h
  cases hpure
  rw [lines, mapM_showLabel_ok hrows]

theorem laidOut_ok {d : Diagnostic} {r r' : Renderer} {ls : List (List Piece)}
    (h : laidOut limit files d r = .ok ls r') : ls = lines d (startLine? files r) := by
  obtain ⟨_, r₁, hrows, hlayout⟩ := exists_of_bind h
  rw [layout_ok (exists_of_adapt hlayout), checkRows_ok hrows]

/-! ## 5. In colour and without -/

/-- **Colour only adds escape sequences.**  In colour and without, a rendering fails alike, or both
give an output, and the two are the same once their escape sequences are removed; and the renderers
keep the same sources.  The output without colour has an escape character only if a string of the
diagnostic or a line of a source that it shows has one.  All of this holds on every machine,
whatever rows of carets it cannot make, and so where there is none that it cannot make. -/
theorem strip_renderWithin (limit : Repetition.Limit) (files : FileTree) (d : Diagnostic)
    (known : List (String × Option Source)) :
    ∃ kept : List (String × Option Source),
      (∃ e, renderWithin limit files d ⟨true, known⟩ = .error e ⟨true, kept⟩ ∧
        renderWithin limit files d ⟨false, known⟩ = .error e ⟨false, kept⟩) ∨
      ∃ coloured plain : String,
        renderWithin limit files d ⟨true, known⟩ = .ok coloured ⟨true, kept⟩ ∧
        renderWithin limit files d ⟨false, known⟩ = .ok plain ⟨false, kept⟩ ∧
        strip coloured = strip plain ∧
        (d.Clean (startLine? files ⟨false, known⟩) → '\x1b' ∉ plain.toList) := by
  have hblind : ∀ color, laidOut limit files d ⟨color, known⟩ =
      recolour color (laidOut limit files d ⟨false, known⟩) :=
    fun color => blind_laidOut d ⟨false, known⟩ color
  cases hlaid : laidOut limit files d ⟨false, known⟩ with
  | error e r =>
    refine ⟨r.known, Or.inl ⟨e, ?_, ?_⟩⟩
    all_goals rw [renderWithin_eq, hblind, hlaid]; rfl
  | ok ls r =>
    obtain rfl := laidOut_ok hlaid
    refine ⟨r.known, Or.inr ⟨_, _, ?_, ?_, strip_shown settled_lines,
      fun hc => notMem_shown (quiet_lines hc)⟩⟩
    all_goals rw [renderWithin_eq, hblind, hlaid]; rfl

theorem strip_renderWithin_extra_parenthesis :
    ∃ d coloured plain r r', d = (Offence.extraClose.report "f" (placeOf "a)")).diagnostic ∧
      renderAny (.empty ["w"]) d (.ofTexts true [("f", "a)")]) = .ok coloured r ∧
      renderAny (.empty ["w"]) d (.ofTexts false [("f", "a)")]) = .ok plain r' ∧
      strip coloured = strip plain ∧ '\x1b' ∉ plain.toList := by
  have hlines : startLine? (.empty ["w"]) (.ofTexts false [("f", "a)")])
      ⟨Offence.span "f" (placeOf "a)"), ""⟩ = some "a)" := by decide +kernel
  have hclean : (Offence.extraClose.report "f" (placeOf "a)")).diagnostic.Clean
      (startLine? (.empty ["w"]) (.ofTexts false [("f", "a)")])) := by
    refine ⟨by decide +kernel, ?_⟩
    intro label hl line hline
    cases List.mem_singleton.mp hl
    rw [hlines] at hline
    cases hline
    decide
  obtain ⟨kept, ⟨e, herror, -⟩ | ⟨coloured, plain, hcoloured, hplain, hstrip, hquiet⟩⟩ :=
    strip_renderWithin Repetition.usual (.empty ["w"])
      (Offence.extraClose.report "f" (placeOf "a)")).diagnostic (ofTexts false [("f", "a)")]).known
  · have hok : (match renderWithin Repetition.usual (.empty ["w"])
        (Offence.extraClose.report "f" (placeOf "a)")).diagnostic
        ⟨true, (ofTexts false [("f", "a)")]).known⟩ with
      | .ok _ _ => true
      | .error _ _ => false) = true := by decide +kernel
    rw [herror] at hok
    cases hok
  · exact ⟨_, coloured, plain, _, _, rfl, hcoloured, hplain, hstrip, hquiet hclean⟩

end Renderer

end IndentLisp
