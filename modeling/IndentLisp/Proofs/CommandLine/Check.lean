/-
# The verdict on a project

`check` on a directory goes through the fixture directories of the project that governs it (section
11).  **The first of them that cannot be checked decides the run**, and nothing is printed of those
before it.  Otherwise each has its lines (`Report.lines`), in the order of the settings, and the run
fails where a file failed.

The argument has two halves.  From the arguments to the reports: the arguments come down to an
operand (`AsksCheck`), the operand to a project (`Settings.governing`), and the project to one
report for each of its directories, of which `Report.Tells` says what they hold.  And from the
reports to the output: the lines that are printed are put together, one action after the other
(`Prints`, `Ends`).

What makes the second half more than a calculation is the renderer.  It is one and the same for the
whole run, and it keeps what it has looked up; so what it shows of a diagnostic could depend on the
diagnostics before it.  It does not, as long as it keeps only what the file tree has, which it does
(`Renderer.Coherent`), and as long as everything that a diagnostic points at can be looked up by its
name, which is so because an offence lies in its own file and a source has a plain path
(`Report.Tells.found`).

* `sayReport_prints`: the lines of one report.
* `checkDirectories_of_reports`, `checkDirectories_of_missing`, `checkDirectories_of_load`: the
  three ways in which a run ends.
* `run_check_verdict`: **the verdict**, from the arguments on.
* `run_check_too_far`: the run that ends with a failure although every source is text.

Hypotheses on the settings say that they are lists of names, and that all sources are text.  What
the program does with settings of other kinds is not said here.
-/
import IndentLisp.CommandLine.Run
import IndentLisp.Proofs.Check
import IndentLisp.Proofs.Diagnostic.Renderer
import IndentLisp.Proofs.Settings

namespace IndentLisp

open CommandLine

/-! ## 1. Printing -/

section Printing

variable {α β : Type} {act : Action α} {next : α → Action β} {a : α} {b : β}
  {lines more : List (Stream × String)}

/-- The action prints the texts, in order, and answers, whatever was printed before.  What is
printed is kept latest first while an action runs, hence the turn. -/
def Prints (act : Action α) (a : α) (lines : List (Stream × String)) : Prop :=
  ∀ printed, act printed = .ok a (lines.reverse ++ printed)

theorem Prints.pure (a : α) : Prints (Pure.pure a) a [] :=
  fun _ => rfl

theorem Prints.bind (h : Prints act a lines) (h' : Prints (next a) b more) :
    Prints (act >>= next) b (lines ++ more) := by
  intro printed
  simp only [Bind.bind, EStateM.bind, h printed, h' (lines.reverse ++ printed)]
  rw [List.reverse_append, List.append_assoc]

/-- The action prints the texts, in order, and ends the run.  It leaves no answer to go on with, so
what comes after it is never run. -/
def Ends (act : Action α) (ending : Ending) (lines : List (Stream × String)) : Prop :=
  ∀ printed, act printed = .error ending (lines.reverse ++ printed)

theorem Ends.throw (ending : Ending) : Ends (throw ending : Action α) ending [] :=
  fun _ => rfl

theorem Prints.bind_ends {ending : Ending} (h : Prints act a lines)
    (h' : Ends (next a) ending more) : Ends (act >>= next) ending (lines ++ more) := by
  intro printed
  simp only [Bind.bind, EStateM.bind, h printed, h' (lines.reverse ++ printed)]
  rw [List.reverse_append, List.append_assoc]

theorem Prints.outcome_eq {act : Action Unit} (h : Prints act () lines) :
    act.outcome = ⟨lines, .exit 0⟩ := by
  rw [Action.outcome, h []]
  simp

theorem Ends.outcome_eq {act : Action Unit} {ending : Ending} (h : Ends act ending lines) :
    act.outcome = ⟨lines, ending⟩ := by
  rw [Action.outcome, h []]
  simp

theorem prints_say (stream : Stream) (s : String) :
    Prints (say stream s) () [(stream, s ++ "\n")] :=
  fun _ => rfl

end Printing

/-! ## 2. The lines of a report -/

/-- The text of a diagnostic, as a renderer shows it that has looked up nothing yet.  Where it
cannot be shown there is no such text; the theorems are about diagnostics that can be. -/
def Diagnostic.shownAlone (files : FileTree) (color : Bool) (d : Diagnostic) : String :=
  match Renderer.render files d ⟨color, []⟩ with
  | .ok text _ => text
  | .error _ _ => ""

/-- The diagnostic of a failed file. -/
def Verdict.complaint (files : FileTree) (color : Bool) (v : Verdict) : String :=
  match v.diagnostic? with
  | none => ""
  | some d => d.shownAlone files color

/-- What is printed of a report: a diagnostic for each failed file, a warning if there is no file at
all, the count, and the failed files if there are any.  A report has at most one of the second and
the last. -/
def Report.lines (files : FileTree) (color : Bool) (report : Report) : List (Stream × String) :=
  report.failed.map (fun v => (.err, v.complaint files color ++ "\n")) ++
    (if report.total = 0 then
      [(.err, (noSources report.directory).shownAlone files color ++ "\n")]
    else []) ++
    [(.out, "parsed " ++ toString report.passed.length ++ "/" ++ toString report.total ++
      " files in " ++ report.directory.shown ++ "\n")] ++
    if report.passed.length < report.total then
      [(.err, "failed: " ++ ", ".intercalate (report.failed.map (·.path.shown)) ++ "\n")]
    else []

theorem Verdict.ok_iff (v : Verdict) : v.ok = true ↔ v.diagnostic? = none := by
  unfold Verdict.ok Verdict.diagnostic?
  cases v.outcome <;> simp [Except.toBool]

section Reports

variable {files : FileTree} {r : Renderer} {report : Report}

/-- All that a diagnostic points at can be looked up. -/
def Diagnostic.Found (files : FileTree) (d : Diagnostic) : Prop :=
  ∀ label ∈ d.labels, ∃ found, Renderer.lookUp files label.span.file = .ok found

theorem Diagnostic.Found.render {d : Diagnostic} (hd : d.Found files) (color : Bool) :
    ∃ r, Renderer.render files d ⟨color, []⟩ = .ok (d.shownAlone files color) r := by
  obtain ⟨text, htext⟩ := Renderer.render_gives hd
  obtain ⟨r, -, -, hr⟩ := htext ⟨color, []⟩ (Renderer.coherent_nil files color)
  exact ⟨r, by rw [Diagnostic.shownAlone, hr]⟩

/-- A warning that there are no files points at none. -/
theorem found_noSources (files : FileTree) (directory : Path) :
    (noSources directory).Found files := by
  intro label hl
  cases hl

/-- Each failed file has one diagnostic, and a renderer that has looked up nothing yet can show
it. -/
theorem complaint_of_failed {color : Bool} {v : Verdict}
    (hfound : ∀ v ∈ report.verdicts, ∀ d, v.diagnostic? = some d → d.Found files)
    (hv : v ∈ report.failed) :
    ∃ e r, v.outcome = .error e ∧
      Renderer.render files e.diagnostic ⟨color, []⟩ = .ok (v.complaint files color) r := by
  obtain ⟨hv, hno⟩ := List.mem_filter.mp hv
  cases ho : v.outcome with
  | ok t => simp [Verdict.ok, ho, Except.toBool] at hno
  | error e =>
    have hdiag : v.diagnostic? = some e.diagnostic := by simp only [Verdict.diagnostic?, ho]
    obtain ⟨r, hr⟩ := (hfound v hv _ hdiag).render color
    exact ⟨e, r, rfl, by rw [hr, Verdict.complaint, hdiag]⟩

/-- **A diagnostic is printed as a renderer shows it that has looked up nothing yet**, whatever the
renderer keeps, as long as that is what the file tree has.  The renderer to go on with is of the
same kind. -/
theorem sayDiagnostic_prints {d : Diagnostic} (hd : d.Found files) (hr : r.Coherent files) :
    ∃ r', r'.Coherent files ∧ r'.color = r.color ∧
      Prints (sayDiagnostic files r d) r' [(.err, d.shownAlone files r.color ++ "\n")] := by
  obtain ⟨text, htext⟩ := Renderer.render_gives hd
  obtain ⟨r', hr', hc, hrender⟩ := htext r hr
  obtain ⟨r₀, -, -, halone⟩ := htext ⟨r.color, []⟩ (Renderer.coherent_nil files r.color)
  have hshown : d.shownAlone files r.color = text r.color := by
    rw [Diagnostic.shownAlone, halone]
  refine ⟨r', hr', hc, ?_⟩
  rw [hshown]
  unfold sayDiagnostic
  rw [hrender]
  exact (prints_say .err _).bind (Prints.pure r')

/-- The diagnostics of the failed files are printed in the order of the verdicts. -/
theorem sayDiagnostics_prints {verdicts : List Verdict}
    (hv : ∀ v ∈ verdicts, ∀ d, v.diagnostic? = some d → d.Found files) (hr : r.Coherent files) :
    ∃ r', r'.Coherent files ∧ r'.color = r.color ∧
      Prints ((verdicts.filterMap Verdict.diagnostic?).foldlM (sayDiagnostic files) r) r'
        ((verdicts.filter (!·.ok)).map fun v => (.err, v.complaint files r.color ++ "\n")) := by
  induction verdicts generalizing r with
  | nil => exact ⟨r, hr, rfl, Prints.pure r⟩
  | cons v verdicts ih =>
    have hrest := fun w hw => hv w (List.mem_cons_of_mem v hw)
    cases hd : v.diagnostic? with
    | none =>
      obtain ⟨r', hr', hc, hp⟩ := ih hrest hr
      have hok : v.ok = true := (Verdict.ok_iff v).mpr hd
      refine ⟨r', hr', hc, ?_⟩
      rw [List.filterMap_cons_none hd, List.filter_cons_of_neg (by simp [hok])]
      exact hp
    | some d =>
      obtain ⟨r₁, hr₁, hc₁, hp₁⟩ := sayDiagnostic_prints (hv v List.mem_cons_self d hd) hr
      obtain ⟨r₂, hr₂, hc₂, hp₂⟩ := ih hrest hr₁
      have hno : ¬ v.ok = true := fun hok => by simp [(Verdict.ok_iff v).mp hok] at hd
      have hsaid : v.complaint files r.color = d.shownAlone files r.color := by
        simp only [Verdict.complaint, hd]
      refine ⟨r₂, hr₂, hc₂.trans hc₁, ?_⟩
      rw [List.filterMap_cons_some hd, List.filter_cons_of_pos (by simp [hno]), List.map_cons,
        hsaid, List.foldlM_cons]
      rw [hc₁] at hp₂
      exact Prints.bind hp₁ hp₂

theorem Report.ok_iff (report : Report) :
    report.ok = true ↔ ¬ report.passed.length < report.total := by
  have hsum : report.total = report.passed.length + report.failed.length :=
    List.length_eq_length_filter_add Verdict.ok
  rw [Report.ok, List.isEmpty_iff, ← List.length_eq_zero_iff]
  omega

/-- **The lines of a report are printed**, by a renderer that may have served other reports before,
and that can serve the next one. -/
theorem sayReport_prints
    (hv : ∀ v ∈ report.verdicts, ∀ d, v.diagnostic? = some d → d.Found files)
    (hr : r.Coherent files) :
    ∃ r', r'.Coherent files ∧ r'.color = r.color ∧
      Prints (sayReport files r report) r' (report.lines files r.color) := by
  obtain ⟨r₁, hr₁, hc₁, hp₁⟩ := sayDiagnostics_prints hv hr
  have hlast : ∀ r' : Renderer, Prints (do
      unless report.ok do
        say .err ("failed: " ++ ", ".intercalate (report.failed.map (·.path.shown)))
      return r') r'
      (if report.passed.length < report.total then
        [(.err, "failed: " ++ ", ".intercalate (report.failed.map (·.path.shown)) ++ "\n")]
      else []) := by
    intro r'
    by_cases h : report.passed.length < report.total
    · have hno : report.ok = false := by
        rw [← Bool.not_eq_true, report.ok_iff, not_not]
        exact h
      rw [if_pos h, hno]
      exact (prints_say .err _).bind (Prints.pure r')
    · rw [if_neg h, report.ok_iff.mpr h]
      exact Prints.pure r'
  unfold sayReport Report.lines
  rw [List.append_assoc, List.append_assoc]
  by_cases h0 : report.total = 0
  · obtain ⟨r₂, hr₂, hc₂, hp₂⟩ := sayDiagnostic_prints (found_noSources files report.directory) hr₁
    rw [hc₁] at hp₂
    refine ⟨r₂, hr₂, hc₂.trans hc₁, ?_⟩
    simp only [if_pos h0]
    exact hp₁.bind (hp₂.bind ((prints_say .out _).bind (hlast r₂)))
  · refine ⟨r₁, hr₁, hc₁, ?_⟩
    simp only [if_neg h0]
    exact hp₁.bind ((Prints.pure r₁).bind ((prints_say .out _).bind (hlast r₁)))

/-- And the lines of all reports, one report after the other. -/
theorem sayReports_prints {reports : List Report}
    (hv : ∀ report ∈ reports, ∀ v ∈ report.verdicts, ∀ d, v.diagnostic? = some d → d.Found files)
    (hr : r.Coherent files) :
    ∃ r', Prints (reports.foldlM (sayReport files) r) r'
      (reports.flatMap (Report.lines files r.color)) := by
  induction reports generalizing r with
  | nil => exact ⟨r, Prints.pure r⟩
  | cons report reports ih =>
    obtain ⟨r₁, hr₁, hc₁, hp₁⟩ := sayReport_prints (hv report List.mem_cons_self) hr
    obtain ⟨r₂, hp₂⟩ := ih (fun other ho => hv other (List.mem_cons_of_mem report ho)) hr₁
    rw [hc₁] at hp₂
    rw [List.foldlM_cons, List.flatMap_cons]
    exact ⟨r₂, hp₁.bind hp₂⟩

end Reports

/-! ## 3. Sources can be looked up -/

section Sources

variable {files : FileTree} {directory project p : Path} {suffixes names : List String}
  {bytes : ByteArray} {report : Report}

theorem plain_of_below {e : Entry} (hd : directory.Plain) (h : files.Below directory p e) :
    p.Plain := by
  obtain ⟨l, more, -, -, hf, rfl⟩ := h
  exact hd.extend fun c hc => isComponent_of_isName (FileTree.isName_of_find? hf c hc)

theorem plain_fixture (h : project.Plain) :
    ∀ d ∈ Report.fixtureDirectories project names, d.Plain := by
  intro d hd
  cases names with
  | nil =>
    obtain rfl := List.mem_singleton.mp hd
    exact h
  | cons name names =>
    obtain ⟨name', -, rfl⟩ := List.mem_map.mp hd
    exact h.join (Path.plain_ofText name')

/-- A source is found again by the text of its path, as its path is plain.  This is where the name
in a diagnostic leads back to the file that the diagnostic is about. -/
theorem lookUp_source {s : String} (hd : directory.Plain) (hr : ¬ files.Refuses directory)
    (hp : IsSource files directory suffixes p bytes) (hs : String.fromUTF8? bytes = some s) :
    ∃ found, Renderer.lookUp files p.shown = .ok found := by
  obtain ⟨k, hk⟩ := FileTree.locate_of_not_refuses hr hp.1
  have hfile : files.isFile p = true := by simp [FileTree.isFile, hk]
  have hload : ∃ source, Source.load files p = .ok source := by
    simp [Source.load, FileTree.readText, FileTree.readBytes, FileTree.decode, hk, hs, bind,
      Except.bind, pure, Except.pure]
  obtain ⟨source, hload⟩ := hload
  refine ⟨some source, ?_⟩
  rw [Renderer.lookUp, Path.ofText_shown (plain_of_below hd hp.1), if_pos hfile, hload]

/-- **All that a report complains of can be looked up**, since an offence lies in its own file, and
that file is text.  It is the one place where the theory of positions is needed. -/
theorem Report.Tells.found (h : report.Tells files directory suffixes) (hd : directory.Plain)
    (hr : ¬ files.Refuses directory) :
    ∀ v ∈ report.verdicts, ∀ d, v.diagnostic? = some d → d.Found files := by
  intro v hv d hdiag label hl
  obtain ⟨bytes, s, hp, hs, hread⟩ := h.alone v hv
  unfold Verdict.diagnostic? at hdiag
  split at hdiag
  case h_1 => cases hdiag
  case h_2 e ho =>
    cases hdiag
    rw [ho, read_eq] at hread
    split at hread
    case h_1 => cases hread
    case h_2 o _ =>
      cases hread
      obtain rfl := List.mem_singleton.mp hl
      exact lookUp_source hd hr hp hs

end Sources

/-! ## 4. From the arguments to the project -/

namespace CommandLine

variable {files : FileTree} {args : List String} {operand : String} {noColor : Bool}
    {project : Path}
  {settings : Settings} {suffixes names : List String}

/-- The arguments of `check` come down to an operand, and to whether colour is turned off.  The
option may come before the operand or after it, and be given twice; without an operand the check is
of the directory where the program runs. -/
def AsksCheck (args : List String) (operand : String) (noColor : Bool) : Prop :=
  ∃ sorted, sortArguments ((options (some .check)).map Prod.fst) true args = .ok sorted ∧
    (∀ o ∈ sorted.options, o = "--no-color") ∧ sorted.options.contains "--no-color" = noColor ∧
    (sorted.operands = [operand] ∨ sorted.operands = [] ∧ operand = ".")

/-- An argument that does not start with a hyphen is an operand. -/
theorem asksCheck_operand (h : operand.toList.head? ≠ some '-') :
    AsksCheck [operand] operand false := by
  refine ⟨⟨[], [operand]⟩, ?_, by simp, rfl, .inl rfl⟩
  have hend : operand ≠ "--" := by
    rintro rfl
    exact h rfl
  have hoption : isOption operand = false := by
    unfold isOption
    split
    case h_1 heq => simp [heq] at h
    case h_2 => rfl
  rw [sortArguments, if_neg hend, hoption]
  rfl

/-- The first argument names the command, and the others are for it. -/
theorem runProgram_check (files : FileTree) (args : List String) :
    runProgram files ("check" :: args) = runArguments files .check args := by
  have hsort : sortArguments ((options none).map Prod.fst) false ("check" :: args) =
      .ok ⟨[], "check" :: args⟩ := by
    rw [sortArguments, if_neg (by decide), if_neg (by decide)]
    rfl
  have hname : Command.ofName? "check" = some .check := by decide
  simp only [runProgram, reduceCtorEq, if_false, sortOrRefuse, hsort, answerOptions, List.find?_nil,
    pure_bind, hname]

/-- **An operand that leads to a directory has its project checked.**  It is no file, it can be
looked at, and no argument is left over. -/
theorem runArguments_check (ha : AsksCheck args operand noColor)
    (hd : files.look? operand = some .directory) :
    runArguments files .check args = checkDirectories files (.ofText operand) noColor := by
  obtain ⟨⟨opts, operands⟩, hsort, hopts, rfl, hoperands⟩ := ha
  have hnone : opts.find? (fun o => o = "--version" ∨ o = "--help") = none := by
    refine List.find?_eq_none.mpr ?_
    intro o ho
    rw [hopts o ho]
    decide
  have hanswer : answerOptions (some .check) opts = pure () := by rw [answerOptions, hnone]
  have hnull := holdsNull_of_look? hd
  have hfile := isFile_of_look? hd
  have herror : operandError? files .check operand = none := by simp [operandError?, hd]
  rcases hoperands with rfl | ⟨rfl, rfl⟩
  · simp [runArguments, sortOrRefuse, hsort, hanswer, hnull, herror, runCommand, hfile]
  · simp [runArguments, sortOrRefuse, hsort, hanswer, hnull, herror, runCommand, hfile,
      Command.otherwise?]

/-- The run on an operand that leads to a directory is the check of its project. -/
theorem run_check (ha : AsksCheck args operand noColor)
    (hd : files.look? operand = some .directory) :
    run files ("check" :: args) = (checkDirectories files (.ofText operand) noColor).outcome := by
  rw [run, runProgram_check, runArguments_check ha hd]

section Outcomes

variable {p d : Path} {e : FileError} {reports : List Report}

/-- What no command expects is not printed. -/
theorem checkDirectories_of_load (hg : Settings.governing files p = .ok (project, settings))
    (ho : Report.ofProject files project settings = .error (.load (.file e))) :
    (checkDirectories files p noColor).outcome = ⟨[], .failed (.check (.load (.file e)))⟩ := by
  have hends : Ends (checkDirectories files p noColor) (.failed (.check (.load (.file e)))) [] := by
    simp only [checkDirectories, hg, expect, pure_bind, ho]
    exact Ends.throw _
  exact hends.outcome_eq

/-- A directory that is not there is named in one line. -/
theorem checkDirectories_of_missing (hg : Settings.governing files p = .ok (project, settings))
    (ho : Report.ofProject files project settings = .error (.missing d)) :
    (checkDirectories files p noColor).outcome =
      ⟨[(.err, "error: fixture directory not found: " ++ d.shown ++ "\n")], .exit 1⟩ := by
  have hline : "error: " ++ (CheckError.missing d).message =
      "error: fixture directory not found: " ++ d.shown := by
    have hprefix : "error: " ++ "fixture directory not found: " =
        "error: fixture directory not found: " := by decide +kernel
    have hmessage : (CheckError.missing d).message =
        "fixture directory not found: " ++ d.shown := rfl
    rw [hmessage, ← String.append_assoc, hprefix]
  have hends : Ends (checkDirectories files p noColor) (.exit 1)
      [(.err, "error: fixture directory not found: " ++ d.shown ++ "\n")] := by
    simp only [checkDirectories, hg, expect, pure_bind, ho, hline]
    exact (prints_say .err _).bind_ends (Ends.throw _)
  exact hends.outcome_eq

/-- **The lines of all reports are printed, and the run fails where a file failed.**  The reports
come in the order of the directories, and those of a project without failures still have their
counts. -/
theorem checkDirectories_of_reports (hg : Settings.governing files p = .ok (project, settings))
    (ho : Report.ofProject files project settings = .ok reports)
    (hfound : ∀ report ∈ reports, ∀ v ∈ report.verdicts, ∀ d, v.diagnostic? = some d →
      d.Found files) :
    (checkDirectories files p noColor).outcome =
      ⟨reports.flatMap (Report.lines files (settings.color.isTruthy && !noColor)),
        .exit (if ∃ report ∈ reports, report.passed.length < report.total then 1 else 0)⟩ := by
  obtain ⟨r, hr⟩ := sayReports_prints hfound
    (Renderer.coherent_nil files (settings.color.isTruthy && !noColor))
  have hnone : rendererFor settings noColor = ⟨settings.color.isTruthy && !noColor, []⟩ := rfl
  rw [← List.append_nil (reports.flatMap _)]
  by_cases hfail : ∃ report ∈ reports, report.passed.length < report.total
  · have hno : reports.all Report.ok = false := by
      obtain ⟨report, hmem, hlt⟩ := hfail
      rw [List.all_eq_false]
      exact ⟨report, hmem, fun hok => report.ok_iff.mp hok hlt⟩
    rw [if_pos hfail]
    refine Ends.outcome_eq ?_
    simp only [checkDirectories, hg, expect, pure_bind, ho, hnone, hno, Bool.false_eq_true,
      if_false]
    exact hr.bind_ends (Ends.throw _)
  · have hyes : reports.all Report.ok = true := by
      rw [List.all_eq_true]
      exact fun report hmem => report.ok_iff.mpr fun hlt => hfail ⟨report, hmem, hlt⟩
    rw [if_neg hfail]
    refine Prints.outcome_eq ?_
    simp only [checkDirectories, hg, expect, pure_bind, ho, hnone, hyes, if_true]
    exact hr.bind (Prints.pure ())

end Outcomes

/-- **The verdict on a project.**  The first of its fixture directories that cannot be checked
decides the run, with nothing printed of those before it: where the path of something in it is too
long for the system to look at, the run ends with that failure, and where it is no directory, with
one line that names it.  If all of them can be checked, the lines of their reports are printed in
the order of the settings, and the run fails if a file did.  Each diagnostic among them is as a
renderer shows it that has looked up nothing yet. -/
theorem run_check_verdict (ha : AsksCheck args operand noColor)
    (hd : files.look? operand = some .directory)
    (hg : Settings.governing files (.ofText operand) = .ok (project, settings))
    (hsuffixes : settings.extensions = .array (suffixes.map .string))
    (hnames : settings.fixtureDirs = .array (names.map .string))
    (htext : ∀ d ∈ Report.fixtureDirectories project names, ∀ p bytes,
      IsSource files d suffixes p bytes → String.fromUTF8? bytes ≠ none) :
    (∀ before d after, Report.fixtureDirectories project names = before ++ d :: after →
      (∀ b ∈ before, files.isDirectory b = true ∧ ¬ files.Refuses b) →
      (files.Refuses d →
        run files ("check" :: args) = ⟨[], .failed (.check (.load (.file .tooLong)))⟩) ∧
      (¬ files.Refuses d → files.isDirectory d = false →
        run files ("check" :: args) =
          ⟨[(.err, "error: fixture directory not found: " ++ d.shown ++ "\n")], .exit 1⟩)) ∧
    ((∀ d ∈ Report.fixtureDirectories project names,
        files.isDirectory d = true ∧ ¬ files.Refuses d) →
      ∃ reports,
        List.Forall₂ (fun d report => Report.Tells files d suffixes report ∧ report.Parted)
          (Report.fixtureDirectories project names) reports ∧
        run files ("check" :: args) =
          ⟨reports.flatMap (Report.lines files (settings.color.isTruthy && !noColor)),
            .exit (if ∃ report ∈ reports, report.passed.length < report.total then 1 else 0)⟩ ∧
        ∀ report ∈ reports,
          (∀ v ∈ report.failed, ∃ e r, v.outcome = .error e ∧
            Renderer.render files e.diagnostic ⟨settings.color.isTruthy && !noColor, []⟩ =
              .ok (v.complaint files (settings.color.isTruthy && !noColor)) r) ∧
          ∃ r, Renderer.render files (noSources report.directory)
            ⟨settings.color.isTruthy && !noColor, []⟩ =
            .ok ((noSources report.directory).shownAlone files
              (settings.color.isTruthy && !noColor)) r) := by
  have hplain : ∀ d ∈ Report.fixtureDirectories project names, d.Plain :=
    plain_fixture (Settings.plain_governing hd hg)
  have hfixture : ∀ d ∈ Report.fixtureDirectories project names,
      files.isDirectory d = true ∧ ¬ files.Refuses d →
      ∃ report, Report.ofFixture files (.array (suffixes.map .string)) d = .ok report ∧
        report.Tells files d suffixes :=
    fun d hmem h => Report.ofFixture_of_text h.2 h.1 (htext d hmem)
  rw [run_check ha hd]
  constructor
  · intro before d after hsplit hbefore
    -- those before `d` have reports, so `d` is the first that cannot be checked
    have hreports : ∀ b ∈ before, ∃ report,
        Report.ofFixture files (.array (suffixes.map .string)) b = .ok report := by
      intro b hb
      obtain ⟨report, hok, -⟩ := hfixture b (by rw [hsplit]; simp [hb]) (hbefore b hb)
      exact ⟨report, hok⟩
    constructor
    · intro hr
      exact checkDirectories_of_load hg (Report.ofProject_of_first hnames hsuffixes hsplit hreports
        (Report.ofFixture_of_refuses hr))
    · intro hr hno
      exact checkDirectories_of_missing hg
        (Report.ofProject_of_first hnames hsuffixes hsplit hreports
        (Report.ofFixture_of_missing hr hno))
  · intro hall
    obtain ⟨reports, hproject, htells⟩ := Report.ofProject_of_all hnames hsuffixes
      fun d hmem => hfixture d hmem (hall d hmem)
    have hfound : ∀ report ∈ reports, ∀ v ∈ report.verdicts, ∀ d, v.diagnostic? = some d →
        d.Found files := by
      intro report hmem
      obtain ⟨d, hd, ht⟩ := exists_of_forall₂ htells hmem
      exact ht.found (hplain d hd) (hall d hd).2
    refine ⟨reports, htells.imp fun d report ht => ⟨ht, ht.parted⟩,
      checkDirectories_of_reports hg hproject hfound, ?_⟩
    intro report hmem
    constructor
    · intro v hv
      exact complaint_of_failed (hfound report hmem) hv
    · exact (found_noSources files report.directory).render _

theorem governing_eq_default {p : Path} (h : Settings.search files p = .ok none) :
    Settings.governing files p = .ok (p, {}) := by
  rw [Settings.governing, h]

theorem run_check_verdict_mixed :
    ∃ reports,
      List.Forall₂ (fun d report => Report.Tells Report.mixedFiles d [".plisp"] report ∧
        report.Parted) [.ofText "d"] reports ∧
      run Report.mixedFiles ["check", "d"] =
        ⟨reports.flatMap (Report.lines Report.mixedFiles true),
          .exit (if ∃ report ∈ reports, report.passed.length < report.total then 1 else 0)⟩ := by
  have hargs : AsksCheck ["d"] "d" false := asksCheck_operand (by decide)
  have hlook : Report.mixedFiles.look? "d" = some .directory := by decide +kernel
  have hg : Settings.governing Report.mixedFiles (.ofText "d") = .ok (.ofText "d", {}) :=
    governing_eq_default (by decide +kernel)
  have htext : ∀ d ∈ Report.fixtureDirectories (.ofText "d") [], ∀ p bytes,
      IsSource Report.mixedFiles d [".plisp"] p bytes → String.fromUTF8? bytes ≠ none :=
    fun d _ p bytes hp => hp.isText (by decide +kernel)
  have hsuffixes : ({} : Settings).extensions = .array ([".plisp"].map .string) := rfl
  have hnames : ({} : Settings).fixtureDirs = .array (([] : List String).map .string) := rfl
  obtain ⟨-, hreports⟩ := run_check_verdict hargs hlook hg hsuffixes hnames htext
  obtain ⟨reports, htells, hrun, -⟩ := hreports (by decide +kernel)
  exact ⟨reports, htells, hrun⟩

theorem plain_farDirectory : Report.farDirectory.Plain where
  slashes_le := Nat.zero_le 2
  parts := by
    intro c hc
    have hc : c = ".." ∨ c = "dddddddddddddddddddddddddddddd" := by
      simp only [Report.farDirectory, List.mem_cons, List.mem_flatten, List.mem_replicate] at hc
      rcases hc with rfl | ⟨cs, ⟨-, rfl⟩, hc⟩
      · exact .inr rfl
      · simpa using hc
    rcases hc with rfl | rfl <;> exact ⟨by decide, by decide, by decide +kernel⟩

/-- **What is said of a directory that is there is not said of one that is too far away**: the
operand leads to a directory, which governs itself, and the one source below it is text; still
nothing is printed, and the run ends with a failure that no command expects. -/
theorem run_check_too_far :
    AsksCheck [Report.farDirectory.shown] Report.farDirectory.shown false ∧
    Report.farFiles.look? Report.farDirectory.shown = some .directory ∧
    Settings.governing Report.farFiles (.ofText Report.farDirectory.shown) =
      .ok (Report.farDirectory, {}) ∧
    (∀ p bytes, IsSource Report.farFiles Report.farDirectory [".plisp"] p bytes →
      String.fromUTF8? bytes ≠ none) ∧
    run Report.farFiles ["check", Report.farDirectory.shown] =
      ⟨[], .failed (.check (.load (.file .tooLong)))⟩ := by
  have hparts : Report.farDirectory.parts ≠ [] := by simp [Report.farDirectory]
  have hback := Path.ofText_shown plain_farDirectory
  have hargs : AsksCheck [Report.farDirectory.shown] Report.farDirectory.shown false := by
    refine asksCheck_operand ?_
    have hfirst : ∃ cs, Report.farDirectory.shown.toList = 'd' :: cs := by
      rw [Path.toList_shown hparts]
      exact ⟨_, rfl⟩
    obtain ⟨cs, hcs⟩ := hfirst
    simp [hcs]
  have hlook : Report.farFiles.look? Report.farDirectory.shown = some .directory :=
    look?_shown plain_farDirectory rfl hparts (by decide +kernel)
  have hg : Settings.governing Report.farFiles (.ofText Report.farDirectory.shown) =
      .ok (Report.farDirectory, {}) := by
    rw [hback]
    exact governing_eq_default (by decide +kernel)
  refine ⟨hargs, hlook, hg, fun p bytes hp => hp.isText (by decide +kernel), ?_⟩
  rw [run_check hargs hlook]
  refine checkDirectories_of_load hg ?_
  have hsuffixes : ({} : Settings).extensions = .array ([".plisp"].map .string) := rfl
  have hnames : ({} : Settings).fixtureDirs = .array (([] : List String).map .string) := rfl
  have hr : Report.farFiles.Refuses Report.farDirectory := by decide +kernel
  have hsplit : Report.fixtureDirectories Report.farDirectory [] =
      [] ++ Report.farDirectory :: [] :=
    rfl
  exact Report.ofProject_of_first hnames hsuffixes hsplit (by simp) (Report.ofFixture_of_refuses hr)

end CommandLine

end IndentLisp
