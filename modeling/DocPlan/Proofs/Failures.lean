import DocPlan.CommandLine.Run
import DocPlan.Proofs.OptionPrecedence
import DocPlan.Proofs.Revalidation
import DocPlan.Proofs.WorkspaceUnions

/-!
# A run fails exactly when it reports an error

No stage of a run reports an error: the stages stay within lists of kinds that hold none
(`Config.within_validate`, `Plan.within_workspace`). An error is reported at the end of the run
that fails for it (`Plan.reportFailure`): once, or, if it is about compiler options, problem by
problem. Such an error has problems, because only the check of compiler options makes it
(`Config.checked_of_error`) and the check makes none of an empty list.

A command line adds one more way to fail, before a run starts: the file with its request. That
failure is reported like the others (`Arguments.failsAsReported_config`), and what is printed
follows from the report (`Arguments.answers_ending`). A configuration with a path that is no text
cannot be printed as an object; a run that should do so breaks off without an error of its own.

Main result: `CommandLine.fails_as_reported`.
-/

namespace DocPlan

/-! ## Reports of errors -/

/-- How an error is reported: once, or, for invalid compiler options, once for each of their
problems, of which there are some. -/
inductive Error.ReportedBy : Error → List Diagnostic → Prop
  | each {problems : List String} (hne : problems ≠ []) :
    ReportedBy (.invalidCompilerOptions problems)
      (problems.map fun problem => ⟨.error, "INVALID_COMPILER_OPTIONS", problem⟩)
  | once {error : Error} (hother : ∀ problems, error ≠ .invalidCompilerOptions problems) :
    ReportedBy error [⟨.error, error.code, error.message⟩]

namespace Error.ReportedBy

variable {error : Error} {diagnostics : List Diagnostic}

theorem severity (h : error.ReportedBy diagnostics) :
    ∀ diagnostic ∈ diagnostics, diagnostic.severity = .error := by
  intro diagnostic hmem
  cases h with
  | each hne =>
    obtain ⟨problem, -, rfl⟩ := List.mem_map.mp hmem
    rfl
  | once hother =>
    obtain rfl := List.mem_singleton.mp hmem
    rfl

theorem exists_mem (h : error.ReportedBy diagnostics) : ∃ diagnostic, diagnostic ∈ diagnostics := by
  cases h with
  | each hne =>
    obtain ⟨problem, hproblem⟩ := List.exists_mem_of_ne_nil _ hne
    exact ⟨_, List.mem_map_of_mem hproblem⟩
  | once hother => exact ⟨_, List.mem_singleton_self _⟩

end Error.ReportedBy

/-- A report fails exactly when it reports an error: the error's diagnostics are the last ones
of a report that fails, and there are no other errors among its diagnostics. -/
structure Report.FailsAsReported {α : Type} (report : Report α) : Prop where
  fails_iff : (∃ error, report.outcome = .error error) ↔
    ∃ diagnostic ∈ report.diagnostics, diagnostic.severity = .error
  of_error : ∀ error, report.outcome = .error error → ∃ before last,
    report.diagnostics = before ++ last ∧
      (∀ diagnostic ∈ before, diagnostic.severity ≠ .error) ∧ error.ReportedBy last
  of_ok : ∀ value, report.outcome = .ok value → ∀ diagnostic ∈ report.diagnostics,
    diagnostic.severity = .info ∨ diagnostic.severity = .warn

/-- A failure for invalid compiler options has problems. -/
def Error.HasProblems {α : Type} (result : Except Error α) : Prop :=
  ∀ problems, result = .error (.invalidCompilerOptions problems) → problems ≠ []

/-- Steps that fail for other reasons have no problems to name. -/
theorem Error.Within.hasProblems {α : Type} {codes : List String} {result : Except Error α}
    (h : Error.Within codes result) (hout : "INVALID_COMPILER_OPTIONS" ∉ codes) :
    Error.HasProblems result :=
  fun _ hfailed => absurd (h _ hfailed) hout

theorem Error.HasProblems.bind {α β : Type} {first : Except Error α}
    {second : α → Except Error β} (hfirst : HasProblems first)
    (hsecond : ∀ found, HasProblems (second found)) : HasProblems (first >>= second) := by
  intro problems h
  rcases bind_eq_error_iff.mp h with hfailed | ⟨found, -, hfailed⟩
  · exact hfirst problems hfailed
  · exact hsecond found problems hfailed

namespace Plan

theorem reportedBy_failureDiagnostics {error : Error}
    (h : ∀ problems, error = .invalidCompilerOptions problems → problems ≠ []) :
    error.ReportedBy (failureDiagnostics error) := by
  cases error with
  | invalidCompilerOptions problems => exact .each (h problems rfl)
  | _ => exact .once fun _ hother => nomatch hother

/-- A report without errors is one that fails as reported, once its failure is reported. -/
theorem failsAsReported_reportFailure {α : Type} {report : Report α}
    (hmild : ∀ diagnostic ∈ report.diagnostics, diagnostic.severity ≠ .error)
    (hproblems : Error.HasProblems report.outcome) : (reportFailure report).FailsAsReported := by
  obtain ⟨diagnostics, outcome⟩ := report
  cases outcome with
  | ok value =>
    refine ⟨⟨?_, ?_⟩, ?_, ?_⟩
    · rintro ⟨error, herror⟩
      cases herror
    · rintro ⟨diagnostic, hmem, hsevere⟩
      exact absurd hsevere (hmild diagnostic hmem)
    · intro error herror
      cases herror
    · intro _ _ diagnostic hmem
      have hnot := hmild diagnostic hmem
      cases hseverity : diagnostic.severity with
      | info => exact .inl rfl
      | warn => exact .inr rfl
      | error => exact absurd hseverity hnot
  | error error =>
    have hreported : error.ReportedBy (failureDiagnostics error) :=
      reportedBy_failureDiagnostics fun problems heq => hproblems problems (congrArg _ heq)
    refine ⟨⟨?_, fun _ => ⟨error, rfl⟩⟩, ?_, ?_⟩
    · intro _
      obtain ⟨diagnostic, hmem⟩ := hreported.exists_mem
      exact ⟨diagnostic, List.mem_append_right _ hmem, hreported.severity diagnostic hmem⟩
    · intro other hother
      obtain rfl := Except.error.inj hother
      exact ⟨diagnostics, _, rfl, hmild, hreported⟩
    · intro value hvalue
      cases hvalue

end Plan

/-- A report of mild kinds has no error among its diagnostics. -/
theorem Report.Within.severity_ne_error {α : Type} {kinds : List (Severity × String)}
    {codes : List String} {report : Report α} (h : report.Within kinds codes)
    (hmild : ∀ kind ∈ kinds, kind.1 ≠ .error) :
    ∀ diagnostic ∈ report.diagnostics, diagnostic.severity ≠ .error :=
  fun diagnostic hmem => hmild diagnostic.kind (h.diagnostics diagnostic hmem)

/-! ## Runs -/

theorem Config.hasProblems_validate (site : Site) (request : Request) :
    Error.HasProblems (validate site request).outcome := by
  intro problems h
  obtain ⟨gathered, -, hchecked⟩ := checked_of_error h
  exact (Options.mem_problems_of_check hchecked).1

namespace Plan

/-- What is reported about a workspace. -/
def kinds : List (Severity × String) :=
  Manifest.kinds ++ [(.info, "WORKSPACE_MEMBER")] ++ Config.mergeKinds ++
    (Settings.kinds ++ Subject.kinds)

/-- What is wrong with a workspace. -/
def codes : List String :=
  Manifest.codes ++ ["INVALID_FIELD", "NO_ENTRY_POINTS"] ++ Config.mergeCodes ++
    (Settings.codes ++ Subject.codes)

theorem within_reportIgnoredName (request : Request) (members : List FilePath) :
    Noted.Within Config.mergeKinds (reportIgnoredName request members) := by
  unfold reportIgnoredName
  split
  next => exact Noted.within_warn _ (by decide)
  next => exact Noted.within_pure _

theorem within_workspace (site : Site) (request : Request) :
    Report.Within kinds codes (workspace site request) :=
  ((within_workspaceRoot site request).mono (by decide) (by decide)).bind fun root =>
    ((Workspaces.within_members site.files root).mono (by decide) (by decide)).bind fun found =>
    (Report.within_except ((within_requireMembers root request found).mono (by decide))).bind
    fun members =>
    (Report.within_noted ((within_reportIgnoredName request members).mono (by decide))).bind
    fun _ =>
    ((within_memberConfigs site request _ members).mono (List.subset_append_right _ _)
      (List.subset_append_right _ _)).bind fun configs => by
    split
    next => exact Report.within_pure _
    next => exact (Config.within_merge configs).mono (by decide) (by decide)

/-- Only the members of a workspace have compiler options that may be invalid. -/
theorem hasProblems_workspace (site : Site) (request : Request) :
    Error.HasProblems (workspace site request).outcome := by
  have hmembers : ∀ single members,
      Error.HasProblems (memberConfigs site request single members).outcome := by
    intro single members problems h
    obtain ⟨member, -, hfailed⟩ := exists_of_memberConfigs_eq_error h
    exact Config.hasProblems_validate site _ problems hfailed
  unfold workspace
  simp only [Report.outcome_bind, Report.outcome_except, Report.outcome_noted]
  refine ((within_workspaceRoot site request).outcome.hasProblems (by decide)).bind fun root =>
    ((Workspaces.within_members site.files root).outcome.hasProblems (by decide)).bind fun found =>
    ((within_requireMembers root request found).hasProblems (by decide)).bind fun members =>
    .bind (fun _ h => nomatch h) fun _ => (hmembers _ members).bind fun configs => ?_
  split
  next => exact fun _ h => nomatch h
  next => exact (Config.within_merge configs).outcome.hasProblems (by decide)

/-- A run fails exactly when it reports an error. -/
theorem failsAsReported_run (site : Site) (overWorkspace : Bool) (request : Request) :
    (run site overWorkspace request).FailsAsReported := by
  unfold run
  cases overWorkspace with
  | true =>
    rw [if_pos rfl]
    exact failsAsReported_reportFailure
      ((within_workspace site request).severity_ne_error (by decide))
      (hasProblems_workspace site request)
  | false =>
    rw [if_neg Bool.false_ne_true]
    exact failsAsReported_reportFailure
      ((Config.within_validate site request).severity_ne_error (by decide))
      (Config.hasProblems_validate site request)

end Plan

/-! ## Command lines -/

namespace CommandLine

namespace Arguments

theorem within_fullRequest (arguments : Arguments) (site : Site) :
    Error.Within ("INVALID_FIELD" :: ConfigFile.codes) (arguments.fullRequest site) := by
  refine Error.Within.map ?_ _
  unfold baseRequest
  split
  next file =>
    exact ((ConfigFile.within_readObject _ _).mono (List.subset_cons_self _ _)).bind fun members =>
      (Request.within_ofJson _).mono (by decide)
  next => exact Error.within_ok _

/-- A command line fails exactly when it reports an error, whatever its request is. -/
theorem failsAsReported_config (arguments : Arguments) (site : Site) :
    (arguments.config site).FailsAsReported := by
  have hrequest := arguments.within_fullRequest site
  unfold config
  split
  next request _ => exact Plan.failsAsReported_run site arguments.workspaces request
  next error herror =>
    have hfailed : Error.Within ("INVALID_FIELD" :: ConfigFile.codes)
        (.error error : Except Error Config) := Error.within_error (hrequest error herror)
    exact Plan.failsAsReported_reportFailure (fun _ hmem => nomatch hmem)
      (hfailed.hasProblems (by decide))

/-- What a finished run says agrees with its report: the status and, if asked for, the object
that is printed tell whether there is a configuration, and the error if there is none. There is no
such object for a configuration with a path that is no text; then the run breaks off. -/
structure Answers (arguments : Arguments) (report : Report Config) (status : Nat)
    (printed : String) : Prop where
  of_ok : ∀ config, report.outcome = .ok config →
    (arguments.json = true → ∀ path ∈ config.paths, path.isText = true) →
    status = 0 ∧ (arguments.json = true →
      printed = (Json.object [("ok", .boolean true), ("config", config.toJson)]).pretty ++ "\n")
  breaks_off : ∀ config, report.outcome = .ok config → arguments.json = true →
    (∃ path ∈ config.paths, path.isText = false) → status = 101 ∧ printed = ""
  of_error : ∀ error, report.outcome = .error error → status = 1 ∧ (arguments.json = true →
    printed = (Json.object [("ok", .boolean false), ("error", .object
      ([("code", .string error.code), ("message", .string error.message)] ++
        (error.field?.map fun field => ("field", Json.string field)).toList))]).pretty ++ "\n")

end Arguments

/-- The errors of a report are all in the log that is shown, and the log has no others. -/
theorem reported_mem_shown_iff {verbose : Bool} {directory : FilePath}
    {diagnostics : List Diagnostic} {diagnostic : Diagnostic}
    (hsevere : diagnostic.severity = .error) :
    .reported diagnostic ∈
        LogEvent.shown verbose (.starting directory :: diagnostics.map .reported) ↔
      diagnostic ∈ diagnostics := by
  have hurgent : (LogEvent.reported diagnostic).isUrgent = true := by
    simp [LogEvent.isUrgent, hsevere]
  have hmem : LogEvent.reported diagnostic ∈ .starting directory :: diagnostics.map .reported ↔
      diagnostic ∈ diagnostics := by
    simp
  unfold LogEvent.shown
  split
  next => exact hmem
  next => rw [List.mem_filter, hmem, and_iff_left hurgent]

/-- The status of a run tells whether an error is in its log. -/
def StatusTells (status : Nat) (log : List LogEvent) : Prop :=
  status = 1 ↔ ∃ diagnostic, .reported diagnostic ∈ log ∧ diagnostic.severity = .error

/-! ### How a run ends -/

theorem ending_error (json : Bool) (error : Error) :
    ending json (.error error) =
      (1, if json then
          (Json.object [("ok", .boolean false), ("error", error.toJson)]).pretty ++ "\n"
        else "") := by
  cases json <;> rfl

/-- A configuration is printed if no object is asked for, or if there is one. -/
theorem ending_ok {json : Bool} {config : Config}
    (htexts : json = true → ∀ path ∈ config.paths, path.isText = true) :
    ending json (.ok config) =
      (0, if json then
          (Json.object [("ok", .boolean true), ("config", config.toJson)]).pretty ++ "\n"
        else config.summary) := by
  cases json with
  | false => rfl
  | true =>
    have hjson : config.json? = some config.toJson := if_pos (List.all_eq_true.mpr (htexts rfl))
    simp only [ending, printedText?, outcomeJson?, hjson, Option.map_some, if_true, statusOf]

theorem ending_ok_of_unreadable {config : Config} (h : ∃ path ∈ config.paths, path.isText = false) :
    ending true (.ok config) = (101, "") := by
  have hjson : config.json? = none := by
    refine if_neg ?_
    rw [Bool.not_eq_true, List.all_eq_false]
    simpa using h
  simp only [ending, printedText?, outcomeJson?, hjson, Option.map_none, if_true, brokenOff]

/-- The status is 1 only for an error: a run that breaks off has another one. -/
theorem ending_fst_eq_one_iff {json : Bool} {outcome : Except Error Config} :
    (ending json outcome).1 = 1 ↔ ∃ error, outcome = .error error := by
  cases outcome with
  | error error => simp [ending_error]
  | ok config =>
    have hother : (ending json (.ok config)).1 ≠ 1 := by
      unfold ending
      split <;> simp [statusOf, brokenOff]
    simp [hother]

/-- What a run ends with agrees with its report. -/
theorem Arguments.answers_ending (arguments : Arguments) (report : Report Config) :
    arguments.Answers report (ending arguments.json report.outcome).1
      (ending arguments.json report.outcome).2 where
  of_ok := by
    intro config hconfig htexts
    rw [hconfig, ending_ok htexts]
    exact ⟨rfl, fun hjson => if_pos hjson⟩
  breaks_off := by
    intro config hconfig hjson hunreadable
    rw [hconfig, hjson, ending_ok_of_unreadable hunreadable]
    exact ⟨rfl, rfl⟩
  of_error := by
    intro error herror
    rw [herror, ending_error]
    exact ⟨rfl, fun hjson => if_pos hjson⟩

/-- Generating a configuration ends with a status and a text that agree with its report. -/
theorem exists_generate (fs : FileSystem) (arguments : Arguments) :
    ∃ status printed log, generate fs arguments = .finished status printed arguments.json log ∧
      StatusTells status log ∧
      arguments.Answers (arguments.config (arguments.site fs)) status printed := by
  have hreported := arguments.failsAsReported_config (arguments.site fs)
  refine ⟨_, _, _, rfl, ?_, arguments.answers_ending _⟩
  refine ending_fst_eq_one_iff.trans (hreported.fails_iff.trans (exists_congr fun diagnostic => ?_))
  constructor
  · rintro ⟨hmem, hsevere⟩
    exact ⟨(reported_mem_shown_iff hsevere).mpr hmem, hsevere⟩
  · rintro ⟨hmem, hsevere⟩
    exact ⟨(reported_mem_shown_iff hsevere).mp hmem, hsevere⟩

/-- A run fails exactly when it reports an error, and a command line whose words make sense ends
with the status 1 exactly when an error is in its log. With `--json` it prints an object about the
configuration or the error, unless a path of the configuration is no text: then it breaks off. -/
theorem fails_as_reported (site : Site) (overWorkspace : Bool) (request : Request)
    (fs : FileSystem) (environment : Option Word) (words : List Word) (command : Command)
    (hcommand : Command.ofWords environment words = .ok command) :
    (Plan.run site overWorkspace request).FailsAsReported ∧
    ∃ status printed json log,
      runWords fs environment words = .finished status printed json log ∧
      StatusTells status log ∧
      ∀ arguments, command = .generate arguments →
        (arguments.config (arguments.site fs)).FailsAsReported ∧
        arguments.Answers (arguments.config (arguments.site fs)) status printed := by
  refine ⟨Plan.failsAsReported_run site overWorkspace request, ?_⟩
  have hquiet : StatusTells 0 [] := ⟨nofun, fun ⟨_, hmem, _⟩ => nomatch hmem⟩
  unfold runWords
  rw [hcommand]
  cases command with
  | showHelp =>
    refine ⟨0, _, _, _, rfl, hquiet, ?_⟩
    intro arguments h
    cases h
  | showVersion =>
    refine ⟨0, _, _, _, rfl, hquiet, ?_⟩
    intro arguments h
    cases h
  | generate arguments =>
    obtain ⟨status, printed, log, hrun, hstatus, hanswers⟩ := exists_generate fs arguments
    refine ⟨status, printed, _, log, hrun, hstatus, ?_⟩
    rintro _ ⟨rfl⟩
    exact ⟨arguments.failsAsReported_config _, hanswers⟩

/-- A disk with nothing on it. -/
def emptyDisk : FileSystem where
  root := .directory []
  workingDirectory := []

/-- Arguments that ask for an object only. -/
def jsonArguments : Arguments := { json := true }

/-- The command line that gives these arguments. -/
def jsonWords : List Word := [Word.ofText "--json"]

/-- Where there is no package, a run fails as it reports, and a command line with these arguments
ends with the status 1, an error in its log and the error as an object. -/
theorem fails_as_reported_of_no_package :
    Command.ofWords none jsonWords = .ok (.generate jsonArguments) ∧
      (Plan.run (jsonArguments.site emptyDisk) false {}).FailsAsReported ∧
      ∃ log, runWords emptyDisk none jsonWords = .finished 1 ((Json.object [("ok", .boolean false),
        ("error", .object [("code", .string "MANIFEST_NOT_FOUND"),
          ("message", .string "No package.json found from /")])]).pretty ++ "\n") true log ∧
      ∃ diagnostic, .reported diagnostic ∈ log ∧ diagnostic.severity = .error := by
  have hcommand : Command.ofWords none jsonWords = .ok (.generate jsonArguments) := by rfl
  have hfound : ((jsonArguments.config (jsonArguments.site emptyDisk)).outcome.map fun _ => ()) =
      .error (.manifestNotFound (FilePath.ofString "/")) := by decide +kernel
  obtain ⟨hplan, status, printed, json, log, hrun, hstatus, hgenerate⟩ :=
    fails_as_reported (jsonArguments.site emptyDisk) false {} emptyDisk none jsonWords _ hcommand
  obtain ⟨-, hanswers⟩ := hgenerate _ rfl
  obtain ⟨rfl, hprinted⟩ := hanswers.of_error _ (Error.map_eq_error_iff.mp hfound)
  obtain rfl : true = json := by
    unfold runWords at hrun
    rw [hcommand] at hrun
    exact (Outcome.finished.inj hrun).2.2.1
  refine ⟨hcommand, hplan, log, ?_, hstatus.mp rfl⟩
  rw [hrun, hprinted rfl]
  rfl

/-- Asked for an object about a package in a directory whose name is no text, a run finds the
configuration, reports no error, and still prints nothing and has neither of the two statuses. -/
theorem breaks_off_at_unreadable_path :
    ∃ arguments config log,
      Command.ofWords none (jsonWords ++ [Config.unreadableSite.directory.bytes]) =
        .ok (.generate arguments) ∧
      (arguments.config (arguments.site Config.unreadableSite.files)).outcome = .ok config ∧
      runWords Config.unreadableSite.files none
          (jsonWords ++ [Config.unreadableSite.directory.bytes]) = .finished 101 "" true log ∧
      ∀ diagnostic, .reported diagnostic ∈ log → diagnostic.severity ≠ .error := by
  let arguments : Arguments := { jsonArguments with path := some Config.unreadableSite.directory }
  have hcommand : Command.ofWords none (jsonWords ++ [Config.unreadableSite.directory.bytes]) =
      .ok (.generate arguments) := by rfl
  have hfound : (arguments.config (arguments.site Config.unreadableSite.files)).outcome.toOption.map
      (fun config => config.paths.all FilePath.isText) = some false := by decide +kernel
  obtain ⟨config, hconfig, htexts⟩ := Option.map_eq_some_iff.mp hfound
  have hunreadable : ∃ path ∈ config.paths, path.isText = false := by
    simpa using List.all_eq_false.mp htexts
  have houtcome := Error.toOption_eq_some_iff.mp hconfig
  obtain ⟨status, printed, log, hrun, hstatus, hanswers⟩ :=
    exists_generate Config.unreadableSite.files arguments
  obtain ⟨rfl, rfl⟩ := hanswers.breaks_off config houtcome rfl hunreadable
  refine ⟨arguments, config, log, hcommand, houtcome, ?_, ?_⟩
  · unfold runWords
    rw [hcommand]
    exact hrun
  · intro diagnostic hmem hsevere
    exact absurd (hstatus.mpr ⟨diagnostic, hmem, hsevere⟩) (by decide)

end CommandLine

end DocPlan
