import DocPlan.Proofs.Catalogue
import DocPlan.Proofs.Settings
import DocPlan.Proofs.Subjects

/-!
# Which source a compiler option comes from

Compiler options come from up to four sources, and the merged value of an option is the one
in the last source that mentions it (`Options.get?_foldl_overlay`). A value is judged only
after the sources are merged: null unsets the option, and any other value is used as the
table writes it (`Options.Follows`), or is a problem.

No other stage of a run fails for invalid compiler options (`Config.checked_of_error`), so a
value that a later source overrides is never reported.

Main result: `Config.compilerOptions_follow_sources`.
-/

namespace DocPlan

namespace Options

open CompilerOptions

/-! ## Sources -/

/-- The options of the compiler configuration file that a request names. -/
def tsconfigSource (site : Site) (request : Request) : Except Error (List Members) :=
  match request.tsconfig with
  | none => .ok []
  | some path =>
    (ConfigFile.compilerOptions site.files (site.absolute path)).map fun options => [options]

/-- The options embedded in the generator's configuration file that a request names. -/
def typedocSource (site : Site) (request : Request) : Except Error (List Members) :=
  match request.typedocJson with
  | none => .ok []
  | some path =>
    (ConfigFile.readObject site.files (site.absolute path)).map fun members =>
      members.filterMap embedded?

/-- The sources of the compiler options of a request, each going before those that stand
before it. -/
def sources (site : Site) (request : Request) : Except Error (List Members) := do
  let tsconfig ← tsconfigSource site request
  let typedocJson ← typedocSource site request
  return tsconfig ++ typedocJson ++ (request.typedocOptions.getD []).filterMap embedded? ++
    request.compilerOptions.toList

/-- The value of an option in the last source that mentions it. -/
def effective? (name : String) (sources : List Members) : Option Json :=
  sources.reverse.findSome? (Keyed.last? name)

theorem tsconfigSource_of_addTsconfig {site : Site} {request : Request} {first : Gathered}
    (h : addTsconfig site.files (request.tsconfig.map site.absolute) .empty = .ok first) :
    tsconfigSource site request = .ok first.sources := by
  unfold tsconfigSource
  cases hpath : request.tsconfig with
  | none =>
    rw [hpath] at h
    obtain rfl := Except.ok.inj h
    rfl
  | some path =>
    rw [hpath] at h
    obtain ⟨options, hoptions, rfl⟩ := Error.map_eq_ok_iff.mp h
    exact Error.map_eq_ok_iff.mpr ⟨options, hoptions, rfl⟩

theorem exists_typedocSource_of_addTypedocFile {site : Site} {request : Request}
    {first files : Gathered}
    (h : (addTypedocFile site.files (request.typedocJson.map site.absolute) first).outcome =
      .ok files) :
    ∃ later, typedocSource site request = .ok later ∧
      files.sources = first.sources ++ later := by
  unfold typedocSource
  cases hpath : request.typedocJson with
  | none =>
    rw [hpath] at h
    obtain rfl := Except.ok.inj h
    exact ⟨[], rfl, (List.append_nil _).symm⟩
  | some path =>
    rw [hpath] at h
    obtain ⟨members, hmembers, hadded⟩ := Error.bind_eq_ok_iff.mp
      ((Report.outcome_bind _ _).symm.trans h)
    obtain ⟨-, rfl⟩ := Gathered.addMembers_eq_ok_iff.mp hadded
    exact ⟨_, Error.map_eq_ok_iff.mpr ⟨members, hmembers, rfl⟩, rfl⟩

/-- What was gathered has the sources of the request. -/
theorem sources_of_gather {site : Site} {request : Request} {tsconfig typedocJson : Option FilePath}
    {gathered : Gathered} (htsconfig : site.requireFile "tsconfig" request.tsconfig = .ok tsconfig)
    (htypedocJson : site.requireFile "typedocJson" request.typedocJson = .ok typedocJson)
    (h : (gather site.files request tsconfig typedocJson).outcome = .ok gathered) :
    sources site request = .ok gathered.sources := by
  obtain ⟨-, rfl⟩ := Site.requireFile_eq_ok_iff.mp htsconfig
  obtain ⟨-, rfl⟩ := Site.requireFile_eq_ok_iff.mp htypedocJson
  obtain ⟨files, ⟨first, hfirst, hfiles⟩, -, rfl⟩ := gather_eq_ok_iff.mp h
  obtain ⟨later, hlater, hsources⟩ := exists_typedocSource_of_addTypedocFile hfiles
  unfold sources
  rw [tsconfigSource_of_addTsconfig hfirst, hlater, hsources]
  rfl

/-- The merged value of an option is the one in the last source that mentions it. -/
theorem get?_foldl_overlay (name : String) (sources : List Members) :
    Keyed.get? name (sources.foldl Keyed.overlay []) = effective? name sources := by
  have hreverse : ∀ later : List Members,
      Keyed.get? name (later.reverse.foldl Keyed.overlay []) =
        later.findSome? (Keyed.last? name) := by
    intro later
    induction later with
    | nil => rfl
    | cons source earlier ih =>
      rw [List.reverse_cons, List.foldl_append, List.foldl_cons, List.foldl_nil,
        Keyed.get?_overlay, ih, List.findSome?_cons]
      cases Keyed.last? name source <;> rfl
  rw [effective?, ← hreverse, List.reverse_reverse]

/-! ## What becomes of the options -/

/-- Options follow their sources: what no source mentions is neither used nor unset, and of
every other option the last source decides. -/
structure Follows (sources : List Members) (checked : Checked) : Prop where
  unmentioned : ∀ name, effective? name sources = none →
    name ∉ Keyed.keys checked.used ∧ name ∉ checked.unset
  nulled : ∀ name, effective? name sources = some .null →
    name ∉ Keyed.keys checked.used ∧ name ∈ checked.unset
  valued : ∀ name value, effective? name sources = some value → value ≠ .null →
    (∃ normal, normalize name value = .ok normal ∧
      Keyed.get? name checked.used = some normal) ∧ name ∉ checked.unset

/-- Options that pass their check follow their sources. -/
theorem follows_of_check {gathered : Gathered} {checked : Checked}
    (h : (check CompilerOptions.check gathered.merged).outcome = .ok checked) :
    Follows gathered.sources checked := by
  have hnodup := gathered.nodup_keys_merged
  have hvalue : ∀ name, Keyed.get? name gathered.merged = effective? name gathered.sources :=
    fun name => get?_foldl_overlay name gathered.sources
  obtain ⟨hused, -, -, -⟩ := checked_of_check hnodup h
  obtain ⟨hnone, rfl⟩ := check_eq_ok_iff.mp h
  have hkeys := keys_filterMap_kept? hnodup hnone
  have hunused : ∀ name, isSet gathered.merged name = false →
      name ∉ Keyed.keys (gathered.merged.filterMap kept?) := by
    intro name hset hmem
    rw [hkeys] at hmem
    simp [hset] at hmem
  refine ⟨?_, ?_, ?_⟩
  · intro name hname
    rw [← hvalue] at hname
    refine ⟨hunused name (by rw [isSet, hname]), ?_⟩
    rw [mem_unsetNames hnodup, hname]
    simp
  · intro name hname
    rw [← hvalue] at hname
    exact ⟨hunused name (by rw [isSet, hname]; rfl), (mem_unsetNames hnodup).mpr hname⟩
  · intro name value hname hsome
    rw [← hvalue] at hname
    have hmem := Keyed.mem_of_get?_eq_some hname
    have hnull := Json.isNull_eq_false_iff.mpr hsome
    obtain ⟨normal, hnormal⟩ := exists_normalize_of_problem? (hnone _ hmem) hnull
    have hkept : kept? (name, value) = some (name, normal) :=
      kept?_eq_some_iff.mpr ⟨hnull, rfl, hnormal⟩
    constructor
    · exact ⟨normal, hnormal, Keyed.get?_of_mem hused (List.mem_filterMap.mpr ⟨_, hmem, hkept⟩)⟩
    · rw [mem_unsetNames hnodup, hname]
      simp [hsome]

/-- What is wrong with options is wrong with a value that no later source overrides. -/
theorem mem_problems_of_check {gathered : Gathered} {problems : List String}
    (h : (check CompilerOptions.check gathered.merged).outcome =
      .error (.invalidCompilerOptions problems)) :
    problems ≠ [] ∧ ∀ problem, problem ∈ problems ↔
      ∃ name value, effective? name gathered.sources = some value ∧ value ≠ .null ∧
        normalize name value = .error problem := by
  have hproblems : problems = gathered.merged.filterMap problem? ∧ problems ≠ [] := by
    unfold check at h
    rw [Report.outcome_bind, Report.outcome_noted, check_value] at h
    by_cases hnone : (gathered.merged.filterMap problem?).isEmpty = true
    · rw [if_pos hnone] at h
      cases h
    · rw [if_neg hnone] at h
      obtain rfl := Error.invalidCompilerOptions.inj (Except.error.inj h)
      exact ⟨rfl, fun hempty => hnone (by rw [hempty]; rfl)⟩
  obtain ⟨rfl, hne⟩ := hproblems
  refine ⟨hne, ?_⟩
  intro problem
  rw [List.mem_filterMap]
  constructor
  · rintro ⟨⟨name, value⟩, hmem, hproblem⟩
    obtain ⟨hnull, hnormal⟩ := problem?_eq_some_iff.mp hproblem
    refine ⟨name, value, ?_, Json.isNull_eq_false_iff.mp hnull, hnormal⟩
    rw [← get?_foldl_overlay]
    exact Keyed.get?_of_mem gathered.nodup_keys_merged hmem
  · rintro ⟨name, value, hvalue, hsome, hnormal⟩
    rw [← get?_foldl_overlay] at hvalue
    exact ⟨(name, value), Keyed.mem_of_get?_eq_some hvalue,
      problem?_eq_some_iff.mpr ⟨Json.isNull_eq_false_iff.mpr hsome, hnormal⟩⟩

end Options

/-! ## Whole runs -/

/-- Settings that fail for invalid compiler options fail in the check of the options. -/
theorem Settings.checked_of_error {site : Site} {request : Request} {problems : List String}
    (h : (ofRequest site CompilerOptions.check request).outcome =
      .error (.invalidCompilerOptions problems)) :
    ∃ gathered : Options.Gathered, Options.sources site request = .ok gathered.sources ∧
      (Options.check CompilerOptions.check gathered.merged).outcome =
        .error (.invalidCompilerOptions problems) := by
  have hout : ∀ {codes : List String}, "INVALID_COMPILER_OPTIONS" ∉ codes →
      (Error.invalidCompilerOptions problems).code ∉ codes := fun hcodes => hcodes
  unfold ofRequest at h
  simp only [Report.outcome_bind, Report.outcome_except, Report.outcome_pure] at h
  obtain ⟨_, -, h⟩ := (within_readNavigation request).of_bind_eq_error h (hout (by decide))
  obtain ⟨_, -, h⟩ := (within_requireText _ _).of_bind_eq_error h (hout (by decide))
  obtain ⟨_, -, h⟩ := (within_requireText _ _).of_bind_eq_error h (hout (by decide))
  obtain ⟨_, -, h⟩ := (within_requireText _ _).of_bind_eq_error h (hout (by decide))
  obtain ⟨_, -, h⟩ :=
    (LinkPlugin.within_resolve _).outcome.of_bind_eq_error h (hout (by decide))
  obtain ⟨tsconfig, htsconfig, h⟩ :=
    (site.within_requireFile _ _).of_bind_eq_error h (hout (by decide))
  obtain ⟨typedocJson, htypedocJson, h⟩ :=
    (site.within_requireFile _ _).of_bind_eq_error h (hout (by decide))
  obtain ⟨gathered, hgathered, h⟩ :=
    (Options.within_gather _ _ _ _).outcome.of_bind_eq_error h (hout (by decide))
  refine ⟨gathered, Options.sources_of_gather htsconfig htypedocJson hgathered, ?_⟩
  rcases Error.bind_eq_error_iff.mp h with hchecked | ⟨_, -, h⟩
  · exact hchecked
  · obtain ⟨_, -, h⟩ := (ModuleNames.within_ofList _).of_bind_eq_error h (hout (by decide))
    cases h

namespace Config

/-- A run over a package that fails for invalid compiler options fails in their check. -/
theorem checked_of_error {site : Site} {request : Request} {problems : List String}
    (h : (validate site request).outcome = .error (.invalidCompilerOptions problems)) :
    ∃ gathered : Options.Gathered, Options.sources site request = .ok gathered.sources ∧
      (Options.check CompilerOptions.check gathered.merged).outcome =
        .error (.invalidCompilerOptions problems) := by
  unfold validate validateWith at h
  simp only [Report.outcome_bind, Report.outcome_pure] at h
  rcases Error.bind_eq_error_iff.mp h with hsettings | ⟨settings, -, hrest⟩
  · exact Settings.checked_of_error hsettings
  · have hout : "INVALID_COMPILER_OPTIONS" ∉ Subject.codes := by decide
    obtain ⟨subject, -, hok⟩ :=
      (Subject.within_ofRequest site settings request).outcome.of_bind_eq_error hrest hout
    cases hok

/-- The compiler options of a configuration follow their sources: the last source that
mentions an option decides what becomes of it. And if a run fails for invalid compiler
options, then for exactly those values that no later source overrides. -/
theorem compilerOptions_follow_sources (site : Site) (request : Request) :
    (∀ config, (validate site request).outcome = .ok config →
      ∃ sources, Options.sources site request = .ok sources ∧
        Options.Follows sources ⟨config.compilerOptions, config.unsetCompilerOptions⟩) ∧
    ∀ problems, (validate site request).outcome = .error (.invalidCompilerOptions problems) →
      ∃ sources, Options.sources site request = .ok sources ∧ problems ≠ [] ∧
        ∀ problem, problem ∈ problems ↔
          ∃ name value, Options.effective? name sources = some value ∧ value ≠ .null ∧
            CompilerOptions.normalize name value = .error problem := by
  constructor
  · intro config hconfig
    obtain ⟨settings, subject, hsettings, -, rfl⟩ := validate_eq_ok_iff.mp hconfig
    have hmeets := Settings.ofRequest_eq_ok_iff.mp hsettings
    obtain ⟨gathered, hgathered, -, hchecked⟩ := hmeets.options
    exact ⟨gathered.sources,
      Options.sources_of_gather hmeets.tsconfig hmeets.typedocJson hgathered,
      Options.follows_of_check hchecked⟩
  · intro problems hfailed
    obtain ⟨gathered, hsources, hchecked⟩ := checked_of_error hfailed
    exact ⟨gathered.sources, hsources, Options.mem_problems_of_check hchecked⟩

/-- A package whose compiler configuration file sets an option to a value that cannot be
used. -/
def layeredSite : Site where
  files := {
    root := .directory [("a".toList, .directory [
      ("package.json".toList, .file (Utf8.encode "\x7b\"types\":\"./a.d.ts\"\x7d".toList)),
      ("a.d.ts".toList, .file []),
      ("tsconfig.json".toList, .file (Utf8.encode
        "\x7b\"compilerOptions\":\x7b\"strict\":\"x\"\x7d\x7d".toList))])]
    workingDirectory := [] }
  directory := FilePath.ofString "/a"

/-- A request for the options of that file. -/
def bareRequest : Request where
  tsconfig := some (FilePath.ofString "tsconfig.json")

/-- The same request, overriding the option with null. -/
def overridingRequest : Request :=
  { bareRequest with
    typedocOptions := some [("compilerOptions", .object [("strict", .null)])] }

theorem compilerOptions_follow_sources_of_layers :
    (∃ config sources, (validate layeredSite overridingRequest).outcome = .ok config ∧
      config.unsetCompilerOptions = ["strict"] ∧
      Options.sources layeredSite overridingRequest = .ok sources ∧
      Options.Follows sources ⟨config.compilerOptions, config.unsetCompilerOptions⟩) ∧
    ∃ problem sources, (validate layeredSite bareRequest).outcome =
        .error (.invalidCompilerOptions [problem]) ∧
      Options.sources layeredSite bareRequest = .ok sources ∧
      ∃ name value, Options.effective? name sources = some value ∧ value ≠ .null ∧
        CompilerOptions.normalize name value = .error problem := by
  constructor
  · have hfound : (validate layeredSite overridingRequest).outcome.toOption.map
        (·.unsetCompilerOptions) = some ["strict"] := by decide +kernel
    obtain ⟨config, hconfig, hunset⟩ := Option.map_eq_some_iff.mp hfound
    have hvalid := Error.toOption_eq_some_iff.mp hconfig
    obtain ⟨sources, hsources, hfollows⟩ :=
      (compilerOptions_follow_sources layeredSite overridingRequest).1 config hvalid
    exact ⟨config, sources, hvalid, hunset, hsources, hfollows⟩
  · have hfound : (validate layeredSite bareRequest).outcome.map (fun _ => ()) =
        .error (.invalidCompilerOptions
          ["Compiler option 'strict' requires a value of type boolean."]) := by decide +kernel
    have hfailed := Error.map_eq_error_iff.mp hfound
    obtain ⟨sources, hsources, -, hproblems⟩ :=
      (compilerOptions_follow_sources layeredSite bareRequest).2 _ hfailed
    exact ⟨_, sources, hfailed, hsources, (hproblems _).mp (List.mem_singleton_self _)⟩

end Config

end DocPlan
