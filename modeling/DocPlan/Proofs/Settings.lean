import DocPlan.Config.Validate
import DocPlan.Proofs.OptionSources
import DocPlan.Proofs.PluginsAndNames
import DocPlan.Proofs.ShownPaths

/-!
# What the settings of a request are

`Settings.Meets` says of settings that they are those of a request, field by field, and
`Settings.ofRequest_eq_ok_iff` that the checks find them exactly then.

A configuration writes its settings down as a request (`Config.toRequest`). The settings
of that request are the settings of the configuration (`Settings.ofRequest_toRequest`),
with the name and the display names that its subject came to. Its output directory is the
one that the configuration's is shown as.
-/

namespace DocPlan

/-! ## Single fields -/

theorem requireText_eq_ok_iff {field : String} {value result : Option String} :
    requireText field value = .ok result ↔
      (∀ text, value = some text → Text.isBlank text = false) ∧ value = result := by
  cases value with
  | none => simp [requireText]
  | some text =>
    cases hblank : Text.isBlank text with
    | true => simp [requireText, hblank]
    | false => simp [requireText, hblank]

theorem Site.requireFile_eq_ok_iff {site : Site} {field : String}
    {path result : Option FilePath} :
    site.requireFile field path = .ok result ↔
      (∀ file, path.map site.absolute = some file → site.files.isFile file = true) ∧
        path.map site.absolute = result := by
  cases path with
  | none => simp [requireFile]
  | some path =>
    cases hfile : site.files.isFile (site.absolute path) with
    | true => simp [requireFile, hfile]
    | false => simp [requireFile, hfile]

theorem Navigation.ofName_name (navigation : Navigation) :
    ofName navigation.name = .ok navigation := by
  cases navigation <;> rfl

/-- A file of a request that was found is found again. -/
theorem Site.requireFile_again {site : Site} {field : String} {path result : Option FilePath}
    (habsolute : site.directory.isAbsolute = true)
    (h : site.requireFile field path = .ok result) :
    site.requireFile field result = .ok result := by
  obtain ⟨hfile, rfl⟩ := requireFile_eq_ok_iff.mp h
  have hagain : (path.map site.absolute).map site.absolute = path.map site.absolute := by
    rw [Option.map_map]
    apply Option.map_congr
    intro file _
    exact (FilePath.Normal.of_absolutize habsolute file).absolutize_eq site.directory
  refine requireFile_eq_ok_iff.mpr ⟨?_, hagain⟩
  rw [hagain]
  exact hfile

/-- What an absolute path is shown as is not blank. -/
theorem FilePath.isBlank_toString {path : FilePath} (h : path.isAbsolute = true) :
    Text.isBlank path.toString = false := by
  obtain ⟨bytes, rfl⟩ := isAbsolute_iff.mp h
  have hslash : '/' ∈ chars ⟨separator :: bytes⟩ :=
    (mem_chars_iff (by decide)).mpr List.mem_cons_self
  rw [Text.isBlank, toString, String.toList_ofList, List.all_eq_false]
  exact ⟨'/', hslash, by decide⟩

namespace Settings

theorem readNavigation_of_name {request : Request} {navigation : Option Navigation}
    (h : request.navigation = navigation.map Navigation.name) :
    readNavigation request = .ok navigation := by
  unfold readNavigation
  rw [h]
  cases navigation with
  | none => rfl
  | some navigation =>
    rw [Option.map_some]
    simp only [Navigation.ofName_name]
    rfl

/-! ## All fields -/

/-- Settings are those of a request: every field fits the request, and passes its
check. -/
structure Meets (site : Site) (checker : CompilerOptions.Checker) (request : Request)
    (settings : Settings) : Prop where
  navigation : readNavigation request = .ok settings.navigation
  conditionText : ∀ text, request.condition = some text → Text.isBlank text = false
  condition : settings.condition = request.condition.getD typesCondition
  outputText : ∀ text, request.output = some text → Text.isBlank text = false
  output : settings.output =
    site.absolute (FilePath.ofString (request.output.getD defaultOutput))
  nameText : ∀ text, request.name = some text → Text.isBlank text = false
  name : settings.name = request.name
  linkPlugins : (LinkPlugin.resolve (request.linkPlugins.getD [])).outcome =
    .ok settings.linkPlugins
  tsconfig : site.requireFile "tsconfig" request.tsconfig = .ok settings.tsconfig
  typedocJson : site.requireFile "typedocJson" request.typedocJson = .ok settings.typedocJson
  options : ∃ gathered,
    (Options.gather site.files request settings.tsconfig settings.typedocJson).outcome =
      .ok gathered ∧ settings.typedocOptions = gathered.typedoc ∧
    (Options.check checker gathered.merged).outcome = .ok settings.compilerOptions
  moduleNames : ModuleNames.ofList (request.moduleNames.getD []) = .ok settings.moduleNames
  policy : settings.policy = request.policy

theorem ofRequest_eq_ok_iff {site : Site} {checker : CompilerOptions.Checker}
    {request : Request} {settings : Settings} :
    (ofRequest site checker request).outcome = .ok settings ↔
      Meets site checker request settings := by
  unfold ofRequest
  simp only [Report.outcome_bind, Error.bind_eq_ok_iff, Report.outcome_except,
    Report.outcome_pure, Except.ok.injEq, requireText_eq_ok_iff]
  constructor
  · rintro ⟨navigation, hnavigation, condition, ⟨hcondition, rfl⟩, output, ⟨houtput, rfl⟩, name,
      ⟨hname, rfl⟩, plugins, hplugins, tsconfig, htsconfig, typedocJson, htypedocJson, gathered,
      hgathered, options, hoptions, names, hnames, rfl⟩
    exact {
      navigation := hnavigation
      conditionText := hcondition
      condition := rfl
      outputText := houtput
      output := rfl
      nameText := hname
      name := rfl
      linkPlugins := hplugins
      tsconfig := htsconfig
      typedocJson := htypedocJson
      options := ⟨gathered, hgathered, rfl, hoptions⟩
      moduleNames := hnames
      policy := rfl }
  · intro h
    obtain ⟨gathered, hgathered, htypedoc, hoptions⟩ := h.options
    refine ⟨_, h.navigation, _, ⟨h.conditionText, rfl⟩, _, ⟨h.outputText, rfl⟩, _,
      ⟨h.nameText, rfl⟩, _, h.linkPlugins, _, h.tsconfig, _, h.typedocJson, gathered, hgathered,
      _, hoptions, _, h.moduleNames, ?_⟩
    rw [← h.condition, ← h.output, ← h.name, ← htypedoc, ← h.policy]

namespace Meets

variable {site : Site} {checker : CompilerOptions.Checker} {request : Request}
  {settings : Settings}

theorem isBlank_condition (h : Meets site checker request settings) :
    Text.isBlank settings.condition = false := by
  rw [h.condition]
  cases hcondition : request.condition with
  | none => decide
  | some text => exact h.conditionText text hcondition

theorem normal_output (h : Meets site checker request settings)
    (habsolute : site.directory.isAbsolute = true) : settings.output.Normal := by
  rw [h.output]
  exact .of_absolutize habsolute _

theorem nodup_linkPlugins (h : Meets site checker request settings) :
    settings.linkPlugins.Nodup := by
  rw [← (LinkPlugin.resolve_eq_ok_iff.mp h.linkPlugins).1]
  exact LinkPlugin.nodup_value_ofNames _

end Meets

/-! ## The request of a configuration -/

/-- The settings of the request that a configuration writes down. The request names the output
directory by a text. -/
theorem ofRequest_toRequest {site : Site} {request : Request} {settings : Settings}
    {subject : Subject} (habsolute : site.directory.isAbsolute = true)
    (h : (ofRequest site CompilerOptions.check request).outcome = .ok settings)
    (hname : ∀ name, subject.name = some name → Text.isBlank name = false)
    (hdistinct : subject.moduleNames.Distinct) :
    (ofRequest site CompilerOptions.check (Config.ofParts settings subject).toRequest).outcome =
      .ok { settings with
        output := settings.output.shown
        name := subject.name
        moduleNames := subject.moduleNames } := by
  have hmeets := ofRequest_eq_ok_iff.mp h
  have houtput := hmeets.normal_output habsolute
  obtain ⟨gathered, hgathered, htypedoc, hoptions⟩ := hmeets.options
  obtain ⟨again, hagain, hsame, hchecked⟩ := Options.gather_again
    (Config.ofParts settings subject).toRequest hgathered hoptions (congrArg some htypedoc) rfl
  refine ofRequest_eq_ok_iff.mpr {
    navigation := readNavigation_of_name rfl
    conditionText := ?_
    condition := rfl
    outputText := ?_
    output := ?_
    nameText := hname
    name := rfl
    linkPlugins := ?_
    tsconfig := site.requireFile_again habsolute hmeets.tsconfig
    typedocJson := site.requireFile_again habsolute hmeets.typedocJson
    options := ⟨again, hagain, htypedoc.trans hsame.symm, hchecked⟩
    moduleNames := ModuleNames.ofList_entries hdistinct
    policy := rfl }
  · intro text htext
    obtain rfl := Option.some.inj htext
    exact hmeets.isBlank_condition
  · intro text htext
    obtain rfl := Option.some.inj htext
    exact FilePath.isBlank_toString houtput.isAbsolute
  · exact (houtput.shown.absolutize_eq site.directory).symm
  · have hplugins := LinkPlugin.resolve_eq_ok_iff.mp hmeets.linkPlugins
    refine LinkPlugin.resolve_eq_ok_iff.mpr ⟨?_, hplugins.2⟩
    exact LinkPlugin.ofNames_names hmeets.nodup_linkPlugins

end Settings

end DocPlan
