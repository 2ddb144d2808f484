import DocPlan.Proofs.Settings
import DocPlan.Proofs.Subjects

/-!
# What a configuration may rely on

`Config.Coherent` collects what holds of every configuration that a run gives, whatever
was asked for: its fields agree with each other, its paths are written plainly, and its
lists repeat nothing. Some fields only repeat what others say (whether there is a package,
whether all entry points are declarations, whether there are compiler options); the
invariant ties them to the fields they are about.

`Config.coherent_of_validate` is the case of a single package or file.
-/

namespace DocPlan

namespace FilePath

open Text

/-- An absolute path without `.` and `..`. -/
def Plain (path : FilePath) : Prop :=
  path.isAbsolute = true ∧
    ∀ segment ∈ Text.segments separator path.bytes, segment ≠ [dot] ∧ segment ≠ [dot, dot]

theorem Normal.plain {path : FilePath} (h : path.Normal) : path.Plain := by
  refine ⟨h.isAbsolute, ?_⟩
  obtain ⟨names, hproper, rfl⟩ := h
  rw [ofNames_true, segments_separator]
  intro segment hsegment
  rcases List.mem_cons.mp hsegment with rfl | hrest
  · simp
  · cases names with
    | nil =>
      obtain rfl := List.mem_singleton.mp hrest
      simp
    | cons name rest =>
      rw [segments_joinSegments (List.cons_ne_nil _ _) fun text htext => (hproper text htext).whole]
        at hrest
      have hname := hproper segment hrest
      refine ⟨?_, hname.stays⟩
      intro hdot
      have hcounts := hname.counts
      rw [hdot] at hcounts
      cases hcounts

end FilePath

namespace Config

/-- The invariant of configurations. -/
structure Coherent (fs : FileSystem) (config : Config) : Prop where
  /-- A configuration is about one file, or about packages that are all different. -/
  subject :
    (∃ path, config.path = some path ∧ config.fromPackage = false ∧ config.manifests = [] ∧
        config.entryPoints.paths = [path]) ∨
      (config.path = none ∧ config.fromPackage = true ∧ config.manifests ≠ [] ∧
        config.manifests.Pairwise fun manifest later => manifest.same later = false)
  someEntry : config.entryPoints.paths ≠ []
  /-- Entry points are plain, and patterns or existing files of the right kind. -/
  entryPoints : ∀ path ∈ config.entryPoints.paths, path.Plain ∧
    ('*' ∈ path.chars ∨ fs.isFile path = true ∧ Entry.isAllowed path = true)
  entryPointsDeclared : config.entryPointsDeclared = true ↔
    ∀ path ∈ config.entryPoints.paths, Entry.isDeclaration path = true
  hasCompilerOptions : config.hasCompilerOptions = true ↔ config.compilerOptions ≠ []
  /-- A check of the compiler options finds nothing to change. -/
  compilerOptions :
    (CompilerOptions.check config.compilerOptions).value = .ok config.compilerOptions
  distinctOptions : (Keyed.keys config.compilerOptions).Nodup
  unsetSorted : config.unsetCompilerOptions.Pairwise (· < ·)
  unsetOut : ∀ name ∈ config.unsetCompilerOptions, name ∉ Keyed.keys config.compilerOptions
  linkPlugins : config.linkPlugins.Nodup
  exclusive : ¬ (.dom ∈ config.linkPlugins ∧ .worker ∈ config.linkPlugins)
  moduleNames : (Keyed.keys config.moduleNames.entries).Nodup
  /-- No generator option is one that is derived. -/
  typedocOptions : ∀ key ∈ ["entryPoints", "out", "tsconfig", "plugin", "compilerOptions"],
    key ∉ Keyed.keys config.typedocOptions
  distinctTypedoc : (Keyed.keys config.typedocOptions).Nodup
  condition : Text.isBlank config.condition = false
  output : config.output.Plain
  /-- The configuration files are plain and exist. -/
  files : ∀ path, config.tsconfig = some path ∨ config.typedocJson = some path →
    path.Plain ∧ fs.isFile path = true

/-! ## One package or file -/

/-- A configuration file that was asked for is plain and exists. -/
theorem plain_of_requireFile {site : Site} {field : String} {asked found : Option FilePath}
    (habsolute : site.directory.isAbsolute = true)
    (h : site.requireFile field asked = .ok found) {path : FilePath} (hpath : found = some path) :
    path.Plain ∧ site.files.isFile path = true := by
  obtain ⟨hfile, hfound⟩ := Site.requireFile_eq_ok_iff.mp h
  refine ⟨?_, hfile path (hfound.trans hpath)⟩
  obtain ⟨file, -, rfl⟩ := Option.map_eq_some_iff.mp (hfound.trans hpath)
  exact (FilePath.Normal.of_absolutize habsolute file).plain

/-- The configuration of a request is coherent. -/
theorem coherent_of_validate {site : Site} {request : Request} {config : Config}
    (habsolute : site.directory.isAbsolute = true)
    (h : (validate site request).outcome = .ok config) : Coherent site.files config := by
  obtain ⟨settings, subject, hsettings, hsubject, rfl⟩ := validate_eq_ok_iff.mp h
  have hmeets := Settings.ofRequest_eq_ok_iff.mp hsettings
  have hdistinct := ModuleNames.distinct_ofList hmeets.moduleNames
  have hsound := Subject.sound_of_ofRequest habsolute hdistinct hsubject
  obtain ⟨gathered, hgathered, htypedoc, hoptions⟩ := hmeets.options
  have hsettled := Options.settled_of_gather hgathered
  obtain ⟨hnodup, hchecked, hsorted, hout⟩ :=
    Options.checked_of_check gathered.nodup_keys_merged hoptions
  exact {
    subject := by
      rcases hsound.origin with ⟨path, hpath, hmanifests, hentries⟩ | ⟨hpath, manifest, hmanifests⟩
      · exact Or.inl ⟨path, hpath, congrArg Option.isNone hpath, hmanifests, hentries⟩
      · refine Or.inr ⟨hpath, congrArg Option.isNone hpath, ?_, ?_⟩
        · rw [ofParts, hmanifests]
          exact List.cons_ne_nil _ _
        · rw [ofParts, hmanifests]
          exact List.pairwise_singleton _ _
    someEntry := hsound.someEntry
    entryPoints := by
      intro path hpath
      obtain ⟨hnormal, hadmissible⟩ := hsound.entryPoints path hpath
      exact ⟨hnormal.plain, hadmissible.imp_left List.contains_iff_mem.mp⟩
    entryPointsDeclared := hsound.isDeclared_iff
    hasCompilerOptions := by simp [ofParts]
    compilerOptions := hchecked
    distinctOptions := hnodup
    unsetSorted := hsorted
    unsetOut := hout
    linkPlugins := hmeets.nodup_linkPlugins
    exclusive := LinkPlugin.checkExclusive_eq_ok_iff.mp
      (LinkPlugin.resolve_eq_ok_iff.mp hmeets.linkPlugins).2
    moduleNames := hsound.moduleNames
    typedocOptions := by
      intro key hkey hmem
      have hderived : ∀ key ∈ ["entryPoints", "out", "tsconfig", "plugin", "compilerOptions"],
          Options.isPassed key = false := by decide
      have hpassed := hsettled.isPassed key (htypedoc ▸ hmem)
      rw [hderived key hkey] at hpassed
      cases hpassed
    distinctTypedoc := by
      rw [ofParts, htypedoc]
      exact hsettled.nodup
    condition := hmeets.isBlank_condition
    output := (hmeets.normal_output habsolute).plain
    files := by
      rintro path (htsconfig | htypedocJson)
      · exact plain_of_requireFile habsolute hmeets.tsconfig htsconfig
      · exact plain_of_requireFile habsolute hmeets.typedocJson htypedocJson }

end Config

end DocPlan
