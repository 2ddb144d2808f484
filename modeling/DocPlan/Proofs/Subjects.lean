import DocPlan.Config.Validate
import DocPlan.Proofs.EntryPoints
import DocPlan.Proofs.PluginsAndNames
import DocPlan.Proofs.Walks

/-!
# Finding the subject of a request

A request leads to a file or to a manifest (`Source`), and a manifest to a package.
A manifest has the name of a manifest and is a file; whether its path is straight or
normal depends only on the directory of the run.

The package of a manifest is the same package when the manifest is read at another
spelling of its path (`Subject.ofManifest_normalize`). Its display name may already be
in the settings, and the module may already be named: neither changes anything.
-/

namespace DocPlan

/-! ## Reading a manifest elsewhere -/

namespace Manifest

theorem value_textField (path : FilePath) (field : String) (value : Option Json) :
    (textField path field value).value = value.bind Json.string? := by
  unfold textField
  cases value with
  | none => rfl
  | some value => cases value <;> rfl

theorem readMembers_eq_ok_iff {path : FilePath} {source : String}
    {members : List (Json.Key × Json.Document)} :
    readMembers path source = .ok members ↔
      Json.Document.read source = .ok (.object members) ∧
        repeatedField? [] (members.map (·.1)) = none := by
  unfold readMembers
  constructor
  · intro h
    split at h
    next => cases h
    next found hfound =>
      split at h
      next hnone =>
        obtain rfl := Except.ok.inj h
        exact ⟨hfound, hnone⟩
      next => cases h
    next => cases h
  · rintro ⟨hread, hnone⟩
    simp only [hread, hnone]

/-- The manifest of some members, at a path. -/
def ofMembers (path : FilePath) (members : List (Json.Key × Json.Document)) : Manifest :=
  { directory := path.parent?.getD (FilePath.ofString ".")
    path := path
    name := (fieldValue? members "name").bind Json.string?
    exports := exportsOf? members
    types := (fieldValue? members "types").bind Json.string?
    typings := (fieldValue? members "typings").bind Json.string?
    raw := Keyed.collapse (Json.membersToJson members) }

theorem parse_eq_ok_iff {path : FilePath} {source : String} {manifest : Manifest} :
    (parse path source).outcome = .ok manifest ↔
      ∃ members, readMembers path source = .ok members ∧ ofMembers path members = manifest := by
  unfold parse
  simp only [Report.outcome_bind, Error.bind_eq_ok_iff, Report.outcome_noted,
    Report.outcome_except, Report.outcome_pure, Except.ok.injEq, value_textField]
  constructor
  · rintro ⟨members, hmembers, _, rfl, _, rfl, _, rfl, rfl⟩
    exact ⟨members, hmembers, rfl⟩
  · rintro ⟨members, hmembers, rfl⟩
    exact ⟨members, hmembers, _, rfl, _, rfl, _, rfl, rfl⟩

theorem load_eq_ok_iff {fs : FileSystem} {path : FilePath} {manifest : Manifest} :
    (load fs path).outcome = .ok manifest ↔
      fs.isFile path = true ∧ ∃ source members, fs.readText path = .ok source ∧
        readMembers path source = .ok members ∧ ofMembers path members = manifest := by
  unfold load
  split
  next hfile =>
    rw [and_iff_right hfile]
    simp only [Report.outcome_bind, Error.bind_eq_ok_iff, Report.outcome_noted,
      Report.outcome_except, Report.outcome_pure, parse_eq_ok_iff]
    constructor
    · rintro ⟨source, hsource, _, ⟨members, hmembers, rfl⟩, _, -, hmanifest⟩
      refine ⟨source, members, ?_, hmembers, Except.ok.inj hmanifest⟩
      cases hread : fs.readText path with
      | error cause =>
        rw [hread] at hsource
        cases hsource
      | ok text =>
        rw [hread] at hsource
        exact congrArg Except.ok (Except.ok.inj hsource)
    · rintro ⟨source, members, hsource, hmembers, rfl⟩
      exact ⟨source, by rw [hsource]; rfl, _, ⟨members, hmembers, rfl⟩, (), trivial, rfl⟩
  next hfile => simp [hfile]

/-- A manifest that is read at another path has that path and its directory. -/
def relocate (manifest : Manifest) (path : FilePath) : Manifest :=
  { manifest with directory := path.parent?.getD (FilePath.ofString "."), path := path }

/-- The same text read at another path gives the same manifest, relocated. -/
theorem load_relocate {fs : FileSystem} {path other : FilePath} {manifest : Manifest}
    (hfile : fs.isFile other = true) (htext : fs.readText other = fs.readText path)
    (h : (load fs path).outcome = .ok manifest) :
    (load fs other).outcome = .ok (manifest.relocate other) := by
  obtain ⟨-, source, members, hsource, hmembers, rfl⟩ := load_eq_ok_iff.mp h
  refine load_eq_ok_iff.mpr ⟨hfile, source, members, htext.trans hsource, ?_, rfl⟩
  exact readMembers_eq_ok_iff.mpr (readMembers_eq_ok_iff.mp hmembers)

theorem path_of_load {fs : FileSystem} {path : FilePath} {manifest : Manifest}
    (h : (load fs path).outcome = .ok manifest) :
    manifest.path = path ∧ manifest.directory = path.parent?.getD (FilePath.ofString ".") := by
  obtain ⟨-, source, members, -, -, rfl⟩ := load_eq_ok_iff.mp h
  exact ⟨rfl, rfl⟩

end Manifest

/-! ## Sources -/

theorem FileSystem.isDirectory_of_isFile {fs : FileSystem} {path : FilePath}
    (h : fs.isFile path = true) : fs.isDirectory path = false := by
  unfold isFile at h
  unfold isDirectory
  cases hnode : fs.node? path with
  | none => rfl
  | some node => cases node <;> simp_all [Node.isFile, Node.isDirectory]

namespace Source

/-- A file with the name of a manifest is a manifest. -/
theorem atPath_manifest {fs : FileSystem} {path : FilePath} (hfile : fs.isFile path = true)
    (hname : path.fileName? = some manifestName.bytes) :
    atPath fs path = .ok (.manifest path) := by
  unfold atPath
  simp [FileSystem.isDirectory_of_isFile hfile, hfile, hname]

theorem atPath_file {fs : FileSystem} {path : FilePath} (hfile : fs.isFile path = true)
    (hname : path.fileName? ≠ some manifestName.bytes) (hallowed : Entry.isAllowed path = true) :
    atPath fs path = .ok (.file path) := by
  unfold atPath
  simp [FileSystem.isDirectory_of_isFile hfile, hfile, hname, hallowed]

/-- What is at a path: a file that may be an entry point, the manifest of a directory, or
a manifest. -/
theorem of_atPath {fs : FileSystem} {path : FilePath} {source : Source}
    (h : atPath fs path = .ok source) :
    (source = .file path ∧ fs.isFile path = true ∧
        path.fileName? ≠ some manifestName.bytes ∧ Entry.isAllowed path = true) ∨
      (source = .manifest (path.join manifestName) ∧
        fs.isFile (path.join manifestName) = true) ∨
      (source = .manifest path ∧ fs.isFile path = true ∧
        path.fileName? = some manifestName.bytes) := by
  unfold atPath at h
  split at h
  next =>
    simp only at h
    split at h
    next hfile => exact Or.inr (Or.inl ⟨(Except.ok.inj h).symm, hfile⟩)
    next => cases h
  next =>
    split at h
    next => cases h
    next hmissing =>
      have hfile : fs.isFile path = true := by simpa using hmissing
      split at h
      next hname => exact Or.inr (Or.inr ⟨(Except.ok.inj h).symm, hfile, hname⟩)
      next hname =>
        split at h
        next hallowed => exact Or.inl ⟨(Except.ok.inj h).symm, hfile, hname, hallowed⟩
        next => cases h

/-- The manifest at a path is the one in the directory there, or else the path itself. -/
theorem manifest_of_atPath {fs : FileSystem} {path manifest : FilePath}
    (h : atPath fs path = .ok (.manifest manifest)) :
    manifest = if fs.isDirectory path then path.join manifestName else path := by
  unfold atPath at h
  split at h
  next hdirectory =>
    rw [if_pos hdirectory]
    simp only at h
    split at h
    next => exact (Source.manifest.inj (Except.ok.inj h)).symm
    next => cases h
  next hdirectory =>
    rw [if_neg hdirectory]
    split at h
    next => cases h
    next =>
      split at h
      next => exact (Source.manifest.inj (Except.ok.inj h)).symm
      next => split at h <;> cases h

/-- The file of a request is the path that it names. -/
theorem file_of_ofRequest {site : Site} {request : Request} {path : FilePath}
    (h : ofRequest site request = .ok (.file path)) :
    (∃ asked, request.path = some asked ∧ path = site.absolute asked) ∧
      site.files.isFile path = true ∧ path.fileName? ≠ some manifestName.bytes ∧
      Entry.isAllowed path = true := by
  unfold ofRequest at h
  split at h
  next asked hasked =>
    rcases of_atPath h with ⟨heq, hfacts⟩ | ⟨heq, -⟩ | ⟨heq, -⟩
    · obtain rfl := Source.file.inj heq
      exact ⟨⟨asked, hasked, rfl⟩, hfacts⟩
    · cases heq
    · cases heq
  next => split at h <;> cases h

/-- The manifest of a request belongs to a directory above that of the run, to the
directory that the request names, or is what the request names. -/
theorem manifest_of_ofRequest {site : Site} {request : Request} {path : FilePath}
    (h : ofRequest site request = .ok (.manifest path)) :
    site.files.isFile path = true ∧
      ((∃ directory ∈ site.directory.ancestors, path = directory.join manifestName) ∨
        (∃ asked, path = (site.absolute asked).join manifestName) ∨
        ∃ asked, path = site.absolute asked ∧ path.fileName? = some manifestName.bytes) := by
  unfold ofRequest at h
  split at h
  next asked hasked =>
    rcases of_atPath h with ⟨heq, -⟩ | ⟨heq, hfile⟩ | ⟨heq, hfile, hname⟩
    · cases heq
    · obtain rfl := Source.manifest.inj heq
      exact ⟨hfile, Or.inr (Or.inl ⟨asked, rfl⟩)⟩
    · obtain rfl := Source.manifest.inj heq
      exact ⟨hfile, Or.inr (Or.inr ⟨asked, rfl, hname⟩)⟩
  next =>
    split at h
    next found hfound =>
      obtain rfl := Source.manifest.inj (Except.ok.inj h)
      obtain ⟨hfile, hdirectory⟩ := Manifest.of_find? hfound
      exact ⟨hfile, Or.inl hdirectory⟩
    next => cases h

section

open FilePath

variable {site : Site} {request : Request} {path : FilePath}

/-- The manifest of a request is an absolute path with the name of a manifest. -/
theorem named_manifest (habsolute : site.directory.isAbsolute = true)
    (h : ofRequest site request = .ok (.manifest path)) :
    path.isAbsolute = true ∧ path.fileName? = some manifestName.bytes := by
  have hjoin : ∀ directory : FilePath, directory.isAbsolute = true →
      (directory.join manifestName).isAbsolute = true ∧
        (directory.join manifestName).fileName? = some manifestName.bytes :=
    fun directory hdirectory => ⟨isAbsolute_join hdirectory _,
      fileName?_eq_some_iff.mpr ⟨_, components_join_manifest directory⟩⟩
  rcases (manifest_of_ofRequest h).2 with ⟨directory, hmem, rfl⟩ | ⟨asked, rfl⟩ |
    ⟨asked, rfl, hname⟩
  · exact hjoin directory
      (forall_mem_ancestors (fun _ _ hpath hparent => (isAbsolute_parent? hparent).trans hpath)
        habsolute directory hmem)
  · exact hjoin _ (Normal.of_absolutize habsolute asked).isAbsolute
  · exact ⟨(Normal.of_absolutize habsolute asked).isAbsolute, hname⟩

/-- What holds of the directory of the run and of normal paths, and passes to parents and
to the manifests of directories, holds of the manifest of a request. -/
theorem manifest_induct {P : FilePath → Prop}
    (hparent : ∀ path parent, P path → path.parent? = some parent → P parent)
    (hjoin : ∀ directory, P directory → P (directory.join manifestName))
    (hnormal : ∀ path, Normal path → P path) (habsolute : site.directory.isAbsolute = true)
    (hdirectory : P site.directory) (h : ofRequest site request = .ok (.manifest path)) :
    P path := by
  have hplace : ∀ asked, P (site.absolute asked) :=
    fun asked => hnormal _ (.of_absolutize habsolute asked)
  rcases (manifest_of_ofRequest h).2 with ⟨directory, hmem, rfl⟩ | ⟨asked, rfl⟩ | ⟨asked, rfl, -⟩
  · exact hjoin directory (forall_mem_ancestors hparent hdirectory directory hmem)
  · exact hjoin _ (hplace asked)
  · exact hplace asked

/-- A run in a straight directory finds straight manifests. -/
theorem straight_manifest (hstraight : site.directory.Straight)
    (h : ofRequest site request = .ok (.manifest path)) : path.Straight :=
  manifest_induct (fun _ _ hpath => hpath.of_parent?) (fun _ hpath => hpath.join_manifest)
    (fun _ hpath => hpath.straight) hstraight.isAbsolute hstraight h

/-- A run in a normal directory finds normal manifests. -/
theorem normal_manifest (hnormal : site.directory.Normal)
    (h : ofRequest site request = .ok (.manifest path)) : path.Normal :=
  manifest_induct (fun _ _ hpath => hpath.of_parent?) (fun _ hpath => hpath.join_manifest)
    (fun _ hpath => hpath) hnormal.isAbsolute hnormal h

end

end Source

/-! ## Subjects -/

namespace Subject

variable {fs : FileSystem} {settings : Settings} {subject : Subject}

/-- Without a name of its own a request adds no display name. -/
theorem namesWithPackage_of_name_eq_none (h : settings.name = none) (manifest : Manifest) :
    namesWithPackage settings manifest = .ok settings.moduleNames := by
  unfold namesWithPackage
  rw [h]
  cases manifest.name <;> rfl

theorem distinct_namesWithPackage {manifest : Manifest} {names : ModuleNames}
    (hdistinct : settings.moduleNames.Distinct)
    (h : namesWithPackage settings manifest = .ok names) : names.Distinct := by
  unfold namesWithPackage at h
  split at h
  next =>
    split at h
    next => exact Except.ok.inj h ▸ hdistinct
    next => exact (ModuleNames.insert_of_eq_ok hdistinct h).1
  next => exact Except.ok.inj h ▸ hdistinct

/-- Display names that hold a package's own already are left as they are. -/
theorem namesWithPackage_again {manifest other : Manifest} {names : ModuleNames}
    (hdistinct : settings.moduleNames.Distinct) (hname : other.name = manifest.name)
    (h : namesWithPackage settings manifest = .ok names) :
    namesWithPackage { settings with
      name := settings.name.or manifest.name, moduleNames := names } other = .ok names := by
  unfold namesWithPackage at h ⊢
  rw [hname]
  cases hpackage : manifest.name with
  | none => rfl
  | some package =>
    rw [hpackage] at h
    cases hdisplay : settings.name with
    | none => exact if_pos rfl
    | some display =>
      rw [hdisplay] at h
      show (if package = display then .ok names else names.insert package display) = .ok names
      by_cases hsame : package = display
      · exact if_pos hsame
      · rw [if_neg hsame]
        have hinsert : settings.moduleNames.insert package display = .ok names := by
          simpa [hsame] using h
        exact ModuleNames.insert_of_get? (ModuleNames.insert_of_eq_ok hdistinct hinsert).2

theorem ofManifest_eq_ok_iff {path : FilePath} :
    (ofManifest fs settings path).outcome = .ok subject ↔
      ∃ manifest set names, (Manifest.load fs path).outcome = .ok manifest ∧
        (Entry.collect fs manifest (Exports.resolve manifest.exports manifest.directory
          (Conditions.single settings.condition)).value
          ⟨settings.condition, settings.policy⟩).outcome = .ok set ∧
        namesWithPackage settings manifest = .ok names ∧
        subject = ⟨none, settings.name.or manifest.name, set, [manifest.path], names⟩ := by
  unfold ofManifest
  simp only [Report.outcome_bind, Error.bind_eq_ok_iff, Report.outcome_noted,
    Report.outcome_except, Report.outcome_pure, Except.ok.injEq]
  constructor
  · rintro ⟨manifest, hload, _, rfl, set, hset, names, hnames, rfl⟩
    exact ⟨manifest, set, names, hload, hset, hnames, rfl⟩
  · rintro ⟨manifest, set, names, hload, hset, hnames, rfl⟩
    exact ⟨manifest, hload, _, rfl, set, hset, names, hnames, rfl⟩

/-- The subject of a request is a file or the package of a manifest. -/
theorem ofRequest_eq_ok_iff {site : Site} {request : Request} :
    (ofRequest site settings request).outcome = .ok subject ↔
      (∃ path, Source.ofRequest site request = .ok (.file path) ∧
        ofFile settings path = subject) ∨
      ∃ path, Source.ofRequest site request = .ok (.manifest path) ∧
        (ofManifest site.files settings path).outcome = .ok subject := by
  unfold ofRequest
  rw [Report.outcome_bind, Report.outcome_except, Error.bind_eq_ok_iff]
  constructor
  · rintro ⟨source, hsource, hsubject⟩
    cases source with
    | file path => exact Or.inl ⟨path, hsource, Except.ok.inj hsubject⟩
    | manifest path => exact Or.inr ⟨path, hsource, hsubject⟩
  · rintro (⟨path, hsource, rfl⟩ | ⟨path, hsource, hsubject⟩)
    · exact ⟨_, hsource, rfl⟩
    · exact ⟨_, hsource, hsubject⟩

/-- A manifest has a directory, and another spelling of its path has the same one. -/
theorem same_directory {path : FilePath} (hstraight : path.Straight)
    (hname : path.fileName? = some manifestName.bytes) :
    ∃ directory other : FilePath, path.parent? = some directory ∧
      path.normalize.parent? = some other ∧ directory.isAbsolute = true ∧
      directory.same other = true := by
  have hsame : path.normalize.components = path.components :=
    FilePath.same_iff.mp hstraight.normalize_same
  obtain ⟨front, hfront⟩ := FilePath.fileName?_eq_some_iff.mp hname
  obtain ⟨directory, hdirectory⟩ := FilePath.exists_parent? hfront
  obtain ⟨other, hother⟩ := FilePath.exists_parent? (hsame.trans hfront)
  refine ⟨directory, other, hdirectory, hother,
    (FilePath.isAbsolute_parent? hdirectory).trans hstraight.isAbsolute,
    FilePath.same_iff.mpr ?_⟩
  rw [FilePath.components_parent? hdirectory, FilePath.components_parent? hother, hsame]

/-- The package of a manifest is found again at the normal path of the manifest, when the
settings hold the name and the display names that it came to. -/
theorem ofManifest_normalize {path : FilePath} (hstraight : path.Straight)
    (hname : path.fileName? = some manifestName.bytes)
    (hdistinct : settings.moduleNames.Distinct)
    (h : (ofManifest fs settings path).outcome = .ok subject) :
    (ofManifest fs { settings with name := subject.name, moduleNames := subject.moduleNames }
      path.normalize).outcome = .ok { subject with manifests := [path.normalize] } := by
  obtain ⟨manifest, set, names, hload, hset, hnames, rfl⟩ := ofManifest_eq_ok_iff.mp h
  obtain ⟨hfile, htext⟩ :=
    FileSystem.isFile_normalize hstraight (Manifest.load_eq_ok_iff.mp hload).1
  obtain ⟨directory, other, hdirectory, hother, habsolute, hsame⟩ :=
    same_directory hstraight hname
  have hplaces : ∀ place : FilePath, manifest.directory.absolutize place =
      (manifest.relocate path.normalize).directory.absolutize place := by
    intro place
    rw [(Manifest.path_of_load hload).2, hdirectory, Manifest.relocate, hother]
    exact FilePath.absolutize_congr habsolute hsame place
  refine ofManifest_eq_ok_iff.mpr ⟨manifest.relocate path.normalize, set, names,
    Manifest.load_relocate hfile htext hload, ?_, namesWithPackage_again hdistinct rfl hnames, ?_⟩
  · have hexports := Exports.resolve_congr hplaces manifest.exports
      (Conditions.single settings.condition)
    show (Entry.collect fs (manifest.relocate path.normalize)
      (Exports.resolve manifest.exports (manifest.relocate path.normalize).directory
        (Conditions.single settings.condition)).value
      ⟨settings.condition, settings.policy⟩).outcome = .ok set
    rw [← hexports]
    have htypes : Entry.typesField? manifest =
        Entry.typesField? (manifest.relocate path.normalize) := rfl
    exact Entry.collect_congr htypes hplaces hset
  · show (_ : Subject) = ⟨none, (settings.name.or manifest.name).or manifest.name, set,
      [path.normalize], names⟩
    rw [Option.or_assoc, Option.or_self]

/-- A package has an entry point, and what holds of every place seen from the directory of
its manifest holds of all of them. -/
theorem forall_entryPoints {P : FilePath → Prop} {path : FilePath}
    (hplaces : ∀ place, P ((path.parent?.getD (FilePath.ofString ".")).absolutize place))
    (h : (ofManifest fs settings path).outcome = .ok subject) :
    subject.entryPoints.paths ≠ [] ∧
      ∀ entry ∈ subject.entryPoints.paths, P entry ∧ Entry.Admissible fs entry := by
  obtain ⟨manifest, set, names, hload, hset, -, rfl⟩ := ofManifest_eq_ok_iff.mp h
  rw [← (Manifest.path_of_load hload).2] at hplaces
  exact Entry.collect_spec hplaces (Exports.forall_resolve hplaces manifest.exports _) hset

/-- No module is named twice in the subject of a request. -/
theorem distinct_of_ofRequest {site : Site} {request : Request}
    (hdistinct : settings.moduleNames.Distinct)
    (h : (ofRequest site settings request).outcome = .ok subject) :
    subject.moduleNames.Distinct := by
  rcases ofRequest_eq_ok_iff.mp h with ⟨path, -, rfl⟩ | ⟨path, -, hpackage⟩
  · exact hdistinct
  · obtain ⟨manifest, set, names, -, -, hnames, rfl⟩ := ofManifest_eq_ok_iff.mp hpackage
    exact distinct_namesWithPackage hdistinct hnames

/-- What is known of a subject. -/
structure Sound (fs : FileSystem) (subject : Subject) : Prop where
  origin :
    (∃ path, subject.path = some path ∧ subject.manifests = [] ∧
        subject.entryPoints.paths = [path]) ∨
      (subject.path = none ∧ ∃ manifest, subject.manifests = [manifest])
  someEntry : subject.entryPoints.paths ≠ []
  entryPoints : ∀ path ∈ subject.entryPoints.paths, path.Normal ∧ Entry.Admissible fs path
  moduleNames : subject.moduleNames.Distinct

/-- The subject of a request in an absolute directory. -/
theorem sound_of_ofRequest {site : Site} {request : Request}
    (habsolute : site.directory.isAbsolute = true)
    (hdistinct : settings.moduleNames.Distinct)
    (h : (ofRequest site settings request).outcome = .ok subject) :
    Sound site.files subject := by
  have hnames := distinct_of_ofRequest hdistinct h
  rcases ofRequest_eq_ok_iff.mp h with ⟨path, hsource, rfl⟩ | ⟨path, hsource, hpackage⟩
  · obtain ⟨⟨asked, -, rfl⟩, hfile, -, hallowed⟩ := Source.file_of_ofRequest hsource
    refine ⟨Or.inl ⟨_, rfl, rfl, rfl⟩, List.cons_ne_nil _ _, ?_, hnames⟩
    intro path hpath
    obtain rfl := List.mem_singleton.mp hpath
    exact ⟨.of_absolutize habsolute asked, Or.inr ⟨hfile, hallowed⟩⟩
  · obtain ⟨hmanifest, hname⟩ := Source.named_manifest habsolute hsource
    obtain ⟨front, hfront⟩ := FilePath.fileName?_eq_some_iff.mp hname
    obtain ⟨directory, hdirectory⟩ := FilePath.exists_parent? hfront
    have hplace : (path.parent?.getD (FilePath.ofString ".")).isAbsolute = true := by
      rw [hdirectory]
      exact (FilePath.isAbsolute_parent? hdirectory).trans hmanifest
    obtain ⟨hsome, hall⟩ :=
      forall_entryPoints (fun place => FilePath.Normal.of_absolutize hplace place) hpackage
    obtain ⟨manifest, set, names, -, -, -, rfl⟩ := ofManifest_eq_ok_iff.mp hpackage
    exact ⟨Or.inr ⟨rfl, _, rfl⟩, hsome, hall, hnames⟩

theorem Sound.isDeclared_iff (h : Sound fs subject) :
    subject.isDeclared = true ↔
      ∀ path ∈ subject.entryPoints.paths, Entry.isDeclaration path = true := by
  unfold isDeclared
  rcases h.origin with ⟨path, hpath, -, hentries⟩ | ⟨hpath, -⟩
  · rw [hpath, hentries]
    simp
  · rw [hpath]
    have hsome : subject.entryPoints.isEmpty = false := by
      rw [EntrySet.isEmpty, List.isEmpty_eq_false_iff]
      exact h.someEntry
    simp [EntrySet.allDeclarations, hsome]

end Subject

/-! ## Configurations -/

namespace Config

/-- A configuration is made of the settings and the subject of a request. -/
theorem validateWith_eq_ok_iff {checker : CompilerOptions.Checker} {site : Site}
    {request : Request} {config : Config} :
    (validateWith checker site request).outcome = .ok config ↔
      ∃ settings subject,
        (Settings.ofRequest site checker request).outcome = .ok settings ∧
        (Subject.ofRequest site settings request).outcome = .ok subject ∧
        ofParts settings subject = config := by
  unfold validateWith
  simp only [Report.outcome_bind, Error.bind_eq_ok_iff, Report.outcome_pure, Except.ok.injEq]
  constructor
  · rintro ⟨settings, hsettings, subject, hsubject, hconfig⟩
    exact ⟨settings, subject, hsettings, hsubject, hconfig⟩
  · rintro ⟨settings, subject, hsettings, hsubject, hconfig⟩
    exact ⟨settings, hsettings, subject, hsubject, hconfig⟩

theorem validate_eq_ok_iff {site : Site} {request : Request} {config : Config} :
    (validate site request).outcome = .ok config ↔
      ∃ settings subject,
        (Settings.ofRequest site CompilerOptions.check request).outcome = .ok settings ∧
        (Subject.ofRequest site settings request).outcome = .ok subject ∧
        ofParts settings subject = config :=
  validateWith_eq_ok_iff

end Config

end DocPlan
