import DocPlan.Proofs.Settings
import DocPlan.Proofs.Subjects

/-!
# Asking for a configuration again

A configuration writes itself down as a request (`Config.toRequest`). Here it is shown
what the request gives: with the same files and seen from the same directory, the request of a
valid configuration is valid, and its configuration agrees with the one it was made of in
everything but the output directory, which it has as that one is shown
(`Config.validate_toRequest`). So the configuration is given back exactly when its output
directory is a text, and below a directory whose name is none it is not
(`Config.validate_toRequest_moves_output`).

The options of the files are put down once more below what was made of them, the name of
the package may have become part of the display names, and the manifest may have been
found without being asked for. Only the last leaves a trace, and only in the spelling of
the manifest: a path that is asked for is made normal, one that is found keeps the
spelling of the directory of the run.
-/

namespace DocPlan.Config

/-- The subject of the request of a configuration is the subject of the configuration,
its manifest written as a normal path. -/
theorem ofRequest_toRequest {site : Site} {request : Request} {settings : Settings}
    {subject : Subject} (hstraight : site.directory.Straight)
    (hdistinct : settings.moduleNames.Distinct)
    (h : (Subject.ofRequest site settings request).outcome = .ok subject) :
    ∃ manifests, samePaths manifests subject.manifests = true ∧
      (site.directory.Normal → manifests = subject.manifests) ∧
      (Subject.ofRequest site
        { settings with
          output := settings.output.shown
          name := subject.name
          moduleNames := subject.moduleNames }
        (ofParts settings subject).toRequest).outcome =
          .ok { subject with manifests := manifests } := by
  rcases Subject.ofRequest_eq_ok_iff.mp h with ⟨path, hsource, rfl⟩ | ⟨path, hsource, hpackage⟩
  · obtain ⟨⟨asked, -, rfl⟩, hfile, hname, hallowed⟩ := Source.file_of_ofRequest hsource
    refine ⟨[], rfl, fun _ => rfl, ?_⟩
    refine Subject.ofRequest_eq_ok_iff.mpr (Or.inl ⟨site.absolute asked, ?_, rfl⟩)
    have hnormal : (site.absolute asked).Normal :=
      .of_absolutize hstraight.isAbsolute asked
    show Source.atPath site.files (site.absolute (site.absolute asked)) = _
    rw [Site.absolute, hnormal.absolutize_eq site.directory]
    exact Source.atPath_file hfile hname hallowed
  · have hmanifest := Source.straight_manifest hstraight hsource
    obtain ⟨habsolute, hname⟩ := Source.named_manifest hstraight.isAbsolute hsource
    have hfile := (Source.manifest_of_ofRequest hsource).1
    have hnormalize := Subject.ofManifest_normalize hmanifest hname hdistinct hpackage
    obtain ⟨manifest, set, names, hload, -, -, rfl⟩ := Subject.ofManifest_eq_ok_iff.mp hpackage
    have hpath : manifest.path = path := (Manifest.path_of_load hload).1
    have hsame : path.normalize.components = path.components :=
      FilePath.same_iff.mp hmanifest.normalize_same
    refine ⟨[path.normalize], ?_, ?_, ?_⟩
    · rw [hpath]
      exact decide_eq_true (congrArg (fun components => [components]) hsame)
    · intro hnormal
      rw [(Source.normal_manifest hnormal hsource).normalize_eq, hpath]
    · refine Subject.ofRequest_eq_ok_iff.mpr (Or.inr ⟨path.normalize, ?_, hnormalize⟩)
      show Source.atPath site.files (site.absolute manifest.path) = _
      rw [hpath, Site.absolute, FilePath.absolutize_of_isAbsolute _ habsolute]
      apply Source.atPath_manifest (FileSystem.isFile_normalize hmanifest hfile).1
      rw [FilePath.fileName?, hsame]
      exact hname

/-- A valid configuration, asked for again, is given again, with its output directory as it is
shown. Its manifest is written as a normal path, which is how it was written if the directory of
the run is; then the two configurations are equal if and only if the output directory is a text. -/
theorem validate_toRequest (site : Site) (request : Request) (config : Config)
    (habsolute : site.directory.isAbsolute = true)
    (hnormal : site.directory.normalize.same site.directory = true)
    (hvalid : (validate site request).outcome = .ok config)
    (hname : ∀ name, config.name = some name → Text.isBlank name = false) :
    ∃ again, (validate site config.toRequest).outcome = .ok again ∧
      again = { config with output := config.output.shown, manifests := again.manifests } ∧
      samePaths again.manifests config.manifests = true ∧
      (site.directory.normalize = site.directory →
        again = { config with output := config.output.shown } ∧
          (again = config ↔ config.output.isText = true)) := by
  obtain ⟨settings, subject, hsettings, hsubject, rfl⟩ := validate_eq_ok_iff.mp hvalid
  have hdistinct : settings.moduleNames.Distinct :=
    ModuleNames.distinct_ofList (Settings.ofRequest_eq_ok_iff.mp hsettings).moduleNames
  have hsettings' := Settings.ofRequest_toRequest habsolute hsettings hname
    (Subject.distinct_of_ofRequest hdistinct hsubject)
  obtain ⟨manifests, hsame, hspelling, hsubject'⟩ :=
    ofRequest_toRequest (.of_same habsolute hnormal) hdistinct hsubject
  refine ⟨_, validate_eq_ok_iff.mpr ⟨_, _, hsettings', hsubject', rfl⟩, rfl, hsame, ?_⟩
  intro htext
  have hdirectory : site.directory.Normal := htext ▸ .of_normalize habsolute
  rw [hspelling hdirectory]
  refine ⟨rfl, ?_⟩
  rw [← FilePath.shown_eq_iff]
  constructor
  · intro hagain
    exact congrArg Config.output hagain
  · intro houtput
    have hshown : settings.output.shown = settings.output := houtput
    show ofParts { settings with output := settings.output.shown } subject =
      ofParts settings subject
    rw [hshown]

/-- A package with a compiler configuration file, and a run in its directory. -/
def exampleSite : Site where
  files := {
    root := .directory [("a".toList, .directory [
      ("package.json".toList, .file (Utf8.encode
        "\x7b\"name\":\"a\",\"types\":\"./a.d.ts\"\x7d".toList)),
      ("a.d.ts".toList, .file []),
      ("tsconfig.json".toList, .file (Utf8.encode
        "\x7b\"compilerOptions\":\x7b\"strict\":true\x7d\x7d".toList))])]
    workingDirectory := [] }
  directory := FilePath.ofString "/a"

/-- A request that renames the package and unsets an option of the file. -/
def exampleRequest : Request where
  name := some "A"
  tsconfig := some (FilePath.ofString "tsconfig.json")
  compilerOptions := some [("strict", .null), ("target", .string "ES2020")]

theorem validate_toRequest_of_package :
    ∃ config again, (validate exampleSite exampleRequest).outcome = .ok config ∧
      config.name = some "A" ∧ config.unsetCompilerOptions = ["strict"] ∧
      (validate exampleSite config.toRequest).outcome = .ok again ∧ again = config := by
  have hfound : (validate exampleSite exampleRequest).outcome.toOption.map
      (fun config => (config.name, config.unsetCompilerOptions, config.output.isText)) =
        some (some "A", ["strict"], true) := by decide +kernel
  obtain ⟨config, hconfig, hfields⟩ := Option.map_eq_some_iff.mp hfound
  obtain ⟨hname, hunset, htext⟩ : config.name = some "A" ∧
      config.unsetCompilerOptions = ["strict"] ∧ config.output.isText = true := by
    simpa using hfields
  have hvalid := Error.toOption_eq_some_iff.mp hconfig
  have hblank : ∀ name, config.name = some name → Text.isBlank name = false := by
    intro name h
    obtain rfl : "A" = name := Option.some.inj (hname.symm.trans h)
    decide
  obtain ⟨again, hagain, -, -, hequal⟩ :=
    validate_toRequest exampleSite exampleRequest config (by decide) (by decide) hvalid hblank
  exact ⟨config, again, hvalid, hname, hunset, hagain, (hequal (by decide)).2.mpr htext⟩

/-- A package in a directory whose name is no text, and a run in it. -/
def unreadableSite : Site where
  files := {
    root := .directory [("tmp".toList, .directory [([0xFF], .directory [
      ("package.json".toList, .file (Utf8.encode
        "\x7b\"name\":\"a\",\"types\":\"./a.d.ts\"\x7d".toList)),
      ("a.d.ts".toList, .file [])])])]
    workingDirectory := [] }
  directory := ⟨Utf8.encode "/tmp/".toList ++ [0xFF]⟩

/-- Asked for again, a configuration whose output directory is no text has another one. -/
theorem validate_toRequest_moves_output :
    unreadableSite.directory.isAbsolute = true ∧
      unreadableSite.directory.normalize = unreadableSite.directory ∧
      ∃ config again, (validate unreadableSite {}).outcome = .ok config ∧ config.name = some "a" ∧
        (validate unreadableSite config.toRequest).outcome = .ok again ∧
        config.output = ⟨Utf8.encode "/tmp/".toList ++ [0xFF] ++ Utf8.encode "/docs".toList⟩ ∧
        again.output = FilePath.ofString "/tmp/\ufffd/docs" ∧ again ≠ config := by
  have hfound : (validate unreadableSite {}).outcome.toOption.bind
      (fun config => (validate unreadableSite config.toRequest).outcome.toOption.map
        fun again => (config.name, config.output, again.output)) =
      some (some "a", ⟨Utf8.encode "/tmp/".toList ++ [0xFF] ++ Utf8.encode "/docs".toList⟩,
        FilePath.ofString "/tmp/\ufffd/docs") := by decide +kernel
  obtain ⟨config, hconfig, hagain⟩ := Option.bind_eq_some_iff.mp hfound
  obtain ⟨again, hagain, hfields⟩ := Option.map_eq_some_iff.mp hagain
  obtain ⟨hname, houtputs⟩ := Prod.mk.inj hfields
  obtain ⟨houtput, hmoved⟩ := Prod.mk.inj houtputs
  refine ⟨by decide, by decide, config, again, Error.toOption_eq_some_iff.mp hconfig, hname,
    Error.toOption_eq_some_iff.mp hagain, houtput, hmoved, ?_⟩
  intro hequal
  rw [hequal, houtput] at hmoved
  exact absurd hmoved (by decide)

end DocPlan.Config
