import DocPlan.Proofs.NearestManifest
import DocPlan.Proofs.WorkspaceRuns

/-!
# Ways to name a package

A request names a package by its directory, by its manifest, or by no path when the run is in the
directory. What a run takes from the path of a request is only the manifest it starts from
(`Plan.StartsFrom`): a validation finds its package there, and a run over a workspace its members.
So two requests that differ in their paths alone run alike as soon as they start from one manifest
(`Plan.run_congr`): they give one configuration or one error, and the same reports in the same
order.

The three ways build the path of that manifest differently. That the texts agree, however the path
of the request is spelled, is `FilePath.absolutize_join_manifest`.

Main result: `Plan.run_of_package`.
-/

namespace DocPlan

/-- A directory with a manifest is the nearest one to itself. -/
theorem Manifest.find?_of_isFile {fs : FileSystem} {directory : FilePath}
    (h : fs.isFile (directory.join manifestName) = true) :
    find? fs directory = some (directory.join manifestName) :=
  find?_eq_some_iff.mpr
    ⟨0, directory, ⟨rfl, h, fun _ hlower => absurd hlower (Nat.not_lt_zero _)⟩, rfl⟩

namespace Plan

variable {site : Site} {request : Request} {manifest path : FilePath}

/-- Both kinds of run start from a manifest: it is the subject of a validation, and the root of a
workspace is loaded from it. -/
structure StartsFrom (site : Site) (request : Request) (manifest : FilePath) : Prop where
  source : Source.ofRequest site request = .ok (.manifest manifest)
  root : workspaceRoot site request = Manifest.load site.files manifest

/-! ## The three ways -/

theorem startsFrom_directory (hpath : request.path = some path)
    (hdirectory : site.files.isDirectory (site.absolute path) = true)
    (hfile : site.files.isFile ((site.absolute path).join manifestName) = true) :
    StartsFrom site request ((site.absolute path).join manifestName) where
  source := by
    unfold Source.ofRequest Source.atPath
    rw [hpath]
    simp only
    rw [if_pos hdirectory, if_pos hfile]
  root := by
    unfold workspaceRoot
    rw [hpath]
    simp only
    rw [if_pos hdirectory]

theorem startsFrom_file (hpath : request.path = some path)
    (hfile : site.files.isFile (site.absolute path) = true)
    (hname : (site.absolute path).fileName? = some manifestName.bytes) :
    StartsFrom site request (site.absolute path) where
  source := by
    unfold Source.ofRequest
    rw [hpath]
    exact Source.atPath_manifest hfile hname
  root := by
    unfold workspaceRoot
    rw [hpath]
    simp only
    rw [if_neg (by simp [FileSystem.isDirectory_of_isFile hfile])]

theorem startsFrom_found (hpath : request.path = none)
    (hfound : Manifest.find? site.files site.directory = some manifest) :
    StartsFrom site request manifest where
  source := by
    unfold Source.ofRequest
    rw [hpath]
    simp only
    rw [hfound]
  root := by
    unfold workspaceRoot Manifest.discover
    rw [hpath]
    simp only
    rw [hfound]

/-! ## Runs from one manifest -/

theorem memberConfigs_congr (site : Site) (request : Request) (other : Option FilePath)
    (single : Bool) (members : List FilePath) :
    memberConfigs site { request with path := other } single members =
      memberConfigs site request single members := by
  induction members with
  | nil => rfl
  | cons member rest ih =>
    unfold memberConfigs
    rw [ih]
    rfl

theorem validate_congr {other : Option FilePath} (hrequest : StartsFrom site request manifest)
    (hother : StartsFrom site { request with path := other } manifest) :
    Config.validate site { request with path := other } = Config.validate site request := by
  have hsubject : ∀ settings, Subject.ofRequest site settings { request with path := other } =
      Subject.ofRequest site settings request := by
    intro settings
    unfold Subject.ofRequest
    rw [hrequest.source, hother.source]
  unfold Config.validate Config.validateWith
  simp only [hsubject]
  rfl

theorem workspace_congr {other : Option FilePath} (hrequest : StartsFrom site request manifest)
    (hother : StartsFrom site { request with path := other } manifest) :
    workspace site { request with path := other } = workspace site request := by
  unfold workspace
  rw [hrequest.root, hother.root]
  simp only [memberConfigs_congr]
  rfl

/-- Requests that start from one manifest and differ in their paths alone run alike. -/
theorem run_congr {other : Option FilePath} (hrequest : StartsFrom site request manifest)
    (hother : StartsFrom site { request with path := other } manifest) (overWorkspace : Bool) :
    run site overWorkspace { request with path := other } = run site overWorkspace request := by
  unfold run
  rw [validate_congr hrequest hother, workspace_congr hrequest hother]

/-- A directory with a manifest may be named by its own path, by the path of the manifest or, when
it is the directory of the run, by no path: the configuration or the error is the same, and so are
the reports. -/
theorem run_of_package (site : Site) (request : Request) (overWorkspace : Bool) (path : FilePath)
    (hdirectory : site.files.isDirectory (site.absolute path) = true)
    (hfile : site.files.isFile ((site.absolute path).join manifestName) = true) :
    StartsFrom site { request with path := some path }
        ((site.absolute path).join manifestName) ∧
    run site overWorkspace { request with path := some (path.join manifestName) } =
      run site overWorkspace { request with path := some path } ∧
    (site.directory.IsNormalized → (site.absolute path).same site.directory = true →
      run site overWorkspace { request with path := none } =
        run site overWorkspace { request with path := some path }) := by
  have hstart : StartsFrom site { request with path := some path }
      ((site.absolute path).join manifestName) := startsFrom_directory rfl hdirectory hfile
  refine ⟨hstart, ?_, ?_⟩
  · have hplace : site.absolute (path.join manifestName) =
        (site.absolute path).join manifestName :=
      FilePath.absolutize_join_manifest site.directory path
    have hmanifest : StartsFrom site { request with path := some (path.join manifestName) }
        ((site.absolute path).join manifestName) := by
      rw [← hplace]
      refine startsFrom_file rfl (hplace ▸ hfile) ?_
      exact FilePath.fileName?_absolutize_join_manifest site.directory path
    exact run_congr hstart hmanifest overWorkspace
  · intro hnormalized hsame
    have heq : site.absolute path = site.directory :=
      FilePath.IsNormalized.eq_of_same ⟨_, rfl⟩ hnormalized hsame
    have hnone : StartsFrom site { request with path := none }
        ((site.absolute path).join manifestName) := by
      rw [heq] at hfile ⊢
      exact startsFrom_found rfl (Manifest.find?_of_isFile hfile)
    exact run_congr hstart hnone overWorkspace

theorem run_of_package_of_root :
    exampleSite.files.isDirectory (FilePath.ofString "/") = true ∧
      exampleSite.files.isFile (FilePath.ofString "/package.json") = true ∧
      run exampleSite true { path := some (FilePath.ofString "a/.././package.json") } =
        run exampleSite true { path := some (FilePath.ofString "a/.././") } ∧
      run exampleSite true {} =
        run exampleSite true { path := some (FilePath.ofString "a/.././") } := by
  have hplace : exampleSite.absolute (FilePath.ofString "a/.././") = FilePath.ofString "/" := by
    decide
  have hdirectory : exampleSite.files.isDirectory (FilePath.ofString "/") = true := by
    decide +kernel
  have hfile : exampleSite.files.isFile (FilePath.ofString "/package.json") = true := by
    decide +kernel
  obtain ⟨-, hmanifest, hnone⟩ := run_of_package exampleSite {} true
    (FilePath.ofString "a/.././") (hplace ▸ hdirectory) (by rw [hplace]; exact hfile)
  exact ⟨hdirectory, hfile, hmanifest,
    hnone ⟨FilePath.ofString "/", by decide⟩ (by rw [hplace]; decide)⟩

end Plan

end DocPlan
