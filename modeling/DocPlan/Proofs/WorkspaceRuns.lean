import DocPlan.Plan
import DocPlan.Proofs.Coherence
import DocPlan.Proofs.WorkspaceMembers

/-!
# Every run gives a coherent configuration

A run over a workspace merges the configurations of the members one into the other. What
is kept of the first one stays as it was; what is united stays coherent with it. So one
step of the merge keeps the invariant (`Config.PackageBased.mergeOne`), and the whole
merge does.

The members of a workspace are found as manifests of directories. A path that ends in the
name of a manifest is never taken for an entry file, so no member is about a single file
(`Plan.packageBased_of_member`).

Main result: `Plan.coherent_of_run`.
-/

namespace DocPlan

namespace Config

/-! ## Merging -/

/-- A coherent configuration that is about packages. -/
structure PackageBased (fs : FileSystem) (config : Config) : Prop where
  coherent : Coherent fs config
  path : config.path = none

/-- The part of the invariant that is about packages, for a configuration without an
entry file. -/
theorem PackageBased.packages {fs : FileSystem} {config : Config}
    (h : PackageBased fs config) :
    config.fromPackage = true ∧ config.manifests ≠ [] ∧
      config.manifests.Pairwise fun manifest later => manifest.same later = false := by
  rcases h.coherent.subject with ⟨path, hpath, -⟩ | ⟨-, hpackages⟩
  · rw [h.path] at hpath
    cases hpath
  · exact hpackages

theorem unitePaths_spec {paths : List FilePath} (others : List FilePath) (hne : paths ≠ [])
    (hdistinct : paths.Pairwise fun path later => path.same later = false) :
    unitePaths paths others ≠ [] ∧
      (unitePaths paths others).Pairwise fun path later => path.same later = false := by
  unfold unitePaths
  induction others generalizing paths with
  | nil => exact ⟨hne, hdistinct⟩
  | cons other rest ih =>
    rw [List.foldl_cons]
    split
    next => exact ih hne hdistinct
    next hout =>
      apply ih (List.append_ne_nil_of_left_ne_nil hne _)
      refine List.pairwise_append.mpr ⟨hdistinct, List.pairwise_singleton _ _, ?_⟩
      intro path hpath last hlast
      obtain rfl := List.mem_singleton.mp hlast
      apply Bool.eq_false_iff.mpr
      intro hsame
      apply hout
      exact List.any_eq_true.mpr ⟨path, hpath, hsame⟩

theorem distinct_uniteNames {names others result : ModuleNames} (hdistinct : names.Distinct)
    (h : uniteNames names others = .ok result) : result.Distinct := by
  unfold uniteNames at h
  split at h
  next found hfound =>
    obtain rfl := Except.ok.inj h
    exact ModuleNames.distinct_insertAll hdistinct hfound
  next => cases h

theorem mergeOne_eq_ok_iff {merged config result : Config} :
    (mergeOne merged config).outcome = .ok result ↔
      ∃ names, uniteNames merged.moduleNames config.moduleNames = .ok names ∧
        LinkPlugin.checkExclusive (unitePlugins merged.linkPlugins config.linkPlugins) = .ok () ∧
        result = { merged with
          entryPoints := merged.entryPoints.union config.entryPoints
          manifests := unitePaths merged.manifests config.manifests
          moduleNames := names
          linkPlugins := unitePlugins merged.linkPlugins config.linkPlugins
          entryPointsDeclared := merged.entryPointsDeclared && config.entryPointsDeclared
          fromPackage := merged.fromPackage && config.fromPackage } := by
  unfold mergeOne
  simp only [Report.outcome_bind, Error.bind_eq_ok_iff, Report.outcome_noted,
    Report.outcome_except, Report.outcome_pure, Except.ok.injEq]
  constructor
  · rintro ⟨_, -, names, hnames, _, hexclusive, rfl⟩
    exact ⟨names, hnames, hexclusive, rfl⟩
  · rintro ⟨names, hnames, hexclusive, rfl⟩
    exact ⟨(), trivial, names, hnames, (), hexclusive, rfl⟩

/-- Merging a configuration into others keeps the invariant. -/
theorem PackageBased.mergeOne {fs : FileSystem} {merged config result : Config}
    (hmerged : PackageBased fs merged) (hconfig : PackageBased fs config)
    (h : (mergeOne merged config).outcome = .ok result) : PackageBased fs result := by
  obtain ⟨names, hnames, hexclusive, rfl⟩ := mergeOne_eq_ok_iff.mp h
  have hfirst := hmerged.coherent
  have hother := hconfig.coherent
  obtain ⟨hfrom, hmanifests, hdistinct⟩ := hmerged.packages
  obtain ⟨hunited, hpairwise⟩ := unitePaths_spec config.manifests hmanifests hdistinct
  refine ⟨?_, hmerged.path⟩
  exact {
    subject := by
      refine Or.inr ⟨hmerged.path, ?_, hunited, hpairwise⟩
      rw [hfrom, hconfig.packages.1]
      rfl
    someEntry := by
      obtain ⟨path, hpath⟩ := List.exists_mem_of_ne_nil _ hfirst.someEntry
      exact List.ne_nil_of_mem (EntrySet.mem_union_left config.entryPoints hpath)
    entryPoints := by
      intro path hpath
      rcases EntrySet.mem_union hpath with hleft | hright
      · exact hfirst.entryPoints path hleft
      · exact hother.entryPoints path hright
    entryPointsDeclared := by
      rw [Bool.and_eq_true, hfirst.entryPointsDeclared, hother.entryPointsDeclared]
      exact EntrySet.forall_isDeclaration_union.symm
    hasCompilerOptions := hfirst.hasCompilerOptions
    compilerOptions := hfirst.compilerOptions
    distinctOptions := hfirst.distinctOptions
    unsetSorted := hfirst.unsetSorted
    unsetOut := hfirst.unsetOut
    linkPlugins := LinkPlugin.nodup_foldl_addTo hfirst.linkPlugins config.linkPlugins
    exclusive := LinkPlugin.checkExclusive_eq_ok_iff.mp hexclusive
    moduleNames := distinct_uniteNames hfirst.moduleNames hnames
    typedocOptions := hfirst.typedocOptions
    distinctTypedoc := hfirst.distinctTypedoc
    condition := hfirst.condition
    output := hfirst.output
    files := hfirst.files }

theorem PackageBased.anonymous {fs : FileSystem} {config : Config}
    (h : PackageBased fs config) : PackageBased fs config.anonymous := by
  refine ⟨{ h.coherent with
    subject := Or.inr ⟨rfl, h.packages⟩
    hasCompilerOptions := ?_ }, rfl⟩
  show (!config.compilerOptions.isEmpty) = true ↔ config.compilerOptions ≠ []
  simp

theorem merge_cons_eq_ok_iff {first result : Config} {rest : List Config} :
    (merge (first :: rest)).outcome = .ok result ↔
      ∃ merged, (rest.foldlM mergeOne first).outcome = .ok merged ∧ merged.anonymous = result := by
  unfold merge
  rw [Report.outcome_bind, Error.bind_eq_ok_iff]
  simp only [Report.outcome_pure, Except.ok.injEq]

/-- What every step of a merge keeps, and leaving out the name and the path does, holds of the
merge of configurations of which it holds. -/
theorem merge_induct {P : Config → Prop} {configs : List Config} {result : Config}
    (hstep : ∀ merged config next, P merged → P config →
      (mergeOne merged config).outcome = .ok next → P next)
    (hlast : ∀ config, P config → P config.anonymous) (hconfigs : ∀ config ∈ configs, P config)
    (h : (merge configs).outcome = .ok result) : P result := by
  cases configs with
  | nil => cases h
  | cons first rest =>
    obtain ⟨hfirst, hrest⟩ := List.forall_mem_cons.mp hconfigs
    obtain ⟨merged, hmerged, rfl⟩ := merge_cons_eq_ok_iff.mp h
    refine hlast merged (Report.foldlM_induct hfirst ?_ hmerged)
    intro config hconfig found next hfound hnext
    exact hstep found config next hfound (hrest config hconfig) hnext

/-- The configuration of several packages is coherent when those of the packages are. -/
theorem packageBased_of_merge {fs : FileSystem} {configs : List Config} {result : Config}
    (hconfigs : ∀ config ∈ configs, PackageBased fs config)
    (h : (merge configs).outcome = .ok result) : PackageBased fs result :=
  merge_induct (fun _ _ _ hmerged hconfig hnext => hmerged.mergeOne hconfig hnext)
    (fun _ hconfig => hconfig.anonymous) hconfigs h

end Config

/-! ## Members of a workspace -/

namespace Workspaces

/-- A path is the manifest of some directory. -/
def IsMember (path : FilePath) : Prop := ∃ directory : FilePath, path = directory.join manifestName

/-- The members of a workspace are manifests of directories. -/
theorem isMember_of_members {fs : FileSystem} {root : Manifest} {found : List FilePath}
    (h : (members fs root).outcome = .ok (some found)) : ∀ path ∈ found, IsMember path := by
  obtain ⟨texts, patterns, hdeclares, -⟩ := exists_reads_of_members h
  obtain ⟨kept, hkeeps, rfl, -⟩ := exists_keeps_of_members hdeclares h
  intro path hpath
  obtain ⟨_, -, directory, -, -, hdirectory⟩ := hkeeps.exists_host path hpath
  exact ⟨directory, hdirectory⟩

end Workspaces

/-! ## Runs -/

namespace Plan

open Config

variable {site : Site} {request : Request}

/-- A path with the name of a manifest is not taken for an entry file. -/
theorem not_file_of_member {member path : FilePath} (hmember : Workspaces.IsMember member)
    (hasked : request.path = some member) : Source.ofRequest site request ≠ .ok (.file path) := by
  intro hsource
  obtain ⟨⟨asked, hpath, rfl⟩, -, hname, -⟩ := Source.file_of_ofRequest hsource
  obtain ⟨directory, rfl⟩ := hmember
  obtain rfl := Option.some.inj (hasked.symm.trans hpath)
  exact hname (FilePath.fileName?_absolutize_join_manifest site.directory directory)

/-- A member of a workspace is a package, never a single file. -/
theorem packageBased_of_member {single : Bool} {member : FilePath} {config : Config}
    (habsolute : site.directory.isAbsolute = true) (hmember : Workspaces.IsMember member)
    (h : (validate site (memberRequest request single member)).outcome = .ok config) :
    PackageBased site.files config := by
  refine ⟨coherent_of_validate habsolute h, ?_⟩
  obtain ⟨settings, subject, -, hsubject, rfl⟩ := validate_eq_ok_iff.mp h
  rcases Subject.ofRequest_eq_ok_iff.mp hsubject with ⟨path, hsource, -⟩ | ⟨path, -, hpackage⟩
  · exact absurd hsource (not_file_of_member hmember rfl)
  · obtain ⟨manifest, set, names, -, -, -, rfl⟩ := Subject.ofManifest_eq_ok_iff.mp hpackage
    rfl

theorem forall_memberConfigs {P : Config → Prop} {single : Bool} {members : List FilePath}
    {configs : List Config}
    (hmembers : ∀ member ∈ members, ∀ config,
      (validate site (memberRequest request single member)).outcome = .ok config → P config)
    (h : (memberConfigs site request single members).outcome = .ok configs) :
    ∀ config ∈ configs, P config := by
  induction members generalizing configs with
  | nil =>
    obtain rfl := Except.ok.inj h
    exact fun config hconfig => absurd hconfig List.not_mem_nil
  | cons member rest ih =>
    obtain ⟨hmember, hrest⟩ := List.forall_mem_cons.mp hmembers
    unfold memberConfigs at h
    simp only [Report.outcome_bind, Error.bind_eq_ok_iff, Report.outcome_pure,
      Except.ok.injEq] at h
    obtain ⟨config, hconfig, others, hothers, rfl⟩ := h
    exact List.forall_mem_cons.mpr ⟨hmember config hconfig, ih hrest hothers⟩

/-- What holds of the configuration of every member, and of a merge if it holds of what is merged,
holds of the configuration of a workspace. -/
theorem workspace_induct {P : Config → Prop} {config : Config}
    (hmember : ∀ single member config, Workspaces.IsMember member →
      (validate site (memberRequest request single member)).outcome = .ok config → P config)
    (hmerge : ∀ configs result, (∀ config ∈ configs, P config) →
      (merge configs).outcome = .ok result → P result)
    (h : (workspace site request).outcome = .ok config) : P config := by
  unfold workspace at h
  simp only [Report.outcome_bind, Error.bind_eq_ok_iff, Report.outcome_except,
    Report.outcome_noted] at h
  obtain ⟨root, -, found, hfound, members, hmembers, _, -, configs, hconfigs, hresult⟩ := h
  have hfound' : found = some members := by
    unfold requireMembers at hmembers
    split at hmembers
    · cases hmembers
    · cases hmembers
    · rw [Except.ok.inj hmembers]
  have hlisted := Workspaces.isMember_of_members (hfound' ▸ hfound)
  have hall := forall_memberConfigs (P := P)
    (fun member hmem config => hmember _ member config (hlisted member hmem)) hconfigs
  split at hresult
  next only => exact Except.ok.inj hresult ▸ hall only (List.mem_singleton_self only)
  next => exact hmerge _ _ hall hresult

theorem packageBased_of_workspace {config : Config}
    (habsolute : site.directory.isAbsolute = true)
    (h : (workspace site request).outcome = .ok config) : PackageBased site.files config :=
  workspace_induct (fun _ _ _ hmember hconfig => packageBased_of_member habsolute hmember hconfig)
    (fun _ _ hconfigs hresult => packageBased_of_merge hconfigs hresult) h

theorem outcome_reportFailure {α : Type} (report : Report α) :
    (reportFailure report).outcome = report.outcome := by
  unfold reportFailure
  cases h : report.outcome with
  | ok value => simp only [h]
  | error error => rfl

/-- What holds of the configuration of a package, or else of every member and of a merge, holds of
the configuration of a run. -/
theorem run_induct {P : Config → Prop} {overWorkspace : Bool} {config : Config}
    (hpackage : overWorkspace = false → ∀ config,
      (validate site request).outcome = .ok config → P config)
    (hmember : ∀ single member config, Workspaces.IsMember member →
      (validate site (memberRequest request single member)).outcome = .ok config → P config)
    (hmerge : ∀ configs result, (∀ config ∈ configs, P config) →
      (merge configs).outcome = .ok result → P result)
    (h : (run site overWorkspace request).outcome = .ok config) : P config := by
  unfold run at h
  rw [outcome_reportFailure] at h
  cases overWorkspace with
  | true => exact workspace_induct hmember hmerge h
  | false => exact hpackage rfl config h

/-- A run gives a coherent configuration, over a package or a workspace. -/
theorem coherent_of_run (site : Site) (overWorkspace : Bool) (request : Request)
    (config : Config) (habsolute : site.directory.isAbsolute = true)
    (h : (run site overWorkspace request).outcome = .ok config) :
    Coherent site.files config := by
  unfold run at h
  rw [outcome_reportFailure] at h
  split at h
  next => exact (packageBased_of_workspace habsolute h).coherent
  next => exact coherent_of_validate habsolute h

/-- A workspace with two packages. -/
def exampleSite : Site where
  files := {
    root := .directory [
      ("package.json".toList, .file (Utf8.encode
        "\x7b\"workspaces\":[\"a\",\"b\"]\x7d".toList)),
      ("a".toList, .directory [
        ("package.json".toList, .file (Utf8.encode "\x7b\"types\":\"./a.d.ts\"\x7d".toList)),
        ("a.d.ts".toList, .file [])]),
      ("b".toList, .directory [
        ("package.json".toList, .file (Utf8.encode "\x7b\"types\":\"./b.ts\"\x7d".toList)),
        ("b.ts".toList, .file [])])]
    workingDirectory := [] }
  directory := FilePath.ofString "/"

theorem coherent_of_run_of_workspace :
    ∃ config, (run exampleSite true {}).outcome = .ok config ∧
      config.manifests.map FilePath.toString = ["/a/package.json", "/b/package.json"] ∧
      config.entryPointsDeclared = false ∧ Coherent exampleSite.files config := by
  have hfound : (run exampleSite true {}).outcome.toOption.map
      (fun config => (config.manifests.map FilePath.toString, config.entryPointsDeclared)) =
        some (["/a/package.json", "/b/package.json"], false) := by decide +kernel
  obtain ⟨config, hconfig, hfields⟩ := Option.map_eq_some_iff.mp hfound
  obtain ⟨hmanifests, hdeclared⟩ := Prod.mk.inj hfields
  have hrun := Error.toOption_eq_some_iff.mp hconfig
  exact ⟨config, hrun, hmanifests, hdeclared,
    coherent_of_run exampleSite true {} config (by decide) hrun⟩

end Plan

end DocPlan
