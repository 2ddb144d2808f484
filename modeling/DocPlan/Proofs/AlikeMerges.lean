import DocPlan.Proofs.Merges

/-!
# Merging configurations that differ in their packages only

What a configuration says of its package is its name, its entry points and its manifests.
Configurations that share everything else (`Config.shared`) are merged without a complaint:
their display names and link plugins are the same, so uniting them adds nothing, no two of
them collide, and there is no setting to ignore (`Config.outcome_foldlM_mergeOne`,
`Config.diagnostics_merge`).

What is merged is then the union of the entry points and the manifests in their order, each
once (`Config.Unites`).
-/

namespace DocPlan

/-! ## Uniting with the same -/

theorem LinkPlugin.foldl_addTo_of_subset {plugins others : List LinkPlugin}
    (h : ∀ plugin ∈ others, plugin ∈ plugins) : others.foldl addTo plugins = plugins := by
  induction others with
  | nil => rfl
  | cons plugin rest ih =>
    obtain ⟨hplugin, hrest⟩ := List.forall_mem_cons.mp h
    rw [List.foldl_cons, addTo, if_pos hplugin, ih hrest]

/-- A table may be given the names that it holds. -/
theorem ModuleNames.insertAll_of_subset {names : ModuleNames} {entries : List (String × String)}
    (hdistinct : names.Distinct) (h : ∀ entry ∈ entries, entry ∈ names.entries) :
    names.insertAll entries = (names, none) := by
  induction entries with
  | nil => rfl
  | cons entry rest ih =>
    obtain ⟨module, display⟩ := entry
    obtain ⟨hentry, hrest⟩ := List.forall_mem_cons.mp h
    rw [insertAll, insert_of_get? (Keyed.get?_of_mem hdistinct hentry)]
    exact ih hrest

namespace Config

/-! ## Configurations that share their settings -/

/-- A configuration without what it says of its package: its name, its entry points and
its manifests. -/
def shared (config : Config) : Config :=
  { config with
    name := none
    entryPoints := .empty
    manifests := []
    entryPointsDeclared := false }

/-- What configurations share, if they can be merged with themselves: display names and
link plugins that a configuration may have, and no entry file. -/
structure SelfMergeable (shared : Config) : Prop where
  path : shared.path = none
  hasCompilerOptions : shared.hasCompilerOptions = !shared.compilerOptions.isEmpty
  moduleNames : shared.moduleNames.Distinct
  exclusive : LinkPlugin.checkExclusive shared.linkPlugins = .ok ()

/-- Leaving out name and path changes nothing that such configurations share. -/
theorem shared_anonymous {common config : Config} (hcommon : common.SelfMergeable)
    (h : config.shared = common) : config.anonymous.shared = common := by
  have hanonymous : config.anonymous.shared = { config.shared with
      path := none, hasCompilerOptions := !config.shared.compilerOptions.isEmpty } := rfl
  rw [hanonymous, h, ← hcommon.hasCompilerOptions]
  have hpath := hcommon.path
  cases common
  simp only at hpath
  rw [hpath]

section Merge

variable {common merged config : Config}

/-- Uniting packages adds nothing to what their configurations share. -/
theorem shared_uniteAll {configs : List Config} (hconfigs : ∀ config ∈ configs,
    config.shared = merged.shared) :
    (merged.uniteAll configs merged.moduleNames).shared = merged.shared := by
  have hplugins : unitePlugins merged.linkPlugins (configs.flatMap (·.linkPlugins)) =
      merged.linkPlugins := by
    refine LinkPlugin.foldl_addTo_of_subset fun plugin hplugin => ?_
    obtain ⟨config, hconfig, hmem⟩ := List.mem_flatMap.mp hplugin
    have hsame : config.linkPlugins = merged.linkPlugins :=
      (congrArg linkPlugins (hconfigs config hconfig) :)
    exact hsame ▸ hmem
  have hpackage : (merged.fromPackage && configs.all (·.fromPackage)) = merged.fromPackage := by
    cases hfrom : merged.fromPackage with
    | false => rfl
    | true =>
      rw [Bool.true_and, List.all_eq_true]
      intro config hconfig
      have hsame : config.fromPackage = merged.fromPackage :=
        (congrArg fromPackage (hconfigs config hconfig) :)
      exact hsame.trans hfrom
  unfold uniteAll shared
  rw [hplugins, hpackage]

/-- The names of such configurations are those that the first one has. -/
theorem insertAll_of_shared (hcommon : common.SelfMergeable) (hmerged : merged.shared = common)
    {configs : List Config} (hconfigs : ∀ config ∈ configs, config.shared = common) :
    merged.moduleNames.insertAll (configs.flatMap (·.moduleNames.entries)) =
      (merged.moduleNames, none) := by
  subst hmerged
  refine ModuleNames.insertAll_of_subset hcommon.moduleNames fun entry hentry => ?_
  obtain ⟨config, hconfig, hmem⟩ := List.mem_flatMap.mp hentry
  have hsame : config.moduleNames = merged.moduleNames :=
    (congrArg moduleNames (hconfigs config hconfig) :)
  exact hsame ▸ hmem

/-- The merge of such configurations unites their packages. -/
theorem outcome_foldlM_mergeOne (hcommon : common.SelfMergeable) {configs : List Config}
    (hmerged : merged.shared = common) (hconfigs : ∀ config ∈ configs, config.shared = common) :
    (configs.foldlM mergeOne merged).outcome =
      .ok (merged.uniteAll configs merged.moduleNames) := by
  subst hmerged
  have hexclusive : LinkPlugin.checkExclusive merged.linkPlugins = .ok () := hcommon.exclusive
  refine (foldlM_mergeOne_eq_ok_iff hexclusive).mpr
    ⟨_, insertAll_of_shared hcommon rfl hconfigs, ?_, rfl⟩
  have hplugins : (merged.uniteAll configs merged.moduleNames).linkPlugins = merged.linkPlugins :=
    (congrArg linkPlugins (shared_uniteAll hconfigs) :)
  show LinkPlugin.checkExclusive (merged.uniteAll configs merged.moduleNames).linkPlugins = _
  rw [hplugins, hexclusive]

/-- Configurations that share their settings agree on them. -/
theorem agrees_of_shared (hmerged : merged.shared = common) (hconfig : config.shared = common)
    (hcompiler : common.compilerOptions.same common.compilerOptions = true)
    (htypedoc : common.typedocOptions.same common.typedocOptions = true) :
    Agrees merged config := by
  subst hmerged
  have houtput : config.output = merged.output := (congrArg output hconfig :)
  have htsconfig : config.tsconfig = merged.tsconfig := (congrArg tsconfig hconfig :)
  have hoptions : config.compilerOptions = merged.compilerOptions :=
    (congrArg compilerOptions hconfig :)
  have htypedocOptions : config.typedocOptions = merged.typedocOptions :=
    (congrArg typedocOptions hconfig :)
  exact {
    condition := (congrArg condition hconfig.symm :)
    output := by rw [houtput, FilePath.same_self]
    navigation := (congrArg navigation hconfig.symm :)
    tsconfig := by
      rw [htsconfig]
      cases merged.tsconfig with
      | none => rfl
      | some path => exact path.same_self
    compilerOptions := by
      rw [hoptions]
      exact hcompiler
    unsetCompilerOptions := (congrArg unsetCompilerOptions hconfig.symm :)
    typedocOptions := by
      rw [htypedocOptions]
      exact htypedoc }

end Merge

/-! ## The union of packages -/

/-- A configuration unites those of some packages: it has the entry points of all of them,
their manifests in order, each once, no name, and every other setting that they have. -/
structure Unites (configs : List Config) (result : Config) : Prop where
  entryPoints : ∀ path, path ∈ result.entryPoints.paths ↔
    ∃ config ∈ configs, path ∈ config.entryPoints.paths
  manifests : result.manifests = (configs.flatMap (·.manifests)).eraseDupsBy FilePath.same
  name : result.name = none
  shared : ∀ config ∈ configs, config.shared = result.shared

/-- The configuration of a package that may be merged with others like it. -/
structure PackageOf (common config : Config) : Prop where
  shared : config.shared = common
  entryPoints : ∀ path ∈ config.entryPoints.paths, path.IsNormalized
  manifests : ∃ manifest, config.manifests = [manifest]

/-- The merge of packages that share everything else succeeds, and unites them. -/
theorem exists_unites_of_merge {common : Config} (hcommon : common.SelfMergeable)
    {configs : List Config} (hne : configs ≠ [])
    (hconfigs : ∀ config ∈ configs, PackageOf common config) :
    ∃ result, (merge configs).outcome = .ok result ∧ Unites configs result := by
  cases configs with
  | nil => exact absurd rfl hne
  | cons first rest =>
    obtain ⟨hfirst, hrest⟩ := List.forall_mem_cons.mp hconfigs
    have hrestShared : ∀ config ∈ rest, config.shared = common :=
      fun config hconfig => (hrest config hconfig).shared
    have hmerged := outcome_foldlM_mergeOne hcommon hfirst.shared hrestShared
    refine ⟨_, merge_cons_eq_ok_iff.mpr ⟨_, hmerged, rfl⟩, ?_⟩
    have hshared : (first.uniteAll rest first.moduleNames).anonymous.shared = common := by
      refine shared_anonymous hcommon ((shared_uniteAll ?_).trans hfirst.shared)
      exact fun config hconfig => (hrestShared config hconfig).trans hfirst.shared.symm
    exact {
      entryPoints := by
        intro path
        rw [List.exists_mem_cons_iff]
        exact EntrySet.mem_foldl_union_iff hfirst.entryPoints
          fun config hconfig => (hrest config hconfig).entryPoints
      manifests := by
        obtain ⟨manifest, hmanifest⟩ := hfirst.manifests
        rw [← unitePaths_nil, List.flatMap_cons, unitePaths_append, hmanifest]
        show unitePaths first.manifests (rest.flatMap (·.manifests)) = _
        rw [hmanifest]
        rfl
      name := rfl
      shared := fun config hconfig => (hconfigs config hconfig).shared.trans hshared.symm }

/-- The merge of such packages reports nothing, if their options equal themselves. -/
theorem diagnostics_merge {common : Config} (hcommon : common.SelfMergeable)
    (hcompiler : common.compilerOptions.same common.compilerOptions = true)
    (htypedoc : common.typedocOptions.same common.typedocOptions = true)
    {configs : List Config} (hconfigs : ∀ config ∈ configs, config.shared = common) :
    (merge configs).diagnostics = [] := by
  cases configs with
  | nil => rfl
  | cons first rest =>
    obtain ⟨hfirst, hrest⟩ := List.forall_mem_cons.mp hconfigs
    have hmerged := outcome_foldlM_mergeOne hcommon hfirst hrest
    rw [diagnostics_merge_cons (merge_cons_eq_ok_iff.mpr ⟨_, hmerged, rfl⟩)]
    refine List.flatMap_eq_nil_iff.mpr fun config hconfig => ?_
    exact diagnostics_reportDifferences_eq_nil_iff.mpr
      (agrees_of_shared hfirst (hrest config hconfig) hcompiler htypedoc)

end Config

end DocPlan
