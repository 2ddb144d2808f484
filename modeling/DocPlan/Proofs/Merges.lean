import DocPlan.Proofs.NameTables
import DocPlan.Proofs.WorkspaceRuns

/-!
# What a merge comes to

A merge takes one configuration after the other and may fail on each of them, for a module with
two names or for plugins that exclude each other. Both failures depend on the configurations
together only: display names and plugins grow, so what is wrong at some step is wrong with all
that is listed. So the steps can be put together into one (`Config.foldlM_mergeOne_eq_ok_iff`),
which unites all lists at once (`Config.uniteAll`).

Manifests, plugins and display names are united in the same way: an item is added at the end
unless it is there. That leaves out all but the first of equal items
(`foldl_eq_eraseDupsBy`).

What is reported goes by the settings alone. No step changes those of the first configuration,
so the reports of a merge are those of comparing each other configuration with it
(`Config.diagnostics_merge_cons`).
-/

namespace DocPlan

/-! ## Link plugins -/

theorem LinkPlugin.foldl_addTo_nil (plugins : List LinkPlugin) :
    plugins.foldl addTo [] = plugins.eraseDups := by
  refine foldl_eq_eraseDupsBy ?_ plugins
  intro found plugin
  unfold addTo
  by_cases hmem : plugin ∈ found
  · rw [if_pos hmem, if_pos (List.any_eq_true.mpr ⟨plugin, hmem, beq_self_eq_true plugin⟩)]
  · rw [if_neg hmem, if_neg]
    intro hany
    obtain ⟨other, hother, hsame⟩ := List.any_eq_true.mp hany
    exact hmem (eq_of_beq hsame ▸ hother)

theorem LinkPlugin.mem_foldl_addTo {plugin : LinkPlugin} {plugins others : List LinkPlugin} :
    plugin ∈ others.foldl addTo plugins ↔ plugin ∈ plugins ∨ plugin ∈ others := by
  induction others generalizing plugins with
  | nil => simp
  | cons other rest ih =>
    rw [List.foldl_cons, ih, List.mem_cons, addTo]
    split
    next hmem =>
      constructor
      · exact Or.imp_right Or.inr
      · rintro (hold | rfl | hrest)
        · exact .inl hold
        · exact .inl hmem
        · exact .inr hrest
    next => rw [List.mem_append, List.mem_singleton, or_assoc]

namespace EntrySet

/-- A union of normalized paths holds the paths of both sets, and no others. -/
theorem mem_union_iff {a b : EntrySet} {path : FilePath}
    (ha : ∀ path ∈ a.paths, path.IsNormalized) (hb : ∀ path ∈ b.paths, path.IsNormalized) :
    path ∈ (a.union b).paths ↔ path ∈ a.paths ∨ path ∈ b.paths := by
  constructor
  · exact mem_union
  · rintro (hleft | hright)
    · exact mem_union_left b hleft
    · obtain ⟨other, hother, hsame⟩ := exists_same_mem_union a hright
      have hnormal : other.IsNormalized := (mem_union hother).elim (ha other) (hb other)
      rw [(hb path hright).eq_of_same hnormal hsame]
      exact hother

/-- A set with the entry points of some configurations holds all of these, and no others. -/
theorem mem_foldl_union_iff {set : EntrySet} {configs : List Config} {path : FilePath}
    (hset : ∀ path ∈ set.paths, path.IsNormalized)
    (hconfigs : ∀ config ∈ configs, ∀ path ∈ config.entryPoints.paths, path.IsNormalized) :
    path ∈ (configs.foldl (fun set config => set.union config.entryPoints) set).paths ↔
      path ∈ set.paths ∨ ∃ config ∈ configs, path ∈ config.entryPoints.paths := by
  induction configs generalizing set with
  | nil => simp
  | cons config rest ih =>
    obtain ⟨hconfig, hrest⟩ := List.forall_mem_cons.mp hconfigs
    have hunion : ∀ path, path ∈ (set.union config.entryPoints).paths ↔
        path ∈ set.paths ∨ path ∈ config.entryPoints.paths :=
      fun path => mem_union_iff hset hconfig
    have hnormal : ∀ path ∈ (set.union config.entryPoints).paths, path.IsNormalized :=
      fun path hpath => ((hunion path).mp hpath).elim (hset path) (hconfig path)
    rw [List.foldl_cons, ih hnormal hrest, hunion, List.exists_mem_cons_iff, or_assoc]

end EntrySet

namespace Config

/-! ## Manifests -/

theorem unitePaths_append (paths others more : List FilePath) :
    unitePaths paths (others ++ more) = unitePaths (unitePaths paths others) more :=
  List.foldl_append

/-- Uniting paths with none keeps the first of equal ones. -/
theorem unitePaths_nil (paths : List FilePath) :
    unitePaths [] paths = paths.eraseDupsBy FilePath.same := by
  refine foldl_eq_eraseDupsBy ?_ paths
  intro found path
  have hsame : (fun other : FilePath => other.same path) = path.same :=
    funext fun other => other.same_comm path
  show (if found.any (·.same path) then _ else _) = _
  rw [hsame]

theorem unitePaths_self (paths : List FilePath) : unitePaths paths paths = paths := by
  refine List.foldlRecOn paths _ (motive := (· = paths)) rfl ?_
  rintro found hfound path hpath
  rw [hfound]
  have hthere : paths.any (·.same path) = true :=
    List.any_eq_true.mpr ⟨path, hpath, path.same_self⟩
  exact if_pos hthere

/-! ## Merges -/

theorem uniteNames_eq_ok_iff {names others result : ModuleNames} :
    uniteNames names others = .ok result ↔ names.insertAll others.entries = (result, none) := by
  unfold uniteNames ModuleNames.extend
  split
  next hfound => rw [hfound, Except.ok.injEq, Prod.mk.injEq, and_iff_left rfl]
  next hfound =>
    rw [hfound]
    simp

/-- The first of some configurations with all that they list, and the display names that
these come to. -/
def uniteAll (merged : Config) (rest : List Config) (names : ModuleNames) : Config :=
  { merged with
    entryPoints := rest.foldl (fun set config => set.union config.entryPoints) merged.entryPoints
    manifests := unitePaths merged.manifests (rest.flatMap (·.manifests))
    moduleNames := names
    linkPlugins := unitePlugins merged.linkPlugins (rest.flatMap (·.linkPlugins))
    entryPointsDeclared := merged.entryPointsDeclared && rest.all (·.entryPointsDeclared)
    fromPackage := merged.fromPackage && rest.all (·.fromPackage) }

/-- Uniting one configuration and then others unites all of them. -/
theorem uniteAll_cons (merged config : Config) (rest : List Config) (step names : ModuleNames) :
    uniteAll { merged with
        entryPoints := merged.entryPoints.union config.entryPoints
        manifests := unitePaths merged.manifests config.manifests
        moduleNames := step
        linkPlugins := unitePlugins merged.linkPlugins config.linkPlugins
        entryPointsDeclared := merged.entryPointsDeclared && config.entryPointsDeclared
        fromPackage := merged.fromPackage && config.fromPackage } rest names =
      merged.uniteAll (config :: rest) names := by
  simp [uniteAll, unitePaths, unitePlugins, List.flatMap_cons, List.foldl_append, Bool.and_assoc]

/-- What a merge adds can be put together: it may fail for the plugins and the names of all
configurations only. -/
theorem foldlM_mergeOne_eq_ok_iff {merged result : Config} {rest : List Config}
    (hexclusive : LinkPlugin.checkExclusive merged.linkPlugins = .ok ()) :
    (rest.foldlM mergeOne merged).outcome = .ok result ↔
      ∃ names, merged.moduleNames.insertAll (rest.flatMap (·.moduleNames.entries)) =
          (names, none) ∧
        LinkPlugin.checkExclusive
          (unitePlugins merged.linkPlugins (rest.flatMap (·.linkPlugins))) = .ok () ∧
        result = merged.uniteAll rest names := by
  induction rest generalizing merged with
  | nil =>
    have hnothing : merged.uniteAll [] merged.moduleNames = merged := by
      simp [uniteAll, unitePaths, unitePlugins]
    constructor
    · intro h
      obtain rfl := Except.ok.inj h
      exact ⟨_, rfl, hexclusive, hnothing.symm⟩
    · rintro ⟨names, hnames, -, rfl⟩
      obtain rfl := (Prod.mk.inj hnames).1
      exact congrArg Except.ok hnothing.symm
  | cons config rest ih =>
    have hplugins : unitePlugins merged.linkPlugins
          ((config :: rest).flatMap (·.linkPlugins)) =
        unitePlugins (unitePlugins merged.linkPlugins config.linkPlugins)
          (rest.flatMap (·.linkPlugins)) := by
      rw [List.flatMap_cons]
      exact List.foldl_append
    rw [List.foldlM_cons, Report.outcome_bind, Error.bind_eq_ok_iff, hplugins, List.flatMap_cons]
    constructor
    · rintro ⟨next, hstep, hrest⟩
      obtain ⟨step, hnames, hone, rfl⟩ := mergeOne_eq_ok_iff.mp hstep
      obtain ⟨names, hall, hlast, rfl⟩ := (ih hone).mp hrest
      refine ⟨names, ?_, hlast, uniteAll_cons merged config rest step names⟩
      exact ModuleNames.insertAll_append_eq_iff.mpr ⟨step, uniteNames_eq_ok_iff.mp hnames, hall⟩
    · rintro ⟨names, hnames, hlast, rfl⟩
      obtain ⟨step, hstep, hall⟩ := ModuleNames.insertAll_append_eq_iff.mp hnames
      -- Plugins are only added, so those of a step exclude each other as little as all do.
      have hone : LinkPlugin.checkExclusive
          (unitePlugins merged.linkPlugins config.linkPlugins) = .ok () := by
        refine LinkPlugin.checkExclusive_eq_ok_iff.mpr fun hboth => ?_
        refine LinkPlugin.checkExclusive_eq_ok_iff.mp hlast ⟨?_, ?_⟩
        · exact LinkPlugin.mem_foldl_addTo.mpr (.inl hboth.1)
        · exact LinkPlugin.mem_foldl_addTo.mpr (.inl hboth.2)
      exact ⟨_, mergeOne_eq_ok_iff.mpr ⟨step, uniteNames_eq_ok_iff.mpr hstep, hone, rfl⟩,
        (ih hone).mpr ⟨names, hall, hlast, (uniteAll_cons merged config rest step names).symm⟩⟩

/-! ## What a merge reports -/

/-- Two configurations agree on the settings that a merge compares. -/
structure Agrees (first other : Config) : Prop where
  condition : first.condition = other.condition
  output : first.output.same other.output = true
  navigation : first.navigation = other.navigation
  tsconfig : samePath first.tsconfig other.tsconfig = true
  compilerOptions : first.compilerOptions.same other.compilerOptions = true
  unsetCompilerOptions : first.unsetCompilerOptions = other.unsetCompilerOptions
  typedocOptions : first.typedocOptions.same other.typedocOptions = true

/-- Nothing is reported of configurations that agree, and only of these. -/
theorem diagnostics_reportDifferences_eq_nil_iff {first other : Config} :
    (reportDifferences first other).diagnostics = [] ↔ Agrees first other := by
  have hnone : (reportDifferences first other).diagnostics = [] ↔
      ∀ setting ∈ differences first other, setting.2 = false := by
    rw [reportDifferences, List.map_eq_nil_iff, List.filter_eq_nil_iff]
    simp only [Bool.not_eq_true]
  rw [hnone]
  simp only [differences, List.forall_mem_cons, List.not_mem_nil, false_imp_iff, implies_true,
    and_true, bne_eq_false_iff_eq, Bool.not_eq_false', Bool.or_eq_false_iff,
    decide_eq_false_iff_not, not_not]
  constructor
  · rintro ⟨hcondition, houtput, hnavigation, htsconfig, ⟨hcompiler, hunset⟩, htypedoc⟩
    exact ⟨hcondition, houtput, hnavigation, htsconfig, hcompiler, hunset, htypedoc⟩
  · rintro ⟨hcondition, houtput, hnavigation, htsconfig, hcompiler, hunset, htypedoc⟩
    exact ⟨hcondition, houtput, hnavigation, htsconfig, ⟨hcompiler, hunset⟩, htypedoc⟩

/-- A step reports the settings that are ignored, and nothing else, whether it fails or not. -/
theorem diagnostics_mergeOne (merged config : Config) :
    (mergeOne merged config).diagnostics = (reportDifferences merged config).diagnostics := by
  unfold mergeOne
  rw [Report.diagnostics_bind, Report.diagnostics_noted, Report.outcome_noted]
  simp only [Report.diagnostics_bind, Report.outcome_except]
  refine List.append_right_eq_self.mpr ?_
  cases uniteNames merged.moduleNames config.moduleNames with
  | error error => rfl
  | ok names =>
    cases LinkPlugin.checkExclusive (unitePlugins merged.linkPlugins config.linkPlugins) <;> rfl

/-- What is merged keeps the settings that it is compared by, so each configuration is compared
with the first one. -/
theorem diagnostics_foldlM_mergeOne {merged result : Config} {rest : List Config}
    (h : (rest.foldlM mergeOne merged).outcome = .ok result) :
    (rest.foldlM mergeOne merged).diagnostics =
      rest.flatMap fun config => (reportDifferences merged config).diagnostics := by
  induction rest generalizing merged with
  | nil => rfl
  | cons config rest ih =>
    rw [List.foldlM_cons, Report.outcome_bind, Error.bind_eq_ok_iff] at h
    obtain ⟨next, hstep, hrest⟩ := h
    have hkept : reportDifferences next = reportDifferences merged := by
      obtain ⟨names, -, -, rfl⟩ := mergeOne_eq_ok_iff.mp hstep
      rfl
    rw [List.foldlM_cons, Report.diagnostics_bind, diagnostics_mergeOne, hstep, List.flatMap_cons]
    simp only [ih hrest, hkept]

/-- A merge that succeeds reports where the others differ from the first configuration. -/
theorem diagnostics_merge_cons {first result : Config} {rest : List Config}
    (h : (merge (first :: rest)).outcome = .ok result) :
    (merge (first :: rest)).diagnostics =
      rest.flatMap fun config => (reportDifferences first config).diagnostics := by
  obtain ⟨merged, hmerged, -⟩ := merge_cons_eq_ok_iff.mp h
  unfold merge
  rw [Report.diagnostics_bind, hmerged, diagnostics_foldlM_mergeOne hmerged]
  exact List.append_nil _

end Config

end DocPlan
