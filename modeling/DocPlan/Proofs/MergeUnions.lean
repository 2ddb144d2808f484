import Mathlib.Data.List.Pairwise
import DocPlan.Proofs.Merges

/-!
# A merge is the union of its configurations

The steps of a merge put together (`Config.foldlM_mergeOne_eq_ok_iff`) say what it comes to for
any configurations. For those that a validation gives (`Config.Validated`) each list repeats
nothing, so the first configuration is united like the others and all of them count alike: the
merge succeeds when no two of them contradict each other (`Config.Compatible`), in whatever
order they stand, and lists what they list (`Config.UnionOf`).

Main result: `Config.merge_unites`.
-/

namespace DocPlan.Config

variable {config : Config} {configs : List Config}

/-! ## What a validation gives -/

/-- A configuration that some validation gives, whatever its check of compiler options is. -/
def Validated (config : Config) : Prop :=
  ∃ checker site request, (validateWith checker site request).outcome = .ok config

/-- What a merge relies on: there are entry points, in order and each in one spelling, a flag
that tells of them, and lists that repeat nothing. -/
structure Mergeable (config : Config) : Prop where
  someEntry : config.entryPoints.paths ≠ []
  entryPoints : ∀ path ∈ config.entryPoints.paths, path.IsNormalized
  ordered : config.entryPoints.Ordered
  entryPointsDeclared : config.entryPointsDeclared = config.entryPoints.allDeclarations
  manifests : config.manifests.eraseDupsBy FilePath.same = config.manifests
  linkPlugins : config.linkPlugins.Nodup
  exclusive : LinkPlugin.checkExclusive config.linkPlugins = .ok ()
  moduleNames : config.moduleNames.Distinct

theorem Validated.mergeable (h : config.Validated) : config.Mergeable := by
  obtain ⟨checker, site, request, hvalid⟩ := h
  obtain ⟨settings, subject, hsettings, hsubject, rfl⟩ := validateWith_eq_ok_iff.mp hvalid
  have hmeets := Settings.ofRequest_eq_ok_iff.mp hsettings
  have hplugins := LinkPlugin.resolve_eq_ok_iff.mp hmeets.linkPlugins
  have hnames := Subject.distinct_of_ofRequest (ModuleNames.distinct_ofList hmeets.moduleNames)
    hsubject
  rcases Subject.ofRequest_eq_ok_iff.mp hsubject with ⟨path, hsource, rfl⟩ | ⟨path, -, hpackage⟩
  · obtain ⟨⟨asked, -, rfl⟩, -, -, -⟩ := Source.file_of_ofRequest hsource
    exact {
      someEntry := List.cons_ne_nil _ _
      entryPoints := fun path hpath => ⟨_, List.mem_singleton.mp hpath⟩
      ordered := EntrySet.ordered_empty.insert _
      entryPointsDeclared := by
        simp [ofParts, Subject.ofFile, Subject.isDeclared, EntrySet.allDeclarations,
          EntrySet.isEmpty, EntrySet.insert, EntrySet.insertPath, EntrySet.empty]
      manifests := rfl
      linkPlugins := hmeets.nodup_linkPlugins
      exclusive := hplugins.2
      moduleNames := hnames }
  · obtain ⟨hsome, hall⟩ := Subject.forall_entryPoints (P := FilePath.IsNormalized)
      (fun place => ⟨_, rfl⟩) hpackage
    obtain ⟨manifest, set, names, -, hset, -, rfl⟩ := Subject.ofManifest_eq_ok_iff.mp hpackage
    exact {
      someEntry := hsome
      entryPoints := fun path hpath => (hall path hpath).1
      ordered := Entry.ordered_of_collect hset
      entryPointsDeclared := rfl
      manifests := rfl
      linkPlugins := hmeets.nodup_linkPlugins
      exclusive := hplugins.2
      moduleNames := hnames }

/-! ## Which configurations can be merged -/

/-- There are configurations, no two of them give one module different names, and there are
not both plugins that exclude each other. -/
structure Compatible (configs : List Config) : Prop where
  nonempty : configs ≠ []
  moduleNames : ∀ config ∈ configs, ∀ other ∈ configs, ∀ module name display,
    config.moduleNames.get? module = some name → other.moduleNames.get? module = some display →
      name = display
  exclusive : ¬ ((∃ config ∈ configs, .dom ∈ config.linkPlugins) ∧
    ∃ config ∈ configs, .worker ∈ config.linkPlugins)

/-- The order of configurations does not matter. -/
theorem Compatible.perm {others : List Config} (hperm : configs.Perm others)
    (h : Compatible configs) : Compatible others where
  nonempty := fun hnil => h.nonempty ((hnil ▸ hperm).eq_nil)
  moduleNames := fun config hconfig other hother =>
    h.moduleNames config (hperm.mem_iff.mpr hconfig) other (hperm.mem_iff.mpr hother)
  exclusive := by
    simpa only [hperm.mem_iff] using h.exclusive

/-- The tables of configurations agree when the entries of all of them do. -/
theorem pairwise_agree_iff (hdistinct : ∀ config ∈ configs, config.moduleNames.Distinct) :
    (configs.flatMap (·.moduleNames.entries)).Pairwise ModuleNames.Agree ↔
      ∀ config ∈ configs, ∀ other ∈ configs, ∀ module name display,
        config.moduleNames.get? module = some name →
          other.moduleNames.get? module = some display → name = display := by
  have hmem : ∀ config ∈ configs, ∀ entry, entry ∈ config.moduleNames.entries ↔
      config.moduleNames.get? entry.1 = some entry.2 :=
    fun config hconfig entry => ModuleNames.mem_entries_iff (hdistinct config hconfig)
  have hself : ∀ config ∈ configs, ∀ entry ∈ config.moduleNames.entries,
      ∀ last ∈ config.moduleNames.entries, ModuleNames.Agree entry last := by
    intro config hconfig entry hentry last hlast hsame
    have hfirst := (hmem config hconfig entry).mp hentry
    rw [hsame, (hmem config hconfig last).mp hlast] at hfirst
    exact (Option.some.inj hfirst).symm
  have hsymm : Std.Symm fun config other : Config => ∀ entry ∈ config.moduleNames.entries,
      ∀ last ∈ other.moduleNames.entries, ModuleNames.Agree entry last :=
    ⟨fun _ _ hagree last hlast entry hentry hsame =>
      (hagree entry hentry last hlast hsame.symm).symm⟩
  rw [List.pairwise_flatMap]
  constructor
  · rintro ⟨-, hpairs⟩ config hconfig other hother module name display hname hdisplay
    exact hpairs.forall_of_forall hself hconfig hother
      (module, name) ((hmem config hconfig _).mpr hname)
      (module, display) ((hmem other hother _).mpr hdisplay) rfl
  · intro hall
    refine ⟨fun config hconfig => List.pairwise_of_forall_mem_list (hself config hconfig),
      List.pairwise_of_forall_mem_list fun config hconfig other hother => ?_⟩
    intro entry hentry last hlast hsame
    have hname := (hmem config hconfig entry).mp hentry
    rw [hsame] at hname
    exact hall config hconfig other hother last.1 _ _ hname ((hmem other hother last).mp hlast)

/-! ## The union -/

/-- A configuration is the union of others: their entry points in order, their manifests,
plugins and display names where they are first listed, and all other settings of the first
one, without a name and a path. -/
structure UnionOf (configs : List Config) (result : Config) : Prop where
  entryPoints : ∀ path, path ∈ result.entryPoints.paths ↔
    ∃ config ∈ configs, path ∈ config.entryPoints.paths
  ordered : result.entryPoints.Ordered
  manifests : result.manifests = (configs.flatMap (·.manifests)).eraseDupsBy FilePath.same
  linkPlugins : result.linkPlugins = (configs.flatMap (·.linkPlugins)).eraseDups
  moduleNames : result.moduleNames.entries =
    (configs.flatMap (·.moduleNames.entries)).eraseDupsBy fun entry other => entry.1 == other.1
  entryPointsDeclared : result.entryPointsDeclared = configs.all (·.entryPointsDeclared)
  allDeclarations : result.entryPointsDeclared = result.entryPoints.allDeclarations
  fromPackage : result.fromPackage = configs.all (·.fromPackage)
  name : result.name = none
  path : result.path = none
  hasCompilerOptions : result.hasCompilerOptions = true ↔ result.compilerOptions ≠ []
  others : ∀ first, configs.head? = some first →
    result.condition = first.condition ∧ result.output = first.output ∧
      result.compilerOptions = first.compilerOptions ∧
      result.unsetCompilerOptions = first.unsetCompilerOptions ∧
      result.navigation = first.navigation ∧ result.tsconfig = first.tsconfig ∧
      result.typedocJson = first.typedocJson ∧ result.typedocOptions = first.typedocOptions ∧
      result.policy = first.policy

theorem ordered_foldl_union {set : EntrySet} (h : set.Ordered) (configs : List Config) :
    (configs.foldl (fun set config => set.union config.entryPoints) set).Ordered := by
  induction configs generalizing set with
  | nil => exact h
  | cons config rest ih => exact ih (h.union config.entryPoints)

section First

variable {first : Config} {rest : List Config}

/-- The first configuration is united like the others. -/
theorem unitePlugins_first (hfirst : first.Mergeable) :
    unitePlugins first.linkPlugins (rest.flatMap (·.linkPlugins)) =
      ((first :: rest).flatMap (·.linkPlugins)).eraseDups := by
  have hnothing : first.linkPlugins.foldl LinkPlugin.addTo [] = first.linkPlugins :=
    LinkPlugin.foldl_addTo_of_nodup hfirst.linkPlugins
  rw [← LinkPlugin.foldl_addTo_nil, List.flatMap_cons, List.foldl_append, hnothing]
  rfl

theorem unitePaths_first (hfirst : first.Mergeable) :
    unitePaths first.manifests (rest.flatMap (·.manifests)) =
      ((first :: rest).flatMap (·.manifests)).eraseDupsBy FilePath.same := by
  rw [← unitePaths_nil, List.flatMap_cons, unitePaths_append, unitePaths_nil first.manifests,
    hfirst.manifests]

theorem insertAll_first (hfirst : first.Mergeable) {names : ModuleNames} :
    first.moduleNames.insertAll (rest.flatMap (·.moduleNames.entries)) = (names, none) ↔
      ModuleNames.empty.insertAll ((first :: rest).flatMap (·.moduleNames.entries)) =
        (names, none) := by
  have hown : ModuleNames.empty.insertAll first.moduleNames.entries =
      (first.moduleNames, none) := ModuleNames.insertAll_of_nodup hfirst.moduleNames
  rw [List.flatMap_cons, ModuleNames.insertAll_append_eq_iff, hown]
  constructor
  · exact fun h => ⟨_, rfl, h⟩
  · rintro ⟨middle, hmiddle, h⟩
    rwa [(Prod.mk.inj hmiddle).1]

/-- A merge gives the first configuration with all that the others list, if plugins and names
of all of them go together. -/
theorem merge_eq_ok_iff (hfirst : first.Mergeable) {result : Config} :
    (merge (first :: rest)).outcome = .ok result ↔
      ∃ names, ModuleNames.empty.insertAll ((first :: rest).flatMap (·.moduleNames.entries)) =
          (names, none) ∧
        LinkPlugin.checkExclusive ((first :: rest).flatMap (·.linkPlugins)).eraseDups = .ok () ∧
        result = (first.uniteAll rest names).anonymous := by
  rw [merge_cons_eq_ok_iff]
  simp only [foldlM_mergeOne_eq_ok_iff hfirst.exclusive, insertAll_first hfirst,
    unitePlugins_first hfirst]
  constructor
  · rintro ⟨_, ⟨names, hnames, hexclusive, rfl⟩, rfl⟩
    exact ⟨names, hnames, hexclusive, rfl⟩
  · rintro ⟨names, hnames, hexclusive, rfl⟩
    exact ⟨_, ⟨names, hnames, hexclusive, rfl⟩, rfl⟩

/-- What is united is the union of the configurations. -/
theorem unionOf_uniteAll (hmergeable : ∀ config ∈ first :: rest, config.Mergeable)
    {names : ModuleNames}
    (hnames : ModuleNames.empty.insertAll ((first :: rest).flatMap (·.moduleNames.entries)) =
      (names, none)) : UnionOf (first :: rest) (first.uniteAll rest names).anonymous := by
  obtain ⟨hfirst, hrest⟩ := List.forall_mem_cons.mp hmergeable
  have hentries : ∀ path, path ∈ (first.uniteAll rest names).entryPoints.paths ↔
      ∃ config ∈ first :: rest, path ∈ config.entryPoints.paths := by
    intro path
    rw [List.exists_mem_cons_iff]
    exact EntrySet.mem_foldl_union_iff hfirst.entryPoints
      fun config hconfig => (hrest config hconfig).entryPoints
  have hdeclared : (first.uniteAll rest names).entryPointsDeclared =
      (first.uniteAll rest names).entryPoints.allDeclarations := by
    rw [Bool.eq_iff_iff, EntrySet.allDeclarations_eq_true_iff]
    show (first :: rest).all (·.entryPointsDeclared) = true ↔ _
    rw [List.all_eq_true]
    constructor
    · intro hall
      obtain ⟨path, hpath⟩ := List.exists_mem_of_ne_nil _ hfirst.someEntry
      refine ⟨List.ne_nil_of_mem ((hentries path).mpr ⟨first, List.mem_cons_self, hpath⟩), ?_⟩
      intro path hpath
      obtain ⟨config, hconfig, hmem⟩ := (hentries path).mp hpath
      have hflag := hall config hconfig
      rw [(hmergeable config hconfig).entryPointsDeclared] at hflag
      exact (EntrySet.allDeclarations_eq_true_iff.mp hflag).2 path hmem
    · rintro ⟨-, hall⟩ config hconfig
      have hvalid := hmergeable config hconfig
      rw [hvalid.entryPointsDeclared, EntrySet.allDeclarations_eq_true_iff]
      exact ⟨hvalid.someEntry, fun path hpath => hall path ((hentries path).mpr
        ⟨config, hconfig, hpath⟩)⟩
  exact {
    entryPoints := hentries
    ordered := ordered_foldl_union hfirst.ordered rest
    manifests := unitePaths_first hfirst
    linkPlugins := unitePlugins_first hfirst
    moduleNames := (ModuleNames.insertAll_empty_eq_iff.mp hnames).2
    entryPointsDeclared := rfl
    allDeclarations := hdeclared
    fromPackage := rfl
    name := rfl
    path := rfl
    hasCompilerOptions := by
      show (!first.compilerOptions.isEmpty) = true ↔ first.compilerOptions ≠ []
      simp
    others := by
      intro head hhead
      obtain rfl := Option.some.inj hhead
      exact ⟨rfl, rfl, rfl, rfl, rfl, rfl, rfl, rfl, rfl⟩ }

end First

/-- Such configurations can be merged when they are compatible. -/
theorem exists_merge_iff (hmergeable : ∀ config ∈ configs, config.Mergeable) :
    (∃ result, (merge configs).outcome = .ok result) ↔ Compatible configs := by
  have hnames := pairwise_agree_iff fun config hconfig => (hmergeable config hconfig).moduleNames
  have hplugins : ∀ plugin, plugin ∈ (configs.flatMap (·.linkPlugins)).eraseDups ↔
      ∃ config ∈ configs, plugin ∈ config.linkPlugins := by
    intro plugin
    rw [List.mem_eraseDups, List.mem_flatMap]
  cases configs with
  | nil =>
    constructor
    · rintro ⟨result, hresult⟩
      cases hresult
    · exact fun h => absurd rfl h.nonempty
  | cons first rest =>
    have hmerge := @merge_eq_ok_iff first rest (hmergeable first List.mem_cons_self)
    constructor
    · rintro ⟨result, hresult⟩
      obtain ⟨names, hall, hexclusive, -⟩ := hmerge.mp hresult
      refine ⟨List.cons_ne_nil _ _,
        hnames.mp (ModuleNames.insertAll_empty_eq_iff.mp hall).1, ?_⟩
      rw [← hplugins, ← hplugins]
      exact LinkPlugin.checkExclusive_eq_ok_iff.mp hexclusive
    · rintro ⟨-, hagree, hexclusive⟩
      rw [← hplugins, ← hplugins] at hexclusive
      exact ⟨_, hmerge.mpr ⟨⟨_⟩,
        ModuleNames.insertAll_empty_eq_iff.mpr ⟨hnames.mpr hagree, rfl⟩,
        LinkPlugin.checkExclusive_eq_ok_iff.mpr hexclusive, rfl⟩⟩

/-- The merge of configurations from validations succeeds when they are compatible, in
whatever order they stand, and is their union. -/
theorem merge_unites (configs : List Config) (hvalidated : ∀ config ∈ configs, config.Validated) :
    ((∃ result, (merge configs).outcome = .ok result) ↔ Compatible configs) ∧
      (∀ others, configs.Perm others → ((∃ result, (merge configs).outcome = .ok result) ↔
        ∃ result, (merge others).outcome = .ok result)) ∧
      ∀ result, (merge configs).outcome = .ok result → UnionOf configs result := by
  have hmergeable : ∀ config ∈ configs, config.Mergeable :=
    fun config hconfig => (hvalidated config hconfig).mergeable
  refine ⟨exists_merge_iff hmergeable, ?_, ?_⟩
  · intro others hperm
    rw [exists_merge_iff hmergeable,
      exists_merge_iff fun config hconfig => hmergeable config (hperm.mem_iff.mpr hconfig)]
    exact ⟨Compatible.perm hperm, Compatible.perm hperm.symm⟩
  · intro result hresult
    cases configs with
    | nil => cases hresult
    | cons first rest =>
      obtain ⟨names, hnames, -, rfl⟩ :=
        (merge_eq_ok_iff (hmergeable first List.mem_cons_self)).mp hresult
      exact unionOf_uniteAll hmergeable hnames

/-- The request for a package of the example, with a link plugin. -/
def packageRequest (path plugin : String) : Request where
  path := some (FilePath.ofString path)
  linkPlugins := some [plugin]

theorem merge_unites_of_packages :
    ∃ a b result, Validated a ∧ Validated b ∧ (merge [a, b]).outcome = .ok result ∧
      result.entryPoints.paths.map FilePath.toString = ["/a/a.d.ts", "/b/b.ts"] ∧
      result.linkPlugins = [.node, .dom] ∧ Compatible [b, a] ∧ UnionOf [a, b] result := by
  have hfound : ((validate Plan.exampleSite (packageRequest "/a" "node")).outcome.toOption.bind
      fun a => (validate Plan.exampleSite (packageRequest "/b" "dom")).outcome.toOption.bind
        fun b => (merge [a, b]).outcome.toOption.map fun result =>
          (result.entryPoints.paths.map FilePath.toString, result.linkPlugins)) =
      some (["/a/a.d.ts", "/b/b.ts"], [.node, .dom]) := by decide +kernel
  obtain ⟨a, ha, hfound⟩ := Option.bind_eq_some_iff.mp hfound
  obtain ⟨b, hb, hfound⟩ := Option.bind_eq_some_iff.mp hfound
  obtain ⟨result, hresult, hfields⟩ := Option.map_eq_some_iff.mp hfound
  obtain ⟨hentries, hplugins⟩ := Prod.mk.inj hfields
  have hvalid : Validated a := ⟨_, _, _, Error.toOption_eq_some_iff.mp ha⟩
  have hvalid' : Validated b := ⟨_, _, _, Error.toOption_eq_some_iff.mp hb⟩
  have hmerge := Error.toOption_eq_some_iff.mp hresult
  have hall : ∀ config ∈ [a, b], config.Validated :=
    List.forall_mem_cons.mpr ⟨hvalid, List.forall_mem_singleton.mpr hvalid'⟩
  obtain ⟨hcompatible, -, hunion⟩ := merge_unites [a, b] hall
  exact ⟨a, b, result, hvalid, hvalid', hmerge, hentries, hplugins,
    (hcompatible.mp ⟨result, hmerge⟩).perm (.swap b a []), hunion result hmerge⟩

/-- What is seen of two packages, of their merge and of its reports. -/
def mergedWith {α : Type} (site : Site) (first other : Request)
    (view : Config → Config → Config → List Diagnostic → α) : Option α :=
  (validate site first).outcome.toOption.bind fun a =>
    (validate site other).outcome.toOption.bind fun b =>
      (merge [a, b]).outcome.toOption.map fun result =>
        view a b result (merge [a, b]).diagnostics

theorem exists_of_mergedWith {α : Type} {site : Site} {first other : Request}
    {view : Config → Config → Config → List Diagnostic → α} {seen : α}
    (h : mergedWith site first other view = some seen) :
    ∃ a b result, (validate site first).outcome = .ok a ∧ (validate site other).outcome = .ok b ∧
      (merge [a, b]).outcome = .ok result ∧ view a b result (merge [a, b]).diagnostics = seen := by
  obtain ⟨a, ha, h⟩ := Option.bind_eq_some_iff.mp h
  obtain ⟨b, hb, h⟩ := Option.bind_eq_some_iff.mp h
  obtain ⟨result, hresult, hseen⟩ := Option.map_eq_some_iff.mp h
  exact ⟨a, b, result, Error.toOption_eq_some_iff.mp ha, Error.toOption_eq_some_iff.mp hb,
    Error.toOption_eq_some_iff.mp hresult, hseen⟩

end DocPlan.Config
