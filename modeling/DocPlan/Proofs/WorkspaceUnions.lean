import Mathlib.Data.List.Forall2
import DocPlan.Proofs.AlikeMerges
import DocPlan.Proofs.Catalogue
import DocPlan.Proofs.DistinctKeys

/-!
# A run over a workspace unites the runs of its members

Every member of a workspace is validated with the same request, but for its path, and the
settings of a request do not depend on the path. So the configurations of the members share
everything that is not said of a package alone (`Plan.packageOf_member`): the merge succeeds,
has no setting to ignore, and unites the packages.

Main result: `Plan.run_unites_members`.
-/

namespace DocPlan

/-! ## Settings and packages -/

/-- What the configurations of packages share under some settings. -/
def Settings.common (settings : Settings) : Config :=
  Config.ofParts settings ⟨none, none, .empty, [], settings.moduleNames⟩

/-- Settings that a request may have can be merged with themselves. -/
theorem Settings.Meets.selfMergeable {site : Site} {request : Request} {settings : Settings}
    (h : Meets site CompilerOptions.check request settings) : settings.common.SelfMergeable where
  path := rfl
  hasCompilerOptions := rfl
  moduleNames := ModuleNames.distinct_ofList h.moduleNames
  exclusive := (LinkPlugin.resolve_eq_ok_iff.mp h.linkPlugins).2

namespace Plan

open Config

variable {site : Site} {request : Request}

/-- The manifest that a member of a workspace leads to. -/
def memberManifest (site : Site) (member : FilePath) : FilePath :=
  if site.files.isDirectory (site.absolute member) then (site.absolute member).join manifestName
  else site.absolute member

/-- Several members are validated without a name. -/
theorem memberRequest_of_several (request : Request) (member : FilePath) :
    memberRequest request false member = { request with path := some member, name := none } := rfl

/-- The path of a request plays no part in its settings. -/
theorem settings_of_member (site : Site) (request : Request) (member : FilePath) :
    Settings.ofRequest site CompilerOptions.check
        { request with path := some member, name := none } =
      Settings.ofRequest site CompilerOptions.check { request with name := none } := rfl

theorem exists_settings_of_member {member : FilePath} {config : Config}
    (h : (validate site { request with path := some member, name := none }).outcome =
      .ok config) :
    ∃ settings,
      Settings.Meets site CompilerOptions.check { request with name := none } settings := by
  obtain ⟨settings, subject, hsettings, -, -⟩ := validate_eq_ok_iff.mp h
  rw [settings_of_member] at hsettings
  exact ⟨settings, Settings.ofRequest_eq_ok_iff.mp hsettings⟩

/-- A member of a workspace is a package under the settings that all members have. -/
theorem packageOf_member {settings : Settings} {member : FilePath} {config : Config}
    (hmeets : Settings.Meets site CompilerOptions.check { request with name := none } settings)
    (hmember : Workspaces.IsMember member)
    (h : (validate site { request with path := some member, name := none }).outcome =
      .ok config) :
    PackageOf settings.common config ∧ config.manifests = [memberManifest site member] := by
  obtain ⟨found, subject, hfound, hsubject, rfl⟩ := validate_eq_ok_iff.mp h
  rw [settings_of_member, Settings.ofRequest_eq_ok_iff.mpr hmeets] at hfound
  obtain rfl := Except.ok.inj hfound
  rcases Subject.ofRequest_eq_ok_iff.mp hsubject with ⟨path, hsource, -⟩ | ⟨path, hsource, hpackage⟩
  · exact absurd hsource (not_file_of_member hmember rfl)
  · have hpath : path = memberManifest site member := Source.manifest_of_atPath hsource
    have hentries := (Subject.forall_entryPoints (P := FilePath.IsNormalized)
      (fun place => ⟨_, rfl⟩) hpackage).2
    obtain ⟨manifest, set, names, hload, -, hnames, rfl⟩ :=
      Subject.ofManifest_eq_ok_iff.mp hpackage
    have hmanifest : manifest.path = memberManifest site member :=
      (Manifest.path_of_load hload).1.trans hpath
    rw [Subject.namesWithPackage_of_name_eq_none hmeets.name, Except.ok.injEq] at hnames
    subst hnames
    refine ⟨⟨rfl, fun entry hentry => (hentries entry hentry).1, manifest.path, rfl⟩, ?_⟩
    rw [← hmanifest]
    rfl

/-! ## The configurations of the members -/

/-- Some configurations are those of the members of a workspace, each validated without a
name. -/
def ConfigsOf (site : Site) (request : Request) (members : List FilePath)
    (configs : List Config) : Prop :=
  List.Forall₂ (fun member config =>
    (validate site { request with path := some member, name := none }).outcome = .ok config)
    members configs

/-- The members have configurations together when each of them has one. -/
theorem exists_configsOf_iff {members : List FilePath} :
    (∃ configs, ConfigsOf site request members configs) ↔ ∀ member ∈ members, ∃ config,
      (validate site { request with path := some member, name := none }).outcome =
        .ok config := by
  induction members with
  | nil =>
    constructor
    · exact fun _ member hmember => absurd hmember List.not_mem_nil
    · exact fun _ => ⟨[], .nil⟩
  | cons member rest ih =>
    rw [List.forall_mem_cons, ← ih]
    constructor
    · rintro ⟨configs, hconfigs⟩
      cases hconfigs with
      | cons hconfig hothers => exact ⟨⟨_, hconfig⟩, ⟨_, hothers⟩⟩
    · rintro ⟨⟨config, hconfig⟩, ⟨configs, hconfigs⟩⟩
      exact ⟨config :: configs, .cons hconfig hconfigs⟩

theorem memberConfigs_eq_ok_iff {members : List FilePath} {configs : List Config} :
    (memberConfigs site request false members).outcome = .ok configs ↔
      ConfigsOf site request members configs := by
  induction members generalizing configs with
  | nil =>
    constructor
    · intro h
      obtain rfl := Except.ok.inj h
      exact .nil
    · intro h
      cases h
      rfl
  | cons member rest ih =>
    unfold memberConfigs
    simp only [Report.outcome_bind, Error.bind_eq_ok_iff, Report.outcome_pure, Except.ok.injEq]
    constructor
    · rintro ⟨config, hconfig, others, hothers, rfl⟩
      exact .cons hconfig (ih.mp hothers)
    · intro h
      cases h with
      | cons hconfig hothers => exact ⟨_, hconfig, _, ih.mpr hothers, rfl⟩

/-- The members that cannot be validated are why there are no configurations. -/
theorem exists_of_memberConfigs_eq_error {single : Bool} {members : List FilePath} {error : Error}
    (h : (memberConfigs site request single members).outcome = .error error) :
    ∃ member ∈ members,
      (validate site (memberRequest request single member)).outcome = .error error := by
  induction members with
  | nil => cases h
  | cons member rest ih =>
    unfold memberConfigs at h
    rw [Report.outcome_bind] at h
    rcases Error.bind_eq_error_iff.mp h with hmember | ⟨config, -, hrest⟩
    · exact ⟨member, List.mem_cons_self, hmember⟩
    · rw [Report.outcome_bind] at hrest
      rcases Error.bind_eq_error_iff.mp hrest with hothers | ⟨configs, -, hok⟩
      · obtain ⟨other, hother, hfailed⟩ := ih hothers
        exact ⟨other, List.mem_cons_of_mem _ hother, hfailed⟩
      · cases hok

theorem within_memberConfigs (site : Site) (request : Request) (single : Bool)
    (members : List FilePath) :
    Report.Within (Settings.kinds ++ Subject.kinds) (Settings.codes ++ Subject.codes)
      (memberConfigs site request single members) := by
  induction members with
  | nil => exact Report.within_pure _
  | cons member rest ih =>
    exact (within_validate site _).bind fun config => ih.bind fun configs => Report.within_pure _

/-- The configurations of members are packages that share their settings, with the
manifests of the members. -/
theorem packages_of_configsOf {settings : Settings} {members : List FilePath}
    {configs : List Config}
    (hmeets : Settings.Meets site CompilerOptions.check { request with name := none } settings)
    (hmembers : ∀ member ∈ members, Workspaces.IsMember member)
    (h : ConfigsOf site request members configs) :
    (∀ config ∈ configs, PackageOf settings.common config) ∧
      configs.flatMap (·.manifests) = members.map (memberManifest site) := by
  induction h with
  | nil => simp
  | cons hconfig _ ih =>
    obtain ⟨hmember, hrest⟩ := List.forall_mem_cons.mp hmembers
    obtain ⟨hpackages, hmanifests⟩ := ih hrest
    obtain ⟨hpackage, hmanifest⟩ := packageOf_member hmeets hmember hconfig
    refine ⟨List.forall_mem_cons.mpr ⟨hpackage, hpackages⟩, ?_⟩
    rw [List.flatMap_cons, hmanifest, hmanifests]
    rfl

/-- The configurations of the members of a workspace are merged without an error, and what
they are merged to unites them. -/
theorem exists_unites_of_configsOf {members : List FilePath} {configs : List Config}
    (hmembers : ∀ member ∈ members, Workspaces.IsMember member) (hne : members ≠ [])
    (h : ConfigsOf site request members configs) :
    ∃ result, (merge configs).outcome = .ok result ∧ Unites configs result ∧
      result.manifests = (members.map (memberManifest site)).eraseDupsBy FilePath.same := by
  cases h with
  | nil => exact absurd rfl hne
  | cons hconfig hothers =>
    obtain ⟨settings, hmeets⟩ := exists_settings_of_member hconfig
    obtain ⟨hpackages, hmanifests⟩ := packages_of_configsOf hmeets hmembers (.cons hconfig hothers)
    obtain ⟨result, hmerge, hunites⟩ :=
      exists_unites_of_merge hmeets.selfMergeable (List.cons_ne_nil _ _) hpackages
    exact ⟨result, hmerge, hunites, by rw [hunites.manifests, hmanifests]⟩

/-- The merge of such configurations reports nothing, if the request repeats no key. -/
theorem diagnostics_merge_of_configsOf {members : List FilePath} {configs : List Config}
    (hrequest : request.Distinct) (hmembers : ∀ member ∈ members, Workspaces.IsMember member)
    (h : ConfigsOf site request members configs) : (merge configs).diagnostics = [] := by
  cases h with
  | nil => rfl
  | cons hconfig hothers =>
    obtain ⟨settings, hmeets⟩ := exists_settings_of_member hconfig
    have hpackages := (packages_of_configsOf hmeets hmembers (.cons hconfig hothers)).1
    have hdistinct : Request.Distinct { request with name := none } :=
      ⟨hrequest.typedocOptions, hrequest.compilerOptions⟩
    obtain ⟨hcompiler, htypedoc⟩ := hmeets.same_options hdistinct
    exact diagnostics_merge hmeets.selfMergeable hcompiler htypedoc
      fun config hmem => (hpackages config hmem).shared

/-! ## Runs -/

section Run

variable {root : Manifest} {members : List FilePath}

theorem requireMembers_of_ne_nil (root : Manifest) (request : Request) (hne : members ≠ []) :
    requireMembers root request (some members) = .ok members := by
  cases members with
  | nil => exact absurd rfl hne
  | cons member rest => rfl

/-- What a run comes to, once the members of the workspace are found. -/
theorem outcome_run (hroot : (workspaceRoot site request).outcome = .ok root)
    (hmembers : (Workspaces.members site.files root).outcome = .ok (some members))
    (hne : members ≠ []) :
    (run site true request).outcome =
      (memberConfigs site request (members.length == 1) members).outcome >>= fun configs =>
        match configs with
        | [config] => .ok config
        | configs => (merge configs).outcome := by
  unfold run
  rw [outcome_reportFailure, if_pos rfl]
  unfold workspace
  simp only [Report.outcome_bind, Report.outcome_except, Report.outcome_noted]
  rw [hroot]
  show (Workspaces.members site.files root).outcome >>= _ = _
  rw [hmembers]
  show requireMembers root request (some members) >>= _ = _
  rw [requireMembers_of_ne_nil root request hne]
  show (memberConfigs site request (members.length == 1) members).outcome >>= _ = _
  congr
  funext configs
  cases configs with
  | nil => rfl
  | cons first rest => cases rest <;> rfl

/-- A run over one member is the run of that member. -/
theorem outcome_run_of_one {member : FilePath}
    (hroot : (workspaceRoot site request).outcome = .ok root)
    (hmembers : (Workspaces.members site.files root).outcome = .ok (some [member])) :
    (run site true request).outcome =
      (validate site { request with path := some member }).outcome := by
  rw [outcome_run hroot hmembers (List.cons_ne_nil _ _)]
  show (memberConfigs site request true [member]).outcome >>= _ = _
  unfold memberConfigs memberConfigs
  rw [Report.outcome_bind]
  show ((validate site { request with path := some member }).outcome >>= _) >>= _ = _
  cases (validate site { request with path := some member }).outcome with
  | error error => rfl
  | ok config => rfl

/-- A run over several members merges their configurations. -/
theorem outcome_run_of_several (hroot : (workspaceRoot site request).outcome = .ok root)
    (hmembers : (Workspaces.members site.files root).outcome = .ok (some members))
    (hseveral : 2 ≤ members.length) :
    (run site true request).outcome =
      (memberConfigs site request false members).outcome >>= fun configs =>
        (merge configs).outcome := by
  have hne : members ≠ [] := List.ne_nil_of_length_pos (by omega)
  have hsingle : (members.length == 1) = false := beq_false_of_ne (by omega)
  rw [outcome_run hroot hmembers hne, hsingle]
  cases hconfigs : (memberConfigs site request false members).outcome with
  | error error => rfl
  | ok configs =>
    have hlength := (memberConfigs_eq_ok_iff.mp hconfigs).length_eq
    cases configs with
    | nil => rfl
    | cons first rest =>
      cases rest with
      | nil =>
        rw [List.length_singleton] at hlength
        omega
      | cons second others => rfl

/-- A run over several members with configurations is the merge of these. -/
theorem outcome_run_of_configsOf (hroot : (workspaceRoot site request).outcome = .ok root)
    (hmembers : (Workspaces.members site.files root).outcome = .ok (some members))
    (hseveral : 2 ≤ members.length) {configs : List Config}
    (hconfigs : ConfigsOf site request members configs) :
    (run site true request).outcome = (merge configs).outcome := by
  rw [outcome_run_of_several hroot hmembers hseveral, memberConfigs_eq_ok_iff.mpr hconfigs]
  rfl

/-- A run over several members unites their configurations. -/
theorem exists_unites_of_run (hroot : (workspaceRoot site request).outcome = .ok root)
    (hmembers : (Workspaces.members site.files root).outcome = .ok (some members))
    (hseveral : 2 ≤ members.length) {configs : List Config}
    (hconfigs : ConfigsOf site request members configs) :
    ∃ result, (merge configs).outcome = .ok result ∧ (run site true request).outcome = .ok result ∧
      Unites configs result ∧
      result.manifests = (members.map (memberManifest site)).eraseDupsBy FilePath.same := by
  have hne : members ≠ [] := List.ne_nil_of_length_pos (by omega)
  obtain ⟨result, hmerge, hunites, hmanifests⟩ :=
    exists_unites_of_configsOf (Workspaces.isMember_of_members hmembers) hne hconfigs
  have hrun := outcome_run_of_configsOf hroot hmembers hseveral hconfigs
  exact ⟨result, hmerge, hrun.trans hmerge, hunites, hmanifests⟩

/-- A run over several members succeeds when each of them has a configuration. -/
theorem exists_run_iff (hroot : (workspaceRoot site request).outcome = .ok root)
    (hmembers : (Workspaces.members site.files root).outcome = .ok (some members))
    (hseveral : 2 ≤ members.length) :
    (∃ result, (run site true request).outcome = .ok result) ↔
      ∃ configs, ConfigsOf site request members configs := by
  constructor
  · rintro ⟨result, hresult⟩
    rw [outcome_run_of_several hroot hmembers hseveral] at hresult
    obtain ⟨configs, hconfigs, -⟩ := Error.bind_eq_ok_iff.mp hresult
    exact ⟨configs, memberConfigs_eq_ok_iff.mp hconfigs⟩
  · rintro ⟨configs, hconfigs⟩
    obtain ⟨result, -, hrun, -, -⟩ := exists_unites_of_run hroot hmembers hseveral hconfigs
    exact ⟨result, hrun⟩

/-- A run over several members fails for an error of one of them. -/
theorem exists_member_of_run_eq_error (hroot : (workspaceRoot site request).outcome = .ok root)
    (hmembers : (Workspaces.members site.files root).outcome = .ok (some members))
    (hseveral : 2 ≤ members.length) {error : Error}
    (h : (run site true request).outcome = .error error) :
    ∃ member ∈ members,
      (validate site { request with path := some member, name := none }).outcome =
        .error error := by
  have hrun := h
  rw [outcome_run_of_several hroot hmembers hseveral] at hrun
  rcases Error.bind_eq_error_iff.mp hrun with hfailed | ⟨configs, hconfigs, -⟩
  · obtain ⟨member, hmember, hvalidate⟩ := exists_of_memberConfigs_eq_error hfailed
    rw [memberRequest_of_several] at hvalidate
    exact ⟨member, hmember, hvalidate⟩
  · obtain ⟨result, -, hresult, -, -⟩ := exists_unites_of_run hroot hmembers hseveral
      (memberConfigs_eq_ok_iff.mp hconfigs)
    rw [h] at hresult
    cases hresult

/-! ### Diagnostics -/

/-- The diagnostics that say that a setting is ignored. -/
def ignored (diagnostics : List Diagnostic) : List Diagnostic :=
  diagnostics.filter (·.code = "MERGE_SETTING_IGNORED")

theorem ignored_append (front back : List Diagnostic) :
    ignored (front ++ back) = ignored front ++ ignored back := List.filter_append _ _

theorem ignored_failureDiagnostics (error : Error) : ignored (failureDiagnostics error) = [] := by
  apply List.filter_eq_nil_iff.mpr
  intro diagnostic hmem
  cases error with
  | invalidCompilerOptions problems =>
    obtain ⟨problem, -, rfl⟩ := List.mem_map.mp hmem
    simp
  | _ =>
    obtain rfl := List.mem_singleton.mp hmem
    simp [Error.code]

theorem ignored_reportFailure {α : Type} (report : Report α) :
    ignored (reportFailure report).diagnostics = ignored report.diagnostics := by
  unfold reportFailure
  split
  next => rfl
  next error _ =>
    rw [ignored_append, ignored_failureDiagnostics, List.append_nil]

theorem ignored_of_within {α : Type} {kinds : List (Severity × String)}
    {codes : List String} {report : Report α} (h : report.Within kinds codes)
    (hout : ∀ kind ∈ kinds, kind.2 ≠ "MERGE_SETTING_IGNORED") :
    ignored report.diagnostics = [] :=
  Diagnostic.filter_code_eq_nil h.diagnostics hout

/-- The diagnostic about the name of a request. -/
def ignoredName : Diagnostic :=
  ⟨.warn, "MERGE_SETTING_IGNORED",
    "'name' names a single package; ignoring it for a multi-package run"⟩

theorem ignored_reportIgnoredName (request : Request) (hseveral : 2 ≤ members.length) :
    ignored (reportIgnoredName request members).diagnostics =
      if request.name.isSome then [ignoredName] else [] := by
  have hmany : decide (1 < members.length) = true := decide_eq_true hseveral
  unfold reportIgnoredName
  rw [hmany, Bool.and_true]
  cases request.name.isSome <;> rfl

/-- The last stage of a run reports nothing. -/
theorem diagnostics_united (hrequest : request.Distinct)
    (hmembers : ∀ member ∈ members, Workspaces.IsMember member) (configs : List Config) :
    ConfigsOf site request members configs →
      (match configs with
        | [config] => pure config
        | configs => merge configs : Report Config).diagnostics = [] := by
  intro hconfigs
  have hmerge := diagnostics_merge_of_configsOf hrequest hmembers hconfigs
  cases configs with
  | nil => exact hmerge
  | cons first rest =>
    cases rest with
    | nil => rfl
    | cons second others => exact hmerge

/-- Of the settings that a merge may ignore, a run over several members ignores the name
only. -/
theorem ignored_run (hrequest : request.Distinct)
    (hroot : (workspaceRoot site request).outcome = .ok root)
    (hmembers : (Workspaces.members site.files root).outcome = .ok (some members))
    (hseveral : 2 ≤ members.length) :
    ignored (run site true request).diagnostics =
      if request.name.isSome then [ignoredName] else [] := by
  have hne : members ≠ [] := List.ne_nil_of_length_pos (by omega)
  have hsingle : (members.length == 1) = false := beq_false_of_ne (by omega)
  have hname := ignored_reportIgnoredName request hseveral
  unfold run
  rw [ignored_reportFailure, if_pos rfl]
  unfold workspace
  simp only [Report.diagnostics_bind, hroot, hmembers, Report.outcome_except,
    requireMembers_of_ne_nil root request hne, Report.outcome_noted, hsingle]
  rw [ignored_append, ignored_append, ignored_append, ignored_append, ignored_append,
    ignored_of_within (within_workspaceRoot site request) (by decide),
    ignored_of_within (Workspaces.within_members site.files root) (by decide),
    ignored_of_within (within_memberConfigs site request false members) (by decide)]
  cases hconfigs : (memberConfigs site request false members).outcome with
  | error error => exact (List.append_nil _).trans hname
  | ok configs =>
    have hunited := diagnostics_united hrequest (Workspaces.isMember_of_members hmembers) configs
      (memberConfigs_eq_ok_iff.mp hconfigs)
    have hlast := congrArg (fun diagnostics =>
      ignored (reportIgnoredName request members).diagnostics ++ ignored diagnostics) hunited
    exact hlast.trans ((List.append_nil _).trans hname)

end Run

/-- A run over the members of a workspace unites the runs of the members. With one member it
is the run of that member. With several, the run succeeds when each of them does, its only
errors are theirs, the merge of their configurations has no error of its own, the result
unites them, and of the settings that a merge may ignore it ignores the name only. -/
theorem run_unites_members (site : Site) (request : Request) (root : Manifest)
    (members : List FilePath) (hroot : (workspaceRoot site request).outcome = .ok root)
    (hmembers : (Workspaces.members site.files root).outcome = .ok (some members)) :
    (∀ member, members = [member] → (run site true request).outcome =
      (validate site { request with path := some member }).outcome) ∧
    (2 ≤ members.length →
      ((∃ result, (run site true request).outcome = .ok result) ↔
        ∀ member ∈ members, ∃ config,
          (validate site { request with path := some member, name := none }).outcome =
            .ok config) ∧
      (∀ error, (run site true request).outcome = .error error → ∃ member ∈ members,
        (validate site { request with path := some member, name := none }).outcome =
          .error error) ∧
      (∀ configs, ConfigsOf site request members configs → ∃ result,
        (merge configs).outcome = .ok result ∧ (run site true request).outcome = .ok result ∧
        Unites configs result ∧
        result.manifests = (members.map (memberManifest site)).eraseDupsBy FilePath.same) ∧
      (request.Distinct → ignored (run site true request).diagnostics =
        if request.name.isSome then [ignoredName] else [])) := by
  constructor
  · intro member hone
    subst hone
    exact outcome_run_of_one hroot hmembers
  · intro hseveral
    rw [← exists_configsOf_iff]
    exact ⟨exists_run_iff hroot hmembers hseveral,
      fun error herror => exists_member_of_run_eq_error hroot hmembers hseveral herror,
      fun configs hconfigs => exists_unites_of_run hroot hmembers hseveral hconfigs,
      fun hrequest => ignored_run hrequest hroot hmembers hseveral⟩

/-- A request with a name, which the two packages of the example cannot share. -/
def namedRequest : Request where
  name := some "N"

theorem run_unites_members_of_example :
    ∃ root configs result,
      (workspaceRoot exampleSite namedRequest).outcome = .ok root ∧
      (Workspaces.members exampleSite.files root).outcome = .ok (some
        [FilePath.ofString "/a/package.json", FilePath.ofString "/b/package.json"]) ∧
      ConfigsOf exampleSite namedRequest
        [FilePath.ofString "/a/package.json", FilePath.ofString "/b/package.json"] configs ∧
      (run exampleSite true namedRequest).outcome = .ok result ∧ Unites configs result ∧
      ignored (run exampleSite true namedRequest).diagnostics = [ignoredName] := by
  have hfound : (workspaceRoot exampleSite namedRequest >>= fun root =>
      Workspaces.members exampleSite.files root).outcome.toOption = some (some
        [FilePath.ofString "/a/package.json", FilePath.ofString "/b/package.json"]) := by
    decide +kernel
  have hvalid : (run exampleSite true namedRequest).outcome.toOption.isSome = true := by
    decide +kernel
  have hsteps := Error.toOption_eq_some_iff.mp hfound
  rw [Report.outcome_bind] at hsteps
  obtain ⟨root, hroot, hmembers⟩ := Error.bind_eq_ok_iff.mp hsteps
  obtain ⟨found, hrun⟩ := Option.isSome_iff_exists.mp hvalid
  obtain ⟨haccepts, -, hunites, hignored⟩ :=
    (run_unites_members exampleSite namedRequest root _ hroot hmembers).2 (by decide)
  obtain ⟨configs, hconfigs⟩ := exists_configsOf_iff.mpr
    (haccepts.mp ⟨found, Error.toOption_eq_some_iff.mp hrun⟩)
  obtain ⟨result, -, hresult, hunion, -⟩ := hunites configs hconfigs
  have hdistinct : namedRequest.Distinct := ⟨fun _ h => (nomatch h), fun _ h => (nomatch h)⟩
  exact ⟨root, configs, result, hroot, hmembers, hconfigs, hresult, hunion, hignored hdistinct⟩

end Plan

end DocPlan
