import DocPlan.CommandLine.Run
import DocPlan.Proofs.WorkspaceUnions

/-!
# Display names that flags add

The flags of a command line take the place of what the request in its file sets, but display names
are added to those in the file, and one table is made of both. So a flag may name a module that
the file does not name, or give it the name that it has there. It cannot rename the module: that
is a collision (`CommandLine.Arguments.flag_cannot_rename`).

The display names of a request play no part in a run without a name of its own, apart from the
table that its configuration has. With other display names a configuration is the same but for
this table, and the run fails if there is no such table. This is carried from the settings of a
package (`Settings.outcome_naming`) to the members of a workspace and to their merge
(`Plan.outcome_run_naming`).

Main result: `CommandLine.Arguments.flags_add_names`.
-/

namespace DocPlan

/-! ## Naming more modules -/

namespace ModuleNames

/-- A table of some names and more is that of the former, with the latter added. -/
theorem ofList_append {front : List (String × String)} {names : ModuleNames}
    (h : ofList front = .ok names) (back : List (String × String)) :
    ofList (front ++ back) = Config.uniteNames names ⟨back⟩ := by
  have hfront : empty.insertAll front = (names, none) := by
    unfold ofList at h
    split at h
    next found hfound => rw [hfound, Except.ok.inj h]
    next => cases h
  have hall : empty.insertAll (front ++ back) = names.insertAll back := by
    rw [insertAll_append, hfront]
  unfold ofList
  rw [hall]
  rfl

end ModuleNames

/-! ## Runs with other display names -/

/-- The request with a list of display names in place of its own. -/
def Request.naming (entries : List (String × String)) (request : Request) : Request :=
  { request with moduleNames := some entries }

/-- The configuration with another table of display names. -/
def Config.named (names : ModuleNames) (config : Config) : Config :=
  { config with moduleNames := names }

section

variable {site : Site} {request : Request} {entries : List (String × String)}

/-- The display names are the last of the settings that are checked. -/
theorem Settings.outcome_ofRequest (site : Site) (request : Request) :
    (ofRequest site CompilerOptions.check request).outcome =
      (ofRequest site CompilerOptions.check (request.naming [])).outcome >>= fun settings =>
        (ModuleNames.ofList (request.moduleNames.getD [])).map fun names =>
          { settings with moduleNames := names } := by
  have hempty : ModuleNames.ofList ((request.naming []).moduleNames.getD []) =
      .ok ModuleNames.empty := rfl
  unfold ofRequest
  simp only [Report.outcome_bind, Report.outcome_except, Report.outcome_pure, bind_assoc, hempty]
  cases ModuleNames.ofList (request.moduleNames.getD []) with
  | ok names => rfl
  | error error => rfl

/-- Other display names change the settings of a request in their table alone. -/
theorem Settings.outcome_naming {settings : Settings}
    (h : (ofRequest site CompilerOptions.check request).outcome = .ok settings) :
    (ofRequest site CompilerOptions.check (request.naming entries)).outcome =
      (ModuleNames.ofList entries).map fun names => { settings with moduleNames := names } := by
  rw [outcome_ofRequest] at h
  obtain ⟨plain, hplain, hsettings⟩ := Error.bind_eq_ok_iff.mp h
  obtain ⟨names, -, rfl⟩ := Error.map_eq_ok_iff.mp hsettings
  rw [outcome_ofRequest]
  show (ofRequest site CompilerOptions.check (request.naming [])).outcome >>= _ = _
  rw [hplain]
  rfl

/-- Without a name of its own a subject has the display names of the settings. -/
theorem Subject.moduleNames_eq {settings : Settings} {subject : Subject}
    (hname : settings.name = none)
    (h : (ofRequest site settings request).outcome = .ok subject) :
    subject.moduleNames = settings.moduleNames := by
  rcases ofRequest_eq_ok_iff.mp h with ⟨path, -, rfl⟩ | ⟨path, -, hpackage⟩
  · rfl
  · obtain ⟨manifest, set, found, -, -, hfound, rfl⟩ := ofManifest_eq_ok_iff.mp hpackage
    rw [namesWithPackage_of_name_eq_none hname] at hfound
    exact (Except.ok.inj hfound).symm

/-- Other display names change such a subject in its table alone. -/
theorem Subject.outcome_naming {settings : Settings} {subject : Subject}
    (hname : settings.name = none)
    (h : (ofRequest site settings request).outcome = .ok subject) (names : ModuleNames) :
    (ofRequest site { settings with moduleNames := names } (request.naming entries)).outcome =
      .ok { subject with moduleNames := names } := by
  have hsame : Source.ofRequest site (request.naming entries) = Source.ofRequest site request := rfl
  have hnone : ({ settings with moduleNames := names } : Settings).name = none := hname
  rcases ofRequest_eq_ok_iff.mp h with ⟨path, hsource, rfl⟩ | ⟨path, hsource, hpackage⟩
  · exact ofRequest_eq_ok_iff.mpr (Or.inl ⟨path, hsame.trans hsource, rfl⟩)
  · obtain ⟨manifest, set, found, hload, hset, -, rfl⟩ := ofManifest_eq_ok_iff.mp hpackage
    refine ofRequest_eq_ok_iff.mpr (Or.inr ⟨path, hsame.trans hsource, ?_⟩)
    exact ofManifest_eq_ok_iff.mpr ⟨manifest, set, names, hload, hset,
      namesWithPackage_of_name_eq_none hnone manifest, rfl⟩

namespace Config

variable {config : Config}

/-- The table of a configuration without a requested name is that of the request. -/
theorem ofList_of_validate (hname : request.name = none)
    (h : (validate site request).outcome = .ok config) :
    ModuleNames.ofList (request.moduleNames.getD []) = .ok config.moduleNames := by
  obtain ⟨settings, subject, hsettings, hsubject, rfl⟩ := validate_eq_ok_iff.mp h
  have hmeets := Settings.ofRequest_eq_ok_iff.mp hsettings
  have hnames := Subject.moduleNames_eq (hmeets.name.trans hname) hsubject
  exact hmeets.moduleNames.trans (congrArg Except.ok hnames.symm)

theorem outcome_validate_naming (hname : request.name = none)
    (h : (validate site request).outcome = .ok config) :
    (validate site (request.naming entries)).outcome =
      (ModuleNames.ofList entries).map fun names => config.named names := by
  obtain ⟨settings, subject, hsettings, hsubject, rfl⟩ := validate_eq_ok_iff.mp h
  have hmeets := Settings.ofRequest_eq_ok_iff.mp hsettings
  unfold validate validateWith
  rw [Report.outcome_bind, Settings.outcome_naming hsettings]
  cases ModuleNames.ofList entries with
  | error error => rfl
  | ok names =>
    show (Subject.ofRequest site { settings with moduleNames := names } _ >>= _).outcome = _
    rw [Report.outcome_bind, Subject.outcome_naming (hmeets.name.trans hname) hsubject names]
    rfl

/-! ## Merges with other display names -/

variable {table names : ModuleNames}

theorem uniteNames_self (hdistinct : names.Distinct) : uniteNames names names = .ok names :=
  uniteNames_eq_ok_iff.mpr (ModuleNames.insertAll_of_subset hdistinct fun _ hentry => hentry)

/-- Configurations with one table are merged in the same way if they have another one. -/
theorem outcome_mergeOne_named {merged next : Config} (htable : table.Distinct)
    (hnames : names.Distinct) (hmerged : merged.moduleNames = table)
    (hconfig : config.moduleNames = table) (h : (mergeOne merged config).outcome = .ok next) :
    next.moduleNames = table ∧
      (mergeOne (merged.named names) (config.named names)).outcome = .ok (next.named names) := by
  obtain ⟨found, hfound, hexclusive, rfl⟩ := mergeOne_eq_ok_iff.mp h
  rw [hmerged, hconfig, uniteNames_self htable] at hfound
  refine ⟨(Except.ok.inj hfound).symm, ?_⟩
  exact mergeOne_eq_ok_iff.mpr ⟨names, uniteNames_self hnames, hexclusive, rfl⟩

theorem outcome_foldlM_named {rest : List Config} {merged result : Config}
    (htable : table.Distinct) (hnames : names.Distinct) (hmerged : merged.moduleNames = table)
    (hrest : ∀ config ∈ rest, config.moduleNames = table)
    (h : (rest.foldlM mergeOne merged).outcome = .ok result) :
    ((rest.map (named names)).foldlM mergeOne (merged.named names)).outcome =
      .ok (result.named names) := by
  induction rest generalizing merged with
  | nil =>
    obtain rfl := Except.ok.inj h
    rfl
  | cons config others ih =>
    obtain ⟨hconfig, hothers⟩ := List.forall_mem_cons.mp hrest
    rw [List.foldlM_cons, Report.outcome_bind] at h
    obtain ⟨next, hnext, hlater⟩ := Error.bind_eq_ok_iff.mp h
    obtain ⟨hsame, hnamed⟩ := outcome_mergeOne_named htable hnames hmerged hconfig hnext
    rw [List.map_cons, List.foldlM_cons, Report.outcome_bind, hnamed]
    exact ih hsame hothers hlater

theorem outcome_merge_named {configs : List Config} {result : Config} (htable : table.Distinct)
    (hnames : names.Distinct) (hconfigs : ∀ config ∈ configs, config.moduleNames = table)
    (h : (merge configs).outcome = .ok result) :
    (merge (configs.map (named names))).outcome = .ok (result.named names) := by
  cases configs with
  | nil => cases h
  | cons first rest =>
    obtain ⟨hfirst, hrest⟩ := List.forall_mem_cons.mp hconfigs
    obtain ⟨merged, hmerged, rfl⟩ := merge_cons_eq_ok_iff.mp h
    exact merge_cons_eq_ok_iff.mpr
      ⟨_, outcome_foldlM_named htable hnames hfirst hrest hmerged, rfl⟩

end Config

namespace Plan

/-! ## Runs over packages and workspaces -/

variable {single : Bool} {members : List FilePath} {configs : List Config}

theorem name_memberRequest (hname : request.name = none) (single : Bool) (member : FilePath) :
    (memberRequest request single member).name = none := by
  cases single with
  | true => exact hname
  | false => rfl

theorem memberRequest_naming (request : Request) (entries : List (String × String)) (single : Bool)
    (member : FilePath) : memberRequest (request.naming entries) single member =
      (memberRequest request single member).naming entries :=
  rfl

theorem moduleNames_memberRequest (request : Request) (single : Bool) (member : FilePath) :
    (memberRequest request single member).moduleNames = request.moduleNames :=
  rfl

theorem ofList_of_member {member : FilePath} {config : Config} (hname : request.name = none)
    (h : (Config.validate site (memberRequest request single member)).outcome = .ok config) :
    ModuleNames.ofList (request.moduleNames.getD []) = .ok config.moduleNames := by
  rw [← moduleNames_memberRequest request single member]
  exact Config.ofList_of_validate (name_memberRequest hname single member) h

theorem outcome_member_naming {member : FilePath} {config : Config} (hname : request.name = none)
    (h : (Config.validate site (memberRequest request single member)).outcome = .ok config) :
    (Config.validate site (memberRequest (request.naming entries) single member)).outcome =
      (ModuleNames.ofList entries).map fun names => config.named names := by
  rw [memberRequest_naming]
  exact Config.outcome_validate_naming (name_memberRequest hname single member) h

/-- The table of a run without a requested name is that of the request. -/
theorem ofList_of_run {overWorkspace : Bool} {config : Config} (hname : request.name = none)
    (h : (run site overWorkspace request).outcome = .ok config) :
    ModuleNames.ofList (request.moduleNames.getD []) = .ok config.moduleNames := by
  refine run_induct (P := fun config =>
    ModuleNames.ofList (request.moduleNames.getD []) = .ok config.moduleNames) ?_ ?_ ?_ h
  · exact fun _ config hconfig => Config.ofList_of_validate hname hconfig
  · exact fun _ _ _ _ hconfig => ofList_of_member hname hconfig
  · intro configs result hconfigs hresult
    refine Config.merge_induct ?_ (fun _ hconfig => hconfig) hconfigs hresult
    intro merged config next hmerged hconfig hnext
    have hdistinct := ModuleNames.distinct_ofList hmerged
    have hsame := Except.ok.inj (hconfig.symm.trans hmerged)
    rw [(Config.outcome_mergeOne_named hdistinct hdistinct rfl hsame hnext).1]
    exact hmerged

theorem outcome_memberConfigs_naming (hname : request.name = none) {names : ModuleNames}
    (hnames : ModuleNames.ofList entries = .ok names)
    (h : (memberConfigs site request single members).outcome = .ok configs) :
    (memberConfigs site (request.naming entries) single members).outcome =
      .ok (configs.map (Config.named names)) := by
  induction members generalizing configs with
  | nil =>
    obtain rfl := Except.ok.inj h
    rfl
  | cons member rest ih =>
    unfold memberConfigs at h ⊢
    simp only [Report.outcome_bind, Error.bind_eq_ok_iff, Report.outcome_pure,
      Except.ok.injEq] at h ⊢
    obtain ⟨config, hconfig, others, hothers, rfl⟩ := h
    refine ⟨config.named names, ?_, others.map (Config.named names), ih hothers, rfl⟩
    rw [outcome_member_naming hname hconfig, hnames]
    rfl

/-- Display names that collide do so at the first member. -/
theorem outcome_memberConfigs_of_collision (hname : request.name = none) {error : Error}
    (herror : ModuleNames.ofList entries = .error error) (hne : members ≠ [])
    (h : (memberConfigs site request single members).outcome = .ok configs) :
    (memberConfigs site (request.naming entries) single members).outcome = .error error := by
  cases members with
  | nil => exact absurd rfl hne
  | cons member rest =>
    unfold memberConfigs at h ⊢
    rw [Report.outcome_bind] at h ⊢
    obtain ⟨config, hconfig, -⟩ := Error.bind_eq_ok_iff.mp h
    rw [outcome_member_naming hname hconfig, herror]
    rfl

/-- A run over a workspace that succeeds finds its manifest and some members. -/
theorem exists_members_of_run {config : Config}
    (h : (run site true request).outcome = .ok config) :
    ∃ root members, (workspaceRoot site request).outcome = .ok root ∧
      (Workspaces.members site.files root).outcome = .ok (some members) ∧ members ≠ [] := by
  unfold run workspace at h
  rw [outcome_reportFailure, if_pos rfl] at h
  simp only [Report.outcome_bind, Report.outcome_except] at h
  obtain ⟨root, hroot, h⟩ := Error.bind_eq_ok_iff.mp h
  obtain ⟨found, hfound, h⟩ := Error.bind_eq_ok_iff.mp h
  obtain ⟨members, hmembers, -⟩ := Error.bind_eq_ok_iff.mp h
  unfold requireMembers at hmembers
  split at hmembers
  next => cases hmembers
  next => cases hmembers
  next hne => exact ⟨root, _, hroot, hfound, hne⟩

/-- Without a requested name, other display names change the configuration of a run in its table
alone, and the run fails if they collide. -/
theorem outcome_run_naming {overWorkspace : Bool} {config : Config} (hname : request.name = none)
    (h : (run site overWorkspace request).outcome = .ok config) :
    (run site overWorkspace (request.naming entries)).outcome =
      (ModuleNames.ofList entries).map fun names => config.named names := by
  cases overWorkspace with
  | false =>
    unfold run at h ⊢
    rw [outcome_reportFailure] at h ⊢
    exact Config.outcome_validate_naming hname h
  | true =>
    have htable := ofList_of_run hname h
    have hdistinct := ModuleNames.distinct_ofList htable
    obtain ⟨root, members, hroot, hmembers, hne⟩ := exists_members_of_run h
    have hroot' : (workspaceRoot site (request.naming entries)).outcome = .ok root := hroot
    rw [outcome_run hroot hmembers hne] at h
    rw [outcome_run hroot' hmembers hne]
    obtain ⟨configs, hconfigs, hresult⟩ := Error.bind_eq_ok_iff.mp h
    have htables : ∀ other ∈ configs, other.moduleNames = config.moduleNames := by
      refine forall_memberConfigs ?_ hconfigs
      intro member _ other hother
      exact Except.ok.inj ((ofList_of_member hname hother).symm.trans htable)
    cases hnames : ModuleNames.ofList entries with
    | error error =>
      rw [outcome_memberConfigs_of_collision hname hnames hne hconfigs]
      rfl
    | ok names =>
      rw [outcome_memberConfigs_naming hname hnames hconfigs]
      cases configs with
      | nil => cases hresult
      | cons first rest =>
        cases rest with
        | nil =>
          obtain rfl := Except.ok.inj hresult
          rfl
        | cons second others =>
          exact Config.outcome_merge_named hdistinct (ModuleNames.distinct_ofList hnames) htables
            hresult

end Plan

end

/-! ## Command lines -/

namespace CommandLine.Arguments

variable {arguments : Arguments} {site : Site} {config : Config}

/-- The arguments without the display names that flags give. -/
def withoutNames (arguments : Arguments) : Arguments := { arguments with moduleNames := [] }

/-- The display names of flags follow those of the request in the file. -/
theorem override_eq_naming (hne : arguments.moduleNames ≠ []) (request : Request) :
    arguments.override request = (arguments.withoutNames.override request).naming
      (request.moduleNames.getD [] ++ arguments.moduleNames) := by
  have hsome : arguments.moduleNames.isEmpty = false := List.isEmpty_eq_false_iff.mpr hne
  simp only [override, Request.naming, withoutNames, hsome]
  rfl

theorem outcome_config {request : Request} (h : arguments.baseRequest site = .ok request) :
    (arguments.config site).outcome =
      (Plan.run site arguments.workspaces (arguments.override request)).outcome := by
  unfold config fullRequest
  rw [h]
  rfl

theorem exists_baseRequest (h : (arguments.config site).outcome = .ok config) :
    ∃ request, arguments.baseRequest site = .ok request := by
  cases hrequest : arguments.baseRequest site with
  | ok request => exact ⟨request, rfl⟩
  | error error =>
    unfold Arguments.config fullRequest at h
    rw [hrequest] at h
    cases h

/-- A run with flags has the table of the run without them, with the names of the flags added. -/
theorem outcome_config_withNames
    (hname : ∀ request, arguments.fullRequest site = .ok request → request.name = none)
    (hrun : (arguments.withoutNames.config site).outcome = .ok config) :
    (arguments.config site).outcome =
      (Config.uniteNames config.moduleNames ⟨arguments.moduleNames⟩).map config.named := by
  by_cases hne : arguments.moduleNames = []
  · have hsame : arguments.withoutNames = arguments := by
      unfold withoutNames
      rw [← hne]
    rw [← hsame, hrun]
    rfl
  · obtain ⟨request, hrequest⟩ := exists_baseRequest hrun
    have hbase : arguments.baseRequest site = .ok request := hrequest
    have hfull : arguments.fullRequest site = .ok (arguments.override request) := by
      unfold fullRequest
      rw [hbase]
      rfl
    have hrequested : (arguments.override request).name = none := hname _ hfull
    have hnone : (arguments.withoutNames.override request).name = none := hrequested
    rw [outcome_config hrequest] at hrun
    have htable : ModuleNames.ofList ((arguments.withoutNames.override request).moduleNames.getD [])
        = .ok config.moduleNames := Plan.ofList_of_run hnone hrun
    have hlisted : ModuleNames.ofList (request.moduleNames.getD []) = .ok config.moduleNames :=
      htable
    rw [outcome_config hbase, override_eq_naming hne, ← ModuleNames.ofList_append hlisted]
    exact Plan.outcome_run_naming hnone hrun

/-- A flag gives a module of a table another name. -/
def Renames (arguments : Arguments) (names : ModuleNames) (module existing display : String) :
    Prop :=
  (module, display) ∈ arguments.moduleNames ∧ names.get? module = some existing ∧
    existing ≠ display

/-- Flags for distinct modules add their names to those of the run without them, and leave all else
as it is. They cannot rename a module: a flag that does so makes the run fail for one that
does. -/
theorem flags_add_names (arguments : Arguments) (site : Site) (config : Config)
    (hflags : (Keyed.keys arguments.moduleNames).Nodup)
    (hname : ∀ request, arguments.fullRequest site = .ok request → request.name = none)
    (hrun : (arguments.withoutNames.config site).outcome = .ok config) :
    ((∀ module existing display, ¬ arguments.Renames config.moduleNames module existing display) →
      ∃ names, (arguments.config site).outcome = .ok (config.named names) ∧
        ∀ module, names.get? module =
          (Keyed.get? module arguments.moduleNames).or (config.moduleNames.get? module)) ∧
    ((∃ module existing display,
        arguments.Renames config.moduleNames module existing display) →
      ∃ module existing display, arguments.Renames config.moduleNames module existing display ∧
        (arguments.config site).outcome =
          .error (.moduleNameCollision module existing display)) := by
  rw [outcome_config_withNames hname hrun]
  cases hadded : config.moduleNames.insertAll arguments.moduleNames with
  | mk names failure =>
    cases failure with
    | none =>
      have hunite : Config.uniteNames config.moduleNames ⟨arguments.moduleNames⟩ = .ok names :=
        Config.uniteNames_eq_ok_iff.mpr hadded
      refine ⟨fun _ => ⟨names, ?_, ModuleNames.get?_of_insertAll hadded⟩, ?_⟩
      · rw [hunite]
        rfl
      · rintro ⟨module, existing, display, hmem, hexisting, hdiffers⟩
        have hfree := (ModuleNames.insertAll_eq_iff.mp hadded).1
        exact absurd (hfree (module, display) hmem existing hexisting) hdiffers
    | some error =>
      have hunite : Config.uniteNames config.moduleNames ⟨arguments.moduleNames⟩ =
          .error error := by
        unfold Config.uniteNames ModuleNames.extend
        rw [hadded]
      obtain ⟨front, module, display, rest, existing, hsplit, -, hexisting, hdiffers, rfl⟩ :=
        ModuleNames.exists_collision_of_insertAll hflags hadded
      have hmem : (module, display) ∈ arguments.moduleNames := by
        rw [hsplit]
        exact List.mem_append_right front List.mem_cons_self
      refine ⟨fun hnone => ?_, fun _ => ?_⟩
      · exact absurd ⟨hmem, hexisting, hdiffers⟩ (hnone module existing display)
      · refine ⟨module, existing, display, ⟨hmem, hexisting, hdiffers⟩, ?_⟩
        rw [hunite]
        rfl

/-- A package and a request file that names its module. -/
def namedPackage : Site where
  files := {
    root := .directory [
      ("package.json".toList, .file (Utf8.encode
        "\x7b\"name\":\"p\",\"types\":\"./a.d.ts\"\x7d".toList)),
      ("a.d.ts".toList, .file []),
      ("request.json".toList, .file (Utf8.encode
        "\x7b\"moduleNames\":\x7b\"p\":\"A\"\x7d\x7d".toList))]
    workingDirectory := [] }
  directory := FilePath.ofString "/"

/-- The request file and one flag for a module. -/
def flagged (module display : String) : Arguments where
  request := some (FilePath.ofString "request.json")
  moduleNames := [(module, display)]

theorem flags_add_names_of_other_module :
    ∃ config names, ((flagged "q" "B").withoutNames.config namedPackage).outcome = .ok config ∧
      config.moduleNames.entries = [("p", "A")] ∧
      ((flagged "q" "B").config namedPackage).outcome = .ok (config.named names) ∧
      names.get? "q" = some "B" ∧ names.get? "p" = some "A" := by
  have hfound : ((flagged "q" "B").withoutNames.config namedPackage).outcome.toOption.map
      (·.moduleNames.entries) = some [("p", "A")] := by decide +kernel
  obtain ⟨config, hconfig, hentries⟩ := Option.map_eq_some_iff.mp hfound
  have hrun := Error.toOption_eq_some_iff.mp hconfig
  have hunnamed : ((flagged "q" "B").fullRequest namedPackage).toOption.map (·.name) =
      some none := by decide +kernel
  have hname : ∀ request, (flagged "q" "B").fullRequest namedPackage = .ok request →
      request.name = none := by
    intro request hrequest
    rw [hrequest] at hunnamed
    exact Option.some.inj hunnamed
  have hget : ∀ module, config.moduleNames.get? module = Keyed.get? module [("p", "A")] :=
    fun module => congrArg (Keyed.get? module) hentries
  have hkept : ∀ module existing display,
      ¬ (flagged "q" "B").Renames config.moduleNames module existing display := by
    intro module existing display hrenames
    obtain ⟨hmem, hexisting, -⟩ := hrenames
    obtain ⟨rfl, rfl⟩ := Prod.mk.inj (List.mem_singleton.mp hmem)
    rw [hget] at hexisting
    cases hexisting
  obtain ⟨names, hnames, hall⟩ :=
    (flags_add_names (flagged "q" "B") namedPackage config (by decide) hname hrun).1 hkept
  refine ⟨config, names, hrun, hentries, hnames, ?_, ?_⟩
  · rw [hall]
    rfl
  · rw [hall, hget]
    rfl

/-- A flag that names a module of the request file anew makes a run fail that succeeds without
it. -/
theorem flag_cannot_rename :
    (∃ config, ((flagged "p" "B").withoutNames.config namedPackage).outcome = .ok config ∧
      config.moduleNames.entries = [("p", "A")]) ∧
    ((flagged "p" "B").config namedPackage).outcome =
      .error (.moduleNameCollision "p" "A" "B") := by
  have hfound : ((flagged "p" "B").withoutNames.config namedPackage).outcome.toOption.map
      (·.moduleNames.entries) = some [("p", "A")] := by decide +kernel
  obtain ⟨config, hconfig, hentries⟩ := Option.map_eq_some_iff.mp hfound
  have hfails : ((flagged "p" "B").config namedPackage).outcome.map (fun _ => ()) =
      .error (.moduleNameCollision "p" "A" "B") := by decide +kernel
  exact ⟨⟨config, Error.toOption_eq_some_iff.mp hconfig, hentries⟩,
    Error.map_eq_error_iff.mp hfails⟩

end CommandLine.Arguments

end DocPlan
