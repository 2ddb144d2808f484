import DocPlan.Plan
import DocPlan.Proofs.ExportRoutes
import DocPlan.Proofs.Reports

/-!
# What the stages of a run report and fail with

The kinds of the diagnostics of every stage and the codes of its errors, from the single
fields of a request to the members of a workspace.

Main results: `Settings.within_ofRequest` and `Subject.within_ofRequest`, and from them
`Config.within_validate`; `Config.within_merge`. No stage before a merge reports that the merge
ignores a setting, only the check of compiler options fails for invalid compiler options, and
no stage reports an error: that is left to the end of a run.
-/

namespace DocPlan

/-! ## Requests -/

namespace Request

/-- What is wrong with a request. -/
def codes : List String := ["INVALID_FIELD"]

theorem within_readString (field : String) (value : Json) :
    Error.Within codes (readString field value) := by
  unfold readString
  split
  next => exact Error.within_ok _
  next => exact Error.within_ok _
  next => exact Error.within_error (by simp [Error.code, codes, unexpected])

theorem within_readPath (field : String) (value : Json) :
    Error.Within codes (readPath field value) :=
  (within_readString field value).map _

theorem within_readObject (field : String) (value : Json) :
    Error.Within codes (readObject field value) := by
  unfold readObject
  split
  next => exact Error.within_ok _
  next => exact Error.within_ok _
  next => exact Error.within_error (by simp [Error.code, codes, unexpected])

theorem within_readStrings (field : String) (value : Json) :
    Error.Within codes (readStrings field value) := by
  have hitems : ∀ items, Error.Within codes (readItems field items) := by
    intro items
    fun_induction readItems field items with
    | case1 => exact Error.within_ok _
    | case2 text rest ih => exact ih.map _
    | case3 => exact Error.within_error (by simp [Error.code, codes])
  unfold readStrings
  split
  next => exact Error.within_ok _
  next items => exact (hitems items).map _
  next => exact Error.within_error (by simp [Error.code, codes, unexpected])

theorem within_readNameTable (field : String) (value : Json) :
    Error.Within codes (readNameTable field value) := by
  have hnames : ∀ members, Error.Within codes (readNames field members) := by
    intro members
    fun_induction readNames field members with
    | case1 => exact Error.within_ok _
    | case2 id display rest ih => exact ih.map _
    | case3 => exact Error.within_error (by simp [Error.code, codes])
  unfold readNameTable
  split
  next => exact Error.within_ok _
  next members => exact (hnames members).map _
  next => exact Error.within_error (by simp [Error.code, codes, unexpected])

theorem within_readPolicy (field : String) (policy : DeclarationPolicy) (value : Json) :
    Error.Within codes (readPolicy field policy value) := by
  unfold readPolicy
  split
  next => exact Error.within_ok _
  next => exact Error.within_ok _
  next => exact Error.within_ok _
  next => exact Error.within_error (by simp [Error.code, codes, unexpected])

theorem within_set (request : Request) (member : String × Json) :
    Error.Within codes (request.set member) := by
  unfold set
  simp only
  split
  next => exact (within_readString _ _).map _
  next => exact (within_readString _ _).map _
  next => exact (within_readString _ _).map _
  next => exact (within_readString _ _).map _
  next => exact (within_readPath _ _).map _
  next => exact (within_readPath _ _).map _
  next => exact (within_readObject _ _).map _
  next => exact (within_readPath _ _).map _
  next => exact (within_readStrings _ _).map _
  next => exact (within_readObject _ _).map _
  next => exact (within_readNameTable _ _).map _
  next => exact (within_readPolicy _ _ _).map _
  next => exact Error.within_error (by simp [Error.code, codes])

theorem within_ofJson (value : Json) : Error.Within codes (ofJson value) := by
  unfold ofJson
  split
  next => exact Error.within_foldlM _ within_set
  next => exact Error.within_error (by simp [Error.code, codes, unexpected])

end Request

/-! ## Settings -/

theorem within_requireText (field : String) (value : Option String) :
    Error.Within ["INVALID_FIELD"] (requireText field value) := by
  unfold requireText
  split
  next =>
    split
    next => exact Error.within_error (by simp [Error.code])
    next => exact Error.within_ok _
  next => exact Error.within_ok _

theorem Site.within_requireFile (site : Site) (field : String) (path : Option FilePath) :
    Error.Within ["INVALID_FIELD"] (site.requireFile field path) := by
  unfold requireFile
  split
  next => exact Error.within_ok _
  next =>
    split
    next => exact Error.within_ok _
    next => exact Error.within_error (by simp [Error.code])

theorem Settings.within_readNavigation (request : Request) :
    Error.Within ["INVALID_FIELD"] (readNavigation request) := by
  unfold readNavigation
  split
  next => exact Error.within_ok _
  next =>
    refine Error.Within.map ?_ some
    unfold Navigation.ofName
    split
    next => exact Error.within_ok _
    next => exact Error.within_error (by simp [Error.code])

namespace LinkPlugin

theorem within_checkExclusive (plugins : List LinkPlugin) :
    Error.Within ["INVALID_LINK_PLUGIN_COMBINATION"] (checkExclusive plugins) := by
  have hgroup : ∀ group, Error.Within ["INVALID_LINK_PLUGIN_COMBINATION"]
      (checkGroup plugins group) := by
    intro group
    unfold checkGroup
    split
    next => exact Error.within_error (by simp [Error.code])
    next => exact Error.within_ok _
  unfold checkExclusive exclusiveGroups
  exact (hgroup _).bind fun _ => Error.within_ok ()

theorem within_resolve (names : List String) :
    Report.Within [(.warn, "UNKNOWN_LINK_PLUGIN")] ["INVALID_LINK_PLUGIN_COMBINATION"]
      (resolve names) := by
  have hnames : Noted.Within [(.warn, "UNKNOWN_LINK_PLUGIN")] (ofNames names) := by
    refine Noted.within_foldlM [] ?_
    intro plugins name
    unfold addNamed
    split
    next => exact Noted.within_pure _
    next => exact (Noted.within_warn _ (by decide)).returning _
  exact (Report.within_noted hnames).bind fun plugins =>
    (Report.within_except (within_checkExclusive plugins)).bind fun _ => Report.within_pure _

end LinkPlugin

namespace ConfigFile

/-- What is wrong with a configuration file. -/
def codes : List String := ["CONFIG_READ_FAILED", "CONFIG_INVALID"]

theorem within_readObject (fs : FileSystem) (path : FilePath) :
    Error.Within codes (readObject fs path) := by
  unfold readObject
  split
  next => exact Error.within_error (by simp [Error.code, codes])
  next =>
    split
    next => exact Error.within_error (by simp [Error.code, codes])
    next => exact Error.within_ok _
    next => exact Error.within_error (by simp [Error.code, codes])

theorem within_baseNames (path : FilePath) (items : List Json) :
    Error.Within codes (baseNames path items) := by
  fun_induction baseNames path items with
  | case1 => exact Error.within_ok _
  | case2 base rest ih => exact ih.map _
  | case3 => exact Error.within_error (by simp [Error.code, codes])

theorem within_bases (path : FilePath) (config : Members) :
    Error.Within codes (bases path config) := by
  refine Error.Within.map ?_ _
  unfold extendsNames
  split
  next => exact Error.within_ok _
  next => exact Error.within_ok _
  next => exact Error.within_ok _
  next => exact within_baseNames _ _
  next => exact Error.within_error (by simp [Error.code, codes])

theorem within_objectMember (path : FilePath) (config : Members) (field : String) :
    Error.Within codes (objectMember path config field) := by
  unfold objectMember
  split
  next => exact Error.within_ok _
  next => exact Error.within_ok _
  next => exact Error.within_ok _
  next => exact Error.within_error (by simp [Error.code, codes])

theorem within_addOptions (fs : FileSystem) (room : Nat) (opened : List FilePath)
    (merged : Members) (path : FilePath) :
    Error.Within codes (addOptions fs room opened merged path) := by
  induction room generalizing opened merged path with
  | zero =>
    unfold addOptions
    split <;> exact Error.within_error (by simp [Error.code, codes])
  | succ room ih =>
    unfold addOptions
    split
    next => exact Error.within_error (by simp [Error.code, codes])
    next =>
      exact (within_readObject fs path).bind fun config =>
        (within_bases path config).bind fun files =>
          (Error.within_foldlM merged fun found file => ih (path :: opened) found file).bind
            fun merged => (within_objectMember path config "compilerOptions").bind fun options =>
              Error.within_ok _

end ConfigFile

namespace Options

/-- What is reported about generator options. -/
def kinds : List (Severity × String) := [(.warn, "TYPEDOC_OPTION_OVERRIDDEN")]

/-- What is wrong with the sources of options. -/
def codes : List String := "INVALID_FIELD" :: ConfigFile.codes

theorem within_addEmbedded (origin : String) (gathered : Gathered) (value : Json) :
    Error.Within codes (gathered.addEmbedded origin value) := by
  unfold Gathered.addEmbedded
  split
  next => exact Error.within_ok _
  next => exact Error.within_ok _
  next => exact Error.within_error (by simp [Error.code, codes])

theorem within_addMembers (origin : String) (gathered : Gathered) (members : Members) :
    Report.Within kinds codes (gathered.addMembers origin members) := by
  refine Report.within_foldlM gathered ?_
  intro found member
  unfold Gathered.addMember
  split
  next => exact Report.within_except (within_addEmbedded origin found member.2)
  next =>
    split
    next =>
      exact (Report.within_noted (Noted.within_warn _ (by decide))).bind fun _ =>
        Report.within_pure _
    next => exact Report.within_pure _

theorem within_gather (fs : FileSystem) (request : Request)
    (tsconfig typedocJson : Option FilePath) :
    Report.Within kinds codes (gather fs request tsconfig typedocJson) := by
  have hsubset : ConfigFile.codes ⊆ codes := List.subset_cons_self _ _
  have htsconfig : ∀ gathered, Error.Within codes (addTsconfig fs tsconfig gathered) := by
    intro gathered
    unfold addTsconfig
    split
    next => exact Error.within_ok _
    next => exact ((ConfigFile.within_addOptions fs _ _ _ _).mono hsubset).map _
  have htypedocJson : ∀ gathered,
      Report.Within kinds codes (addTypedocFile fs typedocJson gathered) := by
    intro gathered
    unfold addTypedocFile
    split
    next => exact Report.within_pure _
    next path =>
      exact (Report.within_except ((ConfigFile.within_readObject fs path).mono hsubset)).bind
        fun members => within_addMembers _ _ _
  have htypedocOptions : ∀ gathered,
      Report.Within kinds codes (addTypedocOptions request gathered) := by
    intro gathered
    unfold addTypedocOptions
    split
    next => exact Report.within_pure _
    next => exact within_addMembers _ _ _
  exact (Report.within_except (htsconfig .empty)).bind fun first =>
    (htypedocJson first).bind fun second => (htypedocOptions second).bind fun third =>
      Report.within_pure _

/-- The check of compiler options warns of unknown ones, and fails for invalid ones. -/
theorem within_check (merged : Members) :
    Report.Within [(.warn, "UNKNOWN_COMPILER_OPTION")] ["INVALID_COMPILER_OPTIONS"]
      (check CompilerOptions.check merged) := by
  have hwarnings : Noted.Within [(.warn, "UNKNOWN_COMPILER_OPTION")]
      (CompilerOptions.check merged) := by
    intro diagnostic hmem
    obtain ⟨option, -, hwarning⟩ := List.mem_filterMap.mp hmem
    unfold CompilerOptions.warning? at hwarning
    split at hwarning
    next =>
      obtain rfl := Option.some.inj hwarning
      exact List.mem_singleton_self _
    next => cases hwarning
  refine (Report.within_noted hwarnings).bind ?_
  intro result
  cases result with
  | ok used => exact Report.within_pure _
  | error problems => exact Report.within_fail (by simp [Error.code])

end Options

namespace ModuleNames

/-- What is wrong with display names. -/
def codes : List String := ["MODULE_NAME_COLLISION"]

theorem within_insert (names : ModuleNames) (module display : String) :
    Error.Within codes (names.insert module display) := by
  unfold insert
  split
  next =>
    split
    next => exact Error.within_ok _
    next => exact Error.within_error (by simp [Error.code, codes])
  next => exact Error.within_ok _

theorem within_insertAll (names : ModuleNames) (entries : List (String × String)) {error : Error}
    (h : (names.insertAll entries).2 = some error) : error.code ∈ codes := by
  induction entries generalizing names with
  | nil => cases h
  | cons entry rest ih =>
    obtain ⟨module, display⟩ := entry
    unfold insertAll at h
    split at h
    next next _ => exact ih next h
    next other hother =>
      obtain rfl := Option.some.inj h
      exact within_insert names module display other hother

theorem within_ofList (entries : List (String × String)) :
    Error.Within codes (ofList entries) := by
  unfold ofList
  split
  next => exact Error.within_ok _
  next hfound => exact Error.within_error (within_insertAll _ _ (congrArg Prod.snd hfound))

end ModuleNames

namespace Settings

/-- What is reported about settings. -/
def kinds : List (Severity × String) :=
  [(.warn, "UNKNOWN_LINK_PLUGIN"), (.warn, "TYPEDOC_OPTION_OVERRIDDEN"),
   (.warn, "UNKNOWN_COMPILER_OPTION")]

/-- What is wrong with settings. -/
def codes : List String :=
  ["INVALID_FIELD", "INVALID_LINK_PLUGIN_COMBINATION", "CONFIG_READ_FAILED", "CONFIG_INVALID",
   "INVALID_COMPILER_OPTIONS", "MODULE_NAME_COLLISION"]

theorem within_ofRequest (site : Site) (request : Request) :
    Report.Within kinds codes (ofRequest site CompilerOptions.check request) := by
  have hfield : ∀ {α : Type} {result : Except Error α},
      Error.Within ["INVALID_FIELD"] result → Report.Within kinds codes (liftM result) :=
    fun h => Report.within_except (h.mono (by decide))
  exact (hfield (within_readNavigation request)).bind fun _ =>
    (hfield (within_requireText _ _)).bind fun _ =>
    (hfield (within_requireText _ _)).bind fun _ =>
    (hfield (within_requireText _ _)).bind fun _ =>
    ((LinkPlugin.within_resolve _).mono (by decide) (by decide)).bind fun _ =>
    (hfield (site.within_requireFile _ _)).bind fun _ =>
    (hfield (site.within_requireFile _ _)).bind fun _ =>
    ((Options.within_gather _ _ _ _).mono (by decide) (by decide)).bind fun _ =>
    ((Options.within_check _).mono (by decide) (by decide)).bind fun _ =>
    (Report.within_except ((ModuleNames.within_ofList _).mono (by decide))).bind fun _ =>
    Report.within_pure _

end Settings

/-! ## Subjects -/

namespace Manifest

/-- What is reported about a manifest. -/
def kinds : List (Severity × String) :=
  [(.info, "MANIFEST_LOADED"), (.warn, "MANIFEST_FIELD_NOT_STRING")]

/-- What is wrong with a manifest. -/
def codes : List String := ["MANIFEST_NOT_FOUND", "MANIFEST_READ_FAILED", "MANIFEST_INVALID"]

theorem within_textField (path : FilePath) (field : String) (value : Option Json) :
    Noted.Within kinds (textField path field value) := by
  unfold textField
  split
  next => exact Noted.within_pure _
  next => exact Noted.within_pure _
  next => exact Noted.within_pure _
  next => exact (Noted.within_warn _ (by decide)).returning _

theorem within_readMembers (path : FilePath) (source : String) :
    Error.Within codes (readMembers path source) := by
  unfold readMembers
  split
  next => exact Error.within_error (by simp [Error.code, codes])
  next =>
    split
    next => exact Error.within_ok _
    next => exact Error.within_error (by simp [Error.code, codes])
  next => exact Error.within_error (by simp [Error.code, codes])

theorem within_parse (path : FilePath) (source : String) :
    Report.Within kinds codes (parse path source) :=
  (Report.within_except (within_readMembers path source)).bind fun _ =>
    (Report.within_noted (within_textField path _ _)).bind fun _ =>
    (Report.within_noted (within_textField path _ _)).bind fun _ =>
    (Report.within_noted (within_textField path _ _)).bind fun _ => Report.within_pure _

theorem within_load (fs : FileSystem) (path : FilePath) :
    Report.Within kinds codes (load fs path) := by
  have hread :
      Error.Within codes ((fs.readText path).mapError (Error.manifestUnreadable path)) := by
    cases fs.readText path with
    | error cause => exact Error.within_error (by simp [Error.code, codes])
    | ok source => exact Error.within_ok source
  unfold load
  split
  next =>
    exact (Report.within_except hread).bind fun source =>
      (within_parse path source).bind fun manifest =>
      (Report.within_noted (Noted.within_info _ (by decide))).bind fun _ => Report.within_pure _
  next => exact Report.within_fail (by simp [Error.code, codes])

end Manifest

namespace Exports

/-- What is reported about the target of an export. -/
def targetKinds : List (Severity × String) := [(.warn, "EXPORTS_INVALID_TARGET")]

/-- What is reported about the declarations of subpaths. -/
def declarationKinds : List (Severity × String) :=
  targetKinds ++ [(.warn, "EXPORTS_DUPLICATE_KEY"), (.warn, "EXPORTS_MIXED_KEYS")]

/-- What is reported about exports. -/
def kinds : List (Severity × String) :=
  declarationKinds ++ [(.info, "EXPORT_RESOLVED"), (.info, "EXPORT_NO_MATCH")]

theorem within_rejected (key message : String) :
    Noted.Within targetKinds (rejected key message) :=
  (Noted.within_warn _ (by decide)).returning _

theorem within_firstResolved {results : List (Noted (Option String))}
    (h : ∀ result ∈ results, Noted.Within targetKinds result) :
    Noted.Within targetKinds (firstResolved results) := by
  induction results with
  | nil => exact Noted.within_pure _
  | cons result rest ih =>
    obtain ⟨hresult, hrest⟩ := List.forall_mem_cons.mp h
    refine hresult.bind ?_
    intro found
    cases found with
    | some text => exact Noted.within_pure _
    | none => exact ih hrest

theorem within_resolveTarget (names : List String) (key : String) (exports : Exports) :
    Noted.Within targetKinds (resolveTarget names key exports) := by
  induction exports with
  | target text =>
    rw [resolveTarget]
    unfold checkTarget
    split
    next =>
      split
      next => exact within_rejected _ _
      next => exact Noted.within_pure _
    next => exact within_rejected _ _
  | null => exact Noted.within_pure _
  | fallbacks items ih =>
    rw [resolveTarget, resolveItems_eq_map]
    exact within_firstResolved (List.forall_mem_map.mpr ih)
  | conditions entries ih =>
    rw [resolveTarget, resolveEntries_eq_map]
    refine within_firstResolved ?_
    intro result hresult
    obtain ⟨name, -, hlast⟩ := List.mem_filterMap.mp hresult
    rw [Keyed.last?_map] at hlast
    obtain ⟨item, hitem, rfl⟩ := Option.map_eq_some_iff.mp hlast
    obtain ⟨before, after, hsplit, -⟩ := Keyed.last?_eq_some_iff.mp hitem
    exact ih (name, item) (by simp [hsplit])
  | subpaths => exact within_rejected _ _
  | mixed => exact within_rejected _ _
  | unsupported => exact within_rejected _ _

theorem within_declaredSubpaths (entries : List (String × Exports)) :
    Noted.Within declarationKinds (declaredSubpaths entries) := by
  refine Noted.within_foldlM [] ?_
  intro declared entry
  unfold declare
  split
  next => exact (Noted.within_warn _ (by decide)).returning _
  next => exact Noted.within_pure _

theorem within_subpathsOf (exports : Exports) :
    Noted.Within declarationKinds (subpathsOf exports) := by
  unfold subpathsOf
  split
  next => exact within_declaredSubpaths _
  next => exact (Noted.within_warn _ (by decide)).bind fun _ => within_declaredSubpaths _
  next => exact Noted.within_pure _
  next => exact Noted.within_pure _
  next => exact Noted.within_pure _
  next => exact Noted.within_pure _
  next => exact (Noted.within_warn _ (by decide)).returning _

theorem within_resolve (exports : Option Exports) (directory : FilePath)
    (conditions : Conditions) : Noted.Within kinds (resolve exports directory conditions) := by
  unfold resolve
  split
  next => exact Noted.within_pure _
  next exports =>
    refine ((within_subpathsOf exports).mono (by decide)).bind fun subpaths =>
      Noted.within_foldlM _ ?_
    intro table entry
    refine ((within_resolveTarget _ _ _).mono (by decide)).bind ?_
    intro found
    cases found with
    | some text => exact (Noted.within_info _ (by decide)).returning _
    | none => exact (Noted.within_info _ (by decide)).returning _

end Exports

namespace Entry

/-- What is reported about entry points. -/
def kinds : List (Severity × String) :=
  [(.info, "TYPES_FALLBACK"), (.info, "ENTRY_PATTERN_UNEXPANDED"), (.warn, "ENTRY_NOT_FOUND"),
   (.warn, "ENTRY_UNSUPPORTED_EXTENSION"), (.warn, "INVALID_DECLARATION_FILE"),
   (.info, "ENTRY_POINT")]

theorem within_candidates (manifest : Manifest) (exports : ExportTable) (condition : String) :
    Noted.Within kinds (candidates manifest exports condition) := by
  unfold candidates fallbackCandidates
  split
  next =>
    split
    next =>
      split
      next => exact (Noted.within_info _ (by decide)).returning _
      next => exact Noted.within_pure _
    next => exact Noted.within_pure _
  next => exact Noted.within_pure _

theorem within_admits (fs : FileSystem) (demand : Demand) (candidate : Candidate) :
    Noted.Within kinds (admits fs demand candidate) := by
  have hexisting : Noted.Within kinds (admitExisting fs candidate) := by
    unfold admitExisting
    split
    next => exact (Noted.within_info _ (by decide)).returning _
    next =>
      split
      next => exact Noted.within_pure _
      next => exact (Noted.within_warn _ (by decide)).returning _
  unfold admits
  split
  next => exact (Noted.within_warn _ (by decide)).returning _
  next =>
    split
    next =>
      refine (Noted.within_warn _ (by decide)).bind fun _ => ?_
      split
      next => exact Noted.within_pure _
      next => exact hexisting
    next => exact hexisting

theorem within_collect (fs : FileSystem) (manifest : Manifest) (exports : ExportTable)
    (demand : Demand) :
    Report.Within kinds ["NO_ENTRY_POINTS"] (collect fs manifest exports demand) := by
  have hadmitted : ∀ found, Noted.Within kinds (admitted fs demand found) := by
    intro found
    refine Noted.within_foldlM _ ?_
    intro set candidate
    refine (within_admits fs demand candidate).bind ?_
    intro admitted
    cases admitted with
    | true => exact (Noted.within_info _ (by decide)).returning _
    | false => exact Noted.within_pure _
  refine (Report.within_noted (within_candidates _ _ _)).bind fun found =>
    (Report.within_noted (hadmitted found)).bind ?_
  intro set
  split
  next => exact Report.within_fail (by simp [Error.code])
  next => exact Report.within_pure _

end Entry

namespace Subject

/-- What is reported about a subject. -/
def kinds : List (Severity × String) := Manifest.kinds ++ Exports.kinds ++ Entry.kinds

/-- What is wrong with a subject. -/
def codes : List String :=
  "INVALID_FIELD" :: Manifest.codes ++ ["NO_ENTRY_POINTS", "MODULE_NAME_COLLISION"]

theorem within_source (site : Site) (request : Request) :
    Error.Within ["INVALID_FIELD", "MANIFEST_NOT_FOUND"] (Source.ofRequest site request) := by
  unfold Source.ofRequest
  split
  next path =>
    unfold Source.atPath
    split
    next =>
      simp only
      split
      next => exact Error.within_ok _
      next => exact Error.within_error (by simp [Error.code, Source.invalidPath])
    next =>
      split
      next => exact Error.within_error (by simp [Error.code, Source.invalidPath])
      next =>
        split
        next => exact Error.within_ok _
        next =>
          split
          next => exact Error.within_ok _
          next => exact Error.within_error (by simp [Error.code, Source.invalidPath])
  next =>
    split
    next => exact Error.within_ok _
    next => exact Error.within_error (by simp [Error.code])

theorem within_namesWithPackage (settings : Settings) (manifest : Manifest) :
    Error.Within ModuleNames.codes (namesWithPackage settings manifest) := by
  unfold namesWithPackage
  split
  next =>
    split
    next => exact Error.within_ok _
    next => exact ModuleNames.within_insert _ _ _
  next => exact Error.within_ok _

theorem within_ofRequest (site : Site) (settings : Settings) (request : Request) :
    Report.Within kinds codes (ofRequest site settings request) := by
  refine (Report.within_except ((within_source site request).mono (by decide))).bind ?_
  intro source
  cases source with
  | file path => exact Report.within_pure _
  | manifest path =>
    exact ((Manifest.within_load site.files path).mono (by decide) (by decide)).bind
      fun manifest => (Report.within_noted ((Exports.within_resolve _ _ _).mono (by decide))).bind
      fun exports => ((Entry.within_collect _ _ _ _).mono (by decide) (by decide)).bind
      fun entryPoints =>
        (Report.within_except ((within_namesWithPackage _ _).mono (by decide))).bind
      fun moduleNames => Report.within_pure _

end Subject

/-! ## Configurations -/

theorem Config.within_validate (site : Site) (request : Request) :
    Report.Within (Settings.kinds ++ Subject.kinds) (Settings.codes ++ Subject.codes)
      (validate site request) :=
  ((Settings.within_ofRequest site request).mono (List.subset_append_left _ _)
      (List.subset_append_left _ _)).bind fun settings =>
    ((Subject.within_ofRequest site settings request).mono (List.subset_append_right _ _)
      (List.subset_append_right _ _)).bind fun _ => Report.within_pure _

/-! ## Merges -/

namespace Config

/-- What is reported about a merge. -/
def mergeKinds : List (Severity × String) := [(.warn, "MERGE_SETTING_IGNORED")]

/-- Why configurations cannot be merged. -/
def mergeCodes : List String :=
  ["INVALID_FIELD", "MODULE_NAME_COLLISION", "INVALID_LINK_PLUGIN_COMBINATION"]

theorem within_reportDifferences (first other : Config) :
    Noted.Within mergeKinds (reportDifferences first other) := by
  intro diagnostic hmem
  obtain ⟨entry, -, rfl⟩ := List.mem_map.mp hmem
  exact List.mem_singleton_self _

theorem within_uniteNames (names others : ModuleNames) :
    Error.Within ModuleNames.codes (uniteNames names others) := by
  unfold uniteNames
  split
  next => exact Error.within_ok _
  next hfound =>
    exact Error.within_error (ModuleNames.within_insertAll names _ (congrArg Prod.snd hfound))

theorem within_mergeOne (merged config : Config) :
    Report.Within mergeKinds mergeCodes (mergeOne merged config) :=
  (Report.within_noted (within_reportDifferences merged config)).bind fun _ =>
    (Report.within_except ((within_uniteNames _ _).mono (by decide))).bind fun _ =>
    (Report.within_except ((LinkPlugin.within_checkExclusive _).mono (by decide))).bind fun _ =>
    Report.within_pure _

theorem within_merge (configs : List Config) :
    Report.Within mergeKinds mergeCodes (merge configs) := by
  unfold merge
  split
  next => exact Report.within_fail (by simp [Error.code, mergeCodes])
  next first rest =>
    exact (Report.within_foldlM first within_mergeOne).bind fun merged => Report.within_pure _

end Config

/-! ## Workspaces -/

namespace Workspaces

theorem within_patternValues (field : Json) :
    Error.Within ["INVALID_FIELD"] (patternValues field) := by
  unfold patternValues
  split
  next => exact Error.within_ok _
  next =>
    split
    next => exact Error.within_ok _
    next => exact Error.within_error (by simp [Error.code, invalid])
  next => exact Error.within_error (by simp [Error.code, invalid])

theorem within_ofValues (root : FilePath) (values : List Json) :
    Error.Within ["INVALID_FIELD"] (Patterns.ofValues root values) := by
  refine Error.within_foldlM _ ?_
  intro patterns value
  unfold Patterns.add
  split
  next =>
    split
    next =>
      simp only
      split
      next => exact Error.within_ok _
      next => exact Error.within_error (by simp [Error.code, badPattern, invalid])
    next => exact Error.within_ok _
  next => exact Error.within_error (by simp [Error.code, invalid])

/-- Looking for the members of a workspace reports every one of them, and fails only for
what the manifest declares. -/
theorem within_members (fs : FileSystem) (root : Manifest) :
    Report.Within [(.info, "WORKSPACE_MEMBER")] ["INVALID_FIELD"] (members fs root) := by
  have hlisted : ∀ pattern, Error.Within ["INVALID_FIELD"] (listed fs root.directory pattern) := by
    intro pattern
    unfold listed
    split
    next => exact Error.within_ok _
    next => exact Error.within_error (by simp [Error.code, badPattern, invalid])
  have hmembers : ∀ patterns found directories,
      Noted.Within [(.info, "WORKSPACE_MEMBER")] (addMembers fs patterns found directories) := by
    intro patterns found directories
    refine Noted.within_foldlM _ ?_
    intro members directory
    unfold addMember
    simp only
    split
    next => exact Noted.within_pure _
    next => exact (Noted.within_info _ (by decide)).returning _
  unfold members
  split
  next => exact Report.within_pure _
  next field _ =>
    exact (Report.within_except (within_patternValues field)).bind fun values =>
      (Report.within_except (within_ofValues root.directory values)).bind fun patterns =>
      (Report.within_foldlM _ fun found pattern =>
        (Report.within_except (hlisted pattern)).bind fun directories =>
        Report.within_noted (hmembers patterns found directories)).bind fun _ =>
      Report.within_pure _

end Workspaces

/-- Looking for the manifest of a workspace reports what reading a manifest does. -/
theorem Plan.within_workspaceRoot (site : Site) (request : Request) :
    Report.Within Manifest.kinds Manifest.codes (workspaceRoot site request) := by
  unfold workspaceRoot Manifest.discover
  split
  next => exact Manifest.within_load _ _
  next =>
    split
    next => exact Manifest.within_load _ _
    next => exact Report.within_fail (by simp [Error.code, Manifest.codes])

/-- A workspace must have members. -/
theorem Plan.within_requireMembers (root : Manifest) (request : Request)
    (members : Option (List FilePath)) :
    Error.Within ["INVALID_FIELD", "NO_ENTRY_POINTS"] (requireMembers root request members) := by
  unfold requireMembers
  split
  next => exact Error.within_error (by simp [Error.code])
  next => exact Error.within_error (by simp [Error.code])
  next => exact Error.within_ok _

end DocPlan
