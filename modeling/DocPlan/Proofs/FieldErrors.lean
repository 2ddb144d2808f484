import DocPlan.Proofs.Catalogue
import DocPlan.Proofs.Settings
import DocPlan.Proofs.Subjects

/-!
# Which field an error names

An error about a field of a request names the field that the failing step checks
(`Error.Blames`). As every field has a step of its own, the field tells the step: an error that
names the field `name` is the check of the requested name (`Config.requireText_of_name_error`).

The name of a configuration need not be the requested one. The name of a package is taken as its
manifest has it, and the check is made only when the configuration is asked for again. So a
package with a blank name has a configuration whose request is refused
(`Config.blank_package_refused`), and it is the only one
(`Config.name_refused_iff_blank_package`).
-/

namespace DocPlan

variable {α β : Type} {fields : List String}

/-! ## Errors about fields -/

namespace Error

/-- A step that fails for a field names one of some fields. -/
def Blames (fields : List String) (result : Except Error α) : Prop :=
  ∀ field reason, result = .error (.invalidField field reason) → field ∈ fields

theorem blames_ok (value : α) : Blames fields (.ok value) := by
  intro field reason h
  cases h

theorem blames_field {field : String} (reason : String) (h : field ∈ fields) :
    Blames fields (.error (.invalidField field reason) : Except Error α) := by
  intro other reason' heq
  obtain ⟨rfl, -⟩ := Error.invalidField.inj (Except.error.inj heq)
  exact h

/-- A step that never fails for a field names none. -/
theorem Within.blames {codes : List String} {result : Except Error α} (h : Within codes result)
    (hout : "INVALID_FIELD" ∉ codes) : Blames fields result :=
  fun _ _ herror => absurd (h _ herror) hout

theorem Blames.bind {first : Except Error α} {second : α → Except Error β}
    (hfirst : Blames fields first) (hsecond : ∀ found, Blames fields (second found)) :
    Blames fields (first >>= second) := by
  intro field reason h
  rcases bind_eq_error_iff.mp h with hfailed | ⟨found, -, hfailed⟩
  · exact hfirst field reason hfailed
  · exact hsecond found field reason hfailed

theorem Blames.mono {result : Except Error α} {others : List String} (h : Blames fields result)
    (hsubset : fields ⊆ others) : Blames others result :=
  fun field reason herror => hsubset (h field reason herror)

theorem blames_foldlM {step : β → α → Except Error β} (start : β) {items : List α}
    (hstep : ∀ found item, Blames fields (step found item)) :
    Blames fields (items.foldlM step start) := by
  induction items generalizing start with
  | nil => exact blames_ok start
  | cons item rest ih =>
    rw [List.foldlM_cons]
    exact (hstep start item).bind ih

/-- An error that names another field is not the first step's. -/
theorem Blames.of_bind_eq_error {first : Except Error α} {second : α → Except Error β}
    {field reason : String} (hfirst : Blames fields first)
    (h : first >>= second = .error (.invalidField field reason)) (hout : field ∉ fields) :
    ∃ found, first = .ok found ∧ second found = .error (.invalidField field reason) := by
  rcases bind_eq_error_iff.mp h with hfailed | hfound
  · exact absurd (hfirst field reason hfailed) hout
  · exact hfound

end Error

open Error (Blames)

theorem blames_requireText (field : String) (value : Option String) :
    Blames [field] (requireText field value) := by
  unfold requireText
  split
  next =>
    split
    next => exact Error.blames_field _ (List.mem_singleton_self field)
    next => exact Error.blames_ok _
  next => exact Error.blames_ok _

/-- A field that is refused is set and blank. -/
theorem requireText_eq_error_iff {field : String} {value : Option String} {error : Error} :
    requireText field value = .error error ↔
      (∃ text, value = some text ∧ Text.isBlank text = true) ∧
        error = .invalidField field "must not be empty" := by
  cases value with
  | none => simp [requireText]
  | some text =>
    cases hblank : Text.isBlank text with
    | true =>
      have hrefused : requireText field (some text) =
          .error (.invalidField field "must not be empty") := if_pos hblank
      rw [hrefused, Except.error.injEq]
      exact ⟨fun h => ⟨⟨text, rfl, hblank⟩, h.symm⟩, fun h => h.2.symm⟩
    | false => simp [requireText, hblank]

theorem Site.blames_requireFile (site : Site) (field : String) (path : Option FilePath) :
    Blames [field] (site.requireFile field path) := by
  unfold requireFile
  split
  next => exact Error.blames_ok _
  next =>
    split
    next => exact Error.blames_ok _
    next => exact Error.blames_field _ (List.mem_singleton_self field)

namespace Options

theorem blames_addMembers (origin : String) (gathered : Gathered) (members : Members) :
    Blames [origin] (gathered.addMembers origin members).outcome := by
  unfold Gathered.addMembers
  rw [Report.outcome_foldlM]
  refine Error.blames_foldlM gathered ?_
  intro found member
  unfold Gathered.addMember
  split
  next =>
    rw [Report.outcome_ofExcept]
    unfold Gathered.addEmbedded
    split
    next => exact Error.blames_ok _
    next => exact Error.blames_ok _
    next => exact Error.blames_field _ (List.mem_singleton_self origin)
  next =>
    split
    next => exact Error.blames_ok _
    next => exact Error.blames_ok _

/-- Options are embedded in the generator's file or in the generator options of a request. -/
theorem blames_gather (fs : FileSystem) (request : Request)
    (tsconfig typedocJson : Option FilePath) :
    Blames ["typedocJson", "typedocOptions"] (gather fs request tsconfig typedocJson).outcome := by
  have hnone : "INVALID_FIELD" ∉ ConfigFile.codes := by decide
  have htsconfig : Blames ["typedocJson", "typedocOptions"]
      (addTsconfig fs tsconfig .empty) := by
    unfold addTsconfig
    split
    next => exact Error.blames_ok _
    next => exact ((ConfigFile.within_addOptions fs _ _ _ _).map _).blames hnone
  have htypedocJson : ∀ gathered, Blames ["typedocJson", "typedocOptions"]
      (addTypedocFile fs typedocJson gathered).outcome := by
    intro gathered
    unfold addTypedocFile
    split
    next => exact Error.blames_ok _
    next path =>
      rw [Report.outcome_bind, Report.outcome_except]
      exact ((ConfigFile.within_readObject fs path).blames hnone).bind
        fun members => (blames_addMembers _ _ _).mono (by decide)
  have htypedocOptions : ∀ gathered, Blames ["typedocJson", "typedocOptions"]
      (addTypedocOptions request gathered).outcome := by
    intro gathered
    unfold addTypedocOptions
    split
    next => exact Error.blames_ok _
    next => exact (blames_addMembers _ _ _).mono (by decide)
  unfold gather
  simp only [Report.outcome_bind, Report.outcome_except]
  exact htsconfig.bind fun first => (htypedocJson first).bind fun second =>
    (htypedocOptions second).bind fun third => Error.blames_ok _

end Options

/-! ## The stages of a run -/

theorem Settings.blames_readNavigation (request : Request) :
    Blames ["navigation"] (readNavigation request) := by
  unfold readNavigation
  split
  next => exact Error.blames_ok _
  next text =>
    unfold Navigation.ofName
    split
    next => exact Error.blames_ok _
    next => exact Error.blames_field _ (List.mem_singleton_self _)

/-- Finding the subject of a request fails for no other field than its path. -/
theorem Subject.blames_ofRequest (site : Site) (settings : Settings) (request : Request) :
    Blames ["path"] (ofRequest site settings request).outcome := by
  have hsource : Blames ["path"] (Source.ofRequest site request) := by
    unfold Source.ofRequest
    split
    next path =>
      unfold Source.atPath
      split
      next =>
        simp only
        split
        next => exact Error.blames_ok _
        next => exact Error.blames_field _ (List.mem_singleton_self _)
      next =>
        split
        next => exact Error.blames_field _ (List.mem_singleton_self _)
        next =>
          split
          next => exact Error.blames_ok _
          next =>
            split
            next => exact Error.blames_ok _
            next => exact Error.blames_field _ (List.mem_singleton_self _)
    next =>
      split
      next => exact Error.blames_ok _
      next =>
        intro field reason h
        cases h
  unfold ofRequest
  rw [Report.outcome_bind, Report.outcome_except]
  refine hsource.bind ?_
  intro source
  cases source with
  | file path => exact Error.blames_ok _
  | manifest path =>
    simp only [ofManifest, Report.outcome_bind]
    exact ((Manifest.within_load site.files path).outcome.blames (by decide)).bind fun manifest =>
      (Error.blames_ok _).bind fun exports =>
      ((Entry.within_collect _ _ _ _).outcome.blames (by decide)).bind fun entryPoints =>
      ((within_namesWithPackage _ _).blames (by decide)).bind fun moduleNames =>
      Error.blames_ok _

/-- An error that names the field `name` is the check of the requested name. -/
theorem Settings.requireText_of_name_error {site : Site} {request : Request} {reason : String}
    (h : (ofRequest site CompilerOptions.check request).outcome =
      .error (.invalidField "name" reason)) :
    requireText "name" request.name = .error (.invalidField "name" reason) := by
  unfold ofRequest at h
  simp only [Report.outcome_bind, Report.outcome_except] at h
  obtain ⟨navigation, -, h⟩ := (blames_readNavigation request).of_bind_eq_error h (by decide)
  obtain ⟨condition, -, h⟩ := (blames_requireText _ _).of_bind_eq_error h (by decide)
  obtain ⟨output, -, h⟩ := (blames_requireText _ _).of_bind_eq_error h (by decide)
  rcases Error.bind_eq_error_iff.mp h with hname | ⟨name, -, h⟩
  · exact hname
  · -- No later step names the field.
    have hlater : Blames ["tsconfig", "typedocJson", "typedocOptions"]
        (.error (.invalidField "name" reason) : Except Error Settings) := by
      rw [← h]
      exact ((LinkPlugin.within_resolve _).outcome.blames (by decide)).bind fun _ =>
        ((site.blames_requireFile _ _).mono (by decide)).bind fun _ =>
        ((site.blames_requireFile _ _).mono (by decide)).bind fun _ =>
        ((Options.blames_gather _ _ _ _).mono (by decide)).bind fun _ =>
        ((Options.within_check _).outcome.blames (by decide)).bind fun _ =>
        ((ModuleNames.within_ofList _).blames (by decide)).bind fun _ => Error.blames_ok _
    exact absurd (hlater "name" reason rfl) (by decide)

namespace Config

theorem requireText_of_name_error {site : Site} {request : Request} {reason : String}
    (h : (validate site request).outcome = .error (.invalidField "name" reason)) :
    requireText "name" request.name = .error (.invalidField "name" reason) := by
  unfold validate validateWith at h
  simp only [Report.outcome_bind] at h
  rcases Error.bind_eq_error_iff.mp h with hsettings | ⟨settings, -, h⟩
  · exact Settings.requireText_of_name_error hsettings
  · obtain ⟨subject, -, h⟩ :=
      (Subject.blames_ofRequest site settings request).of_bind_eq_error h (by decide)
    cases h

/-! ## The name of a configuration -/

/-- The configuration is that of a package, and the manifest gives it a blank name. -/
def BlankPackage (fs : FileSystem) (config : Config) : Prop :=
  ∃ path manifest name, config.manifests = [path] ∧
    (Manifest.load fs path).outcome = .ok manifest ∧ manifest.name = some name ∧
    Text.isBlank name = true

/-- A name is the requested one, which is not blank, or the one that the manifest gives. -/
theorem name_of_validate {site : Site} {request : Request} {config : Config}
    (h : (validate site request).outcome = .ok config) :
    (∀ text, request.name = some text → Text.isBlank text = false) ∧
      (config.name = request.name ∧ config.manifests = [] ∨
        ∃ path manifest, config.manifests = [path] ∧
          (Manifest.load site.files path).outcome = .ok manifest ∧
          config.name = request.name.or manifest.name) := by
  obtain ⟨settings, subject, hsettings, hsubject, rfl⟩ := validate_eq_ok_iff.mp h
  have hmeets := Settings.ofRequest_eq_ok_iff.mp hsettings
  refine ⟨hmeets.nameText, ?_⟩
  rcases Subject.ofRequest_eq_ok_iff.mp hsubject with ⟨file, -, rfl⟩ | ⟨path, -, hpackage⟩
  · exact Or.inl ⟨hmeets.name, rfl⟩
  · obtain ⟨manifest, set, names, hload, -, -, rfl⟩ := Subject.ofManifest_eq_ok_iff.mp hpackage
    have hpath : manifest.path = path := (Manifest.path_of_load hload).1
    refine Or.inr ⟨path, manifest, congrArg (fun found => [found]) hpath, hload, ?_⟩
    exact congrArg (·.or manifest.name) hmeets.name

/-- A configuration has a blank name exactly when it has the blank name of its package. -/
theorem blank_name_iff {site : Site} {request : Request} {config : Config}
    (h : (validate site request).outcome = .ok config) :
    (∃ text, config.name = some text ∧ Text.isBlank text = true) ↔
      request.name = none ∧ BlankPackage site.files config := by
  obtain ⟨hrequest, hname⟩ := name_of_validate h
  have hnone : ∀ text, config.name = some text → Text.isBlank text = true →
      config.name ≠ request.name := by
    intro text htext hblank hsame
    have hkept : Text.isBlank text = false := hrequest text (hsame ▸ htext)
    rw [hblank] at hkept
    cases hkept
  constructor
  · rintro ⟨text, htext, hblank⟩
    rcases hname with ⟨hsame, -⟩ | ⟨path, manifest, hmanifests, hload, heq⟩
    · exact absurd hsame (hnone text htext hblank)
    · cases hrequested : request.name with
      | some asked =>
        rw [hrequested, Option.some_or] at heq
        exact absurd (heq.trans hrequested.symm) (hnone text htext hblank)
      | none =>
        rw [hrequested, Option.none_or] at heq
        exact ⟨rfl, path, manifest, text, hmanifests, hload, heq.symm.trans htext, hblank⟩
  · rintro ⟨hrequested, path, manifest, text, hmanifests, hload, htext, hblank⟩
    rcases hname with ⟨-, hnil⟩ | ⟨other, found, hothers, hfound, heq⟩
    · rw [hnil] at hmanifests
      cases hmanifests
    · obtain rfl : other = path := List.singleton_inj.mp (hothers.symm.trans hmanifests)
      obtain rfl : found = manifest := Except.ok.inj (hfound.symm.trans hload)
      refine ⟨text, ?_, hblank⟩
      rw [heq, hrequested, Option.none_or, htext]

/-- The request of a configuration with a blank name is refused: what is checked before the name
passes. -/
theorem refused_of_blank_name {site : Site} {request : Request} {config : Config} {text : String}
    (habsolute : site.directory.isAbsolute = true)
    (h : (validate site request).outcome = .ok config) (htext : config.name = some text)
    (hblank : Text.isBlank text = true) :
    (validate site config.toRequest).outcome =
      .error (.invalidField "name" "must not be empty") := by
  obtain ⟨settings, subject, hsettings, hsubject, rfl⟩ := validate_eq_ok_iff.mp h
  have hmeets := Settings.ofRequest_eq_ok_iff.mp hsettings
  have hpasses : ∀ field passed, Text.isBlank passed = false →
      requireText field (some passed) = .ok (some passed) :=
    fun field passed hpassed => if_neg (Bool.eq_false_iff.mp hpassed)
  have hnavigation : Settings.readNavigation (ofParts settings subject).toRequest =
      .ok settings.navigation := Settings.readNavigation_of_name rfl
  have hcondition : requireText "condition" (ofParts settings subject).toRequest.condition =
      .ok (some settings.condition) := hpasses _ _ hmeets.isBlank_condition
  have houtput : requireText "output" (ofParts settings subject).toRequest.output =
      .ok (some settings.output.toString) :=
    hpasses _ _ (FilePath.isBlank_toString (hmeets.normal_output habsolute).isAbsolute)
  have hname : requireText "name" (ofParts settings subject).toRequest.name =
      .error (.invalidField "name" "must not be empty") :=
    requireText_eq_error_iff.mpr ⟨⟨text, htext, hblank⟩, rfl⟩
  unfold validate validateWith Settings.ofRequest
  simp only [Report.outcome_bind, Report.outcome_except, hnavigation, hcondition, houtput, hname]
  rfl

/-- The name of a configuration passes the check of requested names unless it is the blank name
of a package, and for such a name alone the request of the configuration is refused. -/
theorem name_refused_iff_blank_package (site : Site) (request : Request) (config : Config)
    (hvalid : (validate site request).outcome = .ok config) :
    (requireText "name" config.name = .ok config.name ↔
      ¬ (request.name = none ∧ BlankPackage site.files config)) ∧
    (∀ reason, (validate site config.toRequest).outcome = .error (.invalidField "name" reason) →
      request.name = none ∧ BlankPackage site.files config) ∧
    (site.directory.isAbsolute = true →
      request.name = none ∧ BlankPackage site.files config →
      (validate site config.toRequest).outcome =
        .error (.invalidField "name" "must not be empty")) := by
  refine ⟨?_, ?_, ?_⟩
  · rw [← blank_name_iff hvalid, requireText_eq_ok_iff, and_iff_left rfl]
    constructor
    · rintro hpass ⟨text, htext, hblank⟩
      rw [hpass text htext] at hblank
      cases hblank
    · intro hnone text htext
      exact Bool.eq_false_iff.mpr fun hblank => hnone ⟨text, htext, hblank⟩
  · intro reason herror
    have hrefused := requireText_of_name_error herror
    exact (blank_name_iff hvalid).mp (requireText_eq_error_iff.mp hrefused).1
  · intro habsolute hblank
    obtain ⟨text, htext, htrue⟩ := (blank_name_iff hvalid).mpr hblank
    exact refused_of_blank_name habsolute hvalid htext htrue

/-- A package with a blank name, and a run in its directory. -/
def blankPackage : Site where
  files := {
    root := .directory [
      ("package.json".toList, .file (Utf8.encode
        "\x7b\"name\":\" \",\"types\":\"./a.d.ts\"\x7d".toList)),
      ("a.d.ts".toList, .file [])]
    workingDirectory := [] }
  directory := FilePath.ofString "/"

theorem name_refused_iff_blank_package_renamed :
    ∃ config, (validate blankPackage { name := some "A" }).outcome = .ok config ∧
      requireText "name" config.name = .ok config.name ∧
      ∀ reason, (validate blankPackage config.toRequest).outcome ≠
        .error (.invalidField "name" reason) := by
  have hfound : ((validate blankPackage { name := some "A" }).outcome.toOption.isSome) = true := by
    decide +kernel
  obtain ⟨config, hconfig⟩ := Option.isSome_iff_exists.mp hfound
  have hvalid := Error.toOption_eq_some_iff.mp hconfig
  obtain ⟨hpass, hrefused, -⟩ :=
    name_refused_iff_blank_package blankPackage { name := some "A" } config hvalid
  have hnamed : ¬ (some "A" = none ∧ BlankPackage blankPackage.files config) := by
    rintro ⟨hnone, -⟩
    cases hnone
  exact ⟨config, hvalid, hpass.mpr hnamed, fun reason herror => hnamed (hrefused reason herror)⟩

/-- A package with a blank name gives a configuration whose request is refused for its name. -/
theorem blank_package_refused :
    ∃ config, (validate blankPackage {}).outcome = .ok config ∧ config.name = some " " ∧
      requireText "name" config.name = .error (.invalidField "name" "must not be empty") ∧
      (validate blankPackage config.toRequest).outcome =
        .error (.invalidField "name" "must not be empty") := by
  have hfound : (validate blankPackage {}).outcome.toOption.map (·.name) = some (some " ") := by
    decide +kernel
  obtain ⟨config, hconfig, hname⟩ := Option.map_eq_some_iff.mp hfound
  have hvalid := Error.toOption_eq_some_iff.mp hconfig
  refine ⟨config, hvalid, hname, ?_, ?_⟩
  · exact requireText_eq_error_iff.mpr ⟨⟨" ", hname, by decide⟩, rfl⟩
  · exact refused_of_blank_name (by decide) hvalid hname (by decide)

end Config

end DocPlan
