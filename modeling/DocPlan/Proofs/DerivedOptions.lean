import DocPlan.Proofs.FileContents
import DocPlan.Proofs.Settings
import DocPlan.Proofs.Subjects

/-!
# Options that a configuration derives itself

The generator options `entryPoints`, `out`, `tsconfig` and `plugin` are derived by a configuration
(`Options.reservedKeys`). Here two runs are compared whose requests, and the texts of whose files,
differ in members with these keys alone. Apart from the warnings that such a member is ignored,
the runs report the same and come to the same outcome (`Config.derived_options_ignored`).

The comparison goes stage by stage. `Report.muted` leaves the warnings out of a report, and two
stages are the same when they are the same muted (`Report.muted_bind`). There is one file that is
read as something else than generator options: the manifest of the run. If it is itself edited,
it must still be read alike, for the text of an error tells places in it
(`Config.edited_manifest_fails_elsewhere`).
-/

namespace DocPlan

variable {α β : Type}

/-! ## Reports without warnings -/

namespace Report

/-- A report without the warnings of options that are derived. -/
def muted (report : Report α) : Report α :=
  ⟨report.diagnostics.filter (·.code ≠ "TYPEDOC_OPTION_OVERRIDDEN"), report.outcome⟩

theorem muted_bind (x : Report α) (f : α → Report β) :
    (x >>= f).muted = x.muted >>= fun value => (f value).muted := by
  obtain ⟨diagnostics, outcome⟩ := x
  cases outcome with
  | ok value => exact ext (List.filter_append _ _) rfl
  | error error => rfl

/-- Steps that are the same muted, followed by the same, are the same muted. -/
theorem muted_bind_congr {x y : Report α} {f g : α → Report β} (hfirst : x.muted = y.muted)
    (hsecond : ∀ value, (f value).muted = (g value).muted) :
    (x >>= f).muted = (y >>= g).muted := by
  rw [muted_bind, muted_bind, hfirst]
  exact congrArg _ (funext hsecond)

/-- Steps whose values are the same as far as `view` tells, followed by what goes by this, are
the same muted. -/
theorem muted_bind_of_view {γ : Type} {x y : Report α} {f g : α → Report β} (view : α → γ)
    (hfirst : (view <$> x).muted = (view <$> y).muted)
    (hsecond : ∀ a b, view a = view b → (f a).muted = (g b).muted) :
    (x >>= f).muted = (y >>= g).muted := by
  rw [← bind_pure_comp, ← bind_pure_comp, muted_bind, muted_bind] at hfirst
  rw [muted_bind, muted_bind]
  generalize x.muted = first at hfirst ⊢
  generalize y.muted = second at hfirst ⊢
  obtain ⟨diagnostics, outcome⟩ := first
  obtain ⟨diagnostics', outcome'⟩ := second
  have houtcome := congrArg Report.outcome hfirst
  have hdiagnostics := congrArg Report.diagnostics hfirst
  cases outcome with
  | ok a =>
    cases outcome' with
    | ok b =>
      have hview : view a = view b := Except.ok.inj houtcome
      obtain rfl : diagnostics = diagnostics' := List.append_cancel_right hdiagnostics
      have hnext := hsecond a b hview
      apply ext
      · exact congrArg (fun next => diagnostics ++ next.diagnostics) hnext
      · show (f a).muted.outcome = (g b).muted.outcome
        rw [hnext]
    | error error => cases houtcome
  | error error =>
    cases outcome' with
    | ok b => cases houtcome
    | error error' =>
      obtain rfl : error = error' := Except.error.inj houtcome
      obtain rfl : diagnostics = diagnostics' := hdiagnostics
      rfl

theorem map_except (f : α → β) (x : Except Error α) :
    f <$> (liftM x : Report α) = liftM (x.map f) := by
  cases x with
  | ok value => rfl
  | error error => rfl

end Report

open Report (muted_bind muted_bind_congr muted_bind_of_view)

namespace Options

/-! ## Generator options -/

/-- Whether a configuration does not derive an option itself. -/
def isUnderived (key : String) : Bool := key ∉ reservedKeys

/-- The generator options that a configuration does not derive itself. -/
def underived (members : Members) : Members := members.filter fun member => isUnderived member.1

/-- Two texts are the same, or they hold the same generator options apart from those that are
derived. -/
def SameUnderived (text later : String) : Prop :=
  text = later ∨ ∃ members others, ConfigFile.Reads text members ∧
    ConfigFile.Reads later others ∧ underived members = underived others

theorem get?_underived {key : String} (h : isUnderived key = true) (members : Members) :
    Keyed.get? key (underived members) = Keyed.get? key members :=
  Keyed.get?_filter h members

/-- A member that is derived is warned of and adds nothing. -/
theorem muted_addMember_reserved {origin : String} {gathered : Gathered}
    {member : String × Json} (h : member.1 ∈ reservedKeys) :
    (gathered.addMember origin member).muted = (pure gathered : Report Gathered).muted := by
  have hother : member.1 ≠ "compilerOptions" := by
    intro heq
    rw [heq] at h
    exact absurd h (by decide)
  unfold Gathered.addMember
  rw [if_neg hother, if_pos h, muted_bind]
  rfl

theorem muted_addMembers (origin : String) (gathered : Gathered) (members : Members) :
    (gathered.addMembers origin members).muted =
      (gathered.addMembers origin (underived members)).muted := by
  unfold Gathered.addMembers underived
  induction members generalizing gathered with
  | nil => rfl
  | cons member rest ih =>
    rw [List.foldlM_cons]
    by_cases hreserved : member.1 ∈ reservedKeys
    · rw [List.filter_cons_of_neg (by simp [isUnderived, hreserved]), muted_bind,
        muted_addMember_reserved hreserved]
      exact ih gathered
    · rw [List.filter_cons_of_pos (by simp [isUnderived, hreserved]), List.foldlM_cons]
      exact muted_bind_congr rfl ih

/-- Members that are the same apart from derived options add the same. -/
theorem muted_addMembers_congr {members others : Members} (h : underived members = underived others)
    (origin : String) (gathered : Gathered) :
    (gathered.addMembers origin members).muted = (gathered.addMembers origin others).muted := by
  rw [muted_addMembers, h, ← muted_addMembers]

/-! ## Files -/

section

variable {files later : FileSystem} (halike : files.Alike SameUnderived later)

include halike

/-- A chain of configuration files does not see the options that are derived. -/
theorem compilerOptions_eq (path : FilePath) :
    ConfigFile.compilerOptions files path = ConfigFile.compilerOptions later path := by
  refine ConfigFile.compilerOptions_congr halike ?_ path
  intro text other htexts
  rcases htexts with heq | ⟨members, others, hmembers, hothers, hsame⟩
  · exact Or.inl heq
  · have hget : ∀ key, isUnderived key = true →
        Keyed.get? key members = Keyed.get? key others := by
      intro key hkey
      rw [← get?_underived hkey members, hsame, get?_underived hkey others]
    refine Or.inr ⟨members, others, hmembers, hothers, fun path => ?_⟩
    unfold ConfigFile.told ConfigFile.bases ConfigFile.extendsNames ConfigFile.objectMember
    rw [hget "extends" (by decide), hget "compilerOptions" (by decide)]

theorem readObject_underived (path : FilePath) :
    (ConfigFile.readObject files path).map underived =
      (ConfigFile.readObject later path).map underived := by
  rcases halike.readText path with ⟨cause, hcause, hother⟩ | ⟨text, other, htext, hother, htexts⟩
  · rw [ConfigFile.readObject_congr (hcause.trans hother.symm)]
  · rcases htexts with rfl | ⟨members, others, hmembers, hothers, hsame⟩
    · rw [ConfigFile.readObject_congr (htext.trans hother.symm)]
    · rw [ConfigFile.readObject_of_reads htext hmembers,
        ConfigFile.readObject_of_reads hother hothers]
      exact congrArg Except.ok hsame

theorem muted_addTypedocFile (typedocJson : Option FilePath) (gathered : Gathered) :
    (addTypedocFile files typedocJson gathered).muted =
      (addTypedocFile later typedocJson gathered).muted := by
  cases typedocJson with
  | none => rfl
  | some path =>
    refine muted_bind_of_view underived ?_ fun members others hsame =>
      muted_addMembers_congr hsame "typedocJson" gathered
    rw [Report.map_except, Report.map_except, readObject_underived halike path]

end

/-- All options of two such runs are the same, apart from the warnings. -/
theorem muted_gather {files later : FileSystem} (halike : files.Alike SameUnderived later)
    {request again : Request}
    (htypedoc : underived (again.typedocOptions.getD []) =
      underived (request.typedocOptions.getD []))
    (hcompiler : again.compilerOptions = request.compilerOptions)
    (tsconfig typedocJson : Option FilePath) :
    (gather later again tsconfig typedocJson).muted =
      (gather files request tsconfig typedocJson).muted := by
  have htsconfig : addTsconfig later tsconfig .empty = addTsconfig files tsconfig .empty := by
    cases tsconfig with
    | none => rfl
    | some path => rw [addTsconfig, addTsconfig, compilerOptions_eq halike path]
  have hoptions : ∀ (request : Request) gathered, addTypedocOptions request gathered =
      gathered.addMembers "typedocOptions" (request.typedocOptions.getD []) := by
    intro request gathered
    unfold addTypedocOptions
    cases request.typedocOptions <;> rfl
  have hlast : ∀ gathered, addCompilerOptions again gathered =
      addCompilerOptions request gathered := by
    intro gathered
    rw [addCompilerOptions, addCompilerOptions, hcompiler]
  unfold gather
  rw [htsconfig]
  refine muted_bind_congr rfl fun gathered => ?_
  refine muted_bind_congr (muted_addTypedocFile halike typedocJson gathered).symm fun gathered => ?_
  rw [hoptions, hoptions]
  refine muted_bind_congr (muted_addMembers_congr htypedoc "typedocOptions" gathered)
    fun gathered => ?_
  rw [hlast]

end Options

/-- The same request with other generator options, of which the same are left without those that
are derived. -/
def Request.SameUnderived (request again : Request) : Prop :=
  again = { request with typedocOptions := again.typedocOptions } ∧
    Options.underived (again.typedocOptions.getD []) =
      Options.underived (request.typedocOptions.getD [])

namespace Manifest

/-- A manifest by the fields that a run reads. -/
def fields (manifest : Manifest) : Manifest := { manifest with raw := [] }

/-- Two texts are read alike as a manifest: they have the same fields, and the same is reported,
or the same error is made. -/
def ReadAlike (path : FilePath) (text later : String) : Prop :=
  fields <$> parse path later = fields <$> parse path text

end Manifest

section

variable {files later : FileSystem} {directory : FilePath} {request again : Request}
  (halike : files.Alike Options.SameUnderived later)

include halike

/-! ## Settings -/

theorem Site.requireFile_eq (field : String) (path : Option FilePath) :
    requireFile ⟨later, directory⟩ field path = requireFile ⟨files, directory⟩ field path := by
  cases path with
  | none => rfl
  | some path =>
    show (if later.isFile (directory.absolutize path) then _ else _) =
      (if files.isFile (directory.absolutize path) then _ else _)
    rw [halike.isFile_eq]
    rfl

theorem Settings.muted_ofRequest (hrequest : request.SameUnderived again) :
    (ofRequest ⟨later, directory⟩ CompilerOptions.check again).muted =
      (ofRequest ⟨files, directory⟩ CompilerOptions.check request).muted := by
  obtain ⟨hagain, htypedoc⟩ := hrequest
  generalize again.typedocOptions = options at hagain htypedoc
  subst hagain
  have hfile : ∀ field path, Site.requireFile ⟨later, directory⟩ field path =
      Site.requireFile ⟨files, directory⟩ field path := Site.requireFile_eq halike
  have hgather : ∀ tsconfig typedocJson,
      (Options.gather later { request with typedocOptions := options } tsconfig typedocJson).muted =
        (Options.gather files request tsconfig typedocJson).muted :=
    Options.muted_gather halike htypedoc rfl
  unfold ofRequest
  simp only [hfile]
  refine muted_bind_congr rfl fun navigation => ?_
  refine muted_bind_congr rfl fun condition => ?_
  refine muted_bind_congr rfl fun output => ?_
  refine muted_bind_congr rfl fun name => ?_
  refine muted_bind_congr rfl fun linkPlugins => ?_
  refine muted_bind_congr rfl fun tsconfig => ?_
  refine muted_bind_congr rfl fun typedocJson => ?_
  refine muted_bind_congr (hgather tsconfig typedocJson) fun gathered => ?_
  exact muted_bind_congr rfl fun compilerOptions => muted_bind_congr rfl fun moduleNames => rfl

/-! ## Subjects -/

theorem Source.ofRequest_eq (hpath : again.path = request.path) :
    ofRequest ⟨later, directory⟩ again = ofRequest ⟨files, directory⟩ request := by
  have hfile : later.isFile = files.isFile := funext fun path => (halike.isFile_eq path).symm
  have hdirectory : later.isDirectory = files.isDirectory :=
    funext fun path => (halike.isDirectory_eq path).symm
  unfold ofRequest atPath Manifest.find?
  rw [hpath]
  simp only [hfile, hdirectory]
  rfl

theorem Entry.collect_eq (manifest : Manifest) (exports : ExportTable) (demand : Demand) :
    collect later manifest exports demand = collect files manifest exports demand := by
  have hexisting : admitExisting later = admitExisting files := by
    funext candidate
    unfold admitExisting
    rw [halike.isFile_eq]
  unfold collect admitted addCandidate admits
  rw [hexisting]

/-- A manifest that is read alike is loaded alike. -/
theorem Manifest.fields_load_eq {path : FilePath}
    (hread : ∀ text other, files.readText path = .ok text → later.readText path = .ok other →
      ReadAlike path text other) :
    fields <$> load later path = fields <$> load files path := by
  rcases halike.readText path with ⟨cause, hcause, hother⟩ | ⟨text, other, htext, hother, -⟩
  · unfold load
    rw [hcause, hother, halike.isFile_eq]
  · have hload : ∀ (fs : FileSystem) source, fs.readText path = .ok source →
        fields <$> load fs path = (fields <$> parse path source) >>= fun manifest => do
          Noted.info "MANIFEST_LOADED" s!"loaded {path} ({manifest.label})"
          return manifest := by
      intro fs source hsource
      unfold load
      rw [if_pos (FileSystem.isFile_of_readText hsource), hsource, bind_map_left]
      show fields <$> (parse path source >>= _) = _
      rw [map_bind]
      rfl
    rw [hload later other hother, hload files text htext, hread text other htext hother]

theorem Subject.muted_ofManifest (settings : Settings) {path : FilePath}
    (hread : ∀ text other, files.readText path = .ok text → later.readText path = .ok other →
      Manifest.ReadAlike path text other) :
    (ofManifest later settings path).muted = (ofManifest files settings path).muted := by
  have hload := congrArg Report.muted (Manifest.fields_load_eq halike hread)
  unfold ofManifest
  refine muted_bind_of_view Manifest.fields hload ?_
  intro manifest other hfields
  -- Nothing in a package depends on the rest of the manifest.
  cases manifest
  cases other
  simp only [Manifest.fields, Manifest.mk.injEq] at hfields
  obtain ⟨rfl, rfl, rfl, rfl, rfl, rfl, -⟩ := hfields
  simp only [Entry.collect_eq halike]
  rfl

theorem Subject.muted_ofRequest (settings : Settings) (hpath : again.path = request.path)
    (hread : ∀ path text other,
      Source.ofRequest ⟨files, directory⟩ request = .ok (.manifest path) →
      files.readText path = .ok text → later.readText path = .ok other →
      Manifest.ReadAlike path text other) :
    (ofRequest ⟨later, directory⟩ settings again).muted =
      (ofRequest ⟨files, directory⟩ settings request).muted := by
  unfold ofRequest
  rw [Source.ofRequest_eq halike hpath]
  cases hsource : Source.ofRequest ⟨files, directory⟩ request with
  | error error => rfl
  | ok source =>
    cases source with
    | file path => rfl
    | manifest path =>
      exact muted_ofManifest halike settings fun text other => hread path text other hsource

end

/-! ## Configurations -/

namespace Options

/-- The generator options in the file of a request. -/
def fileOptions (files : FileSystem) : Option FilePath → Except Error Members
  | none => .ok []
  | some path => ConfigFile.readObject files path

/-- The generator options of a run: those of the request, or else those of its file, without the
ones that are derived and the compiler options that are embedded. -/
theorem exists_fileOptions {files : FileSystem} {request : Request}
    {tsconfig typedocJson : Option FilePath} {gathered : Gathered}
    (h : (gather files request tsconfig typedocJson).outcome = .ok gathered) :
    ∃ members, fileOptions files typedocJson = .ok members ∧
      ∀ key, Keyed.get? key gathered.typedoc =
        if isPassed key then
          (Keyed.last? key (request.typedocOptions.getD [])).or (Keyed.last? key members)
        else none := by
  obtain ⟨found, ⟨first, hfirst, hfile⟩, -, rfl⟩ := gather_eq_ok_iff.mp h
  have hempty : first.typedoc = [] := by
    rcases addTsconfig_eq_ok_iff.mp hfirst with ⟨-, rfl⟩ | ⟨path, options, -, -, rfl⟩
    · rfl
    · rfl
  obtain ⟨members, hmembers, htypedoc⟩ : ∃ members, fileOptions files typedocJson = .ok members ∧
      found.typedoc = Keyed.overlay [] (passed members) := by
    rcases addTypedocFile_eq_ok_iff.mp hfile with ⟨rfl, rfl⟩ | ⟨path, members, rfl, hread, hadded⟩
    · exact ⟨[], rfl, hempty⟩
    · obtain ⟨-, rfl⟩ := Gathered.addMembers_eq_ok_iff.mp hadded
      exact ⟨members, hread, by rw [hempty]⟩
  refine ⟨members, hmembers, fun key => ?_⟩
  have hpassed : ∀ options, Keyed.last? key (passed options) =
      if isPassed key then Keyed.last? key options else none := Keyed.last?_filter isPassed key
  rw [Keyed.get?_overlay, htypedoc, Keyed.get?_overlay, hpassed, hpassed]
  cases isPassed key with
  | true => simp [Keyed.get?]
  | false => rfl

end Options

namespace Config

/-- Adding, removing or changing options that a configuration derives itself, in a request or in
the file that it names, changes neither the outcome of a run nor what it reports apart from the
warnings of such options, as long as the manifest of the run is read alike. The generator options
of a configuration are the others that the request or its file holds, the request's first. -/
theorem derived_options_ignored (files later : FileSystem) (directory : FilePath)
    (request again : Request) (hfiles : files.Alike Options.SameUnderived later)
    (hrequest : request.SameUnderived again)
    (hmanifest : ∀ path text other,
      Source.ofRequest ⟨files, directory⟩ request = .ok (.manifest path) →
      files.readText path = .ok text → later.readText path = .ok other →
      Manifest.ReadAlike path text other) :
    (validate ⟨later, directory⟩ again).outcome = (validate ⟨files, directory⟩ request).outcome ∧
    (validate ⟨later, directory⟩ again).muted.diagnostics =
      (validate ⟨files, directory⟩ request).muted.diagnostics ∧
    ∀ config, (validate ⟨files, directory⟩ request).outcome = .ok config →
      ∃ members, Options.fileOptions files (request.typedocJson.map directory.absolutize) =
          .ok members ∧
        ∀ key, Keyed.get? key config.typedocOptions =
          if Options.isPassed key then
            (Keyed.last? key (request.typedocOptions.getD [])).or (Keyed.last? key members)
          else none := by
  have hpath : again.path = request.path := by rw [hrequest.1]
  have hsame : (validate ⟨later, directory⟩ again).muted =
      (validate ⟨files, directory⟩ request).muted := by
    unfold validate validateWith
    refine muted_bind_congr (Settings.muted_ofRequest hfiles hrequest) fun settings => ?_
    exact muted_bind_congr (Subject.muted_ofRequest hfiles settings hpath hmanifest)
      fun subject => rfl
  have houtcome : (validate ⟨later, directory⟩ again).muted.outcome =
      (validate ⟨files, directory⟩ request).muted.outcome := congrArg Report.outcome hsame
  refine ⟨houtcome, congrArg Report.diagnostics hsame, ?_⟩
  intro config hconfig
  obtain ⟨settings, subject, hsettings, -, rfl⟩ := validate_eq_ok_iff.mp hconfig
  have hmeets := Settings.ofRequest_eq_ok_iff.mp hsettings
  obtain ⟨gathered, hgathered, htypedoc, -⟩ := hmeets.options
  obtain ⟨members, hmembers, hall⟩ := Options.exists_fileOptions hgathered
  have htypedocJson : request.typedocJson.map directory.absolutize = settings.typedocJson :=
    (Site.requireFile_eq_ok_iff.mp hmeets.typedocJson).2
  rw [htypedocJson]
  refine ⟨members, hmembers, fun key => ?_⟩
  show Keyed.get? key settings.typedocOptions = _
  rw [htypedoc]
  exact hall key

/-- A package with generator options in a file. -/
def optionsPackage (options : String) : FileSystem where
  root := .directory [
    ("package.json".toList, .file (Utf8.encode "\x7b\"types\":\"./a.d.ts\"\x7d".toList)),
    ("a.d.ts".toList, .file []),
    ("typedoc.json".toList, .file (Utf8.encode options.toList))]
  workingDirectory := []

def plainOptions : String := "\x7b\"theme\":\"x\"\x7d"

/-- The same generator options and one that is derived. -/
def editedOptions : String := "\x7b\"out\":\"o\",\"theme\":\"x\"\x7d"

/-- A request that names the file with generator options, and sets some itself. -/
def optionsRequest (options : Members) : Request where
  typedocJson := some (FilePath.ofString "typedoc.json")
  typedocOptions := some options

theorem derived_options_ignored_of_package :
    (optionsPackage plainOptions).Alike Options.SameUnderived (optionsPackage editedOptions) ∧
    ∃ config,
      (validate ⟨optionsPackage plainOptions, FilePath.ofString "/"⟩
        (optionsRequest [])).outcome = .ok config ∧
      (validate ⟨optionsPackage editedOptions, FilePath.ofString "/"⟩
        (optionsRequest [("plugin", .array [])])).outcome = .ok config ∧
      Keyed.get? "theme" config.typedocOptions = some (.string "x") ∧
      Keyed.get? "out" config.typedocOptions = none := by
  have hplain : ConfigFile.Reads (textOf (Utf8.encode plainOptions.toList))
      [("theme", .string "x")] := by
    have hread : Json.Document.read plainOptions =
        .ok (.object [(⟨"theme", 5⟩, .string "x")]) := rfl
    exact ConfigFile.reads_of_document (by decide +kernel) hread rfl
  have hedited : ConfigFile.Reads (textOf (Utf8.encode editedOptions.toList))
      [("out", .string "o"), ("theme", .string "x")] := by
    have hread : Json.Document.read editedOptions =
        .ok (.object [(⟨"out", 17⟩, .string "o"), (⟨"theme", 5⟩, .string "x")]) := rfl
    exact ConfigFile.reads_of_document (by decide +kernel) hread rfl
  have halike :
      (optionsPackage plainOptions).Alike Options.SameUnderived (optionsPackage editedOptions) :=
    ⟨.directory rfl (.cons (.file (Or.inl rfl)) (.cons (.file (Or.inl rfl))
      (.cons (.file (Or.inr ⟨_, _, hplain, hedited, rfl⟩)) .nil))), rfl⟩
  have hfind : Manifest.find? (optionsPackage plainOptions) (FilePath.ofString "/") =
      some (FilePath.ofString "/package.json") := by
    decide +kernel
  have hsource : Source.ofRequest ⟨optionsPackage plainOptions, FilePath.ofString "/"⟩
      (optionsRequest []) = .ok (.manifest (FilePath.ofString "/package.json")) := by
    simp only [Source.ofRequest, optionsRequest, hfind]
  have hunedited : (optionsPackage editedOptions).readText (FilePath.ofString "/package.json") =
      (optionsPackage plainOptions).readText (FilePath.ofString "/package.json") := by
    decide +kernel
  have hfound : (validate ⟨optionsPackage plainOptions, FilePath.ofString "/"⟩
      (optionsRequest [])).outcome.toOption.isSome = true := by
    decide +kernel
  obtain ⟨config, hconfig⟩ := Option.isSome_iff_exists.mp hfound
  have hvalid := Error.toOption_eq_some_iff.mp hconfig
  obtain ⟨hsame, -, hoptions⟩ := derived_options_ignored (optionsPackage plainOptions)
    (optionsPackage editedOptions) (FilePath.ofString "/") (optionsRequest [])
    (optionsRequest [("plugin", .array [])]) halike ⟨rfl, rfl⟩ (by
      intro path text other hpath htext hother
      obtain rfl := Source.manifest.inj (Except.ok.inj (hpath.symm.trans hsource))
      obtain rfl := Except.ok.inj (hother.symm.trans (hunedited.trans htext))
      rfl)
  obtain ⟨members, hmembers, hall⟩ := hoptions config hvalid
  have hread : Options.fileOptions (optionsPackage plainOptions)
      (some (FilePath.ofString "/typedoc.json")) = .ok [("theme", .string "x")] := by
    have htext : (optionsPackage plainOptions).readText (FilePath.ofString "/typedoc.json") =
        .ok (textOf (Utf8.encode plainOptions.toList)) := by
      decide +kernel
    unfold Options.fileOptions
    exact ConfigFile.readObject_of_reads htext hplain
  obtain rfl := Except.ok.inj (hmembers.symm.trans hread)
  exact ⟨halike, config, hvalid, hsame.trans hvalid, hall "theme", hall "out"⟩

/-- A manifest alone, which gives its package two names. -/
def manifestAlone (manifest : String) : FileSystem where
  root := .directory [("package.json".toList, .file (Utf8.encode manifest.toList))]
  workingDirectory := []

def twiceNamed : String := "\x7b\"name\":\"a\",\"name\":\"b\"\x7d"

/-- The same manifest with a generator option that is derived. -/
def twiceNamedEdited : String := "\x7b\"out\":\"x\",\"name\":\"a\",\"name\":\"b\"\x7d"

/-- A request whose file of generator options is the manifest. -/
def manifestAsOptions : Request where
  typedocJson := some (FilePath.ofString "package.json")

/-- A derived option in a manifest moves the place that an error tells. -/
theorem edited_manifest_fails_elsewhere :
    (manifestAlone twiceNamedEdited).Alike Options.SameUnderived (manifestAlone twiceNamed) ∧
    (validate ⟨manifestAlone twiceNamedEdited, FilePath.ofString "/"⟩ manifestAsOptions).outcome =
      .error (.manifestInvalid (FilePath.ofString "/package.json")
        "duplicate field `name` at line 1 column 28") ∧
    (validate ⟨manifestAlone twiceNamed, FilePath.ofString "/"⟩ manifestAsOptions).outcome =
      .error (.manifestInvalid (FilePath.ofString "/package.json")
        "duplicate field `name` at line 1 column 18") := by
  have hedited : ConfigFile.Reads (textOf (Utf8.encode twiceNamedEdited.toList))
      [("out", .string "x"), ("name", .string "b")] := by
    have hread : Json.Document.read twiceNamedEdited =
        .ok (.object [(⟨"out", 27⟩, .string "x"), (⟨"name", 16⟩, .string "a"),
          (⟨"name", 5⟩, .string "b")]) := rfl
    exact ConfigFile.reads_of_document (by decide +kernel) hread rfl
  have hplain : ConfigFile.Reads (textOf (Utf8.encode twiceNamed.toList))
      [("name", .string "b")] := by
    have hread : Json.Document.read twiceNamed =
        .ok (.object [(⟨"name", 16⟩, .string "a"), (⟨"name", 5⟩, .string "b")]) := rfl
    exact ConfigFile.reads_of_document (by decide +kernel) hread rfl
  have hmoved : (validate ⟨manifestAlone twiceNamedEdited, FilePath.ofString "/"⟩
      manifestAsOptions).outcome.map (fun _ => ()) =
        .error (.manifestInvalid (FilePath.ofString "/package.json")
          "duplicate field `name` at line 1 column 28") := by
    decide +kernel
  have hplace : (validate ⟨manifestAlone twiceNamed, FilePath.ofString "/"⟩
      manifestAsOptions).outcome.map (fun _ => ()) =
        .error (.manifestInvalid (FilePath.ofString "/package.json")
          "duplicate field `name` at line 1 column 18") := by
    decide +kernel
  have halike :
      (manifestAlone twiceNamedEdited).Alike Options.SameUnderived (manifestAlone twiceNamed) :=
    ⟨.directory rfl (.cons (.file (Or.inr ⟨_, _, hedited, hplain, rfl⟩)) .nil), rfl⟩
  exact ⟨halike, Error.map_eq_error_iff.mp hmoved, Error.map_eq_error_iff.mp hplace⟩

end Config

end DocPlan
