import DocPlan.CommandLine.Run
import DocPlan.Proofs.Settings

/-!
# Values without repeated keys

No object in a value that was read from a text repeats a key (`Json.distinct_toJson`). Such a
value equals itself (`Json.Distinct.same_self`); one with a repeated key does not, since a
member is compared with the first one of its key.

Options are taken over from files and from the request, and a check of their values keeps
what is in them. So if no object in a request repeats a key, no object in the options of its
settings does (`Settings.Meets.same_options`). The request of a command line is such a
request (`CommandLine.Arguments.distinct_of_fullRequest`).
-/

namespace DocPlan

/-! ## Values -/

namespace Json

/-- No object in a value repeats a key. -/
inductive Distinct : Json → Prop where
  | null : Distinct .null
  | boolean (value : Bool) : Distinct (.boolean value)
  | number (value : Number) : Distinct (.number value)
  | string (text : String) : Distinct (.string text)
  | array {items : List Json} (each : ∀ item ∈ items, Distinct item) : Distinct (.array items)
  | object {members : Members} (once : (Keyed.keys members).Nodup)
      (each : ∀ member ∈ members, Distinct member.2) : Distinct (.object members)

theorem Distinct.of_mem {members : Members} (h : Distinct (.object members)) :
    ∀ member ∈ members, member.2.Distinct := by
  cases h with
  | object _ each => exact each

theorem distinct_strings (texts : List String) : (strings texts).Distinct := by
  refine .array ?_
  intro item hitem
  obtain ⟨text, -, rfl⟩ := List.mem_map.mp hitem
  exact .string text

/-- No object in the value of a document repeats a key. -/
theorem distinct_toJson (document : Document) : document.toJson.Distinct := by
  induction document with
  | null => exact .null
  | boolean value => exact .boolean value
  | number value => exact .number value
  | string text => exact .string text
  | array items ih =>
    rw [Document.toJson, itemsToJson_eq_map]
    exact .array (List.forall_mem_map.mpr ih)
  | object members ih =>
    rw [Document.toJson, membersToJson_eq_map]
    refine .object (Keyed.nodup_keys_collapse _) ?_
    refine Keyed.forall_mem_overlay (fun _ hmem => absurd hmem List.not_mem_nil) ?_
    exact List.forall_mem_map.mpr ih

theorem distinct_of_read {source : String} {value : Json} (h : read source = .ok value) :
    value.Distinct := by
  unfold read at h
  cases hdocument : Document.read source with
  | error reason =>
    rw [hdocument] at h
    cases h
  | ok document =>
    rw [hdocument] at h
    obtain rfl := Except.ok.inj h
    exact distinct_toJson document

/-! ## Equality -/

theorem sameItems_self {items : List Json} (h : ∀ item ∈ items, item.same item = true) :
    sameItems items items = true := by
  induction items with
  | nil => rfl
  | cons item rest ih =>
    obtain ⟨hitem, hrest⟩ := List.forall_mem_cons.mp h
    rw [sameItems, hitem, ih hrest]
    rfl

theorem sameMembers_of_get? {members others : Members}
    (h : ∀ member ∈ members, Keyed.get? member.1 others = some member.2)
    (hsame : ∀ member ∈ members, member.2.same member.2 = true) :
    sameMembers members others = true := by
  induction members with
  | nil => rfl
  | cons member rest ih =>
    obtain ⟨key, value⟩ := member
    obtain ⟨hget, hothers⟩ := List.forall_mem_cons.mp h
    obtain ⟨hvalue, hrest⟩ := List.forall_mem_cons.mp hsame
    rw [sameMembers, hget, ih hothers hrest, Bool.and_true]
    exact hvalue

/-- A value that repeats no key equals itself. -/
theorem Distinct.same_self {value : Json} (h : value.Distinct) : value.same value = true := by
  induction h with
  | null => rfl
  | boolean value => simp [same]
  | number value =>
    rw [same]
    cases value with
    | integer n => simp [Number.same]
    | real x => simp [Number.same, Binary64.sameValue]
  | string text => simp [same]
  | array _ ih =>
    rw [same]
    exact sameItems_self ih
  | object once _ ih =>
    rw [same, beq_self_eq_true, Bool.true_and]
    exact sameMembers_of_get? (fun member hmember => Keyed.get?_of_mem once hmember) ih

end Json

/-! ## Options -/

/-- No value of some members repeats a key. -/
def Members.EachDistinct (members : Members) : Prop := ∀ member ∈ members, member.2.Distinct

theorem Members.eachDistinct_nil : EachDistinct [] :=
  fun _ hmem => absurd hmem List.not_mem_nil

theorem Members.EachDistinct.overlay {base extra : Members} (hbase : base.EachDistinct)
    (hextra : extra.EachDistinct) : EachDistinct (Keyed.overlay base extra) :=
  Keyed.forall_mem_overlay (P := Json.Distinct) hbase hextra

theorem CompilerOptions.distinct_normalize {name : String} {value normal : Json}
    (hvalue : value.Distinct) (h : normalize name value = .ok normal) : normal.Distinct := by
  have htexts : ∀ {write : String → String} {items : List Json},
      checkTexts name write items = .ok normal → normal.Distinct := by
    intro write items h
    unfold checkTexts at h
    split at h
    next texts _ => exact Except.ok.inj h ▸ Json.distinct_strings _
    next => cases h
  unfold normalize at h
  split at h
  next => exact Except.ok.inj h ▸ hvalue
  next kind _ =>
    unfold checkValue at h
    split at h
    next => exact Except.ok.inj h ▸ hvalue
    next => exact Except.ok.inj h ▸ hvalue
    next => exact Except.ok.inj h ▸ hvalue
    next => exact Except.ok.inj h ▸ hvalue
    next =>
      split at h
      next => exact Except.ok.inj h ▸ hvalue
      next => cases h
    next => exact htexts h
    next => exact htexts h
    next =>
      split at h
      next => exact Except.ok.inj h ▸ .string _
      next => cases h
    next => cases h

namespace ConfigFile

theorem eachDistinct_readObject {fs : FileSystem} {path : FilePath} {members : Members}
    (h : readObject fs path = .ok members) : members.EachDistinct := by
  unfold readObject at h
  split at h
  next => cases h
  next =>
    split at h
    next => cases h
    next found hread =>
      obtain rfl := Except.ok.inj h
      exact (Json.distinct_of_read hread).of_mem
    next => cases h

theorem eachDistinct_objectMember {path : FilePath} {config members : Members} {field : String}
    (hconfig : config.EachDistinct) (h : objectMember path config field = .ok members) :
    members.EachDistinct := by
  unfold objectMember at h
  split at h
  next => exact Except.ok.inj h ▸ Members.eachDistinct_nil
  next => exact Except.ok.inj h ▸ Members.eachDistinct_nil
  next found hfound =>
    obtain rfl := Except.ok.inj h
    exact (hconfig _ (Keyed.mem_of_get?_eq_some hfound)).of_mem
  next => cases h

/-- The options of a file and its bases are laid over each other, so they repeat no key
that none of the files does. -/
theorem eachDistinct_addOptions {fs : FileSystem} {room : Nat} {opened : List FilePath}
    {merged result : Members} {path : FilePath} (hmerged : merged.EachDistinct)
    (h : addOptions fs room opened merged path = .ok result) : result.EachDistinct := by
  induction room generalizing opened merged result path with
  | zero =>
    unfold addOptions at h
    split at h <;> cases h
  | succ room ih =>
    unfold addOptions at h
    split at h
    next => cases h
    next =>
      simp only [Error.bind_eq_ok_iff] at h
      obtain ⟨config, hconfig, files, -, bases, hbases, options, hoptions, hresult⟩ := h
      obtain rfl := Except.ok.inj hresult
      have hbelow : bases.EachDistinct := Error.foldlM_induct (P := Members.EachDistinct)
        hmerged (fun _ _ _ _ hfound hnext => ih hfound hnext) hbases
      exact hbelow.overlay (eachDistinct_objectMember (eachDistinct_readObject hconfig) hoptions)

end ConfigFile

namespace Options

/-- No generator option that was gathered, and no source of compiler options, has a value
that repeats a key. -/
structure Gathered.EachDistinct (gathered : Gathered) : Prop where
  typedoc : gathered.typedoc.EachDistinct
  sources : ∀ source ∈ gathered.sources, source.EachDistinct

theorem Gathered.EachDistinct.addMembers {origin : String} {gathered result : Gathered}
    {members : Members} (hgathered : gathered.EachDistinct) (hmembers : members.EachDistinct)
    (h : (gathered.addMembers origin members).outcome = .ok result) : result.EachDistinct := by
  obtain ⟨-, rfl⟩ := addMembers_eq_ok_iff.mp h
  constructor
  · exact hgathered.typedoc.overlay fun member hmember =>
      hmembers member (List.mem_filter.mp hmember).1
  · intro source hsource
    rcases List.mem_append.mp hsource with hold | hnew
    · exact hgathered.sources source hold
    · obtain ⟨⟨key, value⟩, hmember, hembedded⟩ := List.mem_filterMap.mp hnew
      have hvalue := hmembers _ hmember
      unfold embedded? at hembedded
      split at hembedded
      next =>
        split at hembedded
        next found hfound =>
          obtain rfl := Option.some.inj hembedded
          simp only at hfound
          rw [hfound] at hvalue
          exact hvalue.of_mem
        next => cases hembedded
      next => cases hembedded

end Options

/-- No object in the options of a request repeats a key: they are values that can be read
from a text. -/
structure Request.Distinct (request : Request) : Prop where
  typedocOptions : ∀ members, request.typedocOptions = some members →
    (Json.object members).Distinct
  compilerOptions : ∀ members, request.compilerOptions = some members →
    (Json.object members).Distinct

namespace Request

theorem distinct_empty : Distinct {} where
  typedocOptions := fun _ h => nomatch h
  compilerOptions := fun _ h => nomatch h

theorem distinct_of_readObject {field : String} {value : Json} {found : Option Members}
    (hvalue : value.Distinct) (h : readObject field value = .ok found) :
    ∀ members, found = some members → (Json.object members).Distinct := by
  intro members hfound
  subst hfound
  cases value with
  | object kept =>
    obtain rfl := Option.some.inj (Except.ok.inj h)
    exact hvalue
  | null => cases Except.ok.inj h
  | _ => cases h

theorem Distinct.set {request result : Request} {member : String × Json}
    (hrequest : request.Distinct) (hvalue : member.2.Distinct)
    (h : request.set member = .ok result) : result.Distinct := by
  obtain ⟨key, value⟩ := member
  unfold Request.set at h
  simp only at h
  split at h
  case h_7 =>
    obtain ⟨options, hread, rfl⟩ := Error.map_eq_ok_iff.mp h
    exact ⟨distinct_of_readObject hvalue hread, hrequest.compilerOptions⟩
  case h_10 =>
    obtain ⟨options, hread, rfl⟩ := Error.map_eq_ok_iff.mp h
    exact ⟨hrequest.typedocOptions, distinct_of_readObject hvalue hread⟩
  case h_13 => cases h
  -- The other members leave the options as they are.
  all_goals
    obtain ⟨-, -, rfl⟩ := Error.map_eq_ok_iff.mp h
    exact ⟨hrequest.typedocOptions, hrequest.compilerOptions⟩

/-- A request repeats no key if the members that describe it do not. -/
theorem distinct_of_ofJson {members : Members} {request : Request}
    (hmembers : members.EachDistinct) (h : ofJson (.object members) = .ok request) :
    request.Distinct :=
  Error.foldlM_induct distinct_empty
    (fun member hmember _ _ hfound hnext => hfound.set (hmembers member hmember) hnext) h

end Request

/-- The request of a command line repeats no key. -/
theorem CommandLine.Arguments.distinct_of_fullRequest {site : Site} {arguments : Arguments}
    {request : Request} (h : arguments.fullRequest site = .ok request) : request.Distinct := by
  obtain ⟨base, hbase, rfl⟩ := Error.map_eq_ok_iff.mp h
  have hdistinct : base.Distinct := by
    unfold baseRequest at hbase
    split at hbase
    next file _ =>
      obtain ⟨members, hmembers, hrequest⟩ := Error.bind_eq_ok_iff.mp hbase
      exact Request.distinct_of_ofJson (ConfigFile.eachDistinct_readObject hmembers) hrequest
    next => exact Except.ok.inj hbase ▸ Request.distinct_empty
  exact ⟨hdistinct.typedocOptions, hdistinct.compilerOptions⟩

namespace Options

theorem Gathered.EachDistinct.addSource {gathered : Gathered} {source : Members}
    (hgathered : gathered.EachDistinct) (hsource : source.EachDistinct) :
    (gathered.addSource source).EachDistinct where
  typedoc := hgathered.typedoc
  sources := by
    intro other hother
    rcases List.mem_append.mp hother with hold | hnew
    · exact hgathered.sources other hold
    · exact List.mem_singleton.mp hnew ▸ hsource

theorem FromFiles.eachDistinct {fs : FileSystem} {tsconfig typedocJson : Option FilePath}
    {files : Gathered} (h : FromFiles fs tsconfig typedocJson files) : files.EachDistinct := by
  obtain ⟨first, hfirst, hfiles⟩ := h
  have hempty : Gathered.empty.EachDistinct :=
    ⟨Members.eachDistinct_nil, fun _ hmem => absurd hmem List.not_mem_nil⟩
  have hdistinct : first.EachDistinct := by
    rcases addTsconfig_eq_ok_iff.mp hfirst with ⟨-, rfl⟩ | ⟨path, options, -, hoptions, rfl⟩
    · exact hempty
    · exact hempty.addSource
        (ConfigFile.eachDistinct_addOptions Members.eachDistinct_nil hoptions)
  rcases addTypedocFile_eq_ok_iff.mp hfiles with ⟨-, rfl⟩ | ⟨path, members, -, hread, hadded⟩
  · exact hdistinct
  · exact hdistinct.addMembers (ConfigFile.eachDistinct_readObject hread) hadded

/-- What is gathered from files and a request repeats no key, if the request does not. -/
theorem eachDistinct_gather {fs : FileSystem} {request : Request}
    {tsconfig typedocJson : Option FilePath} {gathered : Gathered} (hrequest : request.Distinct)
    (h : (gather fs request tsconfig typedocJson).outcome = .ok gathered) :
    gathered.EachDistinct := by
  obtain ⟨files, hfiles, hembeds, rfl⟩ := gather_eq_ok_iff.mp h
  have htypedoc : Members.EachDistinct (request.typedocOptions.getD []) := by
    cases hoptions : request.typedocOptions with
    | none => exact Members.eachDistinct_nil
    | some members => exact (hrequest.typedocOptions members hoptions).of_mem
  have hadded : (files.addMembers "typedocOptions" (request.typedocOptions.getD [])).outcome =
      .ok _ := Gathered.addMembers_eq_ok_iff.mpr ⟨hembeds, rfl⟩
  have hdistinct := hfiles.eachDistinct.addMembers htypedoc hadded
  cases hoptions : request.compilerOptions with
  | none => exact ⟨hdistinct.typedoc, by simpa using hdistinct.sources⟩
  | some members =>
    exact hdistinct.addSource (hrequest.compilerOptions members hoptions).of_mem

theorem Gathered.EachDistinct.merged {gathered : Gathered} (h : gathered.EachDistinct) :
    gathered.merged.EachDistinct := by
  have hlayers : ∀ (sources : List Members) (base : Members), base.EachDistinct →
      (∀ source ∈ sources, source.EachDistinct) →
      Members.EachDistinct (sources.foldl Keyed.overlay base) := by
    intro sources
    induction sources with
    | nil => exact fun base hbase _ => hbase
    | cons source rest ih =>
      intro base hbase hsources
      obtain ⟨hsource, hrest⟩ := List.forall_mem_cons.mp hsources
      exact ih _ (hbase.overlay hsource) hrest
  exact hlayers gathered.sources [] Members.eachDistinct_nil h.sources

/-- A check keeps values that repeat no key. -/
theorem eachDistinct_of_check {merged : Members} {checked : Checked}
    (hmerged : merged.EachDistinct)
    (h : (check CompilerOptions.check merged).outcome = .ok checked) :
    checked.used.EachDistinct := by
  obtain ⟨-, rfl⟩ := check_eq_ok_iff.mp h
  intro kept hkept
  obtain ⟨option, hoption, heq⟩ := List.mem_filterMap.mp hkept
  obtain ⟨-, -, hnormal⟩ := CompilerOptions.kept?_eq_some_iff.mp heq
  exact CompilerOptions.distinct_normalize (hmerged option hoption) hnormal

end Options

/-- The options of settings repeat no key, if the request does not. -/
theorem Settings.Meets.distinct_options {site : Site} {request : Request} {settings : Settings}
    (h : Meets site CompilerOptions.check request settings) (hrequest : request.Distinct) :
    (Json.object settings.compilerOptions.used).Distinct ∧
      (Json.object settings.typedocOptions).Distinct := by
  obtain ⟨gathered, hgathered, htypedoc, hchecked⟩ := h.options
  have hdistinct := Options.eachDistinct_gather hrequest hgathered
  have hused := (Options.checked_of_check gathered.nodup_keys_merged hchecked).1
  constructor
  · exact .object hused (Options.eachDistinct_of_check hdistinct.merged hchecked)
  · rw [htypedoc]
    exact .object (Options.settled_of_gather hgathered).nodup hdistinct.typedoc

/-- The options of settings equal themselves, if the request repeats no key. -/
theorem Settings.Meets.same_options {site : Site} {request : Request} {settings : Settings}
    (h : Meets site CompilerOptions.check request settings) (hrequest : request.Distinct) :
    settings.compilerOptions.used.same settings.compilerOptions.used = true ∧
      settings.typedocOptions.same settings.typedocOptions = true := by
  obtain ⟨hused, htypedoc⟩ := h.distinct_options hrequest
  exact ⟨hused.same_self, htypedoc.same_self⟩

end DocPlan
