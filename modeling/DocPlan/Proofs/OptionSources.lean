import DocPlan.Proofs.CheckedOptions

/-!
# Options from several sources, put together again

Members of generator options fall into three kinds: embedded compiler options, options
that a configuration derives itself, and the others, which are passed on. Adding members
is told by that (`Gathered.addMembers_eq_ok_iff`): the embedded options become layers,
and the others are laid over the generator options so far.

What the configuration files give does not depend on the request. So a request for what
was found, seen with the same files, finds it again (`gather_again`).
-/

namespace DocPlan.Options

/-! ## Kinds of members -/

/-- The compiler options that a member embeds. -/
def embedded? (member : String × Json) : Option Members :=
  if member.1 = "compilerOptions" then
    match member.2 with
    | .object members => some members
    | _ => none
  else none

/-- Whether an option is passed on to the generator. -/
def isPassed (key : String) : Bool := key ≠ "compilerOptions" ∧ key ∉ reservedKeys

/-- The members that are passed on. -/
def passed (members : Members) : Members := members.filter fun member => isPassed member.1

/-- Embedded compiler options are an object or null. -/
def Embeds (member : String × Json) : Prop :=
  member.1 = "compilerOptions" → member.2 = .null ∨ ∃ members, member.2 = .object members

namespace Gathered

/-- What one more member adds. -/
def withMember (gathered : Gathered) (member : String × Json) : Gathered where
  typedoc := Keyed.overlay gathered.typedoc (passed [member])
  sources := gathered.sources ++ (embedded? member).toList

theorem addEmbedded_eq_ok_iff {origin : String} {gathered result : Gathered} {value : Json} :
    gathered.addEmbedded origin value = .ok result ↔
      (value = .null ∧ gathered = result) ∨
        ∃ members, value = .object members ∧ gathered.addSource members = result := by
  cases value <;> simp [addEmbedded]

theorem addMember_eq_ok_iff {origin : String} {gathered result : Gathered}
    {member : String × Json} :
    (gathered.addMember origin member).outcome = .ok result ↔
      Embeds member ∧ gathered.withMember member = result := by
  obtain ⟨key, value⟩ := member
  unfold addMember
  by_cases hcompiler : key = "compilerOptions"
  · subst hcompiler
    have hpassed : passed [("compilerOptions", value)] = [] := by simp [passed, isPassed]
    rw [if_pos rfl, Report.outcome_ofExcept, addEmbedded_eq_ok_iff, withMember, hpassed,
      Keyed.overlay_nil]
    constructor
    · rintro (⟨rfl, rfl⟩ | ⟨members, rfl, rfl⟩)
      · exact ⟨fun _ => Or.inl rfl, by simp [embedded?]⟩
      · exact ⟨fun _ => Or.inr ⟨members, rfl⟩, by simp [embedded?, addSource]⟩
    · rintro ⟨hembeds, rfl⟩
      rcases hembeds rfl with rfl | ⟨members, rfl⟩
      · exact Or.inl ⟨rfl, by simp [embedded?]⟩
      · exact Or.inr ⟨members, rfl, by simp [embedded?, addSource]⟩
  · have hembeds : Embeds (key, value) := fun h => absurd h hcompiler
    have hnone : embedded? (key, value) = none := if_neg hcompiler
    rw [if_neg hcompiler, and_iff_right hembeds, withMember, hnone]
    by_cases hreserved : key ∈ reservedKeys
    · have hpassed : passed [(key, value)] = [] := by simp [passed, isPassed, hreserved]
      rw [if_pos hreserved, hpassed]
      simp only [Report.outcome_bind, Report.outcome_noted, Report.outcome_pure,
        Keyed.overlay_nil, Option.toList_none, List.append_nil]
      exact Except.ok.injEq gathered result ▸ Iff.rfl
    · have hpassed : passed [(key, value)] = [(key, value)] := by
        simp [passed, isPassed, hreserved, hcompiler]
      rw [if_neg hreserved, hpassed, Report.outcome_pure, Except.ok.injEq]
      simp

/-- Adding members lays the ones that are passed on over the options so far, and every
embedded object becomes a source. -/
theorem addMembers_eq_ok_iff {origin : String} {gathered result : Gathered}
    {members : Members} :
    (gathered.addMembers origin members).outcome = .ok result ↔
      (∀ member ∈ members, Embeds member) ∧
        result = ⟨Keyed.overlay gathered.typedoc (passed members),
          gathered.sources ++ members.filterMap embedded?⟩ := by
  unfold addMembers
  rw [Report.outcome_foldlM]
  induction members generalizing gathered with
  | nil =>
    rw [List.foldlM_nil]
    show Except.ok gathered = Except.ok result ↔ _
    simp [passed, eq_comm]
  | cons member rest ih =>
    have htypedoc : Keyed.overlay gathered.typedoc (passed (member :: rest)) =
        Keyed.overlay (gathered.withMember member).typedoc (passed rest) := by
      rw [withMember, ← Keyed.overlay_append, passed, passed, passed, ← List.filter_append,
        List.singleton_append]
    have hsources : gathered.sources ++ (member :: rest).filterMap embedded? =
        (gathered.withMember member).sources ++ rest.filterMap embedded? := by
      rw [withMember, List.append_assoc, List.filterMap_cons]
      cases embedded? member <;> rfl
    rw [List.foldlM_cons, Error.bind_eq_ok_iff, List.forall_mem_cons, htypedoc, hsources]
    constructor
    · rintro ⟨next, hnext, hrest⟩
      obtain ⟨hembeds, rfl⟩ := addMember_eq_ok_iff.mp hnext
      obtain ⟨hall, hresult⟩ := ih.mp hrest
      exact ⟨⟨hembeds, hall⟩, hresult⟩
    · rintro ⟨⟨hembeds, hall⟩, hresult⟩
      exact ⟨_, addMember_eq_ok_iff.mpr ⟨hembeds, rfl⟩, ih.mpr ⟨hall, hresult⟩⟩

/-! ## Options that are passed on -/

/-- The generator options so far have distinct keys, and all of them are passed on. -/
structure Settled (gathered : Gathered) : Prop where
  nodup : (Keyed.keys gathered.typedoc).Nodup
  isPassed : ∀ key ∈ Keyed.keys gathered.typedoc, isPassed key = true

theorem settled_addMembers {origin : String} {gathered result : Gathered} {members : Members}
    (hsettled : gathered.Settled)
    (h : (gathered.addMembers origin members).outcome = .ok result) : result.Settled := by
  obtain ⟨-, rfl⟩ := addMembers_eq_ok_iff.mp h
  refine ⟨Keyed.nodup_keys_overlay hsettled.nodup, ?_⟩
  intro key hkey
  rcases Keyed.mem_keys_overlay.mp hkey with hold | hnew
  · exact hsettled.isPassed key hold
  · rw [passed, Keyed.keys_filter] at hnew
    exact (List.mem_filter.mp hnew).2

/-- Settled options are passed on as they are, and embed nothing. -/
theorem Settled.addMembers_again {gathered : Gathered} (h : gathered.Settled) :
    passed gathered.typedoc = gathered.typedoc ∧
      gathered.typedoc.filterMap embedded? = [] ∧
      ∀ member ∈ gathered.typedoc, Embeds member := by
  have hother : ∀ member ∈ gathered.typedoc, member.1 ≠ "compilerOptions" := by
    intro member hmember
    have hpassed := h.isPassed member.1 (List.mem_map_of_mem hmember)
    exact (of_decide_eq_true hpassed).1
  refine ⟨?_, ?_, ?_⟩
  · apply List.filter_eq_self.mpr
    intro member hmember
    exact h.isPassed member.1 (List.mem_map_of_mem hmember)
  · apply List.filterMap_eq_nil_iff.mpr
    intro member hmember
    exact if_neg (hother member hmember)
  · intro member hmember heq
    exact absurd heq (hother member hmember)

end Gathered

/-! ## All sources -/

/-- What the configuration files of a run give. -/
def FromFiles (fs : FileSystem) (tsconfig typedocJson : Option FilePath) (files : Gathered) :
    Prop :=
  ∃ first, addTsconfig fs tsconfig .empty = .ok first ∧
    (addTypedocFile fs typedocJson first).outcome = .ok files

/-- The compiler configuration file, if there is one, is one source. -/
theorem addTsconfig_eq_ok_iff {fs : FileSystem} {tsconfig : Option FilePath}
    {gathered result : Gathered} :
    addTsconfig fs tsconfig gathered = .ok result ↔
      (tsconfig = none ∧ result = gathered) ∨
        ∃ path options, tsconfig = some path ∧
          ConfigFile.compilerOptions fs path = .ok options ∧
          gathered.addSource options = result := by
  unfold addTsconfig
  cases tsconfig with
  | none => simp [eq_comm]
  | some path => simp [Error.map_eq_ok_iff]

/-- The members of the generator's configuration file, if there is one, are added. -/
theorem addTypedocFile_eq_ok_iff {fs : FileSystem} {typedocJson : Option FilePath}
    {gathered result : Gathered} :
    (addTypedocFile fs typedocJson gathered).outcome = .ok result ↔
      (typedocJson = none ∧ result = gathered) ∨
        ∃ path members, typedocJson = some path ∧ ConfigFile.readObject fs path = .ok members ∧
          (gathered.addMembers "typedocJson" members).outcome = .ok result := by
  unfold addTypedocFile
  cases typedocJson with
  | none => simp [eq_comm]
  | some path => simp [Error.bind_eq_ok_iff]

theorem FromFiles.settled {fs : FileSystem} {tsconfig typedocJson : Option FilePath}
    {files : Gathered} (h : FromFiles fs tsconfig typedocJson files) : files.Settled := by
  obtain ⟨first, hfirst, hfiles⟩ := h
  have hempty : Gathered.empty.Settled :=
    ⟨Keyed.nodup_keys_nil, fun _ hkey => absurd hkey List.not_mem_nil⟩
  have hsettled : first.Settled := by
    rcases addTsconfig_eq_ok_iff.mp hfirst with ⟨-, rfl⟩ | ⟨path, options, -, -, rfl⟩
    · exact hempty
    · exact ⟨hempty.nodup, hempty.isPassed⟩
  rcases addTypedocFile_eq_ok_iff.mp hfiles with ⟨-, rfl⟩ | ⟨path, members, -, -, hmembers⟩
  · exact hsettled
  · exact Gathered.settled_addMembers hsettled hmembers

/-- The options of a request are laid over those of the files. -/
theorem gather_eq_ok_iff {fs : FileSystem} {request : Request}
    {tsconfig typedocJson : Option FilePath} {gathered : Gathered} :
    (gather fs request tsconfig typedocJson).outcome = .ok gathered ↔
      ∃ files, FromFiles fs tsconfig typedocJson files ∧
        (∀ member ∈ request.typedocOptions.getD [], Embeds member) ∧
        gathered = ⟨Keyed.overlay files.typedoc (passed (request.typedocOptions.getD [])),
          files.sources ++ (request.typedocOptions.getD []).filterMap embedded? ++
            request.compilerOptions.toList⟩ := by
  have hoptions : ∀ files result : Gathered,
      (addTypedocOptions request files).outcome = .ok result ↔
        (files.addMembers "typedocOptions" (request.typedocOptions.getD [])).outcome =
          .ok result := by
    intro files result
    unfold addTypedocOptions
    cases request.typedocOptions <;> exact Iff.rfl
  have hcompiler : ∀ files : Gathered, addCompilerOptions request files =
      ⟨files.typedoc, files.sources ++ request.compilerOptions.toList⟩ := by
    intro files
    unfold addCompilerOptions
    cases request.compilerOptions with
    | none => simp
    | some members => rfl
  unfold gather
  simp only [Report.outcome_bind, Error.bind_eq_ok_iff, Report.outcome_except,
    Report.outcome_pure, Except.ok.injEq, hoptions, hcompiler, Gathered.addMembers_eq_ok_iff]
  constructor
  · rintro ⟨first, hfirst, files, hfiles, result, ⟨hembeds, rfl⟩, rfl⟩
    exact ⟨files, ⟨first, hfirst, hfiles⟩, hembeds, rfl⟩
  · rintro ⟨files, ⟨first, hfirst, hfiles⟩, hembeds, rfl⟩
    exact ⟨first, hfirst, files, hfiles, _, ⟨hembeds, rfl⟩, rfl⟩

theorem settled_of_gather {fs : FileSystem} {request : Request}
    {tsconfig typedocJson : Option FilePath} {gathered : Gathered}
    (h : (gather fs request tsconfig typedocJson).outcome = .ok gathered) :
    gathered.Settled := by
  obtain ⟨files, hfiles, hembeds, rfl⟩ := gather_eq_ok_iff.mp h
  have hmembers : (files.addMembers "typedocOptions" (request.typedocOptions.getD [])).outcome =
      .ok _ := Gathered.addMembers_eq_ok_iff.mpr ⟨hembeds, rfl⟩
  obtain ⟨hnodup, hpassed⟩ := Gathered.settled_addMembers hfiles.settled hmembers
  exact ⟨hnodup, hpassed⟩

theorem Gathered.nodup_keys_merged (gathered : Gathered) :
    (Keyed.keys gathered.merged).Nodup :=
  Keyed.nodup_keys_foldl_overlay Keyed.nodup_keys_nil gathered.sources

/-- Options that were found and checked are found and checked again, when the files are
the same and the request asks for what was found. -/
theorem gather_again {fs : FileSystem} {request : Request} (next : Request)
    {tsconfig typedocJson : Option FilePath} {gathered : Gathered} {checked : Checked}
    (hgather : (gather fs request tsconfig typedocJson).outcome = .ok gathered)
    (hcheck : (check CompilerOptions.check gathered.merged).outcome = .ok checked)
    (htypedoc : next.typedocOptions = some gathered.typedoc)
    (hcompiler : next.compilerOptions =
      some (Keyed.overlay checked.used (nulls checked.unset))) :
    ∃ again, (gather fs next tsconfig typedocJson).outcome = .ok again ∧
      again.typedoc = gathered.typedoc ∧
      (check CompilerOptions.check again.merged).outcome = .ok checked := by
  obtain ⟨files, hfiles, hembeds, hgathered⟩ := gather_eq_ok_iff.mp hgather
  obtain ⟨hpassed, hnone, hagain⟩ := (settled_of_gather hgather).addMembers_again
  refine ⟨_, gather_eq_ok_iff.mpr ⟨files, hfiles, ?_, rfl⟩, ?_, ?_⟩
  · rw [htypedoc]
    exact hagain
  · show Keyed.overlay files.typedoc (passed (next.typedocOptions.getD [])) = _
    rw [htypedoc, Option.getD_some, hpassed, hgathered]
    exact Keyed.overlay_absorb hfiles.settled.nodup _
  · have hmerged : gathered.merged = Keyed.overlay files.merged
        (((request.typedocOptions.getD []).filterMap embedded? ++
          request.compilerOptions.toList).foldl Keyed.overlay []) := by
      rw [hgathered, Gathered.merged, List.append_assoc, List.foldl_append,
        Keyed.foldl_overlay (files.sources.foldl _ _)]
      rfl
    rw [hmerged] at hcheck
    have hlayers : Gathered.merged ⟨Keyed.overlay files.typedoc
          (passed (next.typedocOptions.getD [])),
        files.sources ++ (next.typedocOptions.getD []).filterMap embedded? ++
          next.compilerOptions.toList⟩ = again files.merged checked := by
      rw [htypedoc, hcompiler, Option.getD_some, hnone, List.append_nil, Gathered.merged,
        List.foldl_append]
      rfl
    rw [hlayers]
    exact check_again files.nodup_keys_merged
      (Keyed.nodup_keys_foldl_overlay Keyed.nodup_keys_nil _) hcheck

end DocPlan.Options
