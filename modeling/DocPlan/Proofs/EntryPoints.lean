import DocPlan.Entry.Collect
import DocPlan.Exports.Resolve
import DocPlan.Proofs.EntrySets
import DocPlan.Proofs.NormalPaths
import DocPlan.Proofs.Overlay

/-!
# What entry points are

The entry points of a package are normal paths, each a pattern or an existing file of the
right kind (`Entry.collect_spec`). They depend on the manifest through the files that it
names and the places where relative paths are seen from its directory, and on nothing
else (`Entry.collect_congr`).
-/

namespace DocPlan

/-! ## Resolved exports -/

namespace Exports

theorem value_resolveSubpath (directory : FilePath) (conditions : Conditions)
    (table : ExportTable) (entry : String × Exports) :
    (resolveSubpath directory conditions table entry).value =
      match (resolveTarget conditions.names entry.1 entry.2).value with
      | some text => table.insert entry.1 (directory.absolutize (FilePath.ofString text))
      | none => table := by
  unfold resolveSubpath
  rw [Noted.value_bind]
  cases (resolveTarget conditions.names entry.1 entry.2).value <;> rfl

/-- Every file of a table is the target of an export, seen from the directory. -/
theorem of_mem_resolve {exports : Option Exports} {directory : FilePath}
    {conditions : Conditions} {entry : String × FilePath}
    (h : entry ∈ (resolve exports directory conditions).value.entries) :
    ∃ key item text, (resolveTarget conditions.names key item).value = some text ∧
      entry.2 = directory.absolutize (FilePath.ofString text) := by
  cases exports with
  | none => cases h
  | some exports =>
    refine Noted.foldlM_induct (P := fun table : ExportTable => ∀ entry ∈ table.entries,
      ∃ key item text, (resolveTarget conditions.names key item).value = some text ∧
        entry.2 = directory.absolutize (FilePath.ofString text)) ?_ ?_ entry h
    · intro entry hentry
      cases hentry
    · intro subpath _ table htable
      rw [value_resolveSubpath]
      split
      next text htext =>
        intro entry hentry
        rcases Keyed.mem_put hentry with hnew | hold
        · exact ⟨_, _, text, htext, hnew⟩
        · exact htable entry hold
      next => exact htable

/-- What holds of every place seen from a directory holds of the files of exports. -/
theorem forall_resolve {P : FilePath → Prop} {directory : FilePath}
    (hplaces : ∀ place, P (directory.absolutize place)) (exports : Option Exports)
    (conditions : Conditions) :
    ∀ entry ∈ (resolve exports directory conditions).value.entries, P entry.2 := by
  intro entry hentry
  obtain ⟨_, _, text, -, hpath⟩ := of_mem_resolve hentry
  rw [hpath]
  exact hplaces _

/-- Exports depend on a directory through the places of relative paths only. -/
theorem resolve_congr {directory other : FilePath}
    (h : ∀ path, directory.absolutize path = other.absolutize path)
    (exports : Option Exports) (conditions : Conditions) :
    (resolve exports directory conditions).value = (resolve exports other conditions).value := by
  cases exports with
  | none => rfl
  | some exports =>
    have hstep : (fun table subpath => (resolveSubpath directory conditions table subpath).value) =
        fun table subpath => (resolveSubpath other conditions table subpath).value := by
      funext table subpath
      rw [value_resolveSubpath, value_resolveSubpath]
      simp only [h]
    show ((subpathsOf exports).value.foldlM (resolveSubpath directory conditions) .empty).value =
      ((subpathsOf exports).value.foldlM (resolveSubpath other conditions) .empty).value
    rw [Noted.value_foldlM, Noted.value_foldlM, hstep]

end Exports

/-! ## Candidates -/

namespace Entry

/-- A path may be an entry point: it is a pattern, or an existing file of the right
kind. -/
def Admissible (fs : FileSystem) (path : FilePath) : Prop :=
  isPattern path = true ∨ fs.isFile path = true ∧ isAllowed path = true

theorem value_admitExisting (fs : FileSystem) (candidate : Candidate) :
    (admitExisting fs candidate).value =
      (isPattern candidate.path || fs.isFile candidate.path) := by
  unfold admitExisting
  split
  next hpattern => simp [hpattern]
  next hpattern =>
    split
    next hfile => simp [hfile]
    next hfile => simp [hpattern, hfile]

/-- A path is what a run asks for: it may be an entry point, and it leads to declarations
where only these are kept. -/
structure Qualifies (fs : FileSystem) (demand : Demand) (path : FilePath) : Prop where
  admissible : Admissible fs path
  declared : demand.condition = typesCondition → demand.policy = .exclude →
    yieldsDeclarations path = true

theorem admits_eq_true_iff {fs : FileSystem} {demand : Demand} {candidate : Candidate} :
    (admits fs demand candidate).value = true ↔ Qualifies fs demand candidate.path := by
  unfold admits
  split
  next hkind =>
    obtain ⟨hpattern, hallowed⟩ :
        isPattern candidate.path = false ∧ isAllowed candidate.path = false := by
      simpa using hkind
    constructor
    · intro h
      cases h
    · rintro ⟨hpattern' | ⟨-, hallowed'⟩, -⟩
      · rw [hpattern] at hpattern'
        cases hpattern'
      · rw [hallowed] at hallowed'
        cases hallowed'
  next hkind =>
    have hadmissible : (admitExisting fs candidate).value = true ↔
        Admissible fs candidate.path := by
      rw [value_admitExisting, Admissible]
      cases hpattern : isPattern candidate.path with
      | true => simp
      | false =>
        have hallowed : isAllowed candidate.path = true := by simpa [hpattern] using hkind
        simp [hallowed]
    split
    next hwithout =>
      obtain ⟨htypes, hyields⟩ :
          demand.condition = typesCondition ∧ yieldsDeclarations candidate.path = false := by
        simpa using hwithout
      rw [Noted.value_bind]
      split
      next hexclude =>
        constructor
        · intro h
          cases h
        · intro h
          rw [h.declared htypes hexclude] at hyields
          cases hyields
      next hkeep =>
        exact hadmissible.trans ⟨fun h => ⟨h, fun _ hexclude => absurd hexclude hkeep⟩,
          Qualifies.admissible⟩
    next hwith =>
      have hdeclared : demand.condition = typesCondition →
          yieldsDeclarations candidate.path = true := by
        intro htypes
        by_contra hyields
        exact hwith ⟨htypes, by simpa using hyields⟩
      exact hadmissible.trans ⟨fun h => ⟨h, fun htypes _ => hdeclared htypes⟩,
        Qualifies.admissible⟩

theorem value_addCandidate (fs : FileSystem) (demand : Demand) (set : EntrySet)
    (candidate : Candidate) :
    (addCandidate fs demand set candidate).value =
      if (admits fs demand candidate).value then set.insert candidate.path else set := by
  unfold addCandidate
  rw [Noted.value_bind]
  split <;> rfl

/-- The candidates that a run asks for make up the set. -/
theorem value_admitted (fs : FileSystem) (demand : Demand) (found : List Candidate) :
    (admitted fs demand found).value =
      EntrySet.ofList ((found.filter fun candidate => (admits fs demand candidate).value).map
        (·.path)) := by
  have hstep : (fun set candidate => (addCandidate fs demand set candidate).value) =
      fun (set : EntrySet) candidate =>
        if (admits fs demand candidate).value then set.insert candidate.path else set := by
    funext set candidate
    exact value_addCandidate fs demand set candidate
  rw [admitted, Noted.value_foldlM, hstep, EntrySet.ofList, List.foldl_map, List.foldl_filter]

/-- What is admitted is the path of some candidate, and what a run asks for. -/
theorem of_mem_admitted {fs : FileSystem} {demand : Demand} {found : List Candidate}
    {path : FilePath} (h : path ∈ (admitted fs demand found).value.paths) :
    (∃ candidate ∈ found, candidate.path = path) ∧ Qualifies fs demand path := by
  rw [value_admitted] at h
  obtain ⟨candidate, hcandidate, rfl⟩ := List.mem_map.mp (EntrySet.mem_of_mem_ofList h)
  obtain ⟨hfound, hadmits⟩ := List.mem_filter.mp hcandidate
  exact ⟨⟨candidate, hfound, rfl⟩, admits_eq_true_iff.mp hadmits⟩

theorem value_candidates (manifest : Manifest) (exports : ExportTable) (condition : String) :
    (candidates manifest exports condition).value =
      if exports.isEmpty then (fallbackCandidates manifest condition).value
      else exports.entries.map fun entry => ⟨s!"exports[\"{entry.1}\"]", entry.2⟩ := by
  unfold candidates
  split <;> rfl

theorem value_fallbackCandidates (manifest : Manifest) (condition : String) :
    (fallbackCandidates manifest condition).value =
      if condition = typesCondition then
        ((typesField? manifest).map fun entry => (⟨s!"\"{entry.1}\"",
          manifest.directory.absolutize (FilePath.ofString entry.2)⟩ : Candidate)).toList
      else [] := by
  unfold fallbackCandidates
  split
  next =>
    cases typesField? manifest with
    | none => rfl
    | some entry => rfl
  next => rfl

/-- What holds of the exports of a package, and of every place seen from its directory,
holds of its candidates. -/
theorem forall_candidates {P : FilePath → Prop} {manifest : Manifest} {exports : ExportTable}
    {condition : String} (hplaces : ∀ place, P (manifest.directory.absolutize place))
    (hexports : ∀ entry ∈ exports.entries, P entry.2) :
    ∀ candidate ∈ (candidates manifest exports condition).value, P candidate.path := by
  intro candidate hcandidate
  rw [value_candidates] at hcandidate
  split at hcandidate
  next =>
    rw [value_fallbackCandidates] at hcandidate
    split at hcandidate
    next =>
      obtain ⟨entry, -, rfl⟩ : ∃ entry, typesField? manifest = some entry ∧
          (⟨s!"\"{entry.1}\"", manifest.directory.absolutize (FilePath.ofString entry.2)⟩ :
            Candidate) = candidate := by
        simpa using hcandidate
      exact hplaces _
    next => cases hcandidate
  next =>
    obtain ⟨entry, hentry, rfl⟩ := List.mem_map.mp hcandidate
    exact hexports entry hentry

/-! ## Entry points of a package -/

theorem outcome_collect (fs : FileSystem) (manifest : Manifest) (exports : ExportTable)
    (demand : Demand) :
    (collect fs manifest exports demand).outcome =
      if (admitted fs demand
          (candidates manifest exports demand.condition).value).value.isEmpty then
        .error (.noEntryPoints manifest.path demand.condition)
      else .ok (admitted fs demand
        (candidates manifest exports demand.condition).value).value := by
  unfold collect
  rw [Report.outcome_bind, Report.outcome_noted]
  show (_ >>= _ : Report EntrySet).outcome = _
  rw [Report.outcome_bind, Report.outcome_noted]
  show Report.outcome (if _ then _ else _) = _
  split
  next => rfl
  next => rfl

theorem collect_eq_ok_iff {fs : FileSystem} {manifest : Manifest} {exports : ExportTable}
    {demand : Demand} {set : EntrySet} :
    (collect fs manifest exports demand).outcome = .ok set ↔
      set.isEmpty = false ∧
        set = (admitted fs demand (candidates manifest exports demand.condition).value).value := by
  rw [outcome_collect]
  split
  next hempty =>
    constructor
    · intro h
      cases h
    · rintro ⟨hset, rfl⟩
      rw [hempty] at hset
      cases hset
  next hempty =>
    rw [Except.ok.injEq]
    constructor
    · rintro rfl
      exact ⟨Bool.eq_false_iff.mpr hempty, rfl⟩
    · rintro ⟨-, rfl⟩
      rfl

theorem ordered_of_collect {fs : FileSystem} {manifest : Manifest} {exports : ExportTable}
    {demand : Demand} {set : EntrySet}
    (h : (collect fs manifest exports demand).outcome = .ok set) : set.Ordered := by
  obtain ⟨-, rfl⟩ := collect_eq_ok_iff.mp h
  rw [value_admitted]
  exact EntrySet.ordered_ofList _

/-- There is an entry point, and every one is a candidate that may be one. -/
theorem collect_spec {P : FilePath → Prop} {fs : FileSystem} {manifest : Manifest}
    {exports : ExportTable} {demand : Demand} {set : EntrySet}
    (hplaces : ∀ place, P (manifest.directory.absolutize place))
    (hexports : ∀ entry ∈ exports.entries, P entry.2)
    (h : (collect fs manifest exports demand).outcome = .ok set) :
    set.paths ≠ [] ∧ ∀ path ∈ set.paths, P path ∧ Admissible fs path := by
  obtain ⟨hempty, rfl⟩ := collect_eq_ok_iff.mp h
  constructor
  · intro hnil
    rw [EntrySet.isEmpty, hnil] at hempty
    cases hempty
  · intro path hpath
    obtain ⟨⟨candidate, hcandidate, rfl⟩, hqualifies⟩ := of_mem_admitted hpath
    exact ⟨forall_candidates hplaces hexports candidate hcandidate, hqualifies.admissible⟩

/-- Entry points depend on a manifest through the files that it names and the places of
relative paths only. -/
theorem collect_congr {fs : FileSystem} {manifest other : Manifest} {exports : ExportTable}
    {demand : Demand} {set : EntrySet} (htypes : typesField? manifest = typesField? other)
    (hplaces : ∀ path,
      manifest.directory.absolutize path = other.directory.absolutize path)
    (h : (collect fs manifest exports demand).outcome = .ok set) :
    (collect fs other exports demand).outcome = .ok set := by
  have hcandidates : (candidates manifest exports demand.condition).value =
      (candidates other exports demand.condition).value := by
    rw [value_candidates, value_candidates, value_fallbackCandidates, value_fallbackCandidates,
      htypes]
    simp only [hplaces]
  rw [collect_eq_ok_iff, ← hcandidates]
  exact collect_eq_ok_iff.mp h

end Entry

end DocPlan
