import Mathlib.Data.List.Forall2
import DocPlan.Proofs.EntryPoints
import DocPlan.Proofs.Reports

/-!
# What becomes of every candidate

Whether a candidate becomes an entry point is settled for it alone, by five tests in a fixed
order (`Entry.admits_eq_true_iff`). So the entry points of a package are the candidates that
qualify, as a set of paths: neither their order nor where they were named matters
(`Entry.sameEntries_of_paths`).

The reports follow the candidates. Each has a block of its own, in its turn, and the block tells
what became of it: an admitted candidate is reported as an entry point once, and one that is
turned down is warned of by the place where it was named (`Entry.accounts_account`).

Main result: `Entry.collect_accounts_for_candidates`.
-/

namespace DocPlan.Entry

/-! ## Candidates -/

/-- What a package offers: the files of its exports, or else, under the condition `types`, the
file of its field `types` or of its field `typings`. -/
def offered (manifest : Manifest) (exports : ExportTable) (condition : String) :
    List Candidate :=
  let file := fun (field : String) text =>
    (⟨s!"\"{field}\"", manifest.directory.absolutize (FilePath.ofString text)⟩ : Candidate)
  if exports.entries ≠ [] then
    exports.entries.map fun entry => ⟨s!"exports[\"{entry.1}\"]", entry.2⟩
  else if condition = typesCondition then
    ((manifest.types.map (file "types")).or (manifest.typings.map (file "typings"))).toList
  else []

theorem value_candidates_eq_offered (manifest : Manifest) (exports : ExportTable)
    (condition : String) :
    (candidates manifest exports condition).value = offered manifest exports condition := by
  rw [value_candidates, offered]
  by_cases hempty : exports.entries = []
  · have hisEmpty : exports.isEmpty = true := by rw [ExportTable.isEmpty, hempty]; rfl
    rw [if_pos hisEmpty, if_neg (not_not_intro hempty), value_fallbackCandidates]
    split
    next =>
      rw [typesField?]
      cases manifest.types <;> cases manifest.typings <;> rfl
    next => rfl
  · have hisEmpty : ¬ exports.isEmpty = true := by simpa [ExportTable.isEmpty] using hempty
    rw [if_neg hisEmpty, if_pos hempty]

/-- The paths that are offered do not depend on how the exports are keyed and ordered. -/
theorem exists_offered_iff (manifest : Manifest) (condition : String) {exports other : ExportTable}
    (h : ∀ path, path ∈ other.paths ↔ path ∈ exports.paths) (P : FilePath → Prop) :
    (∃ candidate ∈ offered manifest other condition, P candidate.path) ↔
      ∃ candidate ∈ offered manifest exports condition, P candidate.path := by
  have hexports : ∀ table : ExportTable, table.entries ≠ [] →
      ((∃ candidate ∈ offered manifest table condition, P candidate.path) ↔
        ∃ path ∈ table.paths, P path) := by
    intro table hne
    rw [offered, if_pos hne, ExportTable.paths]
    constructor
    · rintro ⟨candidate, hcandidate, hholds⟩
      obtain ⟨entry, hentry, rfl⟩ := List.mem_map.mp hcandidate
      exact ⟨entry.2, List.mem_map_of_mem hentry, hholds⟩
    · rintro ⟨path, hpath, hholds⟩
      obtain ⟨entry, hentry, rfl⟩ := List.mem_map.mp hpath
      exact ⟨_, List.mem_map_of_mem hentry, hholds⟩
  by_cases hempty : exports.entries = []
  · have hother : other.entries = [] := by
      apply List.eq_nil_iff_forall_not_mem.mpr
      intro entry hentry
      have hpath := (h entry.2).mp (List.mem_map_of_mem hentry)
      rw [ExportTable.paths, hempty] at hpath
      cases hpath
    rw [offered, offered, hempty, hother]
  · have hother : other.entries ≠ [] := by
      intro hnil
      obtain ⟨entry, hentry⟩ := List.exists_mem_of_ne_nil _ hempty
      have hpath := (h entry.2).mpr (List.mem_map_of_mem hentry)
      rw [ExportTable.paths, hnil] at hpath
      cases hpath
    rw [hexports exports hempty, hexports other hother]
    simp only [h]

/-! ## Reports -/

/-- The warnings that a candidate is turned down with. -/
def rejections : List (Severity × String) :=
  [(.warn, "ENTRY_UNSUPPORTED_EXTENSION"), (.warn, "INVALID_DECLARATION_FILE"),
   (.warn, "ENTRY_NOT_FOUND")]

/-- A diagnostic names a text that its message holds. -/
def NamedBy (text : String) (diagnostic : Diagnostic) : Prop :=
  text.toList <:+: diagnostic.message.toList

/-- The diagnostics that report an entry point. -/
def announced (diagnostics : List Diagnostic) : List Diagnostic :=
  diagnostics.filter (·.code = "ENTRY_POINT")

/-- Diagnostics tell what became of a candidate. -/
structure Accounts (fs : FileSystem) (demand : Demand) (candidate : Candidate)
    (diagnostics : List Diagnostic) : Prop where
  admitted : Qualifies fs demand candidate.path →
    announced diagnostics = [⟨.info, "ENTRY_POINT", s!"entry point {candidate.path}"⟩]
  rejected : ¬ Qualifies fs demand candidate.path → announced diagnostics = [] ∧
    ∃ diagnostic ∈ diagnostics,
      diagnostic.kind ∈ rejections ∧ NamedBy candidate.origin diagnostic

theorem announced_admits (fs : FileSystem) (demand : Demand) (candidate : Candidate) :
    announced (admits fs demand candidate).diagnostics = [] := by
  have hexisting : announced (admitExisting fs candidate).diagnostics = [] := by
    unfold admitExisting
    split
    next => rfl
    next => split <;> rfl
  unfold admits
  split
  next => rfl
  next =>
    split
    next =>
      rw [Noted.diagnostics_bind, announced, List.filter_append]
      split
      next => rfl
      next => exact hexisting
    next => exact hexisting

/-- A missing file is warned of. -/
theorem exists_rejection_admitExisting {fs : FileSystem} {candidate : Candidate}
    (h : (admitExisting fs candidate).value = false) :
    ∃ diagnostic ∈ (admitExisting fs candidate).diagnostics,
      diagnostic.kind ∈ rejections ∧ NamedBy candidate.origin diagnostic := by
  obtain ⟨hpattern, hfile⟩ :
      ¬ isPattern candidate.path = true ∧ ¬ fs.isFile candidate.path = true := by
    simpa [value_admitExisting] using h
  unfold admitExisting
  rw [if_neg hpattern, if_neg hfile]
  refine ⟨_, List.mem_singleton_self _, by simp [Diagnostic.kind, rejections], ?_⟩
  simp only [NamedBy, String.toList_append, List.append_assoc]
  exact (List.prefix_append _ _).isInfix

/-- A candidate that is turned down is warned of. -/
theorem exists_rejection {fs : FileSystem} {demand : Demand} {candidate : Candidate}
    (h : (admits fs demand candidate).value = false) :
    ∃ diagnostic ∈ (admits fs demand candidate).diagnostics,
      diagnostic.kind ∈ rejections ∧ NamedBy candidate.origin diagnostic := by
  unfold admits at h ⊢
  split at h
  next hkind =>
    rw [if_pos hkind]
    refine ⟨_, List.mem_singleton_self _, by simp [Diagnostic.kind, rejections], ?_⟩
    simp only [NamedBy, String.toList_append, List.append_assoc]
    exact (List.prefix_append _ _).isInfix
  next hkind =>
    rw [if_neg hkind]
    split at h
    next hwithout =>
      rw [if_pos hwithout, Noted.diagnostics_bind]
      refine ⟨_, List.mem_append_left _ (List.mem_singleton_self _),
        by simp [Diagnostic.kind, rejections], ?_⟩
      simp only [NamedBy, String.toList_append, List.append_assoc]
      exact (List.prefix_append _ _).isInfix.trans (List.suffix_append _ _).isInfix
    next hwith =>
      rw [if_neg hwith]
      exact exists_rejection_admitExisting h

/-- What adding a candidate reports, whatever was there before. -/
def account (fs : FileSystem) (demand : Demand) (candidate : Candidate) : List Diagnostic :=
  (addCandidate fs demand EntrySet.empty candidate).diagnostics

theorem diagnostics_addCandidate (fs : FileSystem) (demand : Demand) (set : EntrySet)
    (candidate : Candidate) :
    (addCandidate fs demand set candidate).diagnostics = account fs demand candidate := by
  unfold account addCandidate
  rw [Noted.diagnostics_bind, Noted.diagnostics_bind]
  split <;> rfl

theorem diagnostics_admitted (fs : FileSystem) (demand : Demand) (found : List Candidate) :
    (admitted fs demand found).diagnostics = (found.map (account fs demand)).flatten := by
  have hfold : ∀ set : EntrySet, (found.foldlM (addCandidate fs demand) set).diagnostics =
      (found.map (account fs demand)).flatten := by
    induction found with
    | nil => exact fun set => rfl
    | cons candidate rest ih =>
      intro set
      rw [List.foldlM_cons, Noted.diagnostics_bind, ih, diagnostics_addCandidate, List.map_cons,
        List.flatten_cons]
  exact hfold EntrySet.empty

/-- What is reported of a candidate tells what became of it. -/
theorem accounts_account (fs : FileSystem) (demand : Demand) (candidate : Candidate) :
    Accounts fs demand candidate (account fs demand candidate) := by
  have hbefore := announced_admits fs demand candidate
  unfold account addCandidate
  rw [Noted.diagnostics_bind]
  cases hadmits : (admits fs demand candidate).value with
  | true =>
    refine ⟨fun _ => ?_, fun hout => absurd (admits_eq_true_iff.mp hadmits) hout⟩
    rw [announced, List.filter_append]
    exact congrArg (· ++ _) hbefore
  | false =>
    have hout : ¬ Qualifies fs demand candidate.path := by
      intro hqualifies
      rw [admits_eq_true_iff.mpr hqualifies] at hadmits
      cases hadmits
    refine ⟨fun hqualifies => absurd hqualifies hout, fun _ => ?_⟩
    obtain ⟨diagnostic, hmem, hrejects⟩ := exists_rejection hadmits
    refine ⟨?_, diagnostic, List.mem_append_left _ hmem, hrejects⟩
    rw [announced, List.filter_append]
    exact congrArg (· ++ _) hbefore

/-! ## Entry points of a package -/

/-- The paths that are admitted are those of the candidates that qualify. -/
theorem mem_admitted_iff {fs : FileSystem} {demand : Demand} {found : List Candidate}
    {path : FilePath} :
    path ∈ (found.filter fun candidate => (admits fs demand candidate).value).map (·.path) ↔
      ∃ candidate ∈ found, Qualifies fs demand candidate.path ∧ candidate.path = path := by
  simp only [List.mem_map, List.mem_filter, admits_eq_true_iff, and_assoc]

theorem contains_admitted {fs : FileSystem} {demand : Demand} {found : List Candidate}
    {path : FilePath} :
    (admitted fs demand found).value.contains path = true ↔
      ∃ candidate ∈ found, Qualifies fs demand candidate.path ∧
        candidate.path.same path = true := by
  rw [value_admitted, EntrySet.contains_ofList]
  constructor
  · rintro ⟨listed, hlisted, hsame⟩
    obtain ⟨candidate, hfound, hqualifies, rfl⟩ := mem_admitted_iff.mp hlisted
    exact ⟨candidate, hfound, hqualifies, hsame⟩
  · rintro ⟨candidate, hfound, hqualifies, hsame⟩
    exact ⟨_, mem_admitted_iff.mpr ⟨candidate, hfound, hqualifies, rfl⟩, hsame⟩

theorem isEmpty_admitted {fs : FileSystem} {demand : Demand} {found : List Candidate} :
    (admitted fs demand found).value.isEmpty = true ↔
      ∀ candidate ∈ found, ¬ Qualifies fs demand candidate.path := by
  rw [value_admitted, EntrySet.isEmpty_ofList, List.isEmpty_iff, List.map_eq_nil_iff,
    List.filter_eq_nil_iff]
  simp only [admits_eq_true_iff]

/-- Two collections come to the same: the same paths, in any spelling, or the same error. -/
def SameEntries : Except Error EntrySet → Except Error EntrySet → Prop
  | .ok set, .ok other => set.same other = true
  | .error error, .error other => error = other
  | _, _ => False

/-- Entry points depend on the paths of the exports only, not on their keys and order. -/
theorem sameEntries_of_paths (fs : FileSystem) (manifest : Manifest) (demand : Demand)
    {exports other : ExportTable} (h : ∀ path, path ∈ other.paths ↔ path ∈ exports.paths) :
    SameEntries (collect fs manifest exports demand).outcome
      (collect fs manifest other demand).outcome := by
  have hcontains : ∀ path,
      (admitted fs demand (offered manifest exports demand.condition)).value.contains path = true ↔
        (admitted fs demand (offered manifest other demand.condition)).value.contains path =
          true := by
    intro path
    rw [contains_admitted, contains_admitted, exists_offered_iff manifest demand.condition h
      fun path' => Qualifies fs demand path' ∧ path'.same path = true]
  have hempty :
      (admitted fs demand (offered manifest other demand.condition)).value.isEmpty =
        (admitted fs demand (offered manifest exports demand.condition)).value.isEmpty := by
    have hsome := not_congr
      (exists_offered_iff manifest demand.condition h (Qualifies fs demand))
    apply Bool.eq_iff_iff.mpr
    rw [isEmpty_admitted, isEmpty_admitted]
    simpa using hsome
  have hordered : ∀ found : List Candidate, (admitted fs demand found).value.Ordered := by
    intro found
    rw [value_admitted]
    exact EntrySet.ordered_ofList _
  rw [outcome_collect, outcome_collect, value_candidates_eq_offered, value_candidates_eq_offered]
  rw [hempty]
  split
  next => rfl
  next => exact (hordered _).same_of_contains (hordered _) hcontains

theorem diagnostics_collect (fs : FileSystem) (manifest : Manifest) (exports : ExportTable)
    (demand : Demand) :
    (collect fs manifest exports demand).diagnostics =
      (candidates manifest exports demand.condition).diagnostics ++
        ((offered manifest exports demand.condition).map (account fs demand)).flatten := by
  unfold collect
  rw [Report.diagnostics_bind, Report.outcome_noted, Report.diagnostics_noted]
  show _ ++ (_ >>= _ : Report EntrySet).diagnostics = _
  rw [Report.diagnostics_bind, Report.outcome_noted, Report.diagnostics_noted,
    diagnostics_admitted, value_candidates_eq_offered]
  show _ ++ (_ ++ Report.diagnostics (if _ then _ else _)) = _
  split <;> exact congrArg _ (List.append_nil _)

/-- Choosing the candidates reports at most that the fields for types are used. -/
theorem code_of_mem_candidates {manifest : Manifest} {exports : ExportTable} {condition : String}
    {diagnostic : Diagnostic}
    (h : diagnostic ∈ (candidates manifest exports condition).diagnostics) :
    diagnostic.code = "TYPES_FALLBACK" := by
  unfold candidates fallbackCandidates at h
  split at h
  next =>
    split at h
    next =>
      split at h
      next => rw [List.mem_singleton.mp h]
      next => cases h
    next => cases h
  next => cases h

/-- The entry points of a package are its candidates that qualify, whatever the keys and the
order of its exports. There are none only if no candidate qualifies. Each candidate is accounted
for in the reports, in its turn. -/
theorem collect_accounts_for_candidates (fs : FileSystem) (manifest : Manifest)
    (exports : ExportTable) (demand : Demand) :
    let found := offered manifest exports demand.condition
    let report := collect fs manifest exports demand
    (report.outcome = .error (.noEntryPoints manifest.path demand.condition) ↔
      ∀ candidate ∈ found, ¬ Qualifies fs demand candidate.path) ∧
    ((∃ candidate ∈ found, Qualifies fs demand candidate.path) →
      ∃ set, report.outcome = .ok set ∧ set.Ordered ∧
        (∀ path ∈ set.paths, ∃ candidate ∈ found,
          Qualifies fs demand candidate.path ∧ candidate.path = path) ∧
        ∀ path, set.contains path = true ↔ ∃ candidate ∈ found,
          Qualifies fs demand candidate.path ∧ candidate.path.same path = true) ∧
    (∀ other : ExportTable, (∀ path, path ∈ other.paths ↔ path ∈ exports.paths) →
      SameEntries report.outcome (collect fs manifest other demand).outcome) ∧
    ∃ before blocks, report.diagnostics = before ++ blocks.flatten ∧
      (∀ diagnostic ∈ before, diagnostic.code = "TYPES_FALLBACK") ∧
      List.Forall₂ (Accounts fs demand) found blocks := by
  intro found report
  have houtcome : report.outcome =
      if (admitted fs demand found).value.isEmpty then
        .error (.noEntryPoints manifest.path demand.condition)
      else .ok (admitted fs demand found).value := by
    rw [outcome_collect, value_candidates_eq_offered]
  have hnone : (admitted fs demand found).value.isEmpty = true ↔
      ∀ candidate ∈ found, ¬ Qualifies fs demand candidate.path := isEmpty_admitted
  refine ⟨?_, ?_, ?_, ?_⟩
  · rw [houtcome, ← hnone]
    split
    next hempty => exact iff_of_true rfl hempty
    next hsome => exact iff_of_false (fun h => nomatch h) hsome
  · rintro ⟨candidate, hcandidate, hqualifies⟩
    have hsome : ¬ (admitted fs demand found).value.isEmpty = true :=
      fun hempty => hnone.mp hempty candidate hcandidate hqualifies
    rw [houtcome, if_neg hsome]
    refine ⟨_, rfl, ?_, ?_, fun path => contains_admitted⟩
    · rw [value_admitted]
      exact EntrySet.ordered_ofList _
    · intro path hpath
      rw [value_admitted] at hpath
      exact mem_admitted_iff.mp (EntrySet.mem_of_mem_ofList hpath)
  · exact fun other hpaths => sameEntries_of_paths fs manifest demand hpaths
  · refine ⟨_, _, diagnostics_collect fs manifest exports demand, ?_, ?_⟩
    · exact fun diagnostic hmem => code_of_mem_candidates hmem
    · rw [List.forall₂_map_right_iff, List.forall₂_same]
      exact fun candidate _ => accounts_account fs demand candidate

end DocPlan.Entry
