import DocPlan.Proofs.Catalogue
import DocPlan.Proofs.ManifestReadings

/-!
# What each declared subpath comes to

A subpath may be declared several times. Its first declaration gives its place and its last
one what it exports. Both are settled before anything is resolved: the subpaths of an export
are its declarations, collapsed (`value_subpathsOf`). Collapsed declarations have distinct keys,
so every subpath that resolves is a new entry at the end of the table, and none replaces
another (`entries_foldl_addResolved`).

The reports keep account of the declarations. Collecting one more either adds a subpath or
reports a repetition, so the two counts always add up (`count_duplicates_foldlM_declare`). Then
each subpath is reported once, with its file or as one without.

Main result: `resolve_by_last_declarations`.
-/

namespace DocPlan.Exports

/-! ## Declarations -/

/-- The declarations of subpaths in an export, in order and with repeated keys. An export that
is no object with subpaths is declared itself, as the subpath `.`, if it can be an export at
all. -/
def declarations : Option Exports → List (String × Exports)
  | some (.subpaths entries) => entries.filter fun entry => isSubpathKey entry.1
  | some (.mixed entries) => entries.filter fun entry => isSubpathKey entry.1
  | some (.target text) => [(".", .target text)]
  | some (.fallbacks items) => [(".", .fallbacks items)]
  | some (.conditions entries) => [(".", .conditions entries)]
  | some .null => []
  | some (.unsupported _) => []
  | none => []

/-- The subpaths of an export, each once and in the order of first declaration. -/
def declaredKeys (exports : Option Exports) : List String :=
  (Keyed.keys (declarations exports)).eraseDups

/-- The file of a subpath: what its last declaration resolves to, seen from a directory. -/
def fileOf? (exports : Option Exports) (directory : FilePath) (conditions : Conditions)
    (key : String) : Option FilePath :=
  (Keyed.last? key (declarations exports)).bind fun item =>
    (resolveTarget conditions.names key item).value.map fun text =>
      directory.absolutize (FilePath.ofString text)

/-- What is reported of a subpath: its file, or that it has none. -/
def verdict (conditions : Conditions) (key : String) : Option FilePath → Diagnostic
  | some path => ⟨.info, "EXPORT_RESOLVED", about key s!"-> {path}"⟩
  | none =>
    let wanted := ", ".intercalate conditions.names
    ⟨.info, "EXPORT_NO_MATCH", about key s!"has no target for conditions [{wanted}]"⟩

/-- Whether a diagnostic is a verdict. -/
def isVerdict (diagnostic : Diagnostic) : Bool :=
  diagnostic.code = "EXPORT_RESOLVED" || diagnostic.code = "EXPORT_NO_MATCH"

theorem isVerdict_verdict (conditions : Conditions) (key : String) (file : Option FilePath) :
    isVerdict (verdict conditions key file) = true := by
  cases file <;> rfl

theorem isSubpathKey_of_mem_declarations {exports : Option Exports} {entry : String × Exports}
    (h : entry ∈ declarations exports) : isSubpathKey entry.1 = true := by
  have hroot : ∀ item : Exports, entry ∈ [(".", item)] → isSubpathKey entry.1 = true := by
    intro item hmem
    rw [List.mem_singleton.mp hmem]
    show isSubpathKey "." = true
    decide
  have hkept : ∀ entries : List (String × Exports),
      entry ∈ entries.filter (fun entry => isSubpathKey entry.1) → isSubpathKey entry.1 = true :=
    fun entries hmem => (List.mem_filter.mp hmem).2
  unfold declarations at h
  split at h
  next entries => exact hkept entries h
  next entries => exact hkept entries h
  next => exact hroot _ h
  next => exact hroot _ h
  next => exact hroot _ h
  next => cases h
  next => cases h
  next => cases h

/-- The subpaths of an export are its declarations, each key once. -/
theorem value_subpathsOf (exports : Exports) :
    (subpathsOf exports).value = Keyed.collapse (declarations (some exports)) := by
  cases exports with
  | subpaths entries => exact value_declaredSubpaths entries
  | mixed entries => exact value_declaredSubpaths entries
  | _ => rfl

/-! ## The table -/

/-- The files of subpaths with distinct keys follow what a table holds, if no key is there. -/
theorem entries_foldl_addResolved (directory : FilePath) {found : List (String × Option String)}
    (hnodup : (Keyed.keys found).Nodup) {table : ExportTable}
    (hnew : ∀ key ∈ Keyed.keys found, key ∉ table.keys) :
    (found.foldl (addResolved directory) table).entries =
      table.entries ++ found.filterMap fun result =>
        result.2.map fun text => (result.1, directory.absolutize (FilePath.ofString text)) := by
  induction found generalizing table with
  | nil => exact (List.append_nil _).symm
  | cons result rest ih =>
    obtain ⟨key, target⟩ := result
    obtain ⟨hout, hrest⟩ : key ∉ Keyed.keys rest ∧ (Keyed.keys rest).Nodup :=
      List.nodup_cons.mp hnodup
    obtain ⟨hkey, hlater⟩ := List.forall_mem_cons.mp hnew
    rw [List.foldl_cons]
    cases target with
    | none => exact ih hrest hlater
    | some text =>
      have hentries : (addResolved directory table (key, some text)).entries =
          table.entries ++ [(key, directory.absolutize (FilePath.ofString text))] :=
        Keyed.put_of_notMem hkey
      have hnew' : ∀ other ∈ Keyed.keys rest,
          other ∉ (addResolved directory table (key, some text)).keys := by
        intro other hother hmem
        rw [ExportTable.keys, hentries, Keyed.keys, List.map_append] at hmem
        rcases List.mem_append.mp hmem with hold | hsame
        · exact hlater other hother hold
        · obtain rfl : other = key := List.mem_singleton.mp hsame
          exact hout hother
      rw [ih hrest hnew', hentries, List.append_assoc]
      rfl

/-- The table of an export lists the subpaths that have a file, in the order of first
declaration. -/
theorem entries_resolve (exports : Option Exports) (directory : FilePath)
    (conditions : Conditions) :
    (resolve exports directory conditions).value.entries =
      (declaredKeys exports).filterMap fun key =>
        (fileOf? exports directory conditions key).map fun path => (key, path) := by
  cases exports with
  | none => rfl
  | some exports =>
    have hkeys : Keyed.keys (resolvedBy conditions.names
        (Keyed.collapse (declarations (some exports)))) = declaredKeys (some exports) := by
      rw [resolvedBy,
        Keyed.keys_map fun key item => (resolveTarget conditions.names key item).value]
      exact Keyed.keys_collapse _
    have hnodup : (declaredKeys (some exports)).Nodup := by
      rw [declaredKeys, ← Keyed.keys_collapse]
      exact Keyed.nodup_keys_collapse _
    have hempty : ∀ key ∈ Keyed.keys (resolvedBy conditions.names
        (Keyed.collapse (declarations (some exports)))), key ∉ ExportTable.empty.keys :=
      fun _ _ => List.not_mem_nil
    rw [value_resolve, value_subpathsOf,
      entries_foldl_addResolved directory (hkeys ▸ hnodup) hempty, ← hkeys, Keyed.keys,
      resolvedBy, List.map_map, List.filterMap_map, List.filterMap_map]
    show [] ++ _ = _
    rw [List.nil_append]
    apply List.filterMap_congr
    intro entry hentry
    have hlast := Keyed.last?_of_mem_collapse hentry
    simp [fileOf?, hlast, Function.comp_def, Option.map_map]

/-! ## Reports -/

/-- How often a repeated declaration is reported. -/
def duplicates (diagnostics : List Diagnostic) : Nat :=
  (diagnostics.filter (·.kind = (.warn, "EXPORTS_DUPLICATE_KEY"))).length

theorem duplicates_append (front back : List Diagnostic) :
    duplicates (front ++ back) = duplicates front + duplicates back := by
  rw [duplicates, List.filter_append, List.length_append]
  rfl

/-- A declaration adds a subpath or is reported as a repetition. -/
theorem count_duplicates_declare (declared : List (String × Exports)) (entry : String × Exports) :
    duplicates (declare declared entry).diagnostics + (declare declared entry).value.length =
      declared.length + 1 := by
  unfold declare
  split
  next hmem =>
    show 1 + (Keyed.put entry.1 entry.2 declared).length = _
    rw [Keyed.length_put, if_pos hmem, Nat.add_comm]
  next hout =>
    show 0 + (Keyed.put entry.1 entry.2 declared).length = _
    rw [Keyed.length_put, if_neg hout, Nat.zero_add]

theorem count_duplicates_foldlM_declare (entries declared : List (String × Exports)) :
    duplicates (entries.foldlM declare declared).diagnostics +
        (entries.foldlM declare declared).value.length = declared.length + entries.length := by
  induction entries generalizing declared with
  | nil => exact Nat.zero_add _
  | cons entry rest ih =>
    have hfirst := count_duplicates_declare declared entry
    have hrest := ih (declare declared entry).value
    rw [List.foldlM_cons, Noted.diagnostics_bind, Noted.value_bind, duplicates_append,
      List.length_cons]
    omega

theorem count_duplicates_subpathsOf (exports : Exports) :
    duplicates (subpathsOf exports).diagnostics + (declaredKeys (some exports)).length =
      (declarations (some exports)).length := by
  have hdeclared : ∀ entries : List (String × Exports),
      duplicates (declaredSubpaths entries).diagnostics +
          (Keyed.keys (entries.filter fun entry => isSubpathKey entry.1)).eraseDups.length =
        (entries.filter fun entry => isSubpathKey entry.1).length := by
    intro entries
    have hcount := count_duplicates_foldlM_declare
      (entries.filter fun entry => isSubpathKey entry.1) []
    rw [← Keyed.keys_collapse, Keyed.keys, List.length_map, ← value_declaredSubpaths]
    exact hcount.trans (Nat.zero_add _)
  cases exports with
  | subpaths entries => exact hdeclared entries
  | mixed entries => exact hdeclared entries
  | _ => rfl

theorem diagnostics_resolveSubpath (directory : FilePath) (conditions : Conditions)
    (table : ExportTable) (entry : String × Exports) :
    (resolveSubpath directory conditions table entry).diagnostics =
      (resolveTarget conditions.names entry.1 entry.2).diagnostics ++
        [verdict conditions entry.1 ((resolveTarget conditions.names entry.1 entry.2).value.map
          fun text => directory.absolutize (FilePath.ofString text))] := by
  unfold resolveSubpath
  rw [Noted.diagnostics_bind]
  cases (resolveTarget conditions.names entry.1 entry.2).value <;> rfl

/-- No verdict is among diagnostics of other kinds. -/
theorem filter_isVerdict_eq_nil {kinds : List (Severity × String)} {diagnostics : List Diagnostic}
    (h : ∀ diagnostic ∈ diagnostics, diagnostic.kind ∈ kinds)
    (hkinds : ∀ kind ∈ kinds, kind.2 ≠ "EXPORT_RESOLVED" ∧ kind.2 ≠ "EXPORT_NO_MATCH") :
    diagnostics.filter isVerdict = [] := by
  apply List.filter_eq_nil_iff.mpr
  intro diagnostic hmem
  obtain ⟨hresolved, hunmatched⟩ := hkinds diagnostic.kind (h diagnostic hmem)
  have hcodes : diagnostic.code ≠ "EXPORT_RESOLVED" ∧ diagnostic.code ≠ "EXPORT_NO_MATCH" :=
    ⟨hresolved, hunmatched⟩
  simp [isVerdict, hcodes]

/-- Every subpath that is resolved gets one verdict, in its turn. -/
theorem verdicts_foldlM_resolveSubpath (directory : FilePath) (conditions : Conditions)
    (subpaths : List (String × Exports)) (table : ExportTable) :
    (subpaths.foldlM (resolveSubpath directory conditions) table).diagnostics.filter isVerdict =
      subpaths.map fun entry => verdict conditions entry.1
        ((resolveTarget conditions.names entry.1 entry.2).value.map
          fun text => directory.absolutize (FilePath.ofString text)) := by
  induction subpaths generalizing table with
  | nil => rfl
  | cons entry rest ih =>
    have htarget : (resolveTarget conditions.names entry.1 entry.2).diagnostics.filter isVerdict =
        [] :=
      filter_isVerdict_eq_nil (within_resolveTarget conditions.names entry.1 entry.2) (by decide)
    rw [List.foldlM_cons, Noted.diagnostics_bind, List.filter_append, ih,
      diagnostics_resolveSubpath, List.filter_append, htarget, List.nil_append,
      List.filter_cons_of_pos (isVerdict_verdict _ _ _)]
    rfl

/-- Resolving the subpaths reports no repetition: these were found before. -/
theorem duplicates_foldlM_resolveSubpath (directory : FilePath) (conditions : Conditions)
    (subpaths : List (String × Exports)) (table : ExportTable) :
    duplicates (subpaths.foldlM (resolveSubpath directory conditions) table).diagnostics = 0 := by
  have hwithin : Noted.Within
      (targetKinds ++ [(.info, "EXPORT_RESOLVED"), (.info, "EXPORT_NO_MATCH")])
      (subpaths.foldlM (resolveSubpath directory conditions) table) := by
    refine Noted.within_foldlM table ?_
    intro table entry diagnostic hmem
    rw [diagnostics_resolveSubpath] at hmem
    rcases List.mem_append.mp hmem with htarget | hverdict
    · exact List.mem_append_left _ (within_resolveTarget _ _ _ diagnostic htarget)
    · rw [List.mem_singleton.mp hverdict]
      cases (resolveTarget conditions.names entry.1 entry.2).value <;>
        simp [verdict, Diagnostic.kind]
  apply List.length_eq_zero_iff.mpr
  apply List.filter_eq_nil_iff.mpr
  intro diagnostic hmem hkind
  have hlisted := hwithin diagnostic hmem
  rw [of_decide_eq_true hkind] at hlisted
  revert hlisted
  decide

/-! ## The whole account -/

theorem filter_isVerdict_resolve (exports : Option Exports) (directory : FilePath)
    (conditions : Conditions) :
    (resolve exports directory conditions).diagnostics.filter isVerdict =
      (declaredKeys exports).map fun key =>
        verdict conditions key (fileOf? exports directory conditions key) := by
  cases exports with
  | none => rfl
  | some exports =>
    have hdeclared : (subpathsOf exports).diagnostics.filter isVerdict = [] :=
      filter_isVerdict_eq_nil (within_subpathsOf exports) (by decide)
    unfold resolve
    rw [Noted.diagnostics_bind, List.filter_append, hdeclared, List.nil_append,
      verdicts_foldlM_resolveSubpath, value_subpathsOf, declaredKeys, ← Keyed.keys_collapse,
      Keyed.keys, List.map_map]
    apply List.map_congr_left
    intro entry hentry
    have hlast := Keyed.last?_of_mem_collapse hentry
    simp [fileOf?, hlast]

/-- A subpath with a file is declared. -/
theorem mem_declaredKeys_of_fileOf? {exports : Option Exports} {directory : FilePath}
    {conditions : Conditions} {key : String} {path : FilePath}
    (h : fileOf? exports directory conditions key = some path) : key ∈ declaredKeys exports := by
  obtain ⟨item, hlast, -⟩ := Option.bind_eq_some_iff.mp h
  rw [declaredKeys, List.mem_eraseDups]
  by_contra hout
  rw [Keyed.last?_eq_none_iff.mpr hout] at hlast
  cases hlast

theorem keys_resolve (exports : Option Exports) (directory : FilePath) (conditions : Conditions) :
    (resolve exports directory conditions).value.keys = (declaredKeys exports).filter
      fun key => (fileOf? exports directory conditions key).isSome := by
  rw [ExportTable.keys, entries_resolve, Keyed.keys]
  induction declaredKeys exports with
  | nil => rfl
  | cons key rest ih =>
    rw [List.filterMap_cons, List.filter_cons]
    cases fileOf? exports directory conditions key with
    | none => exact ih
    | some path => exact congrArg (key :: ·) ih

/-- The table of an export has, in the order of their first declarations, the subpaths whose
last declaration resolves, each with the file that it resolves to. Every declared subpath is
reported once, in the same order and with its file if it has one, and every declaration that
repeats a subpath is reported as a repetition. -/
theorem resolve_by_last_declarations (exports : Option Exports) (directory : FilePath)
    (conditions : Conditions) :
    let found := resolve exports directory conditions
    found.value.keys.Nodup ∧
    found.value.keys = (declaredKeys exports).filter
      (fun key => (fileOf? exports directory conditions key).isSome) ∧
    (∀ key, found.value.get? key = fileOf? exports directory conditions key) ∧
    (∀ key ∈ found.value.keys, isSubpathKey key = true) ∧
    found.diagnostics.filter isVerdict = (declaredKeys exports).map
      (fun key => verdict conditions key (found.value.get? key)) ∧
    duplicates found.diagnostics + (declaredKeys exports).length =
      (declarations exports).length := by
  have hkeys := keys_resolve exports directory conditions
  have hnodup : (resolve exports directory conditions).value.keys.Nodup := by
    rw [hkeys, declaredKeys, ← Keyed.keys_collapse]
    exact (Keyed.nodup_keys_collapse _).filter _
  have hget : ∀ key, (resolve exports directory conditions).value.get? key =
      fileOf? exports directory conditions key := by
    intro key
    cases hfile : fileOf? exports directory conditions key with
    | none =>
      apply Keyed.get?_eq_none_iff.mpr
      show key ∉ (resolve exports directory conditions).value.keys
      rw [hkeys]
      intro hmem
      have hsome := (List.mem_filter.mp hmem).2
      rw [hfile] at hsome
      cases hsome
    | some path =>
      apply Keyed.get?_of_mem hnodup
      rw [entries_resolve]
      exact List.mem_filterMap.mpr ⟨key, mem_declaredKeys_of_fileOf? hfile, by rw [hfile]; rfl⟩
  refine ⟨hnodup, hkeys, hget, ?_, ?_, ?_⟩
  · intro key hmem
    rw [hkeys] at hmem
    have hdeclared : key ∈ Keyed.keys (declarations exports) :=
      List.mem_eraseDups.mp (List.mem_filter.mp hmem).1
    obtain ⟨entry, hentry, rfl⟩ := List.mem_map.mp hdeclared
    exact isSubpathKey_of_mem_declarations hentry
  · rw [filter_isVerdict_resolve]
    exact List.map_congr_left fun key _ => by rw [hget]
  · cases exports with
    | none => rfl
    | some exports =>
      show duplicates ((subpathsOf exports).diagnostics ++ _) + _ = _
      rw [duplicates_append, duplicates_foldlM_resolveSubpath, Nat.add_zero,
        count_duplicates_subpathsOf]

/-- The last declaration of `./a` resolves to nothing, and the first one does not count. -/
example : (resolve (some (.subpaths [("./a", .target "./a.js"), ("./b", .target "./b.js"),
    ("./a", .null)])) (FilePath.ofString "/p") .standard).value.entries =
      [("./b", FilePath.ofString "/p/b.js")] := by decide

end DocPlan.Exports
