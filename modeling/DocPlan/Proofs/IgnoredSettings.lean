import DocPlan.Proofs.MergeUnions

/-!
# Settings that a merge ignores

A merge takes most settings from its first configuration (`Config.TakenFrom`). It compares some
of them with those of the others and reports every difference, in the order of the
configurations. So a merge that reports nothing has configurations that agree on what is compared
(`Config.diagnostics_reportDifferences_eq_nil_iff`).

Two settings are taken and not compared: the path of the generator's options and the policy for
declarations. Those of a later configuration are not looked at, and where they differ they are
lost without a report (`unreported_settings`).

Main result: `ignored_settings_reported`.
-/

namespace DocPlan.Config

/-- The settings of a merge are those of one configuration. -/
structure TakenFrom (first result : Config) : Prop where
  condition : result.condition = first.condition
  output : result.output = first.output
  navigation : result.navigation = first.navigation
  tsconfig : result.tsconfig = first.tsconfig
  typedocJson : result.typedocJson = first.typedocJson
  typedocOptions : result.typedocOptions = first.typedocOptions
  compilerOptions : result.compilerOptions = first.compilerOptions
  unsetCompilerOptions : result.unsetCompilerOptions = first.unsetCompilerOptions
  policy : result.policy = first.policy

variable {first merged result : Config} {rest : List Config}

theorem takenFrom_of_foldlM (h : (rest.foldlM mergeOne first).outcome = .ok merged) :
    TakenFrom first merged := by
  refine Report.foldlM_induct ⟨rfl, rfl, rfl, rfl, rfl, rfl, rfl, rfl, rfl⟩ ?_ h
  intro config _ found next hfound hstep
  obtain ⟨names, -, -, rfl⟩ := mergeOne_eq_ok_iff.mp hstep
  exact { hfound with }

/-- The settings that are not compared make no difference to a merge. -/
theorem merge_of_uncompared (first : Config) (rest : List Config)
    (typedocJson : Config → Option FilePath) (policy : Config → DeclarationPolicy) :
    merge (first :: rest.map fun config =>
        { config with typedocJson := typedocJson config, policy := policy config }) =
      merge (first :: rest) := by
  simp only [merge, List.foldlM_map]
  rfl

/-- The settings of a merge are those of its first configuration. Every setting that is compared
and differs is reported, so a merge without such a report has configurations that agree on these
settings. Two settings are not compared. -/
theorem ignored_settings_reported (first : Config) (rest : List Config) (result : Config)
    (h : (merge (first :: rest)).outcome = .ok result) :
    TakenFrom first result ∧
    (merge (first :: rest)).diagnostics = (rest.flatMap fun config =>
      ((differences result config).filter (·.2)).map fun setting =>
        ignoredSetting config setting.1) ∧
    ((∀ diagnostic ∈ (merge (first :: rest)).diagnostics,
        diagnostic.code ≠ "MERGE_SETTING_IGNORED") ↔
      ∀ config ∈ rest, Agrees result config) ∧
    ∀ (typedocJson : Config → Option FilePath) (policy : Config → DeclarationPolicy),
      merge (first :: rest.map fun config =>
          { config with typedocJson := typedocJson config, policy := policy config }) =
        merge (first :: rest) := by
  obtain ⟨merged, hmerged, rfl⟩ := merge_cons_eq_ok_iff.mp h
  have htaken : TakenFrom first merged.anonymous := { takenFrom_of_foldlM hmerged with }
  have hcompared : reportDifferences merged.anonymous = reportDifferences first := by
    funext config
    unfold reportDifferences differences
    rw [htaken.condition, htaken.output, htaken.navigation, htaken.tsconfig,
      htaken.compilerOptions, htaken.unsetCompilerOptions, htaken.typedocOptions]
  have hreports := diagnostics_merge_cons h
  rw [← hcompared] at hreports
  refine ⟨htaken, hreports, ?_, merge_of_uncompared first rest⟩
  simp only [← diagnostics_reportDifferences_eq_nil_iff]
  rw [← List.flatMap_eq_nil_iff, ← hreports]
  constructor
  · intro hsilent
    apply List.eq_nil_iff_forall_not_mem.mpr
    intro diagnostic hmem
    refine hsilent diagnostic hmem ?_
    rw [hreports] at hmem
    obtain ⟨config, -, hconfig⟩ := List.mem_flatMap.mp hmem
    obtain ⟨setting, -, rfl⟩ := List.mem_map.mp hconfig
    rfl
  · intro hnone diagnostic hmem
    rw [hnone] at hmem
    cases hmem

/-- Two packages, and options for the generator. -/
def settingsSite : Site where
  files := {
    root := .directory [
      ("a".toList, .directory [
        ("package.json".toList, .file (Utf8.encode "\x7b\"types\":\"./a.d.ts\"\x7d".toList)),
        ("a.d.ts".toList, .file [])]),
      ("b".toList, .directory [
        ("package.json".toList, .file (Utf8.encode "\x7b\"types\":\"./b.d.ts\"\x7d".toList)),
        ("b.d.ts".toList, .file [])]),
      ("typedoc.json".toList, .file (Utf8.encode "\x7b\x7d".toList))]
    workingDirectory := [] }
  directory := FilePath.ofString "/"

/-- The request for the first package. -/
def firstRequest : Request where
  path := some (FilePath.ofString "/a")

theorem ignored_settings_reported_of_navigation :
    ∃ first other result, Validated first ∧ Validated other ∧
      (merge [first, other]).outcome = .ok result ∧ (merge [first, other]).diagnostics.length = 1 ∧
      TakenFrom first result ∧ ¬ Agrees result other := by
  have hseen : mergedWith settingsSite firstRequest
      { path := some (FilePath.ofString "/b"), navigation := some "flat" }
      (fun _ _ _ diagnostics => diagnostics.map (·.code)) = some ["MERGE_SETTING_IGNORED"] := by
    decide +kernel
  obtain ⟨first, other, result, hfirst, hother, hmerge, hcodes⟩ := exists_of_mergedWith hseen
  obtain ⟨htaken, -, hsilent, -⟩ := ignored_settings_reported first [other] result hmerge
  obtain ⟨diagnostic, hone, hcode⟩ := List.map_eq_singleton_iff.mp hcodes
  refine ⟨first, other, result, ⟨_, _, _, hfirst⟩, ⟨_, _, _, hother⟩, hmerge, by rw [hone]; rfl,
    htaken, ?_⟩
  intro hagrees
  refine hsilent.mpr (List.forall_mem_singleton.mpr hagrees) diagnostic ?_ hcode
  rw [hone]
  exact List.mem_singleton_self diagnostic

/-- A path of generator options and a policy are lost in a merge without a report. -/
theorem unreported_settings :
    ∃ first other result, Validated first ∧ Validated other ∧
      (merge [first, other]).outcome = .ok result ∧ (merge [first, other]).diagnostics = [] ∧
      other.typedocJson = some (FilePath.ofString "/typedoc.json") ∧ result.typedocJson = none ∧
      other.policy = .exclude ∧ result.policy = .warnAndInclude := by
  have hseen : mergedWith settingsSite firstRequest
      { path := some (FilePath.ofString "/b"), policy := .exclude,
        typedocJson := some (FilePath.ofString "/typedoc.json") }
      (fun _ other result diagnostics => (diagnostics.isEmpty,
        other.typedocJson, result.typedocJson, other.policy, result.policy)) =
      some (true, some (FilePath.ofString "/typedoc.json"), none, .exclude, .warnAndInclude) := by
    decide +kernel
  obtain ⟨first, other, result, hfirst, hother, hmerge, hfields⟩ := exists_of_mergedWith hseen
  simp only [Prod.mk.injEq, List.isEmpty_iff] at hfields
  exact ⟨first, other, result, ⟨_, _, _, hfirst⟩, ⟨_, _, _, hother⟩, hmerge, hfields⟩

end DocPlan.Config
