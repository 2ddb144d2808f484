import DocPlan.Proofs.AlikeMerges
import DocPlan.Proofs.DistinctKeys
import DocPlan.Proofs.MergeUnions

/-!
# Merging in stages

At the end of a merge the name and the path are left out and one flag is derived again
(`Config.anonymous`). Nothing that a later step reads or reports depends on these, so finishing a
merge commutes with every step (`Config.mergeOne_anonymous`) and with all of them. A merge may
therefore be finished in the middle and taken up again with its result as the first
configuration.

What is merged with itself does not change: there is nothing new to list and nothing to report
(`Config.mergeOne_self`). This needs what the types of the fields promise
(`Config.WellFormed`): ordered entry points, and no name or key that is given twice. Every run
keeps these promises (`Config.wellFormed_of_run`).

Main result: `merge_in_stages`.
-/

namespace DocPlan

namespace Config

/-! ## Stages -/

/-- A step does not depend on what is left out at the end, and keeps it left out. -/
theorem mergeOne_anonymous (merged config : Config) :
    mergeOne merged.anonymous config = mergeOne merged config >>= fun next =>
      pure next.anonymous := by
  unfold mergeOne
  simp only [bind_assoc, pure_bind]
  rfl

theorem foldlM_mergeOne_anonymous (merged : Config) (rest : List Config) :
    rest.foldlM mergeOne merged.anonymous = rest.foldlM mergeOne merged >>= fun next =>
      pure next.anonymous := by
  induction rest generalizing merged with
  | nil => rw [List.foldlM_nil, List.foldlM_nil, pure_bind]
  | cons config rest ih =>
    simp only [List.foldlM_cons, mergeOne_anonymous, bind_assoc, pure_bind, ih]

/-- A merge may be finished and taken up again. -/
theorem merge_append {front : List Config} (hne : front ≠ []) (back : List Config) :
    merge (front ++ back) = merge front >>= fun merged => merge (merged :: back) := by
  cases front with
  | nil => exact absurd rfl hne
  | cons first rest =>
    have hagain : ∀ merged : Config, merged.anonymous.anonymous = merged.anonymous :=
      fun merged => rfl
    simp only [merge, List.cons_append, List.foldlM_append, bind_assoc, pure_bind,
      foldlM_mergeOne_anonymous, hagain]

/-! ## A configuration twice -/

/-- What the types of the fields promise: entry points in order and each once, no module named
twice and no key repeated. -/
structure WellFormed (config : Config) : Prop where
  entryPoints : config.entryPoints.Ordered
  moduleNames : config.moduleNames.Distinct
  compilerOptions : (Json.object config.compilerOptions).Distinct
  typedocOptions : (Json.object config.typedocOptions).Distinct

/-- Merging a configuration with itself changes and reports nothing. -/
theorem mergeOne_self {config : Config} (h : config.WellFormed)
    (hexclusive : LinkPlugin.checkExclusive config.linkPlugins = .ok ()) :
    mergeOne config config = pure config := by
  have hplugins : unitePlugins config.linkPlugins config.linkPlugins = config.linkPlugins :=
    LinkPlugin.foldl_addTo_of_subset fun plugin hplugin => hplugin
  refine Report.ext ?_ ?_
  · rw [diagnostics_mergeOne]
    exact diagnostics_reportDifferences_eq_nil_iff.mpr
      (agrees_of_shared rfl rfl h.compilerOptions.same_self h.typedocOptions.same_self)
  · refine mergeOne_eq_ok_iff.mpr ⟨config.moduleNames, ?_, ?_, ?_⟩
    · exact uniteNames_eq_ok_iff.mpr
        (ModuleNames.insertAll_of_subset h.moduleNames fun entry hentry => hentry)
    · rw [hplugins, hexclusive]
    · rw [hplugins, h.entryPoints.union_self, unitePaths_self, Bool.and_self, Bool.and_self]

theorem wellFormed_of_validate {site : Site} {request : Request} {config : Config}
    (hrequest : request.Distinct) (h : (validate site request).outcome = .ok config) :
    config.WellFormed := by
  have hmergeable := Validated.mergeable ⟨_, _, _, h⟩
  obtain ⟨settings, subject, hsettings, -, rfl⟩ := validate_eq_ok_iff.mp h
  obtain ⟨hused, htypedoc⟩ :=
    (Settings.ofRequest_eq_ok_iff.mp hsettings).distinct_options hrequest
  exact ⟨hmergeable.ordered, hmergeable.moduleNames, hused, htypedoc⟩

theorem wellFormed_of_merge {configs : List Config} {result : Config}
    (hconfigs : ∀ config ∈ configs, config.WellFormed)
    (h : (merge configs).outcome = .ok result) : result.WellFormed := by
  refine merge_induct ?_ ?_ hconfigs h
  · intro merged config next hmerged hconfig hnext
    obtain ⟨names, hnames, -, rfl⟩ := mergeOne_eq_ok_iff.mp hnext
    exact { hmerged with
      entryPoints := hmerged.entryPoints.union config.entryPoints
      moduleNames := distinct_uniteNames hmerged.moduleNames hnames }
  · exact fun config hconfig => { hconfig with }

/-- A run gives a well-formed configuration, over a package or a workspace. -/
theorem wellFormed_of_run {site : Site} {overWorkspace : Bool} {request : Request} {config : Config}
    (hrequest : request.Distinct) (h : (Plan.run site overWorkspace request).outcome = .ok config) :
    config.WellFormed := by
  refine Plan.run_induct (P := WellFormed) ?_ ?_ ?_ h
  · exact fun _ config hconfig => wellFormed_of_validate hrequest hconfig
  · intro single member config _ hconfig
    have hmember : (Plan.memberRequest request single member).Distinct :=
      ⟨hrequest.typedocOptions, hrequest.compilerOptions⟩
    exact wellFormed_of_validate hmember hconfig
  · exact fun configs result => wellFormed_of_merge

/-! ## Both -/

/-- Merging some configurations and then others onto the result is merging all of them: with the
same result or error and the same reports in the same order. A configuration whose plugins do
not exclude each other may be merged with itself, which gives and reports what it gives alone. -/
theorem merge_in_stages :
    (∀ front back : List Config, front ≠ [] →
      (∀ merged, (merge front).outcome = .ok merged →
        (merge (front ++ back)).outcome = (merge (merged :: back)).outcome ∧
          (merge (front ++ back)).diagnostics =
            (merge front).diagnostics ++ (merge (merged :: back)).diagnostics) ∧
      ∀ error, (merge front).outcome = .error error → merge (front ++ back) = merge front) ∧
    ∀ config : Config, config.WellFormed →
      ¬ (LinkPlugin.dom ∈ config.linkPlugins ∧ .worker ∈ config.linkPlugins) →
        merge [config, config] = merge [config] ∧ (merge [config]).diagnostics = [] := by
  constructor
  · intro front back hne
    have hstages := merge_append hne back
    constructor
    · intro merged hmerged
      rw [hstages, Report.outcome_bind, Report.diagnostics_bind, hmerged]
      exact ⟨rfl, rfl⟩
    · intro error herror
      rw [hstages]
      refine Report.ext ?_ ?_
      · rw [Report.diagnostics_bind, herror, List.append_nil]
      · rw [Report.outcome_bind, herror]
        rfl
  · intro config hformed hboth
    have hself := mergeOne_self hformed (LinkPlugin.checkExclusive_eq_ok_iff.mpr hboth)
    refine ⟨?_, rfl⟩
    rw [merge, merge, List.foldlM_cons, hself, pure_bind]

theorem distinct_packageRequest (path plugin : String) : (packageRequest path plugin).Distinct where
  typedocOptions := fun _ h => nomatch h
  compilerOptions := fun _ h => nomatch h

theorem merge_in_stages_of_packages :
    ∃ a b merged, (validate Plan.exampleSite (packageRequest "/a" "node")).outcome = .ok a ∧
      (validate Plan.exampleSite (packageRequest "/b" "dom")).outcome = .ok b ∧
      (merge [a, b]).outcome = .ok merged ∧ merged.linkPlugins = [.node, .dom] ∧
      merged.name = none ∧ merge [a, b, a] = merge [merged, a] ∧ merge [a, a] = merge [a] := by
  have hseen : mergedWith Plan.exampleSite (packageRequest "/a" "node") (packageRequest "/b" "dom")
      (fun a _ merged diagnostics =>
        (a.linkPlugins, merged.linkPlugins, merged.name, diagnostics.isEmpty)) =
      some ([.node], [.node, .dom], none, true) := by decide +kernel
  obtain ⟨a, b, merged, hvalid, hother, hmerge, hfields⟩ := exists_of_mergedWith hseen
  simp only [Prod.mk.injEq, List.isEmpty_iff] at hfields
  obtain ⟨hplugins, hboth, hname, hsilent⟩ := hfields
  obtain ⟨hstages, htwice⟩ := merge_in_stages
  obtain ⟨houtcome, hdiagnostics⟩ := (hstages [a, b] [a] (List.cons_ne_nil _ _)).1 merged hmerge
  rw [hsilent, List.nil_append] at hdiagnostics
  obtain ⟨hsame, -⟩ := htwice a (wellFormed_of_validate (distinct_packageRequest _ _) hvalid)
    (by rw [hplugins]; decide)
  exact ⟨a, b, merged, hvalid, hother, hmerge, hboth, hname,
    Report.ext hdiagnostics houtcome, hsame⟩

end Config

end DocPlan
