import DocPlan.Proofs.MergeUnions

/-!
# What a strict run counts as declarations

A run is strict when it asks for the condition `types` and excludes what leads to no
declarations. It keeps declaration files and patterns that do not end like a source file
(`Entry.yieldsDeclarations`). The flag of its configuration counts declaration files alone. The
two readings differ for one kind of path: a pattern that ends neither like a declaration file nor
like a source file is kept and not counted (`Plan.kept_pattern_uncounted`).

Both readings go by one path at a time, so a union of sets changes neither, and the merge of a
workspace keeps the invariant (`Config.Strict.mergeOne`).

Main result: `Plan.strict_run_counts_declarations`.
-/

namespace DocPlan

namespace Entry

/-- What yields declarations is a declaration file unless it is a pattern. -/
theorem isDeclaration_iff_of_yields {path : FilePath} (h : yieldsDeclarations path = true) :
    isDeclaration path = true ↔ (isPattern path = true → isDeclaration path = true) := by
  refine ⟨fun hdeclared _ => hdeclared, fun hpattern => ?_⟩
  rcases (Bool.or_eq_true _ _).mp h with hdeclared | hkept
  · exact hdeclared
  · exact hpattern ((Bool.and_eq_true _ _).mp hkept).1

end Entry

/-- A request for the condition `types` that excludes what leads to no declarations. -/
structure Request.Strict (request : Request) : Prop where
  types : request.condition.getD typesCondition = typesCondition
  exclude : request.policy = .exclude

namespace Config

/-- A configuration of a strict run: all entry points yield declarations, and its flag tells
whether all are declaration files. -/
structure Strict (config : Config) : Prop where
  someEntry : config.entryPoints.paths ≠ []
  yields : ∀ path ∈ config.entryPoints.paths, Entry.yieldsDeclarations path = true
  entryPointsDeclared : config.entryPointsDeclared = true ↔
    ∀ path ∈ config.entryPoints.paths, Entry.isDeclaration path = true

/-- The configuration of a package under strict settings. -/
theorem strict_of_validate {site : Site} {request : Request} {config : Config}
    (hstrict : request.Strict) (hpackage : ∀ file, Source.ofRequest site request ≠ .ok (.file file))
    (h : (validate site request).outcome = .ok config) : config.Strict := by
  have hmergeable := Validated.mergeable ⟨_, _, _, h⟩
  obtain ⟨settings, subject, hsettings, hsubject, rfl⟩ := validate_eq_ok_iff.mp h
  have hmeets := Settings.ofRequest_eq_ok_iff.mp hsettings
  refine ⟨hmergeable.someEntry, ?_, ?_⟩
  · rcases Subject.ofRequest_eq_ok_iff.mp hsubject with ⟨file, hsource, -⟩ | ⟨path, -, hmanifest⟩
    · exact absurd hsource (hpackage file)
    · obtain ⟨manifest, set, names, -, hset, -, rfl⟩ := Subject.ofManifest_eq_ok_iff.mp hmanifest
      obtain ⟨-, rfl⟩ := Entry.collect_eq_ok_iff.mp hset
      intro path hpath
      exact (Entry.of_mem_admitted hpath).2.declared (hmeets.condition.trans hstrict.types)
        (hmeets.policy.trans hstrict.exclude)
  · rw [hmergeable.entryPointsDeclared, EntrySet.allDeclarations_eq_true_iff,
      and_iff_right hmergeable.someEntry]

theorem Strict.mergeOne {merged config next : Config} (hmerged : merged.Strict)
    (hconfig : config.Strict) (h : (mergeOne merged config).outcome = .ok next) :
    next.Strict := by
  obtain ⟨names, -, -, rfl⟩ := mergeOne_eq_ok_iff.mp h
  refine ⟨?_, ?_, ?_⟩
  · obtain ⟨path, hpath⟩ := List.exists_mem_of_ne_nil _ hmerged.someEntry
    exact List.ne_nil_of_mem (EntrySet.mem_union_left config.entryPoints hpath)
  · intro path hpath
    exact (EntrySet.mem_union hpath).elim (hmerged.yields path) (hconfig.yields path)
  · rw [Bool.and_eq_true, hmerged.entryPointsDeclared, hconfig.entryPointsDeclared]
    exact EntrySet.forall_isDeclaration_union.symm

end Config

namespace Plan

open Config

theorem strict_of_run {site : Site} {overWorkspace : Bool} {request : Request} {config : Config}
    (hstrict : request.Strict)
    (hpackage : overWorkspace = false → ∀ file, Source.ofRequest site request ≠ .ok (.file file))
    (h : (run site overWorkspace request).outcome = .ok config) : config.Strict := by
  refine run_induct (P := Strict) ?_ ?_ ?_ h
  · exact fun hsingle config hconfig => strict_of_validate hstrict (hpackage hsingle) hconfig
  · intro single member config hmember hconfig
    have hmemberStrict : (memberRequest request single member).Strict :=
      ⟨hstrict.types, hstrict.exclude⟩
    exact strict_of_validate hmemberStrict (fun file => not_file_of_member hmember rfl) hconfig
  · intro configs result hconfigs hresult
    exact merge_induct (fun _ _ _ hmerged hconfig hnext => hmerged.mergeOne hconfig hnext)
      (fun _ hconfig => { hconfig with }) hconfigs hresult

/-- A strict run over packages gives entry points that yield declarations, and counts all of them
as declarations if and only if every pattern among them ends like a declaration file. -/
theorem strict_run_counts_declarations (site : Site) (overWorkspace : Bool) (request : Request)
    (config : Config) (hstrict : request.Strict)
    (hpackage : overWorkspace = false → ∀ file, Source.ofRequest site request ≠ .ok (.file file))
    (h : (run site overWorkspace request).outcome = .ok config) :
    config.entryPoints.paths ≠ [] ∧
    (∀ path ∈ config.entryPoints.paths, Entry.yieldsDeclarations path = true) ∧
    (config.entryPointsDeclared = true ↔ ∀ path ∈ config.entryPoints.paths,
      Entry.isPattern path = true → Entry.isDeclaration path = true) := by
  have hconfig := strict_of_run hstrict hpackage h
  refine ⟨hconfig.someEntry, hconfig.yields, ?_⟩
  rw [hconfig.entryPointsDeclared]
  exact forall₂_congr fun path hpath =>
    Entry.isDeclaration_iff_of_yields (hconfig.yields path hpath)

/-- A workspace of two packages. One has a declaration file, the other exports a pattern. -/
def patternSite (target : String) : Site where
  files := {
    root := .directory [
      ("package.json".toList, .file (Utf8.encode
        "\x7b\"workspaces\":[\"a\",\"b\"]\x7d".toList)),
      ("a".toList, .directory [
        ("package.json".toList, .file (Utf8.encode "\x7b\"types\":\"./a.d.ts\"\x7d".toList)),
        ("a.d.ts".toList, .file [])]),
      ("b".toList, .directory [
        ("package.json".toList, .file (Utf8.encode
          ("\x7b\"exports\":\x7b\"./*\":\"".toList ++ target.toList ++ "\"\x7d\x7d".toList)))])]
    workingDirectory := [] }
  directory := FilePath.ofString "/"

/-- A strict request for the second package. -/
def strictRequest : Request where
  path := some (FilePath.ofString "/b/package.json")
  policy := .exclude

theorem strict_run_counts_declarations_of_package :
    ∃ config, (run (patternSite "./dist/*.d.ts") false strictRequest).outcome = .ok config ∧
      config.entryPoints.paths = [FilePath.ofString "/b/dist/*.d.ts"] ∧
      config.entryPointsDeclared = true := by
  have hfound : (run (patternSite "./dist/*.d.ts") false strictRequest).outcome.toOption.map
      (fun config => config.entryPoints.paths) = some [FilePath.ofString "/b/dist/*.d.ts"] := by
    decide +kernel
  obtain ⟨config, hconfig, hpaths⟩ := Option.map_eq_some_iff.mp hfound
  have hrun := Error.toOption_eq_some_iff.mp hconfig
  have hmember : Workspaces.IsMember (FilePath.ofString "/b/package.json") :=
    ⟨FilePath.ofString "/b", by decide⟩
  obtain ⟨-, -, hcounted⟩ := strict_run_counts_declarations _ false strictRequest config ⟨rfl, rfl⟩
    (fun _ file => not_file_of_member hmember rfl) hrun
  refine ⟨config, hrun, hpaths, hcounted.mpr ?_⟩
  rw [hpaths]
  decide

/-- A strict run over a workspace keeps a pattern without an ending and does not count it. -/
theorem kept_pattern_uncounted :
    ∃ config, (run (patternSite "./dist/*") true { policy := .exclude }).outcome = .ok config ∧
      config.entryPoints.paths = [FilePath.ofString "/a/a.d.ts", FilePath.ofString "/b/dist/*"] ∧
      config.policy = .exclude ∧ config.condition = typesCondition ∧
      config.entryPointsDeclared = false := by
  have hfound : (run (patternSite "./dist/*") true { policy := .exclude }).outcome.toOption.map
      (fun config => (config.entryPoints.paths, config.policy, config.condition,
        config.entryPointsDeclared)) =
      some ([FilePath.ofString "/a/a.d.ts", FilePath.ofString "/b/dist/*"], .exclude,
        typesCondition, false) := by
    decide +kernel
  obtain ⟨config, hconfig, hfields⟩ := Option.map_eq_some_iff.mp hfound
  simp only [Prod.mk.injEq] at hfields
  exact ⟨config, Error.toOption_eq_some_iff.mp hconfig, hfields⟩

end Plan

end DocPlan
