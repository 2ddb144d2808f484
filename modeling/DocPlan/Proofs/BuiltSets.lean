import DocPlan.Proofs.EntrySets

/-!
# Sets of entry points, however they are built

A set of entry points is built by adding paths and by uniting sets, in any order and grouping
(`EntrySet.Build`). What comes of it is told by the paths that were given: the set is ordered, it
contains them and nothing else, and of equal paths it keeps the one that was given first.

So two ways of building a set from the same paths give the same set. Each step keeps what is
known of the sets before it (`contains_set`, `find?_given`); the order of the steps does not
enter.

Main result: `EntrySet.Build.told_by_given`.
-/

namespace DocPlan.EntrySet

/-- The steps by which a set of entry points is built. -/
inductive Build where
  | empty
  | add (before : Build) (path : FilePath)
  | union (first other : Build)

namespace Build

/-- The set that comes of the steps. -/
def set : Build → EntrySet
  | .empty => .empty
  | .add before path => before.set.insert path
  | .union first other => first.set.union other.set

/-- The paths that are given on the way, in order. -/
def given : Build → List FilePath
  | .empty => []
  | .add before path => before.given ++ [path]
  | .union first other => first.given ++ other.given

/-! ## What a step keeps -/

theorem ordered_set (build : Build) : build.set.Ordered := by
  induction build with
  | empty => exact ordered_empty
  | add before path ih => exact ih.insert path
  | union first other ih _ => exact ih.union other.set

/-- A set contains the paths that were given, in any spelling. -/
theorem contains_set {build : Build} {path : FilePath} :
    build.set.contains path = true ↔ ∃ given ∈ build.given, given.same path = true := by
  induction build with
  | empty =>
    rw [contains_eq_true_iff]
    rfl
  | add before last ih =>
    rw [set, contains_insert, ih, given]
    simp only [List.mem_append, List.mem_singleton, or_and_right, exists_or, exists_eq_left,
      or_comm]
  | union first other ihfirst ihother =>
    rw [set, contains_union, ihfirst, ihother, given]
    simp only [List.mem_append, or_and_right, exists_or]

/-- A path that a set does not contain was not given in any spelling. -/
theorem find?_given_eq_none {build : Build} {path : FilePath}
    (h : build.set.contains path = false) : build.given.find? (·.same path) = none := by
  apply List.find?_eq_none.mpr
  intro given hgiven hsame
  rw [contains_set.mpr ⟨given, hgiven, hsame⟩] at h
  cases h

/-- Of equal paths the first that was given stays. -/
theorem find?_given {build : Build} {path : FilePath} (h : path ∈ build.set.paths) :
    build.given.find? (·.same path) = some path := by
  induction build with
  | empty => cases h
  | add before last ih =>
    rw [given, List.find?_append]
    rcases before.ordered_set.mem_insert h with hold | ⟨rfl, hout⟩
    · rw [ih hold, Option.some_or]
    · rw [find?_given_eq_none hout, Option.none_or]
      exact List.find?_cons_of_pos path.same_self
  | union first other ihfirst ihother =>
    rw [given, List.find?_append]
    rcases first.ordered_set.mem_union h with hfirst | ⟨hother, hout⟩
    · rw [ihfirst hfirst, Option.some_or]
    · rw [find?_given_eq_none hout, Option.none_or, ihother hother]

/-! ## Ways of building -/

/-- Two ways of building give the same set when the same paths are given, in any spelling. -/
theorem same_set_iff {build other : Build} :
    build.set.same other.set = true ↔
      ∀ path, (∃ given ∈ build.given, given.same path = true) ↔
        ∃ given ∈ other.given, given.same path = true := by
  simp only [← contains_set]
  constructor
  · intro hsame path
    exact ⟨contains_of_same hsame, contains_of_same (same_comm build.set other.set ▸ hsame)⟩
  · exact build.ordered_set.same_of_contains other.ordered_set

/-- It does not matter in which order paths are given, nor in which of the steps. -/
theorem same_set_of_perm {build other : Build} (h : build.given.Perm other.given) :
    build.set.same other.set = true := by
  apply same_set_iff.mpr
  intro path
  simp only [h.mem_iff]

/-- A set is told by the paths from which it is built. Its paths are strictly in order, and no two
of them are equal; it contains the paths that were given and nothing else, in the spelling that
was given first. Built from the same paths in another order, or by unions that are swapped or
grouped in another way, it is the same. A union has declarations only when both its parts do, if
neither is empty. -/
theorem told_by_given (build : Build) :
    (build.set.paths.Pairwise fun path later =>
      path.compare later = .lt ∧ path.same later = false) ∧
    (∀ path, build.set.contains path = true ↔
      ∃ given ∈ build.given, given.same path = true) ∧
    (∀ path ∈ build.set.paths, build.given.find? (·.same path) = some path) ∧
    (∀ other : Build, build.set.same other.set = true ↔
      ∀ path, (∃ given ∈ build.given, given.same path = true) ↔
        ∃ given ∈ other.given, given.same path = true) ∧
    (∀ other : Build, build.given.Perm other.given → build.set.same other.set = true) ∧
    (∀ other : Build, (build.set.union other.set).same (other.set.union build.set) = true) ∧
    (∀ other last : Build, ((build.set.union other.set).union last.set).same
      (build.set.union (other.set.union last.set)) = true) ∧
    ∀ other : Build, build.set.isEmpty = false → other.set.isEmpty = false →
      (build.set.union other.set).allDeclarations =
        (build.set.allDeclarations && other.set.allDeclarations) := by
  refine ⟨?_, fun _ => contains_set, fun _ => find?_given, fun _ => same_set_iff,
    fun _ => same_set_of_perm, ?_, ?_, ?_⟩
  · refine build.ordered_set.imp fun {path later} hlt => ⟨hlt, ?_⟩
    apply Bool.eq_false_iff.mpr
    intro hsame
    rw [FilePath.compare_eq_iff.mpr hsame] at hlt
    cases hlt
  · intro other
    have hperm : (build.union other).given.Perm (other.union build).given := List.perm_append_comm
    exact same_set_of_perm hperm
  · intro other last
    have hgiven : ((build.union other).union last).given =
        (build.union (other.union last)).given := List.append_assoc _ _ _
    exact same_set_of_perm (List.Perm.of_eq hgiven)
  · intro other hbuild hother
    have hsome : ∀ {set : EntrySet}, set.isEmpty = false → set.paths ≠ [] :=
      fun hset => List.isEmpty_eq_false_iff.mp hset
    have hunion : (build.set.union other.set).paths ≠ [] := by
      obtain ⟨path, hpath⟩ := List.exists_mem_of_ne_nil _ (hsome hbuild)
      exact List.ne_nil_of_mem (mem_union_left other.set hpath)
    rw [Bool.eq_iff_iff, Bool.and_eq_true, allDeclarations_eq_true_iff,
      allDeclarations_eq_true_iff, allDeclarations_eq_true_iff, and_iff_right hunion,
      and_iff_right (hsome hbuild), and_iff_right (hsome hother)]
    exact forall_isDeclaration_union

/-- The paths of two packages that share a file. -/
def exampleFirst : Build :=
  .add (.add .empty (FilePath.ofString "/p/b.d.ts")) (FilePath.ofString "/p//a.d.ts")

/-- The shared file in another spelling, and a file whose name continues the first one's. -/
def exampleOther : Build :=
  .add (.add .empty (FilePath.ofString "/p/./b.d.ts/")) (FilePath.ofString "/p/b-c.d.ts")

/-- The paths of both, given one after the other from the last to the first. -/
def exampleReversed : Build :=
  (exampleFirst.union exampleOther).given.reverse.foldl .add .empty

theorem told_by_given_of_packages :
    exampleFirst.set.isEmpty = false ∧ exampleOther.set.isEmpty = false ∧
      (exampleFirst.union exampleOther).set.paths.map FilePath.toString =
        ["/p//a.d.ts", "/p/b-c.d.ts", "/p/b.d.ts"] ∧
      (exampleFirst.union exampleOther).set.same exampleReversed.set = true ∧
      exampleReversed.given.find? (·.same (FilePath.ofString "/p/./b.d.ts/")) =
        some (FilePath.ofString "/p/./b.d.ts/") ∧
      (exampleFirst.set.union exampleOther.set).allDeclarations = true := by
  obtain ⟨-, -, -, -, hperm, -⟩ := told_by_given (exampleFirst.union exampleOther)
  obtain ⟨-, -, hfirst, -⟩ := told_by_given exampleReversed
  obtain ⟨-, -, -, -, -, -, -, hall⟩ := told_by_given exampleFirst
  have hreversed : (exampleFirst.union exampleOther).given.Perm exampleReversed.given :=
    (List.reverse_perm _).symm
  exact ⟨rfl, rfl, by decide, hperm exampleReversed hreversed, hfirst _ (by decide),
    hall exampleOther rfl rfl⟩

end Build

end DocPlan.EntrySet
