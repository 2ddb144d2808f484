import DocPlan.Proofs.ManifestPaths

/-!
# The nearest manifest

The directories at and above a path are counted by levels: the path itself, its parent, that one's
parent, and so on (`FilePath.ancestor?`). Each level drops a component, and a path has no more
components than bytes, so the bound in `FilePath.ancestors` cuts nothing off
(`FilePath.getElem?_ancestors`). The topmost directory is the root, or the empty path.

Main result: `Manifest.finds_nearest`. The manifest that is found is that of the lowest level
which has one, whatever the spelling of the path, and the search asks about no other directory.
-/

namespace DocPlan

namespace FilePath

open Text

/-! ## Levels -/

theorem length_bodyComponents_le (bytes : List UInt8) :
    (bodyComponents (Text.segments separator bytes)).length ≤ bytes.length := by
  induction bytes with
  | nil => simp [Text.segments, bodyComponents, isNoise]
  | cons c rest ih =>
    by_cases hc : c = separator
    · subst hc
      rw [segments_separator]
      exact Nat.le_succ_of_le ih
    · obtain ⟨first, others, hsegments⟩ := List.exists_cons_of_ne_nil (segments_ne_nil rest)
      rw [hsegments, ← List.singleton_append, bodyComponents_append, List.length_append] at ih
      have hhead : (bodyComponents [c :: first]).length ≤ 1 := by
        rw [bodyComponents_singleton]
        split <;> simp
      rw [Text.segments, if_neg hc, hsegments, extendFirst, ← List.singleton_append,
        bodyComponents_append, List.length_append, List.length_cons]
      omega

/-- A path has no more components than bytes. -/
theorem length_components_le (path : FilePath) : path.components.length ≤ path.bytes.length := by
  obtain ⟨bytes⟩ := path
  cases bytes with
  | nil => exact Nat.le_refl 0
  | cons c rest =>
    have hrest := length_bodyComponents_le rest
    by_cases hc : c = separator
    · subst hc
      rw [components_separator, List.length_cons, List.length_cons]
      omega
    · have hrelative : isAbsolute ⟨c :: rest⟩ = false := by
        simp [isAbsolute, isRooted, hc]
      obtain ⟨first, others, hsegments⟩ := List.exists_cons_of_ne_nil (segments_ne_nil rest)
      have hall : Text.segments separator (c :: rest) = (c :: first) :: others := by
        rw [Text.segments, if_neg hc, hsegments, extendFirst]
      obtain ⟨component, hcomponent⟩ := exists_headComponents (List.cons_ne_nil c first)
      rw [components_of_segments hrelative hall, hcomponent]
      rw [hsegments, ← List.singleton_append, bodyComponents_append, List.length_append] at hrest
      simp only [List.length_append, List.length_cons, List.length_nil]
      omega

theorem length_components_parent? {path parent : FilePath} (h : path.parent? = some parent) :
    parent.components.length < path.components.length := by
  have hne : path.components ≠ [] := by
    intro hnil
    rw [parent?_eq_none_iff.mpr (Or.inl (components_eq_nil_iff.mp hnil))] at h
    cases h
  have hpos : 0 < path.components.length := List.length_pos_iff.mpr hne
  rw [components_parent? h, List.length_dropLast]
  omega

/-- Any bound above the number of components gives the same directories. -/
theorem ancestorsWithin_eq {bound other : Nat} {path : FilePath}
    (h : path.components.length < bound) (hother : path.components.length < other) :
    ancestorsWithin bound path = ancestorsWithin other path := by
  induction bound generalizing other path with
  | zero => omega
  | succ bound ih =>
    obtain ⟨other, rfl⟩ : ∃ less, other = less + 1 := ⟨other - 1, by omega⟩
    unfold ancestorsWithin
    cases hparent : path.parent? with
    | none => rfl
    | some parent =>
      have hless := length_components_parent? hparent
      exact congrArg (path :: ·) (ih (by omega) (by omega))

theorem ancestors_eq (path : FilePath) :
    path.ancestors =
      path :: (match path.parent? with
        | some parent => parent.ancestors
        | none => []) := by
  unfold ancestors
  rw [ancestorsWithin]
  cases hparent : path.parent? with
  | none => rfl
  | some parent =>
    have hless := length_components_parent? hparent
    have hpath := length_components_le path
    have hbound := length_components_le parent
    exact congrArg (path :: ·) (ancestorsWithin_eq (by omega) (by omega))

/-- The directory so many levels above a path: the path itself, its parent, that one's parent,
and so on. -/
def ancestor? : Nat → FilePath → Option FilePath
  | 0, path => some path
  | level + 1, path => path.parent?.bind (ancestor? level)

theorem getElem?_ancestors (path : FilePath) (level : Nat) :
    path.ancestors[level]? = path.ancestor? level := by
  induction level generalizing path with
  | zero =>
    rw [ancestors_eq]
    rfl
  | succ level ih =>
    rw [ancestors_eq, List.getElem?_cons_succ, ancestor?]
    cases path.parent? with
    | none => rfl
    | some parent => exact ih parent

theorem ancestor?_succ (path : FilePath) (level : Nat) :
    path.ancestor? (level + 1) = (path.ancestor? level).bind parent? := by
  induction level generalizing path with
  | zero => simp [ancestor?]
  | succ level ih =>
    rw [ancestor?, ancestor?]
    cases path.parent? with
    | none => rfl
    | some parent => exact ih parent

/-- Each level lacks one component more, and all levels are absolute or none is. -/
theorem components_ancestor? {path directory : FilePath} {level : Nat}
    (h : path.ancestor? level = some directory) :
    (∃ below, below.length = level ∧ path.components = directory.components ++ below) ∧
      directory.isAbsolute = path.isAbsolute := by
  induction level generalizing directory with
  | zero =>
    obtain rfl := Option.some.inj h
    exact ⟨⟨[], rfl, (List.append_nil _).symm⟩, rfl⟩
  | succ level ih =>
    rw [ancestor?_succ] at h
    obtain ⟨child, hchild, hparent⟩ := Option.bind_eq_some_iff.mp h
    obtain ⟨⟨below, hlength, hcomponents⟩, habsolute⟩ := ih hchild
    refine ⟨?_, (isAbsolute_parent? hparent).trans habsolute⟩
    have hne : child.components ≠ [] := by
      intro hnil
      have hless := length_components_parent? hparent
      simp [hnil] at hless
    refine ⟨child.components.getLast hne :: below, congrArg (· + 1) hlength, ?_⟩
    rw [components_parent? hparent, ← List.singleton_append, ← List.append_assoc,
      List.dropLast_concat_getLast, hcomponents]

/-- The levels end at the root or at the empty path, and there are no more than components. -/
theorem exists_topmost (path : FilePath) :
    ∃ level top, level ≤ path.components.length ∧ path.ancestor? level = some top ∧
      path.ancestor? (level + 1) = none ∧
      (if path.isAbsolute then top.components = [.root] else top = ⟨[]⟩) := by
  have hne : path.ancestors ≠ [] := by
    rw [ancestors_eq]
    exact List.cons_ne_nil _ _
  have hpos : 0 < path.ancestors.length := List.length_pos_iff.mpr hne
  have htop : path.ancestor? (path.ancestors.length - 1) = some (path.ancestors.getLast hne) := by
    rw [← getElem?_ancestors, ← List.getLast?_eq_getElem?, List.getLast?_eq_some_getLast hne]
  have hend : path.ancestor? (path.ancestors.length - 1 + 1) = none := by
    rw [← getElem?_ancestors, Nat.sub_add_cancel hpos, List.getElem?_eq_none (Nat.le_refl _)]
  obtain ⟨⟨below, hlength, hcomponents⟩, habsolute⟩ := components_ancestor? htop
  refine ⟨_, _, ?_, htop, hend, ?_⟩
  · rw [hcomponents, List.length_append]
    omega
  · rw [ancestor?_succ, htop, Option.bind_some, parent?_eq_none_iff] at hend
    rw [← habsolute]
    rcases hend with hempty | hroot
    · rw [hempty]
      rfl
    · rw [isAbsolute_iff_head.mpr (by rw [hroot]; rfl), if_pos rfl]
      exact hroot

end FilePath

/-! ## The manifest that is found -/

namespace Manifest

open FilePath

/-- No directory below a level has a manifest. -/
def NoneBelow (fs : FileSystem) (start : FilePath) (level : Nat) : Prop :=
  ∀ lower < level, ∀ passed, start.ancestor? lower = some passed →
    fs.isFile (passed.join manifestName) = false

/-- The lowest of the directories at and above a path that has a manifest. -/
structure Nearest (fs : FileSystem) (start : FilePath) (level : Nat) (directory : FilePath) :
    Prop where
  above : start.ancestor? level = some directory
  file : fs.isFile (directory.join manifestName) = true
  first : NoneBelow fs start level

theorem find?_eq_map (fs : FileSystem) (start : FilePath) :
    find? fs start =
      (start.ancestors.find? fun directory => fs.isFile (directory.join manifestName)).map
        (·.join manifestName) :=
  List.find?_map

theorem find?_ancestors_eq_some_iff {fs : FileSystem} {start directory : FilePath} :
    (start.ancestors.find? fun directory => fs.isFile (directory.join manifestName)) =
        some directory ↔
      ∃ level, Nearest fs start level directory := by
  rw [List.find?_eq_some_iff_getElem]
  constructor
  · rintro ⟨hfile, level, hlevel, rfl, hfirst⟩
    refine ⟨level, ?_, hfile, ?_⟩
    · rw [← getElem?_ancestors, List.getElem?_eq_getElem hlevel]
    · intro lower hlower passed hpassed
      rw [← getElem?_ancestors, List.getElem?_eq_some_iff] at hpassed
      obtain ⟨-, rfl⟩ := hpassed
      simpa using hfirst lower hlower
  · rintro ⟨level, habove, hfile, hfirst⟩
    rw [← getElem?_ancestors, List.getElem?_eq_some_iff] at habove
    obtain ⟨hlevel, rfl⟩ := habove
    refine ⟨hfile, level, hlevel, rfl, ?_⟩
    intro lower hlower
    have hpassed := List.getElem?_eq_getElem (Nat.lt_trans hlower hlevel)
    rw [getElem?_ancestors] at hpassed
    simpa using hfirst lower hlower _ hpassed

theorem find?_eq_some_iff {fs : FileSystem} {start path : FilePath} :
    find? fs start = some path ↔
      ∃ level directory, Nearest fs start level directory ∧
        path = directory.join manifestName := by
  rw [find?_eq_map, Option.map_eq_some_iff]
  constructor
  · rintro ⟨directory, hfound, rfl⟩
    obtain ⟨level, hnearest⟩ := find?_ancestors_eq_some_iff.mp hfound
    exact ⟨level, directory, hnearest, rfl⟩
  · rintro ⟨level, directory, hnearest, rfl⟩
    exact ⟨directory, find?_ancestors_eq_some_iff.mpr ⟨level, hnearest⟩, rfl⟩

theorem find?_eq_none_iff {fs : FileSystem} {start : FilePath} :
    find? fs start = none ↔ ∀ level directory, start.ancestor? level = some directory →
      fs.isFile (directory.join manifestName) = false := by
  rw [find?_eq_map, Option.map_eq_none_iff, List.find?_eq_none]
  constructor
  · intro hnone level directory habove
    rw [← getElem?_ancestors] at habove
    simpa using hnone directory (List.mem_of_getElem? habove)
  · intro hnone directory hmem
    obtain ⟨level, hlevel⟩ := List.getElem?_of_mem hmem
    rw [getElem?_ancestors] at hlevel
    simpa using hnone level directory hlevel

/-- A directory is asked about when no lower one has a manifest. -/
def Asked (fs : FileSystem) (start directory : FilePath) : Prop :=
  ∃ level, start.ancestor? level = some directory ∧ NoneBelow fs start level

/-- A file system with the same manifests in the directories that are asked about gives the
same answer. -/
theorem find?_congr {fs other : FileSystem} {start : FilePath}
    (h : ∀ directory, Asked fs start directory →
      other.isFile (directory.join manifestName) = fs.isFile (directory.join manifestName)) :
    find? other start = find? fs start := by
  cases hfound : find? fs start with
  | none =>
    have hnone := find?_eq_none_iff.mp hfound
    refine find?_eq_none_iff.mpr fun level directory habove => ?_
    rw [h directory ⟨level, habove, fun lower _ => hnone lower⟩]
    exact hnone level directory habove
  | some path =>
    obtain ⟨level, directory, ⟨habove, hfile, hfirst⟩, rfl⟩ := find?_eq_some_iff.mp hfound
    refine find?_eq_some_iff.mpr ⟨level, directory, ⟨habove, ?_, ?_⟩, rfl⟩
    · rw [h directory ⟨level, habove, hfirst⟩]
      exact hfile
    · intro lower hlower passed hpassed
      rw [h passed ⟨lower, hpassed, fun below hbelow => hfirst below (Nat.lt_trans hbelow hlower)⟩]
      exact hfirst lower hlower passed hpassed

/-- The search goes up level by level to the root, or to the empty path: what it finds is the
manifest of the lowest level that has a regular file of that name, and it finds nothing exactly
when no level has one. It asks about the levels up to that one, and about nothing else. -/
theorem finds_nearest (fs : FileSystem) (start : FilePath) :
    (∀ path, find? fs start = some path ↔
      ∃ level directory, Nearest fs start level directory ∧
        path = directory.join manifestName) ∧
    (find? fs start = none ↔ ∀ level directory, start.ancestor? level = some directory →
      fs.isFile (directory.join manifestName) = false) ∧
    (∃ level top, level ≤ start.components.length ∧ start.ancestor? level = some top ∧
      start.ancestor? (level + 1) = none ∧
      (if start.isAbsolute then top.components = [.root] else top = ⟨[]⟩)) ∧
    (∀ level directory, start.ancestor? level = some directory →
      (∃ below, below.length = level ∧ start.components = directory.components ++ below) ∧
        directory.isAbsolute = start.isAbsolute) ∧
    ∀ other : FileSystem, (∀ directory, Asked fs start directory →
        other.isFile (directory.join manifestName) = fs.isFile (directory.join manifestName)) →
      find? other start = find? fs start :=
  ⟨fun _ => find?_eq_some_iff, find?_eq_none_iff, exists_topmost start,
    fun _ _ => components_ancestor?, fun _ => find?_congr⟩

/-- Below the root are a dangling link and a directory with the name of a manifest. -/
def passedOver : FileSystem where
  root := .directory [("package.json".toList, .file []),
    ("a".toList, .directory [("package.json".toList, .link "nowhere".toList),
      ("b".toList, .directory [("package.json".toList, .directory [])])])]
  workingDirectory := []

theorem finds_nearest_of_passedOver :
    find? passedOver (FilePath.ofString "/a//b/.") =
      some (FilePath.ofString "/package.json") := by
  refine ((finds_nearest passedOver (FilePath.ofString "/a//b/.")).1 _).mpr
    ⟨2, FilePath.ofString "/", ⟨by decide, by decide +kernel, ?_⟩, by decide⟩
  intro lower hlower passed hpassed
  obtain rfl | rfl : lower = 0 ∨ lower = 1 := by omega
  · obtain rfl := Option.some.inj hpassed
    decide +kernel
  · have hparent : passed = FilePath.ofString "/a" :=
      Option.some.inj (hpassed.symm.trans (by decide))
    subst hparent
    decide +kernel

end Manifest

end DocPlan
