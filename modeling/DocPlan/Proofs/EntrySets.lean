import DocPlan.Entry.Set
import DocPlan.Proofs.Orders

/-!
# Laws of sets of entry points

A set of entry points holds what was inserted, up to spelling: `mem_insertPath` and
`exists_same_mem_insertPath` say so for one path, `mem_union` and `exists_same_mem_union` for the
paths of another set, `contains_ofList` for a list of paths. Its paths stay in order and none of
them is there twice (`Ordered`).

An ordered list of components is told by what it holds, so two sets that contain the same
paths are the same (`Ordered.same_of_contains`). Of equal paths the one that came first stays
(`Ordered.mem_insert`, `Ordered.mem_union`), and it does not matter for the kinds of the files
(`forall_isDeclaration_union`).
-/

namespace DocPlan.EntrySet

/-! ## Inserting -/

theorem mem_insertPath {path other : FilePath} {paths : List FilePath}
    (h : other ∈ insertPath path paths) : other = path ∨ other ∈ paths := by
  induction paths with
  | nil => exact Or.inl (List.mem_singleton.mp h)
  | cons first rest ih =>
    unfold insertPath at h
    split at h
    next => exact List.mem_cons.mp h
    next => exact Or.inr h
    next =>
      rcases List.mem_cons.mp h with rfl | hrest
      · exact Or.inr List.mem_cons_self
      · exact (ih hrest).imp_right (List.mem_cons_of_mem _)

theorem mem_insertPath_of_mem (path : FilePath) {other : FilePath} {paths : List FilePath}
    (h : other ∈ paths) : other ∈ insertPath path paths := by
  induction paths with
  | nil => cases h
  | cons first rest ih =>
    unfold insertPath
    split
    next => exact List.mem_cons_of_mem _ h
    next => exact h
    next =>
      rcases List.mem_cons.mp h with rfl | hrest
      · exact List.mem_cons_self
      · exact List.mem_cons_of_mem _ (ih hrest)

/-- After an insertion the path is there, perhaps in another spelling. -/
theorem exists_same_mem_insertPath (path : FilePath) (paths : List FilePath) :
    ∃ other ∈ insertPath path paths, path.same other = true := by
  have hself : path.same path = true := FilePath.same_iff.mpr rfl
  induction paths with
  | nil => exact ⟨path, List.mem_singleton_self path, hself⟩
  | cons first rest ih =>
    unfold insertPath
    split
    next => exact ⟨path, List.mem_cons_self, hself⟩
    next heq => exact ⟨first, List.mem_cons_self, FilePath.compare_eq_iff.mp heq⟩
    next =>
      obtain ⟨other, hother, hsame⟩ := ih
      exact ⟨other, List.mem_cons_of_mem _ hother, hsame⟩

theorem mem_union {a b : EntrySet} {path : FilePath} (h : path ∈ (a.union b).paths) :
    path ∈ a.paths ∨ path ∈ b.paths := by
  obtain ⟨others⟩ := b
  unfold union at h
  induction others generalizing a with
  | nil => exact Or.inl h
  | cons other rest ih =>
    rcases ih h with hinsert | hrest
    · rcases mem_insertPath hinsert with rfl | hold
      · exact Or.inr List.mem_cons_self
      · exact Or.inl hold
    · exact Or.inr (List.mem_cons_of_mem _ hrest)

theorem mem_union_left {a : EntrySet} (b : EntrySet) {path : FilePath} (h : path ∈ a.paths) :
    path ∈ (a.union b).paths := by
  obtain ⟨others⟩ := b
  unfold union
  induction others generalizing a with
  | nil => exact h
  | cons other rest ih => exact ih (mem_insertPath_of_mem other h)

/-- The paths of the second set are there, perhaps in another spelling. -/
theorem exists_same_mem_union (a : EntrySet) {b : EntrySet} {path : FilePath}
    (h : path ∈ b.paths) : ∃ other ∈ (a.union b).paths, path.same other = true := by
  obtain ⟨others⟩ := b
  unfold union
  induction others generalizing a with
  | nil => cases h
  | cons first rest ih =>
    rcases List.mem_cons.mp h with rfl | hrest
    · obtain ⟨other, hother, hsame⟩ := exists_same_mem_insertPath path a.paths
      exact ⟨other, mem_union_left ⟨rest⟩ (a := a.insert path) hother, hsame⟩
    · exact ih (a.insert first) hrest

/-- A set lists its paths in order, and none of them twice. -/
def Ordered (set : EntrySet) : Prop :=
  set.paths.Pairwise fun path later => path.compare later = .lt

theorem ordered_empty : Ordered empty := List.Pairwise.nil

theorem Ordered.insert {set : EntrySet} (h : set.Ordered) (path : FilePath) :
    (set.insert path).Ordered := by
  obtain ⟨paths⟩ := set
  show (insertPath path paths).Pairwise _
  induction paths with
  | nil => exact List.pairwise_singleton _ _
  | cons first rest ih =>
    obtain ⟨hfirst, hrest⟩ := List.pairwise_cons.mp h
    unfold insertPath
    split
    next hbefore =>
      refine List.pairwise_cons.mpr ⟨List.forall_mem_cons.mpr ⟨hbefore, ?_⟩, h⟩
      exact fun later hlater => FilePath.compare_lt_trans hbefore (hfirst later hlater)
    next => exact h
    next hafter =>
      refine List.pairwise_cons.mpr ⟨?_, ih hrest⟩
      intro later hlater
      rcases mem_insertPath hlater with rfl | hold
      · exact FilePath.compare_gt_iff.mp hafter
      · exact hfirst later hold

theorem Ordered.union {a : EntrySet} (h : a.Ordered) (b : EntrySet) : (a.union b).Ordered := by
  obtain ⟨others⟩ := b
  unfold EntrySet.union
  induction others generalizing a with
  | nil => exact h
  | cons other rest ih => exact ih (h.insert other)

/-! ## Containing -/

theorem contains_eq_true_iff {set : EntrySet} {path : FilePath} :
    set.contains path = true ↔ ∃ other ∈ set.paths, other.same path = true :=
  List.any_eq_true

theorem contains_insert {set : EntrySet} {path other : FilePath} :
    (set.insert path).contains other = true ↔
      path.same other = true ∨ set.contains other = true := by
  rw [contains_eq_true_iff, contains_eq_true_iff]
  constructor
  · rintro ⟨found, hfound, hsame⟩
    rcases mem_insertPath hfound with rfl | hold
    · exact Or.inl hsame
    · exact Or.inr ⟨found, hold, hsame⟩
  · rintro (hsame | ⟨found, hfound, hsame⟩)
    · obtain ⟨spelled, hspelled, hpath⟩ := exists_same_mem_insertPath path set.paths
      have hother : spelled.components = other.components :=
        (FilePath.same_iff.mp hpath).symm.trans (FilePath.same_iff.mp hsame)
      exact ⟨spelled, hspelled, FilePath.same_iff.mpr hother⟩
    · exact ⟨found, mem_insertPath_of_mem path hfound, hsame⟩

theorem contains_foldl_insert {paths : List FilePath} {set : EntrySet} {other : FilePath} :
    (paths.foldl insert set).contains other = true ↔
      set.contains other = true ∨ ∃ path ∈ paths, path.same other = true := by
  induction paths generalizing set with
  | nil => simp
  | cons path rest ih =>
    rw [List.foldl_cons, ih, contains_insert]
    simp only [List.mem_cons, or_and_right, exists_or, exists_eq_left]
    tauto

theorem contains_union {a b : EntrySet} {path : FilePath} :
    (a.union b).contains path = true ↔ a.contains path = true ∨ b.contains path = true :=
  contains_foldl_insert.trans (or_congr_right contains_eq_true_iff.symm)

/-- The set of a list contains what is listed, in any spelling. -/
theorem contains_ofList {paths : List FilePath} {other : FilePath} :
    (ofList paths).contains other = true ↔ ∃ path ∈ paths, path.same other = true := by
  have hempty : empty.contains other = false := rfl
  rw [ofList, contains_foldl_insert, hempty]
  simp

/-- A path that a set contains in some spelling is not put there again. -/
theorem Ordered.insert_of_contains {set : EntrySet} (h : set.Ordered) {path : FilePath}
    (hpath : set.contains path = true) : set.insert path = set := by
  obtain ⟨paths⟩ := set
  obtain ⟨found, hfound, hsame⟩ := contains_eq_true_iff.mp hpath
  refine congrArg EntrySet.mk (?_ : insertPath path paths = paths)
  induction paths with
  | nil => cases hfound
  | cons first rest ih =>
    obtain ⟨hfirst, hrest⟩ := List.pairwise_cons.mp h
    unfold insertPath
    rcases List.mem_cons.mp hfound with rfl | hlater
    · rw [FilePath.compare_congr (FilePath.same_comm path found ▸ hsame) found,
        FilePath.compare_eq_iff.mpr found.same_self]
    · have hafter : path.compare first = .gt := by
        rw [FilePath.compare_congr (FilePath.same_comm path found ▸ hsame) first]
        exact FilePath.compare_gt_iff.mpr (hfirst found hlater)
      have hagain : contains ⟨rest⟩ path = true :=
        contains_eq_true_iff.mpr ⟨found, hlater, hsame⟩
      rw [hafter]
      exact congrArg (first :: ·) (ih hrest hagain hlater)

/-- A path that is there after an insertion was there before, or is the one inserted and was there
in no spelling. -/
theorem Ordered.mem_insert {set : EntrySet} (h : set.Ordered) {path other : FilePath}
    (hother : other ∈ (set.insert path).paths) :
    other ∈ set.paths ∨ other = path ∧ set.contains other = false := by
  cases hcontains : set.contains path with
  | true =>
    rw [h.insert_of_contains hcontains] at hother
    exact Or.inl hother
  | false =>
    rcases mem_insertPath hother with rfl | hold
    · exact Or.inr ⟨rfl, hcontains⟩
    · exact Or.inl hold

/-- A path of a union is one of the first set, or one of the second that the first contains in no
spelling. -/
theorem Ordered.mem_union {a b : EntrySet} (h : a.Ordered) {path : FilePath}
    (hpath : path ∈ (a.union b).paths) :
    path ∈ a.paths ∨ path ∈ b.paths ∧ a.contains path = false := by
  obtain ⟨others⟩ := b
  unfold EntrySet.union at hpath
  induction others generalizing a with
  | nil => exact Or.inl hpath
  | cons other rest ih =>
    rcases ih (h.insert other) hpath with hinsert | ⟨hrest, hout⟩
    · rcases h.mem_insert hinsert with hold | ⟨rfl, hout⟩
      · exact Or.inl hold
      · exact Or.inr ⟨List.mem_cons_self, hout⟩
    · refine Or.inr ⟨List.mem_cons_of_mem _ hrest, ?_⟩
      rw [Bool.eq_false_iff] at hout ⊢
      exact fun hcontains => hout (contains_insert.mpr (Or.inr hcontains))

theorem Ordered.union_self {set : EntrySet} (h : set.Ordered) : set.union set = set := by
  refine List.foldlRecOn set.paths EntrySet.insert (motive := (· = set)) rfl ?_
  rintro _ rfl path hpath
  exact h.insert_of_contains (contains_eq_true_iff.mpr ⟨path, hpath, path.same_self⟩)

/-- Every path of the set of a list is listed as it is spelled. -/
theorem mem_of_mem_ofList {paths : List FilePath} {path : FilePath}
    (h : path ∈ (ofList paths).paths) : path ∈ paths := by
  have hfold : ∀ set : EntrySet, path ∈ (paths.foldl insert set).paths →
      path ∈ set.paths ∨ path ∈ paths := by
    clear h
    induction paths with
    | nil => exact fun set hmem => Or.inl hmem
    | cons first rest ih =>
      intro set hmem
      rcases ih (set.insert first) hmem with hinsert | hrest
      · rcases mem_insertPath hinsert with rfl | hold
        · exact Or.inr List.mem_cons_self
        · exact Or.inl hold
      · exact Or.inr (List.mem_cons_of_mem _ hrest)
  exact (hfold empty h).resolve_left List.not_mem_nil

theorem ordered_ofList (paths : List FilePath) : (ofList paths).Ordered := by
  have hfold : ∀ set : EntrySet, set.Ordered → (paths.foldl insert set).Ordered := by
    induction paths with
    | nil => exact fun set hset => hset
    | cons path rest ih => exact fun set hset => ih (set.insert path) (hset.insert path)
  exact hfold empty ordered_empty

theorem isEmpty_ofList (paths : List FilePath) : (ofList paths).isEmpty = paths.isEmpty := by
  cases paths with
  | nil => rfl
  | cons path rest =>
    have hcontains : (ofList (path :: rest)).contains path = true :=
      contains_ofList.mpr ⟨path, List.mem_cons_self, path.same_self⟩
    obtain ⟨found, hfound, -⟩ := contains_eq_true_iff.mp hcontains
    exact List.isEmpty_eq_false_iff.mpr (List.ne_nil_of_mem hfound)

/-- Ordered sets that contain the same paths hold the same paths in the same order. -/
theorem Ordered.same_of_contains {a b : EntrySet} (ha : a.Ordered) (hb : b.Ordered)
    (h : ∀ path, a.contains path = true ↔ b.contains path = true) : a.same b = true := by
  have hsorted : ∀ {set : EntrySet}, set.Ordered → (set.paths.map (·.components)).Pairwise
      fun p q => FilePath.compareComponents p q = .lt := fun hset => List.pairwise_map.mpr hset
  have hnodup : ∀ {set : EntrySet}, set.Ordered → (set.paths.map (·.components)).Nodup := by
    intro set hset
    refine (hsorted hset).imp ?_
    intro p q hlt heq
    rw [FilePath.compareComponents_eq_iff.mpr heq] at hlt
    cases hlt
  have hmem : ∀ (set : EntrySet) (path : FilePath),
      path.components ∈ set.paths.map (·.components) ↔ set.contains path = true := by
    intro set path
    rw [contains_eq_true_iff, List.mem_map]
    simp only [FilePath.same_iff]
  have hsubset : ∀ {set other : EntrySet},
      (∀ path, set.contains path = true → other.contains path = true) →
      set.paths.map (·.components) ⊆ other.paths.map (·.components) := by
    intro set other hcontains components hcomponents
    obtain ⟨path, hpath, rfl⟩ := List.mem_map.mp hcomponents
    exact (hmem other path).mpr (hcontains path ((hmem set path).mp hcomponents))
  have hperm : (a.paths.map (·.components)).Perm (b.paths.map (·.components)) := by
    apply (List.perm_ext_iff_of_nodup (hnodup ha) (hnodup hb)).mpr
    intro components
    exact ⟨fun hleft => hsubset (fun path => (h path).mp) hleft,
      fun hright => hsubset (fun path => (h path).mpr) hright⟩
  apply decide_eq_true
  refine hperm.eq_of_pairwise ?_ (hsorted ha) (hsorted hb)
  intro p q _ _ hpq hqp
  exact absurd hqp (Std.OrientedCmp.not_lt_of_lt hpq)

/-- Sets that hold the same paths contain the same paths. -/
theorem contains_of_same {a b : EntrySet} (h : a.same b = true) {path : FilePath}
    (hpath : a.contains path = true) : b.contains path = true := by
  obtain ⟨other, hother, hsame⟩ := contains_eq_true_iff.mp hpath
  have hcomponents : other.components ∈ b.paths.map (·.components) :=
    of_decide_eq_true h ▸ List.mem_map_of_mem hother
  obtain ⟨found, hfound, heq⟩ := List.mem_map.mp hcomponents
  have hall : found.components = path.components := heq.trans (FilePath.same_iff.mp hsame)
  exact contains_eq_true_iff.mpr ⟨found, hfound, FilePath.same_iff.mpr hall⟩

theorem same_comm (a b : EntrySet) : a.same b = b.same a := by
  rw [Bool.eq_iff_iff, same, same, decide_eq_true_iff, decide_eq_true_iff]
  exact eq_comm

/-! ## Declarations -/

/-- The kind of a file does not depend on how its path is spelled. -/
theorem isDeclaration_of_same {path other : FilePath} (h : path.same other = true) :
    Entry.isDeclaration path = Entry.isDeclaration other := by
  have hname : path.fileName? = other.fileName? := by
    rw [FilePath.fileName?, FilePath.fileName?, FilePath.same_iff.mp h]
  rw [Entry.isDeclaration, Entry.isDeclaration, Entry.endsIn, Entry.endsIn, Entry.nameText,
    Entry.nameText, hname]

theorem allDeclarations_eq_true_iff {set : EntrySet} :
    set.allDeclarations = true ↔
      set.paths ≠ [] ∧ ∀ path ∈ set.paths, Entry.isDeclaration path = true := by
  simp [allDeclarations, isEmpty]

/-- All paths of a union are declarations when all of both sets are. -/
theorem forall_isDeclaration_union {a b : EntrySet} :
    (∀ path ∈ (a.union b).paths, Entry.isDeclaration path = true) ↔
      (∀ path ∈ a.paths, Entry.isDeclaration path = true) ∧
        ∀ path ∈ b.paths, Entry.isDeclaration path = true := by
  constructor
  · intro h
    refine ⟨fun path hpath => h path (mem_union_left b hpath), ?_⟩
    intro path hpath
    obtain ⟨other, hother, hsame⟩ := exists_same_mem_union a hpath
    rw [isDeclaration_of_same hsame]
    exact h other hother
  · rintro ⟨ha, hb⟩ path hpath
    exact (mem_union hpath).elim (ha path) (hb path)

end DocPlan.EntrySet
