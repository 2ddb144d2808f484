import DocPlan.FilePath.Lexical
import DocPlan.Proofs.Segments

/-!
# Normal paths

A path is normal when it is written as the separator and proper names between
separators (`FilePath.Normal`). Normalizing an absolute path gives a normal path,
and a normal path is its own normal path, seen from any directory.

A base counts only through its components: `body_join` gives the components of
a path seen from it, `components_normalize_eq` those of the normal path of any path, and
`absolutize_congr` says that the same base in another spelling gives the same path, byte by byte.

Main results: `Normal.of_normalize`, `Normal.absolutize_eq` and `absolutize_congr`.
-/

namespace DocPlan.FilePath

open Text

/-! ## Components of absolute paths -/

theorem isAbsolute_iff {path : FilePath} :
    path.isAbsolute = true ↔ ∃ bytes, path = ⟨separator :: bytes⟩ := by
  obtain ⟨bytes⟩ := path
  rw [isAbsolute, isRooted_iff]
  simp

theorem components_separator (bytes : List UInt8) :
    components ⟨separator :: bytes⟩ = .root :: bodyComponents (Text.segments separator bytes) := by
  rw [components, segments_separator]
  rfl

@[simp] theorem bodyComponents_append (front back : List FileName) :
    bodyComponents (front ++ back) = bodyComponents front ++ bodyComponents back := by
  simp [bodyComponents]

/-- A path is absolute when its first component is the root. -/
theorem isAbsolute_iff_head {path : FilePath} :
    path.isAbsolute = true ↔ path.components.head? = some .root := by
  constructor
  · intro h
    obtain ⟨bytes, rfl⟩ := isAbsolute_iff.mp h
    rw [components_separator, List.head?_cons]
  · intro h
    apply Decidable.byContradiction
    intro habsolute
    have hroot : Component.root ∈ path.components := List.mem_of_mem_head? h
    unfold components at hroot
    split at hroot
    next => cases hroot
    next head body _ =>
      rw [if_neg habsolute] at hroot
      rcases List.mem_append.mp hroot with hhead | hbody
      · unfold headComponents ofSegment at hhead
        split at hhead
        · cases hhead
        · split at hhead
          · simp at hhead
          · split at hhead <;> simp at hhead
      · obtain ⟨segment, -, hsegment⟩ := List.mem_map.mp hbody
        unfold ofSegment at hsegment
        split at hsegment <;> cases hsegment

theorem isAbsolute_of_same {p q : FilePath} (hp : p.isAbsolute = true) (h : p.same q = true) :
    q.isAbsolute = true := by
  rw [isAbsolute_iff_head, ← same_iff.mp h]
  exact isAbsolute_iff_head.mp hp

/-! ## Components of any path -/

/-- The components of a path apart from the root and from a `.` at the beginning. -/
def body (path : FilePath) : List Component := bodyComponents (Text.segments separator path.bytes)

theorem components_of_isAbsolute {path : FilePath} (h : path.isAbsolute = true) :
    path.components = .root :: path.body := by
  obtain ⟨bytes, rfl⟩ := isAbsolute_iff.mp h
  rw [components_separator, body, segments_separator]
  rfl

/-- The first segment of a relative path has a component of its own. -/
theorem components_of_segments {path : FilePath} {head : List UInt8} {rest : List FileName}
    (h : path.isAbsolute = false) (hsegments : Text.segments separator path.bytes = head :: rest) :
    path.components = headComponents head ++ bodyComponents rest := by
  unfold components
  rw [hsegments]
  simp only
  rw [if_neg (by simp [h])]

theorem components_of_relative {path : FilePath} (h : path.isAbsolute = false) :
    path.components = path.body ∨ path.components = .current :: path.body := by
  cases hsegments : Text.segments separator path.bytes with
  | nil => exact absurd hsegments (segments_ne_nil _)
  | cons head rest =>
    rw [components_of_segments h hsegments, body, hsegments]
    unfold headComponents
    split
    next hempty => exact Or.inl (by simp [hempty, bodyComponents, isNoise])
    next hempty =>
      split
      next hdot => exact Or.inr (by simp [hdot, bodyComponents, isNoise])
      next hdot => exact Or.inl (by simp [hempty, hdot, bodyComponents, isNoise])

/-- The root and a `.` do not count for the names that remain. -/
theorem resolveNames_components (path : FilePath) :
    resolveNames path.components = resolveNames path.body := by
  cases h : path.isAbsolute with
  | true => rw [components_of_isAbsolute h]; rfl
  | false =>
    rcases components_of_relative h with hbody | hcurrent
    · rw [hbody]
    · rw [hcurrent]; rfl

/-! ## Proper names -/

/-- A name that stands for itself between two separators. -/
structure Proper (name : FileName) : Prop where
  counts : isNoise name = false
  stays : name ≠ [dot, dot]
  whole : separator ∉ name

instance (name : FileName) : Decidable (Proper name) :=
  decidable_of_iff (isNoise name = false ∧ name ≠ [dot, dot] ∧ separator ∉ name)
    ⟨fun h => ⟨h.1, h.2.1, h.2.2⟩, fun h => ⟨h.counts, h.stays, h.whole⟩⟩

theorem Proper.ofSegment_eq {name : FileName} (h : Proper name) : ofSegment name = .name name :=
  if_neg h.stays

theorem Proper.ne_nil {name : FileName} (h : Proper name) : name ≠ [] := by
  rintro rfl
  exact Bool.noConfusion h.counts

theorem Proper.headComponents_eq {name : FileName} (h : Proper name) :
    headComponents name = [.name name] := by
  have hcounts : ¬ name = [] ∧ ¬ name = [dot] := by simpa [isNoise] using h.counts
  rw [headComponents, if_neg hcounts.1, if_neg hcounts.2, h.ofSegment_eq]

/-- A segment that is no `..` and counts is a proper name. -/
theorem proper_of_mem_segments {bytes : List UInt8} {segment : List UInt8}
    (h : segment ∈ Text.segments separator bytes) (hcounts : isNoise segment = false)
    (hstays : segment ≠ [dot, dot]) : Proper segment :=
  ⟨hcounts, hstays, notMem_of_mem_segments h⟩

theorem bodyComponents_of_proper {names : List FileName} (h : ∀ name ∈ names, Proper name) :
    bodyComponents names = names.map .name := by
  have hfilter : names.filter (!isNoise ·) = names :=
    List.filter_eq_self.mpr fun name hname => by simp [(h name hname).counts]
  rw [bodyComponents, hfilter]
  exact List.map_congr_left fun name hname => (h name hname).ofSegment_eq

theorem proper_of_mem_bodyComponents {bytes : List UInt8} {name : FileName}
    (h : .name name ∈ bodyComponents (Text.segments separator bytes)) : Proper name := by
  obtain ⟨segment, hsegment, heq⟩ := List.mem_map.mp h
  obtain ⟨hmem, hcounts⟩ := List.mem_filter.mp hsegment
  unfold ofSegment at heq
  split at heq
  next => cases heq
  next hstays =>
    obtain rfl := Component.name.inj heq
    exact proper_of_mem_segments hmem (by simpa using hcounts) hstays

private theorem mem_foldl_resolveStep {components : List Component} {names : List FileName}
    {name : FileName} (h : name ∈ components.foldl resolveStep names) :
    name ∈ names ∨ .name name ∈ components := by
  induction components generalizing names with
  | nil => exact Or.inl h
  | cons component rest ih =>
    rcases ih h with hstep | hrest
    · cases component with
      | root => exact Or.inl hstep
      | current => exact Or.inl hstep
      | parent => exact Or.inl (List.mem_of_mem_drop hstep)
      | name bytes =>
        rcases List.mem_cons.mp hstep with rfl | hnames
        · exact Or.inr List.mem_cons_self
        · exact Or.inl hnames
    · exact Or.inr (List.mem_cons_of_mem _ hrest)

/-- A name that remains after more components is there before them, or is one of them. -/
theorem mem_resolveNames_append {front back : List Component} {name : FileName}
    (h : name ∈ resolveNames (front ++ back)) :
    name ∈ resolveNames front ∨ .name name ∈ back := by
  rw [resolveNames, List.mem_reverse, List.foldl_append] at h
  exact (mem_foldl_resolveStep h).imp_left List.mem_reverse.mpr

/-- The names that remain are names of the path. -/
theorem mem_resolveNames {components : List Component} {name : FileName}
    (h : name ∈ resolveNames components) : .name name ∈ components := by
  rcases mem_foldl_resolveStep (List.mem_reverse.mp h) with hnil | hmem
  · cases hnil
  · exact hmem

theorem proper_of_mem_resolveNames (path : FilePath) :
    ∀ name ∈ resolveNames path.body, Proper name :=
  fun _ hname => proper_of_mem_bodyComponents (mem_resolveNames hname)

private theorem foldl_resolveStep_names (names kept : List FileName) :
    (names.map Component.name).foldl resolveStep kept = names.reverse ++ kept := by
  induction names generalizing kept with
  | nil => rfl
  | cons name rest ih =>
    rw [List.map_cons, List.foldl_cons, ih, resolveStep, List.reverse_cons, List.append_assoc,
      List.singleton_append]

/-- Names between which no `..` stands all remain. -/
theorem resolveNames_root_names (names : List FileName) :
    resolveNames (.root :: names.map .name) = names := by
  rw [resolveNames, List.foldl_cons, foldl_resolveStep_names]
  simp [resolveStep]

/-- Names after other components all remain. -/
theorem resolveNames_append_names (components : List Component) (names : List FileName) :
    resolveNames (components ++ names.map .name) = resolveNames components ++ names := by
  rw [resolveNames, List.foldl_append, foldl_resolveStep_names, List.reverse_append,
    List.reverse_reverse, resolveNames]

/-! ## Normal paths -/

/-- A path from the root by proper names, with one separator before each. -/
def Normal (path : FilePath) : Prop :=
  ∃ names, (∀ name ∈ names, Proper name) ∧ path = ofNames true names

theorem ofNames_true (names : List FileName) :
    ofNames true names = ⟨separator :: joinSegments separator names⟩ := rfl

theorem components_ofTexts {texts : List FileName} (h : ∀ text ∈ texts, separator ∉ text) :
    (ofNames true texts).components = .root :: bodyComponents texts := by
  rw [ofNames_true, components_separator]
  cases texts with
  | nil => rfl
  | cons text rest => rw [segments_joinSegments (List.cons_ne_nil _ _) h]

theorem components_ofNames {names : List FileName} (h : ∀ name ∈ names, Proper name) :
    (ofNames true names).components = .root :: names.map .name := by
  rw [components_ofTexts fun name hname => (h name hname).whole, bodyComponents_of_proper h]

/-- Segments the first of which is not empty make a relative path. -/
theorem components_joinSegments {head : List UInt8} {rest : List FileName} (hne : head ≠ [])
    (h : ∀ text ∈ head :: rest, separator ∉ text) :
    components ⟨joinSegments separator (head :: rest)⟩ =
      headComponents head ++ bodyComponents rest := by
  have hsegments : Text.segments separator (joinSegments separator (head :: rest)) = head :: rest :=
    segments_joinSegments (List.cons_ne_nil _ _) h
  refine components_of_segments ?_ hsegments
  apply Bool.eq_false_iff.mpr
  intro habsolute
  obtain ⟨bytes, hchars⟩ := isAbsolute_iff.mp habsolute
  rw [FilePath.mk.inj hchars, segments_separator] at hsegments
  exact hne (List.cons.inj hsegments).1.symm

/-- A relative path by proper names. -/
theorem components_ofNames_false {names : List FileName} (h : ∀ name ∈ names, Proper name) :
    (ofNames false names).components = names.map .name := by
  cases names with
  | nil => rfl
  | cons name rest =>
    obtain ⟨hname, hrest⟩ := List.forall_mem_cons.mp h
    have hcomponents : (ofNames false (name :: rest)).components =
        headComponents name ++ bodyComponents rest :=
      components_joinSegments hname.ne_nil fun text htext => (h text htext).whole
    rw [hcomponents, hname.headComponents_eq, bodyComponents_of_proper hrest, List.map_cons,
      List.singleton_append]

theorem isAbsolute_ofNames {absolute : Bool} {names : List FileName}
    (h : ∀ name ∈ names, Proper name) : (ofNames absolute names).isAbsolute = absolute := by
  cases absolute with
  | true => rfl
  | false =>
    apply Bool.eq_false_iff.mpr
    intro habsolute
    rw [isAbsolute_iff_head, components_ofNames_false h] at habsolute
    cases names with
    | nil => cases habsolute
    | cons name rest => cases habsolute

/-- A name is a relative path. -/
theorem Proper.isAbsolute_eq_false {name : FileName} (h : Proper name) :
    isAbsolute ⟨name⟩ = false := by
  have hone : ∀ other ∈ [name], Proper other := List.forall_mem_singleton.mpr h
  have hpath : (ofNames false [name]).isAbsolute = false := isAbsolute_ofNames hone
  exact hpath

/-- The normal path of a path consists of the names that remain. -/
theorem components_normalize_eq (path : FilePath) :
    path.normalize.components =
      (if path.isAbsolute then [.root] else []) ++ (resolveNames path.body).map .name := by
  rw [normalize, resolveNames_components]
  cases path.isAbsolute with
  | true => exact components_ofNames (proper_of_mem_resolveNames path)
  | false => exact components_ofNames_false (proper_of_mem_resolveNames path)

/-- A path counts by two things, whether it is absolute and the names that remain of it. -/
theorem normalize_congr {a b : FilePath} (habsolute : a.isAbsolute = b.isAbsolute)
    (hnames : resolveNames a.body = resolveNames b.body) : a.normalize = b.normalize := by
  rw [normalize, normalize, habsolute, resolveNames_components, resolveNames_components, hnames]

/-- A path is written as some path is normalized, absolute or not. -/
def IsNormalized (path : FilePath) : Prop := ∃ place : FilePath, path = place.normalize

/-- A path that is normalized is told by its components. -/
theorem IsNormalized.eq_of_same {a b : FilePath} (ha : a.IsNormalized) (hb : b.IsNormalized)
    (h : a.same b = true) : a = b := by
  obtain ⟨path, rfl⟩ := ha
  obtain ⟨other, rfl⟩ := hb
  have hcomponents : path.normalize.components = other.normalize.components := same_iff.mp h
  have hroot : ∀ p : FilePath, .root ∈ p.normalize.components ↔ p.isAbsolute = true := by
    intro p
    rw [components_normalize_eq]
    cases p.isAbsolute <;> simp
  have habsolute : path.isAbsolute = other.isAbsolute := by
    rw [Bool.eq_iff_iff, ← hroot, ← hroot, hcomponents]
  have hnames : resolveNames path.components = resolveNames other.components := by
    rw [components_normalize_eq, components_normalize_eq, habsolute] at hcomponents
    rw [resolveNames_components, resolveNames_components]
    exact (List.map_inj_right fun _ _ => Component.name.inj).mp
      (List.append_cancel_left hcomponents)
  rw [normalize, normalize, habsolute, hnames]

theorem components_normalize {path : FilePath} (h : path.isAbsolute = true) :
    path.normalize.components = .root :: (resolveNames path.components).map .name := by
  rw [components_normalize_eq, if_pos h, resolveNames_components, List.singleton_append]

namespace Normal

variable {path : FilePath}

theorem isAbsolute (h : Normal path) : path.isAbsolute = true := by
  obtain ⟨names, -, rfl⟩ := h
  rfl

theorem normalize_eq (h : Normal path) : path.normalize = path := by
  obtain ⟨names, hproper, rfl⟩ := h
  rw [normalize, components_ofNames hproper, resolveNames_root_names]
  rfl

theorem eq_of_same {other : FilePath} (h : Normal path) (hother : Normal other)
    (hsame : path.same other = true) : path = other :=
  IsNormalized.eq_of_same ⟨path, h.normalize_eq.symm⟩ ⟨other, hother.normalize_eq.symm⟩ hsame

theorem of_normalize (h : path.isAbsolute = true) : Normal path.normalize := by
  refine ⟨resolveNames path.body, proper_of_mem_resolveNames path, ?_⟩
  rw [normalize, h, resolveNames_components]

end Normal

/-! ## Paths seen from a base -/

theorem join_of_isAbsolute (base : FilePath) {path : FilePath} (h : path.isAbsolute = true) :
    base.join path = path := if_pos h

/-- A relative path seen from a base is absolute when the base is. -/
theorem isAbsolute_join_of_relative (base : FilePath) {path : FilePath}
    (hpath : path.isAbsolute = false) : (base.join path).isAbsolute = base.isAbsolute := by
  obtain ⟨bytes⟩ := base
  rw [join, if_neg (by simp [hpath])]
  cases bytes with
  | nil => exact hpath
  | cons c rest =>
    obtain ⟨front, hfront, -⟩ := withSeparator_cons separator c rest
    rw [isAbsolute, isRooted_append (by simp [hfront]), isRooted_withSeparator,
      isAbsolute]

theorem isAbsolute_join {base : FilePath} (hbase : base.isAbsolute = true) (path : FilePath) :
    (base.join path).isAbsolute = true := by
  by_cases hpath : path.isAbsolute = true
  · rw [join_of_isAbsolute base hpath]
    exact hpath
  · rw [isAbsolute_join_of_relative base (Bool.eq_false_iff.mpr hpath)]
    exact hbase

/-- The components of a relative path follow those of the base that it is seen from. -/
theorem body_join (base : FilePath) {path : FilePath} (hpath : path.isAbsolute = false) :
    (base.join path).body = base.body ++ path.body := by
  obtain ⟨bytes⟩ := base
  rw [join, if_neg (by simp [hpath])]
  cases bytes with
  | nil => rfl
  | cons c rest =>
    obtain ⟨front, hfront, hsplit⟩ := withSeparator_cons separator c rest
    have hbase : bodyComponents (Text.segments separator (c :: rest)) =
        bodyComponents (Text.segments separator front) := by
      rcases hsplit with rfl | hend
      · rfl
      · rw [← hend, segments_append_separator, bodyComponents_append]
        exact List.append_nil _
    rw [body, body, body, hfront, hbase, List.append_assoc, List.singleton_append,
      segments_append_separator, bodyComponents_append]

theorem components_join {base path : FilePath} (hbase : base.isAbsolute = true)
    (hpath : path.isAbsolute = false) :
    (base.join path).components = base.components ++ path.body := by
  rw [components_of_isAbsolute (isAbsolute_join hbase path), components_of_isAbsolute hbase,
    body_join base hpath, List.cons_append]

/-- What follows a separator adds its components to those of what is before. -/
theorem components_append_separator {front : List UInt8} (hne : front ≠ []) (back : List UInt8) :
    components ⟨front ++ separator :: back⟩ =
      components ⟨front⟩ ++ bodyComponents (Text.segments separator back) := by
  have habsolute : isAbsolute ⟨front ++ separator :: back⟩ = isAbsolute ⟨front⟩ :=
    isRooted_append hne _
  unfold components
  rw [habsolute]
  simp only [segments_append_separator]
  cases hsegments : Text.segments separator front with
  | nil => exact absurd hsegments (segments_ne_nil front)
  | cons head rest =>
    simp only [List.cons_append, bodyComponents_append]
    split
    next => rfl
    next => exact (List.append_assoc _ _ _).symm

/-- A path without a leading `.` adds its components to those of any base. -/
theorem components_join_of_plain (base : FilePath) {path : FilePath}
    (hpath : path.isAbsolute = false) (hplain : path.components = path.body) :
    (base.join path).components = base.components ++ path.components := by
  obtain ⟨bytes⟩ := base
  rw [join, if_neg (by simp [hpath])]
  cases bytes with
  | nil => rfl
  | cons c rest =>
    obtain ⟨front, hfront, hsplit⟩ := withSeparator_cons separator c rest
    rw [hfront, List.append_assoc, List.singleton_append, hplain]
    cases front with
    | nil =>
      obtain ⟨rfl, rfl⟩ : c = separator ∧ rest = [] := by
        rcases hsplit with hsame | hend
        · cases hsame
        · exact ⟨(List.cons.inj hend).1.symm, (List.cons.inj hend).2.symm⟩
      exact components_separator _
    | cons d others =>
      have hbase : components ⟨d :: others⟩ = components ⟨c :: rest⟩ := by
        rcases hsplit with hsame | hend
        · rw [hsame]
        · rw [← hend, components_append_separator (List.cons_ne_nil d others)]
          exact (List.append_nil _).symm
      rw [components_append_separator (List.cons_ne_nil d others), hbase]
      rfl

theorem Normal.of_absolutize {base : FilePath} (hbase : base.isAbsolute = true)
    (path : FilePath) : Normal (base.absolutize path) :=
  .of_normalize (isAbsolute_join hbase path)

theorem absolutize_of_isAbsolute (base : FilePath) {path : FilePath}
    (h : path.isAbsolute = true) : base.absolutize path = path.normalize := by
  rw [absolutize, join_of_isAbsolute base h]

theorem Normal.absolutize_eq {path : FilePath} (h : Normal path) (base : FilePath) :
    base.absolutize path = path := by
  rw [absolutize_of_isAbsolute base h.isAbsolute, h.normalize_eq]

/-- The same base in another spelling gives the same bytes. -/
theorem absolutize_congr {a b : FilePath} (ha : a.isAbsolute = true) (h : a.same b = true)
    (path : FilePath) : a.absolutize path = b.absolutize path := by
  have hb : b.isAbsolute = true := isAbsolute_of_same ha h
  have hcomponents : a.components = b.components := same_iff.mp h
  by_cases hpath : path.isAbsolute = true
  · rw [absolutize_of_isAbsolute a hpath, absolutize_of_isAbsolute b hpath]
  · have hrelative := Bool.eq_false_iff.mpr hpath
    rw [absolutize, absolutize, normalize, normalize, isAbsolute_join ha, isAbsolute_join hb,
      components_join ha hrelative, components_join hb hrelative, hcomponents]

end DocPlan.FilePath
