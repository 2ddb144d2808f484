import DocPlan.Proofs.ManifestPaths

/-!
# Laws of normal paths

The normal path of a path can be built one component after the other: the root starts anew, a
name is put at the end, and `..` cuts the last name off, if there is one (`FilePath.follow`).
`normalize_eq_foldl` says that this gives the path that `FilePath.normalize` finds from the
names alone.

A path counts in a longer one by two things, whether it is absolute and the names that remain of
it (`normalize_congr`). Normalizing keeps both. So it may be done at any time and any number of
times, before a path is seen from a base or after it.

Main result: `normalize_laws`.
-/

namespace DocPlan.FilePath

open Text

/-! ## One component after the other -/

/-- The path that one more component leads to. -/
def follow (path : FilePath) : Component → FilePath
  | .root => path.join ⟨[separator]⟩
  | .current => path
  | .parent => path.parent?.getD path
  | .name bytes => path.join ⟨bytes⟩

/-- A component that may stand after the beginning of a path. -/
def Component.Inner : Component → Prop
  | .root => False
  | .current => True
  | .parent => True
  | .name bytes => Proper bytes

theorem inner_of_mem_body {path : FilePath} {component : Component} (h : component ∈ path.body) :
    component.Inner := by
  cases component with
  | root =>
    obtain ⟨segment, -, hsegment⟩ := List.mem_map.mp h
    unfold ofSegment at hsegment
    split at hsegment <;> cases hsegment
  | current => trivial
  | parent => trivial
  | name bytes => exact proper_of_mem_bodyComponents h

/-- A component changes the path as it changes the names that remain, the last one first. -/
theorem follow_ofNames {absolute : Bool} {names : List FileName} {component : Component}
    (hnames : ∀ name ∈ names, Proper name) (hinner : component.Inner) :
    follow (ofNames absolute names.reverse) component =
      ofNames absolute (resolveStep names component).reverse := by
  have hreverse : ∀ name ∈ names.reverse, Proper name :=
    fun name hname => hnames name (List.mem_reverse.mp hname)
  cases component with
  | root => exact hinner.elim
  | current => rfl
  | parent =>
    cases names with
    | nil => rw [follow, List.reverse_nil, parent?_ofNames_nil]; rfl
    | cons last others =>
      obtain ⟨hlast, hothers⟩ := List.forall_mem_cons.mp hnames
      rw [follow, List.reverse_cons,
        parent?_ofNames (fun name hname => hothers name (List.mem_reverse.mp hname)) hlast]
      rfl
  | name bytes =>
    have hone : ∀ name ∈ [bytes], Proper name := List.forall_mem_singleton.mpr hinner
    rw [resolveStep, List.reverse_cons]
    exact join_ofNames hreverse (List.cons_ne_nil bytes []) hone

theorem proper_of_mem_resolveStep {names : List FileName} {component : Component}
    (hnames : ∀ name ∈ names, Proper name) (hinner : component.Inner) :
    ∀ name ∈ resolveStep names component, Proper name := by
  cases component with
  | root => exact hnames
  | current => exact hnames
  | parent => exact fun name hname => hnames name (List.mem_of_mem_drop hname)
  | name bytes => exact List.forall_mem_cons.mpr ⟨hinner, hnames⟩

theorem foldl_follow {absolute : Bool} {names : List FileName} {components : List Component}
    (hnames : ∀ name ∈ names, Proper name) (hinner : ∀ component ∈ components, component.Inner) :
    components.foldl follow (ofNames absolute names.reverse) =
      ofNames absolute (components.foldl resolveStep names).reverse := by
  induction components generalizing names with
  | nil => rfl
  | cons component rest ih =>
    obtain ⟨hcomponent, hrest⟩ := List.forall_mem_cons.mp hinner
    rw [List.foldl_cons, List.foldl_cons, follow_ofNames hnames hcomponent]
    exact ih (proper_of_mem_resolveStep hnames hcomponent) hrest

/-- Following a path from the empty path leads to its normal path. -/
theorem normalize_eq_foldl (path : FilePath) :
    path.normalize = path.components.foldl follow ⟨[]⟩ := by
  have hbody : ∀ absolute : Bool, path.body.foldl follow (ofNames absolute []) =
      ofNames absolute (resolveNames path.body) :=
    fun absolute => foldl_follow (List.forall_mem_nil _) fun _ => inner_of_mem_body
  rw [normalize, resolveNames_components]
  cases habsolute : path.isAbsolute with
  | true =>
    rw [components_of_isAbsolute habsolute, List.foldl_cons]
    exact (hbody true).symm
  | false =>
    rcases components_of_relative habsolute with hcomponents | hcomponents
    · rw [hcomponents]
      exact (hbody false).symm
    · rw [hcomponents, List.foldl_cons]
      exact (hbody false).symm

/-! ## What normalizing keeps -/

theorem isAbsolute_normalize (path : FilePath) : path.normalize.isAbsolute = path.isAbsolute := by
  rw [normalize, resolveNames_components]
  exact isAbsolute_ofNames (proper_of_mem_resolveNames path)

theorem resolveNames_body_normalize (path : FilePath) :
    resolveNames path.normalize.body = resolveNames path.body := by
  rw [← resolveNames_components path.normalize, components_normalize_eq,
    resolveNames_append_names]
  cases path.isAbsolute <;> rfl

theorem resolveNames_append_congr {a b : List Component} (h : resolveNames a = resolveNames b)
    (more : List Component) : resolveNames (a ++ more) = resolveNames (b ++ more) := by
  unfold resolveNames at h ⊢
  rw [List.foldl_append, List.foldl_append, List.reverse_inj.mp h]

theorem normalize_normalize (path : FilePath) : path.normalize.normalize = path.normalize :=
  normalize_congr (isAbsolute_normalize path) (resolveNames_body_normalize path)

/-- A base may be normalized before a path is seen from it. -/
theorem normalize_join (base path : FilePath) :
    (base.normalize.join path).normalize = (base.join path).normalize := by
  cases hpath : path.isAbsolute with
  | true => rw [join_of_isAbsolute _ hpath, join_of_isAbsolute _ hpath]
  | false =>
    apply normalize_congr
    · rw [isAbsolute_join_of_relative _ hpath, isAbsolute_join_of_relative _ hpath,
        isAbsolute_normalize]
    · rw [body_join _ hpath, body_join _ hpath]
      exact resolveNames_append_congr (resolveNames_body_normalize base) _

/-! ## No `.` and no `..` -/

theorem mem_segments_ofNames {absolute : Bool} {names : List FileName} {segment : List UInt8}
    (hnames : ∀ name ∈ names, Proper name)
    (h : segment ∈ Text.segments separator (ofNames absolute names).bytes) :
    segment = [] ∨ segment ∈ names := by
  have hrelative : segment ∈ Text.segments separator (joinSegments separator names) →
      segment = [] ∨ segment ∈ names := by
    intro hmem
    cases names with
    | nil => exact Or.inl (List.mem_singleton.mp hmem)
    | cons name rest =>
      rw [segments_joinSegments (List.cons_ne_nil _ _) fun text htext => (hnames text htext).whole]
        at hmem
      exact Or.inr hmem
  cases absolute with
  | false => exact hrelative h
  | true =>
    rw [ofNames_true, segments_separator] at h
    exact (List.mem_cons.mp h).elim Or.inl hrelative

theorem segments_normalize_ne_dots (path : FilePath) :
    ∀ segment ∈ Text.segments separator path.normalize.bytes,
      segment ≠ [dot] ∧ segment ≠ [dot, dot] := by
  intro segment hsegment
  rw [normalize, resolveNames_components] at hsegment
  rcases mem_segments_ofNames (proper_of_mem_resolveNames path) hsegment with rfl | hname
  · exact ⟨by decide, by decide⟩
  · have hproper := proper_of_mem_resolveNames path segment hname
    refine ⟨?_, hproper.stays⟩
    rintro rfl
    exact Bool.noConfusion hproper.counts

theorem components_normalize_ne_dots (path : FilePath) :
    ∀ component ∈ path.normalize.components, component ≠ .current ∧ component ≠ .parent := by
  intro component hcomponent
  rw [components_normalize_eq, List.mem_append] at hcomponent
  rcases hcomponent with hroot | hname
  · split at hroot
    next =>
      obtain rfl := List.mem_singleton.mp hroot
      exact ⟨by decide, by decide⟩
    next => cases hroot
  · obtain ⟨name, -, rfl⟩ := List.mem_map.mp hname
    exact ⟨Component.noConfusion, Component.noConfusion⟩

/-- The normal path of a path is where its components lead. It has no `.` and no `..`, neither
among its components nor in its bytes, and it is its own normal path. A base may be replaced by its
normal path, and what is seen from an absolute base is absolute and seen from there as itself. -/
theorem normalize_laws (base path : FilePath) :
    path.normalize = path.components.foldl follow ⟨[]⟩ ∧
    (∀ component ∈ path.normalize.components, component ≠ .current ∧ component ≠ .parent) ∧
    (∀ segment ∈ Text.segments separator path.normalize.bytes,
      segment ≠ [dot] ∧ segment ≠ [dot, dot]) ∧
    path.normalize.isAbsolute = path.isAbsolute ∧
    path.normalize.normalize = path.normalize ∧
    (base.join path).normalize = (base.normalize.join path).normalize ∧
    base.normalize.absolutize path = base.absolutize path ∧
    (base.isAbsolute = true →
      (base.absolutize path).isAbsolute = true ∧
        base.absolutize (base.absolutize path) = base.absolutize path) := by
  refine ⟨normalize_eq_foldl path, components_normalize_ne_dots path,
    segments_normalize_ne_dots path, isAbsolute_normalize path, normalize_normalize path,
    (normalize_join base path).symm, normalize_join base path, ?_⟩
  intro habsolute
  have hnormal := Normal.of_absolutize habsolute path
  exact ⟨hnormal.isAbsolute, hnormal.absolutize_eq base⟩

theorem normalize_laws_of_climb :
    (ofString "//a/.././../b/").isAbsolute = true ∧
      (ofString "//a/.././../b/").absolutize (ofString "./../..//c/.") = ofString "/c" ∧
      (ofString "//a/.././../b/").absolutize (ofString "/c") = ofString "/c" := by
  have hclimb : (ofString "//a/.././../b/").absolutize (ofString "./../..//c/.") =
      ofString "/c" := by decide
  obtain ⟨-, -, -, -, -, -, -, hseen⟩ :=
    normalize_laws (ofString "//a/.././../b/") (ofString "./../..//c/.")
  have hagain := (hseen (by decide)).2
  rw [hclimb] at hagain
  exact ⟨by decide, hclimb, hagain⟩

end DocPlan.FilePath
