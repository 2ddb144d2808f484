import DocPlan.Manifest.Locate
import DocPlan.Proofs.NormalPaths
import Mathlib.Data.List.Induction

/-!
# Paths on the way to a manifest

A manifest is looked for in a directory and in those above it, and its targets are
seen from its own directory. What this module says is which of these paths are
normal, and what the others have for components: the parent of a path lacks its last
component (`components_parent?`), and the manifest of a directory has one more
(`components_join_manifest`). A name may be put after a path before or after that is seen
from a base (`absolutize_join_name`).

A path is `Straight` when it has the components of a normal path. The directories above
a straight one are straight, and so are their manifests; the same holds of normal ones.
-/

namespace DocPlan

namespace FilePath

open Text

/-! ## Parents -/

theorem trimEnd_concat (body : List FileName) (last : List UInt8) :
    trimEnd (body ++ [last]) = if isNoise last then trimEnd body else body ++ [last] := by
  by_cases h : isNoise last = true <;> simp [trimEnd, h]

theorem mem_of_mem_trimEnd {body : List FileName} {segment : List UInt8}
    (h : segment ∈ trimEnd body) : segment ∈ body := by
  have hdrop := (List.dropWhile_sublist isNoise).subset (List.mem_reverse.mp h)
  exact List.mem_reverse.mp hdrop

theorem bodyComponents_singleton (segment : List UInt8) :
    bodyComponents [segment] = if isNoise segment then [] else [ofSegment segment] := by
  by_cases h : isNoise segment = true <;> simp [bodyComponents, h]

theorem bodyComponents_trimEnd (body : List FileName) :
    bodyComponents (trimEnd body) = bodyComponents body := by
  induction body using List.reverseRecOn with
  | nil => rfl
  | append_singleton body last ih =>
    rw [trimEnd_concat, bodyComponents_append, bodyComponents_singleton]
    split
    next => rw [ih, List.append_nil]
    next hcounts => rw [bodyComponents_append, bodyComponents_singleton, if_neg hcounts]

theorem trimEnd_eq_nil_iff {body : List FileName} :
    trimEnd body = [] ↔ bodyComponents body = [] := by
  induction body using List.reverseRecOn with
  | nil => simp [trimEnd, bodyComponents]
  | append_singleton body last ih =>
    rw [trimEnd_concat, bodyComponents_append, bodyComponents_singleton]
    split
    next => rw [ih, List.append_nil]
    next => simp

/-- Dropping the last segment that counts drops the last component. -/
theorem bodyComponents_dropLast_trimEnd (body : List FileName) :
    bodyComponents (trimEnd body).dropLast = (bodyComponents body).dropLast := by
  induction body using List.reverseRecOn with
  | nil => rfl
  | append_singleton body last ih =>
    rw [trimEnd_concat, bodyComponents_append, bodyComponents_singleton]
    split
    next => rw [ih, List.append_nil]
    next => rw [List.dropLast_concat, List.dropLast_concat]

theorem trimEnd_of_proper {names : List FileName} (h : ∀ name ∈ names, Proper name) :
    trimEnd names = names := by
  obtain rfl | ⟨front, last, rfl⟩ := List.eq_nil_or_concat names
  · rfl
  · rw [List.concat_eq_append] at h ⊢
    have hlast : Proper last := h last (List.mem_append_right _ (List.mem_singleton_self last))
    rw [trimEnd_concat, if_neg (by simp [hlast.counts])]

theorem parent?_separator (bytes : List UInt8) :
    parent? ⟨separator :: bytes⟩ =
      if (trimEnd (Text.segments separator bytes)).isEmpty then none
      else some (ofNames true (trimEnd (trimEnd (Text.segments separator bytes)).dropLast)) := by
  rw [parent?, segments_separator]
  rfl

theorem parent?_of_segments {path : FilePath} {head : List UInt8} {rest : List FileName}
    (h : path.isAbsolute = false) (hsegments : Text.segments separator path.bytes = head :: rest) :
    path.parent? =
      if head.isEmpty then none
      else if (trimEnd rest).isEmpty then some ⟨[]⟩
      else some ⟨joinSegments separator (head :: trimEnd (trimEnd rest).dropLast)⟩ := by
  unfold parent?
  rw [hsegments]
  simp only
  rw [if_neg (by simp [h])]

theorem eq_empty_of_segments {path : FilePath} {rest : List FileName}
    (h : path.isAbsolute = false) (hsegments : Text.segments separator path.bytes = [] :: rest) :
    path = ⟨[]⟩ := by
  obtain ⟨bytes⟩ := path
  cases bytes with
  | nil => rfl
  | cons c others =>
    by_cases hc : c = separator
    · subst hc
      cases h
    · have hsome : Text.segments separator (c :: others) ≠ [] :: rest := by
        rw [Text.segments, if_neg hc]
        cases Text.segments separator others <;> simp [extendFirst]
      exact absurd hsegments hsome

/-- The first segment of a relative path has one component, unless it is empty. -/
theorem exists_headComponents {head : List UInt8} (hne : head ≠ []) :
    ∃ component, headComponents head = [component] := by
  unfold headComponents
  rw [if_neg hne]
  split <;> exact ⟨_, rfl⟩

/-- Only the empty path has no components. -/
theorem components_eq_nil_iff {path : FilePath} : path.components = [] ↔ path = ⟨[]⟩ := by
  constructor
  · intro hnil
    have hrelative : path.isAbsolute = false := by
      apply Bool.eq_false_iff.mpr
      simp [isAbsolute_iff_head, hnil]
    obtain ⟨head, rest, hsegments⟩ := List.exists_cons_of_ne_nil (segments_ne_nil path.bytes)
    rw [components_of_segments hrelative hsegments] at hnil
    by_cases hhead : head = []
    · exact eq_empty_of_segments hrelative (hhead ▸ hsegments)
    · obtain ⟨component, hcomponent⟩ := exists_headComponents hhead
      simp [hcomponent] at hnil
  · rintro rfl
    rfl

/-- What is left of the segments has no separator in it. -/
private theorem notMem_of_mem_trimmed {bytes : List UInt8} {body : List FileName}
    (hbody : ∀ text ∈ body, text ∈ Text.segments separator bytes) {text : List UInt8}
    (h : text ∈ trimEnd (trimEnd body).dropLast) : separator ∉ text :=
  notMem_of_mem_segments
    (hbody text (mem_of_mem_trimEnd (List.dropLast_subset _ (mem_of_mem_trimEnd h))))

/-- The parent of a path lacks its last component. -/
theorem components_parent? {path parent : FilePath} (h : path.parent? = some parent) :
    parent.components = path.components.dropLast := by
  have hne : ∀ {body : List FileName}, ¬ (trimEnd body).isEmpty = true →
      bodyComponents body ≠ [] :=
    fun hsome hnil => hsome (List.isEmpty_iff.mpr (trimEnd_eq_nil_iff.mpr hnil))
  cases habsolute : path.isAbsolute with
  | true =>
    obtain ⟨bytes, rfl⟩ := isAbsolute_iff.mp habsolute
    rw [parent?_separator] at h
    split at h
    next => cases h
    next hsome =>
      obtain rfl := Option.some.inj h
      rw [components_ofTexts fun _ => notMem_of_mem_trimmed fun _ htext => htext,
        bodyComponents_trimEnd, bodyComponents_dropLast_trimEnd, components_separator,
        List.dropLast_cons_of_ne_nil (hne hsome)]
  | false =>
    obtain ⟨head, rest, hsegments⟩ := List.exists_cons_of_ne_nil (segments_ne_nil path.bytes)
    rw [parent?_of_segments habsolute hsegments] at h
    rw [components_of_segments habsolute hsegments]
    split at h
    next => cases h
    next hhead =>
      have hhead : head ≠ [] := fun hnil => hhead (List.isEmpty_iff.mpr hnil)
      split at h
      next hempty =>
        -- The head alone has one component.
        obtain rfl := Option.some.inj h
        obtain ⟨component, hcomponent⟩ := exists_headComponents hhead
        rw [trimEnd_eq_nil_iff.mp (List.isEmpty_iff.mp hempty), hcomponent]
        rfl
      next hsome =>
        obtain rfl := Option.some.inj h
        have hwhole : ∀ text ∈ head :: trimEnd (trimEnd rest).dropLast, separator ∉ text := by
          refine List.forall_mem_cons.mpr ⟨?_, ?_⟩
          · exact notMem_of_mem_segments (hsegments ▸ List.mem_cons_self)
          · exact fun _ => notMem_of_mem_trimmed fun _ htext =>
              hsegments ▸ List.mem_cons_of_mem _ htext
        rw [components_joinSegments hhead hwhole, bodyComponents_trimEnd,
          bodyComponents_dropLast_trimEnd, List.dropLast_append_of_ne_nil (hne hsome)]

/-- Only the root and the empty path have no parent. -/
theorem parent?_eq_none_iff {path : FilePath} :
    path.parent? = none ↔ path = ⟨[]⟩ ∨ path.components = [.root] := by
  cases habsolute : path.isAbsolute with
  | true =>
    obtain ⟨bytes, rfl⟩ := isAbsolute_iff.mp habsolute
    rw [parent?_separator, components_separator]
    split
    next hempty => simp [trimEnd_eq_nil_iff.mp (List.isEmpty_iff.mp hempty)]
    next hsome =>
      have hne : bodyComponents (Text.segments separator bytes) ≠ [] :=
        fun hnil => hsome (List.isEmpty_iff.mpr (trimEnd_eq_nil_iff.mpr hnil))
      simp [hne]
  | false =>
    obtain ⟨head, rest, hsegments⟩ := List.exists_cons_of_ne_nil (segments_ne_nil path.bytes)
    rw [parent?_of_segments habsolute hsegments]
    split
    next hempty =>
      exact iff_of_true rfl
        (Or.inl (eq_empty_of_segments habsolute (List.isEmpty_iff.mp hempty ▸ hsegments)))
    next hhead =>
      have hne : path ≠ ⟨[]⟩ := by
        rintro rfl
        exact hhead (List.isEmpty_iff.mpr (List.cons.inj hsegments).1.symm)
      have hroot : path.components ≠ [.root] := by
        intro hcomponents
        have hhead : path.isAbsolute = true := by rw [isAbsolute_iff_head, hcomponents]; rfl
        exact Bool.noConfusion (habsolute.symm.trans hhead)
      split <;> simp [hne, hroot]

/-- A path and its parent are both absolute or both relative. -/
theorem isAbsolute_parent? {path parent : FilePath} (h : path.parent? = some parent) :
    parent.isAbsolute = path.isAbsolute := by
  have hsome : ¬ (path = ⟨[]⟩ ∨ path.components = [.root]) := by
    rw [← parent?_eq_none_iff, h]
    exact Option.some_ne_none parent
  rw [Bool.eq_iff_iff, isAbsolute_iff_head, isAbsolute_iff_head, components_parent? h]
  cases hcomponents : path.components with
  | nil => exact absurd (Or.inl (components_eq_nil_iff.mp hcomponents)) hsome
  | cons first rest =>
    cases rest with
    | nil =>
      have hroot : first ≠ .root := fun hroot => hsome (Or.inr (by rw [hcomponents, hroot]))
      simp [hroot]
    | cons second others => simp

/-- A path that ends in a name has a parent. -/
theorem exists_parent? {path : FilePath} {front : List Component} {name : FileName}
    (h : path.components = front ++ [.name name]) : ∃ parent, path.parent? = some parent := by
  refine Option.ne_none_iff_exists'.mp fun hnone => ?_
  rcases parent?_eq_none_iff.mp hnone with rfl | hroot
  · exact List.append_ne_nil_of_right_ne_nil front (List.cons_ne_nil _ _) h.symm
  · have hlast := congrArg List.getLast? (h.symm.trans hroot)
    simp at hlast

/-- The parent of a list of names is the list without the last one. -/
theorem parent?_ofNames {absolute : Bool} {names : List FileName} {last : FileName}
    (hnames : ∀ name ∈ names, Proper name) (hlast : Proper last) :
    (ofNames absolute (names ++ [last])).parent? = some (ofNames absolute names) := by
  have hall : ∀ name ∈ names ++ [last], Proper name :=
    List.forall_mem_append.mpr ⟨hnames, by simpa using hlast⟩
  have hsegments :
      Text.segments separator (joinSegments separator (names ++ [last])) = names ++ [last] :=
    segments_joinSegments (by simp) fun text htext => (hall text htext).whole
  cases absolute with
  | true =>
    rw [ofNames_true, parent?_separator, hsegments, trimEnd_of_proper hall, if_neg (by simp),
      List.dropLast_concat, trimEnd_of_proper hnames]
  | false =>
    have hrelative : (ofNames false (names ++ [last])).isAbsolute = false :=
      isAbsolute_ofNames hall
    cases names with
    | nil =>
      rw [parent?_of_segments hrelative hsegments, if_neg (by simp [hlast.ne_nil])]
      rfl
    | cons first rest =>
      obtain ⟨hfirst, hrest⟩ := List.forall_mem_cons.mp hnames
      have hmore : ∀ name ∈ rest ++ [last], Proper name :=
        List.forall_mem_append.mpr ⟨hrest, by simpa using hlast⟩
      rw [List.cons_append] at hsegments
      rw [parent?_of_segments hrelative hsegments, if_neg (by simp [hfirst.ne_nil]),
        trimEnd_of_proper hmore, if_neg (by simp), List.dropLast_concat, trimEnd_of_proper hrest]
      rfl

theorem parent?_ofNames_nil (absolute : Bool) : (ofNames absolute []).parent? = none := by
  cases absolute <;> rfl

theorem Normal.of_parent? {path parent : FilePath} (hnormal : Normal path)
    (h : path.parent? = some parent) : Normal parent := by
  obtain ⟨names, hproper, rfl⟩ := hnormal
  cases names using List.reverseRecOn with
  | nil =>
    rw [parent?_ofNames_nil] at h
    cases h
  | append_singleton names last =>
    obtain ⟨hnames, hlast⟩ := List.forall_mem_append.mp hproper
    rw [parent?_ofNames hnames (by simpa using hlast)] at h
    exact ⟨names, hnames, (Option.some.inj h).symm⟩

/-! ## Straight paths -/

/-- A path from the root that never steps back: it has the components of a normal
path. -/
def Straight (path : FilePath) : Prop :=
  ∃ names : List FileName,
    (∀ name ∈ names, Proper name) ∧ path.components = .root :: names.map .name

theorem Normal.straight {path : FilePath} (h : Normal path) : Straight path := by
  obtain ⟨names, hproper, rfl⟩ := h
  exact ⟨names, hproper, components_ofNames hproper⟩

namespace Straight

variable {path : FilePath}

theorem isAbsolute (h : Straight path) : path.isAbsolute = true := by
  obtain ⟨names, -, hcomponents⟩ := h
  rw [isAbsolute_iff_head, hcomponents, List.head?_cons]

/-- An absolute path that has the components of its normal path is straight. -/
theorem of_same (habsolute : path.isAbsolute = true) (h : path.normalize.same path = true) :
    Straight path := by
  obtain ⟨names, hproper, hcomponents⟩ := (Normal.of_normalize habsolute).straight
  have hsame : path.normalize.components = path.components := same_iff.mp h
  exact ⟨names, hproper, hsame ▸ hcomponents⟩

theorem normalize_same (h : Straight path) : path.normalize.same path = true := by
  obtain ⟨names, -, hcomponents⟩ := id h
  rw [same_iff, components_normalize h.isAbsolute, hcomponents, resolveNames_root_names]

theorem of_parent? {parent : FilePath} (h : Straight path)
    (hparent : path.parent? = some parent) : Straight parent := by
  obtain ⟨names, hproper, hcomponents⟩ := id h
  have habsolute : parent.isAbsolute = true := (isAbsolute_parent? hparent).trans h.isAbsolute
  have hdrop := components_parent? hparent
  rw [hcomponents] at hdrop
  cases names with
  | nil =>
    rw [isAbsolute_iff_head, hdrop] at habsolute
    cases habsolute
  | cons name rest =>
    refine ⟨(name :: rest).dropLast, ?_, ?_⟩
    · intro other hother
      exact hproper other (List.dropLast_subset _ hother)
    · rw [hdrop, List.map_dropLast]
      rfl

end Straight

/-- What holds of a path and passes to parents holds of the directories above. -/
theorem forall_mem_ancestors {P : FilePath → Prop}
    (hparent : ∀ path parent, P path → path.parent? = some parent → P parent)
    {path : FilePath} (h : P path) : ∀ ancestor ∈ path.ancestors, P ancestor := by
  suffices hwithin : ∀ bound path, P path → ∀ ancestor ∈ ancestorsWithin bound path, P ancestor
    from hwithin _ path h
  intro bound
  induction bound with
  | zero => simp [ancestorsWithin]
  | succ bound ih =>
    intro path hpath ancestor hancestor
    rcases List.mem_cons.mp hancestor with rfl | hrest
    · exact hpath
    · cases hnext : path.parent? with
      | none => simp [hnext] at hrest
      | some parent =>
        rw [hnext] at hrest
        exact ih parent (hparent path parent hpath hnext) ancestor hrest

/-! ## The manifest of a directory -/

theorem proper_manifestName : Proper manifestName.bytes := ⟨by decide, by decide, by decide⟩

theorem components_join_manifest (directory : FilePath) :
    (directory.join manifestName).components =
      directory.components ++ [.name manifestName.bytes] :=
  components_join_of_plain directory proper_manifestName.isAbsolute_eq_false (by decide)

/-- Directories with the same manifest are the same. -/
theorem same_join_manifest {directory other : FilePath} :
    (directory.join manifestName).same (other.join manifestName) = true ↔
      directory.same other = true := by
  rw [same_iff, same_iff, components_join_manifest, components_join_manifest,
    List.append_left_inj]

theorem Straight.join_manifest {directory : FilePath} (h : Straight directory) :
    Straight (directory.join manifestName) := by
  obtain ⟨names, hproper, hcomponents⟩ := id h
  refine ⟨names ++ [manifestName.bytes], ?_, ?_⟩
  · intro name hname
    rcases List.mem_append.mp hname with hold | hnew
    · exact hproper name hold
    · obtain rfl := List.mem_singleton.mp hnew
      exact proper_manifestName
  · rw [components_join_manifest, hcomponents]
    simp

/-- Proper names joined do not end with a separator. -/
theorem getLast?_joinSegments {names : List FileName} (hne : names ≠ [])
    (h : ∀ name ∈ names, Proper name) :
    ∃ last, (joinSegments separator names).getLast? = some last ∧ last ≠ separator := by
  have hwhole : Text.segments separator (joinSegments separator names) = names :=
    segments_joinSegments hne fun name hname => (h name hname).whole
  have hempty : [] ∉ names := fun hmem => (h [] hmem).ne_nil rfl
  cases hlast : (joinSegments separator names).getLast? with
  | none =>
    rw [List.getLast?_eq_none_iff.mp hlast] at hwhole
    exact absurd (hwhole ▸ List.mem_singleton_self []) hempty
  | some last =>
    refine ⟨last, rfl, ?_⟩
    rintro rfl
    obtain ⟨front, hfront⟩ := List.getLast?_eq_some_iff.mp hlast
    rw [hfront, segments_append_separator] at hwhole
    exact absurd (hwhole ▸ List.mem_append_right _ (List.mem_singleton_self [])) hempty

/-- Of the normal paths only the root ends with a separator. -/
theorem withSeparator_ofNames {absolute : Bool} {names : List FileName} (hne : names ≠ [])
    (h : ∀ name ∈ names, Proper name) :
    withSeparator separator (ofNames absolute names).bytes =
      (ofNames absolute names).bytes ++ [separator] := by
  obtain ⟨last, hlast, hseparator⟩ := getLast?_joinSegments hne h
  have hend : (ofNames absolute names).bytes.getLast? = some last := by
    rw [ofNames, List.getLast?_append, hlast, Option.some_or]
  unfold withSeparator
  rw [hend]
  exact if_neg hseparator

/-- Proper names seen from a normal path go on with its names. -/
theorem join_ofNames {absolute : Bool} {names more : List FileName}
    (h : ∀ name ∈ names, Proper name) (hne : more ≠ []) (hmore : ∀ name ∈ more, Proper name) :
    (ofNames absolute names).join (ofNames false more) = ofNames absolute (names ++ more) := by
  rw [join, if_neg (by simp [isAbsolute_ofNames hmore])]
  cases names with
  | nil => cases absolute <;> rfl
  | cons first rest =>
    rw [withSeparator_ofNames (List.cons_ne_nil first rest) h]
    unfold ofNames
    rw [joinSegments_append (List.cons_ne_nil first rest) hne]
    simp

theorem Normal.join_ofNames {path : FilePath} (h : Normal path) {more : List FileName}
    (hne : more ≠ []) (hmore : ∀ name ∈ more, Proper name) :
    Normal (path.join (ofNames false more)) := by
  obtain ⟨names, hproper, rfl⟩ := h
  exact ⟨names ++ more, List.forall_mem_append.mpr ⟨hproper, hmore⟩,
    FilePath.join_ofNames hproper hne hmore⟩

theorem Normal.join_name {path : FilePath} (h : Normal path) {name : FileName}
    (hname : Proper name) : Normal (path.join ⟨name⟩) :=
  h.join_ofNames (List.cons_ne_nil name []) (by simpa using hname)

theorem Normal.join_manifest {directory : FilePath} (h : Normal directory) :
    Normal (directory.join manifestName) :=
  h.join_name proper_manifestName

theorem fileName?_eq_some_iff {path : FilePath} {name : FileName} :
    path.fileName? = some name ↔ ∃ front, path.components = front ++ [.name name] := by
  unfold fileName?
  constructor
  · intro h
    split at h
    next last hlast =>
      obtain rfl := Option.some.inj h
      exact List.getLast?_eq_some_iff.mp hlast
    next => cases h
  · rintro ⟨front, hfront⟩
    rw [hfront, List.getLast?_concat]

/-- A name after a path is the last name of the normal path. -/
theorem normalize_join_name (path : FilePath) {name : FileName} (hname : Proper name) :
    (path.join ⟨name⟩).normalize = path.normalize.join ⟨name⟩ := by
  have hone : ∀ other ∈ [name], Proper other := List.forall_mem_singleton.mpr hname
  have hrelative := hname.isAbsolute_eq_false
  have hbody : body ⟨name⟩ = [name].map .name := by
    rw [body, segments_of_notMem hname.whole, bodyComponents_of_proper hone]
  rw [normalize, normalize, resolveNames_components, resolveNames_components,
    isAbsolute_join_of_relative path hrelative, body_join path hrelative, hbody,
    resolveNames_append_names]
  exact (join_ofNames (proper_of_mem_resolveNames path) (List.cons_ne_nil name []) hone).symm

/-- It does not matter whether a name is put after a path before or after that is seen from a
base. -/
theorem absolutize_join_name (base path : FilePath) {name : FileName} (hname : Proper name) :
    base.absolutize (path.join ⟨name⟩) = (base.absolutize path).join ⟨name⟩ := by
  have hrelative := hname.isAbsolute_eq_false
  have hjoin : (path.join ⟨name⟩).isAbsolute = path.isAbsolute :=
    isAbsolute_join_of_relative path hrelative
  rw [absolutize, absolutize, ← normalize_join_name _ hname]
  cases hpath : path.isAbsolute with
  | true => rw [join_of_isAbsolute base hpath, join_of_isAbsolute base (hjoin.trans hpath)]
  | false =>
    have hplace := hjoin.trans hpath
    apply normalize_congr
    · rw [isAbsolute_join_of_relative base hplace, isAbsolute_join_of_relative _ hrelative,
        isAbsolute_join_of_relative base hpath]
    · rw [body_join base hplace, body_join path hrelative, body_join _ hrelative,
        body_join base hpath, List.append_assoc]

theorem absolutize_join_manifest (base directory : FilePath) :
    base.absolutize (directory.join manifestName) =
      (base.absolutize directory).join manifestName :=
  absolutize_join_name base directory proper_manifestName

/-- Whatever a directory is, its manifest seen from a base has the name of a
manifest. -/
theorem fileName?_absolutize_join_manifest (base directory : FilePath) :
    (base.absolutize (directory.join manifestName)).fileName? = some manifestName.bytes := by
  rw [absolutize_join_manifest, fileName?_eq_some_iff]
  exact ⟨_, components_join_manifest _⟩

end FilePath

namespace Manifest

/-- A manifest that is found is a file in the directory or in one above it. -/
theorem of_find? {fs : FileSystem} {start path : FilePath} (h : find? fs start = some path) :
    fs.isFile path = true ∧
      ∃ directory ∈ start.ancestors, path = directory.join manifestName := by
  obtain ⟨directory, hdirectory, rfl⟩ := List.mem_map.mp (List.mem_of_find?_eq_some h)
  exact ⟨List.find?_some h, directory, hdirectory, rfl⟩

end Manifest

end DocPlan
