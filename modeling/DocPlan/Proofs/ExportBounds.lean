import DocPlan.Proofs.EntryPoints
import DocPlan.Proofs.ExportRoutes
import DocPlan.Proofs.ShownPaths

/-!
# Exports stay in their package

A target is checked as a text: it is cut at both separators, and none of its segments may be
`..` or `node_modules`. What the target means is decided later, by the components of its
path, and a path is cut at `/` only. The two readings agree where it matters. A name between
two `/` may be several segments of the check, but `..` and `node_modules` hold no backslash,
so where one of them is a component it is also a segment (`mem_splitOnP_of_mem_segments`).

A target that passes the check therefore has a path of ordinary names, and such a path, seen
from a directory, only goes on from the normal path of the directory
(`FilePath.components_absolutize_of_names`). Repeated separators and `.` leave no component,
and a target never begins with a separator, so no spelling replaces the directory.

Main result: `resolve_below_directory`.
-/

namespace DocPlan

/-- A relative path without `..` goes on from the base that it is seen from. -/
theorem FilePath.components_absolutize_of_names (base : FilePath) {path : FilePath}
    {names : List FileName} (hrelative : path.isAbsolute = false)
    (hnames : path.body = names.map .name) :
    (base.absolutize path).components = base.normalize.components ++ names.map .name := by
  rw [absolutize, components_normalize_eq, components_normalize_eq,
    isAbsolute_join_of_relative base hrelative, body_join base hrelative, hnames,
    resolveNames_append_names, List.map_append, List.append_assoc]

namespace Exports

open FilePath

/-! ## The two ways to cut a target -/

/-- Cutting at both separators cuts at every `/`: segment by segment, what holds no
backslash is left whole. The first segments are told apart, because a character in front
goes to the first segment. -/
private theorem targetSegments_refines (chars : List Char) :
    ∃ first rest first' rest', Text.segments '/' chars = first :: rest ∧
      targetSegments chars = first' :: rest' ∧ ('\\' ∉ first → first' = first) ∧
      ∀ segment ∈ rest, '\\' ∉ segment → segment ∈ rest' := by
  induction chars with
  | nil => exact ⟨[], [], [], [], rfl, rfl, fun _ => rfl, fun _ hmem _ => hmem⟩
  | cons c chars ih =>
    obtain ⟨first, rest, first', rest', hsegments, htarget, hfirst, hrest⟩ := ih
    have hall : ∀ segment ∈ first :: rest, '\\' ∉ segment → segment ∈ first' :: rest' := by
      intro segment hmem hwhole
      rcases List.mem_cons.mp hmem with rfl | hlater
      · rw [hfirst hwhole]
        exact List.mem_cons_self
      · exact List.mem_cons_of_mem _ (hrest segment hlater hwhole)
    by_cases hslash : c = '/'
    · subst hslash
      refine ⟨[], first :: rest, [], first' :: rest', ?_, ?_, fun _ => rfl, hall⟩
      · rw [Text.segments_separator, hsegments]
      · rw [targetSegments, if_pos (Or.inl rfl), htarget]
    · have hsegments' : Text.segments '/' (c :: chars) = (c :: first) :: rest := by
        rw [Text.segments, if_neg hslash, hsegments, Text.extendFirst]
      by_cases hback : c = '\\'
      · subst hback
        refine ⟨_, rest, [], first' :: rest', hsegments', ?_, ?_, ?_⟩
        · rw [targetSegments, if_pos (Or.inr rfl), htarget]
        · intro hwhole
          exact absurd List.mem_cons_self hwhole
        · intro segment hmem hwhole
          exact List.mem_cons_of_mem _ (hrest segment hmem hwhole)
      · refine ⟨_, rest, c :: first', rest', hsegments', ?_, ?_, hrest⟩
        · rw [targetSegments, if_neg (by simp [hslash, hback]), htarget, Text.extendFirst]
        · intro hwhole
          rw [hfirst fun hmem => hwhole (List.mem_cons_of_mem _ hmem)]

/-- A name between two `/` that holds no backslash is a segment of the check. -/
theorem mem_splitOnP_of_mem_segments {chars segment : List Char}
    (h : segment ∈ Text.segments '/' chars) (hwhole : '\\' ∉ segment) :
    segment ∈ chars.splitOnP isSeparator := by
  obtain ⟨first, rest, first', rest', hsegments, htarget, hfirst, hrest⟩ :=
    targetSegments_refines chars
  rw [← targetSegments_eq_splitOnP, htarget]
  rw [hsegments] at h
  rcases List.mem_cons.mp h with rfl | hlater
  · rw [hfirst hwhole]
    exact List.mem_cons_self
  · exact List.mem_cons_of_mem _ (hrest segment hlater hwhole)

namespace StaysInside

variable {text : String}

theorem isAbsolute (h : StaysInside text) : (ofString text).isAbsolute = false := by
  obtain ⟨⟨rest, htext⟩, -⟩ := h
  rw [isAbsolute_ofString, htext]
  rfl

/-- The path of a target that stays in the package consists of ordinary names. -/
theorem body_eq (h : StaysInside text) :
    ∃ names : List FileName, (ofString text).body = names.map .name ∧
      ∀ name ∈ names, Proper name ∧ name ≠ "node_modules".toList := by
  have hcut : Text.segments separator (ofString text).bytes =
      (Text.segments '/' text.toList).map Utf8.encode := keepsSeparators_encode.segments_map _
  have hinside : ∀ own ∈ Text.segments '/' text.toList, '\\' ∉ own →
      own ≠ "..".toList ∧ own ≠ "node_modules".toList :=
    fun own hmem hwhole => h.2 own (mem_splitOnP_of_mem_segments hmem hwhole)
  have hname : ∀ segment ∈ (Text.segments separator (ofString text).bytes).filter (!isNoise ·),
      Proper segment ∧ segment ≠ "node_modules".toList := by
    intro segment hsegment
    have hmem := (List.mem_filter.mp hsegment).1
    have hcounts : isNoise segment = false := by simpa using (List.mem_filter.mp hsegment).2
    obtain ⟨own, hown, rfl⟩ := List.mem_map.mp (hcut ▸ hmem)
    have hstays : Utf8.encode own ≠ [dot, dot] := by
      intro heq
      obtain rfl : own = "..".toList := Utf8.encode_injective heq
      exact (hinside _ hown (by decide)).1 rfl
    have hpackage : Utf8.encode own ≠ "node_modules".toList := by
      intro heq
      obtain rfl : own = "node_modules".toList := Utf8.encode_injective heq
      exact (hinside _ hown (by decide)).2 rfl
    exact ⟨proper_of_mem_segments hmem hcounts hstays, hpackage⟩
  refine ⟨(Text.segments separator (ofString text).bytes).filter (!isNoise ·), ?_, hname⟩
  exact List.map_congr_left fun segment hsegment => (hname segment hsegment).1.ofSegment_eq

end StaysInside

/-! ## Tables of exports -/

/-- A route ends only at a target that stays in the package. -/
theorem Route.staysInside {names : List String} {exports : Exports} {steps : List Nat}
    {leaf : String} (h : Route names exports steps leaf) : StaysInside leaf := by
  induction h with
  | target hinside => exact hinside
  | fallback _ _ ih => exact ih
  | condition _ _ _ ih => exact ih

theorem staysInside_of_resolveTarget {names : List String} {key : String} {exports : Exports}
    {leaf : String} (h : (resolveTarget names key exports).value = some leaf) :
    StaysInside leaf := by
  have hdecided := resolveTarget_decided names key exports
  rw [h] at hdecided
  obtain ⟨steps, hroute, -⟩ := hdecided
  exact hroute.staysInside

/-- Every file of a package's exports is below the directory of the package: the
components of its path are those of the directory's normal path, followed by ordinary names
only, and `node_modules` is not among these. -/
theorem resolve_below_directory (exports : Option Exports) (directory : FilePath)
    (conditions : Conditions) :
    ∀ path ∈ (resolve exports directory conditions).value.paths,
      ∃ names : List FileName,
        path.components = directory.normalize.components ++ names.map .name ∧
        ∀ name ∈ names, name ≠ [] ∧ separator ∉ name ∧ name ≠ ".".toList ∧ name ≠ "..".toList ∧
          name ≠ "node_modules".toList := by
  intro path hpath
  obtain ⟨entry, hentry, rfl⟩ := List.mem_map.mp hpath
  obtain ⟨key, item, text, htext, hplace⟩ := of_mem_resolve hentry
  have hinside : StaysInside text := staysInside_of_resolveTarget htext
  obtain ⟨names, hnames, hordinary⟩ := hinside.body_eq
  refine ⟨names, ?_, ?_⟩
  · rw [hplace]
    exact components_absolutize_of_names directory hinside.isAbsolute hnames
  · intro name hname
    obtain ⟨hproper, hpackage⟩ := hordinary name hname
    have hcounts : ¬ name = [] ∧ ¬ name = [dot] := by simpa [isNoise] using hproper.counts
    exact ⟨hcounts.1, hproper.whole, hcounts.2, hproper.stays, hpackage⟩

/-- An export with a target in odd spelling. -/
def exampleExports : Exports := .target ".//etc/./a\\..b/"

/-- The target is below a directory that is itself not written as its normal path. -/
theorem below_directory_of_odd_spelling :
    ofString "lib/etc/a\\..b" ∈
        (resolve (some exampleExports) (ofString "pkg/../lib") Conditions.standard).value.paths ∧
      ∃ names : List FileName, (ofString "lib/etc/a\\..b").components =
          (ofString "pkg/../lib").normalize.components ++ names.map .name ∧
        ∀ name ∈ names, name ≠ [] ∧ separator ∉ name ∧ name ≠ ".".toList ∧ name ≠ "..".toList ∧
          name ≠ "node_modules".toList := by
  have hpath : ofString "lib/etc/a\\..b" ∈ (resolve (some exampleExports)
      (ofString "pkg/../lib") Conditions.standard).value.paths := by decide
  exact ⟨hpath, resolve_below_directory _ _ _ _ hpath⟩

end Exports

end DocPlan
