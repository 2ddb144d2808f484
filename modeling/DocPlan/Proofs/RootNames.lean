import DocPlan.Proofs.WorkspaceMembers

/-!
# The name of a root

A root in normal form is written without a separator at its end, unless it is the top of all
directories. So behind the name of such a root, a pattern stands after one separator, and so it
does at the top: the tokens of both are those of the pattern (`compile_rooted_eq_ok_iff`), after
tokens that stand for the characters of a name alone.

Main result: `root_name_is_literal`, whatever characters the name of a root has.
-/

namespace DocPlan.Workspaces

open FilePath Utf8

/-- The directory that holds all others. -/
def top : FilePath := ofString "/"

/-- A pattern means below a root what it means below the top. -/
structure Transports (root : FilePath) (pattern : String) : Prop where
  /-- It is a pattern seen from both or from neither. -/
  compiles : (∃ tokens, Glob.compile (rooted root pattern) = .ok tokens) ↔
    ∃ tokens, Glob.compile (rooted top pattern) = .ok tokens
  /-- Seen from the root, it matches the name of the root and then what it matches from the top. -/
  matchesBehind : ∀ text, Glob.Matches (rooted root pattern) text ↔
    ∃ rest, text = root.chars ++ rest ∧ Glob.Matches (rooted top pattern) rest

variable {root : FilePath} {pattern : String}

theorem withSeparator_of_normal (hroot : Normal root) (htop : root ≠ top) :
    Text.withSeparator '/' root.chars = root.chars ++ ['/'] := by
  obtain ⟨names, hnames, rfl⟩ := hroot
  refine withSeparator_chars_ofNames ?_ hnames
  rintro rfl
  exact htop rfl

/-- Whether a text is a pattern does not depend on the root that it is seen from. -/
theorem exists_compile_rooted_iff (root : FilePath)
    (hrelative : (ofString pattern).isAbsolute = false) :
    (∃ tokens, Glob.compile (rooted root pattern) = .ok tokens) ↔
      ∃ own, Glob.compile pattern.toList = .ok own := by
  simp only [compile_rooted_eq_ok_iff root hrelative]
  constructor
  · rintro ⟨_, own, hown, -⟩
    exact ⟨own, hown⟩
  · rintro ⟨own, hown⟩
    exact ⟨_, own, hown, rfl⟩

theorem transports_of_relative (hroot : Normal root) (htop : root ≠ top)
    (hrelative : (ofString pattern).isAbsolute = false) : Transports root pattern where
  compiles :=
    (exists_compile_rooted_iff root hrelative).trans
      (exists_compile_rooted_iff top hrelative).symm
  matchesBehind := by
    intro text
    have htopText : Text.withSeparator '/' top.chars = ['/'] := rfl
    simp only [matches_rooted_iff _ hrelative, withSeparator_of_normal hroot htop, htopText]
    constructor
    · rintro ⟨rest, rfl, hrest⟩
      exact ⟨'/' :: rest, List.append_assoc _ _ _, rest, rfl, hrest⟩
    · rintro ⟨_, rfl, rest, rfl, hrest⟩
      exact ⟨rest, (List.append_assoc _ _ _).symm, hrest⟩

/-- What a relative pattern matches lies in the root that it is seen from, as this root is shown. -/
theorem components_prefix_of_matches (hroot : Normal root) (htop : root ≠ top)
    (hrelative : (ofString pattern).isAbsolute = false) {directory : FilePath}
    (h : Matches root pattern directory) : root.shown.components <+: directory.components := by
  obtain ⟨text, htext, hmatches⟩ := h
  obtain ⟨rest, rfl, -⟩ := (matches_rooted_iff root hrelative).mp hmatches
  have hbytes : encode (Text.withSeparator '/' root.chars ++ rest) =
      root.shown.bytes ++ separator :: encode rest := by
    rw [withSeparator_of_normal hroot htop, encode_append, encode_append, ← bytes_shown,
      List.append_assoc]
    rfl
  have hnonempty : root.shown.bytes ≠ [] := by
    obtain ⟨bytes, hshown⟩ := isAbsolute_iff.mp hroot.shown.isAbsolute
    rw [hshown]
    exact List.cons_ne_nil _ _
  rw [text?_eq_some_iff.mp htext, hbytes, components_append_separator hnonempty]
  exact List.prefix_append _ _

/-- The name of a root never acts as a pattern: below an absolute root in normal form a relative
pattern matches what it matches below the top, behind the name of the root. So the relative
patterns of a root exclude no directory that lies outside of it. A root that is no text is seen as
it is shown. -/
theorem root_name_is_literal (root : FilePath) (habsolute : root.isAbsolute = true)
    (hnormal : root.normalize = root) (htop : root ≠ top) :
    (∀ pattern, (ofString pattern).isAbsolute = false → Transports root pattern) ∧
      ∀ texts patterns, Patterns.ofValues root (texts.map .string) = .ok patterns →
        (∀ pattern ∈ excludes texts, (ofString pattern).isAbsolute = false) →
        ∀ directory : FilePath,
          (¬ root.shown.components <+: directory.components →
            excluded patterns directory = false) ∧
          (root.isText = true → ¬ root.components <+: directory.components →
            excluded patterns directory = false) := by
  have hroot : Normal root := hnormal ▸ Normal.of_normalize habsolute
  refine ⟨fun pattern hrelative => transports_of_relative hroot htop hrelative, ?_⟩
  intro texts patterns hpatterns hrelative directory
  have hshown : ¬ root.shown.components <+: directory.components →
      excluded patterns directory = false := by
    intro houtside
    obtain ⟨others, hothers, hreads⟩ := ofValues_eq_ok_iff.mp hpatterns
    obtain rfl : texts = others :=
      (List.map_inj_right fun _ _ => Json.string.inj).mp hothers
    apply Bool.eq_false_iff.mpr
    intro hexcluded
    obtain ⟨pattern, hpattern, hmatches⟩ := (excluded_eq_true_iff hreads).mp hexcluded
    exact houtside
      (components_prefix_of_matches hroot htop (hrelative pattern hpattern) hmatches)
  exact ⟨hshown, fun htext => shown_eq_iff.mpr htext ▸ hshown⟩

/-- A root whose name would be a pattern. -/
def bracketRoot : FilePath := ofString "/repo[!1]*?"

theorem root_name_is_literal_of_bracketRoot :
    bracketRoot.isAbsolute = true ∧ bracketRoot.normalize = bracketRoot ∧ bracketRoot ≠ top ∧
      Glob.Matches (rooted bracketRoot "packages/[ab]") "/repo[!1]*?/packages/a".toList ∧
      ∃ patterns, Patterns.ofValues bracketRoot [.string "!packages/*"] = .ok patterns ∧
        excluded patterns (ofString "/repo[!1]*?/packages/a") = true ∧
        excluded patterns (ofString "/repo2xy/packages/a") = false := by
  have habsolute : bracketRoot.isAbsolute = true := by decide
  have hnormal : bracketRoot.normalize = bracketRoot := by decide
  have htop : bracketRoot ≠ top := by decide
  obtain ⟨htransports, hexcludes⟩ :=
    root_name_is_literal bracketRoot habsolute hnormal htop
  have hmatches : Glob.Matches (rooted top "packages/[ab]") "/packages/a".toList := by
    decide +kernel
  refine ⟨habsolute, hnormal, htop, ?_, _, rfl, by decide +kernel, ?_⟩
  · exact ((htransports "packages/[ab]" (by decide)).matchesBehind _).mpr ⟨_, rfl, hmatches⟩
  · exact (hexcludes ["!packages/*"] _ rfl (by decide) _).2 (by decide) (by decide)

end DocPlan.Workspaces
