import DocPlan.Proofs.PlainListings
import DocPlan.Proofs.WorkspaceMembers

/-!
# What negated patterns keep out

A negated pattern is compared with the text by which a directory was listed. So it keeps out what
it matches below the root as both are spelled, and nothing more: `./packages/x` and `packages/x/`
are other texts than `packages/x`, and a package that one of them names stays a member
(`spellings_are_not_excluded`).

Where the listing patterns are plain, the text of a directory is its normal path. Then what is
matched below the root is the path of the member's directory itself.

Main result: `unmatched_of_members`.
-/

namespace DocPlan.Workspaces

open FilePath Text Utf8

/-- No negated pattern matches a text below the root. -/
def Unmatched (texts : List String) (text : List Char) : Prop :=
  ∀ pattern ∈ excludes texts, (ofString pattern).isAbsolute = false →
    ¬ Glob.Matches pattern.toList text

/-- What negated patterns ensure of a member. -/
structure Cleared (fs : FileSystem) (root : Manifest) (texts : List String)
    (member : FilePath) : Prop where
  /-- The text by which its directory was listed is not matched. -/
  spelled : ∃ directory : FilePath, member = directory.join manifestName ∧
    (∃ pattern ∈ includes texts, Lists fs root.directory pattern directory) ∧
    ∀ text, directory.text? = some (withSeparator '/' root.directory.chars ++ text) →
      Unmatched texts text
  /-- The names that lead to it are not matched, if the root is a text in normal form and all
  patterns that list directories are plain. -/
  plain : fs.root.WellNamed → Normal root.directory → root.directory.isText = true →
    (∀ pattern ∈ includes texts, Glob.PlainPattern pattern.toList) →
    ∀ names : List (List Char), names ≠ [] → (∀ name ∈ names, Proper name) →
      member.same ((root.directory.join (ofNames false (names.map encode))).join manifestName) =
        true →
      Unmatched texts (joinSegments '/' names)

variable {fs : FileSystem} {texts : List String}

/-- A directory that hosts a member has no matched text below the root. -/
theorem Hosts.unmatched {root directory : FilePath} (h : Hosts fs root texts directory)
    {text : List Char} (htext : directory.text? = some (withSeparator '/' root.chars ++ text)) :
    Unmatched texts text := by
  intro pattern hpattern hrelative hmatches
  exact h.kept pattern hpattern
    ⟨_, htext, (matches_rooted_iff root hrelative).mpr ⟨text, rfl, hmatches⟩⟩

/-- The text of a path that names lead to from a directory. -/
theorem text?_join_ofNames {directory : FilePath} (htext : directory.isText = true)
    {names : List (List Char)} (hnames : ∀ name ∈ names, Proper name) :
    (directory.join (ofNames false (names.map encode))).text? =
      some (withSeparator '/' directory.chars ++ joinSegments '/' names) := by
  have hproper : ∀ name ∈ names.map encode, Proper name := by simpa using hnames
  have hbytes : directory.bytes = encode directory.chars := by
    rw [← bytes_shown, shown_eq_iff.mpr htext]
  rw [text?_eq_some_iff, encode_append, FilePath.keepsSeparators_encode.map_joinSegments,
    ← FilePath.keepsSeparators_encode.withSeparator_map, ← hbytes, join,
    if_neg (by simp [isAbsolute_ofNames hproper])]
  rfl

/-- Members are not matched by negated patterns, as far as these are spelled like the paths that
were listed. -/
theorem unmatched_of_members (fs : FileSystem) (root : Manifest) (texts : List String)
    (found : List FilePath) (hdeclares : Declares root texts)
    (h : (members fs root).outcome = .ok (some found)) :
    ∀ member ∈ found, Cleared fs root texts member := by
  obtain ⟨kept, hkeeps, rfl, -⟩ := exists_keeps_of_members hdeclares h
  intro member hmember
  obtain ⟨pattern, hpattern, directory, hlists, hhosts, rfl⟩ := hkeeps.exists_host member hmember
  refine ⟨⟨directory, rfl, ⟨pattern, hpattern, hlists⟩, fun _ => hhosts.unmatched⟩, ?_⟩
  intro hfs hroot htext hplain names hne hnames hsame
  have hproper : ∀ name ∈ names.map encode, Proper name := by simpa using hnames
  obtain ⟨listing, hlisting, hdirectory⟩ := hlists
  have hnormal : Normal directory :=
    normal_of_directories_rooted hfs hroot (hplain pattern hpattern) hlisting directory hdirectory
  have heq : directory = root.directory.join (ofNames false (names.map encode)) :=
    hnormal.eq_of_same (hroot.join_ofNames (by simpa using hne) hproper)
      (same_join_manifest.mp hsame)
  exact hhosts.unmatched (heq ▸ text?_join_ofNames htext hnames)

theorem wellNamed_exampleFiles : exampleFiles.root.WellNamed := by
  have hfile : ∀ content, (Node.file content).WellNamed := Node.WellNamed.file
  simp only [exampleFiles, Node.wellNamed_directory_iff, List.forall_mem_cons, List.not_mem_nil,
    false_imp_iff, implies_true, and_true, hfile]
  decide

theorem unmatched_of_members_of_example :
    ∃ found texts, (members exampleFiles (exampleRoot texts)).outcome = .ok (some found) ∧
      found.map FilePath.toString = ["/tools/c/package.json", "/packages/a/package.json"] ∧
      excludes texts = ["packages/b"] ∧
      exampleFiles.root.WellNamed ∧ Normal (exampleRoot texts).directory ∧
      (exampleRoot texts).directory.isText = true ∧
      (∀ pattern ∈ includes texts, Glob.PlainPattern pattern.toList) ∧
      ∀ member ∈ found, Cleared exampleFiles (exampleRoot texts) texts member := by
  have hpaths : (members exampleFiles (exampleRoot
      ["!packages/b", "tools/*", "packages/b", "packages/a"])).outcome.toOption.map
        (·.map fun found => found.map FilePath.toString) =
      some (some ["/tools/c/package.json", "/packages/a/package.json"]) := by decide +kernel
  obtain ⟨found?, hfound?, hsome⟩ := Option.map_eq_some_iff.mp hpaths
  obtain ⟨found, rfl, hnames⟩ := Option.map_eq_some_iff.mp hsome
  have hmembers := Error.toOption_eq_some_iff.mp hfound?
  exact ⟨found, _, hmembers, hnames, by decide, wellNamed_exampleFiles, Glob.normal_root,
    by decide, by decide, unmatched_of_members exampleFiles _ _ found ⟨_, rfl, rfl⟩ hmembers⟩

/-- A text without its components `.` and the separators at its end. -/
def plainSpelling (text : List Char) : List Char :=
  let kept := (Text.segments '/' text).filter (· ≠ ['.'])
  joinSegments '/' (kept.reverse.dropWhile List.isEmpty).reverse

/-- One package in a directory. -/
def onePackage : FileSystem where
  root := .directory [("packages".toList, .directory [
    ("x".toList, .directory [("package.json".toList, .file [])])])]
  workingDirectory := []

/-- A package stays a member when its exclusion is spelled in another way than its listing. -/
theorem spellings_are_not_excluded :
    (∀ spelled ∈ [(["./packages/*", "!packages/x"], "/./packages/x/package.json"),
        (["packages/*", "!./packages/x"], "/packages/x/package.json"),
        (["packages/*", "!packages/x/"], "/packages/x/package.json")],
      (members onePackage (exampleRoot spelled.1)).outcome.toOption =
        some (some [ofString spelled.2]) ∧
      (ofString spelled.2).same (ofString "/packages/x/package.json") = true ∧
      ∃ pattern ∈ excludes spelled.1,
        Glob.Matches (plainSpelling pattern.toList) (plainSpelling "packages/x".toList)) ∧
      (members onePackage (exampleRoot ["packages/*", "!packages/x"])).outcome.toOption =
        some (some []) := by
  decide +kernel

end DocPlan.Workspaces
