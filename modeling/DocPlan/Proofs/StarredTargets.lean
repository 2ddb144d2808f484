import DocPlan.Proofs.Candidates
import DocPlan.Proofs.ExportBounds
import DocPlan.Proofs.ExportDeclarations

/-!
# Targets with a star

Whether a candidate is a pattern is told by its whole path, which is a text of the manifest seen
from the directory of the manifest. Its characters are those of the text and of the directory's
normal path (`FilePath.mem_chars_absolutize`), so a star in either of them may make a pattern. A
target of an export loses no name on the way, and there each of them does
(`Exports.StaysInside.isPattern_iff`).

So an entry point for a text without a star is an existing file of the right kind if the
directory has no star in its name. In a directory with one, no target of an export is looked up
(`Entry.unstarred_target_unchecked`).

Main result: `Entry.unstarred_targets_checked`.
-/

namespace DocPlan

/-! ## The bytes of a path -/

namespace FilePath

open Text

variable {b : UInt8}

/-- A byte that separates nothing is in one of the segments. -/
theorem mem_bytes_iff (hb : b ≠ separator) {path : FilePath} :
    b ∈ path.bytes ↔ ∃ segment ∈ Text.segments separator path.bytes, b ∈ segment := by
  rw [← mem_joinSegments_iff hb, joinSegments_segments]

theorem mem_bytes_normalize_iff (hb : b ≠ separator) {path : FilePath} :
    b ∈ path.normalize.bytes ↔ ∃ name ∈ resolveNames path.body, b ∈ name := by
  rw [normalize, ofNames, List.mem_append, resolveNames_components, mem_joinSegments_iff hb]
  cases path.isAbsolute <;> simp [hb]

/-- The bytes of the names in a path are bytes of the path. -/
theorem mem_bytes_of_name {path : FilePath} {name : FileName} (h : .name name ∈ path.body)
    (hmem : b ∈ name) : b ∈ path.bytes := by
  have hproper : Proper name := proper_of_mem_bodyComponents h
  have hb : b ≠ separator := fun hslash => hproper.whole (hslash ▸ hmem)
  obtain ⟨segment, hsegment, heq⟩ := List.mem_map.mp h
  obtain ⟨hlisted, -⟩ := List.mem_filter.mp hsegment
  unfold ofSegment at heq
  split at heq
  next => cases heq
  next =>
    obtain rfl := Component.name.inj heq
    exact (mem_bytes_iff hb).mpr ⟨_, hlisted, hmem⟩

/-- What is in the bytes of a place comes from the base or from the path. -/
theorem mem_bytes_absolutize (hb : b ≠ separator) {base path : FilePath}
    (h : b ∈ (base.absolutize path).bytes) : b ∈ base.normalize.bytes ∨ b ∈ path.bytes := by
  obtain ⟨name, hname, hmem⟩ := (mem_bytes_normalize_iff hb).mp h
  cases hpath : path.isAbsolute with
  | true =>
    rw [join_of_isAbsolute base hpath] at hname
    exact Or.inr (mem_bytes_of_name (mem_resolveNames hname) hmem)
  | false =>
    rw [body_join base hpath] at hname
    rcases mem_resolveNames_append hname with hbase | hlater
    · exact Or.inl ((mem_bytes_normalize_iff hb).mpr ⟨name, hbase, hmem⟩)
    · exact Or.inr (mem_bytes_of_name hlater hmem)

/-- A relative path without `..` brings all its names to a place. -/
theorem mem_bytes_absolutize_iff (hb : b ≠ separator) (hdot : b ≠ dot) (base : FilePath)
    {path : FilePath} {names : List FileName} (hrelative : path.isAbsolute = false)
    (hnames : path.body = names.map .name) :
    b ∈ (base.absolutize path).bytes ↔ b ∈ base.normalize.bytes ∨ b ∈ path.bytes := by
  refine ⟨mem_bytes_absolutize hb, ?_⟩
  have hplace : resolveNames (base.join path).body = resolveNames base.body ++ names := by
    rw [body_join base hrelative, hnames, resolveNames_append_names]
  rw [absolutize, mem_bytes_normalize_iff hb, mem_bytes_normalize_iff hb, mem_bytes_iff hb, hplace]
  rintro (⟨name, hname, hmem⟩ | ⟨segment, hsegment, hmem⟩)
  · exact ⟨name, List.mem_append_left names hname, hmem⟩
  · have hcounts : isNoise segment = false := by
      have hne : segment ≠ [] := List.ne_nil_of_mem hmem
      have hother : segment ≠ [dot] := fun heq => hdot (List.mem_singleton.mp (heq ▸ hmem))
      simp [isNoise, hne, hother]
    have hbody : ofSegment segment ∈ path.body :=
      List.mem_map_of_mem (List.mem_filter.mpr ⟨hsegment, by simp [hcounts]⟩)
    rw [hnames] at hbody
    obtain ⟨name, hname, heq⟩ := List.mem_map.mp hbody
    unfold ofSegment at heq
    split at heq
    next => cases heq
    next =>
      obtain rfl := Component.name.inj heq
      exact ⟨name, List.mem_append_right _ hname, hmem⟩

end FilePath

namespace Entry

theorem isPattern_iff {path : FilePath} : isPattern path = true ↔ '*' ∈ path.chars :=
  List.contains_iff_mem

theorem isPattern_iff_mem_bytes {path : FilePath} :
    isPattern path = true ↔ '*'.toUInt8 ∈ path.bytes :=
  isPattern_iff.trans (FilePath.mem_chars_iff (by decide))

/-- Without a star in the text and in the directory there is no pattern. -/
theorem isPattern_absolutize_eq_false {directory path : FilePath} (hpath : '*' ∉ path.chars)
    (hdirectory : '*' ∉ directory.normalize.chars) :
    isPattern (directory.absolutize path) = false := by
  apply Bool.eq_false_iff.mpr
  intro hpattern
  have hstar := isPattern_iff_mem_bytes.mp hpattern
  rw [FilePath.mem_chars_iff (by decide)] at hpath hdirectory
  exact (FilePath.mem_bytes_absolutize (by decide) hstar).elim hdirectory hpath

end Entry

/-- A target that stays in its package makes a pattern by a star of its own or of the
directory. -/
theorem Exports.StaysInside.isPattern_iff {text : String} (h : StaysInside text)
    (directory : FilePath) :
    Entry.isPattern (directory.absolutize (FilePath.ofString text)) = true ↔
      '*' ∈ directory.normalize.chars ∨ '*' ∈ text.toList := by
  obtain ⟨names, hnames, -⟩ := h.body_eq
  rw [Entry.isPattern_iff_mem_bytes, ← FilePath.chars_ofString text,
    FilePath.mem_chars_iff (by decide), FilePath.mem_chars_iff (by decide)]
  exact FilePath.mem_bytes_absolutize_iff (by decide) (by decide) directory h.isAbsolute hnames

/-! ## What a manifest names -/

namespace Manifest

/-- The place of a text, seen from the directory of a manifest. -/
def place (manifest : Manifest) (text : String) : FilePath :=
  manifest.directory.absolutize (FilePath.ofString text)

/-- The files of the exports of a manifest. -/
def exportTable (manifest : Manifest) (conditions : Conditions) : ExportTable :=
  (Exports.resolve manifest.exports manifest.directory conditions).value

/-- A text is a target of a manifest: the last declaration of a subpath resolves to it. -/
def IsTarget (manifest : Manifest) (conditions : Conditions) (text : String) : Prop :=
  ∃ key item, Keyed.last? key (Exports.declarations manifest.exports) = some item ∧
    (Exports.resolveTarget conditions.names key item).value = some text

/-- A manifest names a file by a text: by a target of its exports or, without any and for the
condition `types`, by the first of its fields for types. -/
def Names (manifest : Manifest) (conditions : Conditions) (condition text : String) : Prop :=
  manifest.IsTarget conditions text ∨
    (∀ other, ¬ manifest.IsTarget conditions other) ∧ condition = typesCondition ∧
      ∃ field, Entry.typesField? manifest = some (field, text)

variable {manifest : Manifest} {conditions : Conditions} {condition text : String}
  {path : FilePath}

theorem isNormalized_place (manifest : Manifest) (text : String) :
    (manifest.place text).IsNormalized := ⟨_, rfl⟩

theorem IsTarget.staysInside (h : manifest.IsTarget conditions text) :
    Exports.StaysInside text := by
  obtain ⟨key, item, -, htext⟩ := h
  exact Exports.staysInside_of_resolveTarget htext

/-- The files of the exports are the places of the targets. -/
theorem exists_mem_exportTable_iff :
    (∃ key, (key, path) ∈ (manifest.exportTable conditions).entries) ↔
      ∃ text, manifest.IsTarget conditions text ∧ manifest.place text = path := by
  rw [exportTable, Exports.entries_resolve]
  simp only [List.mem_filterMap]
  constructor
  · rintro ⟨_, key, -, hentry⟩
    obtain ⟨found, hfound, heq⟩ := Option.map_eq_some_iff.mp hentry
    obtain ⟨-, rfl⟩ := Prod.mk.inj heq
    obtain ⟨item, hlast, hitem⟩ := Option.bind_eq_some_iff.mp hfound
    obtain ⟨text, htext, hplace⟩ := Option.map_eq_some_iff.mp hitem
    exact ⟨text, ⟨key, item, hlast, htext⟩, hplace⟩
  · rintro ⟨text, ⟨key, item, hlast, htext⟩, rfl⟩
    have hfile : Exports.fileOf? manifest.exports manifest.directory conditions key =
        some (manifest.place text) := by
      rw [Exports.fileOf?, hlast, Option.bind_some, htext]
      rfl
    exact ⟨key, key, Exports.mem_declaredKeys_of_fileOf? hfile, by rw [hfile]; rfl⟩

theorem entries_exportTable_eq_nil_iff :
    (manifest.exportTable conditions).entries = [] ↔
      ∀ text, ¬ manifest.IsTarget conditions text := by
  constructor
  · intro hnil text htarget
    obtain ⟨key, hmem⟩ := exists_mem_exportTable_iff.mpr ⟨text, htarget, rfl⟩
    rw [hnil] at hmem
    cases hmem
  · intro hnone
    apply List.eq_nil_iff_forall_not_mem.mpr
    rintro ⟨key, path⟩ hmem
    obtain ⟨text, htarget, -⟩ := exists_mem_exportTable_iff.mp ⟨key, hmem⟩
    exact hnone text htarget

/-- The candidates of a package are the places of the texts in its manifest. -/
theorem exists_candidate_iff :
    (∃ candidate ∈ (Entry.candidates manifest (manifest.exportTable conditions) condition).value,
        candidate.path = path) ↔
      ∃ text, manifest.Names conditions condition text ∧ manifest.place text = path := by
  rw [Entry.value_candidates, Entry.value_fallbackCandidates]
  by_cases hnil : (manifest.exportTable conditions).entries = []
  · have hempty : (manifest.exportTable conditions).isEmpty = true := by
      rw [ExportTable.isEmpty, hnil]
      rfl
    have hnone := entries_exportTable_eq_nil_iff.mp hnil
    rw [if_pos hempty]
    constructor
    · rintro ⟨candidate, hcandidate, rfl⟩
      split at hcandidate
      next htypes =>
        obtain ⟨entry, hfield, rfl⟩ :=
          Option.map_eq_some_iff.mp (Option.mem_toList.mp hcandidate)
        exact ⟨entry.2, .inr ⟨hnone, htypes, entry.1, hfield⟩, rfl⟩
      next => cases hcandidate
    · rintro ⟨text, htarget | ⟨-, htypes, field, hfield⟩, rfl⟩
      · exact absurd htarget (hnone text)
      · rw [if_pos htypes, hfield]
        exact ⟨_, List.mem_singleton_self _, rfl⟩
  · have hempty : ¬ (manifest.exportTable conditions).isEmpty = true := by
      rw [ExportTable.isEmpty, List.isEmpty_iff]
      exact hnil
    rw [if_neg hempty]
    constructor
    · rintro ⟨candidate, hcandidate, rfl⟩
      obtain ⟨⟨key, file⟩, hentry, rfl⟩ := List.mem_map.mp hcandidate
      obtain ⟨text, htarget, hplace⟩ := exists_mem_exportTable_iff.mp ⟨key, hentry⟩
      exact ⟨text, .inl htarget, hplace⟩
    · rintro ⟨text, hnames, hplace⟩
      have htarget : manifest.IsTarget conditions text :=
        hnames.resolve_right fun hfield => hnil (entries_exportTable_eq_nil_iff.mpr hfield.1)
      obtain ⟨key, hentry⟩ := exists_mem_exportTable_iff.mpr ⟨text, htarget, hplace⟩
      exact ⟨_, List.mem_map_of_mem hentry, rfl⟩

end Manifest

namespace Entry

variable {fs : FileSystem} {manifest : Manifest} {conditions : Conditions} {demand : Demand}
  {set : EntrySet} {text : String}

/-! ## What is checked -/

/-- The entry points of a package are the places of the texts in its manifest that qualify. -/
theorem contains_collect_iff {path : FilePath}
    (h : (collect fs manifest (manifest.exportTable conditions) demand).outcome = .ok set) :
    set.contains path = true ↔
      ∃ text, manifest.Names conditions demand.condition text ∧
        Qualifies fs demand (manifest.place text) ∧ (manifest.place text).same path = true := by
  obtain ⟨-, rfl⟩ := collect_eq_ok_iff.mp h
  rw [contains_admitted]
  constructor
  · rintro ⟨candidate, hcandidate, hqualifies, hsame⟩
    obtain ⟨text, hnames, hplace⟩ :=
      Manifest.exists_candidate_iff.mp ⟨candidate, hcandidate, rfl⟩
    rw [← hplace] at hqualifies hsame
    exact ⟨text, hnames, hqualifies, hsame⟩
  · rintro ⟨text, hnames, hqualifies, hsame⟩
    obtain ⟨candidate, hcandidate, hplace⟩ :=
      Manifest.exists_candidate_iff.mpr ⟨text, hnames, rfl⟩
    rw [← hplace] at hqualifies hsame
    exact ⟨candidate, hcandidate, hqualifies, hsame⟩

/-- An entry point qualifies in every spelling of its text. -/
theorem qualifies_of_contains
    (h : (collect fs manifest (manifest.exportTable conditions) demand).outcome = .ok set)
    (hcontains : set.contains (manifest.place text) = true) :
    Qualifies fs demand (manifest.place text) := by
  obtain ⟨other, -, hqualifies, hsame⟩ := (contains_collect_iff h).mp hcontains
  have hplace : manifest.place other = manifest.place text :=
    (Manifest.isNormalized_place _ _).eq_of_same (Manifest.isNormalized_place _ _) hsame
  exact hplace ▸ hqualifies

/-- Every entry point is the place of a text in the manifest. One for a text without a star is an
existing file with the ending of a source or declaration file, if there is no star in the normal
path of the directory either. With a star in one of them no target of an export is looked up. -/
theorem unstarred_targets_checked (fs : FileSystem) (manifest : Manifest)
    (conditions : Conditions) (demand : Demand) (set : EntrySet)
    (h : (collect fs manifest (manifest.exportTable conditions) demand).outcome = .ok set) :
    (∀ path ∈ set.paths, ∃ text,
      manifest.Names conditions demand.condition text ∧ manifest.place text = path) ∧
    (∀ text : String, '*' ∉ text.toList → '*' ∉ manifest.directory.normalize.chars →
      set.contains (manifest.place text) = true →
        fs.isFile (manifest.place text) = true ∧ isAllowed (manifest.place text) = true) ∧
    ∀ text, manifest.IsTarget conditions text →
      '*' ∈ manifest.directory.normalize.chars ∨ '*' ∈ text.toList →
        (set.contains (manifest.place text) = true ↔
          (demand.condition = typesCondition → demand.policy = .exclude →
            yieldsDeclarations (manifest.place text) = true)) := by
  refine ⟨?_, ?_, ?_⟩
  · intro path hpath
    obtain ⟨-, rfl⟩ := collect_eq_ok_iff.mp h
    exact Manifest.exists_candidate_iff.mp (of_mem_admitted hpath).1
  · intro text htext hdirectory hcontains
    have hpattern : ¬ isPattern (manifest.place text) = true := by
      have hstar : '*' ∉ (FilePath.ofString text).chars := by rwa [FilePath.chars_ofString]
      rw [Manifest.place, isPattern_absolutize_eq_false hstar hdirectory]
      exact Bool.false_ne_true
    exact (qualifies_of_contains h hcontains).admissible.resolve_left hpattern
  · intro text htarget hstar
    have hpattern : isPattern (manifest.place text) = true :=
      (htarget.staysInside.isPattern_iff manifest.directory).mpr hstar
    constructor
    · exact fun hcontains => (qualifies_of_contains h hcontains).declared
    · intro hdeclared
      exact (contains_collect_iff h).mpr
        ⟨text, .inl htarget, ⟨.inl hpattern, hdeclared⟩, FilePath.same_self _⟩

/-- A package with the file `a.d.ts` in a directory with some name. It exports one target. -/
def packageIn (name target : String) : FileSystem where
  root := .directory [(name.toList, .directory [
    ("package.json".toList,
      .file (Utf8.encode ("\x7b\"exports\":\"".toList ++ target.toList ++ "\"\x7d".toList))),
    ("a.d.ts".toList, .file [])])]
  workingDirectory := []

/-- What is loaded and collected for such a package. -/
def CollectedIn (name target : String) (manifest : Manifest) (set : EntrySet) : Prop :=
  (Manifest.load (packageIn name target)
    (FilePath.ofNames true [name.toList, "package.json".toList])).outcome = .ok manifest ∧
  (collect (packageIn name target) manifest (manifest.exportTable .standard)
    ⟨typesCondition, .warnAndInclude⟩).outcome = .ok set

/-- What is seen of the manifest of such a package and of its entry points. -/
def collectedIn {α : Type} (name target : String) (view : Manifest → EntrySet → α) : Option α :=
  (Manifest.load (packageIn name target)
      (FilePath.ofNames true [name.toList, "package.json".toList])).outcome.toOption.bind
    fun manifest => (collect (packageIn name target) manifest (manifest.exportTable .standard)
      ⟨typesCondition, .warnAndInclude⟩).outcome.toOption.map (view manifest)

theorem exists_of_collectedIn {α : Type} {name target : String} {view : Manifest → EntrySet → α}
    {seen : α} (h : collectedIn name target view = some seen) :
    ∃ manifest set, CollectedIn name target manifest set ∧ view manifest set = seen := by
  obtain ⟨manifest, hload, h⟩ := Option.bind_eq_some_iff.mp h
  obtain ⟨set, hset, hseen⟩ := Option.map_eq_some_iff.mp h
  exact ⟨manifest, set,
    ⟨Error.toOption_eq_some_iff.mp hload, Error.toOption_eq_some_iff.mp hset⟩, hseen⟩

theorem unstarred_targets_checked_of_package :
    ∃ manifest set, CollectedIn "p" "./a.d.ts" manifest set ∧
      set.contains (manifest.place "./a.d.ts") = true ∧
      (packageIn "p" "./a.d.ts").isFile (manifest.place "./a.d.ts") = true ∧
      isAllowed (manifest.place "./a.d.ts") = true := by
  have hseen : collectedIn "p" "./a.d.ts" (fun manifest set => (manifest.directory.normalize.chars,
      set.contains (manifest.place "./a.d.ts"))) = some ("/p".toList, true) := by
    decide +kernel
  obtain ⟨manifest, set, hset, hfields⟩ := exists_of_collectedIn hseen
  obtain ⟨hdirectory, hcontains⟩ := Prod.mk.inj hfields
  obtain ⟨-, hchecked, -⟩ := unstarred_targets_checked _ _ _ _ set hset.2
  obtain ⟨hfile, hallowed⟩ :=
    hchecked "./a.d.ts" (by decide) (by rw [hdirectory]; decide) hcontains
  exact ⟨manifest, set, hset, hcontains, hfile, hallowed⟩

/-- In a directory with a star in its name, a target without one that is no file and has no
ending of a source or declaration file becomes an entry point. -/
theorem unstarred_target_unchecked :
    ∃ manifest set, CollectedIn "a*b" "./notes.txt" manifest set ∧
      (manifest.exportTable .standard).entries = [(".", manifest.place "./notes.txt")] ∧
      '*' ∉ "./notes.txt".toList ∧ set.contains (manifest.place "./notes.txt") = true ∧
      (packageIn "a*b" "./notes.txt").isFile (manifest.place "./notes.txt") = false ∧
      isAllowed (manifest.place "./notes.txt") = false := by
  have hseen : collectedIn "a*b" "./notes.txt" (fun manifest set =>
      (decide ((manifest.exportTable .standard).entries = [(".", manifest.place "./notes.txt")]),
        set.contains (manifest.place "./notes.txt"),
        (packageIn "a*b" "./notes.txt").isFile (manifest.place "./notes.txt"),
        isAllowed (manifest.place "./notes.txt"))) = some (true, true, false, false) := by
    decide +kernel
  obtain ⟨manifest, set, hset, hfields⟩ := exists_of_collectedIn hseen
  simp only [Prod.mk.injEq, decide_eq_true_eq] at hfields
  obtain ⟨hentries, hcontains, hfile, hallowed⟩ := hfields
  exact ⟨manifest, set, hset, hentries, by decide, hcontains, hfile, hallowed⟩

end Entry

end DocPlan
