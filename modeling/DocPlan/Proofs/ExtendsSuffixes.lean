import DocPlan.Proofs.ExtendsChains
import DocPlan.Proofs.FileContents
import DocPlan.Proofs.ShownPaths

/-!
# Bases that leave out their suffix

A base may be named without `.json`. The suffix is put after a file name that has no extension,
and a name with a dot after its first character has one: `./config` stands for `./config.json`,
but `./tsconfig.base` stands for itself.

So the two spellings of a base lead to one file if and only if its last name has no such dot
(`NamedBy.basePath_suffix_iff`). Then any number of files may spell it either way, and the
options of every file stay the same. Otherwise a file that leaves the suffix out has no options,
unless there is a file without the suffix (`suffix_may_be_left_out_iff`).
-/

namespace DocPlan

namespace FilePath

open Text

/-! ## The last name of a path -/

/-- Bytes after the last name are bytes after the path. -/
theorem ofNames_suffix (absolute : Bool) (names : List FileName) (name suffix : FileName) :
    ofNames absolute (names ++ [name ++ suffix]) =
      ⟨(ofNames absolute (names ++ [name])).bytes ++ suffix⟩ := by
  have hjoin : joinSegments separator (names ++ [name ++ suffix]) =
      joinSegments separator (names ++ [name]) ++ suffix := by
    by_cases hne : names = []
    · subst hne
      rfl
    · rw [joinSegments_append hne (List.cons_ne_nil _ _),
        joinSegments_append hne (List.cons_ne_nil _ _), List.append_assoc]
      rfl
  unfold ofNames
  rw [hjoin, List.append_assoc]

/-- A relative path that ends in a proper name leads to this name in some directory. -/
theorem exists_absolutize_eq (directory : FilePath) {front : FileName}
    (hrelative : isRooted separator (front ++ [separator]) = false) :
    ∃ names, (∀ name ∈ names, Proper name) ∧ ∀ name, Proper name →
      directory.absolutize ⟨front ++ separator :: name⟩ =
        ofNames directory.isAbsolute (names ++ [name]) := by
  refine ⟨resolveNames (directory.body ++ bodyComponents (Text.segments separator front)), ?_, ?_⟩
  · intro name hname
    rcases List.mem_append.mp (mem_resolveNames hname) with hmem | hmem
    · exact proper_of_mem_bodyComponents hmem
    · exact proper_of_mem_bodyComponents hmem
  · intro name hproper
    have hpath : isAbsolute ⟨front ++ separator :: name⟩ = false := by
      have hbytes : front ++ separator :: name = (front ++ [separator]) ++ name := by simp
      rw [isAbsolute, hbytes, isRooted_append (by simp), hrelative]
    have hlast : bodyComponents (Text.segments separator name) = [name].map .name := by
      rw [segments_of_notMem hproper.whole,
        bodyComponents_of_proper fun _ hmem => List.mem_singleton.mp hmem ▸ hproper]
    have hbody : body ⟨front ++ separator :: name⟩ =
        bodyComponents (Text.segments separator front) ++ [name].map .name := by
      rw [body, segments_append_separator, bodyComponents_append, hlast]
    rw [absolutize, normalize, isAbsolute_join_of_relative directory hpath,
      resolveNames_components, body_join directory hpath, hbody, ← List.append_assoc,
      resolveNames_append_names]

theorem fileName?_ofNames (absolute : Bool) {names : List FileName} {name : FileName}
    (hnames : ∀ name ∈ names, Proper name) (hname : Proper name) :
    (ofNames absolute (names ++ [name])).fileName? = some name := by
  have hall : ∀ other ∈ names ++ [name], Proper other :=
    List.forall_mem_append.mpr ⟨hnames, by simpa using hname⟩
  rw [fileName?_eq_some_iff]
  cases absolute with
  | true =>
    refine ⟨.root :: names.map .name, ?_⟩
    rw [components_ofNames hall, List.map_append, List.cons_append]
    rfl
  | false =>
    refine ⟨names.map .name, ?_⟩
    rw [components_ofNames_false hall, List.map_append]
    rfl

end FilePath

namespace ConfigFile

open FilePath Text

/-! ## The file of a base -/

/-- A relative base that ends in a proper name. -/
structure NamedBy (base : String) (name : List Char) : Prop where
  relative : isRelativeBase base = true
  last : ∃ front, base.toList = front ++ '/' :: name
  proper : Proper name

/-- The base with its suffix written out. -/
def withSuffix (base : String) : String := base ++ ".json"

/-- The bytes of the suffix. -/
def suffix : FileName := ".json".toList

theorem hasExtension_suffix {name : FileName} (h : Proper name) :
    hasExtension (name ++ suffix) = true := by
  cases name with
  | nil => exact absurd h.counts (by decide)
  | cons b rest =>
    have hmem : dot ∈ suffix := by decide
    simp [hasExtension, hmem]

theorem proper_suffix {name : FileName} (h : Proper name) : Proper (name ++ suffix) := by
  have hlong : ∀ short : FileName, short.length ≤ 2 → name ++ suffix ≠ short := by
    intro short hshort heq
    have hlength : name.length + 5 = short.length := by
      rw [← heq, List.length_append]
      rfl
    omega
  refine ⟨?_, hlong _ (Nat.le_refl 2), ?_⟩
  · rw [isNoise, decide_eq_false (hlong [] (by decide)), decide_eq_false (hlong [dot] (by decide)),
      Bool.or_self]
  · intro hmem
    rcases List.mem_append.mp hmem with hname | hsuffix
    · exact h.whole hname
    · exact absurd hsuffix (by decide)

section

variable {base : String} {name : List Char} (hbase : NamedBy base name) (directory : FilePath)

include hbase

/-- The place of a base, and of the base with its suffix. -/
theorem NamedBy.places :
    (directory.absolutize (ofString base)).fileName? = some (name : FileName) ∧
    (directory.absolutize (ofString (withSuffix base))).fileName? =
      some ((name : FileName) ++ suffix) ∧
    directory.absolutize (ofString (withSuffix base)) =
      ⟨(directory.absolutize (ofString base)).bytes ++ suffix⟩ := by
  obtain ⟨front, hfront⟩ := hbase.last
  have hdot : base.toList.head? = some '.' := of_decide_eq_true hbase.relative
  have hbytes : Utf8.encode base.toList =
      Utf8.encode front ++ separator :: Utf8.encode name := by
    rw [hfront, Utf8.encode_append, Utf8.encode_cons, Utf8.encodeChar_of_lt (by decide)]
    rfl
  have hrelative : isRooted separator (Utf8.encode front ++ [separator]) = false := by
    rw [hfront] at hdot
    cases front with
    | nil => cases hdot
    | cons c rest =>
      obtain rfl : c = '.' := Option.some.inj hdot
      rfl
  obtain ⟨names, hnames, hplace⟩ := exists_absolutize_eq directory hrelative
  have hshort : directory.absolutize (ofString base) =
      ofNames directory.isAbsolute (names ++ [(name : FileName)]) := by
    rw [ofString, hbytes, hplace name hbase.proper]
  have hlong : directory.absolutize (ofString (withSuffix base)) =
      ofNames directory.isAbsolute (names ++ [(name : FileName) ++ suffix]) := by
    rw [← hplace _ (proper_suffix hbase.proper), ofString, withSuffix, String.toList_append,
      Utf8.encode_append, hbytes, List.append_assoc, List.cons_append]
    rfl
  rw [hshort, hlong]
  exact ⟨fileName?_ofNames _ hnames hbase.proper,
    fileName?_ofNames _ hnames (proper_suffix hbase.proper), ofNames_suffix _ _ _ _⟩

/-- A base with its suffix stands for itself. -/
theorem NamedBy.basePath_withSuffix :
    basePath directory (withSuffix base) = directory.absolutize (ofString (withSuffix base)) := by
  obtain ⟨-, hname, -⟩ := hbase.places directory
  simp only [basePath, withDefaultExtension, hname]
  exact if_pos (hasExtension_suffix hbase.proper)

/-- A base whose name has an extension stands for itself, and any other for the base with its
suffix. -/
theorem NamedBy.basePath_eq :
    basePath directory base =
      if hasExtension name then directory.absolutize (ofString base)
      else directory.absolutize (ofString (withSuffix base)) := by
  obtain ⟨hname, -, hsuffix⟩ := hbase.places directory
  simp only [basePath, withDefaultExtension, hname, hsuffix]
  rfl

/-- Both spellings lead to one file exactly when the name has no extension. -/
theorem NamedBy.basePath_suffix_iff :
    basePath directory (withSuffix base) = basePath directory base ↔
      hasExtension name = false := by
  obtain ⟨-, -, hsuffix⟩ := hbase.places directory
  rw [hbase.basePath_withSuffix, hbase.basePath_eq, hsuffix]
  cases hasExtension name with
  | true =>
    rw [if_pos rfl]
    constructor
    · intro heq
      have hbytes := congrArg FilePath.bytes heq
      exact absurd (List.append_right_eq_self.mp hbytes) (by decide)
    · intro h
      cases h
  | false => simp

end

/-! ## Files that spell a base either way -/

/-- An entry is kept, or it is the base and gets its suffix. -/
def SuffixedEntry (base : String) (entry later : Json) : Prop :=
  later = entry ∨ entry = .string base ∧ later = .string (withSuffix base)

/-- Some of the entries of a member `extends` are the base and get its suffix. -/
inductive SuffixedEntries (base : String) : Option Json → Option Json → Prop where
  | none : SuffixedEntries base none none
  | one {entry later : Json} (h : SuffixedEntry base entry later) :
      SuffixedEntries base (some entry) (some later)
  | list {entries others : List Json} (h : List.Forall₂ (SuffixedEntry base) entries others) :
      SuffixedEntries base (some (.array entries)) (some (.array others))

/-- Two texts of a compiler configuration file. They are the same, or they have the same options
and the later one spells the base with its suffix in some places. -/
def Suffixed (base text later : String) : Prop :=
  text = later ∨ ∃ config other, Reads text config ∧ Reads later other ∧
    Keyed.get? "compilerOptions" config = Keyed.get? "compilerOptions" other ∧
    SuffixedEntries base (Keyed.get? "extends" config) (Keyed.get? "extends" other)

/-- The files of the relative ones among some bases. -/
def relativePaths (directory : FilePath) (names : List String) : List FilePath :=
  (names.filter isRelativeBase).map (basePath directory)

theorem relativePaths_cons (directory : FilePath) (first : String) (rest : List String) :
    relativePaths directory (first :: rest) =
      relativePaths directory [first] ++ relativePaths directory rest := by
  unfold relativePaths
  rw [← List.map_append, ← List.filter_append, List.singleton_append]

section

variable {base : String} {name : List Char} (hbase : NamedBy base name)
  (hplain : hasExtension name = false) (directory : FilePath)

include hbase hplain

theorem relativePaths_withSuffix :
    relativePaths directory [withSuffix base] = relativePaths directory [base] := by
  obtain ⟨front, hfront⟩ := hbase.last
  have hrelative : isRelativeBase (withSuffix base) = true := by
    have hdot := of_decide_eq_true hbase.relative
    rw [isRelativeBase, withSuffix, String.toList_append]
    cases htext : base.toList with
    | nil => rw [htext] at hdot; cases hdot
    | cons c rest =>
      rw [htext] at hdot
      exact decide_eq_true hdot
  have hpath := (hbase.basePath_suffix_iff directory).mpr hplain
  simp only [relativePaths, List.filter_cons, hrelative, hbase.relative, List.filter_nil, if_true,
    List.map_cons, List.map_nil, hpath]

/-- A list of entries leads to the same files with the suffix and without it. -/
theorem map_baseNames_eq (path : FilePath) {entries others : List Json}
    (h : List.Forall₂ (SuffixedEntry base) entries others) :
    (baseNames path entries).map (relativePaths directory) =
      (baseNames path others).map (relativePaths directory) := by
  have hcons : ∀ (first : String) (rest : Except Error (List String)),
      (rest.map (first :: ·)).map (relativePaths directory) =
        (rest.map (relativePaths directory)).map (relativePaths directory [first] ++ ·) := by
    intro first rest
    cases rest with
    | error error => rfl
    | ok names => exact congrArg Except.ok (relativePaths_cons directory first names)
  induction h with
  | nil => rfl
  | @cons entry later rest more hentry hrest ih =>
    rcases hentry with rfl | ⟨rfl, rfl⟩
    · cases later with
      | string text => rw [baseNames, baseNames, hcons, hcons, ih]
      | _ => rfl
    · rw [baseNames, baseNames, hcons, hcons, ih,
        relativePaths_withSuffix hbase hplain directory]

theorem bases_eq (path : FilePath) {config other : Members}
    (h : SuffixedEntries base (Keyed.get? "extends" config) (Keyed.get? "extends" other)) :
    bases path config = bases path other := by
  show (extendsNames path config).map (relativePaths _) =
    (extendsNames path other).map (relativePaths _)
  unfold extendsNames
  generalize Keyed.get? "extends" config = found at h ⊢
  generalize Keyed.get? "extends" other = found' at h ⊢
  cases h with
  | none => rfl
  | one hentry =>
    rcases hentry with rfl | ⟨rfl, rfl⟩
    · rfl
    · exact congrArg Except.ok (relativePaths_withSuffix hbase hplain _).symm
  | list hentries => exact map_baseNames_eq hbase hplain _ path hentries

theorem toldAlike_of_suffixed {text later : String} (h : Suffixed base text later) :
    ToldAlike text later := by
  rcases h with heq | ⟨config, other, hconfig, hother, hoptions, hentries⟩
  · exact Or.inl heq
  · refine Or.inr ⟨config, other, hconfig, hother, ?_⟩
    intro path
    unfold told
    rw [bases_eq hbase hplain path hentries, objectMember, objectMember, hoptions]

end

/-! ## Files that need the suffix -/

/-- A file has no options when one of its relative bases is not a file. -/
theorem compilerOptions_ne_ok {fs : FileSystem} {path : FilePath} {config : Members}
    {files : List FilePath} (hconfig : readObject fs path = .ok config)
    (hfiles : bases path config = .ok files) {file : FilePath} (hfile : file ∈ files)
    (hmissing : fs.isFile file = false) (options : Members) :
    compilerOptions fs path ≠ .ok options := by
  intro h
  obtain ⟨-, config', files', _, hconfig', hfiles', -, hall, -⟩ :=
    addOptions_nil_succ_eq_ok_iff.mp h
  obtain rfl : config = config' := Except.ok.inj (hconfig.symm.trans hconfig')
  obtain rfl : files = files' := Except.ok.inj (hfiles.symm.trans hfiles')
  obtain ⟨-, found, _, _, hfound, -⟩ := addOptions_nil_succ_eq_ok_iff.mp (hall file hfile)
  obtain ⟨source, hsource, -⟩ := readObject_eq_ok_iff.mp hfound
  have hregular := FileSystem.isFile_of_readText hsource
  rw [hmissing] at hregular
  cases hregular

/-- A base that ends in a name may leave its suffix out if and only if the name has no dot after
its first character: then no file's options depend on the spelling, and otherwise the base has to
be a file as it is named. -/
theorem suffix_may_be_left_out_iff (base : String) (name : List Char) (hbase : NamedBy base name) :
    (∀ directory, basePath directory (withSuffix base) = basePath directory base ↔
      hasExtension name = false) ∧
    (hasExtension name = false → ∀ fs other path, fs.Alike (Suffixed base) other →
      compilerOptions other path = compilerOptions fs path) ∧
    (hasExtension name = true → ∀ fs path config names, readObject fs path = .ok config →
      extendsNames path config = .ok names → base ∈ names →
      fs.isFile ((path.parent?.getD (ofString ".")).absolutize (ofString base)) = false →
      ∀ options, compilerOptions fs path ≠ .ok options) := by
  refine ⟨hbase.basePath_suffix_iff, ?_, ?_⟩
  · intro hplain fs other path halike
    exact (compilerOptions_congr halike
      (fun _ _ htexts => toldAlike_of_suffixed hbase hplain htexts) path).symm
  · intro hdotted fs path config names hconfig hnames hmem hmissing
    have hfiles : bases path config =
        .ok (relativePaths (path.parent?.getD (ofString ".")) names) := by
      show (extendsNames path config).map (relativePaths _) = _
      rw [hnames]
      rfl
    have hfile : (path.parent?.getD (ofString ".")).absolutize (ofString base) ∈
        relativePaths (path.parent?.getD (ofString ".")) names := by
      have hpath := hbase.basePath_eq (path.parent?.getD (ofString "."))
      rw [if_pos hdotted] at hpath
      rw [← hpath]
      exact List.mem_map_of_mem (List.mem_filter.mpr ⟨hmem, hbase.relative⟩)
    exact compilerOptions_ne_ok hconfig hfiles hfile hmissing

/-- A configuration file that extends one base. -/
def extendingFile (base : String) : List UInt8 :=
  Utf8.encode ("\x7b\"extends\":\"".toList ++ base.toList ++ "\"\x7d".toList)

/-- A configuration file that extends one base, and a file of options beside it. -/
def extending (base file : String) : FileSystem where
  root := .directory [
    ("tsconfig.json".toList, .file (extendingFile base)),
    (file.toList, .file (Utf8.encode
      "\x7b\"compilerOptions\":\x7b\"strict\":true\x7d\x7d".toList))]
  workingDirectory := []

theorem suffix_may_be_left_out_of_plain_name :
    NamedBy "./config" "config".toList ∧
      (extending "./config" "config.json").Alike (Suffixed "./config")
        (extending "./config.json" "config.json") ∧
      ∃ options, Keyed.keys options = ["strict"] ∧
        compilerOptions (extending "./config" "config.json") (ofString "/tsconfig.json") =
          .ok options ∧
        compilerOptions (extending "./config.json" "config.json") (ofString "/tsconfig.json") =
          .ok options := by
  have hbase : NamedBy "./config" "config".toList :=
    ⟨by decide, ⟨['.'], by decide⟩, by decide⟩
  have hread : Json.Document.read "\x7b\"extends\":\"./config\"\x7d" =
      .ok (.object [(⟨"extends", 12⟩, .string "./config")]) := rfl
  have hsuffixed : Json.Document.read "\x7b\"extends\":\"./config.json\"\x7d" =
      .ok (.object [(⟨"extends", 17⟩, .string "./config.json")]) := rfl
  have htext : Suffixed "./config" (textOf (extendingFile "./config"))
      (textOf (extendingFile "./config.json")) :=
    Or.inr ⟨_, _, reads_of_document (by decide +kernel) hread rfl,
      reads_of_document (by decide +kernel) hsuffixed rfl, rfl, .one (Or.inr ⟨rfl, rfl⟩)⟩
  have halike : (extending "./config" "config.json").Alike (Suffixed "./config")
      (extending "./config.json" "config.json") :=
    ⟨.directory rfl (.cons (.file htext) (.cons (.file (Or.inl rfl)) .nil)), rfl⟩
  have hsame := (suffix_may_be_left_out_iff "./config" "config".toList hbase).2.1 (by decide)
    _ _ (ofString "/tsconfig.json") halike
  have hfound : (compilerOptions (extending "./config" "config.json")
      (ofString "/tsconfig.json")).toOption.map Keyed.keys = some ["strict"] := by
    decide +kernel
  obtain ⟨options, hoptions, hkeys⟩ := Option.map_eq_some_iff.mp hfound
  have hread := Error.toOption_eq_some_iff.mp hoptions
  exact ⟨hbase, halike, options, hkeys, hread, hsame.trans hread⟩

/-- A base with a dot in its name needs its suffix: without it the file beside is not found. -/
theorem dotted_base_needs_suffix :
    NamedBy "./tsconfig.base" "tsconfig.base".toList ∧
    (extending "./tsconfig.base" "tsconfig.base.json").isFile (ofString "/tsconfig.base") = false ∧
    (extending "./tsconfig.base" "tsconfig.base.json").isFile (ofString "/tsconfig.base.json") =
      true ∧
    compilerOptions (extending "./tsconfig.base" "tsconfig.base.json")
      (ofString "/tsconfig.json") =
        .error (.configUnreadable (ofString "/tsconfig.base") .notFound) ∧
    ∃ options, Keyed.keys options = ["strict"] ∧
      compilerOptions (extending "./tsconfig.base.json" "tsconfig.base.json")
        (ofString "/tsconfig.json") = .ok options := by
  have hmissing : (compilerOptions (extending "./tsconfig.base" "tsconfig.base.json")
      (ofString "/tsconfig.json")).map (fun _ => ()) =
        .error (.configUnreadable (ofString "/tsconfig.base") .notFound) := by
    decide +kernel
  have hfound : (compilerOptions (extending "./tsconfig.base.json" "tsconfig.base.json")
      (ofString "/tsconfig.json")).toOption.map Keyed.keys = some ["strict"] := by
    decide +kernel
  obtain ⟨options, hoptions, hkeys⟩ := Option.map_eq_some_iff.mp hfound
  have hbase : NamedBy "./tsconfig.base" "tsconfig.base".toList :=
    ⟨by decide, ⟨['.'], by decide⟩, by decide⟩
  exact ⟨hbase, by decide +kernel, by decide +kernel, Error.map_eq_error_iff.mp hmissing,
    options, hkeys, Error.toOption_eq_some_iff.mp hoptions⟩

end ConfigFile

end DocPlan
