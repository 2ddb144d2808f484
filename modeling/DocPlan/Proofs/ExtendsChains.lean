import DocPlan.Config.Files
import DocPlan.Proofs.Overlay
import Mathlib.Data.List.Chain

/-!
# Configuration files that extend each other

The options of a file are told by two things that know nothing of an order of
reading: the chains of files that begin at it (`Acceptable`), and the options of
its bases laid on one another with its own on top (`Composed`).

`compilerOptions` reads the files depth first. It puts all options on one list
that is passed along, and it keeps the files that are open. `addOptions_eq_ok_iff`
takes the list out: what a file adds does not depend on what is there.

Main result: `compilerOptions_ok_iff_acceptable`.
-/

namespace DocPlan.ConfigFile

/-! ## Files and chains -/

/-- The member `extends` names bases: there is none, or it is null, a text or a
list of texts. -/
def NamesBases : Option Json → Prop
  | none => True
  | some .null => True
  | some (.string _) => True
  | some (.array items) => ∀ item ∈ items, ∃ name, item = .string name
  | some _ => False

/-- The member `compilerOptions` holds options: there is none, or it is null or an
object. -/
def HoldsOptions : Option Json → Prop
  | none => True
  | some .null => True
  | some (.object _) => True
  | some _ => False

/-- A file can be read, its text without comments is a JSON object, and the two
members that count have the right shape. -/
def Usable (fs : FileSystem) (file : FilePath) : Prop :=
  ∃ source config, fs.readText file = .ok source ∧
    Json.read (Json.Comments.strip source) = .ok (.object config) ∧
    NamesBases (Keyed.get? "extends" config) ∧
    HoldsOptions (Keyed.get? "compilerOptions" config)

/-- A file names another one as a relative base. -/
def Extends (fs : FileSystem) (file base : FilePath) : Prop :=
  ∃ config files, readObject fs file = .ok config ∧ bases file config = .ok files ∧
    base ∈ files

/-- No chain that begins at a file comes back to one of its files or holds more
than sixteen, and every file on a chain is usable. -/
def Acceptable (fs : FileSystem) (path : FilePath) : Prop :=
  ∀ rest, (path :: rest).IsChain (Extends fs) →
    (path :: rest).Pairwise (fun file later => file.same later = false) ∧
    (path :: rest).length ≤ 16 ∧ ∀ file ∈ path :: rest, Usable fs file

/-- The options of a file: those of its bases on one another in their order, and
its own on top. -/
inductive Composed (fs : FileSystem) : FilePath → Members → Prop where
  | file {path : FilePath} {config options : Members} {files : List FilePath}
      {own : FilePath → Members} (read : readObject fs path = .ok config)
      (named : bases path config = .ok files)
      (held : objectMember path config "compilerOptions" = .ok options)
      (inherited : ∀ base ∈ files, Composed fs base (own base)) :
      Composed fs path (Keyed.overlay ((files.map own).foldl Keyed.overlay []) options)

/-- A file has only one list of options. -/
theorem Composed.unique {fs : FileSystem} {path : FilePath} {options others : Members}
    (hoptions : Composed fs path options) (hothers : Composed fs path others) :
    options = others := by
  induction hoptions generalizing others with
  | @file path config options files own hread hnamed hheld _ ih =>
    cases hothers with
    | @file _ config' options' files' own' hread' hnamed' hheld' hinherited' =>
      obtain rfl := Except.ok.inj (hread.symm.trans hread')
      obtain rfl := Except.ok.inj (hnamed.symm.trans hnamed')
      obtain rfl := Except.ok.inj (hheld.symm.trans hheld')
      have hown : files.map own = files.map own' :=
        List.map_congr_left fun base hbase => ih base hbase (hinherited' base hbase)
      rw [hown]

/-! ## What makes a file usable -/

theorem readObject_eq_ok_iff {fs : FileSystem} {path : FilePath} {config : Members} :
    readObject fs path = .ok config ↔ ∃ source, fs.readText path = .ok source ∧
      Json.read (Json.Comments.strip source) = .ok (.object config) := by
  unfold readObject
  cases hsource : fs.readText path with
  | error cause => simp
  | ok source =>
    cases hvalue : Json.read (Json.Comments.strip source) with
    | error reason => simp [hvalue]
    | ok value => cases value <;> simp [hvalue]

theorem exists_baseNames_iff {path : FilePath} {items : List Json} :
    (∃ names, baseNames path items = .ok names) ↔
      ∀ item ∈ items, ∃ name, item = .string name := by
  induction items with
  | nil => simp [baseNames]
  | cons item rest ih =>
    cases item with
    | string base =>
      rw [baseNames, List.forall_mem_cons, ← ih]
      simp only [Error.map_eq_ok_iff]
      constructor
      · rintro ⟨names, found, hfound, -⟩
        exact ⟨⟨base, rfl⟩, found, hfound⟩
      · rintro ⟨-, found, hfound⟩
        exact ⟨base :: found, found, hfound, rfl⟩
    | _ => simp [baseNames]

theorem exists_bases_iff {path : FilePath} {config : Members} :
    (∃ files, bases path config = .ok files) ↔ NamesBases (Keyed.get? "extends" config) := by
  have hmap : (∃ files, bases path config = .ok files) ↔
      ∃ names, extendsNames path config = .ok names := by
    simp only [bases, Error.map_eq_ok_iff]
    constructor
    · rintro ⟨_, names, hnames, -⟩
      exact ⟨names, hnames⟩
    · rintro ⟨names, hnames⟩
      exact ⟨_, names, hnames, rfl⟩
  rw [hmap, extendsNames]
  cases Keyed.get? "extends" config with
  | none => simp [NamesBases]
  | some value =>
    cases value with
    | array items => exact exists_baseNames_iff
    | _ => simp [NamesBases]

theorem exists_objectMember_iff {path : FilePath} {config : Members} {field : String} :
    (∃ options, objectMember path config field = .ok options) ↔
      HoldsOptions (Keyed.get? field config) := by
  unfold objectMember
  cases Keyed.get? field config with
  | none => simp [HoldsOptions]
  | some value => cases value <;> simp [HoldsOptions]

theorem usable_iff {fs : FileSystem} {path : FilePath} :
    Usable fs path ↔ ∃ config files options, readObject fs path = .ok config ∧
      bases path config = .ok files ∧
      objectMember path config "compilerOptions" = .ok options := by
  constructor
  · rintro ⟨source, config, hsource, hread, hnames, hholds⟩
    obtain ⟨files, hfiles⟩ := exists_bases_iff.mpr hnames
    obtain ⟨options, hoptions⟩ := exists_objectMember_iff.mpr hholds
    exact ⟨config, files, options, readObject_eq_ok_iff.mpr ⟨source, hsource, hread⟩, hfiles,
      hoptions⟩
  · rintro ⟨config, files, options, hconfig, hfiles, hoptions⟩
    obtain ⟨source, hsource, hread⟩ := readObject_eq_ok_iff.mp hconfig
    exact ⟨source, config, hsource, hread, exists_bases_iff.mp ⟨files, hfiles⟩,
      exists_objectMember_iff.mp ⟨options, hoptions⟩⟩

/-! ## One file at a time -/

theorem addOptions_zero_ne_ok {fs : FileSystem} {opened : List FilePath} {merged result : Members}
    {path : FilePath} : addOptions fs 0 opened merged path ≠ .ok result := by
  unfold addOptions
  split <;> simp

/-- A file is added when it is not open, it is usable and its bases can be added. -/
theorem addOptions_succ_eq_ok_iff {fs : FileSystem} {room : Nat} {opened : List FilePath}
    {merged result : Members} {path : FilePath} :
    addOptions fs (room + 1) opened merged path = .ok result ↔
      (∀ file ∈ opened, file.same path = false) ∧
      ∃ config files inherited options, readObject fs path = .ok config ∧
        bases path config = .ok files ∧
        files.foldlM (addOptions fs room (path :: opened)) merged = .ok inherited ∧
        objectMember path config "compilerOptions" = .ok options ∧
        Keyed.overlay inherited options = result := by
  rw [addOptions]
  by_cases hopen : opened.any (·.same path) = true
  · obtain ⟨file, hfile, hsame⟩ := List.any_eq_true.mp hopen
    rw [if_pos hopen]
    constructor
    · intro h
      cases h
    · rintro ⟨hnone, -⟩
      rw [hnone file hfile] at hsame
      cases hsame
  · have hnone : ∀ file ∈ opened, file.same path = false := by simpa using hopen
    rw [if_neg hopen]
    simp only [Error.bind_eq_ok_iff, pure, Except.pure, Except.ok.injEq]
    constructor
    · rintro ⟨config, hconfig, files, hfiles, inherited, hinherited, options, hoptions, hresult⟩
      exact ⟨hnone, config, files, inherited, options, hconfig, hfiles, hinherited, hoptions,
        hresult⟩
    · rintro ⟨-, config, files, inherited, options, hconfig, hfiles, hinherited, hoptions,
        hresult⟩
      exact ⟨config, hconfig, files, hfiles, inherited, hinherited, options, hoptions, hresult⟩

/-- What a file adds to nothing. -/
def added (fs : FileSystem) (room : Nat) (opened : List FilePath) (path : FilePath) : Members :=
  (addOptions fs room opened [] path).toOption.getD []

/-- Files are added one by one when each of them can be added to nothing, and then
each of them puts down what it adds to nothing. -/
private theorem foldlM_addOptions_iff (fs : FileSystem) (room : Nat) (opened : List FilePath)
    (hout : ∀ merged result path, addOptions fs room opened merged path = .ok result ↔
      ∃ own, addOptions fs room opened [] path = .ok own ∧ Keyed.overlay merged own = result)
    (files : List FilePath) (merged result : Members) :
    files.foldlM (addOptions fs room opened) merged = .ok result ↔
      (∀ file ∈ files, addOptions fs room opened [] file =
        .ok (added fs room opened file)) ∧
      (files.map (added fs room opened)).foldl Keyed.overlay merged = result := by
  have hadded : ∀ {file own}, addOptions fs room opened [] file = .ok own →
      added fs room opened file = own := by
    intro file own hown
    rw [added, hown]
    rfl
  induction files generalizing merged with
  | nil => simp [pure, Except.pure]
  | cons file rest ih =>
    rw [List.foldlM_cons, Error.bind_eq_ok_iff, List.forall_mem_cons, List.map_cons,
      List.foldl_cons]
    constructor
    · rintro ⟨next, hnext, hrest⟩
      obtain ⟨own, hown, rfl⟩ := (hout merged next file).mp hnext
      obtain ⟨hall, hresult⟩ := (ih _).mp hrest
      rw [hadded hown]
      exact ⟨⟨hown, hall⟩, hresult⟩
    · rintro ⟨⟨hown, hall⟩, hresult⟩
      exact ⟨_, (hout merged _ file).mpr ⟨_, hown, rfl⟩, (ih _).mpr ⟨hall, hresult⟩⟩

/-- The list that options are put on can be taken out: what a file adds does not
depend on it. -/
theorem addOptions_eq_ok_iff {fs : FileSystem} {room : Nat} {opened : List FilePath}
    (merged result : Members) (path : FilePath) :
    addOptions fs room opened merged path = .ok result ↔
      ∃ own, addOptions fs room opened [] path = .ok own ∧
        Keyed.overlay merged own = result := by
  induction room generalizing opened merged result path with
  | zero => simp [addOptions_zero_ne_ok]
  | succ room ih =>
    -- The bases are read with less room and with one more file open.
    have hfiles := foldlM_addOptions_iff fs room (path :: opened) ih
    simp only [addOptions_succ_eq_ok_iff, hfiles]
    constructor
    · rintro ⟨hnone, config, files, inherited, options, hconfig, hfiles, ⟨hall, rfl⟩, hoptions,
        rfl⟩
      refine ⟨_, ⟨hnone, config, files, _, options, hconfig, hfiles, ⟨hall, rfl⟩, hoptions,
        rfl⟩, ?_⟩
      rw [Keyed.foldl_overlay merged, Keyed.overlay_assoc merged]
      exact Keyed.nodup_keys_foldl_overlay Keyed.nodup_keys_nil _
    · rintro ⟨own, ⟨hnone, config, files, inherited, options, hconfig, hfiles, ⟨hall, rfl⟩,
        hoptions, rfl⟩, rfl⟩
      refine ⟨hnone, config, files, _, options, hconfig, hfiles, ⟨hall, rfl⟩, hoptions, ?_⟩
      rw [Keyed.foldl_overlay merged, Keyed.overlay_assoc merged]
      exact Keyed.nodup_keys_foldl_overlay Keyed.nodup_keys_nil _

/-- What a file adds to nothing: its bases on one another and its own on top. -/
theorem addOptions_nil_succ_eq_ok_iff {fs : FileSystem} {room : Nat} {opened : List FilePath}
    {path : FilePath} {own : Members} :
    addOptions fs (room + 1) opened [] path = .ok own ↔
      (∀ file ∈ opened, file.same path = false) ∧
      ∃ config files options, readObject fs path = .ok config ∧
        bases path config = .ok files ∧
        objectMember path config "compilerOptions" = .ok options ∧
        (∀ file ∈ files, addOptions fs room (path :: opened) [] file =
          .ok (added fs room (path :: opened) file)) ∧
        Keyed.overlay ((files.map (added fs room (path :: opened))).foldl Keyed.overlay [])
          options = own := by
  rw [addOptions_succ_eq_ok_iff]
  simp only [foldlM_addOptions_iff fs room (path :: opened) addOptions_eq_ok_iff]
  constructor
  · rintro ⟨hnone, config, files, inherited, options, hconfig, hfiles, ⟨hall, rfl⟩, hoptions,
      hown⟩
    exact ⟨hnone, config, files, options, hconfig, hfiles, hoptions, hall, hown⟩
  · rintro ⟨hnone, config, files, options, hconfig, hfiles, hoptions, hall, hown⟩
    exact ⟨hnone, config, files, _, options, hconfig, hfiles, ⟨hall, rfl⟩, hoptions, hown⟩

theorem composed_of_addOptions {fs : FileSystem} {room : Nat} {opened : List FilePath}
    {path : FilePath} {own : Members} (h : addOptions fs room opened [] path = .ok own) :
    Composed fs path own := by
  induction room generalizing opened path own with
  | zero => exact absurd h addOptions_zero_ne_ok
  | succ room ih =>
    obtain ⟨-, config, files, options, hconfig, hfiles, hoptions, hall, rfl⟩ :=
      addOptions_nil_succ_eq_ok_iff.mp h
    exact .file hconfig hfiles hoptions fun base hbase => ih (hall base hbase)

/-! ## Chains -/

/-- A file may be added while others are open: the chains that begin at it fit into
the room there is, meet no file twice and no open file, and hold usable files only. -/
def Passes (fs : FileSystem) (room : Nat) (opened : List FilePath) (path : FilePath) : Prop :=
  ∀ rest, (path :: rest).IsChain (Extends fs) →
    (path :: rest).Pairwise (fun file later => file.same later = false) ∧
    (path :: rest).length ≤ room ∧
    ∀ file ∈ path :: rest, Usable fs file ∧ ∀ other ∈ opened, other.same file = false

theorem acceptable_iff_passes {fs : FileSystem} {path : FilePath} :
    Acceptable fs path ↔ Passes fs chainLimit [] path := by
  simp [Acceptable, Passes, chainLimit]

theorem not_passes_zero {fs : FileSystem} {opened : List FilePath} {path : FilePath} :
    ¬ Passes fs 0 opened path := by
  intro h
  have hlength := (h [] (.singleton path)).2.1
  simp at hlength

/-- A file passes when it is usable and not open, and its bases pass while it is open
as well. -/
theorem passes_succ_iff {fs : FileSystem} {room : Nat} {opened : List FilePath}
    {path : FilePath} :
    Passes fs (room + 1) opened path ↔
      (∀ file ∈ opened, file.same path = false) ∧
      ∃ config files options, readObject fs path = .ok config ∧
        bases path config = .ok files ∧
        objectMember path config "compilerOptions" = .ok options ∧
        ∀ file ∈ files, Passes fs room (path :: opened) file := by
  constructor
  · intro h
    obtain ⟨-, -, hself⟩ := h [] (.singleton path)
    obtain ⟨husable, hclosed⟩ := hself path List.mem_cons_self
    obtain ⟨config, files, options, hconfig, hfiles, hoptions⟩ := usable_iff.mp husable
    refine ⟨hclosed, config, files, options, hconfig, hfiles, hoptions, ?_⟩
    intro file hfile rest hchain
    have hextends : Extends fs path file := ⟨config, files, hconfig, hfiles, hfile⟩
    obtain ⟨hdistinct, hlength, hall⟩ := h (file :: rest) (.cons_cons hextends hchain)
    obtain ⟨hnew, hlater⟩ := List.pairwise_cons.mp hdistinct
    refine ⟨hlater, by simpa using hlength, ?_⟩
    intro other hother
    obtain ⟨hother_usable, hother_closed⟩ := hall other (List.mem_cons_of_mem _ hother)
    exact ⟨hother_usable, List.forall_mem_cons.mpr ⟨hnew other hother, hother_closed⟩⟩
  · rintro ⟨hclosed, config, files, options, hconfig, hfiles, hoptions, hbases⟩ rest hchain
    have husable : Usable fs path :=
      usable_iff.mpr ⟨config, files, options, hconfig, hfiles, hoptions⟩
    cases rest with
    | nil => simpa using ⟨husable, hclosed⟩
    | cons file others =>
      obtain ⟨⟨config', files', hconfig', hfiles', hmem⟩, hrest⟩ := List.isChain_cons_cons.mp hchain
      obtain rfl := Except.ok.inj (hconfig.symm.trans hconfig')
      obtain rfl := Except.ok.inj (hfiles.symm.trans hfiles')
      obtain ⟨hdistinct, hlength, hall⟩ := hbases file hmem others hrest
      have hnew : ∀ other ∈ file :: others, path.same other = false :=
        fun other hother => (hall other hother).2 path List.mem_cons_self
      have hlater : ∀ other ∈ file :: others,
          Usable fs other ∧ ∀ known ∈ opened, known.same other = false := by
        intro other hother
        obtain ⟨hother_usable, hother_closed⟩ := hall other hother
        exact ⟨hother_usable, (List.forall_mem_cons.mp hother_closed).2⟩
      exact ⟨List.pairwise_cons.mpr ⟨hnew, hdistinct⟩, by simpa using hlength,
        List.forall_mem_cons.mpr ⟨⟨husable, hclosed⟩, hlater⟩⟩

/-- A file can be added exactly when it passes. -/
theorem exists_addOptions_iff {fs : FileSystem} {room : Nat} {opened : List FilePath}
    {path : FilePath} :
    (∃ own, addOptions fs room opened [] path = .ok own) ↔ Passes fs room opened path := by
  induction room generalizing opened path with
  | zero => simp [addOptions_zero_ne_ok, not_passes_zero]
  | succ room ih =>
    rw [passes_succ_iff]
    constructor
    · rintro ⟨own, h⟩
      obtain ⟨hclosed, config, files, options, hconfig, hfiles, hoptions, hall, -⟩ :=
        addOptions_nil_succ_eq_ok_iff.mp h
      exact ⟨hclosed, config, files, options, hconfig, hfiles, hoptions,
        fun file hfile => ih.mp ⟨_, hall file hfile⟩⟩
    · rintro ⟨hclosed, config, files, options, hconfig, hfiles, hoptions, hbases⟩
      have hall : ∀ file ∈ files, addOptions fs room (path :: opened) [] file =
          .ok (added fs room (path :: opened) file) := by
        intro file hfile
        obtain ⟨own, hown⟩ := ih.mpr (hbases file hfile)
        rw [added, hown]
        rfl
      exact ⟨_, addOptions_nil_succ_eq_ok_iff.mpr ⟨hclosed, config, files, options, hconfig,
        hfiles, hoptions, hall, rfl⟩⟩

/-- The options of a configuration file are found exactly when the chains that
begin at it are acceptable, and then they are the options of its bases on one
another, with its own on top. -/
theorem compilerOptions_ok_iff_acceptable (fs : FileSystem) (path : FilePath) :
    ((∃ options, compilerOptions fs path = .ok options) ↔ Acceptable fs path) ∧
    ∀ options, compilerOptions fs path = .ok options ↔
      Acceptable fs path ∧ Composed fs path options := by
  have hfound : (∃ options, compilerOptions fs path = .ok options) ↔ Acceptable fs path :=
    exists_addOptions_iff.trans acceptable_iff_passes.symm
  refine ⟨hfound, ?_⟩
  intro options
  constructor
  · intro h
    exact ⟨hfound.mp ⟨options, h⟩, composed_of_addOptions h⟩
  · rintro ⟨hacceptable, hcomposed⟩
    obtain ⟨found, h⟩ := hfound.mpr hacceptable
    rw [h, hcomposed.unique (composed_of_addOptions h)]

end DocPlan.ConfigFile
