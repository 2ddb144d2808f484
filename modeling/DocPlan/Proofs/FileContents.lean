import DocPlan.Config.Files
import Mathlib.Data.List.Forall2

/-!
# Trees that differ in the texts of files

Two trees are alike when they have the same directories and links and the same files, and the
texts of a file in the one and the other are related (`Node.Alike`). What a path leads to goes by
the names in directories and the targets of links alone, so it leads to alike nodes in both, or
fails in both for the same reason (`FileSystem.Alike.locate`).

A run in the one and a run in the other can then differ only where a text is read
(`FileSystem.Alike.readText`). A chain of configuration files takes two things from a file, its
bases and its own options. Trees whose files agree in both have the same compiler options
(`ConfigFile.compilerOptions_congr`).
-/

namespace DocPlan

/-- The text of the bytes of a file. -/
def textOf (content : List UInt8) : String :=
  String.ofList (Utf8.dropByteOrderMark (Utf8.decodeLossy content))

variable {related : String → String → Prop}

/-- Trees with the same names and links, whose files have related texts. -/
inductive Node.Alike (related : String → String → Prop) : Node → Node → Prop where
  | file {content other : List UInt8} (texts : related (textOf content) (textOf other)) :
      Alike related (.file content) (.file other)
  | locked : Alike related .locked .locked
  | directory {entries others : List (FileName × Node)}
      (names : entries.map (·.1) = others.map (·.1))
      (nodes : List.Forall₂ (Alike related) (entries.map (·.2)) (others.map (·.2))) :
      Alike related (.directory entries) (.directory others)
  | link (target : List UInt8) : Alike related (.link target) (.link target)

/-- File systems that are seen from the same directory and whose trees are alike. -/
structure FileSystem.Alike (related : String → String → Prop) (fs other : FileSystem) :
    Prop where
  root : fs.root.Alike related other.root
  workingDirectory : fs.workingDirectory = other.workingDirectory

namespace Node

/-- A name leads to nothing in both of two alike directories, or to alike nodes. -/
inductive Matched (related : String → String → Prop) : Option Node → Option Node → Prop where
  | none : Matched related none none
  | some {node other : Node} (h : node.Alike related other) :
      Matched related (some node) (some other)

theorem matched_lookup (name : FileName) {entries others : List (FileName × Node)}
    (hnames : entries.map (·.1) = others.map (·.1))
    (hnodes : List.Forall₂ (Alike related) (entries.map (·.2)) (others.map (·.2))) :
    Matched related (lookup name entries) (lookup name others) := by
  induction entries generalizing others with
  | nil =>
    obtain rfl := List.map_eq_nil_iff.mp hnames.symm
    exact .none
  | cons entry rest ih =>
    cases others with
    | nil => cases hnames
    | cons other more =>
      obtain ⟨hname, hrest⟩ := List.cons.inj hnames
      obtain ⟨hnode, hmore⟩ := List.forall₂_cons.mp hnodes
      obtain ⟨key, node⟩ := entry
      obtain ⟨key', node'⟩ := other
      obtain rfl : key = key' := hname
      unfold lookup
      by_cases hkey : key = name
      · rw [if_pos hkey, if_pos hkey]
        exact .some hnode
      · rw [if_neg hkey, if_neg hkey]
        exact ih hrest hmore

variable {node other : Node}

theorem Alike.matched_lookup_entries (h : node.Alike related other) (name : FileName) :
    Matched related (lookup name node.entries) (lookup name other.entries) := by
  cases h with
  | file => exact .none
  | locked => exact .none
  | directory hnames hnodes => exact matched_lookup name hnames hnodes
  | link => exact .none

theorem Alike.isFile_eq (h : node.Alike related other) : node.isFile = other.isFile := by
  cases h <;> rfl

theorem Alike.isDirectory_eq (h : node.Alike related other) :
    node.isDirectory = other.isDirectory := by
  cases h <;> rfl

end Node

/-- A path whose text is read leads to a file. -/
theorem FileSystem.isFile_of_readText {fs : FileSystem} {path : FilePath} {text : String}
    (h : fs.readText path = .ok text) : fs.isFile path = true := by
  unfold readText readBytes at h
  unfold isFile node?
  cases hplace : fs.locate path with
  | error cause =>
    rw [hplace] at h
    cases h
  | ok place =>
    rw [hplace] at h
    cases hnode : place.node with
    | file content => simp only [hnode, Node.isFile]
    | locked => simp [bind, Except.bind, hnode] at h
    | directory entries => simp [bind, Except.bind, hnode] at h
    | link target => simp [bind, Except.bind, hnode] at h

/-! ## Walks -/

/-- Places with the same names, all of whose nodes are alike. -/
structure Place.Alike (related : String → String → Prop) (place other : Place) : Prop where
  root : place.root.Alike related other.root
  names : place.trail.map (·.1) = other.trail.map (·.1)
  nodes : List.Forall₂ (Node.Alike related) (place.trail.map (·.2)) (other.trail.map (·.2))

namespace Place.Alike

variable {place other : Place}

theorem node (h : place.Alike related other) : place.node.Alike related other.node := by
  obtain ⟨root, trail⟩ := place
  obtain ⟨root', trail'⟩ := other
  obtain ⟨hroot, hnames, hnodes⟩ := h
  cases trail with
  | nil =>
    obtain rfl : trail' = [] := List.map_eq_nil_iff.mp hnames.symm
    exact hroot
  | cons first rest =>
    cases trail' with
    | nil => cases hnames
    | cons first' rest' => exact (List.forall₂_cons.mp hnodes).1

theorem top (h : place.Alike related other) :
    Alike related { place with trail := [] } { other with trail := [] } :=
  ⟨h.root, rfl, .nil⟩

theorem back (h : place.Alike related other) :
    Alike related { place with trail := place.trail.drop 1 }
      { other with trail := other.trail.drop 1 } := by
  refine ⟨h.root, ?_, ?_⟩
  · simp only [List.map_drop, h.names]
  · simp only [List.map_drop]
    exact List.forall₂_drop 1 h.nodes

theorem into (h : place.Alike related other) (name : FileName) {node node' : Node}
    (hnode : node.Alike related node') :
    Alike related { place with trail := (name, node) :: place.trail }
      { other with trail := (name, node') :: other.trail } :=
  ⟨h.root, congrArg (name :: ·) h.names, .cons hnode h.nodes⟩

end Place.Alike

namespace FileSystem

/-- Two walks end at alike places, or fail for the same reason. -/
inductive Agree (related : String → String → Prop) :
    Except FileError Place → Except FileError Place → Prop where
  | ok {place other : Place} (h : place.Alike related other) :
      Agree related (.ok place) (.ok other)
  | error (cause : FileError) : Agree related (.error cause) (.error cause)

/-- Walks that go on at links alike are alike. -/
private theorem agree_walkWith {follow : Place → List WalkStep → Except FileError Place}
    (hfollow : ∀ place other steps, place.Alike related other →
      Agree related (follow place steps) (follow other steps))
    (steps : List WalkStep) {place other : Place} (h : place.Alike related other) :
    Agree related (walkWith follow steps place) (walkWith follow steps other) := by
  induction steps generalizing place other with
  | nil => exact .ok h
  | cons step rest ih =>
    have hnode := h.node
    unfold walkWith
    generalize place.node = node at hnode
    generalize other.node = node' at hnode
    cases hnode with
    | file => exact .error _
    | locked => exact .error _
    | link => exact .error _
    | directory hnames hnodes =>
      cases step with
      | stay => exact ih h
      | back => exact ih h.back
      | into name =>
        simp only
        split
        next => exact .error _
        next =>
          have hfound := Node.matched_lookup name hnames hnodes
          generalize Node.lookup name _ = found at hfound ⊢
          generalize Node.lookup name _ = found' at hfound ⊢
          cases hfound with
          | none => exact .error _
          | some hentry =>
            cases hentry with
            | file htexts => exact ih (h.into name (.file htexts))
            | locked => exact ih (h.into name .locked)
            | directory hinner hinside => exact ih (h.into name (.directory hinner hinside))
            | link target =>
              simp only
              split
              next => exact hfollow _ _ _ h.top
              next => exact hfollow _ _ _ h

theorem agree_walk (links : Nat) (steps : List WalkStep) {place other : Place}
    (h : place.Alike related other) :
    Agree related (walk links place steps) (walk links other steps) := by
  induction links generalizing steps place other with
  | zero => exact agree_walkWith (fun _ _ _ _ => .error _) steps h
  | succ links ih => exact agree_walkWith (fun _ _ steps hplace => ih steps hplace) steps h

theorem alike_descend (names : List FileName) {place other : Place}
    (h : place.Alike related other) :
    (descend names place).Alike related (descend names other) := by
  induction names generalizing place other with
  | nil => exact h
  | cons name rest ih =>
    have hfound := h.node.matched_lookup_entries name
    unfold descend
    generalize Node.lookup name place.node.entries = found at hfound
    generalize Node.lookup name other.node.entries = found' at hfound
    cases hfound with
    | none => exact h
    | some hnode => exact ih (h.into name hnode)

namespace Alike

variable {fs other : FileSystem}

/-- A path leads to alike places in alike file systems. -/
theorem locate (h : fs.Alike related other) (path : FilePath) :
    Agree related (fs.locate path) (other.locate path) := by
  have htop : Place.Alike related ⟨fs.root, []⟩ ⟨other.root, []⟩ := ⟨h.root, rfl, .nil⟩
  have hstart : (fs.startOf path).Alike related (other.startOf path) := by
    unfold startOf
    split
    next => exact htop
    next =>
      rw [← h.workingDirectory]
      exact alike_descend _ htop
  unfold FileSystem.locate
  split
  next => exact .error _
  next =>
    split
    next => exact .error _
    next =>
      split
      next => exact .error _
      next => exact agree_walk linkLimit _ hstart

theorem matched_node? (h : fs.Alike related other) (path : FilePath) :
    Node.Matched related (fs.node? path) (other.node? path) := by
  have hplace := h.locate path
  unfold node?
  generalize fs.locate path = found at hplace ⊢
  generalize other.locate path = found' at hplace ⊢
  cases hplace with
  | ok hplace => exact .some hplace.node
  | error cause => exact .none

theorem isFile_eq (h : fs.Alike related other) (path : FilePath) :
    fs.isFile path = other.isFile path := by
  have hnode := h.matched_node? path
  unfold isFile
  generalize fs.node? path = found at hnode ⊢
  generalize other.node? path = found' at hnode ⊢
  cases hnode with
  | none => rfl
  | some hnode => exact hnode.isFile_eq

theorem isDirectory_eq (h : fs.Alike related other) (path : FilePath) :
    fs.isDirectory path = other.isDirectory path := by
  have hnode := h.matched_node? path
  unfold isDirectory
  generalize fs.node? path = found at hnode ⊢
  generalize other.node? path = found' at hnode ⊢
  cases hnode with
  | none => rfl
  | some hnode => exact hnode.isDirectory_eq

/-- A path is read in neither of two alike file systems, for the same reason, or its texts in
the one and the other are related. -/
theorem readText (h : fs.Alike related other) (path : FilePath) :
    (∃ cause, fs.readText path = .error cause ∧ other.readText path = .error cause) ∨
      ∃ text later, fs.readText path = .ok text ∧ other.readText path = .ok later ∧
        related text later := by
  have hplace := h.locate path
  unfold FileSystem.readText readBytes
  generalize fs.locate path = found at hplace ⊢
  generalize other.locate path = found' at hplace ⊢
  cases hplace with
  | error cause => exact Or.inl ⟨cause, rfl, rfl⟩
  | @ok place place' hplace =>
    have hnode := hplace.node
    simp only [bind, Except.bind]
    generalize place.node = node at hnode ⊢
    generalize place'.node = node' at hnode ⊢
    cases hnode with
    | file htexts => exact Or.inr ⟨_, _, rfl, rfl, htexts⟩
    | locked => exact Or.inl ⟨_, rfl, rfl⟩
    | directory => exact Or.inl ⟨_, rfl, rfl⟩
    | link => exact Or.inl ⟨_, rfl, rfl⟩

end Alike

end FileSystem

/-! ## Configuration files -/

namespace ConfigFile

/-- A text is that of a configuration file with some members. -/
def Reads (text : String) (config : Members) : Prop :=
  Json.read (Json.Comments.strip text) = .ok (.object config)

/-- What a chain of files takes from the members of one of them: its bases and its options. -/
def told (path : FilePath) (config : Members) :
    Except Error (List FilePath) × Except Error Members :=
  (bases path config, objectMember path config "compilerOptions")

/-- Two texts are the same, or the texts of configuration files of which a chain takes the
same. -/
def ToldAlike (text later : String) : Prop :=
  text = later ∨ ∃ config other, Reads text config ∧ Reads later other ∧
    ∀ path, told path config = told path other

variable {fs other : FileSystem}

theorem reads_of_document {source text : String} {document : Json.Document} {config : Members}
    (hstrip : Json.Comments.strip source = text) (hread : Json.Document.read text = .ok document)
    (hconfig : document.toJson = .object config) : Reads source config := by
  unfold Reads Json.read
  rw [hstrip, hread]
  exact congrArg Except.ok hconfig

theorem readObject_of_reads {path : FilePath} {text : String} {config : Members}
    (htext : fs.readText path = .ok text) (h : Reads text config) :
    readObject fs path = .ok config := by
  have hread : Json.read (Json.Comments.strip text) = .ok (.object config) := h
  simp only [readObject, htext, hread]

/-- What cannot be read, or is the same text, reads as the same object. -/
theorem readObject_congr {path : FilePath} (h : fs.readText path = other.readText path) :
    readObject fs path = readObject other path := by
  unfold readObject
  rw [h]

theorem map_told_eq (halike : fs.Alike related other)
    (hrelated : ∀ text later, related text later → ToldAlike text later) (path : FilePath) :
    (readObject fs path).map (told path) = (readObject other path).map (told path) := by
  rcases halike.readText path with ⟨cause, hcause, hother⟩ | ⟨text, later, htext, hlater, htexts⟩
  · rw [readObject_congr (hcause.trans hother.symm)]
  · rcases hrelated text later htexts with rfl | ⟨config, config', hconfig, hconfig', htold⟩
    · rw [readObject_congr (htext.trans hlater.symm)]
    · rw [readObject_of_reads htext hconfig, readObject_of_reads hlater hconfig']
      exact congrArg Except.ok (htold path)

/-- A file counts by what is told of it. -/
theorem addOptions_succ (fs : FileSystem) (room : Nat) (opened : List FilePath)
    (merged : Members) (path : FilePath) :
    addOptions fs (room + 1) opened merged path =
      if opened.any (·.same path) then .error (.configInvalid path "circular \"extends\"")
      else (readObject fs path).map (told path) >>= fun found => do
        let files ← found.1
        let merged ← files.foldlM (addOptions fs room (path :: opened)) merged
        let options ← found.2
        return Keyed.overlay merged options := by
  rw [addOptions]
  cases readObject fs path <;> rfl

/-- File systems of whose files the same is told give the same options. -/
theorem addOptions_congr
    (h : ∀ path, (readObject fs path).map (told path) = (readObject other path).map (told path))
    (room : Nat) : addOptions fs room = addOptions other room := by
  induction room with
  | zero =>
    funext opened merged path
    unfold addOptions
    rfl
  | succ room ih =>
    funext opened merged path
    rw [addOptions_succ, addOptions_succ, h path, ih]

theorem compilerOptions_congr (halike : fs.Alike related other)
    (hrelated : ∀ text later, related text later → ToldAlike text later) (path : FilePath) :
    compilerOptions fs path = compilerOptions other path := by
  unfold compilerOptions
  rw [addOptions_congr (map_told_eq halike hrelated)]

end ConfigFile

end DocPlan
