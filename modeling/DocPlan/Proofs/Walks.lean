import DocPlan.FileSystem.Walk
import DocPlan.Proofs.ManifestPaths

/-!
# Straight paths lead where their normal paths lead

A separator that counts for nothing is a step that stays where it is. Such a step only
asks for a directory, so a walk that succeeds still succeeds without it
(`FileSystem.walk_of_eases`). The other direction fails: a separator at the end of a
path to a file asks for a directory.

The normal path of a straight path has the same steps without those that stay, and its
bytes are a part of the other's bytes. So it leads to the same place
(`FileSystem.locate_normalize`).
-/

namespace DocPlan

namespace FileSystem

/-! ## Steps that stay -/

/-- The second list of steps is the first without some of the steps that stay. -/
inductive Eases : List WalkStep → List WalkStep → Prop where
  | nil : Eases [] []
  | keep {steps easier : List WalkStep} (step : WalkStep) (rest : Eases steps easier) :
      Eases (step :: steps) (step :: easier)
  | drop {steps easier : List WalkStep} (rest : Eases steps easier) :
      Eases (.stay :: steps) easier

theorem Eases.append_left (front : List WalkStep) {steps easier : List WalkStep}
    (h : Eases steps easier) : Eases (front ++ steps) (front ++ easier) := by
  induction front with
  | nil => exact h
  | cons step rest ih => exact .keep step ih

/-- Of steps that all stay, one may be kept. -/
theorem Eases.keep_stay {steps : List WalkStep} (h : Eases steps []) (hne : steps ≠ []) :
    Eases steps [.stay] := by
  cases h with
  | nil => exact absurd rfl hne
  | drop rest => exact .keep .stay rest

theorem eases_filter (steps : List WalkStep) : Eases steps (steps.filter (· ≠ .stay)) := by
  induction steps with
  | nil => exact .nil
  | cons step rest ih =>
    by_cases h : step = .stay
    · subst h
      exact .drop ih
    · rw [List.filter_cons_of_pos (by simpa using h)]
      exact .keep step ih

/-- A walk that goes on at links in a way that allows for easier steps allows for them
itself. -/
private theorem walkWith_of_eases {follow : Place → List WalkStep → Except FileError Place}
    (hfollow : ∀ start steps easier place, Eases steps easier →
      follow start steps = .ok place → follow start easier = .ok place)
    {steps easier : List WalkStep} (heases : Eases steps easier) {start place : Place}
    (h : walkWith follow steps start = .ok place) :
    walkWith follow easier start = .ok place := by
  induction heases generalizing start with
  | nil => exact h
  | @keep steps easier step heases ih =>
    unfold walkWith at h ⊢
    split at h
    next entries hnode =>
      cases step with
      | stay => exact ih h
      | back => exact ih h
      | into name =>
        simp only at h ⊢
        split at h
        next => cases h
        next hlimit =>
          rw [if_neg hlimit]
          split at h
          next => cases h
          next target _ => exact hfollow _ _ _ _ (heases.append_left _) h
          next => exact ih h
    next => cases h
  | @drop steps easier heases ih =>
    unfold walkWith at h
    split at h
    next => exact ih h
    next => cases h

/-- A walk that succeeds succeeds without the steps that stay, at the same place. -/
theorem walk_of_eases {links : Nat} {start place : Place} {steps easier : List WalkStep}
    (heases : Eases steps easier) (h : walk links start steps = .ok place) :
    walk links start easier = .ok place := by
  induction links generalizing start place steps easier with
  | zero =>
    refine walkWith_of_eases (fun _ _ _ _ _ hfollow => ?_) heases h
    cases hfollow
  | succ links ih =>
    -- The target of a link is walked with one link less, from any place by any steps.
    have hfollow : ∀ start steps easier place, Eases steps easier →
        walk links start steps = .ok place → walk links start easier = .ok place :=
      fun _ _ _ _ hrest hwalk => ih hrest hwalk
    exact walkWith_of_eases hfollow heases h

/-! ## Straight paths -/

open FilePath Text

theorem stepOf_of_isNoise {segment : List UInt8} (h : isNoise segment = true) :
    stepOf segment = .stay := by
  unfold stepOf
  exact if_pos (by simpa [isNoise] using h)

theorem stepOf_ne_stay {segment : List UInt8} (h : isNoise segment = false) :
    stepOf segment ≠ .stay := by
  have hnoise : ¬ (segment = [] ∨ segment = [dot]) := by
    have hcounts : ¬ segment = [] ∧ ¬ segment = [dot] := by simpa [isNoise] using h
    exact not_or.mpr hcounts
  unfold stepOf
  rw [if_neg hnoise]
  split <;> simp

/-- Of the steps of segments, those that do not stay are the steps of the segments that
count. -/
theorem filter_steps (body : List FileName) :
    (body.map stepOf).filter (· ≠ .stay) = (body.filter (!isNoise ·)).map stepOf := by
  induction body with
  | nil => rfl
  | cons segment rest ih =>
    cases hnoise : isNoise segment with
    | true =>
      rw [List.map_cons, stepOf_of_isNoise hnoise, List.filter_cons_of_neg (by simp),
        List.filter_cons_of_neg (by simp [hnoise]), ih]
    | false =>
      rw [List.map_cons, List.filter_cons_of_pos (by simpa using stepOf_ne_stay hnoise),
        List.filter_cons_of_pos (by simp [hnoise]), List.map_cons, ih]

theorem steps_separator (bytes : List UInt8) :
    steps (separator :: bytes) = (Text.segments separator bytes).map stepOf := by
  rw [steps, segments_separator]
  rfl

/-- The segments that count are the names, when no component steps back. -/
theorem filter_of_bodyComponents {body : List FileName} {names : List FileName}
    (h : bodyComponents body = names.map .name) : body.filter (!isNoise ·) = names := by
  unfold bodyComponents at h
  generalize body.filter (!isNoise ·) = counted at h
  induction counted generalizing names with
  | nil => exact (List.map_eq_nil_iff.mp h.symm).symm
  | cons segment rest ih =>
    cases names with
    | nil => cases h
    | cons name others =>
      obtain ⟨hfirst, hrest⟩ := List.cons.inj h
      have hsegment : segment = name := by
        unfold ofSegment at hfirst
        split at hfirst
        next => cases hfirst
        next => exact Component.name.inj hfirst
      rw [hsegment, ih hrest]

/-- The normal path of a straight path: its bytes are a part of the path's bytes, and its
steps are easier. -/
theorem normalize_of_straight {path : FilePath} (h : path.Straight) :
    path.normalize.bytes.Sublist path.bytes ∧
      Eases (steps path.bytes) (steps path.normalize.bytes) := by
  obtain ⟨names, hproper, hcomponents⟩ := id h
  obtain ⟨bytes, rfl⟩ := isAbsolute_iff.mp h.isAbsolute
  have hnormalize : FilePath.normalize ⟨separator :: bytes⟩ = ofNames true names := by
    rw [FilePath.normalize, hcomponents, resolveNames_root_names]
    rfl
  rw [components_separator] at hcomponents
  have hnames : (Text.segments separator bytes).filter (!isNoise ·) = names :=
    filter_of_bodyComponents (List.cons.inj hcomponents).2
  rw [hnormalize, ofNames_true]
  constructor
  · have hsublist :=
      joinSegments_filter_sublist separator (!isNoise ·) (Text.segments separator bytes)
    rw [hnames, joinSegments_segments] at hsublist
    exact hsublist.cons_cons separator
  · rw [steps_separator, steps_separator]
    have heases := eases_filter ((Text.segments separator bytes).map stepOf)
    rw [filter_steps, hnames] at heases
    cases names with
    | nil =>
      have hne : (Text.segments separator bytes).map stepOf ≠ [] := by
        simpa using segments_ne_nil bytes
      exact heases.keep_stay hne
    | cons name rest =>
      rw [segments_joinSegments (List.cons_ne_nil _ _) fun text htext => (hproper text htext).whole]
      exact heases

/-- A straight path leads where its normal path leads. -/
theorem locate_normalize {fs : FileSystem} {path : FilePath} {place : Place}
    (hstraight : path.Straight) (h : fs.locate path = .ok place) :
    fs.locate path.normalize = .ok place := by
  obtain ⟨hsublist, heases⟩ := normalize_of_straight hstraight
  have hnormal := Normal.of_normalize hstraight.isAbsolute
  have hstart : fs.startOf path.normalize = fs.startOf path := by
    rw [startOf, startOf, hnormal.isAbsolute, hstraight.isAbsolute]
  unfold locate at h ⊢
  split at h
  next => cases h
  next hnul =>
    split at h
    next => cases h
    next =>
      split at h
      next => cases h
      next hsize =>
        have hnul' : ¬ path.normalize.bytes.contains 0 = true := fun hmem =>
          hnul (List.contains_iff_mem.mpr (hsublist.subset (List.contains_iff_mem.mp hmem)))
        have hempty' : ¬ path.normalize.bytes.isEmpty = true := by
          obtain ⟨bytes, hchars⟩ := isAbsolute_iff.mp hnormal.isAbsolute
          simp [hchars]
        have hsize' : ¬ pathLimit < path.normalize.bytes.length := by
          have hle := hsublist.length_le
          omega
        rw [if_neg hnul', if_neg hempty', if_neg hsize', hstart]
        exact walk_of_eases heases h

/-- A file at a straight path is the file at its normal path. -/
theorem isFile_normalize {fs : FileSystem} {path : FilePath} (hstraight : path.Straight)
    (h : fs.isFile path = true) :
    fs.isFile path.normalize = true ∧ fs.readText path.normalize = fs.readText path := by
  cases hlocate : fs.locate path with
  | error cause =>
    rw [isFile, node?, hlocate] at h
    cases h
  | ok place =>
    have hnormal := locate_normalize hstraight hlocate
    constructor
    · rw [isFile, node?, hlocate] at h
      rw [isFile, node?, hnormal]
      exact h
    · rw [readText, readText, readBytes, readBytes, hnormal, hlocate]

end FileSystem

/-! ## Names in a tree -/

open FilePath

/-- All entries in a tree have proper names. -/
inductive Node.WellNamed : Node → Prop where
  | file (content : List UInt8) : WellNamed (.file content)
  | locked : WellNamed .locked
  | link (target : List UInt8) : WellNamed (.link target)
  | directory {entries : List (FileName × Node)} (names : ∀ entry ∈ entries, Proper entry.1)
      (nodes : ∀ entry ∈ entries, WellNamed entry.2) : WellNamed (.directory entries)

theorem Node.mem_of_lookup {name : FileName} {entries : List (FileName × Node)} {node : Node}
    (h : lookup name entries = some node) : (name, node) ∈ entries := by
  induction entries with
  | nil => cases h
  | cons entry rest ih =>
    obtain ⟨other, found⟩ := entry
    unfold lookup at h
    split at h
    next heq =>
      obtain rfl := Option.some.inj h
      exact heq ▸ List.mem_cons_self
    next => exact List.mem_cons_of_mem _ (ih h)

theorem Node.WellNamed.of_entries {node : Node} (h : node.WellNamed) :
    ∀ entry ∈ node.entries, Proper entry.1 ∧ entry.2.WellNamed := by
  cases h with
  | file content => exact List.forall_mem_nil _
  | locked => exact List.forall_mem_nil _
  | link target => exact List.forall_mem_nil _
  | directory names nodes => exact fun entry hentry => ⟨names entry hentry, nodes entry hentry⟩

theorem Node.wellNamed_directory_iff {entries : List (FileName × Node)} :
    (Node.directory entries).WellNamed ↔
      ∀ entry ∈ entries, Proper entry.1 ∧ entry.2.WellNamed := by
  constructor
  · exact fun h => h.of_entries
  · exact fun h => .directory (fun entry hentry => (h entry hentry).1)
      fun entry hentry => (h entry hentry).2

/-- All nodes on the way to a place are well named, and so is all below them. -/
structure Place.WellNamed (place : Place) : Prop where
  root : place.root.WellNamed
  trail : ∀ entry ∈ place.trail, entry.2.WellNamed

namespace Place.WellNamed

variable {place : Place}

theorem node (h : place.WellNamed) : place.node.WellNamed := by
  unfold Place.node
  split
  next => exact h.root
  next name found rest htrail => exact h.trail (name, found) (htrail ▸ List.mem_cons_self)

theorem top (h : place.WellNamed) : WellNamed { place with trail := [] } :=
  ⟨h.root, List.forall_mem_nil _⟩

theorem back (h : place.WellNamed) : WellNamed { place with trail := place.trail.drop 1 } :=
  ⟨h.root, fun entry hentry => h.trail entry (List.mem_of_mem_drop hentry)⟩

theorem into (h : place.WellNamed) {name : FileName} {node : Node}
    (hlookup : Node.lookup name place.node.entries = some node) :
    WellNamed { place with trail := (name, node) :: place.trail } :=
  ⟨h.root, List.forall_mem_cons.mpr
    ⟨(h.node.of_entries _ (Node.mem_of_lookup hlookup)).2, h.trail⟩⟩

end Place.WellNamed

namespace FileSystem

private theorem wellNamed_of_walkWith {follow : Place → List WalkStep → Except FileError Place}
    (hfollow : ∀ start steps place, start.WellNamed → follow start steps = .ok place →
      place.WellNamed)
    {steps : List WalkStep} {start place : Place} (hstart : start.WellNamed)
    (h : walkWith follow steps start = .ok place) : place.WellNamed := by
  induction steps generalizing start with
  | nil => exact Except.ok.inj h ▸ hstart
  | cons step rest ih =>
    unfold walkWith at h
    split at h
    next entries hnode =>
      cases step with
      | stay => exact ih hstart h
      | back => exact ih hstart.back h
      | into name =>
        simp only at h
        split at h
        next => cases h
        next =>
          split at h
          next => cases h
          next target _ =>
            refine hfollow _ _ _ ?_ h
            split
            · exact hstart.top
            · exact hstart
          next node _ hlookup =>
            refine ih (hstart.into ?_) h
            rw [hnode]
            exact hlookup
    next => cases h

theorem wellNamed_of_walk {links : Nat} {steps : List WalkStep} {start place : Place}
    (hstart : start.WellNamed) (h : walk links start steps = .ok place) : place.WellNamed := by
  induction links generalizing start place steps with
  | zero =>
    refine wellNamed_of_walkWith (fun _ _ _ _ hfollow => ?_) hstart h
    cases hfollow
  | succ links ih =>
    exact wellNamed_of_walkWith (fun _ _ _ hplace hfollow => ih hplace hfollow) hstart h

theorem wellNamed_descend {names : List FileName} {place : Place} (h : place.WellNamed) :
    (descend names place).WellNamed := by
  induction names generalizing place with
  | nil => exact h
  | cons name rest ih =>
    unfold descend
    split
    next node hlookup => exact ih (h.into hlookup)
    next => exact h

/-- What a directory lists in a well-named tree are proper names. -/
theorem proper_of_mem_list {fs : FileSystem} (hfs : fs.root.WellNamed) {path : FilePath}
    {name : FileName} (h : name ∈ fs.list path) : Proper name := by
  have htop : Place.WellNamed ⟨fs.root, []⟩ := ⟨hfs, List.forall_mem_nil _⟩
  have hstart : (fs.startOf path).WellNamed := by
    unfold startOf
    split
    · exact htop
    · exact wellNamed_descend htop
  unfold list node? locate at h
  split at h
  next node hnode =>
    split at hnode
    next place hplace =>
      obtain rfl := Option.some.inj hnode
      split at hplace
      next => cases hplace
      next =>
        split at hplace
        next => cases hplace
        next =>
          split at hplace
          next => cases hplace
          next =>
            obtain ⟨entry, hentry, rfl⟩ := List.mem_map.mp h
            exact ((wellNamed_of_walk hstart hplace).node.of_entries entry hentry).1
    next => cases hnode
  next => cases h

end FileSystem

end DocPlan
