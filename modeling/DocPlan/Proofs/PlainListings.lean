import DocPlan.Proofs.RootedPatterns
import DocPlan.Proofs.Walks

/-!
# What plain patterns list

The text of a listed directory is put together from the names in the file system and from the
components of the pattern. So it is a normal path as long as no component of the pattern is
empty or stands for `.` or `..`; such a pattern is plain (`Glob.PlainPattern`). The components of
the root are escaped, and an escaped name is plain (`Glob.plainText_escape`).

Main result: `Workspaces.normal_of_directories_rooted`.
-/

namespace DocPlan

open FilePath

namespace Glob

open Text

/-! ## Parts -/

/-- A part that leads from a normal path to normal paths only. -/
def Part.Plain : Part → Prop
  | .literal name => Proper name
  | .wild tokens => tokens.head? = some (.char '.') →
      accepts tokens ['.'] = false ∧ accepts tokens ['.', '.'] = false
  | .anyDepth => True

variable {fs : FileSystem} {path : FilePath}

theorem specialEntries_of_plain {tokens : List Token} (h : (Part.wild tokens).Plain)
    (path : FilePath) : specialEntries fs tokens path = [] := by
  unfold specialEntries
  split
  next rest =>
    obtain ⟨hcurrent, hparent⟩ := h rfl
    simp [hcurrent, hparent]
  next => rfl

theorem normal_child (h : Normal path) {name : FileName} (hname : Proper name) :
    Normal (child path name) := by
  unfold child
  split
  next hsame =>
    have habsolute := isAbsolute_of_same h.isAbsolute hsame
    cases habsolute
  next => exact h.join_name hname

theorem normal_of_mem_subdirectories (hfs : fs.root.WellNamed) (h : Normal path)
    {entry : FileName × FilePath} (hentry : entry ∈ subdirectories fs path) : Normal entry.2 := by
  obtain ⟨name, hname, rfl⟩ := List.mem_map.mp (List.mem_filter.mp hentry).1
  exact normal_child h (FileSystem.proper_of_mem_list hfs (List.mem_mergeSort.mp hname))

theorem normal_of_mem_below (hfs : fs.root.WellNamed)
    {give : FileName → FilePath → List FilePath}
    (hgive : ∀ name path, Normal path → ∀ directory ∈ give name path, Normal directory)
    {depth : Nat} (h : Normal path) : ∀ directory ∈ below fs give depth path, Normal directory := by
  induction depth generalizing path with
  | zero => exact List.forall_mem_nil _
  | succ depth ih =>
    intro directory hdirectory
    obtain ⟨entry, hentry, hgiven⟩ := List.mem_flatMap.mp hdirectory
    have hnormal := normal_of_mem_subdirectories hfs h hentry
    rcases List.mem_append.mp hgiven with hhere | hbelow
    · exact hgive entry.1 entry.2 hnormal directory hhere
    · exact ih hnormal directory hbelow

/-- Plain parts list normal paths below a normal path. -/
theorem normal_of_mem_listFrom (hfs : fs.root.WellNamed) (parts : List Part)
    (hparts : ∀ part ∈ parts, part.Plain) {path : FilePath} (h : Normal path) :
    ∀ directory ∈ listFrom fs parts path, Normal directory := by
  match parts with
  | [] =>
    intro directory hdirectory
    rw [listFrom] at hdirectory
    exact List.mem_singleton.mp hdirectory ▸ h
  | .literal name :: rest =>
    obtain ⟨hname, hrest⟩ := List.forall_mem_cons.mp hparts
    rw [listFrom]
    split
    next => exact normal_of_mem_listFrom hfs rest hrest (normal_child h hname)
    next => exact List.forall_mem_nil _
  | .wild tokens :: rest =>
    obtain ⟨htokens, hrest⟩ := List.forall_mem_cons.mp hparts
    rw [listFrom, specialEntries_of_plain htokens, List.nil_append]
    intro directory hdirectory
    obtain ⟨found, hfound, hbelow⟩ := List.mem_flatMap.mp hdirectory
    obtain ⟨entry, hentry, rfl⟩ := List.mem_map.mp hfound
    have hnormal := normal_of_mem_subdirectories hfs h (List.mem_filter.mp hentry).1
    exact normal_of_mem_listFrom hfs rest hrest hnormal directory hbelow
  | [.anyDepth] =>
    rw [listFrom]
    refine normal_of_mem_below hfs ?_ h
    intro _ found hfound directory hdirectory
    exact List.mem_singleton.mp hdirectory ▸ hfound
  | .anyDepth :: part :: rest =>
    have hrest : ∀ part ∈ rest, part.Plain :=
      (List.forall_mem_cons.mp (List.forall_mem_cons.mp hparts).2).2
    rw [listFrom]
    refine normal_of_mem_below hfs ?_ h
    intro name found hfound
    split
    next => exact normal_of_mem_listFrom hfs rest hrest hfound
    next => exact List.forall_mem_nil _

/-! ## Plain texts -/

/-- A component of a pattern that is not empty and does not list `.` or `..`. -/
structure PlainText (segment : List Char) : Prop where
  nonempty : segment ≠ []
  dotless : segment.head? = some '.' → ¬ Matches segment ['.'] ∧ ¬ Matches segment ['.', '.']

instance (segment : List Char) : Decidable (PlainText segment) :=
  decidable_of_iff (segment ≠ [] ∧
      (segment.head? = some '.' → ¬ Matches segment ['.'] ∧ ¬ Matches segment ['.', '.']))
    ⟨fun h => ⟨h.1, h.2⟩, fun h => ⟨h.nonempty, h.dotless⟩⟩

/-- The text of a pattern below its root or below the working directory. -/
def bodyText (pattern : List Char) : List Char :=
  if Text.isRooted '/' pattern then pattern.drop 1 else pattern

/-- All components of a pattern are plain. -/
def PlainPattern (pattern : List Char) : Prop :=
  ∀ segment ∈ componentTexts (bodyText pattern), PlainText segment

instance (pattern : List Char) : Decidable (PlainPattern pattern) :=
  inferInstanceAs (Decidable (∀ segment ∈ componentTexts (bodyText pattern), PlainText segment))

theorem readStar_ne_char {position width : Nat} {start : Bool} {d : Char} {rest : List Char} :
    readStar position start rest ≠ .ok (.char d, width) := by
  unfold readStar
  split
  next => simp
  next =>
    split
    next => split <;> simp
    next => simp
  next => simp

theorem readClass?_ne_char {width : Nat} {d : Char} {rest : List Char} :
    readClass? rest ≠ some (.char d, width) := by
  unfold readClass?
  split
  next => split <;> simp
  next => simp
  next => split <;> simp
  next => simp

/-- A token for a character is read from that character alone. -/
theorem readToken_eq_char {position width : Nat} {start : Bool} {c d : Char} {rest : List Char}
    (h : readToken position start c rest = .ok (.char d, width)) : d = c ∧ width = 0 := by
  unfold readToken at h
  split at h
  next => cases h
  next =>
    split at h
    next => exact absurd h readStar_ne_char
    next =>
      split at h
      next =>
        split at h
        next found hfound =>
          obtain rfl := Except.ok.inj h
          exact absurd hfound readClass?_ne_char
        next => cases h
      next =>
        obtain ⟨hchar, hwidth⟩ := Prod.mk.inj (Except.ok.inj h)
        exact ⟨(Token.char.inj hchar).symm, hwidth.symm⟩

/-- Tokens without a wildcard spell the text that they are read from. -/
theorem literal?_of_compileFrom {position : Nat} {start : Bool} {chars name : List Char}
    {tokens : List Token} (h : compileFrom position start 0 chars = .ok tokens)
    (hliteral : literal? tokens = some name) : name = chars := by
  induction chars generalizing position start tokens name with
  | nil =>
    obtain rfl := Except.ok.inj h
    exact (Option.some.inj hliteral).symm
  | cons c rest ih =>
    obtain ⟨token, width, after, htoken, hafter, rfl⟩ := compileFrom_cons_eq_ok_iff.mp h
    cases token with
    | char d =>
      obtain ⟨rfl, rfl⟩ := readToken_eq_char htoken
      obtain ⟨others, hothers, rfl⟩ := Option.map_eq_some_iff.mp hliteral
      rw [ih hafter hothers]
    | _ => cases hliteral

/-- The first token stands for a character only if that is the first character. -/
theorem head?_of_compile {chars : List Char} {tokens : List Token} {d : Char}
    (h : compile chars = .ok tokens) (hhead : tokens.head? = some (.char d)) :
    chars.head? = some d := by
  cases chars with
  | nil =>
    obtain rfl := Except.ok.inj h
    cases hhead
  | cons c rest =>
    obtain ⟨token, width, after, htoken, -, rfl⟩ := compileFrom_cons_eq_ok_iff.mp h
    obtain rfl := Option.some.inj hhead
    rw [(readToken_eq_char htoken).1, List.head?_cons]

/-- A plain text gives a plain part. -/
theorem plain_ofTokens {segment : List Char} {tokens : List Token} (hplain : PlainText segment)
    (hwhole : '/' ∉ segment) (h : compile segment = .ok tokens) : (Part.ofTokens tokens).Plain := by
  unfold Part.ofTokens
  split
  next name hliteral =>
    obtain rfl := literal?_of_compileFrom h hliteral
    have hdot : name ≠ ['.'] := by
      rintro rfl
      exact (hplain.dotless rfl).1 ⟨_, rfl, by decide⟩
    have hdots : name ≠ ['.', '.'] := by
      rintro rfl
      exact (hplain.dotless rfl).2 ⟨_, rfl, by decide⟩
    exact proper_encode_iff.mpr ⟨hplain.nonempty, hdot, hdots, hwhole⟩
  next =>
    split
    next => trivial
    next =>
      intro hhead
      obtain ⟨hcurrent, hparent⟩ := hplain.dotless (head?_of_compile h hhead)
      rw [matches_iff_of_compile h, Bool.not_eq_true] at hcurrent hparent
      exact ⟨hcurrent, hparent⟩

theorem mem_of_mem_collapseDepth {part : Part} {parts : List Part}
    (h : part ∈ collapseDepth parts) : part ∈ parts := by
  induction parts with
  | nil => exact h
  | cons first rest ih =>
    cases first with
    | anyDepth =>
      rw [collapseDepth] at h
      split at h
      next others hothers =>
        rcases List.mem_cons.mp h with rfl | hmem
        · exact List.mem_cons_self
        · exact List.mem_cons_of_mem _ (ih (hothers ▸ List.mem_cons_of_mem _ hmem))
      next =>
        rcases List.mem_cons.mp h with rfl | hmem
        · exact List.mem_cons_self
        · exact List.mem_cons_of_mem _ (ih hmem)
    | literal _ | wild _ =>
      rw [collapseDepth.eq_3 _ _ (by simp)] at h
      rcases List.mem_cons.mp h with rfl | hmem
      · exact List.mem_cons_self
      · exact List.mem_cons_of_mem _ (ih hmem)

theorem notMem_of_mem_componentTexts {body segment : List Char}
    (h : segment ∈ componentTexts body) : '/' ∉ segment := by
  unfold componentTexts at h
  dsimp only at h
  split at h
  next => exact Text.notMem_of_mem_segments (List.dropLast_subset _ h)
  next => exact Text.notMem_of_mem_segments h

/-- What is compiled from some texts is compiled from one of them. -/
theorem exists_compile_of_mapM {texts : List (List Char)} {compiled : List (List Token)}
    (h : texts.mapM compile = .ok compiled) :
    ∀ tokens ∈ compiled, ∃ text ∈ texts, compile text = .ok tokens := by
  induction texts generalizing compiled with
  | nil =>
    obtain rfl := Except.ok.inj h
    exact List.forall_mem_nil _
  | cons text rest ih =>
    rw [List.mapM_cons, Error.bind_eq_ok_iff] at h
    obtain ⟨first, hfirst, h⟩ := h
    obtain ⟨others, hothers, hcompiled⟩ := Error.bind_eq_ok_iff.mp h
    obtain rfl := Except.ok.inj hcompiled
    refine List.forall_mem_cons.mpr ⟨⟨text, List.mem_cons_self, hfirst⟩, ?_⟩
    intro tokens htokens
    obtain ⟨other, hother, hcompile⟩ := ih hothers tokens htokens
    exact ⟨other, List.mem_cons_of_mem _ hother, hcompile⟩

/-- A pattern whose components are plain has plain parts, unless it has no component. -/
theorem plain_of_parts {pattern : List Char} {found : List Part} (hplain : PlainPattern pattern)
    (h : parts pattern = .ok found) : found = [.literal []] ∨ ∀ part ∈ found, part.Plain := by
  have hparts : parts pattern = if (bodyText pattern).isEmpty then .ok [.literal []]
      else do
        let tokens ← (componentTexts (bodyText pattern)).mapM compile
        return collapseDepth (tokens.map Part.ofTokens) := rfl
  rw [hparts] at h
  split at h
  next => exact Or.inl (Except.ok.inj h).symm
  next =>
    obtain ⟨compiled, hcompiled, hfound⟩ := Error.bind_eq_ok_iff.mp h
    obtain rfl := Except.ok.inj hfound
    refine Or.inr fun part hpart => ?_
    obtain ⟨tokens, htokens, rfl⟩ := List.mem_map.mp (mem_of_mem_collapseDepth hpart)
    obtain ⟨text, htext, hcompile⟩ := exists_compile_of_mapM hcompiled tokens htokens
    exact plain_ofTokens (hplain text htext) (notMem_of_mem_componentTexts htext) hcompile

theorem normal_root : Normal (ofString "/") := ⟨[], List.forall_mem_nil _, rfl⟩

/-- A plain pattern from the root lists normal paths. -/
theorem normal_of_directories {fs : FileSystem} (hfs : fs.root.WellNamed) {pattern : List Char}
    (habsolute : Text.isRooted '/' pattern = true) (hplain : PlainPattern pattern)
    {found : List FilePath} (h : directories fs pattern = .ok found) :
    ∀ directory ∈ found, Normal directory := by
  unfold directories at h
  simp only [Error.bind_eq_ok_iff] at h
  obtain ⟨_, -, parts, hparts, hfound⟩ := h
  obtain rfl := Except.ok.inj hfound
  rw [if_pos habsolute]
  rcases plain_of_parts hplain hparts with rfl | hall
  · -- the pattern is the root itself
    intro directory hdirectory
    have hchild : child (ofString "/") [] = ofString "/" := by decide
    rw [listFrom, hchild] at hdirectory
    split at hdirectory
    next =>
      rw [listFrom] at hdirectory
      exact List.mem_singleton.mp hdirectory ▸ normal_root
    next => cases hdirectory
  · exact normal_of_mem_listFrom hfs parts hall normal_root

/-! ## Escaped names -/

/-- An escaped text matches that text only. -/
theorem matches_escape_iff {name text : List Char} : Matches (escape name) text ↔ text = name := by
  have hcompile : compile (escape name) = .ok (name.map escapedToken ++ []) := by
    have hread := (compileFrom_escape_append name [] 0 true _).mpr ⟨[], rfl, rfl⟩
    rw [List.append_nil] at hread
    exact hread
  rw [matches_iff_of_compile hcompile, accepts_escaped_append]
  simp [accepts]

theorem escape_eq_nil_iff {name : List Char} : escape name = [] ↔ name = [] := by
  cases name with
  | nil => simp [escape]
  | cons c rest =>
    rw [escape_cons, escape_singleton]
    split <;> simp

theorem plainText_escape {name : FileName} (h : Proper name) :
    PlainText (escape (Utf8.decodeLossy name)) := by
  obtain ⟨hne, hdot, hdots, -⟩ := proper_encode_iff.mp h.shownName
  refine ⟨fun hempty => hne (escape_eq_nil_iff.mp hempty), fun _ => ⟨?_, ?_⟩⟩
  · rw [matches_escape_iff]
    exact fun hsame => hdot hsame.symm
  · rw [matches_escape_iff]
    exact fun hsame => hdots hsame.symm

theorem componentTexts_append {front back : List Char} :
    componentTexts (front ++ '/' :: back) = segments '/' front ++ componentTexts back := by
  have hne : segments '/' back ≠ [] := segments_ne_nil back
  unfold componentTexts
  dsimp only
  have hlast : (segments '/' front ++ segments '/' back).getLast? =
      (segments '/' back).getLast? := by
    rw [List.getLast?_append, List.getLast?_eq_some_getLast hne]
    rfl
  rw [segments_append_separator, hlast]
  split
  next => rw [List.dropLast_append_of_ne_nil hne]
  next => rfl

end Glob

namespace Workspaces

open Glob Text

variable {root : FilePath} {pattern : String}

theorem isRooted_rooted (h : Normal root) (pattern : String) :
    isRooted '/' (rooted root pattern) = true := by
  cases habsolute : (ofString pattern).isAbsolute with
  | true =>
    rw [rooted_of_isAbsolute _ habsolute, ← isAbsolute_ofString, habsolute]
  | false =>
    obtain ⟨names, -, rfl⟩ := h
    have hroot : isRooted '/' (withSeparator '/' (ofNames true names).chars) = true := by
      rw [isRooted_withSeparator, chars_ofNames]
      rfl
    obtain ⟨rest, hrest⟩ := isRooted_iff.mp hroot
    rw [rooted_of_relative _ habsolute, hrest, escape_cons]
    rfl

/-- Below a root a plain pattern stays plain. -/
theorem plainPattern_rooted (h : Normal root) (hplain : PlainPattern pattern.toList) :
    PlainPattern (rooted root pattern) := by
  cases habsolute : (ofString pattern).isAbsolute with
  | true =>
    rw [rooted_of_isAbsolute _ habsolute]
    exact hplain
  | false =>
    have hbody : bodyText pattern.toList = pattern.toList :=
      if_neg (Bool.eq_false_iff.mp (isAbsolute_ofString pattern ▸ habsolute))
    rw [PlainPattern, hbody] at hplain
    obtain ⟨names, hnames, rfl⟩ := h
    rw [rooted_of_relative _ habsolute]
    cases names with
    | nil => exact hplain
    | cons name rest =>
      have hwhole : ∀ text ∈ (name :: rest).map Utf8.decodeLossy, '/' ∉ text := by
        intro text htext
        obtain ⟨own, hown, rfl⟩ := List.mem_map.mp htext
        exact (proper_encode_iff.mp (hnames own hown).shownName).2.2.2
      have hrooted : escape (withSeparator '/' (ofNames true (name :: rest)).chars) ++
            pattern.toList =
          '/' :: (escape (joinSegments '/' ((name :: rest).map Utf8.decodeLossy)) ++
            '/' :: pattern.toList) := by
        rw [withSeparator_chars_ofNames (List.cons_ne_nil _ _) hnames, escape_append, chars_ofNames,
          List.append_assoc]
        rfl
      rw [hrooted, PlainPattern]
      show ∀ segment ∈ componentTexts (escape (joinSegments '/' ((name :: rest).map
        Utf8.decodeLossy)) ++ '/' :: pattern.toList), PlainText segment
      rw [componentTexts_append, keepsSeparators_escape.segments_map,
        segments_joinSegments (by simp) hwhole]
      refine List.forall_mem_append.mpr ⟨?_, hplain⟩
      intro segment hsegment
      obtain ⟨text, htext, rfl⟩ := List.mem_map.mp hsegment
      obtain ⟨own, hown, rfl⟩ := List.mem_map.mp htext
      exact plainText_escape (hnames own hown)

/-- A plain pattern lists normal paths below a normal root. -/
theorem normal_of_directories_rooted {fs : FileSystem} (hfs : fs.root.WellNamed) (h : Normal root)
    (hplain : PlainPattern pattern.toList) {found : List FilePath}
    (hfound : directories fs (rooted root pattern) = .ok found) :
    ∀ directory ∈ found, Normal directory :=
  normal_of_directories hfs (isRooted_rooted h pattern) (plainPattern_rooted h hplain) hfound

end Workspaces

end DocPlan
