import DocPlan.Proofs.ManifestPaths
import DocPlan.Proofs.Orders
import DocPlan.Proofs.RootedPatterns
import Mathlib.Data.List.Forall2
import Mathlib.Data.List.Perm.Basic

/-!
# Which members a workspace has, and in which order

The patterns of a workspace are visited one after the other, and the directories of each in
the order of paths. So a run visits a list of directories, each with the number of its pattern
(`visits`), and keeps those that host a member which is not there yet. What it keeps after some
visits is told by the visits alone (`Keeps`): no two members are the same, each was given by
the first pattern that could give it, and every visited host has its member.

The negated patterns count through what they match only (`excluded_eq_true_iff`), so their
places among the others do not matter.

Main result: `lineup_of_members`.
-/

namespace DocPlan.Workspaces

/-! ## Patterns by their texts -/

/-- The pattern that a text negates. -/
def negated? (text : String) : Option String :=
  match text.toList with
  | '!' :: negated => some (String.ofList negated)
  | _ => none

/-- The texts that list directories. -/
def includes (texts : List String) : List String := texts.filter fun text => (negated? text).isNone

/-- The patterns that exclude directories. -/
def excludes (texts : List String) : List String := texts.filterMap negated?

/-- A manifest declares the members of its workspace by texts. -/
def Declares (root : Manifest) (texts : List String) : Prop :=
  ∃ field, Keyed.get? "workspaces" root.raw = some field ∧
    patternValues field = .ok (texts.map .string)

/-- A pattern, seen from a root, matches the text of a directory. None matches a directory whose
path is no text. -/
def Matches (root : FilePath) (pattern : String) (directory : FilePath) : Prop :=
  ∃ text, directory.text? = some text ∧ Glob.Matches (rooted root pattern) text

/-- A pattern lists a directory. -/
def Lists (fs : FileSystem) (root : FilePath) (pattern : String) (directory : FilePath) : Prop :=
  ∃ found, Glob.directories fs (rooted root pattern) = .ok found ∧ directory ∈ found

/-- The patterns are those of texts. -/
structure Patterns.Reads (root : FilePath) (texts : List String) (patterns : Patterns) : Prop where
  includes : patterns.includes = Workspaces.includes texts
  excludes : List.Forall₂ (fun pattern tokens => Glob.compile (rooted root pattern) = .ok tokens)
    (Workspaces.excludes texts) patterns.excludes

variable {fs : FileSystem} {root : FilePath} {texts : List String} {patterns : Patterns}

theorem add_string (patterns : Patterns) (text : String) :
    patterns.add root (.string text) =
      match negated? text with
      | none => .ok { patterns with includes := patterns.includes ++ [text] }
      | some pattern =>
        match Glob.compile (rooted root pattern) with
        | .ok tokens => .ok { patterns with excludes := patterns.excludes ++ [tokens] }
        | .error error => .error (badPattern pattern error) := by
  unfold Patterns.add negated?
  dsimp only
  generalize text.toList = chars
  cases chars with
  | nil => rfl
  | cons c rest =>
    by_cases hnegated : c = '!'
    · subst hnegated
      rfl
    · simp [hnegated]

theorem exists_texts_of_foldlM_add {values : List Json} {start : Patterns}
    (h : values.foldlM (Patterns.add root) start = .ok patterns) :
    ∃ texts : List String, values = texts.map .string := by
  induction values generalizing start with
  | nil => exact ⟨[], rfl⟩
  | cons value rest ih =>
    rw [List.foldlM_cons, Error.bind_eq_ok_iff] at h
    obtain ⟨next, hnext, hrest⟩ := h
    obtain ⟨texts, rfl⟩ := ih hrest
    cases value with
    | string text => exact ⟨text :: texts, rfl⟩
    | _ => cases hnext

/-- Adding patterns succeeds when every negated one is a pattern. -/
theorem foldlM_add_eq_ok_iff {start : Patterns} :
    (texts.map Json.string).foldlM (Patterns.add root) start = .ok patterns ↔
      ∃ tokens, patterns = ⟨start.includes ++ includes texts, start.excludes ++ tokens⟩ ∧
        List.Forall₂ (fun pattern tokens => Glob.compile (rooted root pattern) = .ok tokens)
          (excludes texts) tokens := by
  induction texts generalizing start with
  | nil =>
    obtain ⟨included, excluding⟩ := start
    simp [includes, excludes, pure, Except.pure, eq_comm]
  | cons text rest ih =>
    rw [List.map_cons, List.foldlM_cons, add_string, Error.bind_eq_ok_iff]
    cases hnegated : negated? text with
    | none =>
      have hincludes : includes (text :: rest) = text :: includes rest := by
        simp [includes, hnegated]
      have hexcludes : excludes (text :: rest) = excludes rest := by simp [excludes, hnegated]
      simp only [Except.ok.injEq, exists_eq_left', ih, hincludes, hexcludes, List.append_assoc,
        List.singleton_append]
    | some pattern =>
      have hincludes : includes (text :: rest) = includes rest := by simp [includes, hnegated]
      have hexcludes : excludes (text :: rest) = pattern :: excludes rest := by
        simp [excludes, hnegated]
      rw [hincludes, hexcludes]
      cases hcompile : Glob.compile (rooted root pattern) with
      | error error => simp [List.forall₂_cons_left_iff, hcompile]
      | ok first =>
        simp [ih, List.forall₂_cons_left_iff, hcompile]

theorem ofValues_eq_ok_iff {values : List Json} :
    Patterns.ofValues root values = .ok patterns ↔
      ∃ texts, values = texts.map .string ∧ patterns.Reads root texts := by
  have hreads : ∀ texts : List String,
      Patterns.ofValues root (texts.map .string) = .ok patterns ↔ patterns.Reads root texts := by
    intro texts
    rw [Patterns.ofValues, foldlM_add_eq_ok_iff]
    constructor
    · rintro ⟨tokens, rfl, hread⟩
      exact ⟨rfl, hread⟩
    · rintro ⟨hincludes, hread⟩
      exact ⟨patterns.excludes, by rw [← hincludes]; rfl, hread⟩
  constructor
  · intro h
    obtain ⟨texts, rfl⟩ := exists_texts_of_foldlM_add h
    exact ⟨texts, rfl, (hreads texts).mp h⟩
  · rintro ⟨texts, rfl, h⟩
    exact (hreads texts).mpr h

theorem excluded_eq_true_iff (h : patterns.Reads root texts) {directory : FilePath} :
    excluded patterns directory = true ↔
      ∃ pattern ∈ excludes texts, Matches root pattern directory := by
  have hany : ∀ {negated : List String} {excluding : List (List Glob.Token)} {text : List Char},
      List.Forall₂ (fun pattern tokens => Glob.compile (rooted root pattern) = .ok tokens)
        negated excluding →
      (excluding.any (Glob.accepts · text) = true ↔
        ∃ pattern ∈ negated, Glob.Matches (rooted root pattern) text) := by
    intro negated excluding text hread
    induction hread with
    | nil => simp
    | @cons pattern tokens _ _ hcompile _ ih =>
      rw [List.any_cons, Bool.or_eq_true, ih, List.exists_mem_cons_iff,
        Glob.matches_iff_of_compile hcompile]
  unfold excluded Matches
  cases directory.text? with
  | none => simp
  | some text =>
    rw [Option.any_some, hany h.excludes]
    simp

/-- The same patterns in which the negated ones have other places. -/
theorem exists_reads_of_perm (h : patterns.Reads root texts) {moved : List String}
    (hincludes : includes moved = includes texts)
    (hexcludes : (excludes moved).Perm (excludes texts)) :
    ∃ others : Patterns, others.Reads root moved ∧ others.includes = patterns.includes ∧
      ∀ directory, excluded others directory = excluded patterns directory := by
  obtain ⟨tokens, hread, hperm⟩ := List.perm_comp_forall₂ hexcludes h.excludes
  refine ⟨⟨patterns.includes, tokens⟩, ⟨h.includes.trans hincludes.symm, hread⟩, rfl, ?_⟩
  intro directory
  exact congrArg (directory.text?.any ·) (funext fun _ => hperm.any_eq)

/-! ## Visits -/

/-- A directory that is visited, with the number of the pattern that lists it. -/
structure Visit where
  index : Nat
  directory : FilePath

/-- The member that a visit may give. -/
def Visit.member (visit : Visit) : FilePath := visit.directory.join manifestName

/-- A directory hosts a member: it has a manifest, and no negated pattern matches it. -/
structure Hosts (fs : FileSystem) (root : FilePath) (texts : List String)
    (directory : FilePath) : Prop where
  manifest : fs.isFile (directory.join manifestName) = true
  kept : ∀ pattern ∈ excludes texts, ¬ Matches root pattern directory

/-- What a member is reported as. -/
def announcement (member : FilePath) : Diagnostic :=
  ⟨.info, "WORKSPACE_MEMBER", s!"workspace member {member}"⟩

/-- A directory adds its member, or it hosts none or one that is there already. -/
theorem addMember_cases (h : patterns.Reads root texts) (members : List FilePath)
    (directory : FilePath) :
    (addMember fs patterns members directory = pure members ∧
        (Hosts fs root texts directory →
          ∃ member ∈ members, member.same (directory.join manifestName) = true)) ∨
      (addMember fs patterns members directory =
          ⟨[announcement (directory.join manifestName)],
            members ++ [directory.join manifestName]⟩ ∧
        Hosts fs root texts directory ∧
        ∀ member ∈ members, member.same (directory.join manifestName) = false) := by
  unfold addMember
  simp only
  split
  next hskip =>
    refine Or.inl ⟨rfl, fun hhosts => ?_⟩
    have hkept : excluded patterns directory = false := by
      apply Bool.eq_false_iff.mpr
      intro hexcluded
      obtain ⟨pattern, hpattern, hmatches⟩ := (excluded_eq_true_iff h).mp hexcluded
      exact hhosts.kept pattern hpattern hmatches
    simpa [hhosts.manifest, hkept] using hskip
  next hadd =>
    obtain ⟨⟨hmanifest, hnew⟩, hkept⟩ :
        (fs.isFile (directory.join manifestName) = true ∧
          ∀ member ∈ members, member.same (directory.join manifestName) = false) ∧
        excluded patterns directory = false := by
      simpa using hadd
    refine Or.inr ⟨rfl, ⟨hmanifest, fun pattern hpattern hmatches => ?_⟩, hnew⟩
    rw [(excluded_eq_true_iff h).mpr ⟨pattern, hpattern, hmatches⟩] at hkept
    cases hkept

/-- The visits whose members are kept, after all that was seen. -/
structure Keeps (fs : FileSystem) (root : FilePath) (texts : List String)
    (seen kept : List Visit) : Prop where
  sublist : kept.Sublist seen
  hosts : ∀ visit ∈ kept, Hosts fs root texts visit.directory
  distinct : kept.Pairwise fun visit later => visit.member.same later.member = false
  first : ∀ visit ∈ kept, ∀ other ∈ seen, Hosts fs root texts other.directory →
    visit.member.same other.member = true → visit.index ≤ other.index
  complete : ∀ visit ∈ seen, Hosts fs root texts visit.directory →
    ∃ found ∈ kept, found.member.same visit.member = true

theorem keeps_nil : Keeps fs root texts [] [] where
  sublist := List.Sublist.refl []
  hosts := List.forall_mem_nil _
  distinct := List.Pairwise.nil
  first := List.forall_mem_nil _
  complete := List.forall_mem_nil _

variable {seen kept : List Visit}

/-- One more visit keeps its member or leaves what is kept. -/
theorem Keeps.step (h : Keeps fs root texts seen kept) (hread : patterns.Reads root texts)
    {visit : Visit} (hlast : ∀ earlier ∈ seen, earlier.index ≤ visit.index) :
    ∃ new, Keeps fs root texts (seen ++ [visit]) (kept ++ new) ∧
      addMember fs patterns (kept.map (·.member)) visit.directory =
        ⟨new.map (announcement ·.member), (kept ++ new).map (·.member)⟩ := by
  rcases addMember_cases hread (kept.map (·.member)) visit.directory with
    ⟨hadd, hthere⟩ | ⟨hadd, hhosts, hnew⟩
  · refine ⟨[], ?_, by rw [hadd, List.append_nil]; rfl⟩
    rw [List.append_nil]
    exact {
      sublist := h.sublist.trans (List.sublist_append_left seen [visit])
      hosts := h.hosts
      distinct := h.distinct
      first := by
        intro found hfound other hother hhosts hsame
        rcases List.mem_append.mp hother with hold | hvisit
        · exact h.first found hfound other hold hhosts hsame
        · rw [List.mem_singleton.mp hvisit]
          exact hlast found (h.sublist.subset hfound)
      complete := by
        intro other hother hhosts
        rcases List.mem_append.mp hother with hold | hvisit
        · exact h.complete other hold hhosts
        · obtain rfl := List.mem_singleton.mp hvisit
          obtain ⟨member, hmember, hsame⟩ := hthere hhosts
          obtain ⟨found, hfound, rfl⟩ := List.mem_map.mp hmember
          exact ⟨found, hfound, hsame⟩ }
  · have hdifferent : ∀ found ∈ kept, found.member.same visit.member = false :=
      fun found hfound => hnew found.member (List.mem_map_of_mem hfound)
    refine ⟨[visit], ?_, by rw [hadd, List.map_append]; rfl⟩
    exact {
      sublist := h.sublist.append (List.Sublist.refl [visit])
      hosts := by
        intro found hfound
        rcases List.mem_append.mp hfound with hold | hvisit
        · exact h.hosts found hold
        · exact List.mem_singleton.mp hvisit ▸ hhosts
      distinct := by
        refine List.pairwise_append.mpr ⟨h.distinct, List.pairwise_singleton _ _, ?_⟩
        intro found hfound other hother
        rw [List.mem_singleton.mp hother]
        exact hdifferent found hfound
      first := by
        intro found hfound other hother hhosts' hsame
        rcases List.mem_append.mp hfound with hold | hvisit
        · rcases List.mem_append.mp hother with hseen | hlast'
          · exact h.first found hold other hseen hhosts' hsame
          · rw [List.mem_singleton.mp hlast'] at hsame
            rw [hdifferent found hold] at hsame
            cases hsame
        · obtain rfl := List.mem_singleton.mp hvisit
          rcases List.mem_append.mp hother with hseen | hlast'
          · -- an earlier visit with the same member would have kept it
            obtain ⟨earlier, hearlier, hsame'⟩ := h.complete other hseen hhosts'
            have hclash : earlier.member.same found.member = true := by
              rw [FilePath.same_iff] at hsame hsame' ⊢
              exact hsame'.trans hsame.symm
            rw [hdifferent earlier hearlier] at hclash
            cases hclash
          · rw [List.mem_singleton.mp hlast']
      complete := by
        intro other hother hhosts'
        rcases List.mem_append.mp hother with hold | hvisit
        · obtain ⟨found, hfound, hsame⟩ := h.complete other hold hhosts'
          exact ⟨found, List.mem_append_left _ hfound, hsame⟩
        · rw [List.mem_singleton.mp hvisit]
          exact ⟨visit, List.mem_append_right _ (List.mem_singleton_self visit),
            FilePath.same_self _⟩ }

/-- All visits together keep what each of them does. -/
theorem Keeps.run (h : Keeps fs root texts seen kept) (hread : patterns.Reads root texts)
    {visits : List Visit} (hsorted : (seen ++ visits).Pairwise fun visit later =>
      visit.index ≤ later.index) :
    ∃ new, Keeps fs root texts (seen ++ visits) (kept ++ new) ∧
      addMembers fs patterns (kept.map (·.member)) (visits.map (·.directory)) =
        ⟨new.map (announcement ·.member), (kept ++ new).map (·.member)⟩ := by
  induction visits generalizing seen kept with
  | nil =>
    refine ⟨[], ?_, by rw [List.append_nil]; rfl⟩
    rw [List.append_nil, List.append_nil]
    exact h
  | cons visit rest ih =>
    have hlast : ∀ earlier ∈ seen, earlier.index ≤ visit.index :=
      fun earlier hearlier =>
        (List.pairwise_append.mp hsorted).2.2 earlier hearlier visit List.mem_cons_self
    obtain ⟨first, hfirst, hadd⟩ := h.step hread hlast
    have hassoc : seen ++ visit :: rest = seen ++ [visit] ++ rest := by simp
    rw [hassoc] at hsorted ⊢
    obtain ⟨others, hothers, hrest⟩ := ih hfirst hsorted
    refine ⟨first ++ others, by rw [← List.append_assoc]; exact hothers, ?_⟩
    rw [addMembers] at hrest
    rw [addMembers, List.map_cons, List.foldlM_cons, hadd]
    show Noted.bind _ _ = _
    rw [Noted.bind]
    simp only
    rw [hrest]
    simp only [List.map_append, List.append_assoc]

/-! ## The patterns of a workspace -/

/-- The directories that a pattern lists, in the order of paths; none if it is no pattern. -/
def sortedListing (fs : FileSystem) (root : FilePath) (pattern : String) : List FilePath :=
  (listed fs root pattern).toOption.getD []

/-- The visits of numbered patterns. -/
def visits (fs : FileSystem) (root : FilePath) (entries : List (String × Nat)) : List Visit :=
  entries.flatMap fun entry => (sortedListing fs root entry.1).map fun directory =>
    ⟨entry.2, directory⟩

theorem mem_sortedListing_iff {pattern : String} {directory : FilePath} :
    directory ∈ sortedListing fs root pattern ↔ Lists fs root pattern directory := by
  unfold sortedListing listed Lists
  cases Glob.directories fs (rooted root pattern) with
  | error error => simp [Except.toOption]
  | ok found => simp [Except.toOption, List.mem_mergeSort]

theorem pairwise_sortedListing (fs : FileSystem) (root : FilePath) (pattern : String) :
    (sortedListing fs root pattern).Pairwise fun directory later =>
      (directory.compare later).isLE = true := by
  unfold sortedListing listed
  cases Glob.directories fs (rooted root pattern) with
  | error error => exact List.Pairwise.nil
  | ok found => exact FilePath.pairwise_mergeSort_le found

/-- Visits go by the numbers of their patterns, and for each pattern in the order of paths. -/
def Visit.Before (visit later : Visit) : Prop :=
  visit.index < later.index ∨
    visit.index = later.index ∧ (visit.directory.compare later.directory).isLE = true

theorem Visit.Before.index_le {visit later : Visit} (h : visit.Before later) :
    visit.index ≤ later.index :=
  h.elim Nat.le_of_lt fun hsame => hsame.1.le

theorem pairwise_visits (fs : FileSystem) (root : FilePath) {entries : List (String × Nat)}
    (h : entries.Pairwise fun entry later => entry.2 < later.2) :
    (visits fs root entries).Pairwise Visit.Before := by
  refine List.pairwise_flatMap.mpr ⟨fun entry _ => ?_, h.imp ?_⟩
  · refine List.pairwise_map.mpr ((pairwise_sortedListing fs root entry.1).imp fun hle => ?_)
    exact Or.inr ⟨rfl, hle⟩
  · intro entry laterEntry hlt visit hvisit later hlater
    obtain ⟨_, -, rfl⟩ := List.mem_map.mp hvisit
    obtain ⟨_, -, rfl⟩ := List.mem_map.mp hlater
    exact Or.inl hlt

/-- The patterns of a workspace are visited with their places in the list. -/
theorem pairwise_visits_zipIdx (fs : FileSystem) (root : FilePath) (patterns : List String) :
    (visits fs root patterns.zipIdx).Pairwise Visit.Before := by
  refine pairwise_visits fs root (List.pairwise_map.mp ?_)
  rw [List.zipIdx_map_snd]
  exact List.pairwise_lt_range'

theorem mem_visits_zipIdx_iff {patterns : List String} {visit : Visit} :
    visit ∈ visits fs root patterns.zipIdx ↔ ∃ pattern, patterns[visit.index]? = some pattern ∧
      Lists fs root pattern visit.directory := by
  unfold visits
  rw [List.mem_flatMap]
  constructor
  · rintro ⟨⟨pattern, index⟩, hentry, hvisit⟩
    obtain ⟨directory, hdirectory, rfl⟩ := List.mem_map.mp hvisit
    exact ⟨pattern, List.mk_mem_zipIdx_iff_getElem?.mp hentry,
      mem_sortedListing_iff.mp hdirectory⟩
  · rintro ⟨pattern, hpattern, hlists⟩
    exact ⟨(pattern, visit.index), List.mk_mem_zipIdx_iff_getElem?.mpr hpattern,
      List.mem_map.mpr ⟨visit.directory, mem_sortedListing_iff.mpr hlists, rfl⟩⟩

/-- A pattern that lists directories adds their members. -/
theorem addListed_of_eq_ok {members next : List FilePath} {pattern : String}
    (h : (addListed fs root patterns members pattern).outcome = .ok next) :
    addListed fs root patterns members pattern =
      liftM (addMembers fs patterns members (sortedListing fs root pattern)) := by
  unfold addListed sortedListing at *
  cases hlisted : listed fs root pattern with
  | error error =>
    rw [hlisted] at h
    cases h
  | ok directories => rfl

/-- One pattern after the other keeps what all their visits do. -/
theorem Keeps.collect (h : Keeps fs root texts seen kept) (hread : patterns.Reads root texts)
    {entries : List (String × Nat)} {found : List FilePath}
    (hsorted : (seen ++ visits fs root entries).Pairwise Visit.Before)
    (hfound : ((entries.map (·.1)).foldlM (addListed fs root patterns)
      (kept.map (·.member))).outcome = .ok found) :
    ∃ new, Keeps fs root texts (seen ++ visits fs root entries) (kept ++ new) ∧
      found = (kept ++ new).map (·.member) ∧
      ((entries.map (·.1)).foldlM (addListed fs root patterns)
        (kept.map (·.member))).diagnostics = new.map (announcement ·.member) := by
  induction entries generalizing seen kept with
  | nil =>
    obtain rfl := Except.ok.inj hfound
    refine ⟨[], ?_, by rw [List.append_nil], rfl⟩
    rw [List.append_nil]
    exact (List.append_nil seen).symm ▸ h
  | cons entry rest ih =>
    have hvisits : visits fs root (entry :: rest) =
        (sortedListing fs root entry.1).map (⟨entry.2, ·⟩) ++ visits fs root rest :=
      List.flatMap_cons
    rw [hvisits, ← List.append_assoc] at hsorted ⊢
    rw [List.map_cons, List.foldlM_cons, Report.outcome_bind, Error.bind_eq_ok_iff] at hfound
    obtain ⟨next, hnext, hfound⟩ := hfound
    have hadd := addListed_of_eq_ok hnext
    obtain ⟨first, hfirst, hrun⟩ := h.run hread
      ((List.pairwise_append.mp hsorted).1.imp Visit.Before.index_le)
    have hdirectories : ((sortedListing fs root entry.1).map (Visit.mk entry.2)).map
        (·.directory) = sortedListing fs root entry.1 := by
      rw [List.map_map]
      exact List.map_id _
    rw [hdirectories] at hrun
    rw [hrun] at hadd
    obtain rfl : (kept ++ first).map (·.member) = next := by
      rw [hadd] at hnext
      exact Except.ok.inj hnext
    obtain ⟨others, hothers, hmembers, hreports⟩ := ih hfirst hsorted hfound
    refine ⟨first ++ others, by rw [← List.append_assoc]; exact hothers,
      by rw [← List.append_assoc]; exact hmembers, ?_⟩
    rw [List.map_cons, List.foldlM_cons, Report.diagnostics_bind, hadd, Report.outcome_noted,
      Report.diagnostics_noted]
    show first.map (announcement ·.member) ++ ((rest.map (·.1)).foldlM
      (addListed fs root patterns) ((kept ++ first).map (·.member))).diagnostics = _
    rw [hreports, List.map_append]

/-! ## Members -/

/-- A pattern gives a member: it lists a directory that hosts it. -/
def Gives (fs : FileSystem) (root : FilePath) (texts : List String) (pattern : String)
    (member : FilePath) : Prop :=
  ∃ directory, Lists fs root pattern directory ∧ Hosts fs root texts directory ∧
    member.same (directory.join manifestName) = true

/-- The pattern at a place is the first one that gives a member. -/
def FirstGives (fs : FileSystem) (root : FilePath) (texts : List String) (index : Nat)
    (member : FilePath) : Prop :=
  (∃ pattern, (includes texts)[index]? = some pattern ∧ Gives fs root texts pattern member) ∧
    ∀ other pattern, (includes texts)[other]? = some pattern →
      Gives fs root texts pattern member → index ≤ other

/-- A member comes before another: an earlier pattern gives it, or the same pattern does and
its directory comes earlier in the order of paths. -/
def Precedes (fs : FileSystem) (root : FilePath) (texts : List String)
    (member later : FilePath) : Prop :=
  ∃ index laterIndex, FirstGives fs root texts index member ∧
    FirstGives fs root texts laterIndex later ∧
    (index < laterIndex ∨ index = laterIndex ∧ ∃ directory laterDirectory : FilePath,
      member = directory.join manifestName ∧ later = laterDirectory.join manifestName ∧
        directory.compare laterDirectory = .lt)

/-- The members of a workspace with such texts, and what is reported of them. -/
structure Lineup (fs : FileSystem) (root : Manifest) (texts : List String)
    (found : List FilePath) : Prop where
  distinct : found.Pairwise fun member later => member.same later = false
  hosted : ∀ member ∈ found, ∃ pattern ∈ includes texts, ∃ directory,
    Lists fs root.directory pattern directory ∧ Hosts fs root.directory texts directory ∧
      member = directory.join manifestName
  complete : ∀ path, (∃ member ∈ found, path.same member = true) ↔
    ∃ pattern ∈ includes texts, Gives fs root.directory texts pattern path
  ordered : found.Pairwise (Precedes fs root.directory texts)
  reported : (members fs root).diagnostics = found.map announcement

theorem Keeps.firstGives (h : Keeps fs root texts (visits fs root (includes texts).zipIdx) kept)
    {visit : Visit} (hvisit : visit ∈ kept) :
    FirstGives fs root texts visit.index visit.member := by
  obtain ⟨pattern, hpattern, hlists⟩ := mem_visits_zipIdx_iff.mp (h.sublist.subset hvisit)
  refine ⟨⟨pattern, hpattern, visit.directory, hlists, h.hosts visit hvisit,
    FilePath.same_self _⟩, ?_⟩
  rintro other otherPattern hother ⟨directory, hlists', hhosts, hsame⟩
  exact h.first visit hvisit ⟨other, directory⟩
    (mem_visits_zipIdx_iff.mpr ⟨otherPattern, hother, hlists'⟩) hhosts hsame

/-- What is kept of visits in their order comes in the order of members. -/
theorem Keeps.ordered (h : Keeps fs root texts (visits fs root (includes texts).zipIdx) kept) :
    (kept.map (·.member)).Pairwise (Precedes fs root texts) := by
  have hbefore := (pairwise_visits_zipIdx fs root (includes texts)).sublist h.sublist
  refine List.pairwise_map.mpr ((hbefore.and h.distinct).imp_of_mem ?_)
  rintro visit later hvisit hlater ⟨hbefore, hdistinct⟩
  refine ⟨visit.index, later.index, h.firstGives hvisit, h.firstGives hlater, ?_⟩
  refine hbefore.imp_right fun ⟨hindex, hle⟩ => ⟨hindex, _, _, rfl, rfl, ?_⟩
  cases horder : visit.directory.compare later.directory with
  | lt => rfl
  | eq =>
    have hsame := FilePath.same_join_manifest.mpr (FilePath.compare_eq_iff.mp horder)
    rw [Visit.member, Visit.member, hsame] at hdistinct
    cases hdistinct
  | gt =>
    rw [horder] at hle
    cases hle

/-- A member that is kept stands in a directory that hosts it. -/
theorem Keeps.exists_host (h : Keeps fs root texts (visits fs root (includes texts).zipIdx) kept) :
    ∀ member ∈ kept.map (·.member), ∃ pattern ∈ includes texts, ∃ directory,
      Lists fs root pattern directory ∧ Hosts fs root texts directory ∧
        member = directory.join manifestName := by
  intro member hmember
  obtain ⟨visit, hvisit, rfl⟩ := List.mem_map.mp hmember
  obtain ⟨pattern, hpattern, hlists⟩ := mem_visits_zipIdx_iff.mp (h.sublist.subset hvisit)
  exact ⟨pattern, List.mem_of_getElem? hpattern, visit.directory, hlists, h.hosts visit hvisit,
    rfl⟩

/-- A pattern gives a member when a visit of it keeps one that is the same. -/
theorem Keeps.exists_same_iff
    (h : Keeps fs root texts (visits fs root (includes texts).zipIdx) kept) (path : FilePath) :
    (∃ member ∈ kept.map (·.member), path.same member = true) ↔
      ∃ pattern ∈ includes texts, Gives fs root texts pattern path := by
  constructor
  · rintro ⟨member, hmember, hsame⟩
    obtain ⟨pattern, hpattern, directory, hlists, hhosts, rfl⟩ := h.exists_host member hmember
    exact ⟨pattern, hpattern, directory, hlists, hhosts, hsame⟩
  · rintro ⟨pattern, hpattern, directory, hlists, hhosts, hsame⟩
    obtain ⟨index, hindex⟩ := List.mem_iff_getElem?.mp hpattern
    obtain ⟨visit, hvisit, hmember⟩ := h.complete ⟨index, directory⟩
      (mem_visits_zipIdx_iff.mpr ⟨pattern, hindex, hlists⟩) hhosts
    refine ⟨visit.member, List.mem_map_of_mem hvisit, ?_⟩
    rw [FilePath.same_iff] at hsame hmember ⊢
    exact hsame.trans hmember.symm

/-- Two lists of patterns that exclude the same directories add the same members. -/
theorem addListed_congr {others : Patterns}
    (h : ∀ directory, excluded others directory = excluded patterns directory) :
    addListed fs root others = addListed fs root patterns := by
  have hmember : addMember fs others = addMember fs patterns := by
    funext members directory
    unfold addMember
    rw [h]
  funext members pattern
  unfold addListed addMembers
  rw [hmember]

theorem members_of_declares {root : Manifest} (h : Declares root texts)
    (hread : patterns.Reads root.directory texts) :
    members fs root = do
      let found ← patterns.includes.foldlM (addListed fs root.directory patterns) []
      return some found := by
  obtain ⟨field, hfield, hvalues⟩ := h
  have hpatterns : Patterns.ofValues root.directory (texts.map .string) = .ok patterns :=
    ofValues_eq_ok_iff.mpr ⟨texts, rfl, hread⟩
  unfold members
  rw [hfield]
  simp only [hvalues]
  show (liftM (Patterns.ofValues root.directory (texts.map .string)) >>= _ : Report _) = _
  rw [hpatterns]
  rfl

/-- A workspace with members declares them by texts, whose negated patterns can be read. -/
theorem exists_reads_of_members {root : Manifest} {found : List FilePath}
    (h : (members fs root).outcome = .ok (some found)) :
    ∃ (texts : List String) (patterns : Patterns),
      Declares root texts ∧ patterns.Reads root.directory texts := by
  unfold members at h
  split at h
  next => cases h
  next field hfield =>
    simp only [Report.outcome_bind, Error.bind_eq_ok_iff, Report.outcome_except] at h
    obtain ⟨values, hvalues, patterns, hpatterns, -⟩ := h
    obtain ⟨texts, rfl, hread⟩ := ofValues_eq_ok_iff.mp hpatterns
    exact ⟨texts, patterns, ⟨field, hfield, hvalues⟩, hread⟩

/-- The texts of a workspace are told by its manifest. -/
theorem Declares.unique {root : Manifest} {others : List String} (h : Declares root texts)
    (hothers : Declares root others) : texts = others := by
  obtain ⟨field, hfield, hvalues⟩ := h
  obtain ⟨field', hfield', hvalues'⟩ := hothers
  obtain rfl := Option.some.inj (hfield.symm.trans hfield')
  exact List.map_injective_iff.mpr (fun _ _ => Json.string.inj)
    (Except.ok.inj (hvalues.symm.trans hvalues'))

/-- What a workspace with members keeps of its visits, and what it reports. -/
theorem exists_keeps_of_members {root : Manifest} {found : List FilePath}
    (hdeclares : Declares root texts) (h : (members fs root).outcome = .ok (some found)) :
    ∃ kept, Keeps fs root.directory texts (visits fs root.directory (includes texts).zipIdx) kept ∧
      found = kept.map (·.member) ∧
      (members fs root).diagnostics = kept.map (announcement ·.member) := by
  obtain ⟨others, patterns, hothers, hread⟩ := exists_reads_of_members h
  obtain rfl := hdeclares.unique hothers
  have hmembers : members fs root = _ := members_of_declares hdeclares hread
  have hentries : patterns.includes = (includes texts).zipIdx.map (·.1) := by
    rw [hread.includes, List.zipIdx_map_fst]
  rw [hentries] at hmembers
  rw [hmembers, Report.outcome_bind, Error.bind_eq_ok_iff] at h
  obtain ⟨_, hfound, hsome⟩ := h
  obtain rfl := Option.some.inj (Except.ok.inj hsome)
  obtain ⟨kept, hkeeps, hkept, hreports⟩ := keeps_nil.collect hread
    (pairwise_visits_zipIdx fs root.directory (includes texts)) hfound
  refine ⟨kept, hkeeps, hkept, ?_⟩
  rw [hmembers, Report.diagnostics_bind, hfound]
  exact (List.append_nil _).trans hreports

/-- The members of a workspace are the manifests that its patterns give, each once and in the
order of the patterns that give them first, then of their directories. Each is reported, in the
same order. Negated patterns may stand anywhere in the list. -/
theorem lineup_of_members (fs : FileSystem) (root : Manifest) (found : List FilePath)
    (h : (members fs root).outcome = .ok (some found)) :
    ∃ texts, Declares root texts ∧ Lineup fs root texts found ∧
      ∀ (other : Manifest) (moved : List String), other.directory = root.directory →
        Declares other moved → includes moved = includes texts →
        (excludes moved).Perm (excludes texts) → members fs other = members fs root := by
  obtain ⟨texts, patterns, hdeclares, hread⟩ := exists_reads_of_members h
  refine ⟨texts, hdeclares, ?_, ?_⟩
  · obtain ⟨kept, hkeeps, rfl, hreports⟩ := exists_keeps_of_members hdeclares h
    exact {
      distinct := List.pairwise_map.mpr hkeeps.distinct
      hosted := hkeeps.exists_host
      complete := hkeeps.exists_same_iff
      ordered := hkeeps.ordered
      reported := by rw [hreports, List.map_map]; rfl }
  · intro other moved hdirectory hmoved hincludes hexcludes
    obtain ⟨others, hothers, hsame, hexcluded⟩ := exists_reads_of_perm hread hincludes hexcludes
    rw [members_of_declares hmoved (hdirectory ▸ hothers), members_of_declares hdeclares hread,
      hsame, hdirectory, addListed_congr hexcluded]

/-- Three packages in two directories. -/
def exampleFiles : FileSystem where
  root := .directory [
    ("packages".toList, .directory [
      ("a".toList, .directory [("package.json".toList, .file [])]),
      ("b".toList, .directory [("package.json".toList, .file [])])]),
    ("tools".toList, .directory [
      ("c".toList, .directory [("package.json".toList, .file [])])])]
  workingDirectory := []

/-- A workspace at the root that declares its members by texts. -/
def exampleRoot (texts : List String) : Manifest where
  directory := FilePath.ofString "/"
  path := FilePath.ofString "/package.json"
  name := none
  exports := none
  types := none
  typings := none
  raw := [("workspaces", .array (texts.map .string))]

/-- All packages but one, and one of them twice. -/
def exampleTexts : List String :=
  ["!packages/b", "tools/*", "packages/b", "packages/a", "tools/./c"]

theorem lineup_of_members_of_example :
    ∃ found, (members exampleFiles (exampleRoot exampleTexts)).outcome = .ok (some found) ∧
      found.map FilePath.toString = ["/tools/c/package.json", "/packages/a/package.json"] ∧
      ∃ texts, Declares (exampleRoot exampleTexts) texts ∧
        Lineup exampleFiles (exampleRoot exampleTexts) texts found ∧
        ∀ (other : Manifest) (moved : List String),
          other.directory = (exampleRoot exampleTexts).directory →
          Declares other moved → includes moved = includes texts →
          (excludes moved).Perm (excludes texts) →
          members exampleFiles other = members exampleFiles (exampleRoot exampleTexts) := by
  have hpaths : (members exampleFiles (exampleRoot exampleTexts)).outcome.toOption.map
      (·.map fun found => found.map FilePath.toString) =
        some (some ["/tools/c/package.json", "/packages/a/package.json"]) := by decide +kernel
  obtain ⟨found?, hfound?, hsome⟩ := Option.map_eq_some_iff.mp hpaths
  obtain ⟨found, rfl, hnames⟩ := Option.map_eq_some_iff.mp hsome
  have hmembers := Error.toOption_eq_some_iff.mp hfound?
  exact ⟨found, hmembers, hnames,
    lineup_of_members exampleFiles (exampleRoot exampleTexts) found hmembers⟩

end DocPlan.Workspaces
