import DocPlan.Proofs.PluginsAndNames
import Mathlib.Logic.Basic

/-!
# Tables of display names

A table lists every module where it is first named, with the name that it got there. A module may
be named again with the same name; with another name the call fails. Either way the table stays as
it is, so after any calls it lists the first call for each module (`entries_afterCalls`).

One table is folded into another by naming its modules there, one after the other. That works when
the tables agree on the modules they share (`extend_eq_none_iff`), whichever is folded into which.
It stops at the first collision, and what was named before it stays named: a fold that fails may
leave the table longer than it was (`failed_fold_lengthens`).

Main results: `first_names_stay`, `failed_fold_keeps_fresh`.
-/

namespace DocPlan.ModuleNames

/-! ## One call -/

/-- Two entries do not give one module different names. -/
def Agree (entry other : String × String) : Prop := entry.1 = other.1 → entry.2 = other.2

/-- Lists a module, unless it is listed. -/
def addEntry (entries : List (String × String)) (entry : String × String) :
    List (String × String) :=
  if entries.any (entry.1 == ·.1) then entries else entries ++ [entry]

theorem any_key_eq_true_iff {module : String} {entries : List (String × String)} :
    entries.any (module == ·.1) = true ↔ module ∈ Keyed.keys entries := by
  rw [List.any_eq_true, Keyed.keys, List.mem_map]
  simp only [beq_iff_eq]
  exact exists_congr fun entry => and_congr_right fun _ => eq_comm

/-- A module may be named unless it has another name, and is then listed. -/
theorem insert_eq_ok_iff {names result : ModuleNames} {module display : String} :
    names.insert module display = .ok result ↔
      (∀ existing, names.get? module = some existing → existing = display) ∧
        result.entries = addEntry names.entries (module, display) := by
  obtain ⟨entries⟩ := names
  obtain ⟨found⟩ := result
  unfold insert addEntry get?
  simp only
  cases hget : Keyed.get? module entries with
  | none =>
    have hout : module ∉ Keyed.keys entries := Keyed.get?_eq_none_iff.mp hget
    rw [if_neg (mt any_key_eq_true_iff.mp hout)]
    simp [eq_comm]
  | some existing =>
    have hin : module ∈ Keyed.keys entries := Keyed.exists_get?_iff.mp ⟨existing, hget⟩
    rw [if_pos (any_key_eq_true_iff.mpr hin)]
    by_cases hsame : existing = display
    · simp [hsame, eq_comm]
    · simp [hsame]

theorem get?_addEntry (module : String) (entries : List (String × String))
    (entry : String × String) :
    Keyed.get? module (addEntry entries entry) =
      (Keyed.get? module entries).or (if entry.1 = module then some entry.2 else none) := by
  unfold addEntry
  split
  next hin =>
    by_cases hsame : entry.1 = module
    · subst hsame
      obtain ⟨value, hvalue⟩ := Keyed.exists_get?_iff.mpr (any_key_eq_true_iff.mp hin)
      rw [hvalue, Option.some_or]
    · rw [if_neg hsame, Option.or_none]
  next => rw [Keyed.get?_append, Keyed.get?, Keyed.get?]

theorem keys_addEntry (entries : List (String × String)) (entry : String × String) :
    Keyed.keys (addEntry entries entry) =
      if (Keyed.keys entries).any (entry.1 == ·) then Keyed.keys entries
      else Keyed.keys entries ++ [entry.1] := by
  have hany : (Keyed.keys entries).any (entry.1 == ·) = entries.any (entry.1 == ·.1) := List.any_map
  rw [addEntry, hany]
  cases entries.any (entry.1 == ·.1) with
  | true => rfl
  | false => exact List.map_append

/-- A call fails when the module has another name. -/
theorem insert_eq_error_iff {names : ModuleNames} {module display : String} {error : Error} :
    names.insert module display = .error error ↔
      ∃ existing, names.get? module = some existing ∧ existing ≠ display ∧
        error = .moduleNameCollision module existing display := by
  unfold insert
  cases names.get? module with
  | none => simp
  | some existing =>
    simp only [Option.some.injEq, exists_eq_left']
    split
    next hsame => simp [hsame]
    next hdiffers => rw [Except.error.injEq, eq_comm, and_iff_right hdiffers]

/-- An entry of a table is what the table gives for its module. -/
theorem mem_entries_iff {names : ModuleNames} (h : names.Distinct) {entry : String × String} :
    entry ∈ names.entries ↔ names.get? entry.1 = some entry.2 :=
  ⟨Keyed.get?_of_mem h, Keyed.mem_of_get?_eq_some⟩

/-! ## Many entries at once -/

theorem insertAll_append (names : ModuleNames) (front back : List (String × String)) :
    names.insertAll (front ++ back) =
      match names.insertAll front with
      | (middle, none) => middle.insertAll back
      | (middle, some error) => (middle, some error) := by
  induction front generalizing names with
  | nil => rfl
  | cons entry rest ih =>
    obtain ⟨module, display⟩ := entry
    rw [List.cons_append, insertAll, insertAll]
    cases names.insert module display with
    | ok next => exact ih next
    | error error => rfl

theorem insertAll_append_eq_iff {names result : ModuleNames} {front back : List (String × String)} :
    names.insertAll (front ++ back) = (result, none) ↔
      ∃ middle, names.insertAll front = (middle, none) ∧
        middle.insertAll back = (result, none) := by
  rw [insertAll_append]
  cases names.insertAll front with
  | mk middle failure => cases failure <;> simp

/-- Modules may be named one after the other if none of them gets a second name, and are then
listed in that order. -/
theorem insertAll_eq_iff {names result : ModuleNames} {entries : List (String × String)} :
    names.insertAll entries = (result, none) ↔
      (∀ entry ∈ entries, ∀ existing, names.get? entry.1 = some existing → existing = entry.2) ∧
        entries.Pairwise Agree ∧ result.entries = entries.foldl addEntry names.entries := by
  induction entries generalizing names with
  | nil =>
    obtain ⟨listed⟩ := names
    obtain ⟨found⟩ := result
    simp [insertAll, eq_comm]
  | cons entry rest ih =>
    obtain ⟨module, display⟩ := entry
    rw [insertAll, List.forall_mem_cons, List.pairwise_cons, List.foldl_cons]
    cases hinsert : names.insert module display with
    | error error =>
      have hfails : ¬ ∀ existing, names.get? module = some existing → existing = display := by
        intro hfree
        have hok : names.insert module display = .ok ⟨addEntry names.entries (module, display)⟩ :=
          insert_eq_ok_iff.mpr ⟨hfree, rfl⟩
        rw [hinsert] at hok
        cases hok
      simp [hfails]
    | ok next =>
      obtain ⟨hfree, hnext⟩ := insert_eq_ok_iff.mp hinsert
      have hagree : (∀ entry ∈ rest, ∀ existing, next.get? entry.1 = some existing →
            existing = entry.2) ↔
          (∀ entry ∈ rest, ∀ existing, names.get? entry.1 = some existing →
            existing = entry.2) ∧ ∀ entry ∈ rest, Agree (module, display) entry := by
        rw [← forall₂_and]
        refine forall₂_congr fun entry hentry => ?_
        rw [get?, hnext, get?_addEntry, ← get?]
        cases hget : names.get? entry.1 with
        | none => simp [Agree]
        | some existing =>
          simp only [Option.some_or, Option.some.injEq, forall_eq']
          constructor
          · rintro rfl
            refine ⟨rfl, fun hsame => ?_⟩
            exact (hfree entry.2 (by rw [show module = entry.1 from hsame, hget])).symm
          · exact And.left
      rw [← hnext]
      show next.insertAll rest = _ ↔ _
      rw [ih, hagree]
      constructor
      · rintro ⟨⟨hrest, hhead⟩, htail, hresult⟩
        exact ⟨⟨hfree, hrest⟩, ⟨hhead, htail⟩, hresult⟩
      · rintro ⟨⟨-, hrest⟩, ⟨hhead, htail⟩, hresult⟩
        exact ⟨⟨hrest, hhead⟩, htail, hresult⟩

/-- A list of names is a table when its entries agree, and the table lists every module where
it is first named. -/
theorem insertAll_empty_eq_iff {result : ModuleNames} {entries : List (String × String)} :
    empty.insertAll entries = (result, none) ↔
      entries.Pairwise Agree ∧
        result.entries = entries.eraseDupsBy fun entry other => entry.1 == other.1 := by
  have hlisted : entries.foldl addEntry empty.entries =
      entries.eraseDupsBy fun entry other => entry.1 == other.1 :=
    foldl_eq_eraseDupsBy (fun found entry => rfl) entries
  rw [insertAll_eq_iff, hlisted]
  constructor
  · exact And.right
  · exact fun h => ⟨fun entry _ existing hget => (nomatch hget), h⟩

theorem get?_foldl_addEntry (module : String) (listed entries : List (String × String)) :
    Keyed.get? module (entries.foldl addEntry listed) =
      (Keyed.get? module listed).or (Keyed.get? module entries) := by
  induction entries generalizing listed with
  | nil => exact Option.or_none.symm
  | cons entry rest ih =>
    have hcons : Keyed.get? module (entry :: rest) =
        (if entry.1 = module then some entry.2 else none).or (Keyed.get? module rest) := by
      rw [Keyed.get?]
      split <;> rfl
    rw [List.foldl_cons, ih, get?_addEntry, hcons, Option.or_assoc]

/-- Modules that can all be named have these names in the end, and other modules the names that
they had. -/
theorem get?_of_insertAll {names result : ModuleNames} {entries : List (String × String)}
    (h : names.insertAll entries = (result, none)) (module : String) :
    result.get? module = (Keyed.get? module entries).or (names.get? module) := by
  obtain ⟨hfree, -, hresult⟩ := insertAll_eq_iff.mp h
  have hboth : result.get? module = (names.get? module).or (Keyed.get? module entries) := by
    rw [get?, hresult, get?_foldl_addEntry]
    rfl
  rw [hboth]
  cases hadded : Keyed.get? module entries with
  | none => rw [Option.or_none, Option.none_or]
  | some display =>
    cases hnamed : names.get? module with
    | none => rfl
    | some existing =>
      have hmem := Keyed.mem_of_get?_eq_some hadded
      rw [hfree (module, display) hmem existing hnamed]

/-- Of modules named once each, those that have no name yet are listed after the others. -/
theorem foldl_addEntry_of_nodup {listed entries : List (String × String)}
    (h : (Keyed.keys entries).Nodup) :
    entries.foldl addEntry listed =
      listed ++ entries.filter fun entry => (Keyed.get? entry.1 listed).isNone := by
  induction entries generalizing listed with
  | nil => exact (List.append_nil _).symm
  | cons entry rest ih =>
    obtain ⟨hout, hrest⟩ : entry.1 ∉ Keyed.keys rest ∧ (Keyed.keys rest).Nodup :=
      List.nodup_cons.mp h
    rw [List.foldl_cons, ih hrest, addEntry]
    cases hget : Keyed.get? entry.1 listed with
    | some existing =>
      have hin : entry.1 ∈ Keyed.keys listed := Keyed.exists_get?_iff.mp ⟨existing, hget⟩
      rw [if_pos (any_key_eq_true_iff.mpr hin), List.filter_cons_of_neg (by simp [hget])]
    | none =>
      have hnew : entry.1 ∉ Keyed.keys listed := Keyed.get?_eq_none_iff.mp hget
      have hlater : ∀ other ∈ rest, (Keyed.get? other.1 (listed ++ [entry])).isNone =
          (Keyed.get? other.1 listed).isNone := by
        intro other hother
        have hkey : other.1 ∈ Keyed.keys rest := List.mem_map_of_mem hother
        have hne : entry.1 ≠ other.1 := fun heq => hout (heq ▸ hkey)
        rw [Keyed.get?_append, Keyed.get?, if_neg hne, Keyed.get?, Option.or_none]
      rw [if_neg (mt any_key_eq_true_iff.mp hnew), List.filter_cons_of_pos (by simp [hget]),
        List.filter_congr hlater, List.append_assoc, List.singleton_append]

/-- Modules named once each are named up to the first one that has another name in the table. -/
theorem exists_collision_of_insertAll {names result : ModuleNames}
    {entries : List (String × String)} {error : Error} (hnodup : (Keyed.keys entries).Nodup)
    (h : names.insertAll entries = (result, some error)) :
    ∃ front module display rest existing, entries = front ++ (module, display) :: rest ∧
      names.insertAll front = (result, none) ∧ names.get? module = some existing ∧
      existing ≠ display ∧ error = .moduleNameCollision module existing display := by
  induction entries generalizing names with
  | nil => cases h
  | cons entry rest ih =>
    obtain ⟨first, name⟩ := entry
    obtain ⟨hout, hrest⟩ := List.nodup_cons.mp hnodup
    rw [insertAll] at h
    cases hinsert : names.insert first name with
    | ok next =>
      rw [hinsert] at h
      obtain ⟨front, module, display, last, existing, rfl, hfront, hexisting, hdiffers, rfl⟩ :=
        ih hrest h
      -- The module that collides is not the one that was just named.
      have hkey : module ∈ Keyed.keys (front ++ (module, display) :: last) := by
        simp [Keyed.keys]
      have hne : first ≠ module := fun heq => hout (heq ▸ hkey)
      rw [get?, (insert_eq_ok_iff.mp hinsert).2, get?_addEntry, if_neg hne,
        Option.or_none] at hexisting
      refine ⟨(first, name) :: front, module, display, last, existing, rfl, ?_, hexisting,
        hdiffers, rfl⟩
      rw [insertAll, hinsert]
      exact hfront
    | error other =>
      rw [hinsert] at h
      obtain ⟨rfl, herror⟩ := Prod.mk.inj h
      obtain ⟨existing, hexisting, hdiffers, hcollision⟩ := insert_eq_error_iff.mp hinsert
      exact ⟨[], first, name, rest, existing, rfl, rfl, hexisting, hdiffers,
        (Option.some.inj herror).symm.trans hcollision⟩

/-! ## One call after the other -/

/-- The table that a call leaves, whether it fails or not. -/
def afterCall (names : ModuleNames) (call : String × String) : ModuleNames :=
  (names.insertAll [call]).1

/-- The table that calls leave one after the other, from the empty table on. Calls that fail are
followed by the next ones all the same. -/
def afterCalls (calls : List (String × String)) : ModuleNames :=
  calls.foldl afterCall empty

theorem afterCall_of_error {names : ModuleNames} {module display : String} {error : Error}
    (h : names.insert module display = .error error) : names.afterCall (module, display) = names := by
  rw [afterCall, insertAll, h]

/-- A call lists the module unless it is listed, also when it fails. -/
theorem entries_afterCall (names : ModuleNames) (call : String × String) :
    (names.afterCall call).entries = addEntry names.entries call := by
  obtain ⟨module, display⟩ := call
  rw [afterCall, insertAll]
  cases hinsert : names.insert module display with
  | ok next => exact (insert_eq_ok_iff.mp hinsert).2
  | error error =>
    obtain ⟨existing, hexisting, -⟩ := insert_eq_error_iff.mp hinsert
    have hin : module ∈ Keyed.keys names.entries := Keyed.exists_get?_iff.mp ⟨existing, hexisting⟩
    exact (if_pos (any_key_eq_true_iff.mpr hin)).symm

theorem entries_foldl_afterCall (names : ModuleNames) (calls : List (String × String)) :
    (calls.foldl afterCall names).entries = calls.foldl addEntry names.entries := by
  induction calls generalizing names with
  | nil => rfl
  | cons call rest ih => rw [List.foldl_cons, ih, entries_afterCall, List.foldl_cons]

theorem entries_afterCalls (calls : List (String × String)) :
    (afterCalls calls).entries = calls.foldl addEntry [] :=
  entries_foldl_afterCall empty calls

/-- A module has the name that the first call for it gives. -/
theorem get?_afterCalls (calls : List (String × String)) (module : String) :
    (afterCalls calls).get? module = Keyed.get? module calls := by
  rw [get?, entries_afterCalls, get?_foldl_addEntry]
  rfl

/-- The modules are listed in the order of their first calls. -/
theorem keys_afterCalls (calls : List (String × String)) :
    Keyed.keys (afterCalls calls).entries = (Keyed.keys calls).eraseDups := by
  have hfold : ∀ listed, Keyed.keys (calls.foldl addEntry listed) =
      (Keyed.keys calls).foldl
        (fun keys key => if keys.any (key == ·) then keys else keys ++ [key])
        (Keyed.keys listed) := by
    induction calls with
    | nil => exact fun listed => rfl
    | cons call rest ih =>
      intro listed
      rw [List.foldl_cons, ih, keys_addEntry]
      rfl
  rw [entries_afterCalls, hfold]
  exact foldl_eq_eraseDupsBy (fun _ _ => rfl) _

theorem distinct_afterCalls (calls : List (String × String)) : (afterCalls calls).Distinct := by
  rw [Distinct, keys_afterCalls, ← Keyed.keys_collapse]
  exact Keyed.nodup_keys_collapse calls

/-- Later calls list more modules, behind those that are listed. -/
theorem entries_prefix_afterCalls (calls later : List (String × String)) :
    (afterCalls calls).entries <+: (afterCalls (calls ++ later)).entries := by
  have hgrows : ∀ listed, listed <+: later.foldl addEntry listed := by
    induction later with
    | nil => exact fun listed => List.prefix_rfl
    | cons call rest ih =>
      intro listed
      have hcall : listed <+: addEntry listed call := by
        unfold addEntry
        split
        next => exact List.prefix_rfl
        next => exact List.prefix_append _ _
      exact hcall.trans (ih (addEntry listed call))
  rw [entries_afterCalls, entries_afterCalls, List.foldl_append]
  exact hgrows _

/-! ## One table folded into another -/

/-- Two tables give no module different names. -/
def AgreesWith (names other : ModuleNames) : Prop :=
  ∀ module name display, names.get? module = some name → other.get? module = some display →
    name = display

theorem AgreesWith.symm {names other : ModuleNames} (h : names.AgreesWith other) :
    other.AgreesWith names :=
  fun module name display hname hdisplay => (h module display name hdisplay hname).symm

/-- A table can be folded into another when they agree. -/
theorem extend_eq_none_iff {names other : ModuleNames} (hother : other.Distinct) :
    (names.extend other).2 = none ↔ names.AgreesWith other := by
  have hfold : (names.extend other).2 = none ↔
      ∃ result, names.insertAll other.entries = (result, none) := by
    constructor
    · exact fun h => ⟨_, Prod.ext rfl h⟩
    · rintro ⟨result, hresult⟩
      exact congrArg Prod.snd hresult
  have hpairs : other.entries.Pairwise Agree :=
    (List.pairwise_map.mp hother).imp fun hne heq => absurd heq hne
  simp only [hfold, insertAll_eq_iff]
  constructor
  · rintro ⟨-, hfree, -⟩ module name display hname hdisplay
    exact hfree (module, display) (Keyed.mem_of_get?_eq_some hdisplay) name hname
  · intro hagree
    refine ⟨⟨other.entries.foldl addEntry names.entries⟩, ?_, hpairs, rfl⟩
    intro entry hentry existing hexisting
    exact hagree entry.1 existing entry.2 hexisting ((mem_entries_iff hother).mp hentry)

/-- Of two tables either can be folded into the other, or neither. -/
theorem extend_eq_none_comm {names other : ModuleNames} (hnames : names.Distinct)
    (hother : other.Distinct) :
    (names.extend other).2 = none ↔ (other.extend names).2 = none := by
  rw [extend_eq_none_iff hother, extend_eq_none_iff hnames]
  exact ⟨AgreesWith.symm, AgreesWith.symm⟩

/-- A table with another folded into it has the names of both. -/
theorem get?_extend {names other : ModuleNames} (h : (names.extend other).2 = none)
    (module : String) :
    (names.extend other).1.get? module = (other.get? module).or (names.get? module) :=
  get?_of_insertAll (Prod.ext rfl h) module

/-- Of tables that agree it does not matter which one is asked first. -/
theorem AgreesWith.or_comm {names other : ModuleNames} (h : names.AgreesWith other)
    (module : String) :
    (other.get? module).or (names.get? module) = (names.get? module).or (other.get? module) := by
  cases hname : names.get? module with
  | none => rw [Option.or_none, Option.none_or]
  | some name =>
    cases hdisplay : other.get? module with
    | none => rfl
    | some display => rw [h module name display hname hdisplay]

/-- Whatever calls are made on a table, whether they fail or not, it lists each module once, in the
order of the first calls and with the name of the first call, and it keeps what it lists. A call
fails if and only if the module has another name, and then it leaves the table as it is. So one
table can be folded into another if and only if they agree on the modules that they share, in
either direction, and in both directions the modules have the same names in the end. -/
theorem first_names_stay (calls : List (String × String)) :
    let table := afterCalls calls
    table.Distinct ∧
    Keyed.keys table.entries = (Keyed.keys calls).eraseDups ∧
    (∀ module, table.get? module = Keyed.get? module calls) ∧
    (∀ later, table.entries <+: (afterCalls (calls ++ later)).entries ∧
      ∀ module name, table.get? module = some name →
        (afterCalls (calls ++ later)).get? module = some name) ∧
    (∀ module display error, table.insert module display = .error error ↔
      ∃ existing, table.get? module = some existing ∧ existing ≠ display ∧
        error = .moduleNameCollision module existing display) ∧
    (∀ module display error, table.insert module display = .error error →
      afterCalls (calls ++ [(module, display)]) = table) ∧
    ∀ others, let other := afterCalls others
      ((table.extend other).2 = none ↔ table.AgreesWith other) ∧
      ((table.extend other).2 = none ↔ (other.extend table).2 = none) ∧
      ((table.extend other).2 = none → ∀ module,
        (table.extend other).1.get? module = (table.get? module).or (other.get? module) ∧
        (other.extend table).1.get? module = (table.get? module).or (other.get? module)) := by
  refine ⟨distinct_afterCalls calls, keys_afterCalls calls, get?_afterCalls calls, ?_,
    fun _ _ _ => insert_eq_error_iff, ?_, ?_⟩
  · intro later
    refine ⟨entries_prefix_afterCalls calls later, ?_⟩
    intro module name hname
    rw [get?_afterCalls] at hname ⊢
    rw [Keyed.get?_append, hname, Option.some_or]
  · intro module display error herror
    rw [afterCalls, List.foldl_append]
    exact afterCall_of_error herror
  · intro others
    have hagree : ((afterCalls calls).extend (afterCalls others)).2 = none ↔
        (afterCalls calls).AgreesWith (afterCalls others) :=
      extend_eq_none_iff (distinct_afterCalls others)
    have hboth := extend_eq_none_comm (distinct_afterCalls calls) (distinct_afterCalls others)
    refine ⟨hagree, hboth, ?_⟩
    intro hfolded module
    refine ⟨?_, get?_extend (hboth.mp hfolded) module⟩
    rw [get?_extend hfolded, (hagree.mp hfolded).or_comm]

/-- A table after a call that failed, and one that shares a module with it. -/
theorem first_names_stay_of_failed_call :
    let table := afterCalls [("b", "B"), ("a", "A"), ("b", "X")]
    let other := afterCalls [("c", "C"), ("a", "A")]
    table.entries = [("b", "B"), ("a", "A")] ∧
    (afterCalls [("b", "B"), ("a", "A"), ("b", "X"), ("c", "C")]).get? "b" = some "B" ∧
    afterCalls [("b", "B"), ("a", "A"), ("b", "X"), ("a", "Y")] = table ∧
    (table.extend other).1.get? "c" = some "C" ∧ (other.extend table).1.get? "c" = some "C" := by
  obtain ⟨-, -, -, hstays, -, hfails, hfolds⟩ :=
    first_names_stay [("b", "B"), ("a", "A"), ("b", "X")]
  have hcollides := hfails "a" "Y" (.moduleNameCollision "a" "A" "Y") rfl
  obtain ⟨hfirst, hother⟩ := (hfolds [("c", "C"), ("a", "A")]).2.2 (by decide) "c"
  exact ⟨by decide, (hstays [("c", "C")]).2 "b" "B" (by decide), hcollides, hfirst, hother⟩

/-- A fold that fails leaves in the table what it named before the first collision: the modules of
the other table that had no name yet. So it leaves the table as it was if and only if there are
none. -/
theorem failed_fold_keeps_fresh (names other result : ModuleNames) (error : Error)
    (hother : other.Distinct) (h : names.extend other = (result, some error)) :
    ∃ front module display rest existing,
      other.entries = front ++ (module, display) :: rest ∧
      (∀ entry ∈ front, ∀ known, names.get? entry.1 = some known → known = entry.2) ∧
      names.get? module = some existing ∧ existing ≠ display ∧
      error = .moduleNameCollision module existing display ∧
      result.entries =
        names.entries ++ front.filter (fun entry => (names.get? entry.1).isNone) ∧
      (result = names ↔ ∀ entry ∈ front, (names.get? entry.1).isSome = true) := by
  obtain ⟨front, module, display, rest, existing, hsplit, hfront, hexisting, hdiffers, rfl⟩ :=
    exists_collision_of_insertAll hother h
  obtain ⟨hfree, -, hresult⟩ := insertAll_eq_iff.mp hfront
  have hnodup : (Keyed.keys front).Nodup := by
    rw [Distinct, hsplit, Keyed.keys, List.map_append] at hother
    exact (List.nodup_append.mp hother).1
  rw [foldl_addEntry_of_nodup hnodup] at hresult
  refine ⟨front, module, display, rest, existing, hsplit, hfree, hexisting, hdiffers, rfl,
    hresult, ?_⟩
  have hsame : result = names ↔ result.entries = names.entries :=
    ⟨congrArg entries, congrArg mk⟩
  rw [hsame, hresult, List.append_right_eq_self, List.filter_eq_nil_iff]
  simp only [Bool.not_eq_true, Option.isNone_eq_false_iff]
  rfl

/-- Of the modules before the collision one has its name already, and one is new. -/
theorem failed_fold_keeps_fresh_of_example :
    (afterCalls [("b", "B"), ("a", "A"), ("c", "X"), ("d", "D")]).Distinct ∧
    ∃ front module display rest existing,
      (afterCalls [("b", "B"), ("a", "A"), ("c", "X"), ("d", "D")]).entries =
        front ++ (module, display) :: rest ∧
      (afterCalls [("b", "B"), ("c", "C")]).get? module = some existing ∧ existing ≠ display ∧
      Error.moduleNameCollision "c" "C" "X" = .moduleNameCollision module existing display ∧
      [("b", "B"), ("c", "C"), ("a", "A")] = (afterCalls [("b", "B"), ("c", "C")]).entries ++
        front.filter (fun entry =>
          ((afterCalls [("b", "B"), ("c", "C")]).get? entry.1).isNone) := by
  have hdistinct : (afterCalls [("b", "B"), ("a", "A"), ("c", "X"), ("d", "D")]).Distinct := by
    unfold Distinct
    decide
  have hfails : (afterCalls [("b", "B"), ("c", "C")]).extend
      (afterCalls [("b", "B"), ("a", "A"), ("c", "X"), ("d", "D")]) =
        (⟨[("b", "B"), ("c", "C"), ("a", "A")]⟩, some (.moduleNameCollision "c" "C" "X")) := by
    decide
  obtain ⟨front, module, display, rest, existing, hsplit, -, hexisting, hdiffers, herror,
    hentries, -⟩ := failed_fold_keeps_fresh _ _ _ _ hdistinct hfails
  exact ⟨hdistinct, front, module, display, rest, existing, hsplit, hexisting, hdiffers, herror,
    hentries⟩

/-- A fold that fails at its second module leaves the first one named. -/
theorem failed_fold_lengthens :
    (afterCalls [("b", "B")]).extend (afterCalls [("a", "A"), ("b", "X")]) =
      (⟨[("b", "B"), ("a", "A")]⟩, some (.moduleNameCollision "b" "B" "X")) ∧
    (afterCalls [("b", "B")]).entries = [("b", "B")] := by
  decide

end DocPlan.ModuleNames
