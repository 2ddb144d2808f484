import DocPlan.Proofs.ManifestReadings

/-!
# The order in which conditions are tried

The conditions of a run are the names that its caller lists, each where it is first mentioned, and
`default` behind them (`Conditions.ofList_eq`). Which of two names goes before the other can be
told from the caller's list alone (`Conditions.Precedes`).

Resolving an export looks for a target at its leaves: the parts that are neither a list nor an
object of conditions. Steps lead there, each to an item of a list or to the last entry of a
condition that the run asks for (`Leads`). However deep lists and objects are nested, resolving
tries the leaves in one line, sorted by the steps that lead to them (`exists_leaves`), up to the
first that gives a target (`exists_inTurn`). Where the ways to two leaves part, the order of the
names decides which one is tried first.

Main result: `tried_by_first_mention`.
-/

namespace DocPlan

namespace Conditions

/-! ## The names of a run -/

/-- A name of a caller's list goes before another one if it is mentioned first. Before `default`
go all other names that are mentioned. -/
def Precedes (given : List String) (name later : String) : Prop :=
  name ∈ given ∧ name ≠ defaultCondition ∧
    (later = defaultCondition ∨ given.idxOf name < given.idxOf later)

theorem Precedes.asymm {given : List String} {name later : String}
    (h : Precedes given name later) : ¬ Precedes given later name := by
  obtain ⟨-, hname, hforth⟩ := h
  rintro ⟨-, hlater, hback⟩
  have hless := hforth.resolve_left hlater
  have hmore := hback.resolve_left hname
  omega

theorem Precedes.ne {given : List String} {name later : String} (h : Precedes given name later) :
    name ≠ later := by
  rintro rfl
  exact h.asymm h

/-- The names of a caller's list but `default`, each where it is first mentioned. -/
def mentioned (given : List String) : List String :=
  (given.filter (· ≠ defaultCondition)).eraseDups

theorem mem_mentioned {given : List String} {name : String} :
    name ∈ mentioned given ↔ name ∈ given ∧ name ≠ defaultCondition := by
  rw [mentioned, List.mem_eraseDups, List.mem_filter, decide_eq_true_iff]

/-- A run asks for the names that are mentioned, and for `default` at last. -/
theorem ofList_eq (given : List String) : ofList given = ⟨mentioned given ++ [defaultCondition]⟩ := by
  have hadd : addName = fun found name => if decide (name ≠ defaultCondition) = true then
      (if found.any (name == ·) then found else found ++ [name]) else found := by
    funext found name
    by_cases hname : name = defaultCondition <;> simp [addName, hname]
  have hmentioned : given.foldl addName [] = mentioned given := by
    rw [hadd, ← List.foldl_filter]
    exact foldl_eq_eraseDupsBy (fun _ _ => rfl) _
  rw [ofList, hmentioned]

theorem names_ofList (given : List String) :
    (ofList given).names = mentioned given ++ [defaultCondition] :=
  congrArg names (ofList_eq given)

theorem mem_names_ofList {given : List String} {name : String} :
    name ∈ (ofList given).names ↔ name ∈ given ∨ name = defaultCondition := by
  by_cases hname : name = defaultCondition <;> simp [names_ofList, mem_mentioned, hname]

theorem default_notMem_dropLast (given : List String) :
    defaultCondition ∉ (ofList given).names.dropLast := by
  simp [names_ofList, mem_mentioned]

/-- The names of a run are sorted by what the caller's list tells. -/
theorem pairwise_precedes (given : List String) :
    (ofList given).names.Pairwise (Precedes given) := by
  have hmentioned : (mentioned given).Pairwise (Precedes given) := by
    rw [mentioned, eraseDups_filter]
    refine ((pairwise_idxOf_eraseDups given).filter _).imp_of_mem ?_
    intro name later hname _ hless
    rw [← eraseDups_filter, ← mentioned, mem_mentioned] at hname
    exact ⟨hname.1, hname.2, .inr hless⟩
  rw [names_ofList]
  refine List.pairwise_append.mpr ⟨hmentioned, List.pairwise_singleton _ _, ?_⟩
  intro name hname later hlater
  obtain ⟨hmem, hproper⟩ := mem_mentioned.mp hname
  exact ⟨hmem, hproper, .inl (List.mem_singleton.mp hlater)⟩

theorem nodup_names_ofList (given : List String) : (ofList given).names.Nodup :=
  (pairwise_precedes given).imp Precedes.ne

/-- It does not matter where, or whether, a caller lists `default`. -/
theorem ofList_congr {given others : List String}
    (h : others.filter (· ≠ defaultCondition) = given.filter (· ≠ defaultCondition)) :
    ofList others = ofList given := by
  rw [ofList_eq, ofList_eq, mentioned, mentioned, h]

/-- The names of a run stand for this run. -/
theorem ofList_names_ofList (given : List String) : ofList (ofList given).names = ofList given := by
  have hproper : (mentioned given).filter (· ≠ defaultCondition) = mentioned given :=
    List.filter_eq_self.mpr fun name hname => decide_eq_true (mem_mentioned.mp hname).2
  have hnodup : (mentioned given).Nodup := by
    have hall := nodup_names_ofList given
    rw [names_ofList] at hall
    exact (List.nodup_append.mp hall).1
  have hagain : mentioned (ofList given).names = mentioned given := by
    rw [names_ofList, mentioned, List.filter_append, hproper]
    simp [eraseDups_of_nodup hnodup]
  rw [ofList_eq, hagain, ← ofList_eq]

end Conditions

namespace Exports

open Conditions

/-! ## Steps through an export -/

/-- A step from an export to a part of it. -/
inductive Step where
  /-- To an item of a list. -/
  | item (index : Nat)
  /-- To the last entry of a condition. -/
  | condition (name : String)
  deriving DecidableEq, Repr

/-- Of two steps from one export, the one that is tried first. -/
inductive Step.Before (given : List String) : Step → Step → Prop where
  | item {index later : Nat} (less : index < later) : Before given (.item index) (.item later)
  | condition {name later : String} (precedes : Precedes given name later) :
    Before given (.condition name) (.condition later)

theorem Step.Before.asymm {given : List String} {step later : Step}
    (h : Step.Before given step later) : ¬ Step.Before given later step := by
  cases h with
  | item less =>
    rintro ⟨more⟩
    omega
  | condition precedes =>
    rintro (_ | hback)
    exact precedes.asymm hback

/-- A step that a run may take, if its caller lists some names. -/
inductive Goes (given : List String) : Exports → Step → Exports → Prop where
  | item {items : List Exports} {index : Nat} {item : Exports}
      (at_index : items[index]? = some item) : Goes given (.fallbacks items) (.item index) item
  | condition {before after : List (String × Exports)} {name : String} {item : Exports}
      (asked : name ∈ given ∨ name = defaultCondition) (last : name ∉ Keyed.keys after) :
      Goes given (.conditions (before ++ (name, item) :: after)) (.condition name) item

/-- The parts of an export that a run goes on to, in the order of the names that it asks for. -/
def parts (names : List String) : Exports → List (Step × Exports)
  | .fallbacks items => items.zipIdx.map fun entry => (.item entry.2, entry.1)
  | .conditions entries => names.filterMap fun name =>
    (Keyed.last? name entries).map fun item => (.condition name, item)
  | _ => []

theorem mem_parts_iff {given : List String} {exports part : Exports} {step : Step} :
    (step, part) ∈ parts (ofList given).names exports ↔ Goes given exports step part := by
  constructor
  · intro hmem
    cases exports with
    | fallbacks items =>
      obtain ⟨⟨item, index⟩, hitem, heq⟩ := List.mem_map.mp hmem
      obtain ⟨rfl, rfl⟩ := Prod.mk.inj heq
      exact .item (List.mem_zipIdx_iff_getElem?.mp hitem)
    | conditions entries =>
      obtain ⟨name, hname, hlast⟩ := List.mem_filterMap.mp hmem
      obtain ⟨item, hitem, heq⟩ := Option.map_eq_some_iff.mp hlast
      obtain ⟨rfl, rfl⟩ := Prod.mk.inj heq
      obtain ⟨before, after, rfl, hout⟩ := Keyed.last?_eq_some_iff.mp hitem
      exact .condition (mem_names_ofList.mp hname) hout
    | _ => cases hmem
  · intro h
    cases h with
    | @item _ index _ hitem =>
      exact List.mem_map.mpr ⟨(part, index), List.mem_zipIdx_iff_getElem?.mpr hitem, rfl⟩
    | @condition before after name _ hasked hout =>
      have hlast : Keyed.last? name (before ++ (name, part) :: after) = some part :=
        Keyed.last?_eq_some_iff.mpr ⟨before, after, rfl, hout⟩
      exact List.mem_filterMap.mpr ⟨name, mem_names_ofList.mpr hasked, by rw [hlast]; rfl⟩

/-- The parts stand in the order in which they are tried. -/
theorem pairwise_parts (given : List String) (exports : Exports) :
    (parts (ofList given).names exports).Pairwise fun part later =>
      Step.Before given part.1 later.1 := by
  cases exports with
  | fallbacks items =>
    rw [parts, List.pairwise_map, List.pairwise_iff_getElem]
    intro index later _ _ hless
    rw [List.getElem_zipIdx, List.getElem_zipIdx]
    exact .item (Nat.add_lt_add_left hless 0)
  | conditions entries =>
    refine (pairwise_precedes given).filterMap _ ?_
    intro name later hprecedes part hpart other hother
    obtain ⟨item, -, rfl⟩ := Option.map_eq_some_iff.mp hpart
    obtain ⟨item', -, rfl⟩ := Option.map_eq_some_iff.mp hother
    exact .condition hprecedes
  | _ => exact .nil

/-- What holds of an export whenever it holds of all parts that a run goes on to holds of
every export. -/
theorem parts_induct (names : List String) {motive : Exports → Prop}
    (whole : ∀ exports, (∀ part ∈ parts names exports, motive part.2) → motive exports)
    (exports : Exports) : motive exports := by
  induction exports with
  | fallbacks items ih =>
    apply whole
    intro part hpart
    obtain ⟨⟨item, index⟩, hitem, rfl⟩ := List.mem_map.mp hpart
    exact ih item (List.fst_mem_of_mem_zipIdx hitem)
  | conditions entries ih =>
    apply whole
    intro part hpart
    obtain ⟨name, -, hlast⟩ := List.mem_filterMap.mp hpart
    obtain ⟨item, hitem, rfl⟩ := Option.map_eq_some_iff.mp hlast
    obtain ⟨before, after, hsplit, -⟩ := Keyed.last?_eq_some_iff.mp hitem
    exact ih (name, item) (by simp [hsplit])
  | _ => exact whole _ fun _ hpart => nomatch hpart

/-! ## The first result -/

theorem firstResolved_cons (result : Noted (Option String)) (rest : List (Noted (Option String))) :
    firstResolved (result :: rest) =
      match result.value with
      | some text => ⟨result.diagnostics, some text⟩
      | none => ⟨result.diagnostics ++ (firstResolved rest).diagnostics,
          (firstResolved rest).value⟩ := by
  show Noted.mk _ _ = _
  cases result.value with
  | some text => exact congrArg (Noted.mk · _) (List.append_nil _)
  | none => rfl

theorem firstResolved_singleton (result : Noted (Option String)) :
    firstResolved [result] = result := by
  obtain ⟨diagnostics, value⟩ := result
  rw [firstResolved_cons]
  cases value with
  | some text => rfl
  | none => exact congrArg (Noted.mk · none) (List.append_nil diagnostics)

/-- Results at the front may be put together first. -/
theorem firstResolved_append (front back : List (Noted (Option String))) :
    firstResolved (front ++ back) = firstResolved (firstResolved front :: back) := by
  induction front with
  | nil => rfl
  | cons result rest ih =>
    rw [List.cons_append, firstResolved_cons, firstResolved_cons, firstResolved_cons, ih,
      firstResolved_cons]
    cases result.value with
    | some text => rfl
    | none =>
      cases hvalue : (firstResolved rest).value with
      | some text => simp
      | none => simp

theorem firstResolved_flatMap {α : Type} (items : List α)
    (results : α → List (Noted (Option String))) :
    firstResolved (items.flatMap results) =
      firstResolved (items.map fun item => firstResolved (results item)) := by
  induction items with
  | nil => rfl
  | cons item rest ih =>
    rw [List.flatMap_cons, firstResolved_append, List.map_cons, firstResolved_cons,
      firstResolved_cons, ih]

/-- Attempts are made one after the other. All that were made before the last one gave nothing, and
what the last one gave is the result. Reported is what those that were made report. None is left
out unless there is a result. -/
structure InTurn {α : Type} (attempt : α → Noted (Option String)) (tried untried : List α)
    (result : Noted (Option String)) : Prop where
  earlier : ∀ item ∈ tried.dropLast, (attempt item).value = none
  value : result.value = tried.getLast?.bind fun item => (attempt item).value
  diagnostics : result.diagnostics = tried.flatMap fun item => (attempt item).diagnostics
  stops : untried ≠ [] → result.value ≠ none

theorem exists_inTurn {α : Type} (attempt : α → Noted (Option String)) (items : List α) :
    ∃ tried untried, items = tried ++ untried ∧
      InTurn attempt tried untried (firstResolved (items.map attempt)) := by
  induction items with
  | nil => exact ⟨[], [], rfl, by simp, rfl, rfl, fun h => absurd rfl h⟩
  | cons item rest ih =>
    rw [List.map_cons, firstResolved_cons]
    cases hvalue : (attempt item).value with
    | some text => exact ⟨[item], rest, rfl, by simp, by simp [hvalue], by simp, by simp⟩
    | none =>
      obtain ⟨tried, untried, rfl, h⟩ := ih
      refine ⟨item :: tried, untried, rfl, ?_, ?_, ?_, h.stops⟩
      · cases tried with
        | nil => simp
        | cons first others => exact List.forall_mem_cons.mpr ⟨hvalue, h.earlier⟩
      · rw [h.value]
        cases tried with
        | nil => simp [hvalue]
        | cons first others => rfl
      · rw [h.diagnostics, List.flatMap_cons]

/-- If attempts are sorted, all that come before one that was made were made as well, and gave
nothing. -/
theorem InTurn.of_before {α : Type} {r : α → α → Prop} {attempt : α → Noted (Option String)}
    {tried untried : List α} {result : Noted (Option String)}
    (h : InTurn attempt tried untried result) (hasymm : ∀ {a b}, r a b → ¬ r b a)
    (hsorted : (tried ++ untried).Pairwise r) {item later : α} (hitem : item ∈ tried ++ untried)
    (hlater : later ∈ tried) (hbefore : r item later) :
    item ∈ tried ∧ (attempt item).value = none := by
  obtain ⟨htried, -, hapart⟩ := List.pairwise_append.mp hsorted
  have hmem : item ∈ tried := by
    rcases List.mem_append.mp hitem with hmem | hout
    · exact hmem
    · exact absurd (hapart later hlater item hout) (hasymm hbefore)
  refine ⟨hmem, h.earlier item ?_⟩
  obtain ⟨front, last, rfl⟩ : ∃ front last, tried = front ++ [last] :=
    ⟨_, _, (List.dropLast_append_getLast (List.ne_nil_of_mem hmem)).symm⟩
  rw [List.dropLast_concat]
  rcases List.mem_append.mp hmem with hfront | hlast
  · exact hfront
  · -- Nothing comes after the last attempt, nor before itself.
    obtain rfl := List.mem_singleton.mp hlast
    rcases List.mem_append.mp hlater with hfront | hsame
    · exact absurd ((List.pairwise_append.mp htried).2.2 later hfront item hlast)
        (hasymm hbefore)
    · obtain rfl := List.mem_singleton.mp hsame
      exact absurd hbefore (hasymm hbefore)

/-! ## Leaves -/

/-- A part that is neither a list nor an object of conditions. -/
def IsLeaf : Exports → Prop
  | .fallbacks _ => False
  | .conditions _ => False
  | _ => True

/-- Steps lead from an export to a leaf. -/
inductive Leads (given : List String) : Exports → List Step → Exports → Prop where
  | here {leaf : Exports} (ends : leaf.IsLeaf) : Leads given leaf [] leaf
  | step {exports part leaf : Exports} {step : Step} {steps : List Step}
      (first : Goes given exports step part) (below : Leads given part steps leaf) :
      Leads given exports (step :: steps) leaf

/-- A place comes before another one: where they part, its step is tried first. -/
def Earlier (given : List String) (place later : List Step × Exports) : Prop :=
  List.Lex (Step.Before given) place.1 later.1

theorem Earlier.asymm {given : List String} {place later : List Step × Exports}
    (h : Earlier given place later) : ¬ Earlier given later place :=
  List.lex_asymm Step.Before.asymm h

/-- The leaves of an export, all of them and in the order of their places. -/
structure LeavesInOrder (given : List String) (exports : Exports)
    (leaves : List (List Step × Exports)) : Prop where
  complete (steps : List Step) (leaf : Exports) :
    (steps, leaf) ∈ leaves ↔ Leads given exports steps leaf
  sorted : leaves.Pairwise (Earlier given)

/-- An export that is a leaf is the only one that it has. -/
theorem IsLeaf.leavesInOrder {exports : Exports} (h : exports.IsLeaf) (given : List String) :
    LeavesInOrder given exports [([], exports)] where
  complete := by
    intro steps leaf
    rw [List.mem_singleton, Prod.mk.injEq]
    constructor
    · rintro ⟨rfl, rfl⟩
      exact .here h
    · rintro (_ | ⟨hfirst, _⟩)
      · exact ⟨rfl, rfl⟩
      · cases hfirst <;> cases h
  sorted := List.pairwise_singleton _ _

/-- The leaves below the parts of an export, seen from the export. -/
def leavesBelow (leaves : Step × Exports → List (List Step × Exports)) (part : Step × Exports) :
    List (List Step × Exports) :=
  (leaves part).map fun place => (part.1 :: place.1, place.2)

theorem leavesInOrder_of_parts {given : List String} {exports : Exports} (hinner : ¬ exports.IsLeaf)
    {leaves : Step × Exports → List (List Step × Exports)}
    (h : ∀ part ∈ parts (ofList given).names exports, LeavesInOrder given part.2 (leaves part)) :
    LeavesInOrder given exports ((parts (ofList given).names exports).flatMap (leavesBelow leaves)) where
  complete := by
    intro steps leaf
    rw [List.mem_flatMap]
    constructor
    · rintro ⟨⟨step, part⟩, hpart, hbelow⟩
      obtain ⟨⟨rest, found⟩, hplace, heq⟩ := List.mem_map.mp hbelow
      obtain ⟨rfl, rfl⟩ := Prod.mk.inj heq
      exact .step (mem_parts_iff.mp hpart) (((h _ hpart).complete rest found).mp hplace)
    · intro hleads
      cases hleads with
      | here hends => exact absurd hends hinner
      | @step _ part _ step rest hfirst hbelow =>
        have hpart := mem_parts_iff.mpr hfirst
        exact ⟨(step, part), hpart,
          List.mem_map.mpr ⟨(rest, leaf), ((h _ hpart).complete rest leaf).mpr hbelow, rfl⟩⟩
  sorted := by
    refine List.pairwise_flatMap.mpr ⟨?_, ?_⟩
    · intro part hpart
      exact (h part hpart).sorted.map _ fun _ _ hless => List.Lex.cons hless
    · refine (pairwise_parts given exports).imp ?_
      intro part later hbefore place hplace other hother
      obtain ⟨_, -, rfl⟩ := List.mem_map.mp hplace
      obtain ⟨_, -, rfl⟩ := List.mem_map.mp hother
      exact List.Lex.rel hbefore

theorem resolveTarget_eq_parts {exports : Exports} (hinner : ¬ exports.IsLeaf)
    (names : List String) (key : String) :
    resolveTarget names key exports =
      firstResolved ((parts names exports).map fun part => resolveTarget names key part.2) := by
  cases exports with
  | fallbacks items =>
    have hitems : items.zipIdx.map (fun entry => resolveTarget names key entry.1) =
        items.map (resolveTarget names key) := by
      rw [← List.zipIdx_map_fst 0 items, List.map_map]
      simp
    rw [resolveTarget, resolveItems_eq_map, parts, List.map_map, ← hitems]
    rfl
  | conditions entries =>
    rw [resolveTarget_conditions_eq, parts, List.map_filterMap]
    simp only [Option.map_map, Function.comp_def]
  | _ => exact absurd trivial hinner

/-- Resolving an export tries its leaves, in the order of their places. -/
theorem exists_leaves (given : List String) (exports : Exports) :
    ∃ leaves, LeavesInOrder given exports leaves ∧
      ∀ key, resolveTarget (ofList given).names key exports =
        firstResolved (leaves.map fun leaf => resolveTarget (ofList given).names key leaf.2) := by
  induction exports using parts_induct (ofList given).names with
  | whole exports ih =>
    by_cases hleaf : exports.IsLeaf
    · refine ⟨[([], exports)], hleaf.leavesInOrder given, fun key => ?_⟩
      rw [List.map_singleton, firstResolved_singleton]
    · choose! leaves hordered hresolve using ih
      refine ⟨_, leavesInOrder_of_parts hleaf hordered, fun key => ?_⟩
      have hparts : ∀ part ∈ parts (ofList given).names exports,
          resolveTarget (ofList given).names key part.2 =
            firstResolved ((leavesBelow leaves part).map fun leaf =>
              resolveTarget (ofList given).names key leaf.2) := by
        intro part hpart
        rw [hresolve part hpart key, leavesBelow, List.map_map]
        rfl
      rw [resolveTarget_eq_parts hleaf, List.map_flatMap, firstResolved_flatMap]
      exact congrArg firstResolved (List.map_congr_left hparts)

/-- A run asks for the names that its caller lists, each once and where it is first mentioned, and
for `default` at last, wherever it is listed; asking for these names again is the same run. When
the run resolves an export it tries the leaves one after the other, sorted by the steps that lead
to them. So at whatever depth the ways to two leaves part at two conditions, the leaf below the
later condition is tried only after the other has been tried in vain: below `default` only after
all that is below other names of the same object. -/
theorem tried_by_first_mention (given : List String) :
    let run := Conditions.ofList given
    run.names.Nodup ∧
    run.names.getLast? = some defaultCondition ∧ defaultCondition ∉ run.names.dropLast ∧
    (∀ name, name ∈ run.names ↔ name ∈ given ∨ name = defaultCondition) ∧
    run.names.Pairwise (Precedes given) ∧
    Conditions.ofList run.names = run ∧
    (∀ others, others.filter (· ≠ defaultCondition) = given.filter (· ≠ defaultCondition) →
      Conditions.ofList others = run) ∧
    ∀ key exports, ∃ tried untried,
      LeavesInOrder given exports (tried ++ untried) ∧
      InTurn (fun leaf => resolveTarget run.names key leaf.2) tried untried
        (resolveTarget run.names key exports) ∧
      ∀ front name later, Precedes given name later →
        ∀ steps leaf back found,
          Leads given exports (front ++ .condition name :: steps) leaf →
          (front ++ .condition later :: back, found) ∈ tried →
          (front ++ .condition name :: steps, leaf) ∈ tried ∧
            (resolveTarget run.names key leaf).value = none := by
  refine ⟨nodup_names_ofList given, ?_, default_notMem_dropLast given,
    fun _ => mem_names_ofList, pairwise_precedes given, ofList_names_ofList given,
    fun _ => ofList_congr, ?_⟩
  · rw [names_ofList, List.getLast?_concat]
  · intro key exports
    obtain ⟨leaves, hordered, hresolve⟩ := exists_leaves given exports
    obtain ⟨tried, untried, rfl, hturn⟩ :=
      exists_inTurn (fun leaf => resolveTarget (ofList given).names key leaf.2) leaves
    rw [← hresolve key] at hturn
    refine ⟨tried, untried, hordered, hturn, ?_⟩
    intro front name later hprecedes steps leaf back found hleads hfound
    have hleaf := (hordered.complete _ leaf).mpr hleads
    have hearlier : Earlier given (front ++ .condition name :: steps, leaf)
        (front ++ .condition later :: back, found) :=
      List.Lex.append_left _ (.rel (.condition hprecedes)) front
    exact hturn.of_before Earlier.asymm hordered.sorted hleaf hfound hearlier

/-- A caller that lists `default` first. -/
def exampleNames : List String := ["default", "import", "types", "import"]

/-- An object in which nothing gives a target, so that everything is tried. -/
def exampleUnresolved : Exports :=
  .conditions [("default", .conditions [("default", .null), ("types", .target "../a.d.ts")])]

theorem tried_by_first_mention_of_unresolved :
    (Conditions.ofList exampleNames).names = ["import", "types", "default"] ∧
    Conditions.ofList ["import", "types", "import"] = Conditions.ofList exampleNames ∧
    Precedes exampleNames "types" "default" ∧
    ∃ tried untried, LeavesInOrder exampleNames exampleUnresolved (tried ++ untried) ∧
      ([.condition "default", .condition "default"], .null) ∈ tried ∧
      ([.condition "default", .condition "types"], .target "../a.d.ts") ∈ tried := by
  obtain ⟨-, -, -, -, -, -, hsame, htried⟩ := tried_by_first_mention exampleNames
  obtain ⟨tried, untried, hordered, hturn, hearlier⟩ := htried "." exampleUnresolved
  have hprecedes : Precedes exampleNames "types" "default" := by
    unfold Precedes
    decide
  have houter : Goes exampleNames exampleUnresolved (.condition "default") _ :=
    @Goes.condition _ [] [] _ _ (by decide) (by decide)
  have htypes : Leads exampleNames exampleUnresolved [.condition "default", .condition "types"]
      (.target "../a.d.ts") :=
    .step houter (.step (@Goes.condition _ [("default", .null)] [] _ _ (by decide) (by decide))
      (.here trivial))
  have hdefault : Leads exampleNames exampleUnresolved
      [.condition "default", .condition "default"] .null :=
    .step houter (.step (@Goes.condition _ [] [("types", .target "../a.d.ts")] _ _ (by decide)
      (by decide)) (.here trivial))
  have hall : untried = [] := by
    by_contra hsome
    exact hturn.stops hsome rfl
  have hlast : ([.condition "default", .condition "default"], .null) ∈ tried := by
    have hmem := (hordered.complete _ _).mpr hdefault
    rwa [hall, List.append_nil] at hmem
  obtain ⟨hfirst, -⟩ := hearlier [.condition "default"] "types" "default" hprecedes [] _ [] _
    htypes hlast
  exact ⟨by decide, hsame _ (by decide), hprecedes, tried, untried, hordered, hlast, hfirst⟩

end Exports

end DocPlan
