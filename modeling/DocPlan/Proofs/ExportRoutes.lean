import DocPlan.Exports.Resolve
import Mathlib.Data.List.Lex

/-!
# Routes through an export

A route leads from an export down to one of its targets. In a list it goes on at
any item; in an object of conditions it goes on at the last entry of a condition
that is asked for; nothing else leads on, and it may end only at a target that
stays in the package. Its steps are numbers: the place of the item, or the place
of the condition in the order of precedence.

Main result: `resolveTarget_eq_least_route`. Resolving an export finds a target
if and only if there is a route, and then it is the target of the least route in
lexicographic order.
-/

namespace DocPlan.Exports

/-! ## Targets that stay in the package -/

/-- Either separator of the segments of a target. -/
def isSeparator (c : Char) : Bool := c = '/' || c = '\\'

/-- A target begins with `./`, and no segment of it leads out of the package. -/
def StaysInside (text : String) : Prop :=
  (∃ rest, text.toList = '.' :: '/' :: rest) ∧
    ∀ segment ∈ text.toList.splitOnP isSeparator,
      segment ≠ "..".toList ∧ segment ≠ "node_modules".toList

theorem targetSegments_eq_splitOnP (chars : List Char) :
    targetSegments chars = chars.splitOnP isSeparator := by
  induction chars with
  | nil => rfl
  | cons c rest ih =>
    rw [targetSegments, List.splitOnP_cons_eq_if_modifyHead, ih]
    by_cases hc : c = '/' ∨ c = '\\'
    · have hsep : isSeparator c = true := by simpa [isSeparator] using hc
      rw [if_pos hc, if_pos hsep]
    · have hsep : ¬ isSeparator c = true := by simpa [isSeparator] using hc
      rw [if_neg hc, if_neg hsep]
      cases hsplit : rest.splitOnP isSeparator with
      | nil => exact absurd hsplit (List.splitOnP_ne_nil _ _)
      | cons first others => rfl

theorem escapes_eq_false_iff (segment : List Char) :
    escapes segment = false ↔ segment ≠ "..".toList ∧ segment ≠ "node_modules".toList := by
  rw [escapes, Bool.or_eq_false_iff, decide_eq_false_iff_not, decide_eq_false_iff_not]

/-- The first segment of a target that begins with `./` is harmless. -/
private theorem staysInside_iff_rest {text : String} {rest : List Char}
    (htext : text.toList = '.' :: '/' :: rest) :
    StaysInside text ↔ (targetSegments rest).any escapes = false := by
  have hsplit : text.toList.splitOnP isSeparator =
      ['.'] :: rest.splitOnP isSeparator := by
    rw [htext]
    have hdot : ∀ c ∈ ['.'], isSeparator c = false := by simp [isSeparator]
    exact List.splitOnP_append_cons_of_forall_mem hdot '/' (by decide) rest
  rw [List.any_eq_false, targetSegments_eq_splitOnP, StaysInside, hsplit, List.forall_mem_cons]
  simp only [Bool.not_eq_true, escapes_eq_false_iff]
  constructor
  · rintro ⟨-, -, hrest⟩
    exact hrest
  · intro hrest
    exact ⟨⟨rest, htext⟩, by decide, hrest⟩

/-- A target is accepted as it is, or not at all. -/
theorem checkTarget_eq_some_iff (key text leaf : String) :
    (checkTarget key text).value = some leaf ↔ StaysInside text ∧ leaf = text := by
  unfold checkTarget
  split
  next rest htext =>
    rw [staysInside_iff_rest htext]
    cases (targetSegments rest).any escapes
    · simp [eq_comm]
    · simp [rejected]
  next hother =>
    have hout : ¬ StaysInside text := fun ⟨⟨rest, htext⟩, _⟩ => hother rest htext
    simp [rejected, hout]

/-! ## Routes -/

/-- A route through an export under some names of conditions, the most wanted
first: its steps, and the target that it ends at. -/
inductive Route (names : List String) : Exports → List Nat → String → Prop where
  | target {text : String} (inside : StaysInside text) : Route names (.target text) [] text
  | fallback {items : List Exports} {index : Nat} {item : Exports} {steps : List Nat}
      {leaf : String} (at_index : items[index]? = some item) (below : Route names item steps leaf) :
      Route names (.fallbacks items) (index :: steps) leaf
  | condition {before after : List (String × Exports)} {index : Nat} {name : String}
      {item : Exports} {steps : List Nat} {leaf : String} (wanted : names[index]? = some name)
      (last : name ∉ Keyed.keys after) (below : Route names item steps leaf) :
      Route names (.conditions (before ++ (name, item) :: after)) (index :: steps) leaf

/-- What an export may go on to, by the number of the step; a condition without
an entry leads nowhere. -/
def branches (names : List String) : Exports → List (Option Exports)
  | .fallbacks items => items.map some
  | .conditions entries => names.map fun name => Keyed.last? name entries
  | _ => []

/-- A route with steps goes through a branch. -/
theorem route_cons_iff {names : List String} {exports : Exports} {index : Nat}
    {steps : List Nat} {leaf : String} :
    Route names exports (index :: steps) leaf ↔
      ∃ item, (branches names exports)[index]? = some (some item) ∧
        Route names item steps leaf := by
  constructor
  · intro hroute
    cases hroute with
    | fallback hitem hbelow => exact ⟨_, by simp [branches, hitem], hbelow⟩
    | @condition before after _ name item _ _ hwanted hlast hbelow =>
      have hentry : Keyed.last? name (before ++ (name, item) :: after) = some item :=
        Keyed.last?_eq_some_iff.mpr ⟨before, after, rfl, hlast⟩
      exact ⟨item, by simp [branches, hwanted, hentry], hbelow⟩
  · rintro ⟨item, hbranch, hbelow⟩
    cases exports with
    | fallbacks items =>
      have hitem : items[index]? = some item := by simpa [branches] using hbranch
      exact .fallback hitem hbelow
    | conditions entries =>
      obtain ⟨name, hwanted, hentry⟩ : ∃ name, names[index]? = some name ∧
          Keyed.last? name entries = some item := by simpa [branches] using hbranch
      obtain ⟨before, after, rfl, hlast⟩ := Keyed.last?_eq_some_iff.mp hentry
      exact .condition hwanted hlast hbelow
    | _ => simp [branches] at hbranch

/-- A route without steps stands at a target. -/
theorem route_nil_iff {names : List String} {exports : Exports} {leaf : String} :
    Route names exports [] leaf ↔ exports = .target leaf ∧ StaysInside leaf := by
  constructor
  · intro hroute
    cases hroute with
    | target hinside => exact ⟨rfl, hinside⟩
  · rintro ⟨rfl, hinside⟩
    exact .target hinside

/-- The steps of a route tell where it ends. -/
theorem Route.leaf_unique {names : List String} {exports : Exports} {steps : List Nat}
    {leaf other : String} (hroute : Route names exports steps leaf)
    (hother : Route names exports steps other) : leaf = other := by
  induction steps generalizing exports with
  | nil =>
    obtain ⟨hleaf, -⟩ := route_nil_iff.mp hroute
    obtain ⟨hsame, -⟩ := route_nil_iff.mp hother
    exact Exports.target.inj (hleaf.symm.trans hsame)
  | cons index rest ih =>
    obtain ⟨item, hitem, hbelow⟩ := route_cons_iff.mp hroute
    obtain ⟨item', hitem', hbelow'⟩ := route_cons_iff.mp hother
    obtain rfl : item = item' := by
      rw [hitem] at hitem'
      exact Option.some.inj (Option.some.inj hitem')
    exact ih hbelow hbelow'

/-! ## What resolving finds -/

theorem firstResolved_value (results : List (Noted (Option String))) :
    (firstResolved results).value = results.findSome? (·.value) := by
  induction results with
  | nil => rfl
  | cons result rest ih =>
    rw [firstResolved, Noted.value_bind, List.findSome?_cons]
    cases result.value with
    | none => exact ih
    | some leaf => rfl

theorem resolveItems_eq_map (names : List String) (key : String) (items : List Exports) :
    resolveItems names key items = items.map (resolveTarget names key) := by
  induction items with
  | nil => rfl
  | cons item rest ih => rw [resolveItems, ih, List.map_cons]

theorem resolveEntries_eq_map (names : List String) (key : String)
    (entries : List (String × Exports)) :
    resolveEntries names key entries =
      entries.map fun entry => (entry.1, resolveTarget names key entry.2) := by
  induction entries with
  | nil => rfl
  | cons entry rest ih => rw [resolveEntries, ih, List.map_cons]

/-- What resolving finds in a branch. -/
def resolveBranch (names : List String) (key : String) (branch : Option Exports) :
    Option String :=
  branch.bind fun item => (resolveTarget names key item).value

theorem resolveTarget_fallbacks (names : List String) (key : String) (items : List Exports) :
    (resolveTarget names key (.fallbacks items)).value =
      (branches names (.fallbacks items)).findSome? (resolveBranch names key) := by
  rw [resolveTarget, firstResolved_value, resolveItems_eq_map, List.findSome?_map, branches,
    List.findSome?_map]
  rfl

/-- The first of the chosen entries that gives something, found name by name. -/
private theorem findSome?_chosen (resolve : Exports → Noted (Option String))
    (wanted : List String) (entries : List (String × Exports)) :
    (chosen wanted (entries.map fun entry => (entry.1, resolve entry.2))).findSome? (·.value) =
      (wanted.map fun name => Keyed.last? name entries).findSome?
        fun branch => branch.bind fun item => (resolve item).value := by
  induction wanted with
  | nil => rfl
  | cons name rest ih =>
    rw [chosen] at ih
    rw [chosen, List.filterMap_cons, Keyed.last?_map, List.map_cons, List.findSome?_cons]
    cases Keyed.last? name entries with
    | none => exact ih
    | some item =>
      rw [Option.map_some, List.findSome?_cons, ih]
      rfl

theorem resolveTarget_conditions (names : List String) (key : String)
    (entries : List (String × Exports)) :
    (resolveTarget names key (.conditions entries)).value =
      (branches names (.conditions entries)).findSome? (resolveBranch names key) := by
  rw [resolveTarget, firstResolved_value, resolveEntries_eq_map, findSome?_chosen]
  rfl

private theorem nil_le (steps : List Nat) : [] ≤ steps := by
  cases steps with
  | nil => exact le_rfl
  | cons step rest => exact le_of_lt List.Lex.nil

/-- A route that comes before every other one. -/
def LeastRoute (names : List String) (exports : Exports) (steps : List Nat)
    (leaf : String) : Prop :=
  Route names exports steps leaf ∧
    ∀ other leaf', Route names exports other leaf' → steps ≤ other

/-- A result of resolving is right: nothing if there is no route, and else the
target of the least route. -/
def Decided (names : List String) (exports : Exports) : Option String → Prop
  | none => ∀ steps leaf, ¬ Route names exports steps leaf
  | some leaf => ∃ steps, LeastRoute names exports steps leaf

/-- The first branch that gives something decides an export that is no target:
the branches before it have no routes, and routes through later ones come later. -/
theorem decided_of_branches {names : List String} {exports : Exports} (key : String)
    (hinner : ∀ leaf, exports ≠ .target leaf)
    (hbranches : ∀ item, some item ∈ branches names exports →
      Decided names item (resolveTarget names key item).value) :
    Decided names exports ((branches names exports).findSome? (resolveBranch names key)) := by
  have hcons : ∀ steps leaf, Route names exports steps leaf →
      ∃ index rest item, steps = index :: rest ∧
        (branches names exports)[index]? = some (some item) ∧ Route names item rest leaf := by
    intro steps leaf hroute
    cases steps with
    | nil => exact absurd (route_nil_iff.mp hroute).1 (hinner leaf)
    | cons index rest =>
      obtain ⟨item, hitem, hbelow⟩ := route_cons_iff.mp hroute
      exact ⟨index, rest, item, rfl, hitem, hbelow⟩
  have hdead : ∀ item, some item ∈ branches names exports →
      resolveBranch names key (some item) = none →
      ∀ steps leaf, ¬ Route names item steps leaf := by
    intro item hmem hnone
    have hdecided := hbranches item hmem
    rwa [show (resolveTarget names key item).value = none from hnone] at hdecided
  cases hfound : (branches names exports).findSome? (resolveBranch names key) with
  | none =>
    intro steps leaf hroute
    obtain ⟨index, rest, item, -, hitem, hbelow⟩ := hcons steps leaf hroute
    have hmem := List.mem_of_getElem? hitem
    exact hdead item hmem (List.findSome?_eq_none_iff.mp hfound _ hmem) rest leaf hbelow
  | some leaf =>
    obtain ⟨before, branch, after, hsplit, hbranch, hbefore⟩ :=
      List.findSome?_eq_some_iff.mp hfound
    obtain ⟨item, rfl, hvalue⟩ := Option.bind_eq_some_iff.mp hbranch
    have hmem : some item ∈ branches names exports := by simp [hsplit]
    have hat : (branches names exports)[before.length]? = some (some item) := by simp [hsplit]
    have hdecided := hbranches item hmem
    rw [hvalue] at hdecided
    obtain ⟨steps, hroute, hleast⟩ := hdecided
    refine ⟨before.length :: steps, route_cons_iff.mpr ⟨item, hat, hroute⟩, ?_⟩
    intro other leaf' hother
    obtain ⟨index, rest, item', rfl, hitem', hbelow⟩ := hcons other leaf' hother
    -- Routes can share the first step only with the same branch, and below it `hleast` decides.
    rcases Nat.lt_trichotomy before.length index with hlt | heq | hgt
    · exact le_of_lt (List.Lex.rel hlt)
    · subst heq
      rw [hat] at hitem'
      obtain rfl := Option.some.inj (Option.some.inj hitem')
      exact List.cons_le_cons _ (hleast rest leaf' hbelow)
    · have hearly : some item' ∈ before := by
        rw [hsplit, List.getElem?_append_left hgt] at hitem'
        exact List.mem_of_getElem? hitem'
      have hmem' : some item' ∈ branches names exports := by simp [hsplit, hearly]
      exact absurd hbelow (hdead item' hmem' (hbefore _ hearly) rest leaf')

/-- Resolving decides every export. -/
theorem resolveTarget_decided (names : List String) (key : String) (exports : Exports) :
    Decided names exports (resolveTarget names key exports).value := by
  have hdead : ∀ dead : Exports, branches names dead = [] → (∀ leaf, dead ≠ .target leaf) →
      Decided names dead none := by
    intro dead hbranches hinner
    have hnone : ∀ item, some item ∈ branches names dead →
        Decided names item (resolveTarget names key item).value := by
      intro item hmem
      rw [hbranches] at hmem
      cases hmem
    have hdecided := decided_of_branches key hinner hnone
    rwa [hbranches] at hdecided
  induction exports with
  | target text =>
    rw [resolveTarget]
    cases hchecked : (checkTarget key text).value with
    | none =>
      intro steps leaf hroute
      cases hroute with
      | target hinside =>
        rw [(checkTarget_eq_some_iff key text text).mpr ⟨hinside, rfl⟩] at hchecked
        cases hchecked
    | some leaf =>
      obtain ⟨hinside, rfl⟩ := (checkTarget_eq_some_iff key text leaf).mp hchecked
      exact ⟨[], .target hinside, fun other _ _ => nil_le other⟩
  | null => exact hdead .null rfl (by simp)
  | fallbacks items ih =>
    rw [resolveTarget_fallbacks]
    apply decided_of_branches key (by simp)
    intro item hmem
    have hitem : item ∈ items := by simpa [branches] using hmem
    exact ih item hitem
  | conditions entries ih =>
    rw [resolveTarget_conditions]
    apply decided_of_branches key (by simp)
    intro item hmem
    obtain ⟨name, -, hentry⟩ : ∃ name ∈ names, Keyed.last? name entries = some item := by
      simpa [branches] using hmem
    obtain ⟨before, after, hsplit, -⟩ := Keyed.last?_eq_some_iff.mp hentry
    exact ih (name, item) (by simp [hsplit])
  | subpaths entries _ => exact hdead (.subpaths entries) rfl (by simp)
  | mixed entries _ => exact hdead (.mixed entries) rfl (by simp)
  | unsupported scalar => exact hdead (.unsupported scalar) rfl (by simp)

/-- Resolving an export gives nothing exactly when no route leads to a target that
stays in the package, and otherwise exactly the target of the least route. -/
theorem resolveTarget_eq_least_route (conditions : Conditions) (key : String)
    (exports : Exports) :
    ((resolveTarget conditions.names key exports).value = none ↔
      ∀ steps leaf, ¬ Route conditions.names exports steps leaf) ∧
    ∀ leaf, (resolveTarget conditions.names key exports).value = some leaf ↔
      ∃ steps, Route conditions.names exports steps leaf ∧
        ∀ other leaf', Route conditions.names exports other leaf' → steps ≤ other := by
  have hdecided := resolveTarget_decided conditions.names key exports
  cases hvalue : (resolveTarget conditions.names key exports).value with
  | none =>
    rw [hvalue] at hdecided
    refine ⟨⟨fun _ => hdecided, fun _ => rfl⟩, ?_⟩
    intro leaf
    constructor
    · intro h
      cases h
    · rintro ⟨steps, hroute, -⟩
      exact absurd hroute (hdecided steps leaf)
  | some found =>
    rw [hvalue] at hdecided
    obtain ⟨least, hleast, hfirst⟩ := hdecided
    refine ⟨⟨by simp, fun hnone => absurd hleast (hnone least found)⟩, ?_⟩
    intro leaf
    constructor
    · rintro ⟨rfl⟩
      exact ⟨least, hleast, hfirst⟩
    · rintro ⟨steps, hroute, hother⟩
      obtain rfl : least = steps :=
        le_antisymm (hfirst steps leaf hroute) (hother least found hleast)
      rw [hleast.leaf_unique hroute]

end DocPlan.Exports
