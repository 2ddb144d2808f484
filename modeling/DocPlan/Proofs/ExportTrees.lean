import DocPlan.Proofs.ManifestReadings
import Mathlib.Data.List.Forall2

/-!
# Export trees and what they are made of

An export has the shape of the value or the document that it is made of: a list keeps its items,
and an object all its members in their order (`Mirrors`). What kind of object a node is told by its
keys at every node (`WellFormed`), so no object of conditions has a key that begins with a dot, and
an object with such a key is rejected as it stands, whatever is in it.

A document repeats keys, and a value made of it does not. `Document.plain` is the document with
nothing forgotten but the places of its keys, and both readers make the same export of it
(`ofDocument_eq_ofJson_plain`); so what is proved of values holds of documents.

Main result: `trees_mirror_sources`. Names of conditions that begin with a dot change nothing
(`WellFormed.resolveTarget_filter`), since no entry of an object of conditions has them.
-/

namespace DocPlan

/-! ## Documents with all their members -/

namespace Json

mutual

/-- A document without the places of its keys; repeated keys stand where they are declared. -/
def Document.plain : Document → Json
  | .null => .null
  | .boolean value => .boolean value
  | .number value => .number value
  | .string text => .string text
  | .array items => .array (plainItems items)
  | .object members => .object (plainMembers members)

def plainItems : List Document → List Json
  | [] => []
  | item :: rest => item.plain :: plainItems rest

def plainMembers : List (Key × Document) → Members
  | [] => []
  | (key, value) :: rest => (key.text, value.plain) :: plainMembers rest

end

theorem plainItems_eq_map (items : List Document) :
    plainItems items = items.map Document.plain := by
  induction items with
  | nil => rfl
  | cons item rest ih => rw [plainItems, ih, List.map_cons]

theorem plainMembers_eq_map (members : List (Key × Document)) :
    plainMembers members = members.map fun member => (member.1.text, member.2.plain) := by
  induction members with
  | nil => rfl
  | cons member rest ih => rw [plainMembers, ih, List.map_cons]

end Json

namespace Exports

/-- Both readers make the same export of what stands in a document. -/
theorem ofDocument_eq_ofJson_plain (document : Json.Document) :
    ofDocument document = ofJson document.plain := by
  induction document with
  | null => rfl
  | boolean => rfl
  | number => rfl
  | string => rfl
  | array items ih =>
    rw [ofDocument, Json.Document.plain, ofJson, ofDocumentItems_eq_map, ofJsonItems_eq_map,
      Json.plainItems_eq_map, List.map_map]
    exact congrArg Exports.fallbacks (List.map_congr_left ih)
  | object members ih =>
    have hentries : ∀ member ∈ members, (member.1.text, ofDocument member.2) =
        (member.1.text, ofJson member.2.plain) :=
      fun member hmember => congrArg (Prod.mk member.1.text) (ih member hmember)
    rw [ofDocument, Json.Document.plain, ofJson, ofDocumentMembers_eq_map, ofJsonMembers_eq_map,
      Json.plainMembers_eq_map, List.map_map]
    exact congrArg ofEntries (List.map_congr_left hentries)

/-! ## Kinds of objects -/

/-- A key that begins with a dot names a subpath. -/
def BeginsWithDot (key : String) : Prop := ∃ rest, key.toList = '.' :: rest

theorem isSubpathKey_iff {key : String} : isSubpathKey key = true ↔ BeginsWithDot key := by
  rw [isSubpathKey, decide_eq_true_iff, BeginsWithDot, List.head?_eq_some_iff]

theorem isSubpathKey_eq_false_iff {key : String} :
    isSubpathKey key = false ↔ ¬ BeginsWithDot key := by
  rw [← isSubpathKey_iff, Bool.not_eq_true]

instance : DecidablePred BeginsWithDot :=
  fun _ => decidable_of_iff _ isSubpathKey_iff

/-- The node of an object with these entries is of the kind that its keys tell; an object without
keys is one of conditions. -/
inductive Classified (entries : List (String × Exports)) : Exports → Prop where
  | conditions (none : ∀ entry ∈ entries, ¬ BeginsWithDot entry.1) :
    Classified entries (.conditions entries)
  | subpaths (nonempty : entries ≠ []) (all : ∀ entry ∈ entries, BeginsWithDot entry.1) :
    Classified entries (.subpaths entries)
  | mixed (subpath : ∃ entry ∈ entries, BeginsWithDot entry.1)
    (condition : ∃ entry ∈ entries, ¬ BeginsWithDot entry.1) : Classified entries (.mixed entries)

theorem all_not_isSubpathKey_iff {entries : List (String × Exports)} :
    (entries.all fun entry => !isSubpathKey entry.1) = true ↔
      ∀ entry ∈ entries, ¬ BeginsWithDot entry.1 := by
  simp only [List.all_eq_true, Bool.not_eq_true', isSubpathKey_eq_false_iff]

theorem all_isSubpathKey_iff {entries : List (String × Exports)} :
    (entries.all fun entry => isSubpathKey entry.1) = true ↔
      ∀ entry ∈ entries, BeginsWithDot entry.1 := by
  simp only [List.all_eq_true, isSubpathKey_iff]

/-- The node that is made of entries is the one of their kind. -/
theorem classified_iff {entries : List (String × Exports)} {node : Exports} :
    Classified entries node ↔ ofEntries entries = node := by
  unfold ofEntries
  constructor
  · intro h
    cases h with
    | conditions hnone => exact if_pos (all_not_isSubpathKey_iff.mpr hnone)
    | subpaths hnonempty hall =>
      obtain ⟨entry, hentry⟩ := List.exists_mem_of_ne_nil entries hnonempty
      rw [if_neg, if_pos (all_isSubpathKey_iff.mpr hall)]
      exact fun hnone => all_not_isSubpathKey_iff.mp hnone entry hentry (hall entry hentry)
    | mixed hsubpath hcondition =>
      obtain ⟨entry, hentry, hdot⟩ := hsubpath
      obtain ⟨other, hother, hname⟩ := hcondition
      rw [if_neg fun hnone => all_not_isSubpathKey_iff.mp hnone entry hentry hdot,
        if_neg fun hall => hname (all_isSubpathKey_iff.mp hall other hother)]
  · rintro rfl
    split
    next hnone => exact .conditions (all_not_isSubpathKey_iff.mp hnone)
    next hsome =>
      rw [all_not_isSubpathKey_iff] at hsome
      push Not at hsome
      obtain ⟨entry, hentry, hdot⟩ := hsome
      split
      next hall => exact .subpaths (List.ne_nil_of_mem hentry) (all_isSubpathKey_iff.mp hall)
      next hother =>
        rw [all_isSubpathKey_iff] at hother
        push Not at hother
        exact .mixed ⟨entry, hentry, hdot⟩ hother

/-! ## Trees -/

/-- Every object in an export is of the kind that its keys tell. -/
inductive WellFormed : Exports → Prop where
  | target (text : String) : WellFormed (.target text)
  | null : WellFormed .null
  | unsupported (scalar : Scalar) : WellFormed (.unsupported scalar)
  | fallbacks {items : List Exports} (each : ∀ item ∈ items, WellFormed item) :
    WellFormed (.fallbacks items)
  | object {entries : List (String × Exports)} {node : Exports} (kind : Classified entries node)
    (each : ∀ entry ∈ entries, WellFormed entry.2) : WellFormed node

/-- An export has the items of each list and the members of each object of a value, all of them
and in their order. -/
inductive Mirrors : Json → Exports → Prop where
  | null : Mirrors .null .null
  | boolean (value : Bool) : Mirrors (.boolean value) (.unsupported .boolean)
  | number (value : Number) : Mirrors (.number value) (.unsupported .number)
  | string (text : String) : Mirrors (.string text) (.target text)
  | array {items : List Json} {nodes : List Exports} (each : List.Forall₂ Mirrors items nodes) :
    Mirrors (.array items) (.fallbacks nodes)
  | object {members : Members} {entries : List (String × Exports)} {node : Exports}
    (keys : Keyed.keys entries = Keyed.keys members)
    (each : List.Forall₂ Mirrors (members.map (·.2)) (entries.map (·.2)))
    (kind : Classified entries node) : Mirrors (.object members) node

theorem ofJson_object_eq (members : Members) :
    ofJson (.object members) =
      ofEntries (members.map fun member => (member.1, ofJson member.2)) := by
  rw [ofJson, ofJsonMembers_eq_map]

/-- The export of a value is well formed. -/
theorem wellFormed_ofJson (value : Json) : WellFormed (ofJson value) := by
  induction value with
  | null => exact .null
  | boolean value => exact .unsupported .boolean
  | number value => exact .unsupported .number
  | string text => exact .target text
  | array items ih =>
    rw [ofJson, ofJsonItems_eq_map]
    exact .fallbacks (List.forall_mem_map.mpr ih)
  | object members ih =>
    rw [ofJson_object_eq]
    exact .object (classified_iff.mpr rfl) (List.forall_mem_map.mpr ih)

/-- Values are mirrored one by one by their exports, if each value is. -/
theorem forall₂_mirrors_iff {values : List Json} {nodes : List Exports}
    (h : ∀ value ∈ values, ∀ node, Mirrors value node ↔ ofJson value = node) :
    List.Forall₂ Mirrors values nodes ↔ values.map ofJson = nodes := by
  induction values generalizing nodes with
  | nil => rw [List.forall₂_nil_left_iff, List.map_nil, eq_comm]
  | cons value rest ih =>
    obtain ⟨hvalue, hrest⟩ := List.forall_mem_cons.mp h
    rw [List.forall₂_cons_left_iff, List.map_cons]
    simp only [hvalue, ih hrest]
    constructor
    · rintro ⟨node, others, rfl, rfl, rfl⟩
      rfl
    · rintro rfl
      exact ⟨_, _, rfl, rfl, rfl⟩

/-- The export of a value mirrors it, and no other export does. -/
theorem mirrors_iff {value : Json} (node : Exports) :
    Mirrors value node ↔ ofJson value = node := by
  induction value generalizing node with
  | null => exact ⟨fun h => by cases h; rfl, fun h => h ▸ .null⟩
  | boolean value => exact ⟨fun h => by cases h; rfl, fun h => h ▸ .boolean value⟩
  | number value => exact ⟨fun h => by cases h; rfl, fun h => h ▸ .number value⟩
  | string text => exact ⟨fun h => by cases h; rfl, fun h => h ▸ .string text⟩
  | array items ih =>
    rw [ofJson, ofJsonItems_eq_map]
    constructor
    · intro h
      cases h with
      | array heach => exact congrArg Exports.fallbacks ((forall₂_mirrors_iff ih).mp heach)
    · rintro rfl
      exact .array ((forall₂_mirrors_iff ih).mpr rfl)
  | object members ih =>
    have hvalues : ∀ value ∈ members.map (·.2), ∀ node, Mirrors value node ↔ ofJson value = node :=
      List.forall_mem_map.mpr ih
    rw [ofJson_object_eq]
    constructor
    · intro h
      cases h with
      | @object _ entries _ hkeys heach hkind =>
        have hentries : entries = members.map fun member => (member.1, ofJson member.2) := by
          rw [List.zip_of_prod hkeys ((forall₂_mirrors_iff hvalues).mp heach).symm, List.map_map,
            Keyed.keys, List.zip_map']
          rfl
        rw [← hentries]
        exact classified_iff.mp hkind
    · rintro rfl
      refine .object (Keyed.keys_map (fun _ => ofJson) members) ?_ (classified_iff.mpr rfl)
      rw [forall₂_mirrors_iff hvalues, List.map_map, List.map_map]
      rfl

/-! ## Resolving -/

/-- An object with a key that begins with a dot is rejected, whatever is in it. -/
theorem resolveTarget_of_subpathKey {entries : List (String × Exports)} {node : Exports}
    (hkind : Classified entries node) (hdot : ∃ entry ∈ entries, BeginsWithDot entry.1)
    (names : List String) (key : String) :
    resolveTarget names key node = rejected key "nests subpath keys inside a target" := by
  cases hkind with
  | conditions hnone =>
    obtain ⟨entry, hentry, hkey⟩ := hdot
    exact absurd hkey (hnone entry hentry)
  | subpaths => rw [resolveTarget]
  | mixed => rw [resolveTarget]

/-- Names that begin with a dot may as well not be asked for. -/
theorem WellFormed.resolveTarget_filter {tree : Exports} (h : WellFormed tree)
    (names : List String) (key : String) :
    resolveTarget names key tree =
      resolveTarget (names.filter fun name => ¬ BeginsWithDot name) key tree := by
  induction h with
  | target => rfl
  | null => rfl
  | unsupported => rfl
  | fallbacks _ ih =>
    rw [resolveTarget, resolveTarget, resolveItems_eq_map, resolveItems_eq_map]
    exact congrArg firstResolved (List.map_congr_left ih)
  | @object entries node hkind _ ih =>
    cases hkind with
    | conditions hnone =>
      rw [resolveTarget_conditions_eq, resolveTarget_conditions_eq, List.filterMap_filter]
      refine congrArg firstResolved (List.filterMap_congr fun name _ => ?_)
      cases hlast : Keyed.last? name entries with
      | none => simp
      | some item =>
        obtain ⟨before, after, hsplit, -⟩ := Keyed.last?_eq_some_iff.mp hlast
        have hentry : (name, item) ∈ entries := by simp [hsplit]
        rw [if_pos (decide_eq_true (hnone _ hentry)), Option.map_some, Option.map_some,
          ih _ hentry]
    | subpaths => rw [resolveTarget, resolveTarget]
    | mixed => rw [resolveTarget, resolveTarget]

/-- The export of a value, and that of a document with all its members, has the shape of what it
is made of: no item and no member is missing, added or moved. Each object in it is of the kind that
its keys tell. So resolving never goes on at a key that begins with a dot: an object that has one
is rejected as it stands, and names of conditions that begin with a dot change neither what is found
nor what is reported. -/
theorem trees_mirror_sources :
    (∀ value, WellFormed (ofJson value) ∧
      ∀ tree, Mirrors value tree ↔ ofJson value = tree) ∧
    (∀ document, WellFormed (ofDocument document) ∧
      ∀ tree, Mirrors document.plain tree ↔ ofDocument document = tree) ∧
    ∀ tree, WellFormed tree → ∀ names key,
      (∀ entries, Classified entries tree → (∃ entry ∈ entries, BeginsWithDot entry.1) →
        resolveTarget names key tree = rejected key "nests subpath keys inside a target") ∧
      resolveTarget names key tree =
        resolveTarget (names.filter fun name => ¬ BeginsWithDot name) key tree := by
  refine ⟨fun value => ⟨wellFormed_ofJson value, mirrors_iff⟩, ?_, ?_⟩
  · intro document
    rw [ofDocument_eq_ofJson_plain]
    exact ⟨wellFormed_ofJson document.plain, mirrors_iff⟩
  · intro tree htree names key
    refine ⟨?_, htree.resolveTarget_filter names key⟩
    intro entries hkind hdot
    exact resolveTarget_of_subpathKey hkind hdot names key

/-- An object that declares a key twice, first with a subpath in its value. -/
def exampleSource : String :=
  "\x7b\"a\":\x7b\".b\":\"./c.d.ts\"\x7d,\"a\":[null,\"./d.d.ts\"]\x7d"

/-- The export of that object. -/
def exampleTree : Exports :=
  .conditions [("a", .subpaths [(".b", .target "./c.d.ts")]),
    ("a", .fallbacks [.null, .target "./d.d.ts"])]

theorem trees_mirror_sources_of_repeated_key :
    ∃ document, Json.Document.read exampleSource = .ok document ∧
      Mirrors document.plain exampleTree ∧ WellFormed exampleTree ∧
      resolveTarget [".b", "a"] "." exampleTree = resolveTarget ["a"] "." exampleTree ∧
      (resolveTarget [".b", "a"] "." exampleTree).value = some "./d.d.ts" := by
  obtain ⟨-, hdocuments, hresolve⟩ := trees_mirror_sources
  obtain ⟨document, hsource, hmade⟩ : ∃ document,
      Json.Document.read exampleSource = .ok document ∧ ofDocument document = exampleTree :=
    ⟨.object [(⟨"a", 41⟩, .object [(⟨".b", 35⟩, .string "./c.d.ts")]),
      (⟨"a", 19⟩, .array [.null, .string "./d.d.ts"])], rfl, rfl⟩
  obtain ⟨htree, hmirrors⟩ := hdocuments document
  rw [hmade] at htree
  obtain ⟨-, hfilter⟩ := hresolve exampleTree htree [".b", "a"] "."
  exact ⟨document, hsource, (hmirrors exampleTree).mpr hmade, htree, hfilter, rfl⟩

end Exports

end DocPlan
