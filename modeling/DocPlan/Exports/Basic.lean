import DocPlan.Json.Reader

/-!
# The `exports` field of a package

An export is a target, or an object that selects among exports. What an object
selects by is told by its keys: keys that begin with a dot are subpaths of the
package, all others are conditions. An object with both is `mixed`.

Objects keep their entries in order and with repeated keys, so an export read
from a text (`Exports.ofDocument`) may hold more entries than one made from a
value (`Exports.ofJson`).
-/

namespace DocPlan

/-- The kinds of values that are no export. -/
inductive Scalar where
  | number
  | boolean
  deriving DecidableEq, Repr

def Scalar.name : Scalar → String
  | .number => "number"
  | .boolean => "boolean"

inductive Exports where
  /-- The path of a file in the package. -/
  | target (text : String)
  /-- Not exported. -/
  | null
  /-- The first item that resolves is taken. -/
  | fallbacks (items : List Exports)
  | conditions (entries : List (String × Exports))
  | subpaths (entries : List (String × Exports))
  /-- Subpaths and conditions in one object. -/
  | mixed (entries : List (String × Exports))
  | unsupported (scalar : Scalar)
  deriving Repr, Inhabited

namespace Exports

/-- Induction over an export: in a list or an object the statement may be assumed
of everything that stands directly in it. -/
@[elab_as_elim, induction_eliminator]
theorem nestedInduction {motive : Exports → Prop}
    (target : ∀ text, motive (.target text))
    (null : motive .null)
    (fallbacks : ∀ items, (∀ item ∈ items, motive item) → motive (.fallbacks items))
    (conditions : ∀ entries, (∀ entry ∈ entries, motive entry.2) →
      motive (.conditions entries))
    (subpaths : ∀ entries, (∀ entry ∈ entries, motive entry.2) → motive (.subpaths entries))
    (mixed : ∀ entries, (∀ entry ∈ entries, motive entry.2) → motive (.mixed entries))
    (unsupported : ∀ scalar, motive (.unsupported scalar)) (exports : Exports) :
    motive exports :=
  @Exports.rec motive (fun items => ∀ item ∈ items, motive item)
    (fun entries => ∀ entry ∈ entries, motive entry.2) (fun entry => motive entry.2)
    target null fallbacks conditions subpaths mixed unsupported
    (by simp) (fun _ _ head tail => List.forall_mem_cons.mpr ⟨head, tail⟩)
    (by simp) (fun _ _ head tail => List.forall_mem_cons.mpr ⟨head, tail⟩)
    (fun _ _ second => second) exports

/-- Whether a key names a subpath. -/
def isSubpathKey (key : String) : Bool :=
  key.toList.head? = some '.'

/-- The export of an object with these entries. -/
def ofEntries (entries : List (String × Exports)) : Exports :=
  if entries.all fun entry => !isSubpathKey entry.1 then .conditions entries
  else if entries.all fun entry => isSubpathKey entry.1 then .subpaths entries
  else .mixed entries

mutual

/-- The export that a value describes. -/
def ofJson : Json → Exports
  | .null => .null
  | .boolean _ => .unsupported .boolean
  | .number _ => .unsupported .number
  | .string text => .target text
  | .array items => .fallbacks (ofJsonItems items)
  | .object members => ofEntries (ofJsonMembers members)

def ofJsonItems : List Json → List Exports
  | [] => []
  | item :: rest => ofJson item :: ofJsonItems rest

def ofJsonMembers : List (String × Json) → List (String × Exports)
  | [] => []
  | (key, value) :: rest => (key, ofJson value) :: ofJsonMembers rest

end

mutual

/-- The export that a text describes, repeated keys included. -/
def ofDocument : Json.Document → Exports
  | .null => .null
  | .boolean _ => .unsupported .boolean
  | .number _ => .unsupported .number
  | .string text => .target text
  | .array items => .fallbacks (ofDocumentItems items)
  | .object members => ofEntries (ofDocumentMembers members)

def ofDocumentItems : List Json.Document → List Exports
  | [] => []
  | item :: rest => ofDocument item :: ofDocumentItems rest

def ofDocumentMembers : List (Json.Key × Json.Document) → List (String × Exports)
  | [] => []
  | (key, value) :: rest => (key.text, ofDocument value) :: ofDocumentMembers rest

end

theorem ofJsonItems_eq_map (items : List Json) : ofJsonItems items = items.map ofJson := by
  induction items with
  | nil => rfl
  | cons item rest ih => rw [ofJsonItems, ih, List.map_cons]

theorem ofJsonMembers_eq_map (members : Members) :
    ofJsonMembers members = members.map fun member => (member.1, ofJson member.2) := by
  induction members with
  | nil => rfl
  | cons member rest ih => rw [ofJsonMembers, ih, List.map_cons]

theorem ofDocumentItems_eq_map (items : List Json.Document) :
    ofDocumentItems items = items.map ofDocument := by
  induction items with
  | nil => rfl
  | cons item rest ih => rw [ofDocumentItems, ih, List.map_cons]

theorem ofDocumentMembers_eq_map (members : List (Json.Key × Json.Document)) :
    ofDocumentMembers members =
      members.map fun member => (member.1.text, ofDocument member.2) := by
  induction members with
  | nil => rfl
  | cons member rest ih => rw [ofDocumentMembers, ih, List.map_cons]

/-- The name of an export's kind. -/
def kind : Exports → String
  | .target _ => "string"
  | .null => "null"
  | .fallbacks _ => "array"
  | .conditions _ => "conditions object"
  | .subpaths _ => "subpath object"
  | .mixed _ => "mixed object"
  | .unsupported scalar => scalar.name

end Exports

end DocPlan
