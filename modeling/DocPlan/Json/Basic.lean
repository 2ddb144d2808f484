import DocPlan.Keyed
import DocPlan.Number.Binary64

/-!
# JSON values

Numbers are of two sorts, integers and binary floating point, and a number of
one sort never equals one of the other. An object is a list of members in the
order in which they were declared.

`Json.same` is equality as values: the order of the members of an object does
not count, nor does the sign of zero.
-/

namespace DocPlan

/-- A number as written: with a fraction or an exponent it is `real`. -/
inductive Number where
  | integer (value : Int)
  | real (value : Binary64)
  deriving DecidableEq, Repr

/-- Equality as values; the two sorts are disjoint. -/
def Number.same : Number → Number → Bool
  | .integer a, .integer b => a == b
  | .real a, .real b => a.sameValue b
  | _, _ => false

inductive Json where
  | null
  | boolean (value : Bool)
  | number (value : Number)
  | string (text : String)
  | array (items : List Json)
  | object (members : List (String × Json))
  deriving Repr, Inhabited

/-- The members of an object, in order of declaration. -/
abbrev Members := List (String × Json)

namespace Json

/-- Induction over a value: in a list or an object the statement may be assumed of every value
that stands directly in it. -/
@[elab_as_elim, induction_eliminator]
theorem nestedInduction {motive : Json → Prop}
    (null : motive .null)
    (boolean : ∀ value, motive (.boolean value))
    (number : ∀ value, motive (.number value))
    (string : ∀ text, motive (.string text))
    (array : ∀ items, (∀ item ∈ items, motive item) → motive (.array items))
    (object : ∀ members, (∀ member ∈ members, motive member.2) → motive (.object members))
    (value : Json) : motive value :=
  @Json.rec motive (fun items => ∀ item ∈ items, motive item)
    (fun members => ∀ member ∈ members, motive member.2) (fun member => motive member.2)
    null boolean number string array object
    (by simp) (fun _ _ head tail => List.forall_mem_cons.mpr ⟨head, tail⟩)
    (by simp) (fun _ _ head tail => List.forall_mem_cons.mpr ⟨head, tail⟩)
    (fun _ _ second => second) value

/-- The name of a value's kind. -/
def kind : Json → String
  | .null => "null"
  | .boolean _ => "boolean"
  | .number _ => "number"
  | .string _ => "string"
  | .array _ => "array"
  | .object _ => "object"

def isNull : Json → Bool
  | .null => true
  | _ => false

theorem isNull_iff {value : Json} : value.isNull = true ↔ value = .null := by
  cases value <;> simp [isNull]

theorem isNull_eq_false_iff {value : Json} : value.isNull = false ↔ value ≠ .null := by
  rw [← Bool.not_eq_true, isNull_iff]

def isObject : Json → Bool
  | .object _ => true
  | _ => false

def string? : Json → Option String
  | .string text => some text
  | _ => none

/-- The value of a member of an object. -/
def get? (key : String) : Json → Option Json
  | .object members => Keyed.get? key members
  | _ => none

mutual

/-- Equality as values. -/
def same : Json → Json → Bool
  | .null, .null => true
  | .boolean a, .boolean b => a == b
  | .number a, .number b => a.same b
  | .string a, .string b => a == b
  | .array a, .array b => sameItems a b
  | .object a, .object b => a.length == b.length && sameMembers a b
  | _, _ => false

def sameItems : List Json → List Json → Bool
  | [], [] => true
  | a :: as, b :: bs => same a b && sameItems as bs
  | _, _ => false

/-- Whether every member on the left has an equal value on the right. -/
def sameMembers : List (String × Json) → List (String × Json) → Bool
  | [], _ => true
  | (key, value) :: rest, others =>
    (match Keyed.get? key others with
      | some other => same value other
      | none => false) && sameMembers rest others

end

/-- The alternative that a value names: its name, or an object whose only key is
the name and whose only value is null. -/
def choice? {α : Type} (names : List (String × α)) : Json → Option α
  | .string name => Keyed.get? name names
  | .object [(name, .null)] => Keyed.get? name names
  | _ => none

/-- An optional text, absent as null. -/
def ofString? : Option String → Json
  | some text => .string text
  | none => .null

/-- A count. -/
def ofNat (n : Nat) : Json := .number (.integer n)

/-- A list of texts. -/
def strings (texts : List String) : Json := .array (texts.map .string)

end Json

/-- Equality of the members of two objects, in any order. -/
def Members.same (a b : Members) : Bool :=
  (Json.object a).same (.object b)

end DocPlan
