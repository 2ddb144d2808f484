import DocPlan.Json.StringReader

/-!
# Reading JSON

A text is read into a `Document`, which keeps what a value forgets: a key that
is declared more than once is there each time, with the place where its
declaration was read. `Document.toJson` gives the value, in which a repeated key
stands at its first place with its last value.

The reader nests at most 127 containers (`nestingLimit`). It is defined by
recursion on that depth, and the loop over the members of a container by
recursion on a bound for their number.
-/

namespace DocPlan.Json

/-- A key as it was declared: its text, and the bytes left at its colon. -/
structure Key where
  text : String
  left : Nat
  deriving DecidableEq, Repr

/-- A JSON text as it was written, up to spaces and the spelling of strings and
numbers. -/
inductive Document where
  | null
  | boolean (value : Bool)
  | number (value : Number)
  | string (text : String)
  | array (items : List Document)
  | object (members : List (Key × Document))
  deriving Inhabited

mutual

/-- The value of a document. -/
def Document.toJson : Document → Json
  | .null => .null
  | .boolean value => .boolean value
  | .number value => .number value
  | .string text => .string text
  | .array items => .array (itemsToJson items)
  | .object members => .object (Keyed.collapse (membersToJson members))

def itemsToJson : List Document → List Json
  | [] => []
  | item :: rest => item.toJson :: itemsToJson rest

def membersToJson : List (Key × Document) → List (String × Json)
  | [] => []
  | (key, value) :: rest => (key.text, value.toJson) :: membersToJson rest

end

/-- Induction over a document: in a list or an object the statement may be assumed of
every value that stands directly in it. -/
@[elab_as_elim, induction_eliminator]
theorem Document.nestedInduction {motive : Document → Prop}
    (null : motive .null)
    (boolean : ∀ value, motive (.boolean value))
    (number : ∀ value, motive (.number value))
    (string : ∀ text, motive (.string text))
    (array : ∀ items, (∀ item ∈ items, motive item) → motive (.array items))
    (object : ∀ members, (∀ member ∈ members, motive member.2) → motive (.object members))
    (document : Document) : motive document :=
  @Document.rec motive (fun items => ∀ item ∈ items, motive item)
    (fun members => ∀ member ∈ members, motive member.2) (fun member => motive member.2)
    null boolean number string array object
    (by simp) (fun _ _ head tail => List.forall_mem_cons.mpr ⟨head, tail⟩)
    (by simp) (fun _ _ head tail => List.forall_mem_cons.mpr ⟨head, tail⟩)
    (fun _ _ second => second) document

theorem itemsToJson_eq_map (items : List Document) :
    itemsToJson items = items.map Document.toJson := by
  induction items with
  | nil => rfl
  | cons item rest ih => rw [itemsToJson, ih, List.map_cons]

theorem membersToJson_eq_map (members : List (Key × Document)) :
    membersToJson members = members.map fun member => (member.1.text, member.2.toJson) := by
  induction members with
  | nil => rfl
  | cons member rest ih => rw [membersToJson, ih, List.map_cons]

/-- The characters that may stand between tokens. -/
def isSpace (c : Char) : Bool :=
  c = ' ' || c = '\t' || c = '\n' || c = '\r'

def skipSpace : List Char → List Char
  | [] => []
  | c :: rest => if isSpace c then skipSpace rest else c :: rest

/-- Reads the rest of a word. -/
def readWord : (word : List Char) → List Char → Except Fault (List Char)
  | [], rest => .ok rest
  | _ :: _, [] => failHere .endInValue []
  | expected :: word, c :: rest =>
    if c = expected then readWord word rest else failNext .expectedLiteral (c :: rest)

/-- Steps over the comma before the next item of a list. -/
def nextItem (input : List Char) : Except Fault (List Char) :=
  match input with
  | ',' :: rest =>
    match skipSpace rest with
    | [] => failNext .endInValue []
    | ']' :: after => failNext .trailingComma (']' :: after)
    | after => .ok after
  | _ => failNext .expectedListCommaOrEnd input

/-- Reads the items of a list up to its closing bracket. -/
def readItems {α : Type} (readItem : List Char → Except Fault (α × List Char)) :
    (bound : Nat) → (first : Bool) → List Char → Except Fault (List α × List Char)
  | 0, _, input => failNext .endInList input
  | bound + 1, first, input =>
    match skipSpace input with
    | [] => failNext .endInList []
    | ']' :: rest => .ok ([], rest)
    | rest => do
      let start ← if first then .ok rest else nextItem rest
      let (item, after) ← readItem start
      let (items, last) ← readItems readItem bound false after
      return (item :: items, last)

/-- Steps over the opening quote of the first key of an object. -/
def firstKey (input : List Char) : Except Fault (List Char) :=
  match input with
  | '"' :: rest => .ok rest
  | _ => failNext .keyNotString input

/-- Steps over the comma and the opening quote before the next key. -/
def nextKey (input : List Char) : Except Fault (List Char) :=
  match input with
  | ',' :: rest =>
    match skipSpace rest with
    | [] => failNext .endInValue []
    | '\x7d' :: after => failNext .trailingComma ('\x7d' :: after)
    | after => firstKey after
  | _ => failNext .expectedObjectCommaOrEnd input

/-- Reads a key after its opening quote, and the colon. -/
def readKey (input : List Char) : Except Fault (Key × List Char) := do
  let (text, rest) ← StringReader.read 0 input
  match skipSpace rest with
  | [] => failNext .endInObject []
  | ':' :: after => return (⟨String.ofList text, Utf8.size (':' :: after)⟩, after)
  | after => failNext .expectedColon after

/-- Reads the members of an object up to its closing brace. -/
def readMembers {α : Type} (readValue : List Char → Except Fault (α × List Char)) :
    (bound : Nat) → (first : Bool) → List Char →
      Except Fault (List (Key × α) × List Char)
  | 0, _, input => failNext .endInObject input
  | bound + 1, first, input =>
    match skipSpace input with
    | [] => failNext .endInObject []
    | '\x7d' :: rest => .ok ([], rest)
    | rest => do
      let start ← if first then firstKey rest else nextKey rest
      let (key, afterKey) ← readKey start
      let (value, after) ← readValue afterKey
      let (members, last) ← readMembers readValue bound false after
      return ((key, value) :: members, last)

/-- The number of containers that may be open at once. -/
def nestingLimit : Nat := 127

/-- Reads a word that stands for a value, after its first letter. -/
def readConstant (word : List Char) (value : Document) (rest : List Char) :
    Except Fault (Document × List Char) := do
  let after ← readWord word rest
  return (value, after)

/-- Reads a value inside of which `depth` more containers may nest. -/
def readValue (depth : Nat) (input : List Char) : Except Fault (Document × List Char) :=
  match skipSpace input with
  | [] => failNext .endInValue []
  | 'n' :: rest => readConstant ['u', 'l', 'l'] .null rest
  | 't' :: rest => readConstant ['r', 'u', 'e'] (.boolean true) rest
  | 'f' :: rest => readConstant ['a', 'l', 's', 'e'] (.boolean false) rest
  | '"' :: rest => do
    let (text, after) ← StringReader.read 0 rest
    return (.string (String.ofList text), after)
  | '[' :: rest =>
    match depth with
    | 0 => failNext .tooDeep ('[' :: rest)
    | inner + 1 => do
      let (items, after) ← readItems (readValue inner) (rest.length + 1) true rest
      return (.array items, after)
  | '\x7b' :: rest =>
    match depth with
    | 0 => failNext .tooDeep ('\x7b' :: rest)
    | inner + 1 => do
      let (members, after) ← readMembers (readValue inner) (rest.length + 1) true rest
      return (.object members, after)
  | c :: rest =>
    if c = '-' || c.isDigit then do
      let (found, after) ← readNumber (c :: rest)
      return (.number found, after)
    else failNext .expectedValue (c :: rest)

/-- Reads a whole text as one document. -/
def readText (text : List Char) : Except Fault Document := do
  let (document, rest) ← readValue nestingLimit text
  match skipSpace rest with
  | [] => return document
  | after => failNext .trailingCharacters after

/-- Reads a document, or says what is wrong with the text. -/
def Document.read (text : String) : Except String Document :=
  (readText text.toList).mapError (·.describe text.toList)

/-- Reads a value, or says what is wrong with the text. -/
def read (text : String) : Except String Json :=
  (Document.read text).map (·.toJson)

end DocPlan.Json
