import DocPlan.Entry.Collect

/-!
# Requests

What a caller asks for, before anything in it is checked. A request may be
written as an object (`Request.ofJson`): its keys are fixed, null stands for a
field that is not set, and the first member that does not fit is the error.
-/

namespace DocPlan

structure Request where
  navigation : Option String := none
  condition : Option String := none
  output : Option String := none
  /-- A display name for the package. -/
  name : Option String := none
  /-- An entry file, a manifest or the directory of a package. -/
  path : Option FilePath := none
  tsconfig : Option FilePath := none
  typedocOptions : Option Members := none
  typedocJson : Option FilePath := none
  linkPlugins : Option (List String) := none
  compilerOptions : Option Members := none
  /-- Modules and their display names, in order. -/
  moduleNames : Option (List (String × String)) := none
  policy : DeclarationPolicy := .warnAndInclude

namespace Request

/-! ## Shapes of values -/

/-- The value of a field is not of the kind asked for. -/
def unexpected (field wanted : String) (found : Json) : Error :=
  .invalidField field s!"expected {wanted}, found {found.kind}"

def readString (field : String) : Json → Except Error (Option String)
  | .null => .ok none
  | .string text => .ok (some text)
  | other => .error (unexpected field "a string" other)

def readPath (field : String) (value : Json) : Except Error (Option FilePath) :=
  (readString field value).map (·.map FilePath.ofString)

def readObject (field : String) : Json → Except Error (Option Members)
  | .null => .ok none
  | .object members => .ok (some members)
  | other => .error (unexpected field "an object" other)

/-- The texts of a list, or the first item that is no text. -/
def readItems (field : String) : List Json → Except Error (List String)
  | [] => .ok []
  | .string text :: rest => (readItems field rest).map (text :: ·)
  | other :: _ => .error (.invalidField field s!"entries must be strings, found {other.kind}")

def readStrings (field : String) : Json → Except Error (Option (List String))
  | .null => .ok none
  | .array items => (readItems field items).map some
  | other => .error (unexpected field "a list" other)

/-- The texts of an object's members, or the first member that is no text. -/
def readNames (field : String) : Members → Except Error (List (String × String))
  | [] => .ok []
  | (id, .string display) :: rest => (readNames field rest).map ((id, display) :: ·)
  | (id, other) :: _ =>
    .error (.invalidField field
      s!"display name for '{id}' must be a string, found {other.kind}")

def readNameTable (field : String) : Json → Except Error (Option (List (String × String)))
  | .null => .ok none
  | .object members => (readNames field members).map some
  | other => .error (unexpected field "an object" other)

/-- The policy that a flag asks for; null and false keep the one there is. -/
def readPolicy (field : String) (policy : DeclarationPolicy) :
    Json → Except Error DeclarationPolicy
  | .boolean true => .ok .exclude
  | .boolean false => .ok policy
  | .null => .ok policy
  | other => .error (unexpected field "a boolean" other)

/-! ## Members of a request -/

/-- Sets the field of a member. -/
def set (request : Request) (member : String × Json) : Except Error Request :=
  let (key, value) := member
  match key with
  | "navigation" => (readString key value).map fun v => { request with navigation := v }
  | "condition" => (readString key value).map fun v => { request with condition := v }
  | "output" => (readString key value).map fun v => { request with output := v }
  | "name" => (readString key value).map fun v => { request with name := v }
  | "path" => (readPath key value).map fun v => { request with path := v }
  | "tsconfig" => (readPath key value).map fun v => { request with tsconfig := v }
  | "typedocOptions" => (readObject key value).map fun v => { request with typedocOptions := v }
  | "typedocJson" => (readPath key value).map fun v => { request with typedocJson := v }
  | "linkPlugins" => (readStrings key value).map fun v => { request with linkPlugins := v }
  | "compilerOptions" =>
    (readObject key value).map fun v => { request with compilerOptions := v }
  | "moduleNames" => (readNameTable key value).map fun v => { request with moduleNames := v }
  | "strictDeclarations" =>
    (readPolicy key request.policy value).map fun v => { request with policy := v }
  | other => .error (.invalidField other "unknown request field")

/-- The request that a value describes. -/
def ofJson : Json → Except Error Request
  | .object members => members.foldlM set {}
  | other => .error (unexpected "request" "an object" other)

end Request

end DocPlan
