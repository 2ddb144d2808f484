import DocPlan.Error
import DocPlan.Json.Basic

/-!
# Display names of modules

A module has one display name. Naming it again with the same name changes
nothing; another name is a collision. Modules are listed in the order in which
they were first named.
-/

namespace DocPlan

/-- Modules and their display names. -/
structure ModuleNames where
  entries : List (String × String)
  deriving DecidableEq, Repr

namespace ModuleNames

def empty : ModuleNames := ⟨[]⟩

def get? (names : ModuleNames) (module : String) : Option String :=
  Keyed.get? module names.entries

def size (names : ModuleNames) : Nat := names.entries.length

def isEmpty (names : ModuleNames) : Bool := names.entries.isEmpty

/-- Names a module. -/
def insert (names : ModuleNames) (module display : String) : Except Error ModuleNames :=
  match names.get? module with
  | some existing =>
    if existing = display then .ok names
    else .error (.moduleNameCollision module existing display)
  | none => .ok ⟨names.entries ++ [(module, display)]⟩

/-- Names modules one after the other, up to the first collision. The names
given before it stay. -/
def insertAll (names : ModuleNames) : List (String × String) → ModuleNames × Option Error
  | [] => (names, none)
  | (module, display) :: rest =>
    match names.insert module display with
    | .ok names => names.insertAll rest
    | .error error => (names, some error)

/-- Names modules as another table does. -/
def extend (names other : ModuleNames) : ModuleNames × Option Error :=
  names.insertAll other.entries

/-- The table of a list of names, if none of them collide. -/
def ofList (entries : List (String × String)) : Except Error ModuleNames :=
  match empty.insertAll entries with
  | (names, none) => .ok names
  | (_, some error) => .error error

def toJson (names : ModuleNames) : Json :=
  .object (names.entries.map fun entry => (entry.1, .string entry.2))

end ModuleNames

end DocPlan
