import DocPlan.Error
import DocPlan.Json.Basic

/-!
# Navigation layouts
-/

namespace DocPlan

/-- The layout of the navigation in the rendered documentation. -/
inductive Navigation where
  | compact
  | flat
  deriving DecidableEq, Repr

namespace Navigation

def name : Navigation → String
  | .compact => "compact"
  | .flat => "flat"

def all : List Navigation := [.compact, .flat]

/-- The layout of a name. -/
def ofName (text : String) : Except Error Navigation :=
  match all.find? (·.name = text) with
  | some navigation => .ok navigation
  | none =>
    .error (.invalidField "navigation" s!"expected one of compact, flat; found '{text}'")

/-- The layout that a value names. -/
def ofJson? : Json → Option Navigation :=
  Json.choice? (all.map fun navigation => (navigation.name, navigation))

end Navigation

end DocPlan
