/-!
# Conditions in order of precedence

A run asks for the files of some conditions, the most wanted first. The
condition `default` is always the last one, wherever the caller put it, and no
condition is asked for twice.
-/

namespace DocPlan

/-- The condition that a run asks for when the request names none. -/
def typesCondition : String := "types"

/-- The condition that every package may fall back to. -/
def defaultCondition : String := "default"

/-- The conditions of a run, the most wanted first. -/
structure Conditions where
  names : List String
  deriving DecidableEq, Repr

namespace Conditions

/-- The names after one more; `default` and repetitions are left out. -/
def addName (names : List String) (name : String) : List String :=
  if name = defaultCondition ∨ name ∈ names then names else names ++ [name]

/-- Conditions in the caller's order, `default` at the end. -/
def ofList (names : List String) : Conditions :=
  ⟨names.foldl addName [] ++ [defaultCondition]⟩

/-- A condition and `default`. -/
def single (name : String) : Conditions := ofList [name]

/-- The conditions of a run that names none. -/
def standard : Conditions := single typesCondition

/-- The most wanted condition. -/
def primary (conditions : Conditions) : String :=
  conditions.names.headD defaultCondition

example : (ofList ["default", "import", "types", "import"]).names =
    ["import", "types", "default"] := by decide

end Conditions

end DocPlan
