import DocPlan.FilePath.Basic
import DocPlan.Text.Order

/-!
# The order of paths

Paths are ordered by their components, one by one; a path comes before those
that continue it. The root comes first, then `.`, then `..`, then names in the
order of their bytes. So `/a/b/x` comes before `/a/b-c`, although the
separator is the greater byte.
-/

namespace DocPlan.FilePath

/-- The place of a kind of component in the order. -/
def Component.rank : Component → Nat
  | .root => 0
  | .current => 1
  | .parent => 2
  | .name _ => 3

def Component.compare (a b : Component) : Ordering :=
  match a, b with
  | .name x, .name y => Text.compareBytes x y
  | _, _ => Ord.compare a.rank b.rank

/-- The order of lists of components. -/
def compareComponents : List Component → List Component → Ordering
  | [], [] => .eq
  | [], _ :: _ => .lt
  | _ :: _, [] => .gt
  | a :: as, b :: bs =>
    match a.compare b with
    | .eq => compareComponents as bs
    | order => order

/-- The order of paths. -/
def compare (p q : FilePath) : Ordering :=
  compareComponents p.components q.components

/-- Whether a path does not come after another. -/
def le (p q : FilePath) : Bool := compare p q != .gt

end DocPlan.FilePath
