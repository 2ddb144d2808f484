import DocPlan.FilePath.Basic

/-!
# Normal paths

A normal path holds neither `.` nor `..` and no separator that counts for
nothing. `FilePath.normalize` finds the normal path by its bytes alone: each
`..` takes away the name before it, and one that has no name before it is
dropped, so that nothing climbs above the root or above the beginning of a
relative path.
-/

namespace DocPlan.FilePath

/-- The names that remain, the last one first, after one more component. -/
def resolveStep (names : List FileName) : Component → List FileName
  | .root => names
  | .current => names
  | .parent => names.drop 1
  | .name bytes => bytes :: names

/-- The names that remain when every `..` is carried out. -/
def resolveNames (components : List Component) : List FileName :=
  (components.foldl resolveStep []).reverse

/-- The path of a list of names, from the root or relative. -/
def ofNames (absolute : Bool) (names : List FileName) : FilePath :=
  ⟨(if absolute then [separator] else []) ++ Text.joinSegments separator names⟩

/-- The normal path of a path. -/
def normalize (path : FilePath) : FilePath :=
  ofNames path.isAbsolute (resolveNames path.components)

/-- The normal path of a path seen from a base. -/
def absolutize (base path : FilePath) : FilePath :=
  normalize (base.join path)

example : (ofString "/pkg/src/../dist/./a.d.ts").normalize = ofString "/pkg/dist/a.d.ts" := by
  decide
example : (ofString "../../a").normalize = ofString "a" := by decide

end DocPlan.FilePath
