import DocPlan.FileSystem.Walk
import DocPlan.Manifest.Basic

/-!
# Finding and loading manifests

The manifest of a directory is the one in the nearest directory above it, the
directory itself included. "Above" goes by the text of the path
(`FilePath.ancestors`): down to the root, or to the empty path for a relative
one.
-/

namespace DocPlan

namespace FilePath

/-- A path, its parent, that one's parent, and so on, at most so many of them. -/
def ancestorsWithin : (bound : Nat) → FilePath → List FilePath
  | 0, _ => []
  | bound + 1, path =>
    path :: (match path.parent? with
      | some parent => ancestorsWithin bound parent
      | none => [])

/-- A path and the directories above it. A parent is shorter, so there are no
more of them than bytes. -/
def ancestors (path : FilePath) : List FilePath :=
  ancestorsWithin (path.bytes.length + 1) path

end FilePath

namespace Manifest

/-- The nearest manifest at or above a directory. -/
def find? (fs : FileSystem) (start : FilePath) : Option FilePath :=
  (start.ancestors.map (·.join manifestName)).find? fs.isFile

/-- Reads the manifest at a path. -/
def load (fs : FileSystem) (path : FilePath) : Report Manifest := do
  if fs.isFile path then
    let source ← (fs.readText path).mapError (Error.manifestUnreadable path)
    let manifest ← parse path source
    Noted.info "MANIFEST_LOADED" s!"loaded {path} ({manifest.label})"
    return manifest
  else Report.fail (.manifestNotFound path)

/-- Reads the nearest manifest at or above a directory. -/
def discover (fs : FileSystem) (start : FilePath) : Report Manifest :=
  match find? fs start with
  | some path => load fs path
  | none => Report.fail (.manifestNotFound start)

end Manifest

end DocPlan
