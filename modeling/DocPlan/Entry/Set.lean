import DocPlan.Entry.Kind
import DocPlan.FilePath.Order

/-!
# Sets of entry points

A set of paths, in the order of paths and without two equal ones. Of equal
paths with different spellings the one that came first stays.
-/

namespace DocPlan

/-- Entry points, in the order of paths. -/
structure EntrySet where
  paths : List FilePath
  deriving DecidableEq, Repr

namespace EntrySet

def empty : EntrySet := ⟨[]⟩

/-- Adds a path to an ordered list, unless an equal one is there. -/
def insertPath (path : FilePath) : List FilePath → List FilePath
  | [] => [path]
  | other :: rest =>
    match path.compare other with
    | .lt => path :: other :: rest
    | .eq => other :: rest
    | .gt => other :: insertPath path rest

def insert (set : EntrySet) (path : FilePath) : EntrySet :=
  ⟨insertPath path set.paths⟩

def ofList (paths : List FilePath) : EntrySet :=
  paths.foldl insert empty

/-- The paths of both sets; the first set's spellings stay. -/
def union (a b : EntrySet) : EntrySet :=
  b.paths.foldl insert a

def contains (set : EntrySet) (path : FilePath) : Bool :=
  set.paths.any (·.same path)

def size (set : EntrySet) : Nat := set.paths.length

def isEmpty (set : EntrySet) : Bool := set.paths.isEmpty

/-- Whether all entries are declaration files, and there is one. -/
def allDeclarations (set : EntrySet) : Bool :=
  !set.isEmpty && set.paths.all Entry.isDeclaration

/-- Whether two sets hold the same paths, however they are spelled. -/
def same (a b : EntrySet) : Bool :=
  a.paths.map (·.components) = b.paths.map (·.components)

end EntrySet

end DocPlan
