import DocPlan.FilePath.Basic
import DocPlan.Keyed

/-!
# Resolved exports

The file of each exported subpath, in the order in which the subpaths were
first declared.
-/

namespace DocPlan

/-- Exported subpaths and their files. -/
structure ExportTable where
  entries : List (String × FilePath)
  deriving DecidableEq, Repr

namespace ExportTable

def empty : ExportTable := ⟨[]⟩

/-- The file of a subpath. -/
def get? (table : ExportTable) (key : String) : Option FilePath :=
  Keyed.get? key table.entries

/-- Sets the file of a subpath; one that is there keeps its place. -/
def insert (table : ExportTable) (key : String) (path : FilePath) : ExportTable :=
  ⟨Keyed.put key path table.entries⟩

/-- Sets the file of a subpath as `insert` does, and gives back the file that it had. -/
def exchange (table : ExportTable) (key : String) (path : FilePath) :
    Option FilePath × ExportTable :=
  let (old, entries) := Keyed.exchange key path table.entries
  (old, ⟨entries⟩)

def keys (table : ExportTable) : List String := Keyed.keys table.entries

def paths (table : ExportTable) : List FilePath := table.entries.map (·.2)

def size (table : ExportTable) : Nat := table.entries.length

def isEmpty (table : ExportTable) : Bool := table.entries.isEmpty

end ExportTable

end DocPlan
