import DocPlan.FilePath.Basic

/-!
# Kinds of entry files

What a file is goes by the end of its name: a declaration file, a source file,
or neither. A declaration file is also a source file by its ending.
-/

namespace DocPlan.Entry

def declarationEndings : List String := [".d.ts", ".d.mts", ".d.cts"]

def sourceEndings : List String :=
  [".ts", ".tsx", ".mts", ".cts", ".js", ".jsx", ".mjs", ".cjs"]

/-- The name of a file as a text, empty for a path without a file name and for a name that is no
text. -/
def nameText (path : FilePath) : List Char :=
  (path.fileName?.bind Utf8.decode?).getD []

/-- Whether the name of a file ends in one of some endings. -/
def endsIn (endings : List String) (path : FilePath) : Bool :=
  endings.any fun ending => ending.toList.isSuffixOf (nameText path)

def isDeclaration (path : FilePath) : Bool := endsIn declarationEndings path

def isSource (path : FilePath) : Bool := endsIn sourceEndings path

/-- Whether a file may be an entry point. -/
def isAllowed (path : FilePath) : Bool := isDeclaration path || isSource path

/-- Whether a path stands for several files that are found later. -/
def isPattern (path : FilePath) : Bool := path.chars.contains '*'

/-- Whether a path leads to declarations: a declaration file, or a pattern that
does not end like a source file. -/
def yieldsDeclarations (path : FilePath) : Bool :=
  isDeclaration path || (isPattern path && !isSource path)

end DocPlan.Entry
