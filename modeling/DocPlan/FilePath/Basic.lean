import DocPlan.Text.Segments
import DocPlan.Text.Utf8

/-!
# Paths as bytes and as components

A path is a list of bytes, kept as it was built. It need not be a text: `FilePath.text?` is the
text that it spells, if there is one, and `FilePath.chars` are the characters that it is shown
as, with replacement characters where it is none.

What a path means is given by its components (`FilePath.components`): the separator may be
repeated or stand at the end, and a component `.` counts only at the very beginning of a relative
path. Two paths with the same components are the same path (`FilePath.same`), however they are
spelled.

The operations here build one path from others: `join`, `parent?` and `withDefaultExtension` cut
or extend the bytes and leave the rest of the spelling alone.
-/

namespace DocPlan

/-- A name in a directory. -/
abbrev FileName := List UInt8

/-- Where a name is wanted, a text stands for its bytes. -/
instance : Coe (List Char) FileName := ⟨Utf8.encode⟩

/-- A path, as bytes. -/
structure FilePath where
  bytes : List UInt8
  deriving DecidableEq, Repr, Inhabited

namespace FilePath

open Text

/-- The byte between two names. -/
def separator : UInt8 := '/'.toUInt8

/-- The byte of `.` and `..`, and before an extension. -/
def dot : UInt8 := '.'.toUInt8

/-- The path that a text spells. -/
def ofString (text : String) : FilePath := ⟨text.toList⟩

/-- The characters that a path is shown as. -/
def chars (path : FilePath) : List Char := Utf8.decodeLossy path.bytes

def toString (path : FilePath) : String := String.ofList path.chars

instance : ToString FilePath := ⟨toString⟩

/-- The text that a path spells. -/
def text? (path : FilePath) : Option (List Char) := Utf8.decode? path.bytes

/-- Whether a path spells a text. -/
def isText (path : FilePath) : Bool := path.text?.isSome

/-- The segments of the bytes of a path. -/
abbrev segments (bytes : List UInt8) : List FileName := Text.segments separator bytes

/-- One step of a path. -/
inductive Component where
  /-- The root directory. -/
  | root
  /-- A leading `.`. -/
  | current
  /-- A `..`. -/
  | parent
  /-- Any other name. -/
  | name (bytes : FileName)
  deriving DecidableEq, Repr

def isAbsolute (path : FilePath) : Bool := isRooted separator path.bytes

/-- Whether a segment that is not the first of a relative path counts for
nothing. -/
def isNoise (segment : List UInt8) : Bool :=
  segment = [] || segment = [dot]

/-- The component of a segment that counts. -/
def ofSegment (segment : List UInt8) : Component :=
  if segment = [dot, dot] then .parent else .name segment

/-- The components of segments none of which is the first of a relative path. -/
def bodyComponents (body : List (List UInt8)) : List Component :=
  (body.filter (!isNoise ·)).map ofSegment

/-- The component that the first segment of a relative path stands for. -/
def headComponents (segment : List UInt8) : List Component :=
  if segment = [] then []
  else if segment = [dot] then [.current]
  else [ofSegment segment]

/-- The components of a path. -/
def components (path : FilePath) : List Component :=
  match Text.segments separator path.bytes with
  | [] => []
  | head :: body =>
    if path.isAbsolute then .root :: bodyComponents body
    else headComponents head ++ bodyComponents body

/-- Whether two paths have the same components. -/
def same (p q : FilePath) : Bool := p.components = q.components

theorem same_iff {p q : FilePath} : p.same q = true ↔ p.components = q.components :=
  decide_eq_true_iff

theorem same_self (p : FilePath) : p.same p = true := same_iff.mpr rfl

theorem same_comm (p q : FilePath) : p.same q = q.same p := by
  rw [Bool.eq_iff_iff, same_iff, same_iff]
  exact eq_comm

/-- The last component, when it is an ordinary name. -/
def fileName? (path : FilePath) : Option FileName :=
  match path.components.getLast? with
  | some (.name bytes) => some bytes
  | _ => none

/-- Whether a file name has a dot after its first byte. -/
def hasExtension (name : FileName) : Bool :=
  (name.drop 1).contains dot

/-- A path ending in its file name, with an extension put after the file name
if that has none. -/
def withDefaultExtension (path : FilePath) (extension : String) : FilePath :=
  match path.fileName? with
  | some name =>
    if hasExtension name then path else ⟨path.bytes ++ dot :: Utf8.encode extension.toList⟩
  | none => path

/-- The second path seen from the first; an absolute one stands for itself. -/
def join (base path : FilePath) : FilePath :=
  if path.isAbsolute then path else ⟨withSeparator separator base.bytes ++ path.bytes⟩

/-- Drops the segments at the end that count for nothing. -/
def trimEnd (body : List (List UInt8)) : List (List UInt8) :=
  (body.reverse.dropWhile isNoise).reverse

/-- The path up to its last component; none for the root and for a path without
components. The bytes end with the component before. -/
def parent? (path : FilePath) : Option FilePath :=
  match Text.segments separator path.bytes with
  | [] => none
  | head :: body =>
    let body := trimEnd body
    if path.isAbsolute then
      if body.isEmpty then none
      else some ⟨separator :: joinSegments separator (trimEnd body.dropLast)⟩
    else if head.isEmpty then none
    else if body.isEmpty then some ⟨[]⟩
    else some ⟨joinSegments separator (head :: trimEnd body.dropLast)⟩

example : (ofString "a/./b").parent? = some (ofString "a") := by decide
example : (ofString "//a").parent? = some (ofString "/") := by decide
example : (ofString ".").parent? = some (ofString "") := by decide
example : (ofString "/.").parent? = none := by decide
example : toString ⟨'/'.toUInt8 :: [0xFF]⟩ = "/\ufffd" := by decide

end FilePath

end DocPlan
