/-!
# Segments

A text is cut at a separator into segments, and segments are joined with a separator between two
of them. Paths are cut as bytes and patterns as characters.
-/

namespace DocPlan.Text

variable {α : Type} [DecidableEq α]

/-- Puts an element in front of the first segment. -/
def extendFirst (c : α) : List (List α) → List (List α)
  | [] => [[c]]
  | first :: rest => (c :: first) :: rest

/-- The segments between separators; there is always one more than separators. -/
def segments (separator : α) : List α → List (List α)
  | [] => [[]]
  | c :: rest =>
    if c = separator then [] :: segments separator rest
    else extendFirst c (segments separator rest)

/-- Joins segments with a separator between two of them. -/
def joinSegments (separator : α) : List (List α) → List α
  | [] => []
  | [last] => last
  | first :: second :: rest => first ++ separator :: joinSegments separator (second :: rest)

/-- Whether a text begins with a separator. -/
def isRooted (separator : α) : List α → Bool
  | [] => false
  | c :: _ => c = separator

/-- A text with a separator after it, if it needs one. -/
def withSeparator (separator : α) (text : List α) : List α :=
  match text.getLast? with
  | none => text
  | some last => if last = separator then text else text ++ [separator]

end DocPlan.Text
