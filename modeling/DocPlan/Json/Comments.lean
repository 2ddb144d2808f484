import DocPlan.Text.Blank

/-!
# JSON with comments

Configuration files may hold comments to the end of the line, comments between
`/*` and `*/`, and a comma before a closing bracket. `Comments.strip` removes
them in two passes: first the comments, whose line breaks stay, so that every
other character keeps its line; then each comma that only blank characters
separate from a closing bracket. Strings are left alone by both.
-/

namespace DocPlan.Json.Comments

/-- Where a scanner stands. -/
inductive Place where
  | code
  | string
  | escape
  | lineComment
  | blockComment
  deriving DecidableEq, Repr

/-- The place after a character inside a string. -/
def afterStringChar (c : Char) : Place :=
  if c = '\\' then .escape else if c = '"' then .code else .string

/-- The place after a character outside of strings and comments. -/
def afterCodeChar (c : Char) : Place :=
  if c = '"' then .string else .code

/-- Removes comments, except for the line breaks in them. -/
def removeComments : Place → List Char → List Char
  | _, [] => []
  | .code, '/' :: '/' :: rest => removeComments .lineComment rest
  | .code, '/' :: '*' :: rest => removeComments .blockComment rest
  | .code, c :: rest => c :: removeComments (afterCodeChar c) rest
  | .string, c :: rest => c :: removeComments (afterStringChar c) rest
  | .escape, c :: rest => c :: removeComments .string rest
  | .lineComment, c :: rest =>
    if c = '\n' then c :: removeComments .code rest else removeComments .lineComment rest
  | .blockComment, '*' :: '/' :: rest => removeComments .code rest
  | .blockComment, c :: rest =>
    if c = '\n' then c :: removeComments .blockComment rest
    else removeComments .blockComment rest

/-- Whether the first character that is not blank closes a container. -/
def closesNext : List Char → Bool
  | [] => false
  | c :: rest =>
    if Text.isBlankChar c then closesNext rest else c = '\x7d' || c = ']'

/-- Removes the commas before a closing bracket. -/
def removeTrailingCommas : Place → List Char → List Char
  | _, [] => []
  | .string, c :: rest => c :: removeTrailingCommas (afterStringChar c) rest
  | .escape, c :: rest => c :: removeTrailingCommas .string rest
  | _, c :: rest =>
    if c = ',' && closesNext rest then removeTrailingCommas .code rest
    else c :: removeTrailingCommas (afterCodeChar c) rest

/-- Removes comments and the commas before a closing bracket. -/
def stripChars (text : List Char) : List Char :=
  removeTrailingCommas .code (removeComments .code text)

def strip (text : String) : String :=
  String.ofList (stripChars text.toList)

end DocPlan.Json.Comments
