import DocPlan.Json.Basic
import DocPlan.Number.Shortest

/-!
# Writing JSON

Two layouts of one value: `Json.compact` without any space, and `Json.pretty`
with one item per line, each level indented by two spaces; a container without
items stays on one line.

In strings only the quote, the backslash and the control characters below the
space are escaped.
-/

namespace DocPlan.Json

def hexChar (n : Nat) : Char :=
  if n < 10 then Char.ofNat ('0'.toNat + n) else Char.ofNat ('a'.toNat + (n - 10))

/-- The characters that stand for a character inside a string. -/
def escapeChar (c : Char) : List Char :=
  match c with
  | '"' => ['\\', '"']
  | '\\' => ['\\', '\\']
  | '\n' => ['\\', 'n']
  | '\r' => ['\\', 'r']
  | '\t' => ['\\', 't']
  | '\x08' => ['\\', 'b']
  | '\x0c' => ['\\', 'f']
  | _ =>
    if c.toNat < 0x20 then
      ['\\', 'u', '0', '0', hexChar (c.toNat / 16), hexChar (c.toNat % 16)]
    else [c]

/-- A string with its quotes. -/
def quoted (text : String) : String :=
  "\"" ++ String.ofList (text.toList.flatMap escapeChar) ++ "\""

/-- The text of a number. -/
def numberText : Number → String
  | .integer value => toString value
  | .real value => String.ofList (Shortest.render value)

/-- A closing brace on its own cannot stand in an interpolated string. -/
def braced (inner : String) : String := "\x7b" ++ inner ++ "\x7d"

mutual

/-- The text of a value without spaces. -/
def compact : Json → String
  | .null => "null"
  | .boolean value => if value then "true" else "false"
  | .number value => numberText value
  | .string text => quoted text
  | .array items => "[" ++ ",".intercalate (compactItems items) ++ "]"
  | .object members => braced (",".intercalate (compactMembers members))

def compactItems : List Json → List String
  | [] => []
  | item :: rest => compact item :: compactItems rest

def compactMembers : List (String × Json) → List String
  | [] => []
  | (key, value) :: rest => (quoted key ++ ":" ++ compact value) :: compactMembers rest

end

/-- The spaces at the beginning of a line of a level. -/
def indentation (level : Nat) : String :=
  String.ofList (List.replicate (2 * level) ' ')

/-- Items one per line between two brackets, or the brackets alone. -/
def block (opening closing : String) (level : Nat) (items : List String) : String :=
  if items.isEmpty then opening ++ closing
  else
    let lines := items.map fun item => "\n" ++ indentation (level + 1) ++ item
    opening ++ ",".intercalate lines ++ "\n" ++ indentation level ++ closing

mutual

/-- The text of a value with one item per line, at a level of indentation. -/
def prettyAt (level : Nat) : Json → String
  | .null => "null"
  | .boolean value => if value then "true" else "false"
  | .number value => numberText value
  | .string text => quoted text
  | .array items => block "[" "]" level (prettyItems (level + 1) items)
  | .object members => block "\x7b" "\x7d" level (prettyMembers (level + 1) members)

def prettyItems (level : Nat) : List Json → List String
  | [] => []
  | item :: rest => prettyAt level item :: prettyItems level rest

def prettyMembers (level : Nat) : List (String × Json) → List String
  | [] => []
  | (key, value) :: rest =>
    (quoted key ++ ": " ++ prettyAt level value) :: prettyMembers level rest

end

/-- The text of a value with one item per line. -/
def pretty (value : Json) : String := prettyAt 0 value

end DocPlan.Json
